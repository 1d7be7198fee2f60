import Mathlib.Tactic.Ring
import Cs370.MsDos.Reader

/-!
# The layout of a volume

Where the reader finds the structures of a volume, against where the extractor expects them.
The reader reaches the root directory by relative seeks and by consuming the first FAT in
groups of three bytes; `extract_single_file` computes its position in one formula. The loop
consumes `3 ⌈(⌊2 B / 3⌋ - 2) / 2⌉ + 3` bytes of a FAT of `B` bytes (`fatReads_sum`), which is
`B` only when 3 divides it.
-/

namespace Cs370.MsDos

open CInt

/-- `read_fat12` up to the call of `read_root_directory`. -/
def readToRoot (env : Env) : Prog (Boot × UInt8 × UInt16 × Table UInt16) := do
  let boot ← readBootSector env
  skipReservedSectors boot
  let tables ← readFileAllocationTables env boot
  return (boot, tables)

/-- `read_fat12` from the call of `read_root_directory` on. -/
def readFromRoot (env : Env) (boot : Boot) (tables : UInt8 × UInt16 × Table UInt16) :
    Prog Fat12 := do
  let (mediaDescriptor, eofMarker, fatEntries) := tables
  let (rootDirEntries, volumeLabel) ← readRootDirectory env boot
  return { boot, mediaDescriptor, eofMarker, fatEntries, rootDirEntries, volumeLabel }

theorem readFat12_eq (env : Env) :
    readFat12 env = readToRoot env >>= fun r => readFromRoot env r.1 r.2 := by
  simp only [readFat12, readToRoot, readFromRoot, bind_assoc, pure_bind]

/-- The offset of the root directory on the medium. -/
def rootOffset (b : Boot) : Nat :=
  (b.reservedSectors.toNat + b.sectorsPerFat.toNat * b.fatCopies.toNat) * b.bytesPerSector.toNat

/-- A boot sector of a volume with a reserved sector, a FAT copy and a FAT that holds a group,
whose layout products are at most `2 ^ 31`. -/
structure PlainLayout (b : Boot) : Prop where
  reserved : 1 ≤ b.reservedSectors.toNat
  copies : 1 ≤ b.fatCopies.toNat
  fat : 3 ≤ b.sectorsPerFat.toNat * b.bytesPerSector.toNat
  small : rootOffset b ≤ 2 ^ 31

theorem rootOffset_split (b : Boot) :
    rootOffset b = b.reservedSectors.toNat * b.bytesPerSector.toNat +
      b.fatCopies.toNat * bytesPerFat b := by
  rw [bytesPerFat_eq, rootOffset]
  ring

section
variable {b : Boot} (h : PlainLayout b)
include h

theorem PlainLayout.bytesPerSector_pos : 0 < b.bytesPerSector.toNat := by
  rcases Nat.eq_zero_or_pos b.bytesPerSector.toNat with h0 | h0
  · have := h.fat
    rw [h0] at this
    omega
  · exact h0

theorem PlainLayout.bytesPerFat_le : bytesPerFat b ≤ b.fatCopies.toNat * bytesPerFat b :=
  Nat.le_mul_of_pos_left _ h.copies

theorem PlainLayout.bytesPerFat_lt : bytesPerFat b < 2 ^ 31 := by
  have h1 := h.bytesPerFat_le
  have h2 := rootOffset_split b
  have h3 : 1 ≤ b.reservedSectors.toNat * b.bytesPerSector.toNat :=
    Nat.mul_pos h.reserved h.bytesPerSector_pos
  have h4 := h.small
  omega

theorem PlainLayout.reservedSectorBytes_eq :
    b.bytesPerSector.toNat + reservedSectorBytes b =
      b.reservedSectors.toNat * b.bytesPerSector.toNat := by
  have h1 := rootOffset_split b
  have h2 := h.small
  have hr := h.reserved
  obtain ⟨r, hr'⟩ : ∃ r, b.reservedSectors.toNat = r + 1 := ⟨b.reservedSectors.toNat - 1, by omega⟩
  have hmul : b.reservedSectors.toNat * b.bytesPerSector.toNat =
      r * b.bytesPerSector.toNat + b.bytesPerSector.toNat := by rw [hr']; ring
  have hcast : ((b.reservedSectors.toNat : Int) - 1) * b.bytesPerSector.toNat =
      ((r * b.bytesPerSector.toNat : Nat) : Int) := by rw [hr']; push_cast; ring
  unfold reservedSectorBytes
  rw [hcast, u32_of_lt (by omega)]
  omega

theorem PlainLayout.remainingFatBytes_eq :
    bytesPerFat b + remainingFatBytes b = b.fatCopies.toNat * bytesPerFat b := by
  have h1 := rootOffset_split b
  have h2 := h.small
  have hc := h.copies
  obtain ⟨c, hc'⟩ : ∃ c, b.fatCopies.toNat = c + 1 := ⟨b.fatCopies.toNat - 1, by omega⟩
  have hmul : b.fatCopies.toNat * bytesPerFat b = c * bytesPerFat b + bytesPerFat b := by
    rw [hc']; ring
  have hcast : ((b.fatCopies.toNat : Int) - 1) * bytesPerFat b =
      ((c * bytesPerFat b : Nat) : Int) := by rw [hc']; push_cast; ring
  unfold remainingFatBytes
  rw [hcast, u32_of_lt (by omega)]
  omega

theorem PlainLayout.baseAddress_eq :
    baseAddress b = rootOffset b + b.maxRootDirEntries.toNat * dirEntryMemberSize := by
  have h1 := h.small
  have h2 := b.maxRootDirEntries.toNat_lt
  have hd : b.maxRootDirEntries.toNat * dirEntryMemberSize =
      b.maxRootDirEntries.toNat * 32 := rfl
  unfold baseAddress
  rw [show ((b.reservedSectors.toNat : Int) + b.sectorsPerFat.toNat * b.fatCopies.toNat) *
      b.bytesPerSector.toNat + b.maxRootDirEntries.toNat * dirEntryMemberSize =
      ((rootOffset b + b.maxRootDirEntries.toNat * dirEntryMemberSize : Nat) : Int) by
    unfold rootOffset; push_cast; rfl]
  exact u32_of_lt (by omega)

theorem PlainLayout.fatLoads : fatLoads b := by
  have h1 := h.bytesPerFat_lt
  have h2 := h.fat
  rw [← bytesPerFat_eq] at h2
  unfold MsDos.fatLoads
  omega

theorem PlainLayout.fatReads_sum :
    ((fatReads b).map (·.2)).sum =
      bytesPerFat b / 3 * 3 + (if bytesPerFat b % 3 = 2 then 3 else 0) := by
  have h1 := h.bytesPerFat_lt
  have h2 := h.fat
  rw [← bytesPerFat_eq] at h2
  have hn : numFatEntries b = 2 * bytesPerFat b / 3 - 2 := by
    rcases numFatEntries_cases b with ⟨-, hn, -⟩ | ⟨hlt, -⟩
    · rw [hn, Nat.mod_eq_of_lt (by omega)]
    · omega
  rw [fatReads, List.map_cons, List.sum_cons, pairReads_sum, hn]
  split <;> omega

end

/-- The image holds the boot record and everything up to the end of the root directory. -/
structure HoldsVolume (image : List UInt8) (b : Boot) : Prop where
  boot : bootMemberSize ≤ image.length
  root : rootOffset b + b.maxRootDirEntries.toNat * dirEntryMemberSize ≤ image.length

section
variable {env : Env} {image : List UInt8} {b : Boot}

theorem PlainLayout.fatStart_off (hb : bootAt env (openImage image) = b) (h : PlainLayout b)
    (hv : HoldsVolume image b) :
    (fatStart env (openImage image)).off = b.reservedSectors.toNat * b.bytesPerSector.toNat := by
  have hoff : ((openImage image).afterAll bootReads).off = bootMemberSize := by
    rw [bootReads_off, Nat.min_eq_left hv.boot]
  have := h.reservedSectorBytes_eq
  simp only [fatStart, bootEnd, File.lseekSet, hoff, hb]
  omega

/-- The offset the reader has reached before the root directory, on an image that holds the
volume: the first FAT counts with the bytes actually read of it. -/
theorem rootStart_off (hb : bootAt env (openImage image) = b) (h : PlainLayout b)
    (hv : HoldsVolume image b) :
    (rootStart env (openImage image)).off + bytesPerFat b =
      rootOffset b + min ((fatReads b).map (·.2)).sum
        (image.length - b.reservedSectors.toNat * b.bytesPerSector.toNat) := by
  have hfat := h.fatStart_off hb hv
  have hdata : (fatStart env (openImage image)).data = image := by
    simp [fatStart, bootEnd, File.lseekSet, openImage]
  have h1 := h.remainingFatBytes_eq
  have h2 := rootOffset_split b
  have h3 := h.bytesPerFat_le
  rw [rootStart, fatEnd, File.lseekSet, hb]
  simp only
  rw [File.afterAll_off, hdata, hfat]
  omega

/-- The FAT is read up to a byte beside its end. -/
theorem rootStart_near (hb : bootAt env (openImage image) = b) (h : PlainLayout b)
    (hv : HoldsVolume image b) :
    (rootStart env (openImage image)).off ≤ rootOffset b + 1 ∧
      ((rootStart env (openImage image)).off = rootOffset b ↔
        bytesPerFat b % 3 = 0 ∨ (bytesPerFat b % 3 = 2 ∧
          image.length = b.reservedSectors.toNat * b.bytesPerSector.toNat + bytesPerFat b)) := by
  have hoff := rootStart_off hb h hv
  have hsum := h.fatReads_sum
  have hsplit := rootOffset_split b
  have hle := h.bytesPerFat_le
  have hroot := hv.root
  rw [hsum] at hoff
  split at hoff <;> omega

theorem readToRoot_run (hb : bootAt env (openImage image) = b) (h : PlainLayout b)
    (hv : HoldsVolume image b) (hm : env.malloc (numFatEntries b * 2) = true) :
    readToRoot env (openImage image) =
      if seekOk (rootStart env (openImage image)).off then
        .ok ((b, fatAt env b (fatStart env (openImage image))), rootStart env (openImage image))
      else .error .failed := by
  have hboot : BootLoads env (openImage image) := by
    rw [bootLoads_openImage_iff, Nat.min_eq_left hv.boot]
    exact Nat.le_add_right _ _
  have hres : seekOk (fatStart env (openImage image)).off := by
    have hB := h.fat
    have hle := h.bytesPerFat_le
    have hsplit := rootOffset_split b
    have hsmall := h.small
    rw [← bytesPerFat_eq] at hB
    rw [seekOk, h.fatStart_off hb hv]
    omega
  subst hb
  have hskip : skipReservedSectors (bootAt env (openImage image)) (bootEnd env (openImage image)) =
      .ok ((), fatStart env (openImage image)) :=
    (skipReservedSectors_run _ _).trans (if_pos hres)
  have hfat := readFileAllocationTables_run (fatStart env (openImage image)) hm h.fatLoads
  unfold readToRoot
  rw [Prog.bind_ok (readBootSector_eq hboot), Prog.bind_ok hskip]
  by_cases hok : seekOk (rootStart env (openImage image)).off
  · rw [if_pos hok, Prog.bind_ok (hfat.trans (if_pos hok)), Prog.pure_run]
    rfl
  · rw [if_neg hok, Prog.bind_error (hfat.trans (if_neg hok))]

/-- **Reader and extractor agree on the layout** exactly when 3 divides the size of a FAT and the
root directory starts below `2 ^ 31`. (A FAT of `3 q + 2` bytes is read one byte too far; only
an image that ends with its single FAT stops the reader at the right place. At `2 ^ 31` the last
seek is taken for a failure and the directory is not read.) -/
theorem readToRoot_off_iff (hb : bootAt env (openImage image) = b) (h : PlainLayout b)
    (hv : HoldsVolume image b) (hm : env.malloc (numFatEntries b * 2) = true) :
    (∃ tables f, readToRoot env (openImage image) = .ok ((b, tables), f) ∧
      readFat12 env (openImage image) = readFromRoot env b tables f ∧
      f.off = rootOffset b ∧
      f.off = baseAddress b - b.maxRootDirEntries.toNat * dirEntryMemberSize) ↔
    rootOffset b < 2 ^ 31 ∧ (bytesPerFat b % 3 = 0 ∨ (bytesPerFat b % 3 = 2 ∧
      image.length = b.reservedSectors.toNat * b.bytesPerSector.toNat + bytesPerFat b)) := by
  obtain ⟨hnear, hoff⟩ := rootStart_near hb h hv
  have hrun := readToRoot_run hb h hv hm
  have hsmall := h.small
  constructor
  · rintro ⟨tables, f, hok, -, hf, -⟩
    rw [hrun] at hok
    split at hok
    · rename_i hseek
      cases hok
      rw [seekOk, hf] at hseek
      exact ⟨by omega, hoff.mp hf⟩
    · cases hok
  · rintro ⟨hlt, hB⟩
    have hroot := hoff.mpr hB
    rw [if_pos (by rw [seekOk]; omega)] at hrun
    refine ⟨_, _, hrun, ?_, hroot, ?_⟩
    · rw [readFat12_eq, Prog.bind_ok hrun]
    · rw [hroot, h.baseAddress_eq, Nat.add_sub_cancel]

end

theorem smallImage_layout (env : Env) :
    let b := bootAt env (openImage (imageOf 8998 smallByte))
    PlainLayout b ∧ HoldsVolume (imageOf 8998 smallByte) b ∧ bytesPerFat b = 3 ∧
      rootOffset b = 774 := by
  obtain ⟨h1, -, h3, h4, h5, h6⟩ := smallImage_fields env (n := 8998) (g := smallByte) (by decide)
    fun _ _ => rfl
  have hroot : rootOffset (bootAt env (openImage (imageOf 8998 smallByte))) = 774 := by
    rw [rootOffset, h1, h3, h4, h6]; rfl
  refine ⟨⟨by omega, by rw [h4]; decide, by rw [h1, h6], by omega⟩,
    ⟨by rw [imageOf_length]; decide, ?_⟩, by rw [bytesPerFat_eq, h1, h6], hroot⟩
  rw [hroot, h5, imageOf_length]
  decide

theorem readToRoot_off_small :
    ∃ tables f, readToRoot Env.plain (openImage (imageOf 8998 smallByte)) =
        .ok ((bootAt Env.plain (openImage (imageOf 8998 smallByte)), tables), f) ∧ f.off = 774 := by
  obtain ⟨hl, hv, hB, hroot⟩ := smallImage_layout Env.plain
  obtain ⟨tables, f, hrun, -, hoff, -⟩ := (readToRoot_off_iff rfl hl hv rfl).mpr
    ⟨by rw [hroot]; decide, .inl (by rw [hB])⟩
  exact ⟨tables, f, hrun, hoff.trans hroot⟩

/-- All bytes 1: FATs of `257 * 257 = 3 * 22016 + 1` bytes, read one byte short. -/
theorem readToRoot_off_ones :
    let image := imageOf 140322 fun _ => 1
    let b := bootAt Env.plain (openImage image)
    PlainLayout b ∧ HoldsVolume image b ∧
      ∃ tables f, readToRoot Env.plain (openImage image) = .ok ((b, tables), f) ∧
        f.off + 1 = rootOffset b := by
  intro image b
  obtain ⟨h1, -, h3, h4, h5, h6⟩ := bootAt_imageOf Env.plain (n := 140322)
    (g := fun _ => 1) (by decide)
  have e1 : b.bytesPerSector.toNat = 257 := h1
  have e3 : b.reservedSectors.toNat = 257 := h3
  have e4 : b.fatCopies.toNat = 1 := by show (bootAt _ _).fatCopies.toNat = 1; rw [h4]; rfl
  have e5 : b.maxRootDirEntries.toNat = 257 := h5
  have e6 : b.sectorsPerFat.toNat = 257 := h6
  have hB : bytesPerFat b = 66049 := by rw [bytesPerFat_eq, e1, e6]
  have hroot : rootOffset b = 132098 := by rw [rootOffset, e1, e3, e4, e6]
  have hlen : image.length = 140322 := imageOf_length _ _
  have hl : PlainLayout b :=
    ⟨by omega, by omega, by rw [e1, e6]; decide, by omega⟩
  have hv : HoldsVolume image b :=
    ⟨by rw [hlen]; decide, by rw [hroot, e5, hlen]; decide⟩
  have hoff := rootStart_off rfl hl hv
  have hsum := hl.fatReads_sum
  rw [hB, if_neg (by decide)] at hsum
  rw [hsum, hB, hroot, e1, e3, hlen] at hoff
  have hrun := readToRoot_run rfl hl hv rfl
  rw [if_pos (by rw [seekOk]; omega)] at hrun
  exact ⟨hl, hv, _, _, hrun, by omega⟩

end Cs370.MsDos
