import Cs370.MsDos.Reader

/-!
# The table of the first FAT

`read_file_allocation_tables` unpacks two entries from each group of three bytes. A FAT12 table
gives entry `n` by a formula of its own, at `n + n / 2` bytes from its start (`fat12Entry`);
`readFileAllocationTables_decodes` says that the two agree for FATs of every size.

The loop stores whole groups into a table that need not have room for one: of a FAT of `3 q + 2`
bytes it stores one entry more than it has allocated (`readFileAllocationTables_inside_iff`).
-/

namespace Cs370.MsDos

/-! ## Entries of twelve bits -/

/-- Entry `n` of the FAT12 table at byte `p` of an image. -/
def fat12Entry (image : List UInt8) (p n : Nat) : Nat :=
  let lo := (image.getD (p + n + n / 2) 0).toNat
  let hi := (image.getD (p + n + n / 2 + 1) 0).toNat
  if n % 2 = 0 then lo ||| (hi &&& 0x0f) <<< 8 else lo >>> 4 ||| hi <<< 4

/-- A group of three bytes has entries `2 j` and `2 j + 1`. -/
theorem twelveBitsTwice_fill (env : Env) (dst : Dst) {f : File} {p j : Nat}
    (hoff : f.off = p + 3 * j) (hlen : f.off + 3 ≤ f.data.length) :
    (twelveBitsTwice (f.fill env dst 3)).1.toNat = fat12Entry f.data p (2 * j) ∧
      (twelveBitsTwice (f.fill env dst 3)).2.toNat = fat12Entry f.data p (2 * j + 1) := by
  have hget {i : Nat} (hi : i < 3) : (f.fill env dst 3)[i] = f.data.getD (p + 3 * j + i) 0 := by
    rw [File.fill_getElem, hoff, List.getD_eq_getElem?_getD,
      List.getElem?_eq_getElem (show p + 3 * j + i < f.data.length by omega)]
    rfl
  obtain ⟨h1, h2⟩ := twelveBitsTwice_toNat (f.fill env dst 3)
  rw [h1, h2, hget (by omega), hget (by omega), hget (by omega)]
  constructor
  · rw [fat12Entry, if_pos (by omega), show p + 2 * j + 2 * j / 2 = p + 3 * j by omega]
    rfl
  · rw [fat12Entry, if_neg (by omega),
      show p + (2 * j + 1) + (2 * j + 1) / 2 = p + 3 * j + 1 by omega]

/-! ## The loop -/

theorem numFatEntries_eq {b : Boot} (h3 : 3 ≤ bytesPerFat b) (h31 : bytesPerFat b < 2 ^ 31) :
    numFatEntries b = 2 * bytesPerFat b / 3 - 2 ∧ fatLoads b := by
  rcases numFatEntries_cases b with ⟨hload, hnum, -⟩ | ⟨hlt, -⟩
  · exact ⟨by rw [hnum, Nat.mod_eq_of_lt (by omega)], hload⟩
  · omega

theorem pairCells_decodes (env : Env) {f : File} {p n k : Nat} (hoff : f.off = p + 3)
    (hlen : p + 3 + 3 * n ≤ f.data.length) (hk : k < 2 * n) :
    ∃ x, (pairCells env 0 n f)[k]? = some x ∧ x.toNat = fat12Entry f.data p (k + 2) := by
  obtain ⟨j, hj⟩ : ∃ j, k = 2 * j ∨ k = 2 * j + 1 := ⟨k / 2, by omega⟩
  have hafter := f.afterAll_off (pairReads 0 j)
  rw [pairReads_sum] at hafter
  obtain ⟨hlo, hhi⟩ := pairCells_get env (i := 0) f (show j < n by omega)
  obtain ⟨h1, h2⟩ := twelveBitsTwice_fill env (.fatPair (0 + 2 * j))
    (f := f.afterAll (pairReads 0 j)) (p := p) (j := j + 1) (by omega)
    (by rw [File.afterAll_data]; omega)
  rw [File.afterAll_data] at h1 h2
  rcases hj with rfl | rfl
  · exact ⟨_, hlo, h1⟩
  · exact ⟨_, hhi, h2⟩

/-- The elements of the table that follow a call: `read_twelve_bits_twice` stores two from the
index it is given. -/
def ReadCall.stores (c : ReadCall) : List Nat :=
  match c.dst with
  | .fatPair i => [i, i + 1]
  | _ => []

theorem pairReads_stores (f : File) (i n : Nat) :
    (f.calls (pairReads i n)).flatMap ReadCall.stores = List.range' i (2 * n) := by
  induction n generalizing f i with
  | zero => rfl
  | succ n ih =>
    rw [pairReads, File.calls, List.flatMap_cons, ih, Nat.mul_succ, List.range'_succ,
      List.range'_succ]
    rfl

theorem fatReads_stores (f : File) (b : Boot) :
    (f.calls (fatReads b)).flatMap ReadCall.stores =
      List.range (2 * ((numFatEntries b + 1) / 2)) := by
  rw [fatReads, File.calls, List.flatMap_cons, pairReads_stores, List.range_eq_range']
  rfl

section
variable (env : Env) {b : Boot} {f : File} (h3 : 3 ≤ b.sectorsPerFat.toNat * b.bytesPerSector.toNat)
  (h31 : b.sectorsPerFat.toNat * b.bytesPerSector.toNat < 2 ^ 31)
  (hm : env.malloc (numFatEntries b * 2) = true)
include h3 h31 hm

/-- **The FAT is decoded exactly.** When the image has the first FAT and one more byte, the media
descriptor, the end-of-file marker and the table hold the entries of the FAT12 table at the
descriptor's offset, and every entry of the table lies inside the FAT. What is stored does not
depend on the seek that follows. -/
theorem readFileAllocationTables_decodes
    (hlen : f.off + b.sectorsPerFat.toNat * b.bytesPerSector.toNat + 1 ≤ f.data.length) :
    ∃ media eof t f', loadFileAllocationTables env b f = .ok ((media, eof, t), f') ∧
      readFileAllocationTables env b f = (do boolSeek (remainingFatBytes b); return (media, eof, t) :
        Prog (UInt8 × UInt16 × Table UInt16)) f' ∧
      media.toNat = fat12Entry f.data f.off 0 % 2 ^ 8 ∧ eof.toNat = fat12Entry f.data f.off 1 ∧
      t.size = numFatEntries b ∧
      ∀ k < numFatEntries b,
        (∃ x, t.get? k = some x ∧ x.toNat = fat12Entry f.data f.off (k + 2)) ∧
        f.off + (k + 2) + (k + 2) / 2 + 1 <
          f.off + b.sectorsPerFat.toNat * b.bytesPerSector.toNat := by
  rw [← bytesPerFat_eq] at *
  obtain ⟨hnum, hload⟩ := numFatEntries_eq h3 h31
  obtain ⟨hmedia, heof⟩ := twelveBitsTwice_fill env .markers (f := f) (p := f.off) (j := 0) rfl
    (by omega)
  have hrun := loadFileAllocationTables_run f hm hload
  refine ⟨_, _, _, _, hrun, Prog.bind_ok hrun, ?_, heof, rfl, fun k hk => ?_⟩
  · rw [UInt16.toNat_toUInt8, hmedia]
  · have hoff := f.after_off .markers 3
    obtain ⟨x, hx, hdec⟩ := pairCells_decodes env (f := f.after .markers 3) (p := f.off)
      (n := (numFatEntries b + 1) / 2) (k := k) (by omega) (by rw [File.after_data]; omega)
      (by omega)
    exact ⟨⟨x, (Table.get?_natCast hk).trans hx, hdec⟩, by omega⟩

omit h31 hm in
theorem numFatEntries_even_iff (hnum : numFatEntries b = 2 * bytesPerFat b / 3 - 2) :
    numFatEntries b % 2 = 0 ↔ bytesPerFat b % 3 ≠ 2 := by
  rw [← bytesPerFat_eq] at h3
  omega

/-- **The loop stays inside its table** exactly when the size of a FAT is not 2 modulo 3: it
stores the elements from 0 on in pairs, and only an even number of them has room for the last
pair. -/
theorem readFileAllocationTables_inside_iff (f : File) :
    ∃ media eof t f' calls, loadFileAllocationTables env b f = .ok ((media, eof, t), f') ∧
      readFileAllocationTables env b f = (do boolSeek (remainingFatBytes b); return (media, eof, t) :
        Prog (UInt8 × UInt16 × Table UInt16)) f' ∧
      f'.reads = f.reads ++ calls ∧ t.size = numFatEntries b ∧
      calls.flatMap ReadCall.stores = List.range t.cells.length ∧
      ((∀ i ∈ calls.flatMap ReadCall.stores, i < numFatEntries b) ↔
        b.sectorsPerFat.toNat * b.bytesPerSector.toNat % 3 ≠ 2) := by
  have heven := numFatEntries_even_iff h3
  rw [← bytesPerFat_eq] at *
  obtain ⟨hnum, hload⟩ := numFatEntries_eq h3 h31
  have hrun := loadFileAllocationTables_run f hm hload
  refine ⟨_, _, _, _, f.calls (fatReads b), hrun, Prog.bind_ok hrun, ?_, rfl, ?_, ?_⟩
  · rw [File.afterAll_reads]
  · rw [fatReads_stores, pairCells_length]
  · rw [fatReads_stores, ← heven hnum]
    simp only [List.mem_range]
    refine ⟨fun h => ?_, fun h i hi => by omega⟩
    by_contra hodd
    exact absurd (h (numFatEntries b) (by omega)) (Nat.lt_irrefl _)

end

/-! ## A floppy disk -/

/-- A boot sector with the given size of a FAT: 7 sectors are a disk of 1.2 MB, 9 one of 1.44. -/
def floppyBoot (sectorsPerFat : UInt16) : Boot where
  jmpBoot := .replicate 3 0
  oemName := .replicate 8 0x20
  bytesPerSector := 512
  sectorsPerCluster := 1
  reservedSectors := 1
  fatCopies := 2
  maxRootDirEntries := 224
  totalSectors := 2400
  mediaType := 0xf9
  sectorsPerFat
  sectorsPerTrack := 15
  numHeads := 2
  numHidden := 0
  bootstrap := .replicate 480 0
  signature := .replicate 2 0

def floppyFat : File := ⟨imageOf 15360 UInt8.ofNat, 512, []⟩

theorem readFileAllocationTables_decodes_floppy :
    ∃ media eof t f',
      loadFileAllocationTables Env.plain (floppyBoot 7) floppyFat = .ok ((media, eof, t), f') ∧
      ∀ k < numFatEntries (floppyBoot 7),
        ∃ x, t.get? k = some x ∧ x.toNat = fat12Entry floppyFat.data 512 (k + 2) := by
  have hlen : floppyFat.data.length = 15360 := by rw [floppyFat, imageOf_length]
  have hB : (floppyBoot 7).sectorsPerFat.toNat * (floppyBoot 7).bytesPerSector.toNat = 3584 := rfl
  have hoff : floppyFat.off = 512 := rfl
  obtain ⟨media, eof, t, f', hrun, -, -, -, -, hk⟩ :=
    readFileAllocationTables_decodes Env.plain (b := floppyBoot 7) (f := floppyFat)
      (by omega) (by omega) rfl (by omega)
  exact ⟨media, eof, t, f', hrun, fun k hlt => (hk k hlt).1⟩

/-- With the nine sectors a FAT of a disk of 1.44 MB the loop stays inside. -/
theorem readFileAllocationTables_inside_nine :
    ∃ media eof t f' calls,
      loadFileAllocationTables Env.plain (floppyBoot 9) floppyFat = .ok ((media, eof, t), f') ∧
      f'.reads = floppyFat.reads ++ calls ∧ ∀ i ∈ calls.flatMap ReadCall.stores, i < t.size := by
  have hB : (floppyBoot 9).sectorsPerFat.toNat * (floppyBoot 9).bytesPerSector.toNat = 4608 := rfl
  obtain ⟨media, eof, t, f', calls, hrun, -, hreads, hsize, -, hiff⟩ :=
    readFileAllocationTables_inside_iff Env.plain (b := floppyBoot 9) (by omega) (by omega) rfl
      floppyFat
  refine ⟨media, eof, t, f', calls, hrun, hreads, ?_⟩
  rw [hsize]
  exact hiff.mpr (by omega)

/-- The table of a disk of 1.2 MB has 2387 elements, and the loop stores element 2387. -/
theorem readFileAllocationTables_outside :
    ∃ media eof t f' calls,
      readFileAllocationTables Env.plain (floppyBoot 7) floppyFat = .ok ((media, eof, t), f') ∧
      f'.reads = floppyFat.reads ++ calls ∧ t.size = 2387 ∧
      2387 ∈ calls.flatMap ReadCall.stores := by
  have hnum : numFatEntries (floppyBoot 7) = 2387 := rfl
  have hB : bytesPerFat (floppyBoot 7) = 3584 := rfl
  obtain ⟨-, hload⟩ := numFatEntries_eq (b := floppyBoot 7) (by omega) (by omega)
  have hlen : floppyFat.data.length = 15360 := by rw [floppyFat, imageOf_length]
  have hoff : floppyFat.off = 512 := rfl
  have hrem : remainingFatBytes (floppyBoot 7) = 3584 := rfl
  have hend : seekOk (fatEnd (floppyBoot 7) floppyFat).off := by
    rw [seekOk, fatEnd, File.lseekSet_off, File.afterAll_off, hlen, hrem, hoff]
    omega
  refine ⟨_, _, _, _, floppyFat.calls (fatReads (floppyBoot 7)),
    (readFileAllocationTables_run floppyFat rfl hload).trans (if_pos hend), ?_, hnum, ?_⟩
  · rw [fatEnd, File.lseekSet_reads, File.afterAll_reads]
  · rw [fatReads_stores, hnum]
    exact List.mem_range.mpr (by omega)

end Cs370.MsDos
