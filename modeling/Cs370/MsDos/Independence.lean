import Cs370.MsDos.Names

/-!
# Extraction from two images

Two images with the same boot sector and end-of-file marker that share an entry, its chain and
the bytes of its clusters, whatever else they hold and whatever was extracted from either before.
The walk seeks before every read and the name is written before every `open`, so nothing is
carried over from the calls before (`Session.openedPath`, `EntryChain.extractSingleFile_run`).

The seek is computed in 32 bits. `extractSingleFile_sameOutput_iff` says when the two outputs are
the same: when the images also agree at the addresses of the clusters modulo `2 ^ 32`. Up
to 4 GiB these are the addresses themselves (`SharedFile.foundAlike`).
-/

namespace Cs370.MsDos

open CInt Loop

/-! ## Addresses -/

/-- Where cluster `c` lies in the volume: behind the reserved sectors, the FATs and the root
directory. -/
def clusterAddress (b : Boot) (c : UInt16) : Nat :=
  (b.reservedSectors.toNat + b.sectorsPerFat.toNat * b.fatCopies.toNat) * b.bytesPerSector.toNat +
    b.maxRootDirEntries.toNat * dirEntryMemberSize +
    (c.toNat - 2) * (b.bytesPerSector.toNat * b.sectorsPerCluster.toNat)

theorem clusterOffset_eq_address {b : Boot} {c : UInt16} (hc : 2 ≤ c.toNat) :
    clusterOffset b c = clusterAddress b c % 2 ^ 32 := by
  have hbase : baseAddress b =
      ((b.reservedSectors.toNat + b.sectorsPerFat.toNat * b.fatCopies.toNat) *
        b.bytesPerSector.toNat + b.maxRootDirEntries.toNat * dirEntryMemberSize) % 2 ^ 32 := by
    rw [← u32_natCast]
    unfold baseAddress
    push_cast
    rfl
  rw [clusterOffset_eq hc, clusterStart, hbase, clusterSize_eq, Nat.mod_add_mod, clusterAddress]

def bytesAt (image : List UInt8) (a n : Nat) : List UInt8 := (image.drop a).take n

/-- The two images agree on the first `n` bytes that are read for cluster `c`. -/
def FoundAlike (image₁ image₂ : List UInt8) (b : Boot) (c : UInt16) (n : Nat) : Prop :=
  (bytesAt image₁ (clusterAddress b c % 2 ^ 32) (clusterSize b)).take n =
    (bytesAt image₂ (clusterAddress b c % 2 ^ 32) (clusterSize b)).take n

/-! ## The clusters of an entry -/

/-- The chain of an entry; start cluster 0 says that the file has none. -/
def EntryChain (fat : Fat12) (entry : DirEntry) (l : List UInt16) : Prop :=
  if entry.startCluster = 0 then l = [] else l.head? = some entry.startCluster ∧ Chain fat l

theorem EntryChain.two_le {fat : Fat12} {entry : DirEntry} {l : List UInt16}
    (h : EntryChain fat entry l) {c : UInt16} (hc : c ∈ l) : 2 ≤ c.toNat := by
  unfold EntryChain at h
  split at h
  · rw [h] at hc
    cases hc
  · exact h.2.two_le hc

/-- With a cluster size of 0 the walk ends in the division at the last cluster. -/
theorem run_chain_divisor (env : Env) {fat : Fat12} (filesize : UInt32) {l : List UInt16}
    (hcs : clusterSize fat.boot = 0) (hl : Chain fat l) :
    ∀ (c : UInt16) (f : File) (out : List UInt8), l.head? = some c →
      run (clusterStep env fat filesize) l.length ⟨c, f, out⟩ = some (.error .divisor) := by
  induction hl with
  | @last c he =>
    rintro _ f out ⟨⟩
    refine run_stop ?_
    simp only [clusterStep, he, if_true, if_pos hcs]
  | @link c d l he hd _ ih =>
    rintro _ f out ⟨⟩
    refine (run_next ?_).trans (ih d (writeCluster env fat.boot c (clusterSize fat.boot) f out).1
      (writeCluster env fat.boot c (clusterSize fat.boot) f out).2 rfl)
    simp only [clusterStep, he, if_neg hd]

section
variable {env : Env} {fat : Fat12} {entry : DirEntry} {l : List UInt16}
  {fullName buf : List UInt8} {dirLen : Nat} {f : File}

theorem EntryChain.extractSingleFile_run (h : EntryChain fat entry l)
    (hcs : l = [] ∨ clusterSize fat.boot ≠ 0) (hname : writeName entry fullName dirLen = some buf)
    (hopen : env.openOk (cString buf) = true) :
    ∃ f', extractSingleFile env fat entry fullName dirLen f l.length =
      some (.created ⟨cString buf, permissions entry,
        copyChain (delivered env fat.boot f.data) (clusterSize fat.boot)
          (entry.filesize.toNat % clusterSize fat.boot) l⟩ buf f') := by
  unfold EntryChain at h
  split at h
  · rename_i h0
    refine ⟨f, ?_⟩
    simp only [extractSingleFile, hname, hopen, if_true, h0, ne_eq, not_true_eq_false, if_false, h,
      copyChain]
  · have hne : l ≠ [] := by
      rintro rfl
      cases h.1
    exact h.2.extractSingleFile_run h.1 (hcs.resolve_left hne) hname hopen

theorem EntryChain.extractSingleFile_divisor (h : EntryChain fat entry l) (hl : l ≠ [])
    (hcs : clusterSize fat.boot = 0) (hname : writeName entry fullName dirLen = some buf)
    (hopen : env.openOk (cString buf) = true) :
    extractSingleFile env fat entry fullName dirLen f l.length = some (.fault .divisor) := by
  unfold EntryChain at h
  split at h
  · exact absurd h hl
  · rename_i h0
    have hrun := run_chain_divisor env entry.filesize hcs h.2 entry.startCluster f [] h.1
    simp only [extractSingleFile, hname, hopen, if_true, ne_eq, h0, not_false_eq_true, hrun]

end

/-! ## A file of two images -/

/-- The two volumes share the entry's file. -/
structure SharedFile (fat₁ fat₂ : Fat12) (image₁ image₂ : List UInt8) (entry : DirEntry)
    (l : List UInt16) : Prop where
  boot : fat₂.boot = fat₁.boot
  eofMarker : fat₂.eofMarker = fat₁.eofMarker
  chain₁ : EntryChain fat₁ entry l
  chain₂ : EntryChain fat₂ entry l
  inside₁ : ∀ c ∈ l, clusterAddress fat₁.boot c + clusterSize fat₁.boot ≤ image₁.length
  inside₂ : ∀ c ∈ l, clusterAddress fat₁.boot c + clusterSize fat₁.boot ≤ image₂.length
  bytes : ∀ c ∈ l, bytesAt image₁ (clusterAddress fat₁.boot c) (clusterSize fat₁.boot) =
    bytesAt image₂ (clusterAddress fat₁.boot c) (clusterSize fat₁.boot)

/-- The same file is created, or both calls die of the same fault. -/
def Extracted.SameOutput : Extracted → Extracted → Prop
  | .created out₁ _ _, .created out₂ _ _ => out₁ = out₂
  | .fault e₁, .fault e₂ => e₁ = e₂
  | _, _ => False

section
variable {env : Env} {b : Boot} {image : List UInt8} {c : UInt16} {n : Nat}

theorem delivered_eq_bytesAt (hm : env.malloc (clusterSize b) = true) (hc : 2 ≤ c.toNat)
    (hn : n ≤ clusterSize b) (hin : clusterAddress b c + clusterSize b ≤ image.length) :
    delivered env b image c n =
      (bytesAt image (clusterAddress b c % 2 ^ 32) (clusterSize b)).take n := by
  have hle := Nat.mod_le (clusterAddress b c) (2 ^ 32)
  have hoff := clusterOffset_eq_address (b := b) hc
  rw [delivered_eq hm hn (by omega), hoff, bytesAt, List.take_take, Nat.min_eq_left hn]

theorem delivered_length (hm : env.malloc (clusterSize b) = true) (hc : 2 ≤ c.toNat)
    (hn : n ≤ clusterSize b) (hin : clusterAddress b c + clusterSize b ≤ image.length) :
    (delivered env b image c n).length = n := by
  have hle := Nat.mod_le (clusterAddress b c) (2 ^ 32)
  rw [delivered_eq_bytesAt hm hc hn hin]
  simp only [bytesAt, List.length_take, List.length_drop]
  omega

end

section
variable {env₁ env₂ : Env} {fat₁ fat₂ : Fat12} {image₁ image₂ : List UInt8} {entry : DirEntry}
  {l : List UInt16}

theorem SharedFile.copyChain_eq_iff (h : SharedFile fat₁ fat₂ image₁ image₂ entry l)
    (hcs : l = [] ∨ clusterSize fat₁.boot ≠ 0)
    (hm₁ : clusterSize fat₁.boot ≠ 0 → env₁.malloc (clusterSize fat₁.boot) = true)
    (hm₂ : clusterSize fat₁.boot ≠ 0 → env₂.malloc (clusterSize fat₁.boot) = true) :
    copyChain (delivered env₁ fat₁.boot image₁) (clusterSize fat₁.boot)
        (entry.filesize.toNat % clusterSize fat₁.boot) l =
      copyChain (delivered env₂ fat₁.boot image₂) (clusterSize fat₁.boot)
        (entry.filesize.toNat % clusterSize fat₁.boot) l ↔
    (∀ c ∈ l.dropLast, FoundAlike image₁ image₂ fat₁.boot c (clusterSize fat₁.boot)) ∧
      ∀ c ∈ l.getLast?,
        FoundAlike image₁ image₂ fat₁.boot c (entry.filesize.toNat % clusterSize fat₁.boot) := by
  rcases hcs with rfl | hcs
  · simp [copyChain]
  · have hmod := (Nat.mod_lt entry.filesize.toNat (Nat.pos_of_ne_zero hcs)).le
    have hfound {c : UInt16} (hc : c ∈ l) {n : Nat} (hn : n ≤ clusterSize fat₁.boot) :
        delivered env₁ fat₁.boot image₁ c n = delivered env₂ fat₁.boot image₂ c n ↔
          FoundAlike image₁ image₂ fat₁.boot c n := by
      have h2 := h.chain₁.two_le hc
      rw [delivered_eq_bytesAt (hm₁ hcs) h2 hn (h.inside₁ c hc),
        delivered_eq_bytesAt (hm₂ hcs) h2 hn (h.inside₂ c hc), FoundAlike]
    rw [MsDos.copyChain_eq_iff
      (fun c hc n hn => delivered_length (hm₁ hcs) (h.chain₁.two_le hc) hn (h.inside₁ c hc))
      (fun c hc n hn => delivered_length (hm₂ hcs) (h.chain₁.two_le hc) hn (h.inside₂ c hc))]
    refine and_congr (forall₂_congr fun c hc => ?_) (forall₂_congr fun c hc => ?_)
    · exact hfound (List.mem_of_mem_dropLast hc) (Nat.le_refl _)
    · exact hfound (List.mem_of_mem_getLast? hc) hmod

/-- Nothing is read of clusters without bytes. -/
theorem foundAlike_of_clusterSize_zero {b : Boot} (hcs : clusterSize b = 0) (c : UInt16) (n : Nat) :
    FoundAlike image₁ image₂ b c n := by
  simp [FoundAlike, bytesAt, hcs]

variable {outDir buf₁ buf₂ : List UInt8} {f₁ f₂ : File}

/-- **Extraction from two images.** Take two images that share the boot sector, the end-of-file
marker, an entry and the clusters of its chain, and calls of `extract_single_file` for this entry
that come after any others. When the output can be opened and the clusters read, the calls give
the same name, permissions and content exactly when the images also agree on the bytes at the
addresses of the clusters modulo `2 ^ 32`, as far as they are written. -/
theorem extractSingleFile_sameOutput_iff (h : SharedFile fat₁ fat₂ image₁ image₂ entry l)
    (hs₁ : Session env₁ fat₁ outDir image₁ buf₁ f₁) (hs₂ : Session env₂ fat₂ outDir image₂ buf₂ f₂)
    (hname : entry.filename.toList ≠ List.replicate maxFileName space)
    (hopen₁ : ∀ path ∈ openedPath entry buf₁ (outDir.length + 1), env₁.openOk path = true)
    (hopen₂ : ∀ path ∈ openedPath entry buf₂ (outDir.length + 1), env₂.openOk path = true)
    (hm₁ : clusterSize fat₁.boot ≠ 0 → env₁.malloc (clusterSize fat₁.boot) = true)
    (hm₂ : clusterSize fat₁.boot ≠ 0 → env₂.malloc (clusterSize fat₁.boot) = true) :
    (openedPath entry buf₁ (outDir.length + 1) = openedPath entry buf₂ (outDir.length + 1) ∧
      ∃ n r₁ r₂, extractSingleFile env₁ fat₁ entry buf₁ (outDir.length + 1) f₁ n = some r₁ ∧
        extractSingleFile env₂ fat₂ entry buf₂ (outDir.length + 1) f₂ n = some r₂ ∧
        r₁.SameOutput r₂) ↔
    (∀ c ∈ l.dropLast, FoundAlike image₁ image₂ fat₁.boot c (clusterSize fat₁.boot)) ∧
      ∀ c ∈ l.getLast?,
        FoundAlike image₁ image₂ fat₁.boot c (entry.filesize.toNat % clusterSize fat₁.boot) := by
  have htrim : trimmed entry.filename ≠ [] := fun h => hname (trimmed_eq_nil_iff.mp h)
  have hpath₁ := hs₁.openedPath entry
  have hpath₂ := hs₂.openedPath entry
  rw [if_neg htrim] at hpath₁ hpath₂
  obtain ⟨b₁, hname₁, hb₁⟩ := Option.map_eq_some_iff.mp hpath₁
  obtain ⟨b₂, hname₂, hb₂⟩ := Option.map_eq_some_iff.mp hpath₂
  have hok₁ : env₁.openOk (cString b₁) = true := hopen₁ _ (by rw [hpath₁, hb₁]; rfl)
  have hok₂ : env₂.openOk (cString b₂) = true := hopen₂ _ (by rw [hpath₂, hb₂]; rfl)
  rw [hpath₁, hpath₂, and_iff_right rfl]
  by_cases hcs : l = [] ∨ clusterSize fat₁.boot ≠ 0
  · obtain ⟨f₁', hrun₁⟩ := h.chain₁.extractSingleFile_run (f := f₁) hcs hname₁ hok₁
    obtain ⟨f₂', hrun₂⟩ := h.chain₂.extractSingleFile_run (f := f₂) (h.boot ▸ hcs) hname₂ hok₂
    rw [hb₁, hs₁.kept.2.2] at hrun₁
    rw [hb₂, hs₂.kept.2.2, h.boot] at hrun₂
    rw [← h.copyChain_eq_iff hcs hm₁ hm₂]
    constructor
    · rintro ⟨n, r₁, r₂, hr₁, hr₂, hsame⟩
      cases extractSingleFile_unique hr₁ hrun₁
      cases extractSingleFile_unique hr₂ hrun₂
      exact congrArg OutFile.content hsame
    · intro heq
      exact ⟨l.length, _, _, hrun₁, hrun₂, congrArg _ heq⟩
  · -- the cluster size is 0: both calls die in the division, and no byte is read
    obtain ⟨hl, hcs⟩ := not_or.mp hcs
    rw [not_ne_iff] at hcs
    have hrun₁ := h.chain₁.extractSingleFile_divisor (f := f₁) hl hcs hname₁ hok₁
    have hrun₂ := h.chain₂.extractSingleFile_divisor (f := f₂) hl (h.boot ▸ hcs) hname₂ hok₂
    refine iff_of_true ⟨l.length, _, _, hrun₁, hrun₂, rfl⟩ ⟨fun c _ => ?_, fun c _ => ?_⟩
    · exact foundAlike_of_clusterSize_zero hcs c _
    · exact foundAlike_of_clusterSize_zero hcs c _

end

theorem SharedFile.foundAlike {fat₁ fat₂ : Fat12} {image₁ image₂ : List UInt8} {entry : DirEntry}
    {l : List UInt16} (h : SharedFile fat₁ fat₂ image₁ image₂ entry l)
    (h32 : image₁.length ≤ 2 ^ 32) {c : UInt16} (hc : c ∈ l) (n : Nat) :
    FoundAlike image₁ image₂ fat₁.boot c n := by
  by_cases hcs : clusterSize fat₁.boot = 0
  · exact foundAlike_of_clusterSize_zero hcs c n
  · have hin := h.inside₁ c hc
    rw [FoundAlike, Nat.mod_eq_of_lt (by omega), h.bytes c hc]

theorem bytesAt_congr {n a m : Nat} {g g' : Nat → UInt8}
    (h : ∀ i, a ≤ i → i < a + m → g i = g' i) :
    bytesAt (imageOf n g) a m = bytesAt (imageOf n g') a m := by
  have hlen : (bytesAt (imageOf n g) a m).length = (bytesAt (imageOf n g') a m).length := by
    simp only [bytesAt, List.length_take, List.length_drop, imageOf_length]
  refine List.ext_getElem hlen fun i h1 _ => ?_
  simp only [bytesAt, List.length_take, List.length_drop, imageOf_length] at h1
  simp only [bytesAt, imageOf, List.getElem_take, List.getElem_drop, List.getElem_map,
    List.getElem_range]
  exact h (a + i) (by omega) (by omega)

/-! ## Volumes with sectors of 65535 bytes

All bytes are 1 but the sector size, `s` sectors a cluster and one byte `d` at `p` in the reserved
sectors, which no structure of the volume uses. The first file has cluster 257 alone. -/

def sectorByte (s : UInt8) (p : Nat) (d : UInt8) (i : Nat) : UInt8 :=
  if i = p then d else if i = 13 then s else if i = 11 ∨ i = 12 then 0xff else 1

def sectorImage (n : Nat) (s : UInt8) (p : Nat) (d : UInt8) : List UInt8 :=
  imageOf n (sectorByte s p d)

def onesEntry : DirEntry where
  filename := .replicate 8 1
  extension := .replicate 3 1
  attributes := 1
  reservedBytes := .replicate 10 1
  time := 257
  date := 257
  startCluster := 257
  filesize := 16843009

theorem sectorByte_eq_one {s d : UInt8} {p i : Nat} (hp : i ≠ p) (h : i < 11 ∨ 14 ≤ i) :
    sectorByte s p d i = 1 := by
  unfold sectorByte
  rw [if_neg hp, if_neg (by omega), if_neg (by omega)]

theorem sectorByte_congr {s d d' : UInt8} {p i : Nat} (hp : i ≠ p) :
    sectorByte s p d i = sectorByte s p d' i := by
  unfold sectorByte
  rw [if_neg hp, if_neg hp]

section
variable {n p : Nat} {s d : UInt8} (hn : 33685022 ≤ n) (hp : bootMemberSize ≤ p ∧ p < 16842495)
include hn hp

theorem sectorImage_fields (env : Env) :
    let b := bootAt env (openImage (sectorImage n s p d))
    b.bytesPerSector.toNat = 65535 ∧ b.sectorsPerCluster = s ∧ b.reservedSectors.toNat = 257 ∧
    b.fatCopies = 1 ∧ b.maxRootDirEntries.toNat = 257 ∧ b.sectorsPerFat.toNat = 257 := by
  have hm : bootMemberSize = 512 := rfl
  have hb := bootAt_imageOf env (n := n) (g := sectorByte s p d) (by omega)
  have hone {i : Nat} (hi : i < 512) (h : 14 ≤ i) : sectorByte s p d i = 1 :=
    sectorByte_eq_one (by omega) (Or.inr h)
  have hff {i : Nat} (h : i = 11 ∨ i = 12) : sectorByte s p d i = 0xff := by
    rw [sectorByte, if_neg (by omega), if_neg (by omega), if_pos h]
  have hs : sectorByte s p d 13 = s := by rw [sectorByte, if_neg (by omega), if_pos rfl]
  simp only [hff (Or.inl rfl), hff (Or.inr rfl), hs, hone, Nat.reduceLT, Nat.reduceLeDiff] at hb
  exact hb

theorem sectorImage_layout (env : Env) :
    let b := bootAt env (openImage (sectorImage n s p d))
    bytesPerFat b = 16842495 ∧ numFatEntries b = 11228328 ∧ clusterSize b = 65535 * s.toNat ∧
      clusterAddress b 257 = 33693214 + 255 * (65535 * s.toNat) ∧
      (fatStart env (openImage (sectorImage n s p d))).off = 16842495 ∧
      (rootStart env (openImage (sectorImage n s p d))).off = 33684990 := by
  obtain ⟨h1, h2, h3, h4, h5, h6⟩ := sectorImage_fields (s := s) (d := d) hn hp env
  have hlen : (sectorImage n s p d).length = n := imageOf_length _ _
  generalize hb : bootAt env (openImage (sectorImage n s p d)) = b at *
  have hB : bytesPerFat b = 16842495 := by rw [bytesPerFat_eq, h1, h6]
  have hnum : numFatEntries b = 11228328 := by
    rw [numFatEntries, hB]
    rfl
  have hrem : remainingFatBytes b = 0 := by
    rw [remainingFatBytes, h4, hB]
    rfl
  have hfat : fatOffset b = 16842495 := by
    rw [fatOffset, reservedSectorBytes, h1, h3]
    rfl
  have h512 : bootMemberSize ≤ (sectorImage n s p d).length := by
    rw [hlen]
    exact le_trans (by decide) hn
  refine ⟨hB, hnum, by rw [clusterSize_eq, h1, h2], ?_, by rw [fatStart_off h512, hb, hfat], ?_⟩
  · have hone : (1 : UInt8).toNat = 1 := rfl
    have hc : (257 : UInt16).toNat = 257 := rfl
    rw [clusterAddress, h1, h2, h3, h4, h5, h6, hone, hc, dirEntryMemberSize]
  · have hread : min (3 + 3 * ((11228328 + 1) / 2)) (n - 16842495) = 16842495 :=
      Nat.min_eq_left (by omega)
    rw [rootStart_off_eq h512, hb, hfat, hnum, hrem, hlen, hread]

theorem sectorImage_loads :
    readFat12 Env.plain (openImage (sectorImage n s p d)) =
      .ok (volumeAt Env.plain (openImage (sectorImage n s p d)),
        rootEnd Env.plain (openImage (sectorImage n s p d))) := by
  obtain ⟨h1, -⟩ := sectorImage_fields (s := s) (d := d) hn hp Env.plain
  obtain ⟨hB, -, -, -, hfat, hroot⟩ := sectorImage_layout (s := s) (d := d) hn hp Env.plain
  refine readFat12_eq_ok_iff.mpr ⟨⟨bootLoads_iff.mpr ?_, by rw [seekOk, hfat]; decide, ?_,
    by rw [seekOk, hroot]; decide, rfl, rfl⟩, rfl, rfl⟩
  · rw [h1]
    exact le_trans (by decide) (Nat.le_add_left _ _)
  · rw [fatLoads, hB]
    decide

theorem sectorImage_fat (env : Env) :
    (volumeAt env (openImage (sectorImage n s p d))).eofMarker = 16 ∧
      (volumeAt env (openImage (sectorImage n s p d))).fatEntries.get? (fatIndex 257) =
        some 16 := by
  obtain ⟨-, hnum, -, -, hfat, -⟩ := sectorImage_layout (s := s) (d := d) hn hp env
  obtain ⟨heof, hlast, -⟩ := fat_ones hfat (by omega) (hnum.symm ▸ by omega) fun i hi _ =>
    sectorByte_eq_one (by omega) (by omega)
  exact ⟨heof, hlast⟩

theorem sectorImage_entry :
    onesEntry ∈ (volumeAt Env.plain (openImage (sectorImage n s p d))).rootDirEntries.cells := by
  obtain ⟨-, -, -, -, hmax, -⟩ := sectorImage_fields (s := s) (d := d) hn hp Env.plain
  obtain ⟨-, -, -, -, -, hroot⟩ := sectorImage_layout (s := s) (d := d) hn hp Env.plain
  have hentry : entryOf (sectorByte s p d) 33684990 = onesEntry :=
    (entryOf_congr fun i hi _ => sectorByte_eq_one (by omega) (by omega)).trans
      (show entryOf (fun _ => 1) 33684990 = onesEntry from rfl)
  rw [← hentry]
  refine entryOf_mem_cells hroot (by omega) ?_
  show 0 < (bootAt Env.plain (openImage (sectorImage n s p d))).maxRootDirEntries.toNat
  omega

theorem sectorImage_boot (d' : UInt8) :
    bootAt Env.plain (openImage (sectorImage n s p d')) =
      bootAt Env.plain (openImage (sectorImage n s p d)) := by
  have hm : bootMemberSize = 512 := rfl
  exact bootAt_imageOf_congr Env.plain (by omega) fun i hi => sectorByte_congr (by omega)

theorem sectorImage_sharedFile (d' : UInt8)
    (hin : 33693214 + 255 * (65535 * s.toNat) + 65535 * s.toNat ≤ n) :
    SharedFile (volumeAt Env.plain (openImage (sectorImage n s p d)))
      (volumeAt Env.plain (openImage (sectorImage n s p d'))) (sectorImage n s p d)
      (sectorImage n s p d') onesEntry [257] := by
  obtain ⟨-, -, hcs, haddr, -, -⟩ := sectorImage_layout (s := s) (d := d) hn hp Env.plain
  obtain ⟨heof, hget⟩ := sectorImage_fat (s := s) (d := d) hn hp Env.plain
  obtain ⟨heof', hget'⟩ := sectorImage_fat (s := s) (d := d') hn hp Env.plain
  have hlen (x : UInt8) : (sectorImage n s p x).length = n := imageOf_length _ _
  refine ⟨sectorImage_boot hn hp d', heof'.trans heof.symm, ?_, ?_, fun c hc => ?_, fun c hc => ?_,
    fun c hc => ?_⟩
  · exact (if_neg (by decide)).mpr ⟨rfl, .last (hget.trans (by rw [heof]))⟩
  · exact (if_neg (by decide)).mpr ⟨rfl, .last (hget'.trans (by rw [heof']))⟩
  · rw [List.mem_singleton.mp hc, volumeAt_boot, hcs, haddr, hlen]
    exact hin
  · rw [List.mem_singleton.mp hc, volumeAt_boot, hcs, haddr, hlen]
    exact hin
  · rw [List.mem_singleton.mp hc, volumeAt_boot, hcs, haddr]
    exact bytesAt_congr fun i hi _ => sectorByte_congr (by omega)

end

/-- Two volumes of 50 MB that differ in the reserved sectors: a file comes out the same, in the
second volume when it is extracted once more. -/
theorem extractSingleFile_sameOutput_small :
    ∃ fat₁ f₁ fat₂ f₂ buf₂ f₂',
      readFat12 Env.plain (openImage (sectorImage 50470174 1 1000 0)) = .ok (fat₁, f₁) ∧
      readFat12 Env.plain (openImage (sectorImage 50470174 1 1000 2)) = .ok (fat₂, f₂) ∧
      (∃ n out, extractSingleFile Env.plain fat₂ onesEntry sampleName 2 f₂ n =
        some (.created out buf₂ f₂')) ∧
      openedPath onesEntry sampleName 2 = openedPath onesEntry buf₂ 2 ∧
      ∃ n r₁ r₂, extractSingleFile Env.plain fat₁ onesEntry sampleName 2 f₁ n = some r₁ ∧
        extractSingleFile Env.plain fat₂ onesEntry buf₂ 2 f₂' n = some r₂ ∧ r₁.SameOutput r₂ := by
  have hp : bootMemberSize ≤ 1000 ∧ 1000 < 16842495 := by decide
  have h := sectorImage_sharedFile (n := 50470174) (s := 1) (d := 0) (by omega) hp 2 (by decide)
  obtain ⟨-, -, hcs, -⟩ :=
    sectorImage_layout (n := 50470174) (s := 1) (d := 2) (by omega) hp Env.plain
  obtain ⟨buf, hbuf⟩ : ∃ buf, writeName onesEntry sampleName 2 = some buf :=
    writeName_isSome (by decide) sampleName 2
  obtain ⟨f', hrun⟩ := h.chain₂.extractSingleFile_run
    (f := rootEnd Env.plain (openImage (sectorImage 50470174 1 1000 2)))
    (.inr (by rw [volumeAt_boot, hcs]; decide)) hbuf
    (show Env.plain.openOk (cString buf) = true from rfl)
  have hs₁ := sampleName_session Env.plain
    (volumeAt Env.plain (openImage (sectorImage 50470174 1 1000 0)))
    (rootEnd Env.plain (openImage (sectorImage 50470174 1 1000 0)))
  have hs₂ := (sampleName_session Env.plain
    (volumeAt Env.plain (openImage (sectorImage 50470174 1 1000 2)))
    (rootEnd Env.plain (openImage (sectorImage 50470174 1 1000 2)))).call hrun rfl
  rw [rootEnd_data] at hs₁ hs₂
  have hfound : ∀ c ∈ [(257 : UInt16)], ∀ n, FoundAlike _ _ _ c n := fun c hc n =>
    h.foundAlike (by rw [sectorImage, imageOf_length]; decide) hc n
  exact ⟨_, _, _, _, buf, f', sectorImage_loads (by omega) hp, sectorImage_loads (by omega) hp,
    ⟨_, _, hrun⟩, (extractSingleFile_sameOutput_iff h hs₁ hs₂ (by decide) (fun _ _ => rfl)
      (fun _ _ => rfl) (fun _ => rfl) fun _ => rfl).mpr
      ⟨fun c hc => hfound c (List.mem_of_mem_dropLast hc) _,
        fun c hc => hfound c (List.mem_of_mem_getLast? hc) _⟩⟩

/-- Two volumes of 4311818014 bytes with clusters of 255 sectors that differ in byte 139293, in
the reserved sectors. Cluster 257 is at 4295106589 in both, with the same bytes; the seek goes to
139293. -/
theorem extractSingleFile_seek_wraps :
    ∃ fat₁ f₁ fat₂ f₂,
      readFat12 Env.plain (openImage (sectorImage 4311818014 255 139293 0)) = .ok (fat₁, f₁) ∧
      readFat12 Env.plain (openImage (sectorImage 4311818014 255 139293 1)) = .ok (fat₂, f₂) ∧
      onesEntry ∈ fat₁.rootDirEntries.cells ∧ onesEntry ∈ fat₂.rootDirEntries.cells ∧
      isRegularEntry onesEntry = true ∧
      onesEntry.filename.toList ≠ List.replicate maxFileName space ∧
      SharedFile fat₁ fat₂ (sectorImage 4311818014 255 139293 0)
        (sectorImage 4311818014 255 139293 1) onesEntry [257] ∧
      ∃ n out₁ out₂ buf₁ buf₂ f₁' f₂',
        extractSingleFile Env.plain fat₁ onesEntry sampleName 2 f₁ n =
          some (.created out₁ buf₁ f₁') ∧
        extractSingleFile Env.plain fat₂ onesEntry sampleName 2 f₂ n =
          some (.created out₂ buf₂ f₂') ∧
        out₁.content ≠ out₂.content := by
  have hp : bootMemberSize ≤ 139293 ∧ 139293 < 16842495 := by decide
  have h := sectorImage_sharedFile (n := 4311818014) (s := 255) (d := 0) (by omega) hp 1 (by decide)
  obtain ⟨-, -, hcs, haddr, -⟩ :=
    sectorImage_layout (n := 4311818014) (s := 255) (d := 0) (by omega) hp Env.plain
  obtain ⟨buf, hbuf⟩ : ∃ buf, writeName onesEntry sampleName 2 = some buf :=
    writeName_isSome (by decide) sampleName 2
  have hopen : Env.plain.openOk (cString buf) = true := rfl
  have hne : clusterSize (volumeAt Env.plain
      (openImage (sectorImage 4311818014 255 139293 0))).boot ≠ 0 := by
    rw [volumeAt_boot, hcs]
    decide
  obtain ⟨f₁', hrun₁⟩ := h.chain₁.extractSingleFile_run
    (f := rootEnd Env.plain (openImage (sectorImage 4311818014 255 139293 0))) (.inr hne) hbuf hopen
  obtain ⟨f₂', hrun₂⟩ := h.chain₂.extractSingleFile_run
    (f := rootEnd Env.plain (openImage (sectorImage 4311818014 255 139293 1)))
    (.inr (by rw [h.boot]; exact hne)) hbuf hopen
  refine ⟨_, _, _, _, sectorImage_loads (by omega) hp, sectorImage_loads (by omega) hp,
    sectorImage_entry (by omega) hp, sectorImage_entry (by omega) hp, by decide, by decide,
    h, _, _, _, buf, buf, f₁', f₂', hrun₁, hrun₂, fun heq => ?_⟩
  simp only [rootEnd_data, h.boot] at heq
  have hm (x : Nat) : Env.plain.malloc x = true := rfl
  have hfound := ((h.copyChain_eq_iff (.inr hne) (fun _ => hm _) fun _ => hm _).mp heq).2 257 rfl
  have hzero (d : UInt8) : ((bytesAt (sectorImage 4311818014 255 139293 d) 139293 16711425).take
      131584)[0]? = some d := by
    rw [List.getElem?_take_of_lt (by decide), bytesAt, List.getElem?_take_of_lt (by decide),
      List.getElem?_drop, sectorImage, imageOf, List.getElem?_map, List.getElem?_range (by decide)]
    rfl
  have hsize : 65535 * (255 : UInt8).toNat = 16711425 := rfl
  have hlast : onesEntry.filesize.toNat % 16711425 = 131584 := rfl
  have hseek : (33693214 + 255 * 16711425) % 2 ^ 32 = 139293 := rfl
  rw [FoundAlike, volumeAt_boot, haddr, hcs, hsize, hlast, hseek] at hfound
  have hbyte := congrArg (·[0]?) hfound
  simp only [hzero] at hbyte
  exact absurd hbyte (by decide)

end Cs370.MsDos
