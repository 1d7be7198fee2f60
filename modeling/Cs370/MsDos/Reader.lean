import Cs370.MsDos.Descriptor

/-!
# Loading a volume

`read_fat12` and the functions it calls, in the order of `fat12.c`, and for each of them the
equation that says what it stores and where it leaves the descriptor. The loops are driven by
the number of iterations their counters allow: `for (i = 0; i < n; i += 2)` makes `(n + 1) / 2`
of them.
-/

namespace Cs370.MsDos

open CInt

def skipRemainingBootSector (boot : Boot) : Prog Unit :=
  boolSeek (sizeT ((boot.bytesPerSector.toNat : Int) - bootMemberSize))

def readBootSector (env : Env) : Prog Boot := do
  let jmpBoot ← boolRead env (.boot .jmpBoot) 3
  let oemName ← boolRead env (.boot .oemName) 8
  let bytesPerSector ← readUint16LittleEndian env (.boot .bytesPerSector)
  let sectorsPerCluster ← readUint8 env (.boot .sectorsPerCluster)
  let reservedSectors ← readUint16LittleEndian env (.boot .reservedSectors)
  let fatCopies ← readUint8 env (.boot .fatCopies)
  let maxRootDirEntries ← readUint16LittleEndian env (.boot .maxRootDirEntries)
  let totalSectors ← readUint16LittleEndian env (.boot .totalSectors)
  let mediaType ← readUint8 env (.boot .mediaType)
  let sectorsPerFat ← readUint16LittleEndian env (.boot .sectorsPerFat)
  let sectorsPerTrack ← readUint16LittleEndian env (.boot .sectorsPerTrack)
  let numHeads ← readUint16LittleEndian env (.boot .numHeads)
  let numHidden ← readUint16LittleEndian env (.boot .numHidden)
  let bootstrap ← boolRead env (.boot .bootstrap) 480
  let signature ← boolRead env (.boot .signature) 2
  let boot : Boot :=
    { jmpBoot, oemName, bytesPerSector, sectorsPerCluster, reservedSectors, fatCopies,
      maxRootDirEntries, totalSectors, mediaType, sectorsPerFat, sectorsPerTrack, numHeads,
      numHidden, bootstrap, signature }
  skipRemainingBootSector boot
  return boot

def skipReservedSectors (boot : Boot) : Prog Unit := boolSeek (reservedSectorBytes boot)

/-- The loop of `read_file_allocation_tables`: `n` iterations from index `i` on, with `cells`
stored before. The counter is an `int`, whose overflow is undefined. -/
def loadFatPairs (env : Env) : Nat → Nat → List UInt16 → Prog (List UInt16)
  | 0, _, cells => return cells
  | n + 1, i, cells => do
    if 2 ^ 31 ≤ i then
      throw .fault
    let (a, b) ← readTwelveBitsTwice env (.fatPair i)
    loadFatPairs env n (i + 2) (cells ++ [a, b])

/-- `read_file_allocation_tables` up to its last statement: the media descriptor (cut to 8
bits), the end-of-file marker and the table. -/
def loadFileAllocationTables (env : Env) (boot : Boot) : Prog (UInt8 × UInt16 × Table UInt16) := do
  let (media, eof) ← readTwelveBitsTwice env .markers
  let num := numFatEntries boot
  if !env.malloc (num * 2) then
    throw .failed
  let cells ← loadFatPairs env ((num + 1) / 2) 0 []
  return (media.toUInt8, eof, ⟨num, cells⟩)

/-- The last statement skips the other copies of the FAT. -/
def readFileAllocationTables (env : Env) (boot : Boot) : Prog (UInt8 × UInt16 × Table UInt16) := do
  let tables ← loadFileAllocationTables env boot
  boolSeek (remainingFatBytes boot)
  return tables

def readDirectoryEntry (env : Env) (i : Nat) : Prog DirEntry := do
  let filename ← boolRead env (.dirEntry i .filename) 8
  let extension ← boolRead env (.dirEntry i .extension) 3
  let attributes ← readUint8 env (.dirEntry i .attributes)
  let reservedBytes ← boolRead env (.dirEntry i .reservedBytes) 10
  let time ← readUint16LittleEndian env (.dirEntry i .time)
  let date ← readUint16LittleEndian env (.dirEntry i .date)
  let startCluster ← readUint16LittleEndian env (.dirEntry i .startCluster)
  let filesize ← readUint32LittleEndian env (.dirEntry i .filesize)
  return { filename, extension, attributes, reservedBytes, time, date, startCluster, filesize }

/-- The loop of `read_root_directory`: at most `n` iterations from index `i` on. -/
def loadDirEntries (env : Env) :
    Nat → Nat → List DirEntry → Option Nat → Prog (List DirEntry × Option Nat)
  | 0, _, cells, label => return (cells, label)
  | n + 1, i, cells, label => do
    let entry ← readDirectoryEntry env i
    if isEntryFree entry then
      return (cells ++ [entry], label)
    else
      loadDirEntries env n (i + 1) (cells ++ [entry])
        (if isVolumeLabel entry then some i else label)

def readRootDirectory (env : Env) (boot : Boot) : Prog (Table DirEntry × Option Nat) := do
  let max := boot.maxRootDirEntries.toNat
  if !env.malloc (max * dirEntryMemberSize) then
    throw .failed
  let (cells, label) ← loadDirEntries env max 0 [] none
  return (⟨max, cells⟩, label)

def readFat12 (env : Env) : Prog Fat12 := do
  let boot ← readBootSector env
  skipReservedSectors boot
  let (mediaDescriptor, eofMarker, fatEntries) ← readFileAllocationTables env boot
  let (rootDirEntries, volumeLabel) ← readRootDirectory env boot
  return { boot, mediaDescriptor, eofMarker, fatEntries, rootDirEntries, volumeLabel }

/-- The descriptor as `main` opens it. -/
def openImage (image : List UInt8) : File := ⟨image, 0, []⟩

/-! ## Running the reading functions -/

theorem Prog.bind_ok {α β : Type} {x : Prog α} {g : α → Prog β} {f f' : File} {a : α}
    (h : x f = .ok (a, f')) : (x >>= g) f = g a f' := by
  show (StateT.bind x g) f = _
  unfold StateT.bind
  rw [h]
  rfl

theorem Prog.bind_error {α β : Type} {x : Prog α} {g : α → Prog β} {f : File} {e : Stop}
    (h : x f = .error e) : (x >>= g) f = .error e := by
  show (StateT.bind x g) f = _
  unfold StateT.bind
  rw [h]
  rfl

theorem Prog.bind_eq_ok {α β : Type} {x : Prog α} {g : α → Prog β} {f : File} {r : β × File}
    (h : (x >>= g) f = .ok r) : ∃ a f', x f = .ok (a, f') ∧ g a f' = .ok r := by
  cases hx : x f with
  | error e => rw [Prog.bind_error hx] at h; cases h
  | ok p => exact ⟨p.1, p.2, rfl, by rwa [Prog.bind_ok hx] at h⟩

theorem Prog.pure_run {α : Type} (a : α) (f : File) : (pure a : Prog α) f = .ok (a, f) := rfl

section
variable {β : Type} (env : Env) (dst : Dst) (f : File)

theorem boolRead_bind (n : Nat) (g : Vector UInt8 n → Prog β) :
    (boolRead env dst n >>= g) f = g (f.fill env dst n) (f.after dst n) :=
  Prog.bind_ok (boolRead_run env dst n f)

theorem readUint8_bind (g : UInt8 → Prog β) :
    (readUint8 env dst >>= g) f = g (byte (f.fill env dst 1)) (f.after dst 1) := by
  apply Prog.bind_ok
  unfold readUint8
  rw [boolRead_bind, Prog.pure_run]

theorem readUint16_bind (g : UInt16 → Prog β) :
    (readUint16LittleEndian env dst >>= g) f = g (le16 (f.fill env dst 2)) (f.after dst 2) := by
  apply Prog.bind_ok
  unfold readUint16LittleEndian
  rw [boolRead_bind, Prog.pure_run]

theorem readUint32_bind (g : UInt32 → Prog β) :
    (readUint32LittleEndian env dst >>= g) f = g (le32 (f.fill env dst 4)) (f.after dst 4) := by
  apply Prog.bind_ok
  unfold readUint32LittleEndian
  rw [boolRead_bind, Prog.pure_run]

theorem readTwelveBitsTwice_bind (g : UInt16 × UInt16 → Prog β) :
    (readTwelveBitsTwice env dst >>= g) f =
      g (twelveBitsTwice (f.fill env dst 3)) (f.after dst 3) := by
  apply Prog.bind_ok
  unfold readTwelveBitsTwice
  rw [boolRead_bind, Prog.pure_run]

end

theorem boolSeek_run {n : Nat} {f : File} {d : Int} (hn : offT n = d) (h : 0 ≤ f.off + d) :
    boolSeek n f = if seekOk (f.off + d).toNat then .ok ((), f.lseekSet (f.off + d).toNat)
      else .error .failed := by
  have hpos : intW 32 (f.off + d) ≥ 0 ↔ seekOk (f.off + d).toNat := by
    rw [ge_iff_le, intW_nonneg_iff, ← Int.toNat_of_nonneg h, uintW_natCast, Int.toNat_natCast,
      seekOk]
  unfold boolSeek
  rw [hn]
  simp only [File.lseekCur, if_pos h, hpos]
  rfl

theorem boolSeek_fails {n : Nat} {f : File} {d : Int} (hn : offT n = d) (h : f.off + d < 0) :
    boolSeek n f = .error .failed := by
  have h' : ¬ 0 ≤ (f.off : Int) + d := by omega
  unfold boolSeek
  rw [hn]
  simp only [File.lseekCur, if_neg h']
  rfl

theorem boolSeek_forward {n : Nat} (hn : n < 2 ^ 32) (f : File) :
    boolSeek n f =
      if seekOk (f.off + n) then .ok ((), f.lseekSet (f.off + n)) else .error .failed := by
  rw [boolSeek_run (offT_natCast (by omega)) (by omega)]
  rfl

/-! ### The boot sector -/

/-- The reads of `read_boot_sector`, in order. -/
def bootReads : List (Dst × Nat) :=
  [(.boot .jmpBoot, 3), (.boot .oemName, 8), (.boot .bytesPerSector, 2),
   (.boot .sectorsPerCluster, 1), (.boot .reservedSectors, 2), (.boot .fatCopies, 1),
   (.boot .maxRootDirEntries, 2), (.boot .totalSectors, 2), (.boot .mediaType, 1),
   (.boot .sectorsPerFat, 2), (.boot .sectorsPerTrack, 2), (.boot .numHeads, 2),
   (.boot .numHidden, 2), (.boot .bootstrap, 480), (.boot .signature, 2)]

/-- The bytes the `k`-th boot field holds after its read. -/
def bootBytes (env : Env) (f : File) (k : Nat) (fld : BootField) (n : Nat) : Vector UInt8 n :=
  (f.afterAll (bootReads.take k)).fill env (.boot fld) n

/-- The record `read_boot_sector` stores, read from the descriptor `f`. -/
def bootAt (env : Env) (f : File) : Boot where
  jmpBoot := bootBytes env f 0 .jmpBoot 3
  oemName := bootBytes env f 1 .oemName 8
  bytesPerSector := le16 (bootBytes env f 2 .bytesPerSector 2)
  sectorsPerCluster := byte (bootBytes env f 3 .sectorsPerCluster 1)
  reservedSectors := le16 (bootBytes env f 4 .reservedSectors 2)
  fatCopies := byte (bootBytes env f 5 .fatCopies 1)
  maxRootDirEntries := le16 (bootBytes env f 6 .maxRootDirEntries 2)
  totalSectors := le16 (bootBytes env f 7 .totalSectors 2)
  mediaType := byte (bootBytes env f 8 .mediaType 1)
  sectorsPerFat := le16 (bootBytes env f 9 .sectorsPerFat 2)
  sectorsPerTrack := le16 (bootBytes env f 10 .sectorsPerTrack 2)
  numHeads := le16 (bootBytes env f 11 .numHeads 2)
  numHidden := le16 (bootBytes env f 12 .numHidden 2)
  bootstrap := bootBytes env f 13 .bootstrap 480
  signature := bootBytes env f 14 .signature 2

theorem readBootSector_run (env : Env) (f : File) :
    readBootSector env f =
      (do skipRemainingBootSector (bootAt env f); return bootAt env f : Prog Boot)
        (f.afterAll bootReads) := by
  unfold readBootSector
  simp only [boolRead_bind, readUint16_bind, readUint8_bind, bootAt, bootBytes, bootReads,
    List.take_succ_cons, List.take_zero, File.afterAll_cons, File.afterAll_nil]

theorem bootReads_sum : (bootReads.map (·.2)).sum = bootMemberSize := rfl

/-- The boot fields are read up to the end of the boot sector or of the image. -/
theorem bootReads_off (image : List UInt8) :
    ((openImage image).afterAll bootReads).off = min bootMemberSize image.length := by
  rw [File.afterAll_off, bootReads_sum, openImage, Nat.zero_add, Nat.sub_zero]

section
variable (env : Env) {image : List UInt8} (h : bootMemberSize ≤ image.length)
include h

theorem bootBytes_getElem (k o n : Nat) (fld : BootField)
    (ho : ((bootReads.take k).map (·.2)).sum = o) (hn : o + n ≤ bootMemberSize) {i : Nat}
    (hi : i < n) : (bootBytes env (openImage image) k fld n)[i] = image.getD (o + i) 0 := by
  have hoff : ((openImage image).afterAll (bootReads.take k)).off = o := by
    rw [File.afterAll_off, ho]
    simp only [openImage]
    omega
  have hlt : o + i < image.length := by omega
  rw [bootBytes, File.fill_getElem, hoff, File.afterAll_data]
  simp only [openImage, List.getD_eq_getElem?_getD]
  rw [List.getElem?_eq_getElem hlt]
  rfl

theorem bootBytes_le16 (k o : Nat) (fld : BootField)
    (ho : ((bootReads.take k).map (·.2)).sum = o) (hn : o + 2 ≤ bootMemberSize) :
    (le16 (bootBytes env (openImage image) k fld 2)).toNat =
      (image.getD o 0).toNat + 256 * (image.getD (o + 1) 0).toNat := by
  rw [le16_toNat, bootBytes_getElem env h k o 2 fld ho hn (by omega),
    bootBytes_getElem env h k o 2 fld ho hn (by omega), Nat.add_zero]

theorem bootAt_congr {image' : List UInt8} (h' : bootMemberSize ≤ image'.length)
    (heq : ∀ i < bootMemberSize, image'.getD i 0 = image.getD i 0) :
    bootAt env (openImage image') = bootAt env (openImage image) := by
  have hb (k o n : Nat) (fld : BootField) (ho : ((bootReads.take k).map (·.2)).sum = o)
      (hn : o + n ≤ 512) :
      bootBytes env (openImage image') k fld n = bootBytes env (openImage image) k fld n := by
    refine Vector.ext fun i hi => ?_
    rw [bootBytes_getElem env h' k o n fld ho hn hi, bootBytes_getElem env h k o n fld ho hn hi]
    exact heq (o + i) (Nat.lt_of_lt_of_le (Nat.add_lt_add_left hi o) hn)
  unfold bootAt
  rw [hb 0 0 3 .jmpBoot rfl (by omega), hb 1 3 8 .oemName rfl (by omega),
    hb 2 11 2 .bytesPerSector rfl (by omega), hb 3 13 1 .sectorsPerCluster rfl (by omega),
    hb 4 14 2 .reservedSectors rfl (by omega), hb 5 16 1 .fatCopies rfl (by omega),
    hb 6 17 2 .maxRootDirEntries rfl (by omega), hb 7 19 2 .totalSectors rfl (by omega),
    hb 8 21 1 .mediaType rfl (by omega), hb 9 22 2 .sectorsPerFat rfl (by omega),
    hb 10 24 2 .sectorsPerTrack rfl (by omega), hb 11 26 2 .numHeads rfl (by omega),
    hb 12 28 2 .numHidden rfl (by omega), hb 13 30 480 .bootstrap rfl (by omega),
    hb 14 510 2 .signature rfl (by omega)]

theorem bootAt_fields :
    let b := bootAt env (openImage image)
    b.bytesPerSector.toNat = (image.getD 11 0).toNat + 256 * (image.getD 12 0).toNat ∧
    b.sectorsPerCluster = image.getD 13 0 ∧
    b.reservedSectors.toNat = (image.getD 14 0).toNat + 256 * (image.getD 15 0).toNat ∧
    b.fatCopies = image.getD 16 0 ∧
    b.maxRootDirEntries.toNat = (image.getD 17 0).toNat + 256 * (image.getD 18 0).toNat ∧
    b.sectorsPerFat.toNat = (image.getD 22 0).toNat + 256 * (image.getD 23 0).toNat :=
  ⟨bootBytes_le16 env h 2 11 _ rfl (by decide),
    bootBytes_getElem env h 3 13 1 _ rfl (by decide) (by decide),
    bootBytes_le16 env h 4 14 _ rfl (by decide),
    bootBytes_getElem env h 5 16 1 _ rfl (by decide) (by decide),
    bootBytes_le16 env h 6 17 _ rfl (by decide), bootBytes_le16 env h 9 22 _ rfl (by decide)⟩

end

theorem skipRemainingBootSector_run {b : Boot} {f : File}
    (h : bootMemberSize ≤ f.off + b.bytesPerSector.toNat) :
    skipRemainingBootSector b f =
      if seekOk (f.off + b.bytesPerSector.toNat - bootMemberSize) then
        .ok ((), f.lseekSet (f.off + b.bytesPerSector.toNat - bootMemberSize))
      else .error .failed := by
  have hb := b.bytesPerSector.toNat_lt
  have hm : bootMemberSize = 512 := rfl
  unfold skipRemainingBootSector
  rw [boolSeek_run (offT_sizeT (by omega) (by omega)) (by omega)]
  have e : ((f.off : Int) + ((b.bytesPerSector.toNat : Int) - bootMemberSize)).toNat =
      f.off + b.bytesPerSector.toNat - bootMemberSize := by omega
  rw [e]

theorem skipRemainingBootSector_fails {b : Boot} {f : File}
    (h : ¬ bootMemberSize ≤ f.off + b.bytesPerSector.toNat) :
    skipRemainingBootSector b f = .error .failed := by
  have hb := b.bytesPerSector.toNat_lt
  have hm : bootMemberSize = 512 := rfl
  unfold skipRemainingBootSector
  exact boolSeek_fails (offT_sizeT (by omega) (by omega)) (by omega)

theorem skipReservedSectors_run (b : Boot) (f : File) :
    skipReservedSectors b f =
      if seekOk (f.off + reservedSectorBytes b) then
        .ok ((), f.lseekSet (f.off + reservedSectorBytes b))
      else .error .failed :=
  boolSeek_forward (reservedSectorBytes_lt b) f

/-- The descriptor at the end of the boot sector. -/
def bootEnd (env : Env) (f : File) : File :=
  (f.afterAll bootReads).lseekSet
    ((f.afterAll bootReads).off + (bootAt env f).bytesPerSector.toNat - bootMemberSize)

/-- The seek to the end of the boot sector succeeds. -/
structure BootLoads (env : Env) (f : File) : Prop where
  seek : bootMemberSize ≤ (f.afterAll bootReads).off + (bootAt env f).bytesPerSector.toNat
  accepted : seekOk (bootEnd env f).off

theorem readBootSector_eq {env : Env} {f : File} (h : BootLoads env f) :
    readBootSector env f = .ok (bootAt env f, bootEnd env f) := by
  rw [readBootSector_run,
    Prog.bind_ok ((skipRemainingBootSector_run h.seek).trans (if_pos h.accepted)), Prog.pure_run]
  rfl

theorem readBootSector_ok {env : Env} {f f' : File} {b : Boot}
    (h : readBootSector env f = .ok (b, f')) :
    b = bootAt env f ∧ f' = bootEnd env f ∧ BootLoads env f := by
  have hl : BootLoads env f := by
    rw [readBootSector_run] at h
    obtain ⟨u, f'', hskip, -⟩ := Prog.bind_eq_ok h
    by_cases hs : bootMemberSize ≤ (f.afterAll bootReads).off + (bootAt env f).bytesPerSector.toNat
    · rw [skipRemainingBootSector_run hs] at hskip
      split at hskip
      · exact ⟨hs, by assumption⟩
      · cases hskip
    · rw [skipRemainingBootSector_fails hs] at hskip
      cases hskip
  rw [readBootSector_eq hl] at h
  cases h
  exact ⟨rfl, rfl, hl⟩

/-- The first seek of an image stays within a sector. -/
theorem bootLoads_openImage_iff {env : Env} {image : List UInt8} :
    BootLoads env (openImage image) ↔
      bootMemberSize ≤ min bootMemberSize image.length +
        (bootAt env (openImage image)).bytesPerSector.toNat := by
  have hb := (bootAt env (openImage image)).bytesPerSector.toNat_lt
  have hm : bootMemberSize = 512 := rfl
  refine ⟨fun h => bootReads_off image ▸ h.seek, fun h => ⟨(bootReads_off image).symm ▸ h, ?_⟩⟩
  rw [seekOk, bootEnd, File.lseekSet_off, bootReads_off]
  omega

/-! ### The file allocation table -/

/-- The reads of `n` iterations of the FAT loop from index `i` on. -/
def pairReads : Nat → Nat → List (Dst × Nat)
  | _, 0 => []
  | i, n + 1 => (.fatPair i, 3) :: pairReads (i + 2) n

/-- The entries these iterations store. -/
def pairCells (env : Env) : Nat → Nat → File → List UInt16
  | _, 0, _ => []
  | i, n + 1, f =>
    (twelveBitsTwice (f.fill env (.fatPair i) 3)).1 ::
    (twelveBitsTwice (f.fill env (.fatPair i) 3)).2 ::
    pairCells env (i + 2) n (f.after (.fatPair i) 3)

theorem loadFatPairs_run (env : Env) : ∀ (n i : Nat) (cells : List UInt16) (f : File),
    i + 2 * n ≤ 2 ^ 31 + 1 → loadFatPairs env n i cells f =
      .ok (cells ++ pairCells env i n f, f.afterAll (pairReads i n))
  | 0, i, cells, f, _ => by simp [loadFatPairs, pairCells, pairReads, Prog.pure_run]
  | n + 1, i, cells, f, h => by
    have hi : ¬ 2 ^ 31 ≤ i := by omega
    rw [loadFatPairs, if_neg hi]
    show (readTwelveBitsTwice env (.fatPair i) >>= _) f = _
    rw [readTwelveBitsTwice_bind]
    generalize hp : twelveBitsTwice (f.fill env (.fatPair i) 3) = p
    show loadFatPairs env n (i + 2) (cells ++ [p.1, p.2]) _ = _
    rw [loadFatPairs_run env n (i + 2) _ _ (by omega)]
    simp [pairCells, pairReads, hp]

/-- A count above the range of `int` is never reached: the counter overflows first. -/
theorem loadFatPairs_fault (env : Env) : ∀ (n i : Nat) (cells : List UInt16) (f : File),
    2 ^ 31 + 2 ≤ i + 2 * n → 0 < n → loadFatPairs env n i cells f = .error .fault
  | n + 1, i, cells, f, h, _ => by
    rw [loadFatPairs]
    by_cases hi : 2 ^ 31 ≤ i
    · rw [if_pos hi]; rfl
    · rw [if_neg hi]
      show (readTwelveBitsTwice env (.fatPair i) >>= _) f = _
      rw [readTwelveBitsTwice_bind]
      exact loadFatPairs_fault env n (i + 2) _ _ (by omega) (by omega)

theorem pairReads_sum (i n : Nat) : ((pairReads i n).map (·.2)).sum = 3 * n := by
  induction n generalizing i with
  | zero => rfl
  | succ n ih => rw [pairReads, List.map_cons, List.sum_cons, ih]; omega

theorem pairCells_length (env : Env) (i n : Nat) (f : File) :
    (pairCells env i n f).length = 2 * n := by
  induction n generalizing i f with
  | zero => rfl
  | succ n ih => simp only [pairCells, List.length_cons, ih]; omega

theorem pairCells_get (env : Env) {i n k : Nat} (f : File) (hk : k < n) :
    let p := twelveBitsTwice ((f.afterAll (pairReads i k)).fill env (.fatPair (i + 2 * k)) 3)
    (pairCells env i n f)[2 * k]? = some p.1 ∧ (pairCells env i n f)[2 * k + 1]? = some p.2 := by
  induction k generalizing i n f with
  | zero =>
    obtain ⟨n, rfl⟩ : ∃ m, n = m + 1 := ⟨n - 1, by omega⟩
    exact ⟨rfl, rfl⟩
  | succ k ih =>
    obtain ⟨n, rfl⟩ : ∃ m, n = m + 1 := ⟨n - 1, by omega⟩
    have h := ih (i := i + 2) (f.after (.fatPair i) 3) (Nat.lt_of_succ_lt_succ hk)
    rw [show i + 2 + 2 * k = i + 2 * (k + 1) by omega] at h
    exact h

/-- The entry count either fits easily or is a small count that went below zero. -/
theorem numFatEntries_cases (b : Boot) :
    (6 ≤ 2 * bytesPerFat b % 2 ^ 32 ∧ numFatEntries b = 2 * bytesPerFat b % 2 ^ 32 / 3 - 2 ∧
      numFatEntries b < 2 ^ 31) ∨
    (2 * bytesPerFat b % 2 ^ 32 < 6 ∧ 2 ^ 32 - 2 ≤ numFatEntries b) := by
  have h2 : u32 ((bytesPerFat b : Int) * 2) = 2 * bytesPerFat b % 2 ^ 32 := by
    rw [show (bytesPerFat b : Int) * 2 = ((2 * bytesPerFat b : Nat) : Int) by omega]
    exact uintW_natCast
  have hc : (numFatEntries b : Int) =
      (((2 * bytesPerFat b % 2 ^ 32 / 3 : Nat) : Int) - 2) % 2 ^ 32 := by
    unfold numFatEntries
    rw [h2]
    exact uintW_cast 32 _
  generalize 2 * bytesPerFat b % 2 ^ 32 = m at *
  by_cases hm : 6 ≤ m
  · have hlt : m < 2 ^ 32 := by
      rw [← h2]; exact uintW_lt 32 _
    left
    omega
  · right
    omega

/-- The table has exactly the entries of whole FATs unless the count wraps. -/
def fatLoads (b : Boot) : Prop := 6 ≤ 2 * bytesPerFat b % 2 ^ 32

instance (b : Boot) : Decidable (fatLoads b) := inferInstanceAs (Decidable (_ ≤ _))

/-- The reads of `read_file_allocation_tables`. -/
def fatReads (b : Boot) : List (Dst × Nat) :=
  (.markers, 3) :: pairReads 0 ((numFatEntries b + 1) / 2)

/-- What `read_file_allocation_tables` stores when it starts at `f`. -/
def fatAt (env : Env) (b : Boot) (f : File) : UInt8 × UInt16 × Table UInt16 :=
  ((twelveBitsTwice (f.fill env .markers 3)).1.toUInt8,
    (twelveBitsTwice (f.fill env .markers 3)).2,
    ⟨numFatEntries b, pairCells env 0 ((numFatEntries b + 1) / 2) (f.after .markers 3)⟩)

theorem loadFileAllocationTables_run {env : Env} {b : Boot} (f : File)
    (hm : env.malloc (numFatEntries b * 2) = true) (hb : fatLoads b) :
    loadFileAllocationTables env b f = .ok (fatAt env b f, f.afterAll (fatReads b)) := by
  have hn : numFatEntries b < 2 ^ 31 := by
    rcases numFatEntries_cases b with ⟨-, -, h⟩ | ⟨h, -⟩
    · exact h
    · exact absurd hb (by unfold fatLoads; omega)
  unfold loadFileAllocationTables
  rw [readTwelveBitsTwice_bind]
  simp only [hm, Bool.not_true, Bool.false_eq_true, if_false]
  rw [Prog.bind_ok (loadFatPairs_run env _ 0 [] _ (by omega)), Prog.pure_run]
  rfl

theorem loadFileAllocationTables_ok {env : Env} {b : Boot} {f : File}
    {r : (UInt8 × UInt16 × Table UInt16) × File} (h : loadFileAllocationTables env b f = .ok r) :
    env.malloc (numFatEntries b * 2) = true ∧ fatLoads b := by
  unfold loadFileAllocationTables at h
  rw [readTwelveBitsTwice_bind] at h
  cases hm : env.malloc (numFatEntries b * 2) with
  | false =>
    simp only [hm, Bool.not_false, if_true] at h
    cases h
  | true =>
    simp only [hm, Bool.not_true, Bool.false_eq_true, if_false] at h
    refine ⟨rfl, ?_⟩
    rcases numFatEntries_cases b with ⟨hc, -⟩ | ⟨-, hn⟩
    · exact hc
    · rw [Prog.bind_error (loadFatPairs_fault env _ 0 [] _ (by omega) (by omega))] at h
      cases h

/-- The descriptor behind the FATs. -/
def fatEnd (b : Boot) (f : File) : File :=
  (f.afterAll (fatReads b)).lseekSet ((f.afterAll (fatReads b)).off + remainingFatBytes b)

theorem readFileAllocationTables_run {env : Env} {b : Boot} (f : File)
    (hm : env.malloc (numFatEntries b * 2) = true) (hb : fatLoads b) :
    readFileAllocationTables env b f =
      if seekOk (fatEnd b f).off then .ok (fatAt env b f, fatEnd b f) else .error .failed := by
  unfold readFileAllocationTables
  rw [Prog.bind_ok (loadFileAllocationTables_run f hm hb)]
  have hseek := boolSeek_forward (remainingFatBytes_lt b) (f.afterAll (fatReads b))
  by_cases hok : seekOk (fatEnd b f).off
  · rw [if_pos hok, Prog.bind_ok (hseek.trans (if_pos hok)), Prog.pure_run]
    rfl
  · rw [if_neg hok, Prog.bind_error (hseek.trans (if_neg hok))]

theorem readFileAllocationTables_ok {env : Env} {b : Boot} {f : File}
    {r : (UInt8 × UInt16 × Table UInt16) × File} (h : readFileAllocationTables env b f = .ok r) :
    env.malloc (numFatEntries b * 2) = true ∧ fatLoads b ∧ seekOk (fatEnd b f).off := by
  obtain ⟨t, f', hload, -⟩ := Prog.bind_eq_ok h
  obtain ⟨hm, hb⟩ := loadFileAllocationTables_ok hload
  rw [readFileAllocationTables_run f hm hb] at h
  split at h
  · exact ⟨hm, hb, by assumption⟩
  · cases h

/-! ### The root directory -/

/-- The reads of `read_directory_entry`, in order. -/
def entryReads (i : Nat) : List (Dst × Nat) :=
  [(.dirEntry i .filename, 8), (.dirEntry i .extension, 3), (.dirEntry i .attributes, 1),
   (.dirEntry i .reservedBytes, 10), (.dirEntry i .time, 2), (.dirEntry i .date, 2),
   (.dirEntry i .startCluster, 2), (.dirEntry i .filesize, 4)]

/-- The bytes the `k`-th field of entry `i` holds after its read. -/
def entryBytes (env : Env) (f : File) (i k : Nat) (fld : DirField) (n : Nat) : Vector UInt8 n :=
  (f.afterAll ((entryReads i).take k)).fill env (.dirEntry i fld) n

/-- The entry `read_directory_entry` stores, read from the descriptor `f`. -/
def entryAt (env : Env) (i : Nat) (f : File) : DirEntry where
  filename := entryBytes env f i 0 .filename 8
  extension := entryBytes env f i 1 .extension 3
  attributes := byte (entryBytes env f i 2 .attributes 1)
  reservedBytes := entryBytes env f i 3 .reservedBytes 10
  time := le16 (entryBytes env f i 4 .time 2)
  date := le16 (entryBytes env f i 5 .date 2)
  startCluster := le16 (entryBytes env f i 6 .startCluster 2)
  filesize := le32 (entryBytes env f i 7 .filesize 4)

theorem readDirectoryEntry_run (env : Env) (i : Nat) (f : File) :
    readDirectoryEntry env i f = .ok (entryAt env i f, f.afterAll (entryReads i)) := by
  unfold readDirectoryEntry
  simp only [boolRead_bind, readUint16_bind, readUint8_bind, readUint32_bind, Prog.pure_run,
    entryAt, entryBytes, entryReads, List.take_succ_cons, List.take_zero, File.afterAll_cons,
    File.afterAll_nil]

theorem entryReads_sum (i : Nat) : ((entryReads i).map (·.2)).sum = dirEntryMemberSize := rfl

theorem isEntryFree_entryAt (env : Env) (i : Nat) (f : File) :
    isEntryFree (entryAt env i f) =
      ((f.data[f.off]?).getD (env.mem (.dirEntry i .filename) 0) == entryFree) := by
  simp [isEntryFree, entryAt, entryBytes]

/-- The entries at most `n` iterations of the directory loop store, from index `i` on. -/
def dirCells (env : Env) : Nat → Nat → File → List DirEntry
  | _, 0, _ => []
  | i, n + 1, f =>
    entryAt env i f ::
      if isEntryFree (entryAt env i f) then []
      else dirCells env (i + 1) n (f.afterAll (entryReads i))

/-- The reads of the entries `i, …, i + k - 1`. -/
def dirReads : Nat → Nat → List (Dst × Nat)
  | _, 0 => []
  | i, k + 1 => entryReads i ++ dirReads (i + 1) k

/-- The last label among the entries from index `i` on, or the one found before. -/
def dirLabel : Nat → List DirEntry → Option Nat → Option Nat
  | _, [], label => label
  | i, e :: es, label =>
    dirLabel (i + 1) es (if !isEntryFree e && isVolumeLabel e then some i else label)

theorem loadDirEntries_run (env : Env) :
    ∀ (n i : Nat) (cells : List DirEntry) (label : Option Nat) (f : File),
      loadDirEntries env n i cells label f =
        .ok ((cells ++ dirCells env i n f, dirLabel i (dirCells env i n f) label),
          f.afterAll (dirReads i (dirCells env i n f).length))
  | 0, i, cells, label, f => by
    simp [loadDirEntries, dirCells, dirLabel, dirReads, Prog.pure_run]
  | n + 1, i, cells, label, f => by
    rw [loadDirEntries, Prog.bind_ok (readDirectoryEntry_run env i f)]
    cases he : isEntryFree (entryAt env i f) with
    | true =>
      simp [dirCells, he, dirLabel, dirReads, Prog.pure_run]
    | false =>
      simp only [Bool.false_eq_true, if_false]
      rw [loadDirEntries_run env n (i + 1)]
      simp [dirCells, he, dirLabel, dirReads, File.afterAll_append]

theorem dirReads_sum (i k : Nat) : ((dirReads i k).map (·.2)).sum = dirEntryMemberSize * k := by
  induction k generalizing i with
  | zero => rfl
  | succ k ih =>
    rw [dirReads, List.map_append, List.sum_append, entryReads_sum, ih, Nat.mul_succ, Nat.add_comm]

theorem dirCells_length_le (env : Env) (i n : Nat) (f : File) :
    (dirCells env i n f).length ≤ n := by
  induction n generalizing i f with
  | zero => simp [dirCells]
  | succ n ih =>
    simp only [dirCells]
    split
    · simp
    · simpa using ih (i + 1) _

/-! ### The volume -/

/-- The descriptor at the start of the first FAT. -/
def fatStart (env : Env) (f : File) : File :=
  (bootEnd env f).lseekSet ((bootEnd env f).off + reservedSectorBytes (bootAt env f))

/-- The descriptor at the start of the root directory. -/
def rootStart (env : Env) (f : File) : File := fatEnd (bootAt env f) (fatStart env f)

def rootCells (env : Env) (f : File) : List DirEntry :=
  dirCells env 0 (bootAt env f).maxRootDirEntries.toNat (rootStart env f)

/-- The descriptor when `read_fat12` is done. -/
def rootEnd (env : Env) (f : File) : File :=
  (rootStart env f).afterAll (dirReads 0 (rootCells env f).length)

def volumeAt (env : Env) (f : File) : Fat12 where
  boot := bootAt env f
  mediaDescriptor := (fatAt env (bootAt env f) (fatStart env f)).1
  eofMarker := (fatAt env (bootAt env f) (fatStart env f)).2.1
  fatEntries := (fatAt env (bootAt env f) (fatStart env f)).2.2
  rootDirEntries := ⟨(bootAt env f).maxRootDirEntries.toNat, rootCells env f⟩
  volumeLabel := dirLabel 0 (rootCells env f) none

@[simp] theorem volumeAt_boot (env : Env) (f : File) : (volumeAt env f).boot = bootAt env f := rfl

theorem volumeAt_cells (env : Env) (f : File) :
    (volumeAt env f).rootDirEntries.cells =
      dirCells env 0 (bootAt env f).maxRootDirEntries.toNat (rootStart env f) := rfl

/-- Everything that can keep `read_fat12` from returning 1: the three seeks, the FAT's entry
count and the two allocations. -/
structure Loads (env : Env) (f : File) : Prop where
  boot : BootLoads env f
  reserved : seekOk (fatStart env f).off
  count : fatLoads (bootAt env f)
  root : seekOk (rootStart env f).off
  fatAlloc : env.malloc (numFatEntries (bootAt env f) * 2) = true
  rootAlloc : env.malloc ((bootAt env f).maxRootDirEntries.toNat * dirEntryMemberSize) = true

theorem readRootDirectory_run {env : Env} {b : Boot} (f : File)
    (hm : env.malloc (b.maxRootDirEntries.toNat * dirEntryMemberSize) = true) :
    readRootDirectory env b f =
      .ok ((⟨b.maxRootDirEntries.toNat, dirCells env 0 b.maxRootDirEntries.toNat f⟩,
          dirLabel 0 (dirCells env 0 b.maxRootDirEntries.toNat f) none),
        f.afterAll (dirReads 0 (dirCells env 0 b.maxRootDirEntries.toNat f).length)) := by
  unfold readRootDirectory
  simp only [hm, Bool.not_true, Bool.false_eq_true, if_false]
  rw [Prog.bind_ok (loadDirEntries_run env _ 0 [] none f)]
  rfl

theorem readRootDirectory_ok {env : Env} {b : Boot} {f : File}
    {r : (Table DirEntry × Option Nat) × File} (h : readRootDirectory env b f = .ok r) :
    env.malloc (b.maxRootDirEntries.toNat * dirEntryMemberSize) = true := by
  unfold readRootDirectory at h
  cases hm : env.malloc (b.maxRootDirEntries.toNat * dirEntryMemberSize) with
  | false =>
    simp only [hm, Bool.not_false, if_true] at h
    cases h
  | true => rfl

/-- **What `read_fat12` returns**: 1 exactly when nothing of `Loads` stands in the way, and then
the volume and the descriptor are determined. -/
theorem readFat12_eq_ok_iff {env : Env} {f f' : File} {fat : Fat12} :
    readFat12 env f = .ok (fat, f') ↔ Loads env f ∧ fat = volumeAt env f ∧ f' = rootEnd env f := by
  have hrun (h : Loads env f) : readFat12 env f = .ok (volumeAt env f, rootEnd env f) := by
    have hres : skipReservedSectors (bootAt env f) (bootEnd env f) = .ok ((), fatStart env f) :=
      (skipReservedSectors_run _ _).trans (if_pos h.reserved)
    have hfat : readFileAllocationTables env (bootAt env f) (fatStart env f) =
        .ok (fatAt env (bootAt env f) (fatStart env f), rootStart env f) :=
      (readFileAllocationTables_run _ h.fatAlloc h.count).trans (if_pos h.root)
    unfold readFat12
    rw [Prog.bind_ok (readBootSector_eq h.boot), Prog.bind_ok hres, Prog.bind_ok hfat]
    exact Prog.bind_ok (readRootDirectory_run (rootStart env f) h.rootAlloc)
  constructor
  · intro h
    have hl : Loads env f := by
      obtain ⟨b, f1, h1, h⟩ := Prog.bind_eq_ok h
      obtain ⟨u, f2, h2, h⟩ := Prog.bind_eq_ok h
      obtain ⟨t, f3, h3, h⟩ := Prog.bind_eq_ok h
      obtain ⟨r, f4, h4, -⟩ := Prog.bind_eq_ok h
      obtain ⟨rfl, rfl, hboot⟩ := readBootSector_ok h1
      rw [skipReservedSectors_run] at h2
      split at h2
      · rename_i hres
        cases h2
        obtain ⟨halloc, hcount, hroot⟩ := readFileAllocationTables_ok h3
        exact ⟨hboot, hres, hcount, hroot, halloc, readRootDirectory_ok h4⟩
      · cases h2
    rw [hrun hl] at h
    cases h
    exact ⟨hl, rfl, rfl⟩
  · rintro ⟨hl, rfl, rfl⟩
    exact hrun hl

/-! ## Images given byte by byte -/

/-- An image of `n` bytes given byte by byte. -/
def imageOf (n : Nat) (g : Nat → UInt8) : List UInt8 := (List.range n).map g

@[simp] theorem imageOf_length (n : Nat) (g : Nat → UInt8) : (imageOf n g).length = n := by
  simp [imageOf]

theorem imageOf_getD {n : Nat} (g : Nat → UInt8) {i : Nat} (h : i < n) :
    (imageOf n g).getD i 0 = g i := by
  simp [imageOf, List.getD_eq_getElem?_getD, h]

theorem fill_imageOf {env : Env} {f : File} {dst : Dst} {n k : Nat} {g : Nat → UInt8}
    (hf : f.data = imageOf n g) (h : f.off + k ≤ n) :
    f.fill env dst k = Vector.ofFn fun i => g (f.off + i) := by
  unfold File.fill
  congr 1
  funext i
  rw [hf]
  simp [imageOf, show f.off + i < n by omega]

theorem bootAt_imageOf (env : Env) {n : Nat} {g : Nat → UInt8} (h : bootMemberSize ≤ n) :
    let b := bootAt env (openImage (imageOf n g))
    b.bytesPerSector.toNat = (g 11).toNat + 256 * (g 12).toNat ∧
    b.sectorsPerCluster = g 13 ∧
    b.reservedSectors.toNat = (g 14).toNat + 256 * (g 15).toNat ∧
    b.fatCopies = g 16 ∧
    b.maxRootDirEntries.toNat = (g 17).toNat + 256 * (g 18).toNat ∧
    b.sectorsPerFat.toNat = (g 22).toNat + 256 * (g 23).toNat := by
  have hm : bootMemberSize = 512 := rfl
  have hb := bootAt_fields env (show bootMemberSize ≤ (imageOf n g).length by rwa [imageOf_length])
  simp only [imageOf_getD g (show 11 < n by omega), imageOf_getD g (show 12 < n by omega),
    imageOf_getD g (show 13 < n by omega), imageOf_getD g (show 14 < n by omega),
    imageOf_getD g (show 15 < n by omega), imageOf_getD g (show 16 < n by omega),
    imageOf_getD g (show 17 < n by omega), imageOf_getD g (show 18 < n by omega),
    imageOf_getD g (show 22 < n by omega), imageOf_getD g (show 23 < n by omega)] at hb
  exact hb

theorem bootAt_imageOf_congr (env : Env) {n : Nat} {g g' : Nat → UInt8} (h : bootMemberSize ≤ n)
    (hg : ∀ i < bootMemberSize, g i = g' i) :
    bootAt env (openImage (imageOf n g)) = bootAt env (openImage (imageOf n g')) := by
  have hlen (g : Nat → UInt8) : bootMemberSize ≤ (imageOf n g).length := by rwa [imageOf_length]
  refine bootAt_congr env (hlen g') (hlen g) fun i hi => ?_
  rw [imageOf_getD g (hi.trans_le h), imageOf_getD g' (hi.trans_le h)]
  exact hg i hi

/-- Every allocation succeeds and memory is zero before it is written. -/
def Env.plain : Env := ⟨fun _ => true, fun _ => true, fun _ _ => 0⟩

/-- A boot sector with sectors of 3 bytes and one sector a FAT; every other byte is 1. -/
def smallByte (i : Nat) : UInt8 := if i = 11 then 3 else if i = 12 ∨ i = 23 then 0 else 1

theorem smallImage_fields (env : Env) {n : Nat} {g : Nat → UInt8} (h : bootMemberSize ≤ n)
    (hg : ∀ i < bootMemberSize, g i = smallByte i) :
    let b := bootAt env (openImage (imageOf n g))
    b.bytesPerSector.toNat = 3 ∧ b.sectorsPerCluster = 1 ∧ b.reservedSectors.toNat = 257 ∧
    b.fatCopies = 1 ∧ b.maxRootDirEntries.toNat = 257 ∧ b.sectorsPerFat.toNat = 1 := by
  rw [bootAt_imageOf_congr env h hg]
  exact bootAt_imageOf env h

end Cs370.MsDos
