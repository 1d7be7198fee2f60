import Mathlib.Tactic.Linarith
import Cs370.Lib.CInt

/-!
# The volume records

`boot_t`, `direntry_t` and `fat12_t` of `fat12.h`. An array allocated with `malloc` is a
`Table`: the number of elements allocated and the elements stored so far; reading outside the
allocation, or an element never stored, has no value (`Table.get?`).
-/

namespace Cs370.MsDos

def bootMemberSize : Nat := 512
def dirEntryMemberSize : Nat := 32
def maxFileName : Nat := 8
def maxExtension : Nat := 3

structure Boot where
  jmpBoot : Vector UInt8 3
  oemName : Vector UInt8 8
  bytesPerSector : UInt16
  sectorsPerCluster : UInt8
  reservedSectors : UInt16
  fatCopies : UInt8
  maxRootDirEntries : UInt16
  totalSectors : UInt16
  mediaType : UInt8
  sectorsPerFat : UInt16
  sectorsPerTrack : UInt16
  numHeads : UInt16
  numHidden : UInt16
  bootstrap : Vector UInt8 480
  signature : Vector UInt8 2
  deriving DecidableEq

structure DirEntry where
  filename : Vector UInt8 8
  extension : Vector UInt8 3
  attributes : UInt8
  reservedBytes : Vector UInt8 10
  time : UInt16
  date : UInt16
  startCluster : UInt16
  filesize : UInt32
  deriving DecidableEq

/-- An allocated array: its size in elements and what has been stored from index 0 on. -/
structure Table (α : Type) where
  size : Nat
  cells : List α
  deriving DecidableEq

/-- The element at a C index. -/
def Table.get? {α : Type} (t : Table α) (i : Int) : Option α :=
  if 0 ≤ i ∧ i < t.size then t.cells[i.toNat]? else none

/-- `volumeLabel` is an index into `rootDirEntries`; `none` while the pointer is unset. -/
structure Fat12 where
  boot : Boot
  mediaDescriptor : UInt8
  eofMarker : UInt16
  fatEntries : Table UInt16
  rootDirEntries : Table DirEntry
  volumeLabel : Option Nat
  deriving DecidableEq

theorem Table.get?_natCast {α : Type} {t : Table α} {i : Nat} (h : i < t.size) :
    t.get? (i : Int) = t.cells[i]? := by
  simp [Table.get?, h]

theorem Table.getElem?_of_get? {α : Type} {t : Table α} {i : Nat} {x : α}
    (h : t.get? (i : Int) = some x) : t.cells[i]? = some x := by
  unfold Table.get? at h
  split at h
  · exact h
  · cases h

theorem Table.mem_of_get? {α : Type} {t : Table α} {i : Int} {x : α} (h : t.get? i = some x) :
    x ∈ t.cells := by
  unfold Table.get? at h
  split at h
  · exact List.mem_of_getElem? h
  · cases h

theorem Table.get?_isSome_iff {α : Type} {t : Table α} (h : t.size ≤ t.cells.length) {i : Int} :
    (∃ x, t.get? i = some x) ↔ 0 ≤ i ∧ i < t.size := by
  unfold Table.get?
  refine ⟨fun ⟨x, hx⟩ => ?_, fun hi => ?_⟩
  · split at hx
    · assumption
    · cases hx
  · rw [if_pos hi]
    have hlt : i.toNat < t.cells.length := by omega
    exact ⟨_, List.getElem?_eq_getElem hlt⟩

/-! ## Entry predicates -/

def fileDeleted : UInt8 := 0xe5
def entryFree : UInt8 := 0
def attrReadOnly : UInt8 := 1
def attrVolumeLabel : UInt8 := 8

def isVolumeLabel (entry : DirEntry) : Bool := entry.attributes &&& attrVolumeLabel != 0

def isEntryFree (entry : DirEntry) : Bool := entry.filename[0] == entryFree

def isEntryDeleted (entry : DirEntry) : Bool := entry.filename[0] == fileDeleted

def isRegularEntry (entry : DirEntry) : Bool := !isVolumeLabel entry && !isEntryDeleted entry

/-! ## Layout arithmetic

The products are evaluated in `int` and stored into a `uint32_t`; an `int` overflow is taken
as the wrap-around of two's complement machines. -/

/-- `bytes_per_fat` of `read_file_allocation_tables`. -/
def bytesPerFat (b : Boot) : Nat :=
  CInt.u32 ((b.sectorsPerFat.toNat : Int) * b.bytesPerSector.toNat)

/-- `num_fat_entries`, in `uint32_t` arithmetic throughout. -/
def numFatEntries (b : Boot) : Nat :=
  CInt.u32 ((CInt.u32 ((bytesPerFat b : Int) * 2) / 3 : Nat) - 2)

/-- `reserved_sector_bytes` of `skip_reserved_sectors`. -/
def reservedSectorBytes (b : Boot) : Nat :=
  CInt.u32 (((b.reservedSectors.toNat : Int) - 1) * b.bytesPerSector.toNat)

/-- The distance `read_file_allocation_tables` skips after the first FAT. -/
def remainingFatBytes (b : Boot) : Nat :=
  CInt.u32 (((b.fatCopies.toNat : Int) - 1) * bytesPerFat b)

/-- `base_address` of `extract_single_file`. -/
def baseAddress (b : Boot) : Nat :=
  CInt.u32 (((b.reservedSectors.toNat : Int) + b.sectorsPerFat.toNat * b.fatCopies.toNat) *
    b.bytesPerSector.toNat + b.maxRootDirEntries.toNat * dirEntryMemberSize)

/-- `cluster_size` of `extract_single_file`. -/
def clusterSize (b : Boot) : Nat :=
  CInt.u32 ((b.bytesPerSector.toNat : Int) * b.sectorsPerCluster.toNat)

theorem reservedSectorBytes_lt (b : Boot) : reservedSectorBytes b < 2 ^ 32 := CInt.uintW_lt 32 _

theorem remainingFatBytes_lt (b : Boot) : remainingFatBytes b < 2 ^ 32 := CInt.uintW_lt 32 _

theorem bytesPerFat_eq (b : Boot) :
    bytesPerFat b = b.sectorsPerFat.toNat * b.bytesPerSector.toNat := by
  have h1 := b.sectorsPerFat.toNat_lt
  have h2 := b.bytesPerSector.toNat_lt
  exact CInt.uintW_natCast_mul (by nlinarith)

theorem clusterSize_eq (b : Boot) :
    clusterSize b = b.bytesPerSector.toNat * b.sectorsPerCluster.toNat := by
  have h1 := b.bytesPerSector.toNat_lt
  have h2 := b.sectorsPerCluster.toNat_lt
  exact CInt.uintW_natCast_mul (by nlinarith)

end Cs370.MsDos
