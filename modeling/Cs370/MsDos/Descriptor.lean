import Cs370.MsDos.Types

/-!
# The image descriptor

The file descriptor of the image: its bytes, the offset and the `read(2)` calls made through
it. `read` returns the number of bytes available, which is 0 at the end of the file, and
leaves the rest of the destination as it was; `Env.mem` is what the destinations hold
before anything is stored there.

`Prog` is the shape of the reading functions: they return 1 with what they stored, return 0
(`Stop.failed`), or do something C leaves undefined (`Stop.fault`).
-/

namespace Cs370.MsDos

inductive BootField where
  | jmpBoot | oemName | bytesPerSector | sectorsPerCluster | reservedSectors | fatCopies
  | maxRootDirEntries | totalSectors | mediaType | sectorsPerFat | sectorsPerTrack
  | numHeads | numHidden | bootstrap | signature
  deriving DecidableEq, Repr

inductive DirField where
  | filename | extension | attributes | reservedBytes | time | date | startCluster | filesize
  deriving DecidableEq, Repr

/-- The destination of a `read`: a field of `boot_t`, the local `tmp` of the first and of the
later calls of `read_twelve_bits_twice`, a field of a directory entry, the buffer of
`write_cluster`. -/
inductive Dst where
  | boot (f : BootField)
  | markers
  | fatPair (i : Nat)
  | dirEntry (i : Nat) (f : DirField)
  | buff
  deriving DecidableEq, Repr

structure ReadCall where
  dst : Dst
  off : Nat
  size : Nat
  deriving DecidableEq, Repr

structure File where
  data : List UInt8
  off : Nat
  reads : List ReadCall
  deriving DecidableEq

/-- What the functions find around them: which `malloc` calls succeed, which `open` calls
succeed, and what uninitialised memory holds. -/
structure Env where
  malloc : Nat → Bool
  openOk : List UInt8 → Bool
  mem : Dst → Nat → UInt8

inductive Stop where
  | failed
  | fault
  deriving DecidableEq, Repr

abbrev Prog := StateT File (Except Stop)

/-- The number of bytes `read` finds for a request of `n`. -/
def File.avail (f : File) (n : Nat) : Nat := min n (f.data.length - f.off)

/-- The descriptor after `read(fd, dst, n)`. -/
def File.after (f : File) (dst : Dst) (n : Nat) : File :=
  { f with off := f.off + f.avail n, reads := f.reads ++ [⟨dst, f.off, n⟩] }

/-- The destination after `read(fd, dst, n)`: the bytes found, then the old contents. -/
def File.fill (env : Env) (f : File) (dst : Dst) (n : Nat) : Vector UInt8 n :=
  Vector.ofFn fun i => (f.data[f.off + i]?).getD (env.mem dst i)

/-- `read(2)`: the count returned, the destination and the descriptor afterwards. -/
def File.read (env : Env) (f : File) (dst : Dst) (n : Nat) : Int × Vector UInt8 n × File :=
  (f.avail n, f.fill env dst n, f.after dst n)

/-- `lseek(2)` with `SEEK_CUR`. -/
def File.lseekCur (f : File) (d : Int) : Int × File :=
  if 0 ≤ f.off + d then (f.off + d, { f with off := (f.off + d).toNat }) else (-1, f)

/-- `lseek(2)` with `SEEK_SET`. -/
def File.lseekSet (f : File) (pos : Nat) : File := { f with off := pos }

def boolRead (env : Env) (dst : Dst) (n : Nat) : Prog (Vector UInt8 n) := fun f =>
  let (count, bytes, f') := f.read env dst n
  if count < 0 then .error .failed else .ok (bytes, f')

/-- `fat12.c` does not include the header that declares `lseek`, so the `int` of the implicit
declaration is compared: the low 32 bits of the new offset. -/
def boolSeek (n : Nat) : Prog Unit := fun f =>
  let (pos, f') := f.lseekCur (CInt.offT n)
  if CInt.intW 32 pos ≥ 0 then .ok ((), f') else .error .failed

/-- The offsets `bool_seek` takes for a success: those without bit 31. -/
def seekOk (pos : Nat) : Prop := pos % 2 ^ 32 < 2 ^ 31

instance (pos : Nat) : Decidable (seekOk pos) := inferInstanceAs (Decidable (_ < _))

def byte (v : Vector UInt8 1) : UInt8 := v[0]

def le16 (v : Vector UInt8 2) : UInt16 := UInt16.ofNat (v[0].toNat + 256 * v[1].toNat)

def le32 (v : Vector UInt8 4) : UInt32 :=
  UInt32.ofNat (v[0].toNat + 256 * v[1].toNat + 65536 * v[2].toNat + 16777216 * v[3].toNat)

def readUint8 (env : Env) (dst : Dst) : Prog UInt8 := do
  let v ← boolRead env dst 1
  return byte v

def readUint16LittleEndian (env : Env) (dst : Dst) : Prog UInt16 := do
  let v ← boolRead env dst 2
  return le16 v

def readUint32LittleEndian (env : Env) (dst : Dst) : Prog UInt32 := do
  let v ← boolRead env dst 4
  return le32 v

/-- The two 12-bit entries of three bytes. -/
def twelveBitsTwice (tmp : Vector UInt8 3) : UInt16 × UInt16 :=
  (((tmp[1].toUInt16 &&& 0x0f) <<< 8) ||| tmp[0].toUInt16,
    (tmp[2].toUInt16 <<< 4) ||| ((tmp[1] &&& 0xf0) >>> 4).toUInt16)

def readTwelveBitsTwice (env : Env) (dst : Dst) : Prog (UInt16 × UInt16) := do
  let tmp ← boolRead env dst 3
  return twelveBitsTwice tmp

/-! ## What a read leaves behind -/

theorem le16_toNat (v : Vector UInt8 2) : (le16 v).toNat = v[0].toNat + 256 * v[1].toNat := by
  have h0 := v[0].toNat_lt
  have h1 := v[1].toNat_lt
  rw [le16, UInt16.toNat_ofNat']
  omega

theorem twelveBitsTwice_toNat (tmp : Vector UInt8 3) :
    (twelveBitsTwice tmp).1.toNat = tmp[0].toNat ||| (tmp[1].toNat &&& 0x0f) <<< 8 ∧
      (twelveBitsTwice tmp).2.toNat = tmp[1].toNat >>> 4 ||| tmp[2].toNat <<< 4 := by
  have h1 := tmp[1].toNat_lt
  have h2 := tmp[2].toNat_lt
  have hand : tmp[1].toNat &&& 15 < 16 := Nat.and_lt_two_pow (n := 4) _ (by decide)
  constructor
  · have hlt : (tmp[1].toNat &&& 15) <<< 8 < 65536 := by
      rw [Nat.shiftLeft_eq]
      omega
    simp [twelveBitsTwice, Nat.mod_eq_of_lt hlt, Nat.or_comm]
  · have hlt : tmp[2].toNat <<< 4 < 65536 := by
      rw [Nat.shiftLeft_eq]
      omega
    have hhigh : (tmp[1].toNat &&& 240) >>> 4 = tmp[1].toNat >>> 4 := by
      rw [Nat.shiftRight_and_distrib]
      refine (Nat.and_two_pow_sub_one_eq_mod (tmp[1].toNat >>> 4) 4).trans (Nat.mod_eq_of_lt ?_)
      rw [Nat.shiftRight_eq_div_pow]
      omega
    simp [twelveBitsTwice, Nat.mod_eq_of_lt hlt, hhigh, Nat.or_comm]

@[simp] theorem File.after_data (f : File) (dst : Dst) (n : Nat) :
    (f.after dst n).data = f.data := rfl

@[simp] theorem File.after_reads (f : File) (dst : Dst) (n : Nat) :
    (f.after dst n).reads = f.reads ++ [⟨dst, f.off, n⟩] := rfl

theorem File.after_off (f : File) (dst : Dst) (n : Nat) :
    (f.after dst n).off = f.off + min n (f.data.length - f.off) := rfl

@[simp] theorem File.lseekSet_data (f : File) (pos : Nat) : (f.lseekSet pos).data = f.data := rfl

@[simp] theorem File.lseekSet_off (f : File) (pos : Nat) : (f.lseekSet pos).off = pos := rfl

@[simp] theorem File.lseekSet_reads (f : File) (pos : Nat) : (f.lseekSet pos).reads = f.reads := rfl

/-- `read` returns a count, never -1, so `bool_read` never fails. -/
theorem boolRead_run (env : Env) (dst : Dst) (n : Nat) (f : File) :
    boolRead env dst n f = .ok (f.fill env dst n, f.after dst n) := by
  unfold boolRead File.read
  simp only
  rw [if_neg (by omega)]

@[simp] theorem File.fill_getElem (env : Env) (f : File) (dst : Dst) (n : Nat) (i : Nat)
    (hi : i < n) : (f.fill env dst n)[i] = (f.data[f.off + i]?).getD (env.mem dst i) := by
  simp [File.fill]

/-- The reads of a record whose fields are read one after the other. -/
def File.afterAll (f : File) (l : List (Dst × Nat)) : File :=
  l.foldl (fun f p => f.after p.1 p.2) f

@[simp] theorem File.afterAll_nil (f : File) : f.afterAll [] = f := rfl

@[simp] theorem File.afterAll_cons (f : File) (p : Dst × Nat) (l : List (Dst × Nat)) :
    f.afterAll (p :: l) = (f.after p.1 p.2).afterAll l := rfl

@[simp] theorem File.afterAll_data (f : File) (l : List (Dst × Nat)) :
    (f.afterAll l).data = f.data := by
  induction l generalizing f with
  | nil => rfl
  | cons p l ih => rw [afterAll_cons, ih, after_data]

theorem File.afterAll_off (f : File) (l : List (Dst × Nat)) :
    (f.afterAll l).off = f.off + min (l.map (·.2)).sum (f.data.length - f.off) := by
  induction l generalizing f with
  | nil => simp
  | cons p l ih =>
    rw [afterAll_cons, ih, after_off, after_data, List.map_cons, List.sum_cons]
    omega

theorem File.fill_afterAll (env : Env) (f : File) (l : List (Dst × Nat)) (dst : Dst) (n : Nat) :
    (f.afterAll l).fill env dst n =
      Vector.ofFn fun i => (f.data[f.off + (l.map (·.2)).sum + i]?).getD (env.mem dst i) := by
  unfold File.fill
  congr 1
  funext i
  rw [afterAll_data, afterAll_off]
  rcases Nat.le_total (l.map (·.2)).sum (f.data.length - f.off) with h | h
  · rw [Nat.min_eq_left h]
  · -- both positions are past the end of the file
    rw [List.getElem?_eq_none (by omega), List.getElem?_eq_none (by omega)]

theorem File.afterAll_append (f : File) (l l' : List (Dst × Nat)) :
    f.afterAll (l ++ l') = (f.afterAll l).afterAll l' := List.foldl_append

/-- The calls a sequence of reads makes, each at the offset where the one before stopped. -/
def File.calls (f : File) : List (Dst × Nat) → List ReadCall
  | [] => []
  | p :: l => ⟨p.1, f.off, p.2⟩ :: (f.after p.1 p.2).calls l

theorem File.afterAll_reads (f : File) (l : List (Dst × Nat)) :
    (f.afterAll l).reads = f.reads ++ f.calls l := by
  induction l generalizing f with
  | nil => simp [File.calls]
  | cons p l ih => rw [afterAll_cons, ih, after_reads, List.append_assoc]; rfl

theorem File.calls_append (f : File) (l l' : List (Dst × Nat)) :
    f.calls (l ++ l') = f.calls l ++ (f.afterAll l).calls l' := by
  induction l generalizing f with
  | nil => rfl
  | cons p l ih => rw [List.cons_append, calls, ih, calls, afterAll_cons, List.cons_append]

theorem File.dst_mem_of_mem_calls {f : File} {l : List (Dst × Nat)} {c : ReadCall}
    (h : c ∈ f.calls l) : (c.dst, c.size) ∈ l := by
  induction l generalizing f with
  | nil => cases h
  | cons p l ih =>
    rcases List.mem_cons.mp h with rfl | h
    · exact List.mem_cons_self
    · exact List.mem_cons_of_mem _ (ih h)

/-- A destination read once is read where the reads before it stopped. -/
theorem File.off_of_mem_calls {f : File} {l l' : List (Dst × Nat)} {p : Dst × Nat} {c : ReadCall}
    (h : c ∈ f.calls (l ++ p :: l')) (hc : c.dst = p.1) (hl : ∀ q ∈ l, q.1 ≠ p.1)
    (hl' : ∀ q ∈ l', q.1 ≠ p.1) : c.off = (f.afterAll l).off := by
  rw [calls_append, calls] at h
  rcases List.mem_append.mp h with h | h
  · exact absurd hc (hl _ (dst_mem_of_mem_calls h))
  · rcases List.mem_cons.mp h with rfl | h
    · rfl
    · exact absurd hc (hl' _ (dst_mem_of_mem_calls h))

theorem File.mem_calls (f : File) (l l' : List (Dst × Nat)) (p : Dst × Nat) :
    ⟨p.1, (f.afterAll l).off, p.2⟩ ∈ f.calls (l ++ p :: l') := by
  rw [calls_append, calls]
  exact List.mem_append_right _ List.mem_cons_self

end Cs370.MsDos
