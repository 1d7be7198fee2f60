import Cs370.Lib.Loop
import Cs370.MsDos.Reader

/-!
# Extracting a file

`extract_single_file` builds the path in the shared buffer `full_name`, creates the output
file and follows the cluster chain with a do/while loop; `write_cluster` copies one cluster.

`Walk` is the state of the loop. Its faults are the lookup outside the FAT and the division
by a cluster size of zero; a name field of eight spaces is read before its first byte. Opened
output files accept every write; a `write_cluster` whose buffer cannot be allocated hands a
null pointer to `read` and `write`, which refuse it.
-/

namespace Cs370.MsDos

open CInt Loop

/-! ## The path -/

def space : UInt8 := 0x20

/-- The trim loop from index `i` down. `last_nonspace` is a `size_t`, so the guard
`last_nonspace >= 0` never stops it. -/
def lastNonspace (filename : Vector UInt8 8) : Nat → Option Nat
  | 0 => if filename[0]? == some space then none else some 0
  | i + 1 => if filename[i + 1]? == some space then lastNonspace filename i else some (i + 1)

/-- `memcpy(buf + pos, bytes, …)`. -/
def memcpy (buf : List UInt8) (pos : Nat) (bytes : List UInt8) : List UInt8 :=
  buf.take pos ++ bytes ++ buf.drop (pos + bytes.length)

/-- The buffer `full_name` once the name of the entry stands in it; `none` is the read before
the first byte of the name. -/
def writeName (entry : DirEntry) (fullName : List UInt8) (dirLen : Nat) : Option (List UInt8) :=
  match lastNonspace entry.filename (maxFileName - 1) with
  | none => none
  | some last =>
    let size := last + 1
    let buf := memcpy fullName dirLen (entry.filename.toList.take size)
    if entry.extension.toList ≠ List.replicate maxExtension space then
      let buf := memcpy buf (dirLen + size) [0x2e]
      let buf := memcpy buf (dirLen + size + 1) entry.extension.toList
      some (memcpy buf (dirLen + size + 1 + maxExtension) [0])
    else some (memcpy buf (dirLen + size) [0])

/-- The C string at the start of a buffer. -/
def cString (buf : List UInt8) : List UInt8 := buf.takeWhile (· != 0)

def permissions (entry : DirEntry) : Nat :=
  if entry.attributes &&& attrReadOnly != 0 then 0o444 else 0o644

/-! ## The clusters -/

/-- The offset `write_cluster` seeks to. -/
def clusterOffset (b : Boot) (cluster : UInt16) : Nat :=
  u32 ((baseAddress b : Int) + clusterSize b * ((cluster.toNat : Int) - 2))

/-- The image descriptor and the bytes of the output file. -/
def writeCluster (env : Env) (b : Boot) (cluster : UInt16) (writeSize : Nat)
    (f : File) (out : List UInt8) : File × List UInt8 :=
  let f := f.lseekSet (clusterOffset b cluster)
  if env.malloc (clusterSize b) then
    let (_, buff, f) := f.read env .buff (clusterSize b)
    (f, out ++ buff.toList.take writeSize)
  else (f, out)

structure Walk where
  cluster : UInt16
  file : File
  out : List UInt8

inductive Fault where
  | name
  | lookup (i : Int)
  | divisor
  deriving DecidableEq

/-- The index the loop looks up for a cluster. -/
def fatIndex (cluster : UInt16) : Int := (cluster.toNat : Int) - 2

def clusterStep (env : Env) (fat : Fat12) (filesize : UInt32) (w : Walk) :
    Move Walk (Except Fault Walk) :=
  match fat.fatEntries.get? (fatIndex w.cluster) with
  | none => .stop (.error (.lookup (fatIndex w.cluster)))
  | some next =>
    if next = fat.eofMarker then
      if clusterSize fat.boot = 0 then .stop (.error .divisor)
      else
        let (file, out) := writeCluster env fat.boot w.cluster
          (filesize.toNat % clusterSize fat.boot) w.file w.out
        .stop (.ok ⟨next, file, out⟩)
    else
      let (file, out) := writeCluster env fat.boot w.cluster (clusterSize fat.boot) w.file w.out
      .next ⟨next, file, out⟩

structure OutFile where
  path : List UInt8
  permissions : Nat
  content : List UInt8
  deriving DecidableEq

/-- How `extract_single_file` ends; a created file comes with the buffer and the descriptor. -/
inductive Extracted where
  | fault (e : Fault)
  | notCreated (fullName : List UInt8) (f : File)
  | created (out : OutFile) (fullName : List UInt8) (f : File)

/-- `extract_single_file` with at most `n` iterations of its loop. -/
def extractSingleFile (env : Env) (fat : Fat12) (entry : DirEntry) (fullName : List UInt8)
    (dirLen : Nat) (f : File) (n : Nat) : Option Extracted :=
  match writeName entry fullName dirLen with
  | none => some (.fault .name)
  | some buf =>
    if env.openOk (cString buf) then
      if entry.startCluster ≠ 0 then
        match run (clusterStep env fat entry.filesize) n ⟨entry.startCluster, f, []⟩ with
        | none => none
        | some (.error e) => some (.fault e)
        | some (.ok w) => some (.created ⟨cString buf, permissions entry, w.out⟩ buf w.file)
      else some (.created ⟨cString buf, permissions entry, []⟩ buf f)
    else some (.notCreated buf f)

/-- A name field without trailing spaces has a path. -/
theorem writeName_isSome {entry : DirEntry} (h : entry.filename[7]? ≠ some space)
    (fullName : List UInt8) (dirLen : Nat) : ∃ buf, writeName entry fullName dirLen = some buf := by
  have hlast : lastNonspace entry.filename (maxFileName - 1) = some 7 := by
    show lastNonspace entry.filename (6 + 1) = some 7
    rw [lastNonspace, if_neg (by simpa only [beq_iff_eq] using h)]
  unfold writeName
  simp only [hlast]
  split <;> exact ⟨_, rfl⟩

section
variable {env : Env} {fat : Fat12} {entry : DirEntry} {fullName : List UInt8} {dirLen : Nat}
  {f : File}

theorem extractSingleFile_created {n : Nat} {out : OutFile} {buf : List UInt8} {f' : File}
    (h : extractSingleFile env fat entry fullName dirLen f n = some (.created out buf f')) :
    writeName entry fullName dirLen = some buf ∧ env.openOk (cString buf) = true := by
  unfold extractSingleFile at h
  cases hname : writeName entry fullName dirLen with
  | none => simp [hname] at h
  | some buf' =>
    simp only [hname] at h
    split at h
    · rename_i hopen
      split at h
      · split at h
        · cases h
        · cases h
        · cases h
          exact ⟨rfl, hopen⟩
      · cases h
        exact ⟨rfl, hopen⟩
    · cases h

theorem extractSingleFile_mono {n m : Nat} {r : Extracted} (hnm : n ≤ m)
    (h : extractSingleFile env fat entry fullName dirLen f n = some r) :
    extractSingleFile env fat entry fullName dirLen f m = some r := by
  unfold extractSingleFile at h ⊢
  cases hname : writeName entry fullName dirLen with
  | none => simpa only [hname] using h
  | some buf =>
    simp only [hname] at h ⊢
    by_cases hopen : env.openOk (cString buf) = true
    · rw [if_pos hopen] at h ⊢
      by_cases hstart : entry.startCluster ≠ 0
      · rw [if_pos hstart] at h ⊢
        cases hrun : run (clusterStep env fat entry.filesize) n ⟨entry.startCluster, f, []⟩ with
        | none => simp only [hrun] at h; cases h
        | some w =>
          simp only [hrun] at h
          simp only [run_mono hrun hnm]
          exact h
      · rw [if_neg hstart] at h ⊢
        exact h
    · rw [if_neg hopen] at h ⊢
      exact h

theorem extractSingleFile_unique {n m : Nat} {r r' : Extracted}
    (h : extractSingleFile env fat entry fullName dirLen f n = some r)
    (h' : extractSingleFile env fat entry fullName dirLen f m = some r') : r = r' := by
  have h1 := extractSingleFile_mono (Nat.le_max_left n m) h
  have h2 := extractSingleFile_mono (Nat.le_max_right n m) h'
  exact Option.some.inj (h1.symm.trans h2)

end

end Cs370.MsDos
