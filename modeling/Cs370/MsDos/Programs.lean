import Mathlib.Algebra.Order.BigOperators.Group.List
import Mathlib.Algebra.Order.Ring.Canonical
import Cs370.MsDos.Label
import Cs370.MsDos.Listing
import Cs370.MsDos.Names

/-!
# The two programs

`main` of `msdosdir.c` and of `msdosextr.c`, with what they print, the status they return and
the files they leave. `extract_single_file` does not close the file it has written, so that each
file opened takes one of the descriptors the process may have open, and `msdosextr_run` says
what comes out of a volume with that: the first files, as many as there are descriptors left.

Two entries may lead to one file. Opening it again truncates it, or is refused when it was
created read-only (`Host.envAt`, `Host.store`).

A run that comes to something C leaves undefined is a `fault`.
-/

namespace Cs370.MsDos

open Loop

/-! ## What is printed -/

def newline : UInt8 := 0x0a
def zero : UInt8 := 0x30

def ascii (s : String) : List UInt8 := s.toList.map fun c => UInt8.ofNat c.toNat

/-- `%u`. -/
def decimal (n : Nat) : List UInt8 :=
  if n < 10 then [UInt8.ofNat (0x30 + n)] else decimal (n / 10) ++ [UInt8.ofNat (0x30 + n % 10)]

/-- `%u` with a width and the byte it is filled up with. -/
def padded (fill : UInt8) (width n : Nat) : List UInt8 :=
  List.replicate (width - (decimal n).length) fill ++ decimal n

/-- The pieces of the line `print_single_file_data` prints. -/
def FileLine.pieces (l : FileLine) : List (List UInt8) :=
  [cString l.filename.toList, [dot], cString l.extension.toList, [space],
    padded space 10 l.filesize.toNat, [space],
    padded zero 2 l.month, ascii "-", padded zero 2 l.day, ascii "-", padded zero 2 l.year, [space],
    padded zero 2 l.hours, ascii ":", padded zero 2 l.minutes, ascii ":", padded zero 2 l.seconds,
    [newline]]

def FileLine.text (l : FileLine) : List UInt8 := l.pieces.flatten

/-- What `print_file_data` prints: the lines and the totals. -/
def Listing.text (l : Listing) : List UInt8 :=
  l.lines.flatMap FileLine.text ++ (newline :: (decimal l.totalFiles.toNat ++
    (ascii " file(s), " ++ (decimal l.totalSize.toNat ++ ascii " bytes\n"))))

/-- What a process finds: the memory and the files of `env`, the contents of the files it can
open for reading, the file each path leads to, which files are there from the start, whether it
may write to files without write permission, what an image holds once it has been opened as
an output file, the text of the last error, how many descriptors it may have open, and what is
in memory that was not written yet. -/
structure Host where
  env : Env
  openInput : List UInt8 → Option (List UInt8)
  file : List UInt8 → Nat
  existing : Nat → Bool
  privileged : Bool
  overwritten : Nat → List UInt8
  strerror : List UInt8
  descriptors : Nat
  heap : Nat → UInt8

def Host.perror (host : Host) (s : String) : List UInt8 :=
  ascii s ++ (ascii ": " ++ (host.strerror ++ [newline]))

structure Exit where
  status : Nat
  stdout : List UInt8
  stderr : List UInt8
  files : List OutFile
  deriving DecidableEq

inductive Ended where
  | exit (e : Exit)
  | fault
  deriving DecidableEq

def userError : Nat := 1
def systemError : Nat := 2

/-- The part the two programs share: the image is opened and the volume read. -/
def withVolume (host : Host) (path : List UInt8) (body : Fat12 → File → Option Ended) :
    Option Ended :=
  match host.openInput path with
  | none => some (.exit ⟨systemError, [], host.perror "Could not open input file", []⟩)
  | some image =>
    match readFat12 host.env (openImage image) with
    | .error .failed => some (.exit ⟨systemError, [], ascii "Could not read file system.", []⟩)
    | .error .fault => some .fault
    | .ok (fat, f) => body fat f

/-- `print_fat12`, with at most `n` iterations of its loop. -/
def printFat12 (fat : Fat12) (n : Nat) : Option Ended :=
  match printVolumeData fat, printFileData fat n with
  | _, none => none
  | some label, some (.done s) => some (.exit ⟨0, label ++ (newline :: s.world.text), [], []⟩)
  | _, some _ => some .fault

/-- `main` of `msdosdir.c`. -/
def msdosdir (host : Host) (argv : List (List UInt8)) (n : Nat) : Option Ended :=
  match argv with
  | _ :: path :: _ => withVolume host path fun fat _ => printFat12 fat n
  | _ =>
    some (.exit ⟨userError, ascii "Please include the input file as a command line argument.\n", [],
      []⟩)

/-! ## Extracting -/

/-- What `extract_files` has done so far: its messages, the files it has written, how many it has
opened, the buffer with the name and the descriptor of the image. -/
structure Output where
  stdout : List UInt8
  files : List OutFile
  opened : Nat
  fullName : List UInt8
  image : File

def Host.fullName (host : Host) (outDir : List UInt8) : List UInt8 :=
  outDir ++ slash :: 0 :: (List.range (fullLen outDir - (outDir.length + 2))).map host.heap

def Host.start (host : Host) (outDir : List UInt8) (f : File) : Output :=
  ⟨[], [], 0, host.fullName outDir, f⟩

/-- A process for which every path is a file of its own and every one can be opened. -/
def plainHost (image : List UInt8) (descriptors : Nat) : Host where
  env := Env.plain
  openInput := fun _ => some image
  file := fun path => path.foldl (fun n b => 257 * n + b.toNat + 1) 0
  existing := fun _ => false
  privileged := false
  overwritten := fun _ => []
  strerror := []
  descriptors
  heap := fun _ => 0

/-! ## The loop over the directory -/

section
variable {env : Env} {image : List UInt8} {fat : Fat12} {f' : File}
  (h : readFat12 env (openImage image) = .ok (fat, f'))
include h

theorem readFat12_visibleEntries : visibleEntries fat = fat.rootDirEntries.cells := by
  obtain ⟨hsize, hcells⟩ := readFat12_rootDirEntries h
  have hle := dirCells_length_le env 0 fat.boot.maxRootDirEntries.toNat
    (rootStart env (openImage image))
  rw [← hcells] at hle
  rw [visibleEntries, hsize, List.take_of_length_le hle, List.take_of_length_le hle]

end

/-! ## The files -/

/-- The chain of an entry: none for an entry without a cluster. -/
structure Stored (fat : Fat12) (entry : DirEntry) (l : List UInt16) : Prop where
  name : trimmed entry.filename ≠ []
  chain : entry.startCluster = 0 ∧ l = [] ∨
    Chain fat l ∧ l.head? = some entry.startCluster ∧ clusterSize fat.boot ≠ 0

def outPath (outDir : List UInt8) (entry : DirEntry) : List UInt8 :=
  outDir ++ slash :: entryName entry

/-- The buffer and the descriptor between two calls. -/
structure Ready (outDir image buf : List UInt8) (f : File) : Prop where
  dir : buf.take (outDir.length + 1) = outDir ++ [slash]
  length : buf.length = fullLen outDir
  data : f.data = image

theorem fullLen_eq (outDir : List UInt8) :
    fullLen outDir = outDir.length + 1 + (maxFileName + 1 + maxExtension) + 1 := by
  simp only [fullLen, Nat.add_assoc]

section
variable {fat : Fat12} {entry : DirEntry} {l : List UInt16} {k : Nat}
  (hs : Stored fat entry l) (hk : l.length ≤ k)
include hs hk

theorem Stored.extractSingleFile_created {env : Env} {buf buf' : List UInt8} {dirLen : Nat}
    (f : File) (hname : writeName entry buf dirLen = some buf')
    (hopen : env.openOk (cString buf') = true) :
    ∃ f', f'.data = f.data ∧ extractSingleFile env fat entry buf dirLen f k =
      some (.created ⟨cString buf', permissions entry,
        copyChain (delivered env fat.boot f.data) (clusterSize fat.boot)
          (entry.filesize.toNat % clusterSize fat.boot) l⟩ buf' f') := by
  rcases hs.chain with ⟨h0, rfl⟩ | ⟨hchain, hstart, hcs⟩
  · refine ⟨f, rfl, ?_⟩
    simp only [extractSingleFile, hname, hopen, if_true, h0, ne_eq, not_true, if_false, copyChain]
  · obtain ⟨f', hrun⟩ := hchain.extractSingleFile_run (f := f) hstart hcs hname hopen
    exact ⟨f', (extractSingleFile_leaves hrun rfl).2, extractSingleFile_mono hk hrun⟩

end

section
variable {outDir image buf : List UInt8} {f : File} {entry : DirEntry}

theorem Ready.writeName (h : Ready outDir image buf f) (hdir : 0 ∉ outDir)
    (hname : trimmed entry.filename ≠ []) :
    ∃ buf', MsDos.writeName entry buf (outDir.length + 1) = some buf' ∧
      cString buf' = outPath outDir entry ∧
      ∀ f' : File, f'.data = image → Ready outDir image buf' f' := by
  have hlen := h.length
  have hfull := fullLen_eq outDir
  have htext := entryText_length entry
  have hle : outDir.length + 1 ≤ buf.length := by omega
  have hpath := openedPath_eq entry hle
  have hwrite := writeName_eq entry hle
  rw [if_neg hname] at hwrite hpath
  rw [openedPath, hwrite, Option.map_some, Option.some.injEq, h.dir, List.append_assoc] at hpath
  refine ⟨_, hwrite, ?_, fun f' hf' => ⟨?_, ?_, hf'⟩⟩
  · rw [hpath, cString_append hdir]
    rfl
  · rw [memcpy_take (by omega), h.dir]
  · rw [memcpy_length, hlen]
    rw [List.length_append, List.length_singleton]
    omega

variable {host : Host} {fat : Fat12} (path : List UInt8) {l : List UInt16} {k : Nat} {w : Output}
  (hs : Stored fat entry l) (hdir : 0 ∉ outDir) (hr : Ready outDir image w.fullName w.image)
include hs hdir hr

end

/-! ## The descriptors -/

section
variable {α : Type} (ok : α → Bool)

end

section
variable (host : Host) {fat : Fat12} {outDir image : List UInt8}

variable {host}

section
variable {f : File} {path : List UInt8} (prog : List UInt8) (args : List (List UInt8))
  (hin : host.openInput path = some image)
  (hread : readFat12 host.env (openImage image) = .ok (fat, f))
  (hd : fat.boot.maxRootDirEntries.toNat = 0 ∨
    ∃ e ∈ fat.rootDirEntries.cells, isEntryFree e = true)
  (hm : host.env.malloc (fullLen outDir) = true) (hdir : 0 ∉ outDir)
  (chain : DirEntry → List UInt16) (hstored : ∀ e ∈ listedEntries fat, Stored fat e (chain e))
  (himage : ∀ e ∈ listedEntries fat, host.file (outPath outDir e) ≠ host.file path)
  (hsep : ((listedEntries fat).map fun e => host.file (outPath outDir e)).Nodup)
include hin hread hd hm hdir hstored himage hsep

end

end

end Cs370.MsDos
