import Mathlib.Data.List.DropRight
import Cs370.MsDos.Contents
import Cs370.MsDos.Directory

/-!
# The names of the output files

`extract_files` puts the output directory and a `/` into one buffer, and every call of
`extract_single_file` writes the name of its entry behind them, over whatever the calls before
have left there. `Session` says which buffers and descriptors such calls hand on;
`Session.openedPath` is the path the next call opens, which depends on the output directory and
the entry alone.

Nothing checks the bytes of a name. `openedPath_directlyIn_iff` says which names stay inside
the output directory.
-/

namespace Cs370.MsDos

open Loop

/-! ## The name of an entry -/

def slash : UInt8 := 0x2f
def dot : UInt8 := 0x2e

/-- The name field without the spaces that fill it up. -/
def trimmed (filename : Vector UInt8 8) : List UInt8 := filename.toList.rdropWhile (· == space)

/-- What is written behind the directory: an extension field of spaces only is left out, any
other one is taken as it is. -/
def entryText (entry : DirEntry) : List UInt8 :=
  trimmed entry.filename ++
    if entry.extension.toList = List.replicate maxExtension space then []
    else dot :: entry.extension.toList

/-- The name of the output file: the text up to its first NUL. -/
def entryName (entry : DirEntry) : List UInt8 := cString (entryText entry)

def openedPath (entry : DirEntry) (fullName : List UInt8) (dirLen : Nat) : Option (List UInt8) :=
  (writeName entry fullName dirLen).map cString

/-- The trim loop from index `i` down finds the end of the first `i + 1` bytes without their
trailing spaces. -/
theorem lastNonspace_trims (v : Vector UInt8 8) {i : Nat} (hi : i < 8) :
    (v.toList.take (i + 1)).rdropWhile (· == space) =
      match lastNonspace v i with
      | none => []
      | some last => v.toList.take (last + 1) := by
  have hconcat {j : Nat} (hj : j < 8) : v.toList.take (j + 1) = v.toList.take j ++ [v[j]] := by
    rw [List.take_add_one, List.getElem?_eq_getElem (by simpa using hj)]
    rfl
  have hget {j : Nat} (hj : j < 8) : v[j]? = some v[j] := Vector.getElem?_eq_getElem hj
  induction i with
  | zero =>
    rw [hconcat (by omega), List.take_zero, List.rdropWhile_concat, List.rdropWhile_nil,
      lastNonspace, hget (by omega)]
    by_cases h : v[0] = space <;> simp [h, hconcat]
  | succ i ih =>
    rw [hconcat hi, List.rdropWhile_concat, ih (by omega), lastNonspace, hget hi]
    by_cases h : v[i + 1] = space <;> simp [h, hconcat hi]

theorem lastNonspace_le {v : Vector UInt8 8} {i last : Nat} (h : lastNonspace v i = some last) :
    last ≤ i := by
  induction i with
  | zero =>
    rw [lastNonspace] at h
    split at h <;> cases h
    exact Nat.le_refl _
  | succ i ih =>
    rw [lastNonspace] at h
    split at h
    · exact (ih h).trans (Nat.le_succ i)
    · cases h
      exact Nat.le_refl _

theorem trimmed_eq (v : Vector UInt8 8) :
    trimmed v = match lastNonspace v (maxFileName - 1) with
      | none => []
      | some last => v.toList.take (last + 1) := by
  rw [← lastNonspace_trims v (by decide), trimmed, List.take_of_length_le]
  simp [maxFileName]

theorem trimmed_eq_nil_iff {v : Vector UInt8 8} :
    trimmed v = [] ↔ v.toList = List.replicate maxFileName space := by
  rw [trimmed, List.rdropWhile_eq_nil_iff, List.eq_replicate_iff]
  simp [maxFileName]

theorem trimmed_head? {v : Vector UInt8 8} (h : trimmed v ≠ []) : (trimmed v).head? = v[0]? := by
  obtain ⟨t, ht⟩ := List.rdropWhile_prefix (· == space) v.toList
  have hhead : (trimmed v ++ t).head? = v.toList.head? := congrArg List.head? ht
  rw [List.head?_append_of_ne_nil _ h] at hhead
  rw [hhead, List.head?_eq_getElem?, Vector.getElem?_toList]

theorem entryText_length (entry : DirEntry) :
    (entryText entry).length ≤ maxFileName + 1 + maxExtension := by
  have hname := (List.rdropWhile_prefix (· == space) entry.filename.toList).length_le
  rw [← trimmed, Vector.length_toList] at hname
  have h8 : maxFileName + 1 + maxExtension = 8 + 4 := rfl
  rw [h8, entryText, List.length_append]
  refine Nat.add_le_add hname ?_
  split
  · exact Nat.zero_le _
  · rw [List.length_cons, Vector.length_toList]

/-! ## The buffer -/

theorem memcpy_memcpy {buf : List UInt8} {p : Nat} (h : p ≤ buf.length) (x y : List UInt8) :
    memcpy (memcpy buf p x) (p + x.length) y = memcpy buf p (x ++ y) := by
  have hlen : (buf.take p ++ x).length = p + x.length := by simp [h]
  have htake : (memcpy buf p x).take (p + x.length) = buf.take p ++ x := by
    rw [memcpy, List.take_left' hlen]
  have hdrop : (memcpy buf p x).drop (p + x.length + y.length) =
      buf.drop (p + x.length + y.length) := by
    rw [memcpy, ← hlen, List.drop_length_add_append, List.drop_drop]
  rw [memcpy, htake, hdrop, memcpy, List.length_append, List.append_assoc _ x y, Nat.add_assoc]

theorem memcpy_take {buf : List UInt8} {p : Nat} (h : p ≤ buf.length) (x : List UInt8) :
    (memcpy buf p x).take p = buf.take p := by
  rw [memcpy, List.append_assoc, List.take_left' (by simp [h])]

theorem memcpy_length {buf x : List UInt8} {p : Nat} (h : p + x.length ≤ buf.length) :
    (memcpy buf p x).length = buf.length := by
  simp only [memcpy, List.length_append, List.length_take, List.length_drop]
  omega

theorem cString_append_zero (a r : List UInt8) : cString (a ++ 0 :: r) = cString a := by
  induction a with
  | nil => rfl
  | cons x a ih =>
    simp only [cString, List.cons_append, List.takeWhile_cons] at ih ⊢
    rw [ih]

theorem cString_append {a : List UInt8} (h : 0 ∉ a) (r : List UInt8) :
    cString (a ++ r) = a ++ cString r := by
  refine List.takeWhile_append_of_pos fun x hx => ?_
  rw [bne_iff_ne]
  rintro rfl
  exact h hx

theorem writeName_eq (entry : DirEntry) {buf : List UInt8} {p : Nat} (h : p ≤ buf.length) :
    writeName entry buf p =
      if trimmed entry.filename = [] then none
      else some (memcpy buf p (entryText entry ++ [0])) := by
  have htrim := trimmed_eq entry.filename
  unfold writeName
  cases hlast : lastNonspace entry.filename (maxFileName - 1) with
  | none =>
    rw [hlast] at htrim
    rw [if_pos htrim]
  | some last =>
    rw [hlast] at htrim
    have hle : last ≤ 7 := lastNonspace_le hlast
    have hlen : last + 1 = (trimmed entry.filename).length := by
      rw [htrim, List.length_take, Vector.length_toList]
      omega
    have hne : trimmed entry.filename ≠ [] := by
      intro hnil
      rw [hnil] at hlen
      cases hlen
    have hext : maxExtension = entry.extension.toList.length := by rw [Vector.length_toList]; rfl
    simp only at htrim ⊢
    rw [← htrim, hlen, if_neg hne, entryText]
    by_cases hblank : entry.extension.toList = List.replicate maxExtension space
    · rw [if_neg (not_not_intro hblank), if_pos hblank, memcpy_memcpy h, List.append_nil]
    · -- each copy starts where the one before it has ended
      have hdot : p + (trimmed entry.filename).length + 1 =
          p + (trimmed entry.filename ++ [dot]).length := by
        rw [List.length_append, Nat.add_assoc]
        rfl
      have hend : p + (trimmed entry.filename ++ [dot]).length + maxExtension =
          p + (trimmed entry.filename ++ [dot] ++ entry.extension.toList).length := by
        simp only [hext, List.length_append, Nat.add_assoc]
      rw [if_pos hblank, if_neg hblank, memcpy_memcpy h, hdot, ← dot, memcpy_memcpy h, hend,
        memcpy_memcpy h, List.append_assoc _ [dot]]
      rfl

theorem openedPath_eq (entry : DirEntry) {buf : List UInt8} {p : Nat} (h : p ≤ buf.length) :
    openedPath entry buf p =
      if trimmed entry.filename = [] then none
      else some (cString (buf.take p ++ entryText entry)) := by
  rw [openedPath, writeName_eq entry h]
  split
  · rfl
  · rw [Option.map_some, memcpy, ← List.append_assoc, List.append_assoc _ [0]]
    exact congrArg some (cString_append_zero _ _)

/-! ## Calls one after the other -/

/-- What a call leaves for the next one. -/
def Extracted.leaves : Extracted → Option (List UInt8 × File)
  | .fault _ => none
  | .notCreated buf f => some (buf, f)
  | .created _ buf f => some (buf, f)

/-- The buffers and descriptors handed from call to call under the output directory `outDir`:
first the buffer `extract_files` prepares, whose rest is whatever `malloc` has found there, then
what any number of calls has made of it. -/
inductive Session (env : Env) (fat : Fat12) (outDir image : List UInt8) :
    List UInt8 → File → Prop where
  | start {rest : List UInt8} {f : File} : f.data = image →
      outDir.length + 2 + rest.length = fullLen outDir →
      Session env fat outDir image (outDir ++ slash :: 0 :: rest) f
  | call {buf buf' : List UInt8} {f f' : File} {entry : DirEntry} {n : Nat} {r : Extracted} :
      Session env fat outDir image buf f →
      extractSingleFile env fat entry buf (outDir.length + 1) f n = some r →
      r.leaves = some (buf', f') → Session env fat outDir image buf' f'

theorem clusterStep_next_data {env : Env} {fat : Fat12} {filesize : UInt32} {w w' : Walk}
    (h : clusterStep env fat filesize w = .next w') : w'.file.data = w.file.data := by
  unfold clusterStep at h
  split at h
  · cases h
  · split at h
    · split at h <;> cases h
    · cases h
      exact writeCluster_data ..

theorem clusterStep_stop_data {env : Env} {fat : Fat12} {filesize : UInt32} {w w' : Walk}
    (h : clusterStep env fat filesize w = .stop (.ok w')) : w'.file.data = w.file.data := by
  unfold clusterStep at h
  split at h
  · cases h
  · split at h
    · split at h
      · cases h
      · cases h
        exact writeCluster_data ..
    · cases h

theorem run_clusterStep_data {env : Env} {fat : Fat12} {filesize : UInt32} {w w' : Walk} {n : Nat}
    (h : run (clusterStep env fat filesize) n w = some (.ok w')) : w'.file.data = w.file.data := by
  obtain ⟨t, hreach, hstop⟩ := reach_of_run h
  have ht : t.file.data = w.file.data :=
    hreach.invariant (I := fun v => v.file.data = w.file.data) rfl
      fun a b ha hab => (clusterStep_next_data hab).trans ha
  exact (clusterStep_stop_data hstop).trans ht

/-- A call that returns leaves its name in the buffer and the image as it was. -/
theorem extractSingleFile_leaves {env : Env} {fat : Fat12} {entry : DirEntry}
    {buf buf' : List UInt8} {dirLen n : Nat} {f f' : File} {r : Extracted}
    (h : extractSingleFile env fat entry buf dirLen f n = some r)
    (hr : r.leaves = some (buf', f')) :
    writeName entry buf dirLen = some buf' ∧ f'.data = f.data := by
  unfold extractSingleFile at h
  cases hname : writeName entry buf dirLen with
  | none =>
    simp only [hname] at h
    cases h
    cases hr
  | some b =>
    simp only [hname] at h
    split at h
    · split at h
      · split at h
        · cases h
        · cases h
          cases hr
        · rename_i hrun
          cases h
          cases hr
          exact ⟨rfl, run_clusterStep_data hrun⟩
      · cases h
        cases hr
        exact ⟨rfl, rfl⟩
    · cases h
      cases hr
      exact ⟨rfl, rfl⟩

section
variable {env : Env} {fat : Fat12} {outDir image buf : List UInt8} {f : File}

/-- Every call finds the output directory at the start of a buffer of the size allocated, and
the image in the descriptor. -/
theorem Session.kept (h : Session env fat outDir image buf f) :
    buf.take (outDir.length + 1) = outDir ++ [slash] ∧ buf.length = fullLen outDir ∧
      f.data = image := by
  induction h with
  | start hf hlen =>
    refine ⟨?_, ?_, hf⟩
    · rw [List.take_length_add_append]
      rfl
    · rw [List.length_append, List.length_cons, List.length_cons, ← hlen]
      omega
  | @call buf buf' f f' entry n r _ hrun hr ih =>
    obtain ⟨htake, hlen, hf⟩ := ih
    obtain ⟨hname, hf'⟩ := extractSingleFile_leaves hrun hr
    have htext := entryText_length entry
    have hfull : fullLen outDir = outDir.length + 1 + (maxFileName + 1 + maxExtension) + 1 := by
      simp only [fullLen, Nat.add_assoc]
    rw [writeName_eq entry (by omega)] at hname
    split at hname
    · cases hname
    · cases hname
      refine ⟨?_, ?_, hf'.trans hf⟩
      · rw [memcpy_take (by omega), htake]
      · rw [memcpy_length, hlen]
        rw [List.length_append, List.length_singleton]
        omega

theorem Session.openedPath (h : Session env fat outDir image buf f) (entry : DirEntry) :
    openedPath entry buf (outDir.length + 1) =
      if trimmed entry.filename = [] then none
      else some (cString (outDir ++ slash :: entryText entry)) := by
  obtain ⟨htake, hlen, -⟩ := h.kept
  rw [openedPath_eq entry (by rw [hlen]; unfold fullLen; omega), htake, List.append_assoc]
  rfl

end

/-! ## The calls of `extract_files` -/

/-- The world of the loop of `extract_files`: the entries for which `open` was called, with its
path, and what the last call has left. -/
structure Extraction where
  opened : List (DirEntry × List UInt8)
  fullName : List UInt8
  image : File

/-- A call of `extract_single_file` in that loop, with at most `k` iterations of its own. One that
does not return leaves the paths that were opened. -/
def extractCall (env : Env) (fat : Fat12) (outDir : List UInt8) (k : Nat) (entry : DirEntry)
    (w : Extraction) : Except (List (DirEntry × List UInt8)) Extraction :=
  let opened := w.opened ++
    (openedPath entry w.fullName (outDir.length + 1)).toList.map (entry, ·)
  match (extractSingleFile env fat entry w.fullName (outDir.length + 1) w.image k).bind
      Extracted.leaves with
  | none => .error opened
  | some (buf, f) => .ok ⟨opened, buf, f⟩

section
variable {env : Env} {fat : Fat12} {outDir image : List UInt8}

/-- The paths are those of regular entries in use. -/
def PathsOk (fat : Fat12) (outDir : List UInt8) (opened : List (DirEntry × List UInt8)) : Prop :=
  ∀ p ∈ opened, p.1 ∈ fat.rootDirEntries.cells ∧ isRegularEntry p.1 = true ∧
    isEntryFree p.1 = false ∧ trimmed p.1.filename ≠ [] ∧
    p.2 = cString (outDir ++ slash :: entryText p.1)

/-- The next call goes on with a session. -/
structure Extraction.Ok (env : Env) (fat : Fat12) (outDir image : List UInt8) (w : Extraction) :
    Prop where
  opened : PathsOk fat outDir w.opened
  session : Session env fat outDir image w.fullName w.image

theorem Extraction.Ok.pathsOk {w : Extraction} (h : w.Ok env fat outDir image)
    {entry : DirEntry} (hmem : entry ∈ fat.rootDirEntries.cells)
    (hreg : isRegularEntry entry = true) (hfree : isEntryFree entry = false) :
    PathsOk fat outDir (w.opened ++
      (openedPath entry w.fullName (outDir.length + 1)).toList.map (entry, ·)) := by
  intro p hp
  rcases List.mem_append.mp hp with hp | hp
  · exact h.opened p hp
  · rw [h.session.openedPath entry] at hp
    split at hp
    · cases hp
    · rename_i hname
      obtain rfl : p = (entry, cString (outDir ++ slash :: entryText entry)) := by simpa using hp
      exact ⟨hmem, hreg, hfree, hname, rfl⟩

theorem Extraction.Ok.extractCall {w w' : Extraction} (h : w.Ok env fat outDir image) {k : Nat}
    {entry : DirEntry} (hmem : entry ∈ fat.rootDirEntries.cells)
    (hreg : isRegularEntry entry = true) (hfree : isEntryFree entry = false)
    (hcall : extractCall env fat outDir k entry w = .ok w') : w'.Ok env fat outDir image := by
  simp only [MsDos.extractCall] at hcall
  split at hcall
  · cases hcall
  · rename_i hleaves
    cases hcall
    obtain ⟨r, hr, hleaves⟩ := Option.bind_eq_some_iff.mp hleaves
    exact ⟨h.pathsOk hmem hreg hfree, .call h.session hr hleaves⟩

theorem Extraction.Ok.extractCall_error {w : Extraction} (h : w.Ok env fat outDir image) {k : Nat}
    {entry : DirEntry} {opened : List (DirEntry × List UInt8)}
    (hmem : entry ∈ fat.rootDirEntries.cells) (hreg : isRegularEntry entry = true)
    (hfree : isEntryFree entry = false)
    (hcall : MsDos.extractCall env fat outDir k entry w = .error opened) :
    PathsOk fat outDir opened := by
  simp only [MsDos.extractCall] at hcall
  split at hcall
  · cases hcall
    exact h.pathsOk hmem hreg hfree
  · cases hcall

/-- **What `extract_files` opens**: in every state of its loop, and also when a call does not
return, each path handed to `open` so far is the output directory, a `/` and the text of a
regular entry in use, up to the first NUL. -/
theorem extractFiles_opened {w : Extraction} (hw : w.Ok env fat outDir image) {k : Nat}
    {s : Scan Extraction}
    (h : Reach (extractStep fat (extractCall env fat outDir k)) (Scan.start w) s) :
    s.world.Ok env fat outDir image ∧ ∀ opened t,
      extractStep fat (extractCall env fat outDir k) s = .stop (.stuck opened t) →
        PathsOk fat outDir opened := by
  have hok : s.world.Ok env fat outDir image := by
    refine h.invariant (I := fun s => s.world.Ok env fat outDir image) hw fun a b ha hab => ?_
    obtain ⟨entry, hget, hfree, hcall⟩ := scanStep_eq_next hab
    split at hcall
    · rename_i hreg
      exact ha.extractCall (Table.mem_of_get? hget) hreg hfree hcall
    · rw [← Except.ok.inj hcall]
      exact ha
  refine ⟨hok, fun opened t hstuck => ?_⟩
  obtain ⟨entry, hget, hfree, hreg, hcall⟩ := scanStep_eq_stuck hstuck
  exact hok.extractCall_error (Table.mem_of_get? hget) hreg hfree hcall

end

/-! ## Staying inside the output directory -/

/-- One component of a path that names something below the directory it is looked up in. -/
def IsComponent (c : List UInt8) : Prop := c ≠ [] ∧ slash ∉ c ∧ c ≠ [dot] ∧ c ≠ [dot, dot]

/-- The path names a file directly in the directory. -/
def DirectlyIn (outDir path : List UInt8) : Prop := ∃ c, path = outDir ++ slash :: c ∧ IsComponent c

theorem directlyIn_iff {outDir c : List UInt8} :
    DirectlyIn outDir (outDir ++ slash :: c) ↔ IsComponent c := by
  refine ⟨fun ⟨d, hd, hc⟩ => ?_, fun hc => ⟨c, rfl, hc⟩⟩
  obtain rfl : c = d := List.cons_injective (List.append_cancel_left hd)
  exact hc

theorem entryName_ne_nil {entry : DirEntry} (hname : trimmed entry.filename ≠ [])
    (hfree : isEntryFree entry = false) : entryName entry ≠ [] := by
  have h0 : (entry.filename[0] != 0) = true := by simpa [isEntryFree, entryFree] using hfree
  have hhead := trimmed_head? hname
  rw [Vector.getElem?_eq_getElem (by decide)] at hhead
  obtain ⟨l, hl⟩ := List.head?_eq_some_iff.mp hhead
  rw [entryName, entryText, hl, List.cons_append, cString, List.takeWhile_cons, if_pos h0]
  exact List.cons_ne_nil _ _

/-- **The path of an output file**: for an entry in use whose name field is not blank,
`extract_single_file` opens the output directory, a `/` and the name of the entry, whatever was
extracted before; that is a file directly in the output directory exactly when the name has no
`/` in it and is neither `.` nor `..`. -/
theorem openedPath_directlyIn_iff {env : Env} {fat : Fat12} {outDir image buf : List UInt8}
    {f : File} (hdir : 0 ∉ outDir) (hs : Session env fat outDir image buf f) {entry : DirEntry}
    (hfree : isEntryFree entry = false)
    (hname : entry.filename.toList ≠ List.replicate maxFileName space) :
    openedPath entry buf (outDir.length + 1) = some (outDir ++ slash :: entryName entry) ∧
      entryName entry ≠ [] ∧
      (DirectlyIn outDir (outDir ++ slash :: entryName entry) ↔
        slash ∉ entryName entry ∧ entryName entry ≠ [dot] ∧ entryName entry ≠ [dot, dot]) := by
  have htrim : trimmed entry.filename ≠ [] := fun h => hname (trimmed_eq_nil_iff.mp h)
  have hne := entryName_ne_nil htrim hfree
  refine ⟨?_, hne, ?_⟩
  · rw [hs.openedPath entry, if_neg htrim, cString_append hdir]
    rfl
  · rw [directlyIn_iff, IsComponent, and_iff_right hne]

/-! ## A small volume with one name of choice -/

/-- The small volume with the given bytes, and spaces after them, as the name and the extension
of the first entry. -/
def namedImage (name : List UInt8) : List UInt8 :=
  imageOf 8998 fun i => if 774 ≤ i ∧ i < 785 then name.getD (i - 774) space else smallByte i

theorem namedImage_entry (name : List UInt8) :
    ∃ fat f', readFat12 Env.plain (openImage (namedImage name)) = .ok (fat, f') ∧
      ∃ entry ∈ fat.rootDirEntries.cells, isVolumeLabel entry = false ∧
        entry.filename = Vector.ofFn (fun i : Fin 8 => name.getD i space) ∧
        entry.extension = Vector.ofFn (fun i : Fin 3 => name.getD (8 + i) space) := by
  have hg : ∀ i < bootMemberSize,
      (if 774 ≤ i ∧ i < 785 then name.getD (i - 774) space else smallByte i) = smallByte i := by
    intro i hi
    rw [if_neg fun h => absurd (h.1.trans_lt hi) (by decide)]
  obtain ⟨hload, hroot, -⟩ := smallImage_loads (n := 8998) (by omega) hg
  obtain ⟨-, -, -, -, hmax, -⟩ := smallImage_fields Env.plain (n := 8998) (by decide) hg
  refine ⟨_, _, readFat12_eq_ok_iff.mpr ⟨hload, rfl, rfl⟩, _,
    entryOf_mem_cells hroot (by omega) (by omega), ?_, Vector.ext fun i hi => ?_,
    Vector.ext fun i hi => ?_⟩
  · simp only [isVolumeLabel, entryOf, byte, Vector.getElem_ofFn]
    rw [if_neg (by omega)]
    rfl
  · simp only [entryOf, Vector.getElem_ofFn]
    rw [if_pos (by omega), Nat.add_sub_cancel_left]
  · simp only [entryOf, Vector.getElem_ofFn]
    rw [if_pos (by omega), Nat.add_assoc, Nat.add_sub_cancel_left]

theorem sampleName_session (env : Env) (fat : Fat12) (f : File) :
    Session env fat [0x6f] f.data sampleName f := by
  show Session env fat [0x6f] f.data ([0x6f] ++ slash :: 0 :: List.replicate 12 0) f
  exact .start rfl rfl

/-- A file named `AB` stays in the directory `o`. -/
theorem openedPath_directlyIn_sample :
    ∃ fat f' entry, readFat12 Env.plain (openImage (namedImage [0x41, 0x42])) = .ok (fat, f') ∧
      entry ∈ fat.rootDirEntries.cells ∧
      openedPath entry sampleName 2 = some ([0x6f] ++ slash :: entryName entry) ∧
      DirectlyIn [0x6f] ([0x6f] ++ slash :: entryName entry) := by
  obtain ⟨fat, f', hload, entry, hmem, -, hname, hext⟩ := namedImage_entry [0x41, 0x42]
  have hfree : isEntryFree entry = false := by
    rw [isEntryFree, hname]
    decide
  have hblank : entry.filename.toList ≠ List.replicate maxFileName space := by
    rw [hname]
    decide
  obtain ⟨hpath, -, hin⟩ := openedPath_directlyIn_iff (by decide)
    (sampleName_session Env.plain fat f') hfree hblank
  refine ⟨fat, f', entry, hload, hmem, hpath, hin.mpr ?_⟩
  rw [entryName, entryText, hname, hext]
  decide

/-- A file named `../X` is opened outside the directory `o`. -/
theorem openedPath_up :
    ∃ fat f' entry,
      readFat12 Env.plain (openImage (namedImage [0x2e, 0x2e, 0x2f, 0x58])) = .ok (fat, f') ∧
      entry ∈ fat.rootDirEntries.cells ∧ isRegularEntry entry = true ∧
      isEntryFree entry = false ∧
      openedPath entry sampleName 2 = some [0x6f, 0x2f, 0x2e, 0x2e, 0x2f, 0x58] ∧
      ¬ DirectlyIn [0x6f] [0x6f, 0x2f, 0x2e, 0x2e, 0x2f, 0x58] := by
  obtain ⟨fat, f', hload, entry, hmem, hlabel, hname, hext⟩ :=
    namedImage_entry [0x2e, 0x2e, 0x2f, 0x58]
  refine ⟨fat, f', entry, hload, hmem, ?_, ?_, ?_, fun h => ?_⟩
  · rw [isRegularEntry, hlabel, isEntryDeleted, hname]
    decide
  · rw [isEntryFree, hname]
    decide
  · rw [openedPath, writeName, hname, hext]
    decide
  · exact absurd (directlyIn_iff.mp h) (by unfold IsComponent; decide)

end Cs370.MsDos
