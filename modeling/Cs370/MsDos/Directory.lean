import Mathlib.Data.List.TakeWhile
import Cs370.Lib.Loop
import Cs370.MsDos.Truncation

/-!
# The directory loops

`print_file_data` and `extract_files` walk the root directory with two loops of the same
shape: a guard, a look at the entry, the end at a free entry, the body at a regular one. They
differ in the guard: `print_file_data` stops at `max_root_dir_entries`, `extract_files` only
asks whether that number is zero.

A state of either loop records the indices whose entry was looked at and those the body was
run for. Looking at an element that was never stored is a fault; the body itself may not return,
and then the loop is stuck in it.
-/

namespace Cs370.MsDos

open Loop

/-! ## The loops -/

structure Scan (σ : Type) where
  i : Nat
  inspected : List Nat
  chosen : List Nat
  world : σ

def Scan.start {σ : Type} (w : σ) : Scan σ := ⟨0, [], [], w⟩

/-- A loop over the directory ends, looks at an element that is not there, or is left in a call
that does not return. -/
inductive ScanEnd (ε σ : Type) where
  | done (s : Scan σ)
  | fault (s : Scan σ)
  | stuck (e : ε) (s : Scan σ)

/-- The body both loops share. -/
def scanStep {ε σ : Type} (fat : Fat12) (guard : Nat → Bool) (next : Nat → Nat)
    (body : DirEntry → σ → Except ε σ) (s : Scan σ) : Move (Scan σ) (ScanEnd ε σ) :=
  if guard s.i then
    match fat.rootDirEntries.get? s.i with
    | none => .stop (.fault { s with inspected := s.inspected ++ [s.i] })
    | some entry =>
      if isEntryFree entry then .stop (.done { s with inspected := s.inspected ++ [s.i] })
      else if isRegularEntry entry then
        match body entry s.world with
        | .ok w => .next ⟨next s.i, s.inspected ++ [s.i], s.chosen ++ [s.i], w⟩
        | .error e =>
          .stop (.stuck e { s with
            inspected := s.inspected ++ [s.i], chosen := s.chosen ++ [s.i] })
      else .next ⟨next s.i, s.inspected ++ [s.i], s.chosen, s.world⟩
  else .stop (.done s)

/-- What `print_single_file_data` prints. -/
structure FileLine where
  filename : Vector UInt8 8
  extension : Vector UInt8 3
  filesize : UInt32
  month : Nat
  day : Nat
  year : Nat
  hours : Nat
  minutes : Nat
  seconds : Nat
  deriving DecidableEq

/-- `MASK_AND_SHIFT` with a mask of the given low bits. -/
def maskAndShift (word : UInt16) (low bitsToRight : Nat) : Nat :=
  (word.toNat &&& (low <<< bitsToRight)) >>> bitsToRight

def printSingleFileData (entry : DirEntry) : FileLine where
  filename := entry.filename
  extension := entry.extension
  filesize := entry.filesize
  month := maskAndShift entry.date 0xf 5
  day := maskAndShift entry.date 0x1f 0
  year := maskAndShift entry.date 0x3f 9 + 1980
  hours := maskAndShift entry.time 0x1f 11
  minutes := maskAndShift entry.time 0x2f 5
  seconds := maskAndShift entry.time 0x1f 0

/-- The lines printed so far and the running totals. -/
structure Listing where
  lines : List FileLine
  totalFiles : UInt32
  totalSize : UInt32

/-- The body of `print_file_data` for a regular entry. -/
def printEntry (entry : DirEntry) (l : Listing) : Listing where
  lines := l.lines ++ [printSingleFileData entry]
  totalFiles := l.totalFiles + 1
  totalSize := l.totalSize + entry.filesize

/-- At most `n` iterations of `print_file_data`, whose body always returns. -/
def printFileData (fat : Fat12) (n : Nat) : Option (ScanEnd Empty Listing) :=
  run (scanStep fat (fun i => decide (i < fat.boot.maxRootDirEntries.toNat)) (· + 1)
    fun entry l => .ok (printEntry entry l)) n (Scan.start ⟨[], 0, 0⟩)

/-- The size of the buffer `extract_files` builds the names in. -/
def fullLen (outDir : List UInt8) : Nat :=
  outDir.length + 1 + maxFileName + 1 + maxExtension + 1

/-- An iteration of `extract_files`; its counter is a `uint16_t`. -/
def extractStep {ε σ : Type} (fat : Fat12) (extract : DirEntry → σ → Except ε σ) :
    Scan σ → Move (Scan σ) (ScanEnd ε σ) :=
  scanStep fat (fun _ => fat.boot.maxRootDirEntries != 0) (fun i => (i + 1) % 2 ^ 16) extract

/-- Entry `i` is there and regular. -/
def isListed (fat : Fat12) (i : Nat) : Bool :=
  match fat.rootDirEntries.get? i with
  | some entry => isRegularEntry entry
  | none => false

/-- The regular ones of the first `k` entries. -/
def regularBefore (fat : Fat12) (k : Nat) : List DirEntry :=
  (fat.rootDirEntries.cells.take k).filter isRegularEntry

section
variable {ε σ : Type} {fat : Fat12} {guard : Nat → Bool} {next : Nat → Nat}
  {body : DirEntry → σ → Except ε σ}

section
variable {s : Scan σ} {entry : DirEntry}

theorem scanStep_refused (hg : guard s.i = false) :
    scanStep fat guard next body s = .stop (.done s) := by
  rw [scanStep, hg, if_neg Bool.false_ne_true]

theorem scanStep_missing (hg : guard s.i = true) (he : fat.rootDirEntries.get? s.i = none) :
    scanStep fat guard next body s =
      .stop (.fault { s with inspected := s.inspected ++ [s.i] }) := by
  rw [scanStep, if_pos hg, he]

theorem scanStep_free (hg : guard s.i = true) (he : fat.rootDirEntries.get? s.i = some entry)
    (hf : isEntryFree entry = true) :
    scanStep fat guard next body s =
      .stop (.done { s with inspected := s.inspected ++ [s.i] }) := by
  rw [scanStep, if_pos hg, he]
  exact if_pos hf

theorem scanStep_entry (hg : guard s.i = true) (he : fat.rootDirEntries.get? s.i = some entry)
    (hf : isEntryFree entry = false) {w : σ}
    (hw : (if isRegularEntry entry then body entry s.world else .ok s.world) = .ok w) :
    scanStep fat guard next body s =
      .next ⟨next s.i, s.inspected ++ [s.i],
        if isRegularEntry entry then s.chosen ++ [s.i] else s.chosen, w⟩ := by
  rw [scanStep, if_pos hg, he]
  cases hr : isRegularEntry entry with
  | true =>
    rw [hr, if_pos rfl] at hw
    simp [hf, hr, hw]
  | false =>
    rw [hr, if_neg Bool.false_ne_true] at hw
    cases hw
    simp [hf, hr]

theorem scanStep_eq_next {t : Scan σ} (h : scanStep fat guard next body s = .next t) :
    ∃ entry, fat.rootDirEntries.get? s.i = some entry ∧ isEntryFree entry = false ∧
      (if isRegularEntry entry then body entry s.world else .ok s.world) = .ok t.world := by
  unfold scanStep at h
  split at h
  · split at h
    · cases h
    · rename_i entry hget
      refine ⟨entry, hget, ?_⟩
      split at h
      · cases h
      · rename_i hfree
        refine ⟨Bool.eq_false_iff.mpr hfree, ?_⟩
        split at h
        · rename_i hreg
          split at h
          · rename_i w hw
            cases h
            rw [if_pos hreg, hw]
          · cases h
        · rename_i hreg
          cases h
          rw [if_neg hreg]
  · cases h

theorem scanStep_eq_stuck {t : Scan σ} {e : ε}
    (h : scanStep fat guard next body s = .stop (.stuck e t)) :
    ∃ entry, fat.rootDirEntries.get? s.i = some entry ∧ isEntryFree entry = false ∧
      isRegularEntry entry = true ∧ body entry s.world = .error e := by
  unfold scanStep at h
  split at h
  · split at h
    · cases h
    · rename_i entry hget
      refine ⟨entry, hget, ?_⟩
      split at h
      · cases h
      · rename_i hfree
        refine ⟨Bool.eq_false_iff.mpr hfree, ?_⟩
        split at h
        · rename_i hreg
          split at h
          · cases h
          · rename_i e' he
            cases h
            exact ⟨hreg, he⟩
        · cases h
  · cases h

end

/-- The state at the start of iteration `k`, apart from what the body did. -/
def Scan.At (fat : Fat12) (s : Scan σ) (k : Nat) : Prop :=
  s.i = k ∧ s.inspected = List.range k ∧ s.chosen = (List.range k).filter (isListed fat)

theorem scanStep_next {s : Scan σ} {k : Nat} {entry : DirEntry} {w : σ} (hs : s.At fat k)
    (hg : guard k = true) (hn : next k = k + 1)
    (he : fat.rootDirEntries.get? k = some entry) (hf : isEntryFree entry = false)
    (hw : (if isRegularEntry entry then body entry s.world else .ok s.world) = .ok w) :
    ∃ t, scanStep fat guard next body s = .next t ∧ t.At fat (k + 1) ∧ t.world = w := by
  obtain ⟨rfl, hins, hcho⟩ := hs
  have hl : isListed fat s.i = isRegularEntry entry := by simp [isListed, he]
  refine ⟨_, scanStep_entry hg he hf hw, ⟨hn, by rw [hins, List.range_succ], ?_⟩, rfl⟩
  rw [List.range_succ, List.filter_append, hcho, List.filter_singleton, hl]
  cases isRegularEntry entry with
  | true => rfl
  | false => exact (List.append_nil _).symm

theorem regularBefore_succ {k : Nat} {entry : DirEntry}
    (he : fat.rootDirEntries.get? k = some entry) :
    regularBefore fat (k + 1) =
      regularBefore fat k ++ if isRegularEntry entry then [entry] else [] := by
  rw [regularBefore, List.take_add_one, Table.getElem?_of_get? he, List.filter_append,
    Option.toList_some, List.filter_singleton, cond_eq_ite]
  rfl

section
variable {w w' : σ} {k : Nat}
  (h : ∀ j < k, guard j = true ∧ next j = j + 1 ∧
    ∃ e, fat.rootDirEntries.get? j = some e ∧ isEntryFree e = false)
  (hw : (regularBefore fat k).foldlM (fun w e => body e w) w = .ok w')
include h hw

theorem scan_runs :
    ∃ t : Scan σ, t.At fat k ∧ t.world = w' ∧ ∀ m, run (scanStep fat guard next body) (k + m)
      (Scan.start w) = run (scanStep fat guard next body) m t := by
  induction k generalizing w' with
  | zero =>
    cases hw
    exact ⟨Scan.start w, ⟨rfl, rfl, rfl⟩, rfl, fun m => by rw [Nat.zero_add]⟩
  | succ k ih =>
    obtain ⟨hg, hn, e, he, hf⟩ := h k (by omega)
    rw [regularBefore_succ he, List.foldlM_append] at hw
    cases hv : (regularBefore fat k).foldlM (fun w e => body e w) w with
    | error x =>
      rw [hv] at hw
      cases hw
    | ok v =>
      obtain ⟨s, hs, rfl, hrun⟩ := ih (fun j hj => h j (by omega)) hv
      rw [hv] at hw
      have hcall : (if isRegularEntry e then body e s.world else .ok s.world) = .ok w' := by
        rw [← hw]
        cases hr : isRegularEntry e with
        | true => exact (bind_pure (body e s.world)).symm
        | false => rfl
      obtain ⟨t, hstep, ht, hworld⟩ := scanStep_next hs hg hn he hf hcall
      refine ⟨t, ht, hworld, fun m => ?_⟩
      rw [Nat.add_assoc, Nat.add_comm 1 m, hrun, run_next hstep]

theorem scan_stops_guard (hg : guard k = false) :
    ∃ s, run (scanStep fat guard next body) (k + 1) (Scan.start w) = some (.done s) ∧
      s.chosen = (List.range k).filter (isListed fat) ∧ s.inspected = List.range k ∧
      s.world = w' := by
  obtain ⟨t, ⟨hi, hins, hcho⟩, hworld, hrun⟩ := scan_runs h hw
  exact ⟨t, (hrun 1).trans (run_stop (scanStep_refused (by rw [hi, hg]))), hcho, hins, hworld⟩

theorem scan_stops_free (hg : guard k = true) {e : DirEntry}
    (he : fat.rootDirEntries.get? k = some e) (hf : isEntryFree e = true) :
    ∃ s, run (scanStep fat guard next body) (k + 1) (Scan.start w) = some (.done s) ∧
      s.chosen = (List.range k).filter (isListed fat) ∧ s.inspected = List.range (k + 1) ∧
      s.world = w' := by
  obtain ⟨t, ⟨hi, hins, hcho⟩, hworld, hrun⟩ := scan_runs h hw
  refine ⟨_, (hrun 1).trans (run_stop (scanStep_free (by rw [hi, hg]) (by rw [hi, he]) hf)), hcho,
    ?_, hworld⟩
  simp only
  rw [hins, hi, List.range_succ]

end

end

/-! ## The directory `read_root_directory` stores -/

/-- What the directory loop stored: entries that are not free, and then a free one or the end
of the table. -/
theorem dirCells_shape (env : Env) (i n : Nat) (f : File) :
    (∃ l e, dirCells env i n f = l ++ [e] ∧ (∀ x ∈ l, isEntryFree x = false) ∧
      isEntryFree e = true) ∨
    ((∀ x ∈ dirCells env i n f, isEntryFree x = false) ∧ (dirCells env i n f).length = n) := by
  induction n generalizing i f with
  | zero => exact .inr ⟨by simp [dirCells], rfl⟩
  | succ n ih =>
    cases he : isEntryFree (entryAt env i f) with
    | true => exact .inl ⟨[], entryAt env i f, by simp [dirCells, he], by simp, he⟩
    | false =>
      have hcons : dirCells env i (n + 1) f =
          entryAt env i f :: dirCells env (i + 1) n (f.afterAll (entryReads i)) := by
        simp [dirCells, he]
      rw [hcons]
      rcases ih (i + 1) (f.afterAll (entryReads i)) with ⟨l, e, hl, hn, hf⟩ | ⟨hn, hlen⟩
      · exact .inl ⟨entryAt env i f :: l, e, by rw [hl]; rfl, List.forall_mem_cons.mpr ⟨he, hn⟩, hf⟩
      · exact .inr ⟨List.forall_mem_cons.mpr ⟨he, hn⟩, by rw [List.length_cons, hlen]⟩

/-- Where the loops should end: the first free entry, or the end of what is stored. -/
def dirEnd (fat : Fat12) : Nat :=
  (fat.rootDirEntries.cells.takeWhile fun e => !isEntryFree e).length

section
variable {env : Env} {image : List UInt8} {fat : Fat12} {f' : File}
  (h : readFat12 env (openImage image) = .ok (fat, f'))
include h

theorem readFat12_rootDirEntries :
    fat.rootDirEntries.size = fat.boot.maxRootDirEntries.toNat ∧
      fat.rootDirEntries.cells =
        dirCells env 0 fat.boot.maxRootDirEntries.toNat (rootStart env (openImage image)) := by
  obtain ⟨-, rfl, -⟩ := readFat12_eq_ok_iff.mp h
  exact ⟨rfl, rfl⟩

theorem readFat12_get {j : Nat} (hj : j < fat.rootDirEntries.cells.length) :
    fat.rootDirEntries.get? j = fat.rootDirEntries.cells[j]? := by
  obtain ⟨hsize, hcells⟩ := readFat12_rootDirEntries h
  have hle := dirCells_length_le env 0 fat.boot.maxRootDirEntries.toNat
    (rootStart env (openImage image))
  rw [← hcells, ← hsize] at hle
  exact Table.get?_natCast (by omega)

theorem readFat12_cells :
    ∃ l, (∀ x ∈ l, isEntryFree x = false) ∧ dirEnd fat = l.length ∧
      ((fat.rootDirEntries.cells = l ∧ l.length = fat.boot.maxRootDirEntries.toNat) ∨
        ∃ e, fat.rootDirEntries.cells = l ++ [e] ∧ isEntryFree e = true ∧
          l.length < fat.boot.maxRootDirEntries.toNat) := by
  obtain ⟨-, hcells⟩ := readFat12_rootDirEntries h
  have hle := dirCells_length_le env 0 fat.boot.maxRootDirEntries.toNat
    (rootStart env (openImage image))
  rcases dirCells_shape env 0 fat.boot.maxRootDirEntries.toNat
      (rootStart env (openImage image)) with
    ⟨l, e, hl, hn, hf⟩ | ⟨hn, hlen⟩
  · rw [hl, List.length_append, List.length_singleton] at hle
    refine ⟨l, hn, ?_, .inr ⟨e, hcells.trans hl, hf, hle⟩⟩
    rw [dirEnd, hcells, hl, List.takeWhile_append_of_pos (by simpa using hn)]
    simp [hf]
  · rw [← hcells] at hn hlen
    refine ⟨_, hn, ?_, .inl ⟨rfl, hlen⟩⟩
    rw [dirEnd, List.takeWhile_eq_self_iff.mpr (by simpa using hn)]

theorem readFat12_before_dirEnd {j : Nat} (hj : j < dirEnd fat) :
    j < fat.boot.maxRootDirEntries.toNat ∧
      ∃ e, fat.rootDirEntries.get? j = some e ∧ isEntryFree e = false := by
  obtain ⟨l, hn, hend, hcells⟩ := readFat12_cells h
  rw [hend] at hj
  have hget : fat.rootDirEntries.cells[j]? = some l[j] := by
    rcases hcells with ⟨hcells, -⟩ | ⟨e, hcells, -⟩
    · rw [hcells, List.getElem?_eq_getElem hj]
    · rw [hcells, List.getElem?_append_left hj, List.getElem?_eq_getElem hj]
  refine ⟨?_, l[j], ?_, hn _ (List.getElem_mem hj)⟩
  · rcases hcells with ⟨-, hlen⟩ | ⟨e, -, -, hlt⟩ <;> omega
  · rw [readFat12_get h (List.getElem?_eq_some_iff.mp hget).1, hget]

theorem readFat12_at_dirEnd :
    (dirEnd fat < fat.boot.maxRootDirEntries.toNat ∧
      ∃ e ∈ fat.rootDirEntries.cells, fat.rootDirEntries.get? (dirEnd fat) = some e ∧
        isEntryFree e = true) ∨
    (dirEnd fat = fat.boot.maxRootDirEntries.toNat ∧
      fat.rootDirEntries.get? (dirEnd fat) = none ∧
      ∀ e ∈ fat.rootDirEntries.cells, isEntryFree e = false) := by
  obtain ⟨l, hn, hend, ⟨hcells, hlen⟩ | ⟨e, hcells, hf, hlt⟩⟩ := readFat12_cells h
  · refine .inr ⟨hend.trans hlen, ?_, hcells ▸ hn⟩
    rw [Table.get?, if_neg]
    rw [(readFat12_rootDirEntries h).1, hend, hlen]
    omega
  · refine .inl ⟨hend ▸ hlt, e, by rw [hcells]; simp, ?_, hf⟩
    rw [readFat12_get h (by rw [hend, hcells]; simp), hend, hcells]
    simp

theorem printFileData_run :
    ∃ s, printFileData fat (dirEnd fat + 1) = some (.done s) ∧
      s.chosen = (List.range (dirEnd fat)).filter (isListed fat) ∧
      ∀ i ∈ s.inspected, i < fat.boot.maxRootDirEntries.toNat := by
  have hbefore : ∀ j < dirEnd fat, decide (j < fat.boot.maxRootDirEntries.toNat) = true ∧
      j + 1 = j + 1 ∧ ∃ e, fat.rootDirEntries.get? j = some e ∧ isEntryFree e = false := by
    intro j hj
    obtain ⟨hlt, he⟩ := readFat12_before_dirEnd h hj
    exact ⟨decide_eq_true hlt, rfl, he⟩
  have hw : (regularBefore fat (dirEnd fat)).foldlM
      (fun l e => (.ok (printEntry e l) : Except Empty Listing)) ⟨[], 0, 0⟩ = .ok _ :=
    List.foldlM_pure
  rcases readFat12_at_dirEnd h with ⟨hlt, e, -, he, hf⟩ | ⟨heq, -, -⟩
  · obtain ⟨s, hs, hcho, hins, -⟩ := scan_stops_free hbefore hw (decide_eq_true hlt) he hf
    refine ⟨s, hs, hcho, fun i hi => ?_⟩
    rw [hins, List.mem_range] at hi
    omega
  · obtain ⟨s, hs, hcho, hins, -⟩ := scan_stops_guard hbefore hw (decide_eq_false (by omega))
    refine ⟨s, hs, hcho, fun i hi => ?_⟩
    rw [hins, List.mem_range] at hi
    omega

section
variable {ε σ : Type} {env' : Env} {outDir : List UInt8} {extract : DirEntry → σ → Except ε σ}
  {w w' : σ} (hm : env'.malloc (fullLen outDir) = true)
  (hw : (regularBefore fat (dirEnd fat)).foldlM (fun w e => extract e w) w = .ok w')
include hm hw

end

end

end Cs370.MsDos
