import Cs370.MsDos.Extract
import Cs370.MsDos.Truncation

/-!
# The volume label

`read_root_directory` keeps a pointer to the last entry it meets whose label bit is set, and
`print_volume_data` prints what it points to. Nothing else sets the pointer and nothing checks it:
a directory without such an entry leaves it unset, and the bit is the only thing asked of an
entry, so that it may be deleted, a record of a long file name, or not in the image at all.
`readFat12_showsLabel_iff` says for which directories the label is a real one.
-/

namespace Cs370.MsDos

def attrLongName : UInt8 := 0x0f

/-- The line `print_volume_data` prints; `none` is the use of an unset pointer. -/
def printVolumeData (fat : Fat12) : Option (List UInt8) := do
  let i ← fat.volumeLabel
  let entry ← fat.rootDirEntries.get? i
  return "Volume name is ".toList.map (fun c => UInt8.ofNat c.toNat) ++
    cString entry.filename.toList ++ cString entry.extension.toList ++ [0x0a]

/-- The entry was read from the image: each of its fields by a call that found all its bytes. -/
def ReadFromImage (f : File) (i : Nat) : Prop :=
  ∀ p ∈ entryReads i, ∃ c ∈ f.reads, c.dst = p.1 ∧ c.off + p.2 ≤ f.data.length

/-- The label that is printed is that of the volume. -/
def ShowsLabel (fat : Fat12) (f : File) : Prop :=
  ∃ i e, fat.volumeLabel = some i ∧ fat.rootDirEntries.get? i = some e ∧ ReadFromImage f i ∧
    isVolumeLabel e = true ∧ isEntryDeleted e = false ∧ e.attributes ≠ attrLongName

/-! ## The last label of a directory -/

/-- What the loop asks of an entry before it moves the pointer. -/
def movesLabel (e : DirEntry) : Bool := !isEntryFree e && isVolumeLabel e

/-- Entry `j` is the last one that moves the pointer. -/
def LastLabel (es : List DirEntry) (j : Nat) : Prop :=
  ∃ e, es[j]? = some e ∧ movesLabel e = true ∧
    ∀ j' e', j < j' → es[j']? = some e' → movesLabel e' = false

theorem lastLabel_cons_zero {e : DirEntry} {es : List DirEntry} :
    LastLabel (e :: es) 0 ↔ movesLabel e = true ∧ ∀ e' ∈ es, movesLabel e' = false := by
  constructor
  · rintro ⟨_, hget, hmove, hlast⟩
    cases hget
    refine ⟨hmove, fun e' he' => ?_⟩
    obtain ⟨j, hj⟩ := List.mem_iff_getElem?.mp he'
    exact hlast (j + 1) e' (Nat.succ_pos j) hj
  · rintro ⟨hmove, hlast⟩
    refine ⟨e, rfl, hmove, fun j e' hj hget => ?_⟩
    obtain ⟨j, rfl⟩ := Nat.exists_eq_add_one.mpr hj
    exact hlast e' (List.mem_of_getElem? hget)

theorem lastLabel_cons_succ {e : DirEntry} {es : List DirEntry} {j : Nat} :
    LastLabel (e :: es) (j + 1) ↔ LastLabel es j := by
  refine exists_congr fun e' => and_congr Iff.rfl (and_congr_right fun _ => ⟨?_, ?_⟩)
  · intro hlast k e'' hk hget
    exact hlast (k + 1) e'' (Nat.succ_lt_succ hk) hget
  · intro hlast k e'' hk hget
    obtain ⟨k, rfl⟩ := Nat.exists_eq_add_one.mpr (Nat.zero_lt_of_lt hk)
    exact hlast k e'' (Nat.lt_of_succ_lt_succ hk) hget

/-- The pointer is at the last entry that moves it, or where it was. -/
theorem dirLabel_eq_some_iff {i k : Nat} {es : List DirEntry} {label : Option Nat} :
    dirLabel i es label = some k ↔
      (∃ j, k = i + j ∧ LastLabel es j) ∨
        (∀ e ∈ es, movesLabel e = false) ∧ label = some k := by
  induction es generalizing i label with
  | nil => simp [dirLabel, LastLabel]
  | cons e es ih =>
    have hsplit : (∃ j, k = i + j ∧ LastLabel (e :: es) j) ↔
        (k = i ∧ movesLabel e = true ∧ ∀ e' ∈ es, movesLabel e' = false) ∨
          ∃ j, k = i + 1 + j ∧ LastLabel es j := by
      rw [← Nat.or_exists_add_one, lastLabel_cons_zero]
      simp only [lastLabel_cons_succ, Nat.add_zero, Nat.add_assoc, Nat.add_comm 1]
    rw [dirLabel, ih, ← movesLabel, hsplit, List.forall_mem_cons]
    cases hmove : movesLabel e with
    | true =>
      simp only [if_true, Option.some.injEq, true_and, Bool.true_eq_false, false_and, or_false]
      rw [or_comm, and_comm, eq_comm (a := k)]
    | false => simp

theorem dirLabel_eq_none_iff {i : Nat} {es : List DirEntry} {label : Option Nat} :
    dirLabel i es label = none ↔ label = none ∧ ∀ e ∈ es, movesLabel e = false := by
  induction es generalizing i label with
  | nil => simp [dirLabel]
  | cons e es ih =>
    rw [dirLabel, ih, ← movesLabel, List.forall_mem_cons]
    cases hmove : movesLabel e with
    | true => simp
    | false => simp

/-! ## The records of the image -/

section
variable (env : Env) (image : List UInt8)

/-- The first byte of record `i` of the root directory; past the end of the image it is what
the memory holds. -/
def recordFirst (i : Nat) : UInt8 :=
  (image[(rootStart env (openImage image)).off + dirEntryMemberSize * i]?).getD
    (env.mem (.dirEntry i .filename) 0)

def recordAttributes (i : Nat) : UInt8 :=
  (image[(rootStart env (openImage image)).off + dirEntryMemberSize * i + 11]?).getD
    (env.mem (.dirEntry i .attributes) 0)

/-- Record `i` is a label in the part of the directory before its first free record. -/
def IsLabelRecord (i : Nat) : Prop :=
  i < (bootAt env (openImage image)).maxRootDirEntries.toNat ∧
    (∀ j ≤ i, recordFirst env image j ≠ entryFree) ∧
    recordAttributes env image i &&& attrVolumeLabel ≠ 0

def recordEntry (i : Nat) : DirEntry :=
  entryAt env i ((rootStart env (openImage image)).afterAll (dirReads 0 i))

theorem recordBytes (i k pos n : Nat) (fld : DirField)
    (hpos : (((entryReads i).take k).map (·.2)).sum = pos) :
    entryBytes env ((rootStart env (openImage image)).afterAll (dirReads 0 i)) i k fld n =
      Vector.ofFn fun j => (image[(rootStart env (openImage image)).off +
        (dirEntryMemberSize * i + pos) + j]?).getD (env.mem (.dirEntry i fld) j) := by
  rw [entryBytes, ← File.afterAll_append, File.fill_afterAll, rootStart_data, List.map_append,
    List.sum_append, dirReads_sum, hpos]

theorem recordEntry_isFree (i : Nat) :
    isEntryFree (recordEntry env image i) = (recordFirst env image i == entryFree) := by
  rw [isEntryFree, recordEntry, entryAt, recordBytes env image i 0 0 8 .filename rfl]
  simp only [Vector.getElem_ofFn, recordFirst, Nat.add_zero]

theorem recordEntry_isDeleted (i : Nat) :
    isEntryDeleted (recordEntry env image i) = (recordFirst env image i == fileDeleted) := by
  rw [isEntryDeleted, recordEntry, entryAt, recordBytes env image i 0 0 8 .filename rfl]
  simp only [Vector.getElem_ofFn, recordFirst, Nat.add_zero]

theorem recordEntry_attributes (i : Nat) :
    (recordEntry env image i).attributes = recordAttributes env image i := by
  rw [recordEntry, entryAt, recordBytes env image i 2 11 1 .attributes rfl]
  simp only [byte, Vector.getElem_ofFn, recordAttributes, Nat.add_zero, Nat.add_assoc]

end

section
variable {env : Env} {image : List UInt8}

theorem rootCells_getElem?_iff {i : Nat} {e : DirEntry} :
    (rootCells env (openImage image))[i]? = some e ↔
      i < (bootAt env (openImage image)).maxRootDirEntries.toNat ∧
        (∀ j < i, recordFirst env image j ≠ entryFree) ∧ e = recordEntry env image i := by
  have hfree (j : Nat) :
      isEntryFree (entryAt env j ((rootStart env (openImage image)).afterAll (dirReads 0 j))) =
        (recordFirst env image j == entryFree) := recordEntry_isFree env image j
  rw [rootCells, dirCells_getElem?_iff]
  simp only [hfree, beq_eq_false_iff_ne]
  rfl

theorem movesLabel_recordEntry {i : Nat} :
    movesLabel (recordEntry env image i) = true ↔
      recordFirst env image i ≠ entryFree ∧
        recordAttributes env image i &&& attrVolumeLabel ≠ 0 := by
  simp only [movesLabel, recordEntry_isFree, isVolumeLabel, recordEntry_attributes,
    Bool.and_eq_true, Bool.not_eq_true', beq_eq_false_iff_ne, bne_iff_ne]

theorem isLabelRecord_iff {i : Nat} :
    IsLabelRecord env image i ↔
      ∃ e, (rootCells env (openImage image))[i]? = some e ∧ movesLabel e = true := by
  constructor
  · rintro ⟨hi, hfirst, hattr⟩
    exact ⟨_, rootCells_getElem?_iff.mpr ⟨hi, fun j hj => hfirst j (Nat.le_of_lt hj), rfl⟩,
      movesLabel_recordEntry.mpr ⟨hfirst i (Nat.le_refl i), hattr⟩⟩
  · rintro ⟨e, hget, hmove⟩
    obtain ⟨hi, hbefore, rfl⟩ := rootCells_getElem?_iff.mp hget
    obtain ⟨hfirst, hattr⟩ := movesLabel_recordEntry.mp hmove
    refine ⟨hi, fun j hj => ?_, hattr⟩
    rcases Nat.lt_or_eq_of_le hj with hlt | rfl
    · exact hbefore j hlt
    · exact hfirst

theorem volumeLabel_eq_some_iff {i : Nat} :
    (volumeAt env (openImage image)).volumeLabel = some i ↔
      IsLabelRecord env image i ∧ ∀ j, i < j → ¬ IsLabelRecord env image j := by
  rw [volumeAt, dirLabel_eq_some_iff]
  simp only [isLabelRecord_iff, Nat.zero_add]
  constructor
  · rintro (⟨j, rfl, e, hget, hmove, hlast⟩ | ⟨-, h⟩)
    · refine ⟨⟨e, hget, hmove⟩, fun k hk ⟨e', hget', hmove'⟩ => ?_⟩
      rw [hlast k e' hk hget'] at hmove'
      cases hmove'
    · cases h
  · rintro ⟨⟨e, hget, hmove⟩, hlast⟩
    refine .inl ⟨i, rfl, e, hget, hmove, fun j e' hj hget' => ?_⟩
    exact Bool.eq_false_iff.mpr fun hmove' => hlast j hj ⟨e', hget', hmove'⟩

theorem IsLabelRecord.get? {i : Nat} (hi : IsLabelRecord env image i) :
    (volumeAt env (openImage image)).rootDirEntries.get? i = some (recordEntry env image i) ∧
      i < (rootCells env (openImage image)).length ∧
      isVolumeLabel (recordEntry env image i) = true := by
  obtain ⟨e, hget, hmove⟩ := isLabelRecord_iff.mp hi
  obtain ⟨-, -, rfl⟩ := rootCells_getElem?_iff.mp hget
  exact ⟨(Table.get?_natCast hi.1).trans hget, (List.getElem?_eq_some_iff.mp hget).1,
    (Bool.and_eq_true_iff.mp hmove).2⟩

theorem printVolumeData_eq_none_iff :
    printVolumeData (volumeAt env (openImage image)) = none ↔
      ∀ i, ¬ IsLabelRecord env image i := by
  constructor
  · intro h i hi
    cases hlabel : (volumeAt env (openImage image)).volumeLabel with
    | none =>
      obtain ⟨e, hget, hmove⟩ := isLabelRecord_iff.mp hi
      have hnone := (dirLabel_eq_none_iff.mp hlabel).2 e (List.mem_of_getElem? hget)
      rw [hmove] at hnone
      cases hnone
    | some k =>
      obtain ⟨hk, -⟩ := volumeLabel_eq_some_iff.mp hlabel
      simp [printVolumeData, hlabel, hk.get?.1] at h
  · intro h
    have hlabel : (volumeAt env (openImage image)).volumeLabel = none := by
      refine dirLabel_eq_none_iff.mpr ⟨rfl, fun e he => Bool.eq_false_iff.mpr fun hmove => ?_⟩
      obtain ⟨i, hget⟩ := List.mem_iff_getElem?.mp he
      exact h i (isLabelRecord_iff.mpr ⟨e, hget, hmove⟩)
    rw [printVolumeData, hlabel]
    rfl

/-- **When the volume label is a real one**: the last record with the label bit before the first
free one exists, lies in the image, is not deleted and is not part of a long file name. -/
theorem readFat12_showsLabel_iff {fat : Fat12} {f' : File}
    (h : readFat12 env (openImage image) = .ok (fat, f')) :
    ShowsLabel fat f' ↔
      ∃ i, IsLabelRecord env image i ∧ (∀ j, i < j → ¬ IsLabelRecord env image j) ∧
        (rootStart env (openImage image)).off + dirEntryMemberSize * (i + 1) ≤ image.length ∧
        recordFirst env image i ≠ fileDeleted ∧ recordAttributes env image i ≠ attrLongName := by
  obtain ⟨-, rfl, rfl⟩ := readFat12_eq_ok_iff.mp h
  have hread {i : Nat} (hi : IsLabelRecord env image i) :
      ReadFromImage (rootEnd env (openImage image)) i ↔
        (rootStart env (openImage image)).off + dirEntryMemberSize * (i + 1) ≤ image.length := by
    rw [← dirEntry_entire_iff hi.get?.2.1, ReadFromImage, rootEnd_data]
  constructor
  · rintro ⟨i, e, hlabel, hget, hfrom, -, hdel, hlong⟩
    obtain ⟨hi, hlast⟩ := volumeLabel_eq_some_iff.mp hlabel
    rw [hi.get?.1] at hget
    cases hget
    rw [recordEntry_isDeleted, beq_eq_false_iff_ne] at hdel
    rw [recordEntry_attributes] at hlong
    exact ⟨i, hi, hlast, (hread hi).mp hfrom, hdel, hlong⟩
  · rintro ⟨i, hi, hlast, hfit, hdel, hlong⟩
    obtain ⟨hget, -, hbit⟩ := hi.get?
    refine ⟨i, _, volumeLabel_eq_some_iff.mpr ⟨hi, hlast⟩, hget, (hread hi).mpr hfit, hbit, ?_, ?_⟩
    · rw [recordEntry_isDeleted, beq_eq_false_iff_ne]
      exact hdel
    · rw [recordEntry_attributes]
      exact hlong

end

/-! ## Two small volumes -/

section
variable {g : Nat → UInt8} (hg : ∀ i < bootMemberSize, g i = smallByte i)
include hg

theorem smallImage_recordFirst {i : Nat} (hi : i < 257) :
    recordFirst Env.plain (imageOf 8998 g) i = g (774 + 32 * i) := by
  obtain ⟨-, hoff, -⟩ := smallImage_loads (n := 8998) (by omega) hg
  have hm : dirEntryMemberSize = 32 := rfl
  rw [recordFirst, hoff, hm]
  simp [imageOf, show 774 + 32 * i < 8998 by omega]

theorem smallImage_recordAttributes {i : Nat} (hi : i < 257) :
    recordAttributes Env.plain (imageOf 8998 g) i = g (785 + 32 * i) := by
  obtain ⟨-, hoff, -⟩ := smallImage_loads (n := 8998) (by omega) hg
  have hm : dirEntryMemberSize = 32 := rfl
  have hpos : 774 + 32 * i + 11 = 785 + 32 * i := by omega
  rw [recordAttributes, hoff, hm, hpos]
  simp [imageOf, show 785 + 32 * i < 8998 by omega]

end

/-- A label as the first entry, and a free one behind it. -/
def labelByte (i : Nat) : UInt8 := if i = 785 then 8 else if i = 806 then 0 else smallByte i

theorem readFat12_showsLabel_small :
    ∃ fat f', readFat12 Env.plain (openImage (imageOf 8998 labelByte)) = .ok (fat, f') ∧
      ShowsLabel fat f' := by
  have hg : ∀ i < bootMemberSize, labelByte i = smallByte i := by
    intro i hi
    have hm : bootMemberSize = 512 := rfl
    rw [labelByte, if_neg (by omega), if_neg (by omega)]
  obtain ⟨hloads, hoff, -⟩ := smallImage_loads (n := 8998) (by omega) hg
  obtain ⟨-, -, -, -, hmax, -⟩ := smallImage_fields Env.plain (n := 8998) (by decide) hg
  have hload := readFat12_eq_ok_iff.mpr ⟨hloads, rfl, rfl⟩
  have hfirst := smallImage_recordFirst hg (i := 0) (by omega)
  have hattr := smallImage_recordAttributes hg (i := 0) (by omega)
  have hfree := smallImage_recordFirst hg (i := 1) (by omega)
  refine ⟨_, _, hload, (readFat12_showsLabel_iff hload).mpr ⟨0, ⟨by omega, ?_, ?_⟩, ?_, ?_, ?_, ?_⟩⟩
  · intro j hj
    rw [Nat.le_zero.mp hj, hfirst]
    decide
  · rw [hattr]
    decide
  · intro j hj h
    exact h.2.1 1 hj hfree
  · rw [hoff, imageOf_length]
    decide
  · rw [hfirst]
    decide
  · rw [hattr]
    decide

/-- No entry of the small volume has the label bit, and the pointer is used unset. -/
theorem readFat12_no_label :
    ∃ fat f', readFat12 Env.plain (openImage (imageOf 8998 smallByte)) = .ok (fat, f') ∧
      fat.volumeLabel = none ∧ printVolumeData fat = none ∧ ¬ ShowsLabel fat f' := by
  have hg : ∀ i < bootMemberSize, smallByte i = smallByte i := fun _ _ => rfl
  obtain ⟨hloads, -⟩ := smallImage_loads (n := 8998) (by omega) hg
  obtain ⟨-, -, -, -, hmax, -⟩ := smallImage_fields Env.plain (n := 8998) (by decide) hg
  have hnone (i : Nat) : ¬ IsLabelRecord Env.plain (imageOf 8998 smallByte) i := by
    rintro ⟨hi, -, hattr⟩
    rw [smallImage_recordAttributes hg (by omega), smallByte, if_neg (by omega),
      if_neg (by omega)] at hattr
    exact hattr rfl
  have hlabel : (volumeAt Env.plain (openImage (imageOf 8998 smallByte))).volumeLabel = none := by
    refine Option.eq_none_iff_forall_ne_some.mpr fun i hi => ?_
    exact hnone i (volumeLabel_eq_some_iff.mp hi).1
  refine ⟨_, _, readFat12_eq_ok_iff.mpr ⟨hloads, rfl, rfl⟩, hlabel,
    printVolumeData_eq_none_iff.mpr hnone, fun ⟨i, e, hi, _⟩ => ?_⟩
  rw [hlabel] at hi
  cases hi

end Cs370.MsDos
