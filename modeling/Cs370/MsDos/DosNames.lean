import Cs370.MsDos.Names

/-!
# 8.3 names

Both fields of a name are filled up with spaces. `extract_single_file` takes them off the name
field; of the extension field it only asks whether it is blank. `openedPath_dosName_iff` says for
which entries the file gets its 8.3 name (`dosName`).

The name that is written does tell the entries apart: the fields can be read back from it
(`entryText_injective`), so two files are never opened under one path (`openedPath_ne`).
-/

namespace Cs370.MsDos

/-! ## Fields filled up with spaces -/

theorem rdropWhile_space_eq_self_iff {l : List UInt8} :
    l.rdropWhile (· == space) = l ↔ l.getLast? ≠ some space := by
  rw [List.rdropWhile_eq_self_iff]
  constructor
  · intro h hlast
    have hl : l ≠ [] := by
      rintro rfl
      cases hlast
    rw [List.getLast?_eq_some_getLast hl] at hlast
    exact h hl (beq_iff_eq.mpr (Option.some.inj hlast))
  · intro h hl hlast
    exact h (by rw [List.getLast?_eq_some_getLast hl, beq_iff_eq.mp hlast])

theorem rtakeWhile_space_eq (l : List UInt8) :
    l.rtakeWhile (· == space) =
      List.replicate (l.length - (l.rdropWhile (· == space)).length) space := by
  refine List.eq_replicate_iff.mpr ⟨?_, fun x hx => ?_⟩
  · have hlen : (l.rdropWhile (· == space) ++ l.rtakeWhile (· == space)).length = l.length :=
      congrArg List.length List.rdropWhile_append_rtakeWhile
    rw [List.length_append] at hlen
    omega
  · have hspace := List.mem_rtakeWhile_imp hx
    exact beq_iff_eq.mp hspace

theorem eq_of_rdropWhile_space_eq {l l' : List UInt8} (hlen : l.length = l'.length)
    (h : l.rdropWhile (· == space) = l'.rdropWhile (· == space)) : l = l' := by
  calc l = l.rdropWhile (· == space) ++ l.rtakeWhile (· == space) :=
        List.rdropWhile_append_rtakeWhile.symm
    _ = l'.rdropWhile (· == space) ++ l'.rtakeWhile (· == space) := by
        rw [rtakeWhile_space_eq, rtakeWhile_space_eq, h, hlen]
    _ = l' := List.rdropWhile_append_rtakeWhile

theorem trimmed_injective {v v' : Vector UInt8 8} (h : trimmed v = trimmed v') : v = v' := by
  have hlist : v.toList = v'.toList :=
    eq_of_rdropWhile_space_eq (by rw [Vector.length_toList, Vector.length_toList]) h
  exact Vector.toList_inj.mp hlist

theorem mem_of_mem_trimmed {v : Vector UInt8 8} {x : UInt8} (h : x ∈ trimmed v) : x ∈ v.toList :=
  (List.rdropWhile_prefix (· == space) v.toList).subset h

/-! ## The 8.3 name -/

/-- The name of an entry as DOS shows it: both fields without the spaces that fill them up, and
the dot only where there is an extension. -/
def dosName (entry : DirEntry) : List UInt8 :=
  trimmed entry.filename ++
    if entry.extension.toList = List.replicate maxExtension space then []
    else dot :: entry.extension.toList.rdropWhile (· == space)

theorem entryText_eq_dosName_iff {entry : DirEntry} :
    entryText entry = dosName entry ↔
      entry.extension.toList = List.replicate maxExtension space ∨
        entry.extension.toList.getLast? ≠ some space := by
  rw [entryText, dosName, List.append_cancel_left_eq, ← rdropWhile_space_eq_self_iff]
  by_cases h : entry.extension.toList = List.replicate maxExtension space
  · rw [if_pos h, if_pos h]
    exact ⟨fun _ => .inl h, fun _ => rfl⟩
  · rw [if_neg h, if_neg h, or_iff_right h, List.cons_inj_right]
    exact eq_comm

theorem zero_not_mem_append_cons {a b : List UInt8} {x : UInt8} (ha : 0 ∉ a) (hx : 0 ≠ x)
    (hb : 0 ∉ b) : 0 ∉ a ++ x :: b := by
  rw [List.mem_append, List.mem_cons, not_or, not_or]
  exact ⟨ha, hx, hb⟩

theorem zero_not_mem_entryText {entry : DirEntry} (hname : 0 ∉ entry.filename.toList)
    (hext : 0 ∉ entry.extension.toList) : 0 ∉ entryText entry := by
  have htrimmed : 0 ∉ trimmed entry.filename := fun h => hname (mem_of_mem_trimmed h)
  rw [entryText]
  split
  · rw [List.append_nil]
    exact htrimmed
  · exact zero_not_mem_append_cons htrimmed (by decide) hext

section
variable {env : Env} {fat : Fat12} {outDir image buf : List UInt8} {f : File}
  (hdir : 0 ∉ outDir) (hs : Session env fat outDir image buf f) {entry : DirEntry}
  (hname : 0 ∉ entry.filename.toList) (hext : 0 ∉ entry.extension.toList)
include hdir hs hname hext

theorem openedPath_text :
    openedPath entry buf (outDir.length + 1) =
      if entry.filename.toList = List.replicate maxFileName space then none
      else some (outDir ++ slash :: entryText entry) := by
  have h0 : (0 : UInt8) ∉ outDir ++ slash :: entryText entry :=
    zero_not_mem_append_cons hdir (by decide) (zero_not_mem_entryText hname hext)
  have hpath := cString_append h0 []
  rw [List.append_nil] at hpath
  rw [hs.openedPath entry, hpath]
  simp only [trimmed_eq_nil_iff, cString, List.takeWhile_nil, List.append_nil]

/-- **Which files get their 8.3 name**, and are named without a read outside the two fields:
those whose name field is not blank and whose extension fills its field or is blank. -/
theorem openedPath_dosName_iff :
    openedPath entry buf (outDir.length + 1) = some (outDir ++ slash :: dosName entry) ↔
      entry.filename.toList ≠ List.replicate maxFileName space ∧
        (entry.extension.toList = List.replicate maxExtension space ∨
          entry.extension.toList.getLast? ≠ some space) := by
  rw [openedPath_text hdir hs hname hext]
  by_cases h : entry.filename.toList = List.replicate maxFileName space
  · rw [if_pos h]
    exact ⟨fun h' => (Option.some_ne_none _ h'.symm).elim, fun h' => absurd h h'.1⟩
  · rw [if_neg h, Option.some.injEq, List.append_cancel_left_eq, List.cons_inj_right,
      entryText_eq_dosName_iff]
    exact (and_iff_right h).symm

end

/-- The file `A.TXT` is opened under its name. -/
theorem openedPath_dosName_full :
    ∃ fat f' entry,
      readFat12 Env.plain (openImage (namedImage ([0x41] ++ List.replicate 7 space ++
        [0x54, 0x58, 0x54]))) = .ok (fat, f') ∧
      entry ∈ fat.rootDirEntries.cells ∧
      openedPath entry sampleName 2 = some ([0x6f] ++ slash :: dosName entry) := by
  obtain ⟨fat, f', hload, entry, hmem, -, hname, hext⟩ :=
    namedImage_entry ([0x41] ++ List.replicate 7 space ++ [0x54, 0x58, 0x54])
  refine ⟨fat, f', entry, hload, hmem, (openedPath_dosName_iff (by decide)
    (sampleName_session Env.plain fat f') ?_ ?_).mpr ⟨?_, .inr ?_⟩⟩
  · rw [hname]
    decide
  · rw [hext]
    decide
  · rw [hname]
    decide
  · rw [hext]
    decide

/-- The file `A.C` is opened as `A.C` and two spaces. -/
theorem openedPath_padded_extension :
    ∃ fat f' entry,
      readFat12 Env.plain (openImage (namedImage ([0x41] ++ List.replicate 7 space ++ [0x43]))) =
        .ok (fat, f') ∧
      entry ∈ fat.rootDirEntries.cells ∧ isRegularEntry entry = true ∧
      0 ∉ entry.filename.toList ∧ 0 ∉ entry.extension.toList ∧
      dosName entry = [0x41, 0x2e, 0x43] ∧
      openedPath entry sampleName 2 = some ([0x6f] ++ slash :: [0x41, 0x2e, 0x43, 0x20, 0x20]) := by
  obtain ⟨fat, f', hload, entry, hmem, hlabel, hname, hext⟩ :=
    namedImage_entry ([0x41] ++ List.replicate 7 space ++ [0x43])
  refine ⟨fat, f', entry, hload, hmem, ?_, ?_, ?_, ?_, ?_⟩
  · rw [isRegularEntry, hlabel, isEntryDeleted, hname]
    decide
  · rw [hname]
    decide
  · rw [hext]
    decide
  · rw [dosName, hname, hext]
    decide
  · rw [openedPath, writeName, hname, hext]
    decide

/-! ## Different files -/

theorem takeWhile_dot {a t : List UInt8} (ha : dot ∉ a) (ht : ∀ x ∈ t.head?, x = dot) :
    (a ++ t).takeWhile (· != dot) = a := by
  rw [List.takeWhile_append_of_pos]
  · cases t with
    | nil => exact List.append_nil a
    | cons x t =>
      rw [ht x rfl, List.takeWhile_cons_of_neg (by decide), List.append_nil]
  · intro x hx
    rw [bne_iff_ne]
    rintro rfl
    exact ha hx

/-- The fields are read back from the text: the name ends at the first dot. -/
theorem entryText_injective {e₁ e₂ : DirEntry} (h₁ : dot ∉ e₁.filename.toList)
    (h₂ : dot ∉ e₂.filename.toList) (h : entryText e₁ = entryText e₂) :
    e₁.filename = e₂.filename ∧ e₁.extension = e₂.extension := by
  have hsplit {e : DirEntry} (he : dot ∉ e.filename.toList) :
      (entryText e).takeWhile (· != dot) = trimmed e.filename := by
    refine takeWhile_dot (fun hd => he (mem_of_mem_trimmed hd)) fun x hx => ?_
    split at hx
    · cases hx
    · exact (Option.some.inj hx).symm
  have hname : trimmed e₁.filename = trimmed e₂.filename := by rw [← hsplit h₁, h, hsplit h₂]
  refine ⟨trimmed_injective hname, Vector.toList_inj.mp ?_⟩
  rw [entryText, entryText, hname, List.append_cancel_left_eq] at h
  split at h
  · rename_i hb₁
    split at h
    · rename_i hb₂
      exact hb₁.trans hb₂.symm
    · cases h
  · split at h
    · cases h
    · exact (List.cons.inj h).2

/-- **Different files have different paths**, whatever calls went before either of them. -/
theorem openedPath_ne {env : Env} {fat : Fat12} {outDir image buf₁ buf₂ : List UInt8} {f₁ f₂ : File}
    (hdir : 0 ∉ outDir) (hs₁ : Session env fat outDir image buf₁ f₁)
    (hs₂ : Session env fat outDir image buf₂ f₂) {e₁ e₂ : DirEntry}
    (hfirst : ∀ e ∈ [e₁, e₂], e.filename.toList.head? ≠ some space)
    (hplain : ∀ e ∈ [e₁, e₂], ∀ x ∈ e.filename.toList ++ e.extension.toList,
      x ≠ 0 ∧ x ≠ slash ∧ x ≠ dot)
    (hne : (e₁.filename, e₁.extension) ≠ (e₂.filename, e₂.extension)) :
    ∃ p₁ p₂, openedPath e₁ buf₁ (outDir.length + 1) = some p₁ ∧
      openedPath e₂ buf₂ (outDir.length + 1) = some p₂ ∧ p₁ ≠ p₂ := by
  have hpath {e : DirEntry} (he : e ∈ [e₁, e₂]) {buf : List UInt8} {f : File}
      (hs : Session env fat outDir image buf f) :
      openedPath e buf (outDir.length + 1) = some (outDir ++ slash :: entryText e) := by
    rw [openedPath_text hdir hs (fun h => (hplain e he 0 (List.mem_append_left _ h)).1 rfl)
      (fun h => (hplain e he 0 (List.mem_append_right _ h)).1 rfl), if_neg]
    intro hblank
    exact hfirst e he (by rw [hblank]; rfl)
  have hdot {e : DirEntry} (he : e ∈ [e₁, e₂]) : dot ∉ e.filename.toList :=
    fun h => (hplain e he dot (List.mem_append_left _ h)).2.2 rfl
  have hm₁ : e₁ ∈ [e₁, e₂] := List.mem_cons_self
  have hm₂ : e₂ ∈ [e₁, e₂] := List.mem_cons_of_mem _ List.mem_cons_self
  refine ⟨_, _, hpath hm₁ hs₁, hpath hm₂ hs₂, fun heq => hne ?_⟩
  obtain ⟨hn, hx⟩ := entryText_injective (hdot hm₁) (hdot hm₂)
    (List.cons.inj (List.append_cancel_left heq)).2
  rw [hn, hx]

/-- The entry with the given bytes, and spaces after them, as its name and extension. -/
def namedEntry (name : List UInt8) : DirEntry := entryOf (fun i => name.getD i space) 0

theorem mem_namedEntry {name : List UInt8} {x : UInt8}
    (h : x ∈ (namedEntry name).filename.toList ++ (namedEntry name).extension.toList) :
    x ∈ name ∨ x = space := by
  have hget (i : Nat) : name.getD i space ∈ name ∨ name.getD i space = space := by
    rw [List.getD_eq_getElem?_getD]
    rcases hi : name[i]? with - | y
    · exact .inr rfl
    · exact .inl (List.mem_of_getElem? hi)
  rw [namedEntry, entryOf, Vector.toList_ofFn, Vector.toList_ofFn, List.mem_append,
    List.mem_ofFn, List.mem_ofFn] at h
  rcases h with ⟨i, rfl⟩ | ⟨i, rfl⟩
  all_goals exact hget _

/-- The files `A` and `AB`. -/
theorem openedPath_ne_sample :
    ∃ fat f' p₁ p₂, readFat12 Env.plain (openImage (namedImage [0x41])) = .ok (fat, f') ∧
      openedPath (namedEntry [0x41]) sampleName 2 = some p₁ ∧
      openedPath (namedEntry [0x41, 0x42]) sampleName 2 = some p₂ ∧ p₁ ≠ p₂ := by
  obtain ⟨fat, f', hload, -⟩ := namedImage_entry [0x41]
  have hs := sampleName_session Env.plain fat f'
  have hplain : ∀ e ∈ [namedEntry [0x41], namedEntry [0x41, 0x42]],
      ∀ x ∈ e.filename.toList ++ e.extension.toList, x ≠ 0 ∧ x ≠ slash ∧ x ≠ dot := by
    intro e he x hx
    rcases List.mem_pair.mp he with rfl | rfl
    · rcases mem_namedEntry hx with hx | rfl
      · obtain rfl := List.mem_singleton.mp hx
        decide
      · decide
    · rcases mem_namedEntry hx with hx | rfl
      · rcases List.mem_pair.mp hx with rfl | rfl
        · decide
        · decide
      · decide
  have hfields : ((namedEntry [0x41]).filename, (namedEntry [0x41]).extension) ≠
      ((namedEntry [0x41, 0x42]).filename, (namedEntry [0x41, 0x42]).extension) := by
    intro h
    have hname := congrArg Vector.toList (Prod.ext_iff.mp h).1
    exact absurd hname (by decide)
  obtain ⟨p₁, p₂, h₁, h₂, hne⟩ := openedPath_ne (by decide) hs hs (by decide) hplain hfields
  exact ⟨fat, f', p₁, p₂, hload, h₁, h₂, hne⟩

end Cs370.MsDos
