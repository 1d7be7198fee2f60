import Cs370.Lexer.FileEnds

/-!
# Bytes that get lost

`getc` gives an `int`, which the lexer keeps in a `char`: the byte 255 is `EOF` to it wherever it
looks. As the first byte of a call it is returned as `TOK_EOF`, and as the byte after a token it is
not put back (`LosesEof`). No other byte is lost: a call that meets no 255 in these places accounts
for every byte that it reads (`accounted_iff`).
-/

namespace Cs370.Lexer

/-- The bytes of the stream that are the token. -/
def Tok.Spells (t : Tok) (v : List UInt8) : Prop :=
  match t.type with
  | .tokEof => v = [] ∨ v = [eof]
  | .hexi => v = '#'.toUInt8 :: t.value
  | .deci => v = '$'.toUInt8 :: t.value
  | _ => v = t.value

/-- What a call that has got `t` from the stream `s` and left `r` owes: at the end of the file
nothing is left, and what is not left is the token and whitespace and comments after it, the
newline that ends the last one apart. -/
structure Accounted (s : List UInt8) (t : Tok) (r : List UInt8) : Prop where
  atEnd : t.type = .tokEof → r = []
  read : ∃ v w, s = v ++ w ++ r ∧ t.Spells v ∧ Layout (w ++ [newline])

/-- A byte 255 stands where the call looks for the end of the file: at the start with more behind
it, after a newline and its layout, after a lexeme and its blanks, or right after an identifier
that a separator would end. -/
inductive LosesEof (get : List UInt8 → Option TokType) : List UInt8 → Prop where
  | start {r : List UInt8} : r ≠ [] → LosesEof get (eof :: r)
  | newline {w r : List UInt8} : Layout w → LosesEof get (newline :: w ++ eof :: r)
  | gap {t : Tok} {u w r : List UInt8} : Lexeme get t u (w ++ eof :: r) → Blanks w →
      LosesEof get (u ++ (w ++ eof :: r))
  | ident {c : UInt8} {v w r : List UInt8} : isIdentStart c = true →
      (∀ d ∈ v, isIdentChar d = true) → Separated (w ++ r) → Gap w r →
      LosesEof get (c :: v ++ eof :: (w ++ r))

theorem Blanks.layout {w : List UInt8} (h : Blanks w) : Layout w := by
  induction w with
  | nil => exact .nil
  | cons c w ih =>
    obtain ⟨hc, hw⟩ := List.forall_mem_cons.mp h
    exact .space (isspace_of_isBlank hc) (ih hw)

theorem layout_newline : Layout [newline] := .space (by decide) .nil

theorem not_layout_eof {v w : List UInt8} (hv : Layout v) : ¬ Layout (v ++ eof :: w) := by
  intro h
  have hend : layoutEnd false (v ++ eof :: w) = some [] := by
    have h' := h.layoutEnd (r := [])
    rwa [List.append_nil] at h'
  rw [hv.layoutEnd, layoutEnd_stop (by rintro c ⟨⟩; exact ⟨isSpace_eof, by decide⟩)] at hend
  cases hend

section
variable {get : List UInt8 → Option TokType}

theorem Tok.Spells.unique {t : Tok} {v v' : List UInt8} (h : t.Spells v) (h' : t.Spells v')
    (ht : t.type ≠ .tokEof) : v = v' := by
  unfold Tok.Spells at h h'
  split at h
  · exact absurd ‹_› ht
  all_goals simp_all

/-- Words are reserved for none of these. -/
def Reserves (get : List UInt8 → Option TokType) : Prop :=
  ∀ k, get k ≠ some .tokEof ∧ get k ≠ some .hexi ∧ get k ≠ some .deci

theorem spells_ident (hget : Reserves get) (v : List UInt8) :
    Tok.Spells ⟨identType get v, v⟩ v := by
  obtain ⟨h1, h2, h3⟩ := hget v
  have heof : identType get v ≠ .tokEof :=
    identType_ne_of_get TokType.noConfusion TokType.noConfusion h1
  have hhexi : identType get v ≠ .hexi :=
    identType_ne_of_get TokType.noConfusion TokType.noConfusion h2
  have hdeci : identType get v ≠ .deci :=
    identType_ne_of_get TokType.noConfusion TokType.noConfusion h3
  unfold Tok.Spells
  split <;> simp_all

/-- The text of a lexeme spells its token, unless a byte 255 is lost with it. -/
theorem Lexeme.spells (hget : Reserves get) {t : Tok} {u x : List UInt8} (h : Lexeme get t u x) :
    t.Spells u ∨ ∃ c v, u = c :: v ++ [eof] ∧ isIdentStart c = true ∧
      (∀ d ∈ v, isIdentChar d = true) ∧ Separated x ∧ t.Spells (c :: v) := by
  cases h with
  | @punct c type _ hc =>
    obtain ⟨h1, h2, h3⟩ := punctType_ne_value c
    rw [hc] at h1 h2 h3
    left
    unfold Tok.Spells
    split <;> simp_all
  | hexi => exact .inl rfl
  | deci => exact .inl rfl
  | ident => exact .inl (spells_ident hget _)
  | identLost hc hv hsep => exact .inr ⟨_, _, rfl, hc, hv, hsep, spells_ident hget _⟩

theorem Gap.layout {w r : List UInt8} (h : Gap w r) (hlost : ∀ b, Blanks b → w ≠ b ++ [eof]) :
    Layout (w ++ [newline]) := by
  cases h with
  | stop hw _ => exact hw.layout.append layout_newline
  | @lost b _ hb => exact absurd rfl (hlost b hb)
  | @comment b v _ hb hv _ =>
    rw [List.append_assoc]
    exact hb.layout.append (.comment hv .nil)

theorem Token.accounted (hget : Reserves get) {t : Tok} {u r : List UInt8} (h : Token get t u r)
    (hlose : ¬ LosesEof get (u ++ r)) : Accounted (u ++ r) t r := by
  cases h with
  | endOfFile => exact ⟨fun _ => rfl, [], [], rfl, .inl rfl, layout_newline⟩
  | eofByte =>
    have hr : r = [] := by
      by_contra hne
      exact hlose (.start hne)
    exact ⟨fun _ => hr, [eof], [], rfl, .inr rfl, layout_newline⟩
  | newline hw =>
    refine ⟨nofun, [Lexer.newline], _, rfl, rfl, ?_⟩
    cases hw with
    | stop hw _ => exact hw.append layout_newline
    | @lost w _ hw =>
      refine absurd ?_ hlose
      rw [List.cons_append, List.append_assoc]
      exact .newline hw
  | @lexeme _ u w _ hu hw =>
    refine ⟨fun ht => absurd ht (hu.type_ne_tokEof fun k => (hget k).1), u, w, rfl, ?_, ?_⟩
    · rcases hu.spells hget with hspells | ⟨c, v, rfl, hc, hv, hsep, -⟩
      · exact hspells
      · have htext : c :: v ++ [eof] ++ w ++ r = c :: v ++ eof :: (w ++ r) := by simp
        rw [htext] at hlose
        exact absurd (.ident hc hv hsep hw) hlose
    · refine hw.layout fun b hb hwb => ?_
      subst hwb
      have htext : u ++ (b ++ [eof]) ++ r = u ++ (b ++ eof :: r) := by simp
      rw [htext] at hlose
      rw [List.append_assoc] at hu
      exact hlose (.gap hu hb)

theorem not_accounted {s v w x r : List UInt8} {t : Tok} (hs : s = v ++ (w ++ eof :: x) ++ r)
    (ht : t.type ≠ .tokEof) (hv : t.Spells v) (hw : Layout w) : ¬ Accounted s t r := by
  rintro ⟨-, v', w', hs', hv', hlayout⟩
  obtain rfl := hv.unique hv' ht
  obtain rfl := List.append_cancel_left (List.append_cancel_right (hs.symm.trans hs'))
  rw [List.append_assoc, List.cons_append] at hlayout
  exact not_layout_eof hw hlayout

/-- Where a byte gets lost, a call returns and does not account for it. -/
theorem LosesEof.exists_token (hget : Reserves get) {s : List UInt8} (h : LosesEof get s) :
    ∃ t u r, s = u ++ r ∧ Token get t u r ∧ ¬ Accounted s t r := by
  have hlexeme {t : Tok} {u x : List UInt8} (hu : Lexeme get t u x) : t.type ≠ .tokEof :=
    hu.type_ne_tokEof fun k => (hget k).1
  cases h with
  | @start r hr => exact ⟨_, [eof], r, rfl, .eofByte, fun ha => hr (ha.atEnd rfl)⟩
  | @newline w r hw =>
    refine ⟨newlineTok, Lexer.newline :: (w ++ [eof]), r, by simp, .newline (.lost hw), ?_⟩
    exact not_accounted (v := [Lexer.newline]) (x := []) (by simp) (by decide) rfl hw
  | @gap t u w r hu hw =>
    refine ⟨t, u ++ (w ++ [eof]), r, by simp, .lexeme (by simpa using hu) (.lost hw), ?_⟩
    rcases hu.spells hget with hspells | ⟨c, v, rfl, -, -, -, hspells⟩
    · exact not_accounted (x := []) (by simp) (hlexeme hu) hspells hw.layout
    · exact not_accounted (w := []) (x := w ++ [eof]) (by simp) (hlexeme hu) hspells .nil
  | @ident c v w r hc hv hsep hgap =>
    have hu : Lexeme get _ (c :: v ++ [eof]) (w ++ r) := .identLost hc hv hsep
    refine ⟨_, c :: v ++ [eof] ++ w, r, by simp, .lexeme hu hgap, ?_⟩
    exact not_accounted (w := []) (x := w) (by simp) (hlexeme hu) (spells_ident hget _) .nil

end

/-- **What a call loses**: it accounts for all bytes it reads, and returns `TOK_EOF` at the end of
the stream only, exactly if no byte 255 stands where it looks for the end of the file. -/
theorem accounted_iff {μ : Type} {R : Resmap μ} (hR : R.Lawful) {lexAlloc strAlloc : Bool}
    {m : μ} (hm : lexInitialize R lexAlloc strAlloc = some m) (a : Bool) (s : List UInt8) :
    (∀ t r, (lexGetNextToken (R.get m) a s).Returns (.ok (t, r)) → Accounted s t r) ↔
      (a = true → ¬ LosesEof (R.get m) s) := by
  have hget : Reserves (R.get m) := by
    intro k
    rw [lexInitialize_get hR hm]
    exact ⟨fun h => absurd (mem_reservedTypes h) (by decide),
      fun h => absurd (mem_reservedTypes h) (by decide),
      fun h => absurd (mem_reservedTypes h) (by decide)⟩
  constructor
  · intro h ha hlose
    obtain ⟨t, u, r, hs, htoken, hnot⟩ := hlose.exists_token hget
    exact hnot (h t r (call_returns_ok_iff.mpr ⟨ha, u, hs, htoken⟩))
  · intro h t r hret
    obtain ⟨ha, u, rfl, htoken⟩ := call_returns_ok_iff.mp hret
    exact htoken.accounted hget (h ha)

theorem LosesEof.eof_mem {get : List UInt8 → Option TokType} {s : List UInt8}
    (h : LosesEof get s) : eof ∈ s := by
  cases h <;> simp

/-- The line `nop`. -/
theorem accounted_iff_nop :
    (lexGetNextToken (listResmap.get (reservedWords.zip reservedTypes)) true
      (bytes "nop" ++ [newline])).Returns (.ok (⟨.nop, bytes "nop"⟩, [newline])) ∧
    Accounted (bytes "nop" ++ [newline]) ⟨.nop, bytes "nop"⟩ [newline] := by
  have hnop : Token (reservedType (reservedWords.zip reservedTypes)) ⟨.nop, bytes "nop"⟩
      (bytes "nop") [newline] :=
    token_nop (w := []) (by simp [Blanks]) ⟨newline, rfl, by decide⟩
  have hret : (lexGetNextToken (listResmap.get (reservedWords.zip reservedTypes)) true
      (bytes "nop" ++ [newline])).Returns (.ok (⟨.nop, bytes "nop"⟩, [newline])) :=
    call_returns_ok_iff.mpr ⟨rfl, bytes "nop", rfl, hnop⟩
  have hiff := accounted_iff listResmap_lawful
    (show lexInitialize listResmap true true = some (reservedWords.zip reservedTypes) from rfl)
    true (bytes "nop" ++ [newline])
  exact ⟨hret, hiff.mpr (fun _ hlose => eof_not_mem ascii_nop_line hlose.eof_mem) _ _ hret⟩

/-- A byte 255 before the line `nop`: the file ends before it starts. -/
theorem eof_byte_ends : (lexGetNextToken (reservedType (reservedWords.zip reservedTypes)) true
      (eof :: (bytes "nop" ++ [newline]))).Returns (.ok (eofTok, bytes "nop" ++ [newline])) ∧
    ¬ Accounted (eof :: (bytes "nop" ++ [newline])) eofTok (bytes "nop" ++ [newline]) := by
  refine ⟨call_returns_ok_iff.mpr ⟨rfl, [eof], rfl, .eofByte⟩, fun h => ?_⟩
  cases h.atEnd rfl

end Cs370.Lexer
