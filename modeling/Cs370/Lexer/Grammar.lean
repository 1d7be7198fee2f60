import Mathlib.Data.List.TakeWhile
import Cs370.Lexer.Text

/-!
# The lexical grammar

What the lexer accepts, without its loops: `Gap` and `Skips` are the texts it passes over after
a token and after a newline, `Lexeme` the text of a token, and `Token get t u r` says that `u` is
the text of the token `t`, with what is skipped after it, when `r` follows. A token looks at no
more of `r` than its first character, which is what makes lexing local.

`tokenAt_eq_ok_iff` and `tokenAt_eq_none_iff`: a call of `lex_get_next_token` returns the tokens
of the grammar, and does not return exactly when the text ends within a comment after a token.
-/

namespace Cs370.Lexer

/-! ## Texts that are skipped -/

def Blanks (w : List UInt8) : Prop := ∀ c ∈ w, isBlank c = true

/-- What `lex_skip_insignificant` passes over when `r` is left. The byte 255 is taken for the end
of the stream and is not put back. -/
inductive Gap : List UInt8 → List UInt8 → Prop where
  | stop {w r : List UInt8} : Blanks w →
      (∀ c ∈ r.head?, isBlank c = false ∧ c ≠ semicolon ∧ c ≠ eof) → Gap w r
  | lost {w r : List UInt8} : Blanks w → Gap (w ++ [eof]) r
  | comment {w v r : List UInt8} : Blanks w → newline ∉ v → r.head? = some newline →
      Gap (w ++ semicolon :: v) r

/-- Blanks, newlines and comments that are ended by a newline. -/
inductive Layout : List UInt8 → Prop where
  | nil : Layout []
  | space {c : UInt8} {w : List UInt8} : isspace c = true → Layout w → Layout (c :: w)
  | comment {v w : List UInt8} : newline ∉ v → Layout w → Layout (semicolon :: v ++ newline :: w)

/-- What `lex_get_newline` passes over when `r` is left. -/
inductive Skips : List UInt8 → List UInt8 → Prop where
  | stop {w r : List UInt8} : Layout w →
      (∀ c ∈ r.head?, isspace c = false ∧ c ≠ semicolon ∧ c ≠ eof) → Skips w r
  | lost {w r : List UInt8} : Layout w → Skips (w ++ [eof]) r

theorem isSpace_semicolon : isspace semicolon = false := by decide

theorem isBlank_semicolon : isBlank semicolon = false := by decide

theorem isBlank_eof : isBlank eof = false := by decide

theorem isSpace_eof : isspace eof = false := by decide

theorem dropWhile_append_stop {p : UInt8 → Bool} {w r : List UInt8} (hw : ∀ c ∈ w, p c = true)
    (hr : ∀ c ∈ r.head?, p c = false) : (w ++ r).dropWhile p = r := by
  rw [List.dropWhile_append_of_pos hw]
  cases r with
  | nil => rfl
  | cons c r => exact List.dropWhile_cons_of_neg (by simp [hr c rfl])

theorem takeWhile_append_stop {p : UInt8 → Bool} {w r : List UInt8} (hw : ∀ c ∈ w, p c = true)
    (hr : ∀ c ∈ r.head?, p c = false) : (w ++ r).takeWhile p = w := by
  rw [List.takeWhile_append_of_pos hw]
  cases r with
  | nil => rw [List.takeWhile_nil, List.append_nil]
  | cons c r => rw [List.takeWhile_cons_of_neg (by simp [hr c rfl]), List.append_nil]

theorem exists_span (p : UInt8 → Bool) (s : List UInt8) :
    ∃ w r, s = w ++ r ∧ (∀ c ∈ w, p c = true) ∧ ∀ c ∈ r.head?, p c = false := by
  refine ⟨s.takeWhile p, s.dropWhile p, List.takeWhile_append_dropWhile.symm,
    fun c hc => List.mem_takeWhile_imp hc, fun c hc => ?_⟩
  cases hs : s.dropWhile p with
  | nil => rw [hs] at hc; cases hc
  | cons d r =>
    have hd := List.head_dropWhile_not p (l := s) (by rw [hs]; simp)
    rw [hs] at hc
    cases hc
    simpa [hs] using hd

theorem afterComment_append {v u : List UInt8} (hv : newline ∉ v) :
    afterComment (v ++ newline :: u) = some u := by
  induction v with
  | nil => simp [afterComment]
  | cons c v ih =>
    rw [List.mem_cons, not_or] at hv
    rw [List.cons_append, afterComment, if_neg (Ne.symm hv.1), ih hv.2]

theorem afterComment_eq_none {v : List UInt8} (hv : newline ∉ v) : afterComment v = none := by
  induction v with
  | nil => rfl
  | cons c v ih =>
    rw [List.mem_cons, not_or] at hv
    rw [afterComment, if_neg (Ne.symm hv.1), ih hv.2]

theorem comment_cases (s : List UInt8) :
    newline ∉ s ∨ ∃ v u, s = v ++ newline :: u ∧ newline ∉ v := by
  induction s with
  | nil => exact .inl List.not_mem_nil
  | cons c s ih =>
    by_cases hc : c = newline
    · exact .inr ⟨[], s, by rw [hc]; rfl, List.not_mem_nil⟩
    · rcases ih with h | ⟨v, u, rfl, hv⟩
      · exact .inl (by simp [Ne.symm hc, h])
      · exact .inr ⟨c :: v, u, rfl, by simp [Ne.symm hc, hv]⟩

/-! ## Gaps -/

theorem afterGap_append {w r : List UInt8} (hw : Blanks w)
    (hr : ∀ c ∈ r.head?, isBlank c = false) :
    afterGap (w ++ r) = if (getc r).1 = semicolon then
      (afterComment (getc r).2).map (newline :: ·) else some (unread r) := by
  unfold afterGap
  rw [dropWhile_append_stop hw hr]

theorem Gap.afterGap {w r : List UInt8} (h : Gap w r) : afterGap (w ++ r) = some r := by
  cases h with
  | stop hw hr =>
    rw [afterGap_append hw fun c hc => (hr c hc).1]
    cases r with
    | nil => rfl
    | cons c r =>
      obtain ⟨-, hsemi, heof⟩ := hr c rfl
      rw [if_neg (show (getc (c :: r)).1 ≠ semicolon from hsemi),
        unread_of_ne (show (getc (c :: r)).1 ≠ eof from heof)]
  | @lost w _ hw =>
    rw [List.append_assoc, afterGap_append hw (by rintro c ⟨⟩; exact isBlank_eof)]
    rfl
  | @comment w v _ hw hv hr =>
    obtain ⟨u, rfl⟩ : ∃ u, r = newline :: u := by
      cases r with
      | nil => cases hr
      | cons c u => cases hr; exact ⟨u, rfl⟩
    rw [List.append_assoc, afterGap_append hw (by rintro c ⟨⟩; exact isBlank_semicolon)]
    show (afterComment (v ++ newline :: u)).map _ = _
    rw [afterComment_append hv]
    rfl

theorem gap_cases (s : List UInt8) : (∃ w r, s = w ++ r ∧ Gap w r) ∨
    ∃ w v, s = w ++ semicolon :: v ∧ Blanks w ∧ newline ∉ v := by
  obtain ⟨w, r, rfl, hw, hr⟩ := exists_span isBlank s
  cases r with
  | nil => exact .inl ⟨w, [], rfl, .stop hw (by simp)⟩
  | cons c r =>
    by_cases hsemi : c = semicolon
    · subst hsemi
      rcases comment_cases r with hv | ⟨v, u, rfl, hv⟩
      · exact .inr ⟨w, r, rfl, hw, hv⟩
      · exact .inl ⟨w ++ semicolon :: v, newline :: u, by simp, .comment hw hv rfl⟩
    · by_cases heof : c = eof
      · subst heof
        exact .inl ⟨w ++ [eof], r, by simp, .lost hw⟩
      · refine .inl ⟨w, c :: r, rfl, .stop hw ?_⟩
        rintro d ⟨⟩
        exact ⟨hr c rfl, hsemi, heof⟩

theorem afterGap_open {w v : List UInt8} (hw : Blanks w) (hv : newline ∉ v) :
    afterGap (w ++ semicolon :: v) = none := by
  rw [afterGap_append hw (by rintro c ⟨⟩; exact isBlank_semicolon)]
  show (afterComment v).map _ = none
  rw [afterComment_eq_none hv]
  rfl

/-! ## Layout -/

theorem Layout.layoutEnd {w r : List UInt8} (h : Layout w) :
    layoutEnd false (w ++ r) = layoutEnd false r := by
  induction h with
  | nil => rfl
  | space hc _ ih => rw [List.cons_append, Lexer.layoutEnd, if_pos hc, ih]
  | @comment v w hv _ ih =>
    rw [List.cons_append, List.cons_append, Lexer.layoutEnd, isSpace_semicolon,
      if_neg Bool.false_ne_true, if_pos rfl, layoutEnd_comment, List.append_assoc,
      List.cons_append, afterComment_append hv]
    exact ih

theorem layout_cases (s : List UInt8) :
    (∃ w r, s = w ++ r ∧ Layout w ∧ ∀ c ∈ r.head?, isspace c = false ∧ c ≠ semicolon) ∨
      ∃ w v, s = w ++ semicolon :: v ∧ Layout w ∧ newline ∉ v := by
  induction hn : s.length using Nat.strong_induction_on generalizing s with
  | _ n ih =>
    cases s with
    | nil => exact .inl ⟨[], [], rfl, .nil, by simp⟩
    | cons c s =>
      rw [List.length_cons] at hn
      cases hc : isspace c with
      | true =>
        rcases ih s.length (by omega) s rfl with ⟨w, r, rfl, hw, hr⟩ | ⟨w, v, rfl, hw, hv⟩
        · exact .inl ⟨c :: w, r, rfl, .space hc hw, hr⟩
        · exact .inr ⟨c :: w, v, rfl, .space hc hw, hv⟩
      | false =>
        by_cases hsemi : c = semicolon
        · subst hsemi
          rcases comment_cases s with hv | ⟨v, u, rfl, hv⟩
          · exact .inr ⟨[], s, rfl, .nil, hv⟩
          rw [List.length_append, List.length_cons] at hn
          rcases ih u.length (by omega) u rfl with ⟨w, r, rfl, hw, hr⟩ | ⟨w, v', rfl, hw, hv'⟩
          · exact .inl ⟨_, r, by simp, .comment hv hw, hr⟩
          · exact .inr ⟨_, v', by simp, .comment hv hw, hv'⟩
        · refine .inl ⟨[], c :: s, rfl, .nil, ?_⟩
          rintro d ⟨⟩
          exact ⟨hc, hsemi⟩

/-- Where layout ends: the loop of `lex_get_newline` stops there. -/
theorem layoutEnd_stop {r : List UInt8} (hr : ∀ c ∈ r.head?, isspace c = false ∧ c ≠ semicolon) :
    layoutEnd false r = some r := by
  cases r with
  | nil => rfl
  | cons c r => rw [layoutEnd, (hr c rfl).1, if_neg Bool.false_ne_true, if_neg (hr c rfl).2]

theorem Skips.afterLayout {w r : List UInt8} (h : Skips w r) : afterLayout (w ++ r) = some r := by
  unfold Lexer.afterLayout
  cases h with
  | stop hw hr =>
    rw [hw.layoutEnd, layoutEnd_stop fun c hc => ⟨(hr c hc).1, (hr c hc).2.1⟩, Option.map_some]
    cases r with
    | nil => rfl
    | cons c r => rw [unread_of_ne (show (getc (c :: r)).1 ≠ eof from (hr c rfl).2.2)]
  | @lost w _ hw =>
    rw [List.append_assoc, hw.layoutEnd,
      layoutEnd_stop (by rintro c ⟨⟩; exact ⟨isSpace_eof, by decide⟩)]
    rfl

theorem skips_cases (s : List UInt8) : (∃ w r, s = w ++ r ∧ Skips w r) ∨
    ∃ w v, s = w ++ semicolon :: v ∧ Layout w ∧ newline ∉ v := by
  rcases layout_cases s with ⟨w, r, rfl, hw, hr⟩ | hopen
  · left
    by_cases heof : r.head? = some eof
    · obtain ⟨u, rfl⟩ : ∃ u, r = eof :: u := List.head?_eq_some_iff.mp heof
      exact ⟨w ++ [eof], u, by simp, .lost hw⟩
    · refine ⟨w, r, rfl, .stop hw fun c hc => ⟨(hr c hc).1, (hr c hc).2, ?_⟩⟩
      rintro rfl
      exact heof hc
  · exact .inr hopen

theorem afterLayout_open {w v : List UInt8} (hw : Layout w) (hv : newline ∉ v) :
    afterLayout (w ++ semicolon :: v) = none := by
  rw [afterLayout, hw.layoutEnd, layoutEnd, isSpace_semicolon, if_neg Bool.false_ne_true,
    if_pos rfl, layoutEnd_comment, afterComment_eq_none hv]
  rfl

/-! ## Tokens -/

def Separated (r : List UInt8) : Prop := ∃ c ∈ r.head?, isSeparator c = true

/-- `Lexeme get t u x`: `u` is the text of the token `t` when `x` follows. After an identifier
the byte 255 is taken for the end of the stream and lost. -/
inductive Lexeme (get : List UInt8 → Option TokType) :
    Tok → List UInt8 → List UInt8 → Prop where
  | punct {c : UInt8} {type : TokType} {x : List UInt8} : punctType c = some type →
      Lexeme get ⟨type, [c]⟩ [c] x
  | hexi {ds x : List UInt8} : ds.length = 4 → (∀ c ∈ ds, isHexiDigit c = true) →
      Separated x → Lexeme get ⟨.hexi, ds⟩ ('#'.toUInt8 :: ds) x
  | deci {ds x : List UInt8} : ds.length = 5 → (∀ c ∈ ds, isdigit c = true) →
      atoi ds < 1 <<< 16 → Separated x → Lexeme get ⟨.deci, ds⟩ ('$'.toUInt8 :: ds) x
  | ident {c : UInt8} {v x : List UInt8} : isIdentStart c = true →
      (∀ d ∈ v, isIdentChar d = true) → Separated x →
      Lexeme get ⟨identType get (c :: v), c :: v⟩ (c :: v) x
  | identLost {c : UInt8} {v x : List UInt8} : isIdentStart c = true →
      (∀ d ∈ v, isIdentChar d = true) → Separated x →
      Lexeme get ⟨identType get (c :: v), c :: v⟩ (c :: v ++ [eof]) x

/-- `Token get t u r`: with `r` after it, `u` is the text of the token `t` and of what is skipped
after the token. -/
inductive Token (get : List UInt8 → Option TokType) :
    Tok → List UInt8 → List UInt8 → Prop where
  | endOfFile : Token get ⟨.tokEof, [eof]⟩ [] []
  | eofByte {r : List UInt8} : Token get ⟨.tokEof, [eof]⟩ [eof] r
  | newline {w r : List UInt8} : Skips w r → Token get ⟨.newline, [newline]⟩ (newline :: w) r
  | lexeme {t : Tok} {u w r : List UInt8} : Lexeme get t u (w ++ r) → Gap w r →
      Token get t (u ++ w) r

/-- The text starts with a token, and then there is a comment that no newline ends. -/
inductive OpenComment (get : List UInt8 → Option TokType) : List UInt8 → Prop where
  | newline {w v : List UInt8} : Layout w → newline ∉ v →
      OpenComment get (newline :: w ++ semicolon :: v)
  | lexeme {t : Tok} {u w v : List UInt8} : Lexeme get t u (w ++ semicolon :: v) → Blanks w →
      newline ∉ v → OpenComment get (u ++ (w ++ semicolon :: v))

theorem separated_iff {x : List UInt8} : Separated x ↔ isSeparator (getc x).1 = true := by
  cases x with
  | nil =>
    constructor
    · rintro ⟨c, hc, -⟩
      cases hc
    · exact fun h => absurd rfl (isSeparator_ne_eof _ h)
  | cons c x =>
    constructor
    · rintro ⟨d, ⟨⟩, hd⟩
      exact hd
    · exact fun h => ⟨c, rfl, h⟩

theorem getDigits_append {p : UInt8 → Bool} {ds : List UInt8} (hds : ∀ c ∈ ds, p c = true)
    (next : UInt8) (v x : List UInt8) :
    ∃ c, getDigits p ds.length next v (ds ++ x) = .ok (c, v ++ ds, x) := by
  induction ds generalizing next v with
  | nil => exact ⟨next, by rw [List.append_nil]; rfl⟩
  | cons c ds ih =>
    obtain ⟨d, hd⟩ := ih (fun d hd => hds d (List.mem_cons_of_mem _ hd)) c (v ++ [c])
    refine ⟨d, (if_pos (hds c List.mem_cons_self)).trans ?_⟩
    rw [← List.append_cons] at hd
    exact hd

theorem getDigits_cases {p : UInt8 → Bool} (hp : p eof = false) (k : Nat) (next : UInt8)
    (v s : List UInt8) :
    (∃ ds x, s = ds ++ x ∧ ds.length = k ∧ ∀ c ∈ ds, p c = true) ∨
      ∃ c, getDigits p k next v s = .error c := by
  induction k generalizing next v s with
  | zero => exact .inl ⟨[], s, rfl, rfl, by simp⟩
  | succ k ih =>
    by_cases hc : p (getc s).1 = true
    · cases s with
      | nil =>
        rw [show (getc []).1 = eof from rfl, hp] at hc
        cases hc
      | cons c s =>
        rcases ih c (v ++ [c]) s with ⟨ds, x, rfl, rfl, hds⟩ | ⟨e, he⟩
        · exact .inl ⟨c :: ds, x, rfl, rfl, List.forall_mem_cons.mpr ⟨hc, hds⟩⟩
        · exact .inr ⟨e, (if_pos hc).trans he⟩
    · exact .inr ⟨_, if_neg hc⟩

theorem numberAt_separated {x : List UInt8} (h : Separated x) (type : TokType) (next : UInt8)
    (value : List UInt8) :
    numberAt type next value x = (afterGap x).map fun r => .ok (⟨type, value⟩, r) :=
  if_pos (separated_iff.mp h)

theorem numberAt_not_separated {x : List UInt8} (h : ¬ Separated x) (type : TokType)
    (next : UInt8) (value : List UInt8) : numberAt type next value x = some (.error next) :=
  if_neg fun hsep => h (separated_iff.mpr hsep)

theorem hexiAt_digits {ds : List UInt8} (hlen : ds.length = 4)
    (hds : ∀ c ∈ ds, isHexiDigit c = true) (next : UInt8) (x : List UInt8) :
    ∃ c, hexiAt next (ds ++ x) = numberAt .hexi c ds x := by
  obtain ⟨c, hc⟩ := getDigits_append hds next [] x
  rw [hlen] at hc
  exact ⟨c, by rw [hexiAt, hc]; rfl⟩

theorem deciAt_digits {ds : List UInt8} (hlen : ds.length = 5)
    (hds : ∀ c ∈ ds, isdigit c = true) (next : UInt8) (x : List UInt8) :
    ∃ c, deciAt next (ds ++ x) =
      if atoi ds ≥ 1 <<< 16 then some (.error c) else numberAt .deci c ds x := by
  obtain ⟨c, hc⟩ := getDigits_append hds next [] x
  rw [hlen] at hc
  exact ⟨c, by rw [deciAt, hc]; rfl⟩

theorem hexi_cases (next : UInt8) (s : List UInt8) :
    (∃ ds x, s = ds ++ x ∧ ds.length = 4 ∧ (∀ c ∈ ds, isHexiDigit c = true) ∧ Separated x) ∨
      ∃ e, hexiAt next s = some (.error e) := by
  rcases getDigits_cases (p := isHexiDigit) (by decide) 4 next [] s with
    ⟨ds, x, rfl, hlen, hds⟩ | ⟨e, he⟩
  · by_cases hsep : Separated x
    · exact .inl ⟨ds, x, rfl, hlen, hds, hsep⟩
    · obtain ⟨c, hc⟩ := hexiAt_digits hlen hds next x
      exact .inr ⟨c, by rw [hc, numberAt_not_separated hsep]⟩
  · exact .inr ⟨e, by rw [hexiAt, he]⟩

theorem deci_cases (next : UInt8) (s : List UInt8) :
    (∃ ds x, s = ds ++ x ∧ ds.length = 5 ∧ (∀ c ∈ ds, isdigit c = true) ∧ atoi ds < 1 <<< 16 ∧
      Separated x) ∨ ∃ e, deciAt next s = some (.error e) := by
  rcases getDigits_cases (p := isdigit) (by decide) 5 next [] s with
    ⟨ds, x, rfl, hlen, hds⟩ | ⟨e, he⟩
  · obtain ⟨c, hc⟩ := deciAt_digits hlen hds next x
    by_cases hlt : atoi ds < 1 <<< 16
    · rw [if_neg (Nat.not_le.mpr hlt)] at hc
      by_cases hsep : Separated x
      · exact .inl ⟨ds, x, rfl, hlen, hds, hlt, hsep⟩
      · exact .inr ⟨c, by rw [hc, numberAt_not_separated hsep]⟩
    · rw [if_pos (Nat.not_lt.mp hlt)] at hc
      exact .inr ⟨c, hc⟩
  · exact .inr ⟨e, by rw [deciAt, he]⟩

theorem Separated.not_identChar {x : List UInt8} (h : Separated x) :
    ∀ d ∈ x.head?, isIdentChar d = false := by
  obtain ⟨c, hc, hsep⟩ := h
  intro d hd
  rw [Option.mem_unique hd hc]
  exact isSeparator_not_identChar c hsep

theorem Separated.unread_eq {x : List UInt8} (h : Separated x) : unread x = x :=
  unread_of_ne (isSeparator_ne_eof _ (separated_iff.mp h))

section
variable {get : List UInt8 → Option TokType}

theorem identAt_append {v x : List UInt8} (hv : ∀ d ∈ v, isIdentChar d = true)
    (hx : ∀ d ∈ x.head?, isIdentChar d = false) (c : UInt8) :
    identAt get c (v ++ x) = if isSeparator (getc (unread x)).1 then
      (afterGap (unread x)).map fun r => .ok (⟨identType get (c :: v), c :: v⟩, r)
      else some (.error (getc x).1) := by
  unfold identAt
  rw [dropWhile_append_stop hv hx, takeWhile_append_stop hv hx]

theorem tokenAt_cons (c : UInt8) (s : List UInt8) : tokenAt get (c :: s) =
    if c = eof then some (.ok (⟨.tokEof, [c]⟩, s))
    else if c = newline then (afterLayout s).map fun r => .ok (⟨.newline, [c]⟩, r)
    else
      match punctType c with
      | some type => (afterGap s).map fun r => .ok (⟨type, [c]⟩, r)
      | none =>
        if c = '#'.toUInt8 then (hexiAt c s).map (Except.mapError .hexi)
        else if c = '$'.toUInt8 then (deciAt c s).map (Except.mapError .deci)
        else if isIdentStart c then (identAt get c s).map (Except.mapError .identLike)
        else some (.error (.other c)) := rfl

theorem tokenAt_newline (s : List UInt8) : tokenAt get (newline :: s) =
    (afterLayout s).map fun r => .ok (⟨.newline, [newline]⟩, r) := rfl

theorem tokenAt_hexi (s : List UInt8) : tokenAt get ('#'.toUInt8 :: s) =
    (hexiAt '#'.toUInt8 s).map (Except.mapError .hexi) := rfl

theorem tokenAt_deci (s : List UInt8) : tokenAt get ('$'.toUInt8 :: s) =
    (deciAt '$'.toUInt8 s).map (Except.mapError .deci) := rfl

theorem punctType_ne : ∀ c, punctType c ≠ none → c ≠ eof ∧ c ≠ newline := by decide +kernel

theorem tokenAt_punct {c : UInt8} {type : TokType} (h : punctType c = some type)
    (s : List UInt8) :
    tokenAt get (c :: s) = (afterGap s).map fun r => .ok (⟨type, [c]⟩, r) := by
  obtain ⟨heof, hnewline⟩ := punctType_ne c (by rw [h]; simp)
  rw [tokenAt_cons, if_neg heof, if_neg hnewline, h]

theorem isIdentStart_only : ∀ c, isIdentStart c = true → c ≠ eof ∧ c ≠ newline ∧
    punctType c = none ∧ c ≠ '#'.toUInt8 ∧ c ≠ '$'.toUInt8 := by decide +kernel

theorem tokenAt_ident {c : UInt8} (h : isIdentStart c = true) (s : List UInt8) :
    tokenAt get (c :: s) = (identAt get c s).map (Except.mapError .identLike) := by
  obtain ⟨heof, hnewline, hpunct, hhexi, hdeci⟩ := isIdentStart_only c h
  rw [tokenAt_cons, if_neg heof, if_neg hnewline, hpunct]
  dsimp only
  rw [if_neg hhexi, if_neg hdeci, if_pos h]

theorem Lexeme.tokenAt_eq {t : Tok} {u x : List UInt8} (h : Lexeme get t u x) :
    tokenAt get (u ++ x) = (afterGap x).map fun r => .ok (t, r) := by
  have hmap {f : UInt8 → LexError} : ((afterGap x).map fun r => Except.ok (t, r)).map
      (Except.mapError f) = (afterGap x).map fun r => .ok (t, r) := by
    rw [Option.map_map]
    rfl
  cases h with
  | punct hc => exact tokenAt_punct hc x
  | @hexi ds _ hlen hds hsep =>
    obtain ⟨c, hc⟩ := hexiAt_digits hlen hds '#'.toUInt8 x
    rw [List.cons_append, tokenAt_hexi, hc, numberAt_separated hsep]
    exact hmap
  | @deci ds _ hlen hds hlt hsep =>
    obtain ⟨c, hc⟩ := deciAt_digits hlen hds '$'.toUInt8 x
    rw [List.cons_append, tokenAt_deci, hc, if_neg (Nat.not_le.mpr hlt), numberAt_separated hsep]
    exact hmap
  | ident hc hv hsep =>
    rw [List.cons_append, tokenAt_ident hc, identAt_append hv hsep.not_identChar, hsep.unread_eq,
      if_pos (separated_iff.mp hsep)]
    exact hmap
  | @identLost c v _ hc hv hsep =>
    have hx : ∀ d ∈ (eof :: x).head?, isIdentChar d = false := by
      rintro d ⟨⟩
      decide
    rw [List.append_assoc, List.cons_append, tokenAt_ident hc, List.singleton_append,
      identAt_append hv hx, show unread (eof :: x) = x from rfl, if_pos (separated_iff.mp hsep)]
    exact hmap

theorem ident_cases (get : List UInt8 → Option TokType) {c : UInt8} (hc : isIdentStart c = true)
    (s : List UInt8) :
    (∃ t u x, c :: s = u ++ x ∧ Lexeme get t u x) ∨ ∃ e, identAt get c s = some (.error e) := by
  obtain ⟨v, x, rfl, hv, hx⟩ := exists_span isIdentChar s
  by_cases hsep : Separated (unread x)
  · by_cases hlost : (getc x).1 = eof
    · cases x with
      | nil =>
        obtain ⟨d, hd, -⟩ := hsep
        cases hd
      | cons d x =>
        obtain rfl : d = eof := hlost
        exact .inl ⟨_, c :: v ++ [eof], x, by simp, .identLost hc hv hsep⟩
    · rw [unread_of_ne hlost] at hsep
      exact .inl ⟨_, c :: v, x, rfl, .ident hc hv hsep⟩
  · refine .inr ⟨(getc x).1, ?_⟩
    rw [identAt_append hv hx, if_neg fun h => hsep (separated_iff.mpr h)]

/-- Every text is empty, starts with the byte 255, a newline or a lexeme, or is an error. -/
theorem lexeme_cases (get : List UInt8 → Option TokType) (s : List UInt8) :
    s = [] ∨ (∃ r, s = eof :: r) ∨ (∃ r, s = newline :: r) ∨
    (∃ t u x, s = u ++ x ∧ Lexeme get t u x) ∨ ∃ e, tokenAt get s = some (.error e) := by
  cases s with
  | nil => exact .inl rfl
  | cons c s =>
  refine .inr ?_
  by_cases heof : c = eof
  · exact .inl ⟨s, by rw [heof]⟩
  refine .inr ?_
  by_cases hnewline : c = newline
  · exact .inl ⟨s, by rw [hnewline]⟩
  refine .inr ?_
  cases hpunct : punctType c with
  | some type => exact .inl ⟨_, [c], s, rfl, .punct hpunct⟩
  | none =>
  by_cases hhexi : c = '#'.toUInt8
  · subst hhexi
    rcases hexi_cases '#'.toUInt8 s with ⟨ds, x, rfl, hlen, hds, hsep⟩ | ⟨e, he⟩
    · exact .inl ⟨_, '#'.toUInt8 :: ds, x, rfl, .hexi hlen hds hsep⟩
    · exact .inr ⟨.hexi e, by rw [tokenAt_hexi, he]; rfl⟩
  by_cases hdeci : c = '$'.toUInt8
  · subst hdeci
    rcases deci_cases '$'.toUInt8 s with ⟨ds, x, rfl, hlen, hds, hlt, hsep⟩ | ⟨e, he⟩
    · exact .inl ⟨_, '$'.toUInt8 :: ds, x, rfl, .deci hlen hds hlt hsep⟩
    · exact .inr ⟨.deci e, by rw [tokenAt_deci, he]; rfl⟩
  by_cases hident : isIdentStart c = true
  · rcases ident_cases get hident s with hlexeme | ⟨e, he⟩
    · exact .inl hlexeme
    · exact .inr ⟨.identLike e, by rw [tokenAt_ident hident, he]; rfl⟩
  · refine .inr ⟨.other c, ?_⟩
    rw [tokenAt_cons, if_neg heof, if_neg hnewline, hpunct]
    dsimp only
    rw [if_neg hhexi, if_neg hdeci, if_neg hident]

theorem Token.tokenAt_eq {t : Tok} {u r : List UInt8} (h : Token get t u r) :
    tokenAt get (u ++ r) = some (.ok (t, r)) := by
  cases h with
  | endOfFile => rfl
  | eofByte => rfl
  | newline hw => rw [List.cons_append, tokenAt_newline, hw.afterLayout, Option.map_some]
  | lexeme hu hw => rw [List.append_assoc, hu.tokenAt_eq, hw.afterGap, Option.map_some]

theorem OpenComment.tokenAt_eq {s : List UInt8} (h : OpenComment get s) :
    tokenAt get s = none := by
  cases h with
  | newline hw hv => rw [List.cons_append, tokenAt_newline, afterLayout_open hw hv, Option.map_none]
  | lexeme hu hw hv => rw [hu.tokenAt_eq, afterGap_open hw hv, Option.map_none]

/-- **One call against the grammar**: a token is returned when the text starts with it, and the
call does not return when a comment is left open after the token. -/
theorem token_cases (get : List UInt8 → Option TokType) (s : List UInt8) :
    (∃ t u r, s = u ++ r ∧ Token get t u r) ∨ OpenComment get s ∨
      ∃ e, tokenAt get s = some (.error e) := by
  rcases lexeme_cases get s with
    rfl | ⟨r, rfl⟩ | ⟨r, rfl⟩ | ⟨t, u, x, rfl, hu⟩ | herror
  · exact .inl ⟨_, [], [], rfl, .endOfFile⟩
  · exact .inl ⟨_, [eof], r, rfl, .eofByte⟩
  · rcases skips_cases r with ⟨w, r, rfl, hw⟩ | ⟨w, v, rfl, hw, hv⟩
    · exact .inl ⟨_, newline :: w, r, rfl, .newline hw⟩
    · exact .inr (.inl (.newline hw hv))
  · rcases gap_cases x with ⟨w, r, rfl, hw⟩ | ⟨w, v, rfl, hw, hv⟩
    · exact .inl ⟨t, u ++ w, r, by simp, .lexeme hu hw⟩
    · exact .inr (.inl (.lexeme hu hw hv))
  · exact .inr (.inr herror)

theorem tokenAt_eq_ok_iff {s r : List UInt8} {t : Tok} :
    tokenAt get s = some (.ok (t, r)) ↔ ∃ u, s = u ++ r ∧ Token get t u r := by
  refine ⟨fun h => ?_, fun ⟨u, hs, hu⟩ => by rw [hs, hu.tokenAt_eq]⟩
  rcases token_cases get s with ⟨t', u, r', rfl, hu⟩ | hopen | ⟨e, he⟩
  · cases hu.tokenAt_eq.symm.trans h
    exact ⟨u, rfl, hu⟩
  · cases hopen.tokenAt_eq.symm.trans h
  · cases he.symm.trans h

theorem tokenAt_eq_none_iff {s : List UInt8} : tokenAt get s = none ↔ OpenComment get s := by
  refine ⟨fun h => ?_, OpenComment.tokenAt_eq⟩
  rcases token_cases get s with ⟨t, u, r, rfl, hu⟩ | hopen | ⟨e, he⟩
  · cases hu.tokenAt_eq.symm.trans h
  · exact hopen
  · cases he.symm.trans h

theorem Token.text_ne_nil {t : Tok} {u r : List UInt8} (h : Token get t u r)
    (ht : t.type ≠ .tokEof) : u ≠ [] := by
  cases h with
  | endOfFile => exact absurd rfl ht
  | eofByte => exact absurd rfl ht
  | newline _ => simp
  | lexeme hu _ => cases hu <;> simp

end

end Cs370.Lexer
