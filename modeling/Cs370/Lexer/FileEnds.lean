import Cs370.Lexer.Lines

/-!
# The start and the end of a file

Layout is skipped after a token and only there. What stands before the first token is not
skipped: a file may start with a newline, which is a token and takes the layout after it along, but
not with a blank or a comment (`leading_layout_iff`). And the end of the file ends neither a word
or number nor a comment, so the last newline can be left out after a punctuation character or a
blank only (`last_newline_iff`).
-/

namespace Cs370.Lexer

section
variable {get : List UInt8 → Option TokType} {alloc : Nat → Bool}

theorem lexMain_returns_iff {s : List UInt8} {toks : List Tok} :
    (lexMain get alloc s).Returns (toks, none) ↔ Lexes get alloc 0 s (.done toks) := by
  obtain ⟨o, ho⟩ := lexes_total get alloc 0 s
  rw [ho.lexMain_denotes.returns_iff]
  constructor
  · intro h
    cases o with
    | done toks' =>
      cases h
      exact ho
    | error _ _ => cases h
    | hangs _ => cases h
  · intro h
    rw [ho.unique h]
    rfl

/-! ## Before the first token -/

def newlineTok : Tok := ⟨.newline, [newline]⟩

/-- The tokens with a newline before them, unless there is one already. -/
def withNewline (toks : List Tok) : List Tok :=
  if toks.head? = some newlineTok then toks else newlineTok :: toks

theorem Layout.append {v w : List UInt8} (hv : Layout v) (hw : Layout w) : Layout (v ++ w) := by
  induction hv with
  | nil => exact hw
  | space hc _ ih => exact .space hc ih
  | comment hv _ ih =>
    rw [List.append_assoc]
    exact .comment hv ih

theorem Skips.prepend {v w r : List UInt8} (hv : Layout v) (h : Skips w r) : Skips (v ++ w) r := by
  cases h with
  | stop hw hr => exact .stop (hv.append hw) hr
  | lost hw =>
    rw [← List.append_assoc]
    exact .lost (hv.append hw)

theorem layout_of_newline {w : List UInt8} (h : Layout (newline :: w)) : Layout w := by
  generalize hv : newline :: w = v at h
  cases h with
  | nil => cases hv
  | space _ hw =>
    cases hv
    exact hw
  | comment _ _ =>
    have hc : newline = semicolon := (List.cons.inj hv).1
    exact absurd hc (by decide)

theorem isIdentStart_not_layout : ∀ c, isIdentStart c = true →
    isspace c = false ∧ c ≠ semicolon ∧ c ≠ eof := by decide +kernel

theorem punctType_not_layout : ∀ c, punctType c ≠ none →
    isspace c = false ∧ c ≠ semicolon ∧ c ≠ eof := by decide +kernel

theorem Lexeme.head_not_layout {t : Tok} {u x : List UInt8} (h : Lexeme get t u x) :
    ∀ r, ∀ c ∈ (u ++ r).head?, isspace c = false ∧ c ≠ semicolon ∧ c ≠ eof := by
  rintro r c hc
  cases h with
  | punct hp =>
    cases hc
    exact punctType_not_layout _ (by rw [hp]; simp)
  | hexi _ _ _ =>
    cases hc
    decide
  | deci _ _ _ _ =>
    cases hc
    decide
  | ident hi _ _ =>
    cases hc
    exact isIdentStart_not_layout _ hi
  | identLost hi _ _ =>
    cases hc
    exact isIdentStart_not_layout _ hi

theorem tokenAt_layout : ∀ c, (isspace c = true ∨ c = semicolon) → c ≠ newline →
    c ≠ eof ∧ punctType c = none ∧ c ≠ '#'.toUInt8 ∧ c ≠ '$'.toUInt8 ∧ isIdentStart c = false := by
  decide +kernel

theorem tokenAt_eq_other {c : UInt8} (hc : isspace c = true ∨ c = semicolon) (hn : c ≠ newline)
    (s : List UInt8) : tokenAt get (c :: s) = some (.error (.other c)) := by
  obtain ⟨heof, hpunct, hhexi, hdeci, hident⟩ := tokenAt_layout c hc hn
  rw [tokenAt_cons, if_neg heof, if_neg hn, hpunct]
  dsimp only
  rw [if_neg hhexi, if_neg hdeci, if_neg (by simp [hident])]

theorem Layout.head {w : List UInt8} (h : Layout w) :
    ∀ c ∈ w.head?, isspace c = true ∨ c = semicolon := by
  rintro c hc
  cases h with
  | nil => cases hc
  | space hs _ =>
    cases hc
    exact .inl hs
  | comment _ _ =>
    cases hc
    exact .inr rfl

/-- Where the lexer starts within layout other than a newline, it fails. -/
theorem Layout.lexes_error {k : Nat} {w s : List UInt8} {c : UInt8} (hw : Layout w)
    (hc : w.head? = some c) (hn : c ≠ newline) (halloc : alloc k = true) :
    ∃ e, Lexes get alloc k (w ++ s) (.error [] e) := by
  obtain ⟨v, rfl⟩ := List.head?_eq_some_iff.mp hc
  refine ⟨.other c, .error ?_⟩
  rw [(call_denotes get (alloc k) _).returns_iff, callAt, if_pos halloc, List.cons_append,
    tokenAt_eq_other (hw.head c rfl) hn]

theorem Lexeme.ne_newlineTok {t : Tok} {u x : List UInt8} (h : Lexeme get t u x) :
    t ≠ newlineTok := by
  rintro rfl
  generalize ht : newlineTok = t at h
  cases h with
  | punct hp =>
    cases ht
    cases hp
  | hexi => cases ht
  | deci => cases ht
  | ident hi _ _ =>
    obtain rfl := (List.cons.inj (congrArg Tok.value ht)).1
    cases hi
  | identLost hi _ _ =>
    obtain rfl := (List.cons.inj (congrArg Tok.value ht)).1
    cases hi

theorem lexes_start {k : Nat} {s : List UInt8} {toks : List Tok} (hs : eof ∉ s)
    (h : Lexes get alloc k s (.done toks)) :
    ((∀ c ∈ s.head?, isspace c = false ∧ c ≠ semicolon ∧ c ≠ eof) ∧
      toks.head? ≠ some newlineTok) ∨
    ∃ w r toks', s = newline :: w ++ r ∧ Skips w r ∧ toks = newlineTok :: toks' ∧
      Lexes get alloc (k + 1) r (.done toks') := by
  have hcases {t : Tok} {u r : List UInt8} (htoken : Token get t u r) (hu : eof ∉ u ++ r) :
      ((∀ c ∈ (u ++ r).head?, isspace c = false ∧ c ≠ semicolon ∧ c ≠ eof) ∧ t ≠ newlineTok) ∨
        ∃ w, u = newline :: w ∧ Skips w r ∧ t = newlineTok := by
    cases htoken with
    | endOfFile => exact .inl ⟨by simp, by decide⟩
    | eofByte => exact absurd List.mem_cons_self hu
    | newline hw => exact .inr ⟨_, rfl, hw, rfl⟩
    | lexeme hlex _ =>
      rw [List.append_assoc]
      exact .inl ⟨hlex.head_not_layout _, hlex.ne_newlineTok⟩
  generalize ho : Outcome.done toks = o at h
  cases h with
  | error _ => cases ho
  | hangs _ => cases ho
  | eof hret ht =>
    obtain ⟨-, u, rfl, htoken⟩ := call_returns_ok_iff.mp hret
    cases ho
    rcases hcases htoken hs with ⟨hhead, hne⟩ | ⟨w, -, -, rfl⟩
    · exact .inl ⟨hhead, by simpa using hne⟩
    · cases ht
  | token hret ht hrest =>
    obtain ⟨-, u, rfl, htoken⟩ := call_returns_ok_iff.mp hret
    obtain ⟨toks', rfl, rfl⟩ := Outcome.after_cons_eq_done ho.symm
    rcases hcases htoken hs with ⟨hhead, hne⟩ | ⟨w, rfl, hw, rfl⟩
    · exact .inl ⟨hhead, by simpa using hne⟩
    · exact .inr ⟨w, _, toks', rfl, hw, rfl, hrest⟩

/-- A newline and layout before a text: one newline token, which takes a newline the text starts
with along. -/
theorem lexes_newline_prefix {w s : List UInt8} {toks : List Tok} (hw : Layout w) (hs : eof ∉ s)
    (h : Lexes get (fun _ => true) 0 s (.done toks)) :
    Lexes get (fun _ => true) 0 (newline :: w ++ s) (.done (withNewline toks)) := by
  have hne : newlineTok.type ≠ .tokEof := by decide
  rcases lexes_start hs h with ⟨hhead, hfirst⟩ | ⟨v, r, toks', rfl, hv, rfl, hrest⟩
  · rw [withNewline, if_neg hfirst]
    have hcall : (lexGetNextToken get true (newline :: w ++ s)).Returns (.ok (newlineTok, s)) :=
      call_returns_ok_iff.mpr ⟨rfl, newline :: w, rfl, .newline (.stop hw hhead)⟩
    have hrest : Lexes get (fun _ => true) (1 + 0) s (.done toks) := h.shift
    exact .token hcall hne hrest
  · have hskips : Skips (w ++ newline :: v) r :=
      .prepend hw (.prepend (.space (show isspace newline = true by decide) .nil) hv)
    have hcall : (lexGetNextToken get true (newline :: w ++ (newline :: v ++ r))).Returns
        (.ok (newlineTok, r)) :=
      call_returns_ok_iff.mpr ⟨rfl, newline :: (w ++ newline :: v), by simp, .newline hskips⟩
    rw [withNewline, if_pos (show (newlineTok :: toks').head? = some newlineTok from rfl)]
    exact .token hcall hne hrest

end

/-- **Leading layout**: before a text that is lexed, layout is insignificant exactly if there is
none or it starts with a newline. -/
theorem leading_layout_iff (get : List UInt8 → Option TokType) {t w : List UInt8} {ts : List Tok}
    (ht : Ascii t) (hts : (lexMain get (fun _ => true) t).Returns (ts, none)) (hw : Layout w) :
    (∃ ts', (ts' = ts ∨ ts' = withNewline ts) ∧
      (lexMain get (fun _ => true) (w ++ t)).Returns (ts', none)) ↔
      (w = [] ∨ w.head? = some newline) := by
  simp only [lexMain_returns_iff] at hts ⊢
  constructor
  · rintro ⟨ts', -, h⟩
    cases hhead : w.head? with
    | none => exact .inl (List.head?_eq_none_iff.mp hhead)
    | some c =>
      by_cases hc : c = newline
      · exact .inr (by rw [hc])
      · obtain ⟨e, he⟩ : ∃ e, Lexes get (fun _ => true) 0 (w ++ t) (.error [] e) :=
          hw.lexes_error hhead hc rfl
        cases h.unique he
  · rintro (rfl | hhead)
    · exact ⟨ts, .inl rfl, hts⟩
    · obtain ⟨v, rfl⟩ := List.head?_eq_some_iff.mp hhead
      exact ⟨withNewline ts, .inr rfl,
        lexes_newline_prefix (layout_of_newline hw) (eof_not_mem ht) hts⟩

theorem lexes_nop_line {w : List UInt8} (hw : Blanks w) (hsep : Separated (w ++ [newline])) :
    Lexes (reservedType (reservedWords.zip reservedTypes)) (fun _ => true) 0
      (bytes "nop" ++ w ++ [newline])
      (.done [⟨.nop, bytes "nop"⟩, newlineTok, ⟨.tokEof, [eof]⟩]) :=
  .token (call_returns_ok_iff.mpr ⟨rfl, _, rfl, token_nop hw hsep⟩) (by decide)
    (.token (call_returns_ok_iff.mpr ⟨rfl, [newline], rfl, .newline (.stop .nil (by simp))⟩)
      (by decide) (.eof (call_returns_ok_iff.mpr ⟨rfl, [], rfl, .endOfFile⟩) rfl))

theorem lexMain_nop :
    (lexMain (reservedType (reservedWords.zip reservedTypes)) (fun _ => true)
      (bytes "nop" ++ [newline])).Returns
        ([⟨.nop, bytes "nop"⟩, newlineTok, ⟨.tokEof, [eof]⟩], none) :=
  lexMain_returns_iff.mpr
    (lexes_nop_line (w := []) (by simp [Blanks]) ⟨newline, rfl, by decide⟩)

theorem ascii_nop_line : Ascii (bytes "nop" ++ [newline]) := by
  unfold Ascii
  decide +kernel

/-- An empty line before it. -/
theorem leading_layout_iff_nop :
    ∃ ts', (ts' = [⟨.nop, bytes "nop"⟩, newlineTok, ⟨.tokEof, [eof]⟩] ∨
      ts' = [newlineTok, ⟨.nop, bytes "nop"⟩, newlineTok, ⟨.tokEof, [eof]⟩]) ∧
      (lexMain (reservedType (reservedWords.zip reservedTypes)) (fun _ => true)
        ([newline] ++ (bytes "nop" ++ [newline]))).Returns (ts', none) :=
  (leading_layout_iff _ ascii_nop_line lexMain_nop
    (.space (c := newline) (by decide) .nil)).mpr (.inr rfl)

/-- A blank before it: the lexer does not get through. -/
theorem leading_blank_fails :
    (lexMain (reservedType (reservedWords.zip reservedTypes)) (fun _ => true)
      (bytes "nop" ++ [newline])).Returns
        ([⟨.nop, bytes "nop"⟩, newlineTok, ⟨.tokEof, [eof]⟩], none) ∧
    Layout [' '.toUInt8] ∧
    ∀ ts, ¬ (lexMain (reservedType (reservedWords.zip reservedTypes)) (fun _ => true)
      ([' '.toUInt8] ++ (bytes "nop" ++ [newline]))).Returns (ts, none) := by
  have hblank : Layout [' '.toUInt8] := .space (by decide) .nil
  refine ⟨lexMain_nop, hblank, fun ts h => ?_⟩
  obtain ⟨e, he⟩ : ∃ e, Lexes (reservedType (reservedWords.zip reservedTypes)) (fun _ => true) 0
      ([' '.toUInt8] ++ (bytes "nop" ++ [newline])) (.error [] e) :=
    hblank.lexes_error rfl (by decide) rfl
  cases (lexMain_returns_iff.mp h).unique he

/-! ## After the last token -/

/-- Every semicolon has a newline after it. -/
def CommentsEnd (t : List UInt8) : Prop := ∀ a v, t = a ++ semicolon :: v → newline ∈ v

/-- A text that may stop where it does: all comments are ended and the last character belongs to
no word or number. -/
structure Finished (t : List UInt8) : Prop where
  comments : CommentsEnd t
  last : ∀ c ∈ t.getLast?, isIdentChar c = false

theorem commentsEnd_of_not_mem {t : List UInt8} (h : semicolon ∉ t) : CommentsEnd t := by
  rintro a v rfl
  exact absurd (List.mem_append_right a List.mem_cons_self) h

theorem CommentsEnd.of_append {u y : List UInt8} (h : CommentsEnd (u ++ y)) : CommentsEnd y := by
  rintro a v rfl
  exact h (u ++ a) v (by simp)

theorem CommentsEnd.append_of {u y : List UInt8}
    (hu : ∀ a v, u = a ++ semicolon :: v → newline ∈ v ++ y) (hy : CommentsEnd y) :
    CommentsEnd (u ++ y) := by
  intro a v h
  rcases List.append_eq_append_iff.mp h with ⟨b, rfl, hb⟩ | ⟨b, rfl, hb⟩
  · exact hy b v hb
  · cases b with
    | nil => exact hy [] v hb.symm
    | cons c b =>
      obtain ⟨rfl, rfl⟩ := List.cons.inj hb
      exact hu a b rfl

theorem CommentsEnd.append {u y : List UInt8} (hu : CommentsEnd u) (hy : CommentsEnd y) :
    CommentsEnd (u ++ y) :=
  hy.append_of fun a v h => List.mem_append_left y (hu a v h)

theorem CommentsEnd.cons {c : UInt8} {w : List UInt8} (hc : semicolon ≠ c) (h : CommentsEnd w) :
    CommentsEnd (c :: w) :=
  (commentsEnd_of_not_mem (t := [c]) (by simpa using hc)).append h

theorem Layout.commentsEnd {w : List UInt8} (h : Layout w) : CommentsEnd w := by
  induction h with
  | nil => exact commentsEnd_of_not_mem List.not_mem_nil
  | space hc _ ih =>
    refine ih.cons ?_
    rintro rfl
    cases hc
  | comment _ _ ih =>
    refine CommentsEnd.append_of (fun a b _ => ?_) (ih.cons (by decide))
    exact List.mem_append_right b List.mem_cons_self

theorem Blanks.semicolon_not_mem {w : List UInt8} (h : Blanks w) : semicolon ∉ w :=
  fun hmem => absurd (h _ hmem) (by decide)

theorem Skips.commentsEnd {w r : List UInt8} (h : Skips w r) : CommentsEnd w := by
  cases h with
  | stop hw _ => exact hw.commentsEnd
  | lost hw => exact hw.commentsEnd.append (commentsEnd_of_not_mem (by decide))

section
variable {get : List UInt8 → Option TokType} {alloc : Nat → Bool}

theorem Token.commentsEnd {t : Tok} {u r : List UInt8} (h : Token get t u r) :
    r.head? = some Lexer.newline ∨ CommentsEnd u := by
  cases h with
  | endOfFile => exact .inr (commentsEnd_of_not_mem List.not_mem_nil)
  | eofByte => exact .inr (commentsEnd_of_not_mem (by decide))
  | newline hw => exact .inr (hw.commentsEnd.cons (by decide))
  | lexeme hu hw =>
    have hlex := commentsEnd_of_not_mem hu.semicolon_not_mem
    cases hw with
    | stop hw _ => exact .inr (hlex.append (commentsEnd_of_not_mem hw.semicolon_not_mem))
    | lost hw =>
      refine .inr (hlex.append ((commentsEnd_of_not_mem hw.semicolon_not_mem).append ?_))
      exact commentsEnd_of_not_mem (by decide)
    | comment _ _ hr => exact .inl hr

theorem Token.finished_append_iff {t : Tok} {u y r : List UInt8} (h : Token get t u r)
    (hy : y ≠ []) (hr : r.head? = y.head?) : Finished (u ++ y) ↔ Finished y := by
  have hlast : (u ++ y).getLast? = y.getLast? := by
    rw [List.getLast?_append_of_ne_nil u hy]
  constructor
  · intro hf
    refine ⟨hf.comments.of_append, ?_⟩
    rw [← hlast]
    exact hf.last
  · intro hf
    refine ⟨?_, ?_⟩
    · rcases h.commentsEnd with hnewline | hu
      · refine hf.comments.append_of fun a v _ => List.mem_append_right v ?_
        rw [hr] at hnewline
        exact List.mem_of_mem_head? hnewline
      · exact hu.append hf.comments
    · rw [hlast]
      exact hf.last

theorem punctType_ne_value : ∀ c, punctType c ≠ some .tokEof ∧ punctType c ≠ some .hexi ∧
    punctType c ≠ some .deci := by decide +kernel

theorem identType_ne_of_get {type : TokType} {v : List UInt8} (hreg : type ≠ .register)
    (hident : type ≠ .ident) (hget : get v ≠ some type) : identType get v ≠ type := by
  unfold identType
  split
  · exact hreg.symm
  · cases hv : get v with
    | none => exact hident.symm
    | some type' =>
      rintro rfl
      exact hget hv

theorem Lexeme.type_ne_tokEof (hget : ∀ k, get k ≠ some .tokEof) {t : Tok} {u x : List UInt8}
    (h : Lexeme get t u x) : t.type ≠ .tokEof := by
  have hident (v : List UInt8) : identType get v ≠ .tokEof :=
    identType_ne_of_get TokType.noConfusion TokType.noConfusion (hget v)
  cases h with
  | punct hc =>
    rintro rfl
    exact (punctType_ne_value _).1 hc
  | hexi => exact TokType.noConfusion
  | deci => exact TokType.noConfusion
  | ident => exact hident _
  | identLost => exact hident _

theorem layout_snoc_cases {w : List UInt8} (h : Layout (w ++ [newline])) :
    Layout w ∨ ∃ v c, w = v ++ semicolon :: c ∧ Layout v ∧ newline ∉ c := by
  rcases layout_cases w with ⟨v, r, rfl, hv, hr⟩ | hopen
  · left
    cases r with
    | nil =>
      rw [List.append_nil]
      exact hv
    | cons c r =>
      have hend : layoutEnd false (v ++ c :: r ++ [newline]) = some [] := by
        have h' := h.layoutEnd (r := [])
        rwa [List.append_nil] at h'
      rw [List.append_assoc, hv.layoutEnd, List.cons_append, layoutEnd_stop] at hend
      · cases hend
      · rintro d ⟨⟩
        exact hr c rfl
  · exact .inr hopen

theorem isIdentChar_only : ∀ c, isIdentChar c = true → punctType c = none ∧ c ≠ eof := by
  decide +kernel

/-- A word or number at the end of the file is an error: what has to follow it is missing. -/
theorem Lexeme.unfinished {t : Tok} {u x : List UInt8} (h : Lexeme get t u x) {c : UInt8}
    (hc : u.getLast? = some c) (hident : isIdentChar c = true) :
    ∃ e, tokenAt get u = some (.error e) := by
  have hsep : ¬ Separated [] := by
    rintro ⟨_, ⟨⟩, -⟩
  cases h with
  | @punct d _ _ hp =>
    obtain rfl : d = c := Option.some.inj hc
    rw [(isIdentChar_only d hident).1] at hp
    cases hp
  | @hexi ds _ hlen hds _ =>
    obtain ⟨d, hd⟩ := hexiAt_digits hlen hds '#'.toUInt8 []
    rw [List.append_nil, numberAt_not_separated hsep] at hd
    exact ⟨.hexi d, by rw [tokenAt_hexi, hd]; rfl⟩
  | @deci ds _ hlen hds hlt _ =>
    obtain ⟨d, hd⟩ := deciAt_digits hlen hds '$'.toUInt8 []
    rw [List.append_nil, if_neg (Nat.not_le.mpr hlt), numberAt_not_separated hsep] at hd
    exact ⟨.deci d, by rw [tokenAt_deci, hd]; rfl⟩
  | @ident d v _ hd hv _ =>
    have hat : identAt get d (v ++ []) = _ := identAt_append hv (by simp) d
    rw [List.append_nil, show unread [] = [] from rfl,
      if_neg fun h => hsep (separated_iff.mpr h)] at hat
    exact ⟨.identLike (getc []).1, by rw [tokenAt_ident hd, hat]; rfl⟩
  | identLost =>
    rw [List.getLast?_concat] at hc
    cases hc
    exact absurd rfl (isIdentChar_only eof hident).2

theorem isIdentChar_of_digit : ∀ c, isHexiDigit c = true ∨ isdigit c = true ∨
    isIdentStart c = true → isIdentChar c = true := by decide +kernel

/-- A lexeme is a punctuation character, which anything may follow, or ends in a character of a
word, or has lost a byte 255. -/
theorem Lexeme.last_cases {t : Tok} {u x : List UInt8} (h : Lexeme get t u x) :
    ((∀ x', Lexeme get t u x') ∧ ∀ c ∈ u.getLast?, isIdentChar c = false) ∨
      (∃ c, u.getLast? = some c ∧ isIdentChar c = true) ∨ eof ∈ u := by
  have hlast {p : UInt8 → Bool} {d : UInt8} {v : List UInt8} (hv : ∀ c ∈ v, p c = true)
      (hp : ∀ c, p c = true → isIdentChar c = true) (hd : v = [] → isIdentChar d = true) :
      ∃ c, (d :: v).getLast? = some c ∧ isIdentChar c = true := by
    rcases List.eq_nil_or_concat' v with rfl | ⟨v, c, rfl⟩
    · exact ⟨d, rfl, hd rfl⟩
    · rw [← List.cons_append, List.getLast?_concat]
      exact ⟨c, rfl, hp c (hv c (List.mem_append_right v (List.mem_singleton_self c)))⟩
  cases h with
  | @punct d _ _ hd =>
    refine .inl ⟨fun _ => .punct hd, fun c hc => ?_⟩
    obtain rfl : d = c := Option.some.inj hc
    refine Bool.eq_false_iff.mpr fun hident => ?_
    rw [(isIdentChar_only d hident).1] at hd
    cases hd
  | hexi hlen hds _ =>
    refine .inr (.inl (hlast hds (fun c hc => isIdentChar_of_digit c (.inl hc)) ?_))
    rintro rfl
    cases hlen
  | deci hlen hds _ _ =>
    refine .inr (.inl (hlast hds (fun c hc => isIdentChar_of_digit c (.inr (.inl hc))) ?_))
    rintro rfl
    cases hlen
  | ident hc hv _ =>
    exact .inr (.inl (hlast hv (fun _ h => h) fun _ => isIdentChar_of_digit _ (.inr (.inr hc))))
  | identLost => exact .inr (.inr (List.mem_append_right _ (List.mem_singleton_self eof)))

/-! ## Without the last newline -/

def eofTok : Tok := ⟨.tokEof, [eof]⟩

/-- The tokens without their last newline. -/
def WithoutLast (ts ts' : List Tok) : Prop :=
  ∃ us, ts = us ++ [newlineTok, eofTok] ∧ ts' = us ++ [eofTok]

/-- The text is lexed to these tokens, or to them without their last newline. -/
def LexesUpToLast (get : List UInt8 → Option TokType) (alloc : Nat → Bool) (k : Nat)
    (t : List UInt8) (ts : List Tok) : Prop :=
  ∃ ts', (ts' = ts ∨ WithoutLast ts ts') ∧ Lexes get alloc k t (.done ts')

theorem not_lexesUpToLast {k : Nat} {t : List UInt8} {ts : List Tok} {o : Outcome}
    (h : Lexes get alloc k t o) (ho : ∀ ts, o ≠ .done ts) : ¬ LexesUpToLast get alloc k t ts := by
  rintro ⟨ts', -, h'⟩
  exact ho ts' (h.unique h')

theorem lexesUpToLast_cons_iff {k : Nat} {s r : List UInt8} {t : Tok} {ts : List Tok}
    (hret : (lexGetNextToken get (alloc k) s).Returns (.ok (t, r))) (ht : t.type ≠ .tokEof) :
    LexesUpToLast get alloc k s (t :: ts) ↔ LexesUpToLast get alloc (k + 1) r ts := by
  constructor
  · rintro ⟨ts', hts, h⟩
    obtain ⟨o, ho⟩ := lexes_total get alloc (k + 1) r
    obtain ⟨us, rfl, rfl⟩ := Outcome.after_cons_eq_done ((Lexes.token hret ht ho).unique h)
    refine ⟨us, ?_, ho⟩
    rcases hts with hts | ⟨vs, hts, hus⟩
    · exact .inl (List.cons.inj hts).2
    · cases vs with
      | nil =>
        obtain rfl : t = eofTok := (List.cons.inj hus).1
        exact absurd rfl ht
      | cons v vs => exact .inr ⟨vs, (List.cons.inj hts).2, (List.cons.inj hus).2⟩
  · rintro ⟨ts', hts, h⟩
    refine ⟨t :: ts', ?_, .token hret ht h⟩
    rcases hts with rfl | ⟨us, rfl, rfl⟩
    · exact .inl rfl
    · exact .inr ⟨t :: us, rfl, rfl⟩

theorem lexes_eof {k : Nat} (halloc : alloc k = true) : Lexes get alloc k [] (.done [eofTok]) :=
  .eof (call_returns_ok_iff.mpr ⟨halloc, [], rfl, .endOfFile⟩) rfl

theorem alloc_of_done {k : Nat} {s : List UInt8} {ts : List Tok}
    (h : Lexes get alloc k s (.done ts)) : alloc k = true := by
  cases halloc : alloc k with
  | true => rfl
  | false =>
    have herror : Lexes get alloc k s (.error [] .outOfMem) := by
      refine .error ?_
      rw [halloc]
      exact lexGetNextToken_noMem get s
    cases h.unique herror

theorem lexes_nil_eq {k : Nat} {ts : List Tok} (h : Lexes get alloc k [] (.done ts)) :
    ts = [eofTok] := by
  cases h.unique (lexes_eof (alloc_of_done h))
  rfl

theorem lexes_newline_eq {k : Nat} {ts : List Tok} (h : Lexes get alloc k [newline] (.done ts)) :
    alloc (k + 1) = true ∧ ts = [newlineTok, eofTok] := by
  rcases lexes_start (by decide) h with ⟨hhead, -⟩ | ⟨w, r, ts', hs, -, rfl, hrest⟩
  · exact absurd (hhead newline rfl).1 (by decide)
  · obtain ⟨-, rfl⟩ := List.append_eq_nil_iff.mp (List.cons.inj hs).2.symm
    exact ⟨alloc_of_done hrest, by rw [lexes_nil_eq hrest]⟩

theorem isspace_not_identChar : ∀ c, isspace c = true → isIdentChar c = false := by decide +kernel

theorem Layout.getLast {w : List UInt8} (h : Layout w) :
    ∀ c ∈ w.getLast?, isIdentChar c = false := by
  have hspace {c : UInt8} {w : List UInt8} (hc : isspace c = true)
      (hw : ∀ d ∈ w.getLast?, isIdentChar d = false) :
      ∀ d ∈ (c :: w).getLast?, isIdentChar d = false := by
    rcases List.eq_nil_or_concat' w with rfl | ⟨v, e, rfl⟩
    · intro d hd
      obtain rfl : c = d := Option.some.inj hd
      exact isspace_not_identChar c hc
    · rw [← List.cons_append, List.getLast?_concat]
      rwa [List.getLast?_concat] at hw
  induction h with
  | nil => exact fun c hc => by cases hc
  | space hc _ ih => exact hspace hc ih
  | comment _ _ ih =>
    rw [List.getLast?_append_of_ne_nil _ (List.cons_ne_nil _ _)]
    exact hspace (show isspace newline = true by decide) ih

theorem Layout.finished {w : List UInt8} (h : Layout w) : Finished w :=
  ⟨h.commentsEnd, h.getLast⟩

theorem not_finished_open {a v : List UInt8} (hv : newline ∉ v) :
    ¬ Finished (a ++ semicolon :: v) :=
  fun h => hv (h.comments a v rfl)

theorem lexesUpToLast_newline_iff {k : Nat} {t w : List UInt8} (halloc : alloc k = true)
    (halloc' : alloc (k + 1) = true) (hw : Layout w) (h : newline :: w = t ++ [newline]) :
    LexesUpToLast get alloc k t [newlineTok, eofTok] ↔ Finished t := by
  cases t with
  | nil => exact iff_of_true ⟨[eofTok], .inr ⟨[], rfl, rfl⟩, lexes_eof halloc⟩ Layout.nil.finished
  | cons c t =>
    obtain ⟨rfl, rfl⟩ := List.cons.inj h
    rcases layout_snoc_cases hw with ht | ⟨v, c, rfl, hv, hc⟩
    · have hcall : (lexGetNextToken get (alloc k) (newline :: t)).Returns (.ok (newlineTok, [])) :=
        call_returns_ok_iff.mpr ⟨halloc, newline :: t, by simp, .newline (.stop ht (by simp))⟩
      refine iff_of_true ⟨_, .inl rfl, .token hcall (by decide) (lexes_eof halloc')⟩ ?_
      exact (ht.space (show isspace newline = true by decide)).finished
    · refine iff_of_false (not_lexesUpToLast (.hangs ?_) fun _ => Outcome.noConfusion) ?_
      · exact call_hangs_iff.mpr ⟨halloc, .newline hv hc⟩
      · rw [← List.cons_append]
        exact not_finished_open hc

theorem lexesUpToLast_lexeme_iff {k : Nat} {t : Tok} {u w : List UInt8} (halloc : alloc k = true)
    (halloc' : alloc (k + 1) = true) (hu : Lexeme get t u (w ++ [newline])) (ht : t.type ≠ .tokEof)
    (hw : Gap w [newline]) (heof : eof ∉ u ++ w) :
    LexesUpToLast get alloc k (u ++ w) [t, newlineTok, eofTok] ↔ Finished (u ++ w) := by
  have hdone (hu' : Lexeme get t u w) (hw' : Blanks w) :
      LexesUpToLast get alloc k (u ++ w) [t, newlineTok, eofTok] := by
    have htoken : Token get t (u ++ w) [] := by
      refine .lexeme ?_ (.stop hw' (by simp))
      rwa [List.append_nil]
    refine ⟨[t, eofTok], .inr ⟨[t], rfl, rfl⟩, .token ?_ ht (lexes_eof halloc')⟩
    exact call_returns_ok_iff.mpr ⟨halloc, _, (List.append_nil _).symm, htoken⟩
  cases hw with
  | lost => exact absurd (by simp) heof
  | @comment b v _ hb hv _ =>
    have hu' : Lexeme get t u (b ++ semicolon :: v) :=
      hu.of_head (by rw [List.append_assoc]; exact head?_append_congr rfl)
    refine iff_of_false (not_lexesUpToLast (.hangs ?_) fun _ => Outcome.noConfusion) ?_
    · exact call_hangs_iff.mpr ⟨halloc, .lexeme hu' hb hv⟩
    · rw [← List.append_assoc]
      exact not_finished_open hv
  | stop hw _ =>
    have hcomments : CommentsEnd (u ++ w) :=
      (commentsEnd_of_not_mem hu.semicolon_not_mem).append
        (commentsEnd_of_not_mem hw.semicolon_not_mem)
    rcases List.eq_nil_or_concat' w with rfl | ⟨v, c, rfl⟩
    · rw [List.append_nil] at *
      rcases hu.last_cases with ⟨hany, hlast⟩ | ⟨c, hc, hident⟩ | hmem
      · exact iff_of_true (hdone (hany []) hw) ⟨hcomments, hlast⟩
      · obtain ⟨e, he⟩ := hu.unfinished hc hident
        refine iff_of_false (not_lexesUpToLast (.error (e := e) ?_) fun _ => Outcome.noConfusion) ?_
        · rw [(call_denotes get _ _).returns_iff, callAt, if_pos halloc, he]
        · intro hf
          rw [hf.last c hc] at hident
          cases hident
      · exact absurd hmem heof
    · refine iff_of_true (hdone (hu.of_head ?_) hw) ⟨hcomments, ?_⟩
      · cases v <;> rfl
      · rw [← List.append_assoc, List.getLast?_concat]
        rintro d ⟨⟩
        have hc : isBlank c = true := hw c (List.mem_append_right v (List.mem_singleton_self c))
        exact isspace_not_identChar c (isspace_of_isBlank hc)

theorem Token.lexeme_of_newline {t : Tok} {u : List UInt8} (h : Token get t u [Lexer.newline])
    (hu : eof ∉ u) :
    ∃ v w, u = v ++ w ∧ Lexeme get t v (w ++ [Lexer.newline]) ∧ Gap w [Lexer.newline] := by
  generalize hr : [Lexer.newline] = r at h
  cases h with
  | endOfFile => cases hr
  | eofByte => exact absurd List.mem_cons_self hu
  | newline hw =>
    cases hw with
    | stop _ hstop =>
      subst hr
      exact absurd (hstop _ rfl).1 (by decide)
    | lost _ => exact absurd (by simp) hu
  | lexeme hlex hw =>
    subst hr
    exact ⟨_, _, rfl, hlex, hw⟩

/-- The text without its last newline, token by token. -/
theorem lexesUpToLast_iff (hget : ∀ k, get k ≠ some .tokEof) {k : Nat} {s : List UInt8}
    {o : Outcome} (h : Lexes get alloc k s o) {t : List UInt8} {ts : List Tok}
    (hs : s = t ++ [newline]) (ho : o = .done ts) (ht : eof ∉ t) :
    LexesUpToLast get alloc k t ts ↔ Finished t := by
  induction h generalizing t ts with
  | error _ => cases ho
  | hangs _ => cases ho
  | @eof k s r tok hret htype =>
    obtain ⟨-, u, rfl, htoken⟩ := call_returns_ok_iff.mp hret
    cases htoken with
    | endOfFile => simp at hs
    | eofByte =>
      have hmem : eof ∈ t ++ [newline] := hs ▸ List.mem_cons_self
      simp [ht, eof_ne_newline] at hmem
    | newline _ => cases htype
    | lexeme hlex _ => exact absurd htype (hlex.type_ne_tokEof hget)
  | @token k s r tok o hret htype hrest ih =>
    obtain ⟨halloc, u, rfl, htoken⟩ := call_returns_ok_iff.mp hret
    obtain ⟨toks, rfl, rfl⟩ := Outcome.after_cons_eq_done ho
    rcases List.eq_nil_or_concat' r with rfl | ⟨y, z, rfl⟩
    · rw [List.append_nil] at hs
      subst hs
      obtain ⟨rfl, w, hw, hlayout⟩ := htoken.newline_of_end
      rw [lexes_nil_eq hrest]
      exact lexesUpToLast_newline_iff halloc (alloc_of_done hrest) hlayout hw.symm
    · rw [← List.append_assoc] at hs
      obtain ⟨rfl, hz⟩ := List.append_inj' hs rfl
      obtain rfl : z = newline := (List.cons.inj hz).1
      by_cases hy : y = []
      · subst hy
        rw [List.append_nil] at ht ⊢
        obtain ⟨v, w, rfl, hlex, hw⟩ := htoken.lexeme_of_newline ht
        obtain ⟨-, rfl⟩ := lexes_newline_eq hrest
        exact lexesUpToLast_lexeme_iff halloc (alloc_of_done hrest) hlex htype hw ht
      · have hhead : (y ++ [newline]).head? = y.head? := List.head?_append_of_ne_nil y hy
        have hcall : (lexGetNextToken get (alloc k) (u ++ y)).Returns (.ok (tok, y)) :=
          call_returns_ok_iff.mpr ⟨halloc, u, rfl, htoken.of_head hhead⟩
        rw [lexesUpToLast_cons_iff hcall htype, htoken.finished_append_iff hy hhead]
        exact ih rfl rfl fun h => ht (List.mem_append_right u h)

end

theorem mem_reservedTypes {k : List UInt8} {type : TokType}
    (h : reservedType (reservedWords.zip reservedTypes) k = some type) : type ∈ reservedTypes := by
  obtain ⟨p, hp, rfl⟩ := Option.map_eq_some_iff.mp h
  exact (List.of_mem_zip (List.mem_reverse.mp (List.mem_of_find?_eq_some hp))).2

/-- **The last newline**: a text that is lexed with a newline after it is lexed to the same tokens
without it, up to their last newline, exactly if every semicolon of it has a newline after it and
its last character is no letter, digit or underscore. -/
theorem last_newline_iff {μ : Type} {R : Resmap μ} (hR : R.Lawful) {lexAlloc strAlloc : Bool}
    {m : μ} (hm : lexInitialize R lexAlloc strAlloc = some m) (alloc : Nat → Bool)
    {t : List UInt8} {ts : List Tok} (ht : Ascii t)
    (hts : (lexMain (R.get m) alloc (t ++ [newline])).Returns (ts, none)) :
    (∃ ts', (ts' = ts ∨ WithoutLast ts ts') ∧ (lexMain (R.get m) alloc t).Returns (ts', none)) ↔
      (∀ a v, t = a ++ semicolon :: v → newline ∈ v) ∧
        ∀ c ∈ t.getLast?, isIdentChar c = false := by
  have hget (k : List UInt8) : R.get m k ≠ some .tokEof := by
    rw [lexInitialize_get hR hm]
    exact fun h => absurd (mem_reservedTypes h) (by decide)
  simp only [lexMain_returns_iff] at hts ⊢
  have hiff := lexesUpToLast_iff hget hts rfl rfl (eof_not_mem ht)
  exact hiff.trans ⟨fun h => ⟨h.comments, h.last⟩, fun h => ⟨h.1, h.2⟩⟩

/-- A blank after the last word of the file. -/
theorem last_newline_iff_blank :
    ∃ ts', (ts' = [⟨.nop, bytes "nop"⟩, newlineTok, ⟨.tokEof, [eof]⟩] ∨
      WithoutLast [⟨.nop, bytes "nop"⟩, newlineTok, ⟨.tokEof, [eof]⟩] ts') ∧
      (lexMain (listResmap.get (reservedWords.zip reservedTypes)) (fun _ => true)
        (bytes "nop" ++ bytes " ")).Returns (ts', none) := by
  have hblank : Blanks (bytes " ") := by
    unfold Blanks
    decide +kernel
  have hascii : Ascii (bytes "nop" ++ bytes " ") := by
    unfold Ascii
    decide +kernel
  have hline := lexMain_returns_iff.mpr (lexes_nop_line hblank ⟨' '.toUInt8, rfl, by decide⟩)
  exact (last_newline_iff listResmap_lawful
    (show lexInitialize listResmap true true = some (reservedWords.zip reservedTypes) from rfl)
    (fun _ => true) hascii hline).mpr
    ⟨commentsEnd_of_not_mem (by decide), by rintro c ⟨⟩; decide⟩

/-- Without the blank and the newline the word is an error. -/
theorem last_word_fails :
    (lexMain (reservedType (reservedWords.zip reservedTypes)) (fun _ => true)
      (bytes "nop" ++ [newline])).Returns
        ([⟨.nop, bytes "nop"⟩, newlineTok, ⟨.tokEof, [eof]⟩], none) ∧
    ∀ ts, ¬ (lexMain (reservedType (reservedWords.zip reservedTypes)) (fun _ => true)
      (bytes "nop")).Returns (ts, none) := by
  refine ⟨lexMain_nop, fun ts h => ?_⟩
  have hlex : Lexeme (reservedType (reservedWords.zip reservedTypes)) ⟨.nop, bytes "nop"⟩
      (bytes "nop") [newline] :=
    .ident (c := 'n'.toUInt8) (v := bytes "op") (by decide) (by decide +kernel)
      ⟨newline, rfl, by decide⟩
  obtain ⟨e, he⟩ := hlex.unfinished (c := 'p'.toUInt8) (by decide) (by decide)
  have herror : Lexes (reservedType (reservedWords.zip reservedTypes)) (fun _ => true) 0
      (bytes "nop") (.error [] e) := .error ((call_denotes _ true _).returns_iff.mpr he)
  cases (lexMain_returns_iff.mp h).unique herror

end Cs370.Lexer
