import Cs370.Lexer.Outcome

/-!
# Lexing line by line

The text after a newline is lexed as if it stood alone, unless it starts with what the newline
token takes with it. A token depends on the first character after it only (`Token.of_head`), so
the tokens before the cut stay what they are.
-/

namespace Cs370.Lexer

def Ascii (s : List UInt8) : Prop := ∀ c ∈ s, c < 128

theorem eof_not_mem {s : List UInt8} (hs : Ascii s) : eof ∉ s :=
  fun h => absurd (hs eof h) (by decide)

/-! ## What a token sees of the text after it -/

theorem head?_append_congr {w r r' : List UInt8} (h : r.head? = r'.head?) :
    (w ++ r).head? = (w ++ r').head? := by
  rw [List.head?_append, List.head?_append, h]

theorem Gap.of_head {w r r' : List UInt8} (h : Gap w r) (hr : r.head? = r'.head?) : Gap w r' := by
  cases h with
  | stop hw hstop => exact .stop hw (hr ▸ hstop)
  | lost hw => exact .lost hw
  | comment hw hv hnewline => exact .comment hw hv (hr ▸ hnewline)

theorem Skips.of_head {w r r' : List UInt8} (h : Skips w r) (hr : r.head? = r'.head?) :
    Skips w r' := by
  cases h with
  | stop hw hstop => exact .stop hw (hr ▸ hstop)
  | lost hw => exact .lost hw

section
variable {get : List UInt8 → Option TokType} {alloc : Nat → Bool}

theorem Lexeme.of_head {t : Tok} {u x x' : List UInt8} (h : Lexeme get t u x)
    (hx : x.head? = x'.head?) : Lexeme get t u x' := by
  have hsep (hsep : Separated x) : Separated x' := by
    unfold Separated at hsep ⊢
    rwa [← hx]
  cases h with
  | punct hc => exact .punct hc
  | hexi hlen hds h => exact .hexi hlen hds (hsep h)
  | deci hlen hds hlt h => exact .deci hlen hds hlt (hsep h)
  | ident hc hv h => exact .ident hc hv (hsep h)
  | identLost hc hv h => exact .identLost hc hv (hsep h)

/-- A token depends on the first character after it only. -/
theorem Token.of_head {t : Tok} {u r r' : List UInt8} (h : Token get t u r)
    (hr : r.head? = r'.head?) : Token get t u r' := by
  cases h with
  | endOfFile =>
    obtain rfl : r' = [] := List.head?_eq_none_iff.mp hr.symm
    exact .endOfFile
  | eofByte => exact .eofByte
  | newline hw => exact .newline (hw.of_head hr)
  | lexeme hu hw => exact .lexeme (hu.of_head (head?_append_congr hr)) (hw.of_head hr)

/-! ## The newline at the cut -/

theorem isspace_of_isBlank {c : UInt8} (h : isBlank c = true) : isspace c = true :=
  (Bool.and_eq_true_iff.mp h).1

theorem Gap.newline_not_mem {w r : List UInt8} (h : Gap w r) : newline ∉ w := by
  have hblanks {w : List UInt8} (hw : Blanks w) : newline ∉ w :=
    fun h => absurd (hw _ h) (by decide)
  cases h with
  | stop hw _ => exact hblanks hw
  | lost hw =>
    rw [List.mem_append, not_or]
    exact ⟨hblanks hw, by decide⟩
  | comment hw hv _ =>
    rw [List.mem_append, List.mem_cons, not_or, not_or]
    exact ⟨hblanks hw, by decide, hv⟩

/-- The characters of lexemes; the byte 255 is one that is lost after an identifier. -/
def isLexemeChar (c : UInt8) : Bool :=
  (punctType c).isSome || c == '#'.toUInt8 || c == '$'.toUInt8 || isIdentChar c || c == eof

theorem isLexemeChar_of_class : ∀ c, (punctType c).isSome = true ∨ isHexiDigit c = true ∨
    isdigit c = true ∨ isIdentStart c = true ∨ isIdentChar c = true → isLexemeChar c = true := by
  decide +kernel

theorem Lexeme.isLexemeChar {t : Tok} {u x : List UInt8} (h : Lexeme get t u x) :
    ∀ c ∈ u, isLexemeChar c = true := by
  have hident {c : UInt8} {v : List UInt8} (hc : isIdentStart c = true)
      (hv : ∀ d ∈ v, isIdentChar d = true) : ∀ d ∈ c :: v, Lexer.isLexemeChar d = true :=
    List.forall_mem_cons.mpr ⟨isLexemeChar_of_class c (by simp [hc]),
      fun d hd => isLexemeChar_of_class d (by simp [hv d hd])⟩
  cases h with
  | punct hc => exact List.forall_mem_singleton.mpr (isLexemeChar_of_class _ (by simp [hc]))
  | hexi _ hds _ =>
    exact List.forall_mem_cons.mpr
      ⟨by decide, fun d hd => isLexemeChar_of_class d (by simp [hds d hd])⟩
  | deci _ hds _ _ =>
    exact List.forall_mem_cons.mpr
      ⟨by decide, fun d hd => isLexemeChar_of_class d (by simp [hds d hd])⟩
  | ident hc hv _ => exact hident hc hv
  | identLost hc hv _ =>
    exact List.forall_mem_append.mpr ⟨hident hc hv, List.forall_mem_singleton.mpr (by decide)⟩

theorem Lexeme.newline_not_mem {t : Tok} {u x : List UInt8} (h : Lexeme get t u x) :
    newline ∉ u :=
  fun hmem => absurd (h.isLexemeChar _ hmem) (by decide)

theorem Lexeme.semicolon_not_mem {t : Tok} {u x : List UInt8} (h : Lexeme get t u x) :
    semicolon ∉ u :=
  fun hmem => absurd (h.isLexemeChar _ hmem) (by decide)

theorem Token.newline_of_end {t : Tok} {a : List UInt8}
    (h : Token get t (a ++ [Lexer.newline]) []) : t = ⟨.newline, [Lexer.newline]⟩ ∧
      ∃ w, a ++ [Lexer.newline] = Lexer.newline :: w ∧ Layout w := by
  generalize hu : a ++ [Lexer.newline] = u at h
  have hlast : u.getLast? = some Lexer.newline := by rw [← hu, List.getLast?_concat]
  have hmem : Lexer.newline ∈ u := hu ▸ List.mem_append_right a (List.mem_singleton_self _)
  cases h with
  | endOfFile => cases hlast
  | eofByte => cases hlast
  | newline hw =>
    cases hw with
    | stop hw _ => exact ⟨rfl, _, rfl, hw⟩
    | lost _ =>
      rw [← List.cons_append, List.getLast?_concat] at hlast
      exact absurd (Option.some.inj hlast) eof_ne_newline
  | lexeme hlex hw =>
    rcases List.mem_append.mp hmem with hmem | hmem
    · exact absurd hmem hlex.newline_not_mem
    · exact absurd hmem hw.newline_not_mem

theorem token_of_newline_end {t : Tok} {a b : List UInt8} (h : Token get t (a ++ [newline]) [])
    (hb : ∀ c ∈ b.head?, isspace c = false ∧ c ≠ semicolon ∧ c ≠ eof) :
    Token get t (a ++ [newline]) b := by
  obtain ⟨rfl, w, hw, hlayout⟩ := h.newline_of_end
  rw [hw]
  exact .newline (.stop hlayout hb)

theorem Lexeme.value_ne_eof {t : Tok} {u x : List UInt8} (h : Lexeme get t u x) :
    t.value ≠ [eof] := by
  cases h with
  | punct hc =>
    rintro ⟨⟩
    cases hc
  | hexi hlen _ _ =>
    rintro rfl
    cases hlen
  | deci hlen _ _ _ =>
    rintro rfl
    cases hlen
  | ident hc _ _ =>
    rintro ⟨⟩
    cases hc
  | identLost hc _ _ =>
    rintro ⟨⟩
    cases hc

theorem Token.eof_text {u r : List UInt8} (h : Token get ⟨.tokEof, [eof]⟩ u r) :
    u ++ r = [] ∨ eof ∈ u ++ r := by
  generalize ht : (⟨.tokEof, [eof]⟩ : Tok) = t at h
  cases h with
  | endOfFile => exact .inl rfl
  | eofByte => exact .inr List.mem_cons_self
  | newline _ => cases ht
  | lexeme hu _ => exact absurd (congrArg Tok.value ht).symm hu.value_ne_eof

theorem Lexes.nil_done {k : Nat} {toks : List Tok} (h : Lexes get alloc k [] (.done toks)) :
    ∃ t, toks = [t] := by
  generalize ho : Outcome.done toks = o at h
  generalize hs : ([] : List UInt8) = s at h
  cases h with
  | @eof _ _ _ t _ _ => exact ⟨t, Outcome.done.inj ho⟩
  | error _ => cases ho
  | hangs _ => cases ho
  | token hret ht _ =>
    obtain ⟨-, u, rfl, htoken⟩ := call_returns_ok_iff.mp hret
    exact absurd (List.append_eq_nil_iff.mp hs.symm).1 (htoken.text_ne_nil ht)

theorem Outcome.after_cons_eq_done {o : Outcome} {t : Tok} {toks : List Tok}
    (h : o.after [t] = .done toks) : ∃ toks', o = .done toks' ∧ toks = t :: toks' := by
  cases o with
  | done toks' => exact ⟨toks', rfl, (Outcome.done.inj h).symm⟩
  | error _ _ => cases h
  | hangs _ => cases h

/-- The tokens of `a` and the newline, and then what becomes of `b`. -/
theorem append_line_lexes {k : Nat} {s : List UInt8} {o : Outcome} (h : Lexes get alloc k s o)
    {a b : List UInt8} {ts : List Tok} {o' : Outcome} (hs : s = a ++ [newline])
    (ho : o = .done (ts ++ [⟨.tokEof, [eof]⟩])) (ha : eof ∉ a)
    (hb : ∀ c ∈ b.head?, isspace c = false ∧ c ≠ semicolon ∧ c ≠ eof)
    (hrest : Lexes get alloc (k + ts.length) b o') :
    Lexes get alloc k (a ++ newline :: b) (o'.after ts) := by
  induction h generalizing a ts with
  | error _ => cases ho
  | hangs _ => cases ho
  | @eof k s r t hret ht =>
    -- the end of the file is before the newline
    obtain ⟨-, u, hu, htoken⟩ := call_returns_ok_iff.mp hret
    obtain rfl : t = ⟨.tokEof, [eof]⟩ := by
      have hlast := congrArg List.getLast? (Outcome.done.inj ho)
      rw [List.getLast?_concat] at hlast
      exact Option.some.inj hlast
    rcases htoken.eof_text with hnil | hmem
    · rw [← hu, hs] at hnil
      simp at hnil
    · rw [← hu, hs, List.mem_append, List.mem_singleton] at hmem
      exact absurd hmem (not_or.mpr ⟨ha, eof_ne_newline⟩)
  | @token k s r t o hret ht hlex ih =>
    obtain ⟨halloc, u, rfl, htoken⟩ := call_returns_ok_iff.mp hret
    obtain ⟨toks, rfl, htoks⟩ := Outcome.after_cons_eq_done ho
    cases ts with
    | nil =>
      obtain rfl : t = ⟨.tokEof, [eof]⟩ := (List.cons.inj htoks).1.symm
      exact absurd rfl ht
    | cons t' ts =>
      obtain ⟨rfl, rfl⟩ := List.cons.inj htoks
      rw [List.length_cons, ← Nat.add_assoc, Nat.add_right_comm] at hrest
      rcases List.eq_nil_or_concat' r with rfl | ⟨y, z, rfl⟩
      · -- the token takes the newline
        rw [List.append_nil] at hs
        subst hs
        obtain ⟨e, he⟩ := hlex.nil_done
        have hts : ts = [] := by
          have hlen : (ts ++ [_]).length = [e].length := congrArg List.length he
          rw [List.length_append] at hlen
          exact List.length_eq_zero_iff.mp (Nat.succ.inj hlen)
        subst hts
        rw [List.append_cons]
        exact .token (call_returns_ok_iff.mpr ⟨halloc, _, rfl, token_of_newline_end htoken hb⟩)
          ht hrest
      · rw [← List.append_assoc] at hs
        obtain ⟨rfl, hz⟩ := List.append_inj' hs rfl
        obtain rfl : z = newline := (List.cons.inj hz).1
        have hhead : (y ++ [newline]).head? = (y ++ newline :: b).head? :=
          head?_append_congr rfl
        have hrest' := ih rfl rfl (fun h => ha (List.mem_append_right u h)) hrest
        rw [List.append_assoc, show o'.after (t' :: ts) = (o'.after ts).after [t'] from
          (Outcome.after_after [t'] ts o').symm]
        exact .token (call_returns_ok_iff.mpr ⟨halloc, u, rfl, htoken.of_head hhead⟩) ht hrest'

theorem Lexes.shift {n k : Nat} {s : List UInt8} {o : Outcome}
    (h : Lexes get (fun k => alloc (n + k)) k s o) : Lexes get alloc (n + k) s o := by
  induction h with
  | eof hret ht => exact .eof hret ht
  | error hret => exact .error hret
  | hangs hh => exact .hangs hh
  | token hret ht _ ih => exact .token hret ht ih

/-- **Lexing is compositional at line ends**: the outcome of `a`, a newline and `b` is the tokens
of `a` and the newline and then the outcome of `b` alone. -/
theorem lexes_append_line (get : List UInt8 → Option TokType) (alloc : Nat → Bool)
    {a b : List UInt8} (ha : Ascii a) (hb : Ascii b)
    (hstart : ∀ c ∈ b.head?, isspace c = false ∧ c ≠ semicolon) {ts : List Tok}
    (h : Lexes get alloc 0 (a ++ [newline]) (.done (ts ++ [⟨.tokEof, [eof]⟩]))) :
    ∃ o, (∀ o', Lexes get (fun k => alloc (ts.length + k)) 0 b o' ↔ o' = o) ∧
      ∀ o', Lexes get alloc 0 (a ++ newline :: b) o' ↔ o' = o.after ts := by
  obtain ⟨o, ho⟩ := lexes_total get (fun k => alloc (ts.length + k)) 0 b
  have hwhole : Lexes get alloc 0 (a ++ newline :: b) (o.after ts) := by
    apply append_line_lexes h rfl rfl (eof_not_mem ha)
    · intro c hc
      obtain ⟨hspace, hsemi⟩ := hstart c hc
      refine ⟨hspace, hsemi, ?_⟩
      rintro rfl
      exact eof_not_mem hb (List.mem_of_mem_head? hc)
    · rw [Nat.zero_add]
      exact ho.shift
  refine ⟨o, fun o' => ⟨fun h' => h'.unique ho, ?_⟩, fun o' => ⟨fun h' => h'.unique hwhole, ?_⟩⟩
  · rintro rfl
    exact ho
  · rintro rfl
    exact hwhole

theorem token_nop {w : List UInt8} (hw : Blanks w) (hsep : Separated (w ++ [newline])) :
    Token (reservedType (reservedWords.zip reservedTypes)) ⟨.nop, bytes "nop"⟩
      (bytes "nop" ++ w) [newline] :=
  .lexeme (.ident (c := 'n'.toUInt8) (v := bytes "op") (by decide) (by decide +kernel) hsep)
    (.stop hw (by rintro c ⟨⟩; decide))

/-- `nop` on the first line, and a line after it that the lexer does not get through. -/
theorem lexes_append_line_nop :
    ∃ o, (∀ o', Lexes (reservedType (reservedWords.zip reservedTypes)) (fun _ => true) 0
        (bytes "halt ;") o' ↔ o' = o) ∧
      ∀ o', Lexes (reservedType (reservedWords.zip reservedTypes)) (fun _ => true) 0
        (bytes "nop" ++ newline :: bytes "halt ;") o' ↔
          o' = o.after [⟨.nop, bytes "nop"⟩, ⟨.newline, [newline]⟩] := by
  have hnop : Token (reservedType (reservedWords.zip reservedTypes)) ⟨.nop, bytes "nop"⟩
      (bytes "nop" ++ []) [newline] :=
    token_nop (by simp [Blanks]) ⟨newline, rfl, by decide⟩
  have hnewline : Token (reservedType (reservedWords.zip reservedTypes))
      ⟨.newline, [newline]⟩ [newline] [] := .newline (.stop .nil (by simp))
  exact lexes_append_line _ (fun _ => true) (a := bytes "nop") (b := bytes "halt ;")
    (by unfold Ascii; decide +kernel) (by unfold Ascii; decide +kernel)
    (by rintro c ⟨⟩; decide)
    (.token (call_returns_ok_iff.mpr ⟨rfl, _, rfl, hnop⟩) (by decide)
      (.token (call_returns_ok_iff.mpr ⟨rfl, _, rfl, hnewline⟩) (by decide)
        (.eof (call_returns_ok_iff.mpr ⟨rfl, [], rfl, .endOfFile⟩) rfl)))

end

end Cs370.Lexer
