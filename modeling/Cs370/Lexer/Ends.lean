import Cs370.Lexer.Outcome

/-!
# Texts on which the lexer does not end

The loops over a comment wait for a newline and do not look for `EOF`. `Unended get alloc k s`:
tokens are taken off `s` until one is followed by a comment that is never ended.
-/

namespace Cs370.Lexer

/-- From token `k` on, the text has an open comment after one of its tokens, with all tokens up
to it in memory. -/
inductive Unended (get : List UInt8 → Option TokType) (alloc : Nat → Bool) :
    Nat → List UInt8 → Prop where
  | here {k : Nat} {s : List UInt8} : alloc k = true → OpenComment get s →
      Unended get alloc k s
  | next {k : Nat} {t : Tok} {u r : List UInt8} : alloc k = true → Token get t u r →
      t.type ≠ .tokEof → Unended get alloc (k + 1) r → Unended get alloc k (u ++ r)

section
variable {get : List UInt8 → Option TokType} {alloc : Nat → Bool}

theorem Unended.lexes_hangs {k : Nat} {s : List UInt8} (h : Unended get alloc k s) :
    ∃ toks, Lexes get alloc k s (.hangs toks) := by
  induction h with
  | here halloc hopen => exact ⟨[], .hangs (call_hangs_iff.mpr ⟨halloc, hopen⟩)⟩
  | @next k t u r halloc htoken ht _ ih =>
    obtain ⟨toks, hrest⟩ := ih
    exact ⟨t :: toks, .token (call_returns_ok_iff.mpr ⟨halloc, u, rfl, htoken⟩) ht hrest⟩

theorem Lexes.unended {k : Nat} {s : List UInt8} {o : Outcome} (h : Lexes get alloc k s o)
    {toks : List Tok} (ho : o = .hangs toks) : Unended get alloc k s := by
  induction h generalizing toks with
  | eof => cases ho
  | error => cases ho
  | hangs hh =>
    obtain ⟨halloc, hopen⟩ := call_hangs_iff.mp hh
    exact .here halloc hopen
  | @token k s r t o hret ht _ ih =>
    obtain ⟨halloc, u, rfl, htoken⟩ := call_returns_ok_iff.mp hret
    apply Unended.next halloc htoken ht
    cases o with
    | done => cases ho
    | error => cases ho
    | hangs toks => exact ih rfl

theorem lexMain_hangs_iff_unended {s : List UInt8} :
    (lexMain get alloc s).Hangs ↔ Unended get alloc 0 s := by
  rw [lexMain_hangs_iff]
  exact ⟨fun ⟨_, h⟩ => h.unended rfl, Unended.lexes_hangs⟩

end

/-- **When the lexer ends.** A call of `lex_get_next_token` returns unless the text has a
token and then a comment that no newline ends; the loop of `main` ends unless it comes to such a
text. -/
theorem lexMain_ends_iff (get : List UInt8 → Option TokType) (alloc : Nat → Bool)
    (s : List UInt8) :
    (∀ k, (∃ x, (lexGetNextToken get (alloc k) s).Returns x) ↔
        ¬ (alloc k = true ∧ OpenComment get s)) ∧
      ((∃ x, (lexMain get alloc s).Returns x) ↔ ¬ Unended get alloc 0 s) := by
  constructor
  · intro k
    rw [Comp.exists_returns_iff, call_hangs_iff]
  · rw [Comp.exists_returns_iff, lexMain_hangs_iff_unended]

/-- The last line of a program is a comment and the file does not end in a newline. -/
theorem lexMain_comment_hangs :
    (lexGetNextToken (reservedType (reservedWords.zip reservedTypes)) true
        (bytes "halt ;end")).Hangs ∧
      (lexMain (reservedType (reservedWords.zip reservedTypes)) (fun _ => true)
        (bytes "halt ;end")).Hangs := by
  have hopen : OpenComment (reservedType (reservedWords.zip reservedTypes)) (bytes "halt ;end") :=
    .lexeme (u := bytes "halt") (w := bytes " ") (v := bytes "end")
      (.ident (by decide) (by decide +kernel) ⟨' '.toUInt8, rfl, by decide⟩)
      (by unfold Blanks; decide +kernel) (by decide)
  exact ⟨(lexGetNextToken_denotes _ _).hangs_iff.mpr hopen.tokenAt_eq,
    lexMain_hangs_iff_unended.mpr (.here rfl hopen)⟩

end Cs370.Lexer
