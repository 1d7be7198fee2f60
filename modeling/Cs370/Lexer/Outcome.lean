import Cs370.Lexer.Grammar

/-!
# What lexing a text comes to

`Lexes get alloc k s o`: with `k` tokens before it, the text `s` has the outcome `o`. Calls of
`lex_get_next_token` are made until one returns `TOK_EOF` or fails or does not return. Every text
has exactly one outcome (`lexes_total`, `Lexes.unique`), and it is what the loop of `main` comes
to (`Lexes.lexMain_denotes`, `lexMain_hangs_iff`).
-/

namespace Cs370.Lexer

open Loop

/-- The tokens returned, the `TOK_EOF` of `done` among them, and how it ends. -/
inductive Outcome where
  | done (toks : List Tok)
  | error (toks : List Tok) (e : LexError)
  | hangs (toks : List Tok)

/-- An outcome with tokens before it. -/
def Outcome.after (ts : List Tok) : Outcome → Outcome
  | .done toks => .done (ts ++ toks)
  | .error toks e => .error (ts ++ toks) e
  | .hangs toks => .hangs (ts ++ toks)

@[simp] theorem Outcome.after_nil (o : Outcome) : o.after [] = o := by
  cases o <;> rfl

@[simp] theorem Outcome.after_after (ts us : List Tok) (o : Outcome) :
    (o.after us).after ts = o.after (ts ++ us) := by
  cases o <;> simp [Outcome.after]

def Outcome.result : Outcome → Option (List Tok × Option LexError)
  | .done toks => some (toks, none)
  | .error toks e => some (toks, some e)
  | .hangs _ => none

inductive Lexes (get : List UInt8 → Option TokType) (alloc : Nat → Bool) :
    Nat → List UInt8 → Outcome → Prop where
  | eof {k : Nat} {s r : List UInt8} {t : Tok} :
      (lexGetNextToken get (alloc k) s).Returns (.ok (t, r)) → t.type = .tokEof →
      Lexes get alloc k s (.done [t])
  | error {k : Nat} {s : List UInt8} {e : LexError} :
      (lexGetNextToken get (alloc k) s).Returns (.error e) → Lexes get alloc k s (.error [] e)
  | hangs {k : Nat} {s : List UInt8} :
      (lexGetNextToken get (alloc k) s).Hangs → Lexes get alloc k s (.hangs [])
  | token {k : Nat} {s r : List UInt8} {t : Tok} {o : Outcome} :
      (lexGetNextToken get (alloc k) s).Returns (.ok (t, r)) → t.type ≠ .tokEof →
      Lexes get alloc (k + 1) r o → Lexes get alloc k s (o.after [t])

/-! ## Outcomes -/

section
variable {get : List UInt8 → Option TokType} {alloc : Nat → Bool}

/-- What a call comes to; `a` is whether its token can be allocated. -/
def callAt (get : List UInt8 → Option TokType) (a : Bool) (s : List UInt8) :
    Option (Except LexError (Tok × List UInt8)) :=
  if a then tokenAt get s else some (.error .outOfMem)

theorem call_denotes (get : List UInt8 → Option TokType) (a : Bool) (s : List UInt8) :
    (lexGetNextToken get a s).Denotes (callAt get a s) := by
  cases a with
  | true => exact lexGetNextToken_denotes get s
  | false => exact lexGetNextToken_noMem get s

theorem call_returns_ok_iff {a : Bool} {s r : List UInt8} {t : Tok} :
    (lexGetNextToken get a s).Returns (.ok (t, r)) ↔
      a = true ∧ ∃ u, s = u ++ r ∧ Token get t u r := by
  rw [(call_denotes get a s).returns_iff, ← tokenAt_eq_ok_iff]
  cases a <;> simp [callAt]

theorem call_hangs_iff {a : Bool} {s : List UInt8} :
    (lexGetNextToken get a s).Hangs ↔ a = true ∧ OpenComment get s := by
  rw [(call_denotes get a s).hangs_iff, ← tokenAt_eq_none_iff]
  cases a <;> simp [callAt]

theorem lexes_total (get : List UInt8 → Option TokType) (alloc : Nat → Bool) (k : Nat)
    (s : List UInt8) : ∃ o, Lexes get alloc k s o := by
  induction hn : s.length using Nat.strong_induction_on generalizing k s with
  | _ n ih =>
    have hcall := call_denotes get (alloc k) s
    cases hc : callAt get (alloc k) s with
    | none => exact ⟨_, .hangs (hcall.hangs_iff.mpr hc)⟩
    | some x =>
      have hret := hcall.returns_iff.mpr hc
      cases x with
      | error e => exact ⟨_, .error hret⟩
      | ok x =>
        obtain ⟨t, r⟩ := x
        by_cases ht : t.type = .tokEof
        · exact ⟨_, .eof hret ht⟩
        · obtain ⟨-, u, rfl, hu⟩ := call_returns_ok_iff.mp hret
          have hlen := List.length_pos_iff.mpr (hu.text_ne_nil ht)
          rw [List.length_append] at hn
          obtain ⟨o, ho⟩ := ih r.length (by omega) (k + 1) r rfl
          exact ⟨_, .token hret ht ho⟩

theorem Lexes.unique {k : Nat} {s : List UInt8} {o o' : Outcome} (h : Lexes get alloc k s o)
    (h' : Lexes get alloc k s o') : o = o' := by
  induction h generalizing o' with
  | @eof k s r t hret ht =>
    cases h' with
    | eof hret' _ => cases hret.unique hret'; rfl
    | error hret' => cases hret.unique hret'
    | hangs hh => exact absurd hh hret.not_hangs
    | token hret' ht' _ => cases hret.unique hret'; exact absurd ht ht'
  | @error k s e hret =>
    cases h' with
    | eof hret' _ => cases hret.unique hret'
    | error hret' => cases hret.unique hret'; rfl
    | hangs hh => exact absurd hh hret.not_hangs
    | token hret' _ _ => cases hret.unique hret'
  | @hangs k s hh =>
    cases h' with
    | eof hret _ => exact absurd hh hret.not_hangs
    | error hret => exact absurd hh hret.not_hangs
    | hangs => rfl
    | token hret _ _ => exact absurd hh hret.not_hangs
  | @token k s r t o hret ht _ ih =>
    cases h' with
    | eof hret' ht' => cases hret.unique hret'; exact absurd ht' ht
    | error hret' => cases hret.unique hret'
    | hangs hh => exact absurd hh hret.not_hangs
    | token hret' _ h' => cases hret.unique hret'; rw [ih h']

/-! ## The loop of `main` -/

/-- What an iteration does with the result of its call. -/
def mainMove (toks : List Tok) : Except LexError (Tok × List UInt8) →
    Move (List Tok × List UInt8) (List Tok × Option LexError)
  | .error e => .stop (toks, some e)
  | .ok (t, r) => if t.type = .tokEof then .stop (toks ++ [t], none) else .next (toks ++ [t], r)

theorem mainStep_denotes (toks : List Tok) (s : List UInt8) :
    (mainStep get alloc (toks, s)).Denotes
      ((callAt get (alloc toks.length) s).map (mainMove toks)) := by
  rw [Option.map_eq_bind]
  refine Comp.bind_denotes (call_denotes get _ _) fun x => ?_
  match x with
  | .error e => exact Comp.pure_denotes _
  | .ok (t, r) =>
    dsimp only [Function.comp, mainMove]
    by_cases ht : t.type = .tokEof
    · rw [if_pos ht, if_pos ht]
      exact Comp.pure_denotes _
    · rw [if_neg ht, if_neg ht]
      exact Comp.pure_denotes _

theorem mainStep_returns {toks : List Tok} {s : List UInt8}
    {x : Except LexError (Tok × List UInt8)}
    (h : (lexGetNextToken get (alloc toks.length) s).Returns x) :
    (mainStep get alloc (toks, s)).Returns (mainMove toks x) := by
  rw [(mainStep_denotes toks s).returns_iff, (call_denotes get _ _).returns_iff.mp h]
  rfl

theorem Lexes.loop_denotes {k : Nat} {s : List UInt8} {o : Outcome} (h : Lexes get alloc k s o)
    (toks : List Tok) (hk : toks.length = k) :
    (Comp.loop (mainStep get alloc) (toks, s)).Denotes (o.after toks).result := by
  induction h generalizing toks with
  | eof hret ht =>
    subst hk
    have hstep := mainStep_returns hret
    rw [mainMove, if_pos ht] at hstep
    exact Comp.loop_stop hstep
  | error hret =>
    subst hk
    refine Comp.loop_stop ?_
    rw [List.append_nil]
    exact mainStep_returns hret
  | hangs hh =>
    subst hk
    refine Comp.loop_body_hangs ?_
    rw [(mainStep_denotes _ _).hangs_iff, (call_denotes get _ _).hangs_iff.mp hh]
    rfl
  | @token k s r t o hret ht _ ih =>
    subst hk
    have hstep := mainStep_returns hret
    rw [mainMove, if_neg ht] at hstep
    have hrest := ih (toks ++ [t]) (by simp)
    rw [Outcome.after_after]
    exact Comp.loop_next hstep hrest

/-- **The loop of `main`** comes to the outcome of its text. -/
theorem Lexes.lexMain_denotes {s : List UInt8} {o : Outcome} (h : Lexes get alloc 0 s o) :
    (lexMain get alloc s).Denotes o.result := by
  have hloop := h.loop_denotes [] rfl
  rwa [Outcome.after_nil] at hloop

theorem lexMain_hangs_iff {s : List UInt8} :
    (lexMain get alloc s).Hangs ↔ ∃ toks, Lexes get alloc 0 s (.hangs toks) := by
  obtain ⟨o, ho⟩ := lexes_total get alloc 0 s
  rw [ho.lexMain_denotes.hangs_iff]
  constructor
  · intro h
    cases o with
    | done toks => cases h
    | error toks e => cases h
    | hangs toks => exact ⟨toks, ho⟩
  · rintro ⟨toks, h⟩
    rw [ho.unique h]
    rfl

end

end Cs370.Lexer
