import Cs370.Lib.Loop

/-!
# Computations that may not end

`Comp α` is a computation with a budget: `run n` is its result when a budget of `n` is enough,
and what a budget gives a larger one gives too. The budget bounds the iterations of every loop.

`x.Returns a` and `x.Hangs` are what is seen of it: the result under some budget, or none under
any. `x.Denotes o` has both in one value, `none` for a computation that hangs, and is what the
rules are about: one for each way to build a computation (`pure_denotes`, `ite_denotes`,
`bind_denotes`) and `loop_denotes` for a loop, which hangs where an iteration leads back to its
own state. `Sim R x y` runs two computations under the same budgets.
-/

namespace Cs370

open Loop

universe u v w

structure Comp (α : Type u) where
  run : Nat → Option α
  mono : ∀ {n m : Nat} {a : α}, n ≤ m → run n = some a → run m = some a

namespace Comp

variable {α : Type u} {β : Type v} {σ : Type v} {ρ : Type w}

protected def pure (a : α) : Comp α := ⟨fun _ => some a, fun _ h => h⟩

protected def bind (x : Comp α) (f : α → Comp β) : Comp β where
  run n := (x.run n).bind fun a => (f a).run n
  mono hnm h := by
    obtain ⟨a, ha, hb⟩ := Option.bind_eq_some_iff.mp h
    exact Option.bind_eq_some_iff.mpr ⟨a, x.mono hnm ha, (f a).mono hnm hb⟩

instance : Monad Comp where
  pure := Comp.pure
  bind := Comp.bind

/-- The computation that has no result. -/
def never : Comp α := ⟨fun _ => none, nofun⟩

/-- At most `k` iterations, each with a budget of `n`. -/
def loopRun (step : σ → Comp (Move σ ρ)) (n : Nat) : Nat → σ → Option ρ
  | 0, _ => none
  | k + 1, s =>
    match (step s).run n with
    | none => none
    | some (.next s') => loopRun step n k s'
    | some (.stop r) => some r

theorem loopRun_mono {step : σ → Comp (Move σ ρ)} {n m k l : Nat} {s : σ} {r : ρ} (hnm : n ≤ m)
    (hkl : k ≤ l) (h : loopRun step n k s = some r) : loopRun step m l s = some r := by
  induction k generalizing l s with
  | zero => cases h
  | succ k ih =>
    obtain ⟨l, rfl⟩ : ∃ j, l = j + 1 := ⟨l - 1, by omega⟩
    unfold loopRun at h ⊢
    cases hs : (step s).run n with
    | none => rw [hs] at h; cases h
    | some x =>
      rw [hs] at h
      rw [(step s).mono hnm hs]
      cases x with
      | next s' => exact ih (by omega) h
      | stop r' => exact h

/-- A loop whose body decides whether there is another iteration. -/
def loop (step : σ → Comp (Move σ ρ)) (s : σ) : Comp ρ where
  run n := loopRun step n n s
  mono hnm h := loopRun_mono hnm hnm h

/-! ## What is seen of a computation -/

def Returns (x : Comp α) (a : α) : Prop := ∃ n, x.run n = some a

def Hangs (x : Comp α) : Prop := ∀ n, x.run n = none

/-- The result, or `none` when there is none. -/
def Denotes (x : Comp α) : Option α → Prop
  | some a => x.Returns a
  | none => x.Hangs

theorem Returns.unique {x : Comp α} {a b : α} (ha : x.Returns a) (hb : x.Returns b) : a = b := by
  obtain ⟨n, hn⟩ := ha
  obtain ⟨m, hm⟩ := hb
  have h1 := x.mono (Nat.le_max_left n m) hn
  have h2 := x.mono (Nat.le_max_right n m) hm
  exact Option.some.inj (h1.symm.trans h2)

theorem Returns.not_hangs {x : Comp α} {a : α} (ha : x.Returns a) : ¬ x.Hangs := by
  intro hx
  obtain ⟨n, hn⟩ := ha
  rw [hx n] at hn
  cases hn

theorem Denotes.unique {x : Comp α} {o o' : Option α} (h : x.Denotes o) (h' : x.Denotes o') :
    o = o' := by
  cases o with
  | none =>
    cases o' with
    | none => rfl
    | some b => exact absurd h (Returns.not_hangs h')
  | some a =>
    cases o' with
    | none => exact absurd h' (Returns.not_hangs h)
    | some b => rw [Returns.unique h h']

theorem Denotes.returns_iff {x : Comp α} {o : Option α} (h : x.Denotes o) {a : α} :
    x.Returns a ↔ o = some a := by
  constructor
  · intro ha
    have ha' : x.Denotes (some a) := ha
    exact h.unique ha'
  · rintro rfl
    exact h

theorem Denotes.hangs_iff {x : Comp α} {o : Option α} (h : x.Denotes o) : x.Hangs ↔ o = none := by
  constructor
  · intro hx
    have hx' : x.Denotes none := hx
    exact h.unique hx'
  · rintro rfl
    exact h

theorem exists_returns_iff {x : Comp α} : (∃ a, x.Returns a) ↔ ¬ x.Hangs := by
  refine ⟨fun ⟨_, ha⟩ => ha.not_hangs, fun h => ?_⟩
  obtain ⟨n, hn⟩ := not_forall.mp h
  obtain ⟨a, ha⟩ := Option.ne_none_iff_exists'.mp hn
  exact ⟨a, n, ha⟩

/-! ## Rules -/

@[simp] theorem returns_pure {a b : α} : (pure a : Comp α).Returns b ↔ a = b :=
  ⟨fun ⟨_, h⟩ => Option.some.inj h, fun h => ⟨0, congrArg some h⟩⟩

theorem pure_denotes (a : α) : (pure a : Comp α).Denotes (some a) := returns_pure.mpr rfl

theorem ite_denotes {c : Prop} [Decidable c] {x y : Comp α} {o o' : Option α}
    (hx : c → x.Denotes o) (hy : ¬ c → y.Denotes o') :
    (if c then x else y).Denotes (if c then o else o') := by
  split
  · rename_i h
    exact hx h
  · rename_i h
    exact hy h

theorem bind_denotes {α β : Type u} {x : Comp α} {f : α → Comp β} {o : Option α}
    {g : α → Option β} (hx : x.Denotes o) (hf : ∀ a, (f a).Denotes (g a)) :
    (x >>= f).Denotes (o.bind g) := by
  cases o with
  | none =>
    intro n
    show (x.run n).bind _ = none
    rw [hx n]
    rfl
  | some a =>
    obtain ⟨n, hn⟩ := hx
    have hfa := hf a
    show (x >>= f).Denotes (g a)
    cases hg : g a with
    | some b =>
      rw [hg] at hfa
      obtain ⟨m, hm⟩ := hfa
      refine ⟨max n m, ?_⟩
      show (x.run _).bind _ = some b
      rw [x.mono (Nat.le_max_left n m) hn]
      exact (f a).mono (Nat.le_max_right n m) hm
    | none =>
      rw [hg] at hfa
      intro m
      show (x.run m).bind _ = none
      -- a budget that is enough for `x` gives the one result `x` has
      cases hm : x.run m with
      | none => rfl
      | some a' =>
        obtain rfl : a = a' := Returns.unique ⟨n, hn⟩ ⟨m, hm⟩
        exact hfa m

theorem map_denotes {α β : Type u} {x : Comp α} {o : Option α} (hx : x.Denotes o) (f : α → β) :
    (x >>= fun a => pure (f a)).Denotes (o.map f) := by
  rw [Option.map_eq_bind]
  exact bind_denotes hx fun a => pure_denotes (f a)

section
variable {step : σ → Comp (Move σ ρ)} {s : σ}

theorem loop_stop {r : ρ} (h : (step s).Returns (.stop r)) : (loop step s).Returns r := by
  obtain ⟨n, hn⟩ := h
  refine ⟨n + 1, ?_⟩
  show loopRun step (n + 1) (n + 1) s = some r
  simp only [loopRun, (step s).mono (Nat.le_succ n) hn]

theorem loop_body_hangs (h : (step s).Hangs) : (loop step s).Hangs := by
  intro n
  show loopRun step n n s = none
  cases n with
  | zero => rfl
  | succ n => simp only [loopRun, h (n + 1)]

theorem loop_next {s' : σ} {o : Option ρ} (h : (step s).Returns (.next s'))
    (h' : (loop step s').Denotes o) : (loop step s).Denotes o := by
  obtain ⟨n, hn⟩ := h
  cases o with
  | some r =>
    obtain ⟨m, hm⟩ := h'
    refine ⟨max n m + 1, ?_⟩
    show loopRun step (max n m + 1) (max n m + 1) s = some r
    simp only [loopRun, (step s).mono (by omega : n ≤ max n m + 1) hn]
    exact loopRun_mono (by omega) (Nat.le_max_right n m) hm
  | none =>
    intro m
    show loopRun step m m s = none
    cases m with
    | zero => rfl
    | succ m =>
      unfold loopRun
      cases hm : (step s).run (m + 1) with
      | none => rfl
      | some x =>
        obtain rfl : Move.next s' = x := Returns.unique ⟨n, hn⟩ ⟨m + 1, hm⟩
        cases hl : loopRun step (m + 1) m s' with
        | none => exact hl
        | some r =>
          have := h' (m + 1)
          rw [show (loop step s').run (m + 1) = loopRun step (m + 1) (m + 1) s' from rfl,
            loopRun_mono (Nat.le_refl _) (Nat.le_succ m) hl] at this
          cases this

/-- A state that an iteration leads back to is never left. -/
theorem loop_stuck (h : (step s).Returns (.next s)) : (loop step s).Hangs := by
  obtain ⟨n, hn⟩ := h
  have hrun : ∀ m k, loopRun step m k s = none := by
    intro m k
    induction k with
    | zero => rfl
    | succ k ih =>
      unfold loopRun
      cases hm : (step s).run m with
      | none => rfl
      | some x =>
        obtain rfl : Move.next s = x := Returns.unique ⟨n, hn⟩ ⟨m, hm⟩
        exact ih
  exact fun m => hrun m m

end

/-- What one iteration may do to a loop that is to denote `f`: stop with it, go on to a smaller
state that denotes the same, hang, or stay where it is and denote nothing. -/
inductive Iterates (f : σ → Option ρ) (size : σ → Nat) (x : Comp (Move σ ρ)) (s : σ) : Prop where
  | stop (r : ρ) : x.Returns (.stop r) → f s = some r → Iterates f size x s
  | next (s' : σ) : x.Returns (.next s') → f s = f s' → size s' < size s → Iterates f size x s
  | hang : x.Hangs → f s = none → Iterates f size x s
  | stay : x.Returns (.next s) → f s = none → Iterates f size x s

/-- **The rule for loops**: by induction on the size of the state. -/
theorem loop_denotes {step : σ → Comp (Move σ ρ)} {f : σ → Option ρ} (size : σ → Nat)
    (h : ∀ s, Iterates f size (step s) s) (s : σ) : (loop step s).Denotes (f s) := by
  induction hn : size s using Nat.strong_induction_on generalizing s with
  | _ n ih =>
    cases h s with
    | stop r hr hf =>
      rw [hf]
      exact loop_stop hr
    | next s' hs hf hlt =>
      rw [hf]
      exact loop_next hs (ih (size s') (hn ▸ hlt) s' rfl)
    | hang hs hf =>
      rw [hf]
      exact loop_body_hangs hs
    | stay hs hf =>
      rw [hf]
      exact loop_stuck hs

/-! ## Two computations side by side -/

/-- Under every budget, `x` and `y` both have a result and `R` relates the two, or neither has. -/
def Sim {α : Type u} {β : Type v} (R : α → β → Prop) (x : Comp α) (y : Comp β) : Prop :=
  ∀ n, Option.Rel R (x.run n) (y.run n)

namespace Sim

variable {α α' : Type u} {β β' : Type v} {R : α → β → Prop} {S : α' → β' → Prop}

theorem refl (x : Comp α) : Sim Eq x x := by
  intro n
  cases x.run n with
  | none => exact .none
  | some a => exact .some rfl

theorem pure {a : α} {b : β} (h : R a b) : Sim R (Pure.pure a) (Pure.pure b) :=
  fun _ => .some h

theorem ite {c c' : Prop} [Decidable c] [Decidable c'] {x x' : Comp α} {y y' : Comp β}
    (hc : c ↔ c') (h : c → Sim R x y) (h' : ¬ c → Sim R x' y') :
    Sim R (if c then x else x') (if c' then y else y') := by
  by_cases hx : c
  · rw [if_pos hx, if_pos (hc.mp hx)]
    exact h hx
  · rw [if_neg hx, if_neg (mt hc.mpr hx)]
    exact h' hx

theorem bind {x : Comp α} {y : Comp β} {f : α → Comp α'} {g : β → Comp β'} (h : Sim R x y)
    (hfg : ∀ a b, R a b → Sim S (f a) (g b)) : Sim S (x >>= f) (y >>= g) := by
  intro n
  show Option.Rel S ((x.run n).bind fun a => (f a).run n) ((y.run n).bind fun b => (g b).run n)
  have hn := h n
  revert hn
  generalize x.run n = o, y.run n = o'
  rintro (hab | -)
  · exact hfg _ _ hab n
  · exact .none

theorem symm {x : Comp α} {y : Comp β} (h : Sim R x y) : Sim (fun b a => R a b) y x := by
  intro n
  have hn := h n
  revert hn
  generalize x.run n = o, y.run n = o'
  rintro (hab | -)
  · exact .some hab
  · exact .none

theorem hangs_iff {x : Comp α} {y : Comp β} (h : Sim R x y) : x.Hangs ↔ y.Hangs := by
  refine forall_congr' fun n => ?_
  have hn := h n
  revert hn
  generalize x.run n = o, y.run n = o'
  rintro (- | -) <;> simp

theorem returns {x : Comp α} {y : Comp β} (h : Sim R x y) {a : α} (ha : x.Returns a) :
    ∃ b, y.Returns b ∧ R a b := by
  obtain ⟨n, hn⟩ := ha
  have hrel := h n
  rw [hn] at hrel
  generalize hy : y.run n = o at hrel
  cases hrel with
  | some hab => exact ⟨_, ⟨n, hy⟩, hab⟩

theorem returns_iff {f : α → β} {x : Comp α} {y : Comp β} (h : Sim (fun a b => b = f a) x y)
    {b : β} : y.Returns b ↔ ∃ a, x.Returns a ∧ b = f a := by
  constructor
  · exact h.symm.returns
  · rintro ⟨a, ha, rfl⟩
    obtain ⟨b, hb, rfl⟩ := h.returns ha
    exact hb

end Sim

end Comp

end Cs370
