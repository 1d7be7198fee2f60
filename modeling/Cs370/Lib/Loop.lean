import Mathlib.Data.Finset.Card
import Mathlib.Data.Finset.Image
import Mathlib.Logic.Relation

/-!
# Loops as iterated moves

A loop body maps the loop state to a `Move`: another iteration, or the end with a result.
`run step n s` executes at most `n` iterations; `none` says the loop is still running.

* `run_map`: a projection of the state that commutes with the body commutes with the loop.
* `Trace`: the states a loop that ends goes through; a projection carries them along.
* `run_eq_none_of_cycle`, `cycle_of_run_none`: within finitely many states, not ending and
  coming back to a state are the same.
* `run_card_ne_none`: a loop that ends, ends within as many iterations as there are states it
  can reach (the pigeonhole bound of a deterministic walk on a finite graph).
-/

namespace Cs370.Loop

universe u v w

/-- What one execution of a loop body decides. -/
inductive Move (σ : Type u) (ρ : Type v) where
  | next (s : σ)
  | stop (r : ρ)
  deriving DecidableEq, Repr

variable {σ : Type u} {τ : Type w} {ρ : Type v} {step : σ → Move σ ρ}

/-- At most `n` iterations from `s`. -/
def run (step : σ → Move σ ρ) : Nat → σ → Option ρ
  | 0, _ => none
  | n + 1, s =>
    match step s with
    | .next s' => run step n s'
    | .stop r => some r

/-- `t` is the state at the start of some iteration of the loop started at `s`. -/
def Reach (step : σ → Move σ ρ) : σ → σ → Prop :=
  Relation.ReflTransGen fun a b => step a = .next b

@[simp] theorem run_zero (s : σ) : run step 0 s = none := rfl

theorem run_next {n : Nat} {s s' : σ} (h : step s = .next s') :
    run step (n + 1) s = run step n s' := by
  simp only [run, h]

theorem run_stop {n : Nat} {s : σ} {r : ρ} (h : step s = .stop r) :
    run step (n + 1) s = some r := by
  simp only [run, h]

theorem run_mono {n m : Nat} {s : σ} {r : ρ} (h : run step n s = some r) (hnm : n ≤ m) :
    run step m s = some r := by
  induction n generalizing s m with
  | zero => simp at h
  | succ n ih =>
    obtain ⟨m, rfl⟩ : ∃ k, m = k + 1 := ⟨m - 1, by omega⟩
    cases hs : step s with
    | next s' =>
      rw [run_next hs] at h ⊢
      exact ih h (by omega)
    | stop r' =>
      rw [run_stop hs] at h ⊢
      exact h

theorem Reach.run_some {s t : σ} (h : Reach step s t) {r : ρ} (ht : step t = .stop r) :
    ∃ n, run step n s = some r := by
  induction h using Relation.ReflTransGen.head_induction_on with
  | refl => exact ⟨1, run_stop ht⟩
  | head hs _ ih =>
    obtain ⟨n, hn⟩ := ih
    exact ⟨n + 1, (run_next hs).trans hn⟩

theorem reach_of_run {n : Nat} {s : σ} {r : ρ} (h : run step n s = some r) :
    ∃ t, Reach step s t ∧ step t = .stop r := by
  induction n generalizing s with
  | zero => simp at h
  | succ n ih =>
    cases hs : step s with
    | next s' =>
      rw [run_next hs] at h
      obtain ⟨t, ht, hr⟩ := ih h
      exact ⟨t, .head hs ht, hr⟩
    | stop r' =>
      rw [run_stop hs, Option.some.injEq] at h
      subst h
      exact ⟨s, .refl, hs⟩

theorem run_unique {n m : Nat} {s : σ} {r r' : ρ} (h : run step n s = some r)
    (h' : run step m s = some r') : r = r' := by
  have h1 := run_mono h (Nat.le_max_left n m)
  have h2 := run_mono h' (Nat.le_max_right n m)
  exact Option.some.inj (h1.symm.trans h2)

/-- What holds at the start and is kept by every iteration holds of every reachable state. -/
theorem Reach.invariant {I : σ → Prop} {s t : σ} (h : Reach step s t) (h0 : I s)
    (hs : ∀ a b, I a → step a = .next b → I b) : I t := by
  induction h with
  | refl => exact h0
  | tail _ hab ih => exact hs _ _ ih hab

/-! ## Projections -/

/-- The move of the projected state, with the projected result. -/
def Move.map {κ : Type*} (π : σ → τ) (φ : ρ → κ) : Move σ ρ → Move τ κ
  | .next s => .next (π s)
  | .stop r => .stop (φ r)

theorem run_map {κ : Type*} {step' : τ → Move τ κ} {π : σ → τ} {φ : ρ → κ}
    (h : ∀ s, (step s).map π φ = step' (π s)) (n : Nat) (s : σ) :
    run step' n (π s) = (run step n s).map φ := by
  induction n generalizing s with
  | zero => rfl
  | succ n ih =>
    have hs := h s
    cases hm : step s with
    | next s' =>
      rw [hm] at hs
      rw [run_next hm, run_next hs.symm, ih]
    | stop r =>
      rw [hm] at hs
      rw [run_stop hm, run_stop hs.symm]
      rfl

theorem Reach.map {κ : Type*} {step' : τ → Move τ κ} {π : σ → τ} {φ : ρ → κ}
    (h : ∀ s, (step s).map π φ = step' (π s)) {s t : σ} (hr : Reach step s t) :
    Reach step' (π s) (π t) := by
  induction hr with
  | refl => exact .refl
  | tail _ hab ih => exact ih.tail (by rw [← h, hab]; rfl)

theorem Reach.lift {κ : Type*} {step' : τ → Move τ κ} {π : σ → τ} {φ : ρ → κ}
    (h : ∀ s, (step s).map π φ = step' (π s)) {s : σ} {y : τ} (hr : Reach step' (π s) y) :
    ∃ t, Reach step s t ∧ π t = y := by
  induction hr with
  | refl => exact ⟨s, .refl, rfl⟩
  | tail _ hab ih =>
    obtain ⟨t, ht, rfl⟩ := ih
    rw [← h t] at hab
    cases hm : step t with
    | next u =>
      rw [hm] at hab
      exact ⟨u, ht.tail hm, Move.next.inj hab⟩
    | stop r => rw [hm] at hab; cases hab

theorem Reach.stop_unique {s t u : σ} {r r' : ρ} (ht : Reach step s t) (hr : step t = .stop r)
    (hu : Reach step s u) (hr' : step u = .stop r') : t = u := by
  have hdet : Relator.RightUnique fun a b => step a = .next b :=
    fun a b c hb hc => Move.next.inj (hb.symm.trans hc)
  have hstuck {a b : σ} {r : ρ} (ha : step a = .stop r) (hab : Reach step a b) : a = b := by
    rcases hab.cases_head with rfl | ⟨c, hc, -⟩
    · rfl
    · rw [ha] at hc
      cases hc
  rcases Relation.ReflTransGen.total_of_right_unique hdet ht hu with h | h
  · exact hstuck hr h
  · exact (hstuck hr' h).symm

/-! ## Traces -/

/-- The loop started at `s` ends with result `r`; the iterations start in the states `l`. -/
inductive Trace (step : σ → Move σ ρ) : σ → List σ → ρ → Prop where
  | stop {s : σ} {r : ρ} : step s = .stop r → Trace step s [s] r
  | next {s t : σ} {l : List σ} {r : ρ} : step s = .next t → Trace step t l r →
      Trace step s (s :: l) r

theorem trace_stop_iff {s : σ} {l : List σ} {r r' : ρ} (h : step s = .stop r') :
    Trace step s l r ↔ l = [s] ∧ r = r' := by
  constructor
  · rintro (hs | ⟨hs, -⟩)
    · rw [h] at hs
      cases hs
      exact ⟨rfl, rfl⟩
    · rw [h] at hs
      cases hs
  · rintro ⟨rfl, rfl⟩
    exact .stop h

theorem trace_next_iff {s t : σ} {l : List σ} {r : ρ} (h : step s = .next t) :
    Trace step s (s :: l) r ↔ Trace step t l r := by
  refine ⟨fun ht => ?_, .next h⟩
  cases ht with
  | stop hs => rw [h] at hs; cases hs
  | next hs ht =>
    rw [h] at hs
    cases hs
    exact ht

theorem Trace.ne_nil {s : σ} {l : List σ} {r : ρ} (h : Trace step s l r) : l ≠ [] := by
  cases h <;> exact List.cons_ne_nil _ _

theorem Trace.map {κ : Type*} {step' : τ → Move τ κ} {π : σ → τ} {φ : ρ → κ}
    (h : ∀ s, (step s).map π φ = step' (π s)) {s : σ} {l : List σ} {r : ρ}
    (ht : Trace step s l r) : Trace step' (π s) (l.map π) (φ r) := by
  induction ht with
  | stop hs => exact .stop (by rw [← h, hs]; rfl)
  | next hs _ ih => exact .next (by rw [← h, hs]; rfl) ih

theorem Trace.lift {κ : Type*} {step' : τ → Move τ κ} {π : σ → τ} {φ : ρ → κ}
    (h : ∀ s, (step s).map π φ = step' (π s)) {s : σ} {l : List τ} {k : κ}
    (ht : Trace step' (π s) l k) : ∃ l' r, Trace step s l' r ∧ l'.map π = l ∧ φ r = k := by
  generalize hx : π s = x at ht
  induction ht generalizing s with
  | stop hs =>
    subst hx
    rw [← h s] at hs
    cases hm : step s with
    | next t => rw [hm] at hs; cases hs
    | stop r =>
      rw [hm] at hs
      exact ⟨[s], r, .stop hm, rfl, Move.stop.inj hs⟩
  | next hs _ ih =>
    subst hx
    rw [← h s] at hs
    cases hm : step s with
    | next t =>
      rw [hm] at hs
      obtain ⟨l', r, ht, rfl, rfl⟩ := ih (Move.next.inj hs)
      exact ⟨s :: l', r, .next hm ht, rfl, rfl⟩
    | stop r => rw [hm] at hs; cases hs

/-! ## The pigeonhole bound -/

/-- The loop started at `s` ends in exactly `n` iterations. -/
inductive Takes (step : σ → Move σ ρ) : Nat → σ → Prop where
  | stop {s : σ} {r : ρ} : step s = .stop r → Takes step 1 s
  | next {n : Nat} {s s' : σ} : step s = .next s' → Takes step n s' → Takes step (n + 1) s

theorem Takes.unique {n m : Nat} {s : σ} (h : Takes step n s) (h' : Takes step m s) : n = m := by
  induction h generalizing m with
  | stop hs =>
    cases h' with
    | stop => rfl
    | next hs' _ => rw [hs] at hs'; cases hs'
  | next hs _ ih =>
    cases h' with
    | stop hs' => rw [hs] at hs'; cases hs'
    | next hs' ht =>
      rw [hs] at hs'
      cases hs'
      rw [ih ht]

theorem takes_of_run {n : Nat} {s : σ} {r : ρ} (h : run step n s = some r) :
    ∃ k, Takes step k s := by
  induction n generalizing s with
  | zero => simp at h
  | succ n ih =>
    cases hs : step s with
    | next s' =>
      rw [run_next hs] at h
      obtain ⟨k, hk⟩ := ih h
      exact ⟨k + 1, .next hs hk⟩
    | stop r' => exact ⟨1, .stop hs⟩

theorem Takes.run_ne_none {n : Nat} {s : σ} (h : Takes step n s) : run step n s ≠ none := by
  induction h with
  | stop hs => simp [run_stop hs]
  | next hs _ ih => rwa [run_next hs]

/-- The states visited on the way, one for each iteration, no two of them equal: a repeated
state would end after two different numbers of iterations. -/
theorem Takes.visited {n : Nat} {s : σ} (h : Takes step n s) :
    ∃ l : List σ, l.length = n ∧ l.Nodup ∧
      ∀ t ∈ l, Reach step s t ∧ ∃ k, k ≤ n ∧ Takes step k t := by
  induction h with
  | @stop s r hs =>
    refine ⟨[s], rfl, List.nodup_singleton s, fun t ht => ?_⟩
    rw [List.mem_singleton.mp ht]
    exact ⟨.refl, 1, Nat.le_refl 1, .stop hs⟩
  | @next n s s' hs ht ih =>
    obtain ⟨l, hl, hnd, hmem⟩ := ih
    refine ⟨s :: l, by rw [List.length_cons, hl], List.nodup_cons.mpr ⟨fun hin => ?_, hnd⟩, ?_⟩
    · obtain ⟨-, k, hk, hk'⟩ := hmem s hin
      have := (Takes.next hs ht).unique hk'
      omega
    · intro t hin
      rcases List.mem_cons.mp hin with rfl | hin
      · exact ⟨.refl, n + 1, Nat.le_refl _, .next hs ht⟩
      · obtain ⟨hr, k, hk, hk'⟩ := hmem t hin
        exact ⟨.head hs hr, k, by omega, hk'⟩

/-- **The pigeonhole bound**: a loop that ends, ends within as many iterations as a finite set
holding its reachable states has elements. -/
theorem run_card_ne_none [DecidableEq σ] {s : σ} {F : Finset σ}
    (hF : ∀ t, Reach step s t → t ∈ F) {n : Nat} {r : ρ} (h : run step n s = some r) :
    run step F.card s ≠ none := by
  obtain ⟨k, hk⟩ := takes_of_run h
  obtain ⟨l, hl, hnd, hmem⟩ := hk.visited
  have hsub : l.toFinset ⊆ F := fun t ht => hF t (hmem t (List.mem_toFinset.mp ht)).1
  have hle : k ≤ F.card := by
    rw [← hl, ← List.toFinset_card_of_nodup hnd]
    exact Finset.card_le_card hsub
  obtain ⟨r', hr'⟩ := Option.ne_none_iff_exists'.mp hk.run_ne_none
  rw [run_mono hr' hle]
  simp

/-! ## Loops that never end -/

/-- `t` is reached from `s` by at least one iteration. -/
def ReachPlus (step : σ → Move σ ρ) : σ → σ → Prop :=
  Relation.TransGen fun a b => step a = .next b

theorem Takes.of_next {n : Nat} {s s' : σ} (h : Takes step n s) (hs : step s = .next s') :
    ∃ m, m < n ∧ Takes step m s' := by
  cases h with
  | stop hr => rw [hs] at hr; cases hr
  | @next m _ _ hs' ht =>
    rw [hs] at hs'
    cases hs'
    exact ⟨m, Nat.lt_succ_self m, ht⟩

theorem Takes.of_reachPlus {n : Nat} {s t : σ} (h : Takes step n s) (hr : ReachPlus step s t) :
    ∃ m, m < n ∧ Takes step m t := by
  induction hr with
  | single hs => exact h.of_next hs
  | tail _ hs ih =>
    obtain ⟨m, hm, ht⟩ := ih
    obtain ⟨k, hk, hu⟩ := ht.of_next hs
    exact ⟨k, by omega, hu⟩

theorem Takes.of_reach {n : Nat} {s t : σ} (h : Takes step n s) (hr : Reach step s t) :
    ∃ m, Takes step m t := by
  induction hr with
  | refl => exact ⟨n, h⟩
  | tail _ hs ih =>
    obtain ⟨m, ht⟩ := ih
    obtain ⟨k, -, hu⟩ := ht.of_next hs
    exact ⟨k, hu⟩

/-- A loop that comes back to a state never ends. -/
theorem run_eq_none_of_cycle {s t : σ} (hr : Reach step s t) (hc : ReachPlus step t t) (n : Nat) :
    run step n s = none := by
  cases hn : run step n s with
  | none => rfl
  | some r =>
    obtain ⟨k, hk⟩ := takes_of_run hn
    obtain ⟨m, hm⟩ := hk.of_reach hr
    obtain ⟨m', hlt, hm'⟩ := hm.of_reachPlus hc
    exact absurd (hm.unique hm') (by omega)

/-- The state after exactly `n` iterations. -/
def after (step : σ → Move σ ρ) : Nat → σ → Option σ
  | 0, s => some s
  | n + 1, s =>
    match after step n s with
    | none => none
    | some t =>
      match step t with
      | .next u => some u
      | .stop _ => none

theorem after_succ {n : Nat} {s t u : σ} (h : after step n s = some t) (hs : step t = .next u) :
    after step (n + 1) s = some u := by
  simp only [after, h, hs]

theorem after_of_run_none {s : σ} (h : ∀ n, run step n s = none) (n : Nat) :
    ∃ t, after step n s = some t ∧ Reach step s t := by
  induction n with
  | zero => exact ⟨s, rfl, .refl⟩
  | succ n ih =>
    obtain ⟨t, ht, hr⟩ := ih
    cases hs : step t with
    | next u => exact ⟨u, after_succ ht hs, hr.tail hs⟩
    | stop r =>
      obtain ⟨k, hk⟩ := hr.run_some hs
      rw [h k] at hk
      cases hk

theorem reachPlus_of_after {i j : Nat} {s t u : σ} (hij : i < j) (hi : after step i s = some t)
    (hj : after step j s = some u) : ReachPlus step t u := by
  induction j generalizing u with
  | zero => omega
  | succ j ih =>
    simp only [after] at hj
    split at hj
    · cases hj
    · rename_i v hv
      split at hj
      · rename_i w hw
        obtain rfl := Option.some.inj hj
        rcases Nat.lt_succ_iff_lt_or_eq.mp hij with hlt | rfl
        · exact (ih hlt hv).tail hw
        · obtain rfl := Option.some.inj (hi.symm.trans hv)
          exact .single hw
      · cases hj

/-- A loop that never ends within a finite set of states comes back to one of them. -/
theorem cycle_of_run_none [DecidableEq σ] {s : σ} {F : Finset σ}
    (hF : ∀ t, Reach step s t → t ∈ F) (h : ∀ n, run step n s = none) :
    ∃ t, Reach step s t ∧ ReachPlus step t t := by
  choose g hg hreach using after_of_run_none h
  obtain ⟨i, -, j, -, hne, heq⟩ := Finset.exists_ne_map_eq_of_card_lt_of_maps_to
    (s := Finset.range (F.card + 1)) (t := F) (f := g) (by simp) (fun n _ => hF _ (hreach n))
  rcases Nat.lt_or_gt_of_ne hne with hlt | hlt
  · exact ⟨g i, hreach i, reachPlus_of_after hlt (hg i) (heq ▸ hg j)⟩
  · exact ⟨g j, hreach j, reachPlus_of_after hlt (hg j) (heq ▸ hg i)⟩

end Cs370.Loop
