import Mathlib.Data.List.Basic

/-!
# Runs of a labelled transition system

`Run Step s l u`: the labels of `l`, each paired with the state it is taken in, lead from `s`
to `u`. An invariant is proved once for a step and holds along every run (`Run.invariant`).
`Run.good_iff` is the rule for a property that some steps break: when a good state stays good
exactly by the steps that are `Ok`, the runs through good states only are those whose steps
are all `Ok`. `Follows` is a run by its labels alone; where a label leads to one state only, it can
be followed (`follows_cons_of_unique`).
-/

namespace Cs370.Trans

universe u v

variable {σ : Type u} {α : Type v} {Step : σ → α → σ → Prop}

inductive Run (Step : σ → α → σ → Prop) : σ → List (σ × α) → σ → Prop where
  | nil (s : σ) : Run Step s [] s
  | cons {s t u : σ} {a : α} {l : List (σ × α)} : Step s a t → Run Step t l u →
      Run Step s ((s, a) :: l) u

theorem Run.append {s t u : σ} {l l' : List (σ × α)} (h : Run Step s l t)
    (h' : Run Step t l' u) : Run Step s (l ++ l') u := by
  induction h with
  | nil => exact h'
  | cons hs _ ih => exact .cons hs (ih h')

theorem Run.snoc {s t u : σ} {a : α} {l : List (σ × α)} (h : Run Step s l t)
    (hs : Step t a u) : Run Step s (l ++ [(t, a)]) u :=
  h.append (.cons hs (.nil u))

theorem Run.exists_step {s u : σ} {l : List (σ × α)} (h : Run Step s l u) :
    ∀ p ∈ l, ∃ t, Step p.1 p.2 t := by
  induction h with
  | nil => exact fun _ hp => absurd hp List.not_mem_nil
  | cons hs _ ih => exact List.forall_mem_cons.mpr ⟨⟨_, hs⟩, ih⟩

/-- A run of steps that are all `Ok`. -/
theorem run_and_iff {Ok : σ → α → Prop} {s u : σ} {l : List (σ × α)} :
    Run (fun s a t => Step s a t ∧ Ok s a) s l u ↔ Run Step s l u ∧ ∀ p ∈ l, Ok p.1 p.2 := by
  constructor
  · intro h
    induction h with
    | nil s => exact ⟨.nil s, nofun⟩
    | cons hs _ ih => exact ⟨.cons hs.1 ih.1, List.forall_mem_cons.mpr ⟨hs.2, ih.2⟩⟩
  · rintro ⟨h, hok⟩
    induction h with
    | nil s => exact .nil s
    | cons hs _ ih =>
      obtain ⟨ha, hl⟩ := List.forall_mem_cons.mp hok
      exact .cons ⟨hs, ha⟩ (ih hl)

/-- **Invariants**: kept by a step, kept by a run. -/
theorem Run.invariant {I : σ → Prop} (hstep : ∀ s a t, I s → Step s a t → I t)
    {s u : σ} {l : List (σ × α)} (h : Run Step s l u) (h0 : I s) : I u := by
  induction h with
  | nil => exact h0
  | cons hs _ ih => exact ih (hstep _ _ _ h0 hs)

/-- **The runs that stay good**: if, under an invariant, a good state stays good exactly by the
steps that are `Ok`, then a run visits good states only exactly when all its steps are `Ok`. -/
theorem Run.good_iff {I Good : σ → Prop} {Ok : σ → α → Prop}
    (hinv : ∀ s a t, I s → Step s a t → I t)
    (hgood : ∀ s a t, I s → Good s → Step s a t → (Good t ↔ Ok s a))
    {s u : σ} {l : List (σ × α)} (h : Run Step s l u) (hi : I s) (hg : Good s) :
    ((∀ p ∈ l, Good p.1) ∧ Good u) ↔ ∀ p ∈ l, Ok p.1 p.2 := by
  induction h with
  | nil => simp [hg]
  | @cons s t u a l hs hr ih =>
    have hst := hgood s a t hi hg hs
    have hit := hinv s a t hi hs
    simp only [List.forall_mem_cons]
    constructor
    · rintro ⟨⟨-, hl⟩, hu⟩
      -- the state after the first step is the first of the rest, or the last one
      have hgt : Good t := by
        cases hr with
        | nil => exact hu
        | cons => exact hl _ List.mem_cons_self
      exact ⟨hst.mp hgt, (ih hit hgt).mp ⟨hl, hu⟩⟩
    · rintro ⟨ha, hl⟩
      have hgt := hst.mpr ha
      obtain ⟨h1, h2⟩ := (ih hit hgt).mpr hl
      exact ⟨⟨hg, h1⟩, h2⟩

/-- One direction of it: what the steps that are `Ok` keep. -/
theorem Run.good_of_ok {Good : σ → Prop} {Ok : σ → α → Prop}
    (hgood : ∀ s a t, Good s → Step s a t → Ok s a → Good t)
    {s u : σ} {l : List (σ × α)} (h : Run Step s l u) (hg : Good s)
    (hok : ∀ p ∈ l, Ok p.1 p.2) : (∀ p ∈ l, Good p.1) ∧ Good u := by
  induction h with
  | nil => exact ⟨nofun, hg⟩
  | cons hs _ ih =>
    obtain ⟨ha, hl⟩ := List.forall_mem_cons.mp hok
    obtain ⟨hmid, hu⟩ := ih (hgood _ _ _ hg hs ha) hl
    exact ⟨List.forall_mem_cons.mpr ⟨hg, hmid⟩, hu⟩

/-- **From the last state back**: if a step to a good state is `Ok` and comes from a good state,
provided it is `Fine`, then all steps of a run of `Fine` steps to a good state are `Ok`. -/
theorem Run.ok_of_last {I Good : σ → Prop} {Ok Fine : σ → α → Prop}
    (hinv : ∀ s a t, I s → Step s a t → I t)
    (hback : ∀ s a t, I s → Step s a t → Fine s a → Good t → Good s ∧ Ok s a)
    {s u : σ} {l : List (σ × α)} (h : Run Step s l u) (hi : I s)
    (hfine : ∀ p ∈ l, Fine p.1 p.2) (hlast : Good u) : Good s ∧ ∀ p ∈ l, Ok p.1 p.2 := by
  induction h with
  | nil => exact ⟨hlast, nofun⟩
  | cons hs _ ih =>
    obtain ⟨ha, hl⟩ := List.forall_mem_cons.mp hfine
    obtain ⟨hgood, hok⟩ := ih (hinv _ _ _ hi hs) hl hlast
    obtain ⟨hfirst, hoka⟩ := hback _ _ _ hi hs ha hgood
    exact ⟨hfirst, List.forall_mem_cons.mpr ⟨hoka, hok⟩⟩

/-! ## Runs by their labels -/

/-- The labels `as` lead from `s` to `t`. -/
def Follows (Step : σ → α → σ → Prop) (s : σ) (as : List α) (t : σ) : Prop :=
  ∃ l, Run Step s l t ∧ l.map (·.2) = as

theorem follows_nil_iff {s t : σ} : Follows Step s [] t ↔ t = s := by
  constructor
  · rintro ⟨l, hrun, hl⟩
    cases hrun with
    | nil => rfl
    | cons => cases hl
  · rintro rfl
    exact ⟨[], .nil t, rfl⟩

theorem follows_cons_iff {s t : σ} {a : α} {as : List α} :
    Follows Step s (a :: as) t ↔ ∃ s', Step s a s' ∧ Follows Step s' as t := by
  constructor
  · rintro ⟨l, hrun, hl⟩
    cases hrun with
    | nil => cases hl
    | cons hs hrun =>
      obtain ⟨rfl, hrest⟩ := List.cons.inj hl
      exact ⟨_, hs, _, hrun, hrest⟩
  · rintro ⟨s', hs, l, hrun, rfl⟩
    exact ⟨_, .cons hs hrun, rfl⟩

theorem follows_cons_of_unique {s s' t : σ} {a : α} {as : List α}
    (h : ∀ t, Step s a t ↔ t = s') : Follows Step s (a :: as) t ↔ Follows Step s' as t := by
  rw [follows_cons_iff]
  simp only [h, exists_eq_left]

end Cs370.Trans
