import Mathlib.Algebra.BigOperators.Group.Finset.Basic
import Mathlib.Data.Fintype.Basic
import Cs370.Lib.Run

/-!
# Refinement and termination of transition systems

`Refines Step Spec ev R`: along `R` each step of the one system is a step of the other with the
event `ev` reads off its label, or no step there when it has none. `Refines.run` carries that to
runs: what a run shows is a run of the specification.

`Run.length_le` bounds a run of steps that all lower a measure, and `exists_settled` follows
such steps until none is left. Where the measure is a sum over the parts of the state, a step of
one part changes its own term (`sum_update_add`).
-/

namespace Cs370.Trans

universe u v w x

variable {σ : Type u} {α : Type v} {τ : Type w} {β : Type x}
variable {Step : σ → α → σ → Prop} {Spec : τ → β → τ → Prop}

structure Refines (Step : σ → α → σ → Prop) (Spec : τ → β → τ → Prop) (ev : α → Option β)
    (R : σ → τ → Prop) : Prop where
  visible : ∀ {s t : σ} {a : α} {u : τ} {b : β}, R s u → Step s a t → ev a = some b →
    ∃ v, Spec u b v ∧ R t v
  silent : ∀ {s t : σ} {a : α} {u : τ}, R s u → Step s a t → ev a = none → R t u

def events (ev : α → Option β) (l : List (σ × α)) : List β :=
  l.filterMap fun p => ev p.2

theorem events_cons {ev : α → Option β} {p : σ × α} {l : List (σ × α)} :
    events ev (p :: l) = (ev p.2).toList ++ events ev l := by
  unfold events
  cases h : ev p.2 <;> simp [h]

/-- **The events of a run are a run of the specification.** -/
theorem Refines.run {ev : α → Option β} {R : σ → τ → Prop} (hr : Refines Step Spec ev R)
    {s t : σ} {l : List (σ × α)} (h : Run Step s l t) :
    ∀ {u : τ}, R s u → ∃ v, Follows Spec u (events ev l) v ∧ R t v := by
  induction h with
  | nil => exact fun hR => ⟨_, follows_nil_iff.mpr rfl, hR⟩
  | @cons s m t a l hs _ ih =>
    intro u hR
    rw [events_cons]
    cases hev : ev a with
    | none => exact ih (hr.silent hR hs hev)
    | some b =>
      obtain ⟨u', hspec, hR'⟩ := hr.visible hR hs hev
      obtain ⟨v, hfollows, hRv⟩ := ih hR'
      exact ⟨v, follows_cons_iff.mpr ⟨u', hspec, hfollows⟩, hRv⟩

/-! ## Steps that lower a measure -/

section Measure

variable {I : σ → Prop} {own : α → Prop} {μ : σ → Nat}

/-- No step of the kind `own` is left. -/
def Settled (Step : σ → α → σ → Prop) (own : α → Prop) (s : σ) : Prop :=
  ∀ a t, own a → ¬ Step s a t

theorem Run.length_le (hinv : ∀ s a t, I s → own a → Step s a t → I t)
    (hμ : ∀ s a t, I s → own a → Step s a t → μ t < μ s) {s t : σ} {l : List (σ × α)}
    (h : Run Step s l t) (hi : I s) (hown : ∀ p ∈ l, own p.2) : l.length + μ t ≤ μ s := by
  induction h with
  | nil => simp
  | @cons s m t a l hs _ ih =>
    have ha := hown _ List.mem_cons_self
    have hlt := hμ s a m hi ha hs
    have hle := ih (hinv s a m hi ha hs) fun p hp => hown p (List.mem_cons_of_mem _ hp)
    simp only [List.length_cons]
    omega

/-- Steps that lower a measure can be followed until none is left. -/
theorem exists_settled (hinv : ∀ s a t, I s → own a → Step s a t → I t)
    (hμ : ∀ s a t, I s → own a → Step s a t → μ t < μ s) (s : σ) (hi : I s) :
    ∃ l t, Run Step s l t ∧ (∀ p ∈ l, own p.2) ∧ Settled Step own t := by
  by_cases hs : Settled Step own s
  · exact ⟨[], s, .nil s, by simp, hs⟩
  · unfold Settled at hs
    push Not at hs
    obtain ⟨a, m, ha, hstep⟩ := hs
    have hlt := hμ s a m hi ha hstep
    obtain ⟨l, t, hrun, hown, hset⟩ := exists_settled hinv hμ m (hinv s a m hi ha hstep)
    exact ⟨(s, a) :: l, t, .cons hstep hrun, List.forall_mem_cons.mpr ⟨ha, hown⟩, hset⟩
termination_by μ s

end Measure

theorem sum_update_add {ι : Type u} {κ : Type v} {M : Type w} [Fintype ι] [DecidableEq ι]
    [AddCommMonoid M] (f : κ → M) (g : ι → κ) (i : ι) (v : κ) :
    ∑ j, f (Function.update g i v j) + f (g i) = ∑ j, f (g j) + f v := by
  have hrest : ∑ j ∈ Finset.univ.erase i, f (Function.update g i v j) =
      ∑ j ∈ Finset.univ.erase i, f (g j) :=
    Finset.sum_congr rfl fun j hj => by rw [Function.update_of_ne (Finset.ne_of_mem_erase hj)]
  rw [← Finset.sum_erase_add _ _ (Finset.mem_univ i), hrest, Function.update_self,
    ← Finset.sum_erase_add _ (fun j => f (g j)) (Finset.mem_univ i), add_right_comm]

end Cs370.Trans
