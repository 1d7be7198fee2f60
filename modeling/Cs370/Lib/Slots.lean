import Mathlib.Logic.Function.Basic
import Mathlib.Data.List.Basic
import Mathlib.Data.List.Nodup

/-!
# Slots against a queue

A table with one slot for each key, beside the queue of the items put and not yet taken. A put
overwrites the slot of the item's key. A query looks at one slot only, that of the items it can
accept; `Fifo` says that it finds there what it would find by going through the queue.

`Step.fifo_iff`: a put keeps the table so exactly if the slot it writes is empty, and every
other step keeps it.
-/

namespace Cs370.Slots

universe u v w

/-- What items and queries have to do with keys. -/
structure Keys (ι : Type u) (β : Type v) (ρ : Type w) where
  key : ι → β
  bucket : ρ → β
  accepts : ρ → ι → Bool
  key_eq : ∀ q x, accepts q x = true → key x = bucket q

structure Table (ι : Type u) (β : Type v) where
  slot : β → Option ι
  queue : List ι

variable {ι : Type u} {β : Type v} {ρ : Type w} [DecidableEq ι] [DecidableEq β] (K : Keys ι β ρ)

def put (x : ι) (T : Table ι β) : Table ι β where
  slot := Function.update T.slot (K.key x) (some x)
  queue := T.queue ++ [x]

def take (b : β) (x : ι) (T : Table ι β) : Table ι β where
  slot := Function.update T.slot b none
  queue := T.queue.filter (· ≠ x)

def answer (T : Table ι β) (q : ρ) : Option ι := (T.slot (K.bucket q)).filter (K.accepts q)

/-- Every query is answered with the first item of the queue that it accepts. -/
def Fifo (T : Table ι β) : Prop := ∀ q, answer K T q = T.queue.find? (K.accepts q)

inductive Act (ι : Type u) where
  | put (x : ι)
  | take (x : ι)
  | skip

inductive Step : Table ι β → Act ι → Table ι β → Prop where
  | put {T : Table ι β} {x : ι} : x ∉ T.queue → (∃ q, K.accepts q x = true) →
      Step T (.put x) (put K x T)
  | take {T : Table ι β} {x : ι} {b : β} : T.slot b = some x → Step T (.take x) (take b x T)
  | skip {T : Table ι β} : Step T .skip T

/-- A slot holds the last item of the queue with its key, or nothing. -/
structure Wf (T : Table ι β) : Prop where
  nodup : T.queue.Nodup
  slot : ∀ b x, T.slot b = some x → K.key x = b ∧ (∃ q, K.accepts q x = true) ∧
    ∃ l₁ l₂, T.queue = l₁ ++ x :: l₂ ∧ ∀ y ∈ l₂, K.key y ≠ b

variable {K}

section
omit [DecidableEq ι]

theorem put_slot (x : ι) (T : Table ι β) : (put K x T).slot (K.key x) = some x :=
  Function.update_self ..

theorem put_slot_of_ne {b : β} {x : ι} (T : Table ι β) (hb : b ≠ K.key x) :
    (put K x T).slot b = T.slot b :=
  Function.update_of_ne hb ..

end

theorem take_slot (b : β) (x : ι) (T : Table ι β) : (take b x T).slot b = none :=
  Function.update_self ..

theorem take_slot_of_ne {b b' : β} (x : ι) (T : Table ι β) (hb : b' ≠ b) :
    (take b x T).slot b' = T.slot b' :=
  Function.update_of_ne hb ..

omit [DecidableEq ι] in
theorem Wf.put {T : Table ι β} {x : ι} (h : Wf K T) (hx : x ∉ T.queue)
    (hq : ∃ q, K.accepts q x = true) : Wf K (put K x T) where
  nodup := by
    refine List.nodup_append.mpr ⟨h.nodup, List.nodup_singleton x, fun y hy z hz => ?_⟩
    rw [List.mem_singleton.mp hz]
    exact fun he => hx (he ▸ hy)
  slot b y hy := by
    by_cases hb : b = K.key x
    · subst hb
      obtain rfl : x = y := Option.some.inj ((put_slot x T).symm.trans hy)
      exact ⟨rfl, hq, T.queue, [], rfl, by simp⟩
    · obtain ⟨hk, ha, l₁, l₂, hl, hlast⟩ :=
        h.slot b y ((put_slot_of_ne T hb).symm.trans hy)
      refine ⟨hk, ha, l₁, l₂ ++ [x], by simp [Slots.put, hl], fun z hz => ?_⟩
      rcases List.mem_append.mp hz with hz | hz
      · exact hlast z hz
      · rw [List.mem_singleton.mp hz]
        exact Ne.symm hb

theorem Wf.take {T : Table ι β} {x : ι} {b : β} (h : Wf K T) (hx : T.slot b = some x) :
    Wf K (take b x T) where
  nodup := h.nodup.filter _
  slot b' y hy := by
    have hb : b' ≠ b := by
      rintro rfl
      cases (take_slot b' x T).symm.trans hy
    obtain ⟨hk, ha, l₁, l₂, hl, hlast⟩ :=
      h.slot b' y ((take_slot_of_ne x T hb).symm.trans hy)
    have hyx : y ≠ x := by
      rintro rfl
      exact hb (hk.symm.trans (h.slot b y hx).1)
    refine ⟨hk, ha, l₁.filter (· ≠ x), l₂.filter (· ≠ x), ?_, fun z hz => ?_⟩
    · simp [Slots.take, hl, List.filter_append, hyx]
    · exact hlast z (List.mem_filter.mp hz).1

theorem Wf.step {T U : Table ι β} {a : Act ι} (h : Wf K T) (hs : Step K T a U) : Wf K U := by
  cases hs with
  | put hx hq => exact h.put hx hq
  | take hx => exact h.take hx
  | skip => exact h

section
omit [DecidableEq ι]

theorem answer_put {T : Table ι β} {x : ι} {q : ρ} (hb : K.bucket q = K.key x) :
    answer K (put K x T) q = if K.accepts q x then some x else none := by
  rw [answer, hb, put_slot, Option.filter_some]

theorem answer_put_of_ne {T : Table ι β} {x : ι} {q : ρ} (hb : K.bucket q ≠ K.key x) :
    answer K (put K x T) q = answer K T q := by
  rw [answer, put_slot_of_ne T hb, answer]

theorem find_put (T : Table ι β) (x : ι) (q : ρ) : (put K x T).queue.find? (K.accepts q) =
    (T.queue.find? (K.accepts q)).or (if K.accepts q x then some x else none) := by
  unfold put
  rw [List.find?_append, List.find?_singleton]

omit [DecidableEq β] in
theorem accepts_of_ne {x : ι} {q : ρ} (hb : K.bucket q ≠ K.key x) : K.accepts q x = false := by
  by_contra hc
  exact hb (K.key_eq q x (by simpa using hc)).symm

theorem Fifo.put {T : Table ι β} {x : ι} (hf : Fifo K T) (hx : T.slot (K.key x) = none) :
    Fifo K (put K x T) := by
  intro q
  rw [find_put, ← hf q]
  by_cases hb : K.bucket q = K.key x
  · rw [answer_put hb, answer, hb, hx, Option.filter_none, Option.none_or]
  · rw [answer_put_of_ne hb, accepts_of_ne hb]
    simp

/-- A put over an item hides that item. -/
theorem Fifo.put_not {T : Table ι β} {x y : ι} (hf : Fifo K T) (h : Wf K T)
    (hx : x ∉ T.queue) (hy : T.slot (K.key x) = some y) : ¬ Fifo K (Slots.put K x T) := by
  intro hf'
  obtain ⟨hk, ⟨q, ha⟩, l₁, l₂, hl, -⟩ := h.slot _ y hy
  have hb : K.bucket q = K.key x := (K.key_eq q y ha).symm.trans hk
  -- before, the query found `y`, which is still the first in the queue
  have hans : answer K T q = some y := by
    rw [answer, hb, hy, Option.filter_some_pos ha]
  have hans' := hf' q
  rw [find_put, ← hf q, hans, answer_put hb, Option.some_or] at hans'
  have hxy : x = y := (Option.ite_none_right_eq_some.mp hans').2 |> Option.some.inj
  exact hx (by rw [hxy, hl]; simp)

end

theorem answer_take {T : Table ι β} {x : ι} {b : β} {q : ρ} (hb : K.bucket q = b) :
    answer K (take b x T) q = none := by
  rw [answer, hb, take_slot, Option.filter_none]

theorem answer_take_of_ne {T : Table ι β} {x : ι} {b : β} {q : ρ} (hb : K.bucket q ≠ b) :
    answer K (take b x T) q = answer K T q := by
  rw [answer, take_slot_of_ne x T hb, answer]

omit [DecidableEq ι] [DecidableEq β] in
theorem Wf.not_mem_left {T : Table ι β} {x : ι} {l₁ l₂ : List ι} (h : Wf K T)
    (hl : T.queue = l₁ ++ x :: l₂) : x ∉ l₁ := by
  have hnd := h.nodup
  rw [hl] at hnd
  exact fun hx => (List.nodup_append.mp hnd).2.2 x hx x List.mem_cons_self rfl

/-- Taking an item keeps the answers right: there is no other one that its slot stood for. -/
theorem Fifo.take {T : Table ι β} {x : ι} {b : β} (hf : Fifo K T) (h : Wf K T)
    (hx : T.slot b = some x) : Fifo K (take b x T) := by
  obtain ⟨hk, -, l₁, l₂, hl, hlast⟩ := h.slot b x hx
  intro q
  by_cases hb : K.bucket q = b
  · rw [answer_take hb]
    symm
    apply List.find?_eq_none.mpr
    intro z hz hacc
    obtain ⟨hz, hzx⟩ : z ∈ T.queue ∧ z ≠ x := by simpa [Slots.take] using hz
    -- `z` would be before `x`, and yet the query found `x` first
    have hz₁ : z ∈ l₁ := by
      rw [hl, List.mem_append, List.mem_cons] at hz
      rcases hz with hz | hz | hz
      · exact hz
      · exact absurd hz hzx
      · exact absurd ((K.key_eq q z hacc).trans hb) (hlast z hz)
    obtain ⟨w, hw⟩ : ∃ w, l₁.find? (K.accepts q) = some w :=
      Option.isSome_iff_exists.mp (List.find?_isSome.mpr ⟨z, hz₁, hacc⟩)
    have hq := hf q
    rw [hl, List.find?_append, hw, Option.some_or, answer, hb, hx, Option.filter_some] at hq
    have hxw : x = w := (Option.ite_none_right_eq_some.mp hq).2 |> Option.some.inj
    exact h.not_mem_left hl (hxw ▸ List.mem_of_find?_eq_some hw)
  · rw [answer_take_of_ne hb, hf q]
    have ha : K.accepts q x = false := accepts_of_ne (hk.symm ▸ hb)
    unfold Slots.take
    rw [List.find?_filter]
    congr 1
    funext y
    by_cases hyx : y = x
    · simp [hyx, ha]
    · simp [hyx]

/-- A put is fine where nothing is overwritten. -/
def Ok (K : Keys ι β ρ) (T : Table ι β) : Act ι → Prop
  | .put x => T.slot (K.key x) = none
  | _ => True

/-- **The answers stay right exactly while nothing is overwritten.** -/
theorem Step.fifo_iff {T U : Table ι β} {a : Act ι} (h : Wf K T) (hf : Fifo K T)
    (hs : Step K T a U) : Fifo K U ↔ Ok K T a := by
  cases hs with
  | @put x hx _ =>
    constructor
    · intro hf'
      show T.slot (K.key x) = none
      by_contra hne
      obtain ⟨y, hy⟩ := Option.ne_none_iff_exists'.mp hne
      exact hf.put_not h hx hy hf'
    · exact hf.put
  | take hx => exact iff_of_true (hf.take h hx) trivial
  | skip => exact iff_of_true hf trivial

end Cs370.Slots
