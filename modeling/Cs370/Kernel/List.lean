import Mathlib.Logic.Function.Basic
import Mathlib.Data.List.Basic
import Cs370.Lib.Loop

/-!
# Circular lists

`struct list_head` of `include/linux/list.h`, with the corruption checks of
`lib/list_debug.c`. The nodes are the addresses of the list heads, of any type; `Links` is the
part of memory that holds their `next` and `prev`. An operation that runs into `BUG()` has no
result.

`Ring l h xs` says that the nodes from `h` on are `xs` and then `h` again, linked both ways.
`eachSafe_ring` is what `list_for_each_entry_safe` does on a ring: it finds the first node its
body breaks at.
-/

namespace Cs370.Kernel

open Loop

universe u

structure Links (ν : Type u) where
  next : ν → ν
  prev : ν → ν

variable {ν : Type u} [DecidableEq ν]

def Links.setNext (l : Links ν) (x y : ν) : Links ν := { l with next := Function.update l.next x y }

def Links.setPrev (l : Links ν) (x y : ν) : Links ν := { l with prev := Function.update l.prev x y }

def initListHead (l : Links ν) (list : ν) : Links ν := (l.setNext list list).setPrev list list

/-- `__list_add` of `list_debug.c`. -/
def listAddBetween (l : Links ν) (new prev next : ν) : Option (Links ν) :=
  if l.prev next ≠ prev then none
  else if l.next prev ≠ next then none
  else some ((((l.setPrev next new).setNext new next).setPrev new prev).setNext prev new)

def listAddTail (l : Links ν) (new head : ν) : Option (Links ν) :=
  listAddBetween l new (l.prev head) head

/-- `list_del` of `list_debug.c`; the two poison values go into the entry. -/
def listDel (poison1 poison2 : ν) (l : Links ν) (entry : ν) : Option (Links ν) :=
  if l.next (l.prev entry) ≠ entry then none
  else if l.prev (l.next entry) ≠ entry then none
  else
    let prev := l.prev entry
    let next := l.next entry
    some ((((l.setPrev next prev).setNext prev next).setNext entry poison1).setPrev entry poison2)

/-! ## Rings -/

/-- From `a` over `xs` to `b`, linked both ways. -/
def Links.Path (l : Links ν) : ν → List ν → ν → Prop
  | a, [], b => l.next a = b ∧ l.prev b = a
  | a, x :: xs, b => l.next a = x ∧ l.prev x = a ∧ Links.Path l x xs b

structure Ring (l : Links ν) (h : ν) (xs : List ν) : Prop where
  path : l.Path h xs h
  nodup : (h :: xs).Nodup

omit [DecidableEq ν] in
theorem Links.Path.congr {l l' : Links ν} {a b : ν} {xs : List ν} (h : l.Path a xs b)
    (hn : ∀ x ∈ a :: xs, l'.next x = l.next x) (hp : ∀ x ∈ xs ++ [b], l'.prev x = l.prev x) :
    l'.Path a xs b := by
  induction xs generalizing a with
  | nil =>
    exact ⟨(hn a (by simp)).trans h.1, (hp b (by simp)).trans h.2⟩
  | cons x xs ih =>
    obtain ⟨h1, h2, h3⟩ := h
    exact ⟨(hn a (by simp)).trans h1, (hp x (by simp)).trans h2,
      ih h3 (fun y hy => hn y (List.mem_cons_of_mem _ hy))
        fun y hy => hp y (List.mem_cons_of_mem _ hy)⟩

omit [DecidableEq ν] in
theorem Ring.congr {l l' : Links ν} {h : ν} {xs : List ν} (hr : Ring l h xs)
    (hl : ∀ x ∈ h :: xs, l'.next x = l.next x ∧ l'.prev x = l.prev x) : Ring l' h xs := by
  refine ⟨hr.path.congr (fun x hx => (hl x hx).1) fun x hx => (hl x ?_).2, hr.nodup⟩
  rcases List.mem_append.mp hx with hx | hx
  · exact List.mem_cons_of_mem _ hx
  · rw [List.mem_singleton.mp hx]
    exact List.mem_cons_self

omit [DecidableEq ν] in
theorem Links.Path.unique {l : Links ν} {a h : ν} {xs ys : List ν} (hx : l.Path a xs h)
    (hy : l.Path a ys h) (hxs : h ∉ xs) (hys : h ∉ ys) : xs = ys := by
  induction xs generalizing a ys with
  | nil =>
    cases ys with
    | nil => rfl
    | cons y ys =>
      rw [← hx.1, hy.1] at hys
      exact absurd List.mem_cons_self hys
  | cons x xs ih =>
    cases ys with
    | nil =>
      rw [← hy.1, hx.1] at hxs
      exact absurd List.mem_cons_self hxs
    | cons y ys =>
      obtain rfl : x = y := hx.1.symm.trans hy.1
      rw [ih hx.2.2 hy.2.2 (fun hm => hxs (List.mem_cons_of_mem _ hm))
        fun hm => hys (List.mem_cons_of_mem _ hm)]

omit [DecidableEq ν] in
theorem Ring.unique {l : Links ν} {h : ν} {xs ys : List ν} (hx : Ring l h xs) (hy : Ring l h ys) :
    xs = ys :=
  hx.path.unique hy.path (List.nodup_cons.mp hx.nodup).1 (List.nodup_cons.mp hy.nodup).1

theorem initListHead_ring (l : Links ν) (list : ν) : Ring (initListHead l list) list [] :=
  ⟨⟨Function.update_self .., Function.update_self ..⟩, List.nodup_singleton list⟩

theorem initListHead_of_ne (l : Links ν) {list x : ν} (h : x ≠ list) :
    (initListHead l list).next x = l.next x ∧ (initListHead l list).prev x = l.prev x :=
  ⟨Function.update_of_ne h .., Function.update_of_ne h ..⟩

/-- Adding a node before the only node of a ring makes a ring of the two, whatever the node
added was linked to before. -/
theorem listAddTail_ring {l : Links ν} {new head : ν} (h : Ring l head []) (hne : new ≠ head) :
    ∃ l', listAddTail l new head = some l' ∧ Ring l' new [head] ∧
      ∀ x, x ≠ new → x ≠ head → l'.next x = l.next x ∧ l'.prev x = l.prev x := by
  obtain ⟨⟨hnext, hprev⟩, -⟩ := h
  have hadd : listAddTail l new head = some ((((l.setPrev head new).setNext new head).setPrev
      new head).setNext head new) := by
    unfold listAddTail listAddBetween
    rw [hprev, if_neg (by simp), if_neg (by simp [hnext])]
  refine ⟨_, hadd, ⟨⟨?_, ?_, ?_, ?_⟩, by simp [hne]⟩, ?_⟩
  · simp [Links.setNext, Links.setPrev, hne]
  · simp [Links.setNext, Links.setPrev, hne.symm]
  · simp [Links.setNext, Links.setPrev]
  · simp [Links.setNext, Links.setPrev]
  · intro x h1 h2
    simp [Links.setNext, Links.setPrev, h1, h2]

theorem listDel_ring {l : Links ν} {h x p1 p2 : ν} (hr : Ring l h [x]) :
    ∃ l', listDel p1 p2 l x = some l' ∧ Ring l' h [] ∧
      ∀ y, y ≠ h → y ≠ x → l'.next y = l.next y ∧ l'.prev y = l.prev y := by
  obtain ⟨⟨h1, h2, h3, h4⟩, hnd⟩ := hr
  have hne : h ≠ x := by simpa using hnd
  have hdel : listDel p1 p2 l x = some ((((l.setPrev h h).setNext h h).setNext x p1).setPrev
      x p2) := by
    unfold listDel
    rw [if_neg (by simp [h2, h1]), if_neg (by simp [h3, h4]), h2, h3]
  refine ⟨_, hdel, ⟨⟨?_, ?_⟩, List.nodup_singleton h⟩, ?_⟩
  · simp [Links.setNext, Links.setPrev, hne]
  · simp [Links.setNext, Links.setPrev, hne]
  · intro y hy hyx
    simp [Links.setNext, Links.setPrev, hy, hyx]

/-! ## Iteration -/

/-- How `list_for_each_entry_safe` ends: at a node its body breaks at, at the head, or with an
access to memory that is not a node. -/
inductive Found (ν : Type u) where
  | found (x : ν)
  | notFound
  | fault
  deriving DecidableEq

/-- An iteration; the state is `pos` and the node read ahead. -/
def eachSafeStep (l : Links ν) (head : ν) (visit : ν → Option Bool) (s : ν × ν) :
    Move (ν × ν) (Found ν) :=
  if s.1 = head then .stop .notFound
  else
    match visit s.1 with
    | none => .stop .fault
    | some true => .stop (.found s.1)
    | some false => .next (s.2, l.next s.2)

/-- `list_for_each_entry_safe` over the list at `head`; `visit` says whether the body breaks. -/
def eachSafe (l : Links ν) (head : ν) (visit : ν → Option Bool) (n : Nat) : Option (Found ν) :=
  run (eachSafeStep l head visit) n (l.next head, l.next (l.next head))

def Found.ofOption : Option ν → Found ν
  | some x => .found x
  | none => .notFound

theorem eachSafe_path {l : Links ν} {h a : ν} {xs : List ν} {visit : ν → Option Bool}
    {p : ν → Bool} (hp : l.Path a xs h) (hh : h ∉ xs) (hv : ∀ x ∈ xs, visit x = some (p x)) :
    ∃ n, run (eachSafeStep l h visit) n (l.next a, l.next (l.next a)) =
      some (Found.ofOption (xs.find? p)) := by
  induction xs generalizing a with
  | nil => exact ⟨1, run_stop (by simp [eachSafeStep, hp.1, Found.ofOption])⟩
  | cons x xs ih =>
    obtain ⟨h1, -, h3⟩ := hp
    have hx : x ≠ h := fun he => hh (he ▸ List.mem_cons_self)
    have hvx := hv x List.mem_cons_self
    cases hpx : p x with
    | true =>
      refine ⟨1, run_stop ?_⟩
      simp [eachSafeStep, h1, hx, hvx, hpx, Found.ofOption]
    | false =>
      obtain ⟨n, hn⟩ := ih h3 (fun hm => hh (List.mem_cons_of_mem _ hm))
        fun y hy => hv y (List.mem_cons_of_mem _ hy)
      refine ⟨n + 1, ?_⟩
      rw [List.find?_cons_of_neg (by simp [hpx]), ← hn]
      exact run_next (by simp [eachSafeStep, h1, hx, hvx, hpx])

/-- **Iteration over a ring** finds the first node the body breaks at. -/
theorem eachSafe_ring {l : Links ν} {h : ν} {xs : List ν} {visit : ν → Option Bool}
    {p : ν → Bool} (hr : Ring l h xs) (hv : ∀ x ∈ xs, visit x = some (p x)) :
    ∃ n, eachSafe l h visit n = some (Found.ofOption (xs.find? p)) :=
  eachSafe_path hr.path (List.nodup_cons.mp hr.nodup).1 hv

end Cs370.Kernel
