import Mathlib.Data.List.Nodup
import Mathlib.Data.Set.Basic
import Cs370.Kernel.List

/-!
# Queues of circular lists

`list_add`, `list_add_tail`, `list_del` and `list_move_tail` on a ring of any length, and on a
family of rings that share the memory of their links. `Queues I l head q`: for each index in `I`
the ring at its head holds the list `q` has for it, and no node is on two of them. An operation on
one ring is an operation on its list, and leaves the others as they are.

A ring can be read from each of its nodes (`ring_rotate`), so that every operation is one at the
head.
-/

namespace Cs370.Kernel

universe u v

variable {ν : Type u} [DecidableEq ν]

/-- `__list_del`. -/
def listUnlink (l : Links ν) (prev next : ν) : Links ν := (l.setPrev next prev).setNext prev next

def listMoveTail (l : Links ν) (list head : ν) : Option (Links ν) :=
  listAddTail (listUnlink l (l.prev list) (l.next list)) list head

def listEmpty (l : Links ν) (head : ν) : Bool := l.next head = head

/-! ## Rings from each of their nodes -/

omit [DecidableEq ν] in
theorem path_append_iff {l : Links ν} {a b x : ν} {xs ys : List ν} :
    l.Path a (xs ++ x :: ys) b ↔ l.Path a xs x ∧ l.Path x ys b := by
  induction xs generalizing a with
  | nil => exact and_assoc.symm
  | cons y xs ih =>
    simp only [List.cons_append, Links.Path, ih]
    tauto

omit [DecidableEq ν] in
theorem ring_rotate {l : Links ν} {h x : ν} {xs ys : List ν} :
    Ring l h (xs ++ x :: ys) ↔ Ring l x (ys ++ h :: xs) := by
  have hperm : ((h :: xs) ++ (x :: ys)).Perm ((x :: ys) ++ (h :: xs)) := List.perm_append_comm
  refine ⟨fun hr => ⟨?_, hperm.nodup_iff.mp hr.nodup⟩, fun hr => ⟨?_, hperm.nodup_iff.mpr hr.nodup⟩⟩
  · exact path_append_iff.mpr (path_append_iff.mp hr.path).symm
  · exact path_append_iff.mpr (path_append_iff.mp hr.path).symm

/-! ## One ring -/

/-- What an operation on a ring leaves alone. -/
def SameOutside (l l' : Links ν) (xs : List ν) : Prop :=
  ∀ x, x ∉ xs → l'.next x = l.next x ∧ l'.prev x = l.prev x

omit [DecidableEq ν] in
theorem Ring.head_notMem {l : Links ν} {h : ν} {xs : List ν} (hr : Ring l h xs) : h ∉ xs :=
  (List.nodup_cons.mp hr.nodup).1

theorem ring_insert {l : Links ν} {h x : ν} {xs : List ν} (hr : Ring l h xs) (hx : x ∉ h :: xs) :
    ∃ l', listAddBetween l x h (l.next h) = some l' ∧ Ring l' h (x :: xs) ∧
      SameOutside l l' (x :: h :: xs) := by
  obtain ⟨hxh, hxs⟩ : x ≠ h ∧ x ∉ xs := by simpa using hx
  have hnd : (h :: x :: xs).Nodup := by
    rw [List.nodup_cons, List.nodup_cons, List.mem_cons, not_or]
    exact ⟨⟨Ne.symm hxh, hr.head_notMem⟩, hxs, (List.nodup_cons.mp hr.nodup).2⟩
  have hprev : l.prev (l.next h) = h := by
    cases xs with
    | nil => rw [hr.path.1, hr.path.2]
    | cons y ys => rw [hr.path.1, hr.path.2.1]
  refine ⟨_, by rw [listAddBetween, if_neg (by simp [hprev]), if_neg (by simp)],
    ⟨⟨?_, ?_, ?_⟩, hnd⟩, fun y hy => ?_⟩
  · simp [Links.setNext, Links.setPrev]
  · simp [Links.setNext, Links.setPrev]
  · cases xs with
    | nil =>
      have hn : l.next h = h := hr.path.1
      constructor <;> simp [Links.setNext, Links.setPrev, hn, hxh, Ne.symm hxh]
    | cons y ys =>
      obtain ⟨hn, -, hpath⟩ := hr.path
      have hyx : y ≠ x := fun he => hxs (he ▸ List.mem_cons_self)
      obtain ⟨hhy, hhys⟩ : h ≠ y ∧ h ∉ ys := by simpa using hr.head_notMem
      have hyys : y ∉ ys := (List.nodup_cons.mp (List.nodup_cons.mp hr.nodup).2).1
      refine ⟨?_, ?_, hpath.congr (fun z hz => ?_) fun z hz => ?_⟩
      · simp [Links.setNext, Links.setPrev, hn, hxh]
      · simp [Links.setNext, Links.setPrev, hn, hyx]
      · have hzh : z ≠ h := fun he => by
          rw [he, List.mem_cons] at hz
          exact hz.elim hhy hhys
        have hzx : z ≠ x := fun he => hxs (he ▸ hz)
        simp [Links.setNext, Links.setPrev, hzh, hzx]
      · have hzx : z ≠ x := fun he => by
          subst he
          rcases List.mem_append.mp hz with hz | hz
          · exact hxs (List.mem_cons_of_mem _ hz)
          · exact hxh (List.mem_singleton.mp hz)
        have hzy : z ≠ y := fun he => by
          subst he
          rcases List.mem_append.mp hz with hz | hz
          · exact hyys hz
          · exact hhy (List.mem_singleton.mp hz).symm
        simp [Links.setNext, Links.setPrev, hn, hzx, hzy]
  · have hmem : l.next h ∈ h :: xs := by
      cases xs with
      | nil => rw [hr.path.1]; exact List.mem_cons_self
      | cons z zs => rw [hr.path.1]; simp
    simp only [List.mem_cons, not_or] at hy
    have hyn : y ≠ l.next h := fun he => by
      subst he
      rcases List.mem_cons.mp hmem with hm | hm
      · exact hy.2.1 hm
      · exact hy.2.2 hm
    simp [Links.setNext, Links.setPrev, hy.1, hy.2.1, hyn]

omit [DecidableEq ν] in
theorem ring_prev {l : Links ν} {h a : ν} {xs : List ν} (hr : Ring l h (xs ++ [a])) :
    l.prev h = a :=
  (path_append_iff.mp hr.path).2.2

theorem listAddTail_ring_append {l : Links ν} {h x : ν} {xs : List ν} (hr : Ring l h xs)
    (hx : x ∉ h :: xs) :
    ∃ l', listAddTail l x h = some l' ∧ Ring l' h (xs ++ [x]) ∧
      SameOutside l l' (x :: h :: xs) := by
  rcases List.eq_nil_or_concat xs with rfl | ⟨ys, a, rfl⟩
  · obtain ⟨l', hl, hring, hsame⟩ := ring_insert hr hx
    refine ⟨l', ?_, hring, hsame⟩
    rw [← hl, hr.path.1, listAddTail, hr.path.2]
  · -- seen from the last node, behind it
    rw [List.concat_eq_append] at hr hx ⊢
    have hprev := ring_prev hr
    have hnext : l.next a = h := (path_append_iff.mp hr.path).2.1
    have hr' : Ring l a (h :: ys) := ring_rotate.mp hr
    have hx' : x ∉ a :: h :: ys := by
      simp only [List.mem_cons, List.mem_append, List.not_mem_nil, or_false] at hx ⊢
      tauto
    obtain ⟨l', hl, hring, hsame⟩ := ring_insert hr' hx'
    refine ⟨l', ?_, ?_, fun y hy => hsame y fun hm => hy ?_⟩
    · rw [← hl, hnext, listAddTail, hprev]
    · have hring' : Ring l' h (ys ++ a :: [x]) := ring_rotate.mp hring
      simpa using hring'
    · simp only [List.mem_cons, List.mem_append, List.not_mem_nil, or_false] at hm ⊢
      tauto

theorem ring_remove {l : Links ν} {h x : ν} {xs : List ν} (hr : Ring l h (x :: xs)) :
    Ring (listUnlink l h (l.next x)) h xs ∧
      SameOutside l (listUnlink l h (l.next x)) (h :: x :: xs) := by
  obtain ⟨-, hpx, hpath⟩ := hr.path
  have hnd : (h :: xs).Nodup := by
    have := hr.nodup
    simp only [List.nodup_cons, List.mem_cons, not_or] at this ⊢
    tauto
  have hx := hr.head_notMem
  refine ⟨⟨?_, hnd⟩, fun y hy => ?_⟩
  · cases xs with
    | nil =>
      have hn : l.next x = h := hpath.1
      constructor <;> simp [listUnlink, Links.setNext, Links.setPrev, hn]
    | cons y ys =>
      obtain ⟨hn, -, hpath⟩ := hpath
      have hnd' := List.nodup_cons.mp hnd
      have hyys : y ∉ ys := (List.nodup_cons.mp hnd'.2).1
      have hhy : h ≠ y := fun he => hnd'.1 (he ▸ List.mem_cons_self)
      refine ⟨?_, ?_, hpath.congr (fun z hz => ?_) fun z hz => ?_⟩
      · simp [listUnlink, Links.setNext, Links.setPrev, hn]
      · simp [listUnlink, Links.setNext, Links.setPrev, hn]
      · have hzh : z ≠ h := fun he => hnd'.1 (he ▸ hz)
        simp [listUnlink, Links.setNext, Links.setPrev, hzh]
      · have hzy : z ≠ y := fun he => by
          subst he
          rcases List.mem_append.mp hz with hz | hz
          · exact hyys hz
          · exact hhy (List.mem_singleton.mp hz).symm
        simp [listUnlink, Links.setNext, Links.setPrev, hn, hzy]
  · have hmem : l.next x ∈ h :: xs := by
      cases xs with
      | nil => rw [hpath.1]; exact List.mem_cons_self
      | cons z zs => rw [hpath.1]; simp
    simp only [List.mem_cons, not_or] at hy
    have hyn : y ≠ l.next x := fun he => by
      subst he
      rcases List.mem_cons.mp hmem with hm | hm
      · exact hy.1 hm
      · exact hy.2.2 hm
    simp [listUnlink, Links.setNext, Links.setPrev, hy.1, hyn]

theorem ring_unlink {l : Links ν} {h x : ν} {xs ys : List ν} (hr : Ring l h (xs ++ x :: ys)) :
    Ring (listUnlink l (l.prev x) (l.next x)) h (xs ++ ys) ∧
      SameOutside l (listUnlink l (l.prev x) (l.next x)) (h :: (xs ++ x :: ys)) := by
  rcases List.eq_nil_or_concat xs with rfl | ⟨zs, a, rfl⟩
  · rw [hr.path.2.1]
    exact ring_remove hr
  · rw [List.concat_eq_append] at hr ⊢
    rw [List.append_assoc] at hr ⊢
    -- seen from the node before it, it is the first one
    have hr' : Ring l a (x :: (ys ++ h :: zs)) := ring_rotate.mp hr
    obtain ⟨hring, hsame⟩ := ring_remove hr'
    rw [hr'.path.2.1]
    refine ⟨ring_rotate.mpr hring, fun y hy => hsame y fun hm => hy ?_⟩
    simp only [List.mem_cons, List.mem_append] at hm ⊢
    tauto

/-- The poison in a node that has come out touches no ring. -/
theorem listDel_ring_append {l : Links ν} {h x : ν} (p1 p2 : ν) {xs ys : List ν}
    (hr : Ring l h (xs ++ x :: ys)) :
    ∃ l', listDel p1 p2 l x = some l' ∧ Ring l' h (xs ++ ys) ∧
      SameOutside l l' (h :: (xs ++ x :: ys)) := by
  obtain ⟨hring, hsame⟩ := ring_unlink hr
  have hx : x ∉ h :: (xs ++ ys) := by
    have := hr.nodup
    simp only [List.nodup_cons, List.nodup_append, List.mem_cons, List.mem_append, not_or] at this ⊢
    grind
  have hr' : Ring l x (ys ++ h :: xs) := ring_rotate.mp hr
  have hprev : l.next (l.prev x) = x := by
    rcases List.eq_nil_or_concat xs with rfl | ⟨zs, a, rfl⟩
    · rw [ring_prev hr']
      exact hr.path.1
    · rw [List.concat_eq_append] at hr
      rw [List.append_assoc] at hr
      have hra : Ring l a (x :: (ys ++ h :: zs)) := ring_rotate.mp hr
      rw [hra.path.2.1]
      exact hra.path.1
  have hnext : l.prev (l.next x) = x := by
    cases ys with
    | nil => rw [hr'.path.1, hr'.path.2.1]
    | cons y ys => rw [hr'.path.1, hr'.path.2.1]
  refine ⟨_, by rw [listDel, if_neg (by simp [hprev]), if_neg (by simp [hnext])],
    hring.congr fun y hy => ?_, fun y hy => ?_⟩
  · have hyx : y ≠ x := fun he => hx (he ▸ hy)
    simp [listUnlink, Links.setNext, Links.setPrev, hyx]
  · have hyx : y ≠ x := fun he => hy (by simp [he])
    rw [← (hsame y hy).1, ← (hsame y hy).2]
    simp [listUnlink, Links.setNext, Links.setPrev, hyx]

/-! ## Families of rings -/

variable {κ : Type v} {τ : Type v}

/-- Where the heads and the entries of the queues are in memory. -/
structure Layout (κ τ : Type v) (ν : Type u) where
  head : κ → ν
  node : τ → ν
  head_inj : Function.Injective head
  node_inj : Function.Injective node
  head_ne_node : ∀ k x, head k ≠ node x

/-- The queues with an index in `I` hold the lists of `q`. -/
structure Queues (L : Layout κ τ ν) (I : Set κ) (l : Links ν) (q : κ → List τ) : Prop where
  ring : ∀ k ∈ I, Ring l (L.head k) ((q k).map L.node)
  apart : ∀ j ∈ I, ∀ k ∈ I, ∀ x, x ∈ q j → x ∈ q k → j = k

/-- A list with `x` put before `y`. -/
def insertBefore [DecidableEq τ] (x y : τ) : List τ → List τ
  | [] => []
  | z :: zs => if z = y then x :: z :: zs else z :: insertBefore x y zs

theorem insertBefore_append [DecidableEq τ] {x y : τ} {xs ys : List τ} (h : y ∉ xs) :
    insertBefore x y (xs ++ y :: ys) = xs ++ x :: y :: ys := by
  induction xs with
  | nil => simp [insertBefore]
  | cons z zs ih =>
    rw [List.mem_cons, not_or] at h
    simp [insertBefore, Ne.symm h.1, ih h.2]

theorem insertBefore_perm [DecidableEq τ] {x y : τ} {xs : List τ} (h : y ∈ xs) :
    (insertBefore x y xs).Perm (x :: xs) := by
  induction xs with
  | nil => cases h
  | cons z zs ih =>
    rw [insertBefore]
    split
    · exact List.Perm.refl _
    · rename_i hz
      have hy : y ∈ zs := (List.mem_cons.mp h).resolve_left (Ne.symm hz)
      exact ((ih hy).cons z).trans (List.Perm.swap x z zs)

section Queues

variable [DecidableEq κ] [DecidableEq τ] {L : Layout κ τ ν} {I : Set κ} {l l' : Links ν}
variable {q : κ → List τ} {k : κ} {x : τ}

omit [DecidableEq κ] [DecidableEq τ] [DecidableEq ν] in
theorem Queues.nodup (h : Queues L I l q) (hk : k ∈ I) : (q k).Nodup :=
  List.Nodup.of_map _ (List.nodup_cons.mp (h.ring k hk).nodup).2

/-- The nodes that an operation on queue `k` with `x` may write to. -/
def Layout.touched (L : Layout κ τ ν) (q : κ → List τ) (k : κ) (x : τ) : List ν :=
  L.node x :: L.head k :: (q k).map L.node

omit [DecidableEq τ] [DecidableEq ν] in
/-- **The frame rule of the queues**: an operation on one of them leaves the rings of the
others. -/
theorem Queues.set (h : Queues L I l q) (hk : k ∈ I) {ys : List τ}
    (hx : ∀ j ∈ I, j ≠ k → x ∉ q j) (hring : Ring l' (L.head k) (ys.map L.node))
    (hsame : SameOutside l l' (L.touched q k x)) (hys : ∀ y ∈ ys, y = x ∨ y ∈ q k) :
    Queues L I l' (Function.update q k ys) where
  ring j hj := by
    by_cases hjk : j = k
    · subst j
      rw [Function.update_self]
      exact hring
    · rw [Function.update_of_ne hjk]
      refine (h.ring j hj).congr fun y hy => hsame y fun hm => ?_
      simp only [Layout.touched, List.mem_cons, List.mem_map] at hy hm
      rcases hy with rfl | ⟨z, hz, rfl⟩
      · rcases hm with hm | hm | ⟨w, -, hw⟩
        · exact L.head_ne_node _ _ hm
        · exact hjk (L.head_inj hm)
        · exact L.head_ne_node _ _ hw.symm
      · rcases hm with hm | hm | ⟨w, hw, hwz⟩
        · exact hx j hj hjk (L.node_inj hm ▸ hz)
        · exact L.head_ne_node _ _ hm.symm
        · exact hjk (h.apart j hj k hk z hz (L.node_inj hwz ▸ hw))
  apart i hi j hj y hyi hyj := by
    have hmem : ∀ i ∈ I, y ∈ Function.update q k ys i → i = k ∨ (y ∈ q i ∧ i ≠ k) := by
      intro i _ hy
      by_cases hik : i = k
      · exact .inl hik
      · rw [Function.update_of_ne hik] at hy
        exact .inr ⟨hy, hik⟩
    have hcross : ∀ i ∈ I, i ≠ k → y ∈ q i → y ∉ ys := fun i hi hik hy hmem => by
      rcases hys y hmem with rfl | hq
      · exact hx i hi hik hy
      · exact hik (h.apart i hi k hk y hy hq)
    rcases hmem i hi hyi with rfl | ⟨hyi', hik⟩
    · rcases hmem j hj hyj with rfl | ⟨hyj', hjk⟩
      · rfl
      · rw [Function.update_self] at hyi
        exact absurd hyi (hcross j hj hjk hyj')
    · rcases hmem j hj hyj with rfl | ⟨hyj', hjk⟩
      · rw [Function.update_self] at hyj
        exact absurd hyj (hcross i hi hik hyi')
      · exact h.apart i hi j hj y hyi' hyj'

omit [DecidableEq κ] [DecidableEq τ] [DecidableEq ν] in
theorem Layout.node_notMem {xs : List τ} (hx : x ∉ xs) : L.node x ∉ L.head k :: xs.map L.node := by
  simp only [List.mem_cons, List.mem_map, not_or, not_exists, not_and]
  exact ⟨(L.head_ne_node _ _).symm, fun y hy he => hx (L.node_inj he ▸ hy)⟩

omit [DecidableEq τ] in
theorem Queues.addTail (h : Queues L I l q) (hk : k ∈ I) (hx : ∀ j ∈ I, x ∉ q j) :
    ∃ l', listAddTail l (L.node x) (L.head k) = some l' ∧
      Queues L I l' (Function.update q k (q k ++ [x])) := by
  obtain ⟨l', hl, hring, hsame⟩ := listAddTail_ring_append (h.ring k hk) (L.node_notMem (hx k hk))
  refine ⟨l', hl, h.set hk (fun j hj _ => hx j hj) ?_ hsame fun y hy => ?_⟩
  · rw [List.map_append]
    exact hring
  · simpa [or_comm] using hy

omit [DecidableEq κ] [DecidableEq ν] in
theorem Queues.split (h : Queues L I l q) (hk : k ∈ I) (hx : x ∈ q k) :
    ∃ xs ys, q k = xs ++ x :: ys ∧ x ∉ xs ∧ (q k).erase x = xs ++ ys ∧
      ∀ j ∈ I, j ≠ k → x ∉ q j := by
  obtain ⟨xs, ys, hq⟩ := List.append_of_mem hx
  have hnd := h.nodup hk
  have hxs : x ∉ xs := fun hm => by
    rw [hq] at hnd
    exact (List.nodup_append.mp hnd).2.2 x hm x List.mem_cons_self rfl
  refine ⟨xs, ys, hq, hxs, ?_, fun j hj hjk hm => hjk (h.apart j hj k hk x hm hx)⟩
  rw [hq, List.erase_append_right _ hxs, List.erase_cons_head]

omit [DecidableEq κ] [DecidableEq ν] in
theorem SameOutside.mono {l l' : Links ν} {xs ys : List ν} (h : SameOutside l l' xs)
    (hs : ∀ x ∈ xs, x ∈ ys) : SameOutside l l' ys :=
  fun x hx => h x fun hm => hx (hs x hm)

theorem Queues.del (h : Queues L I l q) (hk : k ∈ I) (hx : x ∈ q k) (p1 p2 : ν) :
    ∃ l', listDel p1 p2 l (L.node x) = some l' ∧
      Queues L I l' (Function.update q k ((q k).erase x)) := by
  obtain ⟨xs, ys, hq, -, herase, hothers⟩ := h.split hk hx
  have hr := h.ring k hk
  rw [hq, List.map_append, List.map_cons] at hr
  obtain ⟨l', hl, hring, hsame⟩ := listDel_ring_append p1 p2 hr
  refine ⟨l', hl, h.set hk hothers ?_ (hsame.mono fun y hy => ?_) fun y hy => ?_⟩
  · rw [herase, List.map_append]
    exact hring
  · simp only [Layout.touched, hq, List.map_append, List.map_cons]
    exact List.mem_cons_of_mem _ hy
  · exact .inr (List.mem_of_mem_erase hy)

theorem Queues.unlink (h : Queues L I l q) (hk : k ∈ I) (hx : x ∈ q k) :
    Queues L I (listUnlink l (l.prev (L.node x)) (l.next (L.node x)))
      (Function.update q k ((q k).erase x)) := by
  obtain ⟨xs, ys, hq, -, herase, hothers⟩ := h.split hk hx
  have hr := h.ring k hk
  rw [hq, List.map_append, List.map_cons] at hr
  obtain ⟨hring, hsame⟩ := ring_unlink hr
  refine h.set hk hothers ?_ (hsame.mono fun y hy => ?_) fun y hy => ?_
  · rw [herase, List.map_append]
    exact hring
  · simp only [Layout.touched, hq, List.map_append, List.map_cons]
    exact List.mem_cons_of_mem _ hy
  · exact .inr (List.mem_of_mem_erase hy)

omit [DecidableEq ν] in
theorem Queues.notMem_erase (h : Queues L I l q) (hk : k ∈ I) (hx : x ∈ q k) :
    ∀ j ∈ I, x ∉ Function.update q k ((q k).erase x) j := by
  obtain ⟨-, -, -, -, -, hothers⟩ := h.split hk hx
  intro j hj
  by_cases hjk : j = k
  · subst j
    rw [Function.update_self]
    exact (h.nodup hk).not_mem_erase
  · rw [Function.update_of_ne hjk]
    exact hothers j hj hjk

theorem Queues.moveTail (h : Queues L I l q) (hk : k ∈ I) (hx : x ∈ q k) :
    ∃ l', listMoveTail l (L.node x) (L.head k) = some l' ∧
      Queues L I l' (Function.update q k ((q k).erase x ++ [x])) := by
  obtain ⟨l', hl, hq⟩ := (h.unlink hk hx).addTail hk (h.notMem_erase hk hx)
  rw [Function.update_self, Function.update_idem] at hq
  exact ⟨l', hl, hq⟩

theorem Queues.addBefore (h : Queues L I l q) (hk : k ∈ I) (hx : ∀ j ∈ I, x ∉ q j) {y : τ}
    (hy : y ∈ q k) : ∃ l', listAddTail l (L.node x) (L.node y) = some l' ∧
      Queues L I l' (Function.update q k (insertBefore x y (q k))) := by
  obtain ⟨xs, ys, hq, hxs, -⟩ := h.split hk hy
  have hr := h.ring k hk
  have hfree := L.node_notMem (k := k) (hx k hk)
  rw [hq, List.map_append, List.map_cons] at hr hfree
  have hfree' : L.node x ∉ L.node y :: (ys.map L.node ++ L.head k :: xs.map L.node) := by
    simp only [List.mem_cons, List.mem_append] at hfree ⊢
    tauto
  obtain ⟨l', hl, hring, hsame⟩ := listAddTail_ring_append (ring_rotate.mp hr) hfree'
  refine ⟨l', hl, h.set hk (fun j hj _ => hx j hj) ?_ (hsame.mono fun z hz => ?_) fun z hz => ?_⟩
  · rw [hq, insertBefore_append hxs, List.map_append]
    rw [List.append_assoc] at hring
    have hring' := ring_rotate.mpr hring
    simpa using hring'
  · simp only [Layout.touched, hq, List.map_append, List.map_cons, List.mem_cons,
      List.mem_append] at hz ⊢
    tauto
  · exact List.mem_cons.mp ((insertBefore_perm hy).mem_iff.mp hz)

omit [DecidableEq κ] [DecidableEq τ] in
theorem Queues.empty_iff (h : Queues L I l q) (hk : k ∈ I) :
    listEmpty l (L.head k) = true ↔ q k = [] := by
  have hr := h.ring k hk
  rw [listEmpty, decide_eq_true_iff]
  cases hq : q k with
  | nil =>
    rw [hq] at hr
    exact ⟨fun _ => rfl, fun _ => hr.path.1⟩
  | cons x xs =>
    rw [hq] at hr
    refine ⟨fun he => ?_, nofun⟩
    exact absurd (he.symm.trans hr.path.1) (L.head_ne_node _ _)

omit [DecidableEq κ] [DecidableEq τ] in
theorem Queues.initNode (h : Queues L I l q) (hx : ∀ j ∈ I, x ∉ q j) :
    Queues L I (initListHead l (L.node x)) q where
  ring j hj := (h.ring j hj).congr fun _ hy => initListHead_of_ne _ fun he =>
    L.node_notMem (hx j hj) (he ▸ hy)
  apart := h.apart

omit [DecidableEq κ] [DecidableEq τ] in
/-- `INIT_LIST_HEAD` of all heads. -/
theorem queues_init (L : Layout κ τ ν) (ks : List κ) (l : Links ν) :
    Queues L (fun k => k ∈ ks) (ks.foldl (fun l k => initListHead l (L.head k)) l)
      fun _ => [] where
  ring k hk := by
    induction ks using List.reverseRecOn with
    | nil => cases hk
    | append_singleton ks j ih =>
      rw [List.foldl_concat]
      by_cases hkj : L.head k = L.head j
      · rw [hkj]
        exact initListHead_ring _ _
      · have hk' : k ∈ ks := by
          rcases List.mem_append.mp hk with hm | hm
          · exact hm
          · exact absurd (congrArg L.head (List.mem_singleton.mp hm)) hkj
        refine (ih hk').congr fun x hx => initListHead_of_ne _ ?_
        rw [List.mem_singleton.mp hx]
        exact hkj
  apart _ _ _ _ _ hx := by cases hx

omit [DecidableEq κ] [DecidableEq τ] [DecidableEq ν] in
theorem Queues.first (h : Queues L I l q) (hk : k ∈ I) {xs : List τ} (hq : q k = x :: xs) :
    l.next (L.head k) = L.node x := by
  have hr := h.ring k hk
  rw [hq] at hr
  exact hr.path.1

end Queues

end Cs370.Kernel
