import Mathlib.Algebra.BigOperators.Group.Finset.Basic
import Mathlib.Algebra.Order.BigOperators.Group.Finset
import Cs370.Kernel.RunQueue

/-!
# What the run queue represents

Each array of the run queue is one first-in-first-out queue for each priority. `Rep rq S`: the
rings of the run queue hold the lists of `S`, a bit of a bitmap is set where its list is not empty,
and `nr_active` counts the tasks of an array. The functions that move tasks do to the lists what
their names say, and run into no check of `lib/list_debug.c`.
-/

namespace Cs370.RunQueue

open Cs370.Kernel
open Cs370.Sched (maxRtPrio maxPrio)

/-! ## Bitmaps -/

theorem Bitmap.getLsbD_set (b : Bitmap) {i : Nat} (hi : i < 192) (j : Nat) :
    (b.set i).getLsbD j = (b.getLsbD j || decide (i = j)) := by
  rw [Bitmap.set, BitVec.getLsbD_or, BitVec.getLsbD_twoPow, decide_eq_true hi, Bool.true_and]

theorem Bitmap.getLsbD_clear (b : Bitmap) {i : Nat} (hi : i < 192) {j : Nat} (hj : j < 192) :
    (b.clear i).getLsbD j = (b.getLsbD j && decide (i ≠ j)) := by
  rw [Bitmap.clear, BitVec.getLsbD_and, BitVec.getLsbD_not, BitVec.getLsbD_twoPow,
    decide_eq_true hi, decide_eq_true hj]
  simp

theorem ffs_eq {w : BitVec 64} {n : Nat} (hset : w.getLsbD n = true)
    (hclear : ∀ m < n, w.getLsbD m = false) : ffs w = n := by
  have hne : w ≠ 0 := fun he => by
    rw [he] at hset
    simp at hset
  have hctz := BitVec.getLsbD_true_ctz_of_ne_zero hne
  rcases Nat.lt_trichotomy w.ctz.toNat n with hlt | heq | hgt
  · rw [hclear _ hlt] at hctz
    cases hctz
  · exact heq
  · rw [BitVec.getLsbD_false_of_lt_ctz hgt] at hset
    cases hset

theorem Bitmap.getLsbD_word (b : Bitmap) (i : Nat) {j : Nat} (hj : j < 64) :
    (b.word i).getLsbD j = b.getLsbD (64 * i + j) := by
  rw [Bitmap.word, BitVec.getLsbD_extractLsb', decide_eq_true hj, Bool.true_and]

theorem Bitmap.word_eq_zero {b : Bitmap} {i n : Nat} (hclear : ∀ m < n, b.getLsbD m = false)
    (hn : 64 * i + 64 ≤ n) : b.word i = 0 := by
  apply BitVec.eq_of_getLsbD_eq
  intro j hj
  rw [Bitmap.getLsbD_word b i hj, hclear _ (by omega)]
  simp

theorem Bitmap.ffs_word {b : Bitmap} {i n : Nat} (hset : b.getLsbD n = true)
    (hclear : ∀ m < n, b.getLsbD m = false) (hle : 64 * i ≤ n) (hlt : n < 64 * i + 64) :
    b.word i ≠ 0 ∧ ffs (b.word i) + 64 * i = n := by
  have hbit : (b.word i).getLsbD (n - 64 * i) = true := by
    rw [Bitmap.getLsbD_word b i (by omega), show 64 * i + (n - 64 * i) = n by omega, hset]
  refine ⟨fun he => ?_, ?_⟩
  · rw [he] at hbit
    simp at hbit
  · rw [ffs_eq hbit fun m hm => ?_]
    · omega
    · rw [Bitmap.getLsbD_word b i (by omega), hclear _ (by omega)]

/-- **The first bit**: the search by words finds the least one that is set. -/
theorem schedFindFirstBit_eq {b : Bitmap} {n : Nat} (hset : b.getLsbD n = true)
    (hclear : ∀ m < n, b.getLsbD m = false) : schedFindFirstBit b = n := by
  have hn : n < 192 := by
    by_contra hge
    rw [BitVec.getLsbD_of_ge b n (by omega)] at hset
    cases hset
  unfold schedFindFirstBit
  by_cases h0 : n < 64
  · obtain ⟨hne, hffs⟩ := Bitmap.ffs_word (i := 0) hset hclear (by omega) (by omega)
    rw [if_pos hne]
    omega
  · rw [if_neg (by rw [Bitmap.word_eq_zero hclear (by omega)]; simp)]
    by_cases h1 : n < 128
    · obtain ⟨hne, hffs⟩ := Bitmap.ffs_word (i := 1) hset hclear (by omega) (by omega)
      rw [if_pos hne]
      omega
    · rw [if_neg (by rw [Bitmap.word_eq_zero hclear (by omega)]; simp)]
      obtain ⟨-, hffs⟩ := Bitmap.ffs_word (i := 2) hset hclear (by omega) (by omega)
      omega

/-! ## The lists -/

/-- The tasks of an array by priority. -/
abbrev Lists := ArrayId × Int → List Nat

def layout : Layout (ArrayId × Int) Nat Node where
  head k := .queue k.1 k.2
  node p := .runList p
  head_inj _ _ h := by
    injection h with h1 h2
    exact Prod.ext h1 h2
  node_inj _ _ h := by injection h
  head_ne_node _ _ h := by cases h

/-- The queues there are. -/
def Valid : Set (ArrayId × Int) := fun k => 0 ≤ k.2 ∧ k.2 < maxPrio

theorem Valid.toNat_lt {k : ArrayId × Int} (h : k ∈ Valid) : k.2.toNat < 140 := by
  obtain ⟨h1, h2⟩ : 0 ≤ k.2 ∧ k.2 < 140 := h
  omega

def count (S : Lists) (a : ArrayId) : Nat :=
  ∑ i ∈ Finset.range maxPrio.toNat, (S (a, (i : Int))).length

theorem Valid.cast_toNat {k : ArrayId × Int} (h : k ∈ Valid) : (k.1, (k.2.toNat : Int)) = k :=
  Prod.ext rfl (Int.toNat_of_nonneg h.1)

theorem count_update {S : Lists} {k : ArrayId × Int} (hk : k ∈ Valid) (xs : List Nat) :
    count (Function.update S k xs) k.1 + (S k).length = count S k.1 + xs.length := by
  have hmem : k.2.toNat ∈ Finset.range maxPrio.toNat := Finset.mem_range.mpr (Valid.toNat_lt hk)
  have hnew := Finset.add_sum_erase _
    (fun i : Nat => (Function.update S k xs (k.1, (i : Int))).length) hmem
  have hold := Finset.add_sum_erase _ (fun i : Nat => (S (k.1, (i : Int))).length) hmem
  have hrest : ∑ i ∈ (Finset.range maxPrio.toNat).erase k.2.toNat,
        (Function.update S k xs (k.1, (i : Int))).length =
      ∑ i ∈ (Finset.range maxPrio.toNat).erase k.2.toNat, (S (k.1, (i : Int))).length := by
    refine Finset.sum_congr rfl fun i hi => ?_
    have hne : (k.1, (i : Int)) ≠ k := fun he => by
      have hik := congrArg Prod.snd he
      simp only at hik
      exact Finset.ne_of_mem_erase hi (by omega)
    rw [Function.update_of_ne hne]
  simp only [Valid.cast_toNat hk, Function.update_self] at hnew hold
  unfold count
  omega

theorem count_update_of_ne {S : Lists} {k : ArrayId × Int} {a : ArrayId} (ha : a ≠ k.1)
    (xs : List Nat) : count (Function.update S k xs) a = count S a := by
  unfold count
  exact Finset.sum_congr rfl fun i _ => by
    rw [Function.update_of_ne fun he => ha (congrArg Prod.fst he)]

theorem count_eq_zero_iff {S : Lists} {a : ArrayId} :
    count S a = 0 ↔ ∀ i, (a, i) ∈ Valid → S (a, i) = [] := by
  unfold count
  rw [Finset.sum_eq_zero_iff]
  constructor
  · intro h i hi
    have hnil := h i.toNat (Finset.mem_range.mpr (Valid.toNat_lt hi))
    rwa [Valid.cast_toNat hi, List.length_eq_zero_iff] at hnil
  · intro h i hi
    have hlt : i < 140 := Finset.mem_range.mp hi
    exact List.length_eq_zero_iff.mpr (h i ⟨Int.natCast_nonneg i, show (i : Int) < 140 by omega⟩)

structure Rep (rq : Rq) (S : Lists) : Prop where
  queues : Queues layout Valid rq.links S
  prio : ∀ k ∈ Valid, ∀ p ∈ S k, (rq.task p).prio = k.2
  bitmap : ∀ k ∈ Valid, (rq.arrays k.1).bitmap.getLsbD k.2.toNat = true ↔ S k ≠ []
  delimiter : ∀ a, (rq.arrays a).bitmap.getLsbD 140 = true
  nrActive : ∀ a, (rq.arrays a).nrActive = count S a

/-- The task is on no queue. -/
def Off (S : Lists) (p : Nat) : Prop := ∀ k ∈ Valid, p ∉ S k

theorem Rep.congr {rq rq' : Rq} {S : Lists} (h : Rep rq S) (hl : rq'.links = rq.links)
    (ha : rq'.arrays = rq.arrays)
    (hp : ∀ k ∈ Valid, ∀ p ∈ S k, (rq'.task p).prio = (rq.task p).prio) : Rep rq' S where
  queues := hl ▸ h.queues
  prio k hk p hm := (hp k hk p hm).trans (h.prio k hk p hm)
  bitmap k hk := ha ▸ h.bitmap k hk
  delimiter a := ha ▸ h.delimiter a
  nrActive a := ha ▸ h.nrActive a

theorem Rep.setTask {rq : Rq} {S : Lists} (h : Rep rq S) {p : Nat} {t : Task}
    (ht : t.prio = (rq.task p).prio ∨ Off S p) : Rep (rq.setTask p t) S := by
  refine h.congr rfl rfl fun k hk q hq => ?_
  by_cases hqp : q = p
  · subst hqp
    rcases ht with ht | hoff
    · exact (congrArg Task.prio (Function.update_self ..)).trans ht
    · exact absurd hq (hoff k hk)
  · exact congrArg Task.prio (Function.update_of_ne hqp ..)

/-- Other links and other arrays. -/
def Rq.relink (rq : Rq) (l : Links Node) (A : ArrayId → PrioArray) : Rq :=
  { rq with links := l, arrays := A }

def Task.on (t : Task) (a : ArrayId) : Task := { t with array := some a }

def Task.off (t : Task) : Task := { t with array := none }

theorem Rep.set {rq : Rq} {S : Lists} (h : Rep rq S) {k : ArrayId × Int} (hk : k ∈ Valid)
    {l : Links Node} {arr : PrioArray} {xs : List Nat}
    (hq : Queues layout Valid l (Function.update S k xs))
    (hprio : ∀ p ∈ xs, (rq.task p).prio = k.2)
    (hbit : ∀ i < 141, arr.bitmap.getLsbD i =
      if i = k.2.toNat then decide (xs ≠ []) else (rq.arrays k.1).bitmap.getLsbD i)
    (hn : arr.nrActive + (S k).length = (rq.arrays k.1).nrActive + xs.length) :
    Rep (rq.relink l (Function.update rq.arrays k.1 arr)) (Function.update S k xs) where
  queues := hq
  prio j hj p hp := by
    by_cases hjk : j = k
    · subst hjk
      rw [Function.update_self] at hp
      exact hprio p hp
    · rw [Function.update_of_ne hjk] at hp
      exact h.prio j hj p hp
  bitmap j hj := by
    have hlt := Valid.toNat_lt hj
    by_cases hja : j.1 = k.1
    · simp only [Rq.relink, hja, Function.update_self]
      rw [hbit _ (by omega)]
      by_cases hjk : j = k
      · subst hjk
        simp
      · have hne : j.2.toNat ≠ k.2.toNat := fun he => by
          obtain ⟨h1, -⟩ : 0 ≤ j.2 ∧ _ := hj
          obtain ⟨h2, -⟩ : 0 ≤ k.2 ∧ _ := hk
          exact hjk (Prod.ext hja (by omega))
        rw [if_neg hne, Function.update_of_ne hjk, ← hja]
        exact h.bitmap j hj
    · simp only [Rq.relink, Function.update_of_ne hja]
      rw [Function.update_of_ne fun he => hja (congrArg Prod.fst he)]
      exact h.bitmap j hj
  delimiter a := by
    have hlt := Valid.toNat_lt hk
    by_cases ha : a = k.1
    · subst ha
      simp only [Rq.relink, Function.update_self]
      rw [hbit _ (by omega), if_neg (by omega)]
      exact h.delimiter k.1
    · simp only [Rq.relink, Function.update_of_ne ha]
      exact h.delimiter a
  nrActive a := by
    by_cases ha : a = k.1
    · subst ha
      simp only [Rq.relink, Function.update_self]
      have hcount := count_update hk xs (S := S)
      have hold := h.nrActive k.1
      omega
    · simp only [Rq.relink, Function.update_of_ne ha]
      rw [count_update_of_ne ha]
      exact h.nrActive a

/-! ## Moving tasks -/

section Moves

variable {rq : Rq} {S : Lists} {p : Nat} {a : ArrayId} (h : Rep rq S)
include h

theorem Rep.dequeue (hk : (a, (rq.task p).prio) ∈ Valid) (hp : p ∈ S (a, (rq.task p).prio)) :
    ∃ l A, dequeueTask rq p a = some (rq.relink l A) ∧
      Rep (rq.relink l A)
        (Function.update S (a, (rq.task p).prio) ((S (a, (rq.task p).prio)).erase p)) := by
  obtain ⟨l, hl, hq⟩ := h.queues.del hk hp .poison1 .poison2
  have hlt : (rq.task p).prio.toNat < 140 := Valid.toNat_lt hk
  have hempty : listEmpty l (.queue a (rq.task p).prio) = true ↔
      (S (a, (rq.task p).prio)).erase p = [] := by
    have hiff := hq.empty_iff hk
    rwa [Function.update_self] at hiff
  have hdel : dequeueTask rq p a = some ({ rq with links := l }.setArray a
      { nrActive := (rq.arrays a).nrActive - 1
        bitmap := if listEmpty l (.queue a (rq.task p).prio) then
          (rq.arrays a).bitmap.clear (rq.task p).prio.toNat else (rq.arrays a).bitmap }) := by
    rw [dequeueTask, show listDel .poison1 .poison2 rq.links (.runList p) = some l from hl]
    rfl
  refine ⟨l, _, hdel, h.set hk hq (fun q hm => h.prio _ hk q (List.mem_of_mem_erase hm))
    (fun i hi => ?_) ?_⟩
  · by_cases hnil : (S (a, (rq.task p).prio)).erase p = []
    · rw [if_pos (hempty.mpr hnil), Bitmap.getLsbD_clear _ (by omega) (by omega)]
      by_cases hip : i = (rq.task p).prio.toNat
      · simp [hip, hnil]
      · simp [hip, Ne.symm hip]
    · rw [if_neg (mt hempty.mp hnil)]
      by_cases hip : i = (rq.task p).prio.toNat
      · rw [if_pos hip, hip, decide_eq_true hnil]
        exact (h.bitmap _ hk).mpr (List.ne_nil_of_mem hp)
      · rw [if_neg hip]
  · have hlen := List.length_erase_of_mem hp
    have hpos := List.length_pos_of_mem hp
    have hcount := count_update hk [] (S := S)
    have hn := h.nrActive a
    simp only [List.length_nil] at hcount ⊢
    omega

theorem Rep.insert {l : Links Node} {xs : List Nat} (hk : (a, (rq.task p).prio) ∈ Valid)
    (hq : Queues layout Valid l (Function.update S (a, (rq.task p).prio) xs))
    (hxs : xs.Perm (p :: S (a, (rq.task p).prio))) {bitmap : Bitmap}
    (hbit : ∀ i, bitmap.getLsbD i =
      ((rq.arrays a).bitmap.getLsbD i || decide ((rq.task p).prio.toNat = i))) :
    Rep (rq.relink l (Function.update rq.arrays a ⟨(rq.arrays a).nrActive + 1, bitmap⟩))
      (Function.update S (a, (rq.task p).prio) xs) := by
  refine h.set hk hq (fun q hm => ?_) (fun i hi => ?_) ?_
  · rcases List.mem_cons.mp (hxs.mem_iff.mp hm) with rfl | hm
    · rfl
    · exact h.prio _ hk q hm
  · have hne : xs ≠ [] := List.ne_nil_of_mem (hxs.mem_iff.mpr List.mem_cons_self)
    rw [hbit]
    by_cases hip : i = (rq.task p).prio.toNat
    · simp [hip, hne]
    · simp [hip, Ne.symm hip]
  · rw [hxs.length_eq, List.length_cons]
    exact Nat.add_right_comm ..

theorem Rep.enqueue (hk : (a, (rq.task p).prio) ∈ Valid) (hp : Off S p) :
    ∃ l A, enqueueTask rq p a = some ((rq.relink l A).setTask p ((rq.task p).on a)) ∧
      Rep ((rq.relink l A).setTask p ((rq.task p).on a))
        (Function.update S (a, (rq.task p).prio) (S (a, (rq.task p).prio) ++ [p])) := by
  obtain ⟨l, hl, hq⟩ := h.queues.addTail hk hp
  have hlt : (rq.task p).prio.toNat < 140 := Valid.toNat_lt hk
  have hadd : enqueueTask rq p a = some (rq.enqueued p a l) := by
    rw [enqueueTask, show listAddTail rq.links (.runList p) (.queue a (rq.task p).prio) = some l
      from hl]
    rfl
  exact ⟨l, _, hadd, Rep.setTask (h.insert hk hq List.perm_append_comm
    fun i => Bitmap.getLsbD_set _ (by omega) i) (.inl rfl)⟩

theorem Rep.requeue (hk : (a, (rq.task p).prio) ∈ Valid) (hp : p ∈ S (a, (rq.task p).prio)) :
    ∃ l, requeueTask rq p a = some (rq.relink l rq.arrays) ∧
      Rep (rq.relink l rq.arrays) (Function.update S (a, (rq.task p).prio)
        ((S (a, (rq.task p).prio)).erase p ++ [p])) := by
  obtain ⟨l, hl, hq⟩ := h.queues.moveTail hk hp
  have hmove : requeueTask rq p a = some (rq.relink l rq.arrays) := by
    rw [requeueTask, show listMoveTail rq.links (.runList p) (.queue a (rq.task p).prio) = some l
      from hl]
    rfl
  have hperm : ((S (a, (rq.task p).prio)).erase p ++ [p]).Perm (S (a, (rq.task p).prio)) :=
    List.perm_append_comm.trans (List.perm_cons_erase hp).symm
  have hbit : ∀ i < 141, (rq.arrays a).bitmap.getLsbD i =
      if i = (rq.task p).prio.toNat then
        decide ((S (a, (rq.task p).prio)).erase p ++ [p] ≠ []) else
        (rq.arrays a).bitmap.getLsbD i := by
    intro i _
    by_cases hip : i = (rq.task p).prio.toNat
    · rw [if_pos hip, hip, decide_eq_true (by simp)]
      exact (h.bitmap _ hk).mpr (List.ne_nil_of_mem hp)
    · rw [if_neg hip]
  have hrep := h.set hk hq (fun q hm => h.prio _ hk q (hperm.mem_iff.mp hm)) hbit
    (by rw [hperm.length_eq])
  rw [Function.update_eq_self] at hrep
  exact ⟨l, hmove, hrep⟩

end Moves

/-- **The choice of `schedule`**: the first task of the first list that is not empty. -/
theorem Rep.next {rq : Rq} {S : Lists} (h : Rep rq S) (hne : count S rq.active ≠ 0) :
    ∃ i p xs, (rq.active, i) ∈ Valid ∧ S (rq.active, i) = p :: xs ∧
      (∀ j < i, (rq.active, j) ∈ Valid → S (rq.active, j) = []) ∧ nextTask rq = some p := by
  obtain ⟨i, hi, hnil⟩ : ∃ i, (rq.active, i) ∈ Valid ∧ S (rq.active, i) ≠ [] := by
    by_contra hall
    exact hne (count_eq_zero_iff.mpr fun i hi => by_contra fun hnil => hall ⟨i, hi, hnil⟩)
  have hbit : ∃ n, (rq.arrays rq.active).bitmap.getLsbD n = true :=
    ⟨_, (h.bitmap _ hi).mpr hnil⟩
  have hset := Nat.find_spec hbit
  have hle := Nat.find_min' hbit ((h.bitmap _ hi).mpr hnil)
  have hclear : ∀ m < Nat.find hbit, (rq.arrays rq.active).bitmap.getLsbD m = false :=
    fun m hm => Bool.eq_false_iff.mpr (Nat.find_min hbit hm)
  generalize Nat.find hbit = n at hset hle hclear
  have hlt := Valid.toNat_lt hi
  have hn : (rq.active, (n : Int)) ∈ Valid :=
    ⟨Int.natCast_nonneg n, show (n : Int) < 140 by simp only at hle hlt; omega⟩
  obtain ⟨p, xs, hp⟩ := List.exists_cons_of_ne_nil ((h.bitmap _ hn).mp hset)
  refine ⟨n, p, xs, hn, hp, fun j hj hv => ?_, ?_⟩
  · by_contra hne
    have htrue := (h.bitmap _ hv).mpr hne
    obtain ⟨hj0, -⟩ : 0 ≤ j ∧ _ := hv
    rw [hclear j.toNat (by omega)] at htrue
    cases htrue
  · have hfirst : rq.links.next (.queue rq.active n) = .runList p := h.queues.first hn hp
    rw [nextTask, schedFindFirstBit_eq hset hclear, hfirst]

/-! ## Start -/

theorem getLsbD_foldl_clear (b : Bitmap) (n : Nat) (hn : n ≤ 192) {i : Nat} (hi : i < 192) :
    ((List.range n).foldl Bitmap.clear b).getLsbD i = (b.getLsbD i && decide (n ≤ i)) := by
  induction n with
  | zero => simp
  | succ n ih =>
    rw [List.range_succ, List.foldl_append, List.foldl_cons, List.foldl_nil,
      Bitmap.getLsbD_clear _ (by omega) hi, ih (by omega), Bool.and_assoc, ← Bool.decide_and]
    congr 2
    exact propext (by omega)

theorem getLsbD_initArray (b : Bitmap) {i : Nat} (hi : i ≤ 140) :
    (initArray b).getLsbD i = decide (i = 140) := by
  rw [initArray, show maxPrio.toNat = 140 from rfl, Bitmap.getLsbD_set _ (by omega),
    getLsbD_foldl_clear b 140 (by omega) (by omega)]
  by_cases he : i = 140
  · simp [he]
  · simp [he, Ne.symm he, show ¬ 140 ≤ i by omega]

theorem mem_queueIds {k : ArrayId × Int} :
    k ∈ queueIds .zero ++ queueIds .one ↔ k ∈ Valid := by
  obtain ⟨a, i⟩ := k
  have hmem : ∀ b, (a, i) ∈ queueIds b ↔ b = a ∧ 0 ≤ i ∧ i < maxPrio := fun b => by
    simp only [queueIds, prios, List.mem_map, List.mem_range]
    constructor
    · rintro ⟨_, ⟨n, hn, rfl⟩, he⟩
      injection he with ha hi
      subst hi
      exact ⟨ha, Int.natCast_nonneg n, show (n : Int) < 140 by
        have : n < 140 := hn
        omega⟩
    · rintro ⟨rfl, h0, hlt⟩
      exact ⟨i, ⟨i.toNat, by omega, Int.toNat_of_nonneg h0⟩, rfl⟩
  rw [List.mem_append, hmem, hmem]
  constructor
  · rintro (⟨-, hv⟩ | ⟨-, hv⟩) <;> exact hv
  · intro hv
    cases a
    · exact .inl ⟨rfl, hv⟩
    · exact .inr ⟨rfl, hv⟩

theorem rep_schedInit (l : Links Node) (bitmap : ArrayId → Bitmap) (task : Nat → Task) (idle : Nat)
    (now : UInt64) : Rep (schedInit l bitmap task idle now) fun _ => [] where
  queues := by
    have hq := queues_init layout (queueIds .zero ++ queueIds .one) l
    have hset : (fun k => k ∈ queueIds .zero ++ queueIds .one) = Valid :=
      funext fun k => propext mem_queueIds
    have hhead : (fun (l : Links Node) (k : ArrayId × Int) => initListHead l (.queue k.1 k.2)) =
        fun l k => initListHead l (layout.head k) := rfl
    simp only [schedInit]
    rw [hhead, ← hset]
    exact hq
  prio _ _ _ hp := absurd hp List.not_mem_nil
  bitmap k hk := by
    have hlt := Valid.toNat_lt hk
    have hne : k.2.toNat ≠ 140 := by omega
    simp only [schedInit]
    rw [getLsbD_initArray _ (by omega), decide_eq_false hne]
    exact ⟨nofun, fun h => absurd rfl h⟩
  delimiter a := by
    simp only [schedInit]
    rw [getLsbD_initArray _ (Nat.le_refl 140), decide_eq_true rfl]
  nrActive a := (count_eq_zero_iff.mpr fun _ _ => rfl).symm

end Cs370.RunQueue
