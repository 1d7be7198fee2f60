import Cs370.Kernel.RunQueueRep

/-!
# The invariant of the run queue

`Inv rq S`: the run queue represents the lists `S`, `p->array` says on which array a task is, and
`nr_running` counts the tasks of both arrays. A function of `kernel/sched.c` takes a task off its
list before it changes the priority, and puts it back afterwards; `Out rq S p` is what holds in
between.
-/

namespace Cs370.RunQueue

open Cs370.Kernel
open Cs370.Sched (Policy maxRtPrio maxPrio)

/-! ## Priorities -/

/-- The bounds a task keeps. -/
structure Task.Ok (t : Task) : Prop where
  prio : 0 ≤ t.prio
  normalPrio : 0 ≤ t.normalPrio
  rtPriority : t.rtPriority ≤ 99

/-- What the run queue depends on in a task. -/
def Task.place (t : Task) : Int × Int × Nat × Option ArrayId :=
  (t.prio, t.normalPrio, t.rtPriority, t.array)

theorem Task.Ok.of_place {t u : Task} (h : t.Ok) (hu : u.place = t.place) : u.Ok := by
  obtain ⟨hprio, hnormal, hrt, -⟩ : u.prio = t.prio ∧ u.normalPrio = t.normalPrio ∧
      u.rtPriority = t.rtPriority ∧ u.array = t.array := by
    simpa only [Task.place, Prod.mk.injEq] using hu
  exact ⟨hprio ▸ h.prio, hnormal ▸ h.normalPrio, hrt ▸ h.rtPriority⟩

theorem bonusPrio_range (p : Sched.Task) : maxRtPrio ≤ p.bonusPrio ∧ p.bonusPrio < maxPrio := by
  unfold Sched.Task.bonusPrio
  simp only
  generalize p.staticPrio.val - _ = prio
  have hmax : maxPrio = 140 := rfl
  have hrt : maxRtPrio = 100 := rfl
  split
  · omega
  · split <;> omega

theorem newNormalPrio_range {t : Task} (h : t.rtPriority ≤ 99) :
    0 ≤ t.newNormalPrio ∧ t.newNormalPrio < maxPrio := by
  unfold Task.newNormalPrio Sched.Task.newNormalPrio
  split
  · have hsub : maxRtPrio - 1 - ((t.sched .null).rtPriority : Int) = (99 - t.rtPriority : Nat) := by
      simp only [Task.sched, maxRtPrio]
      omega
    rw [hsub, CInt.intW_of_lt (by omega)]
    simp only [maxPrio, maxRtPrio]
    omega
  · obtain ⟨hle, hlt⟩ := bonusPrio_range (t.sched .null)
    exact ⟨Int.le_trans (by decide) hle, hlt⟩

theorem effectivePrio_range {t : Task} (h : t.Ok) :
    0 ≤ t.effectivePrio ∧ t.effectivePrio < maxPrio := by
  unfold Task.effectivePrio Sched.Task.effectivePrio
  split
  · rename_i hrt
    have hlt : t.prio < 100 := of_decide_eq_true hrt
    exact ⟨h.prio, show t.prio < 140 by omega⟩
  · exact newNormalPrio_range h.rtPriority

theorem Task.Ok.setEffectivePrio {t : Task} (h : t.Ok) : t.setEffectivePrio.Ok where
  prio := (effectivePrio_range h).1
  normalPrio := (newNormalPrio_range h.rtPriority).1
  rtPriority := h.rtPriority

/-- `u` is `t` up to how it has slept. -/
def Slept (t u : Task) : Prop := ∃ avg ty, u = { t with sleepAvg := avg, sleepType := ty }

theorem recalcTaskPrio_eq (t : Task) (now : UInt64) : ∃ u, Slept t u ∧
    t.recalcTaskPrio now = ({ u with normalPrio := u.newNormalPrio }, u.effectivePrio) := by
  refine ⟨_, ?_, rfl⟩
  have hcap : ∀ u, Slept t u →
      Slept t (if nsMaxSleepAvg < u.sleepAvg then { u with sleepAvg := nsMaxSleepAvg } else u) := by
    rintro _ ⟨avg, ty, rfl⟩
    split <;> exact ⟨_, _, rfl⟩
  generalize (if t.batchTask then 0 else now - t.timestamp) = sleepTime
  split
  · refine hcap _ ?_
    repeat' split
    all_goals exact ⟨_, _, rfl⟩
  · exact ⟨_, _, rfl⟩

/-! ## Tasks that sleep little -/

theorem toInt_toInt64 (x : UInt64) :
    x.toInt64.toInt = if 2 * x.toNat < 2 ^ 64 then (x.toNat : Int) else x.toNat - 2 ^ 64 :=
  BitVec.toInt_eq_toNat_cond x.toBitVec

theorem nsMaxSleepAvg_toNat : nsMaxSleepAvg.toNat = 1000000000 := by decide

theorem runTime_le (t : Task) (now : UInt64) : (t.runTime now).toNat ≤ nsMaxSleepAvg.toNat := by
  have htime : (if (now - t.timestamp).toInt64 < nsMaxSleepAvg.toInt64 then
      if (now - t.timestamp).toInt64 < 0 then 0 else now - t.timestamp
      else nsMaxSleepAvg).toNat ≤ nsMaxSleepAvg.toNat := by
    generalize now - t.timestamp = x
    have hx := toInt_toInt64 x
    have hmax := toInt_toInt64 nsMaxSleepAvg
    rw [nsMaxSleepAvg_toNat] at hmax ⊢
    split
    · rename_i hlt
      rw [Int64.lt_iff_toInt_lt] at hlt
      split
      · exact Nat.zero_le _
      · rename_i hneg
        rw [Int64.lt_iff_toInt_lt, Int64.toInt_zero] at hneg
        have hlt64 := x.toNat_lt
        split at hx <;> split at hmax <;> omega
    · exact nsMaxSleepAvg_toNat.le
  unfold Task.runTime
  rw [UInt64.toNat_div]
  exact (Nat.div_le_self ..).trans htime

theorem charged_sleepAvg (t : Task) {runTime : UInt64} (now : UInt64)
    (h : runTime.toNat ≤ nsMaxSleepAvg.toNat) :
    (t.charged runTime now).sleepAvg.toNat ≤ t.sleepAvg.toNat := by
  have hx := toInt_toInt64 (t.sleepAvg - runTime)
  rw [nsMaxSleepAvg_toNat] at h
  simp only [Task.charged]
  split
  · exact Nat.zero_le _
  · rename_i hpos
    rw [Int64.le_iff_toInt_le, Int64.toInt_zero] at hpos
    rw [UInt64.toNat_sub] at hx ⊢
    have := t.sleepAvg.toNat_lt
    split at hx <;> omega

theorem currentBonus_eq (t : Sched.Task) :
    t.currentBonus = (t.sleepAvg : Int) / 4000000 * 10 / 250 := by
  change ((t.sleepAvg : Int).tdiv 4000000 * 10).tdiv 250 = _
  rw [Int.tdiv_eq_ediv_of_nonneg (Int.natCast_nonneg _), Int.tdiv_eq_ediv_of_nonneg (by omega)]

/-- A shorter average sleep does not give a better priority. -/
theorem bonusPrio_mono {t u : Sched.Task} (hs : u.staticPrio = t.staticPrio)
    (hle : u.sleepAvg ≤ t.sleepAvg) (hmax : t.sleepAvg ≤ nsMaxSleepAvg.toNat) :
    t.bonusPrio ≤ u.bonusPrio := by
  have hsmall : ∀ x : Int, -5 ≤ x → x ≤ 5 → CInt.intW 32 x = x := by
    intro x hlo hhi
    unfold CInt.intW CInt.uintW
    split <;> omega
  have hfive : Sched.maxBonus.tdiv 2 = 5 := rfl
  have hrt : maxRtPrio = 100 := rfl
  have hp : maxPrio = 140 := rfl
  rw [nsMaxSleepAvg_toNat] at hmax
  unfold Sched.Task.bonusPrio
  simp only [hs, currentBonus_eq, hfive]
  rw [hsmall _ (by omega) (by omega), hsmall _ (by omega) (by omega)]
  repeat' split
  all_goals omega

/-- A task that is not real-time, has slept too little to be interactive at the end of its time
slice, and is not credited for a sleep. -/
structure Task.Calm (t : Task) : Prop where
  prio : maxRtPrio ≤ t.prio
  policy : (t.sched .null).hasRtPolicy = false
  sleepType : interactiveSleepType t.sleepType = false
  sleepAvg : t.sleepAvg.toNat ≤ nsMaxSleepAvg.toNat
  expires : t.expired.interactive = false

theorem rtTask_eq_false {t : Task} (h : maxRtPrio ≤ t.prio) : t.rtTask = false :=
  decide_eq_false (Int.not_lt.mpr h)

theorem effectivePrio_eq_bonusPrio {t : Task} (hprio : maxRtPrio ≤ t.prio)
    (hpolicy : (t.sched .null).hasRtPolicy = false) :
    t.effectivePrio = (t.sched .null).bonusPrio := by
  have hrt : (t.sched .null).rtTask = false := rtTask_eq_false hprio
  rw [Task.effectivePrio, Sched.Task.effectivePrio, hrt, if_neg Bool.false_ne_true,
    Sched.Task.newNormalPrio, hpolicy, if_neg Bool.false_ne_true]

theorem Task.Calm.sleptLess {t u : Task} (h : t.Calm) (hprio : maxRtPrio ≤ u.prio)
    (hpolicy : u.policy = t.policy) (htype : interactiveSleepType u.sleepType = false)
    (hstatic : u.staticPrio = t.staticPrio) (hle : u.sleepAvg.toNat ≤ t.sleepAvg.toNat) :
    u.Calm := by
  have hpolicy' : (u.sched .null).hasRtPolicy = false := by
    have hrt : isRtPolicy t.policy = false := h.policy
    rw [← hpolicy] at hrt
    exact hrt
  refine ⟨hprio, hpolicy', htype, hle.trans h.sleepAvg, decide_eq_false fun hint => ?_⟩
  have hmono := bonusPrio_mono (t := t.sched .null) (u := u.sched .null) hstatic hle h.sleepAvg
  have hdelta : (u.sched .null).delta = (t.sched .null).delta := by
    simp only [Sched.Task.delta, Task.sched, hstatic]
  have hu : u.effectivePrio ≤ u.staticPrio.val - (u.sched .null).delta := hint
  have ht : ¬ t.effectivePrio ≤ t.staticPrio.val - (t.sched .null).delta :=
    of_decide_eq_false h.expires
  rw [effectivePrio_eq_bonusPrio hprio hpolicy', hstatic, hdelta] at hu
  rw [effectivePrio_eq_bonusPrio h.prio h.policy] at ht
  exact ht (hmono.trans hu)

theorem Task.Calm.on {t : Task} (h : t.Calm) (a : ArrayId) : (t.on a).Calm :=
  h.sleptLess h.prio rfl h.sleepType rfl le_rfl

theorem Task.Calm.expired {t : Task} (h : t.Calm) : t.expired.Calm := by
  refine h.sleptLess ?_ rfl h.sleepType rfl le_rfl
  change maxRtPrio ≤ t.effectivePrio
  rw [effectivePrio_eq_bonusPrio h.prio h.policy]
  exact (bonusPrio_range _).1

/-! ## Setting a task -/

@[simp] theorem Rq.setTask_self (rq : Rq) (p : Nat) (t : Task) : (rq.setTask p t).task p = t :=
  Function.update_self ..

@[simp] theorem Rq.setTask_of_ne (rq : Rq) {p q : Nat} (h : q ≠ p) (t : Task) :
    (rq.setTask p t).task q = rq.task q := Function.update_of_ne h ..

@[simp] theorem Rq.setTask_setTask (rq : Rq) (p : Nat) (t u : Task) :
    (rq.setTask p t).setTask p u = rq.setTask p u := by
  simp only [Rq.setTask, Function.update_idem]

/-! ## The invariant -/

def total (S : Lists) : Nat := count S .zero + count S .one

theorem total_update {S : Lists} {k : ArrayId × Int} (hk : k ∈ Valid) (xs : List Nat) :
    total (Function.update S k xs) + (S k).length = total S + xs.length := by
  have hcount := count_update hk xs (S := S)
  obtain ⟨a, i⟩ := k
  unfold total
  cases a with
  | zero =>
    rw [count_update_of_ne (a := .one) (fun he => by cases he)]
    simp only at hcount
    omega
  | one =>
    rw [count_update_of_ne (a := .zero) (fun he => by cases he)]
    simp only at hcount
    omega

structure Inv (rq : Rq) (S : Lists) : Prop extends Rep rq S where
  array : ∀ p a, (rq.task p).array = some a ↔
    (a, (rq.task p).prio) ∈ Valid ∧ p ∈ S (a, (rq.task p).prio)
  nrRunning : rq.nrRunning = total S
  distinct : rq.active ≠ rq.expired
  idle : (rq.task rq.idle).array = none
  ok : ∀ p, (rq.task p).Ok

/-- Everything but `p`, which is on no list. -/
structure Out (rq : Rq) (S : Lists) (p : Nat) : Prop extends Rep rq S where
  off : Off S p
  array : ∀ q, q ≠ p → ∀ a, (rq.task q).array = some a ↔
    (a, (rq.task q).prio) ∈ Valid ∧ q ∈ S (a, (rq.task q).prio)
  distinct : rq.active ≠ rq.expired
  ne_idle : p ≠ rq.idle
  idle : (rq.task rq.idle).array = none
  ok : ∀ q, q ≠ p → (rq.task q).Ok

theorem Inv.array_of_mem {rq : Rq} {S : Lists} {p : Nat} {k : ArrayId × Int} (h : Inv rq S)
    (hk : k ∈ Valid) (hm : p ∈ S k) : (rq.task p).array = some k.1 := by
  have hprio := h.prio k hk p hm
  exact (h.array p k.1).mpr (by rw [hprio]; exact ⟨hk, hm⟩)

theorem Inv.off {rq : Rq} {S : Lists} {p : Nat} (h : Inv rq S) (hp : (rq.task p).array = none) :
    Off S p := by
  intro k hk hm
  have hsome := h.array_of_mem hk hm
  rw [hp] at hsome
  cases hsome

theorem Inv.congr {rq rq' : Rq} {S : Lists} (h : Inv rq S) (hl : rq'.links = rq.links)
    (ha : rq'.arrays = rq.arrays) (ht : rq'.task = rq.task) (hn : rq'.nrRunning = rq.nrRunning)
    (hi : rq'.idle = rq.idle) (hd : rq'.active ≠ rq'.expired) : Inv rq' S where
  toRep := h.toRep.congr hl ha fun _ _ _ _ => by rw [ht]
  array := ht ▸ h.array
  nrRunning := hn.trans h.nrRunning
  distinct := hd
  idle := by rw [ht, hi, h.idle]
  ok := ht ▸ h.ok

theorem Inv.setTask {rq : Rq} {S : Lists} {p : Nat} {t : Task} (h : Inv rq S)
    (hprio : t.prio = (rq.task p).prio ∨ (rq.task p).array = none)
    (harray : t.array = (rq.task p).array) (hok : t.Ok) : Inv (rq.setTask p t) S where
  toRep := h.toRep.setTask (hprio.imp_right h.off)
  array q a := by
    by_cases hq : q = p
    · subst hq
      simp only [Rq.setTask, Function.update_self]
      rcases hprio with hprio | hnone
      · rw [harray, hprio]
        exact h.array q a
      · rw [harray, hnone]
        exact ⟨nofun, fun hm => absurd hm.2 (h.off hnone _ hm.1)⟩
    · simp only [Rq.setTask, Function.update_of_ne hq]
      exact h.array q a
  nrRunning := h.nrRunning
  distinct := h.distinct
  idle := by
    by_cases hi : rq.idle = p
    · simp only [Rq.setTask, hi, Function.update_self]
      rw [harray, ← hi, h.idle]
    · simp only [Rq.setTask, Function.update_of_ne hi]
      exact h.idle
  ok q := by
    by_cases hq : q = p
    · subst hq
      simp only [Rq.setTask, Function.update_self]
      exact hok
    · simp only [Rq.setTask, Function.update_of_ne hq]
      exact h.ok q

section

variable {rq : Rq} {S : Lists} {p : Nat} {a : ArrayId} {t : Task}

theorem Inv.touch (h : Inv rq S) (ht : t.place = (rq.task p).place) : Inv (rq.setTask p t) S :=
  h.setTask (.inl (congrArg (·.1) ht)) (congrArg (·.2.2.2) ht) ((h.ok p).of_place ht)

theorem Inv.ne_idle (h : Inv rq S) (ha : (rq.task p).array = some a) : p ≠ rq.idle := by
  rintro rfl
  rw [h.idle] at ha
  cases ha

theorem Inv.out (h : Inv rq S) (hp : (rq.task p).array = none) (hi : p ≠ rq.idle) :
    Out rq S p where
  toRep := h.toRep
  off := h.off hp
  array q _ := h.array q
  distinct := h.distinct
  ne_idle := hi
  idle := h.idle
  ok q _ := h.ok q

theorem Inv.dequeue (h : Inv rq S) (ha : (rq.task p).array = some a) :
    ∃ l A, dequeueTask rq p a = some (rq.relink l A) ∧
      Out (rq.relink l A)
        (Function.update S (a, (rq.task p).prio) ((S (a, (rq.task p).prio)).erase p)) p ∧
      total (Function.update S (a, (rq.task p).prio) ((S (a, (rq.task p).prio)).erase p)) + 1 =
        rq.nrRunning := by
  obtain ⟨hk, hm⟩ := (h.array p a).mp ha
  obtain ⟨l, A, hdeq, hrep⟩ := h.toRep.dequeue hk hm
  refine ⟨l, A, hdeq, ⟨hrep, h.queues.notMem_erase hk hm, fun q hq b => ?_, h.distinct,
    h.ne_idle ha, h.idle, fun q _ => h.ok q⟩, ?_⟩
  · refine (h.array q b).trans (and_congr_right fun _ => ?_)
    simp only [Rq.relink]
    by_cases hkey : (b, (rq.task q).prio) = (a, (rq.task p).prio)
    · rw [hkey, Function.update_self, List.mem_erase_of_ne hq]
    · rw [Function.update_of_ne hkey]
  · have htotal := total_update (S := S) hk ((S (a, (rq.task p).prio)).erase p)
    have hlen := List.length_erase_of_mem hm
    have hpos := List.length_pos_of_mem hm
    have hn := h.nrRunning
    omega

theorem Out.setTask (h : Out rq S p) (t : Task) : Out (rq.setTask p t) S p where
  toRep := h.toRep.setTask (.inr h.off)
  off := h.off
  array q hq := by
    simp only [Rq.setTask, Function.update_of_ne hq]
    exact h.array q hq
  distinct := h.distinct
  ne_idle := h.ne_idle
  idle := by
    simp only [Rq.setTask, Function.update_of_ne h.ne_idle.symm]
    exact h.idle
  ok q hq := by
    simp only [Rq.setTask, Function.update_of_ne hq]
    exact h.ok q hq

theorem Out.inv {l : Links Node} {A : ArrayId → PrioArray} {xs : List Nat} {n : Nat}
    (h : Out rq S p) (ht : t.array = some a) (hk : (a, t.prio) ∈ Valid)
    (hrep : Rep ((rq.relink l A).setTask p t) (Function.update S (a, t.prio) xs))
    (hxs : xs.Perm (p :: S (a, t.prio))) (hok : t.Ok) (hn : n = total S + 1) :
    Inv { (rq.relink l A).setTask p t with nrRunning := n }
      (Function.update S (a, t.prio) xs) where
  toRep := hrep.congr rfl rfl fun _ _ _ _ => rfl
  array q b := by
    simp only
    by_cases hq : q = p
    · subst hq
      rw [Rq.setTask_self, ht, Option.some_inj]
      constructor
      · rintro rfl
        rw [Function.update_self]
        exact ⟨hk, hxs.mem_iff.mpr List.mem_cons_self⟩
      · rintro ⟨hb, hm⟩
        by_contra hne
        rw [Function.update_of_ne fun he => hne (congrArg Prod.fst he).symm] at hm
        exact h.off _ hb hm
    · rw [Rq.setTask_of_ne _ hq]
      refine (h.array q hq b).trans (and_congr_right fun _ => ?_)
      simp only [Rq.relink]
      by_cases hkey : (b, (rq.task q).prio) = (a, t.prio)
      · rw [hkey, Function.update_self, hxs.mem_iff, List.mem_cons]
        exact ⟨.inr, fun hm => hm.resolve_left hq⟩
      · rw [Function.update_of_ne hkey]
  nrRunning := by
    have htotal := total_update hk xs (S := S)
    have hlen := hxs.length_eq
    rw [List.length_cons] at hlen
    simp only
    omega
  distinct := h.distinct
  idle := (congrArg Task.array (Rq.setTask_of_ne _ h.ne_idle.symm t)).trans h.idle
  ok q := by
    by_cases hq : q = p
    · subst hq
      exact (Rq.setTask_self ..).symm ▸ hok
    · exact (Rq.setTask_of_ne _ hq t).symm ▸ h.ok q hq

theorem Task.Ok.on (h : t.Ok) (a : ArrayId) : (t.on a).Ok := ⟨h.prio, h.normalPrio, h.rtPriority⟩

theorem Out.enqueue (h : Out rq S p) (hk : (a, (rq.task p).prio) ∈ Valid)
    (hok : (rq.task p).Ok) : ∃ l A S',
      enqueueTask rq p a = some ((rq.relink l A).setTask p ((rq.task p).on a)) ∧
      ∀ n, n = total S + 1 →
        Inv { (rq.relink l A).setTask p ((rq.task p).on a) with nrRunning := n } S' := by
  obtain ⟨l, A, henq, hrep⟩ := h.toRep.enqueue hk h.off
  exact ⟨l, A, _, henq, fun n hn => h.inv rfl hk hrep List.perm_append_comm (hok.on a) hn⟩

/-- The task is taken off its list, changed, and put on a list again. -/
theorem Inv.move {b : ArrayId} (h : Inv rq S) (ha : (rq.task p).array = some a) (hok : t.Ok)
    (hk : (b, t.prio) ∈ Valid) : ∃ l A, dequeueTask rq p a = some (rq.relink l A) ∧
      ∃ l' A' S', enqueueTask ((rq.relink l A).setTask p t) p b =
          some ((rq.relink l' A').setTask p (t.on b)) ∧
        Inv ((rq.relink l' A').setTask p (t.on b)) S' := by
  obtain ⟨l, A, hdeq, hout, htotal⟩ := h.dequeue ha
  have hself := (rq.relink l A).setTask_self p t
  obtain ⟨l', A', S', henq, hinv⟩ := (hout.setTask t).enqueue (a := b) (by rwa [hself])
    (by rwa [hself])
  have hset : (((rq.relink l A).setTask p t).relink l' A').setTask p (t.on b) =
      (rq.relink l' A').setTask p (t.on b) := (rq.relink l' A').setTask_setTask p t _
  rw [hself, hset] at henq hinv
  exact ⟨l, A, hdeq, l', A', S', henq, hinv _ htotal.symm⟩

theorem Inv.activate (h : Inv rq S) (hp : (rq.task p).array = none) (hi : p ≠ rq.idle)
    (hlt : (rq.task p).prio < maxPrio) : ∃ l A b S',
      RunQueue.activate rq p = some { (rq.relink l A).setTask p ((rq.task p).on b) with
        nrRunning := rq.nrRunning + 1 } ∧
      Inv { (rq.relink l A).setTask p ((rq.task p).on b) with nrRunning := rq.nrRunning + 1 }
        S' := by
  obtain ⟨l, A, S', henq, hinv⟩ := (h.out hp hi).enqueue
    (a := if (rq.task p).batchTask then rq.expired else rq.active) ⟨(h.ok p).prio, hlt⟩ (h.ok p)
  refine ⟨l, A, _, S', ?_, hinv _ (congrArg (· + 1) h.nrRunning)⟩
  rw [RunQueue.activate, henq]
  rfl

theorem Out.asleep {n : Nat} (h : Out rq S p) (ht : t.array = none) (hok : t.Ok)
    (hn : n = total S) : Inv { rq.setTask p t with nrRunning := n } S where
  toRep := (h.toRep.setTask (.inr h.off)).congr rfl rfl fun _ _ _ _ => rfl
  array q b := by
    simp only
    by_cases hq : q = p
    · subst hq
      rw [Rq.setTask_self, ht]
      exact ⟨nofun, fun hm => absurd hm.2 (h.off _ hm.1)⟩
    · rw [Rq.setTask_of_ne _ hq]
      exact h.array q hq b
  nrRunning := hn
  distinct := h.distinct
  idle := (congrArg Task.array (Rq.setTask_of_ne _ h.ne_idle.symm t)).trans h.idle
  ok q := by
    by_cases hq : q = p
    · subst hq
      exact (Rq.setTask_self ..).symm ▸ hok
    · exact (Rq.setTask_of_ne _ hq t).symm ▸ h.ok q hq

theorem dequeueTask_nrRunning (rq : Rq) (p : Nat) (a : ArrayId) (n : Nat) :
    dequeueTask { rq with nrRunning := n } p a =
      (dequeueTask rq p a).map ({ · with nrRunning := n }) := by
  simp only [dequeueTask]
  cases listDel .poison1 .poison2 rq.links (.runList p) <;> rfl

theorem Inv.deactivate (h : Inv rq S) (ha : (rq.task p).array = some a) : ∃ l A,
      deactivateTask rq p =
        some { (rq.relink l A).setTask p (rq.task p).off with nrRunning := rq.nrRunning - 1 } ∧
      Inv { (rq.relink l A).setTask p (rq.task p).off with nrRunning := rq.nrRunning - 1 }
        (Function.update S (a, (rq.task p).prio) ((S (a, (rq.task p).prio)).erase p)) := by
  obtain ⟨l, A, hdeq, hout, htotal⟩ := h.dequeue ha
  have hok : (rq.task p).off.Ok := ⟨(h.ok p).prio, (h.ok p).normalPrio, (h.ok p).rtPriority⟩
  refine ⟨l, A, ?_, hout.asleep rfl hok (by omega)⟩
  rw [deactivateTask, ha]
  simp only [Option.bind_eq_bind, Option.bind_some]
  rw [dequeueTask_nrRunning, hdeq]
  rfl

/-! ## The tick -/

theorem Out.clock (h : Out rq S p) (ts : UInt64) : Out { rq with expiredTimestamp := ts } S p where
  toRep := h.toRep.congr rfl rfl fun _ _ _ _ => rfl
  off := h.off
  array := h.array
  distinct := h.distinct
  ne_idle := h.ne_idle
  idle := h.idle
  ok := h.ok

/-- The array for a task whose time slice has ended. -/
def Rq.expiryArray (rq : Rq) (p : Nat) (jiffies : UInt64) : ArrayId :=
  if !(rq.task p).interactive || expiredStarving rq jiffies then rq.expired else rq.active

theorem Out.place (h : Out rq S p) (hk : (rq.task p).prio < maxPrio) (hok : (rq.task p).Ok)
    (hn : rq.nrRunning = total S + 1) (j : UInt64) : ∃ l A best S',
      placeExpired rq p j = some { (rq.relink l A).setTask p
        ((rq.task p).on (rq.expiryArray p j)) with bestExpiredPrio := best } ∧
      Inv { (rq.relink l A).setTask p ((rq.task p).on (rq.expiryArray p j)) with
        bestExpiredPrio := best } S' := by
  obtain ⟨l, A, S', henq, hinv⟩ := h.enqueue (a := rq.expiryArray p j) ⟨hok.prio, hk⟩ hok
  have hbest : ∀ best, Inv { (rq.relink l A).setTask p ((rq.task p).on (rq.expiryArray p j)) with
      bestExpiredPrio := best } S' :=
    fun best => (hinv _ hn).congr rfl rfl rfl rfl rfl h.distinct
  by_cases htest : (!(rq.task p).interactive || expiredStarving rq j) = true
  · have harray : rq.expiryArray p j = rq.expired := if_pos htest
    refine ⟨l, A, if (rq.task p).staticPrio.val < rq.bestExpiredPrio then
      (rq.task p).staticPrio.val else rq.bestExpiredPrio, S', ?_, hbest _⟩
    rw [harray] at henq ⊢
    rw [placeExpired, if_pos htest, henq]
    rfl
  · have harray : rq.expiryArray p j = rq.active := if_neg htest
    refine ⟨l, A, rq.bestExpiredPrio, S', ?_, hbest _⟩
    rw [harray] at henq ⊢
    rw [placeExpired, if_neg htest, henq]
    rfl

theorem Inv.expire (h : Inv rq S) (ha : (rq.task p).array = some rq.active) (j : UInt64) :
    ∃ l A best S', expireTask rq p j = some { ((rq.atExpiry p j).relink l A).setTask p
        ((rq.task p).expired.on ((rq.atExpiry p j).expiryArray p j)) with
          bestExpiredPrio := best } ∧
      Inv { ((rq.atExpiry p j).relink l A).setTask p
        ((rq.task p).expired.on ((rq.atExpiry p j).expiryArray p j)) with
          bestExpiredPrio := best } S' := by
  obtain ⟨l, A, hdeq, hout, htotal⟩ := h.dequeue ha
  have hok : (rq.task p).expired.Ok := (h.ok p).setEffectivePrio.of_place rfl
  have hself : ((rq.atExpiry p j).relink l A).task p = (rq.task p).expired :=
    Function.update_self ..
  have hout : Out ((rq.atExpiry p j).relink l A) _ p :=
    (hout.clock (rq.expiry j)).setTask (rq.task p).expired
  obtain ⟨l', A', best, S', hplace, hinv⟩ := hout.place
    (by rw [hself]; exact (effectivePrio_range (h.ok p)).2) (by rwa [hself]) htotal.symm j
  rw [hself] at hplace hinv
  refine ⟨l', A', best, S', ?_, hinv⟩
  rw [expireTask, hdeq]
  exact hplace

theorem Inv.requeue (h : Inv rq S) (ha : (rq.task p).array = some a) :
    ∃ l S', requeueTask rq p a = some (rq.relink l rq.arrays) ∧ Inv (rq.relink l rq.arrays) S' := by
  obtain ⟨hk, hm⟩ := (h.array p a).mp ha
  obtain ⟨l, hreq, hrep⟩ := h.toRep.requeue hk hm
  have hperm : ((S (a, (rq.task p).prio)).erase p ++ [p]).Perm (S (a, (rq.task p).prio)) :=
    List.perm_append_comm.trans (List.perm_cons_erase hm).symm
  refine ⟨l, _, hreq, hrep, fun q b => ?_, ?_, h.distinct, h.idle, h.ok⟩
  · refine (h.array q b).trans (and_congr_right fun _ => ?_)
    simp only [Rq.relink]
    by_cases hkey : (b, (rq.task q).prio) = (a, (rq.task p).prio)
    · rw [hkey, Function.update_self, hperm.mem_iff]
    · rw [Function.update_of_ne hkey]
  · have htotal := total_update hk (S := S) ((S (a, (rq.task p).prio)).erase p ++ [p])
    rw [hperm.length_eq] at htotal
    exact h.nrRunning.trans (by omega)

theorem Inv.tick_run (h : Inv rq S) (ha : (rq.task p).array = some rq.active)
    (hrt : (rq.task p).rtTask = false) (hslice : (rq.task p).ticked.timeSlice ≠ 0) (j : UInt64) :
    ∃ l r S', taskRunningTick rq p j = some ((rq.relink l rq.arrays).setTask p
        { (rq.task p).ticked with needResched := r }) ∧
      Inv ((rq.relink l rq.arrays).setTask p { (rq.task p).ticked with needResched := r }) S' := by
  have htick : taskRunningTick rq p j = if (rq.task p).ticked.givesWay rq.active then
      requeueTask (rq.setTask p { (rq.task p).ticked with needResched := true }) p rq.active
      else some (rq.setTask p (rq.task p).ticked) := by
    simp only [taskRunningTick, ha, hrt, hslice]
    simp
  rw [htick]
  split
  · have hset : Inv (rq.setTask p { (rq.task p).ticked with needResched := true }) S := h.touch rfl
    obtain ⟨l, S', hreq, hinv⟩ := hset.requeue (a := rq.active)
      (by rw [Rq.setTask_self]; exact ha)
    exact ⟨l, true, S', hreq, hinv⟩
  · exact ⟨rq.links, (rq.task p).needResched, S, rfl, h.touch rfl⟩

theorem Inv.tick_expire (h : Inv rq S) (ha : (rq.task p).array = some rq.active)
    (hrt : (rq.task p).rtTask = false) (hslice : (rq.task p).ticked.timeSlice = 0) (j : UInt64) :
    ∃ l A best S', taskRunningTick rq p j = some { ((rq.atExpiry p j).relink l A).setTask p
        ((rq.task p).expired.on ((rq.atExpiry p j).expiryArray p j)) with
          bestExpiredPrio := best } ∧
      Inv { ((rq.atExpiry p j).relink l A).setTask p
        ((rq.task p).expired.on ((rq.atExpiry p j).expiryArray p j)) with
          bestExpiredPrio := best } S' := by
  have hset : Inv (rq.setTask p (rq.task p).ticked) S := h.touch rfl
  have hsame : (rq.setTask p (rq.task p).ticked).atExpiry p j = rq.atExpiry p j := by
    simp only [Rq.atExpiry, Rq.setTask_self]
    exact Rq.setTask_setTask { rq with expiredTimestamp := rq.expiry j } p _ _
  obtain ⟨l, A, best, S', hexp, hinv⟩ := hset.expire (by rw [Rq.setTask_self]; exact ha) j
  rw [Rq.setTask_self, hsame] at hexp hinv
  have htick : taskRunningTick rq p j = expireTask (rq.setTask p (rq.task p).ticked) p j := by
    simp [taskRunningTick, ha, hrt, hslice]
  exact ⟨l, A, best, S', htick.trans hexp, hinv⟩

end

/-! ## Calls that keep the tasks where they are -/

/-- The same tasks run, are queued or sleep. -/
structure Kept (rq rq' : Rq) : Prop where
  curr : rq'.curr = rq.curr
  idle : rq'.idle = rq.idle
  state : ∀ q, (rq'.task q).state = (rq.task q).state
  queued : ∀ q, (rq'.task q).array.isSome = (rq.task q).array.isSome

def Keeps (rq : Rq) (r : Option Rq) : Prop := ∃ rq' S, r = some rq' ∧ Inv rq' S ∧ Kept rq rq'

section

variable {rq rq' : Rq} {S : Lists} {p : Nat} {a : ArrayId} {t : Task}

theorem array_none {u : Task} (h : u.array.isSome = t.array.isSome) (ht : t.array = none) :
    u.array = none := by
  rw [ht] at h
  exact Option.isNone_iff_eq_none.mp (Option.isSome_eq_false_iff.mp h)

theorem Kept.refl (rq : Rq) : Kept rq rq := ⟨rfl, rfl, fun _ => rfl, fun _ => rfl⟩

theorem Kept.trans {rq'' : Rq} (h : Kept rq rq') (h' : Kept rq' rq'') : Kept rq rq'' where
  curr := h'.curr.trans h.curr
  idle := h'.idle.trans h.idle
  state q := (h'.state q).trans (h.state q)
  queued q := (h'.queued q).trans (h.queued q)

theorem Kept.of_task (hcurr : rq'.curr = rq.curr) (hidle : rq'.idle = rq.idle)
    (htask : rq'.task = Function.update rq.task p t) (hstate : t.state = (rq.task p).state)
    (hqueued : t.array.isSome = (rq.task p).array.isSome) : Kept rq rq' := by
  refine ⟨hcurr, hidle, fun q => ?_, fun q => ?_⟩ <;>
  · rw [htask]
    by_cases hq : q = p
    · subst hq
      rw [Function.update_self]
      assumption
    · rw [Function.update_of_ne hq]

theorem Keeps.of_none (h : Inv rq S) (ha : (rq.task p).array = none)
    (harray : t.array = (rq.task p).array) (hok : t.Ok) (hstate : t.state = (rq.task p).state) :
    Keeps rq (some (rq.setTask p t)) :=
  ⟨_, S, rfl, h.setTask (.inr ha) harray hok,
    Kept.of_task rfl rfl rfl hstate (congrArg Option.isSome harray)⟩

theorem Kept.touch (ht : t.place = (rq.task p).place) (hstate : t.state = (rq.task p).state) :
    Kept rq (rq.setTask p t) :=
  Kept.of_task rfl rfl rfl hstate (congrArg (·.2.2.2.isSome) ht)

theorem Keeps.touch (h : Inv rq S) (ht : t.place = (rq.task p).place)
    (hstate : t.state = (rq.task p).state) : Keeps rq (some (rq.setTask p t)) :=
  ⟨_, S, rfl, h.touch ht, Kept.touch ht hstate⟩

/-- A tick of a real-time task, which has a time slice only with `SCHED_RR`. -/
theorem Inv.tick_rt (h : Inv rq S) (ha : (rq.task p).array = some rq.active)
    (hrt : (rq.task p).rtTask = true) (j : UInt64) : Keeps rq (taskRunningTick rq p j) := by
  by_cases hrr : (rq.task p).policy = .rr
  · by_cases hslice : (rq.task p).ticked.timeSlice = 0
    · have htick : taskRunningTick rq p j = requeueTask (rq.setTask p { rq.task p with
          timeSlice := (rq.task p).taskTimeslice, firstTimeSlice := false,
          needResched := true }) p rq.active := by
        simp [taskRunningTick, ha, hrt, hrr, hslice]
      have hset : Inv (rq.setTask p { rq.task p with
          timeSlice := (rq.task p).taskTimeslice, firstTimeSlice := false,
          needResched := true }) S := h.touch rfl
      obtain ⟨l, S', hreq, hinv⟩ := hset.requeue (a := rq.active)
        (by rw [Rq.setTask_self]; exact ha)
      exact ⟨_, S', htick.trans hreq, hinv, Kept.of_task rfl rfl rfl rfl rfl⟩
    · have htick : taskRunningTick rq p j = some (rq.setTask p (rq.task p).ticked) := by
        simp [taskRunningTick, ha, hrt, hrr, hslice]
      rw [htick]
      exact Keeps.touch h rfl rfl
  · have htick : taskRunningTick rq p j = some rq := by
      simp [taskRunningTick, ha, hrt, hrr]
    exact ⟨rq, S, htick, h, Kept.refl rq⟩

theorem Inv.tick (h : Inv rq S) (p : Nat) (j : UInt64) : Keeps rq (taskRunningTick rq p j) := by
  by_cases ha : (rq.task p).array = some rq.active
  · have hsome : ∀ u : Task, ∀ b, (u.on b).array.isSome = (rq.task p).array.isSome := fun u b => by
      rw [ha]
      rfl
    by_cases hrt : (rq.task p).rtTask = true
    · exact h.tick_rt ha hrt j
    · rw [Bool.not_eq_true] at hrt
      by_cases hslice : (rq.task p).ticked.timeSlice = 0
      · obtain ⟨l, A, best, S', htick, hinv⟩ := h.tick_expire ha hrt hslice j
        exact ⟨_, S', htick, hinv, Kept.of_task rfl rfl (Function.update_idem ..) rfl (hsome _ _)⟩
      · obtain ⟨l, r, S', htick, hinv⟩ := h.tick_run ha hrt hslice j
        exact ⟨_, S', htick, hinv, Kept.of_task rfl rfl rfl rfl rfl⟩
  · have htick : taskRunningTick rq p j =
        some (rq.setTask p { rq.task p with needResched := true }) := by
      simp [taskRunningTick, ha]
    rw [htick]
    exact Keeps.touch h rfl rfl

end

end Cs370.RunQueue
