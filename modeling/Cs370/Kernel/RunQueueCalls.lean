import Cs370.Kernel.RunQueueInv

/-!
# The calls of the scheduler

Each call of the scheduler has a result where it may be made, and keeps the invariant of the run
queue: `schedule`, waking, forking, the changes of priority and `sched_yield`.
-/

namespace Cs370.RunQueue

open Cs370.Kernel
open Cs370.Sched (Policy maxRtPrio maxPrio)

section

variable {rq rq' : Rq} {S : Lists} {p : Nat} {a : ArrayId} {t : Task}

/-! ## Asking for `schedule` -/

theorem Inv.resched (h : Inv rq S) (q : Nat) :
    Inv (reschedTask rq q) S ∧ Kept rq (reschedTask rq q) := ⟨h.touch rfl, Kept.touch rfl rfl⟩

theorem Inv.preempt (h : Inv rq S) (p : Nat) :
    Inv (preemptCurr rq p) S ∧ Kept rq (preemptCurr rq p) := by
  unfold preemptCurr
  split
  · exact h.resched rq.curr
  · exact ⟨h, Kept.refl rq⟩

theorem Inv.changed (h : Inv rq S) (p : Nat) (old : Int) :
    Inv (reschedChanged rq p old) S ∧ Kept rq (reschedChanged rq p old) := by
  unfold reschedChanged
  split
  · split
    · exact h.resched rq.curr
    · exact ⟨h, Kept.refl rq⟩
  · exact h.preempt p

/-! ## Changing priorities -/

theorem kept_move (l : Links Node) (A : ArrayId → PrioArray) (b : ArrayId)
    (ha : (rq.task p).array = some a) (hstate : t.state = (rq.task p).state) :
    Kept rq ((rq.relink l A).setTask p (t.on b)) :=
  Kept.of_task rfl rfl rfl hstate (by rw [ha]; rfl)

theorem Inv.setprio (h : Inv rq S) (p : Nat) {prio : Int} (h0 : 0 ≤ prio) (hlt : prio < maxPrio) :
    Keeps rq (rtMutexSetprio rq p prio) := by
  have hok : ((rq.task p).setPrio prio).Ok := ⟨h0, (h.ok p).normalPrio, (h.ok p).rtPriority⟩
  unfold rtMutexSetprio
  rw [if_neg (by omega)]
  rcases Option.eq_none_or_eq_some (rq.task p).array with ha | ⟨a, ha⟩
  · simp only [ha]
    exact Keeps.of_none h ha rfl hok rfl
  · obtain ⟨l, A, hdeq, l', A', S', henq, hinv⟩ := h.move
      (b := if ((rq.task p).setPrio prio).rtTask then rq.active else a) ha hok ⟨h0, hlt⟩
    have hself := (rq.relink l A).setTask_self p ((rq.task p).setPrio prio)
    simp only [ha, hdeq, Option.bind_eq_bind, Option.bind_some, hself]
    rw [show ((rq.relink l A).setTask p ((rq.task p).setPrio prio)).active = rq.active from rfl,
      henq]
    obtain ⟨hinv', hkept⟩ := hinv.changed p (rq.task p).prio
    exact ⟨_, S', rfl, hinv',
      (kept_move (t := (rq.task p).setPrio prio) l' A' _ ha rfl).trans hkept⟩

theorem Inv.nice (h : Inv rq S) (p : Nat) (nice : Int) : Keeps rq (setUserNice rq p nice) := by
  have hsame : Keeps rq (some rq) := ⟨rq, S, rfl, h, Kept.refl rq⟩
  unfold setUserNice
  simp only
  cases staticPrioOf nice with
  | none => exact hsame
  | some static =>
    have hok : ((rq.task p).setStaticPrio static).Ok := (h.ok p).of_place rfl
    simp only
    split
    · exact hsame
    split
    · exact Keeps.touch h rfl rfl
    rcases Option.eq_none_or_eq_some (rq.task p).array with ha | ⟨a, ha⟩
    · simp only [ha]
      exact Keeps.of_none h ha rfl hok.setEffectivePrio rfl
    · obtain ⟨l, A, hdeq, l', A', S', henq, hinv⟩ := h.move (b := a) ha hok.setEffectivePrio
        (effectivePrio_range hok)
      simp only [ha, hdeq, henq, Option.bind_eq_bind, Option.bind_some]
      have hkept := kept_move l' A' a
        (t := ((rq.task p).setStaticPrio static).setEffectivePrio) ha rfl
      split
      · obtain ⟨hinv', hkept'⟩ := hinv.resched rq.curr
        exact ⟨_, S', rfl, hinv', hkept.trans hkept'⟩
      · exact ⟨_, S', rfl, hinv, hkept⟩

theorem setScheduler_ok (t : Task) (policy : Policy) {prio : Nat} {waiter : Option Int}
    (hp : prio ≤ 99) (hw : ∀ w, waiter = some w → 0 ≤ w) :
    (t.setScheduler policy prio waiter).Ok ∧
      (t.setScheduler policy prio waiter).prio < maxPrio := by
  have hnormal := newNormalPrio_range (t := { t with policy := policy, rtPriority := prio }) hp
  have hget : ∀ n, 0 ≤ n → n < maxPrio →
      0 ≤ rtMutexGetprio waiter n ∧ rtMutexGetprio waiter n < maxPrio := by
    intro n h0 hlt
    unfold rtMutexGetprio
    cases hwait : waiter with
    | none => exact ⟨h0, hlt⟩
    | some w =>
      have := hw w hwait
      simp only
      omega
  obtain ⟨h0, hlt⟩ := hget _ hnormal.1 hnormal.2
  unfold Task.setScheduler
  simp only
  split
  · exact ⟨⟨h0, hnormal.1, hp⟩, hlt⟩
  · exact ⟨⟨h0, hnormal.1, hp⟩, hlt⟩

theorem setScheduler_same (t : Task) (policy : Policy) (prio : Nat) (waiter : Option Int) :
    (t.setScheduler policy prio waiter).array = t.array ∧
      (t.setScheduler policy prio waiter).state = t.state := by
  unfold Task.setScheduler
  simp only
  split <;> exact ⟨rfl, rfl⟩

theorem Inv.setscheduler (h : Inv rq S) (p : Nat) (policy : Option Policy) (prio : Int)
    {waiter : Option Int} (hw : ∀ w, waiter = some w → 0 ≤ w) : ∃ rq' S' r,
      schedSetscheduler rq p policy prio waiter = some (rq', r) ∧ Inv rq' S' ∧ Kept rq rq' := by
  unfold schedSetscheduler
  simp only
  split
  · exact ⟨rq, S, _, rfl, h, Kept.refl rq⟩
  rename_i hrange
  split
  · exact ⟨rq, S, _, rfl, h, Kept.refl rq⟩
  have hprio : prio.toNat ≤ 99 := by
    have : maxRtPrio = 100 := rfl
    omega
  generalize policy.getD (rq.task p).policy = policy
  rcases Option.eq_none_or_eq_some (rq.task p).array with ha | ⟨a, ha⟩
  · obtain ⟨hok, -⟩ := setScheduler_ok (rq.task p) policy hprio hw
    obtain ⟨harray, hstate⟩ := setScheduler_same (rq.task p) policy prio.toNat waiter
    simp only [ha]
    obtain ⟨rq', S', hset, hinv, hkept⟩ := Keeps.of_none h ha harray hok hstate
    cases hset
    exact ⟨_, S', 0, rfl, hinv, hkept⟩
  · obtain ⟨l, A, hdeact, hinv⟩ := h.deactivate ha
    obtain ⟨hok, hlt⟩ := setScheduler_ok (rq.task p).off policy hprio hw
    obtain ⟨harray, hstate⟩ := setScheduler_same (rq.task p).off policy prio.toNat waiter
    simp only [ha, hdeact, Option.bind_eq_bind, Option.bind_some, Rq.setTask_self]
    generalize (rq.task p).off.setScheduler policy prio.toNat waiter = t at hok hlt harray hstate
    have hself := (rq.relink l A).setTask_self p (rq.task p).off
    have hset := hinv.setTask (p := p) (t := t) (.inr (congrArg Task.array hself))
      (harray.trans (congrArg Task.array hself).symm) hok
    obtain ⟨l', A', b, S', hact, hinv'⟩ := hset.activate (p := p)
      (by rw [Rq.setTask_self, harray]; rfl) (h.ne_idle ha) (by rwa [Rq.setTask_self])
    rw [hact]
    obtain ⟨hinv'', hkept⟩ := hinv'.changed p (rq.task p).prio
    refine ⟨_, S', 0, rfl, hinv'', Kept.trans ?_ hkept⟩
    refine Kept.of_task rfl rfl (p := p) (t := t.on b) ?_ hstate (by rw [ha]; rfl)
    simp only [Rq.setTask, Rq.relink, Function.update_idem, Function.update_self]

theorem Inv.yield (h : Inv rq S) (ha : (rq.task rq.curr).array = some a) :
    Keeps rq (yieldTask rq) := by
  obtain ⟨hk, -⟩ := (h.array rq.curr a).mp ha
  unfold yieldTask
  simp only [ha, Option.bind_eq_bind, Option.bind_some]
  generalize (if (rq.task rq.curr).rtTask = true then rq.active else rq.expired) = target
  split
  · obtain ⟨l, A, hdeq, l', A', S', henq, hinv⟩ := h.move (b := target) ha (h.ok rq.curr) hk
    have hself : (rq.relink l A).setTask rq.curr (rq.task rq.curr) = rq.relink l A := by
      simp only [Rq.setTask, Rq.relink, Function.update_eq_self]
    rw [hself] at henq
    simp only [hdeq, Option.bind_some, henq]
    exact ⟨_, S', rfl, hinv, kept_move l' A' target ha rfl⟩
  · obtain ⟨l, S', hreq, hinv⟩ := h.requeue ha
    exact ⟨_, S', hreq, hinv, rfl, rfl, fun _ => rfl, fun _ => rfl⟩

/-! ## The next task -/

/-- What `schedule` leaves alone in a task. -/
structure Task.Same (t u : Task) : Prop where
  state : u.state = t.state
  array : u.array = t.array
  timeSlice : u.timeSlice = t.timeSlice
  taskTimeslice : u.taskTimeslice = t.taskTimeslice
  calm : t.Calm → u.Calm

theorem Task.Same.refl (t : Task) : t.Same t := ⟨rfl, rfl, rfl, rfl, id⟩

theorem Task.Same.trans {u v : Task} (h : t.Same u) (h' : u.Same v) : t.Same v where
  state := h'.state.trans h.state
  array := h'.array.trans h.array
  timeSlice := h'.timeSlice.trans h.timeSlice
  taskTimeslice := h'.taskTimeslice.trans h.taskTimeslice
  calm := h'.calm ∘ h.calm

/-- What `schedule` leaves alone once it has chosen an array. -/
structure Steady (rq rq' : Rq) : Prop where
  active : rq'.active = rq.active
  expired : rq'.expired = rq.expired
  nrRunning : rq'.nrRunning = rq.nrRunning
  expiredTimestamp : rq'.expiredTimestamp = rq.expiredTimestamp
  idle : rq'.idle = rq.idle
  task : ∀ q, (rq.task q).Same (rq'.task q)

theorem Steady.refl (rq : Rq) : Steady rq rq :=
  ⟨rfl, rfl, rfl, rfl, rfl, fun q => Task.Same.refl (rq.task q)⟩

theorem Steady.trans {rq'' : Rq} (h : Steady rq rq') (h' : Steady rq' rq'') : Steady rq rq'' where
  active := h'.active.trans h.active
  expired := h'.expired.trans h.expired
  nrRunning := h'.nrRunning.trans h.nrRunning
  expiredTimestamp := h'.expiredTimestamp.trans h.expiredTimestamp
  idle := h'.idle.trans h.idle
  task q := (h.task q).trans (h'.task q)

theorem steady_setTask (rq : Rq) (h : (rq.task p).Same t) : Steady rq (rq.setTask p t) := by
  refine ⟨rfl, rfl, rfl, rfl, rfl, fun q => ?_⟩
  by_cases hq : q = p
  · subst hq
    rw [Rq.setTask_self]
    exact h
  · rw [Rq.setTask_of_ne _ hq]
    exact Task.Same.refl _

theorem steady_relink (rq : Rq) (l : Links Node) (A : ArrayId → PrioArray) :
    Steady rq (rq.relink l A) := ⟨rfl, rfl, rfl, rfl, rfl, fun q => Task.Same.refl (rq.task q)⟩

theorem Slept.same {u : Task} (h : Slept t u) (htype : interactiveSleepType t.sleepType = true) :
    t.Same { u with normalPrio := u.newNormalPrio } ∧
      t.Same ({ u with normalPrio := u.newNormalPrio }.setPrio u.effectivePrio) := by
  -- a calm task gets no credit
  have hnot : ¬ t.Calm := fun hc => Bool.false_ne_true (hc.sleepType.symm.trans htype)
  obtain ⟨avg, ty, rfl⟩ := h
  exact ⟨⟨rfl, rfl, rfl, rfl, fun h => absurd h hnot⟩, ⟨rfl, rfl, rfl, rfl, fun h => absurd h hnot⟩⟩

theorem Slept.ok {u : Task} (h : Slept t u) (hok : t.Ok) : u.Ok := by
  obtain ⟨avg, ty, rfl⟩ := h
  exact hok.of_place rfl

theorem Inv.credit (h : Inv rq S) (ha : (rq.task p).array = some a) (now : UInt64) : ∃ rq' S',
    creditNext rq p now = some rq' ∧ Inv rq' S' ∧ Steady rq rq' ∧ rq'.curr = rq.curr := by
  unfold creditNext
  simp only
  split
  swap
  · exact ⟨rq, S, rfl, h, Steady.refl rq, rfl⟩
  rename_i hcredit
  generalize (if (rq.task p).sleepType = .interactive then _ else _) = delta
  obtain ⟨u, hslept, hrecalc⟩ := recalcTaskPrio_eq (rq.task p) ((rq.task p).timestamp + delta)
  obtain ⟨hsame, hsame'⟩ := hslept.same hcredit.2
  have hok := hslept.ok (h.ok p)
  have hrange := effectivePrio_range hok
  have hnormal := newNormalPrio_range hok.rtPriority
  simp only [ha, hrecalc, Option.bind_eq_bind, Option.bind_some]
  generalize ht : ({ u with normalPrio := u.newNormalPrio } : Task) = t at hsame hsame'
  have hprio : t.prio = (rq.task p).prio := by
    obtain ⟨avg, ty, rfl⟩ := hslept
    rw [← ht]
  have hset : Inv (rq.setTask p t) S :=
    h.setTask (.inl hprio) hsame.array (by rw [← ht]; exact ⟨hok.prio, hnormal.1, hok.rtPriority⟩)
  split
  · obtain ⟨l, A, hdeq, l', A', S', henq, hinv⟩ := hset.move (p := p) (b := a)
      (t := t.setPrio u.effectivePrio) (by rw [Rq.setTask_self, hsame.array, ha])
      (by rw [← ht]; exact ⟨hrange.1, hnormal.1, hok.rtPriority⟩) hrange
    have hset : ((rq.setTask p t).relink l' A').setTask p ((t.setPrio u.effectivePrio).on a) =
        (rq.relink l' A').setTask p ((t.setPrio u.effectivePrio).on a) :=
      (rq.relink l' A').setTask_setTask p t _
    rw [hset] at henq hinv
    simp only [hdeq, henq, Option.bind_some]
    have hsame : (rq.task p).Same ((t.setPrio u.effectivePrio).on a) :=
      ⟨hsame'.state, ha.symm, hsame'.timeSlice, hsame'.taskTimeslice,
        fun h => (hsame'.calm h).on a⟩
    exact ⟨_, S', rfl, hinv, (steady_relink rq l' A').trans (steady_setTask _ hsame), rfl⟩
  · exact ⟨_, S, rfl, hset, steady_setTask rq hsame, rfl⟩

/-- The task goes to sleep in `schedule`. -/
def Task.sleeps (t : Task) (preemptActive sigPending : Bool) : Bool :=
  t.state ≠ .running ∧ preemptActive = false ∧ ¬ (t.state.isInterruptible ∧ sigPending)

/-- `schedule` has dealt with the task that calls it, which is asleep if `b`. -/
structure Left (rq rq' : Rq) (S S' : Lists) (p : Nat) (b : Bool) : Prop where
  lists : ∀ k ∈ Valid, S' k = if b then (S k).erase p else S k
  active : rq'.active = rq.active
  expired : rq'.expired = rq.expired
  curr : rq'.curr = rq.curr
  idle : rq'.idle = rq.idle
  task : ∀ q, q ≠ p → rq'.task q = rq.task q
  array : (rq'.task p).array = if b then none else (rq.task p).array
  state : (rq'.task p).state = (rq.task p).state ∨ (rq'.task p).state = .running ∧ b = false
  same : (rq.task p).state = .running → rq' = rq

theorem Inv.leave (h : Inv rq S) (preemptActive sigPending : Bool)
    (hp : (rq.task p).state = .running ∨ ∃ a, (rq.task p).array = some a) : ∃ rq' S',
      leaveCpu rq p preemptActive sigPending = some rq' ∧ Inv rq' S' ∧
        Left rq rq' S S' p ((rq.task p).sleeps preemptActive sigPending) := by
  unfold leaveCpu
  simp only
  split
  · rename_i hstate
    split
    · -- a signal is there already, and the task stays
      rename_i hsig
      have hsleeps : (rq.task p).sleeps preemptActive sigPending = false :=
        decide_eq_false fun hs => hs.2.2 hsig
      rw [hsleeps]
      exact ⟨_, S, rfl, h.touch rfl, fun _ _ => rfl, rfl, rfl, rfl, rfl,
        fun q hq => Rq.setTask_of_ne _ hq _,
        by rw [Rq.setTask_self]; rfl, .inr ⟨by rw [Rq.setTask_self]; rfl, rfl⟩,
        fun hr => absurd hr hstate.1⟩
    · rename_i hsig
      have hsleeps : (rq.task p).sleeps preemptActive sigPending = true :=
        decide_eq_true ⟨hstate.1, hstate.2, hsig⟩
      obtain ⟨a, ha⟩ := hp.resolve_left hstate.1
      obtain ⟨hk, hm⟩ := (h.array p a).mp ha
      obtain ⟨l, A, hdeact, hinv⟩ := h.deactivate ha
      have hself := (rq.relink l A).setTask_self p (rq.task p).off
      have harray := congrArg Task.array hself
      have hstate' := congrArg Task.state hself
      rw [hsleeps]
      refine ⟨_, _, hdeact, hinv, fun k hk' => ?_, rfl, rfl, rfl, rfl,
        fun q hq => Rq.setTask_of_ne _ hq _, harray, .inl hstate', fun hr => absurd hr hstate.1⟩
      by_cases hkey : k = (a, (rq.task p).prio)
      · subst hkey
        rw [Function.update_self]
        rfl
      · obtain ⟨-, -, -, -, -, hothers⟩ := h.queues.split hk hm
        rw [Function.update_of_ne hkey]
        exact (List.erase_of_not_mem (hothers k hk' hkey)).symm
  · rename_i hstate
    have hsleeps : (rq.task p).sleeps preemptActive sigPending = false :=
      decide_eq_false fun hs => hstate ⟨hs.1, hs.2.1⟩
    rw [hsleeps]
    exact ⟨rq, S, rfl, h, fun _ _ => rfl, rfl, rfl, rfl, rfl, fun _ _ => rfl, rfl, .inl rfl,
      fun _ => rfl⟩

theorem Inv.switchArrays (h : Inv rq S) : Inv (switchArrays rq) S := by
  unfold RunQueue.switchArrays
  split
  · exact h.congr rfl rfl rfl rfl rfl h.distinct.symm
  · exact h

theorem Inv.count_switchArrays (h : Inv rq S) (hn : rq.nrRunning ≠ 0) :
    count S (RunQueue.switchArrays rq).active ≠ 0 := by
  have hcount := h.nrRunning
  have hactive := h.nrActive rq.active
  have htotal : total S = count S rq.active + count S rq.expired := by
    have hd := h.distinct
    unfold total
    cases hae : rq.active <;> cases hee : rq.expired <;> simp_all [Nat.add_comm]
  unfold RunQueue.switchArrays
  split
  · simp only
    omega
  · omega

theorem switchTasks_curr (rq : Rq) (next : Nat) (runTime now : UInt64) :
    (switchTasks rq rq.curr next runTime now).curr = next := by
  unfold switchTasks
  simp only
  split
  · rfl
  · rename_i heq
    exact not_not.mp heq

theorem Inv.switchTasks (h : Inv rq S) (prev next : Nat) {runTime : UInt64} (now : UInt64)
    (hr : runTime.toNat ≤ nsMaxSleepAvg.toNat) :
    Inv (switchTasks rq prev next runTime now) S ∧
      Steady rq (switchTasks rq prev next runTime now) := by
  have hset : Inv (rq.setTask prev ((rq.task prev).charged runTime now)) S := h.touch rfl
  have hsteady : Steady rq (rq.setTask prev ((rq.task prev).charged runTime now)) :=
    steady_setTask rq (t := (rq.task prev).charged runTime now) ⟨rfl, rfl, rfl, rfl, fun h =>
      h.sleptLess h.prio rfl h.sleepType rfl (charged_sleepAvg _ now hr)⟩
  unfold RunQueue.switchTasks
  simp only
  generalize rq.setTask prev ((rq.task prev).charged runTime now) = rq' at hset hsteady
  split
  · have hnext : Inv (rq'.setTask next { rq'.task next with timestamp := now }) S := hset.touch rfl
    have hsteady' : Steady rq' (rq'.setTask next { rq'.task next with timestamp := now }) :=
      steady_setTask rq' (t := { rq'.task next with timestamp := now })
        ⟨rfl, rfl, rfl, rfl, fun h => h.sleptLess h.prio rfl h.sleepType rfl le_rfl⟩
    refine ⟨hnext.congr rfl rfl rfl rfl rfl hnext.distinct, hsteady.trans (hsteady'.trans ?_)⟩
    exact ⟨rfl, rfl, rfl, rfl, rfl, fun q => Task.Same.refl _⟩
  · exact ⟨hset, hsteady⟩

/-- The last part of `schedule`: `next` gets the credit for its wait, and the processor. -/
theorem Inv.runNext {next : Nat} (h : Inv rq S) (ha : (rq.task next).array = some a)
    {runTime : UInt64} (now : UInt64) (hr : runTime.toNat ≤ nsMaxSleepAvg.toNat) :
    ∃ rq₂ S', creditNext rq next now = some rq₂ ∧
      (∀ rq', rq' = RunQueue.switchTasks
          (rq₂.setTask next { rq₂.task next with sleepType := .normal }) rq.curr next runTime now →
        Inv rq' S' ∧ Steady rq rq' ∧ rq'.curr = next) := by
  obtain ⟨rq₂, S₂, hcredit, hinv₂, hsteady₂, hcurr₂⟩ := h.credit ha now
  refine ⟨rq₂, S₂, hcredit, ?_⟩
  have hset : Inv (rq₂.setTask next { rq₂.task next with sleepType := .normal }) S₂ :=
    hinv₂.touch rfl
  have hsteady₃ : Steady rq₂ (rq₂.setTask next { rq₂.task next with sleepType := .normal }) :=
    steady_setTask rq₂ (t := { rq₂.task next with sleepType := .normal })
      ⟨rfl, rfl, rfl, rfl, fun h => h.sleptLess h.prio rfl rfl rfl le_rfl⟩
  obtain ⟨hinv', hsteady⟩ := hset.switchTasks rq.curr next now hr
  rintro _ rfl
  refine ⟨hinv', hsteady₂.trans (hsteady₃.trans hsteady), ?_⟩
  rw [← hcurr₂]
  exact switchTasks_curr (rq₂.setTask next { rq₂.task next with sleepType := .normal }) next
    runTime now

theorem switchArrays_curr (rq : Rq) : (RunQueue.switchArrays rq).curr = rq.curr := by
  unfold RunQueue.switchArrays
  split <;> rfl

/-- What `schedule` does once the task that calls it is dealt with: `idle` runs if there is no
task; otherwise it is the first task of the first list that is not empty, on the active array or,
if that is empty, on the other one. -/
inductive Picked (rq : Rq) (S : Lists) (rq' : Rq) : Prop where
  | idle (empty : rq.nrRunning = 0) (curr : rq'.curr = rq.idle)
      (steady : Steady { rq with expiredTimestamp := 0 } rq')
  | next {i : Int} {xs : List Nat} (valid : ((switchArrays rq).active, i) ∈ Valid)
      (first : S ((switchArrays rq).active, i) = rq'.curr :: xs)
      (best : ∀ j < i, ((switchArrays rq).active, j) ∈ Valid → S ((switchArrays rq).active, j) = [])
      (steady : Steady (switchArrays rq) rq')

theorem Inv.schedule (h : Inv rq S) (now : UInt64) (preemptActive sigPending : Bool)
    (hp : (rq.task rq.curr).state = .running ∨ ∃ a, (rq.task rq.curr).array = some a) :
    ∃ rq₁ S₁ rq' S', Inv rq₁ S₁ ∧
      Left rq rq₁ S S₁ rq.curr ((rq.task rq.curr).sleeps preemptActive sigPending) ∧
      schedule rq now preemptActive sigPending = some rq' ∧ Inv rq' S' ∧ Picked rq₁ S₁ rq' := by
  obtain ⟨rq₁, S₁, hleave, hinv, hleft⟩ := h.leave preemptActive sigPending hp
  unfold RunQueue.schedule
  simp only [hleave, Option.bind_eq_bind, Option.bind_some]
  have hr := runTime_le (rq.task rq.curr) now
  generalize (rq.task rq.curr).runTime now = runTime at hr
  rw [← hleft.curr]
  by_cases hn : rq₁.nrRunning = 0
  · rw [if_pos hn]
    have hclock : Inv { rq₁ with expiredTimestamp := 0 } S₁ :=
      hinv.congr rfl rfl rfl rfl rfl hinv.distinct
    obtain ⟨hinv', hsteady⟩ := hclock.switchTasks rq₁.curr rq₁.idle now hr
    exact ⟨rq₁, S₁, _, S₁, hinv, hleft.curr.symm ▸ hleft, rfl, hinv', .idle hn
      (switchTasks_curr { rq₁ with expiredTimestamp := 0 } rq₁.idle runTime now) hsteady⟩
  · rw [if_neg hn]
    have hswitch := hinv.switchArrays
    obtain ⟨i, p, xs, hvalid, hfirst, hbest, hnext⟩ :=
      hswitch.toRep.next (hinv.count_switchArrays hn)
    have hm : p ∈ S₁ ((RunQueue.switchArrays rq₁).active, i) := hfirst ▸ List.mem_cons_self
    obtain ⟨rq₂, S₂, hcredit, hrun⟩ := hswitch.runNext (hswitch.array_of_mem hvalid hm) now hr
    obtain ⟨hinv', hsteady, hcurr⟩ := hrun _ rfl
    rw [switchArrays_curr] at hinv' hsteady hcurr
    simp only [hnext, hcredit, Option.bind_some]
    exact ⟨rq₁, S₁, _, S₂, hinv, hleft.curr.symm ▸ hleft, rfl, hinv',
      .next hvalid (hcurr.symm ▸ hfirst) hbest hsteady⟩

/-! ## Waking -/

/-- Every task but `p` is where it was. -/
structure KeptBut (p : Nat) (rq rq' : Rq) : Prop where
  curr : rq'.curr = rq.curr
  idle : rq'.idle = rq.idle
  state : ∀ q, q ≠ p → (rq'.task q).state = (rq.task q).state
  queued : ∀ q, q ≠ p → (rq'.task q).array.isSome = (rq.task q).array.isSome

theorem Kept.but (h : Kept rq rq') (p : Nat) : KeptBut p rq rq' :=
  ⟨h.curr, h.idle, fun q _ => h.state q, fun q _ => h.queued q⟩

theorem KeptBut.trans {rq'' : Rq} (h : KeptBut p rq rq') (h' : KeptBut p rq' rq'') :
    KeptBut p rq rq'' where
  curr := h'.curr.trans h.curr
  idle := h'.idle.trans h.idle
  state q hq := (h'.state q hq).trans (h.state q hq)
  queued q hq := (h'.queued q hq).trans (h.queued q hq)

theorem keptBut_setTask (rq : Rq) (p : Nat) (t : Task) : KeptBut p rq (rq.setTask p t) :=
  ⟨rfl, rfl, fun _ hq => by rw [Rq.setTask_of_ne _ hq], fun _ hq => by rw [Rq.setTask_of_ne _ hq]⟩

/-- `p` is queued in the state `s`, and the other tasks are where they were. -/
structure Joined (p : Nat) (s : TaskState) (rq rq' : Rq) : Prop extends KeptBut p rq rq' where
  self : (rq'.task p).state = s
  on : (rq'.task p).array.isSome = true

theorem Joined.trans_kept {rq'' : Rq} {s : TaskState} (h : Joined p s rq rq')
    (h' : Kept rq' rq'') : Joined p s rq rq'' where
  toKeptBut := h.toKeptBut.trans (h'.but p)
  self := (h'.state p).trans h.self
  on := (h'.queued p).trans h.on

theorem joined_setTask (rq : Rq) (p : Nat) (l : Links Node) (A : ArrayId → PrioArray) (n : Nat)
    (ht : t.array = some a) :
    Joined p t.state rq { (rq.relink l A).setTask p t with nrRunning := n } := by
  have hself := (rq.relink l A).setTask_self p t
  have hbut := keptBut_setTask (rq.relink l A) p t
  have hon := congrArg (Option.isSome ∘ Task.array) hself
  exact ⟨⟨rfl, rfl, hbut.state, hbut.queued⟩, congrArg Task.state hself,
    hon.trans (congrArg Option.isSome ht)⟩

theorem Inv.joins (h : Inv rq S) (hp : (rq.task p).array = none) (hi : p ≠ rq.idle)
    (hlt : (rq.task p).prio < maxPrio) : ∃ rq' S', RunQueue.activate rq p = some rq' ∧
      Inv rq' S' ∧ Joined p (rq.task p).state rq rq' := by
  obtain ⟨l, A, b, S', hact, hinv⟩ := h.activate hp hi hlt
  exact ⟨_, S', hact, hinv, joined_setTask rq p l A _ (t := (rq.task p).on b) rfl⟩

theorem Inv.activateTask (h : Inv rq S) (hp : (rq.task p).array = none) (hi : p ≠ rq.idle)
    (now : UInt64) (inInterrupt : Bool) : ∃ rq' S',
      RunQueue.activateTask rq p now inInterrupt = some rq' ∧ Inv rq' S' ∧
        Joined p (rq.task p).state rq rq' := by
  unfold RunQueue.activateTask
  split
  · rename_i hrt
    have hlt : (rq.task p).prio < 100 := of_decide_eq_true hrt
    exact h.joins hp hi (show (rq.task p).prio < 140 by omega)
  · obtain ⟨u, hslept, hrecalc⟩ := recalcTaskPrio_eq (rq.task p) now
    have hok := hslept.ok (h.ok p)
    have hrange := effectivePrio_range hok
    have hnormal := newNormalPrio_range hok.rtPriority
    simp only [hrecalc]
    obtain ⟨avg, ty, rfl⟩ := hslept
    generalize ht : Task.activated _ _ now inInterrupt = t
    have hstate : t.state = (rq.task p).state := by rw [← ht]; rfl
    have hset : Inv (rq.setTask p t) S := h.setTask (.inr hp) (by rw [← ht]; rfl)
      (by rw [← ht]; exact ⟨hrange.1, hnormal.1, hok.rtPriority⟩)
    obtain ⟨rq', S', hact, hinv, hjoined⟩ := hset.joins (p := p)
      (by rw [Rq.setTask_self, ← ht]; exact hp) hi (by rw [Rq.setTask_self, ← ht]; exact hrange.2)
    rw [Rq.setTask_self, hstate] at hjoined
    exact ⟨rq', S', hact, hinv, (keptBut_setTask rq p t).trans hjoined.toKeptBut, hjoined.self,
      hjoined.on⟩

theorem Inv.wake (h : Inv rq S) (hi : (rq.task rq.idle).state = .running)
    (mask : List TaskState) (sync : Bool) (now : UInt64) (inInterrupt : Bool) :
    ∃ rq' S' r, tryToWakeUp rq p mask sync now inInterrupt = some (rq', r) ∧ Inv rq' S' ∧
      (rq' = rq ∨ (rq.task p).state ≠ .running ∧ Joined p .running rq rq') := by
  unfold tryToWakeUp
  simp only
  split
  · exact ⟨rq, S, _, rfl, h, .inl rfl⟩
  rename_i hstate
  split
  · -- the task has not left its list yet
    rename_i hon
    refine ⟨_, S, _, rfl, h.touch rfl, .inr ⟨fun hr => hstate (.inl hr), ?_⟩⟩
    exact ⟨keptBut_setTask rq p _, by rw [Rq.setTask_self]; rfl, by rw [Rq.setTask_self]; exact hon⟩
  · rename_i hoff
    have hnone : (rq.task p).array = none := Option.not_isSome_iff_eq_none.mp hoff
    have hne : p ≠ rq.idle := by
      rintro rfl
      exact hstate (.inl hi)
    have hset : Inv (rq.setTask p (rq.task p).woken) S := h.touch rfl
    obtain ⟨rq₁, S₁, hact, hinv, hjoined⟩ := hset.activateTask (p := p)
      (by rw [Rq.setTask_self]; exact hnone) hne now inInterrupt
    simp only [hact, Option.bind_eq_bind, Option.bind_some]
    generalize hr : (if sync = true then rq₁ else preemptCurr rq₁ p) = rq₂
    obtain ⟨hinv₂, hkept⟩ : Inv rq₂ S₁ ∧ Kept rq₁ rq₂ := by
      rw [← hr]
      split
      · exact ⟨hinv, Kept.refl rq₁⟩
      · exact hinv.preempt p
    refine ⟨_, S₁, _, rfl, hinv₂.touch rfl, .inr ⟨fun hr => hstate (.inl hr), ?_, ?_, ?_⟩⟩
    · exact (keptBut_setTask rq p _).trans ((hjoined.trans_kept hkept).toKeptBut.trans
        (keptBut_setTask rq₂ p _))
    · rw [Rq.setTask_self]
      rfl
    · rw [Rq.setTask_self]
      exact (hjoined.trans_kept hkept).on

/-! ## Forking -/

theorem Inv.initNode (h : Inv rq S) (hp : (rq.task p).array = none) :
    Inv { rq with links := initListHead rq.links (.runList p) } S where
  queues := h.queues.initNode (h.off hp)
  prio := h.prio
  bitmap := h.bitmap
  delimiter := h.delimiter
  nrActive := h.nrActive
  array := h.array
  nrRunning := h.nrRunning
  distinct := h.distinct
  idle := h.idle
  ok := h.ok

theorem Inv.fork (h : Inv rq S) (hp : (rq.task p).array = none) (hc : p ≠ rq.curr)
    (now j : UInt64) : ∃ rq' S', schedFork rq p now j = some rq' ∧ Inv rq' S' ∧
      KeptBut p rq rq' ∧ (rq'.task p).state = .running ∧ (rq'.task p).array = none := by
  have hok := h.ok rq.curr
  have hnode := (h.initNode hp).setTask (p := p) (t := (rq.task rq.curr).child now) (.inr hp)
    hp.symm ⟨hok.normalPrio, hok.normalPrio, hok.rtPriority⟩
  unfold schedFork
  simp only
  generalize hr : ({ rq with links := initListHead rq.links (.runList p) } : Rq).setTask p
    ((rq.task rq.curr).child now) = rq₁ at hnode
  have hself : rq₁.task p = (rq.task rq.curr).child now := by rw [← hr, Rq.setTask_self]
  have hcurr : rq₁.curr = rq.curr := by rw [← hr]; rfl
  have hother : ∀ q, q ≠ p → rq₁.task q = rq.task q := fun q hq => by
    rw [← hr, Rq.setTask_of_ne _ hq]
  have hbut : KeptBut p rq rq₁ := by
    rw [← hr]
    exact ⟨rfl, rfl, fun q hq => by rw [hr, hother q hq], fun q hq => by rw [hr, hother q hq]⟩
  have hparent : rq₁.task rq₁.curr = rq.task rq.curr := by rw [hcurr, hother _ hc.symm]
  have hslice : ∀ slice, Inv (rq₁.setTask rq₁.curr ((rq.task rq.curr).setTimeSlice slice)) S ∧
      Kept rq₁ (rq₁.setTask rq₁.curr ((rq.task rq.curr).setTimeSlice slice)) := fun slice => by
    rw [← hparent]
    exact ⟨hnode.touch rfl, Kept.touch rfl rfl⟩
  have hdone : ∀ rq', Kept rq₁ rq' →
      KeptBut p rq rq' ∧ (rq'.task p).state = .running ∧ (rq'.task p).array = none := by
    intro rq' hkept
    exact ⟨hbut.trans (hkept.but p), (hkept.state p).trans (by rw [hself]; rfl),
      array_none (hkept.queued p) (by rw [hself]; rfl)⟩
  split
  · -- nothing is left to share: the parent has one tick, and that is taken at once
    obtain ⟨hinv, hkept⟩ := hslice 1
    obtain ⟨rq', S', htick, hinv', hkept'⟩ := hinv.tick rq₁.curr j
    exact ⟨rq', S', htick, hinv', hdone rq' (hkept.trans hkept')⟩
  · obtain ⟨hinv, hkept⟩ := hslice ((rq.task rq.curr).timeSlice >>> 1)
    exact ⟨_, S, rfl, hinv, hdone _ hkept⟩

/-- The child joins the queue of its parent, before it. -/
theorem Inv.joinParent (h : Inv rq S) (hp : (rq.task p).array = none) (hi : p ≠ rq.idle)
    (ha : (rq.task rq.curr).array = some a) : ∃ rq' S', RunQueue.joinParent rq p a = some rq' ∧
      Inv rq' S' ∧ Joined p (rq.task p).state rq rq' := by
  obtain ⟨hk, hm⟩ := (h.array rq.curr a).mp ha
  have hout := h.out hp hi
  obtain ⟨l, hl, hq⟩ := h.queues.addBefore hk hout.off hm
  have hperm := insertBefore_perm (x := p) hm
  have hok : ((rq.task p).beside (rq.task rq.curr) a).Ok :=
    ⟨(h.ok rq.curr).prio, (h.ok rq.curr).normalPrio, (h.ok p).rtPriority⟩
  generalize ht : (rq.task p).beside (rq.task rq.curr) a = t at hok
  obtain ⟨hprio, harray, hstate⟩ : t.prio = (rq.task rq.curr).prio ∧ t.array = some a ∧
      t.state = (rq.task p).state := by rw [← ht]; exact ⟨rfl, rfl, rfl⟩
  have hself := congrArg Task.prio (rq.setTask_self p t)
  -- the bit of the queue is set, since the parent is on it
  have hbit : ∀ i, (rq.arrays a).bitmap.getLsbD i = (((rq.setTask p t).arrays a).bitmap.getLsbD i ||
      decide (((rq.setTask p t).task p).prio.toNat = i)) := by
    intro i
    rw [hself, hprio]
    by_cases hip : (rq.task rq.curr).prio.toNat = i
    · have hset := (h.bitmap _ hk).mpr (List.ne_nil_of_mem hm)
      rw [decide_eq_true hip, Bool.or_true, ← hip]
      exact hset
    · rw [decide_eq_false hip, Bool.or_false]
      rfl
  rw [← hprio] at hk hq hperm
  have hrep := (hout.toRep.setTask (p := p) (t := t) (.inr hout.off)).insert (p := p)
    (hself.symm ▸ hk) (hself.symm ▸ hq) (hself.symm ▸ hperm) hbit
  rw [hself] at hrep
  have hinv := hout.inv harray hk hrep hperm hok (congrArg (· + 1) h.nrRunning)
  have hjoin : RunQueue.joinParent rq p a = some
      { (rq.relink l (Function.update rq.arrays a
        ⟨(rq.arrays a).nrActive + 1, (rq.arrays a).bitmap⟩)).setTask p t with
          nrRunning := rq.nrRunning + 1 } := by
    rw [RunQueue.joinParent, show listAddTail rq.links (.runList p) (.runList rq.curr) = some l
      from hl, ← ht]
    rfl
  exact ⟨_, _, hjoin, hinv, hstate ▸ joined_setTask rq p l _ _ harray⟩

theorem Inv.activateChild (h : Inv rq S) (hp : (rq.task p).array = none) (hi : p ≠ rq.idle)
    (hlt : (rq.task p).prio < maxPrio) (cloneVm : Bool) : ∃ rq' S',
      RunQueue.activateChild rq p cloneVm = some rq' ∧ Inv rq' S' ∧
        Joined p (rq.task p).state rq rq' := by
  unfold RunQueue.activateChild
  split
  · exact h.joins hp hi hlt
  · obtain ⟨rq₁, S₁, hact, hinv, hjoined⟩ : ∃ rq₁ S₁, activateFirst rq p = some rq₁ ∧ Inv rq₁ S₁ ∧
        Joined p (rq.task p).state rq rq₁ := by
      unfold activateFirst
      rcases Option.eq_none_or_eq_some (rq.task rq.curr).array with ha | ⟨a, ha⟩
      · rw [ha]
        exact h.joins hp hi hlt
      · rw [ha]
        exact h.joinParent hp hi ha
    rw [hact]
    obtain ⟨hinv', hkept⟩ := hinv.resched rq₁.curr
    exact ⟨_, S₁, rfl, hinv', hjoined.trans_kept hkept⟩

theorem penalise_same (t : Task) (penalty : Int) :
    (t.penalise penalty).place = t.place ∧ (t.penalise penalty).state = t.state := ⟨rfl, rfl⟩

theorem Inv.penalise (h : Inv rq S) (q : Nat) (penalty : Int) :
    Inv (rq.setTask q ((rq.task q).penalise penalty)) S ∧
      Kept rq (rq.setTask q ((rq.task q).penalise penalty)) := by
  obtain ⟨hplace, hstate⟩ := penalise_same (rq.task q) penalty
  exact ⟨h.touch hplace, Kept.touch hplace hstate⟩

theorem Inv.activateNew (h : Inv rq S) (hs : t.state = .running) (hp : (rq.task p).array = none)
    (harray : t.array = (rq.task p).array) (hok : t.Ok) (hi : p ≠ rq.idle) (cloneVm : Bool) :
    ∃ rq' S', RunQueue.activateChild (rq.setTask p t.setEffectivePrio) p cloneVm = some rq' ∧
      Inv rq' S' ∧ Joined p .running rq rq' := by
  have hset := h.setTask (p := p) (t := t.setEffectivePrio) (.inr hp) harray hok.setEffectivePrio
  obtain ⟨rq', S', hact, hinv, hjoined⟩ := hset.activateChild (p := p)
    (by rw [Rq.setTask_self]; exact harray.trans hp) hi
    (by rw [Rq.setTask_self]; exact (effectivePrio_range hok).2) cloneVm
  rw [Rq.setTask_self] at hjoined
  exact ⟨rq', S', hact, hinv, (keptBut_setTask rq p _).trans hjoined.toKeptBut,
    hjoined.self.trans hs, hjoined.on⟩

theorem Inv.wakeNew (h : Inv rq S) (hs : (rq.task p).state = .running)
    (hp : (rq.task p).array = none) (hi : p ≠ rq.idle) (cloneVm : Bool) : ∃ rq' S',
      wakeUpNewTask rq p cloneVm = some rq' ∧ Inv rq' S' ∧ Joined p .running rq rq' := by
  obtain ⟨hplace, hstate⟩ := penalise_same (rq.task p) 95
  obtain ⟨rq₁, S₁, hact, hinv, hjoined⟩ := h.activateNew (hstate.trans hs) hp
    (congrArg (·.2.2.2) hplace) ((h.ok p).of_place hplace) hi cloneVm
  obtain ⟨hinv', hkept⟩ := hinv.penalise rq₁.curr 100
  rw [wakeUpNewTask, if_neg (not_not.mpr hs), hact]
  exact ⟨_, S₁, rfl, hinv', hjoined.trans_kept hkept⟩

end

end Cs370.RunQueue
