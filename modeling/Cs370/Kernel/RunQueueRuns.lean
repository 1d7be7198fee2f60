import Cs370.Kernel.RunQueueCalls

/-!
# Runs of the scheduler

The scheduler takes one call after another: the ticks of the clock, the calls of the running task,
and the wake-ups and the changes of priority that come from anywhere. In every order of calls no
task that may run is lost, and no call finds the lists broken. `schedule` chooses the first task of
the active array, in the order of priorities, and one of the expired array only if there is none.
-/

namespace Cs370.RunQueue

open Cs370.Kernel
open Cs370.Sched (Policy maxPrio)

/-- The run queue, and the tasks between `sched_fork` and `wake_up_new_task`. -/
structure Sys where
  rq : Rq
  born : Nat → Bool

inductive Act where
  | tick (jiffies : UInt64)
  | schedule (now : UInt64) (preemptActive sigPending : Bool)
  /-- The running task changes its state, to sleep or to exit. -/
  | setState (state : TaskState)
  | wake (p : Nat) (mask : List TaskState) (sync : Bool) (now : UInt64) (inInterrupt : Bool)
  | fork (p : Nat) (now jiffies : UInt64)
  | wakeNew (p : Nat) (cloneVm : Bool)
  | setprio (p : Nat) (prio : Int)
  | nice (p : Nat) (nice : Int)
  | setscheduler (p : Nat) (policy : Option Policy) (prio : Int) (waiter : Option Int)
  | yield (now : UInt64) (sigPending : Bool)
  /-- `sys_quad`, `sys_swipe` or `sched_exit`. -/
  | share (p : Nat) (timeSlice : UInt32) (sleepAvg : UInt64)

def Sys.exec (s : Sys) : Act → Option Sys
  | .tick jiffies => (schedulerTick s.rq jiffies).map ({ s with rq := · })
  | .schedule now preemptActive sigPending =>
    (RunQueue.schedule s.rq now preemptActive sigPending).map ({ s with rq := · })
  | .setState state =>
    some { s with rq := s.rq.setTask s.rq.curr ((s.rq.task s.rq.curr).setState state) }
  | .wake p mask sync now inInterrupt =>
    (tryToWakeUp s.rq p mask sync now inInterrupt).map fun r => { s with rq := r.1 }
  | .fork p now jiffies =>
    (schedFork s.rq p now jiffies).map fun rq => ⟨rq, Function.update s.born p true⟩
  | .wakeNew p cloneVm =>
    (wakeUpNewTask s.rq p cloneVm).map fun rq => ⟨rq, Function.update s.born p false⟩
  | .setprio p prio => (rtMutexSetprio s.rq p prio).map ({ s with rq := · })
  | .nice p nice => (setUserNice s.rq p nice).map ({ s with rq := · })
  | .setscheduler p policy prio waiter =>
    (schedSetscheduler s.rq p policy prio waiter).map fun r => { s with rq := r.1 }
  | .yield now sigPending => (sysSchedYield s.rq now sigPending).map ({ s with rq := · })
  | .share p timeSlice sleepAvg =>
    some { s with rq := s.rq.setTask p { s.rq.task p with
      timeSlice := timeSlice, sleepAvg := sleepAvg } }

/-- What the callers see to: the idle task does not sleep or yield, the child of a fork is a new
task, and a priority is one. -/
def Enabled (s : Sys) : Act → Prop
  | .setState _ => s.rq.curr ≠ s.rq.idle
  | .fork p _ _ => (s.rq.task p).state = .dead ∧ (s.rq.task p).array = none ∧ p ≠ s.rq.curr
  | .wakeNew p _ => s.born p = true
  | .setprio _ prio => 0 ≤ prio ∧ prio < maxPrio
  | .setscheduler _ _ _ waiter => ∀ w ∈ waiter, 0 ≤ w
  | .yield _ _ => s.rq.curr ≠ s.rq.idle
  | _ => True

instance (s : Sys) : DecidablePred (Enabled s)
  | .tick _ | .schedule .. | .wake .. | .nice .. | .share .. => inferInstanceAs (Decidable True)
  | .setState _ | .yield .. => inferInstanceAs (Decidable (_ ≠ _))
  | .fork .. => inferInstanceAs (Decidable (_ ∧ _ ∧ _))
  | .wakeNew .. => inferInstanceAs (Decidable (_ = true))
  | .setprio .. => inferInstanceAs (Decidable (_ ∧ _))
  | .setscheduler _ _ _ waiter => inferInstanceAs (Decidable (∀ w ∈ waiter, 0 ≤ w))

/-- The calls one after another, each where it may be made. -/
def Sys.run (s : Sys) : List Act → Option Sys
  | [] => some s
  | a :: rest => if Enabled s a then (s.exec a).bind (Sys.run · rest) else none

/-- There is no task yet but `idle`. -/
structure Fresh (task : Nat → Task) (idle : Nat) : Prop where
  dead : ∀ p, p ≠ idle → (task p).state = .dead
  array : ∀ p, (task p).array = none
  ok : ∀ p, (task p).Ok

inductive Reachable : Sys → Prop where
  | start (l : Links Node) (bitmap : ArrayId → Bitmap) {task : Nat → Task} {idle : Nat}
      (now : UInt64) (fresh : Fresh task idle) :
      Reachable ⟨schedInit l bitmap task idle now, fun _ => false⟩
  | step {s s' : Sys} {a : Act} (reachable : Reachable s) (enabled : Enabled s a)
      (exec : s.exec a = some s') : Reachable s'

theorem Reachable.run {s s' : Sys} {l : List Act} (hs : Reachable s) (h : s.run l = some s') :
    Reachable s' := by
  induction l generalizing s with
  | nil =>
    cases h
    exact hs
  | cons a rest ih =>
    rw [Sys.run] at h
    split at h
    · rename_i ha
      obtain ⟨s₁, hexec, hrest⟩ := Option.bind_eq_some_iff.mp h
      exact ih (hs.step ha hexec) hrest
    · cases h

/-! ## No task is lost -/

structure Sound (s : Sys) (S : Lists) : Prop extends Inv s.rq S where
  curr : s.rq.curr = s.rq.idle ∨ (s.rq.task s.rq.curr).array.isSome = true
  idleRuns : (s.rq.task s.rq.idle).state = .running
  runnable : ∀ p, p ≠ s.rq.idle → (s.rq.task p).state = .running →
    (s.rq.task p).array.isSome = true ∨ s.born p = true
  child : ∀ p, s.born p = true → (s.rq.task p).array = none ∧
    (s.rq.task p).state = .running ∧ p ≠ s.rq.idle

section

variable {s : Sys} {S S' : Lists} {rq' : Rq} {p : Nat}

theorem Sound.kept (h : Sound s S) (hinv : Inv rq' S') (hk : Kept s.rq rq') :
    Sound { s with rq := rq' } S' where
  toInv := hinv
  curr := by
    simp only [hk.curr, hk.idle, hk.queued]
    exact h.curr
  idleRuns := by
    simp only [hk.idle, hk.state]
    exact h.idleRuns
  runnable p hp hs := by
    simp only [hk.idle, hk.state, hk.queued] at hp hs ⊢
    exact h.runnable p hp hs
  child p hb := by
    obtain ⟨hn, hs, hi⟩ := h.child p hb
    exact ⟨array_none (hk.queued p) hn, (hk.state p).trans hs, hk.idle.symm ▸ hi⟩

theorem Sound.keeps (h : Sound s S) {r : Option Rq} (hk : Keeps s.rq r) : ∃ rq' S',
    r = some rq' ∧ Sound { s with rq := rq' } S' := by
  obtain ⟨rq', S', hr, hinv, hkept⟩ := hk
  exact ⟨rq', S', hr, h.kept hinv hkept⟩

theorem Sound.keptBut {born : Nat → Bool} (h : Sound s S) (hinv : Inv rq' S')
    (hk : KeptBut p s.rq rq') (hi : p ≠ s.rq.idle) (hborn : ∀ q, q ≠ p → born q = s.born q)
    (hcurr : s.rq.curr = p → (rq'.task p).array.isSome = true)
    (hplace : (rq'.task p).array.isSome = true ∧ born p = false ∨
      (rq'.task p).array = none ∧ (rq'.task p).state = .running ∧ born p = true) :
    Sound ⟨rq', born⟩ S' where
  toInv := hinv
  curr := by
    simp only [hk.curr, hk.idle]
    by_cases hc : s.rq.curr = p
    · exact .inr (hc.symm ▸ hcurr hc)
    · rw [hk.queued _ hc]
      exact h.curr
  idleRuns := by
    simp only [hk.idle]
    rw [hk.state _ hi.symm]
    exact h.idleRuns
  runnable q hq hs := by
    simp only [hk.idle] at hq hs ⊢
    by_cases hqp : q = p
    · subst hqp
      exact hplace.imp And.left fun hp => hp.2.2
    · rw [hk.state q hqp] at hs
      rw [hk.queued q hqp, hborn q hqp]
      exact h.runnable q hq hs
  child q hb := by
    simp only [hk.idle] at hb ⊢
    by_cases hqp : q = p
    · subst hqp
      rcases hplace with ⟨-, hp⟩ | ⟨hn, hs, -⟩
      · exact absurd (hp.symm.trans hb) Bool.false_ne_true
      · exact ⟨hn, hs, hi⟩
    · obtain ⟨hn, hs, hi⟩ := h.child q (hborn q hqp ▸ hb)
      exact ⟨array_none (hk.queued q hqp) hn, (hk.state q hqp).trans hs, hi⟩

/-- The running task is queued unless it is `idle`. -/
theorem Sound.curr_may_leave (h : Sound s S) : (s.rq.task s.rq.curr).state = .running ∨
    ∃ a, (s.rq.task s.rq.curr).array = some a := by
  rcases h.curr with hc | hc
  · rw [hc]
    exact .inl h.idleRuns
  · exact .inr (Option.isSome_iff_exists.mp hc)

theorem Sound.ne_child (h : Sound s S) (hp : s.born p = true) : p ≠ s.rq.curr := by
  rintro rfl
  obtain ⟨hn, -, hi⟩ := h.child _ hp
  rcases h.curr with hc | hc
  · exact hi hc
  · rw [hn] at hc
    cases hc

theorem Picked.curr {rq : Rq} (h : Picked rq S rq') (hinv : Inv rq S) :
    rq'.curr = rq'.idle ∨ (rq'.task rq'.curr).array = some rq'.active := by
  cases h with
  | idle _ hc hst => exact .inl (hc.trans hst.idle.symm)
  | @next i xs hv hf _ hst =>
    have hm : rq'.curr ∈ S ((switchArrays rq).active, i) := hf ▸ List.mem_cons_self
    rw [(hst.task _).array, hst.active]
    exact .inr (hinv.switchArrays.array_of_mem hv hm)

theorem Picked.steady {rq : Rq} (h : Picked rq S rq') :
    rq'.idle = rq.idle ∧ ∀ q, (rq.task q).Same (rq'.task q) := by
  cases h with
  | idle _ _ hst => exact ⟨hst.idle, hst.task⟩
  | next _ _ _ hst =>
    have hswitch : (switchArrays rq).idle = rq.idle ∧ (switchArrays rq).task = rq.task := by
      unfold switchArrays
      split <;> exact ⟨rfl, rfl⟩
    exact ⟨hst.idle.trans hswitch.1, fun q => hswitch.2 ▸ hst.task q⟩

theorem Sound.schedule (h : Sound s S) (now : UInt64) (preemptActive sigPending : Bool) :
    ∃ rq' S', RunQueue.schedule s.rq now preemptActive sigPending = some rq' ∧
      Sound { s with rq := rq' } S' := by
  obtain ⟨rq₁, S₁, rq', S', hinv₁, hleft, hsched, hinv, hpick⟩ :=
    h.toInv.schedule now preemptActive sigPending h.curr_may_leave
  obtain ⟨hidle, hsame⟩ := hpick.steady
  refine ⟨rq', S', hsched, hinv, ?_, ?_, fun p hp hs => ?_, fun p hb => ?_⟩
  · rcases hpick.curr hinv₁ with hc | hc
    · exact .inl hc
    · exact .inr (by rw [hc]; rfl)
  · rw [hidle, (hsame _).state, hleft.idle]
    by_cases hc : s.rq.idle = s.rq.curr
    · rw [hleft.same (hc ▸ h.idleRuns)]
      exact h.idleRuns
    · rw [hleft.task _ hc]
      exact h.idleRuns
  · rw [hidle, hleft.idle] at hp
    rw [(hsame p).state] at hs
    rw [(hsame p).array]
    by_cases hc : p = s.rq.curr
    · subst hc
      rcases hleft.state with hstate | ⟨-, hb⟩
      · have hrun := hstate.symm.trans hs
        rw [hleft.same hrun]
        exact h.runnable _ hp hrun
      · rw [hleft.array, hb]
        exact .inl (h.curr.resolve_left hp)
    · rw [hleft.task p hc] at hs ⊢
      exact h.runnable p hp hs
  · obtain ⟨hn, hs, hi⟩ := h.child p hb
    have hc := h.ne_child hb
    rw [hidle, hleft.idle, (hsame p).array, (hsame p).state, hleft.task p hc]
    exact ⟨hn, hs, hi⟩

/-- **One call**: it has a result, and no task is lost. -/
theorem Sound.step (h : Sound s S) {a : Act} (ha : Enabled s a) :
    ∃ s' S', s.exec a = some s' ∧ Sound s' S' := by
  have hlift : ∀ {r : Option Rq}, (∃ rq' S', r = some rq' ∧ Sound { s with rq := rq' } S') →
      ∃ s' S', r.map ({ s with rq := · }) = some s' ∧ Sound s' S' := by
    rintro _ ⟨rq', S', rfl, hsound⟩
    exact ⟨_, S', rfl, hsound⟩
  cases a with
  | tick j =>
    refine hlift (h.keeps ?_)
    unfold schedulerTick
    split
    · exact ⟨s.rq, S, rfl, h.toInv, Kept.refl _⟩
    · exact h.toInv.tick s.rq.curr j
  | schedule now preemptActive sigPending => exact hlift (h.schedule now preemptActive sigPending)
  | setState state =>
    have hon := h.curr.resolve_left ha
    have hborn : s.born s.rq.curr = false := Bool.eq_false_iff.mpr fun hb => h.ne_child hb rfl
    have hself := s.rq.setTask_self s.rq.curr ((s.rq.task s.rq.curr).setState state)
    have hon' := (congrArg (Option.isSome ∘ Task.array) hself).trans hon
    exact ⟨_, S, rfl, h.keptBut (h.toInv.touch rfl) (keptBut_setTask s.rq s.rq.curr _) ha
      (fun _ _ => rfl) (fun _ => hon') (.inl ⟨hon', hborn⟩)⟩
  | wake p mask sync now inInterrupt =>
    obtain ⟨rq', S', r, hwake, hinv, hcase⟩ :=
      h.toInv.wake (p := p) h.idleRuns mask sync now inInterrupt
    refine ⟨_, S', congrArg (Option.map _) hwake, ?_⟩
    rcases hcase with rfl | ⟨hstate, hj⟩
    · exact h.kept hinv (Kept.refl _)
    · have hi : p ≠ s.rq.idle := by
        rintro rfl
        exact hstate h.idleRuns
      have hborn : s.born p = false :=
        Bool.eq_false_iff.mpr fun hb => hstate (h.child p hb).2.1
      exact h.keptBut hinv hj.toKeptBut hi (fun _ _ => rfl) (fun _ => hj.on) (.inl ⟨hj.on, hborn⟩)
  | fork p now j =>
    obtain ⟨hdead, hn, hc⟩ := ha
    have hi : p ≠ s.rq.idle := by
      rintro rfl
      exact nomatch hdead.symm.trans h.idleRuns
    obtain ⟨rq', S', hfork, hinv, hbut, hrun, hnone⟩ := h.toInv.fork hn hc now j
    exact ⟨_, S', congrArg (Option.map _) hfork, h.keptBut hinv hbut hi
      (fun q hq => Function.update_of_ne hq ..) (fun he => absurd he.symm hc)
      (.inr ⟨hnone, hrun, Function.update_self ..⟩)⟩
  | wakeNew p cloneVm =>
    obtain ⟨hn, hrun, hi⟩ := h.child p ha
    obtain ⟨rq', S', hwake, hinv, hj⟩ := h.toInv.wakeNew hrun hn hi cloneVm
    exact ⟨_, S', congrArg (Option.map _) hwake, h.keptBut hinv hj.toKeptBut hi
      (fun q hq => Function.update_of_ne hq ..) (fun _ => hj.on)
      (.inl ⟨hj.on, Function.update_self ..⟩)⟩
  | setprio p prio => exact hlift (h.keeps (h.toInv.setprio p ha.1 ha.2))
  | nice p nice => exact hlift (h.keeps (h.toInv.nice p nice))
  | setscheduler p policy prio waiter =>
    obtain ⟨rq', S', r, hset, hinv, hkept⟩ := h.toInv.setscheduler p policy prio ha
    exact ⟨_, S', congrArg (Option.map _) hset, h.kept hinv hkept⟩
  | yield now sigPending =>
    obtain ⟨a, hon⟩ := Option.isSome_iff_exists.mp (h.curr.resolve_left ha)
    obtain ⟨rq₁, S₁, hyield, hsound₁⟩ := h.keeps (h.toInv.yield hon)
    obtain ⟨rq', S', hsched, hsound⟩ := hsound₁.schedule now false sigPending
    refine hlift ⟨rq', S', ?_, hsound⟩
    rw [sysSchedYield, hyield]
    exact hsched
  | share p slice avg =>
    exact ⟨_, S, rfl, h.kept (h.toInv.touch rfl) (Kept.touch rfl rfl)⟩

theorem sound_start (l : Links Node) (bitmap : ArrayId → Bitmap) {task : Nat → Task} {idle : Nat}
    (now : UInt64) (hf : Fresh task idle) :
    Sound ⟨schedInit l bitmap task idle now, fun _ => false⟩ fun _ => [] where
  toRep := rep_schedInit l bitmap task idle now
  array p a := by
    refine ⟨fun ha => ?_, fun hm => absurd hm.2 List.not_mem_nil⟩
    by_cases hp : p = idle
    · subst hp
      simp only [schedInit, Function.update_self] at ha
      cases ha
    · simp only [schedInit, Function.update_of_ne hp, hf.array p] at ha
      cases ha
  nrRunning := by
    have hzero : ∀ a, count (fun _ => []) a = 0 := fun a => count_eq_zero_iff.mpr fun _ _ => rfl
    simp only [total, hzero]
    rfl
  distinct := nofun
  idle := by
    simp only [schedInit, Function.update_self]
    rfl
  ok p := by
    by_cases hp : p = idle
    · subst hp
      simp only [schedInit, Function.update_self]
      have hmax : (0 : Int) ≤ maxPrio := by decide
      exact ⟨hmax, hmax, (hf.ok p).rtPriority⟩
    · simp only [schedInit, Function.update_of_ne hp]
      exact hf.ok p
  curr := .inl rfl
  idleRuns := by
    simp only [schedInit, Function.update_self]
    rfl
  runnable p hp hs := by
    simp only [schedInit] at hp hs
    rw [Function.update_of_ne hp, hf.dead p hp] at hs
    cases hs
  child p hb := absurd hb Bool.false_ne_true

theorem Reachable.sound (hs : Reachable s) : ∃ S, Sound s S := by
  induction hs with
  | start l bitmap now hf => exact ⟨_, sound_start l bitmap now hf⟩
  | step _ ha hexec ih =>
    obtain ⟨S, hsound⟩ := ih
    obtain ⟨s', S', hexec', hsound'⟩ := hsound.step ha
    rw [hexec] at hexec'
    cases hexec'
    exact ⟨S', hsound'⟩

theorem Inv.queued_iff {rq : Rq} (h : Inv rq S) :
    (rq.task p).array.isSome = true ↔ ∃ k ∈ Valid, p ∈ S k := by
  rw [Option.isSome_iff_exists]
  constructor
  · rintro ⟨a, ha⟩
    exact ⟨_, (h.array p a).mp ha⟩
  · rintro ⟨k, hk, hm⟩
    exact ⟨k.1, h.array_of_mem hk hm⟩

/-- **No task is lost.** In every order of calls a task that may run is on exactly one list, unless
it is still being forked, `nr_running` counts the lists, and every call has a result. -/
theorem runnable_queued (hs : Reachable s) :
    (∃ S, Rep s.rq S ∧ s.rq.nrRunning = total S ∧
      (∀ p, p ≠ s.rq.idle → (s.rq.task p).state = .running →
        (∃ k ∈ Valid, p ∈ S k) ∨ s.born p = true) ∧
      (s.rq.curr = s.rq.idle ∨ ∃ k ∈ Valid, s.rq.curr ∈ S k)) ∧
    ∀ a, Enabled s a → ∃ s', s.exec a = some s' := by
  obtain ⟨S, hsound⟩ := hs.sound
  refine ⟨⟨S, hsound.toRep, hsound.nrRunning, fun p hp hr => ?_, ?_⟩, fun a ha => ?_⟩
  · rw [← hsound.toInv.queued_iff]
    exact hsound.runnable p hp hr
  · rw [← hsound.toInv.queued_iff]
    exact hsound.curr
  · obtain ⟨s', -, hexec, -⟩ := hsound.step ha
    exact ⟨s', hexec⟩

/-- A task that does not exist yet. -/
def freeTask : Task where
  state := .dead
  prio := 125
  staticPrio := ⟨125, by decide, by decide⟩
  normalPrio := 125
  rtPriority := 0
  policy := .normal
  sleepAvg := 0
  sleepType := .normal
  timestamp := 0
  timeSlice := 25
  firstTimeSlice := false
  array := none
  needResched := false
  mm := true

/-- After `sched_init` with task 0 as `idle`. -/
def boot : Sys := ⟨schedInit ⟨id, id⟩ (fun _ => 0) (fun _ => freeTask) 0 0, fun _ => false⟩

theorem reachable_boot : Reachable boot :=
  .start _ _ 0 ⟨fun _ _ => rfl, fun _ => rfl, fun _ => ⟨by decide, by decide, by decide⟩⟩

/-- `idle` forks task 1, which forks task 2 and is about to sleep. -/
def twoTasks : List Act :=
  [.fork 1 0 1, .wakeNew 1 false, .schedule 0 false false, .fork 2 0 1, .wakeNew 2 true,
    .setState (.interruptible false)]

theorem boot_run : ∃ s, boot.run twoTasks = some s ∧ s.rq.curr = 1 ∧ s.rq.idle = 0 ∧
    s.rq.nrRunning = 2 ∧ (s.rq.task 2).state = .running ∧ s.born 2 = false ∧
    (RunQueue.schedule s.rq 0 false false).map Rq.curr = some 2 := by
  have hrun : (boot.run twoTasks).map (fun s => decide (s.rq.curr = 1 ∧ s.rq.idle = 0 ∧
      s.rq.nrRunning = 2 ∧ (s.rq.task 2).state = .running ∧ s.born 2 = false ∧
      (RunQueue.schedule s.rq 0 false false).map Rq.curr = some 2)) = some true := by
    decide +kernel
  obtain ⟨s, hs, heq⟩ := Option.map_eq_some_iff.mp hrun
  exact ⟨s, hs, of_decide_eq_true heq⟩

theorem runnable_queued_forked : ∃ s S, Reachable s ∧ s.rq.curr = 1 ∧ Rep s.rq S ∧ total S = 2 ∧
    (∃ k ∈ Valid, 2 ∈ S k) ∧ ∃ s', s.exec (.yield 0 false) = some s' := by
  obtain ⟨s, hrun, hcurr, hidle, hn, hstate, hborn, -⟩ := boot_run
  have hs := reachable_boot.run hrun
  obtain ⟨⟨S, hrep, htotal, hqueued, -⟩, hcalls⟩ := runnable_queued hs
  have htwo := (hqueued 2 (by rw [hidle]; decide) hstate).resolve_right (by rw [hborn]; decide)
  exact ⟨s, S, hs, hcurr, hrep, htotal.symm.trans hn, htwo,
    hcalls (.yield 0 false) (by rw [Enabled, hcurr, hidle]; decide)⟩

/-! ## The choice of `schedule` -/

/-- The tasks of an array in the order of their priorities. -/
def order (S : Lists) (a : ArrayId) : List Nat := prios.flatMap fun i => S (a, i)

/-- The task to run: the first of the active array, then of the expired one, then `idle`. -/
def choice (S : Lists) (active expired : ArrayId) (idle : Nat) : Nat :=
  (order S active ++ order S expired).headD idle

theorem mem_prios {i : Int} (h : i ∈ prios) (a : ArrayId) : (a, i) ∈ Valid := by
  obtain ⟨n, hn, rfl⟩ := List.mem_map.mp h
  have hlt : n < 140 := List.mem_range.mp hn
  exact ⟨Int.natCast_nonneg n, show (n : Int) < 140 by omega⟩

theorem order_congr {a : ArrayId} (h : ∀ k ∈ Valid, S k = S' k) : order S a = order S' a :=
  List.flatMap_congr fun _ hi => h _ (mem_prios hi a)

theorem order_nil {a : ArrayId} (h : count S a = 0) : order S a = [] :=
  List.flatMap_eq_nil_iff.mpr fun i hi => count_eq_zero_iff.mp h i (mem_prios hi a)

theorem head?_flatMap_range {f : Nat → List Nat} {n m x : Nat} {xs : List Nat} (hn : n < m)
    (hf : f n = x :: xs) (hb : ∀ j < n, f j = []) : ((List.range m).flatMap f).head? = some x := by
  induction m with
  | zero => omega
  | succ m ih =>
    rw [List.range_succ, List.flatMap_append, List.head?_append]
    by_cases hm : n = m
    · subst hm
      have hnil : (List.range n).flatMap f = [] :=
        List.flatMap_eq_nil_iff.mpr fun j hj => hb j (List.mem_range.mp hj)
      simp [hnil, hf]
    · rw [ih (by omega)]
      rfl

theorem order_head {a : ArrayId} {i : Int} {x : Nat} {xs : List Nat} (hv : (a, i) ∈ Valid)
    (hf : S (a, i) = x :: xs) (hb : ∀ j < i, (a, j) ∈ Valid → S (a, j) = []) :
    (order S a).head? = some x := by
  obtain ⟨h0, hlt⟩ : 0 ≤ i ∧ i < 140 := hv
  have hcast : Int.ofNat i.toNat = i := Int.toNat_of_nonneg h0
  have hfirst : S (a, Int.ofNat i.toNat) = x :: xs := by rw [hcast, hf]
  rw [order, prios, List.flatMap_map]
  refine head?_flatMap_range (show i.toNat < 140 by omega) hfirst fun j hj => ?_
  have hji : (j : Int) < i := by omega
  exact hb j hji ⟨Int.natCast_nonneg j, show (j : Int) < 140 by omega⟩

theorem Rep.unique {rq : Rq} (h : Rep rq S) (h' : Rep rq S') : ∀ k ∈ Valid, S k = S' k :=
  fun k hk => List.map_injective_iff.mpr layout.node_inj
    ((h.queues.ring k hk).unique (h'.queues.ring k hk))

/-- **`schedule` chooses right.** Whatever the lists hold, the task that runs after `schedule` is
the first one in the order of the priorities, without the caller if that goes to sleep. -/
theorem schedule_chooses (hs : Reachable s) (hS : Rep s.rq S) (now : UInt64)
    (preemptActive sigPending : Bool) : ∃ rq',
      schedule s.rq now preemptActive sigPending = some rq' ∧
      rq'.curr = choice
        (fun k => if (s.rq.task s.rq.curr).sleeps preemptActive sigPending then
          (S k).erase s.rq.curr else S k) s.rq.active s.rq.expired s.rq.idle := by
  obtain ⟨S₀, hsound⟩ := hs.sound
  obtain ⟨rq₁, S₁, rq', S', hinv₁, hleft, hsched, hinv, hpick⟩ :=
    hsound.toInv.schedule now preemptActive sigPending hsound.curr_may_leave
  refine ⟨rq', hsched, ?_⟩
  have hlists : ∀ k ∈ Valid, (if (s.rq.task s.rq.curr).sleeps preemptActive sigPending then
      (S k).erase s.rq.curr else S k) = S₁ k := fun k hk => by
    rw [hleft.lists k hk, hsound.toRep.unique hS k hk]
  unfold choice
  rw [order_congr hlists, order_congr hlists, ← hleft.active, ← hleft.expired, ← hleft.idle]
  cases hpick with
  | idle hn hc _ =>
    have htotal : count S₁ .zero + count S₁ .one = 0 := hinv₁.nrRunning.symm.trans hn
    have hnil : ∀ a, order S₁ a = [] := fun a => order_nil (by cases a <;> omega)
    rw [hnil, hnil, hc]
    rfl
  | next hv hf hb _ =>
    have hhead := order_head hv hf hb
    have hactive := hinv₁.nrActive rq₁.active
    rw [List.headD_eq_head?_getD, List.head?_append]
    unfold switchArrays at hhead
    split at hhead
    · rename_i hzero
      rw [order_nil (by omega : count S₁ rq₁.active = 0), hhead]
      rfl
    · rw [hhead]
      rfl

theorem schedule_chooses_two : ∃ s S, Reachable s ∧ Rep s.rq S ∧ s.rq.curr = 1 ∧
    choice (fun k => if (s.rq.task 1).sleeps false false then (S k).erase 1 else S k)
      s.rq.active s.rq.expired s.rq.idle = 2 := by
  obtain ⟨s, hrun, hcurr, -, -, -, -, hsched⟩ := boot_run
  have hs := reachable_boot.run hrun
  obtain ⟨S, hsound⟩ := hs.sound
  obtain ⟨rq', hrq', hchoice⟩ := schedule_chooses hs hsound.toRep 0 false false
  rw [hrq'] at hsched
  rw [hcurr] at hchoice
  exact ⟨s, S, hs, hsound.toRep, hcurr, hchoice.symm.trans (Option.some_inj.mp hsched)⟩

end

end Cs370.RunQueue
