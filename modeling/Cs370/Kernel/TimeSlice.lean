import Cs370.Kernel.Sched
import Cs370.Lib.Run

/-!
# Positive time slices

`task_running_tick` decrements the slice before it looks at it, and so relies on every task but
the idle one having a positive slice (`Positive`). The scheduler's own functions keep that, as
long as the sums of slices they form stay clear of `2 ^ 32`; `sys_quad` can multiply a slice to
0, and `sys_swipe` leaves its victim with 0 whenever it succeeds. `SliceOk` is the exact
condition on a step.
-/

namespace Cs370.Sched

open Cs370.Trans

/-! ## Steps -/

inductive Act where
  | fork (current child : Nat)
  | tick (pid : Nat)
  | exit (pid : Nat)
  | quad (pid : Int)
  | swipe (target victim : Int)
  | other

/-- The operations on slices, by any tasks, and `other`: anything that leaves the slices alone
and creates no task. -/
inductive Step : State → Act → State → Prop where
  | fork {s : State} {current child : Nat} {cur p : Task} {starving : Bool} :
      s.tasks current = some cur → child ≠ 0 → s.tasks child = none →
      Step s (.fork current child)
        ((s.set current (schedFork starving cur p).1).set child (schedFork starving cur p).2)
  | tick {s : State} {pid : Nat} {p : Task} {starving : Bool} : s.tasks pid = some p →
      Step s (.tick pid) (s.set pid (taskRunningTick starving p))
  | exit {s : State} {pid : Nat} {p parent : Task} : s.tasks pid = some p →
      s.tasks p.parent = some parent → Step s (.exit pid) (s.set p.parent (schedExit p parent))
  | quad {s : State} {pid : Int} : Step s (.quad pid) (sysQuad s pid).1
  | swipe {s : State} {target victim : Int} :
      Step s (.swipe target victim) (sysSwipe s target victim).1
  | other {s t : State} : (∀ pid p, t.tasks pid = some p →
      ∃ q, s.tasks pid = some q ∧ p.timeSlice = q.timeSlice) → Step s .other t

/-- Every task but the idle one has a positive slice. -/
def Positive (s : State) : Prop := ∀ pid p, pid ≠ 0 → s.tasks pid = some p → p.timeSlice ≠ 0

/-- The steps that keep the slices positive. -/
def SliceOk (s : State) : Act → Prop
  | .fork current _ => ∀ cur, s.tasks current = some cur →
      cur.timeSlice ≠ 0 ∧ cur.timeSlice.toNat ≠ 2 ^ 32 - 1
  | .exit pid => ∀ p parent, s.tasks pid = some p → s.tasks p.parent = some parent →
      p.parent ≠ 0 → p.firstTimeSlice → p.cpu = parent.cpu →
      parent.timeSlice.toNat + p.timeSlice.toNat ≠ 2 ^ 32
  | .quad pid => ∀ task, s.findTaskByPid pid = some task → ¬ 2 ^ 30 ∣ task.timeSlice.toNat
  | .swipe target victim =>
      target = victim ∨ s.findTaskByPid target = none ∨ s.findTaskByPid victim = none
  | _ => True

/-! ## Slices -/

theorem scalePrio_bounds {x prio : Int} (hx : 0 ≤ x) (hx' : x ≤ 100) (hl : maxRtPrio ≤ prio)
    (hh : prio < maxPrio) : 1 ≤ scalePrio x prio ∧ scalePrio x prio ≤ 4000 := by
  have hl : 100 ≤ prio := hl
  have hh : prio < 140 := hh
  have h0 : 0 ≤ x * (140 - prio) := Int.mul_nonneg hx (by omega)
  have h1 : x * (140 - prio) ≤ 100 * 40 := Int.mul_le_mul hx' (by omega) (by omega) (by omega)
  have hdiv : (x * (140 - prio)).tdiv 20 ≤ x * (140 - prio) := Int.tdiv_le_self _ h0
  show 1 ≤ max ((x * (140 - prio)).tdiv 20) 1 ∧ max ((x * (140 - prio)).tdiv 20) 1 ≤ 4000
  omega

theorem ofInt_ne_zero {x : Int} (h1 : 1 ≤ x) (h2 : x < 2 ^ 32) : UInt32.ofInt x ≠ 0 := by
  intro h
  have := congrArg UInt32.toNat h
  simp [UInt32.ofInt] at this
  omega

theorem Task.taskTimeslice_ne_zero (p : Task) : p.taskTimeslice ≠ 0 := by
  unfold Task.taskTimeslice staticPrioTimeslice
  split
  · have h := scalePrio_bounds (x := defTimeslice * 4) (by decide) (by decide) p.staticPrio.le
      p.staticPrio.lt
    exact ofInt_ne_zero h.1 (by omega)
  · have h := scalePrio_bounds (x := defTimeslice) (by decide) (by decide) p.staticPrio.le
      p.staticPrio.lt
    exact ofInt_ne_zero h.1 (by omega)

theorem forkChild_eq_zero_iff (x : UInt32) : (x + 1) >>> 1 = 0 ↔ x = 0 ∨ x.toNat = 2 ^ 32 - 1 := by
  have hx := x.toNat_lt
  rw [← UInt32.toNat_inj, ← UInt32.toNat_inj, UInt32.toNat_shiftRight, UInt32.toNat_add]
  simp [Nat.shiftRight_eq_div_pow]
  omega

theorem mul_four_eq_zero_iff (x : UInt32) : x * 4 = 0 ↔ 2 ^ 30 ∣ x.toNat := by
  have hx := x.toNat_lt
  rw [← UInt32.toNat_inj, UInt32.toNat_mul]
  simp
  omega

theorem add_eq_zero_iff {x y : UInt32} (hx : x ≠ 0) : x + y = 0 ↔ x.toNat + y.toNat = 2 ^ 32 := by
  have h1 := x.toNat_lt
  have h2 := y.toNat_lt
  have h3 : x.toNat ≠ 0 := fun h => hx (UInt32.toNat_inj.mp h)
  rw [← UInt32.toNat_inj, UInt32.toNat_add]
  simp
  omega

theorem tick_ne_zero {p : Task} (h : p.timeSlice ≠ 0) (starving : Bool) :
    (taskRunningTick starving p).timeSlice ≠ 0 := by
  have := p.taskTimeslice_ne_zero
  unfold taskRunningTick
  split_ifs <;> assumption

/-- The forking task is left with a positive slice, whatever it had. -/
theorem fork_current_ne_zero (starving : Bool) (cur p : Task) :
    (schedFork starving cur p).1.timeSlice ≠ 0 := by
  unfold schedFork
  dsimp only
  split
  · exact tick_ne_zero (show (1 : UInt32) ≠ 0 by decide) starving
  · assumption

theorem fork_child_ne_zero_iff (starving : Bool) (cur p : Task) :
    (schedFork starving cur p).2.timeSlice ≠ 0 ↔
      cur.timeSlice ≠ 0 ∧ cur.timeSlice.toNat ≠ 2 ^ 32 - 1 := by
  have hslice : (schedFork starving cur p).2.timeSlice = (cur.timeSlice + 1) >>> 1 := by
    unfold schedFork
    dsimp only
    split <;> rfl
  rw [hslice, Ne, forkChild_eq_zero_iff, not_or]

theorem exit_ne_zero_iff {p parent : Task} (h : parent.timeSlice ≠ 0) :
    (schedExit p parent).timeSlice ≠ 0 ↔ (p.firstTimeSlice → p.cpu = parent.cpu →
      parent.timeSlice.toNat + p.timeSlice.toNat ≠ 2 ^ 32) := by
  have hp := p.taskTimeslice_ne_zero
  unfold schedExit
  dsimp only
  split
  · rename_i hc
    rw [Ne, Ne, ← add_eq_zero_iff h]
    split
    · rename_i hgt
      -- a sum above the cap is not 0
      have hsum : parent.timeSlice + p.timeSlice ≠ 0 := by
        intro h0
        rw [h0] at hgt
        exact absurd hgt UInt32.not_lt_zero
      exact iff_of_true hp fun _ _ => hsum
    · exact ⟨fun hs _ _ => hs, fun hs => hs hc.1 hc.2⟩
  · rename_i hc
    exact iff_of_true h fun h1 h2 => absurd ⟨h1, h2⟩ hc

/-! ## Steps keep the slices positive, or not -/

theorem set_tasks (s : State) (pid : Nat) (p : Task) : (s.set pid p).tasks pid = some p :=
  Function.update_self ..

theorem set_tasks_of_ne (s : State) {pid q : Nat} (p : Task) (h : q ≠ pid) :
    (s.set pid p).tasks q = s.tasks q :=
  Function.update_of_ne h ..

theorem Positive.set_iff {s : State} (h : Positive s) (pid : Nat) (p : Task) :
    Positive (s.set pid p) ↔ (pid ≠ 0 → p.timeSlice ≠ 0) := by
  constructor
  · exact fun h' hne => h' pid p hne (set_tasks s pid p)
  · intro hp q k hq hk
    by_cases hqp : q = pid
    · subst hqp
      obtain rfl : p = k := Option.some.inj ((set_tasks s q p).symm.trans hk)
      exact hp hq
    · exact h q k hq ((set_tasks_of_ne s p hqp).symm.trans hk)

theorem findTaskByPid_eq_some {s : State} {pid : Int} {p : Task}
    (h : s.findTaskByPid pid = some p) : pid.toNat ≠ 0 ∧ s.tasks pid.toNat = some p := by
  unfold State.findTaskByPid at h
  split at h
  · exact ⟨by omega, (Option.filter_eq_some_iff.mp h).1⟩
  · cases h

theorem quad_positive_iff {s : State} (h : Positive s) (pid : Int) :
    Positive (sysQuad s pid).1 ↔ SliceOk s (.quad pid) := by
  unfold sysQuad SliceOk
  cases hfind : s.findTaskByPid pid with
  | none => exact iff_of_true h fun _ hk => by rw [hfind] at hk; cases hk
  | some task =>
    have hne := (findTaskByPid_eq_some hfind).1
    rw [h.set_iff]
    constructor
    · intro hs k hk
      cases hfind.symm.trans hk
      exact fun hd => hs hne ((mul_four_eq_zero_iff _).mpr hd)
    · exact fun hd _ h0 => hd task hfind ((mul_four_eq_zero_iff _).mp h0)

/-- A swipe that succeeds leaves its victim with no slice. -/
theorem swipe_positive_iff {s : State} (h : Positive s) (target victim : Int) :
    Positive (sysSwipe s target victim).1 ↔ SliceOk s (.swipe target victim) := by
  unfold sysSwipe SliceOk
  split
  · exact iff_of_true h (.inl ‹_›)
  · rename_i hne
    cases ht : s.findTaskByPid target with
    | none => exact iff_of_true h (.inr (.inl ht))
    | some targetTask =>
      cases hv : s.findTaskByPid victim with
      | none => exact iff_of_true h (.inr (.inr hv))
      | some victimTask =>
        refine iff_of_false (fun h' => ?_) (by simp [hne, ht, hv])
        exact h' victim.toNat _ (findTaskByPid_eq_some hv).1 (set_tasks _ victim.toNat _) rfl

theorem Step.positive_iff {s t : State} {a : Act} (h : Positive s) (hs : Step s a t) :
    Positive t ↔ SliceOk s a := by
  cases hs with
  | @fork current child cur p starving hcur hchild hnone =>
    have h1 : Positive (s.set current (schedFork starving cur p).1) :=
      (h.set_iff _ _).mpr fun _ => fork_current_ne_zero starving cur p
    rw [h1.set_iff, fork_child_ne_zero_iff]
    constructor
    · intro hok cur' hcur'
      cases hcur.symm.trans hcur'
      exact hok hchild
    · exact fun hok _ => hok cur hcur
  | @tick pid p starving hp =>
    have hpos : Positive (s.set pid (taskRunningTick starving p)) :=
      (h.set_iff _ _).mpr fun hne => tick_ne_zero (h pid p hne hp) starving
    exact iff_of_true hpos trivial
  | @exit pid p parent hp hparent =>
    rw [h.set_iff]
    refine ⟨fun hok p' parent' hp' hparent' hne => ?_, fun hok hne => ?_⟩
    · cases hp.symm.trans hp'
      cases hparent.symm.trans hparent'
      exact (exit_ne_zero_iff (h _ _ hne hparent)).mp (hok hne)
    · exact (exit_ne_zero_iff (h _ _ hne hparent)).mpr (hok p parent hp hparent hne)
  | quad => exact quad_positive_iff h _
  | swipe => exact swipe_positive_iff h _ _
  | other hsame =>
    refine iff_of_true (fun pid p hne hp => ?_) trivial
    obtain ⟨q, hq, heq⟩ := hsame pid p hp
    rw [heq]
    exact h pid q hne hq

/-- **Positive time slices**: in a run from a state in which every task but the idle one has a
positive slice, all have one in every state exactly if every step meets `SliceOk`. -/
theorem positive_run_iff {s t : State} {tr : List (State × Act)} (h : Run Step s tr t)
    (h0 : Positive s) : ((∀ x ∈ tr, Positive x.1) ∧ Positive t) ↔ ∀ x ∈ tr, SliceOk x.1 x.2 :=
  h.good_iff (I := fun _ => True) (fun _ _ _ _ _ => trivial)
    (fun _ _ _ _ hg hs => hs.positive_iff hg) trivial h0

/-- Two ordinary tasks, each with a full slice. -/
def sampleTask : Task where
  timeSlice := 25
  firstTimeSlice := false
  staticPrio := ⟨120, by decide, by decide⟩
  prio := 120
  normalPrio := 120
  rtPriority := 0
  policy := .normal
  sleepAvg := 0
  array := .active
  cpu := 0
  parent := 1
  children := []
  hashed := true

def sampleState : State where
  tasks pid := if pid = 1 ∨ pid = 2 then some sampleTask else none
  strayPid _ := 0

theorem sampleState_positive : Positive sampleState := by
  intro pid p _ hp
  unfold sampleState at hp
  dsimp only at hp
  split at hp
  · cases hp
    decide
  · cases hp

/-- Task 1 quadruples its slice, runs for a tick and forks task 3, which exits. -/
theorem positive_run_iff_quad : ∃ tr t, Run Step sampleState tr t ∧
    tr.map Prod.snd = [.quad 1, .tick 1, .fork 1 3, .exit 3] ∧ (∀ x ∈ tr, SliceOk x.1 x.2) ∧
    (∀ x ∈ tr, Positive x.1) ∧ Positive t := by
  have hquad : Step sampleState (.quad 1) (sysQuad sampleState 1).1 ∧
      SliceOk sampleState (.quad 1) := by
    refine ⟨.quad, fun task htask => ?_⟩
    cases htask
    decide
  have hforkOk : SliceOk ((sysQuad sampleState 1).1.set 1 (taskRunningTick false
      { sampleTask with timeSlice := 100 })) (.fork 1 3) := by
    intro cur hcur
    cases hcur
    decide
  have hrun : ∃ tr t, Run (fun s a t => Step s a t ∧ SliceOk s a) sampleState tr t ∧
      tr.map Prod.snd = [.quad 1, .tick 1, .fork 1 3, .exit 3] := by
    refine ⟨_, _, .cons hquad <| .cons ⟨@Step.tick _ _ _ false rfl, trivial⟩ <|
      .cons ⟨@Step.fork _ _ _ _ sampleTask false rfl (by decide) rfl, hforkOk⟩ <|
      .cons ⟨.exit rfl rfl, ?_⟩ (.nil _), rfl⟩
    intro p parent hp hparent _ _ _
    cases hp
    cases hparent
    decide
  obtain ⟨tr, t, hboth, hacts⟩ := hrun
  obtain ⟨hsteps, hok⟩ := run_and_iff.mp hboth
  exact ⟨tr, t, hsteps, hacts, hok, (positive_run_iff hsteps sampleState_positive).mpr hok⟩

/-- `sys_swipe(1, 2)` and a tick of task 2: its slice has wrapped around. -/
theorem swipe_tick_wraps : Positive sampleState ∧ ∃ tr t p, Run Step sampleState tr t ∧
    tr.map Prod.snd = [.swipe 1 2, .tick 2] ∧ t.tasks 2 = some p ∧
    p.timeSlice.toNat = 2 ^ 32 - 1 := by
  have htick : Step (sysSwipe sampleState 1 2).1 (.tick 2)
      ((sysSwipe sampleState 1 2).1.set 2
        (taskRunningTick false { sampleTask with timeSlice := 0 })) := .tick rfl
  exact ⟨sampleState_positive, _, _, _, .cons .swipe (.cons htick (.nil _)), rfl,
    set_tasks _ 2 _, by decide⟩

end Cs370.Sched
