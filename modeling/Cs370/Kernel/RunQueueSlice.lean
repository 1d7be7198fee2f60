import Cs370.Kernel.RunQueueRuns
import Cs370.Lib.Run

/-!
# Time slices

The tick that ends the time slice of a task moves it to the expired array, unless it is real-time
or interactive, and the arrays change places only when the active one is empty. So no task waits for
ever: where all tasks are of that kind, what the others may still take of the processor before it
is the turn of a task gets less with every clock interrupt.
-/

namespace Cs370.RunQueue

open Cs370.Kernel
open Cs370.Sched (maxPrio)
open Cs370.Trans (Follows follows_nil_iff follows_cons_iff)

/-- The ticks until the time slice has ended. The counter is unsigned: a time slice of 0, as
`sys_quad` leaves it behind when it overflows, lasts for `2 ^ 32` of them. -/
def Task.ticksLeft (t : Task) : Nat := (t.timeSlice - 1).toNat + 1

theorem ticksLeft_ticked {t : Task} (h : t.ticked.timeSlice ≠ 0) :
    t.ticked.ticksLeft + 1 = t.ticksLeft := by
  have hpos : 0 < (t.timeSlice - 1).toNat :=
    Nat.pos_of_ne_zero fun h0 => h (UInt32.toNat_inj.mp h0)
  have hle : 1 ≤ t.timeSlice - 1 := UInt32.le_iff_toNat_le.mpr hpos
  rw [Task.ticksLeft, Task.ticksLeft, Task.ticked, UInt32.toNat_sub_of_le _ _ hle,
    UInt32.toNat_one]
  omega

theorem ticksLeft_eq_one_iff {t : Task} : t.ticksLeft = 1 ↔ t.ticked.timeSlice = 0 := by
  rw [Task.ticksLeft, Nat.add_eq_right]
  exact UInt32.toNat_inj (b := 0)

/-! ## One tick -/

/-- What a tick leaves alone. -/
structure Ticked (rq rq' : Rq) : Prop where
  active : rq'.active = rq.active
  expired : rq'.expired = rq.expired
  curr : rq'.curr = rq.curr
  others : ∀ q, q ≠ rq.curr → rq'.task q = rq.task q

section

variable {s : Sys} {S : Lists} {rq rq' : Rq} {p q : Nat}

theorem Inv.schedulerTick_eq (h : Inv rq S) (ha : (rq.task rq.curr).array = some rq.active)
    (j : UInt64) : schedulerTick rq j = taskRunningTick rq rq.curr j := if_neg (h.ne_idle ha)

theorem Inv.slice_goes (h : Inv rq S) (ha : (rq.task rq.curr).array = some rq.active)
    (hrt : (rq.task rq.curr).rtTask = false) (hslice : (rq.task rq.curr).ticked.timeSlice ≠ 0)
    (j : UInt64) : ∃ rq' r, schedulerTick rq j = some rq' ∧ Ticked rq rq' ∧
      rq'.task rq.curr = { (rq.task rq.curr).ticked with needResched := r } := by
  obtain ⟨l, r, S', htick, -⟩ := h.tick_run ha hrt hslice j
  exact ⟨_, r, (h.schedulerTick_eq ha j).trans htick,
    ⟨rfl, rfl, rfl, fun q hq => Rq.setTask_of_ne _ hq _⟩, Rq.setTask_self ..⟩

theorem Inv.slice_ends (h : Inv rq S) (ha : (rq.task rq.curr).array = some rq.active)
    (hrt : (rq.task rq.curr).rtTask = false)
    (hexp : (rq.task rq.curr).expired.interactive = false)
    (hslice : (rq.task rq.curr).ticked.timeSlice = 0) (j : UInt64) : ∃ rq',
      schedulerTick rq j = some rq' ∧ Ticked rq rq' ∧
      rq'.task rq.curr = (rq.task rq.curr).expired.on rq.expired := by
  obtain ⟨l, A, best, S', htick, -⟩ := h.tick_expire ha hrt hslice j
  have hself : (rq.atExpiry rq.curr j).task rq.curr = (rq.task rq.curr).expired :=
    Function.update_self ..
  have harray : (rq.atExpiry rq.curr j).expiryArray rq.curr j = rq.expired := by
    rw [Rq.expiryArray, hself, hexp]
    rfl
  rw [harray] at htick
  exact ⟨_, (h.schedulerTick_eq ha j).trans htick,
    ⟨rfl, rfl, rfl, fun q hq => (Rq.setTask_of_ne _ hq _).trans (Function.update_of_ne hq ..)⟩,
    Rq.setTask_self ..⟩

theorem switchArrays_task (rq : Rq) : (RunQueue.switchArrays rq).task = rq.task := by
  unfold RunQueue.switchArrays
  split <;> rfl

theorem Inv.switchArrays_cases (h : Inv rq S) : RunQueue.switchArrays rq = rq ∨
    (RunQueue.switchArrays rq).active = rq.expired ∧
      (RunQueue.switchArrays rq).expired = rq.active ∧
      ∀ p, (rq.task p).array ≠ some rq.active := by
  unfold RunQueue.switchArrays
  split
  · rename_i hzero
    rw [h.nrActive] at hzero
    refine .inr ⟨rfl, rfl, fun p hp => ?_⟩
    obtain ⟨hk, hm⟩ := (h.array p rq.active).mp hp
    exact List.ne_nil_of_mem hm (count_eq_zero_iff.mp hzero _ hk)
  · exact .inl rfl

theorem Inv.schedule_queued (h : Inv rq S) (hrun : (rq.task rq.curr).state = .running)
    (hq : (rq.task q).array.isSome = true) (now : UInt64) (preemptActive sigPending : Bool) :
    ∃ rq', RunQueue.schedule rq now preemptActive sigPending = some rq' ∧
      Steady (RunQueue.switchArrays rq) rq' ∧ (rq'.task rq'.curr).array = some rq'.active := by
  obtain ⟨rq₁, S₁, rq', S', hinv, hleft, hsched, -, hpick⟩ :=
    h.schedule now preemptActive sigPending (.inl hrun)
  obtain rfl : rq₁ = rq := hleft.same hrun
  refine ⟨rq', hsched, ?_⟩
  cases hpick with
  | idle hn _ _ =>
    obtain ⟨a, ha⟩ := Option.isSome_iff_exists.mp hq
    obtain ⟨hk, hm⟩ := (hinv.array q a).mp ha
    have htotal : count S₁ .zero + count S₁ .one = 0 := hinv.nrRunning.symm.trans hn
    have hzero : count S₁ a = 0 := by cases a <;> omega
    exact absurd (count_eq_zero_iff.mp hzero _ hk) (List.ne_nil_of_mem hm)
  | next hv hf _ hst =>
    have harray := hinv.switchArrays.array_of_mem hv (hf ▸ List.mem_cons_self)
    refine ⟨hst, ?_⟩
    rw [(hst.task _).array, hst.active, harray]

/-! ## Every task is served -/

/-- The ticks of a whole time slice. -/
def Task.wholeSlice (t : Task) : Nat := (t.taskTimeslice - 1).toNat + 1

/-- The ticks `p` may still take before `q` gets the processor. If `q` is not in the active array
it waits until the arrays change places, and then again for the tasks of its own array. -/
def Rq.debt (rq : Rq) (q p : Nat) : Nat :=
  if (rq.task p).array = some rq.active then
    (rq.task p).ticksLeft +
      if (rq.task q).array = some rq.active then 0 else (rq.task p).wholeSlice
  else if (rq.task p).array = some rq.expired ∧ (rq.task q).array ≠ some rq.active then
    (rq.task p).ticksLeft
  else 0

theorem debt_steady (h : Steady rq rq') (q p : Nat) : rq'.debt q p = rq.debt q p := by
  simp only [Rq.debt, Task.ticksLeft, Task.wholeSlice, h.active, h.expired, (h.task _).array,
    (h.task _).timeSlice, (h.task _).taskTimeslice]

theorem Inv.debt_switchArrays (h : Inv rq S) (hq : (rq.task q).array.isSome = true) (p : Nat) :
    (RunQueue.switchArrays rq).debt q p ≤ rq.debt q p := by
  rcases h.switchArrays_cases with hsame | ⟨hactive, hexpired, hempty⟩
  · rw [hsame]
  · -- the active array is empty, so that `q` is in the other one
    obtain ⟨a, ha⟩ := Option.isSome_iff_exists.mp hq
    have hqe : (rq.task q).array = some rq.expired := by
      have hne : a ≠ rq.active := fun he => hempty q (he ▸ ha)
      have hd := h.distinct
      rw [ha]
      cases a <;> cases hae : rq.active <;> cases hee : rq.expired <;> simp_all
    simp only [Rq.debt, switchArrays_task, hactive, hexpired, hqe, hempty, if_true, if_false]
    by_cases hp : (rq.task p).array = some rq.expired
    · simp [hp, h.distinct.symm]
    · simp [hp]

/-- The tasks of the run queue neither sleep nor are interactive, and one of them runs. -/
structure Quiet (rq : Rq) : Prop where
  curr : (rq.task rq.curr).array = some rq.active
  calm : ∀ p, (rq.task p).array.isSome = true → (rq.task p).Calm
  running : ∀ p, (rq.task p).array.isSome = true → (rq.task p).state = .running

theorem Quiet.debt_pos (hq : Quiet rq) (q : Nat) : 0 < rq.debt q rq.curr := by
  rw [Rq.debt, if_pos hq.curr, Task.ticksLeft]
  omega

/-- A tick brings `q` nearer to the processor. -/
structure Nearer (rq rq' : Rq) (q : Nat) : Prop extends Ticked rq rq' where
  calm : ∀ p, (rq.task p).Calm → (rq'.task p).Calm
  state : ∀ p, (rq'.task p).state = (rq.task p).state
  queued : ∀ p, (rq'.task p).array.isSome = (rq.task p).array.isSome
  paid : rq'.debt q rq.curr < rq.debt q rq.curr
  resched : (rq'.task rq.curr).array = some rq.active ∨ (rq'.task rq.curr).needResched = true

/-- It is enough to look at the task that runs. -/
theorem Ticked.nearer (ht : Ticked rq rq')
    (hcalm : (rq.task rq.curr).Calm → (rq'.task rq.curr).Calm)
    (hstate : (rq'.task rq.curr).state = (rq.task rq.curr).state)
    (hqueued : (rq'.task rq.curr).array.isSome = (rq.task rq.curr).array.isSome)
    (hpaid : rq'.debt q rq.curr < rq.debt q rq.curr)
    (hresched : (rq'.task rq.curr).array = some rq.active ∨
      (rq'.task rq.curr).needResched = true) : Nearer rq rq' q := by
  have hall : ∀ {P : Task → Task → Prop}, (∀ t, P t t) →
      P (rq.task rq.curr) (rq'.task rq.curr) → ∀ p, P (rq.task p) (rq'.task p) := by
    intro P hrefl hcurr p
    by_cases hp : p = rq.curr
    · exact hp ▸ hcurr
    · rw [ht.others p hp]
      exact hrefl _
  exact ⟨ht, hall (P := fun t u => t.Calm → u.Calm) (fun _ => id) hcalm,
    hall (P := fun t u => u.state = t.state) (fun _ => rfl) hstate,
    hall (P := fun t u => u.array.isSome = t.array.isSome) (fun _ => rfl) hqueued,
    hpaid, hresched⟩

theorem Ticked.debt_goes {r : Bool} (ht : Ticked rq rq') (hne : q ≠ rq.curr)
    (ha : (rq.task rq.curr).array = some rq.active)
    (hslice : (rq.task rq.curr).ticked.timeSlice ≠ 0)
    (hself : rq'.task rq.curr = { (rq.task rq.curr).ticked with needResched := r }) :
    rq'.debt q rq.curr < rq.debt q rq.curr := by
  have hless := ticksLeft_ticked hslice
  obtain ⟨harray, hticks, hwhole⟩ : (rq'.task rq.curr).array = some rq.active ∧
      (rq'.task rq.curr).ticksLeft = (rq.task rq.curr).ticked.ticksLeft ∧
      (rq'.task rq.curr).wholeSlice = (rq.task rq.curr).wholeSlice := by
    rw [hself]
    exact ⟨ha, rfl, rfl⟩
  rw [Rq.debt, Rq.debt, ht.others q hne, ht.active, if_pos harray, if_pos ha, hticks, hwhole]
  omega

/-- The last tick pays one too: the task owes its next time slice already, if it owes it at all. -/
theorem Ticked.debt_ends (ht : Ticked rq rq') (hne : q ≠ rq.curr) (hd : rq.active ≠ rq.expired)
    (ha : (rq.task rq.curr).array = some rq.active)
    (hslice : (rq.task rq.curr).ticked.timeSlice = 0)
    (hself : rq'.task rq.curr = (rq.task rq.curr).expired.on rq.expired) :
    rq'.debt q rq.curr < rq.debt q rq.curr := by
  have hone := ticksLeft_eq_one_iff.mpr hslice
  obtain ⟨harray, hticks⟩ : (rq'.task rq.curr).array = some rq.expired ∧
      (rq'.task rq.curr).ticksLeft = (rq.task rq.curr).wholeSlice := by
    rw [hself]
    exact ⟨rfl, rfl⟩
  have hnot : (rq'.task rq.curr).array ≠ some rq.active := fun he =>
    hd (Option.some_inj.mp (he.symm.trans harray))
  rw [Rq.debt, Rq.debt, ht.others q hne, ht.active, ht.expired, if_neg hnot, if_pos ha, hone,
    hticks]
  by_cases hw : (rq.task q).array = some rq.active
  · rw [if_pos hw, if_neg fun h => h.2 hw]
    omega
  · rw [if_neg hw, if_pos ⟨harray, hw⟩]
    omega

theorem Quiet.tick (hq : Quiet rq) (h : Inv rq S) (hne : q ≠ rq.curr) (j : UInt64) : ∃ rq',
    schedulerTick rq j = some rq' ∧ Nearer rq rq' q := by
  have hsome : (rq.task rq.curr).array.isSome = true := by
    rw [hq.curr]
    rfl
  have hc := hq.calm rq.curr hsome
  have hrt := rtTask_eq_false hc.prio
  by_cases hslice : (rq.task rq.curr).ticked.timeSlice = 0
  · obtain ⟨rq', htick, ht, hself⟩ := h.slice_ends hq.curr hrt hc.expires hslice j
    have hpaid := ht.debt_ends hne h.distinct hq.curr hslice hself
    refine ⟨rq', htick, ht.nearer ?_ ?_ ?_ hpaid (.inr ?_)⟩ <;> rw [hself]
    · exact fun hc => hc.expired.on rq.expired
    · rfl
    · exact hsome.symm
    · rfl
  · obtain ⟨rq', r, htick, ht, hself⟩ := h.slice_goes hq.curr hrt hslice j
    have hpaid := ht.debt_goes hne hq.curr hslice hself
    refine ⟨rq', htick, ht.nearer ?_ ?_ ?_ hpaid (.inl ?_)⟩ <;> rw [hself]
    · exact fun hc => hc.sleptLess hc.prio rfl hc.sleepType rfl le_rfl
    · rfl
    · rfl
    · exact hq.curr

/-- What a clock interrupt brings: the time in ticks, the clock of `schedule`, and whether the
task that is interrupted has a signal. -/
structure Interrupt where
  jiffies : UInt64
  now : UInt64
  sigPending : Bool

/-- A clock interrupt in user mode: the tick and, on the way back (`retint_careful`), `schedule`
if it was asked for. -/
def Sys.interrupt (s : Sys) (c : Interrupt) : Option Sys := do
  let s ← s.exec (.tick c.jiffies)
  if (s.rq.task s.rq.curr).needResched then s.exec (.schedule c.now false c.sigPending)
  else return s

theorem Quiet.interrupt (hs : Reachable s) (hq : Quiet s.rq)
    (hw : (s.rq.task q).array.isSome = true) (hne : q ≠ s.rq.curr) (c : Interrupt) : ∃ s',
      s.interrupt c = some s' ∧ Reachable s' ∧ Quiet s'.rq ∧
      (∀ p, (s'.rq.task p).array.isSome = (s.rq.task p).array.isSome) ∧
      (∀ p, s'.rq.debt q p ≤ s.rq.debt q p) ∧
      s'.rq.debt q s.rq.curr < s.rq.debt q s.rq.curr := by
  obtain ⟨S, hsound⟩ := hs.sound
  obtain ⟨rq₁, htick, ht⟩ := hq.tick hsound.toInv hne c.jiffies
  have hexec : s.exec (.tick c.jiffies) = some { s with rq := rq₁ } := by rw [Sys.exec, htick]; rfl
  have hs₁ := hs.step (a := .tick c.jiffies) trivial hexec
  obtain ⟨S₁, hsound₁⟩ := hs₁.sound
  have hcalm : ∀ p, (rq₁.task p).array.isSome = true → (rq₁.task p).Calm := fun p hp =>
    ht.calm p (hq.calm p (ht.queued p ▸ hp))
  have hrunning : ∀ p, (rq₁.task p).array.isSome = true → (rq₁.task p).state = .running :=
    fun p hp => (ht.state p).trans (hq.running p (ht.queued p ▸ hp))
  have hdebt : ∀ p, rq₁.debt q p ≤ s.rq.debt q p := by
    intro p
    by_cases hp : p = s.rq.curr
    · exact hp ▸ ht.paid.le
    · simp only [Rq.debt, ht.others p hp, ht.others q hne, ht.active, ht.expired, le_refl]
  simp only [Sys.interrupt, hexec, Option.bind_eq_bind, Option.bind_some]
  split
  · have hcurr : (rq₁.task rq₁.curr).array.isSome = true := by
      rw [ht.queued, ht.curr, hq.curr]
      rfl
    have hw₁ : (rq₁.task q).array.isSome = true := (ht.queued q).trans hw
    obtain ⟨rq₂, hsched, hsteady, hnext⟩ :=
      hsound₁.toInv.schedule_queued (hrunning _ hcurr) hw₁ c.now false c.sigPending
    have hexec₂ : Sys.exec { s with rq := rq₁ } (.schedule c.now false c.sigPending) =
        some { s with rq := rq₂ } := congrArg (Option.map _) hsched
    have hsame : ∀ p, (rq₁.task p).Same (rq₂.task p) := fun p =>
      switchArrays_task rq₁ ▸ hsteady.task p
    have hle : ∀ p, rq₂.debt q p ≤ rq₁.debt q p := fun p =>
      (debt_steady hsteady q p).trans_le (hsound₁.toInv.debt_switchArrays hw₁ p)
    refine ⟨_, hexec₂, hs₁.step (a := .schedule c.now false c.sigPending) trivial hexec₂,
      ⟨hnext, fun p hp => ?_, fun p hp => ?_⟩, fun p => ?_, fun p => (hle p).trans (hdebt p),
      (hle _).trans_lt ht.paid⟩
    · exact (hsame p).calm (hcalm p ((congrArg Option.isSome (hsame p).array) ▸ hp))
    · exact (hsame p).state.trans (hrunning p ((congrArg Option.isSome (hsame p).array) ▸ hp))
    · exact (congrArg Option.isSome (hsame p).array).trans (ht.queued p)
  · rename_i hno
    rw [ht.curr] at hno
    refine ⟨_, rfl, hs₁, ⟨?_, hcalm, hrunning⟩, ht.queued, hdebt, ht.paid⟩
    simp only [ht.curr, ht.active]
    exact ht.resched.resolve_right hno

/-- The ticks the tasks of `Q` may still take before `q` gets the processor. -/
def Rq.wait (rq : Rq) (Q : Finset Nat) (q : Nat) : Nat := ∑ p ∈ Q, rq.debt q p

/-- **Every task is served.** If the tasks of the run queue neither sleep nor are interactive, each
of them gets the processor after as many clock interrupts as the others may take at most: every
interrupt on the way leaves them less. -/
theorem queued_served (hs : Reachable s) (hq : Quiet s.rq)
    (hw : (s.rq.task q).array.isSome = true) {Q : Finset Nat}
    (hQ : ∀ p, p ≠ q → (s.rq.task p).array.isSome = true → p ∈ Q) (cs : List Interrupt)
    (hlen : s.rq.wait Q q ≤ cs.length) : ∃ n ≤ s.rq.wait Q q, ∃ s',
      Follows (fun u c v => u.interrupt c = some v ∧ v.rq.wait Q q < u.rq.wait Q q)
        s (cs.take n) s' ∧ s'.rq.curr = q := by
  -- on the interrupts; with none left, the running task cannot owe a tick
  induction cs generalizing s with
  | nil =>
    by_cases hc : s.rq.curr = q
    · exact ⟨0, Nat.zero_le _, s, follows_nil_iff.mpr rfl, hc⟩
    · have hmem := hQ s.rq.curr hc (by rw [hq.curr]; rfl)
      have hle := Finset.single_le_sum (f := s.rq.debt q) (fun _ _ => Nat.zero_le _) hmem
      have hpos := hq.debt_pos q
      exact absurd (hpos.trans_le (hle.trans hlen)) (lt_irrefl 0)
  | cons c cs ih =>
    by_cases hc : s.rq.curr = q
    · exact ⟨0, Nat.zero_le _, s, follows_nil_iff.mpr rfl, hc⟩
    · have hmem := hQ s.rq.curr hc (by rw [hq.curr]; rfl)
      obtain ⟨s₁, hint, hs₁, hq₁, hqueued, hle, hlt⟩ := hq.interrupt hs hw (Ne.symm hc) c
      have hsum : s₁.rq.wait Q q < s.rq.wait Q q :=
        Finset.sum_lt_sum (fun p _ => hle p) ⟨s.rq.curr, hmem, hlt⟩
      obtain ⟨n, hn, s', hrun, hcurr⟩ := ih hs₁ hq₁ ((hqueued q).trans hw)
        (fun p hp hp₁ => hQ p hp (hqueued p ▸ hp₁)) (by rw [List.length_cons] at hlen; omega)
      refine ⟨n + 1, Nat.succ_le_of_lt (hn.trans_lt hsum), s', ?_, hcurr⟩
      rw [List.take_succ_cons]
      exact follows_cons_iff.mpr ⟨s₁, ⟨hint, hsum⟩, hrun⟩

theorem mem_order {a : ArrayId} {i : Int} (hk : (a, i) ∈ Valid) (hm : p ∈ S (a, i)) :
    p ∈ order S a := by
  obtain ⟨h0, hlt⟩ : 0 ≤ i ∧ i < 140 := hk
  have hi : i ∈ prios := List.mem_map.mpr
    ⟨i.toNat, List.mem_range.mpr (show i.toNat < 140 by omega), Int.toNat_of_nonneg h0⟩
  exact List.mem_flatMap.mpr ⟨i, hi, hm⟩

theorem order_length (S : Lists) (a : ArrayId) : (order S a).length = count S a := by
  rw [order, prios, List.flatMap_map, List.length_flatMap, count]
  generalize maxPrio.toNat = n
  exact (Multiset.sum_coe _).symm

/-- `nr_running` bounds the tasks that are queued. -/
theorem Inv.card_le (h : Inv rq S) {F : Finset Nat}
    (hF : ∀ p ∈ F, (rq.task p).array.isSome = true) : F.card ≤ rq.nrRunning := by
  have hsub : F ⊆ (order S .zero ++ order S .one).toFinset := by
    intro p hp
    obtain ⟨a, ha⟩ := Option.isSome_iff_exists.mp (hF p hp)
    obtain ⟨hk, hm⟩ := (h.array p a).mp ha
    rw [List.mem_toFinset, List.mem_append]
    cases a with
    | zero => exact .inl (mem_order hk hm)
    | one => exact .inr (mem_order hk hm)
  calc F.card ≤ (order S .zero ++ order S .one).toFinset.card := Finset.card_le_card hsub
    _ ≤ (order S .zero ++ order S .one).length := List.toFinset_card_le _
    _ = rq.nrRunning := by rw [List.length_append, order_length, order_length, h.nrRunning, total]

instance (t : Task) : Decidable t.Calm :=
  decidable_of_iff (Sched.maxRtPrio ≤ t.prio ∧ (t.sched .null).hasRtPolicy = false ∧
      interactiveSleepType t.sleepType = false ∧ t.sleepAvg.toNat ≤ nsMaxSleepAvg.toNat ∧
      t.expired.interactive = false)
    ⟨fun h => ⟨h.1, h.2.1, h.2.2.1, h.2.2.2.1, h.2.2.2.2⟩,
      fun h => ⟨h.prio, h.policy, h.sleepType, h.sleepAvg, h.expires⟩⟩

/-- `idle` forks task 1, which forks task 2 and goes on. -/
theorem boot_run_contended : ∃ s, boot.run (twoTasks.take 5) = some s ∧ s.rq.curr = 1 ∧
    s.rq.nrRunning = 2 ∧ (s.rq.task 1).array = some s.rq.active ∧
    (s.rq.task 2).array = some s.rq.active ∧ (s.rq.task 1).Calm ∧ (s.rq.task 2).Calm ∧
    (s.rq.task 1).state = .running ∧ (s.rq.task 2).state = .running ∧
    (s.rq.task 1).ticksLeft = 6 := by
  have hrun : (boot.run (twoTasks.take 5)).map (fun s => decide (s.rq.curr = 1 ∧
      s.rq.nrRunning = 2 ∧ (s.rq.task 1).array = some s.rq.active ∧
      (s.rq.task 2).array = some s.rq.active ∧ (s.rq.task 1).Calm ∧ (s.rq.task 2).Calm ∧
      (s.rq.task 1).state = .running ∧ (s.rq.task 2).state = .running ∧
      (s.rq.task 1).ticksLeft = 6)) = some true := by
    decide +kernel
  obtain ⟨s, hs, heq⟩ := Option.map_eq_some_iff.mp hrun
  exact ⟨s, hs, of_decide_eq_true heq⟩

theorem queued_served_two : ∃ s n s', Reachable s ∧ s.rq.curr = 1 ∧ s.rq.wait {1} 2 = 6 ∧ n ≤ 6 ∧
    Follows (fun u c v => u.interrupt c = some v ∧ v.rq.wait {1} 2 < u.rq.wait {1} 2)
      s (List.replicate n ⟨5, 1000, false⟩) s' ∧ s'.rq.curr = 2 := by
  obtain ⟨s, hrun, hcurr, hn, h1, h2, hc1, hc2, hs1, hs2, hticks⟩ := boot_run_contended
  have hs := reachable_boot.run hrun
  obtain ⟨S, hsound⟩ := hs.sound
  have honly : ∀ p, (s.rq.task p).array.isSome = true → p = 1 ∨ p = 2 := by
    intro p hp
    by_contra hne
    rw [not_or] at hne
    have hcard : ({1, 2, p} : Finset Nat).card = 3 :=
      Finset.card_eq_three.mpr ⟨1, 2, p, by decide, Ne.symm hne.1, Ne.symm hne.2, rfl⟩
    have hle := hsound.toInv.card_le (F := {1, 2, p}) (by
      intro r hr
      simp only [Finset.mem_insert, Finset.mem_singleton] at hr
      rcases hr with rfl | rfl | rfl
      · rw [h1]; rfl
      · rw [h2]; rfl
      · exact hp)
    omega
  have hquiet : Quiet s.rq := by
    refine ⟨by rw [hcurr, h1], fun p hp => ?_, fun p hp => ?_⟩
    · rcases honly p hp with rfl | rfl
      · exact hc1
      · exact hc2
    · rcases honly p hp with rfl | rfl
      · exact hs1
      · exact hs2
  have hwait : s.rq.wait {1} 2 = 6 := by
    rw [Rq.wait, Finset.sum_singleton, Rq.debt, if_pos h1, if_pos h2, hticks]
  obtain ⟨n, hle, s', hrun', hcurr'⟩ := queued_served (q := 2) (Q := {1}) hs hquiet
    (by rw [h2]; rfl)
    (fun p hp hq => Finset.mem_singleton.mpr ((honly p hq).resolve_right hp))
    (List.replicate 6 ⟨5, 1000, false⟩) (by rw [hwait, List.length_replicate])
  rw [hwait] at hle
  rw [List.take_replicate, Nat.min_eq_left hle] at hrun'
  exact ⟨s, n, s', hs, hcurr, hwait, hle, hrun', hcurr'⟩

end

end Cs370.RunQueue
