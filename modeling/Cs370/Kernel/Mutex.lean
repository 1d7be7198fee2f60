import Cs370.Kernel.SemaphoreWake

/-!
# Semaphores as locks

`init_MUTEX` makes a semaphore with one token. Tasks that keep to the rule that `up` is called
only by who has got the semaphore, as the system calls of `ipc/mailbox.c` do, use it as a lock:
one of them has it at a time, and one that waits while nobody has it is on its way to get it.
-/

namespace Cs370.Semaphore

open Cs370.Trans

variable {ι : Type}

/-- A semaphore, and how often each task has got it and not given it back. -/
structure Locked (ι : Type) where
  state : State ι
  held : ι → Nat

def Locked.init : Locked ι where
  state := { sem := initMutex, task := fun _ => .idle }
  held _ := 0

inductive LockStep [DecidableEq ι] (w : Int → Int) : Locked ι → ι × Act → Locked ι → Prop where
  | silent {s s' : State ι} {h : ι → Nat} {i : ι} {a : Act} : Step w s (i, a) s' →
      a.event = none → LockStep w ⟨s, h⟩ (i, a) ⟨s', h⟩
  | take {s s' : State ι} {h : ι → Nat} {i : ι} {a : Act} : Step w s (i, a) s' →
      a.event = some .take → LockStep w ⟨s, h⟩ (i, a) ⟨s', Function.update h i (h i + 1)⟩
  | give {s s' : State ι} {h : ι → Nat} {i : ι} {a : Act} : Step w s (i, a) s' →
      a.event = some .give → 0 < h i → LockStep w ⟨s, h⟩ (i, a) ⟨s', Function.update h i (h i - 1)⟩

/-- A lock: free, or with the task that has it. -/
inductive Mutex : Option ι → ι × Event → Option ι → Prop where
  | acquire (i : ι) : Mutex none (i, .take) (some i)
  | release (i : ι) : Mutex (some i) (i, .give) none

def lockEvent (l : ι × Act) : Option (ι × Event) := l.2.event.map (l.1, ·)

variable [DecidableEq ι] {w : Int → Int}

/-- How often each task has the lock. -/
def holds (o : Option ι) (i : ι) : Nat := if o = some i then 1 else 0

variable [Fintype ι]

/-- The semaphore is the lock `o`. -/
structure Implements (c : Locked ι) (o : Option ι) : Prop where
  tokens : Holds 1 c.state (if o = none then 1 else 0)
  held : c.held = holds o

omit [Fintype ι] in
theorem update_holds_none (i : ι) :
    Function.update (holds none) i (holds none i + 1) = holds (some i) := by
  funext j
  by_cases hj : j = i
  · subst j
    simp [holds]
  · simp [holds, Function.update_of_ne hj, Ne.symm hj]

omit [Fintype ι] in
theorem update_holds_some (i : ι) :
    Function.update (holds (some i)) i (holds (some i) i - 1) = holds none := by
  funext j
  by_cases hj : j = i
  · subst j
    simp [holds]
  · simp [holds, Function.update_of_ne hj, Ne.symm hj]

/-- There is room for the token of a task that gives the lock back. -/
theorem Implements.within {c c' : Locked ι} {o : Option ι} {l : ι × Act} (h : Implements c o)
    (hs : LockStep w c l c') : Within 1 c.state l := by
  cases hs with
  | silent _ ha => exact within_of_event (by rw [ha]; nofun)
  | take _ ha => exact within_of_event (by rw [ha]; nofun)
  | @give s s' held i a _ _ hpos =>
    have ho : o = some i := by
      by_contra hne
      have hheld : held = holds o := h.held
      simp [hheld, holds, hne] at hpos
    intro _
    rw [h.tokens.2, ho]
    exact Int.zero_lt_one

theorem implements_refines (hfit : Fits w ι 1) :
    Refines (LockStep (ι := ι) w) Mutex lockEvent Implements where
  visible := by
    rintro c c' ⟨i, a⟩ o b himpl hstep hev
    have hroom := himpl.within hstep
    obtain ⟨hholds, hheld⟩ := himpl
    cases hstep with
    | silent _ hsilent => simp [lockEvent, hsilent] at hev
    | @take s s' h i a hs ha =>
      obtain rfl : (i, .take) = b := by simpa [lockEvent, ha] using hev
      obtain ⟨k, hk, hholds'⟩ := (holds_refines hfit).visible hholds ⟨hs, hroom⟩ ha
      cases o with
      | some j => cases hk
      | none =>
        obtain rfl : h = holds none := hheld
        cases hk
        exact ⟨some i, .acquire i, hholds', update_holds_none i⟩
    | @give s s' h i a hs ha hpos =>
      obtain rfl : (i, .give) = b := by simpa [lockEvent, ha] using hev
      obtain rfl : h = holds o := hheld
      obtain rfl : o = some i := by
        by_contra hne
        simp [holds, hne] at hpos
      obtain ⟨k, hk, hholds'⟩ := (holds_refines hfit).visible hholds ⟨hs, hroom⟩ ha
      cases hk
      exact ⟨none, .release i, hholds', update_holds_some i⟩
  silent := by
    rintro c c' ⟨i, a⟩ o himpl hstep hev
    have hroom := himpl.within hstep
    obtain ⟨hholds, hheld⟩ := himpl
    cases hstep with
    | silent hs ha => exact ⟨(holds_refines hfit).silent hholds ⟨hs, hroom⟩ ha, hheld⟩
    | take hs ha => simp [lockEvent, ha] at hev
    | give hs ha => simp [lockEvent, ha] at hev

theorem implements_init : Implements (Locked.init : Locked ι) none :=
  ⟨holds_init (n := 1) le_rfl, rfl⟩

omit [Fintype ι] in
theorem LockStep.step {c c' : Locked ι} {l : ι × Act} (h : LockStep w c l c') :
    Step w c.state l c'.state := by
  cases h <;> assumption

theorem covered_lock_run (hfit : Fits w ι 1) {c : Locked ι} {l : List (Locked ι × (ι × Act))}
    (h : Run (LockStep w) Locked.init l c) : Covered c.state := by
  refine (h.invariant (I := fun c => (∃ o, Implements c o) ∧ Covered c.state) ?_
    ⟨⟨none, implements_init⟩, fun hne => absurd rfl hne⟩).2
  rintro c l c' ⟨⟨o, ho⟩, hc⟩ hs
  refine ⟨?_, hc.step ho.tokens.1 hfit hs.step (ho.within hs)⟩
  cases hev : lockEvent l with
  | none => exact ⟨o, (implements_refines hfit).silent ho hs hev⟩
  | some b =>
    obtain ⟨o', -, ho'⟩ := (implements_refines hfit).visible ho hs hev
    exact ⟨o', ho'⟩

/-- **Mutual exclusion**: what the tasks do is what they would do with a lock, so that one of
them has it at most; and where nobody has it and the calls have come to an end, nobody waits
for it. -/
theorem initMutex_excludes (hfit : Fits w ι 1) {c : Locked ι} {l : List (Locked ι × (ι × Act))}
    (h : Run (LockStep w) Locked.init l c) :
    ∃ o, Follows Mutex none (events lockEvent l) o ∧ (∀ i, 0 < c.held i ↔ o = some i) ∧
      (o = none → Settled (Step w) (fun p : ι × Act => p.2.own = true) c.state →
        ∀ i, (c.state.task i).pc = .idle) := by
  obtain ⟨o, hfollows, ⟨hg, htokens⟩, hheld⟩ := (implements_refines hfit).run h implements_init
  refine ⟨o, hfollows, fun i => ?_, ?_⟩
  · rw [hheld]
    by_cases ho : o = some i <;> simp [holds, ho]
  · rintro rfl hs i
    refine ((hg.settled hs).2 i).resolve_right fun ha => ?_
    rw [(covered_lock_run hfit h).settled hg.toInv hs ⟨i, ha⟩] at htokens
    simp at htokens

/-- One task has the lock, and another one goes to sleep for it. -/
theorem initMutex_excludes_two : ∃ (c : Locked Bool) (o : Option Bool), c.held true = 1 ∧
    (c.state.task false).pc = .setState .down ∧ (∀ i, 0 < c.held i ↔ o = some i) := by
  have h : ∃ l c, Run (LockStep atomic) (Locked.init : Locked Bool) l c ∧ c.held true = 1 ∧
      (c.state.task false).pc = .setState .down :=
    ⟨_, _,
      .cons (a := (true, .take)) (.take (.exec (.take rfl (by decide))) rfl) <|
      .cons (a := (false, .contend)) (.silent (.exec (.contend .down rfl (by decide))) rfl) <|
      .nil _, rfl, rfl⟩
  obtain ⟨l, c, hrun, hheld, hpc⟩ := h
  obtain ⟨o, -, ho, -⟩ := initMutex_excludes (fits_atomic (by decide) (by decide)) hrun
  exact ⟨c, o, hheld, hpc, ho⟩

end Cs370.Semaphore
