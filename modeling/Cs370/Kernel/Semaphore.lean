import Mathlib.Algebra.BigOperators.Group.Finset.Basic
import Mathlib.Algebra.Order.BigOperators.Group.Finset
import Mathlib.Data.Fintype.Basic
import Cs370.Lib.CInt
import Cs370.Lib.Refine

/-!
# Semaphores

`down`, `down_interruptible`, `down_trylock` and `up` of `include/asm-x86_64/semaphore.h` with
their slow paths in `lib/semaphore-sleepers.c`, over the wait queue of `kernel/wait.c` and
`__wake_up_common`, `try_to_wake_up` and the beginning of `schedule` in `kernel/sched.c`. The
mailboxes and `sys_myjoin` are built on them.

Any number of tasks work on one semaphore. Each statement that touches shared memory is a step of
its own; what is under the lock of a run queue (`try_to_wake_up` of one task, the part of
`schedule` that takes the caller off its run queue) is one step. A task that finds `wait.lock`
taken has no step.

`count` is an `atomic_t`: what is added to it is cut to a width `w`, in the code `atomic`, that of
an `int`. Results hold for every `w` that leaves alone what the tasks can bring `count` to
(`Fits`). `sleepers` is 2 at most (`Small`), so that no width is said for it.
-/

namespace Cs370.Semaphore

open Cs370.Trans

/-- `p->state`, as far as the semaphores set and test it. -/
inductive TaskState where
  | running
  | interruptible
  | uninterruptible
  deriving DecidableEq

/-- Which of the two functions that sleep is called: `__down` or `__down_interruptible`. -/
inductive Down where
  | down
  | interruptible
  deriving DecidableEq

/-- The state in which the function sleeps. -/
def Down.state : Down → TaskState
  | .down => .uninterruptible
  | .interruptible => .interruptible

/-- What comes after the waiters are woken: the rest of a slow path of `down` with its `retval`,
of `__down_trylock` or of `__up`. -/
inductive Waker where
  | down (retval : Int)
  | trylock
  | up
  deriving DecidableEq

def eintr : Int := 4

/-- The statement a task is before. `sleepers` is the local variable of that name. -/
inductive Pc (ι : Type) where
  | idle
  -- `__down` and `__down_interruptible`
  | setState (k : Down)
  | lock (k : Down)
  | enqueue (k : Down)
  | incr (k : Down)
  | read (k : Down)
  | test (k : Down) (sleepers : Int)
  | intrZero (sleepers : Int)
  | intrAdd (sleepers : Int)
  | zero (sleepers : Int)
  | one (k : Down) (sleepers : Int)
  | unlock (k : Down)
  | schedule (k : Down)
  | relock (k : Down)
  | restate (k : Down)
  | dequeue (retval : Int)
  | stateEnd (retval : Int)
  -- `__down_trylock`
  | tryLock
  | tryRead
  | tryZero (sleepers : Int)
  | tryAdd (sleepers : Int)
  -- `__wake_up` and `__wake_up_locked`, with the waiters still to be looked at
  | upLock
  | scan (w : Waker) (rest : List ι)
  | scanUnlock (w : Waker)
  deriving DecidableEq

/-- A task. `array`: it is on a run queue (`p->array` is not null). -/
structure Task (ι : Type) where
  pc : Pc ι
  state : TaskState
  array : Bool
  sigpending : Bool
  deriving DecidableEq

/-- The width of an `atomic_t`. -/
def atomic (x : Int) : Int := CInt.intW 32 x

def intMax : Int := 2147483647

/-- `struct semaphore`, with the lock and the list of its wait queue. -/
structure Sem (ι : Type) where
  count : Int
  sleepers : Int
  lock : Option ι
  queue : List ι

structure State (ι : Type) where
  sem : Sem ι
  task : ι → Task ι

def semaInit {ι : Type} (val : Int) : Sem ι where
  count := val
  sleepers := 0
  lock := none
  queue := []

def initMutex {ι : Type} : Sem ι := semaInit 1

/-- A task outside the semaphore's functions. -/
def Task.idle {ι : Type} : Task ι where
  pc := .idle
  state := .running
  array := true
  sigpending := false

def State.init {ι : Type} (val : Int) : State ι where
  sem := semaInit val
  task _ := .idle

/-- What a step does: a call that gets the semaphore at once (`take`) or goes to the slow path
(`contend`), an `up`, a signal that comes or is taken; a waiter that gets the semaphore (`grant`),
and any other statement of a slow path. -/
inductive Act where
  | take
  | contend
  | give
  | signal
  | grant
  | run
  deriving DecidableEq

/-- The task is woken: it is runnable, and on a run queue. -/
def Task.wake {ι : Type} (t : Task ι) : Task ι :=
  { t with state := .running, array := true }

/-- The task goes on at `c`. -/
def Task.goto {ι : Type} (t : Task ι) (c : Pc ι) : Task ι :=
  { t with pc := c }

section Goto

variable {ι : Type} (t : Task ι) (c : Pc ι)

@[simp]
theorem goto_pc : (t.goto c).pc = c := rfl

@[simp]
theorem goto_state : (t.goto c).state = t.state := rfl

@[simp]
theorem goto_array : (t.goto c).array = t.array := rfl

@[simp]
theorem goto_sigpending : (t.goto c).sigpending = t.sigpending := rfl

end Goto

section Steps

variable {ι : Type} [DecidableEq ι]

/-- A statement of task `i` that reads and writes the semaphore and the task itself. -/
inductive Exec (w : Int → Int) (i : ι) : Sem ι → Task ι → Act → Sem ι → Task ι → Prop where
  -- `decl`, and `jns`, which tests the sign of what is stored
  | take {m : Sem ι} {t : Task ι} : t.pc = .idle → 0 ≤ w (m.count - 1) →
      Exec w i m t .take { m with count := w (m.count - 1) } t
  | contend {m : Sem ι} {t : Task ι} (k : Down) : t.pc = .idle → w (m.count - 1) < 0 →
      Exec w i m t .contend { m with count := w (m.count - 1) } (t.goto (.setState k))
  | contendTry {m : Sem ι} {t : Task ι} : t.pc = .idle → w (m.count - 1) < 0 →
      Exec w i m t .contend { m with count := w (m.count - 1) } (t.goto .tryLock)
  -- `incl`, and `jg`, which looks at the overflow flag too: it tests the exact sum
  | give {m : Sem ι} {t : Task ι} : t.pc = .idle → 0 < m.count + 1 →
      Exec w i m t .give { m with count := w (m.count + 1) } t
  | giveWake {m : Sem ι} {t : Task ι} : t.pc = .idle → ¬ 0 < m.count + 1 →
      Exec w i m t .give { m with count := w (m.count + 1) } (t.goto .upLock)
  | setState {m : Sem ι} {t : Task ι} {k : Down} : t.pc = .setState k →
      Exec w i m t .run m { t with state := k.state, pc := .lock k }
  | lock {m : Sem ι} {t : Task ι} {k : Down} : t.pc = .lock k → m.lock = none →
      Exec w i m t .run { m with lock := some i } (t.goto (.enqueue k))
  | enqueue {m : Sem ι} {t : Task ι} {k : Down} : t.pc = .enqueue k →
      Exec w i m t .run { m with queue := m.queue ++ [i] } (t.goto (.incr k))
  | incr {m : Sem ι} {t : Task ι} {k : Down} : t.pc = .incr k →
      Exec w i m t .run { m with sleepers := m.sleepers + 1 } (t.goto (.read k))
  | read {m : Sem ι} {t : Task ι} {k : Down} : t.pc = .read k →
      Exec w i m t .run m (t.goto (.test k m.sleepers))
  | testSignal {m : Sem ι} {t : Task ι} {sl : Int} : t.pc = .test .interruptible sl →
      t.sigpending = true → Exec w i m t .run m (t.goto (.intrZero sl))
  -- `atomic_add_negative`
  | grant {m : Sem ι} {t : Task ι} {k : Down} {sl : Int} : t.pc = .test k sl →
      ¬ (k = .interruptible ∧ t.sigpending = true) → ¬ w (m.count + (sl - 1)) < 0 →
      Exec w i m t .grant { m with count := w (m.count + (sl - 1)) } (t.goto (.zero sl))
  | testFail {m : Sem ι} {t : Task ι} {k : Down} {sl : Int} : t.pc = .test k sl →
      ¬ (k = .interruptible ∧ t.sigpending = true) → w (m.count + (sl - 1)) < 0 →
      Exec w i m t .run { m with count := w (m.count + (sl - 1)) } (t.goto (.one k sl))
  | intrZero {m : Sem ι} {t : Task ι} {sl : Int} : t.pc = .intrZero sl →
      Exec w i m t .run { m with sleepers := 0 } (t.goto (.intrAdd sl))
  | intrAdd {m : Sem ι} {t : Task ι} {sl : Int} : t.pc = .intrAdd sl →
      Exec w i m t .run { m with count := w (m.count + sl) } (t.goto (.dequeue (-eintr)))
  | zero {m : Sem ι} {t : Task ι} {sl : Int} : t.pc = .zero sl →
      Exec w i m t .run { m with sleepers := 0 } (t.goto (.dequeue 0))
  | one {m : Sem ι} {t : Task ι} {k : Down} {sl : Int} : t.pc = .one k sl →
      Exec w i m t .run { m with sleepers := 1 } (t.goto (.unlock k))
  | unlock {m : Sem ι} {t : Task ι} {k : Down} : t.pc = .unlock k →
      Exec w i m t .run { m with lock := none } (t.goto (.schedule k))
  -- `schedule`: off the run queue; or, with a signal or woken before, back at once
  | deactivate {m : Sem ι} {t : Task ι} {k : Down} : t.pc = .schedule k → t.array = true →
      t.state ≠ .running → ¬ (t.state = .interruptible ∧ t.sigpending = true) →
      Exec w i m t .run m { t with array := false }
  | scheduleSignal {m : Sem ι} {t : Task ι} {k : Down} : t.pc = .schedule k → t.array = true →
      t.state = .interruptible → t.sigpending = true →
      Exec w i m t .run m { t with state := .running, pc := .relock k }
  | scheduleReturn {m : Sem ι} {t : Task ι} {k : Down} : t.pc = .schedule k → t.array = true →
      t.state = .running → Exec w i m t .run m (t.goto (.relock k))
  | relock {m : Sem ι} {t : Task ι} {k : Down} : t.pc = .relock k → m.lock = none →
      Exec w i m t .run { m with lock := some i } (t.goto (.restate k))
  | restate {m : Sem ι} {t : Task ι} {k : Down} : t.pc = .restate k →
      Exec w i m t .run m { t with state := k.state, pc := .read k }
  | dequeue {m : Sem ι} {t : Task ι} {retval : Int} : t.pc = .dequeue retval →
      Exec w i m t .run { m with queue := m.queue.erase i }
        (t.goto (.scan (.down retval) (m.queue.erase i)))
  | stateEnd {m : Sem ι} {t : Task ι} {retval : Int} : t.pc = .stateEnd retval →
      Exec w i m t .run m { t with state := .running, pc := .idle }
  | tryLock {m : Sem ι} {t : Task ι} : t.pc = .tryLock → m.lock = none →
      Exec w i m t .run { m with lock := some i } (t.goto .tryRead)
  | tryRead {m : Sem ι} {t : Task ι} : t.pc = .tryRead →
      Exec w i m t .run m (t.goto (.tryZero (m.sleepers + 1)))
  | tryZero {m : Sem ι} {t : Task ι} {sl : Int} : t.pc = .tryZero sl →
      Exec w i m t .run { m with sleepers := 0 } (t.goto (.tryAdd sl))
  | tryWake {m : Sem ι} {t : Task ι} {sl : Int} : t.pc = .tryAdd sl → ¬ w (m.count + sl) < 0 →
      Exec w i m t .run { m with count := w (m.count + sl) } (t.goto (.scan .trylock m.queue))
  | tryFail {m : Sem ι} {t : Task ι} {sl : Int} : t.pc = .tryAdd sl → w (m.count + sl) < 0 →
      Exec w i m t .run { m with count := w (m.count + sl) } (t.goto (.scanUnlock .trylock))
  | upLock {m : Sem ι} {t : Task ι} : t.pc = .upLock → m.lock = none →
      Exec w i m t .run { m with lock := some i } (t.goto (.scan .up m.queue))
  | scanEnd {m : Sem ι} {t : Task ι} {v : Waker} : t.pc = .scan v [] →
      Exec w i m t .run m (t.goto (.scanUnlock v))
  | unlockDown {m : Sem ι} {t : Task ι} {retval : Int} : t.pc = .scanUnlock (.down retval) →
      Exec w i m t .run { m with lock := none } (t.goto (.stateEnd retval))
  | unlockTry {m : Sem ι} {t : Task ι} : t.pc = .scanUnlock .trylock →
      Exec w i m t .run { m with lock := none } (t.goto .idle)
  | unlockUp {m : Sem ι} {t : Task ι} : t.pc = .scanUnlock .up →
      Exec w i m t .run { m with lock := none } (t.goto .idle)

def State.set (s : State ι) (i : ι) (t : Task ι) : State ι :=
  { s with task := Function.update s.task i t }

def State.put (s : State ι) (i : ι) (m : Sem ι) (t : Task ι) : State ι :=
  { s.set i t with sem := m }

/-- A step of the system. `try_to_wake_up` leaves a runnable task alone (`scanSkip`); one that is
still on a run queue only becomes runnable again, which is no wake-up, so that the scan goes on
(`scanRunning`); with one that sleeps the scan is at its end (`scanWake`), as all waiters are
exclusive. -/
inductive Step (w : Int → Int) : State ι → ι × Act → State ι → Prop where
  | exec {s : State ι} {i : ι} {a : Act} {m : Sem ι} {t : Task ι} :
      Exec w i s.sem (s.task i) a m t → Step w s (i, a) (s.put i m t)
  | scanSkip {s : State ι} {i j : ι} {v : Waker} {rest : List ι} :
      (s.task i).pc = .scan v (j :: rest) → (s.task j).state = .running →
      Step w s (i, .run) (s.set i ((s.task i).goto (.scan v rest)))
  | scanRunning {s : State ι} {i j : ι} {v : Waker} {rest : List ι} :
      (s.task i).pc = .scan v (j :: rest) → (s.task j).state ≠ .running →
      (s.task j).array = true →
      Step w s (i, .run) ((s.set j (s.task j).wake).set i ((s.task i).goto (.scan v rest)))
  | scanWake {s : State ι} {i j : ι} {v : Waker} {rest : List ι} :
      (s.task i).pc = .scan v (j :: rest) → (s.task j).state ≠ .running →
      (s.task j).array = false →
      Step w s (i, .run) ((s.set j (s.task j).wake).set i ((s.task i).goto (.scanUnlock v)))
  | signal {s : State ι} {i : ι} : (s.task i).state ≠ .interruptible →
      Step w s (i, .signal) (s.set i { s.task i with sigpending := true })
  | signalWake {s : State ι} {i : ι} : (s.task i).state = .interruptible →
      Step w s (i, .signal) (s.set i { (s.task i).wake with sigpending := true })
  -- taken on the way back to user mode
  | signalTaken {s : State ι} {i : ι} : (s.task i).pc = .idle →
      Step w s (i, .signal) (s.set i { s.task i with sigpending := false })

end Steps

/-! ## What it is for -/

inductive Event where
  | take
  | give
  deriving DecidableEq

/-- A counting semaphore: a number of tokens; one can be taken only if there is one. -/
inductive Counting : Nat → Event → Nat → Prop where
  | take {n : Nat} : Counting (n + 1) .take n
  | give {n : Nat} : Counting n .give (n + 1)

theorem counting_take_iff {n m : Nat} : Counting n .take m ↔ n = m + 1 := by
  refine ⟨fun h => ?_, ?_⟩
  · cases h
    rfl
  · rintro rfl
    exact .take

theorem counting_give_iff {n m : Nat} : Counting n .give m ↔ m = n + 1 := by
  refine ⟨fun h => ?_, ?_⟩
  · cases h
    rfl
  · rintro rfl
    exact .give

def Act.event : Act → Option Event
  | .take => some .take
  | .grant => some .take
  | .give => some .give
  | _ => none

/-- A step of a call under way. -/
def Act.own : Act → Bool
  | .grant => true
  | .run => true
  | _ => false

end Cs370.Semaphore
