import Mathlib.Logic.Function.Basic
import Cs370.Lib.CInt

/-!
# Time slices

The functions of `kernel/sched.c` that write `time_slice`: `sched_fork`, `task_running_tick` and
`sched_exit`, and the system calls `sys_quad` and `sys_swipe` beside them, with `HZ` = 250 and
without `CONFIG_SMP`. Tasks are found by their pid; the idle task has pid 0, which
`copy_process` does not attach.

`sys_swipe` walks the list of the victim's children by the wrong member of their
`task_struct`: the pid it compares is read at the wrong place (`State.strayPid`), and what it
adds for each child is the slice of the victim itself.
-/

namespace Cs370.Sched

def hz : Int := 250
def maxRtPrio : Int := 100
def maxPrio : Int := maxRtPrio + 40
def maxUserPrio : Int := maxPrio - maxRtPrio
def minTimeslice : Int := max ((5 * hz).tdiv 1000) 1
def defTimeslice : Int := (100 * hz).tdiv 1000
def maxBonus : Int := (maxUserPrio * 25).tdiv 100
def interactiveDelta : Int := 2
def maxSleepAvg : Int := defTimeslice * maxBonus

def niceToPrio (nice : Int) : Int := maxRtPrio + nice + 20
def prioToNice (prio : Int) : Int := prio - maxRtPrio - 20
def nsToJiffies (time : Int) : Int := time.tdiv (Int.tdiv 1000000000 hz)

/-- The static priority of a nice value from -20 to 19. -/
structure StaticPrio where
  val : Int
  le : maxRtPrio ≤ val
  lt : val < maxPrio

inductive Policy where
  | normal
  | fifo
  | rr
  | batch
  deriving DecidableEq

/-- Where the task is queued. -/
inductive PrioArray where
  | null
  | active
  | expired
  deriving DecidableEq

structure Task where
  timeSlice : UInt32
  firstTimeSlice : Bool
  staticPrio : StaticPrio
  prio : Int
  normalPrio : Int
  rtPriority : Nat
  policy : Policy
  sleepAvg : Nat
  array : PrioArray
  cpu : Nat
  parent : Nat
  children : List Nat
  hashed : Bool

/-! ## Priorities -/

def scalePrio (x prio : Int) : Int :=
  max ((x * (maxPrio - prio)).tdiv (maxUserPrio.tdiv 2)) minTimeslice

def staticPrioTimeslice (staticPrio : Int) : UInt32 :=
  if staticPrio < niceToPrio 0 then UInt32.ofInt (scalePrio (defTimeslice * 4) staticPrio)
  else UInt32.ofInt (scalePrio defTimeslice staticPrio)

def Task.taskTimeslice (p : Task) : UInt32 := staticPrioTimeslice p.staticPrio.val

def Task.currentBonus (p : Task) : Int := (nsToJiffies p.sleepAvg * maxBonus).tdiv maxSleepAvg

/-- `__normal_prio`. -/
def Task.bonusPrio (p : Task) : Int :=
  let bonus := CInt.intW 32 (p.currentBonus - maxBonus.tdiv 2)
  let prio := p.staticPrio.val - bonus
  if prio < maxRtPrio then maxRtPrio else if prio > maxPrio - 1 then maxPrio - 1 else prio

def Task.hasRtPolicy (p : Task) : Bool := p.policy ≠ .normal ∧ p.policy ≠ .batch

/-- `normal_prio`; `rt_priority` is unsigned. -/
def Task.newNormalPrio (p : Task) : Int :=
  if p.hasRtPolicy then CInt.intW 32 (maxRtPrio - 1 - p.rtPriority) else p.bonusPrio

def Task.rtTask (p : Task) : Bool := p.prio < maxRtPrio

def Task.effectivePrio (p : Task) : Int := if p.rtTask then p.prio else p.newNormalPrio

def Task.delta (p : Task) : Int :=
  ((prioToNice p.staticPrio.val + 20) * maxBonus).tdiv 40 - (20 * maxBonus).tdiv 40 +
    interactiveDelta

def Task.interactive (p : Task) : Bool := p.prio ≤ p.staticPrio.val - p.delta

/-! ## The scheduler -/

/-- `task_running_tick`; `starving` is what `expired_starving` answers. A slice that is not used
up may be requeued, which changes nothing here. -/
def taskRunningTick (starving : Bool) (p : Task) : Task :=
  if p.array ≠ .active then p
  else if p.rtTask then
    if p.policy = .rr then
      if p.timeSlice - 1 = 0 then
        { p with timeSlice := p.taskTimeslice, firstTimeSlice := false }
      else { p with timeSlice := p.timeSlice - 1 }
    else p
  else if p.timeSlice - 1 = 0 then
    let q := { p with
      normalPrio := p.newNormalPrio
      prio := p.effectivePrio
      timeSlice := p.taskTimeslice
      firstTimeSlice := false }
    { q with array := if !q.interactive || starving then .expired else .active }
  else { p with timeSlice := p.timeSlice - 1 }

/-- `sched_fork`: the running task and its child `p` afterwards. -/
def schedFork (starving : Bool) (current p : Task) : Task × Task :=
  let child := { p with
    cpu := current.cpu
    prio := current.normalPrio
    array := .null
    timeSlice := (current.timeSlice + 1) >>> 1
    firstTimeSlice := true }
  let slice := current.timeSlice >>> 1
  if slice = 0 then (taskRunningTick starving { current with timeSlice := 1 }, child)
  else ({ current with timeSlice := slice }, child)

/-- `sched_exit`: the parent of `p` afterwards. -/
def schedExit (p parent : Task) : Task :=
  let slice :=
    if p.firstTimeSlice ∧ p.cpu = parent.cpu then
      if parent.timeSlice + p.timeSlice > p.taskTimeslice then p.taskTimeslice
      else parent.timeSlice + p.timeSlice
    else parent.timeSlice
  let sleep :=
    if p.sleepAvg < parent.sleepAvg then parent.sleepAvg / (3 + 1) * 3 + p.sleepAvg / (3 + 1)
    else parent.sleepAvg
  { parent with timeSlice := slice, sleepAvg := sleep }

/-! ## The system calls -/

/-- The tasks by pid, and what is read for `child_task->pid` at the list node of a child. -/
structure State where
  tasks : Nat → Option Task
  strayPid : Nat → Int

def State.set (s : State) (pid : Nat) (p : Task) : State :=
  { s with tasks := Function.update s.tasks pid (some p) }

def State.findTaskByPid (s : State) (pid : Int) : Option Task :=
  if 0 < pid then (s.tasks pid.toNat).filter Task.hashed else none

/-- `sys_quad`: the state afterwards and the result. -/
def sysQuad (s : State) (pid : Int) : State × Int :=
  match s.findTaskByPid pid with
  | none => (s, -1)
  | some task =>
    let slice := task.timeSlice * 4
    (s.set pid.toNat { task with timeSlice := slice }, slice.toNat)

/-- The loop of `sys_swipe`: the slice of the target after it. -/
def swipeChildren (strayPid : Nat → Int) (target : Int) (victimSlice : UInt32) :
    List Nat → UInt32 → UInt32
  | [], slice => slice
  | child :: rest, slice =>
    swipeChildren strayPid target victimSlice rest
      (if target ≠ strayPid child then slice + victimSlice else slice)

/-- `sys_swipe`: the state afterwards and the result. -/
def sysSwipe (s : State) (target victim : Int) : State × Int :=
  if target = victim then (s, -1)
  else
    match s.findTaskByPid target, s.findTaskByPid victim with
    | some targetTask, some victimTask =>
      let slice := swipeChildren s.strayPid target 0 victimTask.children
        (targetTask.timeSlice + victimTask.timeSlice)
      ((s.set target.toNat { targetTask with timeSlice := slice }).set victim.toNat
          { victimTask with timeSlice := 0 },
        (slice - targetTask.timeSlice).toNat)
    | _, _ => (s, -1)

end Cs370.Sched
