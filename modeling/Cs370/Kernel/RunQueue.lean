import Cs370.Kernel.ListQueues
import Cs370.Kernel.Sched

/-!
# The run queue

The functions of `kernel/sched.c` that put tasks on the two priority arrays of the run queue, take
them off and choose the next one, for one processor (without `CONFIG_SMP`). They all run under the
lock of the run queue, so that each is a function from one run queue to the next; one that runs
into a check of `lib/list_debug.c` has no result.

What the clocks say, whether an interrupt is being served and whether a signal is pending are
arguments. Load weights and statistics, which nothing here reads, are left out.
-/

namespace Cs370.RunQueue

open Cs370.Kernel
open Cs370.Sched (StaticPrio Policy maxRtPrio maxPrio)

/-! ## Bitmaps -/

/-- `DECLARE_BITMAP(bitmap, MAX_PRIO+1)`: three words of 64 bits. -/
abbrev Bitmap := BitVec 192

def Bitmap.set (b : Bitmap) (nr : Nat) : Bitmap := b ||| BitVec.twoPow 192 nr

def Bitmap.clear (b : Bitmap) (nr : Nat) : Bitmap := b &&& ~~~BitVec.twoPow 192 nr

def Bitmap.word (b : Bitmap) (i : Nat) : BitVec 64 := b.extractLsb' (64 * i) 64

/-- `__ffs`, by `bsfq`. -/
def ffs (word : BitVec 64) : Nat := word.ctz.toNat

def schedFindFirstBit (b : Bitmap) : Nat :=
  if b.word 0 ≠ 0 then ffs (b.word 0)
  else if b.word 1 ≠ 0 then ffs (b.word 1) + 64
  else ffs (b.word 2) + 128

/-! ## Tasks and arrays -/

/-- An element of `rq->arrays`. -/
inductive ArrayId where
  | zero
  | one
  deriving DecidableEq

inductive Node where
  | queue (array : ArrayId) (prio : Int)
  | runList (p : Nat)
  | poison1
  | poison2
  deriving DecidableEq

inductive TaskState where
  | running
  | interruptible (noninteractive : Bool)
  | uninterruptible
  | stopped
  | traced
  | dead
  deriving DecidableEq

def TaskState.isInterruptible : TaskState → Bool
  | .interruptible _ => true
  | _ => false

inductive SleepType where
  | normal
  | noninteractive
  | interactive
  | interrupted
  deriving DecidableEq

/-- What the scheduler reads of a `task_struct`; `mm` is whether it has an address space. -/
structure Task where
  state : TaskState
  prio : Int
  staticPrio : StaticPrio
  normalPrio : Int
  rtPriority : Nat
  policy : Policy
  sleepAvg : UInt64
  sleepType : SleepType
  timestamp : UInt64
  timeSlice : UInt32
  firstTimeSlice : Bool
  array : Option ArrayId
  needResched : Bool
  mm : Bool

structure PrioArray where
  nrActive : Nat
  bitmap : Bitmap

/-- `struct rq`, with the tasks by pid. -/
structure Rq where
  links : Links Node
  arrays : ArrayId → PrioArray
  active : ArrayId
  expired : ArrayId
  nrRunning : Nat
  expiredTimestamp : UInt64
  bestExpiredPrio : Int
  curr : Nat
  idle : Nat
  task : Nat → Task

def Rq.setTask (rq : Rq) (p : Nat) (t : Task) : Rq :=
  { rq with task := Function.update rq.task p t }

/-! ## Priorities -/

/-- The task as `Kernel/Sched.lean` has it, with the array that `p->array` is to the run queue. -/
def Task.sched (t : Task) (array : Sched.PrioArray) : Sched.Task where
  timeSlice := t.timeSlice
  firstTimeSlice := t.firstTimeSlice
  staticPrio := t.staticPrio
  prio := t.prio
  normalPrio := t.normalPrio
  rtPriority := t.rtPriority
  policy := t.policy
  sleepAvg := t.sleepAvg.toNat
  array := array
  cpu := 0
  parent := 0
  children := []
  hashed := true

def Task.rtTask (t : Task) : Bool := t.prio < maxRtPrio

def Task.batchTask (t : Task) : Bool := t.policy = .batch

def Task.currentBonus (t : Task) : Int := (t.sched .null).currentBonus

def Task.taskTimeslice (t : Task) : UInt32 := (t.sched .null).taskTimeslice

def Task.interactive (t : Task) : Bool := (t.sched .null).interactive

def Task.newNormalPrio (t : Task) : Int := (t.sched .null).newNormalPrio

/-- What `effective_prio` returns; it also sets `normal_prio`. -/
def Task.effectivePrio (t : Task) : Int := (t.sched .null).effectivePrio

def Task.setState (t : Task) (state : TaskState) : Task := { t with state := state }

def Task.setPrio (t : Task) (prio : Int) : Task := { t with prio := prio }

def Task.setStaticPrio (t : Task) (prio : StaticPrio) : Task := { t with staticPrio := prio }

/-- `p->prio = effective_prio(p)`. -/
def Task.setEffectivePrio (t : Task) : Task :=
  { t with normalPrio := t.newNormalPrio, prio := t.effectivePrio }

def nsPerJiffy : Int := Int.tdiv 1000000000 Sched.hz

def nsMaxSleepAvg : UInt64 := UInt64.ofInt (Sched.maxSleepAvg * nsPerJiffy)

def Task.interactiveSleep (t : Task) : UInt64 :=
  UInt64.ofInt (((Sched.maxSleepAvg * (Sched.maxBonus.tdiv 2 + (t.sched .null).delta + 1)).tdiv
    Sched.maxBonus - 1) * nsPerJiffy)

def granularity : Nat :=
  if (10 * Sched.hz).tdiv 1000 = 0 then 1 else ((10 * Sched.hz).tdiv 1000).toNat

def Task.timesliceGranularity (t : Task) : UInt32 :=
  let n := if Sched.maxBonus - t.currentBonus = 0 then 1 else Sched.maxBonus - t.currentBonus
  UInt32.ofNat (granularity * 2 ^ (n - 1).toNat)

/-- `recalc_task_prio`: the task with its new `sleep_avg`, and its new priority. -/
def Task.recalcTaskPrio (t : Task) (now : UInt64) : Task × Int :=
  let sleepTime := if t.batchTask then 0 else now - t.timestamp
  let t :=
    if 0 < sleepTime then
      let ceiling := t.interactiveSleep
      let t :=
        if t.mm ∧ ceiling < sleepTime ∧ t.sleepAvg < ceiling then
          { t with sleepAvg := ceiling, sleepType := .noninteractive }
        else if t.sleepType = .noninteractive ∧ t.mm then
          if ceiling ≤ t.sleepAvg then t
          else if ceiling ≤ t.sleepAvg + sleepTime then { t with sleepAvg := ceiling }
          else { t with sleepAvg := t.sleepAvg + sleepTime }
        else { t with sleepAvg := t.sleepAvg + sleepTime }
      if nsMaxSleepAvg < t.sleepAvg then { t with sleepAvg := nsMaxSleepAvg } else t
    else t
  ({ t with normalPrio := t.newNormalPrio }, t.effectivePrio)

/-! ## Queues -/

def Rq.setArray (rq : Rq) (a : ArrayId) (arr : PrioArray) : Rq :=
  { rq with arrays := Function.update rq.arrays a arr }

def dequeueTask (rq : Rq) (p : Nat) (array : ArrayId) : Option Rq := do
  let prio := (rq.task p).prio
  let l ← listDel .poison1 .poison2 rq.links (.runList p)
  let bitmap := (rq.arrays array).bitmap
  return { rq with links := l }.setArray array
    { nrActive := (rq.arrays array).nrActive - 1
      bitmap := if listEmpty l (.queue array prio) then bitmap.clear prio.toNat else bitmap }

/-- The task is added to its queue: the links are `l`. -/
def Rq.enqueued (rq : Rq) (p : Nat) (array : ArrayId) (l : Links Node) : Rq :=
  { rq with links := l }.setArray array
      { nrActive := (rq.arrays array).nrActive + 1
        bitmap := (rq.arrays array).bitmap.set (rq.task p).prio.toNat }
    |>.setTask p { rq.task p with array := some array }

def enqueueTask (rq : Rq) (p : Nat) (array : ArrayId) : Option Rq := do
  let l ← listAddTail rq.links (.runList p) (.queue array (rq.task p).prio)
  return rq.enqueued p array l

/-- Put the task to the end of its queue. -/
def requeueTask (rq : Rq) (p : Nat) (array : ArrayId) : Option Rq := do
  let l ← listMoveTail rq.links (.runList p) (.queue array (rq.task p).prio)
  return { rq with links := l }

/-- `__activate_task`. -/
def activate (rq : Rq) (p : Nat) : Option Rq := do
  let rq ← enqueueTask rq p (if (rq.task p).batchTask then rq.expired else rq.active)
  return { rq with nrRunning := rq.nrRunning + 1 }

/-- The task that `activate_task` queues, with its new priority. -/
def Task.activated (t : Task) (prio : Int) (now : UInt64) (inInterrupt : Bool) : Task :=
  { t with
    prio := prio
    sleepType :=
      if t.sleepType = .normal then if inInterrupt then .interrupted else .interactive
      else t.sleepType
    timestamp := now }

def activateTask (rq : Rq) (p : Nat) (now : UInt64) (inInterrupt : Bool) : Option Rq :=
  if (rq.task p).rtTask then activate rq p
  else
    let (t, prio) := (rq.task p).recalcTaskPrio now
    activate (rq.setTask p (t.activated prio now inInterrupt)) p

def deactivateTask (rq : Rq) (p : Nat) : Option Rq := do
  let array ← (rq.task p).array
  let rq ← dequeueTask { rq with nrRunning := rq.nrRunning - 1 } p array
  return rq.setTask p { rq.task p with array := none }

def reschedTask (rq : Rq) (p : Nat) : Rq := rq.setTask p { rq.task p with needResched := true }

/-- `if (TASK_PREEMPTS_CURR(p, rq)) resched_task(rq->curr)`. -/
def preemptCurr (rq : Rq) (p : Nat) : Rq :=
  if (rq.task p).prio < (rq.task rq.curr).prio then reschedTask rq rq.curr else rq

/-! ## The tick -/

def starvationLimit : Int := Sched.maxSleepAvg

def expiredStarving (rq : Rq) (jiffies : UInt64) : Bool :=
  if (rq.task rq.curr).staticPrio.val > rq.bestExpiredPrio then true
  else if starvationLimit = 0 ∨ rq.expiredTimestamp = 0 then false
  else jiffies - rq.expiredTimestamp > UInt64.ofInt (starvationLimit * rq.nrRunning)

/-- The task after its time slice, with a new one. -/
def Task.expired (t : Task) : Task :=
  { t.setEffectivePrio with
    needResched := true, timeSlice := t.taskTimeslice, firstTimeSlice := false }

/-- `rq->expired_timestamp` after a time slice. -/
def Rq.expiry (rq : Rq) (jiffies : UInt64) : UInt64 :=
  if rq.expiredTimestamp = 0 then jiffies else rq.expiredTimestamp

/-- The task goes to one of the arrays after its time slice. -/
def placeExpired (rq : Rq) (p : Nat) (jiffies : UInt64) : Option Rq :=
  let t := rq.task p
  if !t.interactive || expiredStarving rq jiffies then do
    let rq ← enqueueTask rq p rq.expired
    return { rq with
      bestExpiredPrio :=
        if t.staticPrio.val < rq.bestExpiredPrio then t.staticPrio.val else rq.bestExpiredPrio }
  else enqueueTask rq p rq.active

/-- The task has used up its time slice. -/
def Rq.atExpiry (rq : Rq) (p : Nat) (jiffies : UInt64) : Rq :=
  { rq with expiredTimestamp := rq.expiry jiffies }.setTask p (rq.task p).expired

def expireTask (rq : Rq) (p : Nat) (jiffies : UInt64) : Option Rq := do
  let rq ← dequeueTask rq p rq.active
  placeExpired (rq.atExpiry p jiffies) p jiffies

def Task.ticked (t : Task) : Task := { t with timeSlice := t.timeSlice - 1 }

/-- An interactive task gives way to its equals within a time slice. -/
def Task.givesWay (t : Task) (active : ArrayId) : Bool :=
  t.interactive ∧ (t.taskTimeslice - t.timeSlice) % t.timesliceGranularity = 0 ∧
    t.timesliceGranularity ≤ t.timeSlice ∧ t.array = some active

def taskRunningTick (rq : Rq) (p : Nat) (jiffies : UInt64) : Option Rq :=
  let t := rq.task p
  if t.array ≠ some rq.active then some (rq.setTask p { t with needResched := true })
  else if t.rtTask then
    if t.policy = .rr then
      if t.ticked.timeSlice = 0 then
        requeueTask (rq.setTask p { t with
          timeSlice := t.taskTimeslice, firstTimeSlice := false, needResched := true }) p rq.active
      else some (rq.setTask p t.ticked)
    else some rq
  else if t.ticked.timeSlice = 0 then expireTask (rq.setTask p t.ticked) p jiffies
  else if t.ticked.givesWay rq.active then
    requeueTask (rq.setTask p { t.ticked with needResched := true }) p rq.active
  else some (rq.setTask p t.ticked)

def schedulerTick (rq : Rq) (jiffies : UInt64) : Option Rq :=
  if rq.curr = rq.idle then some rq else taskRunningTick rq rq.curr jiffies

/-! ## The next task -/

/-- `run_time` of `schedule`. -/
def Task.runTime (t : Task) (now : UInt64) : UInt64 :=
  let time :=
    if (now - t.timestamp).toInt64 < nsMaxSleepAvg.toInt64 then
      if (now - t.timestamp).toInt64 < 0 then 0 else now - t.timestamp
    else nsMaxSleepAvg
  time / UInt64.ofInt (if t.currentBonus = 0 then 1 else t.currentBonus)

/-- `prev` leaves the run queue if it is about to sleep. -/
def leaveCpu (rq : Rq) (prev : Nat) (preemptActive sigPending : Bool) : Option Rq :=
  let t := rq.task prev
  if t.state ≠ .running ∧ preemptActive = false then
    if t.state.isInterruptible ∧ sigPending then some (rq.setTask prev (t.setState .running))
    else deactivateTask rq prev
  else some rq

/-- The active array is empty: the two change places. -/
def switchArrays (rq : Rq) : Rq :=
  if (rq.arrays rq.active).nrActive = 0 then
    { rq with
      active := rq.expired
      expired := rq.active
      expiredTimestamp := 0
      bestExpiredPrio := maxPrio }
  else rq

/-- The first task of the first queue in use. -/
def nextTask (rq : Rq) : Option Nat :=
  match rq.links.next (.queue rq.active (schedFindFirstBit (rq.arrays rq.active).bitmap)) with
  | .runList p => some p
  | _ => none

def interactiveSleepType (s : SleepType) : Bool := s = .interactive || s = .interrupted

/-- `ON_RUNQUEUE_WEIGHT * 128 / 100`. -/
def onRunqueueWeight : UInt64 := 30 * 128 / 100

/-- A task that has slept is credited for the time on the run queue. -/
def creditNext (rq : Rq) (next : Nat) (now : UInt64) : Option Rq := do
  let t := rq.task next
  if ¬ t.rtTask ∧ interactiveSleepType t.sleepType then
    let delta := if (now - t.timestamp).toInt64 < 0 then 0 else now - t.timestamp
    let delta := if t.sleepType = .interactive then delta * onRunqueueWeight / 128 else delta
    let array ← t.array
    let (t', prio) := t.recalcTaskPrio (t.timestamp + delta)
    let rq := rq.setTask next t'
    if t'.prio ≠ prio then
      let rq ← dequeueTask rq next array
      enqueueTask (rq.setTask next (t'.setPrio prio)) next array
    else return rq
  else return rq

/-- `prev` pays for the time it has run. -/
def Task.charged (t : Task) (runTime now : UInt64) : Task :=
  { t with
    needResched := false
    sleepAvg := if (t.sleepAvg - runTime).toInt64 ≤ 0 then 0 else t.sleepAvg - runTime
    timestamp := now }

/-- From `switch_tasks` on. -/
def switchTasks (rq : Rq) (prev next : Nat) (runTime now : UInt64) : Rq :=
  let rq := rq.setTask prev ((rq.task prev).charged runTime now)
  if prev ≠ next then
    { rq.setTask next { rq.task next with timestamp := now } with curr := next }
  else rq

def schedule (rq : Rq) (now : UInt64) (preemptActive sigPending : Bool) : Option Rq := do
  let prev := rq.curr
  let runTime := (rq.task prev).runTime now
  let rq ← leaveCpu rq prev preemptActive sigPending
  if rq.nrRunning = 0 then
    return switchTasks { rq with expiredTimestamp := 0 } prev rq.idle runTime now
  else
    let rq := switchArrays rq
    let next ← nextTask rq
    let rq ← creditNext rq next now
    return switchTasks (rq.setTask next { rq.task next with sleepType := .normal }) prev next
      runTime now

/-! ## Waking and forking -/

/-- A task that slept without being interactive gets no credit for it. -/
def Task.woken (t : Task) : Task :=
  { t with
    sleepType :=
      if t.state = .uninterruptible ∨ t.state = .interruptible true then .noninteractive
      else t.sleepType }

/-- `try_to_wake_up` for the states in `mask`; `TASK_RUNNING` is no bit of a mask. -/
def tryToWakeUp (rq : Rq) (p : Nat) (mask : List TaskState) (sync : Bool) (now : UInt64)
    (inInterrupt : Bool) : Option (Rq × Bool) :=
  let t := rq.task p
  if t.state = .running ∨ t.state ∉ mask then some (rq, false)
  else if t.array.isSome then some (rq.setTask p (t.setState .running), false)
  else do
    let rq ← activateTask (rq.setTask p t.woken) p now inInterrupt
    let rq := if sync then rq else preemptCurr rq p
    return (rq.setTask p ((rq.task p).setState .running), true)

def Task.child (current : Task) (now : UInt64) : Task :=
  { current with
    state := .running
    prio := current.normalPrio
    array := none
    timeSlice := (current.timeSlice + 1) >>> 1
    firstTimeSlice := true
    timestamp := now }

def Task.setTimeSlice (t : Task) (slice : UInt32) : Task := { t with timeSlice := slice }

/-- `sched_fork`: `p` is a copy of the running task. -/
def schedFork (rq : Rq) (p : Nat) (now jiffies : UInt64) : Option Rq :=
  let current := rq.task rq.curr
  let rq := { rq with links := initListHead rq.links (.runList p) }.setTask p (current.child now)
  let slice := current.timeSlice >>> 1
  if slice = 0 then taskRunningTick (rq.setTask rq.curr (current.setTimeSlice 1)) rq.curr jiffies
  else some (rq.setTask rq.curr (current.setTimeSlice slice))

/-- `JIFFIES_TO_NS(CURRENT_BONUS(p) * penalty / 100 * MAX_SLEEP_AVG / MAX_BONUS)`. -/
def Task.penalised (t : Task) (penalty : Int) : UInt64 :=
  UInt64.ofInt ((((t.currentBonus * penalty).tdiv 100 * Sched.maxSleepAvg).tdiv Sched.maxBonus) *
    nsPerJiffy)

def Task.penalise (t : Task) (penalty : Int) : Task := { t with sleepAvg := t.penalised penalty }

/-- The child of a task that goes to its queue. -/
def Task.beside (t current : Task) (array : ArrayId) : Task :=
  { t with prio := current.prio, normalPrio := current.normalPrio, array := some array }

/-- The child goes before its parent, in the queue of its parent. -/
def joinParent (rq : Rq) (p : Nat) (array : ArrayId) : Option Rq := do
  let l ← listAddTail rq.links (.runList p) (.runList rq.curr)
  let arr := rq.arrays array
  return { rq with links := l, nrRunning := rq.nrRunning + 1 }.setArray array
      { arr with nrActive := arr.nrActive + 1 }
    |>.setTask p ((rq.task p).beside (rq.task rq.curr) array)

/-- The child is to run first. -/
def activateFirst (rq : Rq) (p : Nat) : Option Rq :=
  match (rq.task rq.curr).array with
  | none => activate rq p
  | some array => joinParent rq p array

def activateChild (rq : Rq) (p : Nat) (cloneVm : Bool) : Option Rq :=
  if cloneVm then activate rq p
  else do
    let rq ← activateFirst rq p
    return reschedTask rq rq.curr

/-- `wake_up_new_task`; `cloneVm` is `clone_flags & CLONE_VM`. -/
def wakeUpNewTask (rq : Rq) (p : Nat) (cloneVm : Bool) : Option Rq :=
  if (rq.task p).state ≠ .running then none
  else do
    let rq ← activateChild (rq.setTask p ((rq.task p).penalise 95).setEffectivePrio) p cloneVm
    return rq.setTask rq.curr ((rq.task rq.curr).penalise 100)

/-! ## Changing priorities -/

/-- `resched_task` after a change of priority from `oldPrio`. -/
def reschedChanged (rq : Rq) (p : Nat) (oldPrio : Int) : Rq :=
  if rq.curr = p then if oldPrio < (rq.task p).prio then reschedTask rq rq.curr else rq
  else preemptCurr rq p

/-- `rt_mutex_setprio`; `BUG_ON` for a priority above `MAX_PRIO`. -/
def rtMutexSetprio (rq : Rq) (p : Nat) (prio : Int) : Option Rq :=
  if prio < 0 ∨ maxPrio < prio then none
  else
    let t := rq.task p
    match t.array with
    | none => some (rq.setTask p (t.setPrio prio))
    | some array => do
      let rq ← dequeueTask rq p array
      let rq := rq.setTask p (t.setPrio prio)
      let rq ← enqueueTask rq p (if (rq.task p).rtTask then rq.active else array)
      return reschedChanged rq p t.prio

/-- The nice value as a static priority, if it is one. -/
def staticPrioOf (nice : Int) : Option StaticPrio :=
  if h : -20 ≤ nice ∧ nice ≤ 19 then
    some ⟨Sched.niceToPrio nice, by unfold Sched.niceToPrio maxRtPrio; omega,
      by unfold Sched.niceToPrio maxPrio maxRtPrio; omega⟩
  else none

def setUserNice (rq : Rq) (p : Nat) (nice : Int) : Option Rq :=
  let t := rq.task p
  match staticPrioOf nice with
  | none => some rq
  | some static =>
    if Sched.prioToNice t.staticPrio.val = nice then some rq
    else if (t.sched .null).hasRtPolicy then some (rq.setTask p (t.setStaticPrio static))
    else
      let t' := (t.setStaticPrio static).setEffectivePrio
      match t.array with
      | none => some (rq.setTask p t')
      | some array => do
        let rq ← dequeueTask rq p array
        let rq ← enqueueTask (rq.setTask p t') p array
        let delta := t'.prio - t.prio
        return if delta < 0 ∨ (0 < delta ∧ rq.curr = p) then reschedTask rq rq.curr else rq

/-- `rt_mutex_getprio`, with the best priority of a waiter if there is one. -/
def rtMutexGetprio (waiter : Option Int) (normalPrio : Int) : Int :=
  match waiter with
  | none => normalPrio
  | some prio => min prio normalPrio

def Task.setScheduler (t : Task) (policy : Policy) (prio : Nat) (waiter : Option Int) : Task :=
  let t := { t with policy := policy, rtPriority := prio }
  let t := { t with normalPrio := t.newNormalPrio, prio := rtMutexGetprio waiter t.newNormalPrio }
  if policy = .batch then { t with sleepAvg := 0 } else t

def isRtPolicy (policy : Policy) : Bool := policy ≠ .normal ∧ policy ≠ .batch

def einval : Int := 22

/-- `sched_setscheduler` for a caller that may; a negative policy (`none`) stands for the one the
task has. -/
def schedSetscheduler (rq : Rq) (p : Nat) (policy : Option Policy) (prio : Int)
    (waiter : Option Int) : Option (Rq × Int) :=
  let t := rq.task p
  let policy := policy.getD t.policy
  if prio < 0 ∨ prio > maxRtPrio - 1 then some (rq, -einval)
  else if isRtPolicy policy ≠ decide (prio ≠ 0) then some (rq, -einval)
  else
    match t.array with
    | none => some (rq.setTask p (t.setScheduler policy prio.toNat waiter), 0)
    | some _ => do
      let rq ← deactivateTask rq p
      let rq ← activate (rq.setTask p ((rq.task p).setScheduler policy prio.toNat waiter)) p
      return (reschedChanged rq p t.prio, 0)

/-- `sys_sched_yield`, before its `schedule()`. -/
def yieldTask (rq : Rq) : Option Rq := do
  let t := rq.task rq.curr
  let array ← t.array
  let target := if t.rtTask then rq.active else rq.expired
  if array ≠ target then
    let rq' ← dequeueTask rq rq.curr array
    enqueueTask rq' rq.curr target
  else requeueTask rq rq.curr array

def sysSchedYield (rq : Rq) (now : UInt64) (sigPending : Bool) : Option Rq := do
  let rq ← yieldTask rq
  schedule rq now false sigPending

/-! ## Start -/

def prios : List Int := (List.range maxPrio.toNat).map Int.ofNat

def queueIds (a : ArrayId) : List (ArrayId × Int) := prios.map (a, ·)

def initArray (b : Bitmap) : Bitmap :=
  (List.range maxPrio.toNat).foldl Bitmap.clear b |>.set maxPrio.toNat

def initIdle (t : Task) (now : UInt64) : Task :=
  { t with
    timestamp := now
    sleepAvg := 0
    array := none
    prio := maxPrio
    normalPrio := maxPrio
    state := .running }

/-- `sched_init`, whatever was in the links and in the bitmaps before. -/
def schedInit (l : Links Node) (bitmap : ArrayId → Bitmap) (task : Nat → Task) (idle : Nat)
    (now : UInt64) : Rq where
  links := (queueIds .zero ++ queueIds .one).foldl
    (fun l k => initListHead l (.queue k.1 k.2)) l
  arrays a := ⟨0, initArray (bitmap a)⟩
  active := .zero
  expired := .one
  nrRunning := 0
  expiredTimestamp := 0
  bestExpiredPrio := maxPrio
  curr := idle
  idle := idle
  task := Function.update task idle (initIdle (task idle) now)

end Cs370.RunQueue
