import Mathlib.Data.Nat.Count
import Mathlib.Logic.Function.Basic
import Cs370.Kernel.Join

/-!
# Joining, forking and exiting tasks

`sys_myjoin` and `sys_zombify` of `kernel/sched.c`, the critical section of `do_exit` in
`kernel/exit.c` and the steps of `copy_process` in `kernel/fork.c`, for any number of tasks. A
task is the number of its `task_struct`, which stays where it is after the task is gone: a caller
that has found it keeps a pointer to it. A new task starts as a copy of its parent, can be found
after `attach_pid`, and gets its join fields set after that.

A task that has not come to the end of `do_exit` has a pid of its own, so there are no more of
them than pids.
-/

namespace Cs370.Tasks

open Cs370.Trans
open Cs370.Join (ExitPc pidMaxLimit)

/-- Before a statement of `sys_myjoin`. -/
inductive JoinPc where
  | lock
  | check
  | unlock
  | down
  | asleep

/-- Before a statement of `copy_process`: the last ones for a new task. -/
inductive BirthPc where
  | attach
  | semaInit
  | joinedInit
  | finish

/-- Where a task is. A new task is `born` as long as its parent is in `copy_process`. -/
inductive Pc where
  | gone
  | user
  | join (target : Nat) (pc : JoinPc)
  | fork (child : Nat)
  | born (parent : Nat) (pc : BirthPc)
  | exit (pc : ExitPc)

inductive ExitState where
  | running
  | zombie
  | dead

/-- The fields of `task_struct`; `hashed` is whether `find_task_by_pid` finds it. The tokens of
`join_semaphore` and the tasks on its wait queue are fields of their own. -/
structure TaskStruct where
  joinedProcesses : Nat
  joinSemaphore : Nat
  waitQueue : List Nat
  pfExiting : Bool
  piLock : Option Nat
  exitState : ExitState
  hashed : Bool

structure State where
  size : Nat
  pc : Nat → Pc
  mem : Nat → TaskStruct

def State.setPc (s : State) (i : Nat) (c : Pc) : State :=
  { s with pc := Function.update s.pc i c }

def State.setMem (s : State) (p : Nat) (m : TaskStruct) : State :=
  { s with mem := Function.update s.mem p m }

/-- A new task at the end of the table. -/
def State.push (s : State) (c : Pc) (m : TaskStruct) : State where
  size := s.size + 1
  pc := Function.update s.pc s.size c
  mem := Function.update s.mem s.size m

/-- The task is in `down` or has the lock still to give back: it is counted for `p`. -/
def Pc.waits (p : Nat) : Pc → Bool
  | .join q .unlock => q = p
  | .join q .down => q = p
  | .join q .asleep => q = p
  | _ => false

def Pc.alive : Pc → Bool
  | .gone => false
  | .exit .after => false
  | _ => true

/-- The callers that are counted as joined with `p` and have not returned. -/
def State.waiting (s : State) (p : Nat) : Nat :=
  Nat.count (fun i => (s.pc i).waits p = true) s.size

def State.alive (s : State) : Nat := Nat.count (fun i => (s.pc i).alive = true) s.size

/-- The first task, with the fields of `init_task`. -/
def State.init : State where
  size := 1
  pc i := if i = 0 then .user else .gone
  mem i := ⟨0, 0, [], false, none, .running, i = 0⟩

/-- What `dup_task_struct` copies and what `copy_process` sets before `attach_pid`. -/
def TaskStruct.dup (m : TaskStruct) : TaskStruct :=
  { m with piLock := none, exitState := .running, hashed := false }

inductive Act where
  | join (i : Nat)
  | lock (i : Nat)
  | check (i : Nat)
  | unlock (i : Nat)
  | down (i : Nat)
  | sleep (i : Nat)
  | wake (i : Nat)
  | zombify (i : Nat)
  | dup (i : Nat)
  | forkFail (c : Nat)
  | attach (c : Nat)
  | semaInit (c : Nat)
  | joinedInit (c : Nat)
  | forkReturn (c : Nat)
  | exit (i : Nat)
  | exitLock (i : Nat)
  | exitFlag (i : Nat)
  | exitUp (i : Nat)
  | exitReset (i : Nat)
  | exitUnlock (i : Nat)
  | release (i : Nat)

inductive Step : State → Act → State → Prop where
  | join {s : State} {i p : Nat} : s.pc i = .user → (s.mem p).hashed = true →
      Step s (.join i) (s.setPc i (.join p .lock))
  | joinNotFound {s : State} {i : Nat} : s.pc i = .user → Step s (.join i) s
  | lock {s : State} {i p : Nat} : s.pc i = .join p .lock → (s.mem p).piLock = none →
      Step s (.lock i)
        ((s.setMem p { s.mem p with piLock := some i }).setPc i (.join p .check))
  -- the lock is not given back
  | checkExiting {s : State} {i p : Nat} : s.pc i = .join p .check → (s.mem p).pfExiting = true →
      Step s (.check i) (s.setPc i .user)
  | checkCount {s : State} {i p : Nat} : s.pc i = .join p .check → (s.mem p).pfExiting = false →
      Step s (.check i)
        ((s.setMem p { s.mem p with
          joinedProcesses := CInt.sizeT ((s.mem p).joinedProcesses + 1) }).setPc i
            (.join p .unlock))
  | unlock {s : State} {i p : Nat} : s.pc i = .join p .unlock →
      Step s (.unlock i) ((s.setMem p { s.mem p with piLock := none }).setPc i (.join p .down))
  | down {s : State} {i p : Nat} : s.pc i = .join p .down → 0 < (s.mem p).joinSemaphore →
      Step s (.down i)
        ((s.setMem p { s.mem p with joinSemaphore := (s.mem p).joinSemaphore - 1 }).setPc i .user)
  | sleep {s : State} {i p : Nat} : s.pc i = .join p .down → (s.mem p).joinSemaphore = 0 →
      Step s (.sleep i)
        ((s.setMem p { s.mem p with waitQueue := (s.mem p).waitQueue ++ [i] }).setPc i
          (.join p .asleep))
  -- only a task on the wait queue is woken for a token
  | wake {s : State} {i p : Nat} : s.pc i = .join p .asleep → i ∈ (s.mem p).waitQueue →
      0 < (s.mem p).joinSemaphore →
      Step s (.wake i)
        ((s.setMem p { s.mem p with waitQueue := (s.mem p).waitQueue.erase i }).setPc i
          (.join p .down))
  | zombify {s : State} {i p : Nat} : s.pc i = .user → (s.mem p).hashed = true →
      Step s (.zombify i) (s.setMem p { s.mem p with exitState := .zombie })
  | dup {s : State} {i : Nat} : s.pc i = .user → s.alive < pidMaxLimit →
      Step s (.dup i) ((s.setPc i (.fork s.size)).push (.born i .attach) (s.mem i).dup)
  | forkFail {s : State} {i c : Nat} : s.pc c = .born i .attach → s.pc i = .fork c →
      Step s (.forkFail c) ((s.setPc c .gone).setPc i .user)
  | attach {s : State} {i c : Nat} : s.pc c = .born i .attach →
      Step s (.attach c) ((s.setMem c { s.mem c with hashed := true }).setPc c (.born i .semaInit))
  | semaInit {s : State} {i c : Nat} : s.pc c = .born i .semaInit →
      Step s (.semaInit c)
        ((s.setMem c { s.mem c with joinSemaphore := 0, waitQueue := [] }).setPc c
          (.born i .joinedInit))
  | joinedInit {s : State} {i c : Nat} : s.pc c = .born i .joinedInit →
      Step s (.joinedInit c)
        ((s.setMem c { s.mem c with joinedProcesses := 0 }).setPc c (.born i .finish))
  | forkReturn {s : State} {i c : Nat} : s.pc c = .born i .finish → s.pc i = .fork c →
      Step s (.forkReturn c) ((s.setPc c .user).setPc i .user)
  | exit {s : State} {i : Nat} : s.pc i = .user → Step s (.exit i) (s.setPc i (.exit .before))
  | exitLock {s : State} {i : Nat} : s.pc i = .exit .before → (s.mem i).piLock = none →
      Step s (.exitLock i)
        ((s.setMem i { s.mem i with piLock := some i }).setPc i (.exit .flag))
  | exitFlag {s : State} {i : Nat} : s.pc i = .exit .flag →
      Step s (.exitFlag i)
        ((s.setMem i { s.mem i with pfExiting := true }).setPc i (.exit (.loop 0)))
  | exitUp {s : State} {i : Nat} {k : Int} : s.pc i = .exit (.loop k) →
      CInt.sizeT k < (s.mem i).joinedProcesses →
      Step s (.exitUp i)
        ((s.setMem i { s.mem i with joinSemaphore := (s.mem i).joinSemaphore + 1 }).setPc i
          (.exit (.loop (CInt.intW 32 (k + 1)))))
  | exitReset {s : State} {i : Nat} {k : Int} : s.pc i = .exit (.loop k) →
      ¬ CInt.sizeT k < (s.mem i).joinedProcesses →
      Step s (.exitReset i)
        ((s.setMem i { s.mem i with joinedProcesses := 0 }).setPc i (.exit .unlock))
  | exitUnlock {s : State} {i : Nat} : s.pc i = .exit .unlock →
      Step s (.exitUnlock i)
        ((s.setMem i { s.mem i with piLock := none }).setPc i (.exit .after))
  | release {s : State} {i : Nat} : s.pc i = .exit .after →
      Step s (.release i) (s.setMem i { s.mem i with exitState := .dead, hashed := false })

/-! ## Counting tasks -/

theorem count_update_of_le {α : Type} {q : α → Bool} {f : Nat → α} {i n : Nat} (hn : n ≤ i)
    (b : α) : Nat.count (fun j => q (Function.update f i b j) = true) n =
      Nat.count (fun j => q (f j) = true) n := by
  induction n with
  | zero => rfl
  | succ n ih =>
    rw [Nat.count_succ, Nat.count_succ, ih (Nat.le_of_succ_le hn),
      Function.update_of_ne (Nat.ne_of_lt hn)]

theorem count_update {α : Type} {q : α → Bool} {f : Nat → α} {i n : Nat} (hi : i < n) (b : α) :
    Nat.count (fun j => q (Function.update f i b j) = true) n + (q (f i)).toNat =
      Nat.count (fun j => q (f j) = true) n + (q b).toNat := by
  have hite (b : Bool) : (if b = true then 1 else 0) = b.toNat := by cases b <;> rfl
  induction n with
  | zero => exact absurd hi (Nat.not_lt_zero i)
  | succ n ih =>
    rw [Nat.count_succ, Nat.count_succ, hite, hite]
    by_cases hin : i = n
    · subst hin
      rw [Function.update_self, count_update_of_le (Nat.le_refl i)]
      omega
    · have := ih (by omega)
      rw [Function.update_of_ne (Ne.symm hin)]
      omega

section
variable {s : State} {i p : Nat} {c : Pc} {m : TaskStruct}

@[simp] theorem setPc_self : (s.setPc i c).pc i = c := Function.update_self ..

theorem setPc_ne {j : Nat} (h : j ≠ i) : (s.setPc i c).pc j = s.pc j := Function.update_of_ne h ..

@[simp] theorem setPc_mem : (s.setPc i c).mem = s.mem := rfl

@[simp] theorem setPc_size : (s.setPc i c).size = s.size := rfl

@[simp] theorem setMem_pc : (s.setMem p m).pc = s.pc := rfl

@[simp] theorem setMem_size : (s.setMem p m).size = s.size := rfl

@[simp] theorem setMem_self : (s.setMem p m).mem p = m := Function.update_self ..

theorem setMem_ne {q : Nat} (h : q ≠ p) : (s.setMem p m).mem q = s.mem q :=
  Function.update_of_ne h ..

@[simp] theorem setMem_waiting (q : Nat) : (s.setMem p m).waiting q = s.waiting q := rfl

@[simp] theorem push_pc_self : (s.push c m).pc s.size = c := Function.update_self ..

@[simp] theorem push_mem_self : (s.push c m).mem s.size = m := Function.update_self ..

theorem push_pc_ne {j : Nat} (h : j ≠ s.size) : (s.push c m).pc j = s.pc j :=
  Function.update_of_ne h ..

theorem push_mem_ne {q : Nat} (h : q ≠ s.size) : (s.push c m).mem q = s.mem q :=
  Function.update_of_ne h ..

theorem setPc_waiting (hi : i < s.size) (q : Nat) :
    (s.setPc i c).waiting q + ((s.pc i).waits q).toNat = s.waiting q + (c.waits q).toNat :=
  count_update hi c

theorem setPc_waiting_eq (hi : i < s.size) {q : Nat} (h : c.waits q = (s.pc i).waits q) :
    (s.setPc i c).waiting q = s.waiting q := by
  have := setPc_waiting (c := c) hi q
  rw [h] at this
  exact Nat.add_right_cancel this

theorem setPc_alive (hi : i < s.size) :
    (s.setPc i c).alive + (s.pc i).alive.toNat = s.alive + c.alive.toNat :=
  count_update hi c

theorem waiting_le_alive (s : State) (p : Nat) : s.waiting p ≤ s.alive := by
  apply Nat.count_mono_left
  intro i _ hi
  cases hc : s.pc i with
  | join q pc => rfl
  | _ => rw [hc] at hi; cases hi

end

end Cs370.Tasks
