import Mathlib.Algebra.Order.BigOperators.Group.Finset
import Cs370.Kernel.List
import Cs370.Kernel.TimeSlice

/-!
# What a swipe moves

`sys_swipe` statement by statement: its loop follows the list of the victim's children through
memory. The children are linked by their `sibling` nodes and the loop takes each for the `children`
node of a task, so it goes from child to child but never looks at one (`sysSwipeWalk_eq`). What it
adds in each round is the slice of the victim, which is 0 by then. The target gets the slice of the
victim and nothing else, which is what a swipe is for exactly if the children have nothing to give
(`swipe_moves_iff`).
-/

namespace Cs370.Sched

open Cs370.Kernel Cs370.Loop

/-! ## The loop -/

/-- The list heads in the `task_struct` of a task. -/
inductive TaskNode where
  | children (pid : Nat)
  | sibling (pid : Nat)
  deriving DecidableEq

/-- `child_task->pid`, where `child_task` is taken from the node by its member `children`. -/
def State.pidAt (s : State) : TaskNode → Int
  | .children pid => pid
  | .sibling pid => s.strayPid pid

def State.timeSlice (s : State) (pid : Nat) : UInt32 := ((s.tasks pid).map Task.timeSlice).getD 0

def State.slice (s : State) (pid : Nat) : Nat := (s.timeSlice pid).toNat

/-- `target_task->time_slice += victim_task->time_slice`. -/
def State.addSlice (s : State) (target victim : Nat) : State :=
  match s.tasks target with
  | some p => s.set target { p with timeSlice := p.timeSlice + s.timeSlice victim }
  | none => s

/-- An iteration of `list_for_each_entry(child_task, &victim_task->children, children)`. -/
def swipeStep (l : Links TaskNode) (target victim : Int) (x : TaskNode × State) :
    Move (TaskNode × State) State :=
  if x.1 = .children victim.toNat then .stop x.2
  else if target ≠ x.2.pidAt x.1 then .next (l.next x.1, x.2.addSlice target.toNat victim.toNat)
  else .next (l.next x.1, x.2)

/-- `sys_swipe` over the lists in memory, at most `n` iterations of its loop. -/
def sysSwipeWalk (l : Links TaskNode) (s : State) (target victim : Int) (n : Nat) :
    Option (State × Int) :=
  if target = victim then some (s, -1)
  else
    match s.findTaskByPid target, s.findTaskByPid victim with
    | some targetTask, some victimTask =>
      let origTimeSlice := targetTask.timeSlice
      let moved := (s.set target.toNat
        { targetTask with timeSlice := targetTask.timeSlice + victimTask.timeSlice }).set
          victim.toNat { victimTask with timeSlice := 0 }
      (run (swipeStep l target victim) n (l.next (.children victim.toNat), moved)).map fun t =>
        (t, ((t.timeSlice target.toNat - origTimeSlice).toNat : Int))
    | _, _ => some (s, -1)

theorem addSlice_of_eq_zero {s : State} {target victim : Nat} (h : s.timeSlice victim = 0) :
    s.addSlice target victim = s := by
  unfold State.addSlice
  cases hp : s.tasks target with
  | none => rfl
  | some p =>
    have hset : s.set target p = s := by
      unfold State.set
      rw [← hp, Function.update_eq_self]
    simp only [h, UInt32.add_zero]
    exact hset

/-- The loop goes through the list, and a victim without a slice gives nothing. -/
theorem swipeStep_path {l : Links TaskNode} {s : State} {target victim : Int} {x : TaskNode}
    {kids : List Nat} (hs : s.timeSlice victim.toNat = 0)
    (hp : l.Path x (kids.map .sibling) (.children victim.toNat)) :
    ∃ n, run (swipeStep l target victim) n (l.next x, s) = some s := by
  induction kids generalizing x with
  | nil => exact ⟨1, run_stop (by simp [swipeStep, hp.1])⟩
  | cons c kids ih =>
    obtain ⟨hnext, -, hrest⟩ := hp
    obtain ⟨n, hn⟩ := ih hrest
    refine ⟨n + 1, ?_⟩
    rw [hnext, ← hn]
    refine run_next ?_
    simp [swipeStep, addSlice_of_eq_zero hs]

theorem swipeChildren_zero (strayPid : Nat → Int) (target : Int) (kids : List Nat)
    (slice : UInt32) : swipeChildren strayPid target 0 kids slice = slice := by
  induction kids generalizing slice with
  | nil => rfl
  | cons c kids ih => simp [swipeChildren, ih]

theorem slice_gained (old added : UInt32) : old + added - old = added := by
  rw [UInt32.add_comm, UInt32.add_sub_cancel]

theorem timeSlice_set (s : State) (pid : Nat) (p : Task) :
    (s.set pid p).timeSlice pid = p.timeSlice := by
  rw [State.timeSlice, set_tasks]
  rfl

theorem timeSlice_set_of_ne (s : State) {pid q : Nat} (p : Task) (h : q ≠ pid) :
    (s.set pid p).timeSlice q = s.timeSlice q := by
  rw [State.timeSlice, set_tasks_of_ne s p h]
  rfl

/-- The slice of the victim added to that of the target. -/
def State.swiped (s : State) (target victim : Nat) (targetTask victimTask : Task) : State :=
  (s.set target { targetTask with timeSlice := targetTask.timeSlice + victimTask.timeSlice }).set
    victim { victimTask with timeSlice := 0 }

section
variable {l : Links TaskNode} {s : State} {target victim : Int} {targetTask victimTask : Task}
  (hne : target ≠ victim) (ht : s.findTaskByPid target = some targetTask)
  (hv : s.findTaskByPid victim = some victimTask)
include hne ht hv

theorem sysSwipe_eq : sysSwipe s target victim =
    (s.swiped target.toNat victim.toNat targetTask victimTask,
      (victimTask.timeSlice.toNat : Int)) := by
  simp only [sysSwipe, if_neg hne, ht, hv, swipeChildren_zero, slice_gained]
  rfl

theorem toNat_ne : target.toNat ≠ victim.toNat := by
  have h1 := (findTaskByPid_eq_some ht).1
  have h2 := (findTaskByPid_eq_some hv).1
  omega

/-- **The loop of `sys_swipe`** ends on a list that is linked as it should be, and gives what
`sysSwipe` says. -/
theorem sysSwipeWalk_eq (hr : Ring l (.children victim.toNat) (victimTask.children.map .sibling)) :
    ∃ n, sysSwipeWalk l s target victim n = some (sysSwipe s target victim) := by
  have hzero : (s.swiped target.toNat victim.toNat targetTask victimTask).timeSlice
      victim.toNat = 0 := timeSlice_set ..
  have htarget : (s.swiped target.toNat victim.toNat targetTask victimTask).timeSlice
      target.toNat = targetTask.timeSlice + victimTask.timeSlice :=
    (timeSlice_set_of_ne _ _ (toNat_ne hne ht hv)).trans (timeSlice_set ..)
  obtain ⟨n, hn⟩ : ∃ n, run (swipeStep l target victim) n _ = some _ :=
    swipeStep_path hzero hr.path
  refine ⟨n, ?_⟩
  rw [State.swiped] at hn htarget
  rw [sysSwipe_eq hne ht hv]
  simp only [sysSwipeWalk, if_neg hne, ht, hv, hn, Option.map_some, htarget, slice_gained]
  rfl

end

/-! ## Process trees -/

/-- The tasks are those of `pids`, the children of a task are on its list, linked by their
`sibling` nodes, and are tasks whose parent it is; the way to the parents ends. -/
structure ProcessTree (l : Links TaskNode) (s : State) (pids : Finset Nat) : Prop where
  mem : ∀ pid p, s.tasks pid = some p → pid ∈ pids
  ring : ∀ pid p, s.tasks pid = some p → Ring l (.children pid) (p.children.map .sibling)
  child : ∀ pid p, s.tasks pid = some p → ∀ c ∈ p.children, ∃ q, s.tasks c = some q ∧ q.parent = pid
  depth : ∃ depth : Nat → Nat, ∀ pid p, s.tasks pid = some p →
    ∀ c ∈ p.children, depth pid < depth c

/-- The children a swipe takes from. -/
def Task.others (victim : Task) (target : Nat) : List Nat := victim.children.filter (· ≠ target)

/-- The slices of the victim and of these children. -/
def State.swipeAmount (s : State) (target victim : Nat) (victimTask : Task) : Nat :=
  s.slice victim + ((victimTask.others target).map s.slice).sum

/-- What a swipe is for: the slices of the victim and of its children other than the target go to
the target, no slice is lost, and the amount is returned. -/
structure Swiped (s t : State) (pids : Finset Nat) (target victim : Nat) (victimTask : Task)
    (ret : Int) : Prop where
  gained : t.slice target = s.slice target + s.swipeAmount target victim victimTask
  taken : t.slice victim = 0
  takenChild : ∀ c ∈ victimTask.others target, t.slice c = 0
  total : ∑ pid ∈ pids, t.slice pid = ∑ pid ∈ pids, s.slice pid
  rest : ∀ pid, pid ≠ target → pid ≠ victim → pid ∉ victimTask.children → t.slice pid = s.slice pid
  returned : ret = s.swipeAmount target victim victimTask

theorem ProcessTree.not_mem_children {l : Links TaskNode} {s : State} {pids : Finset Nat}
    (h : ProcessTree l s pids) {pid : Nat} {p : Task} (hp : s.tasks pid = some p) :
    pid ∉ p.children := by
  obtain ⟨depth, hdepth⟩ := h.depth
  exact fun hc => absurd (hdepth pid p hp pid hc) (Nat.lt_irrefl _)

theorem sum_change_two {ι : Type} [DecidableEq ι] {I : Finset ι} {f g : ι → Nat} {a b : ι}
    (ha : a ∈ I) (hb : b ∈ I) (hab : a ≠ b) (h : ∀ i, i ≠ a → i ≠ b → g i = f i) :
    ∑ i ∈ I, g i + (f a + f b) = ∑ i ∈ I, f i + (g a + g b) := by
  have hb' : b ∈ I.erase a := Finset.mem_erase.mpr ⟨hab.symm, hb⟩
  have hsame : ∑ i ∈ (I.erase a).erase b, g i = ∑ i ∈ (I.erase a).erase b, f i := by
    refine Finset.sum_congr rfl fun i hi => h i ?_ (Finset.ne_of_mem_erase hi)
    exact Finset.ne_of_mem_erase (Finset.mem_of_mem_erase hi)
  have hf := Finset.add_sum_erase I f ha
  have hf' := Finset.add_sum_erase (I.erase a) f hb'
  have hg := Finset.add_sum_erase I g ha
  have hg' := Finset.add_sum_erase (I.erase a) g hb'
  omega

theorem slice_of_tasks {s : State} {pid : Nat} {p : Task} (h : s.tasks pid = some p) :
    s.slice pid = p.timeSlice.toNat := by
  rw [State.slice, State.timeSlice, h]
  rfl

theorem swiped_slice_victim (s : State) (target victim : Nat) (targetTask victimTask : Task) :
    (s.swiped target victim targetTask victimTask).slice victim = 0 := by
  rw [State.slice, State.swiped, timeSlice_set]
  rfl

theorem swiped_slice_target {s : State} {target victim : Nat} {targetTask victimTask : Task}
    (hne : target ≠ victim) (ht : s.tasks target = some targetTask)
    (hv : s.tasks victim = some victimTask)
    (hlt : s.slice target + s.slice victim < UInt32.size) :
    (s.swiped target victim targetTask victimTask).slice target =
      s.slice target + s.slice victim := by
  rw [slice_of_tasks ht, slice_of_tasks hv] at hlt ⊢
  rw [State.slice, State.swiped, timeSlice_set_of_ne _ _ hne, timeSlice_set, UInt32.toNat_add]
  exact Nat.mod_eq_of_lt hlt

theorem swiped_slice_of_ne (s : State) {target victim pid : Nat} (targetTask victimTask : Task)
    (h1 : pid ≠ target) (h2 : pid ≠ victim) :
    (s.swiped target victim targetTask victimTask).slice pid = s.slice pid := by
  rw [State.slice, State.swiped, timeSlice_set_of_ne _ _ h2, timeSlice_set_of_ne _ _ h1]
  rfl

theorem Task.mem_others {victim : Task} {target c : Nat} :
    c ∈ victim.others target ↔ c ∈ victim.children ∧ c ≠ target := by
  rw [Task.others, List.mem_filter, decide_eq_true_iff]

theorem swipeAmount_eq {s : State} {target victim : Nat} {victimTask : Task}
    (h : ∀ c ∈ victimTask.others target, s.slice c = 0) :
    s.swipeAmount target victim victimTask = s.slice victim := by
  have hsum : ((victimTask.others target).map s.slice).sum = 0 :=
    List.sum_eq_zero fun x hx => by
      obtain ⟨c, hc, rfl⟩ := List.mem_map.mp hx
      exact h c hc
  rw [State.swipeAmount, hsum, Nat.add_zero]

/-- **What a swipe moves**: `sys_swipe` comes to its end on every process tree, and it does what it
is for exactly if the children of the victim, other than the target, have no slice. -/
theorem swipe_moves_iff {l : Links TaskNode} {s : State} {pids : Finset Nat}
    (htree : ProcessTree l s pids) (hsum : ∑ pid ∈ pids, s.slice pid < UInt32.size)
    {target victim : Int} {targetTask victimTask : Task} (hne : target ≠ victim)
    (ht : s.findTaskByPid target = some targetTask)
    (hv : s.findTaskByPid victim = some victimTask) :
    ∃ n t ret, sysSwipeWalk l s target victim n = some (t, ret) ∧
      (Swiped s t pids target.toNat victim.toNat victimTask ret ↔
        ∀ c ∈ victimTask.others target.toNat, s.slice c = 0) := by
  have hne' := toNat_ne hne ht hv
  have ht' := (findTaskByPid_eq_some ht).2
  have hv' := (findTaskByPid_eq_some hv).2
  have hchild := htree.not_mem_children hv'
  obtain ⟨n, hn⟩ := sysSwipeWalk_eq hne ht hv (htree.ring _ _ hv')
  rw [sysSwipe_eq hne ht hv] at hn
  refine ⟨n, _, _, hn, ?_⟩
  constructor
  · intro h c hc
    obtain ⟨hmem, hct⟩ := Task.mem_others.mp hc
    have hcv : c ≠ victim.toNat := by
      rintro rfl
      exact hchild hmem
    rw [← swiped_slice_of_ne s targetTask victimTask hct hcv]
    exact h.takenChild c hc
  · intro h
    have hle : s.slice target.toNat + s.slice victim.toNat ≤ ∑ pid ∈ pids, s.slice pid :=
      Finset.add_le_sum (fun _ _ => Nat.zero_le _) (htree.mem _ _ ht') (htree.mem _ _ hv') hne'
    have htarget := swiped_slice_target hne' ht' hv' (Nat.lt_of_le_of_lt hle hsum)
    have hvictim := swiped_slice_victim s target.toNat victim.toNat targetTask victimTask
    have hrest : ∀ pid, pid ≠ target.toNat → pid ≠ victim.toNat →
        (s.swiped target.toNat victim.toNat targetTask victimTask).slice pid = s.slice pid :=
      fun pid => swiped_slice_of_ne s targetTask victimTask
    have htotal := sum_change_two (htree.mem _ _ ht') (htree.mem _ _ hv') hne' hrest
    refine ⟨?_, hvictim, fun c hc => ?_, ?_, fun pid h1 h2 _ => hrest pid h1 h2, ?_⟩
    · rw [swipeAmount_eq h, htarget]
    · obtain ⟨hmem, hct⟩ := Task.mem_others.mp hc
      rw [hrest c hct fun hcv => hchild (hcv ▸ hmem)]
      exact h c hc
    · omega
    · rw [swipeAmount_eq h, slice_of_tasks hv']

/-- Task 3 is the child of task 2. -/
def familyState (slice : UInt32) : State where
  tasks
    | 1 => some sampleTask
    | 2 => some { sampleTask with children := [3] }
    | 3 => some { sampleTask with parent := 2, timeSlice := slice }
    | _ => none
  strayPid _ := 0

/-- The `children` node of task 2 and the `sibling` node of task 3 are linked to each other. -/
def familyLinks : Links TaskNode :=
  let other : TaskNode → TaskNode
    | .children 2 => .sibling 3
    | .sibling 3 => .children 2
    | x => x
  ⟨other, other⟩

theorem familyState_tree (slice : UInt32) :
    ProcessTree familyLinks (familyState slice) {1, 2, 3} := by
  have htask : ∀ pid p, (familyState slice).tasks pid = some p →
      (pid = 1 ∧ p.children = []) ∨ (pid = 2 ∧ p.children = [3]) ∨ (pid = 3 ∧ p.children = []) := by
    intro pid p hp
    unfold familyState at hp
    dsimp only at hp
    split at hp <;> cases hp
    · exact .inl ⟨rfl, rfl⟩
    · exact .inr (.inl ⟨rfl, rfl⟩)
    · exact .inr (.inr ⟨rfl, rfl⟩)
  refine ⟨fun pid p hp => ?_, fun pid p hp => ?_, fun pid p hp c hc => ?_, id,
    fun pid p hp c hc => ?_⟩
  all_goals rcases htask pid p hp with ⟨rfl, hkids⟩ | ⟨rfl, hkids⟩ | ⟨rfl, hkids⟩
  all_goals first | rw [hkids] at hc | rw [hkids] | skip
  · decide
  · decide
  · decide
  · exact ⟨⟨rfl, rfl⟩, by decide⟩
  · exact ⟨⟨rfl, rfl, rfl, rfl⟩, by decide⟩
  · exact ⟨⟨rfl, rfl⟩, by decide⟩
  · cases hc
  · cases List.mem_singleton.mp hc
    exact ⟨_, rfl, rfl⟩
  · cases hc
  · cases hc
  · cases List.mem_singleton.mp hc
    decide
  · cases hc

/-- `sys_swipe(1, 2)` where the child of the victim has nothing left to give. -/
theorem swipe_moves_iff_family : ∃ n t ret,
    sysSwipeWalk familyLinks (familyState 0) 1 2 n = some (t, ret) ∧
      Swiped (familyState 0) t {1, 2, 3} 1 2 { sampleTask with children := [3] } ret := by
  have ht : (familyState 0).findTaskByPid 1 = some sampleTask := rfl
  have hv : (familyState 0).findTaskByPid 2 = some { sampleTask with children := [3] } := rfl
  obtain ⟨n, t, ret, hn, hiff⟩ :=
    swipe_moves_iff (familyState_tree 0) (by decide) (by decide) ht hv
  refine ⟨n, t, ret, hn, hiff.mpr fun c hc => ?_⟩
  obtain ⟨hmem, -⟩ := Task.mem_others.mp hc
  rw [List.mem_singleton.mp hmem]
  rfl

/-- `sys_swipe(1, 2)`: the child of the victim keeps its slice, and 25 is returned instead of 50. -/
theorem swipe_child_kept : ProcessTree familyLinks (familyState 25) {1, 2, 3} ∧
    ∑ pid ∈ {1, 2, 3}, (familyState 25).slice pid < UInt32.size ∧
    ∃ n t, sysSwipeWalk familyLinks (familyState 25) 1 2 n = some (t, 25) ∧ t.slice 3 = 25 ∧
      ¬ Swiped (familyState 25) t {1, 2, 3} 1 2 { sampleTask with children := [3] } 25 := by
  have ht : (familyState 25).findTaskByPid 1 = some sampleTask := rfl
  have hv : (familyState 25).findTaskByPid 2 = some { sampleTask with children := [3] } := rfl
  obtain ⟨n, hn⟩ := sysSwipeWalk_eq (by decide) ht hv ((familyState_tree 25).ring 2 _ rfl)
  refine ⟨familyState_tree 25, by decide, n, _, hn, by decide, fun h => ?_⟩
  exact absurd h.returned (by decide)

end Cs370.Sched
