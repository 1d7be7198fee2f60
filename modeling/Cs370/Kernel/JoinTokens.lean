import Cs370.Kernel.Tasks

/-!
# Tokens of joined tasks

The join fields of every task, in every run. What they can hold depends on the phase the task is
in: a copy of the parent's count until `copy_process` sets it, the callers that are counted as
long as the task is not exiting, the tokens given out and those still to come in the loop of
`do_exit`, and tokens only after it. `Step.change` lists what a step can do to a task; the
statements about tasks are kept through each of these changes.

A token is given out by a task that has set `PF_EXITING` only (`join_not_early`). A caller that
is counted stays so, and stays on the wait queue it sleeps on, exactly when no caller is counted
for a task whose join fields `copy_process` has still to initialise (`join_counted_iff`).
-/

namespace Cs370.Tasks

open Cs370.Trans
open Cs370.Join (ExitPc pidMaxLimit)

/-! ## Phases -/

inductive Phase where
  | fresh
  | joinable
  | loop (i : Int)
  | done

def Pc.phase : Pc → Phase
  | .gone => .fresh
  | .born _ .finish => .joinable
  | .born _ _ => .fresh
  | .exit (.loop i) => .loop i
  | .exit .unlock => .done
  | .exit .after => .done
  | _ => .joinable

/-- `find_task_by_pid` can find the task, or has been able to. -/
def Pc.linked : Pc → Bool
  | .gone => false
  | .born _ .attach => false
  | _ => true

/-- Between `attach_pid` and the last of the two initialisations. -/
def Pc.uninit : Pc → Bool
  | .born _ .semaInit => true
  | .born _ .joinedInit => true
  | _ => false

theorem Pc.uninit_of_fresh {c : Pc} (hl : c.linked = true) (hph : c.phase = .fresh) :
    c.uninit = true := by
  cases c with
  | gone => cases hl
  | born i j =>
    cases j with
    | attach => cases hl
    | semaInit => rfl
    | joinedInit => rfl
    | finish => cases hph
  | exit j => cases j <;> cases hph
  | _ => cases hph

theorem Pc.fresh_of_uninit {c : Pc} (h : c.uninit = true) : c.phase = .fresh := by
  cases c with
  | born i j =>
    cases j with
    | semaInit => rfl
    | joinedInit => rfl
    | _ => cases h
  | _ => cases h

/-- A statement about each task, its fields and its callers. -/
def AllTasks (P : Phase → TaskStruct → Nat → Prop) (s : State) : Prop :=
  ∀ q, P (s.pc q).phase (s.mem q) (s.waiting q)

theorem AllTasks.at_pc {P : Phase → TaskStruct → Nat → Prop} {s : State} (h : AllTasks P s)
    {i : Nat} {c : Pc} (hc : s.pc i = c) : P c.phase (s.mem i) (s.waiting i) := hc ▸ h i

/-- The same for a statement that may be another one for each task. -/
def EachTask (P : Nat → Phase → TaskStruct → Nat → Prop) (s : State) : Prop :=
  ∀ q, P q (s.pc q).phase (s.mem q) (s.waiting q)

section
variable {P : Nat → Phase → TaskStruct → Nat → Prop} {s : State} {i p : Nat} {c c₀ : Pc}
  {m : TaskStruct}

theorem setMem_eq : s.setMem p (s.mem p) = s := by
  unfold State.setMem
  rw [Function.update_eq_self]

theorem EachTask.joinMove (h : EachTask P s) (hi : i < s.size) (hc : s.pc i = c₀)
    (hphase : c.phase = c₀.phase) (hwaits : ∀ q, q ≠ p → c.waits q = c₀.waits q)
    (hp : ∀ w, w + (c₀.waits p).toNat = s.waiting p + (c.waits p).toNat →
      P p (s.pc p).phase m w) : EachTask P ((s.setMem p m).setPc i c) := by
  subst hc
  intro q
  have hpc : (((s.setMem p m).setPc i c).pc q).phase = (s.pc q).phase := by
    by_cases hq : q = i
    · rw [hq, setPc_self, hphase]
    · rw [setPc_ne hq, setMem_pc]
  rw [hpc, setPc_mem]
  by_cases hq : q = p
  · subst hq
    rw [setMem_self]
    exact hp _ (setPc_waiting (s := s.setMem q m) hi q)
  · rw [setMem_ne hq, setPc_waiting_eq (s := s.setMem p m) hi (hwaits q hq)]
    exact h q

theorem EachTask.ownMove (h : EachTask P s) (hi : i < s.size) (hc : s.pc i = c₀)
    (hwaits : ∀ q, c.waits q = c₀.waits q) (hm : P i c.phase m (s.waiting i)) :
    EachTask P ((s.setMem i m).setPc i c) := by
  subst hc
  intro q
  rw [setPc_waiting_eq (s := s.setMem i m) hi (hwaits q), setMem_waiting, setPc_mem]
  by_cases hq : q = i
  · subst hq
    rwa [setPc_self, setMem_self]
  · rw [setPc_ne hq, setMem_ne hq]
    exact h q

theorem EachTask.pcMove (h : EachTask P s) (hi : i < s.size) (hc : s.pc i = c₀)
    (hwaits : ∀ q, c.waits q = c₀.waits q) (hphase : c.phase = c₀.phase) :
    EachTask P (s.setPc i c) := by
  have hown : P i c.phase (s.mem i) (s.waiting i) := by
    rw [hphase, ← hc]
    exact h i
  have hmove := h.ownMove hi hc hwaits hown
  rwa [setMem_eq] at hmove

theorem EachTask.memMove (h : EachTask P s) (hp : P p (s.pc p).phase m (s.waiting p)) :
    EachTask P (s.setMem p m) := by
  intro q
  rw [setMem_pc, setMem_waiting]
  by_cases hq : q = p
  · subst hq
    rwa [setMem_self]
  · rw [setMem_ne hq]
    exact h q

theorem push_waiting (hw : ∀ q, c.waits q = false) (q : Nat) :
    (s.push c m).waiting q = s.waiting q := by
  show Nat.count (fun j => (Function.update s.pc s.size c j).waits q = true) (s.size + 1) = _
  rw [Nat.count_succ, count_update_of_le (Nat.le_refl _), Function.update_self, hw,
    if_neg Bool.false_ne_true]
  rfl

theorem EachTask.push (h : EachTask P s) (hw : ∀ q, c.waits q = false)
    (hm : P s.size c.phase m (s.waiting s.size)) : EachTask P (s.push c m) := by
  intro q
  rw [push_waiting hw]
  by_cases hq : q = s.size
  · subst hq
    rwa [push_pc_self, push_mem_self]
  · rw [push_pc_ne hq, push_mem_ne hq]
    exact h q

end

/-! ## The table of tasks -/

structure Wf (s : State) : Prop where
  lt_size : ∀ i, s.pc i ≠ .gone → i < s.size
  target_linked : ∀ i p j, s.pc i = .join p j → (s.pc p).linked = true
  hashed_linked : ∀ p, (s.mem p).hashed = true → (s.pc p).linked = true
  alive_le : s.alive ≤ pidMaxLimit

theorem Wf.linked_lt {s : State} (hw : Wf s) {p : Nat} (h : (s.pc p).linked = true) :
    p < s.size := by
  apply hw.lt_size
  intro hgone
  rw [hgone] at h
  cases h

theorem Wf.waiting_le {s : State} (hw : Wf s) (p : Nat) : s.waiting p ≤ pidMaxLimit :=
  (waiting_le_alive s p).trans hw.alive_le

theorem Pc.eq_join_of_waits {c : Pc} {p : Nat} (h : c.waits p = true) : ∃ j, c = .join p j := by
  cases c with
  | join q j =>
    cases j with
    | lock => cases h
    | check => cases h
    | _ => exact ⟨_, by rw [of_decide_eq_true h]⟩
  | _ => cases h

theorem Wf.waiting_size {s : State} (hw : Wf s) : s.waiting s.size = 0 := by
  refine Nat.count_iff_forall_not.mpr fun i _ hi => ?_
  obtain ⟨j, hj⟩ := Pc.eq_join_of_waits hi
  exact Nat.lt_irrefl _ (hw.linked_lt (hw.target_linked i s.size j hj))

section
variable {s : State} {i p : Nat} {c c₀ : Pc} {m : TaskStruct}

theorem linked_move (hc : s.pc i = c₀) (hlink : c₀.linked = true → c.linked = true) {q : Nat}
    (hq : (s.pc q).linked = true) : (((s.setMem p m).setPc i c).pc q).linked = true := by
  by_cases hqi : q = i
  · rw [hqi, setPc_self]
    exact hlink (by rw [← hc, ← hqi]; exact hq)
  · rwa [setPc_ne hqi]

variable (hw : Wf s)
include hw

theorem Wf.lt (hc : s.pc i = c₀) (hc₀ : c₀.alive = true) : i < s.size := by
  apply hw.lt_size
  rintro hgone
  rw [hc.symm.trans hgone] at hc₀
  cases hc₀

theorem Wf.move (hc : s.pc i = c₀) (hc₀ : c₀.alive = true)
    (hlink : c₀.linked = true → c.linked = true)
    (htarget : ∀ q j, c = .join q j → (s.pc q).linked = true)
    (hm : m.hashed = true → (((s.setMem p m).setPc i c).pc p).linked = true) :
    Wf ((s.setMem p m).setPc i c) where
  lt_size j hj := by
    by_cases hji : j = i
    · rw [hji]
      exact hw.lt hc hc₀
    · rw [setPc_ne hji] at hj
      exact hw.lt_size j hj
  target_linked j q l hj := by
    apply linked_move hc hlink
    by_cases hji : j = i
    · rw [hji, setPc_self] at hj
      exact htarget q l hj
    · rw [setPc_ne hji] at hj
      exact hw.target_linked j q l hj
  hashed_linked q hq := by
    by_cases hqp : q = p
    · subst hqp
      rw [setPc_mem, setMem_self] at hq
      exact hm hq
    · rw [setPc_mem, setMem_ne hqp] at hq
      exact linked_move hc hlink (hw.hashed_linked q hq)
  alive_le := by
    have hcount := setPc_alive (s := s.setMem p m) (c := c) (hw.lt hc hc₀)
    have hsame : (s.setMem p m).alive = s.alive := rfl
    rw [setMem_pc, hc, hc₀, Bool.toNat_true, hsame] at hcount
    have hle := hw.alive_le
    have hone := Bool.toNat_le c.alive
    omega

theorem Wf.ownMove (hc : s.pc i = c₀) (hc₀ : c₀.alive = true) (hl : c.linked = true)
    (hj : ∀ q j, c ≠ .join q j) : Wf ((s.setMem i m).setPc i c) := by
  refine hw.move hc hc₀ (fun _ => hl) (fun q j h => absurd h (hj q j)) fun _ => ?_
  rwa [setPc_self]

theorem Wf.pcMove (hc : s.pc i = c₀) (hc₀ : c₀.alive = true)
    (hlink : c₀.linked = true → c.linked = true)
    (htarget : ∀ q j, c = .join q j → (s.pc q).linked = true) : Wf (s.setPc i c) := by
  have h := hw.move (p := i) (m := s.mem i) hc hc₀ hlink htarget
    fun h => linked_move hc hlink (hw.hashed_linked i h)
  rwa [setMem_eq] at h

theorem Wf.joinMove {j : JoinPc} (hc : s.pc i = .join p j) (hl : c.linked = true)
    (htarget : ∀ q l, c = .join q l → q = p) (hm : m.hashed = (s.mem p).hashed) :
    Wf ((s.setMem p m).setPc i c) := by
  have hlink : (Pc.join p j).linked = true → c.linked = true := fun _ => hl
  apply hw.move hc rfl hlink
  · intro q l hq
    rw [htarget q l hq]
    exact hw.target_linked i p j hc
  · exact fun h => linked_move hc hlink (hw.hashed_linked p (hm ▸ h))

end

theorem Wf.memMove {s : State} (hw : Wf s) {p : Nat} {m : TaskStruct}
    (hm : m.hashed = true → (s.pc p).linked = true) : Wf (s.setMem p m) where
  lt_size := hw.lt_size
  target_linked := hw.target_linked
  hashed_linked q hq := by
    by_cases hqp : q = p
    · subst hqp
      rw [setMem_self] at hq
      exact hm hq
    · rw [setMem_ne hqp] at hq
      exact hw.hashed_linked q hq
  alive_le := hw.alive_le

theorem Wf.push {s : State} (hw : Wf s) {i : Nat} {j : BirthPc} {m : TaskStruct}
    (hm : m.hashed = false) (hroom : s.alive < pidMaxLimit) : Wf (s.push (.born i j) m) where
  lt_size k hk := by
    by_cases hks : k = s.size
    · rw [hks]
      exact Nat.lt_succ_self _
    · exact Nat.lt_succ_of_lt (hw.lt_size k (by rwa [push_pc_ne hks] at hk))
  target_linked k p l hk := by
    by_cases hks : k = s.size
    · rw [hks, push_pc_self] at hk
      cases hk
    · rw [push_pc_ne hks] at hk
      have hp := hw.target_linked k p l hk
      rwa [push_pc_ne (Nat.ne_of_lt (hw.linked_lt hp))]
  hashed_linked q hq := by
    by_cases hqs : q = s.size
    · rw [hqs, push_mem_self, hm] at hq
      cases hq
    · rw [push_mem_ne hqs] at hq
      rw [push_pc_ne hqs]
      exact hw.hashed_linked q hq
  alive_le := by
    show Nat.count (fun j => (Function.update s.pc s.size _ j).alive = true) (s.size + 1) ≤ _
    rw [Nat.count_succ, count_update_of_le (Nat.le_refl _), Function.update_self]
    exact hroom

/-- The end of `copy_process`: the child and then the parent move. -/
theorem Wf.pairMove {s : State} (hw : Wf s) {i c : Nat} {j : BirthPc} {x : Pc}
    (hc : s.pc c = .born i j) (hi : s.pc i = .fork c)
    (hlink : (Pc.born i j).linked = true → x.linked = true) (hx : ∀ q l, x ≠ .join q l) :
    Wf ((s.setPc c x).setPc i .user) := by
  have hchild := hw.pcMove (c := x) hc rfl hlink fun q l h => absurd h (hx q l)
  have hne : i ≠ c := by
    rintro rfl
    cases hc.symm.trans hi
  exact hchild.pcMove ((setPc_ne hne).trans hi) rfl (fun _ => rfl) nofun

/-- **Every step keeps the table.** -/
theorem Wf.step {s t : State} {a : Act} (hw : Wf s) (hs : Step s a t) : Wf t := by
  have hstay {p : Nat} {j : JoinPc} (q : Nat) (l : JoinPc) (h : Pc.join p j = .join q l) : q = p :=
    (Pc.join.inj h).1.symm
  cases hs with
  | joinNotFound _ => exact hw
  | @join i p hc hp =>
    apply hw.pcMove hc rfl fun _ => rfl
    rintro q j ⟨⟩
    exact hw.hashed_linked p hp
  | lock hc _ => exact hw.joinMove hc rfl hstay rfl
  | checkExiting hc _ => exact hw.pcMove hc rfl (fun _ => rfl) nofun
  | checkCount hc _ => exact hw.joinMove hc rfl hstay rfl
  | unlock hc => exact hw.joinMove hc rfl hstay rfl
  | down hc _ => exact hw.joinMove hc rfl nofun rfl
  | sleep hc _ => exact hw.joinMove hc rfl hstay rfl
  | wake hc _ _ => exact hw.joinMove hc rfl hstay rfl
  | @zombify i p _ hp => exact hw.memMove fun _ => hw.hashed_linked p hp
  | @dup i hc hroom =>
    apply (hw.pcMove (c := .fork s.size) hc rfl (fun _ => rfl) nofun).push rfl
    have hcount := setPc_alive (c := .fork s.size) (hw.lt hc rfl)
    rw [hc] at hcount
    rwa [show (s.setPc i (.fork s.size)).alive = s.alive from Nat.add_right_cancel hcount]
  | forkFail hc hi => exact hw.pairMove hc hi nofun nofun
  | attach hc => exact hw.ownMove hc rfl rfl nofun
  | semaInit hc => exact hw.ownMove hc rfl rfl nofun
  | joinedInit hc => exact hw.ownMove hc rfl rfl nofun
  | forkReturn hc hi => exact hw.pairMove hc hi (fun _ => rfl) nofun
  | exit hc => exact hw.pcMove hc rfl (fun _ => rfl) nofun
  | exitLock hc _ => exact hw.ownMove hc rfl rfl nofun
  | exitFlag hc => exact hw.ownMove hc rfl rfl nofun
  | exitUp hc _ => exact hw.ownMove hc rfl rfl nofun
  | exitReset hc _ => exact hw.ownMove hc rfl rfl nofun
  | exitUnlock hc => exact hw.ownMove hc rfl rfl nofun
  | release hc => exact hw.memMove nofun

/-! ## What a step does to a task -/

/-- What a step can do to task `q`: to its phase, its join fields and its callers. -/
inductive Change (s : State) (q : Nat) : Act → Phase → TaskStruct → Nat → Prop where
  | kept {a : Act} {ph : Phase} {m : TaskStruct} : (s.pc q).phase = ph →
      m.pfExiting = (s.mem q).pfExiting → m.joinSemaphore = (s.mem q).joinSemaphore →
      m.joinedProcesses = (s.mem q).joinedProcesses → Change s q a ph m (s.waiting q)
  | count {i : Nat} : s.pc i = .join q .check → (s.mem q).pfExiting = false →
      Change s q (.check i) (s.pc q).phase
        { s.mem q with joinedProcesses := CInt.sizeT ((s.mem q).joinedProcesses + 1) }
        (s.waiting q + 1)
  | down {a : Act} {w : Nat} : 0 < (s.mem q).joinSemaphore → w + 1 = s.waiting q →
      Change s q a (s.pc q).phase
        { s.mem q with joinSemaphore := (s.mem q).joinSemaphore - 1 } w
  -- the fields are those of the parent
  | dup {a : Act} {i : Nat} : s.pc i = .user → s.waiting q = 0 →
      Change s q a .fresh (s.mem i).dup (s.waiting q)
  | semaInit : (s.pc q).phase = .fresh →
      Change s q (.semaInit q) .fresh { s.mem q with joinSemaphore := 0, waitQueue := [] }
        (s.waiting q)
  | joinedInit : (s.pc q).phase = .fresh →
      Change s q (.joinedInit q) .joinable { s.mem q with joinedProcesses := 0 } (s.waiting q)
  | flag {a : Act} : (s.pc q).phase = .joinable →
      Change s q a (.loop 0) { s.mem q with pfExiting := true } (s.waiting q)
  | up {a : Act} {k : Int} : (s.pc q).phase = .loop k →
      CInt.sizeT k < (s.mem q).joinedProcesses →
      Change s q a (.loop (CInt.intW 32 (k + 1)))
        { s.mem q with joinSemaphore := (s.mem q).joinSemaphore + 1 } (s.waiting q)
  | reset {a : Act} {k : Int} : (s.pc q).phase = .loop k →
      ¬ CInt.sizeT k < (s.mem q).joinedProcesses →
      Change s q a .done { s.mem q with joinedProcesses := 0 } (s.waiting q)

theorem waits_ne {p q : Nat} (h : q ≠ p) : decide (p = q) = false := decide_eq_false h.symm

theorem EachTask.pairMove {P : Nat → Phase → TaskStruct → Nat → Prop} {s : State}
    (h : EachTask P s) (hw : Wf s) {i c : Nat} {j : BirthPc} {x : Pc} (hc : s.pc c = .born i j)
    (hi : s.pc i = .fork c) (hwaits : ∀ q, x.waits q = false)
    (hphase : x.phase = (Pc.born i j).phase) : EachTask P ((s.setPc c x).setPc i .user) := by
  have hne : i ≠ c := by
    rintro rfl
    cases hc.symm.trans hi
  have hchild := h.pcMove (hw.lt hc rfl) hc hwaits hphase
  exact hchild.pcMove (hw.lt hi rfl) ((setPc_ne hne).trans hi) (fun _ => rfl) rfl

/-- **Every step is one of these changes to every task.** -/
theorem Step.change {s t : State} {a : Act} (hs : Step s a t) (hw : Wf s) :
    EachTask (fun q => Change s q a) t := by
  have hkept : EachTask (fun q => Change s q a) s := fun q => .kept rfl rfl rfl rfl
  have hphase {i : Nat} {c : Pc} {ph : Phase} (hc : s.pc i = c) (hph : c.phase = ph) :
      (s.pc i).phase = ph := by rw [hc, hph]
  cases hs with
  | joinNotFound _ => exact hkept
  | join hc _ => exact hkept.pcMove (hw.lt hc rfl) hc (fun _ => rfl) rfl
  | lock hc _ =>
    refine hkept.joinMove (hw.lt hc rfl) hc rfl (fun _ _ => rfl) ?_
    rintro w ⟨⟩
    exact .kept rfl rfl rfl rfl
  | checkExiting hc _ => exact hkept.pcMove (hw.lt hc rfl) hc (fun _ => rfl) rfl
  | @checkCount i p hc hx =>
    refine hkept.joinMove (hw.lt hc rfl) hc rfl (fun q hq => waits_ne hq) ?_
    intro w hwait
    obtain rfl : w = s.waiting p + 1 := by simpa [Pc.waits] using hwait
    exact .count hc hx
  | @unlock i p hc =>
    refine hkept.joinMove (hw.lt hc rfl) hc rfl (fun _ _ => rfl) ?_
    intro w hwait
    obtain rfl : w = s.waiting p := by simpa [Pc.waits] using hwait
    exact .kept rfl rfl rfl rfl
  | @down i p hc htoken =>
    refine hkept.joinMove (hw.lt hc rfl) hc rfl (fun q hq => (waits_ne hq).symm) ?_
    intro w hwait
    exact .down htoken (by simpa [Pc.waits] using hwait)
  | @sleep i p hc _ =>
    refine hkept.joinMove (hw.lt hc rfl) hc rfl (fun _ _ => rfl) ?_
    intro w hwait
    obtain rfl : w = s.waiting p := by simpa [Pc.waits] using hwait
    exact .kept rfl rfl rfl rfl
  | @wake i p hc _ _ =>
    refine hkept.joinMove (hw.lt hc rfl) hc rfl (fun _ _ => rfl) ?_
    intro w hwait
    obtain rfl : w = s.waiting p := by simpa [Pc.waits] using hwait
    exact .kept rfl rfl rfl rfl
  | zombify _ _ => exact hkept.memMove (.kept rfl rfl rfl rfl)
  | @dup i hc _ =>
    have hsame := setPc_waiting_eq (s := s) (c := .fork s.size) (q := s.size) (hw.lt hc rfl)
      (by rw [hc]; rfl)
    have hfork : EachTask (fun q => Change s q (.dup i)) (s.setPc i (.fork s.size)) :=
      hkept.pcMove (hw.lt hc rfl) hc (fun _ => rfl) rfl
    refine hfork.push (c := .born i .attach) (fun _ => rfl) ?_
    rw [setPc_size, hsame]
    exact .dup hc hw.waiting_size
  | forkFail hc hp => exact hkept.pairMove hw hc hp (fun _ => rfl) rfl
  | attach hc =>
    exact hkept.ownMove (hw.lt hc rfl) hc (fun _ => rfl) (.kept (hphase hc rfl) rfl rfl rfl)
  | semaInit hc => exact hkept.ownMove (hw.lt hc rfl) hc (fun _ => rfl) (.semaInit (hphase hc rfl))
  | joinedInit hc =>
    exact hkept.ownMove (hw.lt hc rfl) hc (fun _ => rfl) (.joinedInit (hphase hc rfl))
  | forkReturn hc hp => exact hkept.pairMove hw hc hp (fun _ => rfl) rfl
  | exit hc => exact hkept.pcMove (hw.lt hc rfl) hc (fun _ => rfl) rfl
  | exitLock hc _ =>
    exact hkept.ownMove (hw.lt hc rfl) hc (fun _ => rfl) (.kept (hphase hc rfl) rfl rfl rfl)
  | exitFlag hc => exact hkept.ownMove (hw.lt hc rfl) hc (fun _ => rfl) (.flag (hphase hc rfl))
  | exitUp hc hlt => exact hkept.ownMove (hw.lt hc rfl) hc (fun _ => rfl) (.up (hphase hc rfl) hlt)
  | exitReset hc hge =>
    exact hkept.ownMove (hw.lt hc rfl) hc (fun _ => rfl) (.reset (hphase hc rfl) hge)
  | exitUnlock hc =>
    exact hkept.ownMove (hw.lt hc rfl) hc (fun _ => rfl) (.kept (hphase hc rfl) rfl rfl rfl)
  | release hc => exact hkept.memMove (.kept rfl rfl rfl rfl)

/-! ## The fields of a task -/

/-- What the join fields of a task hold in each phase, with `w` callers that are counted. -/
def TaskInv : Phase → TaskStruct → Nat → Prop
  | .fresh, m, w =>
    m.pfExiting = false ∧ m.joinSemaphore = 0 ∧ m.joinedProcesses ≤ pidMaxLimit + w
  | .joinable, m, w => m.pfExiting = false ∧ m.joinSemaphore = 0 ∧ m.joinedProcesses ≤ w
  | .loop i, m, _ => m.pfExiting = true ∧
    ∃ k : Nat, i = k ∧ k ≤ m.joinedProcesses ∧ m.joinedProcesses ≤ pidMaxLimit
  | .done, m, _ => m.pfExiting = true ∧ m.joinedProcesses = 0

/-- Every caller that is counted has a token, or will be given one by the task as it exits. -/
def Backed : Phase → TaskStruct → Nat → Prop
  | .loop i, m, w => (w : Int) + i ≤ m.joinSemaphore + m.joinedProcesses
  | .done, m, w => w ≤ m.joinSemaphore
  | _, m, w => w ≤ m.joinedProcesses

structure Inv (s : State) : Prop where
  wf : Wf s
  tasks : AllTasks TaskInv s

theorem inv_init : Inv State.init where
  wf := {
    lt_size i hi := by
      by_cases h : i = 0
      · rw [h]
        exact Nat.one_pos
      · exact absurd (if_neg h) hi
    target_linked i p j hj := by
      by_cases h : i = 0
      · cases (if_pos h : State.init.pc i = .user).symm.trans hj
      · cases (if_neg h : State.init.pc i = .gone).symm.trans hj
    hashed_linked p hp := by
      rw [of_decide_eq_true hp]
      rfl
    alive_le := by decide }
  tasks q := by
    by_cases h : q = 0
    · rw [show State.init.pc q = .user from if_pos h]
      exact ⟨rfl, rfl, Nat.zero_le _⟩
    · rw [show State.init.pc q = .gone from if_neg h]
      exact ⟨rfl, rfl, Nat.zero_le _⟩

theorem TaskInv.congr {ph : Phase} {m m' : TaskStruct} {w : Nat} (h : TaskInv ph m w)
    (hx : m'.pfExiting = m.pfExiting) (hs : m'.joinSemaphore = m.joinSemaphore)
    (hj : m'.joinedProcesses = m.joinedProcesses) : TaskInv ph m' w := by
  cases ph with
  | fresh => exact ⟨hx.trans h.1, hs.trans h.2.1, hj ▸ h.2.2⟩
  | joinable => exact ⟨hx.trans h.1, hs.trans h.2.1, hj ▸ h.2.2⟩
  | loop i => exact ⟨hx.trans h.1, hj ▸ h.2⟩
  | done => exact ⟨hx.trans h.1, hj.trans h.2⟩

theorem Backed.congr {ph : Phase} {m m' : TaskStruct} {w : Nat} (h : Backed ph m w)
    (hs : m'.joinSemaphore = m.joinSemaphore) (hj : m'.joinedProcesses = m.joinedProcesses) :
    Backed ph m' w := by
  cases ph <;> simpa only [Backed, hs, hj] using h

/-- The counter of the loop is an `int` that is compared with a `size_t`. -/
theorem loop_sizeT {k n : Nat} (hk : k ≤ n) (hn : n ≤ pidMaxLimit) : CInt.sizeT (k : Int) = k := by
  unfold pidMaxLimit at hn
  exact CInt.uintW_of_lt (by omega)

theorem loop_succ {k n : Nat} (hk : k < n) (hn : n ≤ pidMaxLimit) :
    CInt.intW 32 ((k : Int) + 1) = ((k + 1 : Nat) : Int) := by
  unfold pidMaxLimit at hn
  exact_mod_cast CInt.intW_of_lt (w := 32) (n := k + 1) (by omega)

theorem TaskInv.count {ph : Phase} {m : TaskStruct} {w : Nat} (h : TaskInv ph m w)
    (hx : m.pfExiting = false) (hw : w ≤ pidMaxLimit) :
    CInt.sizeT ((m.joinedProcesses : Int) + 1) = m.joinedProcesses + 1 ∧
      TaskInv ph { m with joinedProcesses := m.joinedProcesses + 1 } (w + 1) := by
  have hsize (hle : m.joinedProcesses ≤ pidMaxLimit + w) :
      CInt.sizeT ((m.joinedProcesses : Int) + 1) = m.joinedProcesses + 1 := by
    unfold pidMaxLimit at hle hw
    exact_mod_cast CInt.uintW_of_lt (w := 64) (n := m.joinedProcesses + 1) (by omega)
  cases ph with
  | fresh => exact ⟨hsize h.2.2, h.1, h.2.1, by have := h.2.2; dsimp only; omega⟩
  | joinable =>
    exact ⟨hsize (by have := h.2.2; omega), h.1, h.2.1, Nat.succ_le_succ h.2.2⟩
  | loop i => cases hx.symm.trans h.1
  | done => cases hx.symm.trans h.1

/-- A caller returns with a token: the task has given some out, so it is exiting. -/
theorem TaskInv.down {ph : Phase} {m : TaskStruct} {w : Nat} (h : TaskInv ph m w)
    (htoken : 0 < m.joinSemaphore) (w' : Nat) : m.pfExiting = true ∧
      TaskInv ph { m with joinSemaphore := m.joinSemaphore - 1 } w' := by
  cases ph with
  | fresh => exact absurd h.2.1 (by omega)
  | joinable => exact absurd h.2.1 (by omega)
  | loop i => exact ⟨h.1, h⟩
  | done => exact ⟨h.1, h⟩

theorem TaskInv.change {s : State} (hw : Wf s) (h : AllTasks TaskInv s) {q : Nat} {a : Act}
    {ph : Phase} {m : TaskStruct} {w : Nat} (hc : Change s q a ph m w) : TaskInv ph m w := by
  have hq := h q
  cases hc with
  | kept hph hx hs hj =>
    rw [hph] at hq
    exact hq.congr hx hs hj
  | count _ hx =>
    obtain ⟨hsize, hcount⟩ := hq.count hx (hw.waiting_le q)
    exact hcount.congr rfl rfl (by exact_mod_cast hsize)
  | down htoken _ => exact (hq.down htoken _).2
  | @dup _ i hi _ =>
    obtain ⟨hx, htokens, hjoined⟩ := h.at_pc hi
    exact ⟨hx, htokens, (hjoined.trans (hw.waiting_le i)).trans (Nat.le_add_right _ _)⟩
  | semaInit hph =>
    rw [hph] at hq
    exact ⟨hq.1, rfl, hq.2.2⟩
  | joinedInit hph =>
    rw [hph] at hq
    exact ⟨hq.1, hq.2.1, Nat.zero_le _⟩
  | flag hph =>
    rw [hph] at hq
    exact ⟨rfl, 0, rfl, Nat.zero_le _, hq.2.2.trans (hw.waiting_le q)⟩
  | up hph hlt =>
    rw [hph] at hq
    obtain ⟨hx, k, rfl, hk, hn⟩ := hq
    rw [loop_sizeT hk hn] at hlt
    exact ⟨hx, k + 1, loop_succ hlt hn, hlt, hn⟩
  | reset hph _ =>
    rw [hph] at hq
    exact ⟨hq.1, rfl⟩

/-- **Every step keeps the invariant.** -/
theorem Inv.step {s t : State} {a : Act} (hi : Inv s) (hs : Step s a t) : Inv t :=
  ⟨hi.wf.step hs, fun q => TaskInv.change hi.wf hi.tasks (hs.change hi.wf q)⟩

theorem inv_run {tr : List (State × Act)} {t : State} (h : Run Step State.init tr t) : Inv t :=
  h.invariant (fun _ _ _ hi hs => hi.step hs) inv_init

/-! ## No token before the exit -/

/-- **A join never succeeds early**: when a call returns from `down`, the task it joined with has
set `PF_EXITING` and is in `do_exit`. -/
theorem join_not_early {tr : List (State × Act)} {t u : State} (h : Run Step State.init tr t)
    {i p : Nat} (hc : t.pc i = .join p .down) (hs : Step t (.down i) u) :
    (u.mem p).pfExiting = true ∧ ∃ e, t.pc p = .exit e := by
  have hi := inv_run h
  cases hs with
  | @down _ q hq htoken =>
    obtain ⟨rfl, -⟩ := Pc.join.inj (hc.symm.trans hq)
    have htask := hi.tasks p
    have hx := (htask.down htoken 0).1
    refine ⟨?_, ?_⟩
    · rw [setPc_mem, setMem_self]
      exact hx
    · cases hpc : t.pc p with
      | exit e => exact ⟨e, rfl⟩
      | born q j =>
        rw [hpc] at htask
        cases j <;> cases hx.symm.trans htask.1
      | _ => rw [hpc] at htask; cases hx.symm.trans htask.1

/-- Task 0 joins with task 1, which exits. -/
theorem join_not_early_one : ∃ tr t u, Run Step State.init tr t ∧ Step t (.down 0) u ∧
    t.pc 0 = .join 1 .down ∧ (u.mem 1).pfExiting = true ∧ ∃ e, t.pc 1 = .exit e := by
  have hrun : Run Step State.init _ _ := .cons (.dup (i := 0) rfl (by decide)) <|
    .cons (.attach (c := 1) rfl) <| .cons (.semaInit (c := 1) rfl) <|
    .cons (.joinedInit (c := 1) rfl) <| .cons (.forkReturn (c := 1) rfl rfl) <|
    .cons (.join (i := 0) (p := 1) rfl rfl) <| .cons (.lock (i := 0) rfl rfl) <|
    .cons (.checkCount (i := 0) rfl rfl) <| .cons (.unlock (i := 0) rfl) <|
    .cons (.exit (i := 1) rfl) <| .cons (.exitLock (i := 1) rfl rfl) <|
    .cons (.exitFlag (i := 1) rfl) <| .cons (.exitUp (i := 1) rfl (by decide)) (.nil _)
  exact ⟨_, _, _, hrun, .down (i := 0) rfl (by decide), rfl,
    join_not_early hrun (i := 0) rfl (.down rfl (by decide))⟩

/-! ## No caller is forgotten -/

/-- Every caller that sleeps in `down` is on the wait queue that `up` looks at. -/
def Queued (s : State) : Prop := ∀ i p, s.pc i = .join p .asleep → i ∈ (s.mem p).waitQueue

/-- What a caller that is counted relies on. -/
structure Registered (s : State) : Prop where
  backed : AllTasks Backed s
  queued : Queued s

/-- The step does not initialise the count or the semaphore of a task that callers are counted
for. -/
def ResetFree (s : State) (a : Act) : Prop :=
  ∀ c, a = .semaInit c ∨ a = .joinedInit c → s.waiting c = 0

/-- The step does not count a caller for a task whose join fields are still to be initialised. -/
def CountAct (s : State) (a : Act) : Prop :=
  ∀ i p, a = .check i → s.pc i = .join p .check → (s.mem p).pfExiting = false →
    (s.pc p).uninit = false

/-- No caller is counted for a task that `copy_process` has not initialised. -/
def Unseen : Phase → TaskStruct → Nat → Prop
  | .fresh, _, w => w = 0
  | _, _, _ => True

theorem Backed.count {ph : Phase} {m : TaskStruct} {w : Nat} (h : Backed ph m w)
    (hinv : TaskInv ph m w) (hx : m.pfExiting = false) :
    Backed ph { m with joinedProcesses := m.joinedProcesses + 1 } (w + 1) := by
  cases ph with
  | fresh => exact Nat.succ_le_succ h
  | joinable => exact Nat.succ_le_succ h
  | loop i => cases hx.symm.trans hinv.1
  | done => cases hx.symm.trans hinv.1

theorem Backed.down {ph : Phase} {m : TaskStruct} {w w' : Nat} (h : Backed ph m w)
    (hinv : TaskInv ph m w) (htoken : 0 < m.joinSemaphore) (hw : w' + 1 = w) :
    Backed ph { m with joinSemaphore := m.joinSemaphore - 1 } w' := by
  cases ph with
  | fresh => exact absurd hinv.2.1 (by omega)
  | joinable => exact absurd hinv.2.1 (by omega)
  | loop i =>
    simp only [Backed] at h ⊢
    omega
  | done =>
    simp only [Backed] at h ⊢
    omega

/-- The callers that are counted stay so through every change but one. -/
theorem Backed.change {s : State} (hi : Inv s) (hg : AllTasks Backed s) {q : Nat} {a : Act}
    (ha : ResetFree s a) {ph : Phase} {m : TaskStruct} {w : Nat} (hc : Change s q a ph m w) :
    Backed ph m w := by
  have hq := hg q
  have ht := hi.tasks q
  cases hc with
  | kept hph _ hs hj =>
    rw [hph] at hq
    exact hq.congr hs hj
  | count _ hx =>
    have hsize := (ht.count hx (hi.wf.waiting_le q)).1
    exact (hq.count ht hx).congr rfl (by exact_mod_cast hsize)
  | down htoken hw => exact hq.down ht htoken hw
  | dup _ hnone =>
    rw [hnone]
    exact Nat.zero_le _
  | semaInit hph =>
    rw [hph] at hq
    exact hq
  | joinedInit _ => exact Nat.le_zero.mpr (ha q (.inr rfl))
  | flag hph =>
    rw [hph] at hq
    simp only [Backed] at hq ⊢
    omega
  | up hph hlt =>
    rw [hph] at hq ht
    obtain ⟨_, k, rfl, hk, hn⟩ := ht
    rw [loop_sizeT hk hn] at hlt
    simp only [Backed, loop_succ hlt hn] at hq ⊢
    omega
  | reset hph hge =>
    rw [hph] at hq ht
    obtain ⟨_, k, rfl, hk, hn⟩ := ht
    rw [loop_sizeT hk hn] at hge
    simp only [Backed] at hq ⊢
    omega

section
variable {s : State} {i p : Nat} {c : Pc} {m : TaskStruct}

theorem Queued.move (hq : Queued s)
    (hc : ∀ q, c = .join q .asleep → i ∈ ((s.setMem p m).mem q).waitQueue)
    (hm : ∀ j, j ≠ i → s.pc j = .join p .asleep → j ∈ (s.mem p).waitQueue → j ∈ m.waitQueue) :
    Queued ((s.setMem p m).setPc i c) := by
  intro j q hj
  rw [setPc_mem]
  by_cases hji : j = i
  · subst hji
    rw [setPc_self] at hj
    exact hc q hj
  · rw [setPc_ne hji] at hj
    by_cases hqp : q = p
    · subst hqp
      rw [setMem_self]
      exact hm j hji hj (hq j q hj)
    · rw [setMem_ne hqp]
      exact hq j q hj

theorem Queued.pcMove (hq : Queued s) (hc : ∀ q, c ≠ .join q .asleep) : Queued (s.setPc i c) := by
  have h := hq.move (i := i) (p := i) (m := s.mem i) (fun q h => absurd h (hc q)) fun _ _ _ h => h
  rwa [setMem_eq] at h

theorem Queued.memMove (hq : Queued s) (hm : m.waitQueue = (s.mem p).waitQueue) :
    Queued (s.setMem p m) := by
  intro j q hj
  by_cases hqp : q = p
  · subst hqp
    rw [setMem_self, hm]
    exact hq j q hj
  · rw [setMem_ne hqp]
    exact hq j q hj

theorem Queued.pairMove {j : Nat} (hq : Queued s) (hc : ∀ q, c ≠ .join q .asleep) :
    Queued ((s.setPc j c).setPc i .user) :=
  Queued.pcMove (hq.pcMove hc) nofun

theorem Queued.push (hq : Queued s) (hw : Wf s) (hc : ∀ q, c ≠ .join q .asleep) :
    Queued (s.push c m) := by
  intro j q hj
  by_cases hjs : j = s.size
  · rw [hjs, push_pc_self] at hj
    exact absurd hj (hc q)
  · rw [push_pc_ne hjs] at hj
    have hlt := hw.linked_lt (hw.target_linked j q .asleep hj)
    rw [push_mem_ne (Nat.ne_of_lt hlt)]
    exact hq j q hj

theorem Wf.not_asleep (hw : Wf s) (hnone : s.waiting p = 0) (j : Nat) :
    s.pc j ≠ .join p .asleep := by
  intro hj
  refine Nat.count_iff_forall_not.mp hnone j (hw.lt hj rfl) ?_
  rw [hj]
  exact decide_eq_true rfl

end

/-- **A caller leaves the wait queue only to try again**, unless the queue is initialised. -/
theorem Queued.step {s t : State} {a : Act} (hq : Queued s) (hw : Wf s) (hs : Step s a t)
    (ha : ResetFree s a) : Queued t := by
  have hsame {i p : Nat} (j : Nat) (_ : j ≠ i) (_ : s.pc j = .join p .asleep)
      (h : j ∈ (s.mem p).waitQueue) : j ∈ (s.mem p).waitQueue := h
  cases hs with
  | joinNotFound _ => exact hq
  | join _ _ => exact hq.pcMove nofun
  | lock _ _ => exact hq.move nofun hsame
  | checkExiting _ _ => exact hq.pcMove nofun
  | checkCount _ _ => exact hq.move nofun hsame
  | unlock _ => exact hq.move nofun hsame
  | down _ _ => exact hq.move nofun hsame
  | sleep _ _ =>
    refine hq.move ?_ fun j _ _ h => List.mem_append_left _ h
    rintro q ⟨⟩
    rw [setMem_self]
    exact List.mem_append_right _ (List.mem_singleton_self _)
  | wake _ _ _ => exact hq.move nofun fun j hj _ h => (List.mem_erase_of_ne hj).mpr h
  | zombify _ _ => exact hq.memMove rfl
  | @dup i hc _ =>
    have hfork : Queued (s.setPc i (.fork s.size)) := hq.pcMove nofun
    exact hfork.push (hw.pcMove hc rfl (fun _ => rfl) nofun) nofun
  | forkFail _ _ => exact hq.pairMove nofun
  | attach _ => exact hq.move nofun hsame
  | @semaInit i c hc =>
    exact hq.move nofun fun j _ hj _ => absurd hj (hw.not_asleep (ha c (.inl rfl)) j)
  | joinedInit _ => exact hq.move nofun hsame
  | forkReturn _ _ => exact hq.pairMove nofun
  | exit _ => exact hq.pcMove nofun
  | exitLock _ _ => exact hq.move nofun hsame
  | exitFlag _ => exact hq.move nofun hsame
  | exitUp _ _ => exact hq.move nofun hsame
  | exitReset _ _ => exact hq.move nofun hsame
  | exitUnlock _ => exact hq.move nofun hsame
  | release _ => exact hq.memMove rfl

theorem Registered.step {s t : State} {a : Act} (hr : Registered s) (hi : Inv s)
    (hs : Step s a t) (ha : ResetFree s a) : Registered t where
  backed q := Backed.change hi hr.backed ha (hs.change hi.wf q)
  queued := hr.queued.step hi.wf hs ha

/-- Only a caller that is counted there breaks it. -/
theorem Unseen.change {s : State} (hw : Wf s) (hg : AllTasks Unseen s) {q : Nat} {a : Act}
    (ha : CountAct s a) {ph : Phase} {m : TaskStruct} {w : Nat} (hc : Change s q a ph m w) :
    Unseen ph m w := by
  have hq := hg q
  cases hc with
  | kept hph _ _ _ =>
    rw [hph] at hq
    cases ph <;> exact hq
  | @count i hi hx =>
    cases hph : (s.pc q).phase with
    | fresh =>
      have huninit := Pc.uninit_of_fresh (hw.target_linked i q .check hi) hph
      cases huninit.symm.trans (ha i q rfl hi hx)
    | _ => trivial
  | down htoken hwait =>
    cases hph : (s.pc q).phase with
    | fresh =>
      rw [hph] at hq
      exact absurd (hwait.trans hq) (Nat.succ_ne_zero _)
    | _ => trivial
  | dup _ hnone => exact hnone
  | semaInit hph =>
    rw [hph] at hq
    exact hq
  | _ => trivial

theorem Step.resetFree {s t : State} {a : Act} (hs : Step s a t) (hg : AllTasks Unseen s) :
    ResetFree s a := by
  rintro c (rfl | rfl)
  · cases hs with
    | semaInit hc => exact hg.at_pc hc
  · cases hs with
    | joinedInit hc => exact hg.at_pc hc

theorem Unseen.of_change {s : State} (hi : Inv s) {q : Nat} {a : Act} (ha : ResetFree s a)
    {ph : Phase} {m : TaskStruct} {w : Nat} (hc : Change s q a ph m w) (h : Unseen ph m w) :
    Unseen (s.pc q).phase (s.mem q) (s.waiting q) := by
  cases hc with
  | kept hph _ _ _ =>
    rw [hph]
    cases ph <;> exact h
  | count _ _ =>
    cases hph : (s.pc q).phase with
    | fresh =>
      rw [hph] at h
      exact absurd h (Nat.succ_ne_zero _)
    | _ => trivial
  | down htoken _ =>
    -- there is no token before the exit
    have hq := hi.tasks q
    cases hph : (s.pc q).phase with
    | fresh =>
      rw [hph] at hq
      exact absurd hq.2.1 (Nat.ne_of_gt htoken)
    | _ => trivial
  | dup _ hnone =>
    rw [hnone]
    cases (s.pc q).phase with
    | fresh => rfl
    | _ => trivial
  | semaInit hph =>
    rw [hph]
    exact h
  | joinedInit hph =>
    rw [hph]
    exact ha q (.inr rfl)
  | flag hph => rw [hph]; trivial
  | up hph _ => rw [hph]; trivial
  | reset hph _ => rw [hph]; trivial

theorem countAct_of_unseen {s t : State} {a : Act} (hw : Wf s) (hs : Step s a t)
    (h : AllTasks Unseen t) : CountAct s a := by
  rintro i p rfl hi hx
  by_contra huninit
  have hph := Pc.fresh_of_uninit (Bool.not_eq_false _ ▸ huninit)
  cases hs with
  | checkExiting hc hexit =>
    obtain ⟨rfl, -⟩ := Pc.join.inj (hi.symm.trans hc)
    cases hx.symm.trans hexit
  | checkCount hc _ =>
    obtain ⟨rfl, -⟩ := Pc.join.inj (hi.symm.trans hc)
    have hne : p ≠ i := by
      rintro rfl
      rw [hi] at huninit
      exact huninit rfl
    have hnone : Unseen .fresh _ _ := hph ▸ h.at_pc (setPc_ne hne)
    refine Nat.count_iff_forall_not.mp hnone i (hw.lt hi rfl) ?_
    rw [setPc_self]
    exact decide_eq_true rfl

theorem Wf.unseen {s : State} (hw : Wf s) (hend : ∀ c, (s.pc c).uninit = false) :
    AllTasks Unseen s := by
  intro q
  cases hph : (s.pc q).phase with
  | fresh =>
    refine Nat.count_iff_forall_not.mpr fun i _ hi => ?_
    obtain ⟨j, hj⟩ := Pc.eq_join_of_waits hi
    cases (Pc.uninit_of_fresh (hw.target_linked i q j hj) hph).symm.trans (hend q)
  | _ => trivial

theorem registered_init : Registered State.init ∧ AllTasks Unseen State.init := by
  have hnone (q : Nat) : State.init.waiting q = 0 := rfl
  have hpc (i : Nat) : State.init.pc i = .user ∨ State.init.pc i = .gone := by
    by_cases h : i = 0
    · exact .inl (if_pos h)
    · exact .inr (if_neg h)
  refine ⟨⟨fun q => ?_, fun i p hi => ?_⟩, fun q => ?_⟩
  · rw [hnone]
    obtain h | h := hpc q <;> rw [h] <;> exact Nat.zero_le _
  · obtain h | h := hpc i <;> cases h.symm.trans hi
  · rw [hnone]
    obtain h | h := hpc q <;> rw [h]
    · trivial
    · exact rfl

/-- **No registration is erased**, if no caller is counted between `attach_pid` and the two
initialisations: in all states of the run every caller that is counted has a token or gets one
when the task exits, every caller that sleeps is on the wait queue, and `copy_process` initialises
no count and no semaphore under a caller. In a run whose forks are all past the initialisations
this is so in no other case. -/
theorem join_counted_iff {tr : List (State × Act)} {t : State} (h : Run Step State.init tr t) :
    ((∀ p ∈ tr, CountAct p.1 p.2) →
      (∀ p ∈ tr, Registered p.1 ∧ ResetFree p.1 p.2) ∧ Registered t) ∧
    ((∀ c, (t.pc c).uninit = false) →
      (∀ p ∈ tr, Registered p.1 ∧ ResetFree p.1 p.2) ∧ Registered t →
      ∀ p ∈ tr, CountAct p.1 p.2) := by
  constructor
  · intro hcount
    have hgood : ∀ s a t, Inv s ∧ Registered s ∧ AllTasks Unseen s → Step s a t → CountAct s a →
        Inv t ∧ Registered t ∧ AllTasks Unseen t := by
      rintro s a t ⟨hi, hr, hu⟩ hs ha
      exact ⟨hi.step hs, hr.step hi hs (hs.resetFree hu),
        fun q => Unseen.change hi.wf hu ha (hs.change hi.wf q)⟩
    obtain ⟨hmid, hlast⟩ := h.good_of_ok hgood ⟨inv_init, registered_init⟩ hcount
    refine ⟨fun p hp => ⟨(hmid p hp).2.1, ?_⟩, hlast.2.1⟩
    obtain ⟨u, hs⟩ := h.exists_step p hp
    exact hs.resetFree (hmid p hp).2.2
  · rintro hend ⟨hmid, -⟩
    have hinv : ∀ s a t, Inv s → Step s a t → Inv t := fun _ _ _ hi hs => hi.step hs
    have hback : ∀ s a t, Inv s → Step s a t → ResetFree s a → AllTasks Unseen t →
        AllTasks Unseen s ∧ CountAct s a :=
      fun _ _ _ hi hs ha hg =>
        ⟨fun q => Unseen.of_change hi ha (hs.change hi.wf q) (hg q),
          countAct_of_unseen hi.wf hs hg⟩
    exact (h.ok_of_last hinv hback inv_init (fun p hp => (hmid p hp).2)
      ((inv_run h).wf.unseen hend)).2

theorem countAct_check {s : State} {i p : Nat} (hc : s.pc i = .join p .check)
    (hp : (s.pc p).uninit = false) : CountAct s (.check i) := by
  rintro _ q ⟨⟩ hq -
  obtain ⟨rfl, -⟩ := Pc.join.inj (hc.symm.trans hq)
  exact hp

/-- Task 0 forks task 1, joins with it and sleeps; task 1 exits, and the call returns. -/
theorem join_counted_iff_one : ∃ tr t, Run Step State.init tr t ∧
    tr.map (·.2) = [.dup 0, .attach 1, .semaInit 1, .joinedInit 1, .forkReturn 1, .join 0, .lock 0,
      .check 0, .unlock 0, .sleep 0, .exit 1, .exitLock 1, .exitFlag 1, .exitUp 1, .wake 0, .down 0,
      .exitReset 1, .exitUnlock 1] ∧ (∀ p ∈ tr, CountAct p.1 p.2) ∧
    ((∀ p ∈ tr, Registered p.1 ∧ ResetFree p.1 p.2) ∧ Registered t) ∧
    t.pc 0 = .user ∧ t.pc 1 = .exit .after := by
  have hrun : Run (fun s a t => Step s a t ∧ CountAct s a) State.init _ _ :=
    .cons ⟨.dup (i := 0) rfl (by decide), nofun⟩ <| .cons ⟨.attach (c := 1) rfl, nofun⟩ <|
    .cons ⟨.semaInit (c := 1) rfl, nofun⟩ <| .cons ⟨.joinedInit (c := 1) rfl, nofun⟩ <|
    .cons ⟨.forkReturn (c := 1) rfl rfl, nofun⟩ <|
    .cons ⟨.join (i := 0) (p := 1) rfl rfl, nofun⟩ <| .cons ⟨.lock (i := 0) rfl rfl, nofun⟩ <|
    .cons ⟨.checkCount (i := 0) rfl rfl, countAct_check rfl rfl⟩ <|
    .cons ⟨.unlock (i := 0) rfl, nofun⟩ <| .cons ⟨.sleep (i := 0) rfl rfl, nofun⟩ <|
    .cons ⟨.exit (i := 1) rfl, nofun⟩ <| .cons ⟨.exitLock (i := 1) rfl rfl, nofun⟩ <|
    .cons ⟨.exitFlag (i := 1) rfl, nofun⟩ <| .cons ⟨.exitUp (i := 1) rfl (by decide), nofun⟩ <|
    .cons ⟨.wake (i := 0) rfl (by decide) (by decide), nofun⟩ <|
    .cons ⟨.down (i := 0) rfl (by decide), nofun⟩ <|
    .cons ⟨.exitReset (i := 1) rfl (by decide), nofun⟩ <|
    .cons ⟨.exitUnlock (i := 1) rfl, nofun⟩ (.nil _)
  obtain ⟨hsteps, hcount⟩ := run_and_iff.mp hrun
  exact ⟨_, _, hsteps, rfl, hcount, (join_counted_iff hsteps).1 hcount, rfl, rfl⟩

/-- Task 1 joins with task 2 and sleeps between its `attach_pid` and the initialisations: it is
off the wait queue, task 2 exits, and nobody gives it a token. -/
theorem join_erased : ∃ tr t, Run Step State.init tr t ∧ t.pc 1 = .join 2 .asleep ∧
    1 ∉ (t.mem 2).waitQueue ∧ t.pc 2 = .exit .after ∧ (t.mem 2).joinSemaphore = 0 ∧
    ¬ AllTasks Backed t ∧ ¬ Queued t := by
  have hrun : Run Step State.init _ _ := .cons (.dup (i := 0) rfl (by decide)) <|
    .cons (.attach (c := 1) rfl) <| .cons (.semaInit (c := 1) rfl) <|
    .cons (.joinedInit (c := 1) rfl) <| .cons (.forkReturn (c := 1) rfl rfl) <|
    .cons (.dup (i := 0) rfl (by decide)) <| .cons (.attach (c := 2) rfl) <|
    .cons (.join (i := 1) (p := 2) rfl rfl) <| .cons (.lock (i := 1) rfl rfl) <|
    .cons (.checkCount (i := 1) rfl rfl) <| .cons (.unlock (i := 1) rfl) <|
    .cons (.sleep (i := 1) rfl rfl) <| .cons (.semaInit (c := 2) rfl) <|
    .cons (.joinedInit (c := 2) rfl) <|
    .cons (.forkReturn (c := 2) rfl rfl) <| .cons (.exit (i := 2) rfl) <|
    .cons (.exitLock (i := 2) rfl rfl) <| .cons (.exitFlag (i := 2) rfl) <|
    .cons (.exitReset (i := 2) rfl (by decide)) <| .cons (.exitUnlock (i := 2) rfl) (.nil _)
  refine ⟨_, _, hrun, rfl, by decide, rfl, rfl, fun hg => ?_, fun hq => ?_⟩
  · have hone : _ ≤ 0 := hg 2
    exact absurd hone (by decide)
  · exact absurd (hq 1 2 rfl) (by decide)

end Cs370.Tasks
