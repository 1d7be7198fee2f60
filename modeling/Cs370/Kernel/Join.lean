import Mathlib.Data.List.Basic
import Cs370.Lib.CInt
import Cs370.Lib.Run

/-!
# Joining a task

`sys_myjoin` of `kernel/sched.c` and the critical section of `do_exit` in `kernel/exit.c`, for
one target task, with any number of calls. `join_semaphore` is a counting semaphore. The test of
`PF_EXITING` and the increment after it are one step, as both are under `pi_lock`; a call that
finds the flag set returns without giving the lock back. The loop of `do_exit` is not atomic: a
caller that waits in `down` may return as soon as there is a token.

A call under way is a process of its own, so there are no more of them than pids.
-/

namespace Cs370.Join

open Cs370.Trans

/-- Where a call of `sys_myjoin` is: before a statement, or back with a result. -/
inductive Call where
  | lock
  | check
  | unlock
  | down
  | returned (ret : Int)
  deriving DecidableEq

/-- Where the target is: before the critical section of `do_exit`, in it, or after it. -/
inductive ExitPc where
  | before
  | flag
  | loop (i : Int)
  | unlock
  | after

inductive Holder where
  | exit
  | call (i : Nat)

structure State where
  joinedProcesses : Nat
  joinSemaphore : Nat
  pfExiting : Bool
  piLock : Option Holder
  exit : ExitPc
  calls : List Call

def pidMaxLimit : Nat := 4 * 1024 * 1024

/-- The call has passed the test of `PF_EXITING`. -/
def Call.passed : Call → Bool
  | .unlock => true
  | .down => true
  | .returned ret => ret = 0
  | _ => false

/-- The call has passed the test and has not returned from `down`. -/
def Call.waiting : Call → Bool
  | .unlock => true
  | .down => true
  | _ => false

def Call.pending : Call → Bool
  | .returned _ => false
  | _ => true

def State.passed (s : State) : Nat := s.calls.countP Call.passed

def State.waiting (s : State) : Nat := s.calls.countP Call.waiting

def State.pending (s : State) : Nat := s.calls.countP Call.pending

/-- What `copy_process` leaves. -/
def State.init : State where
  joinedProcesses := 0
  joinSemaphore := 0
  pfExiting := false
  piLock := none
  exit := .before
  calls := []

inductive Act where
  | call (found : Bool)
  | lock (i : Nat)
  | check (i : Nat)
  | unlock (i : Nat)
  | down (i : Nat)
  | exitLock
  | exitFlag
  | exitUp
  | exitReset
  | exitUnlock

inductive Step : State → Act → State → Prop where
  | call {s : State} : s.pending < pidMaxLimit →
      Step s (.call true) { s with calls := s.calls ++ [.lock] }
  | callNotFound {s : State} : Step s (.call false) { s with calls := s.calls ++ [.returned (-1)] }
  | lock {s : State} {i : Nat} : s.calls[i]? = some .lock → s.piLock = none →
      Step s (.lock i) { s with piLock := some (.call i), calls := s.calls.set i .check }
  | checkExiting {s : State} {i : Nat} : s.calls[i]? = some .check → s.pfExiting = true →
      Step s (.check i) { s with calls := s.calls.set i (.returned (-1)) }
  | checkCount {s : State} {i : Nat} : s.calls[i]? = some .check → s.pfExiting = false →
      Step s (.check i)
        { s with
          joinedProcesses := CInt.sizeT (s.joinedProcesses + 1)
          calls := s.calls.set i .unlock }
  | unlock {s : State} {i : Nat} : s.calls[i]? = some .unlock →
      Step s (.unlock i) { s with piLock := none, calls := s.calls.set i .down }
  | down {s : State} {i : Nat} : s.calls[i]? = some .down → 0 < s.joinSemaphore →
      Step s (.down i)
        { s with joinSemaphore := s.joinSemaphore - 1, calls := s.calls.set i (.returned 0) }
  | exitLock {s : State} : s.exit = .before → s.piLock = none →
      Step s .exitLock { s with piLock := some .exit, exit := .flag }
  | exitFlag {s : State} : s.exit = .flag →
      Step s .exitFlag { s with pfExiting := true, exit := .loop 0 }
  | exitUp {s : State} {i : Int} : s.exit = .loop i → CInt.sizeT i < s.joinedProcesses →
      Step s .exitUp
        { s with joinSemaphore := s.joinSemaphore + 1, exit := .loop (CInt.intW 32 (i + 1)) }
  | exitReset {s : State} {i : Int} : s.exit = .loop i → ¬ CInt.sizeT i < s.joinedProcesses →
      Step s .exitReset { s with joinedProcesses := 0, exit := .unlock }
  | exitUnlock {s : State} : s.exit = .unlock →
      Step s .exitUnlock { s with piLock := none, exit := .after }

/-! ## The invariant -/

def Call.inside : Call → Bool
  | .check => true
  | .unlock => true
  | _ => false

def ExitPc.inside : ExitPc → Bool
  | .before => false
  | .after => false
  | _ => true

/-- The target has set `PF_EXITING`. -/
def ExitPc.flagged : ExitPc → Bool
  | .before => false
  | .flag => false
  | _ => true

/-- The accounts of the target: before the loop nobody has a token, in it the tokens that were
given out and those still to come are enough for all that wait, and after it each of these has
one. -/
def Accounts (joined tokens waiting : Nat) : ExitPc → Prop
  | .before => tokens = 0 ∧ joined = waiting
  | .flag => tokens = 0 ∧ joined = waiting
  | .loop i => ∃ k : Nat, i = k ∧ k ≤ joined ∧ tokens + joined = waiting + k
  | .unlock => joined = 0 ∧ tokens = waiting
  | .after => joined = 0 ∧ tokens = waiting

structure Inv (s : State) : Prop where
  holder : ∀ i c, s.calls[i]? = some c → c.inside = true → s.piLock = some (.call i)
  exitHolder : s.exit.inside = true → s.piLock = some .exit
  exiting : s.pfExiting = s.exit.flagged
  returned : s.pfExiting = false → Call.returned 0 ∉ s.calls
  pending_le : s.pending ≤ pidMaxLimit
  joined_le : s.joinedProcesses ≤ pidMaxLimit
  accounts : Accounts s.joinedProcesses s.joinSemaphore s.waiting s.exit

theorem inv_init : Inv State.init where
  holder i c hc := by simp [State.init] at hc
  exitHolder h := by cases h
  exiting := rfl
  returned _ h := by cases h
  pending_le := Nat.zero_le _
  joined_le := Nat.zero_le _
  accounts := ⟨rfl, rfl⟩

/-! ## One call moves -/

theorem getElem?_set_cases {l : List Call} {i j : Nat} {c d : Call}
    (h : (l.set i c)[j]? = some d) : (j = i ∧ d = c) ∨ (j ≠ i ∧ l[j]? = some d) := by
  by_cases hij : i = j
  · subst hij
    rw [List.getElem?_set_self' ] at h
    cases hl : l[i]? with
    | none => simp [hl] at h
    | some x => simp [hl] at h; exact .inl ⟨rfl, h.symm⟩
  · rw [List.getElem?_set_ne hij] at h
    exact .inr ⟨Ne.symm hij, h⟩

theorem countP_set_add {l : List Call} {i : Nat} {c : Call} (h : l[i]? = some c)
    (p : Call → Bool) (c' : Call) :
    (l.set i c').countP p + (p c).toNat = l.countP p + (p c').toNat := by
  obtain ⟨hlt, rfl⟩ := List.getElem?_eq_some_iff.mp h
  have hpos : p l[i] = true → 0 < l.countP p := fun hp =>
    List.countP_pos_iff.mpr ⟨_, List.getElem_mem hlt, hp⟩
  rw [List.countP_set hlt]
  cases hp : p l[i] with
  | false => cases p c' <;> simp
  | true =>
    have := hpos hp
    cases p c' <;> simp <;> omega

theorem waiting_le_pending (l : List Call) : l.countP Call.waiting ≤ l.countP Call.pending := by
  apply List.countP_mono_left
  intro c _ hc
  cases c with
  | returned => cases hc
  | _ => rfl

section
variable {s : State} (hi : Inv s)
include hi

theorem Inv.inside_unique {i j : Nat} {c d : Call} (hc : s.calls[i]? = some c)
    (hci : c.inside = true) (hd : s.calls[j]? = some d) (hdi : d.inside = true) : j = i := by
  have h := (hi.holder j d hd hdi).symm.trans (hi.holder i c hc hci)
  cases h
  rfl

theorem Inv.inside_free (hfree : s.piLock = none) {i : Nat} {c : Call}
    (hc : s.calls[i]? = some c) : c.inside = false := by
  by_contra hci
  have h := hi.holder i c hc (by simpa using hci)
  rw [hfree] at h
  cases h

theorem Inv.exit_outside {i : Nat} {c : Call} (hc : s.calls[i]? = some c)
    (hci : c.inside = true) : s.exit.inside = false := by
  by_contra hex
  have h := (hi.exitHolder (by simpa using hex)).symm.trans (hi.holder i c hc hci)
  cases h

theorem Inv.snoc {c : Call} (hin : c.inside = false) (hw : c.waiting = false)
    (hret : c ≠ .returned 0) (hp : s.pending + c.pending.toNat ≤ pidMaxLimit) :
    Inv { s with calls := s.calls ++ [c] } where
  holder i d hd hdi := by
    by_cases hlt : i < s.calls.length
    · rw [List.getElem?_append_left hlt] at hd
      exact hi.holder i d hd hdi
    · rw [List.getElem?_append_right (Nat.le_of_not_lt hlt)] at hd
      rw [List.mem_singleton.mp (List.mem_of_getElem? hd), hin] at hdi
      cases hdi
  exitHolder := hi.exitHolder
  exiting := hi.exiting
  returned hx hm := by
    rcases List.mem_append.mp hm with hm | hm
    · exact hi.returned hx hm
    · exact hret (List.mem_singleton.mp hm).symm
  pending_le := by
    unfold State.pending at hp ⊢
    rw [List.countP_append, List.countP_singleton]
    cases hc : c.pending <;> simp_all
  joined_le := hi.joined_le
  accounts := by
    have hsame : State.waiting { s with calls := s.calls ++ [c] } = s.waiting := by
      unfold State.waiting
      rw [List.countP_append, List.countP_singleton, hw]
      rfl
    rw [hsame]
    exact hi.accounts

/-- What is left to show when call `i` moves from `c` to `c'`. -/
theorem Inv.move {t : State} {i : Nat} {c c' : Call} (hc : s.calls[i]? = some c)
    (hcalls : t.calls = s.calls.set i c') (hexit : t.exit = s.exit)
    (hflag : t.pfExiting = s.pfExiting) (hpending : c'.pending = true → c.pending = true)
    (hret : c' = .returned 0 → s.pfExiting = true)
    (hown : c'.inside = true → t.piLock = some (.call i))
    (hothers : ∀ j d, j ≠ i → s.calls[j]? = some d → d.inside = true → t.piLock = some (.call j))
    (hexitHolder : s.exit.inside = true → t.piLock = some .exit)
    (hjoined : t.joinedProcesses ≤ pidMaxLimit)
    (haccounts : ∀ w, w + c.waiting.toNat = s.waiting + c'.waiting.toNat →
      Accounts t.joinedProcesses t.joinSemaphore w s.exit) : Inv t where
  holder j d hd hdi := by
    rw [hcalls] at hd
    rcases getElem?_set_cases hd with ⟨rfl, rfl⟩ | ⟨hj, hd⟩
    · exact hown hdi
    · exact hothers j d hj hd hdi
  exitHolder hex := hexitHolder (hexit ▸ hex)
  exiting := by rw [hflag, hexit, hi.exiting]
  returned hx hm := by
    rw [hflag] at hx
    rw [hcalls] at hm
    rcases List.mem_or_eq_of_mem_set hm with hm | hm
    · exact hi.returned hx hm
    · rw [hret hm.symm] at hx
      cases hx
  pending_le := by
    have hcount := countP_set_add hc Call.pending c'
    have hle := hi.pending_le
    unfold State.pending at hle ⊢
    rw [hcalls]
    cases hp : c'.pending with
    | false => simp only [hp, Bool.toNat_false] at hcount; omega
    | true =>
      simp only [hp, hpending hp] at hcount
      omega
  joined_le := hjoined
  accounts := by
    rw [hexit]
    refine haccounts t.waiting ?_
    unfold State.waiting
    rw [hcalls]
    exact countP_set_add hc Call.waiting c'

theorem Inv.lock {i : Nat} (hc : s.calls[i]? = some .lock) (hfree : s.piLock = none) :
    Inv { s with piLock := some (.call i), calls := s.calls.set i .check } := by
  refine hi.move hc rfl rfl rfl (fun _ => rfl) (by simp) (fun _ => rfl) (fun j d _ hd hdi => ?_)
    (fun hex => ?_) hi.joined_le fun w hw => ?_
  · rw [hi.inside_free hfree hd] at hdi
    cases hdi
  · have h := hi.exitHolder hex
    rw [hfree] at h
    cases h
  · obtain rfl : w = s.waiting := hw
    exact hi.accounts

theorem Inv.checkExiting {i : Nat} (hc : s.calls[i]? = some .check) :
    Inv { s with calls := s.calls.set i (.returned (-1)) } := by
  refine hi.move hc rfl rfl rfl (fun h => by cases h) (by simp) (fun h => by cases h)
    (fun j d _ => hi.holder j d) hi.exitHolder hi.joined_le fun w hw => ?_
  obtain rfl : w = s.waiting := hw
  exact hi.accounts

theorem Inv.checkCount {i : Nat} (hc : s.calls[i]? = some .check) (hx : s.pfExiting = false) :
    Inv { s with
      joinedProcesses := CInt.sizeT (s.joinedProcesses + 1)
      calls := s.calls.set i .unlock } := by
  have hbefore : s.exit = .before := by
    have hout := hi.exit_outside hc rfl
    have hflag := hi.exiting.symm.trans hx
    cases he : s.exit with
    | before => rfl
    | flag => rw [he] at hout; cases hout
    | _ => rw [he] at hflag; cases hflag
  have hjoined : CInt.sizeT (s.joinedProcesses + 1) = s.joinedProcesses + 1 := by
    have := hi.joined_le
    unfold pidMaxLimit at this
    exact_mod_cast CInt.uintW_of_lt (w := 64) (n := s.joinedProcesses + 1) (by omega)
  have hacc := hi.accounts
  rw [hbefore] at hacc
  obtain ⟨htokens, hcount⟩ := hacc
  rw [hjoined]
  -- the call itself is pending and was not waiting, so the others leave room for it
  have hroom : s.waiting + 1 ≤ pidMaxLimit := by
    have hw := countP_set_add hc Call.waiting .unlock
    have hp := countP_set_add hc Call.pending .unlock
    have hle := waiting_le_pending (s.calls.set i .unlock)
    have hlim := hi.pending_le
    simp only [Call.waiting, Call.pending, Bool.toNat_true, Bool.toNat_false] at hw hp
    unfold State.waiting
    unfold State.pending at hlim
    omega
  refine hi.move hc rfl rfl rfl (fun _ => rfl) (by simp) (fun _ => hi.holder i _ hc rfl)
    (fun j d _ => hi.holder j d) hi.exitHolder (by dsimp only; omega) fun w hw => ?_
  rw [hbefore]
  simp only [Call.waiting, Bool.toNat_true, Bool.toNat_false] at hw
  refine ⟨htokens, ?_⟩
  show s.joinedProcesses + 1 = w
  omega

theorem Inv.unlock {i : Nat} (hc : s.calls[i]? = some .unlock) :
    Inv { s with piLock := none, calls := s.calls.set i .down } := by
  refine hi.move hc rfl rfl rfl (fun _ => rfl) (by simp) (fun h => by cases h)
    (fun j d hj hd hdi => ?_) (fun hex => ?_) hi.joined_le fun w hw => ?_
  · exact absurd (hi.inside_unique hc rfl hd hdi) hj
  · rw [hi.exit_outside hc rfl] at hex
    cases hex
  · obtain rfl : w = s.waiting := by simpa [Call.waiting] using hw
    exact hi.accounts

/-- A call that takes a token: there are some only once the target is exiting. -/
theorem Inv.down {i : Nat} (hc : s.calls[i]? = some .down) (htokens : 0 < s.joinSemaphore) :
    Inv { s with joinSemaphore := s.joinSemaphore - 1, calls := s.calls.set i (.returned 0) } := by
  have hacc := hi.accounts
  refine hi.move hc rfl rfl rfl (fun h => by cases h) (fun _ => ?_) (fun h => by cases h)
    (fun j d _ => hi.holder j d) hi.exitHolder hi.joined_le fun w hw => ?_
  · rw [hi.exiting]
    cases he : s.exit with
    | before => rw [he] at hacc; exact absurd hacc.1 (by omega)
    | flag => rw [he] at hacc; exact absurd hacc.1 (by omega)
    | _ => rfl
  · simp only [Call.waiting, Bool.toNat_true, Bool.toNat_false] at hw
    cases he : s.exit with
    | before => rw [he] at hacc; exact absurd hacc.1 (by omega)
    | flag => rw [he] at hacc; exact absurd hacc.1 (by omega)
    | loop j =>
      rw [he] at hacc
      obtain ⟨k, hj, hk, hsum⟩ := hacc
      exact ⟨k, hj, hk, by dsimp only; omega⟩
    | unlock => rw [he] at hacc; exact ⟨hacc.1, by have := hacc.2; dsimp only; omega⟩
    | after => rw [he] at hacc; exact ⟨hacc.1, by have := hacc.2; dsimp only; omega⟩

/-! ## The target moves -/

theorem Inv.exitLock (he : s.exit = .before) (hfree : s.piLock = none) :
    Inv { s with piLock := some .exit, exit := .flag } where
  holder j d hd hdi := by
    rw [hi.inside_free hfree hd] at hdi
    cases hdi
  exitHolder _ := rfl
  exiting := by
    have h := hi.exiting
    rw [he] at h
    exact h
  returned := hi.returned
  pending_le := hi.pending_le
  joined_le := hi.joined_le
  accounts := by
    have h := hi.accounts
    rw [he] at h
    exact h

theorem Inv.exitFlag (he : s.exit = .flag) :
    Inv { s with pfExiting := true, exit := .loop 0 } where
  holder := hi.holder
  exitHolder _ := hi.exitHolder (by rw [he]; rfl)
  exiting := rfl
  returned h := by cases h
  pending_le := hi.pending_le
  joined_le := hi.joined_le
  accounts := by
    have h := hi.accounts
    rw [he] at h
    refine ⟨0, rfl, Nat.zero_le _, ?_⟩
    have hzero := h.1
    have hsum := h.2
    dsimp only [State.waiting] at *
    omega

/-- The counter of the loop is an `int` that is compared with a `size_t`. -/
theorem Inv.loop_lt_iff {i : Int} (he : s.exit = .loop i) : ∃ k : Nat, i = k ∧
    CInt.sizeT i = k ∧ k ≤ s.joinedProcesses ∧
      s.joinSemaphore + s.joinedProcesses = s.waiting + k := by
  have h := hi.accounts
  rw [he] at h
  obtain ⟨k, rfl, hk, hsum⟩ := h
  have hle := hi.joined_le
  unfold pidMaxLimit at hle
  exact ⟨k, rfl, CInt.uintW_of_lt (by omega), hk, hsum⟩

theorem Inv.exitUp {i : Int} (he : s.exit = .loop i) (hlt : CInt.sizeT i < s.joinedProcesses) :
    Inv { s with
      joinSemaphore := s.joinSemaphore + 1
      exit := .loop (CInt.intW 32 (i + 1)) } where
  holder := hi.holder
  exitHolder _ := hi.exitHolder (by rw [he]; rfl)
  exiting := by rw [hi.exiting, he]; rfl
  returned := hi.returned
  pending_le := hi.pending_le
  joined_le := hi.joined_le
  accounts := by
    obtain ⟨k, rfl, hs, hk, hsum⟩ := hi.loop_lt_iff he
    rw [hs] at hlt
    have hle := hi.joined_le
    unfold pidMaxLimit at hle
    refine ⟨k + 1, ?_, hlt, ?_⟩
    · exact_mod_cast CInt.intW_of_lt (w := 32) (n := k + 1) (by omega)
    · show s.joinSemaphore + 1 + s.joinedProcesses = s.waiting + (k + 1)
      omega

theorem Inv.exitReset {i : Int} (he : s.exit = .loop i)
    (hge : ¬ CInt.sizeT i < s.joinedProcesses) :
    Inv { s with joinedProcesses := 0, exit := .unlock } where
  holder := hi.holder
  exitHolder _ := hi.exitHolder (by rw [he]; rfl)
  exiting := by rw [hi.exiting, he]; rfl
  returned := hi.returned
  pending_le := hi.pending_le
  joined_le := Nat.zero_le _
  accounts := by
    obtain ⟨k, rfl, hs, hk, hsum⟩ := hi.loop_lt_iff he
    rw [hs] at hge
    refine ⟨rfl, ?_⟩
    show s.joinSemaphore = s.waiting
    omega

theorem Inv.exitUnlock (he : s.exit = .unlock) :
    Inv { s with piLock := none, exit := .after } where
  holder j d hd hdi := by
    have h := hi.exit_outside hd hdi
    rw [he] at h
    cases h
  exitHolder h := by cases h
  exiting := by rw [hi.exiting, he]; rfl
  returned := hi.returned
  pending_le := hi.pending_le
  joined_le := hi.joined_le
  accounts := by
    have h := hi.accounts
    rw [he] at h
    exact h

/-- **Every step keeps the invariant.** -/
theorem Inv.step {t : State} {a : Act} (hs : Step s a t) : Inv t := by
  cases hs with
  | call hlt => exact hi.snoc rfl rfl (by simp) hlt
  | callNotFound => exact hi.snoc rfl rfl (by simp) hi.pending_le
  | lock hc hfree => exact hi.lock hc hfree
  | checkExiting hc _ => exact hi.checkExiting hc
  | checkCount hc hx => exact hi.checkCount hc hx
  | unlock hc => exact hi.unlock hc
  | down hc htokens => exact hi.down hc htokens
  | exitLock he hfree => exact hi.exitLock he hfree
  | exitFlag he => exact hi.exitFlag he
  | exitUp he hlt => exact hi.exitUp he hlt
  | exitReset he hge => exact hi.exitReset he hge
  | exitUnlock he => exact hi.exitUnlock he

end

theorem inv_run {tr : List (State × Act)} {t : State} (h : Run Step State.init tr t) : Inv t :=
  h.invariant (fun _ _ _ hi hs => hi.step hs) inv_init

/-! ## The accounts -/

theorem Inv.passed_eq {s : State} (hi : Inv s) (hx : s.pfExiting = false) :
    s.passed = s.waiting := by
  unfold State.passed State.waiting
  apply List.countP_congr
  intro c hc
  cases c with
  | returned ret =>
    have hret : ret ≠ 0 := by
      rintro rfl
      exact hi.returned hx hc
    simp [Call.passed, Call.waiting, hret]
  | _ => rfl

/-- **Join accounting**: in every run after `copy_process` has set the join fields up, as long as
the target is before the critical section of `do_exit` there is no token and `joined_processes`
is the number of calls that have passed the test of `PF_EXITING`; once it is after it,
`joined_processes` is 0 and there are as many tokens as calls that have passed the test and have
not returned from `down`, so none of these has to wait. -/
theorem join_accounting {tr : List (State × Act)} {t : State} (h : Run Step State.init tr t) :
    (t.exit = .before → t.joinSemaphore = 0 ∧ t.joinedProcesses = t.passed) ∧
    (t.exit = .after → t.joinedProcesses = 0 ∧ t.joinSemaphore = t.waiting ∧
      ∀ i : Nat, t.calls[i]? = some .down → 0 < t.joinSemaphore) := by
  have hi := inv_run h
  have hacc := hi.accounts
  refine ⟨fun he => ?_, fun he => ?_⟩
  · rw [he] at hacc
    have hx : t.pfExiting = false := by rw [hi.exiting, he]; rfl
    exact ⟨hacc.1, hacc.2.trans (hi.passed_eq hx).symm⟩
  · rw [he] at hacc
    refine ⟨hacc.1, hacc.2, fun i hc => ?_⟩
    rw [hacc.2]
    exact List.countP_pos_iff.mpr ⟨_, List.mem_of_getElem? hc, rfl⟩

/-- One call that is counted and waits, and then the whole critical section of the target. -/
theorem join_accounting_one : ∃ tr t, Run Step State.init tr t ∧ t.exit = .after ∧
    t.calls = [.down] ∧ t.joinedProcesses = 0 ∧ t.joinSemaphore = t.waiting ∧
    0 < t.joinSemaphore := by
  have hrun : Run Step State.init _ _ :=
    .cons (.call (by decide)) <| .cons (.lock (i := 0) rfl rfl) <|
    .cons (.checkCount (i := 0) rfl rfl) <| .cons (.unlock (i := 0) rfl) <|
    .cons (.exitLock rfl rfl) <| .cons (.exitFlag rfl) <|
    .cons (.exitUp rfl (by decide)) <| .cons (.exitReset rfl (by decide)) <|
    .cons (.exitUnlock rfl) (.nil _)
  obtain ⟨hjoined, htokens, hpos⟩ := (join_accounting hrun).2 rfl
  exact ⟨_, _, hrun, rfl, rfl, hjoined, htokens, hpos 0 rfl⟩

/-! ## The lock -/

/-- The process that holds the lock is in one of the two critical sections. -/
def Holder.inside (s : State) : Holder → Prop
  | .exit => s.exit.inside = true
  | .call i => ∃ c, s.calls[i]? = some c ∧ c.inside = true

/-- `pi_lock` is held only by a process in a critical section. -/
def LockOk (s : State) : Prop := ∀ h, s.piLock = some h → h.inside s

/-- The step is not the test of `PF_EXITING` by a call that finds the flag set. -/
def LockAct (s : State) (a : Act) : Prop := ∀ i, a = .check i → s.pfExiting = false

theorem LockOk.move {s t : State} {i : Nat} {c c' : Call} (hg : LockOk s)
    (hc : s.calls[i]? = some c) (hci : c.inside = false) (hlock : t.piLock = s.piLock)
    (hexit : t.exit = s.exit) (hcalls : t.calls = s.calls.set i c') : LockOk t := by
  intro h hh
  rw [hlock] at hh
  have hin := hg h hh
  cases h with
  | exit =>
    show t.exit.inside = true
    rwa [hexit]
  | call j =>
    obtain ⟨d, hd, hdi⟩ := hin
    have hij : i ≠ j := by
      rintro rfl
      obtain rfl : c = d := Option.some.inj (hc.symm.trans hd)
      rw [hci] at hdi
      cases hdi
    exact ⟨d, by rw [hcalls, List.getElem?_set_ne hij, hd], hdi⟩

theorem LockOk.snoc {s : State} (hg : LockOk s) (c : Call) :
    LockOk { s with calls := s.calls ++ [c] } := by
  intro h hh
  have hin := hg h hh
  cases h with
  | exit => exact hin
  | call j =>
    obtain ⟨d, hd, hdi⟩ := hin
    exact ⟨d, List.getElem?_append_left (List.getElem?_eq_some_iff.mp hd).1 ▸ hd, hdi⟩

theorem lockOk_set {s t : State} {i : Nat} {c c' : Call} (hc : s.calls[i]? = some c)
    (hci : c'.inside = true) (hlock : t.piLock = some (.call i))
    (hcalls : t.calls = s.calls.set i c') : LockOk t := by
  intro h hh
  cases hlock.symm.trans hh
  refine ⟨c', ?_, hci⟩
  rw [hcalls, List.getElem?_set_self (List.getElem?_eq_some_iff.mp hc).1]

theorem lockOk_exit {t : State} (hin : t.exit.inside = true) (hlock : t.piLock = some .exit) :
    LockOk t := by
  intro h hh
  cases hlock.symm.trans hh
  exact hin

theorem not_lockOk_returned {s t : State} {i : Nat} {c : Call} {ret : Int}
    (hc : s.calls[i]? = some c) (hlock : t.piLock = some (.call i))
    (hcalls : t.calls = s.calls.set i (.returned ret)) : ¬ LockOk t := by
  intro hg
  obtain ⟨d, hd, hdi⟩ := hg _ hlock
  rw [hcalls, List.getElem?_set_self (List.getElem?_eq_some_iff.mp hc).1] at hd
  cases hd
  cases hdi

theorem lockOk_step {s t : State} {a : Act} (hi : Inv s) (hg : LockOk s) (hs : Step s a t) :
    LockOk t ↔ LockAct s a := by
  cases hs with
  | call _ => exact iff_of_true (hg.snoc _) nofun
  | callNotFound => exact iff_of_true (hg.snoc _) nofun
  | lock hc _ => exact iff_of_true (lockOk_set hc rfl rfl rfl) nofun
  | @checkExiting i hc hx =>
    apply iff_of_false
    · exact not_lockOk_returned hc (hi.holder i _ hc rfl) rfl
    · intro hact
      rw [hact i rfl] at hx
      cases hx
  | @checkCount i hc hx =>
    exact iff_of_true (lockOk_set hc rfl (hi.holder i _ hc rfl) rfl) fun _ _ => hx
  | unlock _ => exact iff_of_true nofun nofun
  | down hc _ => exact iff_of_true (hg.move hc rfl rfl rfl rfl) nofun
  | exitLock _ _ => exact iff_of_true (lockOk_exit rfl rfl) nofun
  | exitFlag he => exact iff_of_true (lockOk_exit rfl (hi.exitHolder (by rw [he]; rfl))) nofun
  | exitUp he _ => exact iff_of_true (lockOk_exit rfl (hi.exitHolder (by rw [he]; rfl))) nofun
  | exitReset he _ => exact iff_of_true (lockOk_exit rfl (hi.exitHolder (by rw [he]; rfl))) nofun
  | exitUnlock _ => exact iff_of_true nofun nofun

/-- **Lock discipline**: `pi_lock` is held only from within the critical sections in all states
of a run exactly when no call of the run finds `PF_EXITING` set. -/
theorem lock_discipline_iff {tr : List (State × Act)} {t : State} (h : Run Step State.init tr t) :
    ((∀ p ∈ tr, LockOk p.1) ∧ LockOk t) ↔ ∀ p ∈ tr, LockAct p.1 p.2 := by
  have hgood : ∀ s a t, Inv s → LockOk s → Step s a t → (LockOk t ↔ LockAct s a) :=
    fun _ _ _ => lockOk_step
  exact h.good_iff (fun _ _ _ hi hs => hi.step hs) hgood inv_init nofun

/-- The critical section of the target between two calls. -/
theorem lock_discipline_iff_exit : ∃ tr t, Run Step State.init tr t ∧
    (((∀ p ∈ tr, LockOk p.1) ∧ LockOk t) ↔ ∀ p ∈ tr, LockAct p.1 p.2) := by
  have hrun : Run Step State.init _ _ := .cons (.call (by decide)) <|
    .cons (.lock (i := 0) rfl rfl) <| .cons (.checkCount (i := 0) rfl rfl) <|
    .cons (.unlock (i := 0) rfl) <| .cons (.exitLock rfl rfl) (.nil _)
  exact ⟨_, _, hrun, lock_discipline_iff hrun⟩

/-- A call after the critical section of the target returns -1 and keeps the lock, with nobody in
a critical section. -/
theorem lock_kept : ∃ tr t, Run Step State.init tr t ∧ t.exit = .after ∧
    t.calls = [.returned (-1)] ∧ t.piLock = some (.call 0) ∧ ¬ LockOk t := by
  have hrun : Run Step State.init _ _ := .cons (.exitLock rfl rfl) <| .cons (.exitFlag rfl) <|
    .cons (.exitReset rfl (by decide)) <| .cons (.exitUnlock rfl) <| .cons (.call (by decide)) <|
    .cons (.lock (i := 0) rfl rfl) <| .cons (.checkExiting (i := 0) rfl rfl) (.nil _)
  refine ⟨_, _, hrun, rfl, rfl, rfl, fun hg => ?_⟩
  obtain ⟨c, hc, hci⟩ := hg _ rfl
  cases hc
  cases hci

end Cs370.Join
