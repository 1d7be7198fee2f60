import Cs370.Kernel.Semaphore

/-!
# The invariant of a semaphore

`count` alone says little while calls are in a slow path: a waiter has lowered it and may or may
not be accounted for in `sleepers`, and between the two statements of an update the sum is off by
what is still to be written. `Pc.debt` is that difference for each statement, and
`State.tokens`, the sum of `count`, `sleepers` and all debts, is what the semaphore holds. Each
step changes it as a counting semaphore does, as long as no value of `count` is cut: with `Fits`
that is so while there is room for the next token (`Good.exact`).
-/

namespace Cs370.Semaphore

open Cs370.Trans

variable {ι : Type}

/-- The task holds `wait.lock`. -/
def Pc.inside : Pc ι → Bool
  | .idle => false
  | .setState _ => false
  | .lock _ => false
  | .schedule _ => false
  | .relock _ => false
  | .stateEnd _ => false
  | .tryLock => false
  | .upLock => false
  | _ => true

/-- The task is on the wait queue. -/
def Pc.queued : Pc ι → Bool
  | .incr _ => true
  | .read _ => true
  | .test _ _ => true
  | .intrZero _ => true
  | .intrAdd _ => true
  | .zero _ => true
  | .one _ _ => true
  | .unlock _ => true
  | .schedule _ => true
  | .relock _ => true
  | .restate _ => true
  | .dequeue _ => true
  | _ => false

/-- The task waits for the semaphore. -/
def Pc.waiting : Pc ι → Bool
  | .setState _ => true
  | .lock _ => true
  | .enqueue _ => true
  | .incr _ => true
  | .read _ => true
  | .test _ _ => true
  | .one _ _ => true
  | .unlock _ => true
  | .schedule _ => true
  | .relock _ => true
  | .restate _ => true
  | _ => false

/-- What the task has taken off `count` and not yet entered in `sleepers`, or the reverse. -/
def Pc.debt : Pc ι → Int
  | .setState _ => 1
  | .lock _ => 1
  | .enqueue _ => 1
  | .incr _ => 1
  | .zero sl => -sl
  | .one _ sl => 1 - sl
  | .intrAdd sl => sl
  | .tryLock => 1
  | .tryRead => 1
  | .tryZero _ => 1
  | .tryAdd sl => sl
  | _ => 0

/-- What a task in the critical section knows: its copy of `sleepers` is current, and a scan
goes over the rest of the queue. -/
def Pc.Ok (m : Sem ι) : Pc ι → Prop
  | .test _ sl => sl = m.sleepers
  | .intrZero sl => sl = m.sleepers
  | .zero sl => sl = m.sleepers
  | .one _ sl => sl = m.sleepers
  | .intrAdd sl => m.sleepers = 0 ∧ 0 ≤ sl
  | .tryZero sl => sl = m.sleepers + 1
  | .tryAdd sl => m.sleepers = 0 ∧ 0 ≤ sl
  | .scan _ rest => rest <:+ m.queue
  | _ => True

/-- The function whose body the task is in, from its lock on. -/
def Pc.waits : Pc ι → Option Down
  | .lock k => some k
  | .enqueue k => some k
  | .incr k => some k
  | .read k => some k
  | .test k _ => some k
  | .one k _ => some k
  | .unlock k => some k
  | .schedule k => some k
  | _ => none

/-- `schedule` will return. -/
def Task.awake (t : Task ι) : Bool :=
  t.state = .running || (t.state = .interruptible && t.sigpending)

@[simp]
theorem goto_awake (t : Task ι) (c : Pc ι) : (t.goto c).awake = t.awake := rfl

/-- What holds of a task alone: only a task that is not awake is off the run queues, and only in
`schedule`; the state of a waiter is the one of its call, or the waiter has been woken. -/
structure Task.Ok (t : Task ι) : Prop where
  array : t.array = false → (∃ k, t.pc = .schedule k) ∧ t.awake = false
  state : ∀ k, t.pc.waits = some k → t.state = .running ∨ t.state = k.state

/-! ## One statement -/

theorem Pc.ok_of_inside_eq_false {c : Pc ι} (m : Sem ι) (h : c.inside = false) : c.Ok m := by
  cases c <;> simp_all [Pc.inside, Pc.Ok]

theorem Pc.ok_congr {c : Pc ι} {m m' : Sem ι} (hs : m'.sleepers = m.sleepers)
    (hq : m'.queue = m.queue) (h : c.Ok m) : c.Ok m' := by
  cases c <;> simp_all [Pc.Ok]

theorem Pc.debt_nonneg {c : Pc ι} (h : c.inside = false) : 0 ≤ c.debt := by
  cases c <;> simp_all [Pc.inside, Pc.debt]

theorem Pc.debt_add_sleepers {c : Pc ι} {m : Sem ι} (h : c.Ok m) (hs : 0 ≤ m.sleepers) :
    0 ≤ m.sleepers + c.debt := by
  cases c <;> simp_all [Pc.Ok, Pc.debt] <;> omega

/-- A bound on `sleepers` and the debt of the task in the lock. -/
def Pc.cap : Pc ι → Int
  | .unlock _ => 1
  | .restate _ => 1
  | .dequeue _ => 1
  | .scan _ _ => 1
  | .scanUnlock _ => 1
  | _ => 2

theorem Pc.cap_le (c : Pc ι) : c.cap ≤ 2 := by
  cases c <;> simp [Pc.cap]

theorem Pc.debt_le {c : Pc ι} (h : c.inside = false) : c.debt ≤ 1 := by
  cases c <;> simp_all [Pc.inside, Pc.debt]

/-- A token more, or a token less. -/
def Act.gain (a : Act) : Int :=
  match a.event with
  | some .take => -1
  | some .give => 1
  | none => 0

section Exec

variable [DecidableEq ι] {w : Int → Int} {i : ι} {m m' : Sem ι} {t t' : Task ι} {a : Act}

/-- What a task in front of its next statement can write to `count` is not cut. -/
structure Exact (w : Int → Int) (m : Sem ι) (c : Pc ι) (a : Act) : Prop where
  down : w (m.count - 1) = m.count - 1
  up : a = .give → w (m.count + 1) = m.count + 1
  test : ∀ k sl, c = .test k sl → w (m.count + (sl - 1)) = m.count + (sl - 1)
  intrAdd : ∀ sl, c = .intrAdd sl → w (m.count + sl) = m.count + sl
  tryAdd : ∀ sl, c = .tryAdd sl → w (m.count + sl) = m.count + sl

theorem Exec.task_ok (h : Exec w i m t a m' t') (ht : t.Ok) : t'.Ok := by
  obtain ⟨harray, hstate⟩ := ht
  cases h <;> refine ⟨?_, ?_⟩ <;> simp_all [Pc.waits, Task.awake]

theorem Exec.inside (h : Exec w i m t a m' t') (hi : t.pc.inside = true ↔ m.lock = some i) :
    (t'.pc.inside = true ↔ m'.lock = some i) ∧
      ∀ j, i ≠ j → (m'.lock = some j ↔ m.lock = some j) := by
  cases h <;> simp_all [Pc.inside]

/-- Only the holder of `wait.lock` writes `sleepers` and the queue. -/
theorem Exec.frame (h : Exec w i m t a m' t') (hi : t.pc.inside = false) :
    m'.sleepers = m.sleepers ∧ m'.queue = m.queue := by
  cases h <;> simp_all [Pc.inside]

theorem Exec.ok (h : Exec w i m t a m' t') (ht : t.pc.Ok m) (hs : 0 ≤ m.sleepers) :
    t'.pc.Ok m' ∧ 0 ≤ m'.sleepers := by
  cases h <;> simp_all [Pc.Ok] <;> omega

theorem Exec.sum (h : Exec w i m t a m' t') (ht : t.pc.Ok m) (hx : Exact w m t.pc a) :
    m'.count + m'.sleepers + t'.pc.debt = m.count + m.sleepers + t.pc.debt + a.gain := by
  obtain ⟨hdown, hup, htest, hintr, htry⟩ := hx
  cases h <;> simp_all [Pc.debt, Pc.Ok, Act.gain, Act.event] <;> omega

theorem Exec.small (h : Exec w i m t a m' t') (hok : t.pc.Ok m)
    (hin : t.pc.inside = true ↔ m.lock = some i) (hfree : m.lock = none → m.sleepers ≤ 1)
    (hheld : t.pc.inside = true → m.sleepers + t.pc.debt ≤ t.pc.cap) :
    (m'.lock = none → m'.sleepers ≤ 1) ∧
      (t'.pc.inside = true → m'.sleepers + t'.pc.debt ≤ t'.pc.cap) := by
  cases h <;> simp_all [Pc.Ok, Pc.inside, Pc.debt, Pc.cap]
  all_goals omega

theorem Exec.waiting (h : Exec w i m t a m' t') (ha : a ≠ .contend) (hwait : t'.pc.waiting = true) :
    t.pc.waiting = true ∧ a = .run := by
  cases h <;> simp_all [Pc.waiting]

theorem Exec.waiting_of_grant (h : Exec w i m t .grant m' t') : t.pc.waiting = true := by
  cases h
  simp_all [Pc.waiting]

theorem Exec.queue (h : Exec w i m t a m' t') (hi : i ∈ m.queue ↔ t.pc.queued = true)
    (hn : m.queue.Nodup) :
    (i ∈ m'.queue ↔ t'.pc.queued = true) ∧ (∀ j, i ≠ j → (j ∈ m'.queue ↔ j ∈ m.queue)) ∧
      m'.queue.Nodup := by
  cases h
  case enqueue hpc =>
    have hni : i ∉ m.queue := by simp [hi, hpc, Pc.queued]
    refine ⟨by simp [Pc.queued], fun j hj => by simp [Ne.symm hj], ?_⟩
    exact List.nodup_append.mpr ⟨hn, by simp, by grind⟩
  case dequeue hpc =>
    refine ⟨by simp [hn.mem_erase_iff, Pc.queued], fun j hj => ?_, hn.erase i⟩
    exact List.mem_erase_of_ne (Ne.symm hj)
  all_goals simp_all [Pc.queued]

end Exec

/-! ## One step

A step that is not a statement on the semaphore moves a scan on, or wakes a task. -/

/-- To the semaphore `t'` is as `t`. -/
structure Like (m : Sem ι) (t t' : Task ι) : Prop where
  inside : t'.pc.inside = t.pc.inside
  queued : t'.pc.queued = t.pc.queued
  waiting : t'.pc.waiting = t.pc.waiting
  debt : t'.pc.debt = t.pc.debt
  cap : t'.pc.cap = t.pc.cap
  ok : t.pc.Ok m → t'.pc.Ok m
  task : t.Ok → t'.Ok

structure Still (s s' : State ι) : Prop where
  sem : s'.sem = s.sem
  like : ∀ j, Like s.sem (s.task j) (s'.task j)

theorem Like.refl (m : Sem ι) (t : Task ι) : Like m t t := ⟨rfl, rfl, rfl, rfl, rfl, id, id⟩

theorem Task.like_wake (m : Sem ι) (t : Task ι) : Like m t t.wake :=
  ⟨rfl, rfl, rfl, rfl, rfl, id, fun _ => ⟨nofun, fun _ _ => .inl rfl⟩⟩

theorem Task.like_signal {m : Sem ι} {t : Task ι} (h : t.state ≠ .interruptible) :
    Like m t { t with sigpending := true } where
  inside := rfl
  queued := rfl
  waiting := rfl
  debt := rfl
  cap := rfl
  ok := id
  task ht := ⟨fun ha => by simpa [Task.awake, h] using ht.array ha, ht.state⟩

theorem Task.like_signalWake (m : Sem ι) (t : Task ι) :
    Like m t { t.wake with sigpending := true } :=
  ⟨rfl, rfl, rfl, rfl, rfl, id, fun _ => ⟨nofun, fun _ _ => .inl rfl⟩⟩

theorem Task.like_signalTaken {m : Sem ι} {t : Task ι} (h : t.pc = .idle) :
    Like m t { t with sigpending := false } where
  inside := rfl
  queued := rfl
  waiting := rfl
  debt := rfl
  cap := rfl
  ok := id
  task ht := ⟨fun ha => by simpa [h] using ht.array ha, ht.state⟩

theorem Task.like_scan {m : Sem ι} {t : Task ι} {v : Waker} {j : ι} {rest : List ι} {c : Pc ι}
    (h : t.pc = .scan v (j :: rest)) (hc : c = .scan v rest ∨ c = .scanUnlock v) :
    Like m t (t.goto c) := by
  have harray : t.Ok → t.array = true := fun ht => by
    by_contra ha
    obtain ⟨⟨k, hk⟩, -⟩ := ht.array (by simpa using ha)
    rw [h] at hk
    cases hk
  have hrest : j :: rest <:+ m.queue → rest <:+ m.queue := (List.suffix_cons j rest).trans
  rcases hc with rfl | rfl <;> refine ⟨?_, ?_, ?_, ?_, ?_, ?_, fun ht => ⟨?_, ?_⟩⟩ <;>
    simp_all [Pc.inside, Pc.queued, Pc.waiting, Pc.debt, Pc.cap, Pc.Ok, Pc.waits]

variable [DecidableEq ι] {w : Int → Int}

theorem set_task (s : State ι) (i : ι) (t : Task ι) (j : ι) :
    (s.set i t).task j = if j = i then t else s.task j :=
  Function.update_apply ..

theorem forall_set {P : ι → Task ι → Prop} {s : State ι} {i : ι} {t : Task ι} (hi : P i t)
    (h : ∀ j, i ≠ j → P j (s.task j)) (j : ι) : P j ((s.set i t).task j) := by
  rw [set_task]
  split
  · subst j
    exact hi
  · exact h j (Ne.symm ‹_›)

theorem still_set {s : State ι} {i : ι} {t : Task ι} (h : Like s.sem (s.task i) t) :
    Still s (s.set i t) :=
  ⟨rfl, forall_set h fun _ _ => .refl ..⟩

theorem still_set_set {s : State ι} {i j : ι} {t u : Task ι} (h : Like s.sem (s.task i) t)
    (h' : Like s.sem (s.task j) u) : Still s ((s.set j u).set i t) :=
  ⟨rfl, forall_set h fun j' _ => (still_set h').like j'⟩

theorem Step.exec_or_still {s s' : State ι} {i : ι} {a : Act} (h : Step w s (i, a) s') :
    (∃ m t, Exec w i s.sem (s.task i) a m t ∧ s' = s.put i m t) ∨
      (Still s s' ∧ (a = .run ∨ a = .signal)) := by
  cases h with
  | exec h => exact .inl ⟨_, _, h, rfl⟩
  | scanSkip hpc hst => exact .inr ⟨still_set (Task.like_scan hpc (.inl rfl)), .inl rfl⟩
  | scanRunning hpc hst ha =>
    exact .inr ⟨still_set_set (Task.like_scan hpc (.inl rfl)) (Task.like_wake ..), .inl rfl⟩
  | scanWake hpc hst ha =>
    exact .inr ⟨still_set_set (Task.like_scan hpc (.inr rfl)) (Task.like_wake ..), .inl rfl⟩
  | signal hst => exact .inr ⟨still_set (Task.like_signal hst), .inr rfl⟩
  | signalWake => exact .inr ⟨still_set (Task.like_signalWake ..), .inr rfl⟩
  | signalTaken hpc => exact .inr ⟨still_set (Task.like_signalTaken hpc), .inr rfl⟩

theorem Step.waiting {s s' : State ι} {i : ι} {a : Act} (h : Step w s (i, a) s') :
    (a = .grant → (s.task i).pc.waiting = true) ∧
      ∀ j, (s'.task j).pc.waiting = true →
        ((s.task j).pc.waiting = true ∧ (j = i → a = .run ∨ a = .signal)) ∨
          (j = i ∧ a = .contend) := by
  obtain ⟨m, t, hexec, rfl⟩ | ⟨hstill, hlabel⟩ := h.exec_or_still
  · refine ⟨?_, forall_set (P := fun j u => u.pc.waiting = true →
      ((s.task j).pc.waiting = true ∧ (j = i → a = .run ∨ a = .signal)) ∨ (j = i ∧ a = .contend))
      (fun hwait => ?_) fun j hj hwait => ?_⟩
    · rintro rfl
      exact hexec.waiting_of_grant
    · by_cases ha : a = .contend
      · exact .inr ⟨rfl, ha⟩
      · obtain ⟨hbefore, hrun⟩ := hexec.waiting ha hwait
        exact .inl ⟨hbefore, fun _ => .inl hrun⟩
    · exact .inl ⟨hwait, fun he => absurd he.symm hj⟩
  · refine ⟨?_, fun j hwait => .inl ⟨?_, fun _ => hlabel⟩⟩
    · rintro rfl
      simp at hlabel
    · rwa [(hstill.like j).waiting] at hwait

/-! ## The invariant -/

section Inv

variable [Fintype ι]

/-- `sleepers` with the debts: the calls that `count` is below the tokens by. -/
def State.owed (s : State ι) : Int := s.sem.sleepers + ∑ i, (s.task i).pc.debt

def State.tokens (s : State ι) : Int := s.sem.count + s.owed

structure Inv (s : State ι) : Prop where
  task : ∀ i, (s.task i).Ok
  inside : ∀ i, (s.task i).pc.inside = true ↔ s.sem.lock = some i
  ok : ∀ i, (s.task i).pc.Ok s.sem
  queued : ∀ i, i ∈ s.sem.queue ↔ (s.task i).pc.queued = true
  nodup : s.sem.queue.Nodup
  sleepers : 0 ≤ s.sem.sleepers
  tokens : 0 ≤ s.tokens

omit [DecidableEq ι] in
theorem inv_init {val : Int} (h : 0 ≤ val) : Inv (State.init val : State ι) where
  task _ := ⟨nofun, nofun⟩
  inside _ := by simp [State.init, Task.idle, Pc.inside, semaInit]
  ok _ := trivial
  queued _ := by simp [State.init, Task.idle, Pc.queued, semaInit]
  nodup := .nil
  sleepers := le_rfl
  tokens := by simpa [State.tokens, State.owed, State.init, semaInit, Task.idle, Pc.debt] using h

/-- The debts of all tasks but one. -/
def State.others (s : State ι) (i : ι) : Int := ∑ j ∈ Finset.univ.erase i, (s.task j).pc.debt

theorem State.owed_eq (s : State ι) (i : ι) :
    s.owed = s.sem.sleepers + (s.task i).pc.debt + s.others i := by
  unfold State.owed State.others
  rw [← Finset.add_sum_erase Finset.univ _ (Finset.mem_univ i), add_assoc]

theorem others_exec (s : State ι) (i : ι) (m : Sem ι) (t : Task ι) :
    (s.put i m t).others i = s.others i := by
  refine Finset.sum_congr rfl fun j hj => ?_
  change ((s.set i t).task j).pc.debt = _
  rw [set_task, if_neg (Finset.ne_of_mem_erase hj)]

theorem Inv.others_nonneg {s : State ι} (hi : Inv s) {i : ι}
    (hl : ∀ j, s.sem.lock = some j → j = i) : 0 ≤ s.others i := by
  refine Finset.sum_nonneg fun j hj => Pc.debt_nonneg ?_
  by_contra hin
  exact Finset.ne_of_mem_erase hj (hl j ((hi.inside j).mp (by simpa using hin)))

/-- The others are outside the lock and owe nothing, or one each. -/
theorem Inv.add_debt_le {s : State ι} (hi : Inv s) {i : ι}
    (hin : (s.task i).pc.inside = true) :
    s.sem.count + s.sem.sleepers + (s.task i).pc.debt ≤ s.tokens := by
  have hlock := (hi.inside i).mp hin
  have hothers := hi.others_nonneg (i := i) (by simp [hlock])
  unfold State.tokens
  rw [s.owed_eq i]
  omega

theorem Inv.owed_nonneg {s : State ι} (hi : Inv s) : 0 ≤ s.owed := by
  cases hl : s.sem.lock with
  | none =>
    refine add_nonneg hi.sleepers (Finset.sum_nonneg fun j _ => Pc.debt_nonneg ?_)
    simpa [hl] using hi.inside j
  | some i =>
    have h1 := hi.others_nonneg (i := i) (by grind)
    have h2 := Pc.debt_add_sleepers (hi.ok i) hi.sleepers
    rw [s.owed_eq i]
    omega

theorem tokens_exec {s : State ι} {i : ι} {a : Act} {m : Sem ι} {t : Task ι}
    (h : Exec w i s.sem (s.task i) a m t) (hok : (s.task i).pc.Ok s.sem)
    (hx : Exact w s.sem (s.task i).pc a) : (s.put i m t).tokens = s.tokens + a.gain := by
  have hsum := h.sum hok hx
  have hself : (s.set i t).task i = t := Function.update_self ..
  unfold State.tokens
  rw [State.owed_eq _ i, s.owed_eq i, others_exec]
  simp only [State.put, hself]
  omega

omit [DecidableEq ι] in
theorem tokens_still {s s' : State ι} (h : Still s s') : s'.tokens = s.tokens := by
  unfold State.tokens State.owed
  rw [h.sem]
  simp only [(h.like _).debt]

theorem Inv.one_le_tokens {s : State ι} (hi : Inv s) {i : ι} {a : Act} {m : Sem ι} {t : Task ι}
    (h : Exec w i s.sem (s.task i) a m t) (hx : Exact w s.sem (s.task i).pc a)
    (ha : a.event = some .take) : 1 ≤ s.tokens := by
  cases h <;> try cases ha
  case take hpc hc =>
    rw [hx.down] at hc
    have := hi.owed_nonneg
    unfold State.tokens
    omega
  case grant k sl hpc hsig hc =>
    rw [hx.test k sl hpc] at hc
    have hok := hi.ok i
    rw [hpc] at hok
    have hsl : sl = s.sem.sleepers := hok
    have hle := hi.add_debt_le (i := i) (by rw [hpc]; rfl)
    rw [hpc] at hle
    simp only [Pc.debt] at hle
    omega

omit [DecidableEq ι] in
theorem Inv.outside {s : State ι} (hi : Inv s) {i j : ι} (hj : i ≠ j)
    (hin : (s.task j).pc.inside = true) : (s.task i).pc.inside = false := by
  by_contra hc
  have hli := (hi.inside i).mp (by simpa using hc)
  exact hj (Option.some.inj (hli.symm.trans ((hi.inside j).mp hin)))

theorem Inv.exec {s : State ι} (hi : Inv s) {i : ι} {a : Act} {m : Sem ι} {t : Task ι}
    (h : Exec w i s.sem (s.task i) a m t) (hx : Exact w s.sem (s.task i).pc a) :
    Inv (s.put i m t) := by
  have hin := h.inside (hi.inside i)
  have hok := h.ok (hi.ok i) hi.sleepers
  have hq := h.queue (hi.queued i) hi.nodup
  -- the others are outside the lock, or nothing they know has changed
  have hothers : ∀ j, i ≠ j → (s.task j).pc.Ok m := by
    intro j hj
    cases hjin : (s.task j).pc.inside with
    | false => exact Pc.ok_of_inside_eq_false m hjin
    | true =>
      obtain ⟨hs, hqu⟩ := h.frame (hi.outside hj hjin)
      exact Pc.ok_congr hs hqu (hi.ok j)
  constructor
  case task => exact forall_set (h.task_ok (hi.task i)) fun j _ => hi.task j
  case inside =>
    exact forall_set (P := fun j u => u.pc.inside = true ↔ m.lock = some j) hin.1
      fun j hj => (hi.inside j).trans (hin.2 j hj).symm
  case ok => exact forall_set (P := fun _ u => u.pc.Ok m) hok.1 hothers
  case queued =>
    exact forall_set (P := fun j u => j ∈ m.queue ↔ u.pc.queued = true) hq.1
      fun j hj => (hq.2.1 j hj).trans (hi.queued j)
  case nodup => exact hq.2.2
  case sleepers => exact hok.2
  case tokens =>
    rw [tokens_exec h (hi.ok i) hx]
    have hnonneg := hi.tokens
    unfold Act.gain
    split
    case h_1 hev =>
      have hone := hi.one_le_tokens h hx hev
      omega
    all_goals omega

omit [DecidableEq ι] in
theorem Inv.still {s s' : State ι} (hi : Inv s) (h : Still s s') : Inv s' where
  task i := (h.like i).task (hi.task i)
  inside i := by rw [(h.like i).inside, h.sem]; exact hi.inside i
  ok i := h.sem ▸ (h.like i).ok (hi.ok i)
  queued i := by rw [(h.like i).queued, h.sem]; exact hi.queued i
  nodup := h.sem ▸ hi.nodup
  sleepers := h.sem ▸ hi.sleepers
  tokens := (tokens_still h).symm ▸ hi.tokens

/-! ## The counters are small -/

structure Small (s : State ι) : Prop where
  free : s.sem.lock = none → s.sem.sleepers ≤ 1
  held : ∀ i, (s.task i).pc.inside = true →
    s.sem.sleepers + (s.task i).pc.debt ≤ (s.task i).pc.cap

omit [Fintype ι] [DecidableEq ι] in
theorem small_init (val : Int) : Small (State.init val : State ι) where
  free _ := by simp [State.init, semaInit]
  held _ hin := by cases hin

theorem Small.step {s s' : State ι} {l : ι × Act} (hi : Inv s) (hs : Small s)
    (h : Step w s l s') : Small s' := by
  obtain ⟨i, a⟩ := l
  obtain ⟨m, t, hexec, rfl⟩ | ⟨hstill, -⟩ := h.exec_or_still
  · obtain ⟨hfree, hheld⟩ := hexec.small (hi.ok i) (hi.inside i) hs.free (hs.held i)
    refine ⟨hfree, forall_set
      (P := fun j u => u.pc.inside = true → m.sleepers + u.pc.debt ≤ u.pc.cap)
      hheld fun j hj hin => ?_⟩
    -- the lock is another task's, so that `sleepers` is as before
    rw [(hexec.frame (hi.outside hj hin)).1]
    exact hs.held j hin
  · refine ⟨fun hl => hstill.sem ▸ hs.free (hstill.sem ▸ hl), fun j hin => ?_⟩
    have hlike := hstill.like j
    rw [hlike.inside] at hin
    rw [hstill.sem, hlike.debt, hlike.cap]
    exact hs.held j hin

/-- `count` is below the tokens by one for each task at most, and one. -/
theorem Small.owed_le {s : State ι} (hi : Inv s) (hs : Small s) :
    s.owed ≤ Fintype.card ι + 1 := by
  have hdebt : ∀ j, s.sem.lock ≠ some j → (s.task j).pc.debt ≤ 1 := fun j hj =>
    Pc.debt_le (by
      by_contra hc
      exact hj ((hi.inside j).mp (by simpa using hc)))
  cases hl : s.sem.lock with
  | none =>
    have hfree := hs.free hl
    have hsum := Finset.sum_le_card_nsmul Finset.univ (fun j => (s.task j).pc.debt) 1
      fun j _ => hdebt j (by simp [hl])
    simp only [Finset.card_univ, Int.nsmul_eq_mul, mul_one] at hsum
    unfold State.owed
    omega
  | some i =>
    have hheld := hs.held i ((hi.inside i).mpr hl)
    have hcap := (s.task i).pc.cap_le
    have hsum := Finset.sum_le_card_nsmul (Finset.univ.erase i) (fun j => (s.task j).pc.debt) 1
      fun j hj => hdebt j (by simpa [hl] using (Finset.ne_of_mem_erase hj).symm)
    simp only [Finset.card_erase_of_mem (Finset.mem_univ i), Finset.card_univ, Int.nsmul_eq_mul,
      mul_one] at hsum
    have hpos : 0 < Fintype.card ι := Fintype.card_pos_iff.mpr ⟨i⟩
    rw [s.owed_eq i]
    unfold State.others
    omega

/-! ## No value is cut -/

/-- `w` leaves alone what `count` comes to with these tasks and `top` tokens at most. -/
def Fits (w : Int → Int) (ι : Type) [Fintype ι] (top : Int) : Prop :=
  ∀ x, -(Fintype.card ι + 2 : Int) ≤ x → x ≤ top → w x = x

omit [DecidableEq ι] in
theorem fits_atomic (hcard : (Fintype.card ι : Int) < intMax) {top : Int} (htop : top ≤ intMax) :
    Fits atomic ι top := by
  unfold intMax at hcard htop
  intro x hl hh
  exact CInt.intW_of_range (by decide) (by norm_num; omega) (by norm_num; omega)

/-- A state with `top` tokens at most. -/
structure Good (top : Int) (s : State ι) : Prop extends Inv s where
  small : Small s
  le_top : s.tokens ≤ top

/-- There is room for the token that the step gives. -/
def Within (top : Int) (s : State ι) (l : ι × Act) : Prop := l.2 = .give → s.tokens < top

variable {top : Int}

omit [DecidableEq ι] in
theorem within_of_event {s : State ι} {p : ι × Act} (h : p.2.event ≠ some .give) :
    Within top s p := by
  intro hgive
  rw [hgive] at h
  exact absurd rfl h

theorem Good.exact {s : State ι} (hg : Good top s) (hfit : Fits w ι top) {i : ι} {a : Act}
    (hroom : Within top s (i, a)) : Exact w s.sem (s.task i).pc a := by
  have howed := hg.small.owed_le hg.toInv
  have hnonneg := hg.owed_nonneg
  have htokens : s.tokens = s.sem.count + s.owed := rfl
  have hpos := hg.tokens
  have htop := hg.le_top
  have hok := hg.ok i
  have hle := hg.add_debt_le (i := i)
  refine ⟨?_, fun ha => ?_, fun k sl hpc => ?_, fun sl hpc => ?_, fun sl hpc => ?_⟩
  · exact hfit _ (by omega) (by omega)
  · have hlt := hroom ha
    exact hfit _ (by omega) (by omega)
  · rw [hpc] at hok hle
    have hsl : sl = s.sem.sleepers := hok
    have hsleepers := hg.sleepers
    have hbelow := hle rfl
    simp only [Pc.debt] at hbelow
    exact hfit _ (by omega) (by omega)
  · rw [hpc] at hok hle
    obtain ⟨hzero, hsl⟩ : s.sem.sleepers = 0 ∧ 0 ≤ sl := hok
    have hbelow := hle rfl
    simp only [Pc.debt] at hbelow
    exact hfit _ (by omega) (by omega)
  · rw [hpc] at hok hle
    obtain ⟨hzero, hsl⟩ : s.sem.sleepers = 0 ∧ 0 ≤ sl := hok
    have hbelow := hle rfl
    simp only [Pc.debt] at hbelow
    exact hfit _ (by omega) (by omega)

theorem tokens_step {s s' : State ι} {i : ι} {a : Act} (hg : Good top s) (hfit : Fits w ι top)
    (h : Step w s (i, a) s') (hroom : Within top s (i, a)) : s'.tokens = s.tokens + a.gain := by
  obtain ⟨m, t, hexec, rfl⟩ | ⟨hstill, hlabel⟩ := h.exec_or_still
  · exact tokens_exec hexec (hg.ok i) (hg.exact hfit hroom)
  · rw [tokens_still hstill]
    rcases hlabel with rfl | rfl <;> exact (add_zero _).symm

/-- **A step keeps the state good.** -/
theorem Good.step {s s' : State ι} {l : ι × Act} (hg : Good top s) (hfit : Fits w ι top)
    (h : Step w s l s') (hroom : Within top s l) : Good top s' where
  toInv := by
    obtain ⟨m, t, hexec, rfl⟩ | ⟨hstill, -⟩ := h.exec_or_still
    · exact hg.exec hexec (hg.exact hfit hroom)
    · exact hg.still hstill
  small := hg.small.step hg.toInv h
  le_top := by
    obtain ⟨i, a⟩ := l
    have hle := hg.le_top
    rw [tokens_step hg hfit h hroom]
    cases a with
    | give =>
      have hlt := hroom rfl
      exact Int.add_one_le_of_lt hlt
    | _ =>
      simp only [Act.gain, Act.event]
      omega

omit [DecidableEq ι] in
theorem good_init {n : Nat} (hn : n ≤ top) : Good top (State.init n : State ι) where
  toInv := inv_init (Int.natCast_nonneg n)
  small := small_init n
  le_top := by simpa [State.tokens, State.owed, State.init, semaInit, Task.idle, Pc.debt] using hn

/-! ## The semaphore counts -/

/-- The semaphore holds `n` tokens. -/
def Holds (top : Int) (s : State ι) (n : Nat) : Prop := Good top s ∧ s.tokens = n

theorem holds_refines (hfit : Fits w ι top) :
    Refines (fun s l s' => Step w s l s' ∧ Within top s l) Counting (fun l => l.2.event)
      (Holds (ι := ι) top) where
  visible := by
    rintro s s' ⟨i, a⟩ n e ⟨hg, hn⟩ ⟨hstep, hroom⟩ hev
    have hg' := hg.step hfit hstep hroom
    have htok := tokens_step hg hfit hstep hroom
    have hpos := hg'.tokens
    cases e with
    | take =>
      simp only [Act.gain, hev] at htok
      obtain ⟨k, rfl⟩ : ∃ k, n = k + 1 := ⟨n - 1, by omega⟩
      exact ⟨k, .take, hg', by omega⟩
    | give =>
      simp only [Act.gain, hev] at htok
      exact ⟨n + 1, .give, hg', by omega⟩
  silent := by
    rintro s s' ⟨i, a⟩ n ⟨hg, hn⟩ ⟨hstep, hroom⟩ hev
    refine ⟨hg.step hfit hstep hroom, ?_⟩
    simpa [Act.gain, hev, hn] using tokens_step hg hfit hstep hroom

omit [DecidableEq ι] in
theorem holds_init {n : Nat} (hn : n ≤ top) : Holds top (State.init n : State ι) n :=
  ⟨good_init hn, by simp [State.tokens, State.owed, State.init, semaInit, Task.idle, Pc.debt]⟩

end Inv

end Cs370.Semaphore
