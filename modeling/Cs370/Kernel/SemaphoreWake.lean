import Cs370.Kernel.SemaphoreInv

/-!
# No wake-up is lost

A task *helps* when it will look at the semaphore again, or wake the first waiter, without
anything else happening. While nobody helps, the waiters are right to sleep: the semaphore has no
token (`Covered`). And the steps of the calls under way lower a potential, so that they come to
an end, whatever the order: then every task is out of the semaphore's functions or asleep.
-/

namespace Cs370.Semaphore

open Cs370.Trans

variable {ι : Type}

section Helps

variable [DecidableEq ι]

/-- The task will test the semaphore or wake a waiter. -/
def Task.helps (queue : List ι) (t : Task ι) : Bool :=
  match t.pc with
  | .idle => false
  | .stateEnd _ => false
  | .scanUnlock _ => false
  | .one _ _ => t.awake
  | .unlock _ => t.awake
  | .schedule _ => t.awake
  | .scan _ rest => rest = queue
  | _ => true

theorem Pc.debt_eq_zero {q : List ι} {t : Task ι} (hin : t.pc.inside = false)
    (hh : t.helps q = false) : t.pc.debt = 0 := by
  unfold Task.helps at hh
  split at hh <;> simp_all [Pc.inside, Pc.debt]

omit [DecidableEq ι] in
theorem Pc.of_queued {c : Pc ι} (hq : c.queued = true) (hin : c.inside = false) :
    ∃ k, c = .schedule k ∨ c = .relock k := by
  cases c <;> simp_all [Pc.queued, Pc.inside]

theorem Task.helps_of_running {q : List ι} {t : Task ι} (hq : t.pc.queued = true)
    (hin : t.pc.inside = false) (hst : t.state = .running) : t.helps q = true := by
  obtain ⟨k, hk | hk⟩ := Pc.of_queued hq hin <;> simp [Task.helps, hk, Task.awake, hst]

end Helps

section Covered

variable [DecidableEq ι] [Fintype ι] {w : Int → Int}

/-- If nobody helps while tasks wait, there is no token, and `count` says that one waits. -/
def Covered (s : State ι) : Prop :=
  s.sem.queue ≠ [] → (∀ i, (s.task i).helps s.sem.queue = false) → s.tokens = 0 ∧ s.owed = 1

theorem Inv.others_eq_zero {s : State ι} (hi : Inv s) {i : ι} {q : List ι}
    (hl : ∀ j, s.sem.lock = some j → j = i) (hh : ∀ j, i ≠ j → (s.task j).helps q = false) :
    s.others i = 0 := by
  refine Finset.sum_eq_zero fun j hj => ?_
  have hne := Finset.ne_of_mem_erase hj
  refine Pc.debt_eq_zero ?_ (hh j hne.symm)
  by_contra hin
  exact hne (hl j ((hi.inside j).mp (by simpa using hin)))

omit [Fintype ι] in
/-- A statement after which the task does not help is one before which it did not, or a failed
test of the semaphore. -/
theorem Exec.helps {i : ι} {a : Act} {m m' : Sem ι} {t t' : Task ι} (h : Exec w i m t a m' t')
    (hx : Exact w m t.pc a) (hne : m'.queue ≠ []) (hh : t'.helps m'.queue = false) :
    m'.queue = m.queue ∧
      ((t.helps m.queue = false ∧ (0 ≤ m.count ∨ m'.count = m.count ∧ a.gain = 0)) ∨
        (∃ k sl, t.pc = .test k sl ∧ t'.pc = .one k sl ∧ m'.count < 0) ∨
        ∃ sl, t.pc = .tryAdd sl ∧ t'.pc = .scanUnlock .trylock ∧ m'.count < 0 ∧
          m'.sleepers = m.sleepers) := by
  have hdown := hx.down
  cases h <;> simp_all [Task.helps, Act.gain, Act.event, Ne.symm hne]
  all_goals first | exact hh | omega

theorem Covered.exec {s : State ι} (hi : Inv s) (hc : Covered s) {i : ι} {a : Act} {m : Sem ι}
    {t : Task ι} (h : Exec w i s.sem (s.task i) a m t) (hx : Exact w s.sem (s.task i).pc a) :
    Covered (s.put i m t) := by
  intro hne hquiet
  have hself : (s.put i m t).task i = t := Function.update_self ..
  have hother : ∀ j, i ≠ j → (s.put i m t).task j = s.task j := fun j hj =>
    Function.update_of_ne hj.symm ..
  obtain ⟨hq, hcase⟩ := h.helps hx hne (hself ▸ hquiet i)
  have hh : ∀ j, i ≠ j → (s.task j).helps m.queue = false := fun j hj =>
    hother j hj ▸ hquiet j
  have hi' := hi.exec h hx
  have htok := tokens_exec h (hi.ok i) hx
  have hnonneg := hi'.tokens
  have hdef : s.tokens = s.sem.count + s.owed := rfl
  have hdef' : (s.put i m t).tokens = m.count + (s.put i m t).owed := rfl
  -- in the lock, the task is the only one that owes anything
  have howed : t.pc.inside = true → (s.put i m t).owed = m.sleepers + t.pc.debt := by
    intro hin
    have hl : (s.put i m t).sem.lock = some i := (hi'.inside i).mp (by rwa [hself])
    have hz := hi'.others_eq_zero (q := m.queue) (fun j hj => Option.some.inj (hj.symm.trans hl))
      fun j hj => hother j hj ▸ hh j hj
    rw [State.owed_eq _ i, hz, hself, add_zero]
    rfl
  obtain ⟨hhelps, hcount⟩ | ⟨k, sl, hpc, hpc', hneg⟩ | ⟨sl, hpc, hpc', hneg, hsl⟩ := hcase
  · -- nobody helped before, and the step has left the sums
    have hbefore := hc (hq ▸ hne) fun j => by
      by_cases hj : i = j
      · exact hj ▸ hhelps
      · exact hq ▸ hh j hj
    omega
  · -- the semaphore has been tested in vain: what `count` lacks is one
    have hok : t.pc.Ok m := hself ▸ hi'.ok i
    rw [hpc'] at hok howed
    have hsl : sl = m.sleepers := hok
    have hone := howed rfl
    simp only [Pc.debt] at hone
    omega
  · -- a `trylock` that fails leaves `count` negative only for one that will help
    have hok := hi.ok i
    rw [hpc] at hok
    have hz : s.sem.sleepers = 0 := hok.1
    rw [hpc'] at howed
    have hzero := howed rfl
    simp only [Pc.debt] at hzero
    omega

omit [DecidableEq ι] in
theorem Inv.scanned {s : State ι} (hi : Inv s) {i j : ι} {v : Waker} {rest : List ι}
    (hpc : (s.task i).pc = .scan v (j :: rest)) :
    j ≠ i ∧ (s.task j).pc.queued = true ∧ (s.task j).pc.inside = false := by
  have hok := hi.ok i
  rw [hpc] at hok
  have hrest : j :: rest <:+ s.sem.queue := hok
  have hj := (hi.queued j).mp (hrest.subset List.mem_cons_self)
  have hne : j ≠ i := by
    rintro rfl
    rw [hpc] at hj
    cases hj
  exact ⟨hne, hj, hi.outside hne (by rw [hpc]; rfl)⟩

omit [DecidableEq ι] in
theorem owed_still {s s' : State ι} (h : Still s s') : s'.owed = s.owed := by
  unfold State.owed
  rw [h.sem]
  simp only [(h.like _).debt]

theorem Covered.signal {s : State ι} (hc : Covered s) {i : ι} {t : Task ι}
    (h : Like s.sem (s.task i) t)
    (hh : t.helps s.sem.queue = false → (s.task i).helps s.sem.queue = false) :
    Covered (s.set i t) := by
  intro hne hquiet
  have hstill := still_set h
  rw [tokens_still hstill, owed_still hstill]
  refine hc hne fun j => ?_
  have hj := hquiet j
  rw [set_task] at hj
  split at hj
  · subst j
    exact hh hj
  · exact hj

theorem covered_of_helps {s : State ι} {j : ι} (h : (s.task j).helps s.sem.queue = true) :
    Covered s := by
  intro _ hquiet
  rw [hquiet j] at h
  cases h

theorem Covered.step {top : Int} {s s' : State ι} {l : ι × Act} (hi : Good top s)
    (hc : Covered s) (hfit : Fits w ι top) (h : Step w s l s') (hroom : Within top s l) :
    Covered s' := by
  cases h with
  | exec h => exact hc.exec hi.toInv h (hi.exact hfit hroom)
  | @scanSkip i j v rest hpc hst =>
    obtain ⟨hne, hq, hin⟩ := hi.scanned hpc
    refine covered_of_helps (j := j) ?_
    rw [set_task, if_neg hne]
    exact Task.helps_of_running hq hin hst
  | @scanRunning i j v rest hpc hst ha =>
    obtain ⟨hne, hq, hin⟩ := hi.scanned hpc
    refine covered_of_helps (j := j) ?_
    rw [set_task, if_neg hne, set_task, if_pos rfl]
    exact Task.helps_of_running (t := (s.task j).wake) hq hin rfl
  | @scanWake i j v rest hpc hst ha =>
    obtain ⟨hne, hq, hin⟩ := hi.scanned hpc
    refine covered_of_helps (j := j) ?_
    rw [set_task, if_neg hne, set_task, if_pos rfl]
    exact Task.helps_of_running (t := (s.task j).wake) hq hin rfl
  | signal hst =>
    refine hc.signal (Task.like_signal hst) fun hh => ?_
    simpa [Task.helps, Task.awake, hst] using hh
  | @signalWake i hst =>
    refine hc.signal (Task.like_signalWake ..) fun hh => ?_
    unfold Task.helps at hh ⊢
    simp only [Task.wake] at hh
    split at hh <;> simp_all [Task.awake]
  | signalTaken hpc =>
    refine hc.signal (Task.like_signalTaken hpc) fun _ => ?_
    simp [Task.helps, hpc]

theorem covered_run {top : Int} (hfit : Fits w ι top) {n : Nat} (hn : n ≤ top) {s : State ι}
    {l : List (State ι × (ι × Act))} (h : Run (Step w) (State.init n) l s)
    (hroom : ∀ p ∈ l, Within top p.1 p.2) : Good top s ∧ Covered s := by
  have hstep : ∀ s a t, (Good top s ∧ Covered s) → Step w s a t → Within top s a →
      Good top t ∧ Covered t :=
    fun s a t hs hst ha => ⟨hs.1.step hfit hst ha, hs.2.step hs.1 hfit hst ha⟩
  exact (h.good_of_ok hstep ⟨good_init hn, fun hne => absurd rfl hne⟩ hroom).2

end Covered

/-! ## The calls come to an end -/

section Potential

/-- The task has been woken and has not seen it: it will go through `schedule` once more. -/
def Task.late (t : Task ι) (k : Down) : Bool :=
  t.state = .running && !(k = .interruptible && t.sigpending)

/-- The steps that are left to the task, with `n` tasks in all. A step of a scan pays for the
way of the waiter it wakes, through `schedule` and back. -/
def Task.potential (n : Nat) (t : Task ι) : Nat :=
  match t.pc with
  | .idle => 0
  | .stateEnd _ => 1
  | .scanUnlock _ => 2
  | .scan _ rest => 13 * rest.length + 3
  | .upLock => 13 * n + 4
  | .dequeue _ => 13 * n + 5
  | .intrAdd _ => 13 * n + 6
  | .tryAdd _ => 13 * n + 6
  | .zero _ => 13 * n + 7
  | .intrZero _ => 13 * n + 7
  | .tryZero _ => 13 * n + 7
  | .tryRead => 13 * n + 8
  | .tryLock => 13 * n + 9
  | .schedule _ => 13 * n + 4 + t.array.toNat + 12 * t.awake.toNat
  | .unlock _ => 13 * n + 6 + 12 * t.awake.toNat
  | .one _ _ => 13 * n + 7 + 12 * t.awake.toNat
  | .test k _ => 13 * n + 8 + 12 * (t.late k).toNat
  | .read k => 13 * n + 9 + 12 * (t.late k).toNat
  | .incr k => 13 * n + 10 + 12 * (t.late k).toNat
  | .enqueue k => 13 * n + 11 + 12 * (t.late k).toNat
  | .lock k => 13 * n + 12 + 12 * (t.late k).toNat
  | .setState _ => 13 * n + 13
  | .restate _ => 13 * n + 15
  | .relock _ => 13 * n + 16

theorem Down.state_ne_running (k : Down) : k.state ≠ .running := by
  cases k <;> nofun

/-- Where the semaphore is tested, only a waiter that is late is awake. -/
theorem Task.Ok.late_of_awake {t : Task ι} {k : Down} {sl : Int} (ht : t.Ok)
    (hpc : t.pc = .test k sl) (hsig : ¬ (k = .interruptible ∧ t.sigpending = true))
    (ha : t.awake = true) : t.late k = true := by
  have hst := ht.state k (by rw [hpc]; rfl)
  cases k <;> simp_all [Task.awake, Task.late, Down.state]
  all_goals grind

@[simp]
theorem goto_late (t : Task ι) (c : Pc ι) (k : Down) : (t.goto c).late k = t.late k := rfl

theorem Exec.potential_lt [DecidableEq ι] {w : Int → Int} {i : ι} {a : Act} {m m' : Sem ι}
    {t t' : Task ι} {n : Nat} (h : Exec w i m t a m' t') (hown : a.own = true) (ht : t.Ok)
    (hn : m.queue.length ≤ n) : t'.potential n < t.potential n := by
  have herase := List.length_erase_le (a := i) (l := m.queue)
  have harray := t.array.toNat_le
  cases h <;> try cases hown
  case testFail k sl hpc hsig hneg =>
    have hlate := ht.late_of_awake hpc hsig
    simp only [Task.potential, hpc, goto_pc, goto_awake]
    cases ha : t.awake with
    | false => simp only [Bool.toNat_false]; omega
    | true => simp only [hlate ha, Bool.toNat_true]; omega
  case setState hpc => simp [Task.potential, hpc, Task.late, Down.state_ne_running]
  case restate hpc => simp [Task.potential, hpc, Task.late, Down.state_ne_running]
  case deactivate hpc ha hst hsig =>
    simp only [Task.potential, hpc, ha, Task.awake, Bool.toNat_true, Bool.toNat_false]
    omega
  case scheduleSignal hpc ha hst hsig => simp [Task.potential, hpc, ha, Task.awake, hst, hsig]
  case scheduleReturn hpc ha hst => simp [Task.potential, hpc, ha, Task.awake, hst]
  all_goals
    simp only [Task.potential, goto_pc, goto_awake, goto_late, goto_array, List.length_nil, *]
    omega

theorem Task.potential_scan {n : Nat} {t : Task ι} {v : Waker} {j : ι} {rest : List ι}
    (h : t.pc = .scan v (j :: rest)) :
    (t.goto (.scan v rest)).potential n + 12 < t.potential n := by
  simp only [Task.potential, goto_pc, h, List.length_cons]
  omega

theorem Task.potential_scanUnlock {n : Nat} {t : Task ι} {v : Waker} {j : ι} {rest : List ι}
    (h : t.pc = .scan v (j :: rest)) :
    (t.goto (.scanUnlock v)).potential n + 13 < t.potential n := by
  simp only [Task.potential, goto_pc, h, List.length_cons]
  omega

theorem Task.potential_wake (n : Nat) {t : Task ι} (hq : t.pc.queued = true)
    (hin : t.pc.inside = false) :
    t.wake.potential n + t.array.toNat ≤ t.potential n + 13 := by
  have hpc : t.wake.pc = t.pc := rfl
  have hawake : t.wake.awake = true := rfl
  have harray : t.wake.array = true := rfl
  have hle := t.array.toNat_le
  obtain ⟨k, hk | hk⟩ := Pc.of_queued hq hin
  · simp only [Task.potential, hpc, hk, hawake, harray, Bool.toNat_true]
    omega
  · simp only [Task.potential, hpc, hk]
    omega

variable [Fintype ι]

def State.potential (s : State ι) : Nat := ∑ i, (s.task i).potential (Fintype.card ι)

variable [DecidableEq ι] {w : Int → Int}

theorem potential_set (s : State ι) (i : ι) (t : Task ι) :
    (s.set i t).potential + (s.task i).potential (Fintype.card ι) =
      s.potential + t.potential (Fintype.card ι) :=
  sum_update_add (Task.potential (Fintype.card ι)) s.task i t

/-- A scan that wakes a task loses more than the task gains. -/
theorem potential_set_set {s : State ι} {i j : ι} {t u : Task ι} {k : Nat} (hne : j ≠ i)
    (ht : t.potential (Fintype.card ι) + k < (s.task i).potential (Fintype.card ι))
    (hu : u.potential (Fintype.card ι) ≤ (s.task j).potential (Fintype.card ι) + k) :
    ((s.set j u).set i t).potential < s.potential := by
  have h1 := potential_set s j u
  have h2 := potential_set (s.set j u) i t
  rw [set_task, if_neg hne.symm] at h2
  omega

theorem Step.potential_lt {s s' : State ι} {l : ι × Act} (hi : Inv s)
    (h : Step w s l s') (hown : l.2.own = true) : s'.potential < s.potential := by
  cases h with
  | @exec i a m t h =>
    have hlt := h.potential_lt hown (hi.task i) hi.nodup.length_le_card
    have := potential_set s i t
    change (s.set i t).potential < _
    omega
  | @scanSkip i j v rest hpc hst =>
    have hlt := Task.potential_scan (n := Fintype.card ι) hpc
    have := potential_set s i ((s.task i).goto (.scan v rest))
    omega
  | @scanRunning i j v rest hpc hst ha =>
    obtain ⟨hne, hq, hin⟩ := hi.scanned hpc
    have hwake := Task.potential_wake (Fintype.card ι) hq hin
    rw [ha, Bool.toNat_true] at hwake
    exact potential_set_set hne (Task.potential_scan hpc) (by omega)
  | @scanWake i j v rest hpc hst ha =>
    obtain ⟨hne, hq, hin⟩ := hi.scanned hpc
    have hwake := Task.potential_wake (Fintype.card ι) hq hin
    exact potential_set_set hne (Task.potential_scanUnlock hpc) (by omega)
  | signal => cases hown
  | signalWake => cases hown
  | signalTaken => cases hown

omit [Fintype ι] in
theorem State.exists_step (s : State ι) {i : ι} (hidle : (s.task i).pc ≠ .idle)
    (harray : (s.task i).array = true)
    (hlock : (s.task i).pc.inside = true ∨ s.sem.lock = none) :
    ∃ a s', a.own = true ∧ Step w s (i, a) s' := by
  have run : ∀ {m t}, Exec w i s.sem (s.task i) .run m t →
      ∃ a s', Act.own a = true ∧ Step w s (i, a) s' := fun h => ⟨.run, _, rfl, .exec h⟩
  have free : (s.task i).pc.inside = false → s.sem.lock = none := fun h => by
    rcases hlock with hl | hl
    · rw [h] at hl
      cases hl
    · exact hl
  cases hpc : (s.task i).pc with
  | idle => exact absurd hpc hidle
  | setState k => exact run (.setState hpc)
  | lock k => exact run (.lock hpc (free (by rw [hpc]; rfl)))
  | enqueue k => exact run (.enqueue hpc)
  | incr k => exact run (.incr hpc)
  | read k => exact run (.read hpc)
  | test k sl =>
    by_cases hsig : k = .interruptible ∧ (s.task i).sigpending = true
    · obtain ⟨rfl, hsig⟩ := hsig
      exact run (.testSignal hpc hsig)
    · by_cases hneg : w (s.sem.count + (sl - 1)) < 0
      · exact run (.testFail hpc hsig hneg)
      · exact ⟨.grant, _, rfl, .exec (.grant hpc hsig hneg)⟩
  | intrZero sl => exact run (.intrZero hpc)
  | intrAdd sl => exact run (.intrAdd hpc)
  | zero sl => exact run (.zero hpc)
  | one k sl => exact run (.one hpc)
  | unlock k => exact run (.unlock hpc)
  | schedule k =>
    by_cases hst : (s.task i).state = .running
    · exact run (.scheduleReturn hpc harray hst)
    · by_cases hsig : (s.task i).state = .interruptible ∧ (s.task i).sigpending = true
      · exact run (.scheduleSignal hpc harray hsig.1 hsig.2)
      · exact run (.deactivate hpc harray hst hsig)
  | relock k => exact run (.relock hpc (free (by rw [hpc]; rfl)))
  | restate k => exact run (.restate hpc)
  | dequeue ret => exact run (.dequeue hpc)
  | stateEnd ret => exact run (.stateEnd hpc)
  | tryLock => exact run (.tryLock hpc (free (by rw [hpc]; rfl)))
  | tryRead => exact run (.tryRead hpc)
  | tryZero sl => exact run (.tryZero hpc)
  | tryAdd sl =>
    by_cases hneg : w (s.sem.count + sl) < 0
    · exact run (.tryFail hpc hneg)
    · exact run (.tryWake hpc hneg)
  | upLock => exact run (.upLock hpc (free (by rw [hpc]; rfl)))
  | scan v rest =>
    cases rest with
    | nil => exact run (.scanEnd hpc)
    | cons j rest =>
      by_cases hst : (s.task j).state = .running
      · exact ⟨.run, _, rfl, .scanSkip hpc hst⟩
      · cases ha : (s.task j).array with
        | true => exact ⟨.run, _, rfl, .scanRunning hpc hst ha⟩
        | false => exact ⟨.run, _, rfl, .scanWake hpc hst ha⟩
  | scanUnlock v =>
    cases v with
    | down ret => exact run (.unlockDown hpc)
    | trylock => exact run (.unlockTry hpc)
    | up => exact run (.unlockUp hpc)

theorem Inv.settled {s : State ι} (hi : Inv s)
    (hs : Settled (Step w) (fun l : ι × Act => l.2.own = true) s) :
    s.sem.lock = none ∧ ∀ i, (s.task i).pc = .idle ∨ (s.task i).array = false := by
  have stuck : ∀ i, (s.task i).pc.inside = true ∨ s.sem.lock = none →
      (s.task i).pc = .idle ∨ (s.task i).array = false := fun i hl => by
    by_contra hc
    push Not at hc
    obtain ⟨a, s', hown, hstep⟩ := s.exists_step hc.1 (by simpa using hc.2) hl
    exact hs (i, a) s' hown hstep
  have hlock : s.sem.lock = none := by
    by_contra hne
    obtain ⟨i, hl⟩ := Option.ne_none_iff_exists'.mp hne
    have hin := (hi.inside i).mpr hl
    rcases stuck i (.inl hin) with hpc | ha
    · rw [hpc] at hin
      cases hin
    · obtain ⟨⟨k, hk⟩, -⟩ := (hi.task i).array ha
      rw [hk] at hin
      cases hin
  exact ⟨hlock, fun i => stuck i (.inr hlock)⟩

theorem Covered.settled {s : State ι} (hi : Inv s) (hc : Covered s)
    (hs : Settled (Step w) (fun l : ι × Act => l.2.own = true) s)
    (hasleep : ∃ i, (s.task i).array = false) : s.tokens = 0 := by
  obtain ⟨i, ha⟩ := hasleep
  obtain ⟨⟨k, hk⟩, -⟩ := (hi.task i).array ha
  have hmem : i ∈ s.sem.queue := (hi.queued i).mpr (by rw [hk]; rfl)
  refine (hc (List.ne_nil_of_mem hmem) fun j => ?_).1
  rcases hi.settled hs |>.2 j with hj | hj
  · simp [Task.helps, hj]
  · obtain ⟨⟨k', hk'⟩, hawake⟩ := (hi.task j).array hj
    simp [Task.helps, hk', hawake]

omit [Fintype ι] [DecidableEq ι] in
theorem Task.potential_le {m : Sem ι} {t : Task ι} {n : Nat} (hok : t.pc.Ok m)
    (hn : m.queue.length ≤ n) : t.potential n ≤ 13 * n + 24 := by
  have hawake := t.awake.toNat_le
  have harray := t.array.toNat_le
  have hlate : ∀ k, (t.late k).toNat ≤ 1 := fun k => (t.late k).toNat_le
  unfold Task.potential
  split
  case h_4 v rest hpc =>
    rw [hpc] at hok
    have hlen : rest.length ≤ m.queue.length := List.IsSuffix.length_le hok
    omega
  all_goals first | omega | (have hl := hlate ‹Down›; omega)

omit [DecidableEq ι] in
theorem Inv.potential_le {s : State ι} (hi : Inv s) :
    s.potential ≤ Fintype.card ι * (13 * Fintype.card ι + 24) := by
  have hle : ∀ i ∈ Finset.univ, (s.task i).potential (Fintype.card ι) ≤
      13 * Fintype.card ι + 24 := fun i _ =>
    Task.potential_le (hi.ok i) hi.nodup.length_le_card
  have hsum := Finset.sum_le_card_nsmul _ _ _ hle
  rwa [Nat.nsmul_eq_mul, Finset.card_univ] at hsum

end Potential

/-! ## Runs -/

section Runs

variable [Fintype ι] [DecidableEq ι] {n : Nat} {s : State ι} {l : List (State ι × (ι × Act))}

/-- **A semaphore counts**: whatever the interleaving, the tasks take and give as with `n`
tokens, and `tokens` are left, provided these never exceed `INT_MAX`. `count` is never above
them, and below them by the number of tasks and one at most. -/
theorem semaphore_counts (hcard : (Fintype.card ι : Int) < intMax) (hn : n ≤ intMax)
    (h : Run (Step atomic) (State.init n) l s) (hroom : ∀ p ∈ l, Within intMax p.1 p.2) :
    (∃ k : Nat, Follows Counting n (events (fun p => p.2.event) l) k ∧ s.tokens = k) ∧
      s.sem.count ≤ s.tokens ∧ s.tokens ≤ s.sem.count + Fintype.card ι + 1 := by
  have hrefines := holds_refines (fits_atomic (ι := ι) hcard le_rfl)
  obtain ⟨k, hfollows, hg, hk⟩ := hrefines.run (run_and_iff.mpr ⟨h, hroom⟩) (holds_init hn)
  have hle := hg.small.owed_le hg.toInv
  have hnonneg := hg.owed_nonneg
  refine ⟨⟨k, hfollows, hk⟩, ?_⟩
  unfold State.tokens
  omega

omit [DecidableEq ι] in
theorem within_of_own {top : Int} {p : ι × Act} (hown : p.2.own = true) :
    Within top s p := by
  intro hgive
  rw [hgive] at hown
  cases hown

/-- **No wake-up is lost**: the calls under way come to an end, whatever the order of their
steps, and then every task that is still in a call sleeps, and it does so for want of a
token. -/
theorem semaphore_settles (hcard : (Fintype.card ι : Int) < intMax) (hn : n ≤ intMax)
    (h : Run (Step atomic) (State.init n) l s) (hroom : ∀ p ∈ l, Within intMax p.1 p.2) :
    (∀ l' t, Run (Step atomic) s l' t → (∀ p ∈ l', p.2.2.own = true) →
      l'.length ≤ Fintype.card ι * (13 * Fintype.card ι + 24)) ∧
    (∃ l' t, Run (Step atomic) s l' t ∧ (∀ p ∈ l', p.2.2.own = true) ∧
      Settled (Step atomic) (fun p : ι × Act => p.2.own = true) t) ∧
    ∀ l' t, Run (Step atomic) s l' t → (∀ p ∈ l', Within intMax p.1 p.2) →
      Settled (Step atomic) (fun p : ι × Act => p.2.own = true) t →
      (∀ i, (t.task i).pc = .idle ∨ (t.task i).array = false) ∧
      ((∃ i, (t.task i).array = false) → t.tokens = 0) := by
  have hfit := fits_atomic (ι := ι) hcard le_rfl
  have hinv : ∀ s l t, Good (ι := ι) intMax s → l.2.own = true → Step atomic s l t →
      Good intMax t := fun _ _ _ hg hown hs => hg.step hfit hs (within_of_own hown)
  have hlt : ∀ s l t, Good (ι := ι) intMax s → l.2.own = true → Step atomic s l t →
      t.potential < s.potential := fun _ _ _ hg hown hs => hs.potential_lt hg.toInv hown
  obtain ⟨hg, -⟩ := covered_run hfit hn h hroom
  refine ⟨fun l' t hrun hown => ?_, exists_settled hinv hlt s hg, fun l' t hrun hroom' hs => ?_⟩
  · have hlen := hrun.length_le hinv hlt hg hown
    have hle := hg.potential_le
    omega
  · have hall : ∀ p ∈ l ++ l', Within intMax p.1 p.2 := List.forall_mem_append.mpr ⟨hroom, hroom'⟩
    obtain ⟨hg', hc'⟩ := covered_run hfit hn (h.append hrun) hall
    exact ⟨(hg'.settled hs).2, hc'.settled hg'.toInv hs⟩

end Runs

/-- A task takes the only token, a second one sleeps for it, and gets it when it is given back. -/
theorem contended_run : ∃ l s, Run (Step atomic) (State.init (1 : Nat) : State Bool) l s ∧
    (∀ p ∈ l, Within intMax p.1 p.2) ∧
    events (fun p => p.2.event) l = [.take, .give, .take] := by
  have hrun : Run (fun s p t => Step atomic s p t ∧ Within intMax s p)
      (State.init (1 : Nat) : State Bool) _ _ :=
    .cons (a := (true, .take)) ⟨.exec (.take rfl (by decide)), nofun⟩ <|
    .cons (a := (false, .contend)) ⟨.exec (.contend .down rfl (by decide)), nofun⟩ <|
    .cons (a := (false, .run)) ⟨.exec (.setState rfl), nofun⟩ <|
    .cons (a := (false, .run)) ⟨.exec (.lock rfl rfl), nofun⟩ <|
    .cons (a := (false, .run)) ⟨.exec (.enqueue rfl), nofun⟩ <|
    .cons (a := (false, .run)) ⟨.exec (.incr rfl), nofun⟩ <|
    .cons (a := (false, .run)) ⟨.exec (.read rfl), nofun⟩ <|
    .cons (a := (false, .run)) ⟨.exec (.testFail rfl (by decide) (by decide)), nofun⟩ <|
    .cons (a := (false, .run)) ⟨.exec (.one rfl), nofun⟩ <|
    .cons (a := (false, .run)) ⟨.exec (.unlock rfl), nofun⟩ <|
    .cons (a := (false, .run)) ⟨.exec (.deactivate rfl rfl (by decide) (by decide)), nofun⟩ <|
    .cons (a := (true, .give)) ⟨.exec (.giveWake rfl (by decide)), fun _ => by decide⟩ <|
    .cons (a := (true, .run)) ⟨.exec (.upLock rfl rfl), nofun⟩ <|
    .cons (a := (true, .run)) ⟨.scanWake rfl (by decide) rfl, nofun⟩ <|
    .cons (a := (true, .run)) ⟨.exec (.unlockUp rfl), nofun⟩ <|
    .cons (a := (false, .run)) ⟨.exec (.scheduleReturn rfl rfl rfl), nofun⟩ <|
    .cons (a := (false, .run)) ⟨.exec (.relock rfl rfl), nofun⟩ <|
    .cons (a := (false, .run)) ⟨.exec (.restate rfl), nofun⟩ <|
    .cons (a := (false, .run)) ⟨.exec (.read rfl), nofun⟩ <|
    .cons (a := (false, .grant)) ⟨.exec (.grant rfl (by decide) (by decide)), nofun⟩ <|
    .nil _
  obtain ⟨hsteps, hroom⟩ := run_and_iff.mp hrun
  exact ⟨_, _, hsteps, hroom, rfl⟩

theorem semaphore_counts_contended : ∃ (l : List (State Bool × (Bool × Act))) (s : State Bool),
    events (fun p => p.2.event) l = [.take, .give, .take] ∧
      (∃ k : Nat, Follows Counting 1 (events (fun p => p.2.event) l) k ∧ s.tokens = k) ∧
      s.sem.count ≤ s.tokens ∧ s.tokens ≤ s.sem.count + Fintype.card Bool + 1 := by
  obtain ⟨l, s, h, hroom, hl⟩ := contended_run
  exact ⟨l, s, hl, semaphore_counts (by decide) (by decide) h hroom⟩

theorem semaphore_settles_contended : ∃ (l : List (State Bool × (Bool × Act))) (s : State Bool),
    events (fun p => p.2.event) l = [.take, .give, .take] ∧
      ∃ l' t, Run (Step atomic) s l' t ∧
        (∀ i, (t.task i).pc = .idle ∨ (t.task i).array = false) ∧
        ((∃ i, (t.task i).array = false) → t.tokens = 0) := by
  obtain ⟨l, s, h, hroom, hl⟩ := contended_run
  obtain ⟨-, ⟨l', t, hrun, hown, hs⟩, hend⟩ :=
    semaphore_settles (by decide) (by decide) h hroom
  exact ⟨l, s, hl, l', t, hrun, hend l' t hrun (fun p hp => within_of_own (hown p hp)) hs⟩

end Cs370.Semaphore
