import Mathlib.Data.Fintype.Option
import Cs370.Kernel.Join
import Cs370.Kernel.SemaphoreWake

/-!
# Joining with the semaphore of the kernel

`Kernel/Join.lean` has `join_semaphore` as a number of tokens. Here it is the semaphore of
`lib/semaphore-sleepers.c`: a call of `sys_myjoin` may sleep in `down`, and the `up` in the loop
of `do_exit` has to wake it. What the calls and the target do is what they do with the tokens
(`impl_refines`), and no call is left asleep once the target is through (`join_wakes_all`).

A call that has got its token is entered as returned; it is back in its caller when its task is
out of the semaphore's functions. `joinSemaphore` of the join protocol is not used.
-/

namespace Cs370.Join

open Cs370.Trans

/-- The tasks that use the semaphore: the target (`none`), and a task for each call. -/
structure Impl (n : Nat) where
  join : State
  sem : Semaphore.State (Option (Fin n))

def Impl.init {n : Nat} : Impl n where
  join := State.init
  sem := Semaphore.State.init (0 : Nat)

inductive ImplAct (n : Nat) where
  | join (a : Act)
  | sem (k : Option (Fin n)) (a : Semaphore.Act)

/-- A statement that does not touch the semaphore. -/
def Act.plain : Act → Bool
  | .down _ => false
  | .exitUp => false
  | _ => true

/-- A statement of the target. -/
def Act.exits : Act → Bool
  | .exitLock => true
  | .exitFlag => true
  | .exitReset => true
  | .exitUnlock => true
  | _ => false

inductive ImplStep {n : Nat} (w : Int → Int) : Impl n → ImplAct n → Impl n → Prop where
  -- a statement of the target waits for its `up` to return
  | join {j j' : State} {s : Semaphore.State (Option (Fin n))} {a : Act} : a.plain = true →
      Step j a j' → j'.calls.length ≤ n → (a.exits = true → (s.task none).pc = .idle) →
      ImplStep w ⟨j, s⟩ (.join a) ⟨j', s⟩
  | take {j : State} {s s' : Semaphore.State (Option (Fin n))} {i : Fin n} :
      j.calls[i.val]? = some .down → Semaphore.Step w s (some i, .take) s' →
      ImplStep w ⟨j, s⟩ (.sem (some i) .take)
        ⟨{ j with calls := j.calls.set i.val (.returned 0) }, s'⟩
  | contend {j : State} {s s' : Semaphore.State (Option (Fin n))} {i : Fin n} :
      j.calls[i.val]? = some .down → Semaphore.Step w s (some i, .contend) s' →
      (s'.task (some i)).pc = .setState .down → ImplStep w ⟨j, s⟩ (.sem (some i) .contend) ⟨j, s'⟩
  | up {j : State} {s s' : Semaphore.State (Option (Fin n))} {x : Int} : j.exit = .loop x →
      CInt.sizeT x < j.joinedProcesses → Semaphore.Step w s (none, .give) s' →
      ImplStep w ⟨j, s⟩ (.sem none .give) ⟨{ j with exit := .loop (CInt.intW 32 (x + 1)) }, s'⟩
  | grant {j : State} {s s' : Semaphore.State (Option (Fin n))} {i : Fin n} :
      Semaphore.Step w s (some i, .grant) s' →
      ImplStep w ⟨j, s⟩ (.sem (some i) .grant)
        ⟨{ j with calls := j.calls.set i.val (.returned 0) }, s'⟩
  | run {j : State} {s s' : Semaphore.State (Option (Fin n))} {k : Option (Fin n)} :
      Semaphore.Step w s (k, .run) s' → ImplStep w ⟨j, s⟩ (.sem k .run) ⟨j, s'⟩
  | signal {j : State} {s s' : Semaphore.State (Option (Fin n))} {k : Option (Fin n)} :
      Semaphore.Step w s (k, .signal) s' → ImplStep w ⟨j, s⟩ (.sem k .signal) ⟨j, s'⟩

/-- The step of the join protocol that a step is. -/
def ImplAct.event {n : Nat} : ImplAct n → Option Act
  | .join a => some a
  | .sem (some i) .take => some (.down i)
  | .sem (some i) .grant => some (.down i)
  | .sem none .give => some .exitUp
  | _ => none

/-- A step of a call of the semaphore's functions. -/
def ImplAct.own {n : Nat} : ImplAct n → Bool
  | .join _ => false
  | .sem _ a => a.own

/-! ## The two sides agree -/

/-- A task that waits for the semaphore is one of a call in `down`. -/
structure Linked {n : Nat} (c : Impl n) : Prop where
  call : ∀ i : Fin n, (c.sem.task (some i)).pc.waiting = true → c.join.calls[i.val]? = some .down
  exit : (c.sem.task none).pc.waiting = false

/-- The join protocol with `A.joinSemaphore` tokens. -/
structure Agrees {n : Nat} (c : Impl n) (A : State) : Prop where
  join : A = { c.join with joinSemaphore := A.joinSemaphore }
  sem : Semaphore.Holds pidMaxLimit c.sem A.joinSemaphore
  linked : Linked c
  inv : Inv A

theorem Step.plain {j j' : State} {a : Act} (h : Step j a j') (ha : a.plain = true) (k : Nat) :
    Step { j with joinSemaphore := k } a { j' with joinSemaphore := k } := by
  cases h with
  | call hp => exact .call hp
  | callNotFound => exact .callNotFound
  | lock hc hl => exact .lock hc hl
  | checkExiting hc hx => exact .checkExiting hc hx
  | checkCount hc hx => exact .checkCount hc hx
  | unlock hc => exact .unlock hc
  | down => cases ha
  | exitLock he hl => exact .exitLock he hl
  | exitFlag he => exact .exitFlag he
  | exitUp => cases ha
  | exitReset he hl => exact .exitReset he hl
  | exitUnlock he => exact .exitUnlock he

theorem Step.plain_down {j j' : State} {a : Act} (h : Step j a j') (ha : a.plain = true) {i : Nat}
    (hi : j.calls[i]? = some .down) : j'.calls[i]? = some .down := by
  have hset : ∀ {k : Nat} {c d : Call}, j.calls[k]? = some d → d ≠ .down →
      (j.calls.set k c)[i]? = some .down := fun {k c d} hk hd => by
    rw [List.getElem?_set_ne fun he => hd ?_, hi]
    rw [he, hi] at hk
    exact (Option.some.inj hk).symm
  have happend : ∀ c, (j.calls ++ [c])[i]? = some .down := fun c => by
    rwa [List.getElem?_append_left (List.getElem?_eq_some_iff.mp hi).1]
  cases h with
  | call => exact happend _
  | callNotFound => exact happend _
  | lock hc => exact hset hc nofun
  | checkExiting hc => exact hset hc nofun
  | checkCount hc => exact hset hc nofun
  | unlock hc => exact hset hc nofun
  | down => cases ha
  | exitUp => cases ha
  | exitLock => exact hi
  | exitFlag => exact hi
  | exitReset => exact hi
  | exitUnlock => exact hi

section
variable {n : Nat} {w : Int → Int} {c c' : Impl n} {l : ImplAct n}

theorem Linked.sem {j j' : State} {s s' : Semaphore.State (Option (Fin n))} {k : Option (Fin n)}
    {a : Semaphore.Act} (hl : Linked ⟨j, s⟩) (hs : Semaphore.Step w s (k, a) s')
    (hcontend : a = .contend → ∃ i, k = some i ∧ j.calls[i.val]? = some .down)
    (hcalls : ∀ i : Fin n, (k = some i → a = .run ∨ a = .signal ∨ a = .contend) →
      j'.calls[i.val]? = j.calls[i.val]?) : Linked ⟨j', s'⟩ where
  call i hi := by
    rcases hs.waiting.2 (some i) hi with ⟨hwait, hown⟩ | ⟨rfl, rfl⟩
    · have hlabel : k = some i → a = .run ∨ a = .signal ∨ a = .contend := fun hk =>
        (hown hk.symm).imp_right .inl
      exact (hcalls i hlabel).trans (hl.call i hwait)
    · obtain ⟨i', hi', hdown⟩ := hcontend rfl
      obtain rfl := Option.some.inj hi'
      exact (hcalls i fun _ => .inr (.inr rfl)).trans hdown
  exit := by
    by_contra hwait
    rcases hs.waiting.2 none (by simpa using hwait) with ⟨hbefore, -⟩ | ⟨hk, ha⟩
    · rw [hl.exit] at hbefore
      cases hbefore
    · obtain ⟨i, hi, -⟩ := hcontend ha
      rw [← hk] at hi
      cases hi

theorem Linked.step (hl : Linked c) (h : ImplStep w c l c') : Linked c' := by
  cases h with
  | join ha hs hlen hidle => exact ⟨fun i hi => hs.plain_down ha (hl.call i hi), hl.exit⟩
  | @take j s s' i hc hs =>
    refine hl.sem hs nofun fun i' hk => List.getElem?_set_ne fun he => ?_
    simpa using hk (congrArg some (Fin.ext he))
  | contend hc hs hpc => exact hl.sem hs (fun _ => ⟨_, rfl, hc⟩) fun _ _ => rfl
  | up he hlt hs => exact hl.sem hs nofun fun _ _ => rfl
  | @grant j s s' i hs =>
    refine hl.sem hs nofun fun i' hk => List.getElem?_set_ne fun he => ?_
    simpa using hk (congrArg some (Fin.ext he))
  | run hs => exact hl.sem hs nofun fun _ _ => rfl
  | signal hs => exact hl.sem hs nofun fun _ _ => rfl

/-- There is room for the token of an `up`: a call waits for it. -/
theorem Agrees.lt_pidMaxLimit {j : State} {s : Semaphore.State (Option (Fin n))} {A : State}
    {x : Int} (hA : Agrees ⟨j, s⟩ A) (he : j.exit = .loop x)
    (hlt : CInt.sizeT x < j.joinedProcesses) : s.tokens < pidMaxLimit := by
  have hexit : A.exit = .loop x := by rw [hA.join, ← he]
  have hjoined : A.joinedProcesses = j.joinedProcesses := by rw [hA.join]
  have hacc := hA.inv.accounts
  rw [hexit] at hacc
  obtain ⟨k, rfl, hk, hsum⟩ := hacc
  have hle := hA.inv.joined_le
  have hsize : CInt.sizeT (k : Int) = k := by
    unfold pidMaxLimit at hle
    exact CInt.uintW_of_lt (by omega)
  have hwaiting : A.waiting ≤ pidMaxLimit := (waiting_le_pending A.calls).trans hA.inv.pending_le
  have htokens : s.tokens = A.joinSemaphore := hA.sem.2
  rw [hsize] at hlt
  omega

theorem Agrees.down (hfit : Semaphore.Fits w (Option (Fin n)) pidMaxLimit) {j : State}
    {s s' : Semaphore.State (Option (Fin n))} {A : State} {i : Fin n} {a : Semaphore.Act}
    (hA : Agrees ⟨j, s⟩ A) (hc : j.calls[i.val]? = some .down)
    (hs : Semaphore.Step w s (some i, a) s') (ha : a.event = some .take)
    (hl : Linked ⟨{ j with calls := j.calls.set i.val (.returned 0) }, s'⟩) :
    ∃ B, Step A (.down i) B ∧
      Agrees ⟨{ j with calls := j.calls.set i.val (.returned 0) }, s'⟩ B := by
  have hroom : Semaphore.Within pidMaxLimit s (some i, a) :=
    Semaphore.within_of_event (by rw [ha]; nofun)
  obtain ⟨k, hk, hholds⟩ := (Semaphore.holds_refines hfit).visible hA.sem ⟨hs, hroom⟩ ha
  have hjoin := hA.join
  rw [Semaphore.counting_take_iff.mp hk] at hjoin
  have hstep : Step A (.down i)
      { j with joinSemaphore := k, calls := j.calls.set i.val (.returned 0) } := by
    rw [hjoin]
    exact .down hc (Nat.succ_pos k)
  exact ⟨_, hstep, rfl, hholds, hl, hA.inv.step hstep⟩

theorem Agrees.silent (hfit : Semaphore.Fits w (Option (Fin n)) pidMaxLimit) {j : State}
    {s s' : Semaphore.State (Option (Fin n))} {A : State} {p : Option (Fin n) × Semaphore.Act}
    (hA : Agrees ⟨j, s⟩ A) (hs : Semaphore.Step w s p s') (ha : p.2.event = none)
    (hl : Linked ⟨j, s'⟩) : Agrees ⟨j, s'⟩ A := by
  have hroom : Semaphore.Within pidMaxLimit s p := Semaphore.within_of_event (by rw [ha]; nofun)
  exact ⟨hA.join, (Semaphore.holds_refines hfit).silent hA.sem ⟨hs, hroom⟩ ha, hl, hA.inv⟩

theorem agrees_refines (hfit : Semaphore.Fits w (Option (Fin n)) pidMaxLimit) :
    Refines (ImplStep (n := n) w) Step ImplAct.event Agrees where
  visible := by
    intro c c' l A b hA h hev
    have hl := hA.linked.step h
    cases h with
    | @join j j' s a ha hs hlen hidle =>
      obtain rfl := Option.some.inj hev
      have hstep : Step A a { j' with joinSemaphore := A.joinSemaphore } := by
        have hplain := hs.plain ha A.joinSemaphore
        rwa [← hA.join] at hplain
      exact ⟨_, hstep, rfl, hA.sem, hl, hA.inv.step hstep⟩
    | take hc hs =>
      obtain rfl := Option.some.inj hev
      exact hA.down hfit hc hs rfl hl
    | grant hs =>
      obtain rfl := Option.some.inj hev
      exact hA.down hfit (hA.linked.call _ (hs.waiting.1 rfl)) hs rfl hl
    | @up j s s' x he hlt hs =>
      obtain rfl := Option.some.inj hev
      have hroom : Semaphore.Within pidMaxLimit s (none, .give) :=
        fun _ => hA.lt_pidMaxLimit he hlt
      obtain ⟨k, hk, hholds⟩ := (Semaphore.holds_refines hfit).visible hA.sem ⟨hs, hroom⟩ rfl
      obtain rfl := Semaphore.counting_give_iff.mp hk
      have hstep : Step A .exitUp { j with
          joinSemaphore := A.joinSemaphore + 1, exit := .loop (CInt.intW 32 (x + 1)) } := by
        rw [hA.join]
        exact .exitUp he hlt
      exact ⟨_, hstep, rfl, hholds, hl, hA.inv.step hstep⟩
    | contend => cases hev
    | @run j s s' k hs => cases k <;> cases hev
    | @signal j s s' k hs => cases k <;> cases hev
  silent := by
    intro c c' l A hA h hev
    have hl := hA.linked.step h
    cases h with
    | contend hc hs hpc => exact hA.silent hfit hs rfl hl
    | run hs => exact hA.silent hfit hs rfl hl
    | signal hs => exact hA.silent hfit hs rfl hl
    | join => cases hev
    | take => cases hev
    | grant => cases hev
    | up => cases hev

theorem agrees_init : Agrees (Impl.init : Impl n) State.init where
  join := rfl
  sem := Semaphore.holds_init (n := 0) (Int.natCast_nonneg _)
  linked := ⟨fun _ hi => (by cases hi), rfl⟩
  inv := inv_init

/-! ## Runs -/

theorem ImplStep.sem {A : State} (h : ImplStep w c l c') (hA : Agrees c A) :
    c'.sem = c.sem ∨
      ∃ p, Semaphore.Step w c.sem p c'.sem ∧ Semaphore.Within pidMaxLimit c.sem p := by
  cases h with
  | join => exact .inl rfl
  | take _ hs => exact .inr ⟨_, hs, nofun⟩
  | contend _ hs => exact .inr ⟨_, hs, nofun⟩
  | up he hlt hs => exact .inr ⟨_, hs, fun _ => hA.lt_pidMaxLimit he hlt⟩
  | grant hs => exact .inr ⟨_, hs, nofun⟩
  | run hs => exact .inr ⟨_, hs, nofun⟩
  | signal hs => exact .inr ⟨_, hs, nofun⟩

/-- What holds in every state of a run. -/
structure Sound (c : Impl n) : Prop where
  agrees : ∃ A, Agrees c A
  covered : Semaphore.Covered c.sem

theorem Sound.good (h : Sound c) : Semaphore.Good pidMaxLimit c.sem := by
  obtain ⟨A, hA⟩ := h.agrees
  exact hA.sem.1

theorem Sound.step (hfit : Semaphore.Fits w (Option (Fin n)) pidMaxLimit) (h : Sound c)
    (hs : ImplStep w c l c') : Sound c' := by
  obtain ⟨A, hA⟩ := h.agrees
  have hagrees : ∃ A, Agrees c' A := by
    cases hev : l.event with
    | none => exact ⟨A, (agrees_refines hfit).silent hA hs hev⟩
    | some b =>
      obtain ⟨B, -, hB⟩ := (agrees_refines hfit).visible hA hs hev
      exact ⟨B, hB⟩
  rcases hs.sem hA with he | ⟨p, hp, hroom⟩
  · exact ⟨hagrees, he ▸ h.covered⟩
  · exact ⟨hagrees, h.covered.step h.good hfit hp hroom⟩

variable {tr : List (Impl n × ImplAct n)}

theorem sound_run (hfit : Semaphore.Fits w (Option (Fin n)) pidMaxLimit)
    (h : Run (ImplStep w) Impl.init tr c) : Sound c :=
  h.invariant (fun _ _ _ hc hs => hc.step hfit hs)
    ⟨⟨_, agrees_init⟩, fun hne => absurd rfl hne⟩

/-- Where the implementation has no step of its semaphore left, the semaphore has none. -/
theorem Linked.settled (hl : Linked c) (hs : Settled (ImplStep w) (fun l => l.own = true) c) :
    Settled (Semaphore.Step w) (fun p : Option (Fin n) × Semaphore.Act => p.2.own = true)
      c.sem := by
  rintro ⟨k, a⟩ s' hown hstep
  cases a with
  | run => exact hs _ _ rfl (.run hstep)
  | grant =>
    cases k with
    | some i => exact hs _ _ rfl (.grant hstep)
    | none =>
      have hwait := hstep.waiting.1 rfl
      rw [hl.exit] at hwait
      cases hwait
  | _ => cases hown

/-- **The implementation refines the protocol**: with the kernel's semaphore the calls and the
target do what they do with a number of tokens. -/
theorem impl_refines (hfit : Semaphore.Fits w (Option (Fin n)) pidMaxLimit)
    (h : Run (ImplStep w) Impl.init tr c) :
    ∃ A, Follows Step State.init (events ImplAct.event tr) A ∧
      A = { c.join with joinSemaphore := A.joinSemaphore } ∧ c.sem.tokens = A.joinSemaphore := by
  obtain ⟨A, hfollows, hA⟩ := (agrees_refines hfit).run h agrees_init
  exact ⟨A, hfollows, hA.join, hA.sem.2⟩

theorem ImplStep.own_sem (h : ImplStep w c l c') (hown : l.own = true) :
    ∃ p : Option (Fin n) × Semaphore.Act, p.2.own = true ∧ Semaphore.Step w c.sem p c'.sem := by
  cases h with
  | grant hs => exact ⟨_, rfl, hs⟩
  | run hs => exact ⟨_, rfl, hs⟩
  | _ => cases hown

theorem ImplStep.exit_after (h : ImplStep w c l c') (he : c.join.exit = .after) :
    c'.join.exit = .after := by
  cases h with
  | join ha hs => cases hs <;> simp_all
  | up hloop => simp_all
  | _ => exact he

theorem Agrees.tokens_eq_waiting {A : State} (hA : Agrees c A) (he : c.join.exit = .after) :
    c.sem.tokens = c.join.waiting := by
  -- the accounts of the protocol: after the loop there is a token for each that waits
  have hacc := hA.inv.accounts
  rw [hA.join] at hacc
  simp only [he, Accounts] at hacc
  have hwaiting : A.joinSemaphore = c.join.waiting := hacc.2
  have htokens := hA.sem.2
  omega

theorem Linked.waiting_pos (hl : Linked c) {k : Option (Fin n)}
    (hwait : (c.sem.task k).pc.waiting = true) : 0 < c.join.waiting := by
  cases k with
  | none =>
    rw [hl.exit] at hwait
    cases hwait
  | some i => exact List.countP_pos_iff.mpr ⟨_, List.mem_of_getElem? (hl.call i hwait), rfl⟩

/-- **No call is left asleep**: once the target is through its critical section, the calls of the
semaphore's functions come to an end, and then no task is in them any more, and there is a token
for each call that is counted and has not had its own. -/
theorem join_wakes_all (hfit : Semaphore.Fits w (Option (Fin n)) pidMaxLimit)
    (h : Run (ImplStep w) Impl.init tr c) (hexit : c.join.exit = .after) :
    (∀ tr' c', Run (ImplStep w) c tr' c' → (∀ p ∈ tr', p.2.own = true) →
      tr'.length ≤ (n + 1) * (13 * (n + 1) + 24)) ∧
    ∀ tr' c', Run (ImplStep w) c tr' c' → Settled (ImplStep w) (fun l => l.own = true) c' →
      (∀ k, (c'.sem.task k).pc = .idle) ∧ c'.sem.tokens = c'.join.waiting := by
  refine ⟨fun tr' c' hrun hown => ?_, fun tr' c' hrun hs => ?_⟩
  · have hinv : ∀ (c : Impl n) l c', Sound c → l.own = true → ImplStep w c l c' → Sound c' :=
      fun _ _ _ hc _ hst => hc.step hfit hst
    have hlower : ∀ (c : Impl n) l c', Sound c → l.own = true → ImplStep w c l c' →
        c'.sem.potential < c.sem.potential := fun c l c' hc hown hst => by
      obtain ⟨p, hp, hstep⟩ := hst.own_sem hown
      exact hstep.potential_lt hc.good.toInv hp
    have hc := sound_run hfit h
    have hlen := hrun.length_le hinv hlower hc hown
    have hle := hc.good.potential_le
    rw [Fintype.card_option, Fintype.card_fin] at hle
    omega
  · have hafter : c'.join.exit = .after :=
      hrun.invariant (I := fun c => c.join.exit = .after) (fun _ _ _ he hst => hst.exit_after he)
        hexit
    have hsound := sound_run hfit (h.append hrun)
    obtain ⟨A, hA⟩ := hsound.agrees
    have hi := hA.sem.1
    have htokens := hA.tokens_eq_waiting hafter
    have hset := hA.linked.settled hs
    refine ⟨fun k => ((hi.settled hset).2 k).resolve_right fun ha => ?_, htokens⟩
    -- one that sleeps is counted, and there would be no token
    have hzero := hsound.covered.settled hi.toInv hset ⟨k, ha⟩
    obtain ⟨⟨d, hd⟩, -⟩ := (hi.task k).array ha
    have hpos := hA.linked.waiting_pos (show (c'.sem.task k).pc.waiting = true by rw [hd]; rfl)
    omega

end

/-- A call sleeps in `down`, and the target wakes it. -/
theorem sleeping_run : ∃ tr c, Run (ImplStep Semaphore.atomic) (Impl.init : Impl 1) tr c ∧
    c.join.exit = .after ∧ (c.sem.task (some 0)).pc = .schedule .down :=
  ⟨_, _,
    .cons (a := .join (.call true)) (.join rfl (.call (by decide)) (by decide) nofun) <|
    .cons (a := .join (.lock 0)) (.join rfl (.lock rfl rfl) (by decide) nofun) <|
    .cons (a := .join (.check 0)) (.join rfl (.checkCount rfl rfl) (by decide) nofun) <|
    .cons (a := .join (.unlock 0)) (.join rfl (.unlock rfl) (by decide) nofun) <|
    .cons (a := .sem (some 0) .contend)
      (.contend rfl (.exec (.contend .down rfl (by decide))) rfl) <|
    .cons (a := .sem (some 0) .run) (.run (.exec (.setState rfl))) <|
    .cons (a := .sem (some 0) .run) (.run (.exec (.lock rfl rfl))) <|
    .cons (a := .sem (some 0) .run) (.run (.exec (.enqueue rfl))) <|
    .cons (a := .sem (some 0) .run) (.run (.exec (.incr rfl))) <|
    .cons (a := .sem (some 0) .run) (.run (.exec (.read rfl))) <|
    .cons (a := .sem (some 0) .run) (.run (.exec (.testFail rfl (by decide) (by decide)))) <|
    .cons (a := .sem (some 0) .run) (.run (.exec (.one rfl))) <|
    .cons (a := .sem (some 0) .run) (.run (.exec (.unlock rfl))) <|
    .cons (a := .sem (some 0) .run)
      (.run (.exec (.deactivate rfl rfl (by decide) (by decide)))) <|
    .cons (a := .join .exitLock) (.join rfl (.exitLock rfl rfl) (by decide) fun _ => rfl) <|
    .cons (a := .join .exitFlag) (.join rfl (.exitFlag rfl) (by decide) fun _ => rfl) <|
    .cons (a := .sem none .give) (.up rfl (by decide) (.exec (.giveWake rfl (by decide)))) <|
    .cons (a := .sem none .run) (.run (.exec (.upLock rfl rfl))) <|
    .cons (a := .sem none .run) (.run (.scanWake rfl (by decide) rfl)) <|
    .cons (a := .sem none .run) (.run (.exec (.unlockUp rfl))) <|
    .cons (a := .join .exitReset)
      (.join rfl (.exitReset rfl (by decide)) (by decide) fun _ => rfl) <|
    .cons (a := .join .exitUnlock) (.join rfl (.exitUnlock rfl) (by decide) fun _ => rfl) <|
    .nil _, rfl, by decide⟩

theorem impl_refines_sleeping : ∃ (tr : List (Impl 1 × ImplAct 1)) (c : Impl 1) (A : State),
    c.join.exit = .after ∧ Follows Step State.init (events ImplAct.event tr) A ∧
      A = { c.join with joinSemaphore := A.joinSemaphore } ∧ c.sem.tokens = A.joinSemaphore := by
  obtain ⟨tr, c, h, he, -⟩ := sleeping_run
  obtain ⟨A, hA⟩ := impl_refines (Semaphore.fits_atomic (by decide) (by decide)) h
  exact ⟨tr, c, A, he, hA⟩

theorem join_wakes_all_sleeping : ∃ c : Impl 1, (c.sem.task (some 0)).pc = .schedule .down ∧
    ∀ tr' c', Run (ImplStep Semaphore.atomic) c tr' c' →
      Settled (ImplStep Semaphore.atomic) (fun l => l.own = true) c' →
      (∀ k, (c'.sem.task k).pc = .idle) ∧ c'.sem.tokens = c'.join.waiting := by
  obtain ⟨tr, c, h, he, hpc⟩ := sleeping_run
  exact ⟨c, hpc, (join_wakes_all (Semaphore.fits_atomic (by decide) (by decide)) h he).2⟩

end Cs370.Join
