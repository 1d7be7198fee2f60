import Cs370.Kernel.Receive

/-!
# Who owns a message

`sys_mysend` gives its record away when it links it, and reads `msg->length` for its return value
after it has given the lock back. `Owned` says that a process about to return still finds its own
record there. It is lost by one step only, the `kfree` of the record by a receiver that has been
faster than the sender (`FreeOk`); in the runs without such a step every send returns what it has
copied (`send_owns_iff`).
-/

namespace Cs370.Kernel

open Cs370.Trans

/-! ## The last send of a process -/

/-- The event at `i` is the last send of process `p`. -/
def LastSend (h : List Event) (p : Nat) (payload : List UInt8) (u i : Nat) : Prop :=
  (∃ pid : Int, h[i]? = some (.enqueued p pid payload u)) ∧
  ∀ j > i, ∀ (pid : Int) payload' u', h[j]? ≠ some (.enqueued p pid payload' u')

theorem LastSend.append {h es : List Event} {p u i : Nat} {payload : List UInt8}
    (hl : LastSend h p payload u i)
    (hes : ∀ (pid : Int) payload' u', .enqueued p pid payload' u' ∉ es) :
    LastSend (h ++ es) p payload u i := by
  obtain ⟨⟨pid, hi⟩, hlast⟩ := hl
  refine ⟨⟨pid, getElem?_append_some hi⟩, fun j hj pid' payload' u' he => ?_⟩
  by_cases hlt : j < h.length
  · rw [List.getElem?_append_left hlt] at he
    exact hlast j hj pid' payload' u' he
  · rw [List.getElem?_append_right (Nat.le_of_not_lt hlt)] at he
    exact hes pid' payload' u' (List.mem_of_getElem? he)

theorem lastSend_enqueued (h : List Event) (p : Nat) (pid : Int) (payload : List UInt8) (u : Nat) :
    LastSend (h ++ [.enqueued p pid payload u]) p payload u h.length := by
  refine ⟨⟨pid, List.getElem?_concat_length⟩, fun j hj pid' payload' u' he => ?_⟩
  have hlt := (List.getElem?_eq_some_iff.mp he).1
  rw [List.length_append, List.length_singleton] at hlt
  omega

/-! ## Owned records -/

/-- The record a `sys_mysend` is still filling. -/
def Pc.fills : Pc → Option Nat
  | .sendBuf a _ _ => some a
  | .sendCopy a _ _ => some a
  | .sendNull a _ _ => some a
  | .sendLink a _ _ _ => some a
  | _ => none

theorem Pc.owns_of_fills {c : Pc} {a : Nat} (h : c.fills = some a) : c.owns = some a := by
  cases c <;> first | exact h | cases h

/-- The record at `a` has not been freed, is that of the last send of `p` with the length this
one has computed, and no other call is filling it. -/
structure ReturnOwned (s : State) (p a : Nat) : Prop where
  record : ∃ m payload u, s.heap a = some m ∧ LastSend s.history p payload u m.stamp ∧
    m.length = (payload.length - u : Nat)
  alone : ∀ q, (s.pc q).fills ≠ some a

/-- Every process about to return from `sys_mysend` still owns what it reads. -/
def Owned (s : State) : Prop := ∀ p a, s.pc p = .sendRet a → ReturnOwned s p a

/-- The `kfree` of a record whose sender has returned. -/
def FreeOk (s : State) : Nat × Act → Prop
  | (p, .kfreeMsg) => ∀ a filter n bytes k u, s.pc p = .recvFreeMsg a filter n bytes k u →
      ∀ q, s.pc q ≠ .sendRet a
  | _ => True

/-- A return reads the sender's own record and gives what the same call has copied. -/
def ReturnOk (s : State) : Nat × Act → Prop
  | (p, .sendReturn ret) => ∀ a, s.pc p = .sendRet a → ∃ m payload u, s.heap a = some m ∧
      LastSend s.history p payload u m.stamp ∧ ret = (payload.length - u : Nat)
  | _ => True

theorem ReturnOwned.ne_none {s : State} {p a : Nat} (h : ReturnOwned s p a) : s.heap a ≠ none := by
  obtain ⟨m, _, _, hm, -⟩ := h.record
  rw [hm]
  exact Option.some_ne_none m

theorem Owned.move {s t : State} {q : Nat} {c : Pc} (ho : Owned s) (es : List Event)
    (hpc : t.pc = Function.update s.pc q c) (hhist : t.history = s.history ++ es)
    (hes : ∀ p, p ≠ q → ∀ (pid : Int) payload u, .enqueued p pid payload u ∉ es)
    (hheap : ∀ p a, p ≠ q → s.pc p = .sendRet a → t.heap a = s.heap a)
    (hfills : ∀ a, c.fills = some a → (s.pc q).fills = some a ∨ s.heap a = none)
    (hret : ∀ a, c = .sendRet a → ReturnOwned t q a) : Owned t := by
  intro p a hp
  by_cases hpq : p = q
  · subst hpq
    rw [hpc, Function.update_self] at hp
    exact hret a hp
  rw [hpc, Function.update_of_ne hpq] at hp
  have hown := ho p a hp
  refine ⟨?_, fun r hr => ?_⟩
  · obtain ⟨m, payload, u, hm, hlast, hlen⟩ := hown.record
    rw [hheap p a hpq hp, hhist]
    exact ⟨m, payload, u, hm, hlast.append (hes p hpq), hlen⟩
  · by_cases hrq : r = q
    · subst hrq
      rw [hpc, Function.update_self] at hr
      rcases hfills a hr with h | h
      · exact hown.alone r h
      · exact hown.ne_none h
    · rw [hpc, Function.update_of_ne hrq] at hr
      exact hown.alone r hr

theorem Owned.moveSilent {s t : State} {q : Nat} {c : Pc} (ho : Owned s)
    (hpc : t.pc = Function.update s.pc q c) (hhist : t.history = s.history)
    (hheap : ∀ p a, s.pc p = .sendRet a → t.heap a = s.heap a)
    (hfills : ∀ a, c.fills = some a → (s.pc q).fills = some a ∨ s.heap a = none)
    (hret : ∀ a, c ≠ .sendRet a) : Owned t :=
  ho.move [] hpc (hhist.trans (List.append_nil _).symm) (fun _ _ _ _ _ => List.not_mem_nil)
    (fun p a _ => hheap p a) hfills fun a ha => absurd ha (hret a)

theorem Owned.moveOn {s t : State} {q : Nat} {c : Pc} (ho : Owned s)
    (hpc : t.pc = Function.update s.pc q c) (hhist : t.history = s.history)
    (hheap : t.heap = s.heap)
    (hfills : ∀ a, c.fills = some a → (s.pc q).fills = some a) (hret : ∀ a, c ≠ .sendRet a) :
    Owned t :=
  ho.moveSilent hpc hhist (fun _ _ _ => by rw [hheap]) (fun a ha => .inl (hfills a ha)) hret

theorem returnOwned_link {s : State} (hi : Inv s) {q pid a u : Nat} {payload : List UInt8}
    {m : Message} (l : Links Node) (hq : s.pc q = .sendLink a pid payload u)
    (hm : s.heap a = some m) : ReturnOwned (s.link q pid a payload u m l) q a where
  record := by
    obtain ⟨-, -, hfill, -⟩ := hi.recordOk hq rfl hm
    exact ⟨_, payload, u, Function.update_self .., lastSend_enqueued .., hfill.length_eq⟩
  alone r hr := by
    by_cases hrq : r = q
    · subst hrq
      rw [State.link, setPc_pc] at hr
      cases hr
    · have hpc : (s.link q pid a payload u m l).pc r = s.pc r := Function.update_of_ne hrq ..
      rw [hpc] at hr
      exact hrq (hi.own r q a (Pc.owns_of_fills hr) (by rw [hq]; rfl))

theorem owned_kfreeMsg_iff {s : State} {q a n k u : Nat} {filter : Int} {bytes : List UInt8}
    (e : Event) (he : ∀ p (pid : Int) payload u, e ≠ .enqueued p pid payload u) (ho : Owned s)
    (hq : s.pc q = .recvFreeMsg a filter n bytes k u) :
    Owned ({ s with
      heap := Function.update s.heap a none
      history := s.history ++ [e] }.setPc q .idle) ↔ ∀ p, s.pc p ≠ .sendRet a := by
  constructor
  · intro hown p hp
    have hpq : p ≠ q := by
      rintro rfl
      cases hp.symm.trans hq
    refine (hown p a ?_).ne_none (Function.update_self ..)
    exact (Function.update_of_ne hpq ..).trans hp
  · intro hfree
    refine ho.move [e] rfl rfl (fun p _ pid payload u hmem => ?_) (fun p b _ hp => ?_)
      (fun _ hf => by cases hf) fun _ hc => by cases hc
    · exact he p pid payload u (List.mem_singleton.mp hmem).symm
    · refine Function.update_of_ne ?_ ..
      rintro rfl
      exact hfree p hp

/-- **One step**: what was owned still is, exactly if the step frees no record that its sender is
about to read. -/
theorem Owned.step_iff {s t : State} {x : Nat × Act} (hi : Inv s) (ho : Owned s)
    (hs : Step s x t) : Owned t ↔ FreeOk s x := by
  cases hs with
  | kfreeMsg hq hm =>
    rw [owned_kfreeMsg_iff _ (by simp) ho hq]
    refine ⟨fun h a filter n bytes k u hq' => ?_, fun h => h _ _ _ _ _ _ hq⟩
    cases hq.symm.trans hq'
    exact h
  | kmallocMsg hq ha =>
    refine iff_of_true (ho.moveSilent rfl rfl (fun p b hp => Function.update_of_ne ?_ ..)
      (fun b hb => .inr ?_) fun _ hc => ?_) trivial
    · rintro rfl
      exact (ho p b hp).ne_none ha
    · cases hb
      exact ha
    · cases hc
  | copyFromUser hq | copyFromUserNull hq =>
    refine iff_of_true (ho.moveSilent rfl rfl (fun p b hp => Function.update_of_ne ?_ ..)
      (fun b hb => .inl ?_) fun _ hc => ?_) trivial
    · rintro rfl
      exact (ho p b hp).alone _ (by rw [hq]; rfl)
    · rw [hq]
      exact hb
    · cases hc
  | @link q pid a u payload m l hq _ hm hl =>
    refine iff_of_true (ho.move [.enqueued q pid payload u] rfl rfl ?_ ?_ ?_ ?_) trivial
    · intro p hpq pid' payload' u' hmem
      injection List.mem_singleton.mp hmem with hp
      exact hpq (by exact_mod_cast hp)
    · intro p b _ hp
      refine Function.update_of_ne ?_ ..
      rintro rfl
      exact (ho p b hp).alone q (by rw [hq]; rfl)
    · intro b hb
      cases hb
    · intro b hb
      cases hb
      exact returnOwned_link hi l hq hm
  | scanFound =>
    refine iff_of_true (ho.move [_] rfl rfl ?_ (fun _ _ _ _ => rfl) (fun _ hb => by cases hb)
      fun _ hc => by cases hc) trivial
    intro p _ pid payload u hmem
    cases List.mem_singleton.mp hmem
  | kmallocBuf hq | kmallocBufNull hq =>
    refine iff_of_true (ho.moveOn rfl rfl rfl (fun a ha => ?_) fun _ hc => by cases hc) trivial
    rw [hq]
    exact ha
  | _ =>
    exact iff_of_true (ho.moveOn rfl rfl rfl (fun _ ha => by cases ha) fun _ hc => by cases hc)
      trivial

theorem Owned.returnOk {s t : State} {x : Nat × Act} (ho : Owned s) (hs : Step s x t) :
    ReturnOk s x := by
  cases hs with
  | sendReturn hp hret =>
    intro a hp'
    cases hp.symm.trans hp'
    obtain ⟨m, payload, u, hm, hlast, hlen⟩ := (ho _ _ hp).record
    exact ⟨m, payload, u, hm, hlast, (hret m hm).trans hlen⟩
  | _ => trivial

/-- **Ownership in whole runs**: the senders own what they are about to read in every state of a
run exactly if none of its steps frees the record of a sender that has not returned, and then
every return of the run is the number of bytes copied by the same call. -/
theorem send_owns_iff {l : Links Node} {tr : List (State × Nat × Act)} {t : State}
    (h : Run Step (State.init l) tr t) :
    (((∀ x ∈ tr, Owned x.1) ∧ Owned t) ↔ ∀ x ∈ tr, FreeOk x.1 x.2) ∧
    ((∀ x ∈ tr, FreeOk x.1 x.2) → ∀ x ∈ tr, ReturnOk x.1 x.2) := by
  have hinit : Owned (State.init l) := fun p a hp => by cases hp
  have hiff : ((∀ x ∈ tr, Owned x.1) ∧ Owned t) ↔ ∀ x ∈ tr, FreeOk x.1 x.2 :=
    h.good_iff (fun _ _ _ hi hs => hi.step hs) (fun _ _ _ hi ho hs => ho.step_iff hi hs)
      (inv_init l) hinit
  refine ⟨hiff, fun hok x hx => ?_⟩
  obtain ⟨t', hs⟩ := h.exists_step x hx
  exact ((hiff.mpr hok).1 x hx).returnOk hs

/-- Process 1 has sent one byte to process 2 and still has to return. -/
theorem exists_linked_one : ∃ tr s k m l, Run Step (State.init ⟨id, id⟩) tr s ∧
    s.pc 1 = .sendRet 0 ∧ s.pc 2 = .idle ∧ s.history = [.enqueued 1 2 [97] 0] ∧
    s.scan 2 (-1) k = some (.found (.msg 0)) ∧ s.heap 0 = some m ∧
    listDel .poison1 .poison2 s.links (.msg 0) = some l := by
  obtain ⟨tr, s, hrun, hpc, hothers, hheap, hhist, hslot, -⟩ :=
    send_link_run (inv_init ⟨id, id⟩) (p := 1) (a := 0) 2 rfl rfl (show [97].length < _ by decide)
  have hi := inv_run hrun
  rcases hi.scan_ends 2 (-1) with ⟨hr, -⟩ | ⟨a, m, hr, hm, -, -, k, hk⟩
  · cases (slot_of_nil hr).symm.trans hslot
  · have ha : a = 0 := by
      by_contra hne
      cases (hheap a hne).symm.trans hm
    subst ha
    have hitem : m.item = ⟨0, 1, 2⟩ :=
      Option.some.inj ((slot_of_next (mailboxHash_lt 2) hr.path.1 hm).symm.trans hslot)
    have hacc : m.accepts (2 : Nat) (-1) = true :=
      Message.accepts_iff.mpr ⟨congrArg Item.receiver hitem, .inl (by decide)⟩
    rw [if_pos hacc] at hk
    obtain ⟨l, hl, -⟩ := hi.unlink_ring hk
    exact ⟨tr, s, k, m, l, hrun, hpc, hothers 2 (by decide), hhist, hk, hm, hl⟩

/-- Process 1 sends one byte and returns, and then process 2 receives it. -/
theorem send_owns_iff_one : ∃ tr t, Run Step (State.init ⟨id, id⟩) tr t ∧
    tr.map (·.2) = sendActs 1 2 [97] 0 0 1 ++ (scanActs 2 (-1) 1 ++ deliverActs 2 0) ∧
    (∀ x ∈ tr, FreeOk x.1 x.2) ∧
    ((∀ x ∈ tr, Owned x.1) ∧ Owned t) ∧ ∀ x ∈ tr, ReturnOk x.1 x.2 := by
  obtain ⟨tr₁, s, hrun₁, hacts₁, hidle, hqueue, -, m, hm, hreceiver, -⟩ := exists_sent_one
  have hslot : s.slot (mailboxHash (2 : Nat)) = some m.item :=
    slot_of_next (mailboxHash_lt 2) hqueue.path.1 hm
  have hacc : m.item.accepts (2 : Nat) (-1) = true :=
    Message.accepts_iff.mpr ⟨hreceiver, .inl (by decide)⟩
  obtain ⟨tr₂, t, bytes, ret, hrun₂, -, -, -, -, hacts₂, hothers⟩ :=
    receive_run (inv_run hrun₁) 1 (hidle 2) ((inv_run hrun₁).takes_of_slot hslot hacc)
  have hfree : ∀ x ∈ tr₁ ++ tr₂, FreeOk x.1 x.2 := by
    refine List.forall_mem_append.mpr ⟨?_, ?_⟩
    · rintro ⟨v, p, act⟩ hx
      have hact : (p, act) ∈ sendActs 1 2 [97] 0 0 1 := hacts₁ ▸ List.mem_map_of_mem hx
      cases act with
      | kfreeMsg => simp [sendActs] at hact
      | _ => trivial
    · rintro ⟨v, p, act⟩ hx
      have hact : (p, act) ∈ tr₂.map (·.2) := List.mem_map_of_mem hx
      rw [hacts₂] at hact
      cases act with
      | kfreeMsg =>
        -- The receiver is at its `kfree`, and every other process is idle.
        obtain rfl : p = 2 := by simpa using hact
        intro a filter n bytes k u hpc q hq
        rcases eq_or_ne q 2 with rfl | hne
        · cases hpc.symm.trans hq
        · cases ((hothers _ hx q hne).trans (hidle q)).symm.trans hq
      | _ => trivial
  obtain ⟨hiff, hret⟩ := send_owns_iff (hrun₁.append hrun₂)
  refine ⟨_, t, hrun₁.append hrun₂, ?_, hfree, hiff.mpr hfree, hret hfree⟩
  rw [List.map_append, hacts₁, hacts₂]
  rfl

/-- The receiver is faster: the record has been freed when the sender reads its length, and the
send of one byte may return any number. -/
theorem send_reads_freed : ∃ tr s, Run Step (State.init ⟨id, id⟩) tr s ∧ s.pc 1 = .sendRet 0 ∧
    s.heap 0 = none ∧ LastSend s.history 1 [97] 0 0 ∧
    ∀ ret, ∃ t, Step s (1, .sendReturn ret) t := by
  obtain ⟨tr, s, k, m, l, hrun, hpc, hidle, hhist, hscan, hm, hl⟩ := exists_linked_one
  have hfollows : Follows Step s (scanActs 2 (-1) 1 ++ deliverActs 2 0) _ :=
    (receive_follows (inv_run hrun).bug hidle hscan hm hl (Nat.zero_le _)).mpr rfl
  obtain ⟨tr', hrun', -⟩ := hfollows
  have hfreed : (s.received 2 0 (-1) 1 0 m l).heap 0 = none := received_heap ..
  refine ⟨_, _, hrun.append hrun', hpc, hfreed, ?_, fun ret => ⟨_, .sendReturn hpc ?_⟩⟩
  · have hlast : LastSend s.history 1 [97] 0 0 := by
      rw [hhist]
      exact lastSend_enqueued [] 1 2 [97] 0
    exact (hlast.append (by simp)).append (by simp)
  · intro m' hm'
    cases hfreed.symm.trans hm'

end Cs370.Kernel
