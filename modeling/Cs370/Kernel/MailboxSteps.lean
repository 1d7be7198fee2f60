import Cs370.Kernel.MailboxInv

/-!
# The steps of the mailbox keep its invariant

One frame for each kind of step, and from it `Inv.step` and `inv_run`: in every run from
`init_mailbox` on, whatever the allocations and the copies do, the invariant holds. The
corruption checks never fire and no scan leaves its ring.
-/

namespace Cs370.Kernel

open Cs370.Trans

/-! ## Frames -/

theorem setPc_pc (s : State) (p : Nat) (c : Pc) : (s.setPc p c).pc p = c := Function.update_self ..

theorem callOk_setPc {s : State} {p : Nat} {c : Pc} : CallOk (s.setPc p c) p ↔
    ∀ a, c.owns = some a → ∃ m, s.heap a = some m ∧ RecordOk s.links s.history p m c := by
  unfold CallOk
  rw [setPc_pc]
  exact Iff.rfl

theorem frame_setPc {s : State} {p : Nat} {c : Pc}
    (hc : ∀ a, c.owns = some a → (s.pc p).owns = some a) :
    Frame s (s.setPc p c) p (fun a => (s.pc p).owns = some a) (fun _ => False) [] where
  pc q hq := Function.update_of_ne hq ..
  owns a ha := hc a (by rwa [setPc_pc] at ha)
  heap _ _ _ hm := hm
  head _ _ := ⟨rfl, rfl⟩
  msg _ _ := ⟨rfl, rfl⟩
  history := (List.append_nil _).symm
  taken := by simp
  received := by simp
  touched a ha := .inl ha

theorem frame_kmallocMsg {s : State} {p a : Nat} {m : Message} {c : Pc} (ha : s.heap a = none)
    (hc : c.owns = some a) :
    Frame s ({ s with heap := Function.update s.heap a (some m) }.setPc p c) p (· = a)
      (fun _ => False) [] where
  pc q hq := Function.update_of_ne hq ..
  owns a' ha' := by
    rw [setPc_pc, hc] at ha'
    exact (Option.some.inj ha').symm
  heap _ _ hne hm := (Function.update_of_ne hne ..).trans hm
  head _ _ := ⟨rfl, rfl⟩
  msg _ _ := ⟨rfl, rfl⟩
  history := (List.append_nil _).symm
  taken := by simp
  received := by simp
  touched a' ha' := .inr (.inl (ha' ▸ ha))

theorem frame_copyFromUser {s : State} {p a : Nat} {m : Message} {c : Pc}
    (ha : (s.pc p).owns = some a) (hc : c.owns = some a) :
    Frame s ({ s with
        heap := Function.update s.heap a (some m)
        links := initListHead s.links (.msg a) }.setPc p c) p (· = a) (fun _ => False) [] where
  pc q hq := Function.update_of_ne hq ..
  owns a' ha' := by
    rw [setPc_pc, hc] at ha'
    exact (Option.some.inj ha').symm
  heap _ _ hne hm := (Function.update_of_ne hne ..).trans hm
  head _ _ := initListHead_of_ne _ (by simp)
  msg _ hne := initListHead_of_ne _ (by simpa using hne)
  history := (List.append_nil _).symm
  taken := by simp
  received := by simp
  touched a' ha' := .inl (ha' ▸ ha)

/-- The state after a send has linked its record. -/
def State.link (s : State) (p pid a : Nat) (payload : List UInt8) (u : Nat) (m : Message)
    (l : Links Node) : State :=
  { s with
    links := l
    heap := Function.update s.heap a (some { m with stamp := s.history.length })
    history := s.history ++ [Event.enqueued p pid payload u] }.setPc p (.sendRet a)

theorem frame_link {s : State} {p pid a : Nat} (m : Message) (payload : List UInt8) (u : Nat)
    {l : Links Node} (ha : (s.pc p).owns = some a)
    (hl : ∀ x, x ≠ .head (mailboxHash pid) → x ≠ .msg a →
      l.next x = s.links.next x ∧ l.prev x = s.links.prev x) :
    Frame s (s.link p pid a payload u m l) p (· = a) (· = mailboxHash pid)
      [.enqueued p pid payload u] where
  pc q hq := Function.update_of_ne hq ..
  owns a' ha' := by
    rw [State.link, setPc_pc] at ha'
    cases ha'
  heap _ _ hne hm := (Function.update_of_ne hne ..).trans hm
  head b hb := hl _ (by simpa using hb) (by simp)
  msg a' hne := hl _ (by simp) (by simpa using hne)
  history := rfl
  taken := by simp
  received := by simp
  touched a' ha' := .inl (ha' ▸ ha)

/-- The state after a receive has taken a record off its list. -/
def State.unlink (s : State) (p a : Nat) (filter : Int) (n : Nat) (m : Message) (l : Links Node) :
    State :=
  { s with links := l, history := s.history ++ [Event.taken m.stamp] }.setPc p
    (.recvCopy a filter n)

theorem frame_unlink {s : State} {p a : Nat} (filter : Int) (n : Nat) {m : Message}
    {l : Links Node} (hr : Ring s.links (.head (mailboxHash p)) [.msg a])
    (hq : Queued s.history (mailboxHash p) m)
    (hl : ∀ x, x ≠ .head (mailboxHash p) → x ≠ .msg a →
      l.next x = s.links.next x ∧ l.prev x = s.links.prev x) :
    Frame s (s.unlink p a filter n m l) p (· = a) (· = mailboxHash p) [.taken m.stamp] where
  pc q hq := Function.update_of_ne hq ..
  owns a' ha' := by
    rw [State.unlink, setPc_pc] at ha'
    exact (Option.some.inj ha').symm
  heap _ _ _ hm := hm
  head b hb := hl _ (by simpa using hb) (by simp)
  msg a' hne := hl _ (by simp) (by simpa using hne)
  history := rfl
  taken i hi := by
    obtain ⟨payload, u, he, -⟩ := hq.enqueued
    cases List.mem_singleton.mp hi
    exact ⟨_, _, payload, u, he, hq.bucket⟩
  received := by simp
  touched a' ha' := .inr (.inr ⟨_, mailboxHash_lt p, rfl, ha' ▸ hr⟩)

theorem frame_kfreeMsg {s : State} {p a n u : Nat} {filter ret : Int} {bytes : List UInt8}
    {m : Message} (ha : (s.pc p).owns = some a) (ht : Taken s.history p filter m) :
    Frame s ({ s with
        heap := Function.update s.heap a none
        history := s.history ++ [Event.received p filter n bytes u ret m.stamp] }.setPc p .idle) p
      (· = a) (fun _ => False) [.received p filter n bytes u ret m.stamp] where
  pc q hq := Function.update_of_ne hq ..
  owns a' ha' := by
    rw [setPc_pc] at ha'
    cases ha'
  heap _ _ hne hm := (Function.update_of_ne hne ..).trans hm
  head _ _ := ⟨rfl, rfl⟩
  msg _ _ := ⟨rfl, rfl⟩
  history := rfl
  taken := by simp
  received r f n' bytes' u' ret' i hi := by
    obtain ⟨payload, u'', he, -⟩ := ht.enqueued
    rw [ht.receiver] at he
    cases List.mem_singleton.mp hi
    exact ⟨ht.taken, _, payload, u'', he⟩
  touched a' ha' := .inl (ha' ▸ ha)

/-! ## One step -/

theorem Inv.setPc {s : State} {p : Nat} {c : Pc} (hi : Inv s)
    (hc : ∀ a, c.owns = some a → (s.pc p).owns = some a)
    (hok : ∀ a, c.owns = some a → ∃ m, s.heap a = some m ∧ RecordOk s.links s.history p m c) :
    Inv (s.setPc p c) :=
  (frame_setPc hc).inv hi hi.bug (fun _ _ h => h.elim) (callOk_setPc.mpr hok)

theorem Inv.setPc_none {s : State} {p : Nat} {c : Pc} (hi : Inv s) (hc : c.owns = none) :
    Inv (s.setPc p c) :=
  hi.setPc (fun a ha => by rw [hc] at ha; cases ha) fun a ha => by rw [hc] at ha; cases ha

theorem Inv.record {s : State} (hi : Inv s) {p a : Nat} {c : Pc} (hpc : s.pc p = c)
    (ha : c.owns = some a) : ∃ m, s.heap a = some m ∧ RecordOk s.links s.history p m c := by
  subst hpc
  exact hi.call p a ha

theorem Inv.recordOk {s : State} (hi : Inv s) {p a : Nat} {c : Pc} {m : Message}
    (hpc : s.pc p = c) (ha : c.owns = some a) (hm : s.heap a = some m) :
    RecordOk s.links s.history p m c := by
  obtain ⟨m', hm', hok⟩ := hi.record hpc ha
  rwa [Option.some.inj (hm'.symm.trans hm)] at hok

theorem Inv.link_ring {s : State} (hi : Inv s) {p pid a u : Nat} {payload : List UInt8}
    (hpc : s.pc p = .sendLink a pid payload u) :
    ∃ l, listAddTail s.links (.head (mailboxHash pid)) (.msg a) = some l ∧
      Ring l (.head (mailboxHash pid)) [.msg a] ∧
      ∀ x, x ≠ .head (mailboxHash pid) → x ≠ .msg a →
        l.next x = s.links.next x ∧ l.prev x = s.links.prev x := by
  obtain ⟨m, -, -, -, -, hr⟩ := hi.record hpc rfl
  exact listAddTail_ring hr (by simp)

theorem queued_link {h : List Event} {m : Message} {p pid u : Nat} {payload : List UInt8}
    (hsender : m.sender = p) (hreceiver : m.receiver = pid) (hfill : Filled m payload u)
    (htaken : ∀ i ∈ takenStamps h, i < h.length) :
    Queued (h ++ [.enqueued p pid payload u]) (mailboxHash pid)
      { m with stamp := h.length } where
  nonneg := by simp [hreceiver]
  bucket := by simp [hreceiver]
  enqueued := by
    exact ⟨payload, u, by simp [hsender, hreceiver], hfill.length_eq, hfill.take_eq,
      hfill.copied_lt⟩
  notTaken hm := by
    rw [mem_takenStamps, List.mem_append] at hm
    rcases hm with hm | hm
    · exact absurd (htaken _ (mem_takenStamps.mpr hm)) (lt_irrefl _)
    · cases List.mem_singleton.mp hm

/-- What a send that links leaves: its bucket and its message, and the rest as it was. -/
theorem Inv.link_frame {s : State} (hi : Inv s) {p pid a u : Nat} {payload : List UInt8}
    {l : Links Node} (hpc : s.pc p = .sendLink a pid payload u)
    (hl : listAddTail s.links (.head (mailboxHash pid)) (.msg a) = some l) (m : Message) :
    Ring l (.head (mailboxHash pid)) [.msg a] ∧
      Frame s (s.link p pid a payload u m l) p (· = a) (· = mailboxHash pid)
        [.enqueued p pid payload u] := by
  obtain ⟨l', hl', hring, hsame⟩ := hi.link_ring hpc
  obtain rfl : l' = l := Option.some.inj (hl'.symm.trans hl)
  exact ⟨hring, frame_link m payload u (by rw [hpc]; rfl) hsame⟩

theorem Inv.link {s : State} (hi : Inv s) {p pid a u : Nat} {payload : List UInt8} {m : Message}
    {l : Links Node} (hpc : s.pc p = .sendLink a pid payload u) (hm : s.heap a = some m)
    (hl : listAddTail s.links (.head (mailboxHash pid)) (.msg a) = some l) :
    Inv (s.link p pid a payload u m l) := by
  obtain ⟨hring, hframe⟩ := hi.link_frame hpc hl m
  obtain ⟨hsender, hreceiver, hfill, -⟩ := hi.recordOk hpc rfl hm
  refine hframe.inv hi hi.bug ?_ (callOk_setPc.mpr fun _ ha => by cases ha)
  intro b hb hB
  subst hB
  refine .inr ⟨a, _, hring, Function.update_self .., fun q hq => ?_,
    queued_link hsender hreceiver hfill hi.taken⟩
  -- the sender has given the record up, and nobody else had it
  by_cases hqp : q = p
  · rw [hqp, State.link, setPc_pc] at hq
    cases hq
  · rw [hframe.pc q hqp] at hq
    exact hqp (hi.own q p a hq (by rw [hpc]; rfl))

theorem Inv.unlink_ring {s : State} (hi : Inv s) {p k a : Nat} {filter : Int}
    (h : s.scan p filter k = some (.found (.msg a))) :
    ∃ l, listDel .poison1 .poison2 s.links (.msg a) = some l ∧
      Ring l (.head (mailboxHash p)) [] ∧
      ∀ x, x ≠ .head (mailboxHash p) → x ≠ .msg a →
        l.next x = s.links.next x ∧ l.prev x = s.links.prev x := by
  obtain ⟨m, hr, -⟩ := hi.scan_found h
  exact listDel_ring hr

theorem Message.accepts_iff {p filter : Int} {m : Message} :
    m.accepts p filter = true ↔ m.receiver = p ∧ (filter < 0 ∨ m.sender = filter) := by
  simp [Message.accepts]

theorem taken_scan {s : State} (hi : Inv s) {p : Nat} {filter : Int} {m : Message}
    (hq : Queued s.history (mailboxHash p) m) (hacc : m.accepts p filter = true) :
    Taken (s.history ++ [.taken m.stamp]) p filter m where
  receiver := (Message.accepts_iff.mp hacc).1
  sender := (Message.accepts_iff.mp hacc).2
  enqueued := hq.enqueued.append _
  taken := mem_takenStamps.mpr (by simp)
  notDelivered hd := by
    obtain ⟨r, f, n, bytes, u, ret, hd⟩ := mem_deliveredStamps.mp hd
    have hd : Event.received r f n bytes u ret m.stamp ∈ s.history := by simpa using hd
    exact hq.notTaken (hi.delivered (mem_deliveredStamps.mpr ⟨r, f, n, bytes, u, ret, hd⟩))

/-- What a receive that takes a message leaves: an empty bucket, and the rest as it was. -/
theorem Inv.unlink_frame {s : State} (hi : Inv s) {p n a k : Nat} {filter : Int} {m : Message}
    {l : Links Node} (hscan : s.scan p filter k = some (.found (.msg a)))
    (hm : s.heap a = some m) (hl : listDel .poison1 .poison2 s.links (.msg a) = some l) :
    Ring l (.head (mailboxHash p)) [] ∧ Queued s.history (mailboxHash p) m ∧
      s.links.next (.head (mailboxHash p)) = .msg a ∧ m.accepts p filter = true ∧
      Frame s (s.unlink p a filter n m l) p (· = a) (· = mailboxHash p) [.taken m.stamp] := by
  obtain ⟨m', hr, hm', -, hq, hacc⟩ := hi.scan_found hscan
  obtain rfl : m' = m := Option.some.inj (hm'.symm.trans hm)
  obtain ⟨l', hl', hring, hsame⟩ := hi.unlink_ring hscan
  obtain rfl : l' = l := Option.some.inj (hl'.symm.trans hl)
  exact ⟨hring, hq, hr.path.1, hacc, frame_unlink filter n hr hq hsame⟩

theorem Inv.unlink {s : State} (hi : Inv s) {p n a k : Nat} {filter : Int} {m : Message}
    {l : Links Node} (hscan : s.scan p filter k = some (.found (.msg a)))
    (hm : s.heap a = some m) (hl : listDel .poison1 .poison2 s.links (.msg a) = some l) :
    Inv (s.unlink p a filter n m l) := by
  obtain ⟨hring, hq, -, hacc, hframe⟩ := hi.unlink_frame (n := n) hscan hm hl
  refine hframe.inv hi hi.bug ?_ (callOk_setPc.mpr ?_)
  · intro b hb hB
    subst hB
    exact .inl hring
  · intro a' ha
    cases ha
    exact ⟨m, hm, taken_scan hi hq hacc⟩

/-- **Every step keeps the invariant**, whatever its outcome. -/
theorem Inv.step {s t : State} {x : Nat × Act} (hi : Inv s) (hs : Step s x t) : Inv t := by
  cases hs with
  | callSend _ => exact hi.setPc_none rfl
  | kmallocMsgNull _ => exact hi.setPc_none rfl
  | copyFromUserBad _ => exact hi.setPc_none rfl
  | sendReturn _ _ => exact hi.setPc_none rfl
  | callReceive _ => exact hi.setPc_none rfl
  | scanNotFound _ _ _ => exact hi.setPc_none rfl
  | @kmallocMsg p pid a payload _ ha =>
    refine (frame_kmallocMsg ha rfl).inv hi hi.bug (fun _ _ h => h.elim) (callOk_setPc.mpr ?_)
    intro a' ha'
    cases ha'
    exact ⟨_, Function.update_self .., rfl, rfl⟩
  | @kmallocBuf p pid a payload hpc hlt =>
    obtain ⟨m, hm, hok⟩ := hi.record hpc rfl
    refine hi.setPc (fun a' ha' => by rw [hpc]; exact ha') fun a' ha' => ?_
    cases ha'
    exact ⟨m, hm, hok.1, hok.2, hlt⟩
  | @kmallocBufNull p pid a payload hpc =>
    obtain ⟨m, hm, hok⟩ := hi.record hpc rfl
    refine hi.setPc (fun a' ha' => by rw [hpc]; exact ha') fun a' ha' => ?_
    cases ha'
    exact ⟨m, hm, hok⟩
  | @copyFromUserNull p pid a payload m hpc hm =>
    obtain ⟨hsender, hreceiver⟩ := hi.recordOk hpc rfl hm
    refine (frame_copyFromUser (by rw [hpc]; rfl) rfl).inv hi hi.bug (fun _ _ h => h.elim)
      (callOk_setPc.mpr ?_)
    intro a' ha'
    cases ha'
    exact ⟨_, Function.update_self .., hsender, hreceiver, filled_fillNull m payload,
      initListHead_ring _ _⟩
  | @copyFromUser p pid a u payload m hpc hm hu =>
    obtain ⟨hsender, hreceiver, hlt⟩ := hi.recordOk hpc rfl hm
    refine (frame_copyFromUser (by rw [hpc]; rfl) rfl).inv hi hi.bug (fun _ _ h => h.elim)
      (callOk_setPc.mpr ?_)
    intro a' ha'
    cases ha'
    exact ⟨_, Function.update_self .., hsender, hreceiver, filled_fill m hu hlt,
      initListHead_ring _ _⟩
  | link hpc _ hm hl => exact hi.link hpc hm hl
  | linkBug hpc _ hl =>
    obtain ⟨l, hl', -⟩ := hi.link_ring hpc
    rw [hl] at hl'
    cases hl'
  | scanFound _ _ hscan hm hl => exact hi.unlink hscan hm hl
  | @scanFault p n k filter _ _ hscan =>
    rcases hi.scan_eq hscan with ⟨-, hr⟩ | ⟨a, m, -, -, -, -, hr⟩
    · cases hr
    · cases hacc : m.accepts p filter <;> rw [hacc] at hr <;> cases hr
  | scanBug _ _ hscan hl =>
    obtain ⟨l, hl', -⟩ := hi.unlink_ring hscan
    rw [hl] at hl'
    cases hl'
  | @copyToUser p n a u filter m hpc hm hu =>
    refine hi.setPc (fun a' ha' => by rw [hpc]; exact ha') fun a' ha' => ?_
    cases ha'
    exact ⟨m, hm, hi.recordOk hpc rfl hm, rfl, hu, rfl⟩
  | kfreeBuf hpc =>
    obtain ⟨m, hm, hok⟩ := hi.record hpc rfl
    refine hi.setPc (fun a' ha' => by rw [hpc]; exact ha') fun a' ha' => ?_
    cases ha'
    exact ⟨m, hm, hok⟩
  | kfreeMsg hpc hm =>
    exact (frame_kfreeMsg (by rw [hpc]; rfl) (hi.recordOk hpc rfl hm).1).inv hi hi.bug
      (fun _ _ h => h.elim) (callOk_setPc.mpr fun _ ha => by cases ha)

/-- **The invariant holds along every run** from `init_mailbox` on. -/
theorem inv_run {l : Links Node} {tr : List (State × (Nat × Act))} {t : State}
    (h : Run Step (State.init l) tr t) : Inv t :=
  h.invariant (fun _ _ _ hi hs => hi.step hs) (inv_init l)

end Cs370.Kernel
