import Cs370.Kernel.Delivery

/-!
# What a send does

The statements of one `sys_mysend`, one after the other, with every outcome of its user copy. A
copy that leaves bytes behind is no failure: the message has the bytes that were copied, is
enqueued like any other, and their number is returned (`send_follows`). `mailbox_send` says so of
every state a run of the mailbox can lead to.
-/

namespace Cs370.Kernel

open Cs370.Trans

/-! ## Each statement leads to one state -/

section
variable {s t : State} {p pid a u : Nat} {payload : List UInt8} {m : Message} {l : Links Node}

theorem step_callSend_iff (hp : s.pc p = .idle) :
    Step s (p, .callSend pid payload) t ↔ t = s.setPc p (.sendMsg pid payload) := by
  refine ⟨fun h => ?_, fun h => h ▸ .callSend hp⟩
  cases h with
  | callSend => rfl

theorem step_kmallocMsg_iff (hp : s.pc p = .sendMsg pid payload) (ha : s.heap a = none) :
    Step s (p, .kmallocMsg (some a)) t ↔
      t = { s with heap := Function.update s.heap a (some ⟨p, pid, [], 0, 0⟩) }.setPc p
        (.sendBuf a pid payload) := by
  refine ⟨fun h => ?_, fun h => h ▸ .kmallocMsg hp ha⟩
  cases h with
  | kmallocMsg hp' =>
    cases hp.symm.trans hp'
    rfl

theorem step_kmallocBuf_iff (hp : s.pc p = .sendBuf a pid payload)
    (hlt : payload.length < kmallocLimit) :
    Step s (p, .kmallocBuf true) t ↔ t = s.setPc p (.sendCopy a pid payload) := by
  refine ⟨fun h => ?_, fun h => h ▸ .kmallocBuf hp hlt⟩
  cases h with
  | kmallocBuf hp' =>
    cases hp.symm.trans hp'
    rfl

theorem step_copyFromUser_iff (hp : s.pc p = .sendCopy a pid payload) (hm : s.heap a = some m)
    (hu : u ≤ payload.length) :
    Step s (p, .copyFromUser u) t ↔
      t = { s with
        heap := Function.update s.heap a (some (m.fill payload u))
        links := initListHead s.links (.msg a) }.setPc p (.sendLink a pid payload u) := by
  refine ⟨fun h => ?_, fun h => h ▸ .copyFromUser hp hm hu⟩
  cases h with
  | copyFromUser hp' hm' =>
    cases hp.symm.trans hp'
    cases hm.symm.trans hm'
    rfl
  | copyFromUserNull hp' => cases hp.symm.trans hp'
  | copyFromUserBad hp' => cases hp.symm.trans hp'

theorem step_link_iff (hp : s.pc p = .sendLink a pid payload u) (hbug : s.bug = false)
    (hm : s.heap a = some m)
    (hl : listAddTail s.links (.head (mailboxHash pid)) (.msg a) = some l) :
    Step s (p, .link) t ↔ t = s.link p pid a payload u m l := by
  refine ⟨fun h => ?_, fun h => h ▸ .link hp hbug hm hl⟩
  cases h with
  | link hp' _ hm' hl' =>
    cases hp.symm.trans hp'
    cases hm.symm.trans hm'
    cases hl.symm.trans hl'
    rfl
  | linkBug hp' _ hl' =>
    cases hp.symm.trans hp'
    cases hl.symm.trans hl'

theorem step_sendReturn_iff {ret : Int} (hp : s.pc p = .sendRet a) (hm : s.heap a = some m) :
    Step s (p, .sendReturn ret) t ↔ ret = m.length ∧ t = s.setPc p .idle := by
  refine ⟨fun h => ?_, fun ⟨hret, ht⟩ => ht ▸ .sendReturn hp fun m' hm' => ?_⟩
  · cases h with
    | sendReturn hp' hret =>
      cases hp.symm.trans hp'
      exact ⟨hret m hm, rfl⟩
  · cases hm.symm.trans hm'
    exact hret

end

/-! ## The call -/

/-- The statements of a `sys_mysend` by process `p` whose allocations succeed, the record at `a`,
and whose user copy leaves `u` bytes behind. -/
def sendActs (p pid : Nat) (payload : List UInt8) (a u : Nat) (ret : Int) : List (Nat × Act) :=
  [(p, .callSend pid payload), (p, .kmallocMsg (some a)), (p, .kmallocBuf true),
    (p, .copyFromUser u), (p, .link), (p, .sendReturn ret)]

/-- The message a send enqueues. -/
def State.newMessage (s : State) (p pid : Nat) (payload : List UInt8) (u : Nat) : Message :=
  { Message.fill ⟨p, pid, [], 0, 0⟩ payload u with stamp := s.history.length }

/-- The state after the call, where `l` are the links after the `list_add_tail`. -/
def State.sent (s : State) (p pid a : Nat) (payload : List UInt8) (u : Nat) (l : Links Node) :
    State :=
  { s with
    links := l
    heap := Function.update s.heap a (some (s.newMessage p pid payload u))
    history := s.history ++ [.enqueued p pid payload u] }

section
variable {s : State} (hbug : s.bug = false) {p pid a u : Nat} {payload : List UInt8}
  {l : Links Node} (hp : s.pc p = .idle) (ha : s.heap a = none)
  (hlt : payload.length < kmallocLimit) (hu : u ≤ payload.length)
  (hl : listAddTail (initListHead s.links (.msg a)) (.head (mailboxHash pid)) (.msg a) = some l)
include hbug hp ha hlt hu hl

/-- Whatever the user copy leaves behind, the statements lead to one state and return one
number. -/
theorem send_follows {ret : Int} {t : State} :
    Follows Step s (sendActs p pid payload a u ret) t ↔
      ret = (payload.length - u : Nat) ∧ t = s.sent p pid a payload u l := by
  have hlinked (as : List (Nat × Act)) :
      Follows Step s ((p, .callSend pid payload) :: (p, .kmallocMsg (some a)) ::
          (p, .kmallocBuf true) :: (p, .copyFromUser u) :: (p, .link) :: as) t ↔
        Follows Step ((s.sent p pid a payload u l).setPc p (.sendRet a)) as t := by
    rw [follows_cons_of_unique fun _ => step_callSend_iff hp,
      follows_cons_of_unique fun _ => step_kmallocMsg_iff (setPc_pc ..) ha,
      follows_cons_of_unique fun _ => step_kmallocBuf_iff (setPc_pc ..) hlt,
      follows_cons_of_unique fun _ =>
        step_copyFromUser_iff (setPc_pc ..) (by exact Function.update_self ..) hu,
      follows_cons_of_unique fun _ => step_link_iff (setPc_pc ..) (by exact hbug)
        (by exact Function.update_self ..) (by exact hl)]
    refine iff_of_eq (congrArg (Follows Step · as t) ?_)
    simp only [State.link, State.setPc, State.sent, State.newMessage, Function.update_idem]
  have hmsg : ((s.sent p pid a payload u l).setPc p (.sendRet a)).heap a =
      some (s.newMessage p pid payload u) := Function.update_self ..
  have hlen : (s.newMessage p pid payload u).length = (payload.length - u : Nat) :=
    (filled_fill ⟨p, pid, [], 0, 0⟩ hu hlt).length_eq
  have hidle : ((s.sent p pid a payload u l).setPc p (.sendRet a)).setPc p .idle =
      s.sent p pid a payload u l := by
    have hpc : Function.update s.pc p .idle = s.pc := hp ▸ Function.update_eq_self p s.pc
    simp only [State.setPc, State.sent, Function.update_idem, hpc]
  rw [sendActs, hlinked, follows_cons_iff]
  simp only [step_sendReturn_iff (setPc_pc ..) hmsg, follows_nil_iff, hlen, hidle]
  refine ⟨?_, ?_⟩
  · rintro ⟨_, ⟨hret, rfl⟩, ht⟩
    exact ⟨hret, ht⟩
  · rintro ⟨hret, ht⟩
    exact ⟨_, ⟨hret, rfl⟩, ht⟩

end

/-- From `s` to `t` one message has been enqueued for `pid`, the first `k` bytes of the payload in
a record that was free. It is the last of its bucket, and what stands before it was there already.
Records, links of other buckets and calls stay as they were. -/
structure Sent (s t : State) (p pid a : Nat) (payload : List UInt8) (k : Nat) : Prop where
  ring : ∃ before, Ring t.links (.head (mailboxHash pid)) (before ++ [.msg a]) ∧
    ∀ old, Ring s.links (.head (mailboxHash pid)) old → before ⊆ old
  message : ∃ m, t.heap a = some m ∧ m.sender = p ∧ m.receiver = pid ∧ m.length = k ∧
    m.message.take k = payload.take k
  heap : ∀ a', a' ≠ a → t.heap a' = s.heap a'
  links : ∀ x, x ≠ .head (mailboxHash pid) → x ≠ .msg a →
    t.links.next x = s.links.next x ∧ t.links.prev x = s.links.prev x
  pc : t.pc = s.pc
  bug : t.bug = s.bug

theorem exists_sent (s : State) (p pid a : Nat) {payload : List UInt8} {u : Nat}
    (hlt : payload.length < kmallocLimit) (hu : u ≤ payload.length) :
    ∃ l, listAddTail (initListHead s.links (.msg a)) (.head (mailboxHash pid)) (.msg a) = some l ∧
      Sent s (s.sent p pid a payload u l) p pid a payload (payload.length - u) := by
  obtain ⟨l, hl, hring, hothers⟩ :=
    listAddTail_ring (initListHead_ring s.links (.msg a))
      (show Node.head (mailboxHash pid) ≠ .msg a by simp)
  have hfilled := filled_fill ⟨p, pid, [], 0, 0⟩ hu hlt
  refine ⟨l, hl, ⟨[], hring, fun _ _ => List.nil_subset _⟩, ⟨_, Function.update_self .., rfl, rfl,
    hfilled.length_eq, hfilled.take_eq _ (Nat.le_refl _)⟩,
    fun a' ha' => Function.update_of_ne ha' .., ?_, rfl, rfl⟩
  intro x hhead hmsg
  obtain ⟨hn, hp⟩ := hothers x hhead hmsg
  obtain ⟨hn', hp'⟩ := initListHead_of_ne s.links hmsg
  exact ⟨hn.trans hn', hp.trans hp'⟩

/-- **What a send does** in every state of the mailbox: when both allocations succeed, it enqueues
the bytes the user copy has copied as one message and returns their number, which is the number
asked for exactly when all were copied. -/
theorem mailbox_send {l : Links Node} {tr : List (State × Nat × Act)} {s : State}
    (hrun : Run Step (State.init l) tr s) {p pid a u : Nat} {payload : List UInt8}
    (hp : s.pc p = .idle) (ha : s.heap a = none) (hlt : payload.length < kmallocLimit)
    (hu : u ≤ payload.length) :
    ∃ t, Sent s t p pid a payload (payload.length - u) ∧
      (∀ ret t', Follows Step s (sendActs p pid payload a u ret) t' ↔
        ret = (payload.length - u : Nat) ∧ t' = t) ∧
      (((payload.length - u : Nat) : Int) = payload.length ↔ u = 0) := by
  obtain ⟨l', hl, hsent⟩ := exists_sent s p pid a hlt hu
  refine ⟨_, hsent, fun ret t' => send_follows (inv_run hrun).bug hp ha hlt hu hl, ?_⟩
  omega

/-- Process 1 sends two bytes to process 2 and both are copied. -/
theorem mailbox_send_whole :
    ∃ t, Sent (State.init ⟨id, id⟩) t 1 2 0 [97, 98] 2 ∧
      Follows Step (State.init ⟨id, id⟩) (sendActs 1 2 [97, 98] 0 0 2) t := by
  have hlt : ([97, 98] : List UInt8).length < kmallocLimit := by decide
  obtain ⟨t, hsent, hiff, -⟩ := mailbox_send (.nil (State.init ⟨id, id⟩)) (p := 1) (a := 0) (u := 0)
    rfl rfl hlt (Nat.zero_le _)
  exact ⟨t, hsent, (hiff 2 t).mpr ⟨rfl, rfl⟩⟩

/-- One of two bytes is copied: the call returns 1, and a message of one byte stands in a bucket
that was empty. -/
theorem send_one_of_two :
    ∃ t m, Follows Step (State.init ⟨id, id⟩) (sendActs 1 2 [97, 98] 0 1 1) t ∧
      Ring (State.init ⟨id, id⟩).links (.head 2) [] ∧ Ring t.links (.head 2) [.msg 0] ∧
      t.heap 0 = some m ∧ m.length = 1 := by
  have hlt : ([97, 98] : List UInt8).length < kmallocLimit := by decide
  have hu : 1 ≤ ([97, 98] : List UInt8).length := by decide
  obtain ⟨l, hl, hsent⟩ := exists_sent (State.init ⟨id, id⟩) 1 2 0 hlt hu
  obtain ⟨m, hm, -, -, hlen, -⟩ := hsent.message
  obtain ⟨before, hring, hold⟩ := hsent.ring
  rw [mailboxHash_natCast] at hring hold
  have hempty : Ring (State.init ⟨id, id⟩).links (.head 2) [] :=
    initMailbox_ring ⟨id, id⟩ (by decide)
  rw [List.subset_nil.mp (hold [] hempty)] at hring
  exact ⟨_, m, (send_follows rfl rfl rfl hlt hu hl).mpr ⟨rfl, rfl⟩, hempty, hring, hm, hlen⟩

end Cs370.Kernel
