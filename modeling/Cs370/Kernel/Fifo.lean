import Cs370.Kernel.MailboxSteps
import Cs370.Lib.Slots

/-!
# The order of delivery

What a receive should find is the first of the messages that are enqueued and not yet taken,
`waiting`, that it accepts (`FifoReceive`). What the mailbox is, is a table with one slot for
each bucket: a send overwrites the slot and the message that was there is lost to every
receiver. `Step.refines` is that simulation; the order is right in a whole run exactly if no
send of the run links its message into a bucket that is not empty.
-/

namespace Cs370.Kernel

open Cs370.Trans

/-! ## Waiting messages -/

/-- What tells one enqueued message from another. -/
structure Item where
  stamp : Nat
  sender : Int
  receiver : Int
  deriving DecidableEq

def Message.item (m : Message) : Item := ⟨m.stamp, m.sender, m.receiver⟩

/-- A receive of process `r` with filter `f` may take the message. -/
def Item.accepts (r f : Int) (x : Item) : Bool :=
  x.receiver == r && (decide (f < 0) || x.sender == f)

def Event.item : Event × Nat → Option Item
  | (.enqueued sender receiver _ _, i) => some ⟨i, sender, receiver⟩
  | _ => none

/-- The messages enqueued and not taken, the earliest first. -/
def waiting (h : List Event) : List Item :=
  (h.zipIdx.filterMap Event.item).filter fun x => x.stamp ∉ takenStamps h

theorem mem_waiting {h : List Event} {x : Item} : x ∈ waiting h ↔
    (∃ payload u, h[x.stamp]? = some (.enqueued x.sender x.receiver payload u)) ∧
      x.stamp ∉ takenStamps h := by
  unfold waiting
  rw [List.mem_filter, List.mem_filterMap, decide_eq_true_iff]
  refine and_congr_left fun _ => ?_
  refine ⟨fun ⟨⟨e, i⟩, he, hx⟩ => ?_, fun ⟨payload, u, he⟩ => ?_⟩
  · have he := List.mem_zipIdx_iff_getElem?.mp he
    cases e with
    | enqueued sender receiver payload u =>
      cases hx
      exact ⟨payload, u, he⟩
    | _ => cases hx
  · exact ⟨(_, x.stamp), List.mem_zipIdx_iff_getElem?.mpr he, rfl⟩

theorem eq_of_mem_waiting {h : List Event} {x y : Item} (hx : x ∈ waiting h) (hy : y ∈ waiting h)
    (hxy : x.stamp = y.stamp) : x = y := by
  obtain ⟨⟨_, _, hx⟩, -⟩ := mem_waiting.mp hx
  obtain ⟨⟨_, _, hy⟩, -⟩ := mem_waiting.mp hy
  rw [hxy, hy] at hx
  injection Option.some.inj hx with h1 h2
  cases x
  cases y
  simp_all

theorem takenStamps_append (h es : List Event) :
    takenStamps (h ++ es) = takenStamps h ++ takenStamps es := List.filterMap_append

theorem waiting_append (h : List Event) (e : Event) : waiting (h ++ [e]) =
    (h.zipIdx.filterMap Event.item ++ (Event.item (e, h.length)).toList).filter
      fun x => x.stamp ∉ takenStamps (h ++ [e]) := by
  unfold waiting
  rw [List.zipIdx_append, List.filterMap_append, Nat.zero_add]
  cases hx : Event.item (e, h.length) <;> simp [hx]

theorem waiting_enqueued {h : List Event} (ht : ∀ i ∈ takenStamps h, i < h.length)
    (sender receiver : Int) (payload : List UInt8) (u : Nat) :
    waiting (h ++ [.enqueued sender receiver payload u]) =
      waiting h ++ [⟨h.length, sender, receiver⟩] := by
  have hnt : h.length ∉ takenStamps h := fun hm => lt_irrefl _ (ht _ hm)
  have hts : takenStamps (h ++ [.enqueued sender receiver payload u]) = takenStamps h :=
    (takenStamps_append ..).trans (List.append_nil _)
  rw [waiting_append, hts, List.filter_append]
  simp [waiting, Event.item, hnt]

theorem waiting_received (h : List Event) (r f : Int) (n : Nat) (bytes : List UInt8) (u : Nat)
    (ret : Int) (i : Nat) : waiting (h ++ [.received r f n bytes u ret i]) = waiting h := by
  have hts : takenStamps (h ++ [.received r f n bytes u ret i]) = takenStamps h :=
    (takenStamps_append ..).trans (List.append_nil _)
  rw [waiting_append, hts]
  exact congrArg _ (List.append_nil _)

theorem waiting_taken {h : List Event} {x : Item} (hx : x ∈ waiting h) :
    waiting (h ++ [.taken x.stamp]) = (waiting h).filter (· ≠ x) := by
  have hstamp : waiting (h ++ [.taken x.stamp]) = (waiting h).filter (·.stamp ≠ x.stamp) := by
    rw [waiting_append, takenStamps_append, waiting, List.filter_filter]
    simp [Event.item, takenStamps, Event.takes, and_comm]
  rw [hstamp]
  apply List.filter_congr
  intro y hy
  have : y.stamp = x.stamp ↔ y = x := ⟨eq_of_mem_waiting hy hx, congrArg _⟩
  simp [this]

/-! ## The table -/

theorem Item.hash_of_accepts {r : Nat} {f : Int} {x : Item} (h : x.accepts r f = true) :
    mailboxHash x.receiver = mailboxHash r := by
  simp only [Item.accepts, Bool.and_eq_true, beq_iff_eq] at h
  rw [h.1]

/-- Messages go by the bucket of their receiver; a query is a receiving process and its filter. -/
def mailboxKeys : Slots.Keys Item Nat (Nat × Int) where
  key x := mailboxHash x.receiver
  bucket q := mailboxHash q.1
  accepts q x := x.accepts q.1 q.2
  key_eq _ _ := Item.hash_of_accepts

/-- The message on the ring of a bucket, as a slot. -/
def State.slot (s : State) (b : Nat) : Option Item :=
  if b < mailboxNumberBuckets then
    match s.links.next (.head b) with
    | .msg a => (s.heap a).map Message.item
    | _ => none
  else none

def State.table (s : State) : Slots.Table Item Nat where
  slot := s.slot
  queue := waiting s.history

theorem slot_of_nil {s : State} {b : Nat} (hr : Ring s.links (.head b) []) : s.slot b = none := by
  unfold State.slot
  rw [hr.path.1]
  exact ite_self _

theorem slot_of_next {s : State} {b a : Nat} {m : Message} (hb : b < mailboxNumberBuckets)
    (hn : s.links.next (.head b) = .msg a) (hm : s.heap a = some m) : s.slot b = some m.item := by
  unfold State.slot
  rw [if_pos hb, hn]
  exact congrArg (Option.map Message.item) hm

theorem slot_of_le {s : State} {b : Nat} (hb : mailboxNumberBuckets ≤ b) : s.slot b = none :=
  if_neg (Nat.not_lt.mpr hb)

theorem Frame.slot {s t : State} {p : Nat} {A B : Nat → Prop} {es : List Event}
    (hf : Frame s t p A B es) (hi : Inv s) {b : Nat} (hB : ¬ B b) : t.slot b = s.slot b := by
  by_cases hb : b < mailboxNumberBuckets
  · rcases hi.bucket b hb with hr | ⟨a, m, hr, hm, -⟩
    · rw [slot_of_nil hr]
      apply slot_of_nil
      refine hr.congr fun x hx => ?_
      rw [List.mem_singleton.mp hx]
      exact hf.head b hB
    · have hA := hf.not_touched_ring hi hb hB hr
      rw [slot_of_next hb hr.path.1 hm,
        slot_of_next hb ((hf.head b hB).1.trans hr.path.1) (hf.heap a m hA hm)]
  · rw [slot_of_le (Nat.le_of_not_lt hb), slot_of_le (Nat.le_of_not_lt hb)]

theorem Frame.table {s t : State} {p : Nat} {A : Nat → Prop} {es : List Event}
    (hf : Frame s t p A (fun _ => False) es) (hi : Inv s)
    (hw : waiting (s.history ++ es) = waiting s.history) : t.table = s.table := by
  unfold State.table
  rw [hf.history, hw, funext fun b => hf.slot hi (b := b) id]

/-- A link is fine where the list of the bucket is empty. -/
def LinkOk (s : State) : Nat × Act → Prop
  | (p, .link) => ∀ a pid payload u, s.pc p = .sendLink a pid payload u →
      s.links.next (.head (mailboxHash pid)) = .head (mailboxHash pid)
  | _ => True

theorem Queued.mem_waiting {h : List Event} {b : Nat} {m : Message} (hq : Queued h b m) :
    m.item ∈ waiting h := by
  obtain ⟨payload, u, he, -⟩ := hq.enqueued
  exact Kernel.mem_waiting.mpr ⟨⟨payload, u, he⟩, hq.notTaken⟩

theorem Inv.slot_eq_none_iff {s : State} (hi : Inv s) (pid : Nat) :
    s.slot (mailboxHash pid) = none ↔
      s.links.next (.head (mailboxHash pid)) = .head (mailboxHash pid) := by
  rcases hi.bucket _ (mailboxHash_lt pid) with hr | ⟨a, m, hr, hm, -⟩
  · exact iff_of_true (slot_of_nil hr) hr.path.1
  · rw [slot_of_next (mailboxHash_lt pid) hr.path.1 hm, hr.path.1]
    simp

theorem Inv.link_put {s : State} (hi : Inv s) {p pid a u : Nat} {payload : List UInt8}
    {m : Message} {l : Links Node} (hpc : s.pc p = .sendLink a pid payload u)
    (hm : s.heap a = some m)
    (hl : listAddTail s.links (.head (mailboxHash pid)) (.msg a) = some l) :
    Slots.Step mailboxKeys s.table (.put ⟨s.history.length, p, pid⟩)
      (s.link p pid a payload u m l).table := by
  obtain ⟨hring, hframe⟩ := hi.link_frame hpc hl m
  obtain ⟨hsender, hreceiver, -⟩ := hi.recordOk hpc rfl hm
  have hnew : (⟨s.history.length, p, pid⟩ : Item) ∉ s.table.queue := by
    intro hmem
    obtain ⟨⟨_, _, he⟩, -⟩ := mem_waiting.mp hmem
    exact lt_irrefl _ (List.getElem?_eq_some_iff.mp he).1
  have hacc : ∃ q, mailboxKeys.accepts q ⟨s.history.length, p, pid⟩ = true :=
    ⟨(pid, -1), by simp [mailboxKeys, Item.accepts]⟩
  convert Slots.Step.put hnew hacc
  refine congrArg₂ Slots.Table.mk (funext fun b => ?_) (waiting_enqueued hi.taken ..)
  by_cases hb : b = mailboxHash pid
  · subst hb
    rw [slot_of_next (mailboxHash_lt pid) hring.path.1 (Function.update_self ..)]
    simp [Message.item, hsender, hreceiver, mailboxKeys]
  · rw [hframe.slot hi hb]
    exact (Slots.put_slot_of_ne s.table hb).symm

theorem Inv.unlink_take {s : State} (hi : Inv s) {p n a k : Nat} {filter : Int} {m : Message}
    {l : Links Node} (hscan : s.scan p filter k = some (.found (.msg a)))
    (hm : s.heap a = some m) (hl : listDel .poison1 .poison2 s.links (.msg a) = some l) :
    Slots.Step mailboxKeys s.table (.take m.item) (s.unlink p a filter n m l).table := by
  obtain ⟨hring, hq, hnext, -, hframe⟩ := hi.unlink_frame (n := n) hscan hm hl
  have hslot : s.table.slot (mailboxHash p) = some m.item :=
    slot_of_next (mailboxHash_lt p) hnext hm
  convert Slots.Step.take (K := mailboxKeys) hslot
  refine congrArg₂ Slots.Table.mk (funext fun b => ?_) (waiting_taken hq.mem_waiting)
  by_cases hb : b = mailboxHash p
  · subst hb
    rw [slot_of_nil hring]
    exact (Slots.take_slot _ m.item s.table).symm
  · rw [hframe.slot hi hb]
    exact (Slots.take_slot_of_ne m.item s.table hb).symm

/-- **Simulation**: every step of the mailbox is a step of the table of slots. -/
theorem Step.refines {s t : State} {x : Nat × Act} (hi : Inv s) (hs : Step s x t) :
    ∃ a, Slots.Step mailboxKeys s.table a t.table ∧
      (Slots.Ok mailboxKeys s.table a ↔ LinkOk s x) := by
  have hskip : Slots.Ok mailboxKeys s.table .skip := trivial
  cases hs with
  | @link p pid a u payload m l hpc _ hm hl =>
    refine ⟨_, hi.link_put hpc hm hl, (hi.slot_eq_none_iff pid).trans ?_⟩
    constructor
    · intro hnext a' pid' payload' u' hpc'
      cases hpc.symm.trans hpc'
      exact hnext
    · exact fun hok => hok a pid payload u hpc
  | linkBug hpc _ hl =>
    obtain ⟨l, hl', -⟩ := hi.link_ring hpc
    rw [hl] at hl'
    cases hl'
  | scanFound _ _ hscan hm hl => exact ⟨_, hi.unlink_take hscan hm hl, Iff.rfl⟩
  | @kmallocMsg p pid a payload _ ha =>
    refine ⟨.skip, ?_, iff_of_true hskip trivial⟩
    rw [(frame_kmallocMsg ha rfl).table hi (congrArg _ (List.append_nil _))]
    exact .skip
  | copyFromUser hpc | copyFromUserNull hpc =>
    refine ⟨.skip, ?_, iff_of_true hskip trivial⟩
    rw [(frame_copyFromUser (by rw [hpc]; rfl) rfl).table hi (congrArg _ (List.append_nil _))]
    exact .skip
  | kfreeMsg hpc hm =>
    refine ⟨.skip, ?_, iff_of_true hskip trivial⟩
    rw [(frame_kfreeMsg (by rw [hpc]; rfl) (hi.recordOk hpc rfl hm).1).table hi
      (waiting_received ..)]
    exact .skip
  | _ => exact ⟨.skip, .skip, iff_of_true hskip trivial⟩

/-! ## What a receive takes -/

/-- What the critical section of a receive by `r` with filter `f` takes in state `s`. -/
def Takes (s : State) (r : Nat) (f : Int) : Option Item → Prop
  | some x => ∃ k a m, s.scan r f k = some (.found (.msg a)) ∧ s.heap a = some m ∧ m.item = x ∧
      (listDel .poison1 .poison2 s.links (.msg a)).isSome
  | none => ∃ k, s.scan r f k = some .notFound

/-- Every receive takes the earliest waiting message it accepts, and finds nothing only if there
is none. -/
def FifoReceive (s : State) : Prop :=
  ∀ r f, Takes s r f ((waiting s.history).find? (Item.accepts r f))

theorem Takes.unique {s : State} {r : Nat} {f : Int} {o o' : Option Item} (h : Takes s r f o)
    (h' : Takes s r f o') : o = o' := by
  cases o with
  | none =>
    obtain ⟨k, hk⟩ := h
    cases o' with
    | none => rfl
    | some x =>
      obtain ⟨k', a, m, hk', -⟩ := h'
      cases Loop.run_unique hk hk'
  | some x =>
    obtain ⟨k, a, m, hk, hm, rfl, -⟩ := h
    cases o' with
    | none =>
      obtain ⟨k', hk'⟩ := h'
      cases Loop.run_unique hk hk'
    | some y =>
      obtain ⟨k', a', m', hk', hm', rfl, -⟩ := h'
      cases Loop.run_unique hk hk'
      rw [Option.some.inj (hm.symm.trans hm')]

theorem Inv.takes_answer {s : State} (hi : Inv s) (r : Nat) (f : Int) :
    Takes s r f (Slots.answer mailboxKeys s.table (r, f)) := by
  have hanswer : Slots.answer mailboxKeys s.table (r, f) =
      (s.slot (mailboxHash r)).filter (Item.accepts r f) := rfl
  rw [hanswer]
  rcases hi.scan_ends r f with ⟨hr, k, hk⟩ | ⟨a, m, hr, hm, -, hq, k, hk⟩
  · rw [slot_of_nil hr, Option.filter_none]
    exact ⟨k, hk⟩
  · rw [slot_of_next (mailboxHash_lt r) hr.path.1 hm, Option.filter_some,
      show m.item.accepts r f = m.accepts r f from rfl]
    cases hacc : m.accepts r f with
    | false =>
      rw [hacc] at hk
      exact ⟨k, hk⟩
    | true =>
      rw [hacc] at hk
      obtain ⟨l, hl, -⟩ := hi.unlink_ring hk
      exact ⟨k, a, m, hk, hm, rfl, by rw [hl]; rfl⟩

theorem Inv.takes_iff {s : State} (hi : Inv s) (r : Nat) (f : Int) (o : Option Item) :
    Takes s r f o ↔ Slots.answer mailboxKeys s.table (r, f) = o :=
  ⟨(hi.takes_answer r f).unique, fun h => h ▸ hi.takes_answer r f⟩

theorem Inv.fifoReceive_iff {s : State} (hi : Inv s) :
    FifoReceive s ↔ Slots.Fifo mailboxKeys s.table := by
  unfold FifoReceive Slots.Fifo
  constructor
  · rintro h ⟨r, f⟩
    exact (hi.takes_iff r f _).mp (h r f)
  · intro h r f
    exact (hi.takes_iff r f _).mpr (h (r, f))

theorem table_init (l : Links Node) (b : Nat) : (State.init l).table.slot b = none := by
  by_cases hb : b < mailboxNumberBuckets
  · exact slot_of_nil (initMailbox_ring l hb)
  · exact slot_of_le (Nat.le_of_not_lt hb)

theorem wf_init (l : Links Node) : Slots.Wf mailboxKeys (State.init l).table where
  nodup := List.nodup_nil
  slot b x hx := by
    rw [table_init] at hx
    cases hx

theorem fifo_init (l : Links Node) : Slots.Fifo mailboxKeys (State.init l).table := by
  intro q
  rw [Slots.answer, table_init]
  rfl

/-- **Delivery order**: in a run from `init_mailbox` on, every receive in every state would take
the earliest waiting message it accepts exactly if each send of the run found the list of its
bucket empty when it linked its message. -/
theorem receive_fifo_iff {l : Links Node} {tr : List (State × (Nat × Act))} {t : State}
    (h : Run Step (State.init l) tr t) :
    ((∀ x ∈ tr, FifoReceive x.1) ∧ FifoReceive t) ↔ ∀ x ∈ tr, LinkOk x.1 x.2 := by
  refine h.good_iff (I := fun s => Inv s ∧ Slots.Wf mailboxKeys s.table) ?_ ?_
    ⟨inv_init l, wf_init l⟩ ((inv_init l).fifoReceive_iff.mpr (fifo_init l))
  · rintro s x t ⟨hi, hw⟩ hs
    obtain ⟨a, ha, -⟩ := hs.refines hi
    exact ⟨hi.step hs, hw.step ha⟩
  · rintro s x t ⟨hi, hw⟩ hg hs
    obtain ⟨a, ha, hok⟩ := hs.refines hi
    rw [(hi.step hs).fifoReceive_iff, ← hok]
    exact ha.fifo_iff hw (hi.fifoReceive_iff.mp hg)

/-! ## Sends overwrite -/

/-- Whatever is at the address when the call reads the length, it returns. -/
theorem return_step {s : State} {p a : Nat} (hp : s.pc p = .sendRet a) :
    ∃ ret, Step s (p, .sendReturn ret) (s.setPc p .idle) := by
  cases hm : s.heap a with
  | none => exact ⟨0, .sendReturn hp fun m hm' => by rw [hm] at hm'; cases hm'⟩
  | some m => exact ⟨m.length, .sendReturn hp fun m' hm' => by rw [hm] at hm'; cases hm'; rfl⟩

/-- A `sys_mysend` of an idle process in which nothing fails, up to its last statement. -/
theorem send_link_run {s : State} (hi : Inv s) {p a : Nat} (pid : Nat) {payload : List UInt8}
    (hp : s.pc p = .idle) (ha : s.heap a = none) (hlt : payload.length < kmallocLimit) :
    ∃ tr t, Run Step s tr t ∧ t.pc p = .sendRet a ∧ (∀ q, q ≠ p → t.pc q = s.pc q) ∧
      (∀ a', a' ≠ a → t.heap a' = s.heap a') ∧
      t.history = s.history ++ [.enqueued p pid payload 0] ∧
      t.slot (mailboxHash pid) = some ⟨s.history.length, p, pid⟩ ∧
      (s.slot (mailboxHash pid) = none → ∀ x ∈ tr, LinkOk x.1 x.2) := by
  obtain ⟨l, hl, hring, -⟩ :=
    listAddTail_ring (initListHead_ring s.links (.msg a))
      (show Node.head (mailboxHash pid) ≠ .msg a by simp)
  have h1 : Step s (p, .callSend pid payload) (s.setPc p (.sendMsg pid payload)) := .callSend hp
  refine ⟨_, _, .cons h1 <| .cons (Step.kmallocMsg (setPc_pc ..) ha) <|
    .cons (Step.kmallocBuf (setPc_pc ..) hlt) <|
    .cons (Step.copyFromUser (u := 0) (setPc_pc ..) (Function.update_self ..) (Nat.zero_le _)) <|
    .cons (Step.link (setPc_pc ..) hi.bug (Function.update_self ..) hl) (.nil _),
    setPc_pc .., fun q hq => ?_, fun a' ha' => ?_, rfl, ?_, fun hnone => ?_⟩
  · simp [State.setPc, Function.update_of_ne hq]
  · simp [State.setPc, Function.update_of_ne ha']
  · exact slot_of_next (m := ⟨p, pid, _, _, s.history.length⟩) (mailboxHash_lt pid) hring.path.1
      (Function.update_self ..)
  · simp only [List.forall_mem_cons]
    refine ⟨trivial, trivial, trivial, trivial, ?_, nofun⟩
    intro a' pid' payload' u' hpc
    obtain ⟨-, rfl, -⟩ := Pc.sendLink.inj ((setPc_pc ..).symm.trans hpc)
    exact (initListHead_of_ne s.links (by simp)).1.trans ((hi.slot_eq_none_iff pid).mp hnone)

theorem send_run {s : State} (hi : Inv s) {p a : Nat} (pid : Nat) {payload : List UInt8}
    (hp : s.pc p = .idle) (ha : s.heap a = none) (hlt : payload.length < kmallocLimit) :
    ∃ tr t, Run Step s tr t ∧ t.pc p = .idle ∧ (∀ q, q ≠ p → t.pc q = s.pc q) ∧
      (∀ a', a' ≠ a → t.heap a' = s.heap a') ∧
      t.history = s.history ++ [.enqueued p pid payload 0] ∧
      t.slot (mailboxHash pid) = some ⟨s.history.length, p, pid⟩ ∧
      (s.slot (mailboxHash pid) = none → ∀ x ∈ tr, LinkOk x.1 x.2) := by
  obtain ⟨tr, t, hrun, hpc, hothers, hheap, hhist, hslot, hlink⟩ := send_link_run hi pid hp ha hlt
  obtain ⟨ret, hret⟩ := return_step hpc
  refine ⟨_, _, hrun.snoc hret, setPc_pc .., fun q hq => ?_, hheap, hhist, hslot, fun hnone => ?_⟩
  · exact (Function.update_of_ne hq ..).trans (hothers q hq)
  · refine List.forall_mem_append.mpr ⟨hlink hnone, ?_⟩
    rintro _ (_ | ⟨_, ⟨⟩⟩)
    trivial

theorem Inv.takes_of_slot {s : State} (hi : Inv s) {r : Nat} {f : Int} {x : Item}
    (hslot : s.slot (mailboxHash r) = some x) (hacc : x.accepts r f = true) :
    Takes s r f (some x) := by
  rw [hi.takes_iff, Slots.answer]
  show (s.slot (mailboxHash r)).filter _ = _
  rw [hslot]
  exact Option.filter_some_pos hacc

/-- A whole `sys_myreceive` of an idle process that finds a message, with a complete copy. -/
theorem receive_run {s : State} (hi : Inv s) {p : Nat} {f : Int} (n : Nat) {x : Item}
    (hp : s.pc p = .idle) (hx : Takes s p f (some x)) :
    ∃ tr t bytes ret, Run Step s tr t ∧ t.pc = s.pc ∧ t.slot (mailboxHash p) = none ∧
      (∀ a, s.heap a = none → t.heap a = none) ∧
      t.history = s.history ++ [.taken x.stamp, .received p f n bytes 0 ret x.stamp] ∧
      tr.map (·.2) = [(p, .callReceive f n), (p, .scan), (p, .copyToUser 0), (p, .kfreeBuf),
        (p, .kfreeMsg)] ∧
      ∀ y ∈ tr, ∀ q, q ≠ p → y.1.pc q = s.pc q := by
  obtain ⟨k, a, m, hscan, hm, rfl, -⟩ := hx
  obtain ⟨l, hl, hempty, -⟩ := hi.unlink_ring hscan
  have h1 : Step s (p, .callReceive f n) (s.setPc p (.recvScan f n)) := .callReceive hp
  refine ⟨_, _, m.message.take (m.minimum n - 0), (m.minimum n : Int) - (0 : Nat),
    .cons h1 <| .cons (Step.scanFound (setPc_pc ..) hi.bug hscan hm hl) <|
    .cons (Step.copyToUser (u := 0) (setPc_pc ..) hm (Nat.zero_le _)) <|
    .cons (Step.kfreeBuf (setPc_pc ..)) <| .cons (Step.kfreeMsg (setPc_pc ..) hm) (.nil _),
    ?_, slot_of_nil hempty, fun a' ha' => ?_, List.append_assoc .., rfl, ?_⟩
  · have hpc : Function.update s.pc p .idle = s.pc := hp ▸ Function.update_eq_self p s.pc
    simp only [State.setPc, Function.update_idem, hpc]
  · have hne : a' ≠ a := by
      rintro rfl
      cases ha'.symm.trans hm
    exact (Function.update_of_ne hne ..).trans ha'
  · simp only [List.forall_mem_cons]
    refine ⟨fun _ _ => trivial, fun q hq => ?_, fun q hq => ?_, fun q hq => ?_, fun q hq => ?_,
      nofun⟩
    all_goals simp [State.setPc, Function.update_of_ne hq]

/-- Process 1 sends to process 2, which receives the message, and then sends again. -/
theorem send_receive_run : ∃ tr t bytes ret, Run Step (State.init ⟨id, id⟩) tr t ∧
    t.history = [.enqueued 1 2 [97] 0, .taken 0, .received 2 (-1) 1 bytes 0 ret 0,
      .enqueued 1 2 [98] 0] ∧ ∀ x ∈ tr, LinkOk x.1 x.2 := by
  have hinit := inv_init ⟨id, id⟩
  have hring : Ring (State.init ⟨id, id⟩).links (.head (mailboxHash 2)) [] :=
    initMailbox_ring ⟨id, id⟩ (mailboxHash_lt 2)
  obtain ⟨tr₁, s, hrun₁, hp₁, hothers, hheap₁, hhist₁, hslot₁, hlink₁⟩ :=
    send_run hinit (p := 1) (a := 0) 2 rfl rfl (show [97].length < _ by decide)
  obtain ⟨tr₂, u, bytes, ret, hrun₂, hpc₂, hslot₂, hheap₂, hhist₂, hacts, -⟩ :=
    receive_run (inv_run hrun₁) (f := -1) 1 (hothers 2 (by decide))
      ((inv_run hrun₁).takes_of_slot hslot₁ rfl)
  obtain ⟨tr₃, t, hrun₃, -, -, -, hhist₃, -, hlink₃⟩ :=
    send_run (inv_run (hrun₁.append hrun₂)) (p := 1) (a := 1) 2 (by rw [hpc₂]; exact hp₁)
      (hheap₂ 1 (hheap₁ 1 (by decide))) (show [98].length < _ by decide)
  refine ⟨_, _, bytes, ret, hrun₁.append (hrun₂.append hrun₃), ?_, ?_⟩
  · rw [hhist₃, hhist₂, hhist₁]
    rfl
  · refine List.forall_mem_append.mpr ⟨hlink₁ (slot_of_nil hring),
      List.forall_mem_append.mpr ⟨?_, hlink₃ hslot₂⟩⟩
    rintro ⟨v, p, act⟩ hx
    have hact : (p, act) ∈ tr₂.map (·.2) := List.mem_map_of_mem hx
    rw [hacts] at hact
    cases act with
    | link => simp at hact
    | _ => trivial

theorem receive_fifo_iff_sends : ∃ tr t, Run Step (State.init ⟨id, id⟩) tr t ∧
    (∃ bytes ret, t.history = [.enqueued 1 2 [97] 0, .taken 0, .received 2 (-1) 1 bytes 0 ret 0,
      .enqueued 1 2 [98] 0]) ∧ (∀ x ∈ tr, LinkOk x.1 x.2) ∧
    (∀ x ∈ tr, FifoReceive x.1) ∧ FifoReceive t := by
  obtain ⟨tr, t, bytes, ret, hrun, hhist, hlink⟩ := send_receive_run
  exact ⟨tr, t, hrun, ⟨bytes, ret, hhist⟩, hlink, (receive_fifo_iff hrun).mpr hlink⟩

/-- Process 1 sends twice to process 2: a receive takes the second message, and the first one,
which is still waiting, is on no list. -/
theorem receive_overwritten : ∃ tr t, Run Step (State.init ⟨id, id⟩) tr t ∧
    t.history = [.enqueued 1 2 [97] 0, .enqueued 1 2 [98] 0] ∧
    Takes t 2 (-1) (some ⟨1, 1, 2⟩) ∧
    (waiting t.history).find? (Item.accepts 2 (-1)) = some ⟨0, 1, 2⟩ := by
  obtain ⟨tr, t, hrun, hpc, -, hheap, hhist, -, -⟩ :=
    send_run (inv_init ⟨id, id⟩) (p := 1) (a := 0) 2 rfl rfl (show [97].length < _ by decide)
  obtain ⟨tr', t', hrun', -, -, -, hhist', hslot, -⟩ :=
    send_run (inv_run hrun) (p := 1) (a := 1) 2 hpc (hheap 1 (by decide))
      (show [98].length < _ by decide)
  have hall := hrun.append hrun'
  rw [hhist] at hhist' hslot
  exact ⟨_, t', hall, hhist', (inv_run hall).takes_of_slot hslot rfl, by rw [hhist']; decide⟩

end Cs370.Kernel
