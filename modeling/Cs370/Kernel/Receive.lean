import Cs370.Kernel.Rings
import Cs370.Kernel.Send

/-!
# What a receive takes

The statements of one `sys_myreceive`, one after the other. The message it accepts is taken off
its list before anything is copied and is freed after the copy, whatever that has copied: a
receive that finds a message consumes it, also where it returns 0, and only one that finds none
leaves the queues as they were (`receive_consumes`).
-/

namespace Cs370.Kernel

open Cs370.Trans

/-! ## Each statement leads to one state -/

section
variable {s t : State} {p n a k u : Nat} {filter : Int} {m : Message} {l : Links Node}
  {bytes : List UInt8}

theorem step_callReceive_iff (hp : s.pc p = .idle) :
    Step s (p, .callReceive filter n) t ↔ t = s.setPc p (.recvScan filter n) := by
  refine ⟨fun h => ?_, fun h => h ▸ .callReceive hp⟩
  cases h with
  | callReceive => rfl

theorem step_scan_notFound_iff (hp : s.pc p = .recvScan filter n) (hbug : s.bug = false)
    (hscan : s.scan p filter k = some .notFound) : Step s (p, .scan) t ↔ t = s.setPc p .idle := by
  refine ⟨fun h => ?_, fun h => h ▸ .scanNotFound hp hbug hscan⟩
  cases h with
  | scanNotFound => rfl
  | scanFound hp' _ hscan' =>
    cases hp.symm.trans hp'
    cases Loop.run_unique hscan hscan'
  | scanFault hp' _ hscan' =>
    cases hp.symm.trans hp'
    cases Loop.run_unique hscan hscan'
  | scanBug hp' _ hscan' =>
    cases hp.symm.trans hp'
    cases Loop.run_unique hscan hscan'

theorem step_scan_found_iff (hp : s.pc p = .recvScan filter n) (hbug : s.bug = false)
    (hscan : s.scan p filter k = some (.found (.msg a))) (hm : s.heap a = some m)
    (hl : listDel .poison1 .poison2 s.links (.msg a) = some l) :
    Step s (p, .scan) t ↔ t = s.unlink p a filter n m l := by
  refine ⟨fun h => ?_, fun h => h ▸ .scanFound hp hbug hscan hm hl⟩
  cases h with
  | scanFound hp' _ hscan' hm' hl' =>
    cases hp.symm.trans hp'
    cases Loop.run_unique hscan hscan'
    cases hm.symm.trans hm'
    cases hl.symm.trans hl'
    rfl
  | scanNotFound hp' _ hscan' =>
    cases hp.symm.trans hp'
    cases Loop.run_unique hscan hscan'
  | scanFault hp' _ hscan' =>
    cases hp.symm.trans hp'
    cases Loop.run_unique hscan hscan'
  | scanBug hp' _ hscan' hl' =>
    cases hp.symm.trans hp'
    cases Loop.run_unique hscan hscan'
    cases hl.symm.trans hl'

theorem step_copyToUser_iff (hp : s.pc p = .recvCopy a filter n) (hm : s.heap a = some m)
    (hu : u ≤ m.minimum n) :
    Step s (p, .copyToUser u) t ↔ t = s.setPc p
      (.recvFreeBuf a filter n (m.message.take (m.minimum n - u)) (m.minimum n) u) := by
  refine ⟨fun h => ?_, fun h => h ▸ .copyToUser hp hm hu⟩
  cases h with
  | copyToUser hp' hm' =>
    cases hp.symm.trans hp'
    cases hm.symm.trans hm'
    rfl

theorem step_kfreeBuf_iff (hp : s.pc p = .recvFreeBuf a filter n bytes k u) :
    Step s (p, .kfreeBuf) t ↔ t = s.setPc p (.recvFreeMsg a filter n bytes k u) := by
  refine ⟨fun h => ?_, fun h => h ▸ .kfreeBuf hp⟩
  cases h with
  | kfreeBuf hp' =>
    cases hp.symm.trans hp'
    rfl

theorem step_kfreeMsg_iff (hp : s.pc p = .recvFreeMsg a filter n bytes k u)
    (hm : s.heap a = some m) :
    Step s (p, .kfreeMsg) t ↔
      t = { s with
        heap := Function.update s.heap a none
        history := s.history ++ [Event.received p filter n bytes u ((k : Int) - u) m.stamp]
        }.setPc p .idle := by
  refine ⟨fun h => ?_, fun h => h ▸ .kfreeMsg hp hm⟩
  cases h with
  | kfreeMsg hp' hm' =>
    cases hp.symm.trans hp'
    cases hm.symm.trans hm'
    rfl

end

/-! ## The call -/

/-- The statements of a `sys_myreceive` up to the end of its scan. -/
def scanActs (p : Nat) (filter : Int) (n : Nat) : List (Nat × Act) :=
  [(p, .callReceive filter n), (p, .scan)]

/-- The statements of one that has found a message, with `u` bytes left by the user copy. -/
def deliverActs (p u : Nat) : List (Nat × Act) :=
  [(p, .copyToUser u), (p, .kfreeBuf), (p, .kfreeMsg)]

/-- A whole call that leads to `t` and returns `ret`; `u` is what its user copy, if there is one,
leaves behind. -/
inductive Receives (s : State) (p : Nat) (filter : Int) (n u : Nat) : State → Int → Prop where
  | nothing {t : State} : Follows Step s (scanActs p filter n) t → t.pc p = .idle →
      Receives s p filter n u t 0
  | message {t : State} {ret : Int} {bytes : List UInt8} {i : Nat} :
      Follows Step s (scanActs p filter n ++ deliverActs p u) t →
      t.history.getLast? = some (.received p filter n bytes u ret i) →
      Receives s p filter n u t ret

/-- The messages queued in bucket `b`. -/
def Queue (s : State) (b : Nat) (as : List Nat) : Prop := Ring s.links (.head b) (as.map .msg)

/-- The first message of its bucket that a receive of process `p` may take. -/
def Finds (s : State) (p : Nat) (filter : Int) (found : Option Nat) : Prop :=
  ∃ as, Queue s (mailboxHash p) as ∧
    as.find? (fun a => (s.heap a).any (Message.accepts p filter)) = found

/-- From `s` to `t` the message `a` has gone, and nothing else has changed in the queues. -/
structure Consumed (s t : State) (a : Nat) : Prop where
  freed : t.heap a = none
  heap : ∀ c, c ≠ a → t.heap c = s.heap c
  queue : ∀ b < mailboxNumberBuckets, ∀ as, Queue s b as → Queue t b (as.erase a)

theorem Finds.unique {s : State} {p : Nat} {filter : Int} {x y : Option Nat}
    (hx : Finds s p filter x) (hy : Finds s p filter y) : x = y := by
  obtain ⟨as, hr, rfl⟩ := hx
  obtain ⟨bs, hr', rfl⟩ := hy
  rw [msg_map_injective (hr.unique hr')]

theorem Inv.finds {s : State} (hi : Inv s) (p : Nat) (filter : Int) :
    (Finds s p filter none ∧ ∃ k, s.scan p filter k = some .notFound) ∨
    ∃ a k, Finds s p filter (some a) ∧ s.scan p filter k = some (.found (.msg a)) := by
  rcases hi.scan_ends p filter with ⟨hr, k, hk⟩ | ⟨a, m, hr, hm, -, -, k, hk⟩
  · exact .inl ⟨⟨[], hr, rfl⟩, k, hk⟩
  · cases hacc : m.accepts p filter with
    | true =>
      rw [hacc] at hk
      exact .inr ⟨a, k, ⟨[a], hr, by simp [hm, hacc]⟩, hk⟩
    | false =>
      rw [hacc] at hk
      exact .inl ⟨⟨[a], hr, by simp [hm, hacc]⟩, k, hk⟩

theorem Inv.unlink_queue {s : State} (hi : Inv s) {p k a : Nat} {filter : Int} {l : Links Node}
    (hscan : s.scan p filter k = some (.found (.msg a)))
    (hl : listDel .poison1 .poison2 s.links (.msg a) = some l) {b : Nat} {as : List Nat}
    (hb : b < mailboxNumberBuckets) (hq : Queue s b as) :
    Ring l (.head b) ((as.erase a).map .msg) := by
  obtain ⟨m, hr, hm, -, hqueued, -⟩ := hi.scan_found hscan
  obtain ⟨l', hl', hring, hsame⟩ := hi.unlink_ring hscan
  obtain rfl : l' = l := Option.some.inj (hl'.symm.trans hl)
  by_cases hbp : b = mailboxHash p
  · subst hbp
    obtain rfl : as = [a] := msg_map_injective (hq.unique hr)
    rw [List.erase_cons_head]
    exact hring
  · have ha : a ∉ as := by
      intro ha
      obtain ⟨m', hm', hq'⟩ := hi.mem_ring hb hq ha
      obtain rfl : m = m' := Option.some.inj (hm.symm.trans hm')
      exact hbp (hq'.bucket.symm.trans hqueued.bucket)
    rw [List.erase_of_not_mem ha]
    refine Ring.congr hq fun x hx => hsame x ?_ ?_
    · rintro rfl
      simp [Ne.symm hbp] at hx
    · rintro rfl
      simp [ha] at hx

/-! ## What the statements lead to -/

/-- The state after a receive that has found the message `m`, where `l` are the links after the
`list_del`. -/
def State.received (s : State) (p a : Nat) (filter : Int) (n u : Nat) (m : Message)
    (l : Links Node) : State :=
  { s with
    links := l
    heap := Function.update s.heap a none
    history := s.history ++ [.taken m.stamp] ++
      [.received p filter n (m.message.take (m.minimum n - u)) u ((m.minimum n : Int) - u)
        m.stamp] }

theorem received_heap (s : State) (p a : Nat) (filter : Int) (n u : Nat) (m : Message)
    (l : Links Node) : (s.received p a filter n u m l).heap a = none := Function.update_self ..

section
variable {s t : State} (hbug : s.bug = false) {p n : Nat} {filter : Int} (hp : s.pc p = .idle)
include hbug hp

theorem scanActs_notFound {k : Nat} (hscan : s.scan p filter k = some .notFound)
    (as : List (Nat × Act)) :
    Follows Step s (scanActs p filter n ++ as) t ↔ Follows Step s as t := by
  have hidle : (s.setPc p (.recvScan filter n)).setPc p .idle = s := by
    have hpc : Function.update s.pc p .idle = s.pc := hp ▸ Function.update_eq_self p s.pc
    simp only [State.setPc, Function.update_idem, hpc]
  rw [scanActs, List.cons_append, follows_cons_of_unique fun _ => step_callReceive_iff hp,
    List.cons_append, follows_cons_of_unique fun _ =>
      step_scan_notFound_iff (setPc_pc ..) (by exact hbug) (by exact hscan), hidle, List.nil_append]

theorem scanActs_found {k a : Nat} {m : Message} {l : Links Node}
    (hscan : s.scan p filter k = some (.found (.msg a))) (hm : s.heap a = some m)
    (hl : listDel .poison1 .poison2 s.links (.msg a) = some l) (as : List (Nat × Act)) :
    Follows Step s (scanActs p filter n ++ as) t ↔
      Follows Step (s.unlink p a filter n m l) as t := by
  rw [scanActs, List.cons_append, follows_cons_of_unique fun _ => step_callReceive_iff hp,
    List.cons_append, follows_cons_of_unique fun _ =>
      step_scan_found_iff (setPc_pc ..) (by exact hbug) (by exact hscan) (by exact hm)
        (by exact hl), List.nil_append]
  refine iff_of_eq (congrArg (Follows Step · as t) ?_)
  simp only [State.unlink, State.setPc, Function.update_idem]

theorem receives_none_iff {k u : Nat} {ret : Int} (hscan : s.scan p filter k = some .notFound) :
    Receives s p filter n u t ret ↔ t = s ∧ ret = 0 := by
  constructor
  · intro h
    cases h with
    | nothing hf =>
      rw [← List.append_nil (scanActs ..), scanActs_notFound hbug hp hscan, follows_nil_iff] at hf
      exact ⟨hf, rfl⟩
    | message hf =>
      rw [scanActs_notFound hbug hp hscan, deliverActs, follows_cons_iff] at hf
      obtain ⟨_, hs, -⟩ := hf
      cases hs with
      | copyToUser hp' => cases hp.symm.trans hp'
  · rintro ⟨rfl, rfl⟩
    refine .nothing ?_ hp
    rw [← List.append_nil (scanActs ..), scanActs_notFound hbug hp hscan]
    exact follows_nil_iff.mpr rfl

theorem receive_follows {k a u : Nat} {m : Message} {l : Links Node}
    (hscan : s.scan p filter k = some (.found (.msg a))) (hm : s.heap a = some m)
    (hl : listDel .poison1 .poison2 s.links (.msg a) = some l) (hu : u ≤ m.minimum n) :
    Follows Step s (scanActs p filter n ++ deliverActs p u) t ↔
      t = s.received p a filter n u m l := by
  rw [scanActs_found hbug hp hscan hm hl, deliverActs, State.unlink,
    follows_cons_of_unique fun _ => step_copyToUser_iff (setPc_pc ..) (by exact hm) hu,
    follows_cons_of_unique fun _ => step_kfreeBuf_iff (setPc_pc ..),
    follows_cons_of_unique fun _ => step_kfreeMsg_iff (setPc_pc ..) (by exact hm),
    follows_nil_iff]
  have hpc : Function.update s.pc p .idle = s.pc := hp ▸ Function.update_eq_self p s.pc
  simp only [State.setPc, State.received, Function.update_idem, hpc]

/-- A receive that finds a message frees it, whatever its copy leaves behind. -/
theorem receives_some_iff {k a u : Nat} {m : Message} {l : Links Node} {ret : Int}
    (hscan : s.scan p filter k = some (.found (.msg a))) (hm : s.heap a = some m)
    (hl : listDel .poison1 .poison2 s.links (.msg a) = some l) (hu : u ≤ m.minimum n) :
    Receives s p filter n u t ret ↔
      t = s.received p a filter n u m l ∧ ret = (m.minimum n : Int) - u := by
  constructor
  · intro h
    cases h with
    | nothing hf hidle =>
      rw [← List.append_nil (scanActs ..), scanActs_found hbug hp hscan hm hl,
        follows_nil_iff] at hf
      rw [hf, State.unlink, setPc_pc] at hidle
      cases hidle
    | message hf hlast =>
      obtain rfl := (receive_follows hbug hp hscan hm hl hu).mp hf
      rw [State.received, List.getLast?_concat] at hlast
      cases hlast
      exact ⟨rfl, rfl⟩
  · rintro ⟨rfl, rfl⟩
    exact .message ((receive_follows hbug hp hscan hm hl hu).mpr rfl) (List.getLast?_concat ..)

end

/-- **What a receive consumes** in every state of the mailbox: the first message of its queue that
it accepts, whatever is copied of it and also where that is nothing, and no other. One that finds
none to accept returns 0 and leaves the state as it was. -/
theorem receive_consumes {l : Links Node} {tr : List (State × Nat × Act)} {s : State}
    (hrun : Run Step (State.init l) tr s) {p : Nat} (hp : s.pc p = .idle) (filter : Int) (n : Nat) :
    (∃ found, Finds s p filter found) ∧
    (Finds s p filter none →
      ∀ u t ret, Receives s p filter n u t ret ↔ t = s ∧ ret = 0) ∧
    ∀ a, Finds s p filter (some a) → ∃ m k, s.heap a = some m ∧ m.length = (k : Nat) ∧
      ∀ u ≤ min n k, ∃ t, Consumed s t a ∧
        ∀ t' ret, Receives s p filter n u t' ret ↔ t' = t ∧ ret = (min n k - u : Nat) := by
  have hi := inv_run hrun
  rcases hi.finds p filter with ⟨hnone, k, hscan⟩ | ⟨a, k, hsome, hscan⟩
  · refine ⟨⟨none, hnone⟩, fun _ u t ret => receives_none_iff hi.bug hp hscan, ?_⟩
    intro a ha
    cases hnone.unique ha
  · refine ⟨⟨some a, hsome⟩, fun hnone => (by cases hnone.unique hsome), fun a' ha' => ?_⟩
    obtain rfl : a = a' := Option.some.inj (hsome.unique ha')
    obtain ⟨m, -, hm, -, hq, -⟩ := hi.scan_found hscan
    obtain ⟨l', hl, -⟩ := hi.unlink_ring hscan
    obtain ⟨payload, u₀, -, hfill⟩ := hq.enqueued
    refine ⟨m, payload.length - u₀, hm, hfill.length_eq, fun u hu => ?_⟩
    rw [← hfill.minimum_eq] at hu ⊢
    refine ⟨s.received p a filter n u m l', ⟨received_heap .., fun c hc =>
      Function.update_of_ne hc .., fun b hb as => hi.unlink_queue hscan hl hb⟩, fun t' ret => ?_⟩
    rw [receives_some_iff hi.bug hp hscan hm hl hu, ← Int.ofNat_sub hu]

/-- Process 1 has sent one byte to process 2 and has returned. -/
theorem exists_sent_one : ∃ tr t, Run Step (State.init ⟨id, id⟩) tr t ∧
    tr.map (·.2) = sendActs 1 2 [97] 0 0 1 ∧ (∀ p, t.pc p = .idle) ∧ Queue t 2 [0] ∧
    Finds t 2 (-1) (some 0) ∧ ∃ m, t.heap 0 = some m ∧ m.receiver = 2 ∧ m.length = 1 := by
  have hlt : ([97] : List UInt8).length < kmallocLimit := by decide
  obtain ⟨l, hl, hsent⟩ := exists_sent (State.init ⟨id, id⟩) 1 2 0 hlt (Nat.zero_le _)
  have hfollows : Follows Step _ (sendActs 1 2 [97] 0 0 1) _ :=
    (send_follows rfl rfl rfl hlt (Nat.zero_le _) hl).mpr ⟨rfl, rfl⟩
  obtain ⟨tr, hrun, hacts⟩ := hfollows
  obtain ⟨m, hm, -, hreceiver, hlen, -⟩ := hsent.message
  obtain ⟨before, hring, hold⟩ := hsent.ring
  have hempty : Ring (State.init ⟨id, id⟩).links (.head (mailboxHash (2 : Nat))) [] :=
    initMailbox_ring ⟨id, id⟩ (mailboxHash_lt 2)
  rw [List.subset_nil.mp (hold [] hempty)] at hring
  refine ⟨tr, _, hrun, hacts, fun _ => rfl, hring, ⟨[0], hring, ?_⟩, m, hm, hreceiver, hlen⟩
  have hacc : m.accepts (2 : Nat) (-1) = true :=
    Message.accepts_iff.mpr ⟨hreceiver, .inl (by decide)⟩
  rw [List.find?_cons_of_pos]
  rw [hm]
  exact hacc

/-- A buffer of one byte takes the message and returns 1. -/
theorem receive_consumes_one : ∃ tr s t, Run Step (State.init ⟨id, id⟩) tr s ∧
    Consumed s t 0 ∧ Receives s 2 (-1) 1 0 t 1 := by
  obtain ⟨tr, s, hrun, -, hp, -, hfinds, m, hm, -, hlen⟩ := exists_sent_one
  obtain ⟨m', k, hm', hlen', hall⟩ := (receive_consumes hrun (hp 2) (-1) 1).2.2 0 hfinds
  obtain rfl : m = m' := Option.some.inj (hm.symm.trans hm')
  obtain rfl : k = 1 := by omega
  obtain ⟨t, hconsumed, hiff⟩ := hall 0 (Nat.zero_le _)
  exact ⟨tr, s, t, hrun, hconsumed, (hiff t 1).mpr ⟨rfl, rfl⟩⟩

/-- A receive into a buffer of no bytes returns 0, and the message that was queued has gone. -/
theorem receive_zero_loses : ∃ tr s t, Run Step (State.init ⟨id, id⟩) tr s ∧
    Receives s 2 (-1) 0 0 t 0 ∧ Queue s 2 [0] ∧ Queue t 2 [] := by
  obtain ⟨tr, s, hrun, -, hp, hqueue, ⟨as, has, hfind⟩, -⟩ := exists_sent_one
  have hi := inv_run hrun
  rcases hi.finds 2 (-1) with ⟨hnone, -⟩ | ⟨a, k, hsome, hscan⟩
  · cases hnone.unique ⟨as, has, hfind⟩
  · obtain rfl : a = 0 := Option.some.inj (hsome.unique ⟨as, has, hfind⟩)
    obtain ⟨m, -, hm, -⟩ := hi.scan_found hscan
    obtain ⟨l, hl, -⟩ := hi.unlink_ring hscan
    have hzero : m.minimum 0 = 0 := by
      unfold Message.minimum
      split <;> omega
    refine ⟨tr, s, s.received 2 0 (-1) 0 0 m l, hrun, ?_, hqueue, ?_⟩
    · refine (receives_some_iff hi.bug (hp 2) hscan hm hl (Nat.zero_le _)).mpr ⟨rfl, ?_⟩
      rw [hzero]
      rfl
    · exact hi.unlink_queue hscan hl (by decide) hqueue

end Cs370.Kernel
