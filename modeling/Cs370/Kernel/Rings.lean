import Cs370.Kernel.Fifo

/-!
# The rings of the mailbox

What the buckets look like in memory, in every state of every run: rings of messages that have
not been freed, each of its own bucket. The checks of `list_debug.c` never fire and the scan of
`sys_myreceive` ends.
-/

namespace Cs370.Kernel

open Cs370.Trans

/-- The buckets are rings of live messages, and the list operations of the calls under way go
through. -/
structure WellLinked (s : State) : Prop where
  ring : ∀ b < mailboxNumberBuckets, ∃ as : List Nat, Ring s.links (.head b) (as.map .msg) ∧
    ∀ a ∈ as, ∃ m, s.heap a = some m ∧ ∃ pid : Nat, m.receiver = pid ∧ pid % 128 = b
  disjoint : ∀ b < mailboxNumberBuckets, ∀ c < mailboxNumberBuckets, ∀ as cs : List Nat,
    Ring s.links (.head b) (as.map .msg) → Ring s.links (.head c) (cs.map .msg) →
    ∀ a ∈ as, a ∈ cs → b = c
  add : ∀ p a pid payload u, s.pc p = .sendLink a pid payload u →
    ∃ l, listAddTail s.links (.head (mailboxHash pid)) (.msg a) = some l
  del : ∀ (p : Nat) filter k a, s.scan p filter k = some (.found (.msg a)) →
    ∃ l, listDel .poison1 .poison2 s.links (.msg a) = some l
  scan : ∀ (p : Nat) filter, ∃ k r, s.scan p filter k = some r ∧ r ≠ .fault
  bug : s.bug = false

theorem BucketOk.ring {s : State} {b : Nat} (h : BucketOk s b) :
    ∃ as : List Nat, Ring s.links (.head b) (as.map .msg) ∧ (as = [] ∨ ∃ a m, as = [a] ∧
      s.heap a = some m ∧ Queued s.history b m) := by
  rcases h with hr | ⟨a, m, hr, hm, -, hq⟩
  · exact ⟨[], hr, .inl rfl⟩
  · exact ⟨[a], hr, .inr ⟨a, m, rfl, hm, hq⟩⟩

theorem Queued.pid {h : List Event} {b : Nat} {m : Message} (hq : Queued h b m) :
    ∃ pid : Nat, m.receiver = pid ∧ pid % 128 = b := by
  obtain ⟨pid, hpid⟩ := Int.eq_ofNat_of_zero_le hq.nonneg
  refine ⟨pid, hpid, ?_⟩
  rw [← mailboxHash_natCast, ← hq.bucket, hpid]

theorem msg_map_injective : Function.Injective (List.map Node.msg) :=
  List.map_injective_iff.mpr fun _ _ h => Node.msg.inj h

theorem Inv.mem_ring {s : State} (hi : Inv s) {b a : Nat} {as : List Nat}
    (hb : b < mailboxNumberBuckets) (hr : Ring s.links (.head b) (as.map .msg)) (ha : a ∈ as) :
    ∃ m, s.heap a = some m ∧ Queued s.history b m := by
  obtain ⟨as', hr', has⟩ := (hi.bucket b hb).ring
  obtain rfl := msg_map_injective (hr.unique hr')
  rcases has with rfl | ⟨a', m, rfl, hm, hq⟩
  · cases ha
  · rw [List.mem_singleton.mp ha]
    exact ⟨m, hm, hq⟩

/-- **The representation of the mailbox**: in every state of every run each bucket is a ring of
messages of its own that have not been freed, no message is on two rings, no check of the list
operations fires and the scan of `sys_myreceive` ends. -/
theorem wellLinked_run {l : Links Node} {tr : List (State × (Nat × Act))} {t : State}
    (h : Run Step (State.init l) tr t) : WellLinked t := by
  have hi := inv_run h
  refine ⟨fun b hb => ?_, fun b hb c hc as cs hr hr' a ha ha' => ?_,
    fun p a pid payload u hpc => ?_, fun p filter k a hscan => ?_, fun p filter => ?_, hi.bug⟩
  · obtain ⟨as, hr, -⟩ := (hi.bucket b hb).ring
    refine ⟨as, hr, fun a ha => ?_⟩
    obtain ⟨m, hm, hq⟩ := hi.mem_ring hb hr ha
    exact ⟨m, hm, hq.pid⟩
  · obtain ⟨m, hm, hq⟩ := hi.mem_ring hb hr ha
    obtain ⟨m', hm', hq'⟩ := hi.mem_ring hc hr' ha'
    obtain rfl : m = m' := Option.some.inj (hm.symm.trans hm')
    exact hq.bucket.symm.trans hq'.bucket
  · obtain ⟨l', hl', -⟩ := hi.link_ring hpc
    exact ⟨l', hl'⟩
  · obtain ⟨l', hl', -⟩ := hi.unlink_ring hscan
    exact ⟨l', hl'⟩
  · rcases hi.scan_ends p filter with ⟨-, k, hk⟩ | ⟨a, m, -, -, -, -, k, hk⟩
    · exact ⟨k, _, hk, by simp⟩
    · refine ⟨k, _, hk, ?_⟩
      cases m.accepts p filter <;> simp

theorem wellLinked_run_sends : ∃ tr t, Run Step (State.init ⟨id, id⟩) tr t ∧
    (∃ bytes ret, t.history = [.enqueued 1 2 [97] 0, .taken 0, .received 2 (-1) 1 bytes 0 ret 0,
      .enqueued 1 2 [98] 0]) ∧ WellLinked t := by
  obtain ⟨tr, t, bytes, ret, hrun, hhist, -⟩ := send_receive_run
  exact ⟨tr, t, hrun, ⟨bytes, ret, hhist⟩, wellLinked_run hrun⟩

end Cs370.Kernel
