import Cs370.Kernel.Mailbox

/-!
# The representation invariant of the mailbox

`list_add_tail(&bucket, &msg)` links the bucket into the ring of the message, which is alone,
so a bucket's ring never has more than one message: each send leaves the message before it
outside (`BucketOk`). A call that is under way has its record to itself (`CallOk`).

A step touches the records of one process and at most one bucket. `Frame` says what it leaves
alone, and the parts of the invariant that are not about the step's own process and bucket
follow from it once for all steps.
-/

namespace Cs370.Kernel

open Loop

/-! ## The invariant -/

/-- The record a call under way has to itself. -/
def Pc.owns : Pc → Option Nat
  | .sendBuf a _ _ => some a
  | .sendCopy a _ _ => some a
  | .sendNull a _ _ => some a
  | .sendLink a _ _ _ => some a
  | .recvCopy a _ _ => some a
  | .recvFreeBuf a _ _ _ _ _ => some a
  | .recvFreeMsg a _ _ _ _ _ => some a
  | _ => none

def Event.takes : Event → Option Nat
  | .taken i => some i
  | _ => none

def takenStamps (h : List Event) : List Nat := h.filterMap Event.takes

def Event.delivers : Event → Option Nat
  | .received _ _ _ _ _ _ i => some i
  | _ => none

def deliveredStamps (h : List Event) : List Nat := h.filterMap Event.delivers

/-- The record holds what was copied of the payload. -/
structure Filled (m : Message) (payload : List UInt8) (uncopied : Nat) : Prop where
  length_eq : m.length = ((payload.length - uncopied : Nat) : Int)
  take_eq : ∀ k ≤ payload.length - uncopied, m.message.take k = payload.take k
  copied_lt : payload.length - uncopied < kmallocLimit

/-- The message was enqueued by the event its stamp names. -/
def Enqueued (h : List Event) (m : Message) : Prop :=
  ∃ payload u, h[m.stamp]? = some (.enqueued m.sender m.receiver payload u) ∧ Filled m payload u

/-- The message on the ring of bucket `b`. -/
structure Queued (h : List Event) (b : Nat) (m : Message) : Prop where
  nonneg : 0 ≤ m.receiver
  bucket : mailboxHash m.receiver = b
  enqueued : Enqueued h m
  notTaken : m.stamp ∉ takenStamps h

def BucketOk (s : State) (b : Nat) : Prop :=
  Ring s.links (.head b) [] ∨
  ∃ a m, Ring s.links (.head b) [.msg a] ∧ s.heap a = some m ∧ (∀ p, (s.pc p).owns ≠ some a) ∧
    Queued s.history b m

/-- The message process `p` has taken and not yet delivered. -/
structure Taken (h : List Event) (p : Nat) (filter : Int) (m : Message) : Prop where
  receiver : m.receiver = p
  sender : filter < 0 ∨ m.sender = filter
  enqueued : Enqueued h m
  taken : m.stamp ∈ takenStamps h
  notDelivered : m.stamp ∉ deliveredStamps h

/-- What `copy_to_user` has given to the caller of `sys_myreceive`. -/
structure Copied (m : Message) (n : Nat) (bytes : List UInt8) (minimum uncopied : Nat) : Prop where
  minimum_eq : minimum = m.minimum n
  uncopied_le : uncopied ≤ minimum
  bytes_eq : bytes = m.message.take (minimum - uncopied)

/-- What holds of the record of the call of process `p`. -/
def RecordOk (l : Links Node) (h : List Event) (p : Nat) (m : Message) : Pc → Prop
  | .sendBuf _ pid _ => m.sender = p ∧ m.receiver = pid
  | .sendNull _ pid _ => m.sender = p ∧ m.receiver = pid
  | .sendCopy _ pid payload => m.sender = p ∧ m.receiver = pid ∧ payload.length < kmallocLimit
  | .sendLink a pid payload u =>
    m.sender = p ∧ m.receiver = pid ∧ Filled m payload u ∧ Ring l (.msg a) []
  | .recvCopy _ filter _ => Taken h p filter m
  | .recvFreeBuf _ filter n bytes k u => Taken h p filter m ∧ Copied m n bytes k u
  | .recvFreeMsg _ filter n bytes k u => Taken h p filter m ∧ Copied m n bytes k u
  | _ => True

def CallOk (s : State) (p : Nat) : Prop :=
  ∀ a, (s.pc p).owns = some a → ∃ m, s.heap a = some m ∧ RecordOk s.links s.history p m (s.pc p)

structure Inv (s : State) : Prop where
  bug : s.bug = false
  bucket : ∀ b < mailboxNumberBuckets, BucketOk s b
  call : ∀ p, CallOk s p
  own : ∀ p q a, (s.pc p).owns = some a → (s.pc q).owns = some a → p = q
  taken : ∀ i ∈ takenStamps s.history, i < s.history.length
  delivered : deliveredStamps s.history ⊆ takenStamps s.history

theorem filled_fill (m : Message) {payload : List UInt8} {u : Nat} (hu : u ≤ payload.length)
    (hlt : payload.length < kmallocLimit) : Filled (m.fill payload u) payload u where
  length_eq := by
    unfold kmallocLimit at hlt
    show CInt.intW 32 _ = _
    rw [← Nat.cast_sub hu]
    exact CInt.intW_of_lt (by omega)
  take_eq k hk := by
    show (payload.take (payload.length - u) ++ List.replicate u 0).take k = _
    rw [List.take_append_of_le_length (by rw [List.length_take]; omega), List.take_take,
      Nat.min_eq_left hk]
  copied_lt := by omega

/-- Nothing is copied, and the length is 0 whatever `n` is: what `uncopied` is cut by is a
multiple of `2 ^ 32`. -/
theorem filled_fillNull (m : Message) (payload : List UInt8) :
    Filled (m.fillNull payload) payload payload.length where
  length_eq := by
    show CInt.intW 32 _ = _
    have hzero : CInt.uintW 32 ((payload.length : Int) - CInt.u32 payload.length) = 0 := by
      have hcast := CInt.uintW_cast 32 ((payload.length : Int) - CInt.u32 payload.length)
      rw [CInt.u32_natCast] at hcast ⊢
      omega
    rw [CInt.intW, hzero, Nat.sub_self]
    rfl
  take_eq k hk := by
    rw [Nat.sub_self] at hk
    rw [Nat.le_zero.mp hk, List.take_zero, List.take_zero]
  copied_lt := by
    rw [Nat.sub_self]
    decide

theorem inv_init (l : Links Node) : Inv (State.init l) where
  bug := rfl
  bucket _ hb := .inl (initMailbox_ring l hb)
  call _ _ ha := by cases ha
  own _ _ _ ha := by cases ha
  taken _ hi := by cases hi
  delivered := List.nil_subset _

theorem ring_unique {l : Links Node} {b b' a : Nat} (hr : Ring l (.head b) [.msg a])
    (hr' : Ring l (.head b') [.msg a]) : b = b' :=
  Node.head.inj (hr.path.2.1.symm.trans hr'.path.2.1)

theorem Inv.ring_msg {s : State} (hi : Inv s) {b a : Nat} (hb : b < mailboxNumberBuckets)
    (hr : Ring s.links (.head b) [.msg a]) :
    ∃ m, s.heap a = some m ∧ (∀ p, (s.pc p).owns ≠ some a) ∧ Queued s.history b m := by
  rcases hi.bucket b hb with hr' | ⟨a', m, hr', hm, hown, hq⟩
  · exact absurd (hr'.path.1.symm.trans hr.path.1) (by simp)
  · obtain rfl : a' = a := Node.msg.inj (hr'.path.1.symm.trans hr.path.1)
    exact ⟨m, hm, hown, hq⟩

/-! ## What a step leaves alone -/

theorem getElem?_append_some {h es : List Event} {i : Nat} {e : Event} (hi : h[i]? = some e) :
    (h ++ es)[i]? = some e := by
  rw [List.getElem?_append_left (List.getElem?_eq_some_iff.mp hi).1, hi]

theorem Enqueued.append {h : List Event} {m : Message} (hm : Enqueued h m) (es : List Event) :
    Enqueued (h ++ es) m := by
  obtain ⟨payload, u, hp, hf⟩ := hm
  exact ⟨payload, u, getElem?_append_some hp, hf⟩

theorem mem_takenStamps {h : List Event} {i : Nat} : i ∈ takenStamps h ↔ .taken i ∈ h := by
  unfold takenStamps
  rw [List.mem_filterMap]
  constructor
  · rintro ⟨e, he, hi⟩
    cases e <;> simp_all [Event.takes]
  · exact fun he => ⟨_, he, rfl⟩

theorem mem_deliveredStamps {h : List Event} {i : Nat} :
    i ∈ deliveredStamps h ↔ ∃ r f n bytes u ret, .received r f n bytes u ret i ∈ h := by
  unfold deliveredStamps
  rw [List.mem_filterMap]
  refine ⟨fun ⟨e, he, hi⟩ => ?_, fun ⟨r, f, n, bytes, u, ret, he⟩ => ?_⟩
  · cases e <;> simp_all [Event.delivers]
    exact ⟨_, _, _, _, _, _, he⟩
  · exact ⟨_, he, rfl⟩

/-- From `s` to `t` process `p` moved, touching the records in `A` and the buckets in `B` and
adding the events `es` to the history. -/
structure Frame (s t : State) (p : Nat) (A B : Nat → Prop) (es : List Event) : Prop where
  pc : ∀ q, q ≠ p → t.pc q = s.pc q
  owns : ∀ a, (t.pc p).owns = some a → A a
  heap : ∀ a m, ¬ A a → s.heap a = some m → t.heap a = some m
  head : ∀ b, ¬ B b → t.links.next (.head b) = s.links.next (.head b) ∧
    t.links.prev (.head b) = s.links.prev (.head b)
  msg : ∀ a, ¬ A a → t.links.next (.msg a) = s.links.next (.msg a) ∧
    t.links.prev (.msg a) = s.links.prev (.msg a)
  history : t.history = s.history ++ es
  taken : ∀ i, .taken i ∈ es → ∃ sender receiver payload u,
    s.history[i]? = some (.enqueued sender receiver payload u) ∧ B (mailboxHash receiver)
  received : ∀ r f n bytes u ret i, .received r f n bytes u ret i ∈ es →
    i ∈ takenStamps s.history ∧
      ∃ sender payload u, s.history[i]? = some (.enqueued sender p payload u)
  touched : ∀ a, A a → (s.pc p).owns = some a ∨ s.heap a = none ∨
    ∃ b < mailboxNumberBuckets, B b ∧ Ring s.links (.head b) [.msg a]

section
variable {s t : State} {p : Nat} {A B : Nat → Prop} {es : List Event}
  (hf : Frame s t p A B es) (hi : Inv s)
include hf hi

theorem Frame.not_touched_ring {b a : Nat} (hb : b < mailboxNumberBuckets) (hB : ¬ B b)
    (hr : Ring s.links (.head b) [.msg a]) : ¬ A a := by
  obtain ⟨m, hm, hown, -⟩ := hi.ring_msg hb hr
  intro hA
  rcases hf.touched a hA with h | h | ⟨b', -, hB', hr'⟩
  · exact hown p h
  · rw [hm] at h
    cases h
  · exact hB (ring_unique hr hr' ▸ hB')

theorem Frame.not_touched_call {q a : Nat} (hq : q ≠ p) (ha : (s.pc q).owns = some a) : ¬ A a := by
  intro hA
  rcases hf.touched a hA with h | h | ⟨b, hb, -, hr⟩
  · exact hq (hi.own q p a ha h)
  · obtain ⟨m, hm, -⟩ := hi.call q a ha
    rw [hm] at h
    cases h
  · obtain ⟨-, -, hown, -⟩ := hi.ring_msg hb hr
    exact hown q ha

omit hi in
theorem Frame.queued {b : Nat} {m : Message} (hB : ¬ B b) (hq : Queued s.history b m) :
    Queued t.history b m := by
  rw [hf.history]
  refine ⟨hq.nonneg, hq.bucket, hq.enqueued.append es, ?_⟩
  rw [mem_takenStamps, List.mem_append]
  rintro (h | h)
  · exact hq.notTaken (mem_takenStamps.mpr h)
  · obtain ⟨sender, receiver, payload, u, he, hB'⟩ := hf.taken _ h
    obtain ⟨payload', u', he', -⟩ := hq.enqueued
    cases he.symm.trans he'
    exact hB (hq.bucket ▸ hB')

theorem Frame.bucket {b : Nat} (hb : b < mailboxNumberBuckets) (hB : ¬ B b) : BucketOk t b := by
  rcases hi.bucket b hb with hr | ⟨a, m, hr, hm, hown, hq⟩
  · refine .inl (hr.congr fun x hx => ?_)
    rw [List.mem_singleton.mp hx]
    exact hf.head b hB
  · have hA := hf.not_touched_ring hi hb hB hr
    refine .inr ⟨a, m, hr.congr fun x hx => ?_, hf.heap a m hA hm, fun q => ?_, hf.queued hB hq⟩
    · rcases List.mem_cons.mp hx with rfl | hx
      · exact hf.head b hB
      · rw [List.mem_singleton.mp hx]
        exact hf.msg a hA
    · by_cases hqp : q = p
      · rw [hqp]
        exact fun ha => hA (hf.owns a ha)
      · rw [hf.pc q hqp]
        exact hown q

omit hi in
theorem Frame.taken_other {q : Nat} {filter : Int} {m : Message} (hq : q ≠ p)
    (ht : Taken s.history q filter m) : Taken t.history q filter m := by
  rw [hf.history]
  refine ⟨ht.receiver, ht.sender, ht.enqueued.append es, ?_, ?_⟩
  · rw [mem_takenStamps]
    exact List.mem_append_left _ (mem_takenStamps.mp ht.taken)
  · rw [mem_deliveredStamps]
    rintro ⟨r, f, n, bytes, u, ret, h⟩
    rcases List.mem_append.mp h with h | h
    · exact ht.notDelivered (mem_deliveredStamps.mpr ⟨r, f, n, bytes, u, ret, h⟩)
    · obtain ⟨-, sender, payload, u', he⟩ := hf.received _ _ _ _ _ _ _ h
      obtain ⟨payload', u'', he', -⟩ := ht.enqueued
      rw [ht.receiver] at he'
      injection Option.some.inj (he.symm.trans he') with _ h2
      exact hq (by exact_mod_cast h2.symm)

theorem Frame.call {q : Nat} (hq : q ≠ p) : CallOk t q := by
  intro a ha
  rw [hf.pc q hq] at ha ⊢
  have hA := hf.not_touched_call hi hq ha
  obtain ⟨m, hm, hok⟩ := hi.call q a ha
  refine ⟨m, hf.heap a m hA hm, ?_⟩
  cases hpc : s.pc q with
  | sendLink a' pid payload u =>
    rw [hpc] at hok ha
    obtain rfl : a' = a := Option.some.inj ha
    refine ⟨hok.1, hok.2.1, hok.2.2.1, hok.2.2.2.congr fun x hx => ?_⟩
    rw [List.mem_singleton.mp hx]
    exact hf.msg a' hA
  | recvCopy => rw [hpc] at hok; exact hf.taken_other hq hok
  | recvFreeBuf => rw [hpc] at hok; exact ⟨hf.taken_other hq hok.1, hok.2⟩
  | recvFreeMsg => rw [hpc] at hok; exact ⟨hf.taken_other hq hok.1, hok.2⟩
  | _ => rw [hpc] at hok; exact hok

theorem Frame.own (q r a : Nat) (hq : (t.pc q).owns = some a) (hr : (t.pc r).owns = some a) :
    q = r := by
  by_cases hqp : q = p
  · by_cases hrp : r = p
    · rw [hqp, hrp]
    · rw [hqp] at hq
      rw [hf.pc r hrp] at hr
      exact absurd (hf.owns a hq) (hf.not_touched_call hi hrp hr)
  · by_cases hrp : r = p
    · rw [hrp] at hr
      rw [hf.pc q hqp] at hq
      exact absurd (hf.owns a hr) (hf.not_touched_call hi hqp hq)
    · rw [hf.pc q hqp] at hq
      rw [hf.pc r hrp] at hr
      exact hi.own q r a hq hr

theorem Frame.taken_lt (i : Nat) (h : i ∈ takenStamps t.history) : i < t.history.length := by
  rw [mem_takenStamps] at h
  rw [hf.history] at h ⊢
  rw [List.length_append]
  rcases List.mem_append.mp h with h | h
  · exact Nat.lt_add_right _ (hi.taken i (mem_takenStamps.mpr h))
  · obtain ⟨_, _, _, _, he, -⟩ := hf.taken i h
    exact Nat.lt_add_right _ (List.getElem?_eq_some_iff.mp he).1

theorem Frame.delivered : deliveredStamps t.history ⊆ takenStamps t.history := by
  intro i h
  obtain ⟨r, f, n, bytes, u, ret, h⟩ := mem_deliveredStamps.mp h
  rw [hf.history] at h
  rw [mem_takenStamps, hf.history]
  apply List.mem_append_left
  rcases List.mem_append.mp h with h | h
  · exact mem_takenStamps.mp (hi.delivered (mem_deliveredStamps.mpr ⟨r, f, n, bytes, u, ret, h⟩))
  · exact mem_takenStamps.mp (hf.received r f n bytes u ret i h).1

/-- **The frame rule**: what is left to show of a step is its own bucket and its own call. -/
theorem Frame.inv (hbug : t.bug = false)
    (hbucket : ∀ b < mailboxNumberBuckets, B b → BucketOk t b) (hcall : CallOk t p) : Inv t where
  bug := hbug
  bucket b hb := by
    by_cases hB : B b
    · exact hbucket b hb hB
    · exact hf.bucket hi hb hB
  call q := by
    by_cases hq : q = p
    · exact hq ▸ hcall
    · exact hf.call hi hq
  own := hf.own hi
  taken := hf.taken_lt hi
  delivered := hf.delivered hi

end

/-! ## The scan -/

theorem visit_ring {s : State} {a : Nat} {m : Message} (hm : s.heap a = some m) (p filter : Int) :
    ∀ x ∈ [Node.msg a], s.visit p filter x = some (m.accepts p filter) := by
  intro x hx
  rw [List.mem_singleton.mp hx]
  simp [State.visit, hm]

/-- The scan ends, and it finds the message of its bucket if that one is acceptable. -/
theorem Inv.scan_ends {s : State} (hi : Inv s) (p : Nat) (filter : Int) :
    (Ring s.links (.head (mailboxHash p)) [] ∧ ∃ k, s.scan p filter k = some .notFound) ∨
    ∃ a m, Ring s.links (.head (mailboxHash p)) [.msg a] ∧ s.heap a = some m ∧
      (∀ q, (s.pc q).owns ≠ some a) ∧ Queued s.history (mailboxHash p) m ∧
      ∃ k, s.scan p filter k =
        some (if m.accepts p filter then .found (.msg a) else .notFound) := by
  rcases hi.bucket _ (mailboxHash_lt p) with hr | ⟨a, m, hr, hm, hown, hq⟩
  · have hk : ∃ k, s.scan p filter k = some .notFound :=
      eachSafe_ring (p := fun _ => true) hr fun _ hx => absurd hx (List.not_mem_nil)
    exact .inl ⟨hr, hk⟩
  · obtain ⟨k, hk⟩ := eachSafe_ring (p := fun _ => m.accepts p filter) hr (visit_ring hm p filter)
    refine .inr ⟨a, m, hr, hm, hown, hq, k, hk.trans ?_⟩
    cases m.accepts p filter <;> rfl

theorem Inv.scan_eq {s : State} (hi : Inv s) {p k : Nat} {filter : Int} {r : Found Node}
    (h : s.scan p filter k = some r) :
    (Ring s.links (.head (mailboxHash p)) [] ∧ r = .notFound) ∨
    ∃ a m, Ring s.links (.head (mailboxHash p)) [.msg a] ∧ s.heap a = some m ∧
      (∀ q, (s.pc q).owns ≠ some a) ∧ Queued s.history (mailboxHash p) m ∧
      r = if m.accepts p filter then .found (.msg a) else .notFound := by
  rcases hi.scan_ends p filter with ⟨hr, k', hk⟩ | ⟨a, m, hr, hm, hown, hq, k', hk⟩
  · exact .inl ⟨hr, run_unique h hk⟩
  · exact .inr ⟨a, m, hr, hm, hown, hq, run_unique h hk⟩

theorem Inv.scan_found {s : State} (hi : Inv s) {p k a : Nat} {filter : Int}
    (h : s.scan p filter k = some (.found (.msg a))) :
    ∃ m, Ring s.links (.head (mailboxHash p)) [.msg a] ∧ s.heap a = some m ∧
      (∀ q, (s.pc q).owns ≠ some a) ∧ Queued s.history (mailboxHash p) m ∧
      m.accepts p filter = true := by
  rcases hi.scan_eq h with ⟨-, hr⟩ | ⟨a', m, hr, hm, hown, hq, he⟩
  · cases hr
  · cases hacc : m.accepts p filter with
    | false => rw [hacc] at he; cases he
    | true =>
      rw [hacc] at he
      cases he
      exact ⟨m, hr, hm, hown, hq, hacc⟩

end Cs370.Kernel
