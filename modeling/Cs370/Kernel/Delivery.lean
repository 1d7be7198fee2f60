import Mathlib.Data.Set.Function
import Cs370.Kernel.Fifo

/-!
# What is delivered

A delivery names the send it comes from by the stamp of the message. `Authentic` says what it
has to do with that send, in terms of the two calls' arguments and of what their copies left
uncopied; that a stamp is delivered once only makes the map from deliveries to sends an
injection. Messages that a later send has overwritten are not delivered at all, so this holds in
every run.
-/

namespace Cs370.Kernel

open Cs370.Trans

/-! ## The bytes of a message -/

/-- The `int` length is compared as a `size_t`, and is not negative. -/
theorem Filled.minimum_eq {m : Message} {payload : List UInt8} {u : Nat} (h : Filled m payload u)
    (n : Nat) : m.minimum n = min n (payload.length - u) := by
  have hlt := h.copied_lt
  unfold kmallocLimit at hlt
  have hs : CInt.sizeT m.length = payload.length - u := by
    rw [h.length_eq]
    exact CInt.uintW_of_lt (by omega)
  unfold Message.minimum
  rw [hs]
  split <;> omega

/-! ## Deliveries -/

/-- What an event at place `i` says of the events before it: a delivery is the first bytes of the
payload of an earlier send to the receiver, from a process its filter lets through. -/
def Authentic (h : List Event) (i : Nat) : Event → Prop
  | .received r f n bytes u ret stamp => stamp < i ∧
      ∃ sender payload u', h[stamp]? = some (.enqueued sender r payload u') ∧
        (0 ≤ f → sender = f) ∧ ret = ((min n (payload.length - u') - u : Nat) : Int) ∧
        bytes = payload.take (min n (payload.length - u') - u)
  | _ => True

/-- Every delivery is authentic, and no message is delivered twice. -/
structure Delivered (h : List Event) : Prop where
  authentic : ∀ i e, h[i]? = some e → Authentic h i e
  nodup : (deliveredStamps h).Nodup

theorem Authentic.append {h : List Event} {i : Nat} {e : Event} (ha : Authentic h i e)
    (es : List Event) : Authentic (h ++ es) i e := by
  cases e with
  | received r f n bytes u ret stamp =>
    obtain ⟨hlt, sender, payload, u', he, hrest⟩ := ha
    exact ⟨hlt, sender, payload, u', getElem?_append_some he, hrest⟩
  | _ => trivial

theorem deliveredStamps_append (h es : List Event) :
    deliveredStamps (h ++ es) = deliveredStamps h ++ deliveredStamps es := List.filterMap_append

theorem Delivered.snoc {h : List Event} (hd : Delivered h) {e : Event} (ha : Authentic h h.length e)
    (hn : (deliveredStamps h ++ deliveredStamps [e]).Nodup) : Delivered (h ++ [e]) where
  authentic i e' he := by
    by_cases hlt : i < h.length
    · rw [List.getElem?_append_left hlt] at he
      exact (hd.authentic i e' he).append [e]
    · have hi : i = h.length := by
        have := (List.getElem?_eq_some_iff.mp he).1
        rw [List.length_append, List.length_singleton] at this
        omega
      subst hi
      rw [List.getElem?_concat_length] at he
      cases he
      exact ha.append [e]
  nodup := deliveredStamps_append h [e] ▸ hn

theorem Delivered.snoc_other {h : List Event} (hd : Delivered h) {e : Event}
    (ha : ∀ i, Authentic h i e) (he : deliveredStamps [e] = []) : Delivered (h ++ [e]) :=
  hd.snoc (ha _) (by rw [he, List.append_nil]; exact hd.nodup)

theorem authentic_received {h : List Event} {p n k u : Nat} {f : Int} {bytes : List UInt8}
    {m : Message} (ht : Taken h p f m) (hc : Copied m n bytes k u) :
    Authentic h h.length (.received p f n bytes u ((k : Int) - u) m.stamp) := by
  obtain ⟨payload, u', he, hfill⟩ := ht.enqueued
  have hmin := hc.minimum_eq.trans (hfill.minimum_eq n)
  have hle := hc.uncopied_le
  refine ⟨(List.getElem?_eq_some_iff.mp he).1, m.sender, payload, u', ?_, fun hf => ?_, ?_, ?_⟩
  · rw [he, ht.receiver]
  · exact ht.sender.resolve_left (Int.not_lt.mpr hf)
  · rw [← hmin]
    omega
  · rw [hc.bytes_eq, hmin]
    exact hfill.take_eq _ (by omega)

theorem Delivered.step {s t : State} {x : Nat × Act} (hi : Inv s) (hd : Delivered s.history)
    (hs : Step s x t) : Delivered t.history := by
  cases hs with
  | link => exact hd.snoc_other (fun _ => trivial) rfl
  | scanFound => exact hd.snoc_other (fun _ => trivial) rfl
  | kfreeMsg hpc hm =>
    obtain ⟨ht, hc⟩ := hi.recordOk hpc rfl hm
    refine hd.snoc (authentic_received ht hc) ?_
    exact List.nodup_append.mpr ⟨hd.nodup, List.nodup_singleton _, fun i hi' j hj he =>
      ht.notDelivered (by rwa [he, List.mem_singleton.mp hj] at hi')⟩
  | _ => exact hd

theorem delivered_run {l : Links Node} {tr : List (State × (Nat × Act))} {t : State}
    (h : Run Step (State.init l) tr t) : Delivered t.history := by
  have hinv : Inv t ∧ Delivered t.history :=
    h.invariant (I := fun s => Inv s ∧ Delivered s.history)
      (fun _ _ _ hi hs => ⟨hi.1.step hs, hi.2.step hi.1 hs⟩)
      ⟨inv_init l, ⟨fun i e he => (by cases he), List.nodup_nil⟩⟩
  exact hinv.2

theorem index_unique {α β : Type} {f : α → Option β} {l : List α} (hn : (l.filterMap f).Nodup)
    {i j : Nat} {a b : α} {y : β} (hi : l[i]? = some a) (hj : l[j]? = some b) (ha : f a = some y)
    (hb : f b = some y) : i = j := by
  induction l generalizing i j with
  | nil => cases hi
  | cons c l ih =>
    have htail : (l.filterMap f).Nodup :=
      hn.sublist ((List.sublist_cons_self c l).filterMap f)
    -- the first place is no later one: its value would come twice
    have hfirst : ∀ (k : Nat) (d : α), f c = some y → l[k]? = some d → f d ≠ some y := by
      intro k d hc hk hd
      rw [List.filterMap_cons_some hc] at hn
      exact (List.nodup_cons.mp hn).1
        (List.mem_filterMap.mpr ⟨d, List.mem_of_getElem? hk, hd⟩)
    cases i with
    | zero =>
      cases hi
      cases j with
      | zero => rfl
      | succ j => exact absurd hb (hfirst j b ha hj)
    | succ i =>
      cases j with
      | zero =>
        cases hj
        exact absurd ha (hfirst i a hb hi)
      | succ j => exact congrArg Nat.succ (ih htail hi hj)

/-- The places of the receives that returned a message. -/
def receives (h : List Event) : Set Nat := {i | ∃ e, h[i]? = some e ∧ e.delivers.isSome}

/-- **Deliveries are authentic and happen once**: in every run from `init_mailbox` on there is an
injection from the receives that returned a message to earlier sends. The send was made to the
receiving process, by the process its filter asks for if it asks for one; the receive returned,
and delivered, the first bytes of what the send had copied, as many as its buffer has room for,
less what its own copy left. -/
theorem receive_authentic {l : Links Node} {tr : List (State × (Nat × Act))} {t : State}
    (h : Run Step (State.init l) tr t) : ∃ φ : Nat → Nat,
    Set.InjOn φ (receives t.history) ∧
    ∀ i r f n bytes u ret stamp, t.history[i]? = some (.received r f n bytes u ret stamp) →
      φ i < i ∧ ∃ sender payload u', t.history[φ i]? = some (.enqueued sender r payload u') ∧
        (0 ≤ f → sender = f) ∧ ret = ((min n (payload.length - u') - u : Nat) : Int) ∧
        bytes = payload.take (min n (payload.length - u') - u) := by
  obtain ⟨hauth, hnodup⟩ := delivered_run h
  refine ⟨fun i => ((t.history[i]?).bind Event.delivers).getD 0, ?_, ?_⟩
  · rintro i ⟨e, hi, he⟩ j ⟨e', hj, he'⟩ hφ
    obtain ⟨y, hy⟩ := Option.isSome_iff_exists.mp he
    obtain ⟨y', hy'⟩ := Option.isSome_iff_exists.mp he'
    simp only [hi, hj, Option.bind_some, hy, hy', Option.getD_some] at hφ
    subst hφ
    exact index_unique (f := Event.delivers) hnodup hi hj hy hy'
  · intro i r f n bytes u ret stamp hi
    simp only [hi, Option.bind_some, Event.delivers, Option.getD_some]
    exact hauth i _ hi

theorem receive_authentic_one : ∃ tr t, Run Step (State.init ⟨id, id⟩) tr t ∧
    t.history = [.enqueued 1 2 [97, 98] 0, .taken 0, .received 2 1 1 [97] 0 1 0] := by
  obtain ⟨tr, t, hrun, -, hpc, -, hhist, hslot, -⟩ :=
    send_run (inv_init ⟨id, id⟩) (p := 1) (a := 0) 2 rfl rfl (show [97, 98].length < _ by decide)
  have htakes : Takes t 2 1 (some ⟨0, 1, 2⟩) := (inv_run hrun).takes_of_slot hslot rfl
  obtain ⟨tr', t', bytes, ret, hrun', -, -, -, hhist', -, -⟩ :=
    receive_run (inv_run hrun) 1 (hpc 2 (by decide)) htakes
  rw [hhist] at hhist'
  have hall := hrun.append hrun'
  obtain ⟨φ, -, hφ⟩ := receive_authentic hall
  obtain ⟨hlt, sender, payload, u', he, -, hret, hbytes⟩ :=
    hφ 2 2 1 1 bytes 0 ret 0 (by rw [hhist']; rfl)
  refine ⟨_, t', hall, ?_⟩
  rw [hhist'] at he ⊢
  -- the event before the delivery is not a send, the one before that is
  obtain hφ2 | hφ2 : φ 2 = 0 ∨ φ 2 = 1 := by omega
  · rw [hφ2] at he
    cases he
    rw [hret, hbytes]
    rfl
  · rw [hφ2] at he
    cases he

end Cs370.Kernel
