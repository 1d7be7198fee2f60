import Cs370.Kernel.MailboxSteps
import Cs370.Kernel.SemaphoreWake

/-!
# The critical sections of the mailbox

`Kernel/Mailbox.lean` has `list_add_tail` and the scan of `sys_myreceive` as one step each. Here
they are run statement by statement, between `down` and `up` of the semaphore of
`lib/semaphore-sleepers.c`, while the other processes go on with their statements outside. What
a run shows is a run of the mailbox with atomic sections (`sections_refine`): a section is as if
it ran where its list operation returns.

While a process is in its section, the links of the two levels differ by the assignments it has
made (`Section.At`). They are to its bucket and to a record that no other process has, so that
they commute with what the others do.
-/

namespace Cs370.Kernel

open Cs370.Trans

/-! ## Assignments to links -/

section Writes

variable {ν : Type} [DecidableEq ν]

inductive Write (ν : Type) where
  | next (x y : ν)
  | prev (x y : ν)

def Write.apply (l : Links ν) : Write ν → Links ν
  | .next x y => l.setNext x y
  | .prev x y => l.setPrev x y

def Write.node : Write ν → ν
  | .next x _ => x
  | .prev x _ => x

def writes (ws : List (Write ν)) (l : Links ν) : Links ν := ws.foldl Write.apply l

/-- The assignments of `__list_add`. -/
def listAddWrites (new prev next : ν) : List (Write ν) :=
  [.prev next new, .next new next, .prev new prev, .next prev new]

/-- The assignments of `list_del`, with those of `__list_del`. -/
def listDelWrites (poison1 poison2 entry prev next : ν) : List (Write ν) :=
  [.prev next prev, .next prev next, .next entry poison1, .prev entry poison2]

theorem writes_concat (ws : List (Write ν)) (w : Write ν) (l : Links ν) :
    writes (ws ++ [w]) l = w.apply (writes ws l) :=
  List.foldl_concat ..

theorem listAddTail_writes {l : Links ν} {new head : ν} (h : Ring l head []) :
    listAddTail l new head = some (writes (listAddWrites new head head) l) := by
  obtain ⟨⟨hnext, hprev⟩, -⟩ := h
  unfold listAddTail listAddBetween
  rw [hprev, if_neg (by simp), if_neg (by simp [hnext])]
  rfl

theorem listDel_writes {l : Links ν} {h x p1 p2 : ν} (hr : Ring l h [x]) :
    listDel p1 p2 l x = some (writes (listDelWrites p1 p2 x h h) l) := by
  obtain ⟨⟨h1, h2, h3, h4⟩, -⟩ := hr
  unfold listDel
  rw [if_neg (by simp [h2, h1]), if_neg (by simp [h3, h4]), h2, h3]
  rfl

theorem Write.apply_initListHead {x : ν} {w : Write ν} (h : w.node ≠ x) (l : Links ν) :
    initListHead (w.apply l) x = w.apply (initListHead l x) := by
  cases w with
  | next y z =>
    simp only [initListHead, Write.apply, Links.setNext, Links.setPrev]
    rw [Function.update_comm (show y ≠ x from h)]
  | prev y z =>
    simp only [initListHead, Write.apply, Links.setNext, Links.setPrev]
    rw [Function.update_comm (show y ≠ x from h)]

theorem initListHead_writes {x : ν} {ws : List (Write ν)} (h : ∀ w ∈ ws, w.node ≠ x)
    (l : Links ν) : initListHead (writes ws l) x = writes ws (initListHead l x) := by
  induction ws generalizing l with
  | nil => rfl
  | cons w ws ih =>
    rw [List.forall_mem_cons] at h
    exact (ih h.2 _).trans (congrArg (writes ws) (Write.apply_initListHead h.1 l))

end Writes

/-! ## Sections -/

/-- Where a process is between `down` and `up`, with the local variables of the statements there.
A process that has run into `BUG()`, or into memory that is not a message, has stopped with the
lock. -/
inductive Section where
  -- `list_add_tail` and `__list_add`, up to its assignments
  | addTail (new head : Node)
  | addNext (new prev next : Node)
  | addPrev (new prev next : Node)
  | adding (ws : List (Write Node))
  -- `list_for_each_entry_safe`
  | eachFirst (head : Node) (filter : Int)
  | eachAhead (head : Node) (filter : Int) (pos : Node)
  | eachTest (head : Node) (filter : Int) (cursor : Node × Node)
  -- `list_del`
  | delPrev (a : Nat)
  | delNext (a : Nat)
  | delLinks (a : Nat)
  | deleting (a : Nat) (ws : List (Write Node))
  | leave
  | stopped

/-- A bound on the statements that are left of a section, with its `up`. -/
def Section.rank : Section → Nat
  | .addTail _ _ => 10
  | .addNext _ _ _ => 9
  | .addPrev _ _ _ => 8
  | .adding ws => ws.length + 3
  | .eachFirst _ _ => 13
  | .eachAhead _ _ _ => 12
  | .eachTest head _ cursor => if cursor.1 = head then 3 else 11
  | .delPrev _ => 10
  | .delNext _ => 9
  | .delLinks _ => 8
  | .deleting _ ws => ws.length + 3
  | .leave => 2
  | .stopped => 0

/-- A bound on the statements that are left of a call, without those of the section it is in or
is about to enter. -/
def Pc.rest : Pc → Nat
  | .idle => 0
  | .sendMsg _ _ => 14
  | .sendBuf _ _ _ => 13
  | .sendCopy _ _ _ => 12
  | .sendNull _ _ _ => 12
  | .sendLink _ _ _ _ => 1
  | .sendRet _ => 1
  | .recvScan _ _ => 3
  | .recvCopy _ _ _ => 3
  | .recvFreeBuf _ _ _ _ _ _ => 2
  | .recvFreeMsg _ _ _ _ _ _ => 1
  | .dead => 0

/-- The section a process enters when it has got the lock. -/
def Pc.section (p : Nat) : Pc → Option Section
  | .sendLink a pid _ _ => some (.addTail (.head (mailboxHash pid)) (.msg a))
  | .recvScan filter _ => some (.eachFirst (.head (mailboxHash p)) filter)
  | _ => none

/-- `list_add_tail` has returned. -/
def State.linked (s : State) (p : Nat) : State :=
  match s.pc p with
  | .sendLink a pid payload u =>
    { s with
      heap := Function.update s.heap a
        ((s.heap a).map fun m : Message => { m with stamp := s.history.length })
      history := s.history ++ [Event.enqueued p pid payload u] }.setPc p (.sendRet a)
  | _ => s

/-- `list_del` has returned, and the loop is left. -/
def State.unlinked (s : State) (p a : Nat) : State :=
  match s.pc p with
  | .recvScan filter n =>
    { s with
      history := s.history ++
        ((s.heap a).map fun m : Message => Event.taken m.stamp).toList }.setPc p
      (.recvCopy a filter n)
  | _ => s

/-- The next statement of a section: the state after it, where the process is then, and the
operation that it completes. -/
def State.statement (s : State) (p : Nat) : Section → Option (State × Section × Option Act)
  | .addTail new head => some (s, .addNext new (s.links.prev head) head, none)
  | .addNext new prev next =>
    if s.links.prev next ≠ prev then some (s, .stopped, none)
    else some (s, .addPrev new prev next, none)
  | .addPrev new prev next =>
    if s.links.next prev ≠ next then some (s, .stopped, none)
    else some (s, .adding (listAddWrites new prev next), none)
  | .adding (w :: ws) => some ({ s with links := w.apply s.links }, .adding ws, none)
  | .adding [] => some (s.linked p, .leave, some .link)
  | .eachFirst head filter => some (s, .eachAhead head filter (s.links.next head), none)
  | .eachAhead head filter pos => some (s, .eachTest head filter (pos, s.links.next pos), none)
  | .eachTest head filter cursor =>
    match eachSafeStep s.links head (s.visit p filter) cursor with
    | .next cursor' => some (s, .eachTest head filter cursor', none)
    | .stop (.found (.msg a)) => some (s, .delPrev a, none)
    | .stop .notFound => some (s.setPc p .idle, .leave, some .scan)
    | .stop _ => some (s, .stopped, none)
  | .delPrev a =>
    if s.links.next (s.links.prev (.msg a)) ≠ .msg a then some (s, .stopped, none)
    else some (s, .delNext a, none)
  | .delNext a =>
    if s.links.prev (s.links.next (.msg a)) ≠ .msg a then some (s, .stopped, none)
    else some (s, .delLinks a, none)
  | .delLinks a =>
    some (s, .deleting a (listDelWrites .poison1 .poison2 (.msg a) (s.links.prev (.msg a))
      (s.links.next (.msg a))), none)
  | .deleting a (w :: ws) => some ({ s with links := w.apply s.links }, .deleting a ws, none)
  | .deleting a [] => some (s.unlinked p a, .leave, some .scan)
  | .leave => none
  | .stopped => none

/-- The mailbox, the section each process is in, and the semaphore `mailbox.lock`; the processes
are those with a pid below `n`. -/
structure Impl (n : Nat) where
  mail : State
  sec : Fin n → Option Section
  lock : Semaphore.State (Fin n)

def Impl.init {n : Nat} (l : Links Node) : Impl n where
  mail := State.init l
  sec _ := none
  lock := { sem := Semaphore.initMutex, task := fun _ => .idle }

inductive ImplAct (n : Nat) where
  | mail (i : Fin n) (a : Act)
  | sec (i : Fin n) (completes : Option Act)
  | sem (i : Fin n) (a : Semaphore.Act)

/-- A statement outside the sections. -/
def Act.outside : Act → Bool
  | .link => false
  | .scan => false
  | _ => true

/-- The process is at its `down(&mailbox.lock)`. -/
structure Impl.AtDown {n : Nat} (c : Impl n) (i : Fin n) : Prop where
  sec : c.sec i = none
  pc : (c.mail.pc i).section i ≠ none

/-- A statement of a process; one of its own it runs when it is not in a function of the
semaphore. -/
inductive ImplStep {n : Nat} (w : Int → Int) : Impl n → ImplAct n → Impl n → Prop where
  | mail {c : Impl n} {i : Fin n} {a : Act} {s : State} : c.sec i = none →
      (c.lock.task i).pc = .idle → a.outside = true → Step c.mail (i, a) s →
      ImplStep w c (.mail i a) { c with mail := s }
  | sec {c : Impl n} {i : Fin n} {x y : Section} {s : State} {e : Option Act} :
      c.sec i = some x → (c.lock.task i).pc = .idle → c.mail.statement i x = some (s, y, e) →
      ImplStep w c (.sec i e) { c with mail := s, sec := Function.update c.sec i (some y) }
  | take {c : Impl n} {i : Fin n} {l : Semaphore.State (Fin n)} : c.AtDown i →
      Semaphore.Step w c.lock (i, .take) l →
      ImplStep w c (.sem i .take)
        { c with sec := Function.update c.sec i ((c.mail.pc i).section i), lock := l }
  | contend {c : Impl n} {i : Fin n} {l : Semaphore.State (Fin n)} : c.AtDown i →
      Semaphore.Step w c.lock (i, .contend) l → (l.task i).pc = .setState .down →
      ImplStep w c (.sem i .contend) { c with lock := l }
  | grant {c : Impl n} {i : Fin n} {l : Semaphore.State (Fin n)} :
      Semaphore.Step w c.lock (i, .grant) l →
      ImplStep w c (.sem i .grant)
        { c with sec := Function.update c.sec i ((c.mail.pc i).section i), lock := l }
  | give {c : Impl n} {i : Fin n} {l : Semaphore.State (Fin n)} : c.sec i = some .leave →
      Semaphore.Step w c.lock (i, .give) l →
      ImplStep w c (.sem i .give) { c with sec := Function.update c.sec i none, lock := l }
  | run {c : Impl n} {i : Fin n} {l : Semaphore.State (Fin n)} :
      Semaphore.Step w c.lock (i, .run) l → ImplStep w c (.sem i .run) { c with lock := l }
  | signal {c : Impl n} {i : Fin n} {l : Semaphore.State (Fin n)} :
      Semaphore.Step w c.lock (i, .signal) l → ImplStep w c (.sem i .signal) { c with lock := l }

/-- What a step shows: a statement outside, and the completed operation of a section. -/
def ImplAct.event {n : Nat} : ImplAct n → Option (Nat × Act)
  | .mail i a => some (i, a)
  | .sec i e => e.map (i.val, ·)
  | .sem _ _ => none

/-! ## What a process in its section knows -/

/-- Process `p` is to link the record `head` and the bucket `new`. -/
def Sending (A : State) (p : Nat) (new head : Node) : Prop :=
  ∃ a pid payload u, A.pc p = .sendLink a pid payload u ∧ new = .head (mailboxHash pid) ∧
    head = .msg a

def Receiving (A : State) (p : Nat) (head : Node) (filter : Int) : Prop :=
  head = .head (mailboxHash p) ∧ ∃ n, A.pc p = .recvScan filter n

/-- The message `a` is the one of the bucket and is acceptable. -/
structure Taking (A : State) (p : Nat) (filter : Int) (a : Nat) : Prop where
  pc : ∃ n, A.pc p = .recvScan filter n
  ring : Ring A.links (.head (mailboxHash p)) [.msg a]
  accepts : ∃ m, A.heap a = some m ∧ m.accepts p filter = true

/-- Where the loop is: at its end, with nothing acceptable in the bucket, or at its message. -/
def Scans (A : State) (p : Nat) (filter : Int) (cursor : Node × Node) : Prop :=
  (cursor.1 = .head (mailboxHash p) ∧
    (Ring A.links (.head (mailboxHash p)) [] ∨ ∃ a m,
      Ring A.links (.head (mailboxHash p)) [.msg a] ∧ A.heap a = some m ∧
        m.accepts p filter = false)) ∨
  ∃ a, cursor = (.msg a, .head (mailboxHash p)) ∧ Ring A.links (.head (mailboxHash p)) [.msg a]

/-- Process `p` is at a place of its section: `A` is the mailbox without what the section has done
so far, and `l` the links with it. -/
def Section.At (A : State) (p : Nat) (l : Links Node) : Section → Prop
  | .addTail new head => Sending A p new head ∧ l = A.links
  | .addNext new prev next => Sending A p new next ∧ prev = next ∧ l = A.links
  | .addPrev new prev next => Sending A p new next ∧ prev = next ∧ l = A.links
  | .adding ws => ∃ new head past, Sending A p new head ∧
      past ++ ws = listAddWrites new head head ∧ l = writes past A.links
  | .eachFirst head filter => Receiving A p head filter ∧ l = A.links
  | .eachAhead head filter pos =>
    Receiving A p head filter ∧ pos = A.links.next head ∧ l = A.links
  | .eachTest head filter cursor =>
    Receiving A p head filter ∧ Scans A p filter cursor ∧ l = A.links
  | .delPrev a => (∃ filter, Taking A p filter a) ∧ l = A.links
  | .delNext a => (∃ filter, Taking A p filter a) ∧ l = A.links
  | .delLinks a => (∃ filter, Taking A p filter a) ∧ l = A.links
  | .deleting a ws => ∃ filter past, Taking A p filter a ∧
      past ++ ws = listDelWrites .poison1 .poison2 (.msg a) (.head (mailboxHash p))
        (.head (mailboxHash p)) ∧ l = writes past A.links
  | .leave => (A.pc p).section p = none ∧ l = A.links
  | .stopped => False

/-! ## Its own statements -/

section Own

variable {A : State} {p : Nat} {l : Links Node}

theorem Sending.ring {new head : Node} (hs : Sending A p new head) (hi : Inv A) :
    Ring A.links head [] := by
  obtain ⟨a, pid, payload, u, hpc, -, rfl⟩ := hs
  obtain ⟨m, -, -, -, -, hr⟩ := hi.record hpc rfl
  exact hr

theorem Sending.step {new head : Node} (hs : Sending A p new head) (hi : Inv A) :
    Step A (p, .link)
      (({ A with links := writes (listAddWrites new head head) A.links } : State).linked p) := by
  have hring := hs.ring hi
  obtain ⟨a, pid, payload, u, hpc, rfl, rfl⟩ := hs
  obtain ⟨m, hm, -⟩ := hi.record hpc rfl
  have hlink := Step.link hpc hi.bug hm (listAddTail_writes hring)
  simpa [State.linked, hpc, hm] using hlink

theorem Taking.scan {filter : Int} {a : Nat} (hf : Taking A p filter a) (hi : Inv A) :
    ∃ k, A.scan p filter k = some (.found (.msg a)) := by
  obtain ⟨m, hm, hacc⟩ := hf.accepts
  rcases hi.scan_ends p filter with ⟨hr, -⟩ | ⟨a', m', hr, hm', -, -, k, hk⟩
  · cases hr.unique hf.ring
  · cases hr.unique hf.ring
    obtain rfl := Option.some.inj (hm.symm.trans hm')
    rw [hacc] at hk
    exact ⟨k, hk⟩

theorem Taking.step {filter : Int} {a : Nat} (hf : Taking A p filter a) (hi : Inv A) :
    Step A (p, .scan)
      (({ A with links := writes (listDelWrites .poison1 .poison2 (.msg a)
        (.head (mailboxHash p)) (.head (mailboxHash p))) A.links } : State).unlinked p a) := by
  obtain ⟨k, hk⟩ := hf.scan hi
  obtain ⟨n, hpc⟩ := hf.pc
  obtain ⟨m, hm, -⟩ := hf.accepts
  have hscan := Step.scanFound hpc hi.bug hk hm (listDel_writes hf.ring)
  simpa [State.unlinked, hpc, hm] using hscan

theorem Scans.step {filter : Int} {cursor : Node × Node} {n : Nat} (hs : Scans A p filter cursor)
    (hi : Inv A) (hpc : A.pc p = .recvScan filter n) (hend : cursor.1 = .head (mailboxHash p)) :
    Step A (p, .scan) (A.setPc p .idle) := by
  obtain ⟨k, hk⟩ : ∃ k, A.scan p filter k = some .notFound := by
    rcases hi.scan_ends p filter with ⟨-, hk⟩ | ⟨a, m, hr, hm, -, -, k, hk⟩
    · exact hk
    · rcases hs with ⟨-, hr' | ⟨a', m', hr', hm', hacc⟩⟩ | ⟨a', rfl, -⟩
      · cases hr.unique hr'
      · cases hr.unique hr'
        obtain rfl := Option.some.inj (hm.symm.trans hm')
        rw [hacc] at hk
        exact ⟨k, hk⟩
      · cases hend
  exact .scanNotFound hpc hi.bug hk

theorem scans_first (hi : Inv A) (filter : Int) :
    Scans A p filter (A.links.next (.head (mailboxHash p)),
      A.links.next (A.links.next (.head (mailboxHash p)))) := by
  rcases hi.bucket _ (mailboxHash_lt p) with hr | ⟨a, m, hr, -⟩
  · exact .inl ⟨hr.path.1, .inl hr⟩
  · refine .inr ⟨a, ?_, hr⟩
    rw [hr.path.1, hr.path.2.2.1]

theorem Scans.test {filter : Int} {cursor : Node × Node} (hs : Scans A p filter cursor)
    (hi : Inv A) (hne : cursor.1 ≠ .head (mailboxHash p)) :
    ∃ a m, Ring A.links (.head (mailboxHash p)) [.msg a] ∧ A.heap a = some m ∧
      cursor = (.msg a, .head (mailboxHash p)) ∧
      eachSafeStep A.links (.head (mailboxHash p)) (A.visit p filter) cursor =
        if m.accepts p filter then .stop (.found (.msg a))
        else .next (.head (mailboxHash p), A.links.next (.head (mailboxHash p))) := by
  rcases hs with ⟨he, -⟩ | ⟨a, rfl, hr⟩
  · exact absurd he hne
  · obtain ⟨m, hm, -⟩ := hi.ring_msg (mailboxHash_lt p) hr
    refine ⟨a, m, hr, hm, rfl, ?_⟩
    cases hacc : m.accepts p filter <;> simp [eachSafeStep, State.visit, hm, hacc]

/-- The operation of the section is done. -/
structure Completed (A s : State) (p : Nat) : Prop where
  section_eq : (s.pc p).section p = none
  rest_le : (s.pc p).rest ≤ (A.pc p).rest

theorem Sending.completed {new head : Node} (hs : Sending A p new head) (l : Links Node) :
    Completed A (({ A with links := l } : State).linked p) p := by
  obtain ⟨a, pid, payload, u, hpc, -⟩ := hs
  constructor <;> simp [State.linked, hpc, setPc_pc, Pc.rest, Pc.section]

theorem Taking.completed {filter : Int} {a : Nat} (hf : Taking A p filter a) (l : Links Node) :
    Completed A (({ A with links := l } : State).unlinked p a) p := by
  obtain ⟨n, hpc⟩ := hf.pc
  constructor <;> simp [State.unlinked, hpc, setPc_pc, Pc.rest, Pc.section]

theorem completed_idle (A : State) (p : Nat) : Completed A (A.setPc p .idle) p := by
  constructor <;> simp [setPc_pc, Pc.rest, Pc.section]

/-- **A statement of a section** leaves the mailbox without the section as it is, and the one
that completes its operation is the atomic step. -/
theorem Section.At.statement {x y : Section} {s : State} {e : Option Act} (hi : Inv A)
    (hx : x.At A p l) (h : ({ A with links := l } : State).statement p x = some (s, y, e)) :
    (e = none ∧ s = { A with links := s.links } ∧ y.At A p s.links ∧ y.rank < x.rank) ∨
      ∃ a, e = some a ∧ y = .leave ∧ Step A (p, a) s ∧ y.rank < x.rank ∧ Completed A s p := by
  cases x with
  | addTail new head =>
    obtain ⟨hs, rfl⟩ := hx
    cases h
    exact .inl ⟨rfl, rfl, ⟨hs, (hs.ring hi).path.2, rfl⟩, by simp [Section.rank]⟩
  | addNext new prev next =>
    obtain ⟨hs, rfl, rfl⟩ := hx
    simp only [State.statement, (hs.ring hi).path.2, ne_eq, not_true, if_false] at h
    cases h
    exact .inl ⟨rfl, rfl, ⟨hs, rfl, rfl⟩, by simp [Section.rank]⟩
  | addPrev new prev next =>
    obtain ⟨hs, rfl, rfl⟩ := hx
    simp only [State.statement, (hs.ring hi).path.1, ne_eq, not_true, if_false] at h
    cases h
    exact .inl ⟨rfl, rfl, ⟨new, prev, [], hs, rfl, rfl⟩, by simp [Section.rank, listAddWrites]⟩
  | adding ws =>
    obtain ⟨new, head, past, hs, hws, rfl⟩ := hx
    cases ws with
    | nil =>
      cases h
      rw [List.append_nil] at hws
      exact .inr ⟨.link, rfl, rfl, hws ▸ hs.step hi, by simp [Section.rank], hs.completed _⟩
    | cons w ws =>
      cases h
      refine .inl ⟨rfl, rfl, ⟨new, head, past ++ [w], hs, ?_, (writes_concat ..).symm⟩,
        by simp [Section.rank]⟩
      rw [List.append_assoc, ← hws]
      rfl
  | eachFirst head filter =>
    obtain ⟨hr, rfl⟩ := hx
    cases h
    exact .inl ⟨rfl, rfl, ⟨hr, rfl, rfl⟩, by simp [Section.rank]⟩
  | eachAhead head filter pos =>
    obtain ⟨⟨rfl, n, hpc⟩, rfl, rfl⟩ := hx
    cases h
    refine .inl ⟨rfl, rfl, ⟨⟨rfl, n, hpc⟩, scans_first hi filter, rfl⟩, ?_⟩
    simp only [Section.rank]
    split <;> omega
  | eachTest head filter cursor =>
    obtain ⟨⟨rfl, n, hpc⟩, hs, rfl⟩ := hx
    by_cases hend : cursor.1 = .head (mailboxHash p)
    · simp only [State.statement, eachSafeStep, hend, if_true] at h
      cases h
      exact .inr ⟨.scan, rfl, rfl, hs.step hi hpc hend, by simp [Section.rank, hend],
        completed_idle A p⟩
    · obtain ⟨a, m, hr, hm, -, htest⟩ := hs.test hi hend
      simp only [State.statement] at h
      cases hacc : m.accepts p filter with
      | true =>
        rw [hacc, if_pos rfl] at htest
        rw [show eachSafeStep A.links _ (({ A with links := A.links } : State).visit p filter) _ = _
          from htest] at h
        cases h
        exact .inl ⟨rfl, rfl, ⟨⟨filter, ⟨n, hpc⟩, hr, m, hm, hacc⟩, rfl⟩,
          by simp [Section.rank, hend]⟩
      | false =>
        rw [hacc, if_neg (by simp)] at htest
        rw [show eachSafeStep A.links _ (({ A with links := A.links } : State).visit p filter) _ = _
          from htest] at h
        cases h
        exact .inl ⟨rfl, rfl, ⟨⟨rfl, n, hpc⟩, .inl ⟨rfl, .inr ⟨a, m, hr, hm, hacc⟩⟩, rfl⟩,
          by simp [Section.rank, hend]⟩
  | delPrev a =>
    obtain ⟨⟨filter, hf⟩, rfl⟩ := hx
    simp only [State.statement, hf.ring.path.2.1, hf.ring.path.1, ne_eq, not_true,
      if_false] at h
    cases h
    exact .inl ⟨rfl, rfl, ⟨⟨filter, hf⟩, rfl⟩, by simp [Section.rank]⟩
  | delNext a =>
    obtain ⟨⟨filter, hf⟩, rfl⟩ := hx
    simp only [State.statement, hf.ring.path.2.2.1, hf.ring.path.2.2.2, ne_eq, not_true,
      if_false] at h
    cases h
    exact .inl ⟨rfl, rfl, ⟨⟨filter, hf⟩, rfl⟩, by simp [Section.rank]⟩
  | delLinks a =>
    obtain ⟨⟨filter, hf⟩, rfl⟩ := hx
    simp only [State.statement, hf.ring.path.2.1, hf.ring.path.2.2.1] at h
    cases h
    exact .inl ⟨rfl, rfl, ⟨filter, [], hf, rfl, rfl⟩, by simp [Section.rank, listDelWrites]⟩
  | deleting a ws =>
    obtain ⟨filter, past, hf, hws, rfl⟩ := hx
    cases ws with
    | nil =>
      cases h
      rw [List.append_nil] at hws
      exact .inr ⟨.scan, rfl, rfl, hws ▸ hf.step hi, by simp [Section.rank],
        hf.completed _⟩
    | cons w ws =>
      cases h
      refine .inl ⟨rfl, rfl, ⟨filter, past ++ [w], hf, ?_, (writes_concat ..).symm⟩,
        by simp [Section.rank]⟩
      rw [List.append_assoc, ← hws]
      rfl
  | leave => cases h
  | stopped => cases h

end Own

/-! ## The statements of the others -/

/-- What a statement outside the sections does to the links. -/
def Touches (T : Nat → Prop) (f : Links Node → Links Node) : Prop :=
  f = id ∨ ∃ a, T a ∧ f = fun l => initListHead l (.msg a)

/-- A statement outside the sections does not read the links, and it writes to those of its own
record only. -/
theorem Step.outside {s t : State} {q : Nat} {a : Act} (h : Step s (q, a) t)
    (ha : a.outside = true) : ∃ f, t.links = f s.links ∧ ∀ l,
      Step { s with links := l } (q, a) { t with links := f l } ∧
      (Inv { s with links := l } → ∃ T es, Touches T f ∧
        Frame { s with links := l } { t with links := f l } q T (fun _ => False) es) := by
  cases h with
  | callSend hpc =>
    exact ⟨id, rfl, fun l => ⟨.callSend hpc, fun _ => ⟨_, _, .inl rfl, frame_setPc nofun⟩⟩⟩
  | kmallocMsg hpc hfree =>
    exact ⟨id, rfl, fun l => ⟨.kmallocMsg hpc hfree, fun _ =>
      ⟨_, _, .inl rfl, frame_kmallocMsg hfree rfl⟩⟩⟩
  | kmallocMsgNull hpc =>
    exact ⟨id, rfl, fun l => ⟨.kmallocMsgNull hpc, fun _ => ⟨_, _, .inl rfl, frame_setPc nofun⟩⟩⟩
  | kmallocBuf hpc hlt =>
    refine ⟨id, rfl, fun l => ⟨.kmallocBuf hpc hlt, fun _ => ⟨_, _, .inl rfl, frame_setPc ?_⟩⟩⟩
    exact fun a' ha' => (congrArg Pc.owns hpc).trans ha'
  | kmallocBufNull hpc =>
    refine ⟨id, rfl, fun l => ⟨.kmallocBufNull hpc, fun _ => ⟨_, _, .inl rfl, frame_setPc ?_⟩⟩⟩
    exact fun a' ha' => (congrArg Pc.owns hpc).trans ha'
  | copyFromUserBad hpc =>
    exact ⟨id, rfl, fun l => ⟨.copyFromUserBad hpc, fun _ => ⟨_, _, .inl rfl, frame_setPc nofun⟩⟩⟩
  | @copyFromUserNull p pid a payload m hpc hm =>
    exact ⟨fun l => initListHead l (.msg a), rfl, fun l => ⟨.copyFromUserNull hpc hm, fun _ =>
      ⟨(· = a), _, .inr ⟨a, rfl, rfl⟩,
        frame_copyFromUser (s := { s with links := l }) (congrArg Pc.owns hpc) rfl⟩⟩⟩
  | @copyFromUser p pid a u payload m hpc hm hu =>
    exact ⟨fun l => initListHead l (.msg a), rfl, fun l => ⟨.copyFromUser hpc hm hu, fun _ =>
      ⟨(· = a), _, .inr ⟨a, rfl, rfl⟩,
        frame_copyFromUser (s := { s with links := l }) (congrArg Pc.owns hpc) rfl⟩⟩⟩
  | link => cases ha
  | linkBug => cases ha
  | sendReturn hpc hret =>
    exact ⟨id, rfl, fun l => ⟨.sendReturn hpc hret, fun _ => ⟨_, _, .inl rfl, frame_setPc nofun⟩⟩⟩
  | callReceive hpc =>
    exact ⟨id, rfl, fun l => ⟨.callReceive hpc, fun _ => ⟨_, _, .inl rfl, frame_setPc nofun⟩⟩⟩
  | scanFound => cases ha
  | scanNotFound => cases ha
  | scanFault => cases ha
  | scanBug => cases ha
  | copyToUser hpc hm hu =>
    refine ⟨id, rfl, fun l => ⟨.copyToUser hpc hm hu, fun _ => ⟨_, _, .inl rfl, frame_setPc ?_⟩⟩⟩
    exact fun a' ha' => (congrArg Pc.owns hpc).trans ha'
  | kfreeBuf hpc =>
    refine ⟨id, rfl, fun l => ⟨.kfreeBuf hpc, fun _ => ⟨_, _, .inl rfl, frame_setPc ?_⟩⟩⟩
    exact fun a' ha' => (congrArg Pc.owns hpc).trans ha'
  | kfreeMsg hpc hm =>
    refine ⟨id, rfl, fun l => ⟨.kfreeMsg hpc hm, fun hi => ?_⟩⟩
    have hok := hi.recordOk (s := { s with links := l }) hpc rfl hm
    exact ⟨_, _, .inl rfl, frame_kfreeMsg (congrArg Pc.owns hpc) hok.1⟩

section Others

variable {A B : State} {p q : Nat} {T : Nat → Prop} {es : List Event} {f : Links Node → Links Node}

theorem Touches.writes (hf : Touches T f) {ws : List (Write Node)}
    (h : ∀ w ∈ ws, ∀ a, T a → w.node ≠ .msg a) (l : Links Node) :
    f (writes ws l) = Kernel.writes ws (f l) := by
  rcases hf with rfl | ⟨a, ha, rfl⟩
  · rfl
  · exact initListHead_writes (fun w hw => h w hw a ha) l

variable (hf : Frame A B q T (fun _ => False) es) (hi : Inv A) (hne : p ≠ q)
include hf hi hne

omit hi in
theorem Sending.frame {new head : Node} (hs : Sending A p new head) : Sending B p new head := by
  obtain ⟨a, pid, payload, u, hpc, hnew, hhead⟩ := hs
  exact ⟨a, pid, payload, u, (hf.pc p hne).trans hpc, hnew, hhead⟩

theorem Sending.not_touched {new head : Node} (hs : Sending A p new head) {a : Nat} (ha : T a) :
    new ≠ .msg a ∧ head ≠ .msg a := by
  obtain ⟨a', pid, payload, u, hpc, rfl, rfl⟩ := hs
  refine ⟨nofun, fun he => ?_⟩
  cases he
  exact hf.not_touched_call hi hne (congrArg Pc.owns hpc) ha

omit hi in
theorem Receiving.frame {head : Node} {filter : Int} (hr : Receiving A p head filter) :
    Receiving B p head filter := by
  obtain ⟨hhead, n, hpc⟩ := hr
  exact ⟨hhead, n, (hf.pc p hne).trans hpc⟩

omit hne in
theorem Frame.ring_same {b : Nat} (hb : b < mailboxNumberBuckets) {xs : List Node}
    (hx : xs = [] ∨ ∃ a, xs = [.msg a]) (hr : Ring A.links (.head b) xs) :
    Ring B.links (.head b) xs := by
  rcases hx with rfl | ⟨a, rfl⟩
  · refine hr.congr fun x hx => ?_
    rw [List.mem_singleton.mp hx]
    exact hf.head b nofun
  · have hA := hf.not_touched_ring hi hb nofun hr
    refine hr.congr fun x hx => ?_
    rcases List.mem_cons.mp hx with rfl | hx
    · exact hf.head b nofun
    · rw [List.mem_singleton.mp hx]
      exact hf.msg a hA

theorem Taking.frame {filter : Int} {a : Nat} (hs : Taking A p filter a) : Taking B p filter a := by
  obtain ⟨⟨n, hpc⟩, hr, m, hm, hacc⟩ := hs
  have hA := hf.not_touched_ring hi (mailboxHash_lt p) nofun hr
  exact ⟨⟨n, (hf.pc p hne).trans hpc⟩, hf.ring_same hi (mailboxHash_lt p) (.inr ⟨a, rfl⟩) hr, m,
    hf.heap a m hA hm, hacc⟩

omit hne in
theorem Scans.frame {filter : Int} {cursor : Node × Node} (hs : Scans A p filter cursor) :
    Scans B p filter cursor := by
  have hb := mailboxHash_lt p
  rcases hs with ⟨he, hr | ⟨a, m, hr, hm, hacc⟩⟩ | ⟨a, he, hr⟩
  · exact .inl ⟨he, .inl (hf.ring_same hi hb (.inl rfl) hr)⟩
  · exact .inl ⟨he, .inr ⟨a, m, hf.ring_same hi hb (.inr ⟨a, rfl⟩) hr,
      hf.heap a m (hf.not_touched_ring hi hb nofun hr) hm, hacc⟩⟩
  · exact .inr ⟨a, he, hf.ring_same hi hb (.inr ⟨a, rfl⟩) hr⟩

/-- **The statements of the others** leave a process where it is in its section. -/
theorem Section.At.frame (ht : Touches T f) (hl : B.links = f A.links) {l : Links Node}
    {x : Section} (hx : x.At A p l) : x.At B p (f l) := by
  cases x with
  | addTail new head => exact ⟨hx.1.frame hf hne, by rw [hx.2, hl]⟩
  | addNext new prev next => exact ⟨hx.1.frame hf hne, hx.2.1, by rw [hx.2.2, hl]⟩
  | addPrev new prev next => exact ⟨hx.1.frame hf hne, hx.2.1, by rw [hx.2.2, hl]⟩
  | adding ws =>
    obtain ⟨new, head, past, hs, hws, rfl⟩ := hx
    refine ⟨new, head, past, hs.frame hf hne, hws, ?_⟩
    rw [hl, ht.writes]
    intro w hw a ha
    have hw : w ∈ listAddWrites new head head := hws ▸ List.mem_append_left _ hw
    obtain ⟨hnew, hhead⟩ := hs.not_touched hf hi hne ha
    simp only [listAddWrites, List.mem_cons, List.not_mem_nil, or_false] at hw
    rcases hw with rfl | rfl | rfl | rfl
    · exact hhead
    · exact hnew
    · exact hnew
    · exact hhead
  | eachFirst head filter => exact ⟨hx.1.frame hf hne, by rw [hx.2, hl]⟩
  | eachAhead head filter pos =>
    obtain ⟨hr, hpos, rfl⟩ := hx
    refine ⟨hr.frame hf hne, ?_, hl.symm⟩
    rw [hpos, hr.1]
    exact (hf.head _ nofun).1.symm
  | eachTest head filter cursor =>
    exact ⟨hx.1.frame hf hne, hx.2.1.frame hf hi, by rw [hx.2.2, hl]⟩
  | delPrev a => exact ⟨hx.1.imp fun _ h => h.frame hf hi hne, by rw [hx.2, hl]⟩
  | delNext a => exact ⟨hx.1.imp fun _ h => h.frame hf hi hne, by rw [hx.2, hl]⟩
  | delLinks a => exact ⟨hx.1.imp fun _ h => h.frame hf hi hne, by rw [hx.2, hl]⟩
  | deleting a ws =>
    obtain ⟨filter, past, hs, hws, rfl⟩ := hx
    refine ⟨filter, past, hs.frame hf hi hne, hws, ?_⟩
    rw [hl, ht.writes]
    intro w hw a' ha'
    have hw : w ∈ listDelWrites .poison1 .poison2 (.msg a) (.head (mailboxHash p))
        (.head (mailboxHash p)) := hws ▸ List.mem_append_left _ hw
    have hmsg : Node.msg a ≠ .msg a' := fun he => by
      cases he
      exact hf.not_touched_ring hi (mailboxHash_lt p) nofun hs.ring ha'
    simp only [listDelWrites, List.mem_cons, List.not_mem_nil, or_false] at hw
    rcases hw with rfl | rfl | rfl | rfl
    · exact nofun
    · exact nofun
    · exact hmsg
    · exact hmsg
  | leave => exact ⟨by rw [hf.pc p hne]; exact hx.1, by rw [hx.2, hl]⟩
  | stopped => exact hx

end Others

/-! ## The two levels -/

/-- `A` is the mailbox without what the process `o` that has the lock has done in its section. -/
structure Abstracts {n : Nat} (c : Impl n) (A : State) (o : Option (Fin n)) : Prop where
  inv : Inv A
  mail : A = { c.mail with links := A.links }
  tokens : Semaphore.Holds 1 c.lock (if o = none then 1 else 0)
  free : o = none → c.mail.links = A.links
  others : ∀ i, o ≠ some i → c.sec i = none
  owner : ∀ i, o = some i → ∃ x, c.sec i = some x ∧ x.At A i c.mail.links
  waiting : ∀ i, (c.lock.task i).pc.waiting = true → c.AtDown i

section Levels

variable {n : Nat} {w : Int → Int} {c : Impl n} {A : State} {o : Option (Fin n)}

theorem Abstracts.owner_of_sec (h : Abstracts c A o) {i : Fin n} {x : Section}
    (hx : c.sec i = some x) : o = some i ∧ x.At A i c.mail.links := by
  have ho : o = some i := by
    by_contra hne
    rw [h.others i hne] at hx
    cases hx
  obtain ⟨y, hy, hat⟩ := h.owner i ho
  cases hx.symm.trans hy
  exact ⟨ho, hat⟩

theorem Abstracts.mail_eq (h : Abstracts c A o) : c.mail = { A with links := c.mail.links } := by
  rw [h.mail]

theorem Abstracts.outside (h : Abstracts c A o) {i : Fin n} {a : Act} {s : State}
    (hsec : c.sec i = none) (hidle : (c.lock.task i).pc = .idle) (ha : a.outside = true)
    (hs : Step c.mail (i, a) s) :
    ∃ B, Step A (i, a) B ∧ Abstracts { c with mail := s } B o := by
  obtain ⟨f, hlinks, hall⟩ := hs.outside ha
  obtain ⟨hstep, hframe⟩ := hall A.links
  rw [← h.mail] at hstep hframe
  obtain ⟨T, es, ht, hf⟩ := hframe h.inv
  have hpc : ∀ j : Fin n, j ≠ i → s.pc j = c.mail.pc j := fun j hj =>
    (hf.pc j (Fin.val_ne_of_ne hj)).trans (congrFun (congrArg State.pc h.mail) j)
  refine ⟨_, hstep, h.inv.step hstep, rfl, h.tokens, fun ho => ?_, h.others, fun j hj => ?_,
    fun j hj => ?_⟩
  · rw [hlinks, h.free ho]
  · obtain ⟨x, hx, hat⟩ := h.owner j hj
    have hne : j ≠ i := fun he => by
      rw [← he, hx] at hsec
      cases hsec
    exact ⟨x, hx, hlinks ▸ hat.frame hf h.inv (Fin.val_ne_of_ne hne) ht rfl⟩
  · have hne : j ≠ i := fun he => by
      rw [he, hidle] at hj
      cases hj
    obtain ⟨hsec', hpc'⟩ := h.waiting j hj
    exact ⟨hsec', by rwa [hpc j hne]⟩

theorem Impl.AtDown.update {i j : Fin n} {v : Option Section} {s : State}
    {l : Semaphore.State (Fin n)} (h : c.AtDown j) (hne : j ≠ i) (hpc : s.pc j = c.mail.pc j) :
    Impl.AtDown ⟨s, Function.update c.sec i v, l⟩ j :=
  ⟨(Function.update_of_ne hne ..).trans h.sec, by rw [hpc]; exact h.pc⟩

/-- A statement of the section of process `i`, with the mailbox as `B` without the section. -/
theorem Abstracts.inside (h : Abstracts c A o) {i : Fin n} {x y : Section} {s B : State}
    (hx : c.sec i = some x) (hidle : (c.lock.task i).pc = .idle) (hB : Inv B)
    (hmail : B = { s with links := B.links }) (hat : y.At B i s.links)
    (hpc : ∀ j : Fin n, j ≠ i → s.pc j = c.mail.pc j) :
    Abstracts { c with mail := s, sec := Function.update c.sec i (some y) } B o where
  inv := hB
  mail := hmail
  tokens := h.tokens
  free ho := by
    rw [(h.owner_of_sec hx).1] at ho
    cases ho
  others j hj := by
    have hne : j ≠ i := fun he => hj (he ▸ (h.owner_of_sec hx).1)
    exact (Function.update_of_ne hne ..).trans (h.others j hj)
  owner j hj := by
    cases (h.owner_of_sec hx).1.symm.trans hj
    exact ⟨y, Function.update_self .., hat⟩
  waiting j hj := by
    have hne : j ≠ i := fun he => by
      change (c.lock.task j).pc.waiting = true at hj
      rw [he, hidle] at hj
      cases hj
    exact (h.waiting j hj).update hne (hpc j hne)

theorem Pc.section_at {p : Nat} {x : Section} (hx : (A.pc p).section p = some x) :
    x.At A p A.links := by
  cases hpc : A.pc p with
  | sendLink a pid payload u =>
    rw [hpc] at hx
    cases hx
    exact ⟨⟨a, pid, payload, u, hpc, rfl, rfl⟩, rfl⟩
  | recvScan filter n =>
    rw [hpc] at hx
    cases hx
    exact ⟨⟨rfl, n, hpc⟩, rfl⟩
  | _ =>
    rw [hpc] at hx
    cases hx

theorem Abstracts.enter (hfit : Semaphore.Fits w (Fin n) 1) (h : Abstracts c A o) {i : Fin n}
    {a : Semaphore.Act} {l : Semaphore.State (Fin n)} (hdown : c.AtDown i)
    (hs : Semaphore.Step w c.lock (i, a) l) (ha : a.event = some .take) :
    Abstracts { c with sec := Function.update c.sec i ((c.mail.pc i).section i), lock := l } A
      (some i) := by
  have hroom : Semaphore.Within 1 c.lock (i, a) := Semaphore.within_of_event (by rw [ha]; nofun)
  obtain ⟨k, hk, hholds⟩ := (Semaphore.holds_refines hfit).visible h.tokens ⟨hs, hroom⟩ ha
  have hone := Semaphore.counting_take_iff.mp hk
  obtain rfl : o = none := by
    by_contra hne
    rw [if_neg hne] at hone
    omega
  obtain rfl : k = 0 := by simpa using hone.symm
  obtain ⟨x, hx⟩ := Option.ne_none_iff_exists'.mp hdown.pc
  refine ⟨h.inv, h.mail, hholds, nofun, fun j hj => ?_, fun j hj => ?_, fun j hj => ?_⟩
  · have hne : j ≠ i := fun he => hj (he ▸ rfl)
    exact (Function.update_of_ne hne ..).trans (h.others j nofun)
  · cases hj
    refine ⟨x, (Function.update_self ..).trans hx, ?_⟩
    change x.At A i c.mail.links
    rw [h.free rfl]
    apply Pc.section_at
    rw [h.mail]
    exact hx
  · rcases hs.waiting.2 j hj with ⟨hbefore, hrun⟩ | ⟨rfl, rfl⟩
    · have hne : j ≠ i := fun he => by rcases hrun he with rfl | rfl <;> cases ha
      exact (h.waiting j hbefore).update hne rfl
    · cases ha

theorem Abstracts.within (h : Abstracts c A o) {i : Fin n} {x : Section} (hx : c.sec i = some x) :
    Semaphore.Within 1 c.lock (i, .give) := by
  intro _
  rw [h.tokens.2, (h.owner_of_sec hx).1]
  exact Int.zero_lt_one

theorem Abstracts.exit (hfit : Semaphore.Fits w (Fin n) 1) (h : Abstracts c A o) {i : Fin n}
    {l : Semaphore.State (Fin n)} (hx : c.sec i = some .leave)
    (hs : Semaphore.Step w c.lock (i, .give) l) :
    Abstracts { c with sec := Function.update c.sec i none, lock := l } A none := by
  have hroom := h.within hx
  obtain ⟨rfl, hat⟩ := h.owner_of_sec hx
  obtain ⟨k, hk, hholds⟩ := (Semaphore.holds_refines hfit).visible h.tokens ⟨hs, hroom⟩ rfl
  obtain rfl := Semaphore.counting_give_iff.mp hk
  refine ⟨h.inv, h.mail, hholds, fun _ => hat.2, fun j _ => ?_, nofun, fun j hj => ?_⟩
  · by_cases hji : j = i
    · rw [hji]
      exact Function.update_self ..
    · refine (Function.update_of_ne hji ..).trans (h.others j fun he => hji ?_)
      exact (Option.some.inj he).symm
  · rcases hs.waiting.2 j hj with ⟨hbefore, hrun⟩ | ⟨-, hcontend⟩
    · have hne : j ≠ i := fun he => by rcases hrun he with hr | hr <;> cases hr
      exact (h.waiting j hbefore).update hne rfl
    · cases hcontend

theorem Abstracts.sem (hfit : Semaphore.Fits w (Fin n) 1) (h : Abstracts c A o) {i : Fin n}
    {a : Semaphore.Act} {l : Semaphore.State (Fin n)} (hs : Semaphore.Step w c.lock (i, a) l)
    (ha : a.event = none) (hdown : a = .contend → c.AtDown i) :
    Abstracts { c with lock := l } A o where
  inv := h.inv
  mail := h.mail
  tokens := (Semaphore.holds_refines hfit).silent h.tokens
    ⟨hs, Semaphore.within_of_event (by rw [ha]; nofun)⟩ ha
  free := h.free
  others := h.others
  owner := h.owner
  waiting j hj := by
    rcases hs.waiting.2 j hj with ⟨hbefore, -⟩ | ⟨rfl, rfl⟩
    · exact ⟨(h.waiting j hbefore).sec, (h.waiting j hbefore).pc⟩
    · exact ⟨(hdown rfl).sec, (hdown rfl).pc⟩

theorem Step.pc_other {s t : State} {p q : Nat} {a : Act} (hs : Step s (p, a) t) (hq : q ≠ p) :
    t.pc q = s.pc q := by
  cases hs <;> exact Function.update_of_ne hq ..

theorem abstracts_refines (hfit : Semaphore.Fits w (Fin n) 1) :
    Refines (ImplStep (n := n) w) Step ImplAct.event fun c A => ∃ o, Abstracts c A o where
  visible := by
    rintro c c' l A b ⟨o, h⟩ hstep hev
    cases hstep with
    | mail hsec hidle ha hs =>
      obtain rfl := Option.some.inj hev
      obtain ⟨B, hB, hc⟩ := h.outside hsec hidle ha hs
      exact ⟨B, hB, o, hc⟩
    | @sec i x y s e hx hidle hs =>
      rw [h.mail_eq] at hs
      rcases (h.owner_of_sec hx).2.statement h.inv hs with ⟨rfl, -⟩ | ⟨a, rfl, rfl, hB, -, hdone⟩
      · cases hev
      · obtain rfl := Option.some.inj hev
        refine ⟨s, hB, o, h.inside hx hidle (h.inv.step hB) rfl ⟨hdone.section_eq, rfl⟩
          fun j hj => ?_⟩
        rw [hB.pc_other (Fin.val_ne_of_ne hj), h.mail_eq]
    | take => cases hev
    | contend => cases hev
    | grant => cases hev
    | give => cases hev
    | run => cases hev
    | signal => cases hev
  silent := by
    rintro c c' l A ⟨o, h⟩ hstep hev
    cases hstep with
    | mail => cases hev
    | @sec i x y s e hx hidle hs =>
      rw [h.mail_eq] at hs
      rcases (h.owner_of_sec hx).2.statement h.inv hs with ⟨rfl, he, hy, -⟩ | ⟨a, rfl, -⟩
      · refine ⟨o, h.inside hx hidle h.inv (by rw [he]) hy fun j _ => ?_⟩
        rw [he, h.mail_eq]
      · cases hev
    | take hdown hs => exact ⟨_, h.enter hfit hdown hs rfl⟩
    | contend hdown hs _ => exact ⟨o, h.sem hfit hs rfl fun _ => hdown⟩
    | grant hs => exact ⟨_, h.enter hfit (h.waiting _ (hs.waiting.1 rfl)) hs rfl⟩
    | give hx hs => exact ⟨_, h.exit hfit hx hs⟩
    | run hs => exact ⟨o, h.sem hfit hs rfl nofun⟩
    | signal hs => exact ⟨o, h.sem hfit hs rfl nofun⟩

theorem abstracts_init (l : Links Node) : Abstracts (Impl.init l : Impl n) (State.init l) none where
  inv := inv_init l
  mail := rfl
  tokens := Semaphore.holds_init (n := 1) le_rfl
  free _ := rfl
  others _ _ := rfl
  owner := nofun
  waiting _ hi := by cases hi

/-- **The critical sections are atomic**: what a run of the statements under the semaphore shows
is a run of the mailbox whose list operations are one step each. One process is in its section at
most and it does not stop there, and when none is, the two mailboxes are the same. -/
theorem sections_refine (hfit : Semaphore.Fits w (Fin n) 1) {l : Links Node}
    {tr : List (Impl n × ImplAct n)} (h : Run (ImplStep w) (Impl.init l) tr c) :
    ∃ A, Follows Step (State.init l) (events ImplAct.event tr) A ∧
      A = { c.mail with links := A.links } ∧ ((∀ i, c.sec i = none) → A = c.mail) ∧
      (∀ i j, c.sec i ≠ none → c.sec j ≠ none → i = j) ∧ ∀ i, c.sec i ≠ some .stopped := by
  obtain ⟨A, hfollows, o, hA⟩ := (abstracts_refines hfit).run h ⟨none, abstracts_init l⟩
  refine ⟨A, hfollows, hA.mail, fun hnone => ?_, fun i j hi hj => ?_, fun i hi => ?_⟩
  · have ho : o = none := by
      cases o with
      | none => rfl
      | some i =>
        obtain ⟨x, hx, -⟩ := hA.owner i rfl
        rw [hnone i] at hx
        cases hx
    rw [hA.mail, ← hA.free ho]
  · obtain ⟨x, hx⟩ := Option.ne_none_iff_exists'.mp hi
    obtain ⟨y, hy⟩ := Option.ne_none_iff_exists'.mp hj
    exact Option.some.inj ((hA.owner_of_sec hx).1.symm.trans (hA.owner_of_sec hy).1)
  · exact (hA.owner_of_sec hi).2

end Levels

/-- Process 1 sends to process 0, and is in the middle of `__list_add` when process 0, which has
called `sys_myreceive`, goes to sleep for the lock. -/
theorem writing_run : ∃ tr c, Run (ImplStep Semaphore.atomic) (Impl.init ⟨id, id⟩ : Impl 2) tr c ∧
    (c.lock.task 0).pc = .setState .down ∧ c.sec 1 = some (.adding
      [.prev (.head (mailboxHash (0 : Nat))) (.msg 0), .next (.msg 0)
        (.head (mailboxHash (0 : Nat)))]) ∧
    events ImplAct.event tr = [(1, .callSend 0 [104]), (1, .kmallocMsg (some 0)),
      (1, .kmallocBuf true), (1, .copyFromUser 0), (0, .callReceive (-1) 1)] :=
  ⟨_, _,
    .cons (.mail (i := 1) (a := .callSend 0 [104]) rfl rfl rfl (.callSend rfl)) <|
    .cons (.mail (i := 1) (a := .kmallocMsg (some 0)) rfl rfl rfl (.kmallocMsg rfl rfl)) <|
    .cons (.mail (i := 1) (a := .kmallocBuf true) rfl rfl rfl (.kmallocBuf rfl (by decide))) <|
    .cons (.mail (i := 1) (a := .copyFromUser 0) rfl rfl rfl
      (.copyFromUser rfl rfl (by decide))) <|
    .cons (.take (i := 1) ⟨rfl, nofun⟩ (.exec (.take rfl (by decide)))) <|
    .cons (.mail (i := 0) (a := .callReceive (-1) 1) rfl rfl rfl (.callReceive rfl)) <|
    .cons (.sec (i := 1) (e := none) rfl rfl rfl) <|
    .cons (.sec (i := 1) (e := none) rfl rfl rfl) <|
    .cons (.contend (i := 0) ⟨rfl, nofun⟩ (.exec (.contend .down rfl (by decide))) rfl) <|
    .cons (.sec (i := 1) (e := none) rfl rfl rfl) <|
    .cons (.sec (i := 1) (e := none) rfl rfl rfl) <|
    .cons (.sec (i := 1) (e := none) rfl rfl rfl) <|
    .nil _, rfl, rfl, rfl⟩

theorem sections_refine_writing : ∃ (tr : List (Impl 2 × ImplAct 2)) (c : Impl 2) (A : State),
    Run (ImplStep Semaphore.atomic) (Impl.init ⟨id, id⟩) tr c ∧
      (c.lock.task 0).pc = .setState .down ∧ (∃ ws, c.sec 1 = some (.adding ws)) ∧
      Follows Step (State.init ⟨id, id⟩) (events ImplAct.event tr) A ∧
      A = { c.mail with links := A.links } ∧ ∀ i, c.sec i ≠ some .stopped := by
  obtain ⟨tr, c, hrun, hdown, hadding, -⟩ := writing_run
  obtain ⟨A, hfollows, hmail, -, -, hstopped⟩ :=
    sections_refine (Semaphore.fits_atomic (by decide) (by decide)) hrun
  exact ⟨tr, c, A, hrun, hdown, ⟨_, hadding⟩, hfollows, hmail, hstopped⟩

end Cs370.Kernel
