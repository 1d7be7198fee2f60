import Cs370.Kernel.List
import Cs370.Lib.CInt
import Cs370.Lib.Run

/-!
# The mailbox system calls

`sys_mysend` and `sys_myreceive` of `ipc/mailbox.c`, as a transition system over any number of
processes. The critical sections under `mailbox.lock` are single steps; the statements around
them are steps of their own, with the outcomes of `kmalloc`, `copy_from_user` and
`copy_to_user` in the labels. A message's text buffer is reached through its record only and
is kept in the record.

`sys_mysend` passes the bucket as the new entry and the message as the list to
`list_add_tail`, and `Step.link` does as it says.

`State.history` and `Message.stamp` are not part of the program: they record what has been
enqueued, taken and delivered.
-/

namespace Cs370.Kernel

open Loop

/-- The list heads of the mailbox: the buckets and the `message_list` of each message. -/
inductive Node where
  | head (b : Nat)
  | msg (a : Nat)
  | poison1
  | poison2
  deriving DecidableEq

def mailboxNumberBuckets : Nat := 128

/-- `pid % MAILBOX_NUMBER_BUCKETS` in `int`, as a `size_t`. -/
def mailboxHash (pid : Int) : Nat := CInt.sizeT (pid.tmod mailboxNumberBuckets)

/-- `struct message_struct`; `stamp` is the place of its `enqueued` event. -/
structure Message where
  sender : Int
  receiver : Int
  message : List UInt8
  length : Int
  stamp : Nat

inductive Event where
  | enqueued (sender receiver : Int) (payload : List UInt8) (uncopied : Nat)
  | taken (stamp : Nat)
  | received (receiver filter : Int) (n : Nat) (bytes : List UInt8) (uncopied : Nat) (ret : Int)
      (stamp : Nat)

/-- Where a process is: outside, before a statement of `sys_mysend` or of `sys_myreceive` with the
local variables it still needs, or stopped by a fault. -/
inductive Pc where
  | idle
  | sendMsg (pid : Nat) (payload : List UInt8)
  | sendBuf (a pid : Nat) (payload : List UInt8)
  | sendCopy (a pid : Nat) (payload : List UInt8)
  | sendNull (a pid : Nat) (payload : List UInt8)
  | sendLink (a pid : Nat) (payload : List UInt8) (uncopied : Nat)
  | sendRet (a : Nat)
  | recvScan (filter : Int) (n : Nat)
  | recvCopy (a : Nat) (filter : Int) (n : Nat)
  | recvFreeBuf (a : Nat) (filter : Int) (n : Nat) (bytes : List UInt8) (minimum uncopied : Nat)
  | recvFreeMsg (a : Nat) (filter : Int) (n : Nat) (bytes : List UInt8) (minimum uncopied : Nat)
  | dead

/-- The mailbox, the message records, the processes by pid, and whether the lock is lost to a
process that stopped while it held it. -/
structure State where
  links : Links Node
  heap : Nat → Option Message
  pc : Nat → Pc
  bug : Bool
  history : List Event

def State.setPc (s : State) (p : Nat) (c : Pc) : State := { s with pc := Function.update s.pc p c }

/-- A statement, with the outcome its environment chooses. -/
inductive Act where
  | callSend (pid : Nat) (payload : List UInt8)
  | kmallocMsg (a : Option Nat)
  | kmallocBuf (ok : Bool)
  | copyFromUser (uncopied : Nat)
  | link
  | sendReturn (ret : Int)
  | callReceive (filter : Int) (n : Nat)
  | scan
  | copyToUser (uncopied : Nat)
  | kfreeBuf
  | kfreeMsg

/-- The condition of the loop in `sys_myreceive` for a process `p`. -/
def Message.accepts (p filter : Int) (m : Message) : Bool :=
  m.receiver == p && (decide (filter < 0) || m.sender == filter)

/-- The loop body at a node: a message that was freed cannot be looked at. -/
def State.visit (s : State) (p filter : Int) : Node → Option Bool
  | .msg a => (s.heap a).map (Message.accepts p filter)
  | _ => none

/-- The scan of `sys_myreceive`, at most `n` iterations. -/
def State.scan (s : State) (p filter : Int) (n : Nat) : Option (Found Node) :=
  eachSafe s.links (.head (mailboxHash p)) (s.visit p filter) n

/-- The buffer and the length `sys_mysend` stores; what `copy_from_user` cannot copy it clears. -/
def Message.fill (m : Message) (payload : List UInt8) (uncopied : Nat) : Message :=
  { m with
    message := payload.take (payload.length - uncopied) ++ List.replicate uncopied 0
    length := CInt.intW 32 ((payload.length : Int) - uncopied) }

/-- The same without a buffer: all `n` bytes are left, and `uncopied` is an `unsigned int`. -/
def Message.fillNull (m : Message) (payload : List UInt8) : Message :=
  { m with
    message := []
    length := CInt.intW 32 ((payload.length : Int) - CInt.u32 payload.length) }

/-- `minimum` of `sys_myreceive`: the `int` length is compared as a `size_t`. -/
def Message.minimum (m : Message) (n : Nat) : Nat :=
  if n < CInt.sizeT m.length then n else CInt.sizeT m.length

/-- The largest request `kmalloc` can serve is below this. -/
def kmallocLimit : Nat := 2 ^ 31

inductive Step : State → Nat × Act → State → Prop where
  | callSend {s : State} {p pid : Nat} {payload : List UInt8} : s.pc p = .idle →
      Step s (p, .callSend pid payload) (s.setPc p (.sendMsg pid payload))
  | kmallocMsg {s : State} {p pid a : Nat} {payload : List UInt8} :
      s.pc p = .sendMsg pid payload → s.heap a = none →
      Step s (p, .kmallocMsg (some a))
        ({ s with heap := Function.update s.heap a (some ⟨p, pid, [], 0, 0⟩) }.setPc p
          (.sendBuf a pid payload))
  | kmallocMsgNull {s : State} {p pid : Nat} {payload : List UInt8} :
      s.pc p = .sendMsg pid payload → Step s (p, .kmallocMsg none) (s.setPc p .dead)
  | kmallocBuf {s : State} {p pid a : Nat} {payload : List UInt8} :
      s.pc p = .sendBuf a pid payload → payload.length < kmallocLimit →
      Step s (p, .kmallocBuf true) (s.setPc p (.sendCopy a pid payload))
  | kmallocBufNull {s : State} {p pid a : Nat} {payload : List UInt8} :
      s.pc p = .sendBuf a pid payload →
      Step s (p, .kmallocBuf false) (s.setPc p (.sendNull a pid payload))
  | copyFromUser {s : State} {p pid a u : Nat} {payload : List UInt8} {m : Message} :
      s.pc p = .sendCopy a pid payload → s.heap a = some m → u ≤ payload.length →
      Step s (p, .copyFromUser u)
        ({ s with
            heap := Function.update s.heap a (some (m.fill payload u))
            links := initListHead s.links (.msg a) }.setPc p (.sendLink a pid payload u))
  -- the store through the null pointer has a fixup
  | copyFromUserNull {s : State} {p pid a : Nat} {payload : List UInt8} {m : Message} :
      s.pc p = .sendNull a pid payload → s.heap a = some m →
      Step s (p, .copyFromUser payload.length)
        ({ s with
            heap := Function.update s.heap a (some (m.fillNull payload))
            links := initListHead s.links (.msg a) }.setPc p
          (.sendLink a pid payload payload.length))
  -- that of `bad_from_user`, for an address that is not in user space, has none
  | copyFromUserBad {s : State} {p pid a : Nat} {payload : List UInt8} :
      s.pc p = .sendNull a pid payload →
      Step s (p, .copyFromUser payload.length) (s.setPc p .dead)
  | link {s : State} {p pid a u : Nat} {payload : List UInt8} {m : Message} {l : Links Node} :
      s.pc p = .sendLink a pid payload u → s.bug = false → s.heap a = some m →
      listAddTail s.links (.head (mailboxHash pid)) (.msg a) = some l →
      Step s (p, .link)
        ({ s with
            links := l
            heap := Function.update s.heap a (some { m with stamp := s.history.length })
            history := s.history ++ [Event.enqueued p pid payload u] }.setPc p (.sendRet a))
  | linkBug {s : State} {p pid a u : Nat} {payload : List UInt8} :
      s.pc p = .sendLink a pid payload u → s.bug = false →
      listAddTail s.links (.head (mailboxHash pid)) (.msg a) = none →
      Step s (p, .link) ({ s with bug := true }.setPc p .dead)
  | sendReturn {s : State} {p a : Nat} {ret : Int} : s.pc p = .sendRet a →
      (∀ m, s.heap a = some m → ret = m.length) →
      Step s (p, .sendReturn ret) (s.setPc p .idle)
  | callReceive {s : State} {p n : Nat} {filter : Int} : s.pc p = .idle →
      Step s (p, .callReceive filter n) (s.setPc p (.recvScan filter n))
  | scanFound {s : State} {p n a k : Nat} {filter : Int} {m : Message} {l : Links Node} :
      s.pc p = .recvScan filter n → s.bug = false →
      s.scan p filter k = some (.found (.msg a)) → s.heap a = some m →
      listDel .poison1 .poison2 s.links (.msg a) = some l →
      Step s (p, .scan)
        ({ s with links := l, history := s.history ++ [Event.taken m.stamp] }.setPc p
          (.recvCopy a filter n))
  | scanNotFound {s : State} {p n k : Nat} {filter : Int} :
      s.pc p = .recvScan filter n → s.bug = false → s.scan p filter k = some .notFound →
      Step s (p, .scan) (s.setPc p .idle)
  | scanFault {s : State} {p n k : Nat} {filter : Int} :
      s.pc p = .recvScan filter n → s.bug = false → s.scan p filter k = some .fault →
      Step s (p, .scan) ({ s with bug := true }.setPc p .dead)
  | scanBug {s : State} {p n a k : Nat} {filter : Int} :
      s.pc p = .recvScan filter n → s.bug = false →
      s.scan p filter k = some (.found (.msg a)) →
      listDel .poison1 .poison2 s.links (.msg a) = none →
      Step s (p, .scan) ({ s with bug := true }.setPc p .dead)
  | copyToUser {s : State} {p n a u : Nat} {filter : Int} {m : Message} :
      s.pc p = .recvCopy a filter n → s.heap a = some m → u ≤ m.minimum n →
      Step s (p, .copyToUser u)
        (s.setPc p (.recvFreeBuf a filter n (m.message.take (m.minimum n - u)) (m.minimum n) u))
  | kfreeBuf {s : State} {p n a k u : Nat} {filter : Int} {bytes : List UInt8} :
      s.pc p = .recvFreeBuf a filter n bytes k u →
      Step s (p, .kfreeBuf) (s.setPc p (.recvFreeMsg a filter n bytes k u))
  | kfreeMsg {s : State} {p n a k u : Nat} {filter : Int} {bytes : List UInt8} {m : Message} :
      s.pc p = .recvFreeMsg a filter n bytes k u → s.heap a = some m →
      Step s (p, .kfreeMsg)
        ({ s with
            heap := Function.update s.heap a none
            history := s.history ++ [Event.received p filter n bytes u ((k : Int) - u) m.stamp]
            }.setPc p .idle)

/-- `init_mailbox`: the links of every bucket, whatever was in memory before. -/
def initMailbox (l : Links Node) : Links Node :=
  (List.range mailboxNumberBuckets).foldl (fun l i => initListHead l (.head i)) l

def State.init (l : Links Node) : State where
  links := initMailbox l
  heap := fun _ => none
  pc := fun _ => .idle
  bug := false
  history := []

/-! ## Buckets -/

theorem mailboxHash_natCast (pid : Nat) : mailboxHash pid = pid % 128 := by
  unfold mailboxHash mailboxNumberBuckets
  rw [Int.tmod_eq_emod_of_nonneg (Int.natCast_nonneg pid),
    show (pid : Int) % (128 : Nat) = ((pid % 128 : Nat) : Int) by simp]
  exact CInt.uintW_of_lt (by omega)

theorem mailboxHash_lt (pid : Nat) : mailboxHash pid < mailboxNumberBuckets := by
  rw [mailboxHash_natCast]
  exact Nat.mod_lt _ (by decide)

theorem mailboxHash_of_neg {pid : Int} (h : pid < 0) (hd : ¬ (128 : Int) ∣ pid) :
    2 ^ 64 - 128 < mailboxHash pid := by
  obtain ⟨n, rfl⟩ := Int.exists_eq_neg_ofNat (Int.le_of_lt h)
  have hr : (-(n : Int)).tmod (128 : Nat) = -((n % 128 : Nat) : Int) := by
    rw [Int.neg_tmod, Int.tmod_eq_emod_of_nonneg (Int.natCast_nonneg n), Int.natCast_mod]
  have hcast : ((mailboxHash (-(n : Int)) : Nat) : Int) = -((n % 128 : Nat) : Int) % 2 ^ 64 := by
    rw [← hr]
    exact CInt.uintW_cast 64 _
  omega

theorem mailboxHash_lt_iff (pid : Int) :
    mailboxHash pid < mailboxNumberBuckets ↔ 0 ≤ pid ∨ (128 : Int) ∣ pid := by
  constructor
  · intro hlt
    by_contra hnot
    rw [not_or, Int.not_le] at hnot
    have hbig := mailboxHash_of_neg hnot.1 hnot.2
    unfold mailboxNumberBuckets at hlt
    omega
  · rintro (hpid | hdvd)
    · obtain ⟨n, rfl⟩ := Int.eq_ofNat_of_zero_le hpid
      exact mailboxHash_lt n
    · have hzero : mailboxHash pid = 0 := by
        unfold mailboxHash mailboxNumberBuckets
        rw [Int.tmod_eq_zero_of_dvd (by exact_mod_cast hdvd)]
        rfl
      rw [hzero]
      decide

/-- `box` of `sys_mysend`, from the pid that user space has passed. -/
def sendBox (pid : Int32) : Nat := mailboxHash pid.toInt

/-- `box` of `sys_myreceive`, from `current->pid`. -/
def receiveBox (currentPid : Int32) : Nat := mailboxHash currentPid.toInt

/-- **Bucket selection**: the index is one of the array, and the one the receiver looks at, for
the pids that are not negative and for those that leave no remainder, and for no other. -/
theorem sendBox_inRange_iff (pid : Int32) :
    (sendBox pid < mailboxNumberBuckets ∧ sendBox pid = receiveBox pid) ↔
      0 ≤ pid.toInt ∨ (128 : Int) ∣ pid.toInt := by
  rw [sendBox, receiveBox, mailboxHash_lt_iff]
  exact and_iff_left rfl

/-- A send to pid -1 writes to the list head at the largest index there is. -/
theorem sendBox_minus_one : sendBox (-1) = 2 ^ 64 - 1 ∧ ¬ sendBox (-1) < mailboxNumberBuckets := by
  have hbox : sendBox (-1) = 2 ^ 64 - 1 := by decide
  rw [hbox]
  decide

theorem initMailbox_ring (l : Links Node) {b : Nat} (hb : b < mailboxNumberBuckets) :
    Ring (initMailbox l) (.head b) [] := by
  unfold initMailbox
  generalize mailboxNumberBuckets = n at *
  induction n with
  | zero => omega
  | succ n ih =>
    rw [List.range_succ, List.foldl_append]
    rcases Nat.lt_succ_iff_lt_or_eq.mp hb with hlt | rfl
    · refine (ih hlt).congr fun x hx => initListHead_of_ne _ ?_
      rw [List.mem_singleton.mp hx]
      exact fun he => absurd (Node.head.inj he) (by omega)
    · exact initListHead_ring _ _

end Cs370.Kernel
