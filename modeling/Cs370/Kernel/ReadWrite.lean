import Mathlib.Logic.Function.Basic
import Cs370.Lib.Comp

/-!
# Writing to a file, and forcing it

`sys_write` and `sys_forcewrite` with what they call: `rw_verify_area`, `do_sync_write` and its
waits. The operations of a file, the scheduler and the locks are parameters that act on a world
`W`, return any value and may not return at all.

`vfs_forcewrite` is a second copy of `vfs_write` and is kept as one here. It does what the first
does on the same file opened for writing, when the security module has no objection
(`forcewrite_returns_iff`).
-/

namespace Cs370.Vfs

open Cs370.Loop

def ebadf : Int64 := 9
def efault : Int64 := 14
def einval : Int64 := 22
def eiocbqueued : Int64 := 529
def eiocbretry : Int64 := 530

def fmodeWrite : UInt32 := 2

def mayWrite : UInt32 := 2

/-- `INT_MAX & PAGE_CACHE_MASK`, pages of 4096 bytes. -/
def maxRwCount : UInt64 := 0x7ffff000

/-! ## Files and what they are given -/

inductive Direction where
  | read
  | write
  deriving DecidableEq

inductive FlockVerify where
  | read
  | write
  deriving DecidableEq

structure Dentry where
  address : Nat
  dInode : Nat
  deriving DecidableEq

structure Iovec where
  iovBase : UInt64
  iovLen : UInt64
  deriving DecidableEq

/-- The fields of a `kiocb` that a synchronous write reads; `kiKicked` is the bit of `ki_flags`. -/
structure Kiocb where
  kiFilp : Nat
  kiKicked : Bool
  kiUsers : Int32
  kiUserData : UInt64
  kiPos : Int64
  kiLeft : UInt64
  deriving DecidableEq

variable {W : Type}

/-- The two ways to write; either may be absent. A file is named by its address. -/
structure FileOperations (W : Type) where
  write : Option (Nat → UInt64 → UInt64 → Int64 → W → Comp (Int64 × Int64 × W))
  aioWrite : Option (Kiocb → Iovec → Int64 → W → Comp (Int64 × Kiocb × W))

structure File (W : Type) where
  fMode : UInt32
  fPos : Int64
  fOp : Option (FileOperations W)
  dentry : Dentry

/-- What the rest of the kernel decides. -/
structure Env (W : Type) where
  /-- `access_ok(VERIFY_READ, buf, count)` -/
  accessOk : UInt64 → UInt64 → Bool
  /-- `inode->i_flock && MANDATORY_LOCK(inode)` -/
  mandatoryLock : Nat → W → Bool
  locksMandatoryArea : FlockVerify → Nat → Nat → Int64 → UInt64 → W → Comp (Int32 × W)
  securityFilePermission : Nat → UInt32 → Int32
  /-- `schedule()`, until the task that owns the `kiocb` runs again. -/
  schedule : Kiocb → W → Comp (Kiocb × W)

/-- The files by address, the descriptors of the task and its I/O accounting, the dentries that
`fsnotify_modify` was called for, the last one first. -/
structure State (W : Type) where
  fdTable : UInt32 → Option Nat
  file : Nat → File W
  wchar : UInt64
  syscw : UInt64
  modified : List Dentry
  world : W

namespace State

def fgetLight (s : State W) (fd : UInt32) : Option Nat := s.fdTable fd

def filePosRead (s : State W) (file : Nat) : Int64 := (s.file file).fPos

def filePosWrite (s : State W) (file : Nat) (pos : Int64) : State W :=
  { s with file := Function.update s.file file { s.file file with fPos := pos } }

def fsnotifyModify (s : State W) (dentry : Dentry) : State W :=
  { s with modified := dentry :: s.modified }

def addWchar (s : State W) (amt : Int64) : State W := { s with wchar := s.wchar + amt.toUInt64 }

def incSyscw (s : State W) : State W := { s with syscw := s.syscw + 1 }

end State

/-! ## The code -/

/-- `rw_verify_area`: the count that may be written, or an error. -/
def rwVerifyArea (env : Env W) (readWrite : Direction) (s : State W) (file : Nat) (pos : Int64)
    (count : UInt64) : Comp (Int32 × W) :=
  let w := s.world
  let inode := (s.file file).dentry.dInode
  let verified : Int32 := (if count > maxRwCount then maxRwCount else count).toInt64.toInt32
  if count.toInt64 < 0 then pure ((-einval).toInt32, w)
  else if pos < 0 ∨ (pos.toUInt64 + count).toInt64 < 0 then pure ((-einval).toInt32, w)
  else if env.mandatoryLock inode w then do
    let (retval, w) ← env.locksMandatoryArea
      (if readWrite = .read then .read else .write) inode file pos count w
    if retval < 0 then pure (retval, w) else pure (verified, w)
  else pure (verified, w)

def initSyncKiocb (filp : Nat) : Kiocb where
  kiFilp := filp
  kiKicked := false
  kiUsers := 1
  kiUserData := 0
  kiPos := 0
  kiLeft := 0

def waitOnRetrySyncKiocb (env : Env W) (iocb : Kiocb) (w : W) : Comp (Kiocb × W) :=
  if !iocb.kiKicked then env.schedule iocb w
  else pure ({ iocb with kiKicked := false }, w)

/-- `wait_on_sync_kiocb`. Its second test of `ki_users` is for a completion right after the first
and goes where the first would have gone. -/
def waitOnSyncKiocb (env : Env W) (iocb : Kiocb) (w : W) : Comp (Int64 × Kiocb × W) :=
  Comp.loop (fun x : Kiocb × W =>
    if x.1.kiUsers = 0 then pure (.stop (x.1.kiUserData.toInt64, x.1, x.2))
    else do
      let x ← env.schedule x.1 x.2
      pure (.next x)) (iocb, w)

/-- A call of `f_op->aio_write`. A call through `NULL` does not come back. -/
def callAioWrite (fOp : FileOperations W) (iocb : Kiocb) (iov : Iovec) (pos : Int64) (w : W) :
    Comp (Int64 × Kiocb × W) :=
  match fOp.aioWrite with
  | some aioWrite => aioWrite iocb iov pos w
  | none => .never

def doSyncWrite (env : Env W) (filp : Nat) (fOp : FileOperations W) (buf len : UInt64)
    (ppos : Int64) (w : W) : Comp (Int64 × Int64 × W) := do
  let iov : Iovec := { iovBase := buf, iovLen := len }
  let kiocb : Kiocb := { initSyncKiocb filp with kiPos := ppos, kiLeft := len }
  let (ret, kiocb, w) ← Comp.loop (fun x : Kiocb × W => do
    let (ret, kiocb, w) ← callAioWrite fOp x.1 iov x.1.kiPos x.2
    if ret ≠ -eiocbretry then pure (.stop (ret, kiocb, w))
    else do
      let x ← waitOnRetrySyncKiocb env kiocb w
      pure (.next x)) (kiocb, w)
  let (ret, kiocb, w) ←
    if -eiocbqueued = ret then waitOnSyncKiocb env kiocb w else pure (ret, kiocb, w)
  pure (ret, kiocb.kiPos, w)

/-- `vfs_write`: the value, `*pos` and the state. -/
def vfsWrite (env : Env W) (s : State W) (file : Nat) (buf count : UInt64) (pos : Int64) :
    Comp (Int64 × Int64 × State W) :=
  if (s.file file).fMode &&& fmodeWrite = 0 then pure (-ebadf, pos, s)
  else
    match (s.file file).fOp with
    | none => pure (-einval, pos, s)
    | some fOp =>
      if fOp.write.isNone && fOp.aioWrite.isNone then pure (-einval, pos, s)
      else if !env.accessOk buf count then pure (-efault, pos, s)
      else do
        let (ret, w) ← rwVerifyArea env .write s file pos count
        let s := { s with world := w }
        if ret ≥ 0 then do
          let count := ret.toInt64.toUInt64
          let ret := env.securityFilePermission file mayWrite
          if ret = 0 then do
            let (ret, pos, w) ←
              match fOp.write with
              | some write => write file buf count pos s.world
              | none => doSyncWrite env file fOp buf count pos s.world
            let s := { s with world := w }
            let s := if ret > 0 then (s.fsnotifyModify (s.file file).dentry).addWchar ret else s
            pure (ret, pos, s.incSyscw)
          else pure (ret.toInt64, pos, s)
        else pure (ret.toInt64, pos, s)

/-- `sys_write`: the position is written back whatever `vfs_write` returns. -/
def sysWrite (env : Env W) (s : State W) (fd : UInt32) (buf count : UInt64) :
    Comp (Int64 × State W) :=
  match s.fgetLight fd with
  | none => pure (-ebadf, s)
  | some file => do
    let (ret, pos, s) ← vfsWrite env s file buf count (s.filePosRead file)
    pure (ret, s.filePosWrite file pos)

def vfsForcewrite (env : Env W) (s : State W) (file : Nat) (buff count : UInt64) (pos : Int64) :
    Comp (Int64 × Int64 × State W) :=
  match (s.file file).fOp with
  | none => pure (-einval, pos, s)
  | some fOp =>
    if fOp.write.isNone && fOp.aioWrite.isNone then pure (-einval, pos, s)
    else if !env.accessOk buff count then pure (-efault, pos, s)
    else do
      let (ret, w) ← rwVerifyArea env .write s file pos count
      let s := { s with world := w }
      if ret ≥ 0 then do
        let count := ret.toInt64.toUInt64
        let (ret, pos, w) ←
          match fOp.write with
          | some write => write file buff count pos s.world
          | none => doSyncWrite env file fOp buff count pos s.world
        let s := { s with world := w }
        let s := if ret > 0 then (s.fsnotifyModify (s.file file).dentry).addWchar ret else s
        pure (ret, pos, s.incSyscw)
      else pure (ret.toInt64, pos, s)

def sysForcewrite (env : Env W) (s : State W) (fd : UInt32) (buff count : UInt64) :
    Comp (Int64 × State W) :=
  match s.fgetLight fd with
  | none => pure (-ebadf, s)
  | some file => do
    let (ret, pos, s) ← vfsForcewrite env s file buff count (s.filePosRead file)
    pure (ret, s.filePosWrite file pos)

/-! ## Permission -/

/-- The file with `FMODE_WRITE` set and nothing else changed. -/
def File.allow (f : File W) : File W := { f with fMode := f.fMode ||| fmodeWrite }

/-- The state with `FMODE_WRITE` set for the file at the address. -/
def State.allowFile (s : State W) (file : Nat) : State W :=
  { s with file := Function.update s.file file (s.file file).allow }

/-- The state with `FMODE_WRITE` set for the file behind the descriptor. -/
def State.allow (s : State W) (fd : UInt32) : State W :=
  match s.fdTable fd with
  | some file => s.allowFile file
  | none => s

/-- `security_file_permission` returns 0. -/
def Env.permit (env : Env W) : Env W := { env with securityFilePermission := fun _ _ => 0 }

theorem File.allow_fMode (f : File W) : f.allow.fMode &&& fmodeWrite ≠ 0 := by
  intro h
  have hbit := congrArg (fun m : UInt32 => m.toBitVec.getLsbD 1) h
  simp [File.allow, fmodeWrite] at hbit

namespace State

variable (s : State W) (file : Nat)

@[simp] theorem allowFile_file : (s.allowFile file).file file = (s.file file).allow :=
  Function.update_self ..

@[simp] theorem allowFile_filePosRead :
    (s.allowFile file).filePosRead file = s.filePosRead file := by
  simp [filePosRead, File.allow]

@[simp] theorem allowFile_filePosWrite (pos : Int64) :
    (s.allowFile file).filePosWrite file pos = (s.filePosWrite file pos).allowFile file := by
  simp [filePosWrite, allowFile, File.allow]

theorem allowFile_dentry : ((s.allowFile file).file file).dentry = (s.file file).dentry := by
  rw [allowFile_file]
  rfl

theorem wrote_fdTable (ret : Int64) (w : W) :
    (if ret > 0 then
      ({ s with world := w }.fsnotifyModify (s.file file).dentry).addWchar ret
    else { s with world := w }).incSyscw.fdTable = s.fdTable := by
  split <;> rfl

theorem allowFile_wrote (ret : Int64) (w : W) :
    (if ret > 0 then
      ({ s.allowFile file with world := w }.fsnotifyModify
        ((s.allowFile file).file file).dentry).addWchar ret
    else { s.allowFile file with world := w }).incSyscw =
    (if ret > 0 then
      ({ s with world := w }.fsnotifyModify (s.file file).dentry).addWchar ret
    else { s with world := w }).incSyscw.allowFile file := by
  rw [allowFile_dentry]
  split <;> rfl

end State

section
variable (env : Env W) (s : State W)

theorem rwVerifyArea_allowFile (rw : Direction) (file : Nat) (pos : Int64) (count : UInt64) :
    rwVerifyArea env.permit rw (s.allowFile file) file pos count =
      rwVerifyArea env rw s file pos count := by
  simp only [rwVerifyArea, State.allowFile_file]
  rfl

/-- The bodies side by side. They differ in two tests, and both pass on the right. -/
theorem vfsForcewrite_sim (file : Nat) (buf count : UInt64) (pos : Int64) :
    Comp.Sim (fun x y => x.2.2.fdTable = s.fdTable ∧ y = (x.1, x.2.1, x.2.2.allowFile file))
      (vfsForcewrite env s file buf count pos)
      (vfsWrite env.permit (s.allowFile file) file buf count pos) := by
  have hmode : ((s.allowFile file).file file).fMode &&& fmodeWrite ≠ 0 := by
    rw [State.allowFile_file]
    exact File.allow_fMode _
  have hfOp : ((s.allowFile file).file file).fOp = (s.file file).fOp := by
    rw [State.allowFile_file]
    rfl
  unfold vfsForcewrite vfsWrite
  rw [if_neg hmode, hfOp]
  cases (s.file file).fOp with
  | none => exact .pure ⟨rfl, rfl⟩
  | some fOp =>
    refine .ite Iff.rfl (fun _ => .pure ⟨rfl, rfl⟩) fun _ => ?_
    refine .ite Iff.rfl (fun _ => .pure ⟨rfl, rfl⟩) fun _ => ?_
    rw [rwVerifyArea_allowFile]
    refine .bind (.refl _) ?_
    rintro ⟨ret, w⟩ _ rfl
    refine .ite Iff.rfl (fun _ => ?_) fun _ => .pure ⟨rfl, rfl⟩
    have hhook : env.permit.securityFilePermission file mayWrite = 0 := rfl
    dsimp only
    rw [if_pos hhook]
    cases fOp.write with
    | some write =>
      refine .bind (.refl _) ?_
      rintro ⟨ret, pos, w⟩ _ rfl
      exact .pure ⟨s.wrote_fdTable file ret w, by rw [← s.allowFile_wrote file ret w]⟩
    | none =>
      refine .bind (.refl _) ?_
      rintro ⟨ret, pos, w⟩ _ rfl
      exact .pure ⟨s.wrote_fdTable file ret w, by rw [← s.allowFile_wrote file ret w]⟩

theorem sysForcewrite_sim (fd : UInt32) (buf count : UInt64) :
    Comp.Sim (fun x y => y = (x.1, x.2.allow fd)) (sysForcewrite env s fd buf count)
      (sysWrite env.permit (s.allow fd) fd buf count) := by
  cases hfd : s.fdTable fd with
  | none =>
    have hallow : s.allow fd = s := by rw [State.allow, hfd]
    unfold sysForcewrite sysWrite State.fgetLight
    rw [hallow, hfd]
    exact .pure (by rw [hallow])
  | some file =>
    have hallow : s.allow fd = s.allowFile file := by rw [State.allow, hfd]
    have hfd' : (s.allowFile file).fdTable fd = some file := hfd
    unfold sysForcewrite sysWrite State.fgetLight
    rw [hallow, hfd, hfd']
    dsimp only
    rw [State.allowFile_filePosRead]
    refine .bind (vfsForcewrite_sim env s file buf count _) ?_
    rintro ⟨ret, pos, t⟩ _ ⟨htable, rfl⟩
    refine .pure ?_
    have ht : (t.filePosWrite file pos).fdTable fd = some file := (congrFun htable fd).trans hfd
    rw [State.allowFile_filePosWrite, State.allow, ht]

end

/-- Forced writing is writing with the permission given: it returns when `sys_write` does, with the
same value and, but for the mode of the file, the same state. -/
theorem forcewrite_returns_iff (env : Env W) (s : State W) (fd : UInt32) (buf count : UInt64) :
    ((sysWrite env.permit (s.allow fd) fd buf count).Hangs ↔
      (sysForcewrite env s fd buf count).Hangs) ∧
    ∀ ret t', (sysWrite env.permit (s.allow fd) fd buf count).Returns (ret, t') ↔
      ∃ t, (sysForcewrite env s fd buf count).Returns (ret, t) ∧ t' = t.allow fd := by
  have hsim := sysForcewrite_sim env s fd buf count
  refine ⟨hsim.hangs_iff.symm, fun ret t' => ?_⟩
  rw [hsim.returns_iff]
  constructor
  · rintro ⟨⟨ret', t⟩, hret, heq⟩
    obtain ⟨rfl, rfl⟩ := Prod.mk.inj heq
    exact ⟨t, hret, rfl⟩
  · rintro ⟨t, hret, rfl⟩
    exact ⟨(ret, t), hret, rfl⟩

end Cs370.Vfs
