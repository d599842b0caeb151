import Mathlib.Logic.Function.Basic
import MagicKernel.FaultMachine

/-! The first half of `do_fork`: it takes references for the new process one after the other, and when
something fails it gives back those it has taken, through a ladder of labels. The last thing that can fail
is the `kmalloc` of the head of the list of stolen secrets.

A structure that processes may share has a reference count, which is 0 when the structure is not in use.
Which allocations and checks outside this file succeed comes with the call. `exit_mm` gives back the
reference that `copy_mm` took; the one to `mm_count` that it leaves to the lazy TLB is not modelled. -/

namespace MagicKernel.Fork

open FaultMachine

def EPERM : Int := 1

def EAGAIN : Int := 11

def ENOMEM : Int := 12

def EINVAL : Int := 22

def CLONE_VM : UInt32 := 0x00000100

def CLONE_FS : UInt32 := 0x00000200

def CLONE_FILES : UInt32 := 0x00000400

def CLONE_SIGHAND : UInt32 := 0x00000800

def CLONE_PID : UInt32 := 0x00001000

def CLONE_NEWNS : UInt32 := 0x00020000

abbrev TaskId := Nat

/-- A pointer to a structure, with 0 for `NULL`. -/
abbrev Ref := Nat

/-- The kinds of structures that processes share; `user` counts with its `__count`, and `mm` with `mm_users`. -/
inductive Kind where
  | user
  | files
  | fs
  | sig
  | mm
  | nameSpace
  deriving DecidableEq

/-- The part of `task_struct` that the acquisitions use. `execModule` is `exec_domain->module`, and `binfmtModule`
is `binfmt->module`; either is 0 if a pointer on the way is null. -/
structure Task where
  pid : Int32
  rlimNproc : UInt32
  execModule : Ref
  binfmtModule : Ref
  ref : Kind → Ref

structure State where
  count : Kind → Ref → Int32
  processes : Ref → Int32
  useCount : Ref → Int32
  task : TaskId → Task
  inUse : TaskId → Bool
  nrThreads : Int32
  maxThreads : Int32

inductive Fault where
  | nullPointer
  deriving DecidableEq, Repr

/-- What the code outside this file answers. -/
structure Outcomes where
  /-- `alloc_task_struct`. -/
  taskStruct : Option TaskId
  /-- `capable(CAP_SYS_ADMIN)` and `capable(CAP_SYS_RESOURCE)`. -/
  sysAdmin : Bool
  sysResource : Bool
  /-- The process number that `get_pid` finds, or 0. -/
  lastPid : Int32
  /-- What the allocator of a kind of structures yields. -/
  new : Kind → Ref
  /-- `expand_fdset` and `expand_fd_array`. -/
  fdError : Int
  /-- `pgd_alloc`, `init_new_context` and `dup_mmap`. -/
  pgd : Bool
  newContext : Int
  dupMmap : Int
  copyThread : Int32
  /-- The `kmalloc` of the list head. -/
  newHead : Ref

namespace State

def modTask (s : State) (p : TaskId) (f : Task → Task) : State :=
  { s with task := Function.update s.task p (f (s.task p)) }

def setRef (s : State) (p : TaskId) (k : Kind) (r : Ref) : State :=
  s.modTask p fun t => { t with ref := Function.update t.ref k r }

def atomicSet (s : State) (k : Kind) (r : Ref) (n : Int32) : State :=
  { s with count := Function.update s.count k (Function.update (s.count k) r n) }

def atomicInc (s : State) (k : Kind) (r : Ref) : State := s.atomicSet k r (s.count k r + 1)

/-- `atomic_dec`, or `atomic_dec_and_test` and the release of a structure whose count has come to 0. -/
def atomicDec (s : State) (k : Kind) (r : Ref) : State := s.atomicSet k r (s.count k r - 1)

/-- A structure goes back to its allocator. -/
def kmemCacheFree (s : State) (k : Kind) (r : Ref) : State := s.atomicSet k r 0

/-- `if (m) __MOD_INC_USE_COUNT(m);` -/
def modIncUseCount (s : State) (m : Ref) : State :=
  { s with useCount := if m = 0 then s.useCount else Function.update s.useCount m (s.useCount m + 1) }

/-- `if (m) __MOD_DEC_USE_COUNT(m);` -/
def modDecUseCount (s : State) (m : Ref) : State :=
  { s with useCount := if m = 0 then s.useCount else Function.update s.useCount m (s.useCount m - 1) }

end State

/-! ### Copying -/

def getPid (cloneFlags : UInt32) (current : TaskId) (o : Outcomes) (s : State) : Int32 :=
  if cloneFlags &&& CLONE_PID ≠ 0 then (s.task current).pid else o.lastPid

def copyFiles (cloneFlags : UInt32) (current p : TaskId) (o : Outcomes) (s : State) : Int × State :=
  let oldf := (s.task current).ref .files
  if oldf = 0 then (0, s)
  else if cloneFlags &&& CLONE_FILES ≠ 0 then (0, s.atomicInc .files oldf)
  else
    let s := s.setRef p .files 0
    let newf := o.new .files
    if newf = 0 then (-ENOMEM, s)
    else
      let s := s.atomicSet .files newf 1
      if o.fdError ≠ 0 then (o.fdError, s.kmemCacheFree .files newf)
      else (0, s.setRef p .files newf)

/-- A reference to the parent's structure, which must be there, or a structure of the child's own. -/
def shareOrCopy (k : Kind) (shared : Bool) (current p : TaskId) (o : Outcomes) (s : State) :
    Except Fault (Int × State) :=
  let old := (s.task current).ref k
  if shared then if old = 0 then .error .nullPointer else .ok (0, s.atomicInc k old)
  else
    let s := s.setRef p k (o.new k)
    if o.new k = 0 then .ok (-1, s)
    else if old = 0 then .error .nullPointer
    else .ok (0, s.atomicSet k (o.new k) 1)

def copyFs (cloneFlags : UInt32) (current p : TaskId) (o : Outcomes) (s : State) : Except Fault (Int × State) :=
  shareOrCopy .fs (cloneFlags &&& CLONE_FS ≠ 0) current p o s

def copySighand (cloneFlags : UInt32) (current p : TaskId) (o : Outcomes) (s : State) : Except Fault (Int × State) :=
  shareOrCopy .sig (cloneFlags &&& CLONE_SIGHAND ≠ 0) current p o s

def copyMm (cloneFlags : UInt32) (current p : TaskId) (o : Outcomes) (s : State) : Int × State :=
  let oldmm := (s.task current).ref .mm
  let s := s.setRef p .mm 0
  if oldmm = 0 then (0, s)
  else if cloneFlags &&& CLONE_VM ≠ 0 then (0, (s.atomicInc .mm oldmm).setRef p .mm oldmm)
  else
    let mm := o.new .mm
    if mm = 0 then (-ENOMEM, s)
    else
      let s := s.atomicSet .mm mm 1
      if o.pgd = false then (-ENOMEM, s.kmemCacheFree .mm mm)
      else if o.newContext ≠ 0 then (-ENOMEM, s.atomicDec .mm mm)
      else if o.dupMmap ≠ 0 then (o.dupMmap, s.atomicDec .mm mm)
      else (0, s.setRef p .mm mm)

def copyNamespace (cloneFlags : UInt32) (p : TaskId) (o : Outcomes) (s : State) : Int × State :=
  let old := (s.task p).ref .nameSpace
  if old = 0 then (0, s)
  else
    let s := s.atomicInc .nameSpace old
    if cloneFlags &&& CLONE_NEWNS = 0 then (0, s)
    else if o.sysAdmin = false then (-EPERM, s.atomicDec .nameSpace old)
    else
      let newNs := o.new .nameSpace
      if newNs = 0 then (-ENOMEM, s.atomicDec .nameSpace old)
      else
        let s := (s.atomicSet .nameSpace newNs 1).setRef p .nameSpace newNs
        (0, s.atomicDec .nameSpace old)

/-! ### The ladder -/

/-- The reference of `p` to its structure of a kind is dropped, if there is one. -/
def exitRef (k : Kind) (p : TaskId) (s : State) : State :=
  let r := (s.task p).ref k
  if r = 0 then s else (s.setRef p k 0).atomicDec k r

def exitFiles (p : TaskId) (s : State) : State := exitRef .files p s

def exitFs (p : TaskId) (s : State) : State := exitRef .fs p s

def exitSighand (p : TaskId) (s : State) : State := exitRef .sig p s

def exitMm (p : TaskId) (s : State) : State := exitRef .mm p s

def exitNamespace (p : TaskId) (s : State) : State := exitRef .nameSpace p s

def freeUid (up : Ref) (s : State) : State := if up = 0 then s else s.atomicDec .user up

def badForkFree (p : TaskId) (s : State) : State := { s with inUse := Function.update s.inUse p false }

def badForkCleanupCount (p : TaskId) (s : State) : State :=
  let user := (s.task p).ref .user
  let s := { s with processes := Function.update s.processes user (s.processes user - 1) }
  badForkFree p (freeUid user s)

def badForkCleanup (p : TaskId) (s : State) : State :=
  let s := s.modDecUseCount (s.task p).execModule
  badForkCleanupCount p (s.modDecUseCount (s.task p).binfmtModule)

def badForkCleanupFiles (p : TaskId) (s : State) : State := badForkCleanup p (exitFiles p s)

def badForkCleanupFs (p : TaskId) (s : State) : State := badForkCleanupFiles p (exitFs p s)

def badForkCleanupSighand (p : TaskId) (s : State) : State := badForkCleanupFs p (exitSighand p s)

def badForkCleanupMm (p : TaskId) (s : State) : State := badForkCleanupSighand p (exitMm p s)

def badForkCleanupNamespace (p : TaskId) (s : State) : State := badForkCleanupMm p (exitNamespace p s)

/-! ### Forking -/

/-- From `copy_mm` on. -/
def copySpace (cloneFlags : UInt32) (current p : TaskId) (o : Outcomes) (s : State) : Int × State :=
  let (error, s) := copyMm cloneFlags current p o s
  if error ≠ 0 then (-ENOMEM, badForkCleanupSighand p s)
  else
    let (error, s) := copyNamespace cloneFlags p o s
    if error ≠ 0 then (-ENOMEM, badForkCleanupMm p s)
    else if o.copyThread ≠ 0 then (o.copyThread.toInt, badForkCleanupNamespace p s)
    else if o.newHead = 0 then (-ENOMEM, s)
    else ((s.task p).pid.toInt, { s with nrThreads := s.nrThreads + 1 })

/-- From `copy_files` on. -/
def copyProcess (cloneFlags : UInt32) (current p : TaskId) (o : Outcomes) (s : State) :
    Except Fault (Int × State) := do
  let (error, s) := copyFiles cloneFlags current p o s
  if error ≠ 0 then return (-ENOMEM, badForkCleanup p s)
  let (error, s) ← copyFs cloneFlags current p o s
  if error ≠ 0 then return (-ENOMEM, badForkCleanupFiles p s)
  let (error, s) ← copySighand cloneFlags current p o s
  if error ≠ 0 then return (-ENOMEM, badForkCleanupFs p s)
  return copySpace cloneFlags current p o s

/-- The references to the user, and to the modules of the execution domain and the binary format. -/
def countProcess (p : TaskId) (s : State) : State :=
  let user := (s.task p).ref .user
  let s := s.atomicInc .user user
  { s with processes := Function.update s.processes user (s.processes user + 1) }

def getModules (p : TaskId) (s : State) : State :=
  let s := s.modIncUseCount (s.task p).execModule
  s.modIncUseCount (s.task p).binfmtModule

/-- From the check of the process limit on. -/
def fillTask (cloneFlags : UInt32) (current p : TaskId) (o : Outcomes) (s : State) : Except Fault (Int × State) :=
  let user := (s.task p).ref .user
  if user = 0 then .error .nullPointer
  -- The comparison is between an `int` and an `unsigned long`.
  else if (s.processes user).toUInt32 ≥ (s.task p).rlimNproc ∧ o.sysAdmin = false ∧ o.sysResource = false then
    .ok (-EAGAIN, badForkFree p s)
  else
    let s := countProcess p s
    if s.nrThreads ≥ s.maxThreads then .ok (-EAGAIN, badForkCleanupCount p s)
    else
      let s := getModules p s
      let s := s.modTask p fun t => { t with pid := getPid cloneFlags current o s }
      if (s.task p).pid = 0 ∧ (s.task current).pid ≠ 0 then .ok (-EAGAIN, badForkCleanup p s)
      else copyProcess cloneFlags current p o s

def doFork (cloneFlags : UInt32) (current : TaskId) (o : Outcomes) (s : State) : Except Fault (Int × State) :=
  if cloneFlags &&& (CLONE_NEWNS ||| CLONE_FS) = CLONE_NEWNS ||| CLONE_FS then .ok (-EINVAL, s)
  else if cloneFlags &&& CLONE_PID ≠ 0 ∧ (s.task current).pid ≠ 0 then .ok (-EPERM, s)
  else match o.taskStruct with
    | none => .ok (-ENOMEM, s)
    | some p =>
      let s := { s with inUse := Function.update s.inUse p true }
      fillTask cloneFlags current p o (s.modTask p fun _ => s.task current)

/-- The structures of the caller are in use; the allocators yield structures that are not, or nothing. Process
numbers are not negative. -/
structure Enabled (current : TaskId) (o : Outcomes) (s : State) : Prop where
  running : s.inUse current = true
  held : ∀ k, (s.task current).ref k ≠ 0 → s.count k ((s.task current).ref k) ≠ 0
  taskStruct : ∀ p ∈ o.taskStruct, s.inUse p = false
  lastPid : 0 ≤ o.lastPid
  new : ∀ k, o.new k ≠ 0 → s.count k (o.new k) = 0

end MagicKernel.Fork
