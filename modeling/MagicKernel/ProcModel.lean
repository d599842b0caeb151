import MagicKernel.FaultMachine
import MagicKernel.SchedState

/-! The life of processes: `get_pid`, the links that `do_fork` makes between a task, its parents, its siblings
and its thread group, `exit_notify`, `sys_wait4` and `release_task`, and the calls that change these links or
the numbers `get_pid` looks at: `sys_setpgid`, `sys_setsid`, `execve` and the attaching of a tracer.

Memory is kept field by field: a field of `task_struct` is a function from the addresses of the structures.
Every access through a pointer checks that the structure is allocated; one that has been freed is a fault.
System calls run one at a time, but a task can lose the processor between the start of `do_exit` and
`exit_notify`, and it sleeps in the loop of `sys_wait4`. Two places of the source at which a task may sleep as
well are taken to be passed at once: the copies of `sys_wait4` to user memory, between its search and
`release_task`, and what `do_fork` allocates between its test of `nr_threads` and `hash_pid`. So nothing is said
of two calls that meet there. -/

namespace MagicKernel.Proc

open FaultMachine
open Sched (TaskState)
open Function (update)

/-! ### Constants -/

def pidMax : Nat := 0x8000

def SIGHUP : Nat := 1

def SIGKILL : Nat := 9

def SIGCHLD : Nat := 17

def SIGCONT : Nat := 18

def SIGSTOP : Nat := 19

/-- `_NSIG`. -/
def nsig : Nat := 64

def EPERM : Int := 1

def ESRCH : Int := 3

def ECHILD : Int := 10

def EAGAIN : Int := 11

def ENOMEM : Int := 12

def EACCES : Int := 13

def EFAULT : Int := 14

def EINVAL : Int := 22

def EIO : Int := 5

def ERESTARTSYS : Int := 512

def CSIGNAL : UInt32 := 0x000000ff

def CLONE_FS : UInt32 := 0x00000200

def CLONE_SIGHAND : UInt32 := 0x00000800

def CLONE_PID : UInt32 := 0x00001000

def CLONE_PTRACE : UInt32 := 0x00002000

def CLONE_PARENT : UInt32 := 0x00008000

def CLONE_THREAD : UInt32 := 0x00010000

def CLONE_NEWNS : UInt32 := 0x00020000

def WNOHANG : UInt32 := 0x00000001

def WUNTRACED : UInt32 := 0x00000002

def WNOTHREAD : UInt32 := 0x20000000

def WALL : UInt32 := 0x40000000

def WCLONE : UInt32 := 0x80000000

/-! ### Task structures -/

abbrev TaskId := Nat

/-- `&init_task`, the idle task. -/
def initTask : TaskId := 0

/-- What a task that sleeps in `sys_wait4` has been called with. -/
structure WaitArgs where
  pid : Int
  options : UInt32
  deriving DecidableEq

inductive Fault where
  /-- An access to a task structure that is not allocated. -/
  | freed (p : TaskId)
  /-- A loop over a list never comes to its end. -/
  | endless
  /-- `BUG()` in `release_task`. -/
  | releasedCurrent
  /-- `panic("Attempted to kill init!")`, or the idle task. -/
  | killedInit
  deriving DecidableEq, Repr

/-- All allocated structures lie below `top`. `sighand` says which tasks have signal handlers. `waiting` has the
arguments of the `sys_wait4` in which a task has its entry in its own `wait_chldexit`. -/
@[ext]
structure State where
  lastPid : Nat
  nextSafe : Nat
  nrThreads : Int
  maxThreads : Int
  childReaper : TaskId
  allocated : TaskId → Bool
  top : Nat
  state : TaskId → TaskState
  exiting : TaskId → Bool
  sigpending : TaskId → Bool
  sighand : TaskId → Bool
  ptraced : TaskId → Bool
  nextTask : TaskId → TaskId
  prevTask : TaskId → TaskId
  mm : TaskId → Bool
  exitCode : TaskId → Nat
  exitSignal : TaskId → Nat
  pdeathSignal : TaskId → Nat
  didExec : TaskId → Bool
  pid : TaskId → Nat
  pgrp : TaskId → Nat
  session : TaskId → Nat
  tgid : TaskId → Nat
  leader : TaskId → Bool
  opptr : TaskId → TaskId
  pptr : TaskId → TaskId
  cptr : TaskId → Option TaskId
  ysptr : TaskId → Option TaskId
  osptr : TaskId → Option TaskId
  threadNext : TaskId → TaskId
  threadPrev : TaskId → TaskId
  parentExecId : TaskId → UInt32
  selfExecId : TaskId → UInt32
  waiting : TaskId → Option WaitArgs
  pidhash : Nat → List TaskId

def State.deref (s : State) (p : TaskId) : Except Fault Unit :=
  if s.allocated p = true then .ok () else .error (.freed p)

/-- The tasks met from `p` on along the pointer `next`, before `stop`. -/
def State.walk (s : State) (next : TaskId → TaskId) (stop : TaskId) : Nat → TaskId → Except Fault (List TaskId)
  | 0, p => if p = stop then .ok [] else .error .endless
  | fuel + 1, p =>
    if p = stop then .ok []
    else do
      s.deref p
      return p :: (← s.walk next stop fuel (next p))

/-- `for_each_task`. -/
def State.forEachTask (s : State) : Except Fault (List TaskId) :=
  s.walk s.nextTask initTask s.top (s.nextTask initTask)

/-- The other threads of the group of `p`, in the order of `next_thread`. -/
def State.otherThreads (s : State) (p : TaskId) : Except Fault (List TaskId) :=
  s.walk s.threadNext p s.top (s.threadNext p)

/-! ### The links of a task -/

/-- `REMOVE_LINKS`. -/
def removeLinks (p : TaskId) (s : State) : Except Fault State := do
  s.deref p
  s.deref (s.nextTask p)
  let s := { s with prevTask := update s.prevTask (s.nextTask p) (s.prevTask p) }
  s.deref (s.prevTask p)
  let s := { s with nextTask := update s.nextTask (s.prevTask p) (s.nextTask p) }
  let s ← match s.osptr p with
    | some o => do
      s.deref o
      pure { s with ysptr := update s.ysptr o (s.ysptr p) }
    | none => .ok s
  match s.ysptr p with
  | some y => do
    s.deref y
    return { s with osptr := update s.osptr y (s.osptr p) }
  | none => do
    s.deref (s.pptr p)
    return { s with cptr := update s.cptr (s.pptr p) (s.osptr p) }

/-- The end of `SET_LINKS`, and of every turn of the loop in `exit_notify`: `p` becomes the youngest child of
its parent. -/
def linkChild (p : TaskId) (s : State) : Except Fault State := do
  s.deref (s.pptr p)
  let s := { s with osptr := update s.osptr p (s.cptr (s.pptr p)) }
  let s ← match s.osptr p with
    | some o => do
      s.deref o
      pure { s with ysptr := update s.ysptr o (some p) }
    | none => .ok s
  return { s with cptr := update s.cptr (s.pptr p) (some p) }

/-- `SET_LINKS`. -/
def setLinks (p : TaskId) (s : State) : Except Fault State := do
  s.deref p
  s.deref initTask
  let s := { s with nextTask := update s.nextTask p initTask }
  let s := { s with prevTask := update s.prevTask p (s.prevTask initTask) }
  s.deref (s.prevTask initTask)
  let s := { s with nextTask := update s.nextTask (s.prevTask initTask) p }
  let s := { s with prevTask := update s.prevTask initTask p }
  let s := { s with ysptr := update s.ysptr p none }
  linkChild p s

/-- `REMOVE_LINKS`, a new parent, and `SET_LINKS`. -/
def reparent (p q : TaskId) (s : State) : Except Fault State := do
  let s ← removeLinks p s
  setLinks p { s with pptr := update s.pptr p q }

/-- `list_add(&p->thread_group, &q->thread_group)`. -/
def threadAdd (p q : TaskId) (s : State) : Except Fault State := do
  let next := s.threadNext q
  s.deref next
  let s := { s with threadPrev := update s.threadPrev next p }
  let s := { s with threadNext := update s.threadNext p next }
  let s := { s with threadPrev := update s.threadPrev p q }
  return { s with threadNext := update s.threadNext q p }

/-- `list_del(&p->thread_group)`. -/
def threadDel (p : TaskId) (s : State) : Except Fault State := do
  let prev := s.threadPrev p
  let next := s.threadNext p
  s.deref next
  let s := { s with threadPrev := update s.threadPrev next prev }
  s.deref prev
  return { s with threadNext := update s.threadNext prev next }

def pidHashfn (pid : Nat) : Nat := ((pid >>> 8) ^^^ pid) &&& 1023

def hashPid (p : TaskId) (s : State) : State :=
  let k := pidHashfn (s.pid p)
  { s with pidhash := update s.pidhash k (p :: s.pidhash k) }

def unhashPid (p : TaskId) (s : State) : State :=
  let k := pidHashfn (s.pid p)
  { s with pidhash := update s.pidhash k ((s.pidhash k).filter (· ≠ p)) }

/-- `find_task_by_pid`; no task has a negative number. -/
def findTaskByPid (s : State) (pid : Int) : Option TaskId :=
  (s.pidhash (pidHashfn pid.toNat)).find? fun p => (s.pid p : Int) = pid

/-! ### Signals -/

/-- What the rest of the kernel says while a call runs: `takes p sig` if `p` neither blocks nor ignores the
signal, `mayKill p` if `bad_signal` lets the caller send a signal to `p`, `capKill` for `capable(CAP_KILL)`,
`mayTrace` for the checks of `ptrace_attach` on owners and capabilities, `nocldstop p` if `p` has set
`SA_NOCLDSTOP`, and `copied` if the copies to user memory succeed; they do
not sleep. -/
structure Env where
  takes : TaskId → Nat → Bool
  mayKill : TaskId → Bool
  capKill : Bool
  mayTrace : Bool
  nocldstop : TaskId → Bool
  copied : Bool

def wakeUpProcess (p : TaskId) (s : State) : State := { s with state := update s.state p .running }

/-- `signal_wake_up`. -/
def signalWakeUp (p : TaskId) (s : State) : State :=
  let s := { s with sigpending := update s.sigpending p true }
  if s.state p = .interruptible then wakeUpProcess p s else s

/-- `handle_stop_signal`, as far as it concerns the state of the task. -/
def handleStopSignal (sig : Nat) (p : TaskId) (s : State) : State :=
  if sig = SIGKILL ∨ sig = SIGCONT then
    let s := if s.state p = .stopped then wakeUpProcess p s else s
    { s with exitCode := update s.exitCode p 0 }
  else s

/-- `send_sig_info`, after the check of permissions. -/
def sendSig (env : Env) (sig : Nat) (p : TaskId) (s : State) : State :=
  if sig = 0 ∨ nsig < sig ∨ s.sighand p = false then s
  else
    let s := handleStopSignal sig p s
    if env.takes p sig then signalWakeUp p s else s

/-- `wake_up_interruptible(&p->wait_chldexit)`; the only entry in that queue is the one of `p` itself. -/
def wakeChldexit (s : State) (p : TaskId) : State :=
  if (s.waiting p).isSome ∧ s.state p = .interruptible then wakeUpProcess p s else s

def wakeUpParent (q : TaskId) (s : State) : Except Fault State := do
  s.deref q
  let others ← s.otherThreads q
  return (q :: others).foldl wakeChldexit s

def doNotifyParent (env : Env) (p : TaskId) (sig : Nat) (s : State) : Except Fault State := do
  s.deref (s.pptr p)
  wakeUpParent (s.pptr p) (sendSig env sig (s.pptr p) s)

/-- `kill_pg`, which signals the leaders of the thread groups. -/
def killPg (env : Env) (pgrp sig : Nat) (s : State) : Except Fault State := do
  let tasks ← s.forEachTask
  if pgrp = 0 then return s
  else return (tasks.filter fun p => s.pgrp p = pgrp ∧ s.pid p = s.tgid p).foldl (fun s p => sendSig env sig p s) s

/-! ### `get_pid` -/

/-- The numbers of a task that `get_pid` does not hand out. -/
def State.ids (s : State) (p : TaskId) : List Nat := [s.pid p, s.pgrp p, s.tgid p, s.session p]

def lowerSafe (last safe id : Nat) : Nat := if last < id ∧ id < safe then id else safe

/-- The loop over all tasks, up to the first that has the number `last`; whether there is none, and
`next_safe`. -/
def scanPids (s : State) (last : Nat) : List TaskId → Nat → Bool × Nat
  | [], safe => (true, safe)
  | p :: ps, safe =>
    if last ∈ s.ids p then (false, safe) else scanPids s last ps ((s.ids p).foldl (lowerSafe last) safe)

/-- `if(last_pid & 0xffff8000) last_pid = 300;` -/
def wrapPid (last : Nat) : Nat := if last &&& 0xffff8000 ≠ 0 then 300 else last

/-- From the label `repeat` on: whether a number has been found, `last_pid` and `next_safe`. -/
def searchPid (s : State) (tasks : List TaskId) (beginPid : Nat) : Nat → Nat → Nat → Except Fault (Bool × Nat × Nat)
  | 0, _, _ => .error .endless
  | fuel + 1, last, safe =>
    match scanPids s last tasks safe with
    | (true, safe) => .ok (true, last, safe)
    | (false, safe) =>
      let last := last + 1
      let next := if safe ≤ last then (wrapPid last, pidMax) else (last, safe)
      if next.1 = beginPid then .ok (false, next) else searchPid s tasks beginPid fuel next.1 next.2

/-- From the label `inside` on. -/
def rescanPids (last beginPid : Nat) (s : State) : Except Fault (Nat × State) := do
  let tasks ← s.forEachTask
  let r ← searchPid s tasks beginPid (2 * pidMax) last pidMax
  return (if r.1 then r.2.1 else 0, { s with lastPid := r.2.1, nextSafe := r.2.2 })

/-- `get_pid`; 0 if there are no more numbers. -/
def getPid (current : TaskId) (flags : UInt32) (s : State) : Except Fault (Nat × State) :=
  if flags &&& CLONE_PID ≠ 0 then .ok (s.pid current, s)
  else
    let last := s.lastPid + 1
    if last &&& 0xffff8000 ≠ 0 then rescanPids 300 s.lastPid s
    else if s.nextSafe ≤ last then rescanPids last s.lastPid s
    else .ok (last, { s with lastPid := last })

/-! ### `do_fork` -/

/-- How the parts of a `do_fork` end that are not modelled here. -/
inductive ForkOutcome where
  /-- There is no memory for the task structure. -/
  | noStruct
  /-- The process limit of the user is reached. -/
  | limit
  /-- One of the `copy_*` helpers fails. -/
  | copyFails
  /-- There is no memory for the head of the list of secrets. -/
  | noHead
  | done
  deriving DecidableEq

/-- `alloc_task_struct()` and the copy `*p = *current`. -/
def copyTask (current p : TaskId) (s : State) : State :=
  { s with
    allocated := update s.allocated p true
    top := max s.top (p + 1)
    state := update s.state p (s.state current)
    exiting := update s.exiting p (s.exiting current)
    sigpending := update s.sigpending p (s.sigpending current)
    sighand := update s.sighand p (s.sighand current)
    ptraced := update s.ptraced p (s.ptraced current)
    nextTask := update s.nextTask p (s.nextTask current)
    prevTask := update s.prevTask p (s.prevTask current)
    mm := update s.mm p (s.mm current)
    exitCode := update s.exitCode p (s.exitCode current)
    exitSignal := update s.exitSignal p (s.exitSignal current)
    pdeathSignal := update s.pdeathSignal p (s.pdeathSignal current)
    didExec := update s.didExec p (s.didExec current)
    pid := update s.pid p (s.pid current)
    pgrp := update s.pgrp p (s.pgrp current)
    session := update s.session p (s.session current)
    tgid := update s.tgid p (s.tgid current)
    leader := update s.leader p (s.leader current)
    opptr := update s.opptr p (s.opptr current)
    pptr := update s.pptr p (s.pptr current)
    cptr := update s.cptr p (s.cptr current)
    ysptr := update s.ysptr p (s.ysptr current)
    osptr := update s.osptr p (s.osptr current)
    threadNext := update s.threadNext p (s.threadNext current)
    threadPrev := update s.threadPrev p (s.threadPrev current)
    parentExecId := update s.parentExecId p (s.parentExecId current)
    selfExecId := update s.selfExecId p (s.selfExecId current)
    waiting := update s.waiting p (s.waiting current) }

/-- The fields of the new structure that are set before it is linked; its number comes from `get_pid`. -/
def prepareTask (p : TaskId) (flags : UInt32) (s : State) : State :=
  { s with
    didExec := update s.didExec p false
    state := update s.state p .uninterruptible
    ptraced := if flags &&& CLONE_PTRACE = 0 then update s.ptraced p false else s.ptraced
    cptr := update s.cptr p none
    waiting := update s.waiting p none
    sigpending := update s.sigpending p false
    sighand := if flags &&& CLONE_SIGHAND = 0 then update s.sighand p true else s.sighand
    leader := update s.leader p false
    parentExecId := update s.parentExecId p (s.selfExecId p)
    exitSignal := update s.exitSignal p (flags &&& CSIGNAL).toNat
    pdeathSignal := update s.pdeathSignal p 0
    threadNext := update s.threadNext p p
    threadPrev := update s.threadPrev p p }

/-- The parents of the new task; `CLONE_PARENT` re-uses the old parent. -/
def placeTask (current p : TaskId) (flags : UInt32) (s : State) : State :=
  let s := { s with tgid := update s.tgid p (s.pid p) }
  let s := { s with opptr := update s.opptr p (s.opptr current), pptr := update s.pptr p (s.pptr current) }
  if flags &&& CLONE_PARENT = 0 then
    let s := { s with opptr := update s.opptr p current }
    if s.ptraced p = false then { s with pptr := update s.pptr p current } else s
  else s

def joinGroup (current p : TaskId) (flags : UInt32) (s : State) : Except Fault State :=
  if flags &&& CLONE_THREAD ≠ 0 then threadAdd p current { s with tgid := update s.tgid p (s.tgid current) }
  else .ok s

/-- The part of `do_fork` under `tasklist_lock`. -/
def linkTask (current p : TaskId) (flags : UInt32) (s : State) : Except Fault State := do
  let s ← joinGroup current p flags (placeTask current p flags s)
  let s ← setLinks p s
  let s := hashPid p s
  return { s with nrThreads := s.nrThreads + 1 }

/-- `do_fork` by `current`, with the structure `p`; no other `do_fork` runs while it sleeps in an allocation. -/
def doFork (env : Env) (current p : TaskId) (flags : UInt32) (outcome : ForkOutcome) (s : State) :
    Except Fault (Int × State) :=
  if flags &&& (CLONE_NEWNS ||| CLONE_FS) = CLONE_NEWNS ||| CLONE_FS then .ok (-EINVAL, s)
  else if flags &&& CLONE_PID ≠ 0 ∧ s.pid current ≠ 0 then .ok (-EPERM, s)
  else if outcome = .noStruct then .ok (-ENOMEM, s)
  else if outcome = .limit ∨ s.maxThreads ≤ s.nrThreads then .ok (-EAGAIN, s)
  else do
    let (pid, s) ← getPid current flags s
    if pid = 0 ∧ s.pid current ≠ 0 then return (-EAGAIN, s)
    else if outcome = .copyFails then return (-ENOMEM, s)
    else
      let s := copyTask current p s
      let s := prepareTask p flags { s with pid := update s.pid p pid }
      -- The structure is neither linked nor freed.
      if outcome = .noHead then return (-ENOMEM, s)
      else
        let s ← linkTask current p flags s
        let s := if s.ptraced p then sendSig env SIGSTOP p s else s
        return (pid, wakeUpProcess p s)

/-! ### Exit -/

/-- The first thread met after `p` in its group that is not exiting, or else `father`. -/
def State.aliveThread (s : State) (father : TaskId) : Nat → TaskId → Except Fault TaskId
  | 0, _ => .error .endless
  | fuel + 1, p => do
    s.deref (s.threadNext p)
    if s.exiting (s.threadNext p) = false ∨ s.threadNext p = father then return s.threadNext p
    else s.aliveThread father fuel (s.threadNext p)

/-- The body of the loop of `forget_original_parent`. -/
def adopt (env : Env) (father reaper : TaskId) (s : State) (p : TaskId) : State :=
  if s.opptr p = father then
    let s := { s with
      exitSignal := update s.exitSignal p SIGCHLD
      selfExecId := update s.selfExecId p (s.selfExecId p + 1)
      opptr := update s.opptr p (if p = reaper then s.childReaper else reaper) }
    if s.pdeathSignal p ≠ 0 ∧ env.mayKill p then sendSig env (s.pdeathSignal p) p s else s
  else s

def forgetOriginalParent (env : Env) (father : TaskId) (s : State) : Except Fault State := do
  let next ← s.aliveThread father (s.top + 1) father
  let reaper := if next = father then s.childReaper else next
  let tasks ← s.forEachTask
  return tasks.foldl (adopt env father reaper) s

/-- The loop of `will_become_orphaned_pgrp`. -/
def State.isolated (s : State) (pgrp : Nat) (ignored : Option TaskId) : List TaskId → Except Fault Bool
  | [] => .ok true
  | p :: ps =>
    if some p = ignored ∨ s.pgrp p ≠ pgrp ∨ s.state p = .zombie then s.isolated pgrp ignored ps
    else do
      s.deref (s.pptr p)
      if s.pid (s.pptr p) ≠ 1 ∧ s.pgrp (s.pptr p) ≠ pgrp ∧ s.session (s.pptr p) = s.session p then return false
      else s.isolated pgrp ignored ps

/-- `will_become_orphaned_pgrp`, and `is_orphaned_pgrp` where no task is ignored. -/
def willBecomeOrphanedPgrp (pgrp : Nat) (ignored : Option TaskId) (s : State) : Except Fault Bool := do
  let tasks ← s.forEachTask
  s.isolated pgrp ignored tasks

def hasStoppedJobs (pgrp : Nat) (s : State) : Except Fault Bool := do
  let tasks ← s.forEachTask
  return tasks.any fun p => s.pgrp p = pgrp ∧ s.state p = .stopped

/-- A process group that is orphaned and has stopped jobs is sent `SIGHUP` and `SIGCONT`. -/
def hangUp (env : Env) (pgrp : Nat) (ignored : Option TaskId) (s : State) : Except Fault State := do
  if ← willBecomeOrphanedPgrp pgrp ignored s then
    if ← hasStoppedJobs pgrp s then
      let s ← killPg env pgrp SIGHUP s
      killPg env pgrp SIGCONT s
    else return s
  else return s

/-- What the loop of `exit_notify` does to the child `p`. -/
def bequeath (env : Env) (current p : TaskId) (s : State) : Except Fault State := do
  s.deref p
  let s := { s with
    cptr := update s.cptr current (s.osptr p)
    ysptr := update s.ysptr p none
    ptraced := update s.ptraced p false
    pptr := update s.pptr p (s.opptr p) }
  let s ← linkChild p s
  let s ← if s.state p = .zombie then doNotifyParent env p (s.exitSignal p) s else .ok s
  if s.pgrp p ≠ s.pgrp current ∧ s.session p = s.session current then hangUp env (s.pgrp p) none s else return s

/-- The loop of `exit_notify`. -/
def bequeathAll (env : Env) (current : TaskId) : Nat → State → Except Fault State
  | 0, s =>
    match s.cptr current with
    | some _ => .error .endless
    | none => .ok s
  | fuel + 1, s =>
    match s.cptr current with
    | some p => do
      let s ← bequeath env current p s
      bequeathAll env current fuel s
    | none => .ok s

/-- No other signal than `SIGCHLD` goes to a parent `t` in another security domain. -/
def checkExitSignal (env : Env) (current t : TaskId) (s : State) : State :=
  if s.exitSignal current ≠ SIGCHLD ∧
      (s.parentExecId current ≠ s.selfExecId t ∨ s.selfExecId current ≠ s.parentExecId current) ∧
      env.capKill = false then
    { s with exitSignal := update s.exitSignal current SIGCHLD }
  else s

/-- The end of `do_exit`, from `exit_sighand` on; the rest is `exit_notify`. -/
def exitNotify (env : Env) (current : TaskId) (code : Nat) (s : State) : Except Fault State := do
  let s := { s with
    sighand := update s.sighand current false
    sigpending := update s.sigpending current false
    exitCode := update s.exitCode current code }
  let s ← forgetOriginalParent env current s
  let t := s.pptr current
  s.deref t
  let s ←
    if s.pgrp t ≠ s.pgrp current ∧ s.session t = s.session current then hangUp env (s.pgrp current) (some current) s
    else .ok s
  let s := checkExitSignal env current t s
  let s := { s with state := update s.state current .zombie }
  let s ← doNotifyParent env current (s.exitSignal current) s
  bequeathAll env current s.top s

/-- The part of `do_exit` before `exit_notify`, in which the caller may sleep. -/
def doExit (current : TaskId) (s : State) : Except Fault State :=
  if s.pid current = 0 ∨ s.pid current = 1 then .error .killedInit
  else .ok { s with exiting := update s.exiting current true, mm := update s.mm current false }

def releaseTask (current p : TaskId) (s : State) : Except Fault State := do
  if p = current then throw .releasedCurrent
  let s := unhashPid p { s with nrThreads := s.nrThreads - 1 }
  let s ← removeLinks p s
  let s ← threadDel p s
  return { s with pid := update s.pid p 0, allocated := update s.allocated p false }

/-! ### `sys_wait4` -/

/-- Whether the call by `current` waits for its child `p`. -/
def eligible (s : State) (current : TaskId) (args : WaitArgs) (p : TaskId) : Bool :=
  (if 0 < args.pid then (s.pid p : Int) = args.pid
    else if args.pid = 0 then s.pgrp p = s.pgrp current
    else if args.pid ≠ -1 then (s.pgrp p : Int) = -args.pid
    else True) ∧
  (((s.exitSignal p ≠ SIGCHLD) ↔ (args.options &&& WCLONE ≠ 0)) ∨ args.options &&& WALL ≠ 0)

/-- Whether there is something to report of `p`. -/
def ready (s : State) (args : WaitArgs) (p : TaskId) : Bool :=
  match s.state p with
  | .stopped => s.exitCode p ≠ 0 ∧ (args.options &&& WUNTRACED ≠ 0 ∨ s.ptraced p = true)
  | .zombie => true
  | _ => false

/-- What the search of `sys_wait4` has come to: the child it stops at, or whether there is one to wait for. -/
inductive Search where
  | found (p : TaskId)
  | none (flag : Bool)
  deriving DecidableEq

/-- The children of one thread, from the one at `p` on. -/
def scanChildren (s : State) (current : TaskId) (args : WaitArgs) : Nat → Option TaskId → Bool → Except Fault Search
  | _, none, flag => .ok (.none flag)
  | 0, some _, _ => .error .endless
  | fuel + 1, some p, flag => do
    s.deref p
    if eligible s current args p then
      if ready s args p then return .found p else scanChildren s current args fuel (s.osptr p) true
    else scanChildren s current args fuel (s.osptr p) flag

/-- The threads of the group, from `tsk` on. -/
def scanThreads (s : State) (current : TaskId) (args : WaitArgs) : Nat → TaskId → Bool → Except Fault Search
  | 0, _, _ => .error .endless
  | fuel + 1, tsk, flag => do
    s.deref tsk
    match ← scanChildren s current args s.top (s.cptr tsk) flag with
    | .found p => return .found p
    | .none flag =>
      if args.options &&& WNOTHREAD ≠ 0 ∨ s.threadNext tsk = current then return .none flag
      else scanThreads s current args fuel (s.threadNext tsk) flag

/-- The value of a `sys_wait4`, and the status it writes to user memory. -/
abbrev Report := Int × Option Nat

/-- The report of the child `p`. -/
def reap (env : Env) (current p : TaskId) (s : State) : Except Fault (Report × State) :=
  if env.copied = false then .ok ((-EFAULT, none), s)
  else
    let pid := s.pid p
    if s.state p = .stopped then
      .ok ((pid, some (s.exitCode p <<< 8 ||| 0x7f)), { s with exitCode := update s.exitCode p 0 })
    else
      let status := s.exitCode p
      if s.opptr p ≠ s.pptr p then do
        let s ← reparent p (s.opptr p) s
        let s ← doNotifyParent env p SIGCHLD s
        return ((pid, some status), s)
      else do
        let s ← releaseTask current p s
        return ((pid, some status), s)

/-- What follows the search of `sys_wait4`; nothing is reported when the caller goes to sleep. -/
def waitEnd (env : Env) (current : TaskId) (args : WaitArgs) (s : State) : Search → Except Fault (Option Report × State)
  | .found p => do
    let (r, s) ← reap env current p s
    return (some r, s)
  | .none true =>
    if args.options &&& WNOHANG ≠ 0 then .ok (some (0, none), s)
    else if s.sigpending current then .ok (some (-ERESTARTSYS, none), s)
    else .ok (none, s)
  | .none false => .ok (some (-ECHILD, none), s)

/-- The end of `sys_wait4`, unless its caller goes to sleep. -/
def leaveWait (current : TaskId) : Option Report × State → Option Report × State
  | (none, s) => (none, s)
  | (some r, s) =>
    (some r, { s with state := update s.state current .running, waiting := update s.waiting current none })

/-- `sys_wait4` from the label `repeat` on, to its end or to `schedule`. No other task runs during its copies, for
which it gives up `tasklist_lock`. -/
def waitPass (env : Env) (current : TaskId) (args : WaitArgs) (s : State) : Except Fault (Option Report × State) := do
  let s := { s with state := update s.state current .interruptible }
  let found ← scanThreads s current args (s.top + 1) current false
  let r ← waitEnd env current args s found
  return leaveWait current r

def sysWait4 (env : Env) (current : TaskId) (args : WaitArgs) (s : State) : Except Fault (Option Report × State) :=
  if args.options &&& ~~~(WNOHANG ||| WUNTRACED ||| WNOTHREAD ||| WCLONE ||| WALL) ≠ 0 then
    .ok (some (-EINVAL, none), s)
  else waitPass env current args { s with waiting := update s.waiting current (some args) }

/-! ### Process groups, sessions, `execve` and tracers -/

def sysSetpgid (current : TaskId) (pid pgid : Int) (s : State) : Except Fault (Int × State) :=
  let pid := if pid = 0 then (s.pid current : Int) else pid
  let pgid := if pgid = 0 then pid else pgid
  if pgid < 0 then .ok (-EINVAL, s)
  else match findTaskByPid s pid with
    | none => .ok (-ESRCH, s)
    | some p => do
      s.deref p
      let child := s.pptr p = current ∨ s.opptr p = current
      if child ∧ s.session p ≠ s.session current then return (-EPERM, s)
      else if child ∧ s.didExec p = true then return (-EACCES, s)
      else if ¬child ∧ p ≠ current then return (-ESRCH, s)
      else if s.leader p then return (-EPERM, s)
      else
        let tasks ← s.forEachTask
        if pgid ≠ pid ∧ ∀ t ∈ tasks, ¬((s.pgrp t : Int) = pgid ∧ s.session t = s.session current) then
          return (-EPERM, s)
        else return (0, { s with pgrp := update s.pgrp p pgid.toNat })

def sysSetsid (current : TaskId) (s : State) : Except Fault (Int × State) := do
  let tasks ← s.forEachTask
  if ∃ p ∈ tasks, s.pgrp p = s.pid current then return (-EPERM, s)
  else
    return (s.pid current, { s with
      leader := update s.leader current true
      session := update s.session current (s.pid current)
      pgrp := update s.pgrp current (s.pid current) })

/-- `de_thread`. -/
def deThread (current : TaskId) (s : State) : Except Fault State := do
  let s ← if s.threadNext current = current then .ok s
    else do
      let s ← threadDel current s
      pure { s with
        threadNext := update s.threadNext current current, threadPrev := update s.threadPrev current current }
  return { s with tgid := update s.tgid current (s.pid current) }

/-- A successful `execve`. -/
def doExecve (current : TaskId) (s : State) : Except Fault State := do
  let s ← deThread current { s with mm := update s.mm current true }
  return { s with
    selfExecId := update s.selfExecId current (s.selfExecId current + 1), didExec := update s.didExec current true }

inductive PtraceRequest where
  | traceme
  | attach
  | kill
  | cont (data : Nat)
  | detach (data : Nat)
  deriving DecidableEq

def ptraceAttach (env : Env) (current p : TaskId) (s : State) : Except Fault (Int × State) :=
  if s.pid p ≤ 1 ∨ p = current ∨ s.mm p = false ∨ env.mayTrace = false ∨ s.ptraced p = true then .ok (-EPERM, s)
  else do
    let s := { s with ptraced := update s.ptraced p true }
    let s ← if s.pptr p ≠ current then reparent p current s else .ok s
    return (0, sendSig env SIGSTOP p s)

def ptraceCheckAttach (current p : TaskId) (kill : Bool) (s : State) : Bool :=
  s.ptraced p = true ∧ s.pptr p = current ∧ (kill = true ∨ s.state p = .stopped)

def ptraceDetach (p : TaskId) (data : Nat) (s : State) : Except Fault (Int × State) :=
  if nsig < data then .ok (- EIO, s)
  else do
    let s := { s with ptraced := update s.ptraced p false, exitCode := update s.exitCode p data }
    let s ← reparent p (s.opptr p) s
    return (0, wakeUpProcess p s)

/-- `sys_ptrace`; the requests that look at the memory and the registers of the child are left out. -/
def sysPtrace (env : Env) (current : TaskId) (request : PtraceRequest) (pid : Int) (s : State) :
    Except Fault (Int × State) :=
  if request = .traceme then
    if s.ptraced current then .ok (-EPERM, s) else .ok (0, { s with ptraced := update s.ptraced current true })
  else match findTaskByPid s pid with
    | none => .ok (-ESRCH, s)
    | some p =>
      if pid = 1 then .ok (-EPERM, s)
      else match request with
        | .traceme => .ok (0, s)
        | .attach => ptraceAttach env current p s
        | .kill =>
          if ptraceCheckAttach current p true s = false then .ok (-ESRCH, s)
          else if s.state p = .zombie then .ok (0, s)
          else .ok (0, wakeUpProcess p { s with exitCode := update s.exitCode p SIGKILL })
        | .cont data =>
          if ptraceCheckAttach current p false s = false then .ok (-ESRCH, s)
          else if nsig < data then .ok (- EIO, s)
          else .ok (0, wakeUpProcess p { s with exitCode := update s.exitCode p data })
        | .detach data =>
          if ptraceCheckAttach current p false s = false then .ok (-ESRCH, s) else ptraceDetach p data s

/-- `reparent_to_init`. -/
def reparentToInit (current : TaskId) (s : State) : Except Fault State := do
  let s ← removeLinks current s
  let s ← setLinks current
    { s with pptr := update s.pptr current s.childReaper, opptr := update s.opptr current s.childReaper }
  return { s with
    exitSignal := update s.exitSignal current SIGCHLD, ptraced := update s.ptraced current false }

/-- `daemonize`. -/
def daemonize (current : TaskId) (s : State) : State :=
  { s with
    mm := update s.mm current false, session := update s.session current 1, pgrp := update s.pgrp current 1 }

/-- `do_signal` stops its caller on the signal `sig`. -/
def stopSelf (env : Env) (current : TaskId) (sig : Nat) (s : State) : Except Fault State := do
  let s := { s with state := update s.state current .stopped, exitCode := update s.exitCode current sig }
  if s.ptraced current then doNotifyParent env current SIGCHLD s
  else do
    s.deref (s.pptr current)
    if s.sighand (s.pptr current) = true ∧ env.nocldstop (s.pptr current) = false then
      doNotifyParent env current SIGCHLD s
    else return s

/-! ### The machine -/

inductive Call where
  | fork (p : TaskId) (flags : UInt32) (outcome : ForkOutcome)
  | exit
  | exitNotify (code : Nat)
  | wait4 (args : WaitArgs)
  /-- A caller of `sys_wait4` that has been woken up goes on at `repeat`. -/
  | again
  | setpgid (pid pgid : Int)
  | setsid
  | execve
  | ptrace (request : PtraceRequest) (pid : Int)
  | setPdeathSignal (sig : Nat)
  | reparentToInit
  | daemonize
  | stop (sig : Nat)
  /-- The caller goes to sleep, in a call that is not modelled. -/
  | sleep (interruptible : Bool)
  /-- `recalc_sigpending`, when the pending signals have been handled. -/
  | recalcSigpending

inductive Event where
  | call (current : TaskId) (env : Env) (c : Call)
  /-- `wake_up_process` by an interrupt or by a call that is not modelled. -/
  | wake (p : TaskId)
  | signal (env : Env) (pid : Int) (sig : Nat)

/-- The task is in the table of process numbers. -/
def State.Hashed (s : State) (p : TaskId) : Prop := p ∈ s.pidhash (pidHashfn (s.pid p))

instance (s : State) (p : TaskId) : Decidable (s.Hashed p) :=
  inferInstanceAs (Decidable (p ∈ s.pidhash (pidHashfn (s.pid p))))

/-- Between the start of `do_exit` and `exit_notify` a task only sleeps, and while it is in `sys_wait4` it does
nothing else. `alloc_task_struct` yields a structure that is not in use. -/
def Call.Enabled (s : State) (current : TaskId) : Call → Prop
  | .fork p _ _ => s.exiting current = false ∧ s.waiting current = none ∧ s.allocated p = false
  | .exitNotify _ => s.exiting current = true
  | .again => s.exiting current = false ∧ (s.waiting current).isSome = true
  | .sleep _ => s.waiting current = none
  | .reparentToInit => s.exiting current = false ∧ s.waiting current = none ∧ current ≠ s.childReaper
  | .setPdeathSignal sig => s.exiting current = false ∧ s.waiting current = none ∧ sig ≤ nsig
  | _ => s.exiting current = false ∧ s.waiting current = none

instance (s : State) (current : TaskId) : (c : Call) → Decidable (c.Enabled s current)
  | .fork _ _ _ => inferInstanceAs (Decidable (_ ∧ _ ∧ _))
  | .exitNotify _ => inferInstanceAs (Decidable (_ = _))
  | .again => inferInstanceAs (Decidable (_ ∧ _))
  | .sleep _ => inferInstanceAs (Decidable (_ = _))
  | .reparentToInit => inferInstanceAs (Decidable (_ ∧ _ ∧ _))
  | .setPdeathSignal _ => inferInstanceAs (Decidable (_ ∧ _ ∧ _))
  | .exit | .wait4 _ | .setpgid _ _ | .setsid | .execve | .ptrace _ _ | .daemonize | .stop _ | .recalcSigpending =>
    inferInstanceAs (Decidable (_ ∧ _))

/-- Calls are made by tasks that run, and signals are sent and tasks woken up while they are known. -/
def Enabled (s : State) : Event → Prop
  | .call current _ c => s.Hashed current ∧ s.state current = .running ∧ c.Enabled s current
  | .wake p => s.Hashed p ∧ s.state p ≠ .zombie
  | .signal _ pid _ => (findTaskByPid s pid).isSome = true

instance (s : State) : (e : Event) → Decidable (Enabled s e)
  | .call _ _ _ => inferInstanceAs (Decidable (_ ∧ _ ∧ _))
  | .wake _ => inferInstanceAs (Decidable (_ ∧ _))
  | .signal _ _ _ => inferInstanceAs (Decidable (_ = _))

def Call.step (env : Env) (current : TaskId) (s : State) : Call → Except Fault State
  | .fork p flags outcome => do return (← doFork env current p flags outcome s).2
  | .exit => doExit current s
  | .exitNotify code => Proc.exitNotify env current code s
  | .wait4 args => do return (← sysWait4 env current args s).2
  | .again =>
    match s.waiting current with
    | some args => do return (← waitPass env current args s).2
    | none => .ok s
  | .setpgid pid pgid => do return (← sysSetpgid current pid pgid s).2
  | .setsid => do return (← sysSetsid current s).2
  | .execve => doExecve current s
  | .ptrace request pid => do return (← sysPtrace env current request pid s).2
  | .setPdeathSignal sig => .ok { s with pdeathSignal := update s.pdeathSignal current sig }
  | .reparentToInit => Proc.reparentToInit current s
  | .daemonize => .ok (Proc.daemonize current s)
  | .stop sig => stopSelf env current sig s
  | .sleep interruptible =>
    .ok { s with state := update s.state current (if interruptible then .interruptible else .uninterruptible) }
  | .recalcSigpending => .ok { s with sigpending := update s.sigpending current false }

def step (s : State) : Event → Except Fault State
  | .call current env c => c.step env current s
  | .wake p => .ok (wakeUpProcess p s)
  | .signal env pid sig =>
    match findTaskByPid s pid with
    | some p => do
      s.deref p
      return sendSig env sig p s
    | none => .ok s

def machine : Machine State Event Fault where
  enabled := Enabled
  step := step

instance (s : State) (e : Event) : Decidable (machine.enabled s e) := inferInstanceAs (Decidable (Enabled s e))

/-! ### Booting -/

/-- The idle task alone. -/
def idleState (maxThreads : Int) : State where
  lastPid := 0
  nextSafe := pidMax
  nrThreads := 0
  maxThreads := maxThreads
  childReaper := initTask
  allocated p := p = initTask
  top := 1
  state _ := .running
  exiting _ := false
  sigpending _ := false
  sighand _ := true
  ptraced _ := false
  nextTask _ := initTask
  prevTask _ := initTask
  mm _ := false
  exitCode _ := 0
  exitSignal _ := 0
  pdeathSignal _ := 0
  didExec _ := false
  pid _ := 0
  pgrp _ := 0
  session _ := 0
  tgid _ := 0
  leader _ := false
  opptr _ := initTask
  pptr _ := initTask
  cptr _ := none
  ysptr _ := none
  osptr _ := none
  threadNext _ := initTask
  threadPrev _ := initTask
  parentExecId _ := 0
  selfExecId _ := 0
  waiting _ := none
  pidhash _ := []

/-- The flags with which `rest_init` starts `init`. -/
def initFlags : UInt32 := CLONE_FS ||| 0x00000400 ||| CLONE_SIGHAND ||| CLONE_THREAD ||| 0x00000100

/-- The idle task has forked `init`, which has become the child reaper. -/
def Initial (s : State) : Prop :=
  ∃ maxThreads init env pid s', init ≠ initTask ∧
    doFork env initTask init initFlags .done (idleState maxThreads) = .ok (pid, s') ∧ 0 < pid ∧
    s = { s' with childReaper := init }

end MagicKernel.Proc
