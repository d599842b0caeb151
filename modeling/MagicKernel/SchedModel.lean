import MagicKernel.SchedState

/-! The modified scheduler: `start_magic`, `update_magic` and `exit_from_magic`, the timer tick,
`schedule()`, wake-ups, `do_fork` as far as it touches the scheduler, `sched_exit`,
`sys_sched_yield` and `sys_magic_clock`, and the machine whose events are their calls.

`schedule()` is one pass from the label `need_resched` to the test at its end; the jump back to
that label is a further pass, made by the task that has just become current. -/

namespace MagicKernel.Sched

open FaultMachine

/-! ### Magic periods -/

/-- The conversion of an `unsigned int` to the `int` that stores it. -/
def toInt (x : UInt32) : Int := x.toBitVec.toInt

/-- `start_magic`, called by the task whose period begins. -/
def startMagic (s : State) : Except Fault State := do
  let p := s.curr
  let s := { s with magicProcess := some p, magicDuration := (s.task p).magicTime }
  let s := s.modTask p fun t => { t with startedMagic := true }
  let s ← dequeueTask p (s.task p).array s
  let s := s.modTask p fun t => { t with prio := 50 }
  let s ← enqueueTask p (s.task p).array s
  let s := s.modTask p fun t => { t with timeSlice := t.magicTime }
  return { s with MAGICTIME := toInt s.magicDuration, globalMagicCallTime := (s.task p).magicCallTime }

/-- `update_magic` for the registered process `m`. -/
def updateMagic (m : TaskId) (newMagicDuration : UInt32) (s : State) : State :=
  { s with
    globalMagicCallTime := (s.task m).magicCallTime
    magicDuration := newMagicDuration
    MAGICTIME := toInt newMagicDuration }

/-- The first part of `exit_from_magic`, for the registered process `m`. When `m` did not sleep, the
priority written is that of `current`. -/
def lowerPrio (m : TaskId) (s : State) : Except Fault State :=
  if s.magicSleepFlag = false then do
    let s ← dequeueTask m (s.task m).array s
    let s := s.modTask s.curr fun t => { t with prio := 130 }
    enqueueTask m (s.task m).array s
  else
    .ok (s.modTask m fun t => { t with prio := 130 })

def exitFromMagic (s : State) : Except Fault State :=
  match s.magicProcess with
  | none => .error .magicNull
  | some m => do
    let s ← lowerPrio m s
    let s := { s with idleFromMagic := false, magicSleepFlag := false, magicDuration := 0 }
    let s := s.modTask m fun t =>
      { t with startedMagic := false, magicTime := 0, timeSlice := 0, magicCallTime := 0 }
    return { s with magicProcess := none, MAGICTIME := 0 }

/-- `sys_magic_clock` by the current task; without a wand it returns `-EPERM`. -/
def sysMagicClock (seconds : UInt32) (s : State) : State :=
  if (s.task s.curr).holdingWand then
    s.modTask s.curr fun t =>
      { t with magicTime := seconds * UInt32.ofNat hz, magicCallTime := s.jiffies }
  else s

/-! ### The timer tick -/

/-- `EXPIRED_STARVING`. -/
def expiredStarving (s : State) : Bool :=
  s.expiredTimestamp ≠ 0 ∧
    s.jiffies - s.expiredTimestamp ≥ UInt32.ofNat starvationLimit * UInt32.ofInt s.nrRunning + 1

/-- A task with a new time slice, marked for rescheduling. -/
def refillSlice (t : Task) : Task :=
  { t with needResched := true, firstTimeSlice := false, timeSlice := t.taskTimeslice }

/-- The end of a time slice of a task that is not real-time. -/
def expireSlice (p : TaskId) (s : State) : Except Fault State := do
  let s ← dequeueTask p (some s.active) s
  let s := s.modTask p fun t => { refillSlice t with prio := t.effectivePrio }
  if (s.task p).taskInteractive = false ∨ expiredStarving s then
    let s := if s.expiredTimestamp = 0 then { s with expiredTimestamp := s.jiffies } else s
    enqueueTask p (some s.expired) s
  else
    enqueueTask p (some s.active) s

/-- `scheduler_tick` for the current task `p`, which is not the idle task. -/
def chargeTick (p : TaskId) (s : State) : Except Fault State :=
  if (s.task p).array ≠ some s.active then
    .ok (s.setNeedResched p)
  else if (s.task p).rtTask then
    if (s.task p).policy = .rr then
      let s := s.modTask p fun t => { t with timeSlice := t.timeSlice - 1 }
      if (s.task p).timeSlice = 0 then do
        let s := s.modTask p refillSlice
        let s ← dequeueTask p (some s.active) s
        enqueueTask p (some s.active) s
      else .ok s
    else .ok s
  else
    let s := s.modTask p fun t => { t with sleepAvg := if t.sleepAvg ≠ 0 then t.sleepAvg - 1 else 0 }
    let s := s.modTask p fun t => { t with timeSlice := t.timeSlice - 1 }
    if (s.task p).timeSlice = 0 then expireSlice p s else .ok s

/-- The magic timer at the head of `scheduler_tick`. -/
def magicTimer (s : State) : Except Fault State :=
  if 0 < s.MAGICTIME then
    let s := { s with MAGICTIME := s.MAGICTIME - 1 }
    if s.MAGICTIME = 0 then do
      let p := s.curr
      let s ← exitFromMagic s
      return s.setNeedResched p
    else .ok s
  else .ok s

/-- `scheduler_tick`. The idle task is charged nothing, whether or not it stands in for a sleeping
magic process. -/
def schedulerTick (s : State) : Except Fault State := do
  let s ← magicTimer s
  if s.curr = s.idle then return s else chargeTick s.curr s

/-! ### `schedule()` -/

/-- The local variable `next` at the label `switch_tasks`. -/
inductive Next where
  | unassigned
  | null
  | task (p : TaskId)
  deriving DecidableEq, Repr

def Next.ofPtr : Option TaskId → Next
  | none => .null
  | some p => .task p

/-- Where control goes after a part of `schedule()`: on to the next part, or to `switch_tasks`. -/
inductive Flow where
  | fall (s : State)
  | goto (next : Next) (s : State)

/-- The timer update of `schedule()`: a call of `sys_magic_clock` by the registered process is
noticed by its time stamp. -/
def renewMagic (m : TaskId) (s : State) : State :=
  if s.globalMagicCallTime ≠ (s.task m).magicCallTime then updateMagic m (s.task m).magicTime s else s

/-- The magic segment of `schedule()`, from the lock to the label `skip_magic`. -/
def magicSegment (s : State) : Except Fault Flow :=
  match s.magicProcess with
  | none => .ok (.fall s)
  | some m =>
    let s := renewMagic m s
    if (s.task m).state = .zombie then do
      let s ← exitFromMagic s
      return .fall s
    else if s.MAGICTIME = 0 then do
      let s ← exitFromMagic s
      return .fall s
    else if s.idleFromMagic then
      match (s.task m).state with
      | .running => .ok (.goto (.task m) { s with idleFromMagic := false, magicSleepFlag := false })
      | .interruptible => .ok (.goto (.task s.idle) s)
      | .zombie => do
        let s ← exitFromMagic s
        return .goto .unassigned s
      | _ => .ok (.fall s)
    else .ok (.fall s)

/-- `if(prev->started_magic == 0) start_magic();` in both arms that catch a magic process. -/
def startUnlessStarted (s : State) : Except Fault State :=
  if (s.task s.curr).startedMagic = false then startMagic s else .ok s

/-- `case TASK_RUNNING` of the state switch, reached also by falling through from the others. -/
def runningArm (s : State) : Except Fault Flow :=
  if 0 < (s.task s.curr).magicTime then do
    let s ← startUnlessStarted s
    return .goto (.ofPtr s.magicProcess) s
  else .ok (.fall s)

/-- The switch over `prev->state`. -/
def stateSwitch (s : State) : Except Fault Flow :=
  match (s.task s.curr).state with
  | .interruptible =>
    if 0 < (s.task s.curr).magicTime then do
      let s ← startUnlessStarted s
      let s := { s with idleFromMagic := true, magicSleepFlag := true }
      let s ← deactivateTask s.curr s
      return .goto (.task s.idle) s
    else if (s.task s.curr).sigpending then
      .ok (.fall (s.modTask s.curr fun t => { t with state := .running }))
    else do
      let s ← deactivateTask s.curr s
      runningArm s
  | .running => runningArm s
  | _ => do
    let s ← deactivateTask s.curr s
    runningArm s

/-- The switch of the active and expired arrays, once the active one has run empty. -/
def switchArrays (s : State) : State :=
  if (s.arrays s.active).nrActive = 0 then
    { s with active := s.expired, expired := s.active, expiredTimestamp := 0 }
  else s

/-- The head of the first non-empty queue of the active array. -/
def firstQueued (s : State) : Except Fault (Next × State) :=
  let idx := schedFindFirstBit (s.arrays s.active).bitmap
  if maxPrio ≤ idx then .error .prioRange
  else match (s.arrays s.active).queue idx with
    | [] => .error .emptyQueue
    | p :: _ => .ok (.task p, s)

/-- `pick_next_task`. -/
def pickNextTask (s : State) : Except Fault (Next × State) :=
  if s.nrRunning = 0 then .ok (.task s.idle, { s with expiredTimestamp := 0 })
  else firstQueued (switchArrays s)

/-- `prev->sleep_timestamp = jiffies` at the head of `schedule()`. -/
def stampSleep (s : State) : State :=
  s.modTask s.curr fun t => { t with sleepTimestamp := s.jiffies }

/-- Everything `schedule()` does before `switch_tasks`: the choice of `next`, and the state there. -/
def selectNext (s : State) : Except Fault (Next × State) := do
  match ← magicSegment (stampSleep s) with
  | .goto next s => return (next, s)
  | .fall s =>
    match ← stateSwitch s with
    | .goto next s => return (next, s)
    | .fall s => pickNextTask s

def switchTasks (next : Next) (s : State) : Except Fault State :=
  match next with
  | .unassigned => .error .nextUnassigned
  | .null => .error .nextNull
  | .task n =>
    let prev := s.curr
    let s := s.modTask prev fun t => { t with needResched := false }
    if prev ≠ n then .ok { s with nrSwitches := s.nrSwitches + 1, curr := n } else .ok s

def schedule (s : State) : Except Fault State := do
  let r ← selectNext s
  switchTasks r.1 r.2

/-! ### Wake-ups, fork, exit and yield -/

/-- `try_to_wake_up` for a task that is not on the run queue. On one processor the migration branch
is never taken. -/
def wakeOffQueue (p : TaskId) (s : State) : Except Fault State := do
  let s := if (s.task p).state = .uninterruptible then
    { s with nrUninterruptible := s.nrUninterruptible - 1 } else s
  let s ← activateTask p s
  return if (s.task p).prio < (s.task s.curr).prio then s.setNeedResched s.curr else s

def wakeIfOffQueue (p : TaskId) (s : State) : Except Fault State :=
  if (s.task p).array = none then wakeOffQueue p s else .ok s

def tryToWakeUp (p : TaskId) (s : State) : Except Fault State := do
  let s ← wakeIfOffQueue p s
  return s.modTask p fun t => { t with state := .running }

/-- The sleep averages of parent and child after a fork, and the child's priority. -/
def forkPenalty (p : TaskId) (s : State) : State :=
  if (s.task p).rtTask = false then
    let s := s.modTask s.curr fun t => { t with sleepAvg := t.sleepAvg * parentPenalty / 100 }
    let s := s.modTask p fun t => { t with sleepAvg := t.sleepAvg * childPenalty / 100 }
    s.modTask p fun t => { t with prio := t.effectivePrio }
  else s

def wakeUpForkedProcess (p : TaskId) (s : State) : Except Fault State :=
  let s := s.modTask p fun t => { t with state := .running }
  activateTask p (forkPenalty p s)

/-- The copy `*p = *current` of `do_fork`, and the fields it then resets. -/
def copyTask (t : Task) : Task :=
  { t with
    state := .uninterruptible
    sigpending := false
    array := none
    holdingWand := false
    magicTime := 0
    startedMagic := false
    magicCallTime := 0 }

/-- The allocation of `child` and the copy into it. -/
def copyProcess (child : TaskId) (s : State) : State :=
  { s with
    allocated := Function.update s.allocated child true
    task := Function.update s.task child (copyTask (s.task s.curr)) }

/-- The time slice shared between parent and child. -/
def shareTimeSlice (child : TaskId) (s : State) : State :=
  let ts := (s.task s.curr).timeSlice
  let s := s.modTask child fun t =>
    { t with timeSlice := (ts + 1) >>> 1, firstTimeSlice := true, sleepTimestamp := s.jiffies }
  s.modTask s.curr fun t => { t with timeSlice := ts >>> 1 }

/-- `do_fork` calls `scheduler_tick` when the parent gave away its last jiffy. -/
def tickIfSpent (s : State) : Except Fault State :=
  if (s.task s.curr).timeSlice = 0 then
    schedulerTick (s.modTask s.curr fun t => { t with timeSlice := 1 })
  else .ok s

/-- A successful `do_fork` whose new structure is `child`. With `CLONE_VFORK` the parent then waits
for its child, which it does through a later `schedule()`. -/
def doFork (child : TaskId) (vfork : Bool) (s : State) : Except Fault State :=
  let s := copyProcess child s
  if (s.task s.curr).timeSlice = 0 then .error .noTimeSlice
  else do
    let s ← tickIfSpent (shareTimeSlice child s)
    let s ← wakeUpForkedProcess child s
    return if vfork then s else s.setNeedResched s.curr

/-- The part of `sched_exit` on time slices: a child still in its first slice gives back what is left
of it. -/
def inheritSlice (p : TaskId) (s : State) : State :=
  if (s.task p).firstTimeSlice then
    s.modTask s.curr fun t =>
      let sum := t.timeSlice + (s.task p).timeSlice
      { t with timeSlice := if sum > UInt32.ofNat maxTimeslice then UInt32.ofNat maxTimeslice else sum }
  else s

/-- The part of `sched_exit` on sleep averages. -/
def blendSleepAvg (p : TaskId) (s : State) : State :=
  if (s.task p).sleepAvg < (s.task s.curr).sleepAvg then
    s.modTask s.curr fun t =>
      { t with sleepAvg := (t.sleepAvg * exitWeight + (s.task p).sleepAvg) / (exitWeight + 1) }
  else s

/-- `sched_exit`, run by the parent that reaps `p`. -/
def schedExit (p : TaskId) (s : State) : State := blendSleepAvg p (inheritSlice p s)

/-- `release_task`. -/
def releaseTask (p : TaskId) (s : State) : Except Fault State :=
  if (s.task p).array ≠ none then .error .freedQueued
  else
    let s := schedExit p s
    .ok { s with allocated := Function.update s.allocated p false }

/-- `list_add(new, head->next)`: after the first entry of the queue, if there is one. -/
def listAddSecond (p : TaskId) : List TaskId → List TaskId
  | [] => [p]
  | q :: qs => q :: p :: qs

/-- The requeueing done by `sys_sched_yield` before it calls `schedule()`. -/
def yieldRequeue (s : State) : Except Fault State :=
  let p := s.curr
  match (s.task p).array with
  | none => .error .yieldUnlinked
  | some a =>
    if ¬(s.arrays a).Links p then .error .yieldUnlinked
    else if maxPrio ≤ (s.task p).prio then .error .prioRange
    else
      let prio := (s.task p).prio
      let A := (s.arrays a).listDel p
      if (s.task p).rtTask then
        .ok (s.setArray a { A with queue := Function.update A.queue prio (A.queue prio ++ [p]) })
      else if A.queue prio ≠ [] then
        .ok (s.setArray a { A with queue := Function.update A.queue prio (listAddSecond p (A.queue prio)) })
      else
        let bitmap := Function.update A.bitmap prio false
        let i := schedFindFirstBit bitmap
        let i := if i = maxPrio ∨ i ≤ prio then prio else i
        let s := s.modTask p fun t => { t with prio := i }
        .ok (s.setArray a
          { A with
            bitmap := Function.update bitmap i true
            queue := Function.update A.queue i (listAddSecond p (A.queue i)) })

def sysSchedYield (s : State) : Except Fault State := do
  let s ← yieldRequeue s
  schedule s

/-! ### The machine -/

/-- What can happen between two instructions of the current task, or is done by it. -/
inductive Event where
  /-- A timer interrupt: `do_timer` advances `jiffies` and calls `scheduler_tick`. -/
  | tick
  /-- `try_to_wake_up(p)`. -/
  | wake (p : TaskId)
  /-- A signal becomes pending for `p`, or is taken. -/
  | signal (p : TaskId) (pending : Bool)
  /-- The current task sets its own state, as do the sleeping primitives and `do_exit`. -/
  | setState (state : TaskState)
  /-- A pass of `schedule()`. -/
  | schedule
  /-- `sys_sched_yield`. -/
  | yield
  /-- A successful `do_fork` by the current task. -/
  | fork (child : TaskId) (vfork : Bool)
  /-- The current task reaps the zombie `p`. -/
  | release (p : TaskId)
  /-- A successful `sys_magic_get_wand` by the current task. -/
  | getWand
  /-- `sys_magic_clock(seconds)` by the current task. -/
  | magicClock (seconds : UInt32)
  deriving DecidableEq, Repr

/-- The idle task only calls `schedule()`, always in `TASK_RUNNING`, and it is on no wait queue. -/
def Enabled (s : State) : Event → Prop
  | .tick => True
  | .wake p => s.allocated p = true ∧ p ≠ s.idle
  | .signal p _ => s.allocated p = true
  | .setState _ => s.curr ≠ s.idle
  | .schedule => True
  | .yield => s.curr ≠ s.idle
  | .fork child _ => s.curr ≠ s.idle ∧ s.allocated child = false
  | .release p => s.curr ≠ s.idle ∧ s.allocated p = true ∧ p ≠ s.curr ∧ (s.task p).state = .zombie
  | .getWand => s.curr ≠ s.idle
  | .magicClock _ => s.curr ≠ s.idle

instance (s : State) (e : Event) : Decidable (Enabled s e) :=
  match e with
  | .tick => inferInstanceAs (Decidable True)
  | .wake p => inferInstanceAs (Decidable (s.allocated p = true ∧ p ≠ s.idle))
  | .signal p _ => inferInstanceAs (Decidable (s.allocated p = true))
  | .setState _ => inferInstanceAs (Decidable (s.curr ≠ s.idle))
  | .schedule => inferInstanceAs (Decidable True)
  | .yield => inferInstanceAs (Decidable (s.curr ≠ s.idle))
  | .fork child _ => inferInstanceAs (Decidable (s.curr ≠ s.idle ∧ s.allocated child = false))
  | .release p => inferInstanceAs (Decidable
      (s.curr ≠ s.idle ∧ s.allocated p = true ∧ p ≠ s.curr ∧ (s.task p).state = .zombie))
  | .getWand => inferInstanceAs (Decidable (s.curr ≠ s.idle))
  | .magicClock _ => inferInstanceAs (Decidable (s.curr ≠ s.idle))

def step (s : State) : Event → Except Fault State
  | .tick => schedulerTick { s with jiffies := s.jiffies + 1 }
  | .wake p => tryToWakeUp p s
  | .signal p pending => .ok (s.modTask p fun t => { t with sigpending := pending })
  | .setState state => .ok (s.modTask s.curr fun t => { t with state := state })
  | .schedule => schedule s
  | .yield => sysSchedYield s
  | .fork child vfork => doFork child vfork s
  | .release p => releaseTask p s
  | .getWand => .ok (s.modTask s.curr fun t => { t with holdingWand := true })
  | .magicClock seconds => .ok (sysMagicClock seconds s)

def machine : Machine State Event Fault where
  enabled := Enabled
  step := step

instance (s : State) (e : Event) : Decidable (machine.enabled s e) :=
  inferInstanceAs (Decidable (Enabled s e))

end MagicKernel.Sched
