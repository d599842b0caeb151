import Mathlib.Logic.Function.Basic
import MagicKernel.FaultMachine

/-! The data model of the modified scheduler, in the uniprocessor build (`CONFIG_SMP` unset,
`CONFIG_HZ = 512`): the fields of `task_struct` that the scheduler reads or writes, the two
priority arrays of the one run queue, the magic globals, and the primitives that move a task
on and off the run queue.

A `task_struct` is named by its address. Unsigned C words are `UInt32`; the counters of queued
tasks are `Int`, their values being bounded by the number of tasks. A queue is the list of the
tasks whose `run_list` is linked in it. Locks, interrupt masking and the `kstat` statistics have
no counterpart: every function below runs with interrupts disabled on one processor. -/

namespace MagicKernel.Sched

open FaultMachine

/-! ### Constants -/

def hz : Nat := 512

def maxRtPrio : Nat := 100

def maxPrio : Nat := maxRtPrio + 40

def maxUserPrio : Nat := maxPrio - maxRtPrio

def minTimeslice : Nat := 10 * hz / 1000

def maxTimeslice : Nat := 300 * hz / 1000

def childPenalty : UInt32 := 95

def parentPenalty : UInt32 := 100

def exitWeight : UInt32 := 3

def prioBonusRatio : Nat := 25

def interactiveDelta : Nat := 2

def maxSleepAvg : Nat := 2 * hz

def starvationLimit : Nat := 2 * hz

/-! ### Tasks -/

abbrev TaskId := Nat

inductive TaskState where
  | running
  | interruptible
  | uninterruptible
  | zombie
  | stopped
  deriving DecidableEq, Repr

inductive Policy where
  | other
  | fifo
  | rr
  deriving DecidableEq, Repr

/-- The two entries of `rq->arrays`. -/
inductive ArrayId where
  | zero
  | one
  deriving DecidableEq, Repr

/-- A static priority: `NICE_TO_PRIO(nice)` for a nice value in `-20..19`. -/
abbrev StaticPrio := {prio : Nat // maxRtPrio ≤ prio ∧ prio < maxPrio}

/-- The part of `task_struct` that the scheduler uses. `sigpending` is what `signal_pending`
reads. `array = none` is the `NULL` of a task that is not on the run queue. -/
structure Task where
  state : TaskState
  sigpending : Bool
  needResched : Bool
  prio : Nat
  staticPrio : StaticPrio
  array : Option ArrayId
  sleepAvg : UInt32
  sleepTimestamp : UInt32
  policy : Policy
  timeSlice : UInt32
  firstTimeSlice : Bool
  holdingWand : Bool
  magicTime : UInt32
  startedMagic : Bool
  magicCallTime : UInt32

namespace Task

def rtTask (t : Task) : Bool := t.prio < maxRtPrio

/-- The last two tests of `effective_prio`, which keep the result in `MAX_RT_PRIO..MAX_PRIO-1`. -/
def clampPrio (prio : Int) : Nat :=
  let prio : Int := if prio < maxRtPrio then maxRtPrio else prio
  let prio : Int := if prio > maxPrio - 1 then maxPrio - 1 else prio
  prio.toNat

theorem clampPrio_bounds (prio : Int) : maxRtPrio ≤ clampPrio prio ∧ clampPrio prio < maxPrio := by
  simp only [clampPrio, maxPrio, maxRtPrio]
  omega

/-- `effective_prio`. The bonus is computed in unsigned words and stored in an `int`. -/
def effectivePrio (t : Task) : Nat :=
  let scaled := UInt32.ofNat (maxUserPrio * prioBonusRatio) * t.sleepAvg / UInt32.ofNat maxSleepAvg / 100
  let bonus : Int := (scaled.toNat : Int) - (maxUserPrio * prioBonusRatio / 100 / 2 : Nat)
  clampPrio ((t.staticPrio.val : Int) - bonus)

theorem effectivePrio_bounds (t : Task) :
    maxRtPrio ≤ t.effectivePrio ∧ t.effectivePrio < maxPrio :=
  clampPrio_bounds _

/-- `TASK_NICE`. -/
def taskNice (t : Task) : Int := (t.staticPrio.val : Int) - maxRtPrio - 20

/-- `DELTA`; the division truncates towards zero. -/
def delta (t : Task) : Int :=
  (t.taskNice * (maxUserPrio * prioBonusRatio / 100 : Nat)).tdiv 40 + interactiveDelta

/-- `TASK_INTERACTIVE`. -/
def taskInteractive (t : Task) : Bool := (t.prio : Int) ≤ (t.staticPrio.val : Int) - t.delta

/-- `TASK_TIMESLICE`. -/
def taskTimeslice (t : Task) : UInt32 :=
  UInt32.ofNat (minTimeslice + (maxTimeslice - minTimeslice) * (maxPrio - 1 - t.staticPrio.val) / 39)

end Task

/-! ### The run queue -/

structure PrioArray where
  nrActive : Int
  bitmap : Nat → Bool
  queue : Nat → List TaskId

/-- `sched_find_first_bit`; bit `MAX_PRIO` is the delimiter that stops the search. -/
def schedFindFirstBit (bitmap : Nat → Bool) : Nat :=
  ((List.range maxPrio).find? bitmap).getD maxPrio

/-- The memory faults and `BUG()` checks at which a run ends. -/
inductive Fault where
  /-- `dequeue_task` with a `NULL` array. -/
  | dequeueNull
  /-- `list_del` in `dequeue_task` of a task that is not linked in the array. -/
  | dequeueUnlinked
  /-- `enqueue_task` with a `NULL` array. -/
  | enqueueNull
  /-- `queue[prio]` with a priority outside the array. -/
  | prioRange
  /-- `sys_sched_yield` by a task that is not on the run queue. -/
  | yieldUnlinked
  /-- `list_entry` of the head of an empty queue. -/
  | emptyQueue
  /-- `switch_tasks` reached with `next` never assigned. -/
  | nextUnassigned
  /-- `context_switch` to a `NULL` task. -/
  | nextNull
  /-- `magicProcess` dereferenced while it is `NULL`. -/
  | magicNull
  /-- `if (!current->time_slice) BUG()` in `do_fork`. -/
  | noTimeSlice
  /-- `free_task_struct` of a task that is still linked in the run queue. -/
  | freedQueued
  deriving DecidableEq, Repr

/-- One processor: the clock, the task structures, the fields of its `struct runqueue` and the
globals added for magic. `allocated` tells which task structures are in use. -/
structure State where
  jiffies : UInt32
  task : TaskId → Task
  allocated : TaskId → Bool
  nrRunning : Int
  nrSwitches : Nat
  expiredTimestamp : UInt32
  nrUninterruptible : Int
  curr : TaskId
  idle : TaskId
  active : ArrayId
  expired : ArrayId
  arrays : ArrayId → PrioArray
  magicDuration : UInt32
  idleFromMagic : Bool
  magicProcess : Option TaskId
  magicSleepFlag : Bool
  MAGICTIME : Int
  globalMagicCallTime : UInt32

namespace State

def modTask (s : State) (p : TaskId) (f : Task → Task) : State :=
  { s with task := Function.update s.task p (f (s.task p)) }

def setNeedResched (s : State) (p : TaskId) : State := s.modTask p fun t => { t with needResched := true }

def setArray (s : State) (a : ArrayId) (A : PrioArray) : State :=
  { s with arrays := Function.update s.arrays a A }

end State

namespace PrioArray

/-- `list_del(&p->run_list)`, seen from the queues of the array `p` is linked in. -/
def listDel (A : PrioArray) (p : TaskId) : PrioArray :=
  { A with queue := fun k => (A.queue k).filter (· ≠ p) }

/-- The body of `dequeue_task`: the bit cleared is that of the task's present priority. -/
def remove (A : PrioArray) (p : TaskId) (prio : Nat) : PrioArray :=
  let B := { A.listDel p with nrActive := A.nrActive - 1 }
  if (B.queue prio).isEmpty then { B with bitmap := Function.update B.bitmap prio false } else B

/-- The body of `enqueue_task`. -/
def insert (A : PrioArray) (p : TaskId) (prio : Nat) : PrioArray where
  nrActive := A.nrActive + 1
  bitmap := Function.update A.bitmap prio true
  queue := Function.update A.queue prio (A.queue prio ++ [p])

/-- `p` is linked in one of the queues of the array. -/
def Links (A : PrioArray) (p : TaskId) : Prop := ∃ k < maxPrio, p ∈ A.queue k

instance (A : PrioArray) (p : TaskId) : Decidable (A.Links p) :=
  inferInstanceAs (Decidable (∃ k < maxPrio, p ∈ A.queue k))

end PrioArray

def dequeueTask (p : TaskId) (array : Option ArrayId) (s : State) : Except Fault State :=
  match array with
  | none => .error .dequeueNull
  | some a =>
    if ¬(s.arrays a).Links p then .error .dequeueUnlinked
    else if maxPrio ≤ (s.task p).prio then .error .prioRange
    else .ok (s.setArray a ((s.arrays a).remove p (s.task p).prio))

def enqueueTask (p : TaskId) (array : Option ArrayId) (s : State) : Except Fault State :=
  match array with
  | none => .error .enqueueNull
  | some a =>
    if maxPrio ≤ (s.task p).prio then .error .prioRange
    else
      let s := s.setArray a ((s.arrays a).insert p (s.task p).prio)
      .ok (s.modTask p fun t => { t with array := some a })

/-- The bonus `activate_task` gives to a task that slept; real-time tasks get none. -/
def wakeBonus (jiffies : UInt32) (t : Task) : Task :=
  let sleepTime := jiffies - t.sleepTimestamp
  if t.rtTask = false ∧ sleepTime ≠ 0 then
    let sum := t.sleepAvg + sleepTime
    let t := { t with sleepAvg := if sum > UInt32.ofNat maxSleepAvg then UInt32.ofNat maxSleepAvg else sum }
    { t with prio := t.effectivePrio }
  else t

def activateTask (p : TaskId) (s : State) : Except Fault State := do
  let s := s.modTask p (wakeBonus s.jiffies)
  let s ← enqueueTask p (some s.active) s
  return { s with nrRunning := s.nrRunning + 1 }

def deactivateTask (p : TaskId) (s : State) : Except Fault State := do
  let s := { s with nrRunning := s.nrRunning - 1 }
  let s := if (s.task p).state = .uninterruptible then
    { s with nrUninterruptible := s.nrUninterruptible + 1 } else s
  let s ← dequeueTask p (s.task p).array s
  return s.modTask p fun t => { t with array := none }

end MagicKernel.Sched
