import MagicKernel.SchedFrame

/-! What the magic code sees of the scheduler: the magic globals, the clock, who is running, and of
each task its state, whether it is on the run queue, and its magic fields. The queues themselves,
the priorities and the time slices are forgotten; where they decide what happens (which task is
picked, whether a fork ticks) the view is nondeterministic. Every completed step of the machine is
a step of its view (`view_step`), so what holds along all runs of the view holds along all runs of
the scheduler. -/

namespace MagicKernel.Sched

open FaultMachine

structure TaskView where
  state : TaskState
  queued : Bool
  holdingWand : Bool
  magicTime : UInt32
  startedMagic : Bool
  magicCallTime : UInt32

def Task.view (t : Task) : TaskView where
  state := t.state
  queued := t.array.isSome
  holdingWand := t.holdingWand
  magicTime := t.magicTime
  startedMagic := t.startedMagic
  magicCallTime := t.magicCallTime

structure View extends Core where
  task : TaskId → TaskView

def State.view (s : State) : View where
  toCore := s.core
  task p := (s.task p).view

namespace View

def modTask (v : View) (p : TaskId) (f : TaskView → TaskView) : View :=
  { v with task := Function.update v.task p (f (v.task p)) }

def setState (v : View) (p : TaskId) (state : TaskState) : View :=
  v.modTask p fun t => { t with state := state }

def unqueue (v : View) (p : TaskId) : View := v.modTask p fun t => { t with queued := false }

def wake (v : View) (p : TaskId) : View :=
  v.modTask p fun t => { t with state := .running, queued := true }

/-- `start_magic`, by the current task. -/
def startMagic (v : View) : View :=
  { v with
    magicProcess := some v.curr
    magicDuration := (v.task v.curr).magicTime
    MAGICTIME := toInt (v.task v.curr).magicTime
    globalMagicCallTime := (v.task v.curr).magicCallTime
    task := Function.update v.task v.curr { v.task v.curr with startedMagic := true } }

def startUnlessStarted (v : View) : View :=
  if (v.task v.curr).startedMagic = false then v.startMagic else v

/-- `exit_from_magic`, for the registered process `m`. -/
def exitFromMagic (v : View) (m : TaskId) : View :=
  { v with
    idleFromMagic := false
    magicSleepFlag := false
    magicDuration := 0
    magicProcess := none
    MAGICTIME := 0
    task := Function.update v.task m
      { v.task m with startedMagic := false, magicTime := 0, magicCallTime := 0 } }

/-- The timer update of `schedule()`, for the registered process `m`. -/
def renew (v : View) (m : TaskId) : View :=
  if v.globalMagicCallTime ≠ (v.task m).magicCallTime then
    { v with
      globalMagicCallTime := (v.task m).magicCallTime
      magicDuration := (v.task m).magicTime
      MAGICTIME := toInt (v.task m).magicTime }
  else v

def fork (v : View) (child : TaskId) : View :=
  { v with
    allocated := Function.update v.allocated child true
    task := Function.update v.task child
      { state := .uninterruptible, queued := false, holdingWand := false, magicTime := 0, startedMagic := false,
        magicCallTime := 0 } }

def magicClock (v : View) (seconds : UInt32) : View :=
  if (v.task v.curr).holdingWand then
    v.modTask v.curr fun t =>
      { t with magicTime := seconds * UInt32.ofNat hz, magicCallTime := v.jiffies }
  else v

/-- The magic timer. -/
inductive Timer : View → View → Prop
  | off {v : View} (h : v.MAGICTIME ≤ 0) : Timer v v
  | count {v : View} (h : 1 < v.MAGICTIME) : Timer v { v with MAGICTIME := v.MAGICTIME - 1 }
  | expire {v : View} {m : TaskId} (h : v.MAGICTIME = 1) (hm : v.magicProcess = some m) :
      Timer v (v.exitFromMagic m)

/-- The magic segment of `schedule()`, when control falls out of it. -/
inductive Segment : View → View → Prop
  | idle {v : View} (hm : v.magicProcess = none) : Segment v v
  | ended {v : View} {m : TaskId} (hm : v.magicProcess = some m)
      (hend : (v.task m).state = .zombie ∨ (v.renew m).MAGICTIME = 0) :
      Segment v ((v.renew m).exitFromMagic m)
  | kept {v : View} {m : TaskId} (hm : v.magicProcess = some m)
      (hzombie : (v.task m).state ≠ .zombie) (htime : (v.renew m).MAGICTIME ≠ 0)
      (hflag : v.idleFromMagic = true →
        (v.task m).state = .uninterruptible ∨ (v.task m).state = .stopped) :
      Segment v (v.renew m)

/-- The state switch, when it catches the current task because of its magic time. -/
inductive Caught : View → Next → View → Prop
  | sleep {v : View} (hstate : (v.task v.curr).state = .interruptible)
      (hmagic : 0 < (v.task v.curr).magicTime) (hqueued : (v.task v.curr).queued = true) :
      Caught v (.task v.idle)
        { v.startUnlessStarted.unqueue v.curr with idleFromMagic := true, magicSleepFlag := true }
  | run {v : View} (hstate : (v.task v.curr).state = .running)
      (hmagic : 0 < (v.task v.curr).magicTime)
      (hqueued : (v.task v.curr).startedMagic = false → (v.task v.curr).queued = true) :
      Caught v (.ofPtr v.startUnlessStarted.magicProcess) v.startUnlessStarted
  | fallThrough {v : View} (hrun : (v.task v.curr).state ≠ .running)
      (hint : (v.task v.curr).state ≠ .interruptible) (hmagic : 0 < (v.task v.curr).magicTime)
      (hqueued : (v.task v.curr).queued = true) (hstarted : (v.task v.curr).startedMagic = true) :
      Caught v (.ofPtr v.magicProcess) (v.unqueue v.curr)

/-- The state switch, when control falls out of it. -/
inductive Passed : View → View → Prop
  | signal {v : View} (hstate : (v.task v.curr).state = .interruptible)
      (hmagic : (v.task v.curr).magicTime = 0) : Passed v (v.setState v.curr .running)
  | block {v : View} (hrun : (v.task v.curr).state ≠ .running)
      (hmagic : (v.task v.curr).magicTime = 0) (hqueued : (v.task v.curr).queued = true) :
      Passed v (v.unqueue v.curr)
  | preempt {v : View} (hstate : (v.task v.curr).state = .running)
      (hmagic : (v.task v.curr).magicTime = 0) : Passed v v

/-- The choice of `next` by `schedule()`, and the view at `switch_tasks`. A task that is picked from
the run queue satisfies `Q`. -/
inductive Select (Q : TaskId → Prop) : View → Next → View → Prop
  | resume {v : View} {m : TaskId} (hm : v.magicProcess = some m)
      (htime : (v.renew m).MAGICTIME ≠ 0) (hflag : v.idleFromMagic = true)
      (hstate : (v.task m).state = .running) :
      Select Q v (.task m) { v.renew m with idleFromMagic := false, magicSleepFlag := false }
  | wait {v : View} {m : TaskId} (hm : v.magicProcess = some m)
      (htime : (v.renew m).MAGICTIME ≠ 0) (hflag : v.idleFromMagic = true)
      (hstate : (v.task m).state = .interruptible) :
      Select Q v (.task v.idle) (v.renew m)
  | caught {v w x : View} {n : Next} (hseg : Segment v w) (hcaught : Caught w n x) : Select Q v n x
  | picked {v w x : View} {n : TaskId} (hseg : Segment v w) (hpassed : Passed w x)
      (hn : n = x.idle ∨ Q n) : Select Q v (.task n) x

/-- The steps of the view. `last` says that the current task is in the last jiffy of its slice, so
that a fork gives it away and ticks. -/
inductive Step (last : Bool) : View → Event → View → Prop
  | tick {v w : View} (h : Timer { v with jiffies := v.jiffies + 1 } w) : Step last v .tick w
  | wake {v : View} {p : TaskId} (hp : v.allocated p = true) (hidle : p ≠ v.idle) :
      Step last v (.wake p) (v.wake p)
  | signal {v : View} {p : TaskId} {pending : Bool} : Step last v (.signal p pending) v
  | setState {v : View} {state : TaskState} (hidle : v.curr ≠ v.idle) :
      Step last v (.setState state) (v.setState v.curr state)
  | schedule {v w : View} {n : TaskId}
      (h : Select (fun p => (w.task p).queued = true) v (.task n) w) :
      Step last v .schedule { w with curr := n }
  | yield {v w : View} {n : TaskId} (hidle : v.curr ≠ v.idle)
      (h : Select (fun p => (w.task p).queued = true) v (.task n) w) :
      Step last v .yield { w with curr := n }
  | fork {v : View} {child : TaskId} {vfork : Bool} (hidle : v.curr ≠ v.idle)
      (hchild : v.allocated child = false) (hlast : last = false) :
      Step last v (.fork child vfork) ((v.fork child).wake child)
  | forkTick {v w : View} {child : TaskId} {vfork : Bool} (hidle : v.curr ≠ v.idle)
      (hchild : v.allocated child = false) (hlast : last = true) (h : Timer (v.fork child) w) :
      Step last v (.fork child vfork) (w.wake child)
  | release {v : View} {p : TaskId} (hidle : v.curr ≠ v.idle) (hp : v.allocated p = true)
      (hcurr : p ≠ v.curr) (hstate : (v.task p).state = .zombie)
      (hqueued : (v.task p).queued = false) :
      Step last v (.release p) { v with allocated := Function.update v.allocated p false }
  | getWand {v : View} (hidle : v.curr ≠ v.idle) :
      Step last v .getWand (v.modTask v.curr fun t => { t with holdingWand := true })
  | magicClock {v : View} {seconds : UInt32} (hidle : v.curr ≠ v.idle) :
      Step last v (.magicClock seconds) (v.magicClock seconds)

theorem Select.mono {Q R : TaskId → Prop} (hQR : ∀ n, Q n → R n) {v w : View} {n : Next}
    (h : Select Q v n w) : Select R v n w := by
  cases h with
  | resume hm htime hflag hstate => exact .resume hm htime hflag hstate
  | wait hm htime hflag hstate => exact .wait hm htime hflag hstate
  | caught hseg hcaught => exact .caught hseg hcaught
  | picked hseg hpassed hn => exact .picked hseg hpassed (hn.imp_right (hQR _))

theorem renew_curr (v : View) (m : TaskId) : (v.renew m).curr = v.curr := by
  rw [renew]
  split <;> rfl

theorem renew_idle (v : View) (m : TaskId) : (v.renew m).idle = v.idle := by
  rw [renew]
  split <;> rfl

theorem renew_task (v : View) (m : TaskId) : (v.renew m).task = v.task := by
  rw [renew]
  split <;> rfl

theorem renew_allocated (v : View) (m : TaskId) : (v.renew m).allocated = v.allocated := by
  rw [renew]
  split <;> rfl

theorem renew_idleFromMagic (v : View) (m : TaskId) :
    (v.renew m).idleFromMagic = v.idleFromMagic := by
  rw [renew]
  split <;> rfl

theorem renew_magicProcess (v : View) (m : TaskId) : (v.renew m).magicProcess = v.magicProcess := by
  rw [renew]
  split <;> rfl

theorem unqueue_state (v : View) (p q : TaskId) : ((v.unqueue p).task q).state = (v.task q).state := by
  simp only [unqueue, modTask, Function.update_apply]
  split
  · rename_i hq
    rw [hq]
  · rfl

theorem exitFromMagic_queued (v : View) (m p : TaskId) :
    ((v.exitFromMagic m).task p).queued = (v.task p).queued := by
  by_cases hp : p = m
  · subst hp
    simp [exitFromMagic]
  · simp [exitFromMagic, hp]

theorem Timer.queued {v w : View} (h : Timer v w) (p : TaskId) :
    (w.task p).queued = (v.task p).queued := by
  cases h with
  | off h => rfl
  | count h => rfl
  | expire h hm => exact exitFromMagic_queued v _ p

theorem Timer.curr {v w : View} (h : Timer v w) : w.curr = v.curr := by
  cases h <;> rfl

theorem renew_state (v : View) (m p : TaskId) : ((v.renew m).task p).state = (v.task p).state := by
  rw [renew_task]

theorem Segment.curr {v w : View} (h : Segment v w) : w.curr = v.curr := by
  cases h with
  | idle hm => rfl
  | ended hm hend => exact renew_curr v _
  | kept hm hzombie htime hflag => exact renew_curr v _

theorem Segment.idle_eq {v w : View} (h : Segment v w) : w.idle = v.idle := by
  cases h with
  | idle hm => rfl
  | ended hm hend => exact renew_idle v _
  | kept hm hzombie htime hflag => exact renew_idle v _

theorem Caught.magicTime_pos {v w : View} {n : Next} (h : Caught v n w) :
    0 < (v.task v.curr).magicTime := by
  cases h <;> assumption

theorem Passed.magicTime_eq {v w : View} (h : Passed v w) : (v.task v.curr).magicTime = 0 := by
  cases h <;> assumption

theorem Passed.core_eq {v w : View} (h : Passed v w) : w.toCore = v.toCore := by
  cases h <;> rfl

/-- Falling out of the state switch changes the state or the links of the current task only. -/
theorem Passed.task_eq {v w : View} (h : Passed v w) (p : TaskId) :
    (w.task p).holdingWand = (v.task p).holdingWand ∧
      (w.task p).magicTime = (v.task p).magicTime ∧
      (w.task p).startedMagic = (v.task p).startedMagic ∧
      (w.task p).magicCallTime = (v.task p).magicCallTime := by
  cases h with
  | signal hstate hmagic =>
      simp only [setState, modTask, Function.update_apply]
      split <;> simp_all
  | block hrun hmagic hqueued =>
      simp only [unqueue, modTask, Function.update_apply]
      split <;> simp_all
  | preempt hstate hmagic => exact ⟨rfl, rfl, rfl, rfl⟩

theorem startUnlessStarted_of_started {v : View} (h : (v.task v.curr).startedMagic = true) :
    v.startUnlessStarted = v := by
  rw [startUnlessStarted, if_neg (ne_false_of_eq_true h)]

end View

/-! ### Views of the functions -/

theorem view_eq {s s' : State} (hcore : s'.core = s.core)
    (htask : ∀ p, (s'.task p).view = (s.task p).view) : s'.view = s.view := by
  rw [State.view, State.view, hcore]
  congr 1
  exact funext htask

theorem view_modTask (s : State) (p : TaskId) (f : Task → Task) (g : TaskView → TaskView)
    (h : ∀ t : Task, (f t).view = g t.view) : (s.modTask p f).view = s.view.modTask p g := by
  rw [State.view, View.modTask]
  congr 1
  funext q
  by_cases hq : q = p
  · subst hq
    rw [State.modTask_task, Function.update_self, Function.update_self, h]
    rfl
  · rw [State.modTask_task, Function.update_of_ne hq, Function.update_of_ne hq]
    rfl

/-- A change of a task that the view does not show. -/
theorem view_modTask_id (s : State) (p : TaskId) (f : Task → Task)
    (h : ∀ t : Task, (f t).view = t.view) : (s.modTask p f).view = s.view := by
  rw [view_modTask s p f id h, View.modTask, id, Function.update_eq_self]

theorem setNeedResched_view (s : State) (p : TaskId) : (s.setNeedResched p).view = s.view :=
  view_modTask_id s p (fun t => { t with needResched := true }) fun _ => rfl

theorem Frame.view_eq {p : TaskId} {t : Task} {s s' : State} (h : Frame p t s s')
    (ht : t.view = (s.task p).view) : s'.view = s.view := by
  refine Sched.view_eq h.core fun q => ?_
  by_cases hq : q = p
  · subst hq
    rw [h.task_self, ht]
  · rw [h.task_of_ne hq]

theorem Adjusted.view_eq {t t' : Task} (h : Adjusted t t') (hstate : t'.state = t.state)
    (harray : t'.array = none ↔ t.array = none) : t'.view = t.view := by
  have hqueued : t'.array.isSome = t.array.isSome := by
    rw [Bool.eq_iff_iff, Option.isSome_iff_ne_none, Option.isSome_iff_ne_none]
    exact not_congr harray
  simp only [Task.view, hstate, hqueued, h.holdingWand, h.magicTime, h.startedMagic, h.magicCallTime]

theorem Same.view_eq {t t' : Task} (h : Same t t') : t'.view = t.view := by
  simp only [Task.view, h.state, h.array, h.holdingWand, h.magicTime, h.startedMagic, h.magicCallTime]

theorem Woken.view_eq {p : TaskId} {s s' : State} (h : Woken p s s') :
    s'.view = s.view.wake p := by
  rw [State.view, h.core, View.wake, View.modTask]
  congr 1
  funext q
  by_cases hq : q = p
  · subst hq
    rw [Function.update_self]
    simp only [Task.view, h.state, h.adjusted.holdingWand, h.adjusted.magicTime,
      h.adjusted.startedMagic, h.adjusted.magicCallTime, State.view,
      Option.isSome_iff_ne_none.2 h.queued]
  · rw [Function.update_of_ne hq]
    exact (h.others q hq).view_eq

theorem chargeTick_view {p : TaskId} {s s' : State} (h : chargeTick p s = .ok s') :
    s'.view = s.view := by
  obtain ⟨t, hframe, hadj, hstate, -, harray⟩ := chargeTick_spec h
  exact hframe.view_eq (hadj.view_eq hstate harray)

theorem deactivateTask_view {p : TaskId} {s s' : State} (h : deactivateTask p s = .ok s') :
    (s.view.task p).queued = true ∧ s'.view = s.view.unqueue p := by
  refine ⟨deactivateTask_queued h, ?_⟩
  have hframe := frame_deactivateTask h
  rw [State.view, hframe.core, View.unqueue, View.modTask]
  congr 1
  funext q
  by_cases hq : q = p
  · subst hq
    rw [Function.update_self, hframe.task_self]
    rfl
  · rw [Function.update_of_ne hq, hframe.task_of_ne hq]
    rfl

theorem yieldRequeue_view {s s' : State} (h : yieldRequeue s = .ok s') : s'.view = s.view := by
  obtain ⟨-, k, hframe, -⟩ := yieldRequeue_spec h
  exact hframe.view_eq rfl

theorem startMagic_view {s s' : State} (h : startMagic s = .ok s') : s'.view = s.view.startMagic := by
  obtain ⟨-, htask, hcore⟩ := startMagic_spec h
  rw [State.view, hcore, htask, View.startMagic]
  congr 1
  funext p
  by_cases hp : p = s.curr
  · subst hp
    rw [Function.update_self]
    exact (Function.update_self (f := s.view.task) s.curr _).symm
  · rw [Function.update_of_ne hp]
    exact (Function.update_of_ne (f := s.view.task) hp _).symm

theorem startUnlessStarted_view {s s' : State} (h : startUnlessStarted s = .ok s') :
    ((s.task s.curr).startedMagic = false → (s.view.task s.curr).queued = true) ∧
      s'.view = s.view.startUnlessStarted := by
  rw [startUnlessStarted] at h
  split at h
  · rename_i hstarted
    exact ⟨fun _ => Option.isSome_iff_ne_none.2 (startMagic_spec h).1,
      (startMagic_view h).trans (if_pos hstarted).symm⟩
  · rename_i hstarted
    cases h
    exact ⟨fun hfalse => absurd hfalse hstarted, (if_neg hstarted).symm⟩

theorem exitFromMagic_view {s s' : State} (h : exitFromMagic s = .ok s') :
    ∃ m, s.magicProcess = some m ∧ s'.view = s.view.exitFromMagic m := by
  obtain ⟨m, hm, htask, hcore⟩ := exitFromMagic_spec h
  refine ⟨m, hm, ?_⟩
  rw [State.view, hcore, htask, View.exitFromMagic]
  congr 1
  funext p
  have hprio : ∀ q, (Function.update s.task (s.demoted m)
      { s.task (s.demoted m) with prio := 130 } q).view = (s.task q).view := by
    intro q
    by_cases hq : q = s.demoted m
    · subst hq
      rw [Function.update_self]
      rfl
    · rw [Function.update_of_ne hq]
  rw [State.tasksAfterExit]
  by_cases hp : p = m
  · subst hp
    rw [Function.update_self, Function.update_self]
    have hp := hprio p
    simp only [Task.view, TaskView.mk.injEq] at hp
    simp only [Task.endMagic, Task.view, hp.1, hp.2.1, hp.2.2.1, State.view]
  · rw [Function.update_of_ne hp, Function.update_of_ne hp]
    exact hprio p

theorem magicTimer_view {s s' : State} (h : magicTimer s = .ok s') : View.Timer s.view s'.view := by
  rcases magicTimer_cases h with ⟨htime, rfl⟩ | ⟨htime, rfl⟩ | ⟨htime, s₁, h₁, rfl⟩
  · exact .off htime
  · exact .count htime
  · obtain ⟨m, hm, hview⟩ := exitFromMagic_view h₁
    rw [setNeedResched_view, hview]
    exact .expire (v := s.view) htime hm

theorem schedulerTick_view {s s' : State} (h : schedulerTick s = .ok s') :
    View.Timer s.view s'.view := by
  obtain ⟨s₁, h₁, ⟨-, rfl⟩ | ⟨-, h⟩⟩ := schedulerTick_cases h
  · exact magicTimer_view h₁
  · rw [chargeTick_view h]
    exact magicTimer_view h₁

/-! ### Views of the parts of `schedule()` -/

theorem renewMagic_view (m : TaskId) (s : State) : (renewMagic m s).view = s.view.renew m := by
  by_cases h : s.globalMagicCallTime ≠ (s.task m).magicCallTime
  · rw [renewMagic, if_pos h]
    exact (if_pos h).symm
  · rw [renewMagic, if_neg h]
    exact (if_neg h).symm

theorem renewMagic_task (m : TaskId) (s : State) : (renewMagic m s).task = s.task := by
  rw [renewMagic]
  split <;> rfl

theorem renewMagic_magicProcess (m : TaskId) (s : State) :
    (renewMagic m s).magicProcess = s.magicProcess := by
  rw [renewMagic]
  split <;> rfl

theorem renewMagic_idleFromMagic (m : TaskId) (s : State) :
    (renewMagic m s).idleFromMagic = s.idleFromMagic := by
  rw [renewMagic]
  split <;> rfl

theorem renewMagic_magicSleepFlag (m : TaskId) (s : State) :
    (renewMagic m s).magicSleepFlag = s.magicSleepFlag := by
  rw [renewMagic]
  split <;> rfl

theorem renewMagic_curr (m : TaskId) (s : State) : (renewMagic m s).curr = s.curr := by
  rw [renewMagic]
  split <;> rfl

theorem renewMagic_idle (m : TaskId) (s : State) : (renewMagic m s).idle = s.idle := by
  rw [renewMagic]
  split <;> rfl

theorem renewMagic_MAGICTIME (m : TaskId) (s : State) :
    (renewMagic m s).MAGICTIME = (s.view.renew m).MAGICTIME :=
  congrArg (fun v : View => v.MAGICTIME) (renewMagic_view m s)

/-- The ways through the magic segment: no process is registered; the period of the registered one ends;
it comes back from its sleep, or sleeps on; or `schedule()` goes on as usual. -/
inductive Segmented (s : State) : Flow → Prop
  | idle (hm : s.magicProcess = none) : Segmented s (.fall s)
  | ended {m : TaskId} {s₁ : State} (hm : s.magicProcess = some m)
      (hend : (s.task m).state = .zombie ∨ (renewMagic m s).MAGICTIME = 0)
      (hexit : exitFromMagic (renewMagic m s) = .ok s₁) : Segmented s (.fall s₁)
  | resume {m : TaskId} (hm : s.magicProcess = some m) (htime : (renewMagic m s).MAGICTIME ≠ 0)
      (hflag : s.idleFromMagic = true) (hstate : (s.task m).state = .running) :
      Segmented s (.goto (.task m) { renewMagic m s with idleFromMagic := false, magicSleepFlag := false })
  | wait {m : TaskId} (hm : s.magicProcess = some m) (htime : (renewMagic m s).MAGICTIME ≠ 0)
      (hflag : s.idleFromMagic = true) (hstate : (s.task m).state = .interruptible) :
      Segmented s (.goto (.task s.idle) (renewMagic m s))
  | kept {m : TaskId} (hm : s.magicProcess = some m) (hzombie : (s.task m).state ≠ .zombie)
      (htime : (renewMagic m s).MAGICTIME ≠ 0)
      (hflag : s.idleFromMagic = true →
        (s.task m).state = .uninterruptible ∨ (s.task m).state = .stopped) :
      Segmented s (.fall (renewMagic m s))

theorem magicSegment_ok {s : State} {f : Flow} (h : magicSegment s = .ok f) : Segmented s f := by
  rw [magicSegment] at h
  split at h
  · rename_i hm
    cases h
    exact .idle hm
  rename_i m hm
  dsimp only at h
  rw [renewMagic_task, renewMagic_idleFromMagic, renewMagic_idle] at h
  split at h
  · rename_i hzombie
    obtain ⟨s₁, h₁, h⟩ := bind_eq_ok.1 h
    cases h
    exact .ended hm (Or.inl hzombie) h₁
  rename_i hzombie
  split at h
  · rename_i htime
    obtain ⟨s₁, h₁, h⟩ := bind_eq_ok.1 h
    cases h
    exact .ended hm (Or.inr htime) h₁
  rename_i htime
  split at h
  · rename_i hflag
    split at h
    · rename_i hstate
      cases h
      rw [← renewMagic_task m s, ← renewMagic_idle m s]
      exact .resume hm htime hflag hstate
    · rename_i hstate
      cases h
      exact .wait hm htime hflag hstate
    · rename_i hstate
      exact absurd hstate hzombie
    · rename_i hrun hint hzom
      cases h
      refine .kept hm hzombie htime fun _ => ?_
      cases hstate : (s.task m).state with
      | running => exact absurd hstate hrun
      | interruptible => exact absurd hstate hint
      | uninterruptible => exact Or.inl rfl
      | zombie => exact absurd hstate hzom
      | stopped => exact Or.inr rfl
  · rename_i hflag
    cases h
    exact .kept hm hzombie htime fun h => absurd h hflag

/-- How the magic segment ends. -/
def FlowView (Q : TaskId → Prop) (v : View) : Flow → Prop
  | .fall s => View.Segment v s.view
  | .goto n s => View.Select Q v n s.view ∧ v.idleFromMagic = true ∧
      ∃ m, v.magicProcess = some m ∧ (n = .task m ∨ n = .task v.idle)

theorem magicSegment_view (Q : TaskId → Prop) {s : State} {f : Flow} (h : magicSegment s = .ok f) :
    FlowView Q s.view f := by
  cases magicSegment_ok h with
  | idle hm => exact .idle hm
  | @ended m s₁ hm hend hexit =>
      obtain ⟨m', hm', hview⟩ := exitFromMagic_view hexit
      rw [renewMagic_magicProcess, hm] at hm'
      cases hm'
      rw [FlowView, hview, renewMagic_view]
      rw [renewMagic_MAGICTIME] at hend
      exact .ended hm hend
  | @resume m hm htime hflag hstate =>
      rw [renewMagic_MAGICTIME] at htime
      have hclear := View.Select.resume (Q := Q) (v := s.view) hm htime hflag hstate
      rw [← renewMagic_view] at hclear
      exact ⟨hclear, hflag, m, hm, Or.inl rfl⟩
  | @wait m hm htime hflag hstate =>
      rw [renewMagic_MAGICTIME] at htime
      rw [FlowView, renewMagic_view]
      exact ⟨.wait hm htime hflag hstate, hflag, m, hm, Or.inr rfl⟩
  | kept hm hzombie htime hflag =>
      rw [renewMagic_MAGICTIME] at htime
      rw [FlowView, renewMagic_view]
      exact .kept hm hzombie htime hflag

theorem eq_zero_of_not_pos {x : UInt32} (h : ¬0 < x) : x = 0 :=
  not_not.1 fun h0 => h (UInt32.pos_iff_ne_zero.2 h0)

theorem runningArm_view {s : State} {f : Flow} (h : runningArm s = .ok f) :
    (0 < (s.task s.curr).magicTime ∧
      ((s.task s.curr).startedMagic = false → (s.view.task s.curr).queued = true) ∧
      ∃ s₁, s₁.view = s.view.startUnlessStarted ∧ f = .goto (.ofPtr s₁.magicProcess) s₁) ∨
    ((s.task s.curr).magicTime = 0 ∧ f = .fall s) := by
  rw [runningArm] at h
  split at h
  · rename_i hmagic
    obtain ⟨s₁, h₁, h⟩ := bind_eq_ok.1 h
    cases h
    obtain ⟨hqueued, hview⟩ := startUnlessStarted_view h₁
    exact Or.inl ⟨hmagic, hqueued, s₁, hview, rfl⟩
  · rename_i hmagic
    cases h
    exact Or.inr ⟨eq_zero_of_not_pos hmagic, rfl⟩

/-- How the state switch ends. -/
def SwitchView (v : View) : Flow → Prop
  | .fall s => View.Passed v s.view
  | .goto n s => View.Caught v n s.view

theorem runningArm_switchView {s : State} {f : Flow} (hstate : (s.task s.curr).state = .running)
    (h : runningArm s = .ok f) : SwitchView s.view f := by
  rcases runningArm_view h with ⟨hpos, hqueued, s₁, hview, rfl⟩ | ⟨hzero, rfl⟩
  · have hcaught := View.Caught.run (v := s.view) hstate hpos hqueued
    rw [← hview] at hcaught
    exact hcaught
  · exact .preempt hstate hzero

/-- A task that is not runnable is deactivated; if it has magic time it then falls through, and gets
past `start_magic` only when its period has started. -/
theorem deactivate_switchView {s s₁ : State} {f : Flow} (hrun : (s.task s.curr).state ≠ .running)
    (hint : 0 < (s.task s.curr).magicTime → (s.task s.curr).state ≠ .interruptible)
    (h₁ : deactivateTask s.curr s = .ok s₁) (h : runningArm s₁ = .ok f) : SwitchView s.view f := by
  obtain ⟨hqueued, hview₁⟩ := deactivateTask_view h₁
  have hframe := frame_deactivateTask h₁
  have htask : s₁.task s₁.curr = { s.task s.curr with array := none } := by
    rw [hframe.curr, hframe.task_self]
  rcases runningArm_view h with ⟨hpos, hqueued₁, s₂, hview₂, rfl⟩ | ⟨hzero, rfl⟩
  · rw [htask] at hpos hqueued₁
    have hstarted : (s.task s.curr).startedMagic = true := by
      by_contra hfalse
      have hq : (s₁.task s₁.curr).array.isSome = true := hqueued₁ (Bool.not_eq_true _ ▸ hfalse)
      rw [htask] at hq
      cases hq
    have hview₃ : s₂.view = s.view.unqueue s.curr := by
      rw [hview₂, hview₁, View.startUnlessStarted, if_neg]
      rw [← hview₁]
      have hstarted₁ : (s₁.task s₁.curr).startedMagic = true := by
        rw [htask]
        exact hstarted
      exact ne_false_of_eq_true hstarted₁
    have hcaught := View.Caught.fallThrough (v := s.view) hrun (hint hpos) hpos hqueued hstarted
    have hprocess : s₂.magicProcess = s.magicProcess := congrArg (fun v : View => v.magicProcess) hview₃
    rw [SwitchView, hview₃, hprocess]
    exact hcaught
  · rw [htask] at hzero
    rw [SwitchView, hview₁]
    exact .block hrun hzero hqueued

theorem View.startUnlessStarted_idle (v : View) : v.startUnlessStarted.idle = v.idle := by
  rw [View.startUnlessStarted]
  split <;> rfl

theorem View.startUnlessStarted_idleFromMagic (v : View) :
    v.startUnlessStarted.idleFromMagic = v.idleFromMagic := by
  rw [View.startUnlessStarted]
  split <;> rfl

theorem View.startUnlessStarted_curr (v : View) : v.startUnlessStarted.curr = v.curr := by
  rw [View.startUnlessStarted]
  split <;> rfl

theorem View.startUnlessStarted_queued (v : View) (p : TaskId) :
    (v.startUnlessStarted.task p).queued = (v.task p).queued := by
  rw [View.startUnlessStarted]
  split
  · by_cases hp : p = v.curr
    · subst hp
      simp [View.startMagic]
    · simp [View.startMagic, hp]
  · rfl

theorem stateSwitch_view {s : State} {f : Flow} (h : stateSwitch s = .ok f) :
    SwitchView s.view f := by
  rw [stateSwitch] at h
  split at h
  · rename_i hstate
    have hrun : (s.task s.curr).state ≠ .running := by
      rw [hstate]
      exact TaskState.noConfusion
    split at h
    · rename_i hmagic
      obtain ⟨s₁, h₁, h⟩ := bind_eq_ok.1 h
      obtain ⟨s₂, h₂, h⟩ := bind_eq_ok.1 h
      cases h
      have hview₁ := (startUnlessStarted_view h₁).2
      obtain ⟨hqueued, hview₂⟩ := deactivateTask_view h₂
      have hcurr : s₁.curr = s.curr :=
        (congrArg (fun v : View => v.curr) hview₁).trans s.view.startUnlessStarted_curr
      have hidle : s₂.idle = s.idle := by
        have hidle₂ : s₂.idle = s₁.idle := congrArg (fun v : View => v.idle) hview₂
        exact hidle₂.trans
          ((congrArg (fun v : View => v.idle) hview₁).trans s.view.startUnlessStarted_idle)
      have hqueued' : (s.view.task s.curr).queued = true := by
        rw [← View.startUnlessStarted_queued, ← hview₁, ← hcurr]
        exact hqueued
      have hcaught := View.Caught.sleep (v := s.view) hstate hmagic hqueued'
      have hview₃ : s₂.view = { s.view.startUnlessStarted.unqueue s.curr with
          idleFromMagic := true, magicSleepFlag := true } := by
        rw [hview₂, ← hview₁, ← hcurr]
        rfl
      rw [SwitchView, hview₃, hidle]
      exact hcaught
    · rename_i hmagic
      split at h
      · cases h
        have hview : (s.modTask s.curr fun t => { t with state := .running }).view =
            s.view.setState s.curr .running :=
          view_modTask s s.curr (fun t => { t with state := .running })
            (fun t => { t with state := .running }) fun _ => rfl
        rw [SwitchView, hview]
        exact .signal hstate (eq_zero_of_not_pos hmagic)
      · obtain ⟨s₁, h₁, h⟩ := bind_eq_ok.1 h
        exact deactivate_switchView hrun (fun hpos => absurd hpos hmagic) h₁ h
  · rename_i hstate
    exact runningArm_switchView hstate h
  · rename_i hint hrun
    obtain ⟨s₁, h₁, h⟩ := bind_eq_ok.1 h
    exact deactivate_switchView hrun (fun _ => hint) h₁ h

theorem switchArrays_spec (s : State) :
    (switchArrays s).task = s.task ∧ (switchArrays s).core = s.core ∧
      (switchArrays s).arrays = s.arrays ∧ (switchArrays s).nrRunning = s.nrRunning := by
  rw [switchArrays]
  split <;> exact ⟨rfl, rfl, rfl, rfl⟩

theorem firstQueued_eq_ok {s s' : State} {n : Next} (h : firstQueued s = .ok (n, s')) :
    s' = s ∧ ∃ p, n = .task p ∧ (s.arrays s.active).Links p := by
  rw [firstQueued] at h
  split at h
  · cases h
  · rename_i hidx
    split at h
    · cases h
    · rename_i p ps hqueue
      cases h
      exact ⟨rfl, p, rfl, _, Nat.not_le.1 hidx, by rw [hqueue]; exact List.mem_cons_self⟩

theorem firstQueued_eq_error {s : State} {f : Fault} (h : firstQueued s = .error f) :
    f = .prioRange ∨ f = .emptyQueue := by
  rw [firstQueued] at h
  split at h
  · cases h
    exact Or.inl rfl
  · split at h
    · cases h
      exact Or.inr rfl
    · cases h

/-- The task picked is the idle task or the head of a queue. -/
theorem pickNextTask_spec {s s' : State} {n : Next} (h : pickNextTask s = .ok (n, s')) :
    s'.task = s.task ∧ s'.core = s.core ∧ s'.arrays = s.arrays ∧ s'.nrRunning = s.nrRunning ∧
      ∃ p, n = .task p ∧ (p = s.idle ∨ ∃ a, (s.arrays a).Links p) := by
  rw [pickNextTask] at h
  split at h
  · cases h
    exact ⟨rfl, rfl, rfl, rfl, s.idle, rfl, Or.inl rfl⟩
  · obtain ⟨htask, hcore, harrays, hrunning⟩ := switchArrays_spec s
    obtain ⟨rfl, p, rfl, hlinks⟩ := firstQueued_eq_ok h
    rw [harrays] at hlinks
    exact ⟨htask, hcore, harrays, hrunning, p, rfl, Or.inr ⟨_, hlinks⟩⟩

theorem stampSleep_view (s : State) : (stampSleep s).view = s.view :=
  view_modTask_id s s.curr (fun t => { t with sleepTimestamp := s.jiffies }) fun _ => rfl

theorem selectNext_view {s s' : State} {n : Next} (h : selectNext s = .ok (n, s')) :
    View.Select (fun p => ∃ a, (s'.arrays a).Links p) s.view n s'.view := by
  rw [selectNext] at h
  obtain ⟨f, hf, h⟩ := bind_eq_ok.1 h
  have hseg := magicSegment_view (fun p => ∃ a, (s'.arrays a).Links p) hf
  rw [stampSleep_view] at hseg
  cases f with
  | goto n₁ s₁ =>
      cases h
      exact hseg.1
  | fall s₁ =>
      obtain ⟨g, hg, h⟩ := bind_eq_ok.1 h
      have hswitch := stateSwitch_view hg
      cases g with
      | goto n₂ s₂ =>
          cases h
          exact .caught hseg hswitch
      | fall s₂ =>
          obtain ⟨htask, hcore, harrays, -, p, rfl, hp⟩ := pickNextTask_spec h
          have hview₃ : s'.view = s₂.view := view_eq hcore fun q => by rw [htask]
          rw [← harrays] at hp
          rw [hview₃]
          exact .picked hseg hswitch hp

end MagicKernel.Sched
