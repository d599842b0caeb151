import MagicKernel.SchedBase

/-! The original scheduler of the 2.4.18-14 kernel, and that the modified one extends it
conservatively: as long as no call of `sys_magic_clock` stores a non-zero duration, the two make the
same steps, with the same faults, from the same states. -/

namespace MagicKernel.Sched

open FaultMachine

/-! ### The original code

The text of `scheduler_tick` behind its test for the idle task, of the choice of the next task and of
`switch_tasks` is the same in both versions and is shared with the model of the modified code. -/

namespace Vanilla

def schedulerTick (s : State) : Except Fault State :=
  if s.curr = s.idle then .ok s else chargeTick s.curr s

/-- The switch over `prev->state`; its arms fall through. -/
def stateSwitch (s : State) : Except Fault State :=
  match (s.task s.curr).state with
  | .interruptible =>
    if (s.task s.curr).sigpending then
      .ok (s.modTask s.curr fun t => { t with state := .running })
    else deactivateTask s.curr s
  | .running => .ok s
  | _ => deactivateTask s.curr s

def selectNext (s : State) : Except Fault (Next × State) := do
  let s ← stateSwitch (stampSleep s)
  pickNextTask s

def schedule (s : State) : Except Fault State := do
  let r ← selectNext s
  switchTasks r.1 r.2

def sysSchedYield (s : State) : Except Fault State := do
  let s ← yieldRequeue s
  schedule s

def tickIfSpent (s : State) : Except Fault State :=
  if (s.task s.curr).timeSlice = 0 then
    schedulerTick (s.modTask s.curr fun t => { t with timeSlice := 1 })
  else .ok s

def doFork (child : TaskId) (vfork : Bool) (s : State) : Except Fault State :=
  let s := copyProcess child s
  if (s.task s.curr).timeSlice = 0 then .error .noTimeSlice
  else do
    let s ← tickIfSpent (shareTimeSlice child s)
    let s ← wakeUpForkedProcess child s
    return if vfork then s else s.setNeedResched s.curr

/-- The steps of the original scheduler. What does not call `schedule()` or `scheduler_tick` is as in
the modified kernel. -/
def step (s : State) : Event → Except Fault State
  | .tick => schedulerTick { s with jiffies := s.jiffies + 1 }
  | .schedule => schedule s
  | .yield => sysSchedYield s
  | .fork child vfork => doFork child vfork s
  | e => Sched.step s e

def machine : Machine State Event Fault where
  enabled := Enabled
  step := step

end Vanilla

/-! ### States without magic -/

namespace View

variable {v w : View}

/-- No process is registered and no task has magic time. -/
structure Plain (v : View) : Prop where
  magicProcess : v.magicProcess = none
  MAGICTIME : v.MAGICTIME = 0
  magicTime : ∀ p, (v.task p).magicTime = 0

theorem Plain.congr (h : Plain v) (hm : w.magicProcess = v.magicProcess)
    (htime : w.MAGICTIME = v.MAGICTIME)
    (htask : ∀ p, (w.task p).magicTime = (v.task p).magicTime ∨ (w.task p).magicTime = 0) : Plain w := by
  refine ⟨hm.trans h.magicProcess, htime.trans h.MAGICTIME, fun p => ?_⟩
  rcases htask p with heq | hzero
  · rw [heq]
    exact h.magicTime p
  · exact hzero

theorem Plain.timer (h : Plain v) (ht : Timer v w) : w = v := by
  have htime := h.MAGICTIME
  cases ht with
  | off hzero => rfl
  | count hpos => omega
  | expire hone hm => omega

theorem Plain.segment (h : Plain v) (hseg : Segment v w) : w = v := by
  have hm' := h.magicProcess
  cases hseg with
  | idle hm => rfl
  | ended hm hend =>
      rw [hm'] at hm
      cases hm
  | kept hm hzombie htime hflag =>
      rw [hm'] at hm
      cases hm

theorem Plain.select (h : Plain v) {Q : TaskId → Prop} {n : Next} (hselect : Select Q v n w) :
    Plain w := by
  have hm' := h.magicProcess
  cases hselect with
  | resume hm htime hflag hstate =>
      rw [hm'] at hm
      cases hm
  | wait hm htime hflag hstate =>
      rw [hm'] at hm
      cases hm
  | caught hseg hcaught =>
      cases h.segment hseg
      have hpos := hcaught.magicTime_pos
      rw [h.magicTime] at hpos
      exact absurd hpos (UInt32.lt_irrefl 0)
  | picked hseg hpassed hn =>
      cases h.segment hseg
      have hcore := hpassed.core_eq
      exact h.congr (congrArg Core.magicProcess hcore) (congrArg Core.MAGICTIME hcore)
        fun p => Or.inl (hpassed.task_eq p).2.1

theorem Plain.modTask (h : Plain v) {p : TaskId} {f : TaskView → TaskView}
    (hf : (f (v.task p)).magicTime = 0) : Plain (v.modTask p f) := by
  refine h.congr rfl rfl fun q => ?_
  by_cases hq : q = p
  · subst hq
    right
    simp only [View.modTask, Function.update_self]
    exact hf
  · left
    simp only [View.modTask, Function.update_of_ne hq]

theorem Plain.fork (h : Plain v) (child : TaskId) : Plain (v.fork child) := by
  refine h.congr rfl rfl fun q => ?_
  by_cases hq : q = child
  · subst hq
    right
    simp only [View.fork, Function.update_self]
  · left
    simp only [View.fork, Function.update_of_ne hq]

/-- A call of `sys_magic_clock` that stores a non-zero duration. -/
def Requests (v : View) (e : Event) : Prop :=
  ∃ seconds, e = .magicClock seconds ∧ (v.task v.curr).holdingWand = true ∧
    seconds * UInt32.ofNat hz ≠ 0

theorem Plain.step (h : Plain v) {last : Bool} {e : Event} (hstep : Step last v e w)
    (hrequest : ¬Requests v e) : Plain w := by
  cases hstep with
  | tick ht =>
      have h' : Plain { v with jiffies := v.jiffies + 1 } := ⟨h.magicProcess, h.MAGICTIME, h.magicTime⟩
      rw [h'.timer ht]
      exact h'
  | wake hp hidle => exact h.modTask (h.magicTime _)
  | signal => exact h
  | setState hidle => exact h.modTask (h.magicTime _)
  | schedule hselect =>
      have hw := h.select hselect
      exact ⟨hw.magicProcess, hw.MAGICTIME, hw.magicTime⟩
  | yield hidle hselect =>
      have hw := h.select hselect
      exact ⟨hw.magicProcess, hw.MAGICTIME, hw.magicTime⟩
  | fork hidle hchild hlast => exact (h.fork _).modTask ((h.fork _).magicTime _)
  | forkTick hidle hchild hlast ht =>
      rw [(h.fork _).timer ht]
      exact (h.fork _).modTask ((h.fork _).magicTime _)
  | release hidle hp hcurr hstate hqueued => exact ⟨h.magicProcess, h.MAGICTIME, h.magicTime⟩
  | getWand hidle => exact h.modTask (h.magicTime _)
  | @magicClock seconds hidle =>
      rw [View.magicClock]
      split
      · rename_i hwand
        refine h.modTask ?_
        by_contra hne
        exact hrequest ⟨seconds, rfl, hwand, hne⟩
      · exact h

end View

/-! ### Agreement -/

section

variable {s : State}

theorem schedulerTick_eq_vanilla (h : s.view.Plain) : schedulerTick s = Vanilla.schedulerTick s := by
  have htime : ¬0 < s.MAGICTIME := by
    rw [show s.MAGICTIME = 0 from h.MAGICTIME]
    exact Int.lt_irrefl 0
  unfold schedulerTick magicTimer Vanilla.schedulerTick
  rw [if_neg htime]
  rfl

theorem runningArm_eq (h : s.view.Plain) : runningArm s = .ok (.fall s) := by
  unfold runningArm
  rw [if_neg]
  rw [show (s.task s.curr).magicTime = 0 from h.magicTime s.curr]
  exact UInt32.lt_irrefl 0

theorem deactivate_runningArm_eq (h : s.view.Plain) :
    (deactivateTask s.curr s >>= runningArm) = (deactivateTask s.curr s >>= fun s => .ok (.fall s)) := by
  cases hstep : deactivateTask s.curr s with
  | error f => rfl
  | ok s₁ =>
      have hview := (deactivateTask_view hstep).2
      have hplain : s₁.view.Plain := by
        rw [hview]
        exact h.modTask (h.magicTime _)
      exact runningArm_eq hplain

theorem stateSwitch_eq_vanilla (h : s.view.Plain) :
    stateSwitch s = Vanilla.stateSwitch s >>= fun s => .ok (.fall s) := by
  have hmagic : ¬0 < (s.task s.curr).magicTime := by
    rw [show (s.task s.curr).magicTime = 0 from h.magicTime s.curr]
    exact UInt32.lt_irrefl 0
  unfold stateSwitch Vanilla.stateSwitch
  cases hstate : (s.task s.curr).state with
  | running => exact runningArm_eq h
  | interruptible =>
      dsimp only
      rw [if_neg hmagic]
      split
      · rfl
      · exact deactivate_runningArm_eq h
  | uninterruptible => exact deactivate_runningArm_eq h
  | zombie => exact deactivate_runningArm_eq h
  | stopped => exact deactivate_runningArm_eq h

theorem selectNext_eq_vanilla (h : s.view.Plain) : selectNext s = Vanilla.selectNext s := by
  have hplain : (stampSleep s).view.Plain := by
    rw [stampSleep_view]
    exact h
  have hseg : magicSegment (stampSleep s) = .ok (.fall (stampSleep s)) := by
    unfold magicSegment
    rw [show (stampSleep s).magicProcess = none from hplain.magicProcess]
  unfold selectNext Vanilla.selectNext
  rw [hseg]
  simp only [bind, Except.bind]
  rw [stateSwitch_eq_vanilla hplain]
  cases Vanilla.stateSwitch (stampSleep s) with
  | error f => rfl
  | ok s₁ => rfl

theorem schedule_eq_vanilla (h : s.view.Plain) : schedule s = Vanilla.schedule s := by
  unfold schedule Vanilla.schedule
  rw [selectNext_eq_vanilla h]

theorem sysSchedYield_eq_vanilla (h : s.view.Plain) : sysSchedYield s = Vanilla.sysSchedYield s := by
  unfold sysSchedYield Vanilla.sysSchedYield
  cases hstep : yieldRequeue s with
  | error f => rfl
  | ok s₁ =>
      refine schedule_eq_vanilla ?_
      rw [yieldRequeue_view hstep]
      exact h

theorem doFork_eq_vanilla (h : s.view.Plain) (child : TaskId) (vfork : Bool) :
    doFork child vfork s = Vanilla.doFork child vfork s := by
  have hplain : (shareTimeSlice child (copyProcess child s)).view.Plain := by
    rw [shareTimeSlice_view, copyProcess_view]
    exact h.fork child
  have htick : tickIfSpent (shareTimeSlice child (copyProcess child s)) =
      Vanilla.tickIfSpent (shareTimeSlice child (copyProcess child s)) := by
    unfold tickIfSpent Vanilla.tickIfSpent
    split
    · refine schedulerTick_eq_vanilla ?_
      rw [view_modTask_id _ _ (fun t => { t with timeSlice := 1 }) fun _ => rfl]
      exact hplain
    · rfl
  unfold doFork Vanilla.doFork
  dsimp only
  rw [htick]

theorem step_eq_vanilla (h : s.view.Plain) (e : Event) : step s e = Vanilla.step s e := by
  cases e with
  | tick =>
      have hplain : { s with jiffies := s.jiffies + 1 }.view.Plain :=
        ⟨h.magicProcess, h.MAGICTIME, h.magicTime⟩
      exact schedulerTick_eq_vanilla hplain
  | schedule => exact schedule_eq_vanilla h
  | yield => exact sysSchedYield_eq_vanilla h
  | fork child vfork => exact doFork_eq_vanilla h child vfork
  | wake p => rfl
  | signal p pending => rfl
  | setState state => rfl
  | release p => rfl
  | getWand => rfl
  | magicClock seconds => rfl

end

/-- A call of `sys_magic_clock` that stores a non-zero duration. -/
def Requests (s : State) (e : Event) : Prop :=
  ∃ seconds, e = .magicClock seconds ∧ (s.task s.curr).holdingWand = true ∧
    seconds * UInt32.ofNat hz ≠ 0

theorem plain_of_noMagic {s : State} (h : NoMagic s) : s.view.Plain :=
  ⟨h.magicProcess, h.MAGICTIME, h.magicTime⟩

theorem plain_step {s s' : State} {e : Event} (hsound : Sound s) (h : s.view.Plain)
    (hstep : (machine.restrict fun s e => ¬Requests s e).Step s e s') : s'.view.Plain := by
  obtain ⟨hrequest, hstep⟩ := Machine.restrict_step.1 hstep
  exact h.step (hsound.view_step hstep) hrequest

/-- From an initial state, the runs without requests for magic are the same for the modified and the
original scheduler, and at every state of such a run every step, tick, call of `schedule()` and choice
of the next task is the same, faults included. -/
theorem conservative_extension {s₀ s : State} {es : List Event} (hinit : Initial s₀) :
    ((machine.restrict fun s e => ¬Requests s e).Run s₀ es s ↔
      (Vanilla.machine.restrict fun s e => ¬Requests s e).Run s₀ es s) ∧
    ((machine.restrict fun s e => ¬Requests s e).Run s₀ es s →
      schedulerTick s = Vanilla.schedulerTick s ∧ selectNext s = Vanilla.selectNext s ∧
      schedule s = Vanilla.schedule s ∧ ∀ e, step s e = Vanilla.step s e) := by
  have hstep : ∀ s e t, Sound s ∧ s.view.Plain →
      (machine.restrict fun s e => ¬Requests s e).Step s e t → Sound t ∧ t.view.Plain :=
    fun s e t hs hstep =>
      ⟨hs.1.step (Machine.restrict_step.1 hstep).2, plain_step hs.1 hs.2 hstep⟩
  have hs₀ : Sound s₀ ∧ s₀.view.Plain := ⟨sound_of_initial hinit, plain_of_noMagic hinit.noMagic⟩
  refine ⟨Machine.run_iff_of_invariant hstep (fun s e t hs => ?_) hs₀, fun hrun => ?_⟩
  · have heq : machine.step s e = Vanilla.machine.step s e := step_eq_vanilla hs.2 e
    rw [Machine.restrict_step, Machine.restrict_step, Machine.Step, Machine.Step, heq]
    rfl
  · have hplain := (hrun.invariant hstep hs₀).2
    exact ⟨schedulerTick_eq_vanilla hplain, selectNext_eq_vanilla hplain, schedule_eq_vanilla hplain,
      step_eq_vanilla hplain⟩

section Boot

instance (s : State) (e : Event) : Decidable (Requests s e) :=
  match e with
  | .magicClock seconds => decidable_of_iff ((s.task s.curr).holdingWand = true ∧
      seconds * UInt32.ofNat hz ≠ 0)
      ⟨fun h => ⟨seconds, rfl, h⟩, fun ⟨_, he, h⟩ => by cases he; exact h⟩
  | .tick | .wake _ | .signal _ _ | .setState _ | .schedule | .yield | .fork _ _ | .release _
  | .getWand => .isFalse fun ⟨_, he, _⟩ => by cases he

/-- `init` and its child take turns; `init` holds a wand and asks for no time. -/
def turns : List Event :=
  [.schedule, .fork 2 false, .getWand, .magicClock 0, .tick, .setState .interruptible, .schedule, .tick,
    .wake 1, .yield]

theorem conservative_extension_turns :
    (Vanilla.machine.restrict fun s e => ¬Requests s e).Run boot turns
      ((machine.restrict fun s e => ¬Requests s e).after boot turns) ∧
    selectNext ((machine.restrict fun s e => ¬Requests s e).after boot turns) =
      Vanilla.selectNext ((machine.restrict fun s e => ¬Requests s e).after boot turns) := by
  have hrun : (machine.restrict fun s e => ¬Requests s e).Run boot turns
      ((machine.restrict fun s e => ¬Requests s e).after boot turns) :=
    Machine.run_after (by decide +kernel)
  obtain ⟨hiff, hagree⟩ := @conservative_extension boot _ turns boot_initial
  exact ⟨hiff.1 hrun, (hagree hrun).2.1⟩

end Boot

end MagicKernel.Sched
