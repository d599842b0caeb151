import MagicKernel.SchedArrays
import MagicKernel.SchedDispatch

/-! Calls of `schedule()` that come to `switch_tasks`. With an accurate run queue every task that has to be
dequeued is linked in the array it names, and the search for the next task finds one. What remains is the
registered process that has left the run queue unnoticed: the call that ends its period faults. -/

namespace MagicKernel.Sched

open FaultMachine

/-! ### The parts of `schedule()` -/

section Progress

variable {s : State} {m : TaskId}

/-- The priority is lowered without a fault if the process is queued whenever it has to be requeued. -/
theorem exists_lowerPrio (hqueue : QueueInv s)
    (hqueued : s.magicSleepFlag = false → (s.task m).array ≠ none) : ∃ s', lowerPrio m s = .ok s' := by
  by_cases hflag : s.magicSleepFlag = false
  · obtain ⟨a, ha⟩ := Option.ne_none_iff_exists'.1 (hqueued hflag)
    have hprio := hqueue.prio_lt m (hqueued hflag)
    have hlinks : (s.arrays a).Links m := (hqueue.linked a m).2 ha
    have hdequeue : dequeueTask m (s.task m).array s =
        .ok (s.setArray a ((s.arrays a).remove m (s.task m).prio)) :=
      dequeueTask_eq_ok.2 ⟨a, ha, hlinks, hprio, rfl⟩
    rw [lowerPrio, if_pos hflag, hdequeue, ok_bind]
    refine ⟨_, enqueueTask_eq_ok.2 ⟨a, ?_, ?_, rfl⟩⟩
    · by_cases hcurr : m = s.curr
      · subst hcurr
        rw [State.modTask_task, State.setArray_curr, Function.update_self]
        exact ha
      · rw [State.modTask_task, State.setArray_curr, Function.update_of_ne hcurr]
        exact ha
    · by_cases hcurr : m = s.curr
      · subst hcurr
        rw [State.modTask_task, State.setArray_curr, Function.update_self]
        show 130 < maxPrio
        decide
      · rw [State.modTask_task, State.setArray_curr, Function.update_of_ne hcurr]
        exact hprio
  · rw [lowerPrio, if_neg hflag]
    exact ⟨_, rfl⟩

theorem exists_exitFromMagic (hqueue : QueueInv s) (hm : s.magicProcess = some m)
    (hqueued : s.magicSleepFlag = false → (s.task m).array ≠ none) : ∃ s', exitFromMagic s = .ok s' := by
  obtain ⟨s₁, h₁⟩ := exists_lowerPrio hqueue hqueued
  rw [exitFromMagic, hm]
  dsimp only
  rw [h₁]
  exact ⟨_, rfl⟩

theorem exists_magicSegment (hexit : ∀ m, s.magicProcess = some m →
    (s.task m).state = .zombie ∨ (renewMagic m s).MAGICTIME = 0 →
    ∃ s₁, exitFromMagic (renewMagic m s) = .ok s₁) : ∃ f, magicSegment s = .ok f := by
  rw [magicSegment]
  split
  · exact ⟨_, rfl⟩
  · rename_i m hm
    dsimp only
    rw [renewMagic_task, renewMagic_idleFromMagic]
    split
    · rename_i hzombie
      obtain ⟨s₁, h₁⟩ := hexit m hm (Or.inl hzombie)
      rw [h₁]
      exact ⟨_, rfl⟩
    · rename_i hzombie
      split
      · rename_i htime
        obtain ⟨s₁, h₁⟩ := hexit m hm (Or.inr htime)
        rw [h₁]
        exact ⟨_, rfl⟩
      · split
        · split
          · exact ⟨_, rfl⟩
          · exact ⟨_, rfl⟩
          · rename_i hstate
            exact absurd hstate hzombie
          · exact ⟨_, rfl⟩
        · exact ⟨_, rfl⟩

/-- A task that is on the run queue can yield. -/
theorem exists_yieldRequeue (hqueue : QueueInv s) (hqueued : (s.task s.curr).array ≠ none) :
    ∃ s', yieldRequeue s = .ok s' := by
  obtain ⟨a, ha⟩ := Option.ne_none_iff_exists'.1 hqueued
  have hlinks : (s.arrays a).Links s.curr := (hqueue.linked a s.curr).2 ha
  have hprio := hqueue.prio_lt s.curr hqueued
  rw [yieldRequeue, ha]
  dsimp only
  rw [if_neg (not_not.2 hlinks), if_neg (Nat.not_le.2 hprio)]
  split
  · exact ⟨_, rfl⟩
  · split
    · exact ⟨_, rfl⟩
    · exact ⟨_, rfl⟩

/-- A task that is on the run queue can be deactivated. -/
theorem exists_deactivateTask {p : TaskId} (hqueue : QueueInv s) (hqueued : (s.task p).array ≠ none) :
    ∃ s', deactivateTask p s = .ok s' := by
  obtain ⟨a, ha⟩ := Option.ne_none_iff_exists'.1 hqueued
  have hlinks : (s.arrays a).Links p := (hqueue.linked a p).2 ha
  have hprio := hqueue.prio_lt p hqueued
  unfold deactivateTask
  dsimp only
  generalize hs₁ : (if (s.task p).state = .uninterruptible then
    { s with nrRunning := s.nrRunning - 1, nrUninterruptible := s.nrUninterruptible + 1 }
    else { s with nrRunning := s.nrRunning - 1 }) = s₁
  have hsame : s₁.task = s.task ∧ s₁.arrays = s.arrays := by
    rw [← hs₁]
    split <;> exact ⟨rfl, rfl⟩
  obtain ⟨htask, harrays⟩ := hsame
  rw [dequeueTask_eq_ok.2 ⟨a, by rw [htask]; exact ha, by rw [harrays]; exact hlinks, by rw [htask]; exact hprio, rfl⟩]
  exact ⟨_, rfl⟩

/-- A task that is on the run queue can start its period. -/
theorem exists_startMagic (hqueue : QueueInv s) (hqueued : (s.task s.curr).array ≠ none) :
    ∃ s', startMagic s = .ok s' := by
  obtain ⟨a, ha⟩ := Option.ne_none_iff_exists'.1 hqueued
  have hlinks : (s.arrays a).Links s.curr := (hqueue.linked a s.curr).2 ha
  have hprio := hqueue.prio_lt s.curr hqueued
  unfold startMagic
  dsimp only
  generalize hs₁ : State.modTask _ s.curr _ = s₁
  have hself : (s₁.task s.curr).array = some a ∧
      (s₁.task s.curr).prio = (s.task s.curr).prio ∧ s₁.arrays = s.arrays := by
    rw [← hs₁, State.modTask_task, Function.update_self]
    exact ⟨ha, rfl, rfl⟩
  obtain ⟨harray, hprio₁, harrays⟩ := hself
  have hdequeue : dequeueTask s.curr (s₁.task s.curr).array s₁ =
      .ok (s₁.setArray a ((s₁.arrays a).remove s.curr (s₁.task s.curr).prio)) :=
    dequeueTask_eq_ok.2 ⟨a, harray, by rw [harrays]; exact hlinks, by rw [hprio₁]; exact hprio, rfl⟩
  rw [hdequeue, ok_bind]
  generalize hs₂ : State.modTask (State.setArray _ _ _) s.curr _ = s₂
  have hself₂ : (s₂.task s.curr).array = some a ∧ (s₂.task s.curr).prio = 50 := by
    rw [← hs₂, State.modTask_task, Function.update_self]
    exact ⟨harray, rfl⟩
  rw [enqueueTask_eq_ok.2 ⟨a, hself₂.1, by rw [hself₂.2]; decide, rfl⟩]
  exact ⟨_, rfl⟩

theorem exists_startUnlessStarted (hqueue : QueueInv s) (hqueued : (s.task s.curr).array ≠ none) :
    ∃ s', startUnlessStarted s = .ok s' := by
  rw [startUnlessStarted]
  split
  · exact exists_startMagic hqueue hqueued
  · exact ⟨_, rfl⟩

/-- The start of a period leaves the current task on the run queue. -/
theorem startUnlessStarted_queued {s' : State} (h : startUnlessStarted s = .ok s')
    (hqueued : (s.task s.curr).array ≠ none) : (s'.task s'.curr).array ≠ none := by
  rw [startUnlessStarted] at h
  split at h
  · obtain ⟨-, htask, hcore⟩ := startMagic_spec h
    have hcurr : s'.curr = s.curr := congrArg Core.curr hcore
    rw [hcurr, htask, Function.update_self]
    exact hqueued
  · cases h
    exact hqueued

/-- The state switch does not fault if the current task is on the run queue, as long as it does not fall
through. -/
theorem exists_stateSwitch (hqueue : QueueInv s) (hbase : s.view.Base) (htidy : s.view.Tidy)
    (hfall : ¬FallThroughFault s.view) : ∃ f, stateSwitch s = .ok f := by
  by_cases hidle : s.curr = s.idle
  · have hstate : (s.task s.curr).state = .running := by
      rw [hidle]
      exact hbase.idle_state
    have hmagic : ¬0 < (s.task s.curr).magicTime := by
      have hzero : (s.task s.idle).magicTime = 0 := hbase.idle_magicTime
      rw [hidle, hzero]
      exact UInt32.lt_irrefl 0
    rw [stateSwitch, hstate]
    dsimp only
    rw [runningArm, if_neg hmagic]
    exact ⟨_, rfl⟩
  have hqueued : (s.task s.curr).array ≠ none := queued_eq_true.1 (htidy.curr_queued hidle)
  obtain ⟨s₁, h₁⟩ := exists_startUnlessStarted hqueue hqueued
  obtain ⟨s₂, h₂⟩ := exists_deactivateTask hqueue hqueued
  have hmagic₂ : (s₂.task s₂.curr).magicTime = (s.task s.curr).magicTime := by
    have hframe := frame_deactivateTask h₂
    rw [hframe.curr, hframe.task_self]
  rw [stateSwitch]
  split
  · rename_i hstate
    split
    · have hlocated : Located { s₁ with idleFromMagic := true, magicSleepFlag := true }.place 0
          { s₁ with idleFromMagic := true, magicSleepFlag := true } :=
        ((queueInv_iff.1 hqueue).startUnlessStarted h₁).congr rfl rfl fun _ => rfl
      have hqueued₁ := startUnlessStarted_queued h₁ hqueued
      obtain ⟨s₃, h₃⟩ := exists_deactivateTask (queueInv_iff.2 hlocated) hqueued₁
      rw [h₁, ok_bind]
      dsimp only
      rw [h₃]
      exact ⟨_, rfl⟩
    · split
      · exact ⟨_, rfl⟩
      · rename_i hmagic _
        rw [h₂, ok_bind, runningArm, hmagic₂, if_neg hmagic]
        exact ⟨_, rfl⟩
  · rename_i hstate
    rw [runningArm]
    split
    · rw [h₁]
      exact ⟨_, rfl⟩
    · exact ⟨_, rfl⟩
  · rename_i hint hrun
    have hmagic : ¬0 < (s.task s.curr).magicTime := fun hmagic => hfall ⟨hmagic, hrun, hint⟩
    rw [h₂, ok_bind, runningArm, hmagic₂, if_neg hmagic]
    exact ⟨_, rfl⟩

end Progress

/-! ### Runs -/

/-- The call ends the period of the registered process, which is not on the run queue although
`magic_sleep_flag` is not set. -/
def Missing (s : State) (e : Event) : Prop :=
  (e = .schedule ∨ e = .yield) ∧ Exposed s ∧ ∃ m, s.magicProcess = some m ∧ EndsPeriod s m e

instance (s : State) (e : Event) : Decidable (Missing s e) :=
  inferInstanceAs (Decidable (_ ∧ (∃ m, _ = some m ∧ _ ∧ _) ∧ ∃ m, _ = some m ∧ _))

/-- The call neither falls through nor is contested; a period that it ends is that of a process whose priority
is not written where it is queued, and which is not missing from the run queue. -/
def Orderly (s : State) (e : Event) : Prop :=
  ¬FallThrough s e ∧ ¬Contested s e ∧ RequeuesDemoted s e ∧ ¬Missing s e

section Select

variable {s s' : State}

/-- What a call of `schedule()` needs to come to `switch_tasks`. -/
structure Ready (s : State) : Prop where
  queue : QueueInv s
  sides : s.active ≠ s.expired
  base : s.view.Base
  cons : s.view.Consistent
  tidy : s.view.Tidy
  free : ¬s.view.Contested
  fall : ¬s.view.FallThrough
  demoted : ∀ m, s.magicProcess = some m → (s.task m).state = .zombie ∨ renewedTime s m = 0 → ¬StaleDemotion s m
  placed : ∀ m, s.magicProcess = some m → (s.task m).state = .zombie ∨ renewedTime s m = 0 →
    s.magicSleepFlag = false → (s.task m).array ≠ none

theorem Ready.exists_magicSegment (h : Ready s) : ∃ f, magicSegment (stampSleep s) = .ok f := by
  refine Sched.exists_magicSegment fun m hm hend => ?_
  have hstamp : Located (stampSleep s).place 0 (stampSleep s) := (queueInv_iff.1 h.queue).modTask rfl
  have hprocess : (renewMagic m (stampSleep s)).magicProcess = some m := (renewMagic_magicProcess _ _).trans hm
  refine exists_exitFromMagic (queueInv_iff.2 (hstamp.renewMagic m)) hprocess fun hflag => ?_
  rw [stampSleep_state, renewMagic_MAGICTIME, renewedTime_view, stampSleep_renewedTime] at hend
  rw [renewMagic_magicSleepFlag] at hflag
  rw [renewMagic_task, ← queued_eq_true]
  have hqueued := queued_eq_true.2 (h.placed m hm hend hflag)
  rw [← stampSleep_view s] at hqueued
  exact hqueued

/-- Such a call comes to `switch_tasks`. -/
theorem Ready.exists_selectNext (h : Ready s) : ∃ next s', selectNext s = .ok (next, s') := by
  obtain ⟨f, hf⟩ := h.exists_magicSegment
  rw [selectNext, hf, ok_bind]
  cases f with
  | goto next u => exact ⟨next, u, rfl⟩
  | fall u =>
      have hstamp : Located (stampSleep s).place 0 (stampSleep s) := (queueInv_iff.1 h.queue).modTask rfl
      have hlocated : Located u.place 0 u := by
        refine hstamp.magicSegment (f := .fall u) (fun m hm hend hstale => ?_) hf
        rw [stampSleep_state, stampSleep_renewedTime] at hend
        refine h.demoted m hm hend (hstale.congr rfl rfl fun q => ?_)
        exact congrFun (loc_modTask s s.curr (fun t => { t with sleepTimestamp := s.jiffies }) fun _ => rfl) q
      have hseg : View.Segment s.view u.view := by
        have hview := magicSegment_view (fun _ => True) hf
        rwa [FlowView, stampSleep_view] at hview
      obtain ⟨g, hg⟩ := exists_stateSwitch (queueInv_iff.2 hlocated) (h.base.segment hseg) (h.tidy.segment hseg)
        fun hthrough => h.fall (hseg.fallThrough hthrough)
      dsimp only
      rw [hg, ok_bind]
      cases g with
      | goto next w => exact ⟨next, w, rfl⟩
      | fall w =>
          have hsides : w.sides = s.sides := (stateSwitch_sides hg).trans (magicSegment_sides hf)
          obtain ⟨hactive, hexpired⟩ := Prod.mk.inj hsides
          obtain ⟨p, s', hpick⟩ := Located.exists_pickNextTask (hlocated.stateSwitch hg) (by
            show w.active ≠ w.expired
            rw [hactive, hexpired]
            exact h.sides)
          exact ⟨.task p, s', hpick⟩

theorem Ready.dispatched (h : Ready s) : ∃ next s', selectNext s = .ok (next, s') ∧ Dispatched s next s' := by
  obtain ⟨next, s', hstep⟩ := h.exists_selectNext
  exact ⟨next, s', hstep, selectNext_dispatched h.queue.linked h.base h.cons h.tidy h.free h.fall hstep⟩

theorem Ready.yieldRequeue (h : Ready s) (hstep : yieldRequeue s = .ok s') : Ready s' := by
  have hview := yieldRequeue_view hstep
  obtain ⟨hactive, hexpired⟩ := Prod.mk.inj (yieldRequeue_sides hstep)
  obtain ⟨-, k, hframe, -⟩ := yieldRequeue_spec hstep
  have hflag : s'.magicSleepFlag = s.magicSleepFlag := congrArg Core.magicSleepFlag hframe.core
  have hloc : ∀ q, s'.loc q = s.loc q := fun q => by
    rw [loc_of_update hframe.task q]
    exact congrFun (Function.update_eq_self s.curr s.loc) q
  have hend : ∀ m, (s'.task m).state = .zombie ∨ renewedTime s' m = 0 →
      (s.task m).state = .zombie ∨ renewedTime s m = 0 := by
    intro m hend
    have hstate : (s'.task m).state = (s.task m).state := congrArg (fun v : View => (v.task m).state) hview
    rwa [yieldRequeue_renewedTime hstep, hstate] at hend
  refine ⟨queueInv_iff.2 ((queueInv_iff.1 h.queue).yieldRequeue hstep), ?_, ?_, ?_, ?_, ?_, ?_,
    fun m hm hends hstale => ?_,
    fun m hm hends hflag' harray => ?_⟩
  · rw [hactive, hexpired]
    exact h.sides
  · rw [hview]
    exact h.base
  · rw [hview]
    exact h.cons
  · rw [hview]
    exact h.tidy
  · rw [hview]
    exact h.free
  · rw [hview]
    exact h.fall
  · exact h.demoted m (hframe.magicProcess ▸ hm) (hend m hends) (hstale.congr hframe.curr hflag hloc)
  · exact h.placed m (hframe.magicProcess ▸ hm) (hend m hends) (hflag ▸ hflag') ((hloc m).symm.trans harray)

end Select

/-- In a run of orderly calls, every orderly call of `schedule()`, made directly or by
`sys_sched_yield`, comes to `switch_tasks` with `next` assigned: it is the idle task or a
runnable task on the run queue, and it is not a caller that neither runs nor sleeps interruptibly. -/
theorem dispatched_of_orderly {s : State} (h : (machine.restrict Orderly).Reachable Initial s)
    (horderly : Orderly s .schedule) :
    (∃ next s', selectNext s = .ok (next, s') ∧ Dispatched s next s') ∧
    (s.curr ≠ s.idle → ∃ s₁, yieldRequeue s = .ok s₁ ∧
      ∃ next s', selectNext s₁ = .ok (next, s') ∧ Dispatched s₁ next s') := by
  obtain ⟨hfall, hfree, hrequeue, hmissing⟩ := horderly
  obtain ⟨hcons, htidy⟩ := tidy_of_reachable (fun s e _ hc => ⟨hc.1, hc.2.1⟩) h
  have hready : Ready s := {
    queue := queueInv_of_requeuesDemoted (h.restrict_mono fun _ _ hc => hc.2.2.1)
    sides := active_ne_expired h.of_restrict
    base := (sound_of_reachable h.of_restrict).base
    cons := hcons
    tidy := htidy
    free := fun hc => hfree ⟨Or.inl rfl, contested_view.1 hc⟩
    fall := fun hf => hfall ⟨Or.inl rfl, hf⟩
    demoted := fun m hm hend hstale => hrequeue ⟨m, hm, hend, hstale⟩
    placed := fun m hm hend hflag harray => hmissing ⟨Or.inl rfl, ⟨m, hm, hflag, harray⟩, m, hm, hend⟩ }
  refine ⟨hready.dispatched, fun hidle => ?_⟩
  obtain ⟨s₁, h₁⟩ := exists_yieldRequeue hready.queue (queued_eq_true.1 (htidy.curr_queued hidle))
  exact ⟨s₁, h₁, (hready.yieldRequeue h₁).dispatched⟩

section Boot

instance (s : State) (e : Event) : Decidable (Orderly s e) :=
  inferInstanceAs (Decidable (_ ∧ _ ∧ _ ∧ _))

/-- `init`, in its period, goes to sleep. -/
def dozing : State :=
  (machine.restrict Orderly).after boot [.schedule, .fork 2 false, .getWand, .magicClock 1, .schedule,
    .setState .interruptible]

theorem dispatched_dozing : dozing.magicProcess = some 1 ∧ dozing.curr = 1 ∧
    ∃ next s', selectNext dozing = .ok (next, s') ∧ Dispatched dozing next s' := by
  have hreach : (machine.restrict Orderly).Reachable Initial dozing :=
    ⟨boot, _, boot_initial, Machine.run_after (by decide +kernel)⟩
  exact ⟨by decide +kernel, by decide +kernel, (dispatched_of_orderly hreach (by decide +kernel)).1⟩

/-- `init` blocks uninterruptibly within its period. -/
def blockedInPeriod : State :=
  machine.after boot [.schedule, .getWand, .magicClock 1, .schedule, .setState .uninterruptible]

theorem blockedInPeriod_keeps_cpu : machine.Reachable Initial blockedInPeriod ∧
    (blockedInPeriod.task blockedInPeriod.curr).state = .uninterruptible ∧
    machine.Step blockedInPeriod .schedule (machine.after blockedInPeriod [.schedule]) ∧
    (machine.after blockedInPeriod [.schedule]).curr = blockedInPeriod.curr ∧
    blockedInPeriod.curr ≠ blockedInPeriod.idle ∧
    ((machine.after blockedInPeriod [.schedule]).task blockedInPeriod.curr).state = .uninterruptible ∧
    ((machine.after blockedInPeriod [.schedule]).task blockedInPeriod.curr).array = none :=
  ⟨⟨boot, _, boot_initial, Machine.run_after (by decide +kernel)⟩, by decide +kernel,
    Machine.step_after (by decide +kernel), by decide +kernel, by decide +kernel, by decide +kernel,
    by decide +kernel⟩

end Boot

end MagicKernel.Sched
