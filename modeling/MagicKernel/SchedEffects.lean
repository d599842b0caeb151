import MagicKernel.SchedDequeue

/-! What steps do to the priorities and the time slices of tasks. A tick charges the current task, a
wake-up may recompute a priority; `schedule()` changes neither, unless it ends or starts a period. -/

namespace MagicKernel.Sched

open FaultMachine

/-- Priority, policy and time slice stay. -/
structure Kept (t t' : Task) : Prop where
  prio : t'.prio = t.prio
  policy : t'.policy = t.policy
  timeSlice : t'.timeSlice = t.timeSlice

namespace Kept

theorem refl (t : Task) : Kept t t := ⟨rfl, rfl, rfl⟩

theorem trans {t t' t'' : Task} (h : Kept t t') (h' : Kept t' t'') : Kept t t'' :=
  ⟨h'.prio.trans h.prio, h'.policy.trans h.policy, h'.timeSlice.trans h.timeSlice⟩

end Kept

theorem Same.kept {t t' : Task} (h : Same t t') : Kept t t' := ⟨h.prio, h.policy, h.timeSlice⟩

theorem kept_modTask (s : State) (p : TaskId) (f : Task → Task) (h : ∀ t, Kept t (f t)) (q : TaskId) :
    Kept (s.task q) ((s.modTask p f).task q) := by
  rw [State.modTask_task]
  by_cases hq : q = p
  · subst hq
    rw [Function.update_self]
    exact h _
  · rw [Function.update_of_ne hq]
    exact Kept.refl _

theorem kept_update {s s' : State} {p : TaskId} {t : Task} (h : Frame p t s s')
    (ht : Kept (s.task p) t) (q : TaskId) : Kept (s.task q) (s'.task q) := by
  by_cases hq : q = p
  · subst hq
    rw [h.task_self]
    exact ht
  · rw [h.task_of_ne hq]
    exact Kept.refl _

theorem kept_deactivateTask {p : TaskId} {s s' : State} (h : deactivateTask p s = .ok s') (q : TaskId) :
    Kept (s.task q) (s'.task q) := kept_update (frame_deactivateTask h) ⟨rfl, rfl, rfl⟩ q

theorem kept_stampSleep (s : State) (q : TaskId) : Kept (s.task q) ((stampSleep s).task q) :=
  kept_modTask s s.curr (fun t => { t with sleepTimestamp := s.jiffies }) (fun _ => ⟨rfl, rfl, rfl⟩) q

/-- The tasks after `exit_from_magic` depend on those before it only through what it keeps. -/
theorem kept_tasksAfterExit {s s' : State} (h : ∀ q, Kept (s.task q) (s'.task q)) {m : TaskId}
    (hdemoted : s'.demoted m = s.demoted m) (q : TaskId) :
    Kept (s.tasksAfterExit m q) (s'.tasksAfterExit m q) := by
  have hprio : ∀ q, Kept
      (Function.update s.task (s.demoted m) { s.task (s.demoted m) with prio := 130 } q)
      (Function.update s'.task (s'.demoted m) { s'.task (s'.demoted m) with prio := 130 } q) := by
    intro q
    rw [hdemoted]
    by_cases hq : q = s.demoted m
    · subst hq
      rw [Function.update_self, Function.update_self]
      exact ⟨rfl, (h _).policy, (h _).timeSlice⟩
    · rw [Function.update_of_ne hq, Function.update_of_ne hq]
      exact h q
  rw [State.tasksAfterExit, State.tasksAfterExit]
  by_cases hq : q = m
  · subst hq
    rw [Function.update_self, Function.update_self]
    exact ⟨(hprio q).prio, (hprio q).policy, rfl⟩
  · rw [Function.update_of_ne hq, Function.update_of_ne hq]
    exact hprio q

/-- The priorities, policies and slices at the end of the magic segment of `schedule()`. -/
def SegmentTasks (s s' : State) : Prop :=
  (s'.magicProcess = s.magicProcess ∧ ∀ q, Kept (s.task q) (s'.task q)) ∨
  ∃ m, s.magicProcess = some m ∧ ((s.task m).state = .zombie ∨ renewedTime s m = 0) ∧
    s'.magicProcess = none ∧ ∀ q, Kept (s.tasksAfterExit m q) (s'.task q)

theorem stampSleep_state (s : State) (p : TaskId) :
    ((stampSleep s).task p).state = (s.task p).state :=
  congrArg (fun v : View => (v.task p).state) (stampSleep_view s)

theorem stampSleep_renewedTime (s : State) (m : TaskId) :
    renewedTime (stampSleep s) m = renewedTime s m := by
  rw [← renewedTime_view, ← renewedTime_view, stampSleep_view]

theorem magicSegment_tasks {s : State} {f : Flow} (h : magicSegment (stampSleep s) = .ok f) :
    SegmentTasks s f.state := by
  have hkept : ∀ m q, Kept (s.task q) ((renewMagic m (stampSleep s)).task q) := by
    intro m
    rw [renewMagic_task]
    exact kept_stampSleep s
  have hsame : ∀ m, (renewMagic m (stampSleep s)).magicProcess = s.magicProcess := fun m =>
    renewMagic_magicProcess m (stampSleep s)
  cases magicSegment_ok h with
  | idle => exact Or.inl ⟨rfl, kept_stampSleep s⟩
  | @ended m s₁ hm hend hexit =>
      obtain ⟨m', hm', htask, hcore⟩ := exitFromMagic_spec hexit
      rw [renewMagic_magicProcess, hm] at hm'
      cases hm'
      rw [stampSleep_state, renewMagic_MAGICTIME, renewedTime_view, stampSleep_renewedTime] at hend
      refine Or.inr ⟨m, hm, hend, congrArg Core.magicProcess hcore, fun q => ?_⟩
      rw [Flow.state, htask]
      refine kept_tasksAfterExit (hkept m) ?_ q
      rw [State.demoted, State.demoted, renewMagic_magicSleepFlag, renewMagic_curr]
      rfl
  | @resume m => exact Or.inl ⟨hsame m, hkept m⟩
  | @wait m => exact Or.inl ⟨hsame m, hkept m⟩
  | @kept m => exact Or.inl ⟨hsame m, hkept m⟩

/-- The priorities, policies and slices at the end of the state switch. -/
def SwitchTasks (s s' : State) : Prop :=
  (s'.magicProcess = s.magicProcess ∧ ∀ q, Kept (s.task q) (s'.task q)) ∨
  (0 < (s.task s.curr).magicTime ∧ s'.magicProcess = some s.curr ∧
    ∀ q, Kept (Function.update s.task s.curr (s.task s.curr).startMagic q) (s'.task q))

theorem SwitchTasks.trans_kept {s s₁ s₂ : State} (h : SwitchTasks s s₁)
    (hkept : ∀ q, Kept (s₁.task q) (s₂.task q)) (hm : s₂.magicProcess = s₁.magicProcess) :
    SwitchTasks s s₂ := by
  rcases h with ⟨hprocess, h⟩ | ⟨hmagic, hprocess, h⟩
  · exact Or.inl ⟨hm.trans hprocess, fun q => (h q).trans (hkept q)⟩
  · exact Or.inr ⟨hmagic, hm.trans hprocess, fun q => (h q).trans (hkept q)⟩

theorem startUnlessStarted_tasks {s s' : State} (hmagic : 0 < (s.task s.curr).magicTime)
    (h : startUnlessStarted s = .ok s') : SwitchTasks s s' := by
  rw [startUnlessStarted] at h
  split at h
  · obtain ⟨-, htask, hcore⟩ := startMagic_spec h
    refine Or.inr ⟨hmagic, congrArg Core.magicProcess hcore, fun q => ?_⟩
    rw [htask]
    exact Kept.refl _
  · cases h
    exact Or.inl ⟨rfl, fun q => Kept.refl _⟩

theorem runningArm_tasks {s : State} {f : Flow} (h : runningArm s = .ok f) : SwitchTasks s f.state := by
  rw [runningArm] at h
  split at h
  · rename_i hmagic
    obtain ⟨s₁, h₁, h⟩ := bind_eq_ok.1 h
    cases h
    exact startUnlessStarted_tasks hmagic h₁
  · cases h
    exact Or.inl ⟨rfl, fun q => Kept.refl _⟩

/-- After a deactivation the running arm no longer starts a period. -/
theorem deactivate_runningArm_tasks {s s₁ : State} {f : Flow} (h₁ : deactivateTask s.curr s = .ok s₁)
    (h : runningArm s₁ = .ok f) : f.state.magicProcess = s.magicProcess ∧
      ∀ q, Kept (s.task q) (f.state.task q) := by
  have hframe := frame_deactivateTask h₁
  rw [runningArm] at h
  split at h
  · obtain ⟨s₂, h₂, h⟩ := bind_eq_ok.1 h
    cases h
    rw [startUnlessStarted] at h₂
    split at h₂
    · have harray := (startMagic_spec h₂).1
      rw [hframe.curr, hframe.task_self] at harray
      exact absurd rfl harray
    · cases h₂
      exact ⟨hframe.magicProcess, kept_deactivateTask h₁⟩
  · cases h
    exact ⟨hframe.magicProcess, kept_deactivateTask h₁⟩

theorem stateSwitch_tasks {s : State} {f : Flow} (h : stateSwitch s = .ok f) :
    SwitchTasks s f.state := by
  rw [stateSwitch] at h
  split at h
  · split at h
    · rename_i hmagic
      obtain ⟨s₁, h₁, h⟩ := bind_eq_ok.1 h
      obtain ⟨s₂, h₂, h⟩ := bind_eq_ok.1 h
      cases h
      have hkept := kept_deactivateTask h₂
      exact (startUnlessStarted_tasks hmagic h₁).trans_kept hkept
        (frame_deactivateTask h₂).magicProcess
    · split at h
      · cases h
        exact Or.inl ⟨rfl, kept_modTask s s.curr (fun t => { t with state := .running })
          fun _ => ⟨rfl, rfl, rfl⟩⟩
      · obtain ⟨s₁, h₁, h⟩ := bind_eq_ok.1 h
        exact Or.inl (deactivate_runningArm_tasks h₁ h)
  · exact runningArm_tasks h
  · obtain ⟨s₁, h₁, h⟩ := bind_eq_ok.1 h
    exact Or.inl (deactivate_runningArm_tasks h₁ h)

theorem View.Select.curr {Q : TaskId → Prop} {v w : View} {n : Next} (h : View.Select Q v n w) :
    w.curr = v.curr := by
  cases h with
  | resume hm htime hflag hstate => exact View.renew_curr v _
  | wait hm htime hflag hstate => exact View.renew_curr v _
  | caught hseg hcaught =>
      rw [← hseg.curr]
      cases hcaught with
      | sleep hint hmagic hqueued => exact View.startUnlessStarted_curr _
      | run hrun hmagic hqueued => exact View.startUnlessStarted_curr _
      | fallThrough hrun hint hmagic hqueued hstarted => rfl
  | picked hseg hpassed hn => exact (congrArg Core.curr hpassed.core_eq).trans hseg.curr

theorem View.Select.idle_eq {Q : TaskId → Prop} {v w : View} {n : Next} (h : View.Select Q v n w) :
    w.idle = v.idle := by
  cases h with
  | resume hm htime hflag hstate => exact View.renew_idle v _
  | wait hm htime hflag hstate => exact View.renew_idle v _
  | caught hseg hcaught =>
      rw [← hseg.idle_eq]
      cases hcaught with
      | sleep hint hmagic hqueued => exact View.startUnlessStarted_idle _
      | run hrun hmagic hqueued => exact View.startUnlessStarted_idle _
      | fallThrough hrun hint hmagic hqueued hstarted => rfl
  | picked hseg hpassed hn => exact (congrArg Core.idle hpassed.core_eq).trans hseg.idle_eq

theorem View.Select.allocated_eq {Q : TaskId → Prop} {v w : View} {n : Next}
    (h : View.Select Q v n w) : w.allocated = v.allocated := by
  cases h with
  | resume hm htime hflag hstate => exact View.renew_allocated v _
  | wait hm htime hflag hstate => exact View.renew_allocated v _
  | caught hseg hcaught =>
      rw [← hseg.allocated_eq]
      cases hcaught with
      | sleep hint hmagic hqueued => exact View.startUnlessStarted_allocated _
      | run hrun hmagic hqueued => exact View.startUnlessStarted_allocated _
      | fallThrough hrun hint hmagic hqueued hstarted => rfl
  | picked hseg hpassed hn =>
      exact (congrArg Core.allocated hpassed.core_eq).trans hseg.allocated_eq

/-- What a pass of `schedule()` does to priorities, policies and slices: nothing, but for the end of a
period in the magic segment and the start of one in the state switch. -/
theorem selectNext_tasks {s s' : State} {n : Next} (h : selectNext s = .ok (n, s')) :
    ∃ s₁, SegmentTasks s s₁ ∧ s₁.curr = s.curr ∧
      ((s'.magicProcess = s₁.magicProcess ∧ ∀ q, Kept (s₁.task q) (s'.task q)) ∨
        (View.Segment s.view s₁.view ∧ SwitchTasks s₁ s')) := by
  obtain ⟨f, hf, h⟩ := bind_eq_ok.1 h
  have hseg := magicSegment_tasks hf
  have hview := magicSegment_view (fun _ => True) hf
  cases f with
  | goto n₁ s₁ =>
      cases h
      rw [FlowView, stampSleep_view] at hview
      exact ⟨_, hseg, hview.1.curr, Or.inl ⟨rfl, fun q => Kept.refl _⟩⟩
  | fall s₁ =>
      rw [FlowView, stampSleep_view] at hview
      obtain ⟨g, hg, h⟩ := bind_eq_ok.1 h
      have hswitch := stateSwitch_tasks hg
      refine ⟨s₁, hseg, hview.curr, Or.inr ⟨hview, ?_⟩⟩
      cases g with
      | goto n₂ s₂ =>
          cases h
          exact hswitch
      | fall s₂ =>
          obtain ⟨htask, hcore, -⟩ := pickNextTask_spec h
          refine hswitch.trans_kept (fun q => ?_) (congrArg Core.magicProcess hcore)
          rw [htask]
          exact Kept.refl _

/-- What the magic timer does to priorities, policies and slices. -/
theorem magicTimer_tasks {s s' : State} (h : magicTimer s = .ok s') :
    s'.curr = s.curr ∧
    ((s'.magicProcess = s.magicProcess ∧ ∀ q, Kept (s.task q) (s'.task q)) ∨
      (s.MAGICTIME = 1 ∧ ∃ m, s.magicProcess = some m ∧ s'.magicProcess = none ∧
        ∀ q, Kept (s.tasksAfterExit m q) (s'.task q))) := by
  rcases magicTimer_cases h with ⟨-, rfl⟩ | ⟨-, rfl⟩ | ⟨htime, s₁, h₁, rfl⟩
  · exact ⟨rfl, Or.inl ⟨rfl, fun q => Kept.refl _⟩⟩
  · exact ⟨rfl, Or.inl ⟨rfl, fun q => Kept.refl _⟩⟩
  · obtain ⟨m, hm, htask, hcore⟩ := exitFromMagic_spec h₁
    refine ⟨congrArg Core.curr hcore, Or.inr ⟨htime, m, hm, congrArg Core.magicProcess hcore, ?_⟩⟩
    intro q
    have hkept := (same_setNeedResched s₁ s.curr q).kept
    rw [htask] at hkept
    exact hkept

theorem tasksAfterExit_prio (s : State) (m q : TaskId) :
    (s.tasksAfterExit m q).policy = (s.task q).policy ∧
      (s.tasksAfterExit m q).prio = if q = s.demoted m then 130 else (s.task q).prio := by
  rw [State.tasksAfterExit]
  by_cases hq : q = m
  · subst hq
    rw [Function.update_self]
    by_cases hd : q = s.demoted q
    · rw [← hd, Function.update_self]
      exact ⟨rfl, (if_pos rfl).symm⟩
    · rw [Function.update_of_ne hd]
      exact ⟨rfl, (if_neg hd).symm⟩
  · rw [Function.update_of_ne hq]
    by_cases hd : q = s.demoted m
    · rw [← hd, Function.update_self]
      exact ⟨rfl, (if_pos rfl).symm⟩
    · rw [Function.update_of_ne hd]
      exact ⟨rfl, (if_neg hd).symm⟩

/-- The event makes `exit_from_magic` run for the registered process `m`. -/
def EndsPeriod (s : State) (m : TaskId) : Event → Prop
  | .tick => s.MAGICTIME = 1
  | .fork _ _ => s.MAGICTIME = 1 ∧ (s.task s.curr).timeSlice = 1
  | .schedule => (s.task m).state = .zombie ∨ renewedTime s m = 0
  | .yield => (s.task m).state = .zombie ∨ renewedTime s m = 0
  | _ => False

instance (s : State) (m : TaskId) (e : Event) : Decidable (EndsPeriod s m e) :=
  match e with
  | .tick => inferInstanceAs (Decidable (s.MAGICTIME = 1))
  | .fork _ _ => inferInstanceAs (Decidable (s.MAGICTIME = 1 ∧ (s.task s.curr).timeSlice = 1))
  | .schedule => inferInstanceAs (Decidable ((s.task m).state = .zombie ∨ renewedTime s m = 0))
  | .yield => inferInstanceAs (Decidable ((s.task m).state = .zombie ∨ renewedTime s m = 0))
  | .wake _ | .signal _ _ | .setState _ | .release _ | .getWand | .magicClock _ =>
    inferInstanceAs (Decidable False)

theorem yieldRequeue_renewedTime {s s' : State} (h : yieldRequeue s = .ok s') (m : TaskId) :
    renewedTime s' m = renewedTime s m := by
  rw [← renewedTime_view, ← renewedTime_view, yieldRequeue_view h]

end MagicKernel.Sched
