import MagicKernel.SchedProgress

/-! Signals that arrive just before a sleep. The switch of `schedule()` sets a caller in
`TASK_INTERRUPTIBLE` back to `TASK_RUNNING` if a signal is pending. The magic code stands before that
test, and leaves `schedule()` for `switch_tasks` without making it: a caller with magic time of its own is
deactivated whether or not a signal is pending. -/

namespace MagicKernel.Sched

open FaultMachine

/-- The current task is about to sleep interruptibly, with a signal pending. -/
def Signalled (s : State) : Prop :=
  (s.task s.curr).state = .interruptible ∧ (s.task s.curr).sigpending = true

instance (s : State) : Decidable (Signalled s) := inferInstanceAs (Decidable (_ ∧ _))

/-- Between `s` and `s'` the task that was current in `s` has become runnable and has not been
deactivated. -/
def Heeded (s s' : State) : Prop :=
  (s'.task s.curr).state = .running ∧ (s'.task s.curr).array = (s.task s.curr).array

/-- `schedule()` comes to the signal test: the segment for a registered process does not leave for
`switch_tasks`, and behind it the current task has no magic time. -/
def Heeds (s : State) : Prop :=
  (s.magicProcess = none ∧ (s.task s.curr).magicTime = 0) ∨
  ∃ m, s.magicProcess = some m ∧
    ((EndsPeriod s m .schedule ∧ (s.curr = m ∨ (s.task s.curr).magicTime = 0)) ∨
      (¬EndsPeriod s m .schedule ∧
        (s.idleFromMagic = true → (s.task m).state ≠ .running ∧ (s.task m).state ≠ .interruptible) ∧
        (s.task s.curr).magicTime = 0))

instance (s : State) : Decidable (Heeds s) :=
  inferInstanceAs (Decidable (_ ∧ _ ∨ ∃ m, _ = some m ∧ (_ ∧ _ ∨ ¬_ ∧ _ ∧ _)))

section Heeds

variable {s : State} {m : TaskId}

theorem heeds_of_none (hm : s.magicProcess = none) : Heeds s ↔ (s.task s.curr).magicTime = 0 := by
  constructor
  · rintro (⟨-, hzero⟩ | ⟨m, hm', -⟩)
    · exact hzero
    · rw [hm] at hm'
      cases hm'
  · exact fun hzero => Or.inl ⟨hm, hzero⟩

theorem heeds_of_some (hm : s.magicProcess = some m) : Heeds s ↔
    (EndsPeriod s m .schedule ∧ (s.curr = m ∨ (s.task s.curr).magicTime = 0)) ∨
      (¬EndsPeriod s m .schedule ∧
        (s.idleFromMagic = true → (s.task m).state ≠ .running ∧ (s.task m).state ≠ .interruptible) ∧
        (s.task s.curr).magicTime = 0) := by
  constructor
  · rintro (⟨hm', -⟩ | ⟨m', hm', hcases⟩)
    · rw [hm] at hm'
      cases hm'
    · rw [hm] at hm'
      cases hm'
      exact hcases
  · exact fun hcases => Or.inr ⟨m, hm, hcases⟩

theorem heeds_of_ends (hm : s.magicProcess = some m) (hend : EndsPeriod s m .schedule) :
    Heeds s ↔ s.curr = m ∨ (s.task s.curr).magicTime = 0 := by
  rw [heeds_of_some hm]
  constructor
  · rintro (⟨-, hcases⟩ | ⟨hlasts, -⟩)
    · exact hcases
    · exact absurd hend hlasts
  · exact fun hcases => Or.inl ⟨hend, hcases⟩

theorem heeds_of_lasts (hm : s.magicProcess = some m) (hlasts : ¬EndsPeriod s m .schedule) :
    Heeds s ↔ (s.idleFromMagic = true → (s.task m).state ≠ .running ∧ (s.task m).state ≠ .interruptible) ∧
      (s.task s.curr).magicTime = 0 := by
  rw [heeds_of_some hm]
  constructor
  · rintro (⟨hend, -⟩ | ⟨-, hcases⟩)
    · exact absurd hend hlasts
    · exact hcases
  · exact fun hcases => Or.inr ⟨hlasts, hcases⟩

/-- `Heeds` depends on the view alone. -/
theorem heeds_congr {s' : State} (h : s'.view = s.view) : Heeds s' ↔ Heeds s := by
  have hcurr : s'.curr = s.curr := congrArg (fun v : View => v.curr) h
  have hprocess : s'.magicProcess = s.magicProcess := congrArg (fun v : View => v.magicProcess) h
  have hidle : s'.idleFromMagic = s.idleFromMagic := congrArg (fun v : View => v.idleFromMagic) h
  have hstate : ∀ p, (s'.task p).state = (s.task p).state := fun p =>
    congrArg (fun v : View => (v.task p).state) h
  have hmagic : ∀ p, (s'.task p).magicTime = (s.task p).magicTime := fun p =>
    congrArg (fun v : View => (v.task p).magicTime) h
  have hrenewed : ∀ m, renewedTime s' m = renewedTime s m := fun m => by
    rw [← renewedTime_view, ← renewedTime_view, h]
  simp only [Heeds, EndsPeriod, hcurr, hprocess, hidle, hstate, hmagic, hrenewed]

end Heeds

/-! ### The magic segment -/

/-- What decides about a sleep, and where the task is queued. -/
structure Stays (t t' : Task) : Prop where
  state : t'.state = t.state
  sigpending : t'.sigpending = t.sigpending
  array : t'.array = t.array

theorem Stays.refl (t : Task) : Stays t t := ⟨rfl, rfl, rfl⟩

theorem Stays.trans {t t' t'' : Task} (h : Stays t t') (h' : Stays t' t'') : Stays t t'' :=
  ⟨h'.state.trans h.state, h'.sigpending.trans h.sigpending, h'.array.trans h.array⟩

theorem stays_modTask (s : State) (p : TaskId) (f : Task → Task) (hf : ∀ t, Stays t (f t)) (q : TaskId) :
    Stays (s.task q) ((s.modTask p f).task q) := by
  rw [State.modTask_task]
  by_cases hq : q = p
  · subst hq
    rw [Function.update_self]
    exact hf _
  · rw [Function.update_of_ne hq]
    exact Stays.refl _

theorem stays_stampSleep (s : State) (q : TaskId) : Stays (s.task q) ((stampSleep s).task q) :=
  stays_modTask s s.curr (fun t => { t with sleepTimestamp := s.jiffies }) (fun _ => ⟨rfl, rfl, rfl⟩) q

theorem stampSleep_magicTime (s : State) (q : TaskId) :
    ((stampSleep s).task q).magicTime = (s.task q).magicTime :=
  congrArg (fun v : View => (v.task q).magicTime) (stampSleep_view s)

theorem tasksAfterExit_stays (s : State) (m q : TaskId) :
    Stays (s.task q) (s.tasksAfterExit m q) ∧
      (s.tasksAfterExit m q).magicTime = if q = m then 0 else (s.task q).magicTime := by
  have hprio : Stays (s.task q) (Function.update s.task (s.demoted m)
        { s.task (s.demoted m) with prio := 130 } q) ∧
      (Function.update s.task (s.demoted m) { s.task (s.demoted m) with prio := 130 } q).magicTime =
        (s.task q).magicTime := by
    by_cases hq : q = s.demoted m
    · subst hq
      rw [Function.update_self]
      exact ⟨⟨rfl, rfl, rfl⟩, rfl⟩
    · rw [Function.update_of_ne hq]
      exact ⟨Stays.refl _, rfl⟩
  rw [State.tasksAfterExit]
  by_cases hq : q = m
  · subst hq
    rw [Function.update_self, if_pos rfl]
    exact ⟨⟨hprio.1.state, hprio.1.sigpending, hprio.1.array⟩, rfl⟩
  · rw [Function.update_of_ne hq, if_neg hq]
    exact hprio

/-- The magic segment leaves the state, the signals and the place of a task alone. -/
theorem Segmented.stays {s : State} {f : Flow} (h : Segmented (stampSleep s) f) (q : TaskId) :
    Stays (s.task q) (f.state.task q) := by
  have hstamp := stays_stampSleep s q
  have hrenew : ∀ m, Stays (s.task q) ((renewMagic m (stampSleep s)).task q) := by
    intro m
    rw [renewMagic_task]
    exact hstamp
  cases h with
  | idle hm => exact hstamp
  | ended hm hend hexit =>
      obtain ⟨m', -, htask, -⟩ := exitFromMagic_spec hexit
      rw [Flow.state, htask]
      exact (hrenew _).trans (tasksAfterExit_stays _ _ _).1
  | resume hm htime hflag hstate => exact hrenew _
  | wait hm htime hflag hstate => exact hrenew _
  | kept hm hzombie htime hflag => exact hrenew _

theorem Segmented.curr_eq {s : State} {f : Flow} (h : Segmented (stampSleep s) f) : f.state.curr = s.curr := by
  cases h with
  | idle hm => rfl
  | ended hm hend hexit =>
      obtain ⟨m', -, -, hcore⟩ := exitFromMagic_spec hexit
      exact (congrArg Core.curr hcore).trans (renewMagic_curr _ _)
  | resume hm htime hflag hstate => exact renewMagic_curr _ (stampSleep s)
  | wait hm htime hflag hstate => exact renewMagic_curr _ (stampSleep s)
  | kept hm hzombie htime hflag => exact renewMagic_curr _ (stampSleep s)

theorem Segmented.signalled {s : State} {f : Flow} (h : Segmented (stampSleep s) f) (hsig : Signalled s) :
    Signalled f.state := by
  have hstays := h.stays s.curr
  rw [Signalled, h.curr_eq, hstays.state, hstays.sigpending]
  exact hsig

/-- `Heeds` says what it should of the state behind the magic segment. -/
theorem Segmented.heeds_iff {s : State} {f : Flow} (h : Segmented (stampSleep s) f) :
    Heeds s ↔ (∃ s₁, f = .fall s₁) ∧ (f.state.task s.curr).magicTime = 0 := by
  have hends : ∀ m, EndsPeriod s m .schedule ↔
      ((stampSleep s).task m).state = .zombie ∨ (renewMagic m (stampSleep s)).MAGICTIME = 0 := by
    intro m
    rw [stampSleep_state, renewMagic_MAGICTIME, renewedTime_view, stampSleep_renewedTime]
    exact Iff.rfl
  have hrenew : ∀ m, ((renewMagic m (stampSleep s)).task s.curr).magicTime = (s.task s.curr).magicTime := by
    intro m
    rw [renewMagic_task]
    exact stampSleep_magicTime s s.curr
  have hleaves : ∀ m, s.magicProcess = some m → (renewMagic m (stampSleep s)).MAGICTIME ≠ 0 →
      s.idleFromMagic = true → (s.task m).state = .running ∨ (s.task m).state = .interruptible → ¬Heeds s := by
    intro m hm htime hflag hstate
    have hzombie : (s.task m).state ≠ .zombie := by
      rcases hstate with hstate | hstate <;> rw [hstate] <;> exact TaskState.noConfusion
    rw [heeds_of_lasts hm fun hend => ?_]
    · exact fun hheeds => hstate.elim (hheeds.1 hflag).1 (hheeds.1 hflag).2
    · rcases (hends m).1 hend with hdead | hzero
      · rw [stampSleep_state] at hdead
        exact hzombie hdead
      · exact htime hzero
  cases h with
  | idle hm =>
      have hm' : s.magicProcess = none := hm
      rw [heeds_of_none hm', Flow.state, stampSleep_magicTime]
      exact ⟨fun hzero => ⟨⟨_, rfl⟩, hzero⟩, fun hfall => hfall.2⟩
  | @ended m s₁ hm hend hexit =>
      have hm' : s.magicProcess = some m := hm
      obtain ⟨m', hexited, htask, -⟩ := exitFromMagic_spec hexit
      rw [renewMagic_magicProcess, hm] at hexited
      cases hexited
      rw [heeds_of_ends hm' ((hends m).2 hend), Flow.state, htask, (tasksAfterExit_stays _ _ _).2, hrenew]
      by_cases hcurr : s.curr = m
      · rw [if_pos hcurr]
        exact iff_of_true (Or.inl hcurr) ⟨⟨_, rfl⟩, rfl⟩
      · rw [if_neg hcurr]
        exact ⟨fun hor => ⟨⟨_, rfl⟩, hor.resolve_left hcurr⟩, fun hfall => Or.inr hfall.2⟩
  | @resume m hm htime hflag hstate =>
      rw [stampSleep_state] at hstate
      refine iff_of_false (hleaves m hm htime hflag (Or.inl hstate)) ?_
      rintro ⟨⟨s₁, hfall⟩, -⟩
      cases hfall
  | @wait m hm htime hflag hstate =>
      rw [stampSleep_state] at hstate
      refine iff_of_false (hleaves m hm htime hflag (Or.inr hstate)) ?_
      rintro ⟨⟨s₁, hfall⟩, -⟩
      cases hfall
  | @kept m hm hzombie htime hflag =>
      have hm' : s.magicProcess = some m := hm
      rw [stampSleep_state] at hflag
      rw [heeds_of_lasts hm' fun hend => ((hends m).1 hend).elim hzombie htime, Flow.state, hrenew]
      refine ⟨fun hheeds => ⟨⟨_, rfl⟩, hheeds.2⟩, fun hfall => ⟨fun hidle => ?_, hfall.2⟩⟩
      rcases hflag hidle with hstate | hstate
      · rw [hstate]
        exact ⟨TaskState.noConfusion, TaskState.noConfusion⟩
      · rw [hstate]
        exact ⟨TaskState.noConfusion, TaskState.noConfusion⟩

/-! ### The state switch -/

section Switch

variable {s s' : State}

/-- Without magic time the switch makes the signal test. -/
theorem stateSwitch_of_signalled (hsig : Signalled s) (hzero : (s.task s.curr).magicTime = 0) :
    stateSwitch s = .ok (.fall (s.modTask s.curr fun t => { t with state := .running })) := by
  have hnot : ¬0 < (s.task s.curr).magicTime := by
    rw [hzero]
    exact UInt32.lt_irrefl 0
  rw [stateSwitch, hsig.1]
  dsimp only
  rw [if_neg hnot, if_pos hsig.2]

/-- With magic time it leaves before the test, and the caller keeps its state. -/
theorem stateSwitch_of_magicTime (hstate : (s.task s.curr).state = .interruptible)
    (hmagic : (s.task s.curr).magicTime ≠ 0) {f : Flow} (h : stateSwitch s = .ok f) :
    ∃ n s₁, f = .goto n s₁ ∧ (s₁.task s.curr).state = .interruptible := by
  have hview := stateSwitch_view h
  cases f with
  | fall s₁ =>
      have hzero : (s.task s.curr).magicTime = 0 := View.Passed.magicTime_eq hview
      exact absurd hzero hmagic
  | goto n s₁ =>
      refine ⟨n, s₁, rfl, ?_⟩
      have hcaught : View.Caught s.view n s₁.view := hview
      generalize hw : s₁.view = w at hcaught
      have hsame : (s₁.task s.curr).state = (w.task s.curr).state :=
        congrArg (fun v : View => (v.task s.curr).state) hw
      rw [hsame]
      have hstate' : (s.view.task s.view.curr).state = .interruptible := hstate
      cases hcaught with
      | sleep hint hpos hqueued =>
          show ((s.view.startUnlessStarted.unqueue s.view.curr).task s.view.curr).state = _
          rw [View.unqueue_state, View.startUnlessStarted_state]
          exact hint
      | run hrun hpos hqueued =>
          rw [hstate'] at hrun
          cases hrun
      | fallThrough hrun hint hpos hqueued hstarted => exact absurd hstate' hint

/-- A call of `schedule()` that returns has heeded the signal exactly if it came to the test. -/
theorem heeded_iff (hsig : Signalled s) (h : schedule s = .ok s') : Heeded s s' ↔ Heeds s := by
  obtain ⟨n, s₁, hselect, htask, -⟩ := schedule_cases h
  have hlast : Stays (s₁.task s.curr) (s'.task s.curr) := by
    rw [htask]
    exact stays_modTask s₁ s₁.curr (fun t => { t with needResched := false }) (fun _ => ⟨rfl, rfl, rfl⟩) s.curr
  -- Whoever keeps the state of the caller has not heeded the signal.
  have hsleeps : (s₁.task s.curr).state = .interruptible → ¬Heeded s s' := by
    rintro hstate ⟨hrun, -⟩
    rw [hlast.state, hstate] at hrun
    cases hrun
  obtain ⟨f, hf, hselect⟩ := bind_eq_ok.1 hselect
  have hseg := magicSegment_ok hf
  have hstays := hseg.stays s.curr
  have hcurr := hseg.curr_eq
  rw [hseg.heeds_iff]
  cases f with
  | goto n₁ u =>
      cases hselect
      refine iff_of_false (hsleeps (hstays.state.trans hsig.1)) ?_
      rintro ⟨⟨u', hfall⟩, -⟩
      cases hfall
  | fall u =>
      rw [Flow.state] at hstays hcurr ⊢
      have hsig' : Signalled u := hseg.signalled hsig
      obtain ⟨g, hg, hselect⟩ := bind_eq_ok.1 hselect
      by_cases hzero : (u.task s.curr).magicTime = 0
      · refine iff_of_true ?_ ⟨⟨u, rfl⟩, hzero⟩
        rw [← hcurr] at hzero
        rw [stateSwitch_of_signalled hsig' hzero] at hg
        cases hg
        obtain ⟨hpicked, -⟩ := pickNextTask_spec hselect
        have hrun : s₁.task s.curr = { u.task s.curr with state := .running } := by
          rw [hpicked, ← hcurr, State.modTask_task, Function.update_self]
        refine ⟨?_, ?_⟩
        · rw [hlast.state, hrun]
        · rw [hlast.array, hrun]
          exact hstays.array
      · rw [← hcurr] at hzero
        obtain ⟨n₂, s₂, rfl, hstate⟩ := stateSwitch_of_magicTime hsig'.1 hzero hg
        cases hselect
        rw [hcurr] at hstate hzero
        exact iff_of_false (hsleeps hstate) fun hfall => hzero hfall.2

end Switch

/-! ### Runs with an orderly run queue -/

/-- What holds in runs without unnoticed cancellations and deactivated callers, in which no period ends by
writing the priority of a task where it is queued. -/
structure Regular (s : State) : Prop where
  queue : QueueInv s
  sides : s.active ≠ s.expired
  base : s.view.Base
  owned : s.view.Owned
  tidy : s.view.Tidy

theorem regular_of_reachable {s : State}
    (h : (machine.restrict fun s e => Careful s e ∧ RequeuesDemoted s e).Reachable Initial s) : Regular s where
  queue := queueInv_of_requeuesDemoted (h.restrict_mono fun _ _ hc => hc.2)
  sides := active_ne_expired h.of_restrict
  base := (sound_of_reachable h.of_restrict).base
  owned := owned_of_reachable (fun _ _ hc => hc.1.2) h
  tidy := tidy_of_careful (h.restrict_mono fun _ _ hc => hc.1)

namespace Regular

variable {s : State}

theorem curr_ne_idle (h : Regular s) (hsig : Signalled s) : s.curr ≠ s.idle := by
  intro heq
  have hidle : (s.task s.idle).state = .running := h.base.idle_state
  rw [← heq, hsig.1] at hidle
  cases hidle

theorem curr_queued (h : Regular s) (hsig : Signalled s) : (s.task s.curr).array ≠ none :=
  queued_eq_true.1 (h.tidy.curr_queued (h.curr_ne_idle hsig))

/-- A caller that is about to sleep is the registered process, if there is one. -/
theorem curr_eq (h : Regular s) (hsig : Signalled s) {m : TaskId} (hm : s.magicProcess = some m) :
    s.curr = m ∧ s.magicSleepFlag = false := by
  rcases h.owned.placed m hm with ⟨-, hflag, hcurr⟩ | ⟨-, -, hcurr, -⟩
  · exact ⟨hcurr, hflag⟩
  · exact absurd hcurr (h.curr_ne_idle hsig)

theorem not_staleDemotion (h : Regular s) (hsig : Signalled s) {m : TaskId} (hm : s.magicProcess = some m) :
    ¬StaleDemotion s m := by
  obtain ⟨hcurr, hflag⟩ := h.curr_eq hsig hm
  rintro ⟨-, hsleep | hne⟩
  · rw [hflag] at hsleep
    cases hsleep
  · exact hne hcurr

/-- The magic segment does not fault. -/
theorem exists_magicSegment (h : Regular s) (hsig : Signalled s) : ∃ f, magicSegment (stampSleep s) = .ok f := by
  refine Sched.exists_magicSegment fun m hm _ => ?_
  have hstamp : Located (stampSleep s).place 0 (stampSleep s) := (queueInv_iff.1 h.queue).modTask rfl
  have hprocess : (renewMagic m (stampSleep s)).magicProcess = some m := (renewMagic_magicProcess _ _).trans hm
  refine exists_exitFromMagic (queueInv_iff.2 (hstamp.renewMagic m)) hprocess fun _ => ?_
  rw [renewMagic_task, (stays_stampSleep s m).array, ← (h.curr_eq hsig hm).1]
  exact h.curr_queued hsig

/-- A call that comes to the signal test returns, and heeds the signal. -/
theorem exists_schedule (h : Regular s) (hsig : Signalled s) (hheeds : Heeds s) :
    ∃ s', schedule s = .ok s' ∧ Heeded s s' := by
  obtain ⟨f, hf⟩ := h.exists_magicSegment hsig
  have hseg := magicSegment_ok hf
  obtain ⟨⟨u, rfl⟩, hzero⟩ := hseg.heeds_iff.1 hheeds
  have hsig' : Signalled u := hseg.signalled hsig
  have hcurr : u.curr = s.curr := hseg.curr_eq
  rw [Flow.state, ← hcurr] at hzero
  have hswitch := stateSwitch_of_signalled hsig' hzero
  have hstamp : Located (stampSleep s).place 0 (stampSleep s) := (queueInv_iff.1 h.queue).modTask rfl
  have hlocated : Located u.place 0 u := by
    refine hstamp.magicSegment (f := .fall u) (fun m hm _ hstale => ?_) hf
    refine h.not_staleDemotion hsig hm (hstale.congr rfl rfl fun q => ?_)
    exact (stays_stampSleep s q).array
  have hsides : u.sides = s.sides := magicSegment_sides hf
  obtain ⟨hactive, hexpired⟩ := Prod.mk.inj hsides
  obtain ⟨p, s₁, hpick⟩ := Located.exists_pickNextTask
    (hlocated.modTask (p := u.curr) (f := fun t => { t with state := .running }) rfl) (by
      show u.active ≠ u.expired
      rw [hactive, hexpired]
      exact h.sides)
  have hselect : selectNext s = .ok (.task p, s₁) := by
    rw [selectNext, hf, ok_bind]
    dsimp only
    rw [hswitch, ok_bind]
    exact hpick
  have hschedule : ∃ s', schedule s = .ok s' := by
    rw [schedule, hselect, ok_bind, switchTasks]
    dsimp only
    split
    · exact ⟨_, rfl⟩
    · exact ⟨_, rfl⟩
  obtain ⟨s', hs'⟩ := hschedule
  exact ⟨s', hs', (heeded_iff hsig hs').2 hheeds⟩

theorem yieldRequeue (h : Regular s) {s' : State} (hstep : yieldRequeue s = .ok s') : Regular s' := by
  have hview := yieldRequeue_view hstep
  obtain ⟨hactive, hexpired⟩ := Prod.mk.inj (yieldRequeue_sides hstep)
  refine ⟨queueInv_iff.2 ((queueInv_iff.1 h.queue).yieldRequeue hstep), ?_, ?_, ?_, ?_⟩
  · rw [hactive, hexpired]
    exact h.sides
  · rw [hview]
    exact h.base
  · rw [hview]
    exact h.owned
  · rw [hview]
    exact h.tidy

end Regular

/-- A yield moves the task within its array; whoever is about to sleep still is. -/
theorem yieldRequeue_signalled {s s₁ : State} (s' : State) (h : yieldRequeue s = .ok s₁) :
    (Signalled s₁ ↔ Signalled s) ∧ (Heeds s₁ ↔ Heeds s) ∧ (Heeded s₁ s' ↔ Heeded s s') := by
  obtain ⟨-, k, hframe, -⟩ := yieldRequeue_spec h
  refine ⟨?_, heeds_congr (yieldRequeue_view h), ?_⟩
  · rw [Signalled, hframe.curr, hframe.task_self]
    exact Iff.rfl
  · rw [Heeded, hframe.curr, hframe.task_self]
    exact Iff.rfl

/-- A call of `schedule()` that returns, made directly or by `sys_sched_yield`, heeds the signal of a caller
that is about to sleep exactly if `Heeds` holds in the state before. In runs with an orderly run queue the
call does return if it heeds the signal. -/
theorem signal_heeded_iff {s : State} (hsig : Signalled s) {e : Event} (he : e = .schedule ∨ e = .yield) :
    (∀ s', machine.Step s e s' → (Heeded s s' ↔ Heeds s)) ∧
    ((machine.restrict fun s e => Careful s e ∧ RequeuesDemoted s e).Reachable Initial s →
      ((∃ s', machine.Step s e s' ∧ Heeded s s') ↔ Heeds s)) := by
  have hreturns : ∀ s', machine.Step s e s' → (Heeded s s' ↔ Heeds s) := by
    intro s' hstep
    rcases he with rfl | rfl
    · exact heeded_iff hsig hstep.2
    · obtain ⟨s₁, h₁, hschedule⟩ := bind_eq_ok.1 hstep.2
      obtain ⟨hsig₁, hheeds, hheeded⟩ := yieldRequeue_signalled s' h₁
      rw [← hheeds, ← hheeded]
      exact heeded_iff (hsig₁.2 hsig) hschedule
  refine ⟨hreturns, fun hreach => ?_⟩
  have hregular := regular_of_reachable hreach
  constructor
  · rintro ⟨s', hstep, hheeded⟩
    exact (hreturns s' hstep).1 hheeded
  · intro hheeds
    rcases he with rfl | rfl
    · obtain ⟨s', hs', hheeded⟩ := hregular.exists_schedule hsig hheeds
      exact ⟨s', ⟨trivial, hs'⟩, hheeded⟩
    · obtain ⟨s₁, h₁⟩ := exists_yieldRequeue hregular.queue (hregular.curr_queued hsig)
      obtain ⟨hsig₁, hheeds₁, -⟩ := yieldRequeue_signalled s h₁
      obtain ⟨s', hs', hheeded⟩ := (hregular.yieldRequeue h₁).exists_schedule (hsig₁.2 hsig) (hheeds₁.2 hheeds)
      refine ⟨s', ⟨hregular.curr_ne_idle hsig, bind_eq_ok.2 ⟨s₁, h₁, hs'⟩⟩, ?_⟩
      exact (yieldRequeue_signalled s' h₁).2.2.1 hheeded

section Boot

/-- `init` cancels its period a jiffy after the start, and is about to sleep when a signal arrives. -/
def cancelling : State :=
  (machine.restrict fun s e => Careful s e ∧ RequeuesDemoted s e).after boot [.schedule, .getWand,
    .magicClock 1, .schedule, .tick, .magicClock 0, .setState .interruptible, .signal 1 true]

theorem signal_heeded_iff_cancelling : cancelling.magicProcess = some 1 ∧
    ∃ s', machine.Step cancelling .schedule s' ∧ (s'.task 1).state = .running ∧
      (s'.task 1).array = some .zero := by
  have hreach : (machine.restrict fun s e => Careful s e ∧ RequeuesDemoted s e).Reachable Initial cancelling :=
    ⟨boot, _, boot_initial, Machine.run_after (by decide +kernel)⟩
  have hfacts : cancelling.magicProcess = some 1 ∧ Signalled cancelling ∧ Heeds cancelling ∧
      cancelling.curr = 1 ∧ (cancelling.task 1).array = some .zero := by decide +kernel
  obtain ⟨hprocess, hsig, hheeds, hcurr, harray⟩ := hfacts
  obtain ⟨s', hstep, hrun, hqueued⟩ :=
    ((signal_heeded_iff hsig (Or.inl rfl)).2 hreach).2 hheeds
  rw [hcurr] at hrun hqueued
  exact ⟨hprocess, s', hstep, hrun, hqueued.trans harray⟩

/-- `init` asks for magic and is about to sleep, before its period has started, when a signal arrives. -/
def signalled : State :=
  machine.after boot [.schedule, .getWand, .magicClock 1, .setState .interruptible, .signal 1 true]

theorem signalled_put_to_sleep : machine.Reachable Initial signalled ∧ signalled.curr = 1 ∧
    Signalled signalled ∧ machine.Step signalled .schedule (machine.after signalled [.schedule]) ∧
    ((machine.after signalled [.schedule]).task 1).state = .interruptible ∧
    ((machine.after signalled [.schedule]).task 1).array = none ∧
    ¬Heeded signalled (machine.after signalled [.schedule]) := by
  have hfacts : signalled.curr = 1 ∧ Signalled signalled ∧
      ((machine.after signalled [.schedule]).task 1).state = .interruptible ∧
      ((machine.after signalled [.schedule]).task 1).array = none := by decide +kernel
  obtain ⟨hcurr, hsig, hstate, harray⟩ := hfacts
  refine ⟨⟨boot, _, boot_initial, Machine.run_after (by decide +kernel)⟩, hcurr, hsig,
    Machine.step_after (by decide +kernel), hstate, harray, ?_⟩
  rintro ⟨hrun, -⟩
  rw [hcurr, hstate] at hrun
  cases hrun

end Boot

end MagicKernel.Sched
