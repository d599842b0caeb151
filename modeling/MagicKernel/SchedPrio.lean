import MagicKernel.SchedEffects

/-! Priorities. Every task keeps a priority that indexes a queue. An ordinary task other than the
registered process keeps one of `MAX_RT_PRIO..MAX_PRIO-1`, and so does a new child, provided the
parent of a fork is not itself an ordinary task at a real-time priority: a child forked within the
magic period inherits priority 50, which neither `wake_up_forked_process` nor `activate_task`
recomputes. -/

namespace MagicKernel.Sched

open FaultMachine

/-! ### Priorities index queues -/

/-- Every task but the idle task has a priority below `MAX_PRIO`. -/
def PrioBelow (s : State) : Prop :=
  ∀ p, s.allocated p = true → p ≠ s.idle → (s.task p).prio < maxPrio

/-- Each priority stays or is one below `MAX_PRIO`. -/
def PrioMoves (s s' : State) : Prop :=
  s'.allocated = s.allocated ∧ s'.idle = s.idle ∧
    ∀ p, (s'.task p).prio = (s.task p).prio ∨ (s'.task p).prio < maxPrio

section

variable {s s' s'' : State}

theorem PrioBelow.moves (h : PrioBelow s) (hmoves : PrioMoves s s') : PrioBelow s' := by
  obtain ⟨hallocated, hidle, hprio⟩ := hmoves
  intro p hp hne
  rw [hallocated] at hp
  rw [hidle] at hne
  rcases hprio p with heq | hlt
  · rw [heq]
    exact h p hp hne
  · exact hlt

theorem PrioMoves.trans (h : PrioMoves s s') (h' : PrioMoves s' s'') : PrioMoves s s'' := by
  refine ⟨h'.1.trans h.1, h'.2.1.trans h.2.1, fun p => ?_⟩
  rcases h'.2.2 p with heq | hlt
  · rw [heq]
    exact h.2.2 p
  · exact Or.inr hlt

theorem prioMoves_of_kept (hcore : s'.core.allocated = s.core.allocated)
    (hidle : s'.core.idle = s.core.idle) (h : ∀ q, Kept (s.task q) (s'.task q)) : PrioMoves s s' :=
  ⟨hcore, hidle, fun p => Or.inl (h p).prio⟩

theorem prioMoves_of_exit {m : TaskId} (hallocated : s'.allocated = s.allocated)
    (hidle : s'.idle = s.idle) (h : ∀ q, Kept (s.tasksAfterExit m q) (s'.task q)) :
    PrioMoves s s' := by
  refine ⟨hallocated, hidle, fun p => ?_⟩
  rw [(h p).prio, (tasksAfterExit_prio s m p).2]
  split
  · exact Or.inr (by decide)
  · exact Or.inl rfl

theorem View.Timer.idle_allocated {v w : View} (h : View.Timer v w) :
    w.allocated = v.allocated ∧ w.idle = v.idle := by
  cases h <;> exact ⟨rfl, rfl⟩

theorem prioMoves_magicTimer (h : magicTimer s = .ok s') : PrioMoves s s' := by
  obtain ⟨hallocated, hidle⟩ := (magicTimer_view h).idle_allocated
  rcases (magicTimer_tasks h).2 with ⟨-, hkept⟩ | ⟨-, m, -, -, hkept⟩
  · exact prioMoves_of_kept hallocated hidle hkept
  · exact prioMoves_of_exit hallocated hidle hkept

theorem prioMoves_frame {p : TaskId} {t : Task} (hframe : Frame p t s s')
    (ht : t.prio = (s.task p).prio ∨ t.prio < maxPrio) : PrioMoves s s' := by
  refine ⟨hframe.allocated, hframe.idle, fun q => ?_⟩
  by_cases hq : q = p
  · subst hq
    rw [hframe.task_self]
    exact ht
  · rw [hframe.task_of_ne hq]
    exact Or.inl rfl

theorem prioMoves_schedulerTick (h : schedulerTick s = .ok s') : PrioMoves s s' := by
  obtain ⟨s₁, h₁, ⟨-, rfl⟩ | ⟨-, h⟩⟩ := schedulerTick_cases h
  · exact prioMoves_magicTimer h₁
  · obtain ⟨t, hframe, hadj, -⟩ := chargeTick_spec h
    exact (prioMoves_magicTimer h₁).trans (prioMoves_frame hframe (hadj.prio.imp_right fun h => h.2))

theorem Woken.prioMoves {p : TaskId} (h : Woken p s s') : PrioMoves s s' := by
  refine ⟨congrArg Core.allocated h.core, congrArg Core.idle h.core, fun q => ?_⟩
  by_cases hq : q = p
  · subst hq
    exact h.adjusted.prio.imp_right fun h => h.2
  · exact Or.inl (h.others q hq).prio

theorem prioMoves_selectNext {n : Next} (h : selectNext s = .ok (n, s')) : PrioMoves s s' := by
  have hview := selectNext_view h
  have hallocated : s'.allocated = s.allocated := hview.allocated_eq
  have hidle : s'.idle = s.idle := hview.idle_eq
  obtain ⟨s₁, hseg, hcurr, hswitch⟩ := selectNext_tasks h
  have hseg' : ∀ p, (s₁.task p).prio = (s.task p).prio ∨ (s₁.task p).prio < maxPrio := by
    rcases hseg with ⟨-, hkept⟩ | ⟨m, -, -, -, hkept⟩
    · exact fun p => Or.inl (hkept p).prio
    · intro p
      rw [(hkept p).prio, (tasksAfterExit_prio s m p).2]
      split
      · exact Or.inr (by decide)
      · exact Or.inl rfl
  refine ⟨hallocated, hidle, fun p => ?_⟩
  have hkept_case : Kept (s₁.task p) (s'.task p) →
      (s'.task p).prio = (s.task p).prio ∨ (s'.task p).prio < maxPrio := by
    intro hkept
    rw [hkept.prio]
    exact hseg' p
  rcases hswitch with ⟨-, hkept⟩ | ⟨-, ⟨-, hkept⟩ | ⟨-, -, hkept⟩⟩
  · exact hkept_case (hkept p)
  · exact hkept_case (hkept p)
  · by_cases hp : p = s₁.curr
    · subst hp
      have hprio := (hkept s₁.curr).prio
      rw [Function.update_self] at hprio
      rw [hprio]
      exact Or.inr (show 50 < maxPrio by decide)
    · have hk := hkept p
      rw [Function.update_of_ne hp] at hk
      exact hkept_case hk

theorem prioMoves_schedule (h : schedule s = .ok s') : PrioMoves s s' := by
  obtain ⟨n, s₁, h₁, htask, hcore, -⟩ := schedule_cases h
  refine (prioMoves_selectNext h₁).trans ⟨congrArg Core.allocated hcore, congrArg Core.idle hcore, ?_⟩
  intro p
  rw [htask]
  by_cases hp : p = s₁.curr
  · subst hp
    rw [Function.update_self]
    exact Or.inl rfl
  · rw [Function.update_of_ne hp]
    exact Or.inl rfl

theorem prioMoves_modTask (s : State) (p : TaskId) (f : Task → Task) (hf : ∀ t, (f t).prio = t.prio) :
    PrioMoves s (s.modTask p f) :=
  prioMoves_frame (frame_modTask p f s) (Or.inl (hf _))

theorem prioMoves_shareTimeSlice (child : TaskId) (s : State) :
    PrioMoves s (shareTimeSlice child s) :=
  (prioMoves_modTask s child (fun t =>
    { t with
      timeSlice := ((s.task s.curr).timeSlice + 1) >>> 1
      firstTimeSlice := true
      sleepTimestamp := s.jiffies }) fun _ => rfl).trans
    (prioMoves_modTask _ s.curr
      (fun t => { t with timeSlice := (s.task s.curr).timeSlice >>> 1 }) fun _ => rfl)

theorem prioMoves_tickIfSpent (h : tickIfSpent s = .ok s') : PrioMoves s s' := by
  rcases tickIfSpent_cases h with ⟨-, rfl⟩ | ⟨-, h⟩
  · exact ⟨rfl, rfl, fun p => Or.inl rfl⟩
  · exact (prioMoves_modTask s s.curr (fun t => { t with timeSlice := 1 }) fun _ => rfl).trans
      (prioMoves_schedulerTick h)

theorem PrioBelow.copyProcess (h : PrioBelow s) (hsound : Sound s) (hidle : s.curr ≠ s.idle)
    (child : TaskId) : PrioBelow (copyProcess child s) := by
  intro p hp hne
  by_cases hpc : p = child
  · subst hpc
    have htask : (Sched.copyProcess p s).task p = copyTask (s.task s.curr) := Function.update_self ..
    rw [htask]
    exact h s.curr hsound.base.curr_allocated hidle
  · have htask : (Sched.copyProcess child s).task p = s.task p := Function.update_of_ne hpc _ _
    have hallocated : (Sched.copyProcess child s).allocated p = s.allocated p :=
      Function.update_of_ne hpc _ _
    rw [hallocated] at hp
    rw [htask]
    exact h p hp hne

theorem PrioBelow.step (h : PrioBelow s) (hsound : Sound s) {e : Event}
    (hstep : machine.Step s e s') : PrioBelow s' := by
  obtain ⟨henabled, hstep⟩ := hstep
  cases e with
  | tick =>
      have htick : PrioMoves { s with jiffies := s.jiffies + 1 } s' := prioMoves_schedulerTick hstep
      exact h.moves htick
  | wake p => exact h.moves (woken_tryToWakeUp hstep).prioMoves
  | signal p pending =>
      cases hstep
      exact h.moves (prioMoves_modTask s p (fun t => { t with sigpending := pending }) fun _ => rfl)
  | setState state =>
      cases hstep
      exact h.moves (prioMoves_modTask s s.curr (fun t => { t with state := state }) fun _ => rfl)
  | schedule => exact h.moves (prioMoves_schedule hstep)
  | yield =>
      obtain ⟨s₁, h₁, hstep⟩ := bind_eq_ok.1 hstep
      obtain ⟨-, k, hframe, hk, -⟩ := yieldRequeue_spec h₁
      exact (h.moves (prioMoves_frame hframe (Or.inr hk))).moves (prioMoves_schedule hstep)
  | fork child vfork =>
      obtain ⟨-, -, s₁, s₂, h₁, -, -, hwoken, h'⟩ := hsound.doFork_cases henabled.2 hstep
      have hbelow := ((h.copyProcess hsound henabled.1 child).moves
        (prioMoves_shareTimeSlice child _)).moves (prioMoves_tickIfSpent h₁)
      have hbelow₂ := hbelow.moves hwoken.prioMoves
      rcases h' with rfl | rfl
      · exact hbelow₂
      · exact hbelow₂.moves (prioMoves_modTask s₂ s₂.curr (fun t => { t with needResched := true })
          fun _ => rfl)
  | release p =>
      obtain ⟨-, ts, avg, -, rfl⟩ := releaseTask_spec hstep
      have hbelow := h.moves (prioMoves_modTask s s.curr
        (fun t => { t with timeSlice := ts, sleepAvg := avg }) fun _ => rfl)
      intro q hq hne
      by_cases hqp : q = p
      · subst hqp
        have hfree : Function.update s.allocated q false q = true := hq
        rw [Function.update_self] at hfree
        cases hfree
      · have hq' : Function.update s.allocated p false q = true := hq
        rw [Function.update_of_ne hqp] at hq'
        exact hbelow q hq' hne
  | getWand =>
      cases hstep
      exact h.moves (prioMoves_modTask s s.curr (fun t => { t with holdingWand := true }) fun _ => rfl)
  | magicClock seconds =>
      cases hstep
      unfold sysMagicClock
      split
      · exact h.moves (prioMoves_modTask s s.curr
          (fun t => { t with magicTime := seconds * UInt32.ofNat hz, magicCallTime := s.jiffies })
          fun _ => rfl)
      · exact h

end

theorem prioBelow_of_reachable {s : State} (h : machine.Reachable Initial s) : PrioBelow s :=
  h.invariant (fun _ hs p hp hne => (hs.prio p hp hne).1) fun _ _ _ hreach hs hstep =>
    hs.step (sound_of_reachable hreach) hstep

/-! ### Ordinary tasks -/

/-- The priority of an ordinary task is not a real-time one, unless the task is registered for magic. -/
def Ordinary (s : State) : Prop :=
  ∀ p, s.allocated p = true → p ≠ s.idle → (s.task p).policy = .other → s.magicProcess ≠ some p →
    maxRtPrio ≤ (s.task p).prio

/-- Each policy stays, and each priority stays or is not a real-time one. -/
structure OrdinaryMoves (s s' : State) : Prop where
  allocated : s'.allocated = s.allocated
  idle : s'.idle = s.idle
  magicProcess : s'.magicProcess = s.magicProcess
  policy : ∀ p, (s'.task p).policy = (s.task p).policy
  prio : ∀ p, (s'.task p).prio = (s.task p).prio ∨ maxRtPrio ≤ (s'.task p).prio

section

variable {s s' : State}

theorem Ordinary.moves (h : Ordinary s) (hmoves : OrdinaryMoves s s') : Ordinary s' := by
  intro p hp hne hpolicy hm
  rw [hmoves.allocated] at hp
  rw [hmoves.idle] at hne
  rw [hmoves.policy] at hpolicy
  rw [hmoves.magicProcess] at hm
  rcases hmoves.prio p with heq | hle
  · rw [heq]
    exact h p hp hne hpolicy hm
  · exact hle

theorem ordinaryMoves_of_kept (hallocated : s'.allocated = s.allocated) (hidle : s'.idle = s.idle)
    (hm : s'.magicProcess = s.magicProcess) (h : ∀ q, Kept (s.task q) (s'.task q)) :
    OrdinaryMoves s s' :=
  ⟨hallocated, hidle, hm, fun p => (h p).policy, fun p => Or.inl (h p).prio⟩

theorem ordinaryMoves_frame {p : TaskId} {t : Task} (hframe : Frame p t s s')
    (hpolicy : t.policy = (s.task p).policy)
    (hprio : t.prio = (s.task p).prio ∨ maxRtPrio ≤ t.prio) : OrdinaryMoves s s' := by
  refine ⟨hframe.allocated, hframe.idle, hframe.magicProcess, fun q => ?_, fun q => ?_⟩
  · by_cases hq : q = p
    · subst hq
      rw [hframe.task_self]
      exact hpolicy
    · rw [hframe.task_of_ne hq]
  · by_cases hq : q = p
    · subst hq
      rw [hframe.task_self]
      exact hprio
    · rw [hframe.task_of_ne hq]
      exact Or.inl rfl

theorem ordinaryMoves_modTask (s : State) (p : TaskId) (f : Task → Task)
    (hf : ∀ t, (f t).policy = t.policy ∧ (f t).prio = t.prio) : OrdinaryMoves s (s.modTask p f) :=
  ordinaryMoves_frame (frame_modTask p f s) (hf _).1 (Or.inl (hf _).2)

theorem Woken.ordinaryMoves {p : TaskId} (h : Woken p s s') : OrdinaryMoves s s' := by
  refine ⟨congrArg Core.allocated h.core, congrArg Core.idle h.core,
    congrArg Core.magicProcess h.core, fun q => ?_, fun q => ?_⟩
  · by_cases hq : q = p
    · subst hq
      exact h.adjusted.policy
    · exact (h.others q hq).policy
  · by_cases hq : q = p
    · subst hq
      exact h.adjusted.prio.imp_right fun h => h.1
    · exact Or.inl (h.others q hq).prio

/-- `exit_from_magic` lowers the priority of the process whose period it ends, unless it takes
`current` for it. -/
def Misdirected (s : State) (m : TaskId) : Prop := s.magicSleepFlag = false ∧ s.curr ≠ m

theorem demoted_eq {m : TaskId} (h : ¬Misdirected s m) : s.demoted m = m := by
  rw [State.demoted]
  split
  · rfl
  · rename_i hflag
    by_contra hne
    exact h ⟨Bool.not_eq_true _ ▸ hflag, hne⟩

theorem Ordinary.exit (h : Ordinary s) {m : TaskId} (hm : s.magicProcess = some m)
    (hdirected : ¬Misdirected s m) (hallocated : s'.allocated = s.allocated)
    (hidle : s'.idle = s.idle) (hkept : ∀ q, Kept (s.tasksAfterExit m q) (s'.task q)) :
    Ordinary s' := by
  intro p hp hne hpolicy _
  obtain ⟨hpolicy', hprio'⟩ := tasksAfterExit_prio s m p
  rw [demoted_eq hdirected] at hprio'
  rw [(hkept p).prio, hprio']
  split
  · decide
  · rename_i hpm
    rw [hallocated] at hp
    rw [hidle] at hne
    rw [(hkept p).policy, hpolicy'] at hpolicy
    refine h p hp hne hpolicy fun heq => hpm ?_
    rw [hm] at heq
    exact (Option.some.inj heq).symm

theorem Ordinary.schedulerTick (h : Ordinary s)
    (hend : ∀ m, s.magicProcess = some m → s.MAGICTIME = 1 → ¬Misdirected s m)
    (hstep : schedulerTick s = .ok s') : Ordinary s' := by
  obtain ⟨s₁, h₁, hcharge⟩ := schedulerTick_cases hstep
  obtain ⟨hallocated, hidle⟩ := (magicTimer_view h₁).idle_allocated
  have hordinary₁ : Ordinary s₁ := by
    rcases (magicTimer_tasks h₁).2 with ⟨hm, hkept⟩ | ⟨htime, m, hm, -, hkept⟩
    · exact h.moves (ordinaryMoves_of_kept hallocated hidle hm hkept)
    · exact h.exit hm (hend m hm htime) hallocated hidle hkept
  rcases hcharge with ⟨-, rfl⟩ | ⟨-, hcharge⟩
  · exact hordinary₁
  · obtain ⟨t, hframe, hadj, -⟩ := chargeTick_spec hcharge
    exact hordinary₁.moves (ordinaryMoves_frame hframe hadj.policy
      (hadj.prio.imp_right fun h => h.1))

theorem Ordinary.selectNext (h : Ordinary s) (hfree : ¬s.view.Contested)
    (hend : ∀ m, s.magicProcess = some m → (s.task m).state = .zombie ∨ renewedTime s m = 0 →
      ¬Misdirected s m)
    {n : Next} (hstep : selectNext s = .ok (n, s')) : Ordinary s' := by
  have hview := selectNext_view hstep
  have hallocated : s'.allocated = s.allocated := hview.allocated_eq
  have hidle : s'.idle = s.idle := hview.idle_eq
  obtain ⟨s₁, hseg, hcurr, hswitch⟩ := selectNext_tasks hstep
  -- What holds of the tasks behind the magic segment, wherever the run goes from there.
  have hseg' : ∀ p, s.allocated p = true → p ≠ s.idle → (s₁.task p).policy = .other →
      s₁.magicProcess ≠ some p → maxRtPrio ≤ (s₁.task p).prio := by
    rcases hseg with ⟨hm, hkept⟩ | ⟨m, hm, hzero, hnone, hkept⟩
    · intro p hp hne hpolicy hmp
      rw [(hkept p).policy] at hpolicy
      rw [hm] at hmp
      rw [(hkept p).prio]
      exact h p hp hne hpolicy hmp
    · have hexit : Ordinary { s₁ with allocated := s.allocated, idle := s.idle } :=
        h.exit hm (hend m hm hzero) rfl rfl hkept
      exact hexit
  intro p hp hne hpolicy hmp
  rw [hallocated] at hp
  rw [hidle] at hne
  have hkept_case : s₁.magicProcess ≠ some p → Kept (s₁.task p) (s'.task p) →
      maxRtPrio ≤ (s'.task p).prio := by
    intro hm hkept
    rw [hkept.policy] at hpolicy
    rw [hkept.prio]
    exact hseg' p hp hne hpolicy hm
  rcases hswitch with ⟨hm, hkept⟩ | ⟨hview₁, ⟨hm, hkept⟩ | ⟨hmagic, hm, hkept⟩⟩
  · exact hkept_case (hm ▸ hmp) (hkept p)
  · exact hkept_case (hm ▸ hmp) (hkept p)
  · have hpc : p ≠ s₁.curr := by
      rintro rfl
      exact hmp hm
    have hk := hkept p
    rw [Function.update_of_ne hpc] at hk
    refine hkept_case (fun hm₁ => hpc ?_) hk
    exact hview₁.free_of_uncontested hfree hmagic hm₁

theorem ordinaryMoves_schedule_end {n : TaskId} {s₁ : State}
    (htask : s'.task = Function.update s₁.task s₁.curr { s₁.task s₁.curr with needResched := false })
    (hcore : s'.core = { s₁.core with curr := n }) : OrdinaryMoves s₁ s' := by
  refine ordinaryMoves_of_kept (congrArg Core.allocated hcore) (congrArg Core.idle hcore)
    (congrArg Core.magicProcess hcore) fun q => ?_
  rw [htask]
  by_cases hq : q = s₁.curr
  · subst hq
    rw [Function.update_self]
    exact ⟨rfl, rfl, rfl⟩
  · rw [Function.update_of_ne hq]
    exact Kept.refl _

theorem Ordinary.schedule (h : Ordinary s) (hfree : ¬s.view.Contested)
    (hend : ∀ m, s.magicProcess = some m → (s.task m).state = .zombie ∨ renewedTime s m = 0 →
      ¬Misdirected s m)
    (hstep : schedule s = .ok s') : Ordinary s' := by
  obtain ⟨n, s₁, h₁, htask, hcore, -⟩ := schedule_cases hstep
  exact (h.selectNext hfree hend h₁).moves (ordinaryMoves_schedule_end htask hcore)

/-! ### Forks -/

/-- An ordinary task at a real-time priority forks. -/
def LeakyFork (s : State) (e : Event) : Prop :=
  (∃ child vfork, e = .fork child vfork) ∧ (s.task s.curr).policy = .other ∧
    (s.task s.curr).prio < maxRtPrio

/-- `exit_from_magic` lowers the priority of the wrong task. -/
def MisdirectedExit (s : State) (e : Event) : Prop :=
  ∃ m, s.magicProcess = some m ∧ EndsPeriod s m e ∧ Misdirected s m

theorem shareTimeSlice_prio (child : TaskId) (s : State) : OrdinaryMoves s (shareTimeSlice child s) := by
  have h₁ := ordinaryMoves_modTask s child (fun t =>
    { t with
      timeSlice := ((s.task s.curr).timeSlice + 1) >>> 1
      firstTimeSlice := true
      sleepTimestamp := s.jiffies }) fun _ => ⟨rfl, rfl⟩
  refine ⟨rfl, rfl, rfl, fun p => ?_, fun p => ?_⟩
  · by_cases hp : p = s.curr
    · subst hp
      simp only [shareTimeSlice, State.modTask_task, State.modTask_curr, Function.update_self]
      exact h₁.policy s.curr
    · simp only [shareTimeSlice, State.modTask_task, State.modTask_curr, Function.update_of_ne hp]
      exact h₁.policy p
  · by_cases hp : p = s.curr
    · subst hp
      simp only [shareTimeSlice, State.modTask_task, State.modTask_curr, Function.update_self]
      exact h₁.prio s.curr
    · simp only [shareTimeSlice, State.modTask_task, State.modTask_curr, Function.update_of_ne hp]
      exact h₁.prio p

theorem Ordinary.copyProcess (h : Ordinary s) {child : TaskId}
    (hparent : (s.task s.curr).policy = .other → maxRtPrio ≤ (s.task s.curr).prio) :
    Ordinary (copyProcess child s) := by
  intro p hp hne hpolicy hm
  by_cases hpc : p = child
  · subst hpc
    have htask : (Sched.copyProcess p s).task p = copyTask (s.task s.curr) := Function.update_self ..
    rw [htask] at hpolicy ⊢
    exact hparent hpolicy
  · have htask : (Sched.copyProcess child s).task p = s.task p := Function.update_of_ne hpc _ _
    have hallocated : (Sched.copyProcess child s).allocated p = s.allocated p :=
      Function.update_of_ne hpc _ _
    rw [hallocated] at hp
    rw [htask] at hpolicy ⊢
    exact h p hp hne hpolicy hm

theorem Ordinary.tickIfSpent (h : Ordinary s)
    (hend : ∀ m, s.magicProcess = some m → s.MAGICTIME = 1 → (s.task s.curr).timeSlice = 0 →
      ¬Misdirected s m)
    (hstep : tickIfSpent s = .ok s') : Ordinary s' := by
  rcases tickIfSpent_cases hstep with ⟨-, rfl⟩ | ⟨hts, hstep⟩
  · exact h
  · have h₁ := h.moves (ordinaryMoves_modTask s s.curr (fun t => { t with timeSlice := 1 })
      fun _ => ⟨rfl, rfl⟩)
    exact h₁.schedulerTick (fun m hm htime => hend m hm htime hts) hstep

/-- A task that is neither current nor registered sleeps through a fork's tick. -/
theorem tickIfSpent_prio (hstep : tickIfSpent s = .ok s') {q : TaskId} (hcurr : q ≠ s.curr)
    (hm : s.magicProcess ≠ some q) :
    (s'.task q).prio = (s.task q).prio ∧ (s'.task q).policy = (s.task q).policy := by
  rcases tickIfSpent_cases hstep with ⟨-, rfl⟩ | ⟨-, hstep⟩
  · exact ⟨rfl, rfl⟩
  · have htask : (s.modTask s.curr fun t => { t with timeSlice := 1 }).task q = s.task q :=
      Function.update_of_ne hcurr _ _
    obtain ⟨s₁, h₁, hcharge⟩ := schedulerTick_cases hstep
    obtain ⟨hcurr₁, htimer⟩ := magicTimer_tasks h₁
    have hs₁ : (s₁.task q).prio = (s.task q).prio ∧ (s₁.task q).policy = (s.task q).policy := by
      rcases htimer with ⟨-, hkept⟩ | ⟨-, m, hm', -, hkept⟩
      · rw [(hkept q).prio, (hkept q).policy, htask]
        exact ⟨rfl, rfl⟩
      · obtain ⟨hpolicy, hprio⟩ := tasksAfterExit_prio
          (s.modTask s.curr fun t => { t with timeSlice := 1 }) m q
        have hqm : q ≠ m := by
          rintro rfl
          exact hm hm'
        rw [if_neg, htask] at hprio
        · rw [(hkept q).prio, (hkept q).policy, hpolicy, htask]
          exact ⟨hprio, rfl⟩
        · rw [State.demoted]
          split
          · exact hqm
          · exact hcurr
    rcases hcharge with ⟨-, rfl⟩ | ⟨-, hcharge⟩
    · exact hs₁
    · obtain ⟨t, hframe, -⟩ := chargeTick_spec hcharge
      rw [hframe.task_of_ne (by rw [hcurr₁]; exact hcurr)]
      exact hs₁

/-- The copied, sliced state a fork ticks in. -/
theorem Ordinary.forkTick (h : Ordinary s) (hsound : Sound s) {child : TaskId} {vfork : Bool}
    (hchild : s.allocated child = false) (hleak : ¬LeakyFork s (.fork child vfork))
    (hend : ¬MisdirectedExit s (.fork child vfork)) (hts : (s.task s.curr).timeSlice ≠ 0)
    (hstep : Sched.tickIfSpent (shareTimeSlice child (Sched.copyProcess child s)) = .ok s') :
    Ordinary s' := by
  have hne := hsound.child_ne_curr hchild
  have hcopy : Ordinary (Sched.copyProcess child s) := by
    refine h.copyProcess fun hpolicy => ?_
    by_contra hlt
    exact hleak ⟨⟨child, vfork, rfl⟩, hpolicy, Nat.lt_of_not_le hlt⟩
  refine (hcopy.moves (shareTimeSlice_prio child _)).tickIfSpent ?_ hstep
  intro m hm htime hzero hdirected
  have hslice : (s.task s.curr).timeSlice >>> 1 = 0 := (forkParent_timeSlice hne).symm.trans hzero
  exact hend ⟨m, hm, ⟨htime, (shiftRight_one_eq_zero hts).1 hslice⟩, hdirected⟩

theorem Ordinary.step (h : Ordinary s) (hsound : Sound s) {e : Event} (hleak : ¬LeakyFork s e)
    (hfree : ¬Contested s e) (hend : ¬MisdirectedExit s e) (hstep : machine.Step s e s') :
    Ordinary s' := by
  obtain ⟨henabled, hstep⟩ := hstep
  cases e with
  | tick =>
      have htick : Sched.schedulerTick { s with jiffies := s.jiffies + 1 } = .ok s' := hstep
      have h₀ : Ordinary { s with jiffies := s.jiffies + 1 } := h
      exact h₀.schedulerTick (fun m hm htime hdirected => hend ⟨m, hm, htime, hdirected⟩) htick
  | wake p => exact h.moves (woken_tryToWakeUp hstep).ordinaryMoves
  | signal p pending =>
      cases hstep
      exact h.moves (ordinaryMoves_modTask s p (fun t => { t with sigpending := pending })
        fun _ => ⟨rfl, rfl⟩)
  | setState state =>
      cases hstep
      exact h.moves (ordinaryMoves_modTask s s.curr (fun t => { t with state := state })
        fun _ => ⟨rfl, rfl⟩)
  | schedule =>
      exact h.schedule (fun hc => hfree ⟨Or.inl rfl, contested_view.1 hc⟩)
        (fun m hm hzero hdirected => hend ⟨m, hm, hzero, hdirected⟩) hstep
  | yield =>
      obtain ⟨s₁, h₁, hstep⟩ := bind_eq_ok.1 hstep
      have hview := yieldRequeue_view h₁
      obtain ⟨-, k, hframe, -, hk⟩ := yieldRequeue_spec h₁
      have hordinary : Ordinary s₁ := h.moves (ordinaryMoves_frame hframe rfl hk)
      refine hordinary.schedule ?_ ?_ hstep
      · rw [hview]
        exact fun hc => hfree ⟨Or.inr rfl, contested_view.1 hc⟩
      · intro m hm hzero hdirected
        have hstate : (s₁.task m).state = (s.task m).state :=
          congrArg (fun v : View => (v.task m).state) hview
        rw [yieldRequeue_renewedTime h₁, hstate] at hzero
        refine hend ⟨m, hframe.magicProcess ▸ hm, hzero, ?_⟩
        have hflag : s₁.magicSleepFlag = s.magicSleepFlag := congrArg Core.magicSleepFlag hframe.core
        rw [Misdirected] at hdirected ⊢
        rw [← hframe.curr, ← hflag]
        exact hdirected
  | fork child vfork =>
      obtain ⟨hts, -, s₁, s₂, h₁, -, -, hwoken, h'⟩ := hsound.doFork_cases henabled.2 hstep
      have hordinary := (h.forkTick hsound henabled.2 hleak hend hts h₁).moves hwoken.ordinaryMoves
      rcases h' with rfl | rfl
      · exact hordinary
      · exact hordinary.moves (ordinaryMoves_modTask s₂ s₂.curr
          (fun t => { t with needResched := true }) fun _ => ⟨rfl, rfl⟩)
  | release p =>
      obtain ⟨-, ts, avg, -, rfl⟩ := releaseTask_spec hstep
      have hordinary := h.moves (ordinaryMoves_modTask s s.curr
        (fun t => { t with timeSlice := ts, sleepAvg := avg }) fun _ => ⟨rfl, rfl⟩)
      intro q hq
      refine hordinary q ?_
      by_cases hqp : q = p
      · subst hqp
        exact henabled.2.1
      · have hq' : Function.update s.allocated p false q = true := hq
        rw [Function.update_of_ne hqp] at hq'
        exact hq'
  | getWand =>
      cases hstep
      exact h.moves (ordinaryMoves_modTask s s.curr (fun t => { t with holdingWand := true })
        fun _ => ⟨rfl, rfl⟩)
  | magicClock seconds =>
      cases hstep
      unfold sysMagicClock
      split
      · exact h.moves (ordinaryMoves_modTask s s.curr
          (fun t => { t with magicTime := seconds * UInt32.ofNat hz, magicCallTime := s.jiffies })
          fun _ => ⟨rfl, rfl⟩)
      · exact h

/-- A task without magic stays so through the timer. -/
theorem View.Timer.unmagic {v w : View} (h : View.Timer v w) {p : TaskId}
    (hp : (v.task p).magicTime = 0 ∧ (v.task p).startedMagic = false) :
    (w.task p).magicTime = 0 ∧ (w.task p).startedMagic = false := by
  cases h with
  | off hzero => exact hp
  | count hpos => exact hp
  | @expire m hone hm =>
      by_cases hpm : p = m
      · subst hpm
        simp only [View.exitFromMagic, Function.update_self, and_self]
      · simp only [View.exitFromMagic, Function.update_of_ne hpm]
        exact hp

/-- The child of a fork is in use, and is not the idle task. -/
theorem View.Step.child_allocated {v w : View} {last vfork : Bool} {child : TaskId}
    (h : View.Step last v (.fork child vfork) w) (hbase : v.Base) :
    w.allocated child = true ∧ child ≠ w.idle := by
  cases h with
  | fork hidle hchild hlast => exact ⟨Function.update_self .., hbase.child_ne_idle hchild⟩
  | forkTick hidle hchild hlast htimer =>
      simp only [View.wake, View.modTask]
      rw [htimer.allocated_eq, htimer.idle_eq]
      exact ⟨Function.update_self .., hbase.child_ne_idle hchild⟩

/-- What a fork makes of the child's priority: within the ordinary range or the parent's own. -/
theorem doFork_child (hsound : Sound s) (hidle : s.curr ≠ s.idle) {child : TaskId} {vfork : Bool}
    (hchild : s.allocated child = false) (hstep : doFork child vfork s = .ok s') :
    (s'.task child).magicTime = 0 ∧ (s'.task child).startedMagic = false ∧
      (s'.task child).policy = (s.task s.curr).policy ∧
      ((s'.task child).prio = (s.task s.curr).prio ∨ maxRtPrio ≤ (s'.task child).prio) ∧
      ((s.task s.curr).prio < maxRtPrio → (s'.task child).prio = (s.task s.curr).prio) := by
  have hview := doFork_view hidle hchild (hsound.child_ne_curr hchild) rfl hstep
  obtain ⟨-, hne, s₁, s₂, h₁, -, hwake, hwoken, h'⟩ := hsound.doFork_cases hchild hstep
  have hcopy : (Sched.copyProcess child s).task child = copyTask (s.task s.curr) :=
    Function.update_self ..
  have hshare := shareTimeSlice_child (s := Sched.copyProcess child s) hne
  have hprocess : (shareTimeSlice child (Sched.copyProcess child s)).magicProcess ≠ some child := by
    intro hm
    have hfree : s.view.allocated child = false := hchild
    exact hsound.base.child_ne_process hfree child hm rfl
  obtain ⟨hprio₁, hpolicy₁⟩ := tickIfSpent_prio h₁ hne hprocess
  rw [hshare, hcopy] at hprio₁ hpolicy₁
  have hprio₁' : (s₁.task child).prio = (s.task s.curr).prio := hprio₁
  have hsame : Same (s₂.task child) (s'.task child) := by
    rcases h' with rfl | rfl
    · exact Same.refl _
    · exact same_setNeedResched s₂ s₂.curr child
  have hmagic : (s'.view.task child).magicTime = 0 ∧ (s'.view.task child).startedMagic = false := by
    generalize s'.view = w at hview
    cases hview with
    | fork hidle hchild hlast =>
        simp only [View.wake, View.modTask, View.fork, Function.update_self, and_self]
    | forkTick hidle hchild hlast htimer =>
        have hfork : ((s.view.fork child).task child).magicTime = 0 ∧
            ((s.view.fork child).task child).startedMagic = false := by
          simp only [View.fork, Function.update_self, and_self]
        simp only [View.wake, View.modTask, Function.update_self]
        exact htimer.unmagic hfork
  refine ⟨hmagic.1, hmagic.2, ?_, ?_, ?_⟩
  · exact hsame.policy.trans (hwoken.adjusted.policy.trans hpolicy₁)
  · rw [hsame.prio]
    rcases hwoken.adjusted.prio with heq | hge
    · exact Or.inl (heq.trans hprio₁')
    · exact Or.inr hge.1
  · intro hrt
    have hkeep := wakeUpForkedProcess_rtTask hwake (by rw [hprio₁']; exact hrt)
    rw [hsame.prio, hkeep, hprio₁']

end

instance (s : State) (e : Event) : Decidable (LeakyFork s e) :=
  match e with
  | .fork child vfork => decidable_of_iff
      ((s.task s.curr).policy = .other ∧ (s.task s.curr).prio < maxRtPrio)
      ⟨fun h => ⟨⟨child, vfork, rfl⟩, h⟩, fun h => h.2⟩
  | .tick | .wake _ | .signal _ _ | .setState _ | .schedule | .yield | .release _ | .getWand
  | .magicClock _ => .isFalse fun ⟨⟨_, _, he⟩, _⟩ => by cases he

instance (s : State) (e : Event) : Decidable (MisdirectedExit s e) :=
  inferInstanceAs (Decidable (∃ m, s.magicProcess = some m ∧ EndsPeriod s m e ∧
    (s.magicSleepFlag = false ∧ s.curr ≠ m)))

/-- The priority of the period stays with the process of the period. -/
def NoLeak (s : State) (e : Event) : Prop :=
  ¬LeakyFork s e ∧ ¬Contested s e ∧ ¬MisdirectedExit s e

instance (s : State) (e : Event) : Decidable (NoLeak s e) :=
  inferInstanceAs (Decidable (_ ∧ _ ∧ _))

theorem ordinary_of_reachable {s : State} (h : (machine.restrict NoLeak).Reachable Initial s) :
    Ordinary s := by
  refine h.invariant (fun s hs p hp hne hpolicy _ => (hs.prio p hp hne).2 hpolicy) ?_
  intro s e s' hreach hs hstep
  obtain ⟨⟨hleak, hfree, hend⟩, hstep⟩ := Machine.restrict_step.1 hstep
  exact hs.step (sound_of_reachable hreach.of_restrict) hleak hfree hend hstep

/-- In every run the child of a fork starts without magic, and an ordinary child has an ordinary
priority exactly when the fork does not leak. While no privilege leaks, every ordinary task other
than the registered process has an ordinary priority. -/
theorem magic_not_inherited {s : State} (h : machine.Reachable Initial s) :
    (∀ child vfork s', machine.Step s (.fork child vfork) s' →
      (s'.task child).magicTime = 0 ∧ (s'.task child).startedMagic = false ∧
      ((s'.task child).policy = .other →
        ((maxRtPrio ≤ (s'.task child).prio ∧ (s'.task child).prio < maxPrio) ↔
          ¬LeakyFork s (.fork child vfork)))) ∧
    ((machine.restrict NoLeak).Reachable Initial s →
      ∀ p, s.allocated p = true → p ≠ s.idle → (s.task p).policy = .other →
        s.magicProcess ≠ some p →
        maxRtPrio ≤ (s.task p).prio ∧ (s.task p).prio < maxPrio) := by
  have hsound := sound_of_reachable h
  refine ⟨?_, ?_⟩
  · intro child vfork s' hstep
    obtain ⟨henabled, hfork⟩ := id hstep
    obtain ⟨htime, hstarted, hpolicy, hprio, hrt⟩ :=
      doFork_child hsound henabled.1 henabled.2 hfork
    refine ⟨htime, hstarted, fun hother => ⟨?_, ?_⟩⟩
    · rintro ⟨hge, -⟩ ⟨-, -, hlt⟩
      rw [hrt hlt] at hge
      exact absurd hge (Nat.not_le_of_lt hlt)
    · intro hleak
      have hparent : maxRtPrio ≤ (s.task s.curr).prio := by
        by_contra hlt
        exact hleak ⟨⟨child, vfork, rfl⟩, hpolicy.symm.trans hother, Nat.lt_of_not_le hlt⟩
      obtain ⟨hallocated, hne⟩ := (hsound.view_step hstep).child_allocated hsound.base
      refine ⟨?_, prioBelow_of_reachable (h.step hstep) child hallocated hne⟩
      rcases hprio with heq | hge
      · rw [heq]
        exact hparent
      · exact hge
  · intro hkept p hp hne hpolicy hm
    exact ⟨ordinary_of_reachable hkept p hp hne hpolicy hm, prioBelow_of_reachable h p hp hne⟩

section Boot

/-- `init` has run through a period of its own and forked before and after it. -/
def afterPeriod : State :=
  (machine.restrict NoLeak).after boot [.schedule, .fork 2 false, .getWand, .magicClock 1,
    .schedule, .tick, .magicClock 0, .schedule]

theorem magic_not_inherited_afterPeriod :
    machine.Reachable Initial afterPeriod ∧ (afterPeriod.task 1).policy = .other ∧
      maxRtPrio ≤ (afterPeriod.task 1).prio ∧ (afterPeriod.task 1).prio < maxPrio := by
  have hreach : (machine.restrict NoLeak).Reachable Initial afterPeriod :=
    ⟨boot, _, boot_initial, Machine.run_after (by decide +kernel)⟩
  have hprio := (magic_not_inherited hreach.of_restrict).2 hreach 1 (by decide +kernel)
    (by decide +kernel) (by decide +kernel) (by decide +kernel)
  exact ⟨hreach.of_restrict, by decide +kernel, hprio⟩

/-- `init` forks within its period. -/
def leaked : State :=
  machine.after boot [.schedule, .getWand, .magicClock 1, .schedule, .fork 2 false]

theorem leaked_prio : machine.Reachable Initial leaked ∧ leaked.allocated 2 = true ∧
    leaked.idle ≠ 2 ∧ leaked.magicProcess = some 1 ∧ (leaked.task 2).policy = .other ∧
    (leaked.task 2).prio = 50 :=
  ⟨⟨boot, _, boot_initial, Machine.run_after (by decide +kernel)⟩, by decide +kernel,
    by decide +kernel, by decide +kernel, by decide +kernel, by decide +kernel⟩

end Boot

end MagicKernel.Sched
