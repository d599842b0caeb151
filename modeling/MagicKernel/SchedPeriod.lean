import MagicKernel.SchedBase

/-! Exclusive use of the processor. From the `schedule()` that executes `start_magic` for a process
to the `exit_from_magic` that ends its period, and as long as its magic time is positive, only that
process and the idle task run. The invariant `View.Period` says why: the process stays registered,
and when the idle task stands in for it, it sleeps interruptibly or has been woken. -/

namespace MagicKernel.Sched

open FaultMachine

theorem toInt_ne_zero {x : UInt32} (h : x ≠ 0) : toInt x ≠ 0 := by
  intro h0
  apply h
  have hbits : x.toBitVec = 0#32 := BitVec.eq_of_toInt_eq (h0.trans BitVec.toInt_zero.symm)
  exact UInt32.toBitVec_inj.1 hbits

namespace View

variable {v w : View} {A : TaskId}

/-- `A` is in its magic period, which nothing but its own end can interrupt. -/
structure Period (A : TaskId) (v : View) : Prop where
  process : v.magicProcess = some A
  started : (v.task A).startedMagic = true
  time : v.MAGICTIME ≠ 0
  running : v.curr = A ∨ (v.curr = v.idle ∧ v.idleFromMagic = true ∧
    ((v.task A).state = .running ∨ (v.task A).state = .interruptible))

theorem Period.timer (h : Period A v) (ht : Timer v w) (hstarted : (w.task A).startedMagic = true) :
    Period A w := by
  cases ht with
  | off htime => exact h
  | count htime => exact ⟨h.process, h.started, by dsimp only; omega, h.running⟩
  | expire htime hm =>
      rw [h.process] at hm
      cases hm
      simp [exitFromMagic] at hstarted

theorem Period.renew (h : Period A v) (htime : (v.renew A).MAGICTIME ≠ 0) : Period A (v.renew A) where
  process := by rw [renew_magicProcess, h.process]
  started := by rw [renew_task, h.started]
  time := htime
  running := by
    rw [renew_curr, renew_idle, renew_idleFromMagic, renew_task]
    exact h.running

/-- Once the period has been ended, neither `A` nor the idle task is caught by its magic time. -/
theorem Period.exit_magicTime (h : Period A v) (hbase : Base v) :
    ((((v.renew A).exitFromMagic A).task ((v.renew A).exitFromMagic A).curr)).magicTime = 0 := by
  have hcurr : ((v.renew A).exitFromMagic A).curr = v.curr := renew_curr v A
  have hrenew : (v.renew A).task = v.task := renew_task v A
  have hidle := hbase.idle_magicTime
  rw [hcurr]
  simp only [exitFromMagic, hrenew, Function.update_apply]
  split
  · rfl
  · rename_i hne
    rcases h.running with hA | ⟨hidle', -⟩
    · exact absurd hA hne
    · rw [hidle', hidle]

/-- The magic segment ends the period, or leaves it on with `A` on the processor. -/
theorem Period.segment (h : Period A v) (hseg : Segment v w) :
    w = (v.renew A).exitFromMagic A ∨ (w = v.renew A ∧ (v.renew A).MAGICTIME ≠ 0 ∧ v.curr = A) := by
  cases hseg with
  | idle hm =>
      rw [h.process] at hm
      cases hm
  | ended hm hend =>
      rw [h.process] at hm
      cases hm
      exact Or.inl rfl
  | kept hm hzombie htime hflag =>
      rw [h.process] at hm
      cases hm
      refine Or.inr ⟨rfl, htime, ?_⟩
      rcases h.running with hcurr | ⟨-, hidle, hstate⟩
      · exact hcurr
      · rcases hflag hidle with h1 | h1 <;> rcases hstate with h2 | h2 <;>
          rw [h1] at h2 <;> cases h2

/-- `A` is on the processor and is caught by its magic time. -/
theorem Period.caught (h : Period A v) (hcurr : v.curr = A) {n : TaskId} (hcaught : Caught v (.task n) w)
    (hstarted : (w.task A).startedMagic = true) :
    Period A { w with curr := n } ∧ ((v.task A).state = .running → n = A) := by
  have hstart : v.startUnlessStarted = v := startUnlessStarted_of_started (by rw [hcurr]; exact h.started)
  generalize hnext : Next.task n = next at hcaught
  cases hcaught with
  | sleep hint hpos hqueued =>
      cases hnext
      rw [hstart, hcurr] at hstarted ⊢
      rw [hcurr] at hint
      refine ⟨⟨h.process, hstarted, h.time, Or.inr ⟨rfl, rfl, Or.inr ?_⟩⟩, ?_⟩
      · exact (unqueue_state v A A).trans hint
      · intro hrun
        rw [hrun] at hint
        cases hint
  | run hrun hpos hqueued =>
      rw [hstart] at hnext ⊢
      rw [h.process] at hnext
      cases hnext
      exact ⟨⟨h.process, h.started, h.time, Or.inl rfl⟩, fun _ => rfl⟩
  | fallThrough hrun hint hpos hqueued hstarted' =>
      rw [h.process] at hnext
      cases hnext
      exact ⟨⟨h.process, hstarted, h.time, Or.inl rfl⟩, fun _ => rfl⟩

/-- With positive magic time, a call of `schedule()` that does not end the period hands the processor
to `A` or to the idle task, and to `A` if it is runnable. -/
theorem Period.select (h : Period A v) (hbase : Base v) (hmagic : 0 < (v.task A).magicTime)
    {Q : TaskId → Prop} {n : TaskId} (hselect : Select Q v (.task n) w)
    (hstarted : (w.task A).startedMagic = true) :
    Period A { w with curr := n } ∧ ((v.task A).state = .running → n = A) := by
  generalize hnext : Next.task n = next at hselect
  cases hselect with
  | resume hm htime hflag hstate =>
      rw [h.process] at hm
      cases hm
      cases hnext
      have hrenew := h.renew htime
      exact ⟨⟨hrenew.process, hrenew.started, hrenew.time, Or.inl rfl⟩, fun _ => rfl⟩
  | wait hm htime hflag hstate =>
      rw [h.process] at hm
      cases hm
      cases hnext
      have hrenew := h.renew htime
      refine ⟨⟨hrenew.process, hrenew.started, hrenew.time, Or.inr ⟨?_, ?_, ?_⟩⟩, ?_⟩
      · exact (renew_idle v A).symm
      · rw [← hflag]
        exact renew_idleFromMagic v A
      · exact Or.inr ((congrArg (fun T => (T A).state) (renew_task v A)).trans hstate)
      · intro hrun
        rw [hrun] at hstate
        cases hstate
  | caught hseg hcaught =>
      subst hnext
      rcases h.segment hseg with rfl | ⟨rfl, htime, hcurr⟩
      · have hpos := hcaught.magicTime_pos
        rw [h.exit_magicTime hbase] at hpos
        exact absurd hpos (by decide)
      · have hcaught' := (h.renew htime).caught ((renew_curr v A).trans hcurr) hcaught hstarted
        rwa [renew_task] at hcaught'
  | picked hseg hpassed hn =>
      rcases h.segment hseg with rfl | ⟨rfl, htime, hcurr⟩
      · rw [(hpassed.task_eq A).2.2.1] at hstarted
        simp [exitFromMagic] at hstarted
      · have hzero := hpassed.magicTime_eq
        rw [renew_curr, hcurr, renew_task] at hzero
        rw [hzero] at hmagic
        exact absurd hmagic (by decide)

theorem Period.setState (h : Period A v) (hidle : v.curr ≠ v.idle) {state : TaskState} :
    Period A (v.setState v.curr state) := by
  rcases h.running with hcurr | ⟨hcurr, -⟩
  · refine ⟨h.process, ?_, h.time, Or.inl hcurr⟩
    simp only [View.setState, modTask, hcurr, Function.update_self]
    exact h.started
  · exact absurd hcurr hidle

theorem Period.wake (h : Period A v) (p : TaskId) : Period A (v.wake p) := by
  obtain ⟨hprocess, hstarted, htime, hrunning⟩ := h
  constructor <;> simp only [View.wake, modTask, Function.update_apply] <;> grind

theorem Period.fork (h : Period A v) {child : TaskId} (hchild : child ≠ A) : Period A (v.fork child) := by
  obtain ⟨hprocess, hstarted, htime, hrunning⟩ := h
  constructor <;> simp only [View.fork, Function.update_apply] <;> grind

theorem Period.modCurr (h : Period A v) {f : TaskView → TaskView}
    (hf : ∀ t, (f t).state = t.state ∧ (f t).startedMagic = t.startedMagic) :
    Period A (v.modTask v.curr f) := by
  have hfA := hf (v.task A)
  obtain ⟨hprocess, hstarted, htime, hrunning⟩ := h
  constructor <;> simp only [modTask, Function.update_apply] <;> grind

/-- A period goes on until a step resets `started_magic`. -/
theorem Period.step (h : Period A v) (hbase : Base v) (hmagic : 0 < (v.task A).magicTime)
    {last : Bool} {e : Event} (hstep : Step last v e w) (hstarted : (w.task A).startedMagic = true) :
    Period A w := by
  have hchild : ∀ child, v.allocated child = false → child ≠ A :=
    fun child hfree => hbase.child_ne_process hfree A h.process
  cases hstep with
  | tick ht =>
      have hperiod : Period A { v with jiffies := v.jiffies + 1 } :=
        ⟨h.process, h.started, h.time, h.running⟩
      exact hperiod.timer ht hstarted
  | wake hp hidle => exact h.wake _
  | signal => exact h
  | setState hidle => exact h.setState hidle
  | schedule hselect => exact (h.select hbase hmagic hselect hstarted).1
  | yield hidle hselect => exact (h.select hbase hmagic hselect hstarted).1
  | fork hidle hfree hlast => exact (h.fork (hchild _ hfree)).wake _
  | forkTick hidle hfree hlast ht =>
      refine ((h.fork (hchild _ hfree)).timer ht ?_).wake _
      simpa [View.wake, modTask, (hchild _ hfree).symm] using hstarted
  | release hidle hp hcurr hstate hqueued => exact ⟨h.process, h.started, h.time, h.running⟩
  | getWand hidle => exact h.modCurr fun t => ⟨rfl, rfl⟩
  | magicClock hidle =>
      rw [View.magicClock]
      split
      · exact h.modCurr fun t => ⟨rfl, rfl⟩
      · exact h

theorem Period.curr_of_running (h : Period A v) (hbase : Base v) (hmagic : 0 < (v.task A).magicTime)
    {last : Bool} {e : Event} (hstep : Step last v e w) (hstarted : (w.task A).startedMagic = true)
    (he : e = .schedule ∨ e = .yield) (hstate : (v.task A).state = .running) : w.curr = A := by
  rcases he with rfl | rfl
  · cases hstep with
    | schedule hselect => exact (h.select hbase hmagic hselect hstarted).2 hstate
  · cases hstep with
    | yield hidle hselect => exact (h.select hbase hmagic hselect hstarted).2 hstate

/-! ### The start of a period -/

theorem exitFromMagic_not_started {m : TaskId} (h : (v.task A).startedMagic = false) :
    ((v.exitFromMagic m).task A).startedMagic = false := by
  simp only [exitFromMagic, Function.update_apply]
  split
  · rfl
  · exact h

theorem Timer.not_started (ht : Timer v w) (h : (v.task A).startedMagic = false) :
    (w.task A).startedMagic = false := by
  cases ht with
  | off htime => exact h
  | count htime => exact h
  | expire htime hm => exact exitFromMagic_not_started h

theorem Segment.not_started (hseg : Segment v w) (h : (v.task A).startedMagic = false) :
    (w.task A).startedMagic = false := by
  cases hseg with
  | idle hm => exact h
  | ended hm hend => exact exitFromMagic_not_started (by rw [renew_task]; exact h)
  | kept hm hzombie htime hflag =>
      rw [renew_task]
      exact h

theorem Segment.state_eq (hseg : Segment v w) (p : TaskId) :
    (w.task p).state = (v.task p).state ∧ (w.task p).queued = (v.task p).queued := by
  cases hseg with
  | idle hm => exact ⟨rfl, rfl⟩
  | ended hm hend =>
      rename_i m
      refine ⟨?_, ?_⟩
      · simp only [View.exitFromMagic, Function.update_apply]
        split
        · rename_i hp
          rw [hp, renew_task]
        · rw [renew_task]
      · rw [exitFromMagic_queued, renew_task]
  | kept hm hzombie htime hflag =>
      rw [renew_task]
      exact ⟨rfl, rfl⟩

/-- `start_magic` starts the period of the current task. -/
theorem startUnlessStarted_period (hmagic : 0 < (v.task v.curr).magicTime)
    (h : (v.task A).startedMagic = false) (hstarted : (v.startUnlessStarted.task A).startedMagic = true) :
    A = v.curr ∧ v.startUnlessStarted.magicProcess = some A ∧ v.startUnlessStarted.MAGICTIME ≠ 0 := by
  rw [startUnlessStarted] at hstarted ⊢
  split at hstarted
  · rename_i hcurr
    rw [if_pos hcurr]
    have hA : A = v.curr := by
      by_contra hne
      simp [startMagic, hne, h] at hstarted
    subst hA
    exact ⟨rfl, rfl, toInt_ne_zero (UInt32.pos_iff_ne_zero.1 hmagic)⟩
  · rw [h] at hstarted
    cases hstarted

/-- A `schedule()` that starts a period hands the processor to the task at once, if it is runnable. -/
theorem Select.period {Q : TaskId → Prop} {n : TaskId} (hselect : Select Q v (.task n) w)
    (h : (v.task A).startedMagic = false) (hstarted : (w.task A).startedMagic = true) :
    Period A { w with curr := n } ∧ ((v.task A).state = .running → n = A) := by
  generalize hnext : Next.task n = next at hselect
  cases hselect with
  | resume hm htime hflag hstate =>
      rw [renew_task, h] at hstarted
      cases hstarted
  | wait hm htime hflag hstate =>
      rw [renew_task, h] at hstarted
      cases hstarted
  | caught hseg hcaught =>
      have h := hseg.not_started h
      have hstate := fun p => (hseg.state_eq p).1
      cases hcaught with
      | sleep hint hmagic hqueued =>
          cases hnext
          rename_i u
          have hstarted' : (u.startUnlessStarted.task A).startedMagic = true := by
            rw [← hstarted]
            simp only [unqueue, modTask, Function.update_apply]
            split
            · rename_i heq
              rw [heq]
            · rfl
          obtain ⟨rfl, hprocess, htime⟩ := startUnlessStarted_period hmagic h hstarted'
          refine ⟨⟨hprocess, hstarted, htime, Or.inr ⟨?_, rfl, Or.inr ?_⟩⟩, fun hrun => ?_⟩
          · exact u.startUnlessStarted_idle.symm
          · exact (unqueue_state _ _ _).trans ((u.startUnlessStarted_state u.curr).trans hint)
          · rw [hstate, hrun] at hint
            cases hint
      | run hrun hmagic hqueued =>
          obtain ⟨rfl, hprocess, htime⟩ := startUnlessStarted_period hmagic h hstarted
          rw [hprocess] at hnext
          cases hnext
          exact ⟨⟨hprocess, hstarted, htime, Or.inl rfl⟩, fun _ => rfl⟩
      | fallThrough hrun hint hmagic hqueued hcurr =>
          simp only [unqueue, modTask, Function.update_apply] at hstarted
          split at hstarted
          · rename_i heq
            rw [← heq, h] at hstarted
            cases hstarted
          · rw [h] at hstarted
            cases hstarted
  | picked hseg hpassed hn =>
      rw [(hpassed.task_eq A).2.2.1, hseg.not_started h] at hstarted
      cases hstarted

/-- Only `schedule()` sets `started_magic`, and it then begins a period, with the task current if it is runnable. -/
theorem Step.period {last : Bool} {e : Event} (hstep : Step last v e w)
    (h : (v.task A).startedMagic = false) (hstarted : (w.task A).startedMagic = true) :
    Period A w ∧ ((v.task A).state = .running → w.curr = A) := by
  have hmod : ∀ (u : View) (p : TaskId) (f : TaskView → TaskView),
      (∀ t, (f t).startedMagic = t.startedMagic) → (u.task A).startedMagic = false →
      ((u.modTask p f).task A).startedMagic = false := by
    intro u p f hf hu
    simp only [modTask, Function.update_apply]
    split
    · rename_i heq
      rw [hf, ← heq, hu]
    · exact hu
  have hfork : ∀ child, ((v.fork child).task A).startedMagic = false := by
    intro child
    simp only [View.fork, Function.update_apply]
    split
    · rfl
    · exact h
  have habsurd : (w.task A).startedMagic = false → Period A w ∧ ((v.task A).state = .running → w.curr = A) := by
    intro hw
    rw [hw] at hstarted
    cases hstarted
  cases hstep with
  | tick ht => exact habsurd (ht.not_started h)
  | wake hp hidle => exact habsurd (hmod v _ _ (fun _ => rfl) h)
  | signal => exact habsurd h
  | setState hidle => exact habsurd (hmod v _ _ (fun _ => rfl) h)
  | schedule hselect => exact hselect.period h hstarted
  | yield hidle hselect => exact hselect.period h hstarted
  | fork hidle hfree hlast => exact habsurd (hmod _ _ _ (fun _ => rfl) (hfork _))
  | forkTick hidle hfree hlast ht =>
      exact habsurd (hmod _ _ _ (fun _ => rfl) (ht.not_started (hfork _)))
  | release hidle hp hcurr hstate hqueued => exact habsurd h
  | getWand hidle => exact habsurd (hmod v _ _ (fun _ => rfl) h)
  | magicClock hidle =>
      refine habsurd ?_
      rw [View.magicClock]
      split
      · exact hmod v _ _ (fun _ => rfl) h
      · exact h

end View

/-! ### Runs of a period -/

/-- `A` is in a period that has started and still has magic time. -/
def InPeriod (A : TaskId) (s : State) : Prop :=
  (s.task A).startedMagic = true ∧ 0 < (s.task A).magicTime

instance (A : TaskId) (s : State) : Decidable (InPeriod A s) :=
  inferInstanceAs (Decidable (_ ∧ _))

/-- From the `schedule()` that starts a period to the end of the period every state is one of the
period. -/
theorem period_of_run {A : TaskId} {s₀ s₁ s₂ : State} {e₀ : Event} {es : List Event}
    (hreach : machine.Reachable Initial s₀) (hstart : machine.Step s₀ e₀ s₁)
    (hbefore : (s₀.task A).startedMagic = false) (hafter : (s₁.task A).startedMagic = true)
    (hrun : (machine.restrict fun s _ => InPeriod A s).Run s₁ es s₂)
    (hend : (s₂.task A).startedMagic = true) :
    machine.Reachable Initial s₂ ∧ s₂.view.Period A := by
  have hperiod₁ : s₁.view.Period A :=
    (((sound_of_reachable hreach).view_step hstart).period hbefore hafter).1
  have hreach₁ := hreach.step hstart
  clear hstart hbefore hreach
  induction hrun with
  | nil s => exact ⟨hreach₁, hperiod₁⟩
  | cons hstep hrest ih =>
      rename_i s t u e es
      obtain ⟨hin, hstep⟩ := Machine.restrict_step.1 hstep
      have hsound := sound_of_reachable hreach₁
      have hstarted : (t.task A).startedMagic = true := by
        cases hrest with
        | nil => exact hend
        | cons hstep' _ => exact (Machine.restrict_step.1 hstep').1.1
      refine ih hstarted hend ?_ (hreach₁.step hstep)
      exact hperiod₁.step hsound.base hin.2 (hsound.view_step hstep) hstarted

/-- Exclusive use of the processor. Take any run in which a step executes `start_magic` for `A`, and
any continuation through states in which the period goes on with positive magic time. The step that
starts the period hands the processor to `A` if `A` is runnable. Then `A` or the idle task is current;
after any further step that does not end the period it is still one of the two; and a pass of
`schedule()`, also one by `sys_sched_yield`, hands the processor to `A` if `A` is runnable. -/
theorem exclusive_cpu {A : TaskId} {s₀ s₁ s₂ : State} {e₀ : Event} {es : List Event}
    (hreach : machine.Reachable Initial s₀) (hstart : machine.Step s₀ e₀ s₁)
    (hbefore : (s₀.task A).startedMagic = false) (hafter : (s₁.task A).startedMagic = true)
    (hrun : (machine.restrict fun s _ => InPeriod A s).Run s₁ es s₂) (hend : InPeriod A s₂) :
    ((s₀.task A).state = .running → s₁.curr = A) ∧ (s₂.curr = A ∨ s₂.curr = s₂.idle) ∧
    ∀ e s₃, machine.Step s₂ e s₃ → (s₃.task A).startedMagic = true →
      (s₃.curr = A ∨ s₃.curr = s₃.idle) ∧
      (e = .schedule ∨ e = .yield → (s₂.task A).state = .running → s₃.curr = A) := by
  obtain ⟨hreach₂, hperiod⟩ := period_of_run hreach hstart hbefore hafter hrun hend.1
  have hsound := sound_of_reachable hreach₂
  have hfirst := (((sound_of_reachable hreach).view_step hstart).period hbefore hafter).2
  refine ⟨hfirst, hperiod.running.imp_right fun h => h.1, ?_⟩
  intro e s₃ hstep hstarted
  have hview := hsound.view_step hstep
  have hperiod₃ := hperiod.step hsound.base hend.2 hview hstarted
  refine ⟨hperiod₃.running.imp_right fun h => h.1, ?_⟩
  exact hperiod.curr_of_running hsound.base hend.2 hview hstarted

section Boot

/-- `init` gets a wand and asks for a second of magic. -/
def asked : State := machine.after boot [.schedule, .getWand, .magicClock 1]

/-- Its period begins. -/
def inMagic : State := machine.after asked [.schedule]

/-- It forks, sleeps and is woken, all in its period. -/
def woken : State :=
  (machine.restrict fun s _ => InPeriod 1 s).after inMagic
    [.fork 2 false, .setState .interruptible, .schedule, .tick, .wake 1]

theorem exclusive_cpu_boot :
    (machine.Reachable Initial asked ∧ machine.Step asked .schedule inMagic ∧ InPeriod 1 woken) ∧
    (((asked.task 1).state = .running → inMagic.curr = 1) ∧ (woken.curr = 1 ∨ woken.curr = woken.idle) ∧
      ∀ e s₃, machine.Step woken e s₃ → (s₃.task 1).startedMagic = true →
        (s₃.curr = 1 ∨ s₃.curr = s₃.idle) ∧
        (e = .schedule ∨ e = .yield → (woken.task 1).state = .running → s₃.curr = 1)) := by
  have hreach : machine.Reachable Initial asked :=
    ⟨boot, _, boot_initial, Machine.run_after (by decide +kernel)⟩
  have hstart : machine.Step asked .schedule inMagic := Machine.step_after (by decide +kernel)
  have hperiod : InPeriod 1 woken := by decide +kernel
  refine ⟨⟨hreach, hstart, hperiod⟩, ?_⟩
  exact exclusive_cpu hreach hstart (by decide +kernel) (by decide +kernel)
    (Machine.run_after (by decide +kernel)) hperiod

end Boot

end MagicKernel.Sched
