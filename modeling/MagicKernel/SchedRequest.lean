import MagicKernel.SchedPrio

/-! Requests for magic. `sys_magic_clock` leaves a request in the task structure of its caller, and the
caller's next call of `schedule()` is to act on it. Outside a period it does: `start_magic` reads the
request. Within the caller's own period the request is noticed by its time stamp only, so that one
made in the jiffy of the last one noticed goes unseen, and one made in the last jiffy of the period is
cleared by `exit_from_magic` before `schedule()` looks. -/

namespace MagicKernel.Sched

open FaultMachine

/-! ### Pending requests -/

namespace View

variable {v w : View} {A : TaskId} {d t : UInt32}

/-- `A` has the processor and has asked at `t` for `d` jiffies of magic; `schedule()` will see it. -/
structure Pending (A : TaskId) (d t : UInt32) (v : View) : Prop where
  curr : v.curr = A
  magicTime : (v.task A).magicTime = d
  magicCallTime : (v.task A).magicCallTime = t
  unseen : (v.magicProcess = none ∧ (v.task A).startedMagic = false) ∨
    (v.magicProcess = some A ∧ v.globalMagicCallTime ≠ t)

/-- A timer that does not end the period of `A`. -/
theorem Pending.timer (h : Pending A d t v) (ht : Timer v w)
    (hlost : v.MAGICTIME = 1 → v.magicProcess = some A → v.globalMagicCallTime = t) :
    Pending A d t w := by
  cases ht with
  | off hzero => exact h
  | count hpos => exact ⟨h.curr, h.magicTime, h.magicCallTime, h.unseen⟩
  | expire hone hm =>
      rcases h.unseen with ⟨hnone, -⟩ | ⟨hprocess, hne⟩
      · rw [hnone] at hm
        cases hm
      · exact absurd (hlost hone hprocess) hne

theorem Pending.modTask (h : Pending A d t v) {p : TaskId} {f : TaskView → TaskView}
    (hf : ∀ u, (f u).magicTime = u.magicTime ∧ (f u).startedMagic = u.startedMagic ∧
      (f u).magicCallTime = u.magicCallTime) : Pending A d t (v.modTask p f) := by
  have htask : ((v.modTask p f).task A).magicTime = (v.task A).magicTime ∧
      ((v.modTask p f).task A).startedMagic = (v.task A).startedMagic ∧
      ((v.modTask p f).task A).magicCallTime = (v.task A).magicCallTime := by
    by_cases hp : A = p
    · subst hp
      simp only [View.modTask, Function.update_self]
      exact hf _
    · simp only [View.modTask, Function.update_of_ne hp, and_self]
  refine ⟨h.curr, htask.1.trans h.magicTime, htask.2.2.trans h.magicCallTime, ?_⟩
  exact h.unseen.imp (fun hu => ⟨hu.1, htask.2.1.trans hu.2⟩) id

theorem Pending.fork (h : Pending A d t v) {child : TaskId} (hchild : A ≠ child) :
    Pending A d t (v.fork child) := by
  have htask : (v.fork child).task A = v.task A := Function.update_of_ne hchild _ _
  refine ⟨h.curr, ?_, ?_, ?_⟩
  · rw [htask]
    exact h.magicTime
  · rw [htask]
    exact h.magicCallTime
  · rw [htask]
    exact h.unseen

/-- A request stays pending until a call of `schedule()` or a further request, unless a tick ends the
period. -/
theorem Pending.step (h : Pending A d t v) (hbase : Base v) {last : Bool} {e : Event}
    (hstep : Step last v e w) (hschedule : e ≠ .schedule) (hyield : e ≠ .yield)
    (hclock : ∀ seconds, e ≠ .magicClock seconds)
    (hlost : (e = .tick ∨ last = true ∧ ∃ child vfork, e = .fork child vfork) → v.MAGICTIME = 1 →
      v.magicProcess = some A → v.globalMagicCallTime = t) : Pending A d t w := by
  have hchild : ∀ child, v.allocated child = false → A ≠ child := by
    rintro child hfree rfl
    rw [← h.curr, hbase.curr_allocated] at hfree
    cases hfree
  cases hstep with
  | tick ht =>
      have h' : Pending A d t { v with jiffies := v.jiffies + 1 } :=
        ⟨h.curr, h.magicTime, h.magicCallTime, h.unseen⟩
      exact h'.timer ht (hlost (Or.inl rfl))
  | wake hp hidle => exact h.modTask fun _ => ⟨rfl, rfl, rfl⟩
  | signal => exact h
  | setState hidle => exact h.modTask fun _ => ⟨rfl, rfl, rfl⟩
  | schedule hselect => exact absurd rfl hschedule
  | yield hidle hselect => exact absurd rfl hyield
  | fork hidle hnew hlast => exact (h.fork (hchild _ hnew)).modTask fun _ => ⟨rfl, rfl, rfl⟩
  | forkTick hidle hnew hlast ht =>
      have hw := (h.fork (hchild _ hnew)).timer ht (hlost (Or.inr ⟨hlast, _, _, rfl⟩))
      exact hw.modTask fun _ => ⟨rfl, rfl, rfl⟩
  | release hidle hp hcurr hstate hqueued =>
      exact ⟨h.curr, h.magicTime, h.magicCallTime, h.unseen⟩
  | getWand hidle => exact h.modTask fun _ => ⟨rfl, rfl, rfl⟩
  | magicClock hidle => exact absurd rfl (hclock _)

/-- A call of `sys_magic_clock` makes a request, if it is the first after the last one noticed. -/
theorem Owned.pending (h : Owned v) (hidle : v.curr ≠ v.idle) (hwand : (v.task v.curr).holdingWand = true)
    (hseen : v.magicProcess = some v.curr → v.globalMagicCallTime ≠ v.jiffies) (seconds : UInt32) :
    Pending v.curr (seconds * UInt32.ofNat hz) v.jiffies (v.magicClock seconds) := by
  rw [View.magicClock, if_pos hwand]
  refine ⟨rfl, ?_, ?_, ?_⟩
  · simp only [View.modTask, Function.update_self]
  · simp only [View.modTask, Function.update_self]
  · cases hm : v.magicProcess with
    | none =>
        refine Or.inl ⟨hm, ?_⟩
        simp only [View.modTask, Function.update_self]
        exact (h.consistent.unset hm).2.2.2 v.curr
    | some m =>
        rcases h.placed m hm with ⟨-, -, hcurr⟩ | ⟨-, -, hcurr, -⟩
        · subst hcurr
          exact Or.inr ⟨hm, hseen hm⟩
        · exact absurd hcurr hidle

end View

/-! ### The next call of `schedule()` -/

/-- The request is the one that the magic globals stand for. -/
structure Honoured (A : TaskId) (d t : UInt32) (s : State) : Prop where
  magicProcess : s.magicProcess = some A
  MAGICTIME : s.MAGICTIME = d.toNat
  magicDuration : s.magicDuration = d
  globalMagicCallTime : s.globalMagicCallTime = t

theorem toInt_eq_toNat {x : UInt32} (h : x.toNat < 2 ^ 31) : toInt x = x.toNat := by
  refine BitVec.toInt_eq_toNat_of_lt ?_
  show 2 * x.toNat < 2 ^ 32
  omega

/-- What it takes for `dequeue_task` to succeed on `current`. -/
structure CurrQueued (s : State) : Prop where
  linked : Linked s
  array : (s.task s.curr).array ≠ none
  prio_lt : (s.task s.curr).prio < maxPrio

section

variable {s s' : State} {A : TaskId} {d t : UInt32}

theorem CurrQueued.congr (h : CurrQueued s) (harrays : s'.arrays = s.arrays) (hcurr : s'.curr = s.curr)
    (hloc : s'.loc = s.loc) (hprio : (s'.task s.curr).prio = (s.task s.curr).prio) : CurrQueued s' := by
  refine ⟨h.linked.congr harrays fun q => congrFun hloc q, ?_, ?_⟩
  · rw [hcurr]
    have harray : (s'.task s.curr).array = (s.task s.curr).array := congrFun hloc s.curr
    rw [harray]
    exact h.array
  · rw [hcurr, hprio]
    exact h.prio_lt

theorem CurrQueued.dequeueTask (h : CurrQueued s) :
    ∃ s', dequeueTask s.curr (s.task s.curr).array s = .ok s' := by
  obtain ⟨a, ha⟩ := Option.ne_none_iff_exists'.1 h.array
  exact ⟨_, dequeueTask_eq_ok.2 ⟨a, ha, (h.linked a s.curr).2 ha, h.prio_lt, rfl⟩⟩

theorem CurrQueued.deactivateTask (h : CurrQueued s) : ∃ s', deactivateTask s.curr s = .ok s' := by
  unfold Sched.deactivateTask
  dsimp only
  generalize hs₁ : (if (s.task s.curr).state = .uninterruptible then
    { s with nrRunning := s.nrRunning - 1, nrUninterruptible := s.nrUninterruptible + 1 }
    else { s with nrRunning := s.nrRunning - 1 }) = s₁
  have htask : s₁.task = s.task ∧ s₁.arrays = s.arrays ∧ s₁.curr = s.curr := by
    rw [← hs₁]
    split <;> exact ⟨rfl, rfl, rfl⟩
  have hloc : s₁.loc = s.loc := by
    funext q
    rw [State.loc, htask.1]
    rfl
  obtain ⟨s₂, h₂⟩ := (h.congr htask.2.1 htask.2.2 hloc (by rw [htask.1])).dequeueTask
  rw [htask.2.2] at h₂
  rw [h₂]
  exact ⟨_, rfl⟩

theorem CurrQueued.startMagic (h : CurrQueued s) :
    ∃ s', startMagic s = .ok s' ∧ CurrQueued s' := by
  have hok : ∃ s', Sched.startMagic s = .ok s' := by
    unfold Sched.startMagic
    dsimp only
    generalize hs₁ : State.modTask _ s.curr _ = s₁
    have hcurr₁ : s₁.curr = s.curr := by
      rw [← hs₁]
      rfl
    have htask₁ : s₁.task s.curr = { s.task s.curr with startedMagic := true } := by
      rw [← hs₁, State.modTask_task, Function.update_self]
    have hloc₁ : s₁.loc = s.loc := by
      rw [← hs₁]
      exact loc_modTask _ _ _ fun _ => rfl
    have hqueued₁ : CurrQueued s₁ :=
      h.congr (by rw [← hs₁]; rfl) hcurr₁ hloc₁ (by rw [htask₁])
    obtain ⟨s₂, h₂⟩ := hqueued₁.dequeueTask
    rw [hcurr₁] at h₂
    have hframe := frame_dequeueTask h₂
    obtain ⟨a, ha⟩ := Option.ne_none_iff_exists'.1 hqueued₁.array
    rw [hcurr₁] at ha
    have ha₂ : ((s₂.modTask s.curr fun t => { t with prio := 50 }).task s.curr).array = some a := by
      rw [State.modTask_task, Function.update_self, hframe.task_self]
      exact ha
    have hlt₂ : ((s₂.modTask s.curr fun t => { t with prio := 50 }).task s.curr).prio < maxPrio := by
      rw [State.modTask_task, Function.update_self]
      exact (by decide : 50 < maxPrio)
    have h₃ := enqueueTask_eq_ok.2 ⟨a, ha₂, hlt₂, rfl⟩
    rw [h₂]
    simp only [bind, Except.bind]
    rw [h₃]
    exact ⟨_, rfl⟩
  obtain ⟨s', hs'⟩ := hok
  obtain ⟨-, htask, hcore⟩ := startMagic_spec hs'
  have hcurr : s'.curr = s.curr := congrArg Core.curr hcore
  refine ⟨s', hs', (startMagic_linked h.linked).of_ok hs', ?_, ?_⟩
  · rw [hcurr, htask, Function.update_self]
    exact h.array
  · rw [hcurr, htask, Function.update_self]
    exact (by decide : 50 < maxPrio)

/-- Both arms that catch a process with magic time leave it registered with its request. -/
theorem CurrQueued.startUnlessStarted (h : CurrQueued s) (hcurr : s.curr = A)
    (hlt : d.toNat < 2 ^ 31) (hmagic : (s.task A).magicTime = d) (hcall : (s.task A).magicCallTime = t)
    (hstarted : (s.task A).startedMagic = true → Honoured A d t s) :
    ∃ s', startUnlessStarted s = .ok s' ∧ CurrQueued s' ∧ Honoured A d t s' := by
  subst hcurr
  unfold Sched.startUnlessStarted
  split
  · obtain ⟨s', hs', hqueued⟩ := h.startMagic
    obtain ⟨-, -, hcore⟩ := startMagic_spec hs'
    refine ⟨s', hs', hqueued, congrArg Core.magicProcess hcore, ?_, ?_, ?_⟩
    · have htime : s'.MAGICTIME = toInt (s.task s.curr).magicTime := congrArg Core.MAGICTIME hcore
      rw [htime, hmagic, toInt_eq_toNat hlt]
    · have hduration : s'.magicDuration = (s.task s.curr).magicTime :=
        congrArg Core.magicDuration hcore
      rw [hduration, hmagic]
    · have hglobal : s'.globalMagicCallTime = (s.task s.curr).magicCallTime :=
        congrArg Core.globalMagicCallTime hcore
      rw [hglobal, hcall]
  · rename_i hne
    exact ⟨s, rfl, h, hstarted (by simpa using hne)⟩

theorem CurrQueued.yieldRequeue (h : CurrQueued s) : ∃ s', yieldRequeue s = .ok s' ∧ CurrQueued s' := by
  obtain ⟨a, ha⟩ := Option.ne_none_iff_exists'.1 h.array
  have hok : ∃ s', Sched.yieldRequeue s = .ok s' := by
    unfold Sched.yieldRequeue
    dsimp only
    rw [ha]
    dsimp only
    rw [if_neg (not_not.2 ((h.linked a s.curr).2 ha)), if_neg (Nat.not_le_of_lt h.prio_lt)]
    split
    · exact ⟨_, rfl⟩
    · split
      · exact ⟨_, rfl⟩
      · exact ⟨_, rfl⟩
  obtain ⟨s', hs'⟩ := hok
  obtain ⟨-, k, hframe, hk, -⟩ := yieldRequeue_spec hs'
  refine ⟨s', hs', (yieldRequeue_linked h.linked).of_ok hs', ?_, ?_⟩
  · rw [hframe.curr, hframe.task_self]
    exact h.array
  · rw [hframe.curr, hframe.task_self]
    exact hk

/-- The magic segment passes a pending request on, and renews the caller's own period. -/
theorem magicSegment_pending (h : s.view.Pending A d t) (hpos : d ≠ 0) (hlt : d.toNat < 2 ^ 31)
    (hzombie : (s.task A).state ≠ .zombie) (hidle : s.magicProcess = some A → s.idleFromMagic = false) :
    ∃ s₁, magicSegment s = .ok (.fall s₁) ∧ s₁.task = s.task ∧ s₁.arrays = s.arrays ∧
      s₁.curr = s.curr ∧ ((s.task A).startedMagic = true → Honoured A d t s₁) := by
  have hmagic : (s.task A).magicTime = d := h.magicTime
  have hcall : (s.task A).magicCallTime = t := h.magicCallTime
  rcases h.unseen with ⟨hm, hstarted⟩ | ⟨hm, hne⟩
  · have hm' : s.magicProcess = none := hm
    refine ⟨s, ?_, rfl, rfl, rfl, fun hs => ?_⟩
    · unfold magicSegment
      rw [hm']
    · rw [show (s.task A).startedMagic = false from hstarted] at hs
      cases hs
  · have hm' : s.magicProcess = some A := hm
    have hne' : s.globalMagicCallTime ≠ (s.task A).magicCallTime := by
      rw [hcall]
      exact hne
    have hrenew : renewMagic A s = updateMagic A d s := by
      rw [renewMagic, if_pos hne', hmagic]
    have htime : (updateMagic A d s).MAGICTIME ≠ 0 := toInt_ne_zero hpos
    refine ⟨updateMagic A d s, ?_, rfl, rfl, rfl, fun _ => ?_⟩
    · unfold magicSegment
      rw [hm']
      dsimp only
      have hidle' : (updateMagic A d s).idleFromMagic = false := hidle hm'
      have hzombie' : ((updateMagic A d s).task A).state ≠ .zombie := hzombie
      rw [hrenew, if_neg hzombie', if_neg htime, hidle']
      rfl
    · exact ⟨hm', toInt_eq_toNat hlt, rfl, hcall⟩

theorem runningArm_pending (h : CurrQueued s) (hcurr : s.curr = A) (hpos : d ≠ 0)
    (hlt : d.toNat < 2 ^ 31) (hmagic : (s.task A).magicTime = d) (hcall : (s.task A).magicCallTime = t)
    (hstarted : (s.task A).startedMagic = true → Honoured A d t s) :
    ∃ n s', runningArm s = .ok (.goto n s') ∧ Honoured A d t s' := by
  obtain ⟨s', hs', -, hhonoured⟩ := h.startUnlessStarted hcurr hlt hmagic hcall hstarted
  refine ⟨.ofPtr s'.magicProcess, s', ?_, hhonoured⟩
  unfold runningArm
  rw [if_pos, hs']
  · rfl
  · rw [hcurr, hmagic]
    exact UInt32.pos_iff_ne_zero.2 hpos

theorem stateSwitch_pending (h : CurrQueued s) (hcurr : s.curr = A) (hpos : d ≠ 0)
    (hlt : d.toNat < 2 ^ 31) (hmagic : (s.task A).magicTime = d) (hcall : (s.task A).magicCallTime = t)
    (hstarted : (s.task A).startedMagic = true → Honoured A d t s)
    (hstate : (s.task A).state = .running ∨ (s.task A).state = .interruptible) :
    ∃ n s', stateSwitch s = .ok (.goto n s') ∧ Honoured A d t s' := by
  unfold stateSwitch
  rw [hcurr]
  rcases hstate with hrun | hint
  · rw [hrun]
    exact runningArm_pending h hcurr hpos hlt hmagic hcall hstarted
  · obtain ⟨s₁, h₁, hqueued, hhonoured⟩ := h.startUnlessStarted hcurr hlt hmagic hcall hstarted
    have hqueued' : CurrQueued { s₁ with idleFromMagic := true, magicSleepFlag := true } :=
      hqueued.congr rfl rfl rfl rfl
    obtain ⟨s₂, h₂⟩ := hqueued'.deactivateTask
    have hcore := (frame_deactivateTask h₂).core
    refine ⟨.task s₂.idle, s₂, ?_, ?_⟩
    · rw [hint]
      dsimp only
      rw [if_pos, h₁]
      · simp only [bind, Except.bind]
        rw [h₂]
        rfl
      · rw [hmagic]
        exact UInt32.pos_iff_ne_zero.2 hpos
    · exact ⟨(congrArg Core.magicProcess hcore).trans hhonoured.magicProcess,
        (congrArg Core.MAGICTIME hcore).trans hhonoured.MAGICTIME,
        (congrArg Core.magicDuration hcore).trans hhonoured.magicDuration,
        (congrArg Core.globalMagicCallTime hcore).trans hhonoured.globalMagicCallTime⟩

/-- `schedule()` acts on a pending request. -/
theorem selectNext_pending (h : s.view.Pending A d t) (hqueued : CurrQueued s) (hpos : d ≠ 0)
    (hlt : d.toNat < 2 ^ 31)
    (hstate : (s.task A).state = .running ∨ (s.task A).state = .interruptible)
    (hidle : s.magicProcess = some A → s.idleFromMagic = false) :
    ∃ n s', selectNext s = .ok (n, s') ∧ Honoured A d t s' := by
  have hstamp : (stampSleep s).view.Pending A d t := by
    rw [stampSleep_view]
    exact h
  have hqueued' : CurrQueued (stampSleep s) := by
    refine hqueued.congr rfl rfl (loc_modTask _ _ _ fun _ => rfl) ?_
    exact (kept_stampSleep s s.curr).prio
  have hstate' : ((stampSleep s).task A).state = .running ∨
      ((stampSleep s).task A).state = .interruptible := by
    rw [stampSleep_state]
    exact hstate
  have hzombie : ((stampSleep s).task A).state ≠ .zombie := by
    rcases hstate' with h' | h' <;> rw [h'] <;> exact TaskState.noConfusion
  obtain ⟨s₁, h₁, htask, harrays, hcurr, hhonoured⟩ :=
    magicSegment_pending hstamp hpos hlt hzombie hidle
  have hloc : s₁.loc = (stampSleep s).loc := by
    funext q
    rw [State.loc, htask]
    rfl
  have hqueued₁ : CurrQueued s₁ := hqueued'.congr harrays hcurr hloc (by rw [htask])
  have hmagic : (s₁.task A).magicTime = d := by
    rw [htask]
    exact hstamp.magicTime
  have hcall : (s₁.task A).magicCallTime = t := by
    rw [htask]
    exact hstamp.magicCallTime
  obtain ⟨n, s', h₂, hs'⟩ := stateSwitch_pending hqueued₁ (hcurr.trans h.curr) hpos hlt hmagic hcall
    (by rw [htask]; exact hhonoured) (by rw [htask]; exact hstate')
  refine ⟨n, s', ?_, hs'⟩
  unfold selectNext
  rw [h₁]
  simp only [bind, Except.bind]
  rw [h₂]
  rfl

end

/-! ### Runs -/

/-- The registered process makes a request in the jiffy of the last one noticed. -/
def UnseenCall (s : State) (e : Event) : Prop :=
  (∃ seconds, e = .magicClock seconds) ∧ (s.task s.curr).holdingWand = true ∧
    s.magicProcess = some s.curr ∧ s.jiffies = s.globalMagicCallTime

/-- A tick ends the period of a process with a request pending. -/
def LostRenewal (s : State) (e : Event) : Prop :=
  ¬(e = .schedule ∨ e = .yield) ∧ ∃ m, s.magicProcess = some m ∧ EndsPeriod s m e ∧
    s.globalMagicCallTime ≠ (s.task m).magicCallTime

def Prompt (s : State) (e : Event) : Prop :=
  ¬FallThrough s e ∧ ¬UnseenCall s e ∧ ¬LostRenewal s e

theorem Prompt.careful {s : State} {e : Event} (h : Prompt s e) : Careful s e := by
  refine ⟨h.1, fun hlost => h.2.1 ?_⟩
  obtain ⟨seconds, he, -, hwand, hm, hjiffies⟩ := hlost
  exact ⟨⟨seconds, he⟩, hwand, hm, hjiffies⟩

/-- What the current task does before its next call of `schedule()` or `sys_magic_clock`, and what
happens to it then. -/
def Quiet (e : Event) : Prop :=
  e ≠ .schedule ∧ e ≠ .yield ∧ ∀ seconds, e ≠ .magicClock seconds

theorem pending_of_run {s s' : State} {es : List Event} {A : TaskId} {d t : UInt32}
    (hreach : (machine.restrict Prompt).Reachable Initial s) (h : s.view.Pending A d t)
    (hrun : (machine.restrict Prompt).Run s es s') (hquiet : ∀ e ∈ es, Quiet e) :
    (machine.restrict Prompt).Reachable Initial s' ∧ s'.view.Pending A d t := by
  induction hrun with
  | nil => exact ⟨hreach, h⟩
  | @cons s s₁ _ e es hstep _ ih =>
      obtain ⟨hprompt, hstep'⟩ := Machine.restrict_step.1 hstep
      obtain ⟨hschedule, hyield, hclock⟩ := hquiet e List.mem_cons_self
      have hsound := sound_of_reachable hreach.of_restrict
      have hcall : (s.task A).magicCallTime = t := h.magicCallTime
      refine ih (hreach.step hstep) ?_ fun e' he' => hquiet e' (List.mem_cons_of_mem _ he')
      refine h.step hsound.base (hsound.view_step hstep') hschedule hyield hclock ?_
      intro hends htime hm
      by_contra hne
      have hm' : s.magicProcess = some A := hm
      refine hprompt.2.2 ⟨not_or.2 ⟨hschedule, hyield⟩, A, hm', ?_, by rw [hcall]; exact hne⟩
      rcases hends with rfl | ⟨hlast, child, vfork, rfl⟩
      · exact htime
      · exact ⟨htime, of_decide_eq_true hlast⟩

/-- In a run in which no call falls through, no request is made unseen and none is lost to a tick, every
successful call of `sys_magic_clock` with a duration that fits an `int` is acted on by the next call of
`schedule()`, direct or by `sys_sched_yield`: at `switch_tasks` its caller is the registered process
with the time asked for. -/
theorem request_honoured {s₀ s₁ s₂ : State} {es : List Event} {seconds : UInt32}
    (hreach : (machine.restrict Prompt).Reachable Initial s₀)
    (hcall : (machine.restrict Prompt).Step s₀ (.magicClock seconds) s₁)
    (hwand : (s₀.task s₀.curr).holdingWand = true)
    (hpos : 0 < seconds.toNat * hz) (hlt : seconds.toNat * hz < 2 ^ 31)
    (hrun : (machine.restrict Prompt).Run s₁ es s₂) (hquiet : ∀ e ∈ es, Quiet e)
    (hstate : (s₂.task s₂.curr).state = .running ∨ (s₂.task s₂.curr).state = .interruptible) :
    s₂.curr = s₀.curr ∧
    (∃ n s₃, selectNext s₂ = .ok (n, s₃) ∧ s₃.magicProcess = some s₀.curr ∧
      s₃.MAGICTIME = seconds.toNat * hz) ∧
    ∃ s₂' n s₃, yieldRequeue s₂ = .ok s₂' ∧ selectNext s₂' = .ok (n, s₃) ∧
      s₃.magicProcess = some s₀.curr ∧ s₃.MAGICTIME = seconds.toNat * hz := by
  obtain ⟨hprompt, hstep⟩ := Machine.restrict_step.1 hcall
  have hsound₀ := sound_of_reachable hreach.of_restrict
  have howned₀ := owned_of_reachable (fun s e hc => (Prompt.careful hc).2) hreach
  have hduration : (seconds * UInt32.ofNat hz).toNat = seconds.toNat * hz := by
    rw [UInt32.toNat_mul]
    exact Nat.mod_eq_of_lt (hlt.trans (by decide))
  have hd : seconds * UInt32.ofNat hz ≠ 0 := by
    intro hzero
    rw [hzero] at hduration
    exact absurd hduration (Nat.ne_of_lt hpos)
  have hseen : s₀.view.magicProcess = some s₀.view.curr →
      s₀.view.globalMagicCallTime ≠ s₀.view.jiffies :=
    fun hm hjiffies => hprompt.2.1 ⟨⟨seconds, rfl⟩, hwand, hm, hjiffies.symm⟩
  have hpending₁ : s₁.view.Pending s₀.curr (seconds * UInt32.ofNat hz) s₀.jiffies := by
    have hview := hsound₀.view_step hstep
    generalize s₁.view = v₁ at hview
    cases hview with
    | magicClock hidle => exact howned₀.pending hidle hwand hseen seconds
  obtain ⟨hreach₂, hpending⟩ := pending_of_run (hreach.step hcall) hpending₁ hrun hquiet
  have hcurr : s₂.curr = s₀.curr := hpending.curr
  have hsound := sound_of_reachable hreach₂.of_restrict
  have howned := owned_of_reachable (fun s e hc => (Prompt.careful hc).2) hreach₂
  have htidy := tidy_of_careful (hreach₂.restrict_mono fun s e hc => Prompt.careful hc)
  have hidle : s₂.curr ≠ s₂.idle := by
    intro heq
    have hmagic := hsound.base.idle_magicTime
    rw [show s₂.view.idle = s₂.curr from heq.symm, hcurr, hpending.magicTime] at hmagic
    exact hd hmagic
  have hqueued : CurrQueued s₂ :=
    ⟨hsound.linked, queued_eq_true.1 (htidy.curr_queued hidle),
      prioBelow_of_reachable hreach₂.of_restrict s₂.curr hsound.base.curr_allocated hidle⟩
  have hawake : s₂.view.magicProcess = some s₀.curr → s₂.view.idleFromMagic = false := by
    intro hm
    rcases howned.placed s₀.curr hm with ⟨hflag, -⟩ | ⟨-, -, hstand, -⟩
    · exact hflag
    · exact absurd hstand hidle
  rw [hcurr] at hstate
  rw [← hduration] at hlt
  refine ⟨hcurr, ?_, ?_⟩
  · obtain ⟨n, s₃, h₃, hhonoured⟩ := selectNext_pending hpending hqueued hd hlt hstate hawake
    refine ⟨n, s₃, h₃, hhonoured.magicProcess, ?_⟩
    rw [hhonoured.MAGICTIME, hduration]
    rfl
  · obtain ⟨s₂', h₂, hqueued'⟩ := hqueued.yieldRequeue
    have hview := yieldRequeue_view h₂
    have hstate' : (s₂'.view.task s₀.curr).state = .running ∨
        (s₂'.view.task s₀.curr).state = .interruptible := by
      rw [hview]
      exact hstate
    rw [← hview] at hpending hawake
    obtain ⟨n, s₃, h₃, hhonoured⟩ := selectNext_pending hpending hqueued' hd hlt hstate' hawake
    refine ⟨s₂', n, s₃, h₂, h₃, hhonoured.magicProcess, ?_⟩
    rw [hhonoured.MAGICTIME, hduration]
    rfl

section Boot

instance (s : State) (e : Event) : Decidable (UnseenCall s e) :=
  match e with
  | .magicClock seconds => decidable_of_iff ((s.task s.curr).holdingWand = true ∧
      s.magicProcess = some s.curr ∧ s.jiffies = s.globalMagicCallTime)
      ⟨fun h => ⟨⟨seconds, rfl⟩, h⟩, fun h => h.2⟩
  | .tick | .wake _ | .signal _ _ | .setState _ | .schedule | .yield | .fork _ _ | .release _
  | .getWand => .isFalse fun ⟨⟨_, he⟩, _⟩ => by cases he

instance (s : State) (e : Event) : Decidable (LostRenewal s e) :=
  inferInstanceAs (Decidable (¬(_ ∨ _) ∧ _))

instance (s : State) (e : Event) : Decidable (Prompt s e) :=
  inferInstanceAs (Decidable (_ ∧ _ ∧ _))

/-- `init` is in its period, and a jiffy has passed. -/
def renewing : State :=
  (machine.restrict Prompt).after boot [.schedule, .getWand, .magicClock 1, .schedule, .tick]

def renewed : State := (machine.restrict Prompt).after renewing [.magicClock 2]

theorem request_honoured_renewing : renewing.magicProcess = some 1 ∧ renewing.MAGICTIME = 511 ∧
    ∃ n s₃, selectNext ((machine.restrict Prompt).after renewed [.tick]) = .ok (n, s₃) ∧
      s₃.magicProcess = some renewing.curr ∧ s₃.MAGICTIME = (2 : UInt32).toNat * hz := by
  have hreach : (machine.restrict Prompt).Reachable Initial renewing :=
    ⟨boot, _, boot_initial, Machine.run_after (by decide +kernel)⟩
  have hcall : (machine.restrict Prompt).Step renewing (.magicClock 2) renewed :=
    Machine.step_after (by decide +kernel)
  have hrun : (machine.restrict Prompt).Run renewed [.tick]
      ((machine.restrict Prompt).after renewed [.tick]) := Machine.run_after (by decide +kernel)
  have hquiet : ∀ e ∈ [Event.tick], Quiet e := by
    intro e he
    cases List.mem_singleton.1 he
    exact ⟨nofun, nofun, nofun⟩
  exact ⟨by decide +kernel, by decide +kernel, (request_honoured hreach hcall (by decide +kernel)
    (by decide) (by decide) hrun hquiet (by decide +kernel)).2.1⟩

/-- `init` has started its period, and asks for more within the jiffy. -/
def started : State := machine.after boot [.schedule, .getWand, .magicClock 1, .schedule]

def unseen : State := machine.after started [.magicClock 2]

theorem unseen_request_lost : machine.Reachable Initial started ∧
    (started.task started.curr).holdingWand = true ∧ machine.Step started (.magicClock 2) unseen ∧
    unseen.curr = started.curr ∧ (unseen.task unseen.curr).state = .running ∧
    machine.Step unseen .schedule (machine.after unseen [.schedule]) ∧
    (machine.after unseen [.schedule]).MAGICTIME = 512 :=
  ⟨⟨boot, _, boot_initial, Machine.run_after (by decide +kernel)⟩, by decide +kernel,
    Machine.step_after (by decide +kernel), by decide +kernel, by decide +kernel,
    Machine.step_after (by decide +kernel), by decide +kernel⟩

end Boot

end MagicKernel.Sched
