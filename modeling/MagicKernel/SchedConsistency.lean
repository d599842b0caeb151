import MagicKernel.SchedPeriod

/-! Consistency of the magic state. The globals and the `started_magic` fields agree in every state
of a run, provided no task with magic time of its own calls `schedule()` while another process is
still registered. The code does not rule that out: a process that cancels its magic in the jiffy in
which it asked for it stays registered, gives up the processor, and a second process then starts a
period on top of the first. -/

namespace MagicKernel.Sched

open FaultMachine

namespace View

variable {v w : View}

/-- The magic globals agree with one another and with the tasks. `sleeper` is what makes the other
facts inductive: the idle task stands in for the registered process, which sleeps interruptibly or
has been woken. -/
structure Consistent (v : View) : Prop where
  time_iff : v.magicProcess = none ↔ v.MAGICTIME = 0
  unset : v.magicProcess = none → v.idleFromMagic = false ∧ v.magicSleepFlag = false ∧
    v.magicDuration = 0 ∧ ∀ p, (v.task p).startedMagic = false
  started_iff : ∀ m, v.magicProcess = some m → ∀ p, (v.task p).startedMagic = true ↔ p = m
  zombie : ∀ m, v.magicProcess = some m → (v.task m).state = .zombie → m = v.curr
  sleeper : v.idleFromMagic = true → v.curr = v.idle ∧ ∃ m, v.magicProcess = some m ∧
    ((v.task m).state = .running ∨ (v.task m).state = .interruptible)

theorem Consistent.exitFromMagic (h : Consistent v) {m : TaskId} (hm : v.magicProcess = some m) :
    Consistent ((v.renew m).exitFromMagic m) := by
  have hstarted := h.started_iff m hm
  have htask := renew_task v m
  constructor
  · exact iff_of_true rfl rfl
  · intro _
    refine ⟨rfl, rfl, rfl, fun p => ?_⟩
    simp only [View.exitFromMagic, htask, Function.update_apply]
    grind
  · intro m' hm'
    cases hm'
  · intro m' hm'
    cases hm'
  · intro hflag
    cases hflag

theorem Consistent.timer (h : Consistent v) (ht : Timer v w) : Consistent w := by
  cases ht with
  | off htime => exact h
  | count htime =>
      refine ⟨?_, h.unset, h.started_iff, h.zombie, h.sleeper⟩
      have hiff := h.time_iff
      refine iff_of_false ?_ ?_
      · intro hm
        have := hiff.1 hm
        omega
      · dsimp only
        omega
  | expire htime hm =>
      have hstarted := h.started_iff _ hm
      constructor
      · exact iff_of_true rfl rfl
      · intro _
        refine ⟨rfl, rfl, rfl, fun p => ?_⟩
        simp only [View.exitFromMagic, Function.update_apply]
        grind
      · intro m' hm'
        cases hm'
      · intro m' hm'
        cases hm'
      · intro hflag
        cases hflag

theorem Consistent.renew (h : Consistent v) {m : TaskId} (hm : v.magicProcess = some m)
    (htime : (v.renew m).MAGICTIME ≠ 0) : Consistent (v.renew m) where
  time_iff := by
    rw [renew_magicProcess, hm]
    exact iff_of_false (Option.some_ne_none m) htime
  unset hnone := by
    rw [renew_magicProcess, hm] at hnone
    cases hnone
  started_iff := by
    rw [renew_magicProcess, renew_task]
    exact h.started_iff
  zombie := by
    rw [renew_magicProcess, renew_task, renew_curr]
    exact h.zombie
  sleeper := by
    rw [renew_magicProcess, renew_task, renew_curr, renew_idle, renew_idleFromMagic]
    exact h.sleeper

/-- Behind the magic segment the idle task does not stand in for anyone. -/
theorem Consistent.segment (h : Consistent v) (hseg : Segment v w) :
    Consistent w ∧ w.idleFromMagic = false := by
  cases hseg with
  | idle hm => exact ⟨h, (h.unset hm).1⟩
  | ended hm hend => exact ⟨h.exitFromMagic hm, rfl⟩
  | kept hm hzombie htime hflag =>
      rename_i m
      refine ⟨h.renew hm htime, ?_⟩
      rw [renew_idleFromMagic]
      by_contra hidle
      rw [Bool.not_eq_false] at hidle
      obtain ⟨-, m', hm', hstate⟩ := h.sleeper hidle
      rw [hm] at hm'
      cases hm'
      rcases hflag hidle with h1 | h1 <;> rcases hstate with h2 | h2 <;>
        rw [h1] at h2 <;> cases h2

/-- `start_magic` by a task while no other is registered. -/
theorem Consistent.startUnlessStarted (h : Consistent v) (hmagic : 0 < (v.task v.curr).magicTime)
    (hfree : ∀ m, v.magicProcess = some m → m = v.curr) :
    Consistent v.startUnlessStarted ∧ v.startUnlessStarted.magicProcess = some v.curr := by
  rw [View.startUnlessStarted]
  split
  · rename_i hstarted
    have hnone : v.magicProcess = none := by
      by_contra hsome
      obtain ⟨m, hm⟩ := Option.ne_none_iff_exists'.1 hsome
      have hcurr := (h.started_iff m hm v.curr).2 (hfree m hm).symm
      rw [hstarted] at hcurr
      cases hcurr
    obtain ⟨hidle, hsleep, hduration, hnot⟩ := h.unset hnone
    refine ⟨⟨?_, ?_, ?_, ?_, ?_⟩, rfl⟩
    · exact iff_of_false (Option.some_ne_none _) (toInt_ne_zero (UInt32.pos_iff_ne_zero.1 hmagic))
    · intro hcontra
      cases hcontra
    · intro m hm p
      cases hm
      simp only [startMagic, Function.update_apply]
      grind
    · intro m hm _
      exact (Option.some.inj hm).symm
    · intro hflag
      rw [show v.startMagic.idleFromMagic = v.idleFromMagic from rfl, hidle] at hflag
      cases hflag
  · rename_i hstarted
    refine ⟨h, ?_⟩
    rw [Bool.not_eq_false] at hstarted
    cases hm : v.magicProcess with
    | none =>
        rw [(h.unset hm).2.2.2 v.curr] at hstarted
        cases hstarted
    | some m => rw [(h.started_iff m hm v.curr).1 hstarted]

/-- The switch to another task, once the idle task does not stand in for anyone. -/
theorem Consistent.switch (h : Consistent v) (hcore : w.toCore = v.toCore)
    (hstarted : ∀ p, (w.task p).startedMagic = (v.task p).startedMagic)
    (hidle : v.idleFromMagic = false) {n : TaskId}
    (hzombie : ∀ m, w.magicProcess = some m → (w.task m).state = .zombie → m = n) :
    Consistent { w with curr := n } := by
  have hprocess : w.magicProcess = v.magicProcess := congrArg Core.magicProcess hcore
  have htime : w.MAGICTIME = v.MAGICTIME := congrArg Core.MAGICTIME hcore
  have hidle' : w.idleFromMagic = v.idleFromMagic := congrArg Core.idleFromMagic hcore
  have hsleep : w.magicSleepFlag = v.magicSleepFlag := congrArg Core.magicSleepFlag hcore
  have hduration : w.magicDuration = v.magicDuration := congrArg Core.magicDuration hcore
  constructor
  · rw [hprocess, htime]
    exact h.time_iff
  · dsimp only
    rw [hprocess, hidle', hsleep, hduration]
    intro hnone
    obtain ⟨h1, h2, h3, h4⟩ := h.unset hnone
    exact ⟨h1, h2, h3, fun p => (hstarted p).trans (h4 p)⟩
  · intro m hm p
    dsimp only at hm ⊢
    rw [hprocess] at hm
    rw [hstarted]
    exact h.started_iff m hm p
  · exact hzombie
  · intro hflag
    dsimp only at hflag
    rw [hidle', hidle] at hflag
    cases hflag

theorem unqueue_started (v : View) (p q : TaskId) :
    ((v.unqueue p).task q).startedMagic = (v.task q).startedMagic := by
  simp only [unqueue, modTask, Function.update_apply]
  split
  · rename_i hq
    rw [hq]
  · rfl

/-- A pass of `schedule()` by a task that has no magic time, or while no other process is registered
past the magic segment. -/
theorem Consistent.select (h : Consistent v) {Q : TaskId → Prop} {n : TaskId}
    (hfree : ∀ u, Segment v u → 0 < (u.task u.curr).magicTime → ∀ m, u.magicProcess = some m → m = u.curr)
    (hselect : Select Q v (.task n) w) : Consistent { w with curr := n } := by
  have hzombie : ∀ m, w.magicProcess = some m → (w.task m).state = .zombie → m = n :=
    fun m hm hz => absurd hz (hselect.process_ne_zombie hm)
  generalize hnext : Next.task n = next at hselect
  cases hselect with
  | resume hm htime hflag hstate =>
      have hrenew := h.renew hm htime
      refine ⟨hrenew.time_iff, ?_, hrenew.started_iff, hzombie, ?_⟩
      · intro hnone
        have hnone' : v.magicProcess = none := by
          rw [← hnone]
          exact (renew_magicProcess v _).symm
        rw [hm] at hnone'
        cases hnone'
      · intro hidle
        cases hidle
  | wait hm htime hflag hstate =>
      cases hnext
      have hrenew := h.renew hm htime
      refine ⟨hrenew.time_iff, hrenew.unset, hrenew.started_iff, hzombie, fun _ => ⟨?_, ?_⟩⟩
      · exact (renew_idle v _).symm
      · exact ⟨_, (renew_magicProcess v _).trans hm, Or.inr ((renew_state v _ _).trans hstate)⟩
  | caught hseg hcaught =>
      obtain ⟨hcons, hidle⟩ := h.segment hseg
      obtain ⟨hstart, hprocess⟩ := hcons.startUnlessStarted hcaught.magicTime_pos
        (hfree _ hseg hcaught.magicTime_pos)
      cases hcaught with
      | sleep hint hmagic hqueued =>
          cases hnext
          rename_i u
          refine ⟨hstart.time_iff, ?_, ?_, hzombie, fun _ => ⟨u.startUnlessStarted_idle.symm, ?_⟩⟩
          · intro hnone
            have hnone' : u.startUnlessStarted.magicProcess = none := hnone
            rw [hprocess] at hnone'
            cases hnone'
          · intro m hm p
            have hstarted := unqueue_started u.startUnlessStarted u.curr p
            exact (Bool.eq_iff_iff.1 hstarted).trans (hstart.started_iff m hm p)
          · refine ⟨u.curr, hprocess, Or.inr ?_⟩
            exact (unqueue_state _ _ _).trans ((u.startUnlessStarted_state u.curr).trans hint)
      | run hrun hmagic hqueued =>
          refine hstart.switch rfl (fun _ => rfl) ?_ hzombie
          rw [startUnlessStarted_idleFromMagic]
          exact hidle
      | fallThrough hrun hint hmagic hqueued hstarted =>
          exact hcons.switch (w := View.unqueue _ _) rfl (unqueue_started _ _) hidle hzombie
  | picked hseg hpassed hn =>
      obtain ⟨hcons, hidle⟩ := h.segment hseg
      exact hcons.switch hpassed.core_eq (fun p => (hpassed.task_eq p).2.2.1) hidle hzombie

theorem Consistent.setState (h : Consistent v) (hidle : v.curr ≠ v.idle) {state : TaskState} :
    Consistent (v.setState v.curr state) := by
  obtain ⟨htime, hunset, hstarted, hzombie, hsleeper⟩ := h
  constructor <;> simp only [View.setState, modTask, Function.update_apply] <;> grind

theorem Consistent.wake (h : Consistent v) (p : TaskId) : Consistent (v.wake p) := by
  obtain ⟨htime, hunset, hstarted, hzombie, hsleeper⟩ := h
  constructor <;> simp only [View.wake, modTask, Function.update_apply] <;> grind

theorem Consistent.fork (h : Consistent v) {child : TaskId}
    (hchild : ∀ m, v.magicProcess = some m → child ≠ m) : Consistent (v.fork child) := by
  obtain ⟨htime, hunset, hstarted, hzombie, hsleeper⟩ := h
  constructor <;> simp only [View.fork, Function.update_apply] <;> grind

theorem Consistent.modCurr (h : Consistent v) {f : TaskView → TaskView}
    (hf : ∀ t, (f t).state = t.state ∧ (f t).startedMagic = t.startedMagic) :
    Consistent (v.modTask v.curr f) := by
  have hfc := hf (v.task v.curr)
  obtain ⟨htime, hunset, hstarted, hzombie, hsleeper⟩ := h
  constructor <;> simp only [modTask, Function.update_apply] <;> grind

/-- The current task has magic time and another process stays registered past the magic segment. -/
def Contested (v : View) : Prop :=
  0 < (v.task v.curr).magicTime ∧ ∃ m, v.magicProcess = some m ∧ m ≠ v.curr ∧
    (v.task m).state ≠ .zombie ∧ (v.renew m).MAGICTIME ≠ 0

theorem Segment.free_of_uncontested (hseg : Segment v w) (h : ¬v.Contested)
    (hmagic : 0 < (w.task w.curr).magicTime) {m : TaskId} (hm : w.magicProcess = some m) :
    m = w.curr := by
  obtain ⟨rfl, hm', hzombie, htime⟩ := hseg.kept_of_process hm
  rw [renew_curr, renew_task] at hmagic
  rw [renew_curr]
  by_contra hne
  exact h ⟨hmagic, m, hm', hne, hzombie, htime⟩

theorem Consistent.step (h : Consistent v) (hbase : Base v) {last : Bool} {e : Event}
    (hstep : Step last v e w) (hfree : e = .schedule ∨ e = .yield → ¬v.Contested) : Consistent w := by
  cases hstep with
  | tick ht =>
      have hcons : Consistent { v with jiffies := v.jiffies + 1 } :=
        ⟨h.time_iff, h.unset, h.started_iff, h.zombie, h.sleeper⟩
      exact hcons.timer ht
  | wake hp hidle => exact h.wake _
  | signal => exact h
  | setState hidle => exact h.setState hidle
  | schedule hselect =>
      refine h.select (fun u hseg hmagic m hm => ?_) hselect
      exact hseg.free_of_uncontested (hfree (Or.inl rfl)) hmagic hm
  | yield hidle hselect =>
      refine h.select (fun u hseg hmagic m hm => ?_) hselect
      exact hseg.free_of_uncontested (hfree (Or.inr rfl)) hmagic hm
  | fork hidle hnew hlast => exact (h.fork (hbase.child_ne_process hnew)).wake _
  | forkTick hidle hnew hlast ht => exact ((h.fork (hbase.child_ne_process hnew)).timer ht).wake _
  | release hidle hp hcurr hstate hqueued =>
      exact ⟨h.time_iff, h.unset, h.started_iff, h.zombie, h.sleeper⟩
  | getWand hidle => exact h.modCurr fun t => ⟨rfl, rfl⟩
  | magicClock hidle =>
      rw [View.magicClock]
      split
      · exact h.modCurr fun t => ⟨rfl, rfl⟩
      · exact h

/-- A contested `schedule()` that completes leaves two tasks started. -/
theorem Consistent.two_started (h : Consistent v) (hbase : Base v) (hcontested : v.Contested)
    {Q : TaskId → Prop} {n : Next} (hselect : Select Q v n w) :
    ∃ m, m ≠ v.curr ∧ (w.task m).startedMagic = true ∧ (w.task v.curr).startedMagic = true := by
  obtain ⟨hmagic, m, hm, hne, hzombie, htime⟩ := hcontested
  have hawake : ¬v.idleFromMagic = true := by
    intro hflag
    rw [(h.sleeper hflag).1, hbase.idle_magicTime] at hmagic
    exact absurd hmagic (by decide)
  have hkept : ∀ u, Segment v u → u = v.renew m := by
    intro u hseg
    cases hseg with
    | idle hnone =>
        rw [hm] at hnone
        cases hnone
    | ended hm' hend =>
        rw [hm] at hm'
        cases hm'
        rcases hend with hz | ht
        · exact absurd hz hzombie
        · exact absurd ht htime
    | kept hm' _ _ _ =>
        rw [hm] at hm'
        cases hm'
        rfl
  have hcurr : ((v.renew m).task (v.renew m).curr).startedMagic = false := by
    rw [renew_curr, renew_task]
    by_contra hstarted
    rw [Bool.not_eq_false] at hstarted
    exact hne ((h.started_iff m hm v.curr).1 hstarted).symm
  have hboth : ((v.renew m).startUnlessStarted.task m).startedMagic = true ∧
      ((v.renew m).startUnlessStarted.task v.curr).startedMagic = true := by
    rw [View.startUnlessStarted, if_pos hcurr]
    have hc := renew_curr v m
    have ht := renew_task v m
    have hstarted := (h.started_iff m hm m).2 rfl
    simp [startMagic, hc, ht, hne, hstarted]
  cases hselect with
  | resume hm' htime' hflag hstate => exact absurd hflag hawake
  | wait hm' htime' hflag hstate => exact absurd hflag hawake
  | caught hseg hcaught =>
      obtain rfl := hkept _ hseg
      cases hcaught with
      | sleep hint hpos hqueued =>
          refine ⟨m, hne, ?_, ?_⟩
          · exact (unqueue_started _ _ _).trans hboth.1
          · exact (unqueue_started _ _ _).trans hboth.2
      | run hrun hpos hqueued => exact ⟨m, hne, hboth⟩
      | fallThrough hrun hint hpos hqueued hstarted =>
          rw [hcurr] at hstarted
          cases hstarted
  | picked hseg hpassed hn =>
      obtain rfl := hkept _ hseg
      have hzero := hpassed.magicTime_eq
      rw [renew_curr, renew_task] at hzero
      rw [hzero] at hmagic
      exact absurd hmagic (by decide)

/-- Where the state switch catches a task, it goes on to that task, or to the idle task if it sleeps. -/
theorem Consistent.caught_next (h : Consistent v) {n : Next} (hcaught : Caught v n w)
    (hfree : ∀ m, v.magicProcess = some m → m = v.curr) :
    n = .task v.curr ∨ ((v.task v.curr).state = .interruptible ∧ n = .task v.idle) := by
  obtain ⟨-, hprocess⟩ := h.startUnlessStarted hcaught.magicTime_pos hfree
  cases hcaught with
  | sleep hint hmagic hqueued => exact Or.inr ⟨hint, rfl⟩
  | run hrun hmagic hqueued =>
      rw [hprocess]
      exact Or.inl rfl
  | fallThrough hrun hint hmagic hqueued hstarted =>
      rw [startUnlessStarted_of_started hstarted] at hprocess
      rw [hprocess]
      exact Or.inl rfl

end View

/-! ### Reachable states -/

/-- The magic time that the timer update of `schedule()` leaves for the registered process `m`. -/
def renewedTime (s : State) (m : TaskId) : Int :=
  if s.globalMagicCallTime ≠ (s.task m).magicCallTime then toInt (s.task m).magicTime
  else s.MAGICTIME

theorem renewedTime_view (s : State) (m : TaskId) : (s.view.renew m).MAGICTIME = renewedTime s m := by
  by_cases h : s.globalMagicCallTime ≠ (s.task m).magicCallTime
  · rw [renewedTime, if_pos h]
    exact congrArg (fun v : View => v.MAGICTIME) (if_pos h)
  · rw [renewedTime, if_neg h]
    exact congrArg (fun v : View => v.MAGICTIME) (if_neg h)

/-- The current task calls `schedule()` with magic time of its own, while another process is
registered that is neither a zombie nor out of time. -/
def Contested (s : State) (e : Event) : Prop :=
  (e = .schedule ∨ e = .yield) ∧ 0 < (s.task s.curr).magicTime ∧
    ∃ m, s.magicProcess = some m ∧ m ≠ s.curr ∧ (s.task m).state ≠ .zombie ∧ renewedTime s m ≠ 0

instance decidableExistsSome {α : Type} (o : Option α) (P : α → Prop) [DecidablePred P] :
    Decidable (∃ a, o = some a ∧ P a) :=
  match o with
  | none => .isFalse fun ⟨_, h, _⟩ => Option.some_ne_none _ h.symm
  | some a => decidable_of_iff (P a)
      ⟨fun h => ⟨a, rfl, h⟩, fun ⟨_, ha, h⟩ => Option.some.inj ha ▸ h⟩

instance (s : State) (e : Event) : Decidable (Contested s e) :=
  inferInstanceAs (Decidable (_ ∧ _ ∧ _))

theorem contested_view {s : State} : s.view.Contested ↔ 0 < (s.task s.curr).magicTime ∧
    ∃ m, s.magicProcess = some m ∧ m ≠ s.curr ∧ (s.task m).state ≠ .zombie ∧ renewedTime s m ≠ 0 := by
  simp only [← renewedTime_view]
  exact Iff.rfl

/-- The magic globals and the tasks agree. A registered process that is a zombie has not yet called
`schedule()`. -/
structure MagicConsistent (s : State) : Prop where
  time_iff : s.magicProcess = none ↔ s.MAGICTIME = 0
  unset : s.magicProcess = none → s.idleFromMagic = false ∧ s.magicSleepFlag = false ∧
    s.magicDuration = 0 ∧ ∀ p, (s.task p).startedMagic = false
  started_iff : ∀ m, s.magicProcess = some m → ∀ p, (s.task p).startedMagic = true ↔ p = m
  zombie : ∀ m, s.magicProcess = some m → (s.task m).state = .zombie → m = s.curr

/-- In a pass of `schedule()` by the current task of `s`, `next = magicProcess` is never `NULL`. In the
state switch it is the caller (which hands over to the idle task if it sleeps); the magic segment
uses it when the caller is the idle task, to give the processor back to the registered process. -/
structure NextSound (s : State) : Prop where
  caught : ∀ s₁ next s₂, magicSegment (stampSleep s) = .ok (.fall s₁) →
    stateSwitch s₁ = .ok (.goto next s₂) →
    next = .task s.curr ∨ ((s₁.task s.curr).state = .interruptible ∧ next = .task s.idle)
  resumed : ∀ next s₁, magicSegment (stampSleep s) = .ok (.goto next s₁) →
    s.curr = s.idle ∧ (next = .task s.idle ∨ ∃ m, s.magicProcess = some m ∧ next = .task m)

theorem View.Consistent.magicConsistent {s : State} (h : s.view.Consistent) : MagicConsistent s :=
  ⟨h.time_iff, h.unset, h.started_iff, h.zombie⟩

theorem consistent_of_noMagic {s : State} (h : NoMagic s) : s.view.Consistent where
  time_iff := iff_of_true h.magicProcess h.MAGICTIME
  unset _ := ⟨h.idleFromMagic, h.magicSleepFlag, h.magicDuration, h.startedMagic⟩
  started_iff m hm := by
    have hm' : s.magicProcess = some m := hm
    rw [h.magicProcess] at hm'
    cases hm'
  zombie m hm := by
    have hm' : s.magicProcess = some m := hm
    rw [h.magicProcess] at hm'
    cases hm'
  sleeper hflag := by
    have hflag' : s.idleFromMagic = true := hflag
    rw [h.idleFromMagic] at hflag'
    cases hflag'

theorem consistent_of_uncontested {s : State}
    (h : (machine.restrict fun s e => ¬Contested s e).Reachable Initial s) : s.view.Consistent := by
  refine reachable_view (fun s hs => consistent_of_noMagic hs.noMagic) ?_ h
  intro s e w hsound hcons hfree hstep
  exact hcons.step hsound.base hstep fun he hcontested => hfree ⟨he, contested_view.1 hcontested⟩

theorem nextSound {s : State} (hcons : s.view.Consistent) (hfree : ¬s.view.Contested) :
    NextSound s where
  caught s₁ next s₂ hseg hswitch := by
    have hseg := magicSegment_view (fun _ => True) hseg
    rw [FlowView, stampSleep_view] at hseg
    have hswitch := stateSwitch_view hswitch
    have hcurr : s₁.curr = s.curr := hseg.curr
    have hidle : s₁.idle = s.idle := hseg.idle_eq
    rcases (hcons.segment hseg).1.caught_next hswitch
      (fun m hm => hseg.free_of_uncontested hfree hswitch.magicTime_pos hm) with h | ⟨hint, h⟩
    · rw [← hcurr]
      exact Or.inl h
    · rw [← hcurr, ← hidle]
      exact Or.inr ⟨hint, h⟩
  resumed next s₁ hseg := by
    have hseg := magicSegment_view (fun _ => True) hseg
    rw [FlowView, stampSleep_view] at hseg
    obtain ⟨-, hflag, m, hm, hnext⟩ := hseg
    exact ⟨(hcons.sleeper hflag).1, hnext.symm.imp_right fun h => ⟨m, hm, h⟩⟩

/-- The view of a completed pass of `schedule()`. -/
theorem Sound.select {s s' : State} {e : Event} (h : Sound s) (hstep : machine.Step s e s')
    (he : e = .schedule ∨ e = .yield) :
    ∃ n w, View.Select (fun p => (w.task p).queued = true) s.view (.task n) w ∧
      s'.view = { w with curr := n } := by
  have hview := h.view_step hstep
  generalize s'.view = v' at hview
  rcases he with rfl | rfl
  · cases hview with
    | schedule hselect => exact ⟨_, _, hselect, rfl⟩
  · cases hview with
    | yield hidle hselect => exact ⟨_, _, hselect, rfl⟩

/-- The magic state is consistent in every state of a run without contested calls of `schedule()`; no
completed call leaves a zombie registered, and `next` is sound. A contested call that completes
breaks the consistency. -/
theorem magicConsistent_of_uncontested {s : State}
    (h : (machine.restrict fun s e => ¬Contested s e).Reachable Initial s) :
    MagicConsistent s ∧
    (∀ e, e = .schedule ∨ e = .yield → ∀ s', machine.Step s e s' →
      ∀ m, s'.magicProcess = some m → (s'.task m).state ≠ .zombie) ∧
    (¬Contested s .schedule → NextSound s ∧ ∀ s', yieldRequeue s = .ok s' → NextSound s') ∧
    ∀ e s', Contested s e → machine.Step s e s' → ¬MagicConsistent s' := by
  have hcons := consistent_of_uncontested h
  have hsound := sound_of_reachable h.of_restrict
  refine ⟨hcons.magicConsistent, ?_, ?_, ?_⟩
  · intro e he s' hstep m hm
    obtain ⟨n, w, hselect, hview⟩ := hsound.select hstep he
    have hm' : s'.view.magicProcess = some m := hm
    rw [hview] at hm'
    have hstate : (s'.view.task m).state ≠ .zombie := by
      rw [hview]
      exact hselect.process_ne_zombie hm'
    exact hstate
  · intro hfree
    have hfree' : ¬s.view.Contested := fun hc => hfree ⟨Or.inl rfl, contested_view.1 hc⟩
    refine ⟨nextSound hcons hfree', ?_⟩
    intro s' hs'
    have hview := yieldRequeue_view hs'
    rw [← hview] at hcons hfree'
    exact nextSound hcons hfree'
  · intro e s' hcontested hstep hcons'
    obtain ⟨n, w, hselect, hview⟩ := hsound.select hstep hcontested.1
    obtain ⟨m, hne, hm, hcurr⟩ :=
      hcons.two_started hsound.base (contested_view.2 hcontested.2) hselect
    have hstarted : ∀ p, (s'.task p).startedMagic = (w.task p).startedMagic :=
      fun p => congrArg (fun v : View => (v.task p).startedMagic) hview
    rw [← hstarted] at hm hcurr
    cases hprocess : s'.magicProcess with
    | none =>
        rw [(hcons'.unset hprocess).2.2.2 m] at hm
        cases hm
    | some m' =>
        have h1 := (hcons'.started_iff m' hprocess m).1 hm
        have h2 := (hcons'.started_iff m' hprocess s.curr).1 hcurr
        exact hne (h1.trans h2.symm)

section Boot

/-- `init` has slept and been woken in its period, and runs again. -/
def resumed : State :=
  (machine.restrict fun s e => ¬Contested s e).after boot [.schedule, .getWand, .magicClock 1,
    .schedule, .setState .interruptible, .schedule, .tick, .wake 1, .schedule]

theorem magicConsistent_resumed : resumed.magicProcess = some 1 ∧ MagicConsistent resumed := by
  have hreach : (machine.restrict fun s e => ¬Contested s e).Reachable Initial resumed :=
    ⟨boot, _, boot_initial, Machine.run_after (by decide +kernel)⟩
  exact ⟨by decide +kernel, (magicConsistent_of_uncontested hreach).1⟩

/-- `init` cancels its magic in the jiffy in which it asked for it and sleeps; its child then starts a
period, and both are started. -/
def doubleMagic : State :=
  machine.after boot [.schedule, .fork 2 false, .getWand, .magicClock 1, .schedule, .magicClock 0,
    .setState .interruptible, .schedule, .getWand, .magicClock 1, .schedule]

theorem doubleMagic_inconsistent : machine.Reachable Initial doubleMagic ∧ ¬MagicConsistent doubleMagic := by
  refine ⟨⟨boot, _, boot_initial, Machine.run_after (by decide +kernel)⟩, fun h => ?_⟩
  have hprocess : doubleMagic.magicProcess = some 2 := by decide +kernel
  have hstarted : (doubleMagic.task 1).startedMagic = true := by decide +kernel
  exact absurd ((h.started_iff 2 hprocess 1).1 hstarted) (by decide)

end Boot

end MagicKernel.Sched
