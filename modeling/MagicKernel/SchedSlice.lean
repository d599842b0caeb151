import MagicKernel.SchedEffects

/-! Time slices. Ticks and forks keep every time slice positive, and so does the start of a period,
which needs a positive request. `exit_from_magic` does not: it leaves the slice of its process at 0, to
be decremented at a later tick or found at a later fork. The other way to a slice of 0 is a sum of two
slices that wraps when a child is reaped. -/

namespace MagicKernel.Sched

open FaultMachine

/-! ### Requested durations -/

/-- A multiple of `HZ` in an unsigned word leaves room for the rounding of a fork. -/
def maxSlice : Nat := 2 ^ 32 - hz

namespace View

variable {v w : View}

def Bounded (v : View) : Prop := ∀ p, (v.task p).magicTime.toNat ≤ maxSlice

theorem Bounded.mono (h : Bounded v)
    (htask : ∀ p, (w.task p).magicTime = (v.task p).magicTime ∨ (w.task p).magicTime = 0) :
    Bounded w := by
  intro p
  rcases htask p with heq | hzero
  · rw [heq]
    exact h p
  · rw [hzero]
    exact Nat.zero_le _

theorem exitFromMagic_magicTime (v : View) (m p : TaskId) :
    ((v.exitFromMagic m).task p).magicTime = (v.task p).magicTime ∨
      ((v.exitFromMagic m).task p).magicTime = 0 := by
  by_cases hp : p = m
  · subst hp
    right
    simp only [exitFromMagic, Function.update_self]
  · left
    simp only [exitFromMagic, Function.update_of_ne hp]

theorem Bounded.timer (h : Bounded v) (ht : Timer v w) : Bounded w := by
  cases ht with
  | off hzero => exact h
  | count hpos => exact h
  | expire hone hm => exact h.mono (exitFromMagic_magicTime v _)

theorem Bounded.segment (h : Bounded v) (hseg : Segment v w) : Bounded w := by
  have hrenew : ∀ m, Bounded (v.renew m) := by
    intro m p
    rw [renew_task]
    exact h p
  cases hseg with
  | idle hm => exact h
  | ended hm hend => exact (hrenew _).mono (exitFromMagic_magicTime _ _)
  | kept hm hzombie htime hflag => exact hrenew _

theorem Bounded.select (h : Bounded v) {Q : TaskId → Prop} {n : Next} (hselect : Select Q v n w) :
    Bounded w := by
  have hrenew : ∀ m, Bounded (v.renew m) := by
    intro m p
    rw [renew_task]
    exact h p
  cases hselect with
  | resume hm htime hflag hstate => exact hrenew _
  | wait hm htime hflag hstate => exact hrenew _
  | @caught u _ _ hseg hcaught =>
      have hu := h.segment hseg
      cases hcaught with
      | sleep hint hmagic hqueued =>
          refine hu.mono fun p => Or.inl ?_
          exact (unqueue_magicTime _ _ p).1.trans (startUnlessStarted_magicTime u p).1
      | run hrun hmagic hqueued =>
          exact hu.mono fun p => Or.inl (startUnlessStarted_magicTime u p).1
      | fallThrough hrun hint hmagic hqueued hstarted =>
          exact hu.mono fun p => Or.inl (unqueue_magicTime _ _ p).1
  | picked hseg hpassed hn =>
      exact (h.segment hseg).mono fun p => Or.inl (hpassed.task_eq p).2.1

theorem Bounded.modTask (h : Bounded v) {p : TaskId} {f : TaskView → TaskView}
    (hf : (f (v.task p)).magicTime.toNat ≤ maxSlice) : Bounded (v.modTask p f) := by
  intro q
  by_cases hq : q = p
  · subst hq
    simp only [View.modTask, Function.update_self]
    exact hf
  · simp only [View.modTask, Function.update_of_ne hq]
    exact h q

theorem Bounded.fork (h : Bounded v) (child : TaskId) : Bounded (v.fork child) := by
  intro q
  by_cases hq : q = child
  · subst hq
    simp only [View.fork, Function.update_self]
    exact Nat.zero_le _
  · simp only [View.fork, Function.update_of_ne hq]
    exact h q

theorem toNat_mul_hz_le (seconds : UInt32) : (seconds * UInt32.ofNat hz).toNat ≤ maxSlice := by
  rw [UInt32.toNat_mul]
  show seconds.toNat * 512 % 2 ^ 32 ≤ 2 ^ 32 - 512
  omega

theorem Bounded.step (h : Bounded v) {last : Bool} {e : Event} (hstep : Step last v e w) :
    Bounded w := by
  cases hstep with
  | tick htimer =>
      have h' : Bounded { v with jiffies := v.jiffies + 1 } := h
      exact h'.timer htimer
  | wake hp hidle => exact h.modTask (h _)
  | signal => exact h
  | setState hidle => exact h.modTask (h _)
  | schedule hselect =>
      have hw := h.select hselect
      exact hw
  | yield hidle hselect =>
      have hw := h.select hselect
      exact hw
  | fork hidle hchild hlast => exact (h.fork _).modTask (h.fork _ _)
  | forkTick hidle hchild hlast htimer =>
      have hw := (h.fork _).timer htimer
      exact hw.modTask (hw _)
  | release hidle hp hcurr hstate hqueued => exact h
  | getWand hidle => exact h.modTask (h _)
  | @magicClock seconds hidle =>
      rw [View.magicClock]
      split
      · exact h.modTask (toNat_mul_hz_le seconds)
      · exact h

end View

theorem bounded_of_reachable {s : State} (h : machine.Reachable Initial s) : s.view.Bounded := by
  refine h.invariant (I := fun s => s.view.Bounded) (fun s hs p => ?_) ?_
  · have hzero : (s.view.task p).magicTime = 0 := hs.noMagic.magicTime p
    rw [hzero]
    exact Nat.zero_le _
  · intro s e s' hreach hs hstep
    exact hs.step ((sound_of_reachable hreach).view_step hstep)

/-! ### Slices -/

/-- A positive time slice that a fork can share. -/
def SliceOk (t : Task) : Prop := t.timeSlice ≠ 0 ∧ t.timeSlice.toNat ≤ maxSlice

def Sliced (s : State) : Prop := ∀ p, s.allocated p = true → SliceOk (s.task p)

/-- `scheduler_tick` in `s` finds no slice of 0 to decrement. -/
def NoWrap (s : State) : Prop :=
  ∀ s₁, magicTimer s = .ok s₁ → s₁.curr ≠ s₁.idle → (s₁.task s₁.curr).timeSlice ≠ 0

section

variable {s s' : State}

theorem Sliced.moves (h : Sliced s) (hallocated : s'.allocated = s.allocated)
    (htask : ∀ p, s.allocated p = true → SliceOk (s.task p) → SliceOk (s'.task p)) : Sliced s' := by
  intro p hp
  rw [hallocated] at hp
  exact htask p hp (h p hp)

theorem SliceOk.of_eq {t t' : Task} (h : SliceOk t) (heq : t'.timeSlice = t.timeSlice) :
    SliceOk t' := by
  rw [SliceOk, heq]
  exact h

theorem SliceOk.charged {t t' : Task} (h : SliceOk t) (hcharged : ChargedSlice t t') : SliceOk t' := by
  refine ⟨hcharged.pos h.1, (hcharged.le h.1).trans ?_⟩
  exact max_le h.2 (by decide)

theorem sliceOk_of_le {t : Task} (hpos : t.timeSlice ≠ 0) (hle : t.timeSlice.toNat ≤ maxTimeslice) :
    SliceOk t :=
  ⟨hpos, hle.trans (by decide)⟩

theorem Sliced.modTask (h : Sliced s) {p : TaskId} {f : Task → Task}
    (hf : ∀ t, (f t).timeSlice = t.timeSlice) : Sliced (s.modTask p f) := by
  refine h.moves rfl fun q _ hq => hq.of_eq ?_
  by_cases hqp : q = p
  · subst hqp
    rw [State.modTask_task, Function.update_self]
    exact hf _
  · rw [State.modTask_task, Function.update_of_ne hqp]

/-- A timer that does not end a period keeps every slice. -/
theorem Sliced.magicTimer (h : Sliced s) (hend : s.magicProcess ≠ none → s.MAGICTIME ≠ 1)
    (hstep : magicTimer s = .ok s') : Sliced s' := by
  have hallocated : s'.allocated = s.allocated := (magicTimer_view hstep).allocated_eq
  rcases (magicTimer_tasks hstep).2 with ⟨-, hkept⟩ | ⟨htime, m, hm, -⟩
  · exact h.moves hallocated fun p _ hp => hp.of_eq (hkept p).timeSlice
  · refine absurd htime (hend ?_)
    rw [hm]
    exact Option.some_ne_none m

theorem Sliced.noWrap (h : Sliced s) (hcurr : s.allocated s.curr = true)
    (hend : s.magicProcess ≠ none → s.MAGICTIME ≠ 1) : NoWrap s := by
  intro s₁ hstep _
  have hs₁ := h.magicTimer hend hstep
  have hcurr₁ : s₁.curr = s.curr := (magicTimer_tasks hstep).1
  have hallocated : s₁.allocated = s.allocated := (magicTimer_view hstep).allocated_eq
  refine (hs₁ s₁.curr ?_).1
  rw [hallocated, hcurr₁]
  exact hcurr

theorem Sliced.schedulerTick (h : Sliced s) (hend : s.magicProcess ≠ none → s.MAGICTIME ≠ 1)
    (hstep : schedulerTick s = .ok s') : Sliced s' := by
  obtain ⟨s₁, h₁, hcharge⟩ := schedulerTick_cases hstep
  have hs₁ := h.magicTimer hend h₁
  rcases hcharge with ⟨-, rfl⟩ | ⟨-, hcharge⟩
  · exact hs₁
  · obtain ⟨t, hframe, -, -, hslice, -⟩ := chargeTick_spec hcharge
    refine hs₁.moves hframe.allocated fun p _ hp => ?_
    by_cases hpc : p = s₁.curr
    · subst hpc
      rw [hframe.task_self]
      exact hp.charged hslice
    · rw [hframe.task_of_ne hpc]
      exact hp

theorem Woken.sliced {p : TaskId} (h : Woken p s s') (hs : Sliced s) : Sliced s' := by
  refine hs.moves (congrArg Core.allocated h.core) fun q _ hq => ?_
  by_cases hqp : q = p
  · subst hqp
    exact hq.of_eq h.timeSlice
  · exact hq.of_eq (h.others q hqp).timeSlice

theorem Sliced.selectNext (h : Sliced s) (hbound : s.view.Bounded)
    (hend : ∀ m, s.magicProcess = some m → ¬((s.task m).state = .zombie ∨ renewedTime s m = 0))
    {n : Next} (hstep : selectNext s = .ok (n, s')) : Sliced s' := by
  have hallocated : s'.allocated = s.allocated := (selectNext_view hstep).allocated_eq
  obtain ⟨s₁, hseg, hcurr, hswitch⟩ := selectNext_tasks hstep
  have hkept₁ : ∀ p, SliceOk (s.task p) → SliceOk (s₁.task p) := by
    rcases hseg with ⟨-, hkept⟩ | ⟨m, hm, hzero, -⟩
    · exact fun p hp => hp.of_eq (hkept p).timeSlice
    · exact absurd hzero (hend m hm)
  refine h.moves hallocated fun p _ hp => ?_
  rcases hswitch with ⟨-, hkept⟩ | ⟨hview, ⟨-, hkept⟩ | ⟨hmagic, -, hkept⟩⟩
  · exact (hkept₁ p hp).of_eq (hkept p).timeSlice
  · exact (hkept₁ p hp).of_eq (hkept p).timeSlice
  · by_cases hpc : p = s₁.curr
    · subst hpc
      have htime := (hkept s₁.curr).timeSlice
      rw [Function.update_self] at htime
      refine SliceOk.of_eq (t := (s₁.task s₁.curr).startMagic) ⟨?_, ?_⟩ htime
      · exact (UInt32.ne_of_lt hmagic).symm
      · exact hbound.segment hview s₁.curr
    · have htime := (hkept p).timeSlice
      rw [Function.update_of_ne hpc] at htime
      exact (hkept₁ p hp).of_eq htime

theorem Sliced.schedule (h : Sliced s) (hbound : s.view.Bounded)
    (hend : ∀ m, s.magicProcess = some m → ¬((s.task m).state = .zombie ∨ renewedTime s m = 0))
    (hstep : schedule s = .ok s') : Sliced s' := by
  obtain ⟨n, s₁, h₁, htask, hcore, -⟩ := schedule_cases hstep
  refine (h.selectNext hbound hend h₁).moves (congrArg Core.allocated hcore) fun p _ hp => ?_
  rw [htask]
  by_cases hpc : p = s₁.curr
  · subst hpc
    rw [Function.update_self]
    exact hp
  · rw [Function.update_of_ne hpc]
    exact hp

/-! ### Forks -/

theorem toNat_shiftRight_one (x : UInt32) : (x >>> 1).toNat = x.toNat / 2 := by
  rw [UInt32.toNat_shiftRight]
  exact Nat.shiftRight_one _

/-- The halves of a slice that the parent and the child of a fork get. -/
theorem halves_le {x : UInt32} (hpos : x ≠ 0) (hle : x.toNat ≤ maxSlice) :
    (x >>> 1).toNat ≤ maxSlice ∧ (x + 1) >>> 1 ≠ 0 ∧ ((x + 1) >>> 1).toNat ≤ maxSlice := by
  have hx : x.toNat ≠ 0 := fun h => hpos (UInt32.toNat_inj.1 h)
  have hmax : maxSlice = 2 ^ 32 - 512 := rfl
  have hsucc : (x + 1).toNat = x.toNat + 1 := by
    rw [UInt32.toNat_add]
    show (x.toNat + 1) % 2 ^ 32 = x.toNat + 1
    omega
  have hchild : ((x + 1) >>> 1).toNat = (x.toNat + 1) / 2 := by rw [toNat_shiftRight_one, hsucc]
  refine ⟨?_, ?_, ?_⟩
  · rw [toNat_shiftRight_one]
    omega
  · intro hzero
    rw [hzero] at hchild
    have hzero' : (0 : UInt32).toNat = 0 := rfl
    omega
  · omega

/-- The slices once a fork has shared that of the parent, which may be left with none. -/
theorem Sliced.share (h : Sliced s) (hsound : Sound s) {child : TaskId}
    (hchild : s.allocated child = false) :
    ((shareTimeSlice child (copyProcess child s)).task s.curr).timeSlice.toNat ≤ maxSlice ∧
    ∀ p, (copyProcess child s).allocated p = true → p ≠ s.curr →
      SliceOk ((shareTimeSlice child (copyProcess child s)).task p) := by
  have hne := hsound.child_ne_curr hchild
  have hcurr : (copyProcess child s).task s.curr = s.task s.curr :=
    Function.update_of_ne hne.symm _ _
  obtain ⟨hpos, hle⟩ := h s.curr hsound.base.curr_allocated
  obtain ⟨hparent, hchildPos, hchildLe⟩ := halves_le hpos hle
  refine ⟨?_, fun p hp hpc => ?_⟩
  · rw [forkParent_timeSlice hne]
    exact hparent
  · by_cases hpchild : p = child
    · subst hpchild
      have hshare := congrArg Task.timeSlice (shareTimeSlice_child (s := copyProcess p s) hne)
      have hshare' : ((shareTimeSlice p (copyProcess p s)).task p).timeSlice =
          (((copyProcess p s).task s.curr).timeSlice + 1) >>> 1 := hshare
      rw [hcurr] at hshare'
      rw [SliceOk, hshare']
      exact ⟨hchildPos, hchildLe⟩
    · have hother : (shareTimeSlice child (copyProcess child s)).task p = s.task p := by
        rw [shareTimeSlice_of_ne (s := copyProcess child s) hpchild hpc]
        exact Function.update_of_ne hpchild _ _
      have hallocated : (copyProcess child s).allocated p = s.allocated p :=
        Function.update_of_ne hpchild _ _
      rw [hallocated] at hp
      rw [hother]
      exact h p hp

/-- The state in which `do_fork` calls `scheduler_tick`, after a parent gave away its last jiffy. -/
def forkTickState (child : TaskId) (s : State) : State :=
  (shareTimeSlice child (copyProcess child s)).modTask s.curr fun t => { t with timeSlice := 1 }

theorem Sliced.forkTickState (h : Sliced s) (hsound : Sound s) {child : TaskId}
    (hchild : s.allocated child = false) : Sliced (forkTickState child s) := by
  obtain ⟨-, hothers⟩ := h.share hsound hchild
  intro p hp
  by_cases hpc : p = s.curr
  · subst hpc
    refine sliceOk_of_le ?_ ?_
    all_goals rw [Sched.forkTickState, State.modTask_task, Function.update_self]
    · exact (by decide : (1 : UInt32) ≠ 0)
    · exact (by decide : (1 : UInt32).toNat ≤ maxTimeslice)
  · rw [Sched.forkTickState, State.modTask_task, Function.update_of_ne hpc]
    exact hothers p hp hpc

theorem Sliced.tickIfSpent (h : Sliced s) (hsound : Sound s) {child : TaskId}
    (hchild : s.allocated child = false)
    (hend : s.magicProcess ≠ none → ¬(s.MAGICTIME = 1 ∧ (s.task s.curr).timeSlice = 1))
    (hstep : tickIfSpent (shareTimeSlice child (copyProcess child s)) = .ok s') : Sliced s' := by
  obtain ⟨hle, hothers⟩ := h.share hsound hchild
  rcases tickIfSpent_cases hstep with ⟨hpos, rfl⟩ | ⟨hzero, hstep⟩
  · intro p hp
    by_cases hpc : p = s.curr
    · subst hpc
      exact ⟨hpos, hle⟩
    · exact hothers p hp hpc
  · refine (h.forkTickState hsound hchild).schedulerTick ?_ hstep
    intro hm htime
    have hts := (h s.curr hsound.base.curr_allocated).1
    have hslice : (s.task s.curr).timeSlice >>> 1 = 0 :=
      (forkParent_timeSlice (hsound.child_ne_curr hchild)).symm.trans hzero
    exact hend hm ⟨htime, (shiftRight_one_eq_zero hts).1 hslice⟩

/-- What is reaped with a first slice whose sum with that of the parent wraps to 0. -/
def ReapOverflow (s : State) (e : Event) : Prop :=
  ∃ p, e = .release p ∧ (s.task p).firstTimeSlice = true ∧
    (s.task s.curr).timeSlice + (s.task p).timeSlice = 0

/-- The event ends no period, and no sum of slices wraps. -/
def KeepsSlice (s : State) (e : Event) : Prop :=
  (¬∃ m, s.magicProcess = some m ∧ EndsPeriod s m e) ∧ ¬ReapOverflow s e

theorem Sliced.releaseTask (h : Sliced s) {p : TaskId} (hsum : ¬ReapOverflow s (.release p))
    (hcurr : s.allocated s.curr = true) (hstep : releaseTask p s = .ok s') : Sliced s' := by
  obtain ⟨-, ts, avg, hts, rfl⟩ := releaseTask_spec hstep
  have hslice : SliceOk { s.task s.curr with timeSlice := ts, sleepAvg := avg } := by
    rcases hts with rfl | ⟨hfirst, rfl | ⟨rfl, hle⟩⟩
    · exact h s.curr hcurr
    · exact sliceOk_of_le (t := { s.task s.curr with timeSlice := UInt32.ofNat maxTimeslice, sleepAvg := avg })
        (show UInt32.ofNat maxTimeslice ≠ 0 by decide)
        (show (UInt32.ofNat maxTimeslice).toNat ≤ maxTimeslice by decide)
    · exact sliceOk_of_le (fun hzero => hsum ⟨p, rfl, hfirst, hzero⟩) (UInt32.le_iff_toNat_le.1 hle)
  intro q hq
  by_cases hqc : q = s.curr
  · subst hqc
    show SliceOk (Function.update s.task s.curr _ s.curr)
    rw [Function.update_self]
    exact hslice
  · show SliceOk (Function.update s.task s.curr _ q)
    rw [Function.update_of_ne hqc]
    refine h q ?_
    have hq' : Function.update s.allocated p false q = true := hq
    by_cases hqp : q = p
    · subst hqp
      rw [Function.update_self] at hq'
      cases hq'
    · rw [Function.update_of_ne hqp] at hq'
      exact hq'

theorem Sliced.step (h : Sliced s) (hsound : Sound s) (hbound : s.view.Bounded) {e : Event}
    (hkeep : KeepsSlice s e) (hstep : machine.Step s e s') : Sliced s' := by
  obtain ⟨hend, hsum⟩ := hkeep
  obtain ⟨henabled, hstep⟩ := hstep
  cases e with
  | tick =>
      have h₀ : Sliced { s with jiffies := s.jiffies + 1 } := h
      refine h₀.schedulerTick (fun hm htime => ?_) hstep
      obtain ⟨m, hm⟩ := Option.ne_none_iff_exists'.1 hm
      exact hend ⟨m, hm, htime⟩
  | wake p => exact (woken_tryToWakeUp hstep).sliced h
  | signal p pending =>
      cases hstep
      exact h.modTask fun _ => rfl
  | setState state =>
      cases hstep
      exact h.modTask fun _ => rfl
  | schedule => exact h.schedule hbound (fun m hm hzero => hend ⟨m, hm, hzero⟩) hstep
  | yield =>
      obtain ⟨s₁, h₁, hstep⟩ := bind_eq_ok.1 hstep
      have hview := yieldRequeue_view h₁
      obtain ⟨-, k, hframe, -⟩ := yieldRequeue_spec h₁
      have hs₁ : Sliced s₁ := by
        refine h.moves hframe.allocated fun p _ hp => hp.of_eq ?_
        by_cases hpc : p = s.curr
        · subst hpc
          rw [hframe.task_self]
        · rw [hframe.task_of_ne hpc]
      refine hs₁.schedule (by rw [hview]; exact hbound) ?_ hstep
      intro m hm hzero
      have hstate : (s₁.task m).state = (s.task m).state :=
        congrArg (fun v : View => (v.task m).state) hview
      rw [yieldRequeue_renewedTime h₁, hstate] at hzero
      exact hend ⟨m, hframe.magicProcess ▸ hm, hzero⟩
  | fork child vfork =>
      obtain ⟨-, -, s₁, s₂, h₁, -, -, hwoken, h'⟩ := hsound.doFork_cases henabled.2 hstep
      have hs₁ : Sliced s₁ := by
        refine h.tickIfSpent hsound henabled.2 (fun hm hlast => ?_) h₁
        obtain ⟨m, hm⟩ := Option.ne_none_iff_exists'.1 hm
        exact hend ⟨m, hm, hlast⟩
      have hs₂ := hwoken.sliced hs₁
      rcases h' with rfl | rfl
      · exact hs₂
      · exact hs₂.modTask fun _ => rfl
  | release p => exact h.releaseTask hsum hsound.base.curr_allocated hstep
  | getWand =>
      cases hstep
      exact h.modTask fun _ => rfl
  | magicClock seconds =>
      cases hstep
      unfold sysMagicClock
      split
      · exact h.modTask fun _ => rfl
      · exact h

/-! ### The check in `do_fork` -/

/-- A computation that does not meet the `BUG()` of `do_fork`. -/
def Timely {α : Type} (x : Except Fault α) : Prop := x ≠ .error .noTimeSlice

theorem timely_ok {α : Type} (a : α) : Timely (.ok a) := by
  intro h
  cases h

theorem Timely.bind {α β : Type} {x : Except Fault α} {k : α → Except Fault β} (hx : Timely x)
    (hk : ∀ a, Timely (k a)) : Timely (x >>= k) := by
  cases x with
  | ok a => exact hk a
  | error f => exact hx ∘ fun h => congrArg Except.error (Except.error.inj h)

theorem dequeueTask_timely (p : TaskId) (array : Option ArrayId) (s : State) :
    Timely (dequeueTask p array s) := by
  intro h
  rcases dequeueTask_eq_error h with ⟨hf, -⟩ | ⟨hf, -⟩ | ⟨hf, -⟩ <;> cases hf

theorem enqueueTask_timely (p : TaskId) (array : Option ArrayId) (s : State) :
    Timely (enqueueTask p array s) := by
  intro h
  rcases enqueueTask_eq_error h with ⟨hf, -⟩ | ⟨hf, -⟩ <;> cases hf

theorem activateTask_timely (p : TaskId) (s : State) : Timely (activateTask p s) :=
  (enqueueTask_timely p _ _).bind fun _ => timely_ok _

theorem exitFromMagic_timely (s : State) : Timely (exitFromMagic s) := by
  unfold exitFromMagic
  split
  · intro h
    cases h
  · refine Timely.bind ?_ fun _ => timely_ok _
    unfold lowerPrio
    split
    · exact (dequeueTask_timely _ _ _).bind fun _ => enqueueTask_timely _ _ _
    · exact timely_ok _

theorem expireSlice_timely (p : TaskId) (s : State) : Timely (expireSlice p s) := by
  unfold expireSlice
  refine (dequeueTask_timely _ _ _).bind fun s₁ => ?_
  dsimp only
  split
  · exact enqueueTask_timely _ _ _
  · exact enqueueTask_timely _ _ _

theorem chargeTick_timely (p : TaskId) (s : State) : Timely (chargeTick p s) := by
  unfold chargeTick
  split
  · exact timely_ok _
  · split
    · split
      · dsimp only
        split
        · exact (dequeueTask_timely _ _ _).bind fun _ => enqueueTask_timely _ _ _
        · exact timely_ok _
      · exact timely_ok _
    · dsimp only
      split
      · exact expireSlice_timely _ _
      · exact timely_ok _

theorem schedulerTick_timely (s : State) : Timely (schedulerTick s) := by
  unfold schedulerTick
  refine Timely.bind ?_ fun s₁ => ?_
  · unfold magicTimer
    split
    · dsimp only
      split
      · exact (exitFromMagic_timely _).bind fun _ => timely_ok _
      · exact timely_ok _
    · exact timely_ok _
  · split
    · exact timely_ok _
    · exact chargeTick_timely _ _

theorem doFork_timely {child : TaskId} {vfork : Bool}
    (hts : ((copyProcess child s).task s.curr).timeSlice ≠ 0) : Timely (doFork child vfork s) := by
  unfold doFork
  dsimp only
  split
  · rename_i hzero
    exact absurd hzero hts
  · refine Timely.bind ?_ fun s₁ => (activateTask_timely _ _).bind fun _ => timely_ok _
    unfold tickIfSpent
    split
    · exact schedulerTick_timely _
    · exact timely_ok _

end

theorem sliced_of_reachable {s : State} (h : (machine.restrict KeepsSlice).Reachable Initial s) :
    Sliced s := by
  refine h.invariant (fun s hs p hp => ?_) ?_
  · obtain ⟨hpos, hle⟩ := hs.timeSlice p hp
    exact ⟨hpos, hle.trans (by decide)⟩
  · intro s e s' hreach hs hstep
    obtain ⟨hkeep, hstep⟩ := Machine.restrict_step.1 hstep
    exact hs.step (sound_of_reachable hreach.of_restrict) (bounded_of_reachable hreach.of_restrict)
      hkeep hstep

/-- While no period ends and no sum of slices wraps, every time slice is positive, no tick finds a slice
of 0 to decrement, be it a timer interrupt or the tick of a fork, and no fork meets the `BUG()`. -/
theorem timeSlice_pos_of_keepsSlice {s : State}
    (h : (machine.restrict KeepsSlice).Reachable Initial s) :
    (∀ p, s.allocated p = true → 1 ≤ (s.task p).timeSlice) ∧
    (KeepsSlice s .tick → NoWrap { s with jiffies := s.jiffies + 1 }) ∧
    (∀ child vfork, machine.enabled s (.fork child vfork) →
      step s (.fork child vfork) ≠ .error .noTimeSlice ∧
      (KeepsSlice s (.fork child vfork) → (s.task s.curr).timeSlice = 1 →
        NoWrap (forkTickState child s))) := by
  have hsound := sound_of_reachable h.of_restrict
  have hsliced := sliced_of_reachable h
  have hcurr : s.allocated s.curr = true := hsound.base.curr_allocated
  refine ⟨?_, ?_, ?_⟩
  · intro p hp
    have hpos := (hsliced p hp).1
    rw [UInt32.le_iff_toNat_le]
    exact Nat.one_le_iff_ne_zero.2 fun hzero => hpos (UInt32.toNat_inj.1 hzero)
  · intro hkeep
    have h₀ : Sliced { s with jiffies := s.jiffies + 1 } := hsliced
    refine h₀.noWrap hcurr fun hm htime => ?_
    obtain ⟨m, hm⟩ := Option.ne_none_iff_exists'.1 hm
    exact hkeep.1 ⟨m, hm, htime⟩
  · intro child vfork henabled
    have hchild : s.allocated child = false := henabled.2
    have hne := hsound.child_ne_curr hchild
    refine ⟨?_, ?_⟩
    · refine doFork_timely ?_
      have hparent : (copyProcess child s).task s.curr = s.task s.curr :=
        Function.update_of_ne hne.symm _ _
      rw [hparent]
      exact (hsliced s.curr hcurr).1
    · intro hkeep hlast
      refine (hsliced.forkTickState hsound hchild).noWrap ?_ fun hm htime => ?_
      · show Function.update s.allocated child true s.curr = true
        rw [Function.update_of_ne hne.symm]
        exact hcurr
      · obtain ⟨m, hm⟩ := Option.ne_none_iff_exists'.1 hm
        exact hkeep.1 ⟨m, hm, htime, hlast⟩

section Boot

instance (s : State) (e : Event) : Decidable (ReapOverflow s e) :=
  match e with
  | .release p => decidable_of_iff ((s.task p).firstTimeSlice = true ∧
      (s.task s.curr).timeSlice + (s.task p).timeSlice = 0)
      ⟨fun h => ⟨p, rfl, h⟩, fun ⟨_, he, h⟩ => by cases he; exact h⟩
  | .tick | .wake _ | .signal _ _ | .setState _ | .schedule | .yield | .fork _ _ | .getWand
  | .magicClock _ => .isFalse fun ⟨_, he, _⟩ => by cases he

instance (s : State) (e : Event) : Decidable (KeepsSlice s e) :=
  inferInstanceAs (Decidable (_ ∧ _))

/-- `init` forks, then its period goes on through a sleep. -/
def ongoing : State :=
  (machine.restrict KeepsSlice).after boot [.schedule, .fork 2 false, .getWand, .magicClock 1,
    .schedule, .tick, .setState .interruptible, .schedule, .tick, .wake 1, .schedule]

theorem timeSlice_pos_ongoing :
    ongoing.magicProcess = some 1 ∧ 1 ≤ (ongoing.task 1).timeSlice ∧ 1 ≤ (ongoing.task 2).timeSlice ∧
      step ongoing (.fork 3 false) ≠ .error .noTimeSlice := by
  have hreach : (machine.restrict KeepsSlice).Reachable Initial ongoing :=
    ⟨boot, _, boot_initial, Machine.run_after (by decide +kernel)⟩
  obtain ⟨hpos, -, hfork⟩ := timeSlice_pos_of_keepsSlice hreach
  exact ⟨by decide +kernel, hpos 1 (by decide +kernel), hpos 2 (by decide +kernel),
    (hfork 3 false (by decide +kernel)).1⟩

/-- `init` has cancelled its period, and `schedule()` has ended it. -/
def cancelled : State :=
  machine.after boot [.schedule, .getWand, .magicClock 1, .schedule, .tick, .magicClock 0, .schedule]

theorem cancelled_timeSlice : machine.Reachable Initial cancelled ∧ cancelled.curr = 1 ∧
    (cancelled.task 1).timeSlice = 0 ∧
    ((machine.after cancelled [.tick]).task 1).timeSlice = 0xFFFFFFFF ∧
    machine.enabled cancelled (.fork 2 false) ∧
    step cancelled (.fork 2 false) = .error .noTimeSlice :=
  ⟨⟨boot, _, boot_initial, Machine.run_after (by decide +kernel)⟩, by decide +kernel,
    by decide +kernel, by decide +kernel, by decide +kernel, eq_error_of_faultOf (by decide +kernel)⟩

end Boot

end MagicKernel.Sched
