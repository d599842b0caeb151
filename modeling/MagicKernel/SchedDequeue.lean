import MagicKernel.SchedOwned

/-! When `dequeue_task` is called on a linked task. Two mistakes lead to a call with a `NULL` array: a
task with magic time that calls `schedule()` in a state other than running and interruptible is
deactivated and falls through into the arm that starts or continues magic (`FallThrough`), and a
cancellation that goes unnoticed leaves a process registered that is off the run queue
(`LostCancel`). In a run without either, every runnable task and the current one are on the run
queue, and no call of `dequeue_task` faults. -/

namespace MagicKernel.Sched

open FaultMachine

namespace View

variable {v w : View}

/-- The run queue holds the runnable tasks, the current one until it gives up the processor. -/
structure Tidy (v : View) : Prop where
  running_queued : ∀ p, v.allocated p = true → p ≠ v.idle → (v.task p).state = .running →
    (v.task p).queued = true
  queued_running : ∀ p, p ≠ v.curr → (v.task p).queued = true → (v.task p).state = .running
  curr_queued : v.curr ≠ v.idle → (v.task v.curr).queued = true

/-- The current task is about to be deactivated and to fall through with magic time. -/
def FallThrough (v : View) : Prop :=
  0 < (v.task v.curr).magicTime ∧ (v.task v.curr).state ≠ .running ∧
    (v.task v.curr).state ≠ .interruptible ∧
    ((v.task v.curr).state = .zombie → v.magicProcess ≠ some v.curr)

theorem Segment.allocated_eq (hseg : Segment v w) : w.allocated = v.allocated := by
  cases hseg with
  | idle hm => rfl
  | ended hm hend => exact renew_allocated v _
  | kept hm hzombie htime hflag => exact renew_allocated v _

/-- A task that falls through behind the magic segment did so before it. -/
theorem Segment.fallThrough (hseg : Segment v w) (h : FallThroughFault w) : FallThrough v := by
  obtain ⟨hmagic, hrun, hint⟩ := h
  have hcurr := hseg.curr
  have hstate := (hseg.state_eq v.curr).1
  rw [hcurr] at hmagic hrun hint
  rw [hstate] at hrun hint
  cases hseg with
  | idle hm =>
      refine ⟨hmagic, hrun, hint, fun _ hm' => ?_⟩
      rw [hm] at hm'
      cases hm'
  | ended hm hend =>
      rename_i m
      have hne : v.curr ≠ m := by
        rintro heq
        simp [View.exitFromMagic, heq] at hmagic
      have htask : ((v.renew m).exitFromMagic m).task v.curr = v.task v.curr := by
        simp only [View.exitFromMagic, Function.update_of_ne hne, renew_task]
      rw [htask] at hmagic
      refine ⟨hmagic, hrun, hint, fun _ hm' => ?_⟩
      rw [hm] at hm'
      exact hne (Option.some.inj hm').symm
  | kept hm hzombie htime hflag =>
      rw [renew_task] at hmagic
      refine ⟨hmagic, hrun, hint, fun hz hm' => ?_⟩
      rw [hm] at hm'
      cases hm'
      exact hzombie hz

theorem Tidy.segment (h : Tidy v) (hseg : Segment v w) : Tidy w := by
  have hstate := hseg.state_eq
  have hcurr := hseg.curr
  have hidle := hseg.idle_eq
  have hallocated := hseg.allocated_eq
  refine ⟨?_, ?_, ?_⟩
  · intro p hp hne hrun
    rw [(hstate p).2]
    rw [hallocated] at hp
    rw [hidle] at hne
    rw [(hstate p).1] at hrun
    exact h.running_queued p hp hne hrun
  · intro p hne hqueued
    rw [(hstate p).1]
    rw [hcurr] at hne
    rw [(hstate p).2] at hqueued
    exact h.queued_running p hne hqueued
  · intro hne
    rw [hcurr, hidle] at hne
    rw [hcurr, (hstate _).2]
    exact h.curr_queued hne

/-- A change of tasks that leaves states and links alone. -/
theorem Tidy.congr (h : Tidy v) (hallocated : w.allocated = v.allocated) (hcurr : w.curr = v.curr)
    (hidle : w.idle = v.idle)
    (htask : ∀ p, (w.task p).state = (v.task p).state ∧ (w.task p).queued = (v.task p).queued) :
    Tidy w := by
  obtain ⟨hrun, hqueue, hc⟩ := h
  constructor <;> simp only [hallocated, hcurr, hidle, htask] <;> assumption

theorem startUnlessStarted_allocated (v : View) : v.startUnlessStarted.allocated = v.allocated := by
  rw [startUnlessStarted]
  split <;> rfl

theorem Tidy.startUnlessStarted (h : Tidy v) : Tidy v.startUnlessStarted :=
  h.congr v.startUnlessStarted_allocated v.startUnlessStarted_curr v.startUnlessStarted_idle
    fun p => ⟨v.startUnlessStarted_state p, v.startUnlessStarted_queued p⟩

/-- The current task leaves the run queue and gives up the processor. -/
theorem Tidy.unqueue_curr (h : Tidy v) (hrun : (v.task v.curr).state ≠ .running) {n : TaskId}
    (hn : n = v.idle ∨ ((v.unqueue v.curr).task n).queued = true) :
    Tidy { v.unqueue v.curr with curr := n } := by
  obtain ⟨hrq, hqr, hc⟩ := h
  simp only [unqueue, modTask, Function.update_apply] at hn
  constructor <;> simp only [unqueue, modTask, Function.update_apply] <;> grind

theorem Tidy.switch (h : Tidy v) (hrun : v.curr ≠ v.idle → (v.task v.curr).state = .running)
    (hidle : (v.task v.idle).queued = false) {n : TaskId}
    (hn : n = v.idle ∨ (v.task n).queued = true) : Tidy { v with curr := n } := by
  obtain ⟨hrq, hqr, hc⟩ := h
  constructor <;> grind

theorem Tidy.setState (h : Tidy v) (hidle : v.curr ≠ v.idle) {state : TaskState} :
    Tidy (v.setState v.curr state) := by
  obtain ⟨hrq, hqr, hc⟩ := h
  constructor <;> simp only [View.setState, modTask, Function.update_apply] <;> grind

theorem Tidy.passed (h : Tidy v) (hbase : Base v) (hpassed : Passed v w) {n : TaskId}
    (hn : n = w.idle ∨ (w.task n).queued = true) : Tidy { w with curr := n } := by
  cases hpassed with
  | signal hint hmagic =>
      have hne : v.curr ≠ v.idle := by
        intro heq
        rw [heq, hbase.idle_state] at hint
        cases hint
      refine (h.setState hne).switch (fun _ => ?_) ?_ hn
      · simp [View.setState, modTask]
      · have hidle := hbase.idle_queued
        simp only [View.setState, modTask, Function.update_of_ne hne.symm]
        exact hidle
  | block hrun hmagic hqueued => exact h.unqueue_curr hrun hn
  | preempt hrun hmagic => exact h.switch (fun _ => hrun) hbase.idle_queued hn

theorem Tidy.select (h : Tidy v) (hbase : Base v) (hcons : Consistent v) (hfree : ¬Contested v)
    (hfall : ¬FallThrough v) {n : TaskId} (hselect : Select (fun p => (w.task p).queued = true) v (.task n) w) :
    Tidy { w with curr := n } := by
  have hstand : ∀ m, v.magicProcess = some m → v.idleFromMagic = true → v.curr = v.idle := by
    intro m hm hflag
    exact (hcons.sleeper hflag).1
  generalize hnext : Next.task n = next at hselect
  cases hselect with
  | resume hm htime hflag hstate =>
      cases hnext
      have hcurr := hstand n hm hflag
      refine Tidy.congr (v := { v with curr := n }) ?_ (renew_allocated v n) rfl (renew_idle v n)
        fun p => ?_
      · refine h.switch (fun hne => absurd hcurr hne) hbase.idle_queued (Or.inr ?_)
        exact h.running_queued n (hbase.process_allocated n hm) (hbase.process_ne_idle n hm) hstate
      · have htask := renew_task v n
        simp only [htask, and_self]
  | wait hm htime hflag hstate =>
      cases hnext
      rename_i m
      refine Tidy.congr h (renew_allocated v m) (hstand m hm hflag).symm (renew_idle v m) fun p => ?_
      have htask := renew_task v m
      simp only [htask, and_self]
  | caught hseg hcaught =>
      rename_i u
      have htidy := h.segment hseg
      have hpos := hcaught.magicTime_pos
      have hprocess := ((hcons.segment hseg).1.startUnlessStarted hpos fun m hm =>
        hseg.free_of_uncontested hfree hpos hm).2
      cases hcaught with
      | sleep hint hmagic hqueued =>
          cases hnext
          have hstart := htidy.startUnlessStarted
          have hrun : (u.startUnlessStarted.task u.startUnlessStarted.curr).state ≠ .running := by
            rw [startUnlessStarted_state, startUnlessStarted_curr, hint]
            exact TaskState.noConfusion
          have hnew := hstart.unqueue_curr hrun (n := u.idle) (Or.inl u.startUnlessStarted_idle.symm)
          rw [startUnlessStarted_curr] at hnew
          exact hnew.congr rfl rfl rfl fun p => ⟨rfl, rfl⟩
      | run hrun hmagic hqueued =>
          rw [hprocess] at hnext
          cases hnext
          exact htidy.startUnlessStarted.congr rfl u.startUnlessStarted_curr.symm rfl
            fun p => ⟨rfl, rfl⟩
      | fallThrough hrun hint hmagic hqueued hstarted =>
          exact absurd (hseg.fallThrough ⟨hmagic, hrun, hint⟩) hfall
  | picked hseg hpassed hn =>
      cases hnext
      exact (h.segment hseg).passed (hbase.segment hseg) hpassed hn

theorem Tidy.wake (h : Tidy v) (p : TaskId) : Tidy (v.wake p) := by
  obtain ⟨hrq, hqr, hc⟩ := h
  constructor <;> simp only [View.wake, modTask, Function.update_apply] <;> grind

theorem Tidy.fork (h : Tidy v) {child : TaskId} (hchild : child ≠ v.curr) : Tidy (v.fork child) := by
  obtain ⟨hrq, hqr, hc⟩ := h
  constructor <;> simp only [View.fork, Function.update_apply] <;> grind

theorem Tidy.modCurr (h : Tidy v) {f : TaskView → TaskView}
    (hf : ∀ t, (f t).state = t.state ∧ (f t).queued = t.queued) : Tidy (v.modTask v.curr f) := by
  refine h.congr rfl rfl rfl fun p => ?_
  simp only [modTask, Function.update_apply]
  split
  · rename_i hp
    rw [hp]
    exact hf _
  · exact ⟨rfl, rfl⟩

theorem Timer.state_eq (ht : Timer v w) (p : TaskId) :
    (w.task p).state = (v.task p).state ∧ (w.task p).queued = (v.task p).queued := by
  refine ⟨?_, ht.queued p⟩
  cases ht with
  | off htime => rfl
  | count htime => rfl
  | expire htime hm =>
      simp only [View.exitFromMagic, Function.update_apply]
      split
      · rename_i hp
        rw [hp]
      · rfl

theorem Tidy.timer (h : Tidy v) (ht : Timer v w) : Tidy w :=
  h.congr ht.allocated_eq ht.curr ht.idle_eq ht.state_eq

theorem Tidy.release (h : Tidy v) (p : TaskId) :
    Tidy { v with allocated := Function.update v.allocated p false } := by
  obtain ⟨hrq, hqr, hc⟩ := h
  constructor <;> simp only [Function.update_apply] <;> grind

theorem Tidy.step (h : Tidy v) (hbase : Base v) (hcons : Consistent v) {last : Bool} {e : Event}
    (hstep : Step last v e w)
    (hcall : e = .schedule ∨ e = .yield → ¬Contested v ∧ ¬FallThrough v) : Tidy w := by
  have hchild : ∀ child, v.allocated child = false → child ≠ v.curr := by
    rintro child hfree rfl
    rw [hbase.curr_allocated] at hfree
    cases hfree
  cases hstep with
  | tick ht =>
      have htidy : Tidy { v with jiffies := v.jiffies + 1 } := h.congr rfl rfl rfl fun _ => ⟨rfl, rfl⟩
      exact htidy.timer ht
  | wake hp hidle => exact h.wake _
  | signal => exact h
  | setState hidle => exact h.setState hidle
  | schedule hselect =>
      obtain ⟨hfree, hfall⟩ := hcall (Or.inl rfl)
      exact h.select hbase hcons hfree hfall hselect
  | yield hidle hselect =>
      obtain ⟨hfree, hfall⟩ := hcall (Or.inr rfl)
      exact h.select hbase hcons hfree hfall hselect
  | fork hidle hnew hlast => exact (h.fork (hchild _ hnew)).wake _
  | forkTick hidle hnew hlast ht => exact ((h.fork (hchild _ hnew)).timer ht).wake _
  | release hidle hp hcurr hstate hqueued => exact h.release _
  | getWand hidle => exact h.modCurr fun t => ⟨rfl, rfl⟩
  | magicClock hidle =>
      rw [View.magicClock]
      split
      · exact h.modCurr fun t => ⟨rfl, rfl⟩
      · exact h

/-- The registered process is on the run queue unless the sleep flag is set. -/
theorem Tidy.process_queued (h : Tidy v) (hbase : Base v) (howned : Owned v) {m : TaskId}
    (hm : v.magicProcess = some m) (hflag : v.magicSleepFlag = false) :
    (v.task m).queued = true := by
  rcases howned.placed m hm with ⟨-, -, hcurr⟩ | ⟨-, hsleep, -⟩
  · have hne : v.curr ≠ v.idle := by
      rw [hcurr]
      exact hbase.process_ne_idle m hm
    rw [← hcurr]
    exact h.curr_queued hne
  · rw [hflag] at hsleep
    cases hsleep

end View

/-! ### Runs without the two mistakes -/

/-- The current task calls `schedule()` with magic time, in a state other than running and
interruptible. The exception is a zombie in its own period, which ends first. -/
def FallThrough (s : State) (e : Event) : Prop :=
  (e = .schedule ∨ e = .yield) ∧ 0 < (s.task s.curr).magicTime ∧
    (s.task s.curr).state ≠ .running ∧ (s.task s.curr).state ≠ .interruptible ∧
    ((s.task s.curr).state = .zombie → s.magicProcess ≠ some s.curr)

instance (s : State) (e : Event) : Decidable (FallThrough s e) :=
  inferInstanceAs (Decidable (_ ∧ _ ∧ _ ∧ _ ∧ (_ → _)))

def Careful (s : State) (e : Event) : Prop := ¬FallThrough s e ∧ ¬LostCancel s e

instance (s : State) (e : Event) : Decidable (Careful s e) :=
  inferInstanceAs (Decidable (_ ∧ _))

theorem queued_eq_true {s : State} {p : TaskId} :
    (s.view.task p).queued = true ↔ (s.task p).array ≠ none :=
  Option.isSome_iff_ne_none

theorem tidy_of_initial {s : State} (h : Initial s) : s.view.Tidy where
  running_queued p hp hidle hrun := queued_eq_true.2 ((h.queued_iff p hp hidle).2 hrun)
  queued_running p _ hqueued := by
    have hp : s.allocated p = true := h.base.queued_allocated p hqueued
    have hidle : p ≠ s.idle := by
      rintro rfl
      have hfree := h.base.idle_queued
      rw [show s.view.idle = s.idle from rfl, hqueued] at hfree
      cases hfree
    exact (h.queued_iff p hp hidle).1 (queued_eq_true.1 hqueued)
  curr_queued hne := queued_eq_true.2 (h.curr.resolve_left hne)

/-- The run queue is tidy as long as no call of `schedule()` falls through or is contested. -/
theorem tidy_of_reachable {C : State → Event → Prop}
    (hC : ∀ s e, (machine.restrict C).Reachable Initial s → C s e → ¬FallThrough s e ∧ ¬Contested s e)
    {s : State} (h : (machine.restrict C).Reachable Initial s) : s.view.Consistent ∧ s.view.Tidy := by
  refine h.invariant (I := fun s => s.view.Consistent ∧ s.view.Tidy)
    (fun s hs => ⟨consistent_of_noMagic hs.noMagic, tidy_of_initial hs⟩) ?_
  rintro s e s' hreach ⟨hcons, htidy⟩ hstep
  obtain ⟨hc, hstep⟩ := Machine.restrict_step.1 hstep
  obtain ⟨hfall, hfree⟩ := hC s e hreach hc
  have hsound := sound_of_reachable hreach.of_restrict
  have hview := hsound.view_step hstep
  have hfree' : e = .schedule ∨ e = .yield → ¬s.view.Contested :=
    fun he hcontested => hfree ⟨he, contested_view.1 hcontested⟩
  have hfall' : e = .schedule ∨ e = .yield → ¬s.view.FallThrough := fun he hf => hfall ⟨he, hf⟩
  exact ⟨hcons.step hsound.base hview hfree',
    htidy.step hsound.base hcons hview fun he => ⟨hfree' he, hfall' he⟩⟩

/-- Without unnoticed cancellations no call is contested. -/
theorem tidy_of_careful {s : State} (h : (machine.restrict Careful).Reachable Initial s) :
    s.view.Tidy := by
  refine (tidy_of_reachable (fun s e hreach hc => ⟨hc.1, fun hcontested => ?_⟩) h).2
  have howned := owned_of_reachable (fun s e hc => hc.2) hreach
  exact howned.uncontested (contested_view.2 hcontested.2)

theorem not_exposed {s : State} (hsound : Sound s) (howned : s.view.Owned) (htidy : s.view.Tidy) :
    ¬Exposed s := by
  rintro ⟨m, hm, hflag, harray⟩
  exact queued_eq_true.1 (htidy.process_queued hsound.base howned hm hflag) harray

theorem not_scheduleFault {s : State} (hsound : Sound s) (howned : s.view.Owned)
    (htidy : s.view.Tidy) (hfall : ¬s.view.FallThrough) : ¬ScheduleFault s := by
  rintro (hexposed | ⟨w, hseg, ⟨harray, hoff⟩ | hthrough⟩)
  · exact not_exposed hsound howned htidy hexposed
  · have hidle : s.view.curr = s.view.idle := by
      by_contra hne
      exact queued_eq_true.1 (htidy.curr_queued hne) harray
    have hbase := hsound.base.segment hseg
    have hcurr : w.curr = w.idle := by rw [hseg.curr, hseg.idle_eq, hidle]
    rcases hoff with hrun | hmagic
    · rw [hcurr] at hrun
      exact hrun hbase.idle_state
    · rw [hcurr, hbase.idle_magicTime] at hmagic
      exact absurd hmagic (UInt32.lt_irrefl 0)
  · exact hfall (hseg.fallThrough hthrough)

/-- In a run without the two mistakes every call of `dequeue_task`, by whatever function, is made on a
task that is linked in the array it names: no step, completed or not, faults there. -/
theorem dequeue_linked_of_careful {s : State} {e : Event}
    (h : (machine.restrict Careful).Reachable Initial s) (henabled : machine.enabled s e)
    (hcareful : Careful s e) :
    step s e ≠ .error .dequeueNull ∧ step s e ≠ .error .dequeueUnlinked := by
  have hsound := sound_of_reachable h.of_restrict
  have howned := owned_of_reachable (fun s e hc => hc.2) h
  have htidy := tidy_of_careful h
  have hnofault : ¬DequeueFault s e := by
    cases e with
    | tick => exact not_exposed hsound howned htidy
    | fork child vfork => exact not_exposed hsound howned htidy
    | schedule =>
        exact not_scheduleFault hsound howned htidy fun hfall => hcareful.1 ⟨Or.inl rfl, hfall⟩
    | yield =>
        rintro ⟨s', hs', hfault⟩
        have hview := yieldRequeue_view hs'
        have hlinked : Linked s' := (yieldRequeue_linked hsound.linked).of_ok hs'
        have hfall : ¬s.view.FallThrough := fun hfall => hcareful.1 ⟨Or.inr rfl, hfall⟩
        have hbase := hsound.base
        rw [← hview] at hbase howned htidy hfall
        exact not_scheduleFault ⟨hlinked, hbase⟩ howned htidy hfall hfault
    | wake p => exact id
    | signal p pending => exact id
    | setState state => exact id
    | release p => exact id
    | getWand => exact id
    | magicClock seconds => exact id
  have houtcome := step_linked hsound.linked (freeUnlinked_of_base hsound.base) henabled
  exact ⟨fun hf => hnofault (houtcome.of_error hf rfl), fun hf => hnofault (houtcome.of_error hf rfl)⟩

section Boot

/-- `init` has slept and been woken in its period, and exits. -/
def exiting : State :=
  (machine.restrict Careful).after boot [.schedule, .getWand, .magicClock 1, .schedule,
    .setState .interruptible, .schedule, .tick, .wake 1, .schedule, .setState .zombie]

theorem dequeue_linked_exiting : (machine.restrict Careful).Reachable Initial exiting ∧
    exiting.magicProcess = some 1 ∧ step exiting .schedule ≠ .error .dequeueNull ∧
    step exiting .schedule ≠ .error .dequeueUnlinked := by
  have hreach : (machine.restrict Careful).Reachable Initial exiting :=
    ⟨boot, _, boot_initial, Machine.run_after (by decide +kernel)⟩
  refine ⟨hreach, by decide +kernel, ?_⟩
  exact dequeue_linked_of_careful (e := .schedule) hreach trivial (by decide +kernel)

/-- `init` asks for magic and blocks uninterruptibly before its period has started. -/
def blocking : State :=
  machine.after boot [.schedule, .getWand, .magicClock 1, .setState .uninterruptible]

theorem blocking_dequeueNull : machine.Reachable Initial blocking ∧
    machine.enabled blocking .schedule ∧ step blocking .schedule = .error .dequeueNull :=
  ⟨⟨boot, _, boot_initial, Machine.run_after (by decide +kernel)⟩, trivial,
    eq_error_of_faultOf (by decide +kernel)⟩

end Boot

end MagicKernel.Sched
