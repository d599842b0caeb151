import Mathlib.Algebra.BigOperators.Group.Finset.Basic
import Mathlib.Data.Int.Cast.Basic
import MagicKernel.SchedLinks

/-! Every completed step is a step of the view, and the facts that hold in every reachable state
whatever the magic code does: linked tasks are allocated, so is the task that runs, the idle task
is never on the run queue, and the registered magic process is never a zombie that gave up the
processor. -/

namespace MagicKernel.Sched

open FaultMachine

/-! ### Steps of the view -/

/-- The current task has one jiffy left; a fork gives it to the child and ticks. -/
def State.lastJiffy (s : State) : Bool := (s.task s.curr).timeSlice = 1

theorem copyProcess_view (child : TaskId) (s : State) :
    (copyProcess child s).view = s.view.fork child := by
  rw [State.view, View.fork]
  congr 1
  funext q
  by_cases hq : q = child
  · subst hq
    simp [copyProcess, copyTask, Task.view]
  · simp [copyProcess, hq, State.view]

theorem shareTimeSlice_view (child : TaskId) (s : State) : (shareTimeSlice child s).view = s.view := by
  rw [shareTimeSlice]
  exact (view_modTask_id _ s.curr (fun t => { t with timeSlice := (s.task s.curr).timeSlice >>> 1 })
    fun _ => rfl).trans (view_modTask_id s child
      (fun t => { t with
        timeSlice := ((s.task s.curr).timeSlice + 1) >>> 1
        firstTimeSlice := true
        sleepTimestamp := s.jiffies }) fun _ => rfl)

theorem shiftRight_one_eq_zero {x : UInt32} (h : x ≠ 0) : x >>> 1 = 0 ↔ x = 1 := by
  have hx : x.toNat ≠ 0 := fun h0 => h (UInt32.toNat_inj.1 h0)
  rw [← UInt32.toNat_inj, ← UInt32.toNat_inj, UInt32.toNat_shiftRight]
  simp only [UInt32.reduceToNat, Nat.reduceMod, Nat.shiftRight_eq_div_pow]
  omega

theorem tickIfSpent_view {s s' : State} (h : tickIfSpent s = .ok s') :
    ((s.task s.curr).timeSlice ≠ 0 ∧ s'.view = s.view) ∨
    ((s.task s.curr).timeSlice = 0 ∧ View.Timer s.view s'.view) := by
  rcases tickIfSpent_cases h with ⟨hts, rfl⟩ | ⟨hts, h⟩
  · exact Or.inl ⟨hts, rfl⟩
  · refine Or.inr ⟨hts, ?_⟩
    have hview := schedulerTick_view h
    rwa [view_modTask_id s s.curr (fun t => { t with timeSlice := 1 }) fun _ => rfl] at hview

theorem doFork_view {child : TaskId} {vfork last : Bool} {s s' : State}
    (hidle : s.curr ≠ s.idle) (hchild : s.allocated child = false) (hcurr : child ≠ s.curr)
    (hlast : last = s.lastJiffy) (h : doFork child vfork s = .ok s') :
    View.Step last s.view (.fork child vfork) s'.view := by
  obtain ⟨hts, s₁, s₂, h₁, h₂, h⟩ := doFork_cases h
  have hparent : (copyProcess child s).task s.curr = s.task s.curr :=
    Function.update_of_ne hcurr.symm _ _
  rw [hparent] at hts
  have hview₀ : (shareTimeSlice child (copyProcess child s)).view = s.view.fork child := by
    rw [shareTimeSlice_view, copyProcess_view]
  have hcurr₀ : (shareTimeSlice child (copyProcess child s)).curr = s.curr := rfl
  have hts₀ := forkParent_timeSlice hcurr
  have hspent := shiftRight_one_eq_zero hts
  have hview' : s'.view = s₂.view := by
    rcases h with rfl | rfl
    · rfl
    · exact setNeedResched_view s₂ s₂.curr
  have hcurr₁ : s₁.curr = s.curr := by
    rcases tickIfSpent_view h₁ with ⟨-, hview₁⟩ | ⟨-, htimer⟩
    · exact congrArg (fun v : View => v.curr) (hview₁.trans hview₀)
    · exact htimer.curr
  have hwoken := woken_wakeUpForkedProcess (by rw [hcurr₁]; exact hcurr) h₂
  rw [hview', hwoken.view_eq]
  rcases tickIfSpent_view h₁ with ⟨hts₁, hview₁⟩ | ⟨hts₁, htimer⟩
  · rw [hcurr₀, hts₀] at hts₁
    rw [hview₁, hview₀]
    refine .fork hidle hchild ?_
    rw [hlast, State.lastJiffy]
    exact decide_eq_false fun h1 => hts₁ (hspent.2 h1)
  · rw [hcurr₀, hts₀] at hts₁
    rw [hview₀] at htimer
    refine .forkTick hidle hchild ?_ htimer
    rw [hlast, State.lastJiffy]
    exact decide_eq_true (hspent.1 hts₁)

theorem schedule_view {s s' : State} (hlinked : Linked s) (h : schedule s = .ok s') :
    ∃ n w, View.Select (fun p => (w.task p).queued = true) s.view (.task n) w ∧
      s'.view = { w with curr := n } := by
  obtain ⟨n, s₁, h₁, htask, hcore, -⟩ := schedule_cases h
  have hlinked₁ : Linked s₁ := (selectNext_linked hlinked).of_ok h₁
  refine ⟨n, s₁.view, (selectNext_view h₁).mono ?_, ?_⟩
  · rintro p ⟨a, hlinks⟩
    exact Option.isSome_iff_exists.2 ⟨a, (hlinked₁ a p).1 hlinks⟩
  · rw [State.view, hcore]
    have hsame : ∀ p, (s'.task p).view = (s₁.task p).view := by
      intro p
      rw [htask]
      by_cases hp : p = s₁.curr
      · subst hp
        rw [Function.update_self]
        rfl
      · rw [Function.update_of_ne hp]
    rw [funext hsame]
    rfl

theorem view_step {s s' : State} {e : Event} (hlinked : Linked s)
    (hcurr : s.allocated s.curr = true) (h : machine.Step s e s') :
    View.Step s.lastJiffy s.view e s'.view := by
  obtain ⟨henabled, hstep⟩ := h
  cases e with
  | tick => exact .tick (schedulerTick_view hstep)
  | wake p =>
      rw [(woken_tryToWakeUp hstep).view_eq]
      exact .wake henabled.1 henabled.2
  | signal p pending =>
      cases hstep
      rw [view_modTask_id s p (fun t => { t with sigpending := pending }) fun _ => rfl]
      exact .signal
  | setState state =>
      cases hstep
      rw [view_modTask s s.curr (fun t => { t with state := state })
        (fun t => { t with state := state }) fun _ => rfl]
      exact .setState henabled
  | schedule =>
      obtain ⟨n, w, hselect, hview⟩ := schedule_view hlinked hstep
      rw [hview]
      exact .schedule hselect
  | yield =>
      obtain ⟨s₁, h₁, hstep⟩ := bind_eq_ok.1 hstep
      have hlinked₁ : Linked s₁ := (yieldRequeue_linked hlinked).of_ok h₁
      obtain ⟨n, w, hselect, hview⟩ := schedule_view hlinked₁ hstep
      rw [yieldRequeue_view h₁] at hselect
      rw [hview]
      exact .yield henabled hselect
  | fork child vfork =>
      have hchild : child ≠ s.curr := by
        rintro rfl
        rw [henabled.2] at hcurr
        cases hcurr
      exact doFork_view henabled.1 henabled.2 hchild rfl hstep
  | release p =>
      obtain ⟨hidle, hp, hne, hzombie⟩ := henabled
      obtain ⟨harray, ts, avg, -, rfl⟩ := releaseTask_spec hstep
      have hview := view_modTask_id s s.curr (fun t => { t with timeSlice := ts, sleepAvg := avg })
        fun _ => rfl
      have hstep : View.Step s.lastJiffy s.view (.release p) _ := .release hidle hp hne hzombie
        (Option.isSome_eq_false_iff.2 (Option.isNone_iff_eq_none.2 harray))
      rw [← hview] at hstep ⊢
      exact hstep
  | getWand =>
      cases hstep
      rw [view_modTask s s.curr (fun t => { t with holdingWand := true })
        (fun t => { t with holdingWand := true }) fun _ => rfl]
      exact .getWand henabled
  | magicClock seconds =>
      cases hstep
      have hview : (sysMagicClock seconds s).view = s.view.magicClock seconds := by
        unfold sysMagicClock
        split
        · rename_i hwand
          exact (view_modTask s s.curr _ (fun t =>
              { t with magicTime := seconds * UInt32.ofNat hz, magicCallTime := s.jiffies })
            fun _ => rfl).trans (if_pos hwand).symm
        · rename_i hwand
          exact (if_neg hwand).symm
      rw [hview]
      exact .magicClock henabled

/-! ### Facts of every run -/

theorem ofPtr_eq_task {x : Option TaskId} {n : TaskId} (h : Next.ofPtr x = .task n) : x = some n := by
  cases x with
  | none => cases h
  | some p =>
      cases h
      rfl

namespace View

/-- A process that is registered after the magic segment was kept by it. -/
theorem Segment.kept_of_process {v w : View} (h : Segment v w) {m : TaskId} (hm : w.magicProcess = some m) :
    w = v.renew m ∧ v.magicProcess = some m ∧ (v.task m).state ≠ .zombie ∧ (v.renew m).MAGICTIME ≠ 0 := by
  cases h with
  | idle hnone =>
      rw [hnone] at hm
      cases hm
  | ended hm' hend => cases hm
  | kept hm' hzombie htime hflag =>
      rw [renew_magicProcess, hm'] at hm
      cases hm
      exact ⟨rfl, hm', hzombie, htime⟩

/-- After the magic segment a registered process is not a zombie. -/
theorem Segment.process_ne_zombie {v w : View} (h : Segment v w) {m : TaskId}
    (hm : w.magicProcess = some m) : (w.task m).state ≠ .zombie := by
  obtain ⟨rfl, -, hzombie, -⟩ := h.kept_of_process hm
  rwa [renew_task]

theorem startUnlessStarted_process {v : View} {m : TaskId}
    (hm : v.startUnlessStarted.magicProcess = some m) : m = v.curr ∨ v.magicProcess = some m := by
  rw [startUnlessStarted] at hm
  split at hm
  · exact Or.inl (Option.some.inj hm).symm
  · exact Or.inr hm

theorem startUnlessStarted_state (v : View) (p : TaskId) :
    (v.startUnlessStarted.task p).state = (v.task p).state := by
  rw [startUnlessStarted]
  split
  · by_cases hp : p = v.curr
    · subst hp
      simp [startMagic]
    · simp [startMagic, hp]
  · rfl

/-- No completed `schedule()` leaves a zombie registered. -/
theorem Select.process_ne_zombie {Q : TaskId → Prop} {v w : View} {n : Next} (h : Select Q v n w)
    {m : TaskId} (hm : w.magicProcess = some m) : (w.task m).state ≠ .zombie := by
  cases h with
  | resume hm' htime hflag hstate =>
      rw [renew_magicProcess, hm'] at hm
      cases hm
      rw [renew_task, hstate]
      exact TaskState.noConfusion
  | wait hm' htime hflag hstate =>
      rw [renew_magicProcess, hm'] at hm
      cases hm
      rw [renew_task, hstate]
      exact TaskState.noConfusion
  | caught hseg hcaught =>
      cases hcaught with
      | sleep hstate hmagic hqueued =>
          rw [unqueue_state, startUnlessStarted_state]
          rcases startUnlessStarted_process hm with rfl | hm
          · rw [hstate]
            exact TaskState.noConfusion
          · exact hseg.process_ne_zombie hm
      | run hstate hmagic hqueued =>
          rw [startUnlessStarted_state]
          rcases startUnlessStarted_process hm with rfl | hm
          · rw [hstate]
            exact TaskState.noConfusion
          · exact hseg.process_ne_zombie hm
      | fallThrough hrun hint hmagic hqueued hstarted =>
          rw [unqueue_state]
          exact hseg.process_ne_zombie hm
  | picked hseg hpassed hn =>
      have hzombie := hseg.process_ne_zombie (m := m)
      cases hpassed with
      | signal hstate hmagic =>
          have hz := hzombie hm
          simp only [setState, modTask, Function.update_apply]
          split
          · exact TaskState.noConfusion
          · exact hz
      | block hrun hmagic hqueued =>
          rw [unqueue_state]
          exact hzombie hm
      | preempt hstate hmagic => exact hzombie hm

/-- The facts of every run. The idle task, which the magic code leaves on the processor while its
process sleeps, is itself never on the run queue and has no magic time. -/
structure Base (v : View) : Prop where
  queued_allocated : ∀ p, (v.task p).queued = true → v.allocated p = true
  curr_allocated : v.allocated v.curr = true
  idle_allocated : v.allocated v.idle = true
  idle_queued : (v.task v.idle).queued = false
  idle_state : (v.task v.idle).state = .running
  idle_magicTime : (v.task v.idle).magicTime = 0
  process_allocated : ∀ m, v.magicProcess = some m → v.allocated m = true
  process_ne_idle : ∀ m, v.magicProcess = some m → m ≠ v.idle
  process_zombie : ∀ m, v.magicProcess = some m → (v.task m).state = .zombie → m = v.curr

section

variable {v w : View}

theorem Base.congr (h : Base v) (hallocated : w.allocated = v.allocated) (hcurr : w.curr = v.curr)
    (hidle : w.idle = v.idle) (hm : w.magicProcess = v.magicProcess) (htask : w.task = v.task) :
    Base w := by
  obtain ⟨hqa, hca, hia, hiq, his, him, hpa, hpi, hpz⟩ := h
  constructor <;> simp only [hallocated, hcurr, hidle, hm, htask] <;> assumption

theorem Base.exitFromMagic (h : Base v) (m : TaskId) : Base (v.exitFromMagic m) := by
  obtain ⟨hqa, hcurr, hidle, hiq, his, him, hpa, hpi, hpz⟩ := h
  constructor <;> simp only [View.exitFromMagic, Function.update_apply] <;> grind

theorem Base.timer (h : Base v) (ht : Timer v w) : Base w := by
  cases ht with
  | off htime => exact h
  | count htime => exact h.congr rfl rfl rfl rfl rfl
  | expire htime hm => exact h.exitFromMagic _

theorem Base.renew (h : Base v) (m : TaskId) : Base (v.renew m) := by
  rw [View.renew]
  split
  · exact h.congr rfl rfl rfl rfl rfl
  · exact h

theorem Base.segment (h : Base v) (hseg : Segment v w) : Base w := by
  cases hseg with
  | idle hm => exact h
  | ended hm hend => exact (h.renew _).exitFromMagic _
  | kept hm hzombie htime hflag => exact h.renew _

theorem Base.startUnlessStarted (h : Base v) (hmagic : 0 < (v.task v.curr).magicTime) :
    Base v.startUnlessStarted := by
  have hne : v.curr ≠ v.idle := by
    intro heq
    rw [heq, h.idle_magicTime] at hmagic
    exact absurd hmagic (by decide)
  obtain ⟨hqa, hcurr, hidle, hiq, his, him, hpa, hpi, hpz⟩ := h
  rw [View.startUnlessStarted]
  split
  · constructor <;> simp only [startMagic, Function.update_apply] <;> grind
  · constructor <;> assumption

theorem Base.unqueue (h : Base v) (p : TaskId) : Base (v.unqueue p) := by
  obtain ⟨hqa, hcurr, hidle, hiq, his, him, hpa, hpi, hpz⟩ := h
  constructor <;> simp only [View.unqueue, modTask, Function.update_apply] <;> grind

theorem Base.setState (h : Base v) {state : TaskState} (hidle : v.curr ≠ v.idle) :
    Base (v.setState v.curr state) := by
  obtain ⟨hqa, hcurr, hidle, hiq, his, him, hpa, hpi, hpz⟩ := h
  constructor <;> simp only [View.setState, modTask, Function.update_apply] <;> grind

theorem Base.wake (h : Base v) {p : TaskId} (hp : v.allocated p = true) (hidle : p ≠ v.idle) :
    Base (v.wake p) := by
  obtain ⟨hqa, hcurr, hidle, hiq, his, him, hpa, hpi, hpz⟩ := h
  constructor <;> simp only [View.wake, modTask, Function.update_apply] <;> grind

theorem Base.fork (h : Base v) {child : TaskId} (hchild : v.allocated child = false) :
    Base (v.fork child) := by
  obtain ⟨hqa, hcurr, hidle, hiq, his, him, hpa, hpi, hpz⟩ := h
  constructor <;> simp only [View.fork, Function.update_apply] <;> grind

/-- Handing the processor to an allocated task, once no zombie is registered. -/
theorem Base.switch (h : Base v) {n : TaskId} (hn : v.allocated n = true)
    (hzombie : ∀ m, v.magicProcess = some m → (v.task m).state ≠ .zombie) :
    Base { v with curr := n } :=
  ⟨h.1, hn, h.3, h.4, h.5, h.6, h.7, h.8, fun m hm hz => absurd hz (hzombie m hm)⟩

theorem Base.caught (h : Base v) {n : TaskId} (hcaught : Caught v (.task n) w) :
    Base w ∧ w.allocated n = true := by
  generalize hnext : Next.task n = next at hcaught
  cases hcaught with
  | sleep hstate hmagic hqueued =>
      cases hnext
      have hbase := (h.startUnlessStarted hmagic).unqueue v.curr
      refine ⟨hbase.congr rfl rfl rfl rfl rfl, ?_⟩
      rw [← v.startUnlessStarted_idle]
      exact hbase.idle_allocated
  | run hstate hmagic hqueued =>
      have hbase := h.startUnlessStarted hmagic
      exact ⟨hbase, hbase.process_allocated n (ofPtr_eq_task hnext.symm)⟩
  | fallThrough hrun hint hmagic hqueued hstarted =>
      exact ⟨h.unqueue v.curr, h.process_allocated n (ofPtr_eq_task hnext.symm)⟩

theorem Base.passed (h : Base v) (hpassed : Passed v w) : Base w := by
  cases hpassed with
  | signal hstate hmagic =>
      refine h.setState fun heq => ?_
      rw [heq, h.idle_state] at hstate
      cases hstate
  | block hrun hmagic hqueued => exact h.unqueue v.curr
  | preempt hstate hmagic => exact h

theorem Base.select (h : Base v) {n : TaskId}
    (hselect : Select (fun p => (w.task p).queued = true) v (.task n) w) :
    Base { w with curr := n } := by
  have hzombie : ∀ m, w.magicProcess = some m → (w.task m).state ≠ .zombie :=
    fun m hm => hselect.process_ne_zombie hm
  have hboth : Base w ∧ w.allocated n = true := by
    generalize hnext : Next.task n = next at hselect
    cases hselect with
    | resume hm htime hflag hstate =>
        cases hnext
        have hbase := h.renew n
        refine ⟨hbase.congr rfl rfl rfl rfl rfl, ?_⟩
        exact hbase.process_allocated n (by rw [renew_magicProcess, hm])
    | wait hm htime hflag hstate =>
        cases hnext
        refine ⟨h.renew _, ?_⟩
        rw [renew_allocated]
        exact h.idle_allocated
    | caught hseg hcaught =>
        subst hnext
        exact (h.segment hseg).caught hcaught
    | picked hseg hpassed hn =>
        cases hnext
        have hbase := (h.segment hseg).passed hpassed
        refine ⟨hbase, ?_⟩
        rcases hn with rfl | hn
        · exact hbase.idle_allocated
        · exact hbase.queued_allocated n hn
  exact hboth.1.switch hboth.2 hzombie

theorem Base.child_ne_idle (h : Base v) {child : TaskId} (hchild : v.allocated child = false) :
    child ≠ v.idle := by
  intro heq
  rw [heq, h.idle_allocated] at hchild
  cases hchild

theorem Base.child_ne_process (h : Base v) {child : TaskId} (hchild : v.allocated child = false) (m : TaskId)
    (hm : v.magicProcess = some m) : child ≠ m := by
  intro heq
  rw [heq, h.process_allocated m hm] at hchild
  cases hchild

theorem Timer.idle_eq (h : Timer v w) : w.idle = v.idle := by
  cases h <;> rfl

theorem Timer.allocated_eq (h : Timer v w) : w.allocated = v.allocated := by
  cases h <;> rfl

theorem Base.release (h : Base v) {p : TaskId} (hcurr : p ≠ v.curr)
    (hstate : (v.task p).state = .zombie) (hqueued : (v.task p).queued = false) :
    Base { v with allocated := Function.update v.allocated p false } := by
  obtain ⟨hqa, hca, hia, hiq, his, him, hpa, hpi, hpz⟩ := h
  constructor <;> simp only [Function.update_apply] <;> grind

theorem Base.modCurr (h : Base v) (hidle : v.curr ≠ v.idle) {f : TaskView → TaskView}
    (hf : ∀ t, (f t).state = t.state ∧ (f t).queued = t.queued) : Base (v.modTask v.curr f) := by
  have hfc := hf (v.task v.curr)
  obtain ⟨hqa, hca, hia, hiq, his, him, hpa, hpi, hpz⟩ := h
  constructor <;> simp only [modTask, Function.update_apply] <;> grind

theorem Base.step (h : Base v) {last : Bool} {e : Event} (hstep : Step last v e w) : Base w := by
  cases hstep with
  | tick ht =>
      have hbase : Base { v with jiffies := v.jiffies + 1 } := h.congr rfl rfl rfl rfl rfl
      exact hbase.timer ht
  | wake hp hidle => exact h.wake hp hidle
  | signal => exact h
  | setState hidle => exact h.setState hidle
  | schedule hselect => exact h.select hselect
  | yield hidle hselect => exact h.select hselect
  | fork hidle hchild hlast =>
      exact (h.fork hchild).wake (Function.update_self ..) (h.child_ne_idle hchild)
  | forkTick hidle hchild hlast ht =>
      refine ((h.fork hchild).timer ht).wake ?_ ?_
      · rw [ht.allocated_eq]
        exact Function.update_self ..
      · rw [ht.idle_eq]
        exact h.child_ne_idle hchild
  | release hidle hp hcurr hstate hqueued => exact h.release hcurr hstate hqueued
  | getWand hidle => exact h.modCurr hidle fun t => ⟨rfl, rfl⟩
  | magicClock hidle =>
      rw [View.magicClock]
      split
      · exact h.modCurr hidle fun t => ⟨rfl, rfl⟩
      · exact h

end

end View

/-! ### Where runs start -/

/-- The representation invariant of the run queue: a task is linked once, in the queue of its priority
in the array it names, and nowhere if it names none; the bitmaps and the counters agree with the
queues. -/
structure QueueInv (s : State) : Prop where
  linked_once : ∀ a k p, ((s.arrays a).queue k).count p =
    if (s.task p).array = some a ∧ (s.task p).prio = k then 1 else 0
  prio_lt : ∀ p, (s.task p).array ≠ none → (s.task p).prio < maxPrio
  bitmap : ∀ a k, k < maxPrio → ((s.arrays a).bitmap k = true ↔ (s.arrays a).queue k ≠ [])
  nrActive : ∀ a, (s.arrays a).nrActive =
    ∑ k ∈ Finset.range maxPrio, (((s.arrays a).queue k).length : Int)
  nrRunning : s.nrRunning = (s.arrays .zero).nrActive + (s.arrays .one).nrActive

/-- A state in which no magic has been asked for: the magic globals have the values of their C
initialisers and so have the magic fields of every task. -/
structure NoMagic (s : State) : Prop where
  magicProcess : s.magicProcess = none
  MAGICTIME : s.MAGICTIME = 0
  magicDuration : s.magicDuration = 0
  idleFromMagic : s.idleFromMagic = false
  magicSleepFlag : s.magicSleepFlag = false
  magicTime : ∀ p, (s.task p).magicTime = 0
  startedMagic : ∀ p, (s.task p).startedMagic = false
  magicCallTime : ∀ p, (s.task p).magicCallTime = 0

/-- The states runs start in. Any number of tasks may exist; the runnable ones are queued, each with
a priority and a time slice that the scheduler could have given it. -/
structure Initial (s : State) : Prop where
  queue : QueueInv s
  arrays : s.active ≠ s.expired
  base : s.view.Base
  noMagic : NoMagic s
  queued_iff : ∀ p, s.allocated p = true → p ≠ s.idle →
    ((s.task p).array ≠ none ↔ (s.task p).state = .running)
  curr : s.curr = s.idle ∨ (s.task s.curr).array ≠ none
  prio : ∀ p, s.allocated p = true → p ≠ s.idle → (s.task p).prio < maxPrio ∧
    ((s.task p).policy = .other → maxRtPrio ≤ (s.task p).prio)
  timeSlice : ∀ p, s.allocated p = true →
    (s.task p).timeSlice ≠ 0 ∧ (s.task p).timeSlice.toNat ≤ hz

theorem QueueInv.mem_queue {s : State} (h : QueueInv s) {a : ArrayId} {k : Nat} {p : TaskId} :
    p ∈ (s.arrays a).queue k ↔ (s.task p).array = some a ∧ (s.task p).prio = k := by
  rw [← List.count_pos_iff, h.linked_once]
  split
  · rename_i hp
    simp [hp]
  · rename_i hp
    simp [hp]

theorem QueueInv.linked {s : State} (h : QueueInv s) : Linked s := by
  intro a p
  constructor
  · rintro ⟨k, -, hmem⟩
    exact (h.mem_queue.1 hmem).1
  · intro ha
    have hne : (s.task p).array ≠ none := by
      have harray : (s.task p).array = some a := ha
      rw [harray]
      exact Option.some_ne_none a
    exact ⟨(s.task p).prio, h.prio_lt p hne, h.mem_queue.2 ⟨ha, rfl⟩⟩

theorem freeUnlinked_of_base {s : State} (h : s.view.Base) : FreeUnlinked s := by
  intro p hp
  by_contra harray
  have hallocated := h.queued_allocated p (Option.isSome_iff_ne_none.2 harray)
  have hp' : s.view.allocated p = false := hp
  rw [hp'] at hallocated
  cases hallocated

/-- The facts of every run, of states. -/
structure Sound (s : State) : Prop where
  linked : Linked s
  base : s.view.Base

theorem sound_of_initial {s : State} (h : Initial s) : Sound s := ⟨h.queue.linked, h.base⟩

theorem Sound.view_step {s s' : State} {e : Event} (h : Sound s) (hstep : machine.Step s e s') :
    View.Step s.lastJiffy s.view e s'.view :=
  Sched.view_step h.linked h.base.curr_allocated hstep

theorem Sound.step {s s' : State} {e : Event} (h : Sound s) (hstep : machine.Step s e s') :
    Sound s' where
  linked := (step_linked h.linked (freeUnlinked_of_base h.base) hstep.1).of_ok hstep.2
  base := h.base.step (h.view_step hstep)

theorem sound_of_reachable {s : State} (h : machine.Reachable Initial s) : Sound s :=
  h.invariant (fun _ hs => sound_of_initial hs) fun _ _ _ _ hs hstep => hs.step hstep

theorem Sound.child_ne_curr {s : State} (h : Sound s) {child : TaskId}
    (hchild : s.allocated child = false) : child ≠ s.curr := by
  rintro rfl
  have hcurr : s.allocated s.curr = true := h.base.curr_allocated
  rw [hchild] at hcurr
  cases hcurr

theorem tickIfSpent_curr {s s' : State} (h : tickIfSpent s = .ok s') : s'.curr = s.curr := by
  rcases tickIfSpent_view h with ⟨-, hview⟩ | ⟨-, ht⟩
  · exact congrArg (fun v : View => v.curr) hview
  · exact ht.curr

theorem Sound.doFork_cases {child : TaskId} {vfork : Bool} {s s' : State} (h : Sound s)
    (hchild : s.allocated child = false) (hfork : doFork child vfork s = .ok s') :
    (s.task s.curr).timeSlice ≠ 0 ∧ child ≠ s.curr ∧
    ∃ s₁ s₂, tickIfSpent (shareTimeSlice child (copyProcess child s)) = .ok s₁ ∧ s₁.curr = s.curr ∧
      wakeUpForkedProcess child s₁ = .ok s₂ ∧ Woken child s₁ s₂ ∧
      (s' = s₂ ∨ s' = s₂.setNeedResched s₂.curr) := by
  have hne := h.child_ne_curr hchild
  obtain ⟨hts, s₁, s₂, h₁, h₂, h'⟩ := Sched.doFork_cases hfork
  have hparent : (copyProcess child s).task s.curr = s.task s.curr :=
    Function.update_of_ne hne.symm _ _
  rw [hparent] at hts
  have hshare : (shareTimeSlice child (copyProcess child s)).curr = s.curr := rfl
  have hcurr := (tickIfSpent_curr h₁).trans hshare
  have hwoken := woken_wakeUpForkedProcess (by rw [hcurr]; exact hne) h₂
  exact ⟨hts, hne, s₁, s₂, h₁, hcurr, h₂, hwoken, h'⟩

/-- The invariant rule for views: it is enough to look at steps of the view. -/
theorem reachable_view {I : View → Prop} {C : State → Event → Prop}
    (hinit : ∀ s, Initial s → I s.view)
    (hI : ∀ s e w, Sound s → I s.view → C s e → View.Step s.lastJiffy s.view e w → I w) {s : State}
    (h : (machine.restrict C).Reachable Initial s) : I s.view := by
  refine h.invariant hinit ?_
  intro s e s' hreach hs hstep
  obtain ⟨hC, hstep⟩ := Machine.restrict_step.1 hstep
  have hsound := sound_of_reachable hreach.of_restrict
  exact hI s e s'.view hsound hs hC (hsound.view_step hstep)

/-! ### A machine that has just booted -/

section Boot

def idleTask : Task where
  state := .running
  sigpending := false
  needResched := true
  prio := maxPrio
  staticPrio := ⟨120, by decide⟩
  array := none
  sleepAvg := 0
  sleepTimestamp := 0
  policy := .other
  timeSlice := UInt32.ofNat hz
  firstTimeSlice := false
  holdingWand := false
  magicTime := 0
  startedMagic := false
  magicCallTime := 0

def initTask : Task :=
  { idleTask with
    needResched := false
    prio := 125
    array := some .zero
    timeSlice := 256
    firstTimeSlice := true }

def emptyArray : PrioArray where
  nrActive := 0
  bitmap _ := false
  queue _ := []

/-- The idle task runs as task 0 and has forked `init`, task 1. -/
def boot : State where
  jiffies := 0
  task p := if p = 1 then initTask else idleTask
  allocated p := p = 0 ∨ p = 1
  nrRunning := 1
  nrSwitches := 0
  expiredTimestamp := 0
  nrUninterruptible := 0
  curr := 0
  idle := 0
  active := .zero
  expired := .one
  arrays
    | .zero => emptyArray.insert 1 125
    | .one => emptyArray
  magicDuration := 0
  idleFromMagic := false
  magicProcess := none
  magicSleepFlag := false
  MAGICTIME := 0
  globalMagicCallTime := 0

theorem boot_queueInv : QueueInv boot where
  linked_once a k p := by
    cases a with
    | zero =>
        by_cases hp : p = 1
        · subst hp
          by_cases hk : k = 125
          · subst hk
            rfl
          · simp [boot, emptyArray, PrioArray.insert, initTask, hk, Ne.symm hk]
        · by_cases hk : k = 125
          · subst hk
            simp [boot, emptyArray, PrioArray.insert, idleTask, hp, Ne.symm hp]
          · simp [boot, emptyArray, PrioArray.insert, idleTask, hp, hk]
    | one =>
        by_cases hp : p = 1
        · simp [boot, emptyArray, initTask, hp]
        · simp [boot, emptyArray, idleTask, hp]
  prio_lt p := by
    by_cases hp : p = 1
    · simp [boot, initTask, hp, maxPrio, maxRtPrio]
    · simp [boot, idleTask, hp]
  bitmap a k _ := by
    cases a with
    | zero =>
        by_cases hk : k = 125
        · simp [boot, emptyArray, PrioArray.insert, hk]
        · simp [boot, emptyArray, PrioArray.insert, hk]
    | one => simp [boot, emptyArray]
  nrActive a := by
    cases a with
    | zero => decide +kernel
    | one => simp [boot, emptyArray]
  nrRunning := rfl

theorem boot_base : boot.view.Base where
  queued_allocated p := by
    by_cases hp : p = 1
    · simp [State.view, State.core, boot, hp]
    · simp [State.view, boot, idleTask, Task.view, hp]
  curr_allocated := rfl
  idle_allocated := rfl
  idle_queued := rfl
  idle_state := rfl
  idle_magicTime := rfl
  process_allocated m hm := by cases hm
  process_ne_idle m hm := by cases hm
  process_zombie m hm := by cases hm

theorem boot_noMagic : NoMagic boot where
  magicProcess := rfl
  MAGICTIME := rfl
  magicDuration := rfl
  idleFromMagic := rfl
  magicSleepFlag := rfl
  magicTime p := by
    by_cases hp : p = 1 <;> simp [boot, initTask, idleTask, hp]
  startedMagic p := by
    by_cases hp : p = 1 <;> simp [boot, initTask, idleTask, hp]
  magicCallTime p := by
    by_cases hp : p = 1 <;> simp [boot, initTask, idleTask, hp]

theorem boot_initial : Initial boot where
  queue := boot_queueInv
  arrays := by decide
  base := boot_base
  noMagic := boot_noMagic
  queued_iff p hp hidle := by
    have hp1 : p = 1 := by simpa [boot, show p ≠ 0 from hidle] using hp
    simp [boot, initTask, idleTask, hp1]
  curr := Or.inl rfl
  prio p hp hidle := by
    have hp1 : p = 1 := by simpa [boot, show p ≠ 0 from hidle] using hp
    simp [boot, initTask, hp1, maxPrio, maxRtPrio]
  timeSlice p hp := by
    by_cases hp1 : p = 1
    · simp [boot, initTask, hp1, hz]
    · simp [boot, idleTask, hp1, hz]

end Boot

end MagicKernel.Sched
