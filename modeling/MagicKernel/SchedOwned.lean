import MagicKernel.SchedConsistency

/-! Who owns magic time. In runs in which no process cancels its magic with a call that the timer
update cannot tell from the one before it (`LostCancel`), magic time belongs to the registered
process alone or, before a period has started, to the current task. Then the registered process is
current, or it sleeps and the idle task stands in for it. -/

namespace MagicKernel.Sched

open FaultMachine

namespace View

variable {v w : View}

/-- Where the registered process `m` is: it runs, or it sleeps with time left and both flags say so. -/
def Placed (m : TaskId) (v : View) : Prop :=
  (v.idleFromMagic = false ∧ v.magicSleepFlag = false ∧ v.curr = m) ∨
  (v.idleFromMagic = true ∧ v.magicSleepFlag = true ∧ v.curr = v.idle ∧ 0 < (v.task m).magicTime)

structure Owned (v : View) : Prop where
  consistent : v.Consistent
  unstarted : v.magicProcess = none → ∀ p, p ≠ v.curr → (v.task p).magicTime = 0
  others : ∀ m, v.magicProcess = some m → ∀ p, p ≠ m → (v.task p).magicTime = 0
  noticed : ∀ m, v.magicProcess = some m → (v.task m).magicTime = 0 →
    v.globalMagicCallTime ≠ (v.task m).magicCallTime
  placed : ∀ m, v.magicProcess = some m → Placed m v

theorem Owned.uncontested (h : Owned v) : ¬v.Contested := by
  rintro ⟨hmagic, m, hm, hne, -⟩
  rw [h.others m hm v.curr hne.symm] at hmagic
  exact absurd hmagic (UInt32.lt_irrefl 0)

/-- No task has magic time once a period has been ended. -/
theorem Owned.exit_magicTime (h : Owned v) {m : TaskId} (hm : v.magicProcess = some m) (p : TaskId) :
    (((v.renew m).exitFromMagic m).task p).magicTime = 0 := by
  have htask := renew_task v m
  simp only [View.exitFromMagic, htask, Function.update_apply]
  split
  · rfl
  · rename_i hp
    exact h.others m hm p hp

/-- A registered process that survives the magic segment has magic time left. -/
theorem Owned.magicTime_pos (h : Owned v) {m : TaskId} (hm : v.magicProcess = some m)
    (htime : (v.renew m).MAGICTIME ≠ 0) : 0 < (v.task m).magicTime := by
  refine UInt32.pos_iff_ne_zero.2 fun hzero => ?_
  have hnew := h.noticed m hm hzero
  rw [View.renew, if_pos hnew] at htime
  dsimp only at htime
  rw [hzero] at htime
  exact htime rfl

theorem renew_noticed (v : View) (m : TaskId) :
    (v.renew m).globalMagicCallTime = (v.task m).magicCallTime := by
  rw [View.renew]
  split
  · rfl
  · rename_i h
    rwa [not_not] at h

theorem renew_magicSleepFlag (v : View) (m : TaskId) :
    (v.renew m).magicSleepFlag = v.magicSleepFlag := by
  rw [renew]
  split <;> rfl

/-- A view without a registered process in which no task has magic time. -/
theorem owned_of_unset (hcons : Consistent v) (hm : v.magicProcess = none)
    (hzero : ∀ p, (v.task p).magicTime = 0) : Owned v where
  consistent := hcons
  unstarted _ p _ := hzero p
  others m hm' := by
    rw [hm] at hm'
    cases hm'
  noticed m hm' := by
    rw [hm] at hm'
    cases hm'
  placed m hm' := by
    rw [hm] at hm'
    cases hm'

theorem Owned.timer (h : Owned v) (ht : Timer v w) : Owned w := by
  have hcons := h.consistent.timer ht
  cases ht with
  | off htime => exact h
  | count htime => exact ⟨hcons, h.unstarted, h.others, h.noticed, h.placed⟩
  | expire htime hm =>
      refine owned_of_unset hcons rfl fun p => ?_
      simp only [View.exitFromMagic, Function.update_apply]
      split
      · rfl
      · rename_i hp
        exact h.others _ hm p hp

/-- What is left behind the magic segment: no registered process, or the current task is the
registered process and has time. -/
theorem Owned.segment (h : Owned v) (hseg : Segment v w) :
    (w.magicProcess = none ∧ ∀ p, p ≠ w.curr → (w.task p).magicTime = 0) ∨
    (w.magicProcess = some w.curr ∧ 0 < (w.task w.curr).magicTime ∧
      (∀ p, p ≠ w.curr → (w.task p).magicTime = 0) ∧ w.magicSleepFlag = false ∧
      w.globalMagicCallTime = (w.task w.curr).magicCallTime) := by
  cases hseg with
  | idle hm => exact Or.inl ⟨hm, h.unstarted hm⟩
  | ended hm hend => exact Or.inl ⟨rfl, fun p _ => h.exit_magicTime hm p⟩
  | kept hm hzombie htime hflag =>
      rename_i m
      have hpos := h.magicTime_pos hm htime
      rcases h.placed m hm with ⟨-, hsleep, hcurr⟩ | ⟨hidle, -⟩
      · refine Or.inr ?_
        rw [renew_curr, renew_task, renew_magicProcess, renew_magicSleepFlag, renew_noticed, hcurr]
        exact ⟨hm, hpos, h.others m hm, hsleep, rfl⟩
      · obtain ⟨-, m', hm', hstate⟩ := h.consistent.sleeper hidle
        rw [hm] at hm'
        cases hm'
        rcases hflag hidle with h1 | h1 <;> rcases hstate with h2 | h2 <;>
          rw [h1] at h2 <;> cases h2

theorem startUnlessStarted_magicTime (v : View) (p : TaskId) :
    (v.startUnlessStarted.task p).magicTime = (v.task p).magicTime ∧
      (v.startUnlessStarted.task p).magicCallTime = (v.task p).magicCallTime := by
  rw [View.startUnlessStarted]
  split
  · by_cases hp : p = v.curr
    · subst hp
      simp [startMagic]
    · simp [startMagic, hp]
  · exact ⟨rfl, rfl⟩

theorem startUnlessStarted_magicSleepFlag (v : View) :
    v.startUnlessStarted.magicSleepFlag = v.magicSleepFlag := by
  rw [View.startUnlessStarted]
  split <;> rfl

theorem unqueue_magicTime (v : View) (p q : TaskId) :
    ((v.unqueue p).task q).magicTime = (v.task q).magicTime ∧
      ((v.unqueue p).task q).magicCallTime = (v.task q).magicCallTime := by
  simp only [unqueue, modTask, Function.update_apply]
  split
  · rename_i hq
    rw [hq]
    exact ⟨rfl, rfl⟩
  · exact ⟨rfl, rfl⟩

/-- A view with a registered process that has magic time left. -/
theorem owned_of_process (hcons : Consistent v) {m : TaskId} (hm : v.magicProcess = some m)
    (hpos : 0 < (v.task m).magicTime) (hothers : ∀ p, p ≠ m → (v.task p).magicTime = 0)
    (hplaced : Placed m v) : Owned v where
  consistent := hcons
  unstarted hnone := by
    rw [hm] at hnone
    cases hnone
  others m' hm' := by
    rw [hm] at hm'
    cases hm'
    exact hothers
  noticed m' hm' hzero := by
    rw [hm] at hm'
    cases hm'
    rw [hzero] at hpos
    exact absurd hpos (UInt32.lt_irrefl 0)
  placed m' hm' := by
    rw [hm] at hm'
    cases hm'
    exact hplaced

theorem Owned.caught (h : Owned v) {n : TaskId} {u : View} (hseg : Segment v u)
    (hcaught : Caught u (.task n) w) (hcons : Consistent { w with curr := n }) :
    Owned { w with curr := n } := by
  have hpos := hcaught.magicTime_pos
  obtain ⟨hcons', hidle⟩ := h.consistent.segment hseg
  have hprocess := (hcons'.startUnlessStarted hpos fun m hm =>
    hseg.free_of_uncontested h.uncontested hpos hm).2
  have hsleep : u.magicSleepFlag = false := by
    rcases h.segment hseg with ⟨hm, -⟩ | ⟨-, -, -, hsleep, -⟩
    · exact (hcons'.unset hm).2.1
    · exact hsleep
  have hothers : ∀ p, p ≠ u.curr → (u.task p).magicTime = 0 := by
    rcases h.segment hseg with ⟨-, hothers⟩ | ⟨-, -, hothers, -⟩
    · exact hothers
    · exact hothers
  have hstart := u.startUnlessStarted_magicTime
  generalize hnext : Next.task n = next at hcaught
  cases hcaught with
  | sleep hint hmagic hqueued =>
      cases hnext
      have hunqueue := u.startUnlessStarted.unqueue_magicTime u.curr
      refine owned_of_process hcons hprocess ?_ ?_ (Or.inr ⟨rfl, rfl, ?_, ?_⟩)
      · rw [(hunqueue _).1, (hstart _).1]
        exact hpos
      · intro p hp
        rw [(hunqueue _).1, (hstart _).1]
        exact hothers p hp
      · exact u.startUnlessStarted_idle.symm
      · exact lt_of_lt_of_eq hpos ((hunqueue _).1.trans (hstart _).1).symm
  | run hrun hmagic hqueued =>
      rw [hprocess] at hnext
      cases hnext
      refine owned_of_process hcons hprocess ?_ ?_ (Or.inl ⟨?_, ?_, rfl⟩)
      · rw [(hstart _).1]
        exact hpos
      · intro p hp
        rw [(hstart _).1]
        exact hothers p hp
      · exact u.startUnlessStarted_idleFromMagic.trans hidle
      · exact u.startUnlessStarted_magicSleepFlag.trans hsleep
  | fallThrough hrun hint hmagic hqueued hstarted =>
      rw [startUnlessStarted_of_started hstarted] at hprocess
      rw [hprocess] at hnext
      cases hnext
      have hunqueue := u.unqueue_magicTime u.curr
      refine owned_of_process hcons hprocess ?_ ?_ (Or.inl ⟨hidle, hsleep, rfl⟩)
      · rw [(hunqueue _).1]
        exact hpos
      · intro p hp
        rw [(hunqueue _).1]
        exact hothers p hp

theorem Owned.select (h : Owned v) {Q : TaskId → Prop} {n : TaskId}
    (hselect : Select Q v (.task n) w) : Owned { w with curr := n } := by
  have hcons : Consistent { w with curr := n } :=
    h.consistent.select (fun u hseg hmagic m hm => hseg.free_of_uncontested h.uncontested hmagic hm)
      hselect
  generalize hnext : Next.task n = next at hselect
  cases hselect with
  | resume hm htime hflag hstate =>
      cases hnext
      refine owned_of_process hcons ((renew_magicProcess v n).trans hm) ?_ ?_ (Or.inl ⟨rfl, rfl, rfl⟩)
      · rw [renew_task]
        exact h.magicTime_pos hm htime
      · rw [renew_task]
        exact h.others n hm
  | wait hm htime hflag hstate =>
      cases hnext
      rename_i m
      have hpos : 0 < ((v.renew m).task m).magicTime := by
        rw [renew_task]
        exact h.magicTime_pos hm htime
      refine owned_of_process hcons ((renew_magicProcess v m).trans hm) hpos ?_
        (Or.inr ⟨?_, ?_, ?_, hpos⟩)
      · rw [renew_task]
        exact h.others m hm
      · exact (renew_idleFromMagic v m).trans hflag
      · rcases h.placed m hm with ⟨hidle, -⟩ | ⟨-, hsleep, -⟩
        · rw [hidle] at hflag
          cases hflag
        · exact (renew_magicSleepFlag v m).trans hsleep
      · exact (renew_idle v m).symm
  | caught hseg hcaught =>
      subst hnext
      exact h.caught hseg hcaught hcons
  | picked hseg hpassed hn =>
      rename_i u _
      rcases h.segment hseg with ⟨hm, hzero⟩ | ⟨-, hpos, -⟩
      · refine owned_of_unset hcons ?_ fun p => ?_
        · exact (congrArg Core.magicProcess hpassed.core_eq).trans hm
        · rw [(hpassed.task_eq p).2.1]
          by_cases hp : p = u.curr
          · rw [hp]
            exact hpassed.magicTime_eq
          · exact hzero p hp
      · rw [hpassed.magicTime_eq] at hpos
        exact absurd hpos (UInt32.lt_irrefl 0)

/-- A change of the current task that leaves its magic fields alone, or of a task without magic time. -/
theorem Owned.modTask (h : Owned v) {p : TaskId} {f : TaskView → TaskView}
    (hcons : Consistent (v.modTask p f))
    (hf : (f (v.task p)).magicTime = (v.task p).magicTime ∧
      (f (v.task p)).magicCallTime = (v.task p).magicCallTime) : Owned (v.modTask p f) := by
  have hsame : ∀ q, ((v.modTask p f).task q).magicTime = (v.task q).magicTime ∧
      ((v.modTask p f).task q).magicCallTime = (v.task q).magicCallTime := by
    intro q
    simp only [View.modTask, Function.update_apply]
    split
    · rename_i hq
      rw [hq]
      exact hf
    · exact ⟨rfl, rfl⟩
  refine ⟨hcons, ?_, ?_, ?_, ?_⟩
  · intro hm q hq
    rw [(hsame q).1]
    exact h.unstarted hm q hq
  · intro m hm q hq
    rw [(hsame q).1]
    exact h.others m hm q hq
  · intro m hm hzero
    rw [(hsame m).2]
    rw [(hsame m).1] at hzero
    exact h.noticed m hm hzero
  · intro m hm
    rcases h.placed m hm with hrun | ⟨hidle, hsleep, hcurr, hpos⟩
    · exact Or.inl hrun
    · exact Or.inr ⟨hidle, hsleep, hcurr, lt_of_lt_of_eq hpos (hsame m).1.symm⟩

theorem Owned.fork (h : Owned v) {child : TaskId} (hcons : Consistent (v.fork child))
    (hchild : ∀ m, v.magicProcess = some m → child ≠ m) : Owned (v.fork child) := by
  have hzero : ∀ q, (v.task q).magicTime = 0 → ((v.fork child).task q).magicTime = 0 := by
    intro q hq
    simp only [View.fork, Function.update_apply]
    split
    · rfl
    · exact hq
  have hsame : ∀ m, v.magicProcess = some m → (v.fork child).task m = v.task m :=
    fun m hm => Function.update_of_ne (hchild m hm).symm _ _
  refine ⟨hcons, ?_, ?_, ?_, ?_⟩
  · exact fun hm q hq => hzero q (h.unstarted hm q hq)
  · exact fun m hm q hq => hzero q (h.others m hm q hq)
  · intro m hm hz
    rw [hsame m hm] at hz ⊢
    exact h.noticed m hm hz
  · intro m hm
    rcases h.placed m hm with hrun | ⟨hidle, hsleep, hcurr, hpos⟩
    · exact Or.inl hrun
    · refine Or.inr ⟨hidle, hsleep, hcurr, ?_⟩
      rw [hsame m hm]
      exact hpos

/-- The current task, which is registered, asks for no magic in the very jiffy of the call that was
last taken note of. -/
def LostCancel (v : View) (e : Event) : Prop :=
  ∃ seconds, e = .magicClock seconds ∧ seconds * UInt32.ofNat hz = 0 ∧
    (v.task v.curr).holdingWand = true ∧ v.magicProcess = some v.curr ∧
    v.jiffies = v.globalMagicCallTime

theorem Owned.magicClock (h : Owned v) (hcurr : v.curr ≠ v.idle) {seconds : UInt32}
    (hcons : Consistent (v.magicClock seconds)) (hlost : ¬LostCancel v (.magicClock seconds)) :
    Owned (v.magicClock seconds) := by
  rw [View.magicClock] at hcons ⊢
  split
  · rename_i hwand
    rw [if_pos hwand] at hcons
    have hother : ∀ q, q ≠ v.curr → ((v.modTask v.curr fun t =>
        { t with magicTime := seconds * UInt32.ofNat hz, magicCallTime := v.jiffies }).task q) =
          v.task q := fun q hq => Function.update_of_ne hq _ _
    refine ⟨hcons, ?_, ?_, ?_, ?_⟩
    · intro hm q hq
      rw [hother q hq]
      exact h.unstarted hm q hq
    · intro m hm q hq
      rcases h.placed m hm with ⟨-, -, hm'⟩ | ⟨-, -, hidle, -⟩
      · rw [hother q (by rw [hm']; exact hq)]
        exact h.others m hm q hq
      · exact absurd hidle hcurr
    · intro m hm hzero
      rcases h.placed m hm with ⟨-, -, hm'⟩ | ⟨-, -, hidle, -⟩
      · subst hm'
        simp only [View.modTask, Function.update_self] at hzero ⊢
        exact fun hstamp => hlost ⟨seconds, rfl, hzero, hwand, hm, hstamp.symm⟩
      · exact absurd hidle hcurr
    · intro m hm
      rcases h.placed m hm with hrun | ⟨-, -, hidle, -⟩
      · exact Or.inl hrun
      · exact absurd hidle hcurr
  · exact h

theorem Owned.step (h : Owned v) (hbase : Base v) {last : Bool} {e : Event}
    (hstep : Step last v e w) (hlost : ¬LostCancel v e) : Owned w := by
  have hcons := h.consistent.step hbase hstep fun _ => h.uncontested
  cases hstep with
  | tick ht =>
      have howned : Owned { v with jiffies := v.jiffies + 1 } := by
        obtain ⟨hcons, hunstarted, hothers, hnoticed, hplaced⟩ := h
        exact ⟨⟨hcons.time_iff, hcons.unset, hcons.started_iff, hcons.zombie, hcons.sleeper⟩,
          hunstarted, hothers, hnoticed, hplaced⟩
      exact howned.timer ht
  | wake hp hidle => exact h.modTask hcons ⟨rfl, rfl⟩
  | signal => exact h
  | setState hidle => exact h.modTask hcons ⟨rfl, rfl⟩
  | schedule hselect => exact h.select hselect
  | yield hidle hselect => exact h.select hselect
  | fork hidle hnew hlast =>
      have hfork := h.consistent.fork (hbase.child_ne_process hnew)
      exact (h.fork hfork (hbase.child_ne_process hnew)).modTask hcons ⟨rfl, rfl⟩
  | forkTick hidle hnew hlast ht =>
      have hfork := h.consistent.fork (hbase.child_ne_process hnew)
      exact ((h.fork hfork (hbase.child_ne_process hnew)).timer ht).modTask hcons ⟨rfl, rfl⟩
  | release hidle hp hcurr hstate hqueued =>
      exact ⟨hcons, h.unstarted, h.others, h.noticed, h.placed⟩
  | getWand hidle => exact h.modTask hcons ⟨rfl, rfl⟩
  | magicClock hidle => exact h.magicClock hidle hcons hlost

end View

/-! ### Reachable states -/

/-- The current task, which is registered, calls `sys_magic_clock` with an argument that stores no magic
time, in the jiffy of the call that `schedule()` last took note of: the cancellation goes
unnoticed. -/
def LostCancel (s : State) (e : Event) : Prop :=
  ∃ seconds, e = .magicClock seconds ∧ seconds * UInt32.ofNat hz = 0 ∧
    (s.task s.curr).holdingWand = true ∧ s.magicProcess = some s.curr ∧
    s.jiffies = s.globalMagicCallTime

instance (s : State) (e : Event) : Decidable (LostCancel s e) :=
  match e with
  | .magicClock seconds => decidable_of_iff (seconds * UInt32.ofNat hz = 0 ∧
      (s.task s.curr).holdingWand = true ∧ s.magicProcess = some s.curr ∧
      s.jiffies = s.globalMagicCallTime)
      ⟨fun h => ⟨seconds, rfl, h⟩, fun ⟨_, he, h⟩ => by cases he; exact h⟩
  | .tick | .wake _ | .signal _ _ | .setState _ | .schedule | .yield | .fork _ _ | .release _
  | .getWand => .isFalse fun ⟨_, he, _⟩ => by cases he

theorem owned_of_noMagic {s : State} (h : NoMagic s) : s.view.Owned :=
  View.owned_of_unset (consistent_of_noMagic h) h.magicProcess h.magicTime

theorem owned_of_reachable {C : State → Event → Prop} (hC : ∀ s e, C s e → ¬LostCancel s e)
    {s : State} (h : (machine.restrict C).Reachable Initial s) : s.view.Owned := by
  refine reachable_view (fun s hs => owned_of_noMagic hs.noMagic) ?_ h
  intro s e w hsound howned hc hstep
  exact howned.step hsound.base hstep (hC s e hc)

end MagicKernel.Sched
