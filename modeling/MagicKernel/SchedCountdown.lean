import MagicKernel.SchedRequest

/-! The length of a magic period, counted in timer interrupts. From the call of `schedule()` that sets
`MAGICTIME`, by `start_magic` or `update_magic`, the counter goes down by one with every interrupt and
the period ends with the last. The exception is `do_fork`, which calls `scheduler_tick` when the parent
gives away its last jiffy: it takes a jiffy off the period without an interrupt. -/

namespace MagicKernel.Sched

open FaultMachine

namespace View

variable {v w : View} {A : TaskId}

/-! ### Registered processes -/

/-- A registered process has started its period, and is itself the next to call `schedule()` when it has
made a request that has not been noticed. -/
structure Registered (v : View) : Prop where
  started : ∀ m, v.magicProcess = some m → (v.task m).startedMagic = true
  unseen : ∀ m, v.magicProcess = some m → v.globalMagicCallTime ≠ (v.task m).magicCallTime → v.curr = m

/-- No request of a registered process is left to be noticed. -/
structure Noticed (v : View) : Prop where
  started : ∀ m, v.magicProcess = some m → (v.task m).startedMagic = true
  stamp : ∀ m, v.magicProcess = some m → v.globalMagicCallTime = (v.task m).magicCallTime

theorem renew_stamp (v : View) (m : TaskId) : (v.renew m).globalMagicCallTime = (v.task m).magicCallTime := by
  rw [renew]
  split
  · rfl
  · rename_i h
    exact not_not.1 h

theorem Noticed.congr (h : Noticed v) (hm : w.magicProcess = v.magicProcess)
    (hstamp : w.globalMagicCallTime = v.globalMagicCallTime)
    (htask : ∀ p, (w.task p).startedMagic = (v.task p).startedMagic ∧
      (w.task p).magicCallTime = (v.task p).magicCallTime) : Noticed w := by
  obtain ⟨hstarted, hnoticed⟩ := h
  constructor <;> simp only [hm, hstamp, htask] <;> assumption

theorem Noticed.registered (h : Noticed v) (n : TaskId) : Registered { v with curr := n } :=
  ⟨h.started, fun m hm hne => absurd (h.stamp m hm) hne⟩

theorem Registered.renew (h : Registered v) {m : TaskId} (hm : v.magicProcess = some m) :
    Noticed (v.renew m) := by
  have htask := renew_task v m
  have hstamp := renew_stamp v m
  have hstarted := h.started m hm
  have hprocess := renew_magicProcess v m
  constructor <;> intro m' hm' <;> rw [hprocess, hm] at hm' <;> cases hm' <;> rw [htask] <;> assumption

theorem noticed_of_none (h : v.magicProcess = none) : Noticed v := by
  constructor <;> intro m hm <;> rw [h] at hm <;> cases hm

theorem Registered.segment (h : Registered v) (hseg : Segment v w) : Noticed w := by
  cases hseg with
  | idle hm => exact noticed_of_none hm
  | ended hm hend => exact noticed_of_none rfl
  | kept hm hzombie htime hflag => exact h.renew hm

theorem Noticed.startUnlessStarted (h : Noticed v) : Noticed v.startUnlessStarted := by
  rw [View.startUnlessStarted]
  split
  · constructor
    · intro m hm
      cases hm
      simp [startMagic]
    · intro m hm
      cases hm
      simp [startMagic]
  · exact h

theorem Noticed.unqueue (h : Noticed v) (p : TaskId) : Noticed (v.unqueue p) := by
  refine h.congr rfl rfl fun q => ?_
  simp only [View.unqueue, modTask, Function.update_apply]
  split
  · rename_i hq
    rw [hq]
    exact ⟨rfl, rfl⟩
  · exact ⟨rfl, rfl⟩

/-- A completed `schedule()` has noticed every request. -/
theorem Registered.select (h : Registered v) {Q : TaskId → Prop} {n : Next} (hselect : Select Q v n w) :
    Noticed w := by
  cases hselect with
  | resume hm htime hflag hstate => exact (h.renew hm).congr rfl rfl fun _ => ⟨rfl, rfl⟩
  | wait hm htime hflag hstate => exact h.renew hm
  | caught hseg hcaught =>
      have hnoticed := h.segment hseg
      cases hcaught with
      | sleep hstate hmagic hqueued =>
          exact (hnoticed.startUnlessStarted.unqueue _).congr rfl rfl fun _ => ⟨rfl, rfl⟩
      | run hstate hmagic hqueued => exact hnoticed.startUnlessStarted
      | fallThrough hrun hint hmagic hqueued hstarted => exact hnoticed.unqueue _
  | picked hseg hpassed hn =>
      have hcore := hpassed.core_eq
      refine (h.segment hseg).congr ?_ ?_ fun p => (hpassed.task_eq p).2.2
      · exact congrArg (fun c : Core => c.magicProcess) hcore
      · exact congrArg (fun c : Core => c.globalMagicCallTime) hcore

theorem Registered.congr (h : Registered v) (hm : w.magicProcess = v.magicProcess)
    (hstamp : w.globalMagicCallTime = v.globalMagicCallTime) (hcurr : w.curr = v.curr)
    (htask : ∀ p, v.magicProcess = some p → (w.task p).startedMagic = (v.task p).startedMagic ∧
      ((w.task p).magicCallTime = (v.task p).magicCallTime ∨ p = v.curr)) : Registered w := by
  constructor
  · intro m hprocess
    rw [hm] at hprocess
    rw [(htask m hprocess).1]
    exact h.started m hprocess
  · intro m hprocess hne
    rw [hm] at hprocess
    rw [hstamp] at hne
    rw [hcurr]
    rcases (htask m hprocess).2 with heq | heq
    · rw [heq] at hne
      exact h.unseen m hprocess hne
    · exact heq.symm

theorem Registered.timer (h : Registered v) (ht : Timer v w) : Registered w := by
  cases ht with
  | off htime => exact h
  | count htime => exact h.congr rfl rfl rfl fun _ _ => ⟨rfl, Or.inl rfl⟩
  | expire htime hm => exact (noticed_of_none (v := v.exitFromMagic _) rfl).registered v.curr

/-- A change of a task that may be a new request of the current one. -/
theorem Registered.modTask (h : Registered v) {p : TaskId} {f : TaskView → TaskView}
    (hf : ∀ t, (f t).startedMagic = t.startedMagic ∧ ((f t).magicCallTime = t.magicCallTime ∨ p = v.curr)) :
    Registered (v.modTask p f) := by
  refine h.congr rfl rfl rfl fun q _ => ?_
  simp only [View.modTask, Function.update_apply]
  split
  · rename_i hq
    rw [hq]
    exact hf _
  · exact ⟨rfl, Or.inl rfl⟩

theorem Registered.fork (h : Registered v) {child : TaskId} (hchild : ∀ m, v.magicProcess = some m → child ≠ m) :
    Registered (v.fork child) := by
  refine h.congr rfl rfl rfl fun m hm => ?_
  have htask : (v.fork child).task m = v.task m := Function.update_of_ne (hchild m hm).symm _ _
  rw [htask]
  exact ⟨rfl, Or.inl rfl⟩

theorem Registered.step (h : Registered v) (hbase : Base v) {last : Bool} {e : Event} (hstep : Step last v e w) :
    Registered w := by
  cases hstep with
  | tick ht =>
      have h' : Registered { v with jiffies := v.jiffies + 1 } := h.congr rfl rfl rfl fun _ _ => ⟨rfl, Or.inl rfl⟩
      exact h'.timer ht
  | wake hp hidle => exact h.modTask fun _ => ⟨rfl, Or.inl rfl⟩
  | signal => exact h
  | setState hidle => exact h.modTask fun _ => ⟨rfl, Or.inl rfl⟩
  | schedule hselect => exact (h.select hselect).registered _
  | yield hidle hselect => exact (h.select hselect).registered _
  | fork hidle hfree hlast =>
      exact (h.fork (hbase.child_ne_process hfree)).modTask fun _ => ⟨rfl, Or.inl rfl⟩
  | forkTick hidle hfree hlast ht =>
      exact ((h.fork (hbase.child_ne_process hfree)).timer ht).modTask fun _ => ⟨rfl, Or.inl rfl⟩
  | release hidle hp hcurr hstate hqueued => exact h.congr rfl rfl rfl fun _ _ => ⟨rfl, Or.inl rfl⟩
  | getWand hidle => exact h.modTask fun _ => ⟨rfl, Or.inl rfl⟩
  | magicClock hidle =>
      rw [View.magicClock]
      split
      · exact h.modTask fun _ => ⟨rfl, Or.inr rfl⟩
      · exact h

/-! ### The countdown -/

/-- The period of `A` counts down: `schedule()` sees no request in it and no end to it. -/
structure Counting (A : TaskId) (v : View) : Prop extends Period A v where
  stamp : v.globalMagicCallTime = (v.task A).magicCallTime
  magic : 0 < (v.task A).magicTime
  alive : (v.task A).state ≠ .zombie

theorem Counting.renew_eq (h : Counting A v) : v.renew A = v := by
  rw [renew]
  exact if_neg (not_not.2 h.stamp)

theorem Counting.congr (h : Counting A v) (hperiod : Period A w)
    (hstamp : w.globalMagicCallTime = v.globalMagicCallTime)
    (htask : (w.task A).magicTime = (v.task A).magicTime ∧ (w.task A).magicCallTime = (v.task A).magicCallTime)
    (halive : (w.task A).state ≠ .zombie) : Counting A w := by
  refine ⟨hperiod, ?_, ?_, halive⟩
  · rw [hstamp, htask.2, h.stamp]
  · rw [htask.1]
    exact h.magic

/-- While the period counts down the magic segment does nothing. -/
theorem Counting.segment (h : Counting A v) (hseg : Segment v w) : w = v ∧ v.curr = A := by
  have hrenew := h.renew_eq
  rcases h.toPeriod.segment hseg with rfl | ⟨rfl, -, hcurr⟩
  · generalize hw : (v.renew A).exitFromMagic A = w at hseg
    cases hseg with
    | idle hm =>
        rw [h.process] at hm
        cases hm
    | ended hm hend =>
        rw [h.process] at hm
        cases hm
        rw [hrenew] at hend
        exact absurd hend (not_or.2 ⟨h.alive, h.time⟩)
    | kept hm hzombie htime hflag =>
        have hprocess : none = (v.renew _).magicProcess := congrArg (fun u : View => u.magicProcess) hw
        rw [renew_magicProcess, hm] at hprocess
        cases hprocess
  · exact ⟨hrenew, hcurr⟩

/-- The fields of `A` that the countdown rests on survive a call of `schedule()`. -/
theorem Counting.select_fields (h : Counting A v) {Q : TaskId → Prop} {n : Next} (hselect : Select Q v n w) :
    w.MAGICTIME = v.MAGICTIME ∧ (w.task A).startedMagic = true ∧ (w.task A).magicTime = (v.task A).magicTime ∧
      w.magicProcess = some A := by
  have hrenew := h.renew_eq
  have hprocess := h.process
  have hstarted := h.started
  cases hselect with
  | resume hm htime hflag hstate =>
      rw [hprocess] at hm
      cases hm
      rw [hrenew]
      exact ⟨rfl, hstarted, rfl, hprocess⟩
  | wait hm htime hflag hstate =>
      rw [hprocess] at hm
      cases hm
      rw [hrenew]
      exact ⟨rfl, hstarted, rfl, hprocess⟩
  | caught hseg hcaught =>
      obtain ⟨rfl, hcurr⟩ := h.segment hseg
      have hstart := startUnlessStarted_of_started (by rw [hcurr]; exact hstarted)
      cases hcaught with
      | sleep hstate hmagic hqueued =>
          rw [hstart]
          simp only [unqueue, modTask, hcurr, Function.update_self]
          exact ⟨trivial, hstarted, trivial, hprocess⟩
      | run hstate hmagic hqueued =>
          rw [hstart]
          exact ⟨rfl, hstarted, rfl, hprocess⟩
      | fallThrough hrun hint hmagic hqueued hstarted' =>
          simp only [unqueue, modTask, hcurr, Function.update_self]
          exact ⟨trivial, hstarted, trivial, hprocess⟩
  | picked hseg hpassed hn =>
      obtain ⟨rfl, hcurr⟩ := h.segment hseg
      have hzero := hpassed.magicTime_eq
      have hmagic := h.magic
      rw [hcurr] at hzero
      rw [hzero] at hmagic
      exact absurd hmagic (UInt32.lt_irrefl 0)

theorem Counting.registered (h : Counting A v) : Registered v := by
  constructor <;> intro m hm <;> rw [h.process] at hm <;> cases hm
  · exact h.started
  · intro hne
    exact absurd h.stamp hne

theorem Counting.select (h : Counting A v) (hbase : Base v) {Q : TaskId → Prop} {n : TaskId}
    (hselect : Select Q v (.task n) w) : Counting A { w with curr := n } ∧ w.MAGICTIME = v.MAGICTIME := by
  obtain ⟨htime, hstarted, hmagic, hprocess⟩ := h.select_fields hselect
  have hnoticed := h.registered.select hselect
  have hperiod := (h.toPeriod.select hbase h.magic hselect hstarted).1
  refine ⟨⟨hperiod, hnoticed.stamp A hprocess, ?_, hselect.process_ne_zombie hprocess⟩, htime⟩
  show 0 < (w.task A).magicTime
  rw [hmagic]
  exact h.magic

/-- A timer interrupt takes one off the count, and the last ends the period. -/
theorem Counting.timer (h : Counting A v) (hpos : 0 < v.MAGICTIME) (ht : Timer v w) :
    (v.MAGICTIME = 1 ∧ w = v.exitFromMagic A) ∨ (Counting A w ∧ w.MAGICTIME = v.MAGICTIME - 1) := by
  cases ht with
  | off hoff => omega
  | count hcount =>
      have hperiod : Period A { v with MAGICTIME := v.MAGICTIME - 1 } :=
        ⟨h.process, h.started, by dsimp only; omega, h.running⟩
      exact Or.inr ⟨h.congr hperiod rfl ⟨rfl, rfl⟩ h.alive, rfl⟩
  | expire hone hm =>
      rw [h.process] at hm
      cases hm
      exact Or.inl ⟨hone, rfl⟩

/-- A step of the processor's own that neither ticks, nor makes `A` die or ask again, leaves the count. -/
theorem Counting.step (h : Counting A v) (hbase : Base v) {last : Bool} {e : Event} (hstep : Step last v e w)
    (htick : e ≠ .tick) (hlast : ∀ child vfork, e = .fork child vfork → last = false)
    (hdies : v.curr = A → e ≠ .setState .zombie) (hclock : v.curr = A → ∀ seconds, e ≠ .magicClock seconds) :
    Counting A w ∧ w.MAGICTIME = v.MAGICTIME := by
  have hfree : ∀ child, v.allocated child = false → child ≠ A :=
    fun child hfree => hbase.child_ne_process hfree A h.process
  -- only a process in its period, or the idle task, is current
  have hcurr : v.curr ≠ v.idle → v.curr = A := fun hne => h.running.resolve_right fun hidle => hne hidle.1
  cases hstep with
  | tick ht => exact absurd rfl htick
  | wake hp hidle =>
      refine ⟨h.congr (h.toPeriod.wake _) rfl ?_ ?_, rfl⟩
      · simp only [View.wake, modTask, Function.update_apply]
        split
        · rename_i hA
          rw [hA]
          exact ⟨rfl, rfl⟩
        · exact ⟨rfl, rfl⟩
      · simp only [View.wake, modTask, Function.update_apply]
        split
        · exact TaskState.noConfusion
        · exact h.alive
  | signal => exact ⟨h, rfl⟩
  | setState hidle =>
      have hA := hcurr hidle
      refine ⟨h.congr (h.toPeriod.setState hidle) rfl ?_ ?_, rfl⟩
      · simp only [View.setState, modTask, hA, Function.update_self, and_self]
      · simp only [View.setState, modTask, hA, Function.update_self]
        exact fun hzombie => hdies hA (congrArg Event.setState hzombie)
  | schedule hselect => exact h.select hbase hselect
  | yield hidle hselect => exact h.select hbase hselect
  | @fork child _ hidle hnew hlast' =>
      have htask : ((v.fork child).wake child).task A = v.task A := by
        simp only [View.wake, modTask, View.fork, Function.update_of_ne (hfree _ hnew).symm]
      refine ⟨h.congr ((h.toPeriod.fork (hfree _ hnew)).wake _) rfl ?_ ?_, rfl⟩
      · rw [htask]
        exact ⟨rfl, rfl⟩
      · rw [htask]
        exact h.alive
  | forkTick hidle hnew hlast' ht =>
      rw [hlast _ _ rfl] at hlast'
      cases hlast'
  | release hidle hp hne hstate hqueued =>
      exact ⟨h.congr ⟨h.process, h.started, h.time, h.running⟩ rfl ⟨rfl, rfl⟩ h.alive, rfl⟩
  | getWand hidle =>
      refine ⟨h.congr (h.toPeriod.modCurr fun _ => ⟨rfl, rfl⟩) rfl ?_ ?_, rfl⟩
      · simp only [modTask, hcurr hidle, Function.update_self, and_self]
      · simp only [modTask, hcurr hidle, Function.update_self]
        exact h.alive
  | magicClock hidle => exact absurd rfl (hclock (hcurr hidle) _)

/-! ### The call that sets the count -/

/-- A process that is still registered after its own call of `schedule()` was neither a zombie nor out of
time. -/
theorem Select.kept_of_process {Q : TaskId → Prop} {n : Next} (hselect : Select Q v n w)
    (hm : v.magicProcess = some A) (hcurr : v.curr = A) (hprocess : w.magicProcess = some A) :
    (v.task A).state ≠ .zombie ∧ (v.renew A).MAGICTIME ≠ 0 := by
  cases hselect with
  | resume hm' htime hflag hstate =>
      rw [hm] at hm'
      cases hm'
      rw [hstate]
      exact ⟨TaskState.noConfusion, htime⟩
  | wait hm' htime hflag hstate =>
      rw [hm] at hm'
      cases hm'
      rw [hstate]
      exact ⟨TaskState.noConfusion, htime⟩
  | caught hseg hcaught =>
      have hpos := hcaught.magicTime_pos
      cases hseg with
      | idle hnone =>
          rw [hm] at hnone
          cases hnone
      | ended hm' hend =>
          -- the segment has cleared the magic time of its caller
          rw [hm] at hm'
          cases hm'
          have hcurr' : ((v.renew A).exitFromMagic A).curr = A := (renew_curr v A).trans hcurr
          rw [hcurr'] at hpos
          simp [exitFromMagic] at hpos
      | kept hm' hzombie htime hflag =>
          rw [hm] at hm'
          cases hm'
          exact ⟨hzombie, htime⟩
  | picked hseg hpassed hn =>
      rw [hpassed.core_eq] at hprocess
      obtain ⟨-, -, hzombie, htime⟩ := hseg.kept_of_process hprocess
      exact ⟨hzombie, htime⟩

theorem renew_renew (v : View) (m : TaskId) : (v.renew m).renew m = v.renew m := by
  have hstamp := renew_stamp v m
  rw [← congrFun (renew_task v m) m] at hstamp
  conv_lhs => rw [renew]
  exact if_neg (not_not.2 hstamp)

theorem Segment.of_renew (hm : v.magicProcess = some A) (hseg : Segment v w) : Segment (v.renew A) w := by
  have htask := renew_task v A
  have hprocess := (renew_magicProcess v A).trans hm
  have hrenew := renew_renew v A
  cases hseg with
  | idle hnone =>
      rw [hm] at hnone
      cases hnone
  | ended hm' hend =>
      rw [hm] at hm'
      cases hm'
      have hseg := Segment.ended (v := v.renew A) hprocess (by rw [hrenew, htask]; exact hend)
      rwa [hrenew] at hseg
  | kept hm' hzombie htime hflag =>
      rw [hm] at hm'
      cases hm'
      have hseg := Segment.kept (v := v.renew A) hprocess (by rw [htask]; exact hzombie)
        (by rw [hrenew]; exact htime) (by rw [renew_idleFromMagic, htask]; exact hflag)
      rwa [hrenew] at hseg

/-- `schedule()` after the update of the timer is `schedule()`. -/
theorem Select.of_renew (hm : v.magicProcess = some A) {Q : TaskId → Prop} {n : Next}
    (hselect : Select Q v n w) : Select Q (v.renew A) n w := by
  have htask := renew_task v A
  have hprocess := (renew_magicProcess v A).trans hm
  have hrenew := renew_renew v A
  cases hselect with
  | resume hm' htime hflag hstate =>
      rw [hm] at hm'
      cases hm'
      have hselect := Select.resume (Q := Q) (v := v.renew A) hprocess (by rw [hrenew]; exact htime)
        (by rw [renew_idleFromMagic]; exact hflag) (by rw [htask]; exact hstate)
      rwa [hrenew] at hselect
  | wait hm' htime hflag hstate =>
      rw [hm] at hm'
      cases hm'
      have hselect := Select.wait (Q := Q) (v := v.renew A) hprocess (by rw [hrenew]; exact htime)
        (by rw [renew_idleFromMagic]; exact hflag) (by rw [htask]; exact hstate)
      rwa [hrenew, renew_idle] at hselect
  | caught hseg hcaught => exact .caught (hseg.of_renew hm) hcaught
  | picked hseg hpassed hn => exact .picked (hseg.of_renew hm) hpassed hn

/-- The timer update starts the countdown of its process. -/
theorem Registered.counting (h : Registered v) (hm : v.magicProcess = some A)
    (hunseen : v.globalMagicCallTime ≠ (v.task A).magicCallTime) (halive : (v.task A).state ≠ .zombie)
    (htime : (v.renew A).MAGICTIME ≠ 0) : Counting A (v.renew A) := by
  have htask := renew_task v A
  have hcurr := h.unseen A hm hunseen
  refine ⟨⟨(renew_magicProcess v A).trans hm, ?_, htime, Or.inl ((renew_curr v A).trans hcurr)⟩, ?_, ?_, ?_⟩
  · rw [htask]
    exact h.started A hm
  · rw [renew_stamp, htask]
  · rw [htask, UInt32.pos_iff_ne_zero]
    intro hzero
    apply htime
    rw [View.renew, if_pos hunseen, hzero]
    rfl
  · rw [htask]
    exact halive

/-- A task whose period `schedule()` starts has magic time. -/
theorem Select.magicTime_pos {Q : TaskId → Prop} {n : Next} (hselect : Select Q v n w)
    (h : (v.task A).startedMagic = false) (hstarted : (w.task A).startedMagic = true) :
    0 < (w.task A).magicTime := by
  cases hselect with
  | resume hm htime hflag hstate =>
      rw [renew_task, h] at hstarted
      cases hstarted
  | wait hm htime hflag hstate =>
      rw [renew_task, h] at hstarted
      cases hstarted
  | caught hseg hcaught =>
      have h := hseg.not_started h
      cases hcaught with
      | sleep hint hmagic hqueued =>
          rename_i u
          by_cases hA : A = u.curr
          · subst hA
            simp only [unqueue, modTask, Function.update_self]
            simp only [startUnlessStarted, if_pos h, startMagic, Function.update_self]
            exact hmagic
          · simp only [unqueue, modTask, Function.update_of_ne hA] at hstarted
            exact absurd (startUnlessStarted_period hmagic h hstarted).1 hA
      | run hrun hmagic hqueued =>
          obtain ⟨rfl, -, -⟩ := startUnlessStarted_period hmagic h hstarted
          simp only [startUnlessStarted, if_pos h, startMagic, Function.update_self]
          exact hmagic
      | fallThrough hrun hint hmagic hqueued hcurr =>
          rename_i u
          by_cases hA : A = u.curr
          · rw [hA, hcurr] at h
            cases h
          · simp only [unqueue, modTask, Function.update_of_ne hA] at hstarted
            rw [h] at hstarted
            cases hstarted
  | picked hseg hpassed hn =>
      rw [(hpassed.task_eq A).2.2.1, hseg.not_started h] at hstarted
      cases hstarted

/-- After a `schedule()` that starts the period of `A`, or notices a request of `A`, and leaves `A`
registered, the period counts down. -/
theorem Registered.counting_of_select (h : Registered v) (hbase : Base v) {Q : TaskId → Prop} {n : TaskId}
    (hselect : Select Q v (.task n) w) (hprocess : w.magicProcess = some A)
    (hset : (v.task A).startedMagic = false ∨
      (v.magicProcess = some A ∧ v.globalMagicCallTime ≠ (v.task A).magicCallTime)) :
    Counting A { w with curr := n } := by
  rcases hset with hbefore | ⟨hm, hunseen⟩
  · have hnoticed := h.select hselect
    have hstarted := hnoticed.started A hprocess
    exact ⟨(hselect.period hbefore hstarted).1, hnoticed.stamp A hprocess, hselect.magicTime_pos hbefore hstarted,
      hselect.process_ne_zombie hprocess⟩
  · obtain ⟨halive, htime⟩ := hselect.kept_of_process hm (h.unseen A hm hunseen) hprocess
    exact ((h.counting hm hunseen halive htime).select (hbase.renew A) (hselect.of_renew hm)).1

end View

/-! ### Runs of a period -/

theorem registered_of_reachable {s : State} (h : machine.Reachable Initial s) : s.view.Registered := by
  refine h.invariant (I := fun s => s.view.Registered) ?_ ?_
  · intro s hs
    have hnone : s.view.magicProcess = none := hs.noMagic.magicProcess
    exact (View.noticed_of_none hnone).registered s.view.curr
  · intro s e s' hreach hregistered hstep
    have hsound := sound_of_reachable hreach
    exact hregistered.step hsound.base (hsound.view_step hstep)

/-- The step executes `start_magic` or `update_magic` for `A`, and `A` is registered after it. -/
def SetsTimer (A : TaskId) (s : State) (e : Event) (s' : State) : Prop :=
  (e = .schedule ∨ e = .yield) ∧ s'.magicProcess = some A ∧
    ((s.task A).startedMagic = false ∨
      (s.magicProcess = some A ∧ s.globalMagicCallTime ≠ (s.task A).magicCallTime))

/-- `A` neither dies nor calls `sys_magic_clock`. -/
def LeavesTimer (A : TaskId) (s : State) (e : Event) : Prop :=
  s.curr = A → e ≠ .setState .zombie ∧ ∀ seconds, e ≠ .magicClock seconds

/-- A fork by a task in the last jiffy of its slice, for which `do_fork` calls `scheduler_tick`. -/
def ForkTicks (s : State) (e : Event) : Prop :=
  (∃ child vfork, e = .fork child vfork) ∧ (s.task s.curr).timeSlice = 1

theorem counting_of_setsTimer {A : TaskId} {s s' : State} {e : Event} (hreach : machine.Reachable Initial s)
    (hstep : machine.Step s e s') (hset : SetsTimer A s e s') : s'.view.Counting A := by
  have hsound := sound_of_reachable hreach
  have hregistered := registered_of_reachable hreach
  obtain ⟨he, hprocess, hset⟩ := hset
  obtain ⟨n, w, hselect, hw⟩ := hsound.select hstep he
  have hprocess' : w.magicProcess = some A :=
    (congrArg (fun v : View => v.magicProcess) hw).symm.trans hprocess
  rw [hw]
  exact hregistered.counting_of_select hsound.base hselect hprocess' hset

/-- A step of the countdown: an interrupt takes one off, nothing else changes the count. -/
theorem counting_step {A : TaskId} {s s' : State} {e : Event} (hreach : machine.Reachable Initial s)
    (h : s.view.Counting A) (htime : 0 < s.MAGICTIME) (hleaves : LeavesTimer A s e) (hfork : ¬ForkTicks s e)
    (hgoes : e = .tick → s.MAGICTIME ≠ 1) (hstep : machine.Step s e s') :
    s'.view.Counting A ∧ s'.MAGICTIME = s.MAGICTIME - if e = .tick then 1 else 0 := by
  have hsound := sound_of_reachable hreach
  have hview := hsound.view_step hstep
  by_cases he : e = .tick
  · subst he
    have h' : View.Counting A { s.view with jiffies := s.jiffies + 1 } :=
      h.congr ⟨h.process, h.started, h.time, h.running⟩ rfl ⟨rfl, rfl⟩ h.alive
    generalize hv : s'.view = v' at hview
    cases hview with
    | tick ht =>
        rcases h'.timer htime ht with ⟨hone, -⟩ | ⟨hcounting, htime'⟩
        · exact absurd hone (hgoes rfl)
        · subst hv
          exact ⟨hcounting, htime'⟩
  · rw [if_neg he, Int.sub_zero]
    refine h.step hsound.base hview he ?_ ?_ ?_
    · intro child vfork hc
      exact decide_eq_false fun hlast => hfork ⟨⟨child, vfork, hc⟩, hlast⟩
    · exact fun hcurr => (hleaves hcurr).1
    · exact fun hcurr => (hleaves hcurr).2

theorem counting_of_run {A : TaskId} {s s' : State} {es : List Event} (hreach : machine.Reachable Initial s)
    (h : s.view.Counting A)
    (hrun : (machine.restrict fun s e => LeavesTimer A s e ∧ ¬ForkTicks s e).Run s es s')
    (hticks : (es.count .tick : Int) < s.MAGICTIME) :
    machine.Reachable Initial s' ∧ s'.view.Counting A ∧ s'.MAGICTIME = s.MAGICTIME - es.count .tick := by
  induction hrun with
  | nil s => exact ⟨hreach, h, (Int.sub_zero _).symm⟩
  | @cons s s₁ s₂ e es hstep hrest ih =>
      obtain ⟨⟨hleaves, hfork⟩, hstep⟩ := Machine.restrict_step.1 hstep
      have hcount : ((e :: es).count .tick : Int) = es.count .tick + if e = .tick then 1 else 0 := by
        rw [List.count_cons]
        by_cases he : e = .tick <;> simp [he]
      rw [hcount] at hticks ⊢
      have hgoes : e = .tick → s.MAGICTIME ≠ 1 := by
        intro he hone
        rw [if_pos he, hone] at hticks
        omega
      have hpos : 0 < s.MAGICTIME := by
        split at hticks <;> omega
      obtain ⟨hcounting, htime⟩ := counting_step hreach h hpos hleaves hfork hgoes hstep
      obtain ⟨hreach₂, hcounting₂, htime₂⟩ := ih (hreach.step hstep) hcounting (by rw [htime]; omega)
      exact ⟨hreach₂, hcounting₂, by rw [htime₂, htime]; omega⟩

theorem endsPeriod_iff_of_counting {A : TaskId} {s : State} {e : Event} (h : s.view.Counting A)
    (hfork : ¬ForkTicks s e) : EndsPeriod s A e ↔ e = .tick ∧ s.MAGICTIME = 1 := by
  have hcall : ¬((s.task A).state = .zombie ∨ renewedTime s A = 0) := by
    rw [← renewedTime_view, h.renew_eq]
    exact not_or.2 ⟨h.alive, h.time⟩
  cases e with
  | tick => simp [EndsPeriod]
  | fork child vfork =>
      simp only [reduceCtorEq, false_and, iff_false]
      exact fun hends => hfork ⟨⟨child, vfork, rfl⟩, hends.2⟩
  | schedule => simpa [EndsPeriod] using hcall
  | yield => simpa [EndsPeriod] using hcall
  | _ => simp [EndsPeriod]

/-- The interrupt that finds the count at one calls `exit_from_magic`. -/
theorem tick_calls_exitFromMagic {s : State} (h : s.MAGICTIME = 1) :
    ∃ k, step s .tick = exitFromMagic { s with jiffies := s.jiffies + 1, MAGICTIME := 0 } >>= k := by
  refine ⟨fun s' => if (s'.setNeedResched s.curr).curr = (s'.setNeedResched s.curr).idle then
    .ok (s'.setNeedResched s.curr) else chargeTick (s'.setNeedResched s.curr).curr (s'.setNeedResched s.curr), ?_⟩
  simp only [step, schedulerTick, magicTimer, h, Int.zero_lt_one, if_true, Int.sub_self, bind_assoc, pure_bind]
  rfl

/-- Tick accounting. Let a step set `MAGICTIME` to `N` for `A`, by `start_magic` or `update_magic`, and
let the run go on without `A` dying or asking again, and without a fork by a task in its last jiffy. As
long as fewer than `N` interrupts have come the period is on, with the others left to count; the only
step that can end it is the `N`-th interrupt, and that interrupt does. -/
theorem exit_at_last_tick {A : TaskId} {N : Nat} {s₀ s₁ s₂ : State} {e₀ : Event} {es : List Event}
    (hreach : machine.Reachable Initial s₀) (hstep : machine.Step s₀ e₀ s₁) (hset : SetsTimer A s₀ e₀ s₁)
    (hN : s₁.MAGICTIME = N)
    (hrun : (machine.restrict fun s e => LeavesTimer A s e ∧ ¬ForkTicks s e).Run s₁ es s₂)
    (hticks : es.count .tick < N) :
    s₂.magicProcess = some A ∧ s₂.MAGICTIME = N - es.count .tick ∧
    (∀ e, LeavesTimer A s₂ e → ¬ForkTicks s₂ e →
      (EndsPeriod s₂ A e ↔ e = .tick ∧ es.count .tick + 1 = N)) ∧
    (es.count .tick + 1 = N →
      (∃ k, step s₂ .tick = exitFromMagic { s₂ with jiffies := s₂.jiffies + 1, MAGICTIME := 0 } >>= k) ∧
      ∀ s₃, machine.Step s₂ .tick s₃ →
        s₃.magicProcess = none ∧ s₃.MAGICTIME = 0 ∧ (s₃.task A).startedMagic = false) := by
  have hcounting₁ := counting_of_setsTimer hreach hstep hset
  obtain ⟨hreach₂, hcounting, htime⟩ :=
    counting_of_run (hreach.step hstep) hcounting₁ hrun (by rw [hN]; omega)
  rw [hN] at htime
  have hpos : 0 < s₂.MAGICTIME := by
    rw [htime]
    omega
  refine ⟨hcounting.process, htime, ?_, ?_⟩
  · intro e _ hfork
    rw [endsPeriod_iff_of_counting hcounting hfork, htime]
    constructor
    · rintro ⟨he, hone⟩
      exact ⟨he, by omega⟩
    · rintro ⟨he, hlast⟩
      exact ⟨he, by omega⟩
  · intro hlast
    have hone : s₂.MAGICTIME = 1 := by
      rw [htime]
      omega
    refine ⟨tick_calls_exitFromMagic hone, ?_⟩
    intro s₃ hstep₃
    have hview := (sound_of_reachable hreach₂).view_step hstep₃
    have hcounting' : View.Counting A { s₂.view with jiffies := s₂.jiffies + 1 } :=
      hcounting.congr ⟨hcounting.process, hcounting.started, hcounting.time, hcounting.running⟩ rfl
        ⟨rfl, rfl⟩ hcounting.alive
    generalize hv : s₃.view = v₃ at hview
    cases hview with
    | tick ht =>
        rcases hcounting'.timer hpos ht with ⟨-, hexit⟩ | ⟨hcounting₃, htime₃⟩
        · have hview₃ := hv.trans hexit
          have hstarted : (s₃.view.task A).startedMagic = false := by
            rw [hview₃]
            simp [View.exitFromMagic]
          exact ⟨congrArg (fun v : View => v.magicProcess) hview₃,
            congrArg (fun v : View => v.MAGICTIME) hview₃, hstarted⟩
        · have htime₃' : v₃.MAGICTIME = s₂.MAGICTIME - 1 := htime₃
          exact absurd (by rw [htime₃', hone]; rfl) hcounting₃.time

section Boot

instance (A : TaskId) (s : State) (e : Event) : Decidable (LeavesTimer A s e) :=
  match e with
  | .magicClock seconds => decidable_of_iff (s.curr ≠ A)
      ⟨fun h hcurr => absurd hcurr h, fun h hcurr => (h hcurr).2 seconds rfl⟩
  | .setState state => decidable_of_iff (s.curr = A → state ≠ .zombie)
      ⟨fun h hcurr => ⟨fun he => h hcurr (by cases he; rfl), fun _ he => (by cases he)⟩,
        fun h hcurr hz => (h hcurr).1 (by rw [hz])⟩
  | .tick | .wake _ | .signal _ _ | .schedule | .yield | .fork _ _ | .release _ | .getWand =>
    .isTrue fun _ => ⟨fun he => (by cases he), fun _ he => (by cases he)⟩

instance (s : State) (e : Event) : Decidable (ForkTicks s e) :=
  match e with
  | .fork child vfork => decidable_of_iff ((s.task s.curr).timeSlice = 1)
      ⟨fun h => ⟨⟨child, vfork, rfl⟩, h⟩, fun h => h.2⟩
  | .tick | .wake _ | .signal _ _ | .setState _ | .schedule | .yield | .release _ | .getWand | .magicClock _ =>
    .isFalse fun ⟨⟨_, _, he⟩, _⟩ => by cases he

instance (A : TaskId) (s : State) (e : Event) (s' : State) : Decidable (SetsTimer A s e s') :=
  inferInstanceAs (Decidable ((_ ∨ _) ∧ _ ∧ (_ ∨ (_ ∧ _))))

/-- `init` forks in its period and sleeps through all but the last of it. -/
def dozingEvents : List Event :=
  [.fork 2 false, .setState .interruptible, .schedule] ++ List.replicate 511 .tick ++ [.wake 1]

def nearlyOver : State :=
  (machine.restrict fun s e => LeavesTimer 1 s e ∧ ¬ForkTicks s e).after inMagic dozingEvents

theorem exit_at_last_tick_dozing : machine.Reachable Initial asked ∧ machine.Step asked .schedule inMagic ∧
    SetsTimer 1 asked .schedule inMagic ∧ inMagic.MAGICTIME = 512 ∧ nearlyOver.MAGICTIME = 1 ∧
    ∀ s₃, machine.Step nearlyOver .tick s₃ →
      s₃.magicProcess = none ∧ s₃.MAGICTIME = 0 ∧ (s₃.task 1).startedMagic = false := by
  have hreach : machine.Reachable Initial asked :=
    ⟨boot, _, boot_initial, Machine.run_after (by decide +kernel)⟩
  have hstep : machine.Step asked .schedule inMagic := Machine.step_after (by decide +kernel)
  have hset : SetsTimer 1 asked .schedule inMagic := by decide +kernel
  have hN : inMagic.MAGICTIME = (512 : Nat) := by decide +kernel
  have hrun : (machine.restrict fun s e => LeavesTimer 1 s e ∧ ¬ForkTicks s e).Run inMagic dozingEvents
      nearlyOver := Machine.run_after (by decide +kernel)
  have hticks : dozingEvents.count .tick = 511 := by decide +kernel
  obtain ⟨-, htime, -, hlast⟩ := exit_at_last_tick hreach hstep hset hN hrun (by rw [hticks]; decide)
  refine ⟨hreach, hstep, hset, hN, ?_, (hlast (by rw [hticks])).2⟩
  rw [htime, hticks]
  rfl

/-- `init` halves its slice of 512 jiffies with nine forks, and ticks with the tenth. -/
def forkingEvents : List Event := (List.range 10).map fun i => .fork (i + 2) false

def endedEarly : State := machine.after inMagic (forkingEvents ++ List.replicate 511 .tick)

theorem endedEarly_before_last_tick : machine.Reachable Initial asked ∧
    machine.Step asked .schedule inMagic ∧ SetsTimer 1 asked .schedule inMagic ∧ inMagic.MAGICTIME = 512 ∧
    machine.Run inMagic (forkingEvents ++ List.replicate 511 .tick) endedEarly ∧
    (forkingEvents ++ List.replicate 511 Event.tick).count .tick < 512 ∧
    endedEarly.magicProcess = none ∧ (endedEarly.task 1).startedMagic = false ∧
    (endedEarly.task 1).state = .running := by
  have hreplay : (machine.replay inMagic (forkingEvents ++ List.replicate 511 .tick)).map
      (fun s => (s.magicProcess, (s.task 1).startedMagic, (s.task 1).state)) = some (none, false, .running) := by
    decide +kernel
  have hends := Machine.run_after_map hreplay
  rw [← endedEarly] at hends
  simp only [Prod.mk.injEq] at hends
  exact ⟨⟨boot, _, boot_initial, Machine.run_after (by decide +kernel)⟩, Machine.step_after (by decide +kernel),
    by decide +kernel, by decide +kernel, hends.1, by decide +kernel, hends.2⟩

end Boot

end MagicKernel.Sched
