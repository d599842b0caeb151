import MagicKernel.SchedCountdown

/-! The number that a request for magic becomes. `sys_magic_clock` multiplies the seconds by `HZ` in an
`unsigned int`, and `start_magic` and `update_magic` store the product in the `int` that the timer counts
down. The product is what was asked for as long as it fits that `int`; from then on it is negative, and
the timer never runs, and once it wraps it is zero or too small. -/

namespace MagicKernel.Sched

open FaultMachine

namespace View

variable {v w : View} {A : TaskId}

/-- What `MAGICTIME` is set to is an `int`. -/
def Fits (v : View) : Prop := v.MAGICTIME < 2 ^ 31

theorem toInt_fits (x : UInt32) : toInt x < 2 ^ 31 := by
  have hlt := BitVec.toInt_lt (x := x.toBitVec)
  rw [toInt]
  omega

theorem Fits.renew (h : Fits v) (m : TaskId) : Fits (v.renew m) := by
  rw [View.renew]
  split
  · exact toInt_fits _
  · exact h

theorem Fits.timer (h : Fits v) (ht : Timer v w) : Fits w := by
  have hv : v.MAGICTIME < 2 ^ 31 := h
  show w.MAGICTIME < 2 ^ 31
  cases ht with
  | off htime => exact h
  | count htime =>
      dsimp only
      omega
  | expire htime hm =>
      show (0 : Int) < 2 ^ 31
      decide

theorem Fits.segment (h : Fits v) (hseg : Segment v w) : Fits w := by
  cases hseg with
  | idle hm => exact h
  | ended hm hend =>
      show (0 : Int) < 2 ^ 31
      decide
  | kept hm hzombie htime hflag => exact h.renew _

theorem Fits.startUnlessStarted (h : Fits v) : Fits v.startUnlessStarted := by
  rw [View.startUnlessStarted]
  split
  · exact toInt_fits _
  · exact h

theorem Fits.select (h : Fits v) {Q : TaskId → Prop} {n : Next} (hselect : Select Q v n w) : Fits w := by
  cases hselect with
  | resume hm htime hflag hstate => exact h.renew _
  | wait hm htime hflag hstate => exact h.renew _
  | caught hseg hcaught =>
      have hfits := h.segment hseg
      cases hcaught with
      | sleep hstate hmagic hqueued => exact hfits.startUnlessStarted
      | run hstate hmagic hqueued => exact hfits.startUnlessStarted
      | fallThrough hrun hint hmagic hqueued hstarted => exact hfits
  | picked hseg hpassed hn =>
      have hfits := h.segment hseg
      rw [Fits, hpassed.core_eq]
      exact hfits

theorem Fits.step (h : Fits v) {last : Bool} {e : Event} (hstep : Step last v e w) : Fits w := by
  cases hstep with
  | tick ht => exact Fits.timer (v := { v with jiffies := v.jiffies + 1 }) h ht
  | schedule hselect =>
      have hfits := h.select hselect
      exact hfits
  | yield hidle hselect =>
      have hfits := h.select hselect
      exact hfits
  | forkTick hidle hfree hlast ht =>
      have hfits := Fits.timer (v := v.fork _) h ht
      exact hfits
  | magicClock hidle =>
      rw [View.magicClock]
      split <;> exact h
  | _ => exact h

/-- `schedule()` gets to see the request of `A`: outside its period, or by its time stamp. -/
def TakesUp (A : TaskId) (v : View) : Prop :=
  ((v.task A).startedMagic = false ∧ (v.idleFromMagic = true → v.magicProcess = none)) ∨
    (v.magicProcess = some A ∧ v.globalMagicCallTime ≠ (v.task A).magicCallTime)

/-- The magic segment leaves a process that is not registered alone. -/
theorem Segment.task_of_ne (hseg : Segment v w) (hne : v.magicProcess ≠ some A) : w.task A = v.task A := by
  cases hseg with
  | idle hm => rfl
  | @ended m hm hend =>
      have hA : A ≠ m := by
        rintro rfl
        exact hne hm
      simp only [View.exitFromMagic, Function.update_of_ne hA, renew_task]
  | kept hm hzombie htime hflag => rw [renew_task]

/-- A request for a time that is not zero is stored when it is taken up. -/
theorem TakesUp.stored (h : TakesUp v.curr v) (hregistered : Registered v)
    (halive : (v.task v.curr).state ≠ .zombie) (hmagic : 0 < (v.task v.curr).magicTime) {Q : TaskId → Prop}
    {n : Next} (hselect : Select Q v n w) : w.MAGICTIME = toInt (v.task v.curr).magicTime := by
  rcases h with ⟨hstarted, hflag'⟩ | ⟨hm, hunseen⟩
  · have hne : v.magicProcess ≠ some v.curr := by
      intro hm
      rw [hregistered.started _ hm] at hstarted
      cases hstarted
    cases hselect with
    | resume hm htime hflag hstate =>
        rw [hflag' hflag] at hm
        cases hm
    | wait hm htime hflag hstate =>
        rw [hflag' hflag] at hm
        cases hm
    | caught hseg hcaught =>
        rename_i u
        have htask : u.task u.curr = v.task v.curr := by
          rw [hseg.curr]
          exact hseg.task_of_ne hne
        have hstart : u.startUnlessStarted = u.startMagic := by
          rw [startUnlessStarted, htask]
          exact if_pos hstarted
        rw [← htask]
        cases hcaught with
        | sleep hstate hpos hqueued =>
            rw [hstart]
            rfl
        | run hstate hpos hqueued =>
            rw [hstart]
            rfl
        | fallThrough hrun hint hpos hqueued hstarted' =>
            rw [htask, hstarted] at hstarted'
            cases hstarted'
    | picked hseg hpassed hn =>
        have hzero := hpassed.magicTime_eq
        rw [hseg.curr, hseg.task_of_ne hne] at hzero
        rw [hzero] at hmagic
        exact absurd hmagic (UInt32.lt_irrefl 0)
  · have htime : (v.renew v.curr).MAGICTIME = toInt (v.task v.curr).magicTime := by
      rw [View.renew, if_pos hunseen]
    have hne : (v.renew v.curr).MAGICTIME ≠ 0 := by
      rw [htime]
      exact toInt_ne_zero (UInt32.pos_iff_ne_zero.1 hmagic)
    have hcounting := hregistered.counting hm hunseen halive hne
    rw [(hcounting.select_fields (hselect.of_renew hm)).1, htime]

/-- `A` is on the processor and has asked for `d` jiffies of magic. -/
structure Asked (A : TaskId) (d : UInt32) (v : View) : Prop where
  curr : v.curr = A
  magicTime : (v.task A).magicTime = d

theorem Asked.timer {d : UInt32} (h : Asked A d v) (ht : Timer v w)
    (hends : v.MAGICTIME = 1 → v.magicProcess ≠ some A) : Asked A d w := by
  cases ht with
  | off htime => exact h
  | count htime => exact ⟨h.curr, h.magicTime⟩
  | @expire m hone hm =>
      have hA : A ≠ m := by
        rintro rfl
        exact hends hone hm
      refine ⟨h.curr, ?_⟩
      simp only [exitFromMagic, Function.update_of_ne hA]
      exact h.magicTime

theorem Asked.modTask {d : UInt32} (h : Asked A d v) {p : TaskId} {f : TaskView → TaskView}
    (hf : ∀ t, (f t).magicTime = t.magicTime) : Asked A d (v.modTask p f) := by
  refine ⟨h.curr, ?_⟩
  simp only [View.modTask, Function.update_apply]
  split
  · rename_i hp
    rw [hf, ← hp]
    exact h.magicTime
  · exact h.magicTime

theorem Asked.fork {d : UInt32} (h : Asked A d v) (hbase : Base v) {child : TaskId}
    (hfree : v.allocated child = false) : Asked A d (v.fork child) := by
  have hchild : A ≠ child := by
    rintro rfl
    rw [← h.curr, hbase.curr_allocated] at hfree
    cases hfree
  refine ⟨h.curr, ?_⟩
  simp only [View.fork, Function.update_of_ne hchild]
  exact h.magicTime

/-- A request stands until its caller calls `schedule()` or asks again, unless its period ends. -/
theorem Asked.step {d : UInt32} (h : Asked A d v) (hbase : Base v) {last : Bool} {e : Event}
    (hstep : Step last v e w) (hquiet : Quiet e)
    (hends : (e = .tick ∨ last = true ∧ ∃ child vfork, e = .fork child vfork) → v.MAGICTIME = 1 →
      v.magicProcess ≠ some A) : Asked A d w := by
  obtain ⟨hschedule, hyield, hclock⟩ := hquiet
  cases hstep with
  | tick ht =>
      have h' : Asked A d { v with jiffies := v.jiffies + 1 } := ⟨h.curr, h.magicTime⟩
      exact h'.timer ht (hends (Or.inl rfl))
  | wake hp hidle => exact h.modTask fun _ => rfl
  | signal => exact h
  | setState hidle => exact h.modTask fun _ => rfl
  | schedule hselect => exact absurd rfl hschedule
  | yield hidle hselect => exact absurd rfl hyield
  | fork hidle hfree hlast => exact (h.fork hbase hfree).modTask fun _ => rfl
  | forkTick hidle hfree hlast ht =>
      exact ((h.fork hbase hfree).timer ht (hends (Or.inr ⟨hlast, _, _, rfl⟩))).modTask fun _ => rfl
  | release hidle hp hcurr hstate hqueued => exact ⟨h.curr, h.magicTime⟩
  | getWand hidle => exact h.modTask fun _ => rfl
  | magicClock hidle => exact absurd rfl (hclock _)

end View

/-! ### Runs -/

theorem fits_of_reachable {s : State} (h : machine.Reachable Initial s) : s.view.Fits := by
  refine h.invariant (I := fun s => s.view.Fits) ?_ ?_
  · intro s hs
    have hzero : s.view.MAGICTIME = 0 := hs.noMagic.MAGICTIME
    rw [View.Fits, hzero]
    decide
  · intro s e s' hreach hfits hstep
    exact hfits.step ((sound_of_reachable hreach).view_step hstep)

/-- The current task does nothing to its request, and it is not cleared by the end of its period. -/
def KeepsRequest (s : State) (e : Event) : Prop :=
  Quiet e ∧ (s.magicProcess = some s.curr → ¬EndsPeriod s s.curr e)

theorem asked_of_run {A : TaskId} {d : UInt32} {s s' : State} {es : List Event}
    (hreach : machine.Reachable Initial s) (h : s.view.Asked A d)
    (hrun : (machine.restrict KeepsRequest).Run s es s') : machine.Reachable Initial s' ∧ s'.view.Asked A d := by
  induction hrun with
  | nil s => exact ⟨hreach, h⟩
  | @cons s s₁ s₂ e es hstep hrest ih =>
      obtain ⟨⟨hquiet, hends⟩, hstep⟩ := Machine.restrict_step.1 hstep
      have hsound := sound_of_reachable hreach
      have hcurr : s.curr = A := h.curr
      refine ih (hreach.step hstep) (h.step hsound.base (hsound.view_step hstep) hquiet ?_)
      rintro (rfl | ⟨hlast, child, vfork, rfl⟩) hone hm
      · exact hends (by rw [hcurr]; exact hm) hone
      · exact hends (by rw [hcurr]; exact hm) ⟨hone, of_decide_eq_true hlast⟩

/-- `schedule()` gets to see the request of its caller. -/
def TakesUp (s : State) : Prop :=
  ((s.task s.curr).startedMagic = false ∧ (s.idleFromMagic = true → s.magicProcess = none)) ∨
    (s.magicProcess = some s.curr ∧ s.globalMagicCallTime ≠ (s.task s.curr).magicCallTime)

/-- The conversion of seconds. Take any successful call of `sys_magic_clock`, and the next `schedule()` of
its caller, which takes up the request: the `MAGICTIME` it leaves is the time asked for if and only if
that many jiffies fit an `int`. -/
theorem stored_exact_iff {s₀ s₁ s₂ s₃ : State} {es : List Event} {e : Event} {seconds : UInt32}
    (hreach : machine.Reachable Initial s₀) (hcall : machine.Step s₀ (.magicClock seconds) s₁)
    (hwand : (s₀.task s₀.curr).holdingWand = true) (hpos : 0 < seconds)
    (hrun : (machine.restrict KeepsRequest).Run s₁ es s₂) (htakes : TakesUp s₂)
    (halive : (s₂.task s₂.curr).state ≠ .zombie) (he : e = .schedule ∨ e = .yield)
    (hstep : machine.Step s₂ e s₃) :
    s₃.MAGICTIME = seconds.toNat * hz ↔ seconds.toNat * hz < 2 ^ 31 := by
  have hsound₀ := sound_of_reachable hreach
  have hasked₁ : s₁.view.Asked s₀.curr (seconds * UInt32.ofNat hz) := by
    have hview := hsound₀.view_step hcall
    generalize s₁.view = v₁ at hview
    cases hview with
    | magicClock hidle =>
        have hwand' : (s₀.view.task s₀.view.curr).holdingWand = true := hwand
        rw [View.magicClock, if_pos hwand']
        refine ⟨rfl, ?_⟩
        simp only [View.modTask]
        rw [show s₀.view.curr = s₀.curr from rfl, Function.update_self]
  obtain ⟨hreach₂, hasked⟩ := asked_of_run (hreach.step hcall) hasked₁ hrun
  have hsound := sound_of_reachable hreach₂
  have hregistered := registered_of_reachable hreach₂
  constructor
  · intro htime
    have hfits : s₃.MAGICTIME < 2 ^ 31 := fits_of_reachable (hreach₂.step hstep)
    rw [htime] at hfits
    exact_mod_cast hfits
  · intro hlt
    have hd : (seconds * UInt32.ofNat hz).toNat = seconds.toNat * hz := by
      rw [UInt32.toNat_mul]
      exact Nat.mod_eq_of_lt (hlt.trans (by decide))
    have hcurr : s₂.curr = s₀.curr := hasked.curr
    have hmagic : (s₂.view.task s₂.view.curr).magicTime = seconds * UInt32.ofNat hz := by
      rw [show s₂.view.curr = s₀.curr from hcurr]
      exact hasked.magicTime
    have hmagic_pos : 0 < (s₂.view.task s₂.view.curr).magicTime := by
      rw [hmagic, UInt32.lt_iff_toNat_lt, hd]
      exact Nat.mul_pos (UInt32.lt_iff_toNat_lt.1 hpos) (by decide)
    have htakes' : s₂.view.TakesUp s₂.view.curr := htakes
    obtain ⟨n, w, hselect, hw⟩ := hsound.select hstep he
    have htime : s₃.MAGICTIME = w.MAGICTIME := congrArg (fun v : View => v.MAGICTIME) hw
    rw [htime, htakes'.stored hregistered halive hmagic_pos hselect, hmagic,
      toInt_eq_toNat (by rw [hd]; exact hlt), hd]
    rfl

section Boot

instance (s : State) : Decidable (TakesUp s) :=
  inferInstanceAs (Decidable ((_ ∧ (_ → _)) ∨ (_ ∧ _)))

instance (e : Event) : Decidable (Quiet e) :=
  match e with
  | .schedule => .isFalse fun h => h.1 rfl
  | .yield => .isFalse fun h => h.2.1 rfl
  | .magicClock seconds => .isFalse fun h => h.2.2 seconds rfl
  | .tick | .wake _ | .signal _ _ | .setState _ | .fork _ _ | .release _ | .getWand =>
    .isTrue ⟨fun he => (by cases he), fun he => (by cases he), fun _ he => (by cases he)⟩

instance (s : State) (e : Event) : Decidable (KeepsRequest s e) :=
  inferInstanceAs (Decidable (_ ∧ (_ → _)))

/-- `init` is in its period, asks for two more seconds, and a jiffy passes. -/
def askingAgain : State := machine.after inMagic [.tick]

def waiting : State := (machine.restrict KeepsRequest).after (machine.after askingAgain [.magicClock 2]) [.tick]

theorem stored_exact_waiting : TakesUp waiting ∧
    ∀ s₃, machine.Step waiting .schedule s₃ →
      (s₃.MAGICTIME = (2 : UInt32).toNat * hz ↔ (2 : UInt32).toNat * hz < 2 ^ 31) := by
  have hasked : machine.Reachable Initial asked :=
    ⟨boot, _, boot_initial, Machine.run_after (by decide +kernel)⟩
  have hmagic : machine.Step asked .schedule inMagic := Machine.step_after (by decide +kernel)
  have htick : machine.Step inMagic .tick askingAgain := Machine.step_after (by decide +kernel)
  have hreach := (hasked.step hmagic).step htick
  have hcall : machine.Step askingAgain (.magicClock 2) (machine.after askingAgain [.magicClock 2]) :=
    Machine.step_after (by decide +kernel)
  have hrun : (machine.restrict KeepsRequest).Run (machine.after askingAgain [.magicClock 2]) [.tick] waiting :=
    Machine.run_after (by decide +kernel)
  have htakes : TakesUp waiting := by decide +kernel
  refine ⟨htakes, ?_⟩
  intro s₃ hstep
  exact stored_exact_iff hreach hcall (by decide +kernel) (by decide) hrun htakes (by decide +kernel)
    (Or.inl rfl) hstep

/-- `init` has a wand. -/
def armed : State := machine.after boot [.schedule, .getWand]

/-- `init` asks for so many seconds of magic and calls `schedule()`. -/
def granted (seconds : UInt32) : State := machine.after armed [.magicClock seconds, .schedule]

/-- Requests for 2^22, 2^23 and 2^23 + 1 seconds: the first makes a period that no tick ends, the second is
dropped, and the third makes a period of one second. -/
theorem granted_not_exact : machine.Reachable Initial armed ∧
    (armed.task armed.curr).holdingWand = true ∧
    (∀ seconds ∈ [4194304, 8388608, 8388609],
      machine.Run armed [.magicClock seconds, .schedule] (granted seconds) ∧
      (granted seconds).MAGICTIME ≠ seconds.toNat * hz) ∧
    (granted 4194304).magicProcess = some 1 ∧ (granted 4194304).MAGICTIME < 0 ∧
    (granted 8388608).magicProcess = none ∧
    (granted 8388609).magicProcess = some 1 ∧ (granted 8388609).MAGICTIME = hz := by
  refine ⟨⟨boot, _, boot_initial, Machine.run_after (by decide +kernel)⟩, by decide +kernel, ?_,
    by decide +kernel, by decide +kernel, by decide +kernel, by decide +kernel, by decide +kernel⟩
  intro seconds hseconds
  simp only [List.mem_cons, List.not_mem_nil, or_false] at hseconds
  rcases hseconds with rfl | rfl | rfl
  · exact ⟨Machine.run_after (by decide +kernel), by decide +kernel⟩
  · exact ⟨Machine.run_after (by decide +kernel), by decide +kernel⟩
  · exact ⟨Machine.run_after (by decide +kernel), by decide +kernel⟩

end Boot

end MagicKernel.Sched
