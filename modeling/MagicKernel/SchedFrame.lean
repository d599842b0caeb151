import Mathlib.Order.MinMax
import MagicKernel.SchedModel

/-! What each function of the scheduler leaves alone. Moving a task on or off the run queue changes
that task and the priority arrays; everything else a task or the magic code can see, the `Core`
of the state, stays. Each function gets one lemma that says which task it changes, and how. -/

namespace MagicKernel.Sched

open FaultMachine

namespace State

variable (s : State) (p : TaskId) (f : Task → Task) (a : ArrayId) (A : PrioArray)

@[simp] theorem modTask_task : (s.modTask p f).task = Function.update s.task p (f (s.task p)) := rfl
@[simp] theorem modTask_curr : (s.modTask p f).curr = s.curr := rfl
@[simp] theorem modTask_arrays : (s.modTask p f).arrays = s.arrays := rfl
@[simp] theorem setArray_task : (s.setArray a A).task = s.task := rfl
@[simp] theorem setArray_curr : (s.setArray a A).curr = s.curr := rfl
@[simp] theorem setArray_arrays : (s.setArray a A).arrays = Function.update s.arrays a A := rfl
@[simp] theorem setArray_nrRunning : (s.setArray a A).nrRunning = s.nrRunning := rfl

end State

/-- The state without the task structures and the run queue's bookkeeping. -/
structure Core where
  jiffies : UInt32
  allocated : TaskId → Bool
  curr : TaskId
  idle : TaskId
  magicDuration : UInt32
  idleFromMagic : Bool
  magicProcess : Option TaskId
  magicSleepFlag : Bool
  MAGICTIME : Int
  globalMagicCallTime : UInt32

def State.core (s : State) : Core where
  jiffies := s.jiffies
  allocated := s.allocated
  curr := s.curr
  idle := s.idle
  magicDuration := s.magicDuration
  idleFromMagic := s.idleFromMagic
  magicProcess := s.magicProcess
  magicSleepFlag := s.magicSleepFlag
  MAGICTIME := s.MAGICTIME
  globalMagicCallTime := s.globalMagicCallTime

/-- From `s` to `s'` only the task `p`, which becomes `t`, and the run queue change. -/
structure Frame (p : TaskId) (t : Task) (s s' : State) : Prop where
  task : s'.task = Function.update s.task p t
  core : s'.core = s.core

namespace Frame

variable {p : TaskId} {t t' : Task} {s s' s'' : State}

theorem refl (p : TaskId) (s : State) : Frame p (s.task p) s s :=
  ⟨(Function.update_eq_self p s.task).symm, rfl⟩

theorem trans (h : Frame p t s s') (h' : Frame p t' s' s'') : Frame p t' s s'' where
  task := by rw [h'.task, h.task, Function.update_idem]
  core := h'.core.trans h.core

theorem task_self (h : Frame p t s s') : s'.task p = t := by
  rw [h.task, Function.update_self]

theorem task_of_ne (h : Frame p t s s') {q : TaskId} (hq : q ≠ p) : s'.task q = s.task q := by
  rw [h.task, Function.update_of_ne hq]

theorem curr (h : Frame p t s s') : s'.curr = s.curr := congrArg Core.curr h.core

theorem idle (h : Frame p t s s') : s'.idle = s.idle := congrArg Core.idle h.core

theorem allocated (h : Frame p t s s') : s'.allocated = s.allocated := congrArg Core.allocated h.core

theorem magicProcess (h : Frame p t s s') : s'.magicProcess = s.magicProcess :=
  congrArg Core.magicProcess h.core

end Frame

theorem frame_modTask (p : TaskId) (f : Task → Task) (s : State) :
    Frame p (f (s.task p)) s (s.modTask p f) := ⟨rfl, rfl⟩

/-! ### On and off the run queue -/

theorem dequeueTask_eq_ok {p : TaskId} {array : Option ArrayId} {s s' : State} :
    dequeueTask p array s = .ok s' ↔ ∃ a, array = some a ∧ (s.arrays a).Links p ∧
      (s.task p).prio < maxPrio ∧ s' = s.setArray a ((s.arrays a).remove p (s.task p).prio) := by
  cases array with
  | none => simp [dequeueTask]
  | some a =>
      simp only [dequeueTask, Option.some.injEq, exists_eq_left']
      split
      · simp_all
      · split
        · rename_i hprio
          simp only [reduceCtorEq, false_iff]
          omega
        · rename_i hlinks hprio
          simp only [not_not] at hlinks
          simp only [Except.ok.injEq, hlinks, true_and, Nat.not_le.mp hprio, eq_comm]

theorem dequeueTask_eq_error {p : TaskId} {array : Option ArrayId} {s : State} {f : Fault}
    (h : dequeueTask p array s = .error f) :
    (f = .dequeueNull ∧ array = none) ∨
    (f = .dequeueUnlinked ∧ ∃ a, array = some a ∧ ¬(s.arrays a).Links p) ∨
    (f = .prioRange ∧ maxPrio ≤ (s.task p).prio) := by
  cases array with
  | none =>
      cases h
      exact Or.inl ⟨rfl, rfl⟩
  | some a =>
      simp only [dequeueTask] at h
      split at h
      · rename_i hlinks
        cases h
        exact Or.inr (Or.inl ⟨rfl, a, rfl, hlinks⟩)
      · split at h
        · rename_i hprio
          cases h
          exact Or.inr (Or.inr ⟨rfl, hprio⟩)
        · cases h

theorem enqueueTask_eq_error {p : TaskId} {array : Option ArrayId} {s : State} {f : Fault}
    (h : enqueueTask p array s = .error f) :
    (f = .enqueueNull ∧ array = none) ∨ (f = .prioRange ∧ maxPrio ≤ (s.task p).prio) := by
  cases array with
  | none =>
      cases h
      exact Or.inl ⟨rfl, rfl⟩
  | some a =>
      simp only [enqueueTask] at h
      split at h
      · rename_i hprio
        cases h
        exact Or.inr ⟨rfl, hprio⟩
      · cases h

theorem enqueueTask_eq_ok {p : TaskId} {array : Option ArrayId} {s s' : State} :
    enqueueTask p array s = .ok s' ↔ ∃ a, array = some a ∧ (s.task p).prio < maxPrio ∧
      s' = (s.setArray a ((s.arrays a).insert p (s.task p).prio)).modTask p
        fun t => { t with array := some a } := by
  cases array with
  | none => simp [enqueueTask]
  | some a =>
      simp only [enqueueTask, Option.some.injEq, exists_eq_left']
      split
      · rename_i hprio
        simp only [reduceCtorEq, false_iff]
        omega
      · rename_i hprio
        simp only [Except.ok.injEq, Nat.not_le.mp hprio, true_and, eq_comm]

theorem frame_dequeueTask {p : TaskId} {array : Option ArrayId} {s s' : State}
    (h : dequeueTask p array s = .ok s') : Frame p (s.task p) s s' := by
  obtain ⟨a, -, -, -, rfl⟩ := dequeueTask_eq_ok.1 h
  exact ⟨(Function.update_eq_self p s.task).symm, rfl⟩

theorem frame_enqueueTask {p : TaskId} {array : Option ArrayId} {s s' : State}
    (h : enqueueTask p array s = .ok s') : Frame p { s.task p with array := array } s s' := by
  obtain ⟨a, rfl, -, rfl⟩ := enqueueTask_eq_ok.1 h
  exact ⟨rfl, rfl⟩

theorem frame_activateTask {p : TaskId} {s s' : State} (h : activateTask p s = .ok s') :
    Frame p { wakeBonus s.jiffies (s.task p) with array := some s.active } s s' := by
  obtain ⟨s₁, h₁, h⟩ := bind_eq_ok.1 h
  cases h
  have h₂ := (frame_modTask p (wakeBonus s.jiffies) s).trans (frame_enqueueTask h₁)
  rw [State.modTask_task, Function.update_self] at h₂
  exact ⟨h₂.task, h₂.core⟩

theorem frame_deactivateTask {p : TaskId} {s s' : State} (h : deactivateTask p s = .ok s') :
    Frame p { s.task p with array := none } s s' := by
  obtain ⟨s₁, h₁, h⟩ := bind_eq_ok.1 h
  cases h
  have h₂ := frame_dequeueTask h₁
  have h₃ := frame_modTask p (fun t => { t with array := none }) s₁
  rw [h₂.task_self] at h₃
  have h₄ := h₂.trans h₃
  split at h₄ <;> exact ⟨h₄.task, h₄.core⟩

theorem deactivateTask_queued {p : TaskId} {s s' : State} (h : deactivateTask p s = .ok s') :
    (s.task p).array.isSome = true := by
  obtain ⟨s₁, h₁, -⟩ := bind_eq_ok.1 h
  obtain ⟨a, ha, -⟩ := dequeueTask_eq_ok.1 h₁
  split at ha
  · rw [ha]
    rfl
  · rw [ha]
    rfl

/-! ### Magic periods -/

/-- The task `c` at the start of its period: `start_magic` requeues it at priority 50. -/
def Task.startMagic (t : Task) : Task :=
  { t with startedMagic := true, prio := 50, timeSlice := t.magicTime }

/-- The registered task at the end of its period, apart from its priority. -/
def Task.endMagic (t : Task) : Task :=
  { t with startedMagic := false, magicTime := 0, timeSlice := 0, magicCallTime := 0 }

def Core.startMagic (c : Core) (t : Task) : Core :=
  { c with
    magicProcess := some c.curr
    magicDuration := t.magicTime
    MAGICTIME := toInt t.magicTime
    globalMagicCallTime := t.magicCallTime }

def Core.exitFromMagic (c : Core) : Core :=
  { c with
    idleFromMagic := false
    magicSleepFlag := false
    magicDuration := 0
    magicProcess := none
    MAGICTIME := 0 }

theorem startMagic_spec {s s' : State} (h : startMagic s = .ok s') :
    (s.task s.curr).array ≠ none ∧
    s'.task = Function.update s.task s.curr (s.task s.curr).startMagic ∧
    s'.core = s.core.startMagic (s.task s.curr) := by
  obtain ⟨s₁, h₁, h⟩ := bind_eq_ok.1 h
  obtain ⟨s₂, h₂, h⟩ := bind_eq_ok.1 h
  cases h
  obtain ⟨a, ha, -, -, rfl⟩ := dequeueTask_eq_ok.1 h₁
  obtain ⟨b, hb, -, rfl⟩ := enqueueTask_eq_ok.1 h₂
  simp only [State.modTask_task, State.setArray_task, Function.update_self] at ha hb
  have hab : b = a := Option.some.inj (hb.symm.trans ha)
  subst hab
  refine ⟨by rw [ha]; exact Option.some_ne_none b, ?_, ?_⟩
  · simp only [State.modTask_task, State.setArray_task, Function.update_self, Function.update_idem]
    rw [Task.startMagic, ← ha]
  · simp only [State.core, Core.startMagic, State.modTask_task, State.setArray_task,
      Function.update_self]
    rfl

/-- The task whose priority `exit_from_magic` lowers to 130. -/
def State.demoted (s : State) (m : TaskId) : TaskId := if s.magicSleepFlag then m else s.curr

/-- The task structures after `exit_from_magic`: first the write of `prio`, then the reset of the
registered process. -/
def State.tasksAfterExit (s : State) (m : TaskId) : TaskId → Task :=
  let T := Function.update s.task (s.demoted m) { s.task (s.demoted m) with prio := 130 }
  Function.update T m (T m).endMagic

theorem lowerPrio_spec {m : TaskId} {s s' : State} (h : lowerPrio m s = .ok s') :
    s'.task = Function.update s.task (s.demoted m) { s.task (s.demoted m) with prio := 130 } ∧
      s'.core = s.core := by
  rw [lowerPrio] at h
  split at h
  · rename_i hflag
    obtain ⟨s₁, h₁, h⟩ := bind_eq_ok.1 h
    obtain ⟨a, ha, -, -, rfl⟩ := dequeueTask_eq_ok.1 h₁
    obtain ⟨b, hb, -, rfl⟩ := enqueueTask_eq_ok.1 h
    simp only [State.modTask_task, State.setArray_task, State.setArray_curr] at hb
    refine ⟨?_, rfl⟩
    simp only [State.demoted, hflag, Bool.false_eq_true, if_false, State.modTask_task,
      State.setArray_task, State.setArray_curr]
    rw [← hb, Function.update_eq_self]
  · rename_i hflag
    cases h
    simp only [Bool.not_eq_false] at hflag
    refine ⟨?_, rfl⟩
    simp only [State.demoted, hflag, if_true, State.modTask_task]

theorem exitFromMagic_spec {s s' : State} (h : exitFromMagic s = .ok s') :
    ∃ m, s.magicProcess = some m ∧ s'.task = s.tasksAfterExit m ∧
      s'.core = s.core.exitFromMagic := by
  rw [exitFromMagic] at h
  split at h
  · cases h
  · rename_i m hm
    obtain ⟨s₁, h₁, h⟩ := bind_eq_ok.1 h
    cases h
    obtain ⟨htask, hcore⟩ := lowerPrio_spec h₁
    refine ⟨m, hm, ?_, ?_⟩
    · simp only [State.modTask_task, htask, State.tasksAfterExit, Task.endMagic]
    · rw [← hcore]
      rfl

/-! ### Bookkeeping of one task -/

/-- What charging a tick, waking or yielding may do to a task, apart from its state, its time slice
and its place on the run queue: the priority stays or becomes that of an ordinary task. -/
structure Adjusted (t t' : Task) : Prop where
  staticPrio : t'.staticPrio = t.staticPrio
  policy : t'.policy = t.policy
  holdingWand : t'.holdingWand = t.holdingWand
  magicTime : t'.magicTime = t.magicTime
  startedMagic : t'.startedMagic = t.startedMagic
  magicCallTime : t'.magicCallTime = t.magicCallTime
  prio : t'.prio = t.prio ∨ (maxRtPrio ≤ t'.prio ∧ t'.prio < maxPrio)

namespace Adjusted

theorem refl (t : Task) : Adjusted t t := by
  constructor <;> first | rfl | exact Or.inl rfl

theorem trans {t t' t'' : Task} (h : Adjusted t t') (h' : Adjusted t' t'') : Adjusted t t'' where
  staticPrio := h'.staticPrio.trans h.staticPrio
  policy := h'.policy.trans h.policy
  holdingWand := h'.holdingWand.trans h.holdingWand
  magicTime := h'.magicTime.trans h.magicTime
  startedMagic := h'.startedMagic.trans h.startedMagic
  magicCallTime := h'.magicCallTime.trans h.magicCallTime
  prio := by
    rcases h'.prio with h₁ | h₁
    · rw [h₁]
      exact h.prio
    · exact Or.inr h₁

end Adjusted

theorem adjusted_wakeBonus (jiffies : UInt32) (t : Task) : Adjusted t (wakeBonus jiffies t) := by
  rw [wakeBonus]
  dsimp only
  split
  · constructor <;> first | rfl | exact Or.inr (Task.effectivePrio_bounds _)
  · exact Adjusted.refl t

theorem wakeBonus_timeSlice (jiffies : UInt32) (t : Task) :
    (wakeBonus jiffies t).timeSlice = t.timeSlice := by
  rw [wakeBonus]
  dsimp only
  split <;> rfl

theorem wakeBonus_state (jiffies : UInt32) (t : Task) : (wakeBonus jiffies t).state = t.state := by
  rw [wakeBonus]
  dsimp only
  split <;> rfl

theorem wakeBonus_array (jiffies : UInt32) (t : Task) : (wakeBonus jiffies t).array = t.array := by
  rw [wakeBonus]
  dsimp only
  split <;> rfl

/-- A time slice handed out by the scheduler is at least `MIN_TIMESLICE`. -/
theorem taskTimeslice_bounds (t : Task) :
    minTimeslice ≤ t.taskTimeslice.toNat ∧ t.taskTimeslice.toNat ≤ maxTimeslice := by
  have hlow := t.staticPrio.2.1
  simp only [maxRtPrio] at hlow
  have hscale : (maxTimeslice - minTimeslice) * (maxPrio - 1 - t.staticPrio.val) / 39 ≤
      maxTimeslice - minTimeslice := by
    rw [Nat.div_le_iff_le_mul_add_pred (by decide)]
    simp only [maxTimeslice, minTimeslice, maxPrio, maxRtPrio, hz]
    omega
  have hmin : minTimeslice ≤ maxTimeslice := by decide
  have hmax : maxTimeslice < UInt32.size := by decide
  rw [Task.taskTimeslice, UInt32.toNat_ofNat_of_lt' (by omega)]
  omega

/-- What charging one tick does to the time slice: it never brings a positive slice to zero. -/
structure ChargedSlice (t t' : Task) : Prop where
  pos : t.timeSlice ≠ 0 → t'.timeSlice ≠ 0
  le : t.timeSlice ≠ 0 → t'.timeSlice.toNat ≤ max t.timeSlice.toNat maxTimeslice

theorem ne_zero_of_min_le {x : UInt32} (h : minTimeslice ≤ x.toNat) : x ≠ 0 := by
  rintro rfl
  exact absurd h (by decide)

theorem chargedSlice_taskTimeslice (t t' u : Task) (h : t'.timeSlice = u.taskTimeslice) :
    ChargedSlice t t' where
  pos _ := by
    rw [h]
    exact ne_zero_of_min_le (taskTimeslice_bounds u).1
  le _ := by
    rw [h]
    exact (taskTimeslice_bounds u).2.trans (le_max_right _ _)

theorem toNat_pred_lt {x : UInt32} (h : x ≠ 0) : (x - 1).toNat < x.toNat := by
  have hpos : 0 < x.toNat := Nat.pos_of_ne_zero fun h0 => h (UInt32.toNat_inj.1 h0)
  have hone : (1 : UInt32) ≤ x := UInt32.le_iff_toNat_le.2 hpos
  rw [UInt32.toNat_sub_of_le _ _ hone]
  exact Nat.sub_lt hpos Nat.one_pos

theorem chargedSlice_pred (t t' : Task) (h : t'.timeSlice = t.timeSlice - 1)
    (h0 : t.timeSlice - 1 ≠ 0) : ChargedSlice t t' where
  pos _ := by
    rw [h]
    exact h0
  le hpos := by
    rw [h]
    exact (toNat_pred_lt hpos).le.trans (le_max_left _ _)

theorem chargedSlice_eq (t t' : Task) (h : t'.timeSlice = t.timeSlice) : ChargedSlice t t' where
  pos hpos := by rwa [h]
  le _ := by
    rw [h]
    exact le_max_left _ _

/-! ### One specification for each function -/

theorem expireSlice_spec {p : TaskId} {s s' : State} (h : expireSlice p s = .ok s') :
    ∃ t, Frame p t s s' ∧ Adjusted (s.task p) t ∧ t.state = (s.task p).state ∧
      t.timeSlice = (s.task p).taskTimeslice ∧ t.array ≠ none := by
  obtain ⟨s₁, h₁, h⟩ := bind_eq_ok.1 h
  have hframe₁ := frame_dequeueTask h₁
  have hframe₂ := hframe₁.trans
    (frame_modTask p (fun t => { refillSlice t with prio := t.effectivePrio }) s₁)
  rw [hframe₁.task_self] at hframe₂
  generalize hs₂ : s₁.modTask p (fun t => { refillSlice t with prio := t.effectivePrio }) = s₂ at h hframe₂
  have hplace : ∀ s₃ b, s₃.task = s₂.task → s₃.core = s₂.core → enqueueTask p (some b) s₃ = .ok s' →
      ∃ t, Frame p t s s' ∧ Adjusted (s.task p) t ∧ t.state = (s.task p).state ∧
        t.timeSlice = (s.task p).taskTimeslice ∧ t.array ≠ none := by
    intro s₃ b htask hcore hb
    have hframe₃ : Frame p _ s s₃ := ⟨htask.trans hframe₂.task, hcore.trans hframe₂.core⟩
    refine ⟨_, hframe₃.trans (frame_enqueueTask hb), ?_, ?_, ?_, Option.some_ne_none b⟩
    · rw [hframe₃.task_self]
      constructor <;> first | rfl | exact Or.inr (Task.effectivePrio_bounds _)
    · rw [hframe₃.task_self]
      rfl
    · rw [hframe₃.task_self]
      rfl
  dsimp only at h
  split at h
  · refine hplace _ _ ?_ ?_ h <;> split <;> rfl
  · exact hplace s₂ _ rfl rfl h

theorem chargeTick_spec {p : TaskId} {s s' : State} (h : chargeTick p s = .ok s') :
    ∃ t, Frame p t s s' ∧ Adjusted (s.task p) t ∧ t.state = (s.task p).state ∧
      ChargedSlice (s.task p) t ∧ (t.array = none ↔ (s.task p).array = none) := by
  rw [chargeTick] at h
  split at h
  · cases h
    exact ⟨_, frame_modTask p _ s, by constructor <;> first | rfl | exact Or.inl rfl, rfl,
      chargedSlice_eq _ _ rfl, Iff.rfl⟩
  · rename_i harray
    have harray' : (s.task p).array ≠ none :=
      fun h0 => harray (by rw [h0]; exact (Option.some_ne_none _).symm)
    split at h
    · split at h
      · dsimp only at h
        split at h
        · obtain ⟨s₁, h₁, h⟩ := bind_eq_ok.1 h
          have hframe := ((frame_modTask p _ _).trans
            ((frame_modTask p _ _).trans (frame_dequeueTask h₁))).trans (frame_enqueueTask h)
          have htask := (frame_dequeueTask h₁).task_self
          simp only [State.modTask_task, Function.update_self] at htask
          rw [htask] at hframe
          exact ⟨_, hframe, by constructor <;> first | rfl | exact Or.inl rfl, rfl,
            chargedSlice_taskTimeslice _ _ (s.task p) rfl,
            iff_of_false (Option.some_ne_none _) harray'⟩
        · rename_i hts
          cases h
          rw [State.modTask_task, Function.update_self] at hts
          exact ⟨_, frame_modTask p _ s, by constructor <;> first | rfl | exact Or.inl rfl, rfl,
            chargedSlice_pred _ _ rfl hts, Iff.rfl⟩
      · cases h
        exact ⟨_, Frame.refl p s, Adjusted.refl _, rfl, chargedSlice_eq _ _ rfl, Iff.rfl⟩
    · dsimp only at h
      split at h
      · obtain ⟨t, hframe, hadj, hstate, hts, hqueued⟩ := expireSlice_spec h
        simp only [State.modTask_task, Function.update_self] at hadj hstate hts
        exact ⟨t, (frame_modTask p _ _).trans ((frame_modTask p _ _).trans hframe),
          ⟨hadj.staticPrio, hadj.policy, hadj.holdingWand, hadj.magicTime, hadj.startedMagic,
            hadj.magicCallTime, hadj.prio⟩,
          hstate, chargedSlice_taskTimeslice _ _ (s.task p) hts, iff_of_false hqueued harray'⟩
      · rename_i hts
        cases h
        simp only [State.modTask_task, Function.update_self] at hts
        have hframe := (frame_modTask p
            (fun t => { t with sleepAvg := if t.sleepAvg ≠ 0 then t.sleepAvg - 1 else 0 }) s).trans
          (frame_modTask p (fun t => { t with timeSlice := t.timeSlice - 1 }) _)
        simp only [State.modTask_task, Function.update_self] at hframe
        exact ⟨_, hframe, by constructor <;> first | rfl | exact Or.inl rfl, rfl,
          chargedSlice_pred _ _ rfl hts, Iff.rfl⟩

theorem schedFindFirstBit_le (bitmap : Nat → Bool) : schedFindFirstBit bitmap ≤ maxPrio := by
  rw [schedFindFirstBit]
  cases h : (List.range maxPrio).find? bitmap with
  | none => exact le_rfl
  | some k => exact (List.mem_range.1 (List.mem_of_find?_eq_some h)).le

theorem perm_listAddSecond (p : TaskId) (l : List TaskId) : (listAddSecond p l).Perm (p :: l) := by
  cases l with
  | nil => exact List.Perm.refl _
  | cons q qs => exact List.Perm.swap p q qs

/-- A yielding task moves within its array `a`, which becomes `B`: to the queue `i`, which is its own
queue unless that has no other task. Only a task that is not real-time changes queues. -/
structure Requeued (s : State) (a : ArrayId) (i : Nat) (B : PrioArray) : Prop where
  array : (s.task s.curr).array = some a
  links : (s.arrays a).Links s.curr
  lt : i < maxPrio
  prio : i = (s.task s.curr).prio ∨ maxRtPrio ≤ i
  queue : ∃ l : List TaskId, l.Perm (s.curr :: ((s.arrays a).listDel s.curr).queue i) ∧
    B.queue = Function.update ((s.arrays a).listDel s.curr).queue i l
  bitmap : i = (s.task s.curr).prio ∧ B.bitmap = (s.arrays a).bitmap ∨
    ((s.arrays a).listDel s.curr).queue (s.task s.curr).prio = [] ∧
      B.bitmap = Function.update (Function.update (s.arrays a).bitmap (s.task s.curr).prio false) i true
  nrActive : B.nrActive = (s.arrays a).nrActive

theorem yieldRequeue_ok {s s' : State} (h : yieldRequeue s = .ok s') :
    ∃ a i B, Requeued s a i B ∧ s' = (s.modTask s.curr fun t => { t with prio := i }).setArray a B := by
  rw [yieldRequeue] at h
  split at h
  · cases h
  rename_i a ha
  dsimp only at h
  split at h
  · cases h
  rename_i hlinks
  rw [not_not] at hlinks
  split at h
  · cases h
  rename_i hprio
  have hlt : (s.task s.curr).prio < maxPrio := Nat.lt_of_not_le hprio
  -- Moved within its own queue, the task keeps its priority.
  have hkeep : s = s.modTask s.curr fun t => { t with prio := (s.task s.curr).prio } := by
    rw [State.modTask, Function.update_eq_self]
  split at h
  · cases h
    refine ⟨a, (s.task s.curr).prio, _, ?_, congrArg (fun u => State.setArray u a _) hkeep⟩
    exact ⟨ha, hlinks, hlt, Or.inl rfl, ⟨_, List.perm_append_singleton _ _, rfl⟩, Or.inl ⟨rfl, rfl⟩, rfl⟩
  rename_i hrt
  split at h
  · cases h
    refine ⟨a, (s.task s.curr).prio, _, ?_, congrArg (fun u => State.setArray u a _) hkeep⟩
    exact ⟨ha, hlinks, hlt, Or.inl rfl, ⟨_, perm_listAddSecond _ _, rfl⟩, Or.inl ⟨rfl, rfl⟩, rfl⟩
  · rename_i hempty
    rw [not_not] at hempty
    cases h
    have hle := schedFindFirstBit_le
      (Function.update ((s.arrays a).listDel s.curr).bitmap (s.task s.curr).prio false)
    simp only [Task.rtTask, decide_eq_true_eq, Nat.not_lt] at hrt
    refine ⟨a, _, _, ?_, rfl⟩
    refine ⟨ha, hlinks, ?_, ?_, ⟨_, perm_listAddSecond _ _, rfl⟩, Or.inr ⟨hempty, rfl⟩, rfl⟩
    · split
      · exact hlt
      · rename_i hi
        rw [not_or] at hi
        exact lt_of_le_of_ne hle hi.1
    · split
      · exact Or.inl rfl
      · exact Or.inr (by omega)

/-- A yielding task stays on the run queue; a task that is not real-time may go down to the next
priority that has a task. -/
theorem yieldRequeue_spec {s s' : State} (h : yieldRequeue s = .ok s') :
    (s.task s.curr).array ≠ none ∧
    ∃ k, Frame s.curr { s.task s.curr with prio := k } s s' ∧ k < maxPrio ∧
      (k = (s.task s.curr).prio ∨ maxRtPrio ≤ k) := by
  obtain ⟨a, i, B, hrequeued, rfl⟩ := yieldRequeue_ok h
  refine ⟨?_, i, ⟨rfl, rfl⟩, hrequeued.lt, hrequeued.prio⟩
  rw [hrequeued.array]
  exact Option.some_ne_none a

/-! ### Waking, forking and reaping touch several tasks -/

/-- Only the bookkeeping of a task changes that no decision here depends on. -/
structure Same (t t' : Task) : Prop where
  state : t'.state = t.state
  prio : t'.prio = t.prio
  staticPrio : t'.staticPrio = t.staticPrio
  array : t'.array = t.array
  policy : t'.policy = t.policy
  timeSlice : t'.timeSlice = t.timeSlice
  holdingWand : t'.holdingWand = t.holdingWand
  magicTime : t'.magicTime = t.magicTime
  startedMagic : t'.startedMagic = t.startedMagic
  magicCallTime : t'.magicCallTime = t.magicCallTime

theorem Same.refl (t : Task) : Same t t := by
  constructor <;> rfl

theorem same_setNeedResched (s : State) (p q : TaskId) :
    Same (s.task q) ((s.setNeedResched p).task q) := by
  rw [State.setNeedResched, State.modTask_task]
  by_cases hq : q = p
  · subst hq
    rw [Function.update_self]
    constructor <;> rfl
  · rw [Function.update_of_ne hq]
    exact Same.refl _

/-- From `s` to `s'` the task `p` is put on the run queue and made runnable. -/
structure Woken (p : TaskId) (s s' : State) : Prop where
  core : s'.core = s.core
  others : ∀ q, q ≠ p → Same (s.task q) (s'.task q)
  adjusted : Adjusted (s.task p) (s'.task p)
  state : (s'.task p).state = .running
  timeSlice : (s'.task p).timeSlice = (s.task p).timeSlice
  queued : (s'.task p).array ≠ none

theorem wakeIfOffQueue_spec {p : TaskId} {s s' : State} (h : wakeIfOffQueue p s = .ok s') :
    s'.core = s.core ∧ (∀ q, q ≠ p → Same (s.task q) (s'.task q)) ∧
      Adjusted (s.task p) (s'.task p) ∧ (s'.task p).timeSlice = (s.task p).timeSlice ∧
      (s'.task p).array ≠ none := by
  rw [wakeIfOffQueue] at h
  split at h
  · rw [wakeOffQueue] at h
    generalize hs₁ : (if (s.task p).state = .uninterruptible then
      { s with nrUninterruptible := s.nrUninterruptible - 1 } else s) = s₁ at h
    have htask₁ : s₁.task = s.task := by
      rw [← hs₁]
      split <;> rfl
    have hcore₁ : s₁.core = s.core := by
      rw [← hs₁]
      split <;> rfl
    obtain ⟨s₂, h₂, h⟩ := bind_eq_ok.1 h
    have hframe := frame_activateTask h₂
    have hresched : ∀ q, Same (s₂.task q) (s'.task q) := by
      intro q
      cases h
      split
      · exact same_setNeedResched s₂ s₂.curr q
      · exact Same.refl _
    have hcore : s'.core = s₂.core := by
      cases h
      split <;> rfl
    have hself := hframe.task_self
    rw [htask₁] at hself
    have hp := hresched p
    rw [hself] at hp
    have hbonus := adjusted_wakeBonus s₁.jiffies (s.task p)
    refine ⟨hcore.trans (hframe.core.trans hcore₁), ?_, ?_, ?_, ?_⟩
    · intro q hq
      have hne := hframe.task_of_ne hq
      rw [htask₁] at hne
      rw [← hne]
      exact hresched q
    · exact ⟨hp.staticPrio.trans hbonus.staticPrio, hp.policy.trans hbonus.policy,
        hp.holdingWand.trans hbonus.holdingWand, hp.magicTime.trans hbonus.magicTime,
        hp.startedMagic.trans hbonus.startedMagic, hp.magicCallTime.trans hbonus.magicCallTime,
        by rw [hp.prio]; exact hbonus.prio⟩
    · exact hp.timeSlice.trans (wakeBonus_timeSlice _ _)
    · rw [hp.array]
      exact Option.some_ne_none _
  · rename_i harray
    cases h
    exact ⟨rfl, fun q _ => Same.refl _, Adjusted.refl _, rfl, harray⟩

theorem woken_tryToWakeUp {p : TaskId} {s s' : State} (h : tryToWakeUp p s = .ok s') :
    Woken p s s' := by
  obtain ⟨s₁, h₁, h⟩ := bind_eq_ok.1 h
  cases h
  obtain ⟨hcore, hothers, hadj, hts, hqueued⟩ := wakeIfOffQueue_spec h₁
  refine ⟨hcore, ?_, ?_, ?_, ?_, ?_⟩
  · intro q hq
    rw [State.modTask_task, Function.update_of_ne hq]
    exact hothers q hq
  all_goals rw [State.modTask_task, Function.update_self]
  · exact ⟨hadj.staticPrio, hadj.policy, hadj.holdingWand, hadj.magicTime, hadj.startedMagic,
      hadj.magicCallTime, hadj.prio⟩
  · exact hts
  · exact hqueued

theorem forkPenalty_spec {p : TaskId} {s : State} (hp : p ≠ s.curr) :
    (forkPenalty p s).core = s.core ∧
      (∀ q, q ≠ p → Same (s.task q) ((forkPenalty p s).task q)) ∧
      Adjusted (s.task p) ((forkPenalty p s).task p) ∧
      ((forkPenalty p s).task p).state = (s.task p).state ∧
      ((forkPenalty p s).task p).timeSlice = (s.task p).timeSlice := by
  rw [forkPenalty]
  split
  · refine ⟨rfl, ?_, ?_, ?_, ?_⟩
    · intro q hq
      simp only [State.modTask_task, Function.update_of_ne hq]
      by_cases hc : q = s.curr
      · subst hc
        rw [Function.update_self]
        constructor <;> rfl
      · rw [Function.update_of_ne hc]
        exact Same.refl _
    all_goals simp only [State.modTask_task, Function.update_self, Function.update_of_ne hp]
    constructor <;> first | rfl | exact Or.inr (Task.effectivePrio_bounds _)
  · exact ⟨rfl, fun q _ => Same.refl _, Adjusted.refl _, rfl, rfl⟩

theorem woken_wakeUpForkedProcess {p : TaskId} {s s' : State} (hp : p ≠ s.curr)
    (h : wakeUpForkedProcess p s = .ok s') : Woken p s s' := by
  rw [wakeUpForkedProcess] at h
  generalize hs₁ : s.modTask p (fun t => { t with state := .running }) = s₁ at h
  have hframe₁ : Frame p { s.task p with state := .running } s s₁ := by
    rw [← hs₁]
    exact ⟨rfl, rfl⟩
  obtain ⟨hcore, hothers, hadj, hstate, hts⟩ :=
    forkPenalty_spec (p := p) (s := s₁) (by rw [hframe₁.curr]; exact hp)
  rw [hframe₁.task_self] at hadj hstate hts
  have hframe := frame_activateTask h
  have hbonus := adjusted_wakeBonus (forkPenalty p s₁).jiffies ((forkPenalty p s₁).task p)
  refine ⟨hframe.core.trans (hcore.trans hframe₁.core), ?_, ?_, ?_, ?_, ?_⟩
  · intro q hq
    rw [hframe.task_of_ne hq, ← hframe₁.task_of_ne hq]
    exact hothers q hq
  all_goals rw [hframe.task_self]
  · have hall := hadj.trans hbonus
    exact ⟨hall.staticPrio, hall.policy, hall.holdingWand, hall.magicTime, hall.startedMagic,
      hall.magicCallTime, hall.prio⟩
  · exact (wakeBonus_state _ _).trans hstate
  · exact (wakeBonus_timeSlice _ _).trans hts
  · exact Option.some_ne_none _

/-- A task at a real-time priority keeps it when it is first made runnable. -/
theorem wakeUpForkedProcess_rtTask {p : TaskId} {s s' : State} (h : wakeUpForkedProcess p s = .ok s')
    (hrt : (s.task p).prio < maxRtPrio) : (s'.task p).prio = (s.task p).prio := by
  rw [wakeUpForkedProcess] at h
  generalize hs₁ : s.modTask p (fun t => { t with state := .running }) = s₁ at h
  have hprio₁ : (s₁.task p).prio = (s.task p).prio := by
    rw [← hs₁, State.modTask_task, Function.update_self]
  have hrt₁ : (s₁.task p).rtTask = true := by
    rw [Task.rtTask, hprio₁]
    exact decide_eq_true hrt
  have hpenalty : forkPenalty p s₁ = s₁ := by
    rw [forkPenalty, if_neg (ne_false_of_eq_true hrt₁)]
  rw [hpenalty] at h
  rw [(frame_activateTask h).task_self, wakeBonus,
    if_neg fun hboth => ne_false_of_eq_true hrt₁ hboth.1]
  exact hprio₁

/-! ### Inversion of the compound steps -/

theorem magicTimer_cases {s s' : State} (h : magicTimer s = .ok s') :
    (s.MAGICTIME ≤ 0 ∧ s' = s) ∨
    (1 < s.MAGICTIME ∧ s' = { s with MAGICTIME := s.MAGICTIME - 1 }) ∨
    (s.MAGICTIME = 1 ∧ ∃ s₁, exitFromMagic { s with MAGICTIME := s.MAGICTIME - 1 } = .ok s₁ ∧
      s' = s₁.setNeedResched s.curr) := by
  rw [magicTimer] at h
  split at h
  · rename_i hpos
    dsimp only at h
    split at h
    · rename_i hzero
      obtain ⟨s₁, h₁, h⟩ := bind_eq_ok.1 h
      cases h
      exact Or.inr (Or.inr ⟨by omega, s₁, h₁, rfl⟩)
    · rename_i hzero
      cases h
      exact Or.inr (Or.inl ⟨by omega, rfl⟩)
  · rename_i hpos
    cases h
    exact Or.inl ⟨by omega, rfl⟩

theorem schedulerTick_cases {s s' : State} (h : schedulerTick s = .ok s') :
    ∃ s₁, magicTimer s = .ok s₁ ∧ ((s₁.curr = s₁.idle ∧ s' = s₁) ∨
      (s₁.curr ≠ s₁.idle ∧ chargeTick s₁.curr s₁ = .ok s')) := by
  obtain ⟨s₁, h₁, h⟩ := bind_eq_ok.1 h
  refine ⟨s₁, h₁, ?_⟩
  split at h
  · rename_i hidle
    cases h
    exact Or.inl ⟨hidle, rfl⟩
  · rename_i hidle
    exact Or.inr ⟨hidle, h⟩

theorem doFork_cases {child : TaskId} {vfork : Bool} {s s' : State}
    (h : doFork child vfork s = .ok s') :
    ((copyProcess child s).task s.curr).timeSlice ≠ 0 ∧
    ∃ s₁ s₂, tickIfSpent (shareTimeSlice child (copyProcess child s)) = .ok s₁ ∧
      wakeUpForkedProcess child s₁ = .ok s₂ ∧ (s' = s₂ ∨ s' = s₂.setNeedResched s₂.curr) := by
  rw [doFork] at h
  split at h
  · cases h
  · rename_i hts
    obtain ⟨s₁, h₁, h⟩ := bind_eq_ok.1 h
    obtain ⟨s₂, h₂, h⟩ := bind_eq_ok.1 h
    cases h
    refine ⟨hts, s₁, s₂, h₁, h₂, ?_⟩
    split
    · exact Or.inl rfl
    · exact Or.inr rfl

theorem tickIfSpent_cases {s s' : State} (h : tickIfSpent s = .ok s') :
    ((s.task s.curr).timeSlice ≠ 0 ∧ s' = s) ∨
    ((s.task s.curr).timeSlice = 0 ∧
      schedulerTick (s.modTask s.curr fun t => { t with timeSlice := 1 }) = .ok s') := by
  rw [tickIfSpent] at h
  split at h
  · rename_i hts
    exact Or.inr ⟨hts, h⟩
  · rename_i hts
    cases h
    exact Or.inl ⟨hts, rfl⟩

theorem schedule_cases {s s' : State} (h : schedule s = .ok s') :
    ∃ n s₁, selectNext s = .ok (.task n, s₁) ∧
      (s'.task = Function.update s₁.task s₁.curr { s₁.task s₁.curr with needResched := false }) ∧
      s'.core = { s₁.core with curr := n } ∧ s'.arrays = s₁.arrays ∧ s'.nrRunning = s₁.nrRunning ∧
      s'.active = s₁.active ∧ s'.expired = s₁.expired := by
  obtain ⟨⟨next, s₁⟩, h₁, h⟩ := bind_eq_ok.1 h
  cases next with
  | unassigned => cases h
  | null => cases h
  | task n =>
      refine ⟨n, s₁, h₁, ?_⟩
      dsimp only [switchTasks] at h
      split at h
      · cases h
        exact ⟨rfl, rfl, rfl, rfl, rfl, rfl⟩
      · rename_i hn
        cases h
        rw [not_not] at hn
        subst hn
        exact ⟨rfl, rfl, rfl, rfl, rfl, rfl⟩

theorem inheritSlice_spec (p : TaskId) (s : State) :
    ∃ ts, inheritSlice p s = s.modTask s.curr (fun t => { t with timeSlice := ts }) ∧
      (ts = (s.task s.curr).timeSlice ∨ ((s.task p).firstTimeSlice = true ∧
        (ts = UInt32.ofNat maxTimeslice ∨ (ts = (s.task s.curr).timeSlice + (s.task p).timeSlice ∧
          ts ≤ UInt32.ofNat maxTimeslice)))) := by
  rw [inheritSlice]
  split
  · rename_i hfirst
    refine ⟨_, rfl, Or.inr ⟨hfirst, ?_⟩⟩
    split
    · exact Or.inl rfl
    · rename_i hle
      exact Or.inr ⟨rfl, UInt32.not_lt.1 hle⟩
  · exact ⟨(s.task s.curr).timeSlice, by simp [State.modTask], Or.inl rfl⟩

theorem blendSleepAvg_spec (p : TaskId) (s : State) :
    ∃ avg, blendSleepAvg p s = s.modTask s.curr (fun t => { t with sleepAvg := avg }) := by
  rw [blendSleepAvg]
  split
  · exact ⟨_, rfl⟩
  · exact ⟨(s.task s.curr).sleepAvg, by simp [State.modTask]⟩

/-- `sched_exit` changes the reaping task only: it may inherit what is left of the child's first
slice, capped at `MAX_TIMESLICE`. -/
theorem schedExit_spec (p : TaskId) (s : State) :
    ∃ ts avg, schedExit p s =
        s.modTask s.curr (fun t => { t with timeSlice := ts, sleepAvg := avg }) ∧
      (ts = (s.task s.curr).timeSlice ∨ ((s.task p).firstTimeSlice = true ∧
        (ts = UInt32.ofNat maxTimeslice ∨ (ts = (s.task s.curr).timeSlice + (s.task p).timeSlice ∧
          ts ≤ UInt32.ofNat maxTimeslice)))) := by
  obtain ⟨ts, hslice, hts⟩ := inheritSlice_spec p s
  obtain ⟨avg, havg⟩ := blendSleepAvg_spec p (inheritSlice p s)
  refine ⟨ts, avg, ?_, hts⟩
  rw [schedExit, havg, hslice]
  simp only [State.modTask, Function.update_self, Function.update_idem]

theorem releaseTask_spec {p : TaskId} {s s' : State} (h : releaseTask p s = .ok s') :
    (s.task p).array = none ∧ ∃ ts avg,
      (ts = (s.task s.curr).timeSlice ∨ ((s.task p).firstTimeSlice = true ∧
        (ts = UInt32.ofNat maxTimeslice ∨ (ts = (s.task s.curr).timeSlice + (s.task p).timeSlice ∧
          ts ≤ UInt32.ofNat maxTimeslice)))) ∧
      s' = { s.modTask s.curr (fun t => { t with timeSlice := ts, sleepAvg := avg }) with
        allocated := Function.update s.allocated p false } := by
  rw [releaseTask] at h
  split at h
  · cases h
  · rename_i harray
    rw [not_not] at harray
    obtain ⟨ts, avg, hexit, hts⟩ := schedExit_spec p s
    rw [hexit] at h
    cases h
    exact ⟨harray, ts, avg, hts, rfl⟩

section Share

variable {child : TaskId} {s : State}

theorem shareTimeSlice_curr (hchild : child ≠ s.curr) :
    (shareTimeSlice child s).task s.curr =
      { s.task s.curr with timeSlice := (s.task s.curr).timeSlice >>> 1 } := by
  simp [shareTimeSlice, hchild.symm]

theorem shareTimeSlice_child (hchild : child ≠ s.curr) :
    (shareTimeSlice child s).task child =
      { s.task child with
        timeSlice := ((s.task s.curr).timeSlice + 1) >>> 1
        firstTimeSlice := true
        sleepTimestamp := s.jiffies } := by
  simp [shareTimeSlice, hchild]

theorem shareTimeSlice_of_ne {q : TaskId} (hchild : q ≠ child) (hcurr : q ≠ s.curr) :
    (shareTimeSlice child s).task q = s.task q := by
  simp [shareTimeSlice, hchild, hcurr]

/-- What a fork leaves to the parent. -/
theorem forkParent_timeSlice (hchild : child ≠ s.curr) :
    ((shareTimeSlice child (copyProcess child s)).task s.curr).timeSlice =
      (s.task s.curr).timeSlice >>> 1 := by
  have hparent : (copyProcess child s).task s.curr = s.task s.curr :=
    Function.update_of_ne hchild.symm _ _
  rw [← hparent]
  exact congrArg Task.timeSlice (shareTimeSlice_curr (s := copyProcess child s) hchild)

end Share

end MagicKernel.Sched
