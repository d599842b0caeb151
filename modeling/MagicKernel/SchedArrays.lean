import MagicKernel.SchedQueue

/-! The two sides of the run queue. `rq->active` and `rq->expired` point to the two arrays, one each: the
only function that writes them swaps them. With accurate counters it follows that the active array has a
task whenever `nr_running` is not zero, so `pick_next_task` always finds one. -/

namespace MagicKernel.Sched

open FaultMachine

/-! ### Who writes the pointers -/

/-- The two pointers, to the active and to the expired array. -/
def State.sides (s : State) : ArrayId × ArrayId := (s.active, s.expired)

section Sides

variable {s s' : State} {p m : TaskId}

theorem dequeueTask_sides {array : Option ArrayId} (h : dequeueTask p array s = .ok s') : s'.sides = s.sides := by
  obtain ⟨a, -, -, -, rfl⟩ := dequeueTask_eq_ok.1 h
  rfl

theorem enqueueTask_sides {array : Option ArrayId} (h : enqueueTask p array s = .ok s') : s'.sides = s.sides := by
  obtain ⟨a, -, -, rfl⟩ := enqueueTask_eq_ok.1 h
  rfl

theorem activateTask_sides (h : activateTask p s = .ok s') : s'.sides = s.sides := by
  obtain ⟨s₁, h₁, h⟩ := bind_eq_ok.1 h
  cases h
  have hsides := enqueueTask_sides h₁
  exact hsides

theorem deactivateTask_sides (h : deactivateTask p s = .ok s') : s'.sides = s.sides := by
  obtain ⟨s₁, h₁, h⟩ := bind_eq_ok.1 h
  cases h
  have hsides := dequeueTask_sides h₁
  split at hsides <;> exact hsides

theorem startMagic_sides (h : startMagic s = .ok s') : s'.sides = s.sides := by
  obtain ⟨s₁, h₁, h⟩ := bind_eq_ok.1 h
  obtain ⟨s₂, h₂, h⟩ := bind_eq_ok.1 h
  cases h
  have hdequeue := dequeueTask_sides h₁
  have henqueue := enqueueTask_sides h₂
  exact henqueue.trans hdequeue

theorem lowerPrio_sides (h : lowerPrio m s = .ok s') : s'.sides = s.sides := by
  rw [lowerPrio] at h
  split at h
  · obtain ⟨s₁, h₁, h⟩ := bind_eq_ok.1 h
    have hdequeue := dequeueTask_sides h₁
    have henqueue := enqueueTask_sides h
    exact henqueue.trans hdequeue
  · cases h
    rfl

theorem exitFromMagic_sides (h : exitFromMagic s = .ok s') : s'.sides = s.sides := by
  rw [exitFromMagic] at h
  split at h
  · cases h
  · obtain ⟨s₁, h₁, h⟩ := bind_eq_ok.1 h
    cases h
    have hsides := lowerPrio_sides h₁
    exact hsides

theorem expireSlice_sides (h : expireSlice p s = .ok s') : s'.sides = s.sides := by
  obtain ⟨s₁, h₁, h⟩ := bind_eq_ok.1 h
  have hsides := dequeueTask_sides h₁
  dsimp only at h
  split at h
  · have henqueue := enqueueTask_sides h
    split at henqueue <;> exact henqueue.trans hsides
  · have henqueue := enqueueTask_sides h
    exact henqueue.trans hsides

theorem chargeTick_sides (h : chargeTick p s = .ok s') : s'.sides = s.sides := by
  rw [chargeTick] at h
  split at h
  · cases h
    rfl
  · split at h
    · split at h
      · dsimp only at h
        split at h
        · obtain ⟨s₁, h₁, h⟩ := bind_eq_ok.1 h
          have hdequeue := dequeueTask_sides h₁
          have henqueue := enqueueTask_sides h
          exact henqueue.trans hdequeue
        · cases h
          rfl
      · cases h
        rfl
    · dsimp only at h
      split at h
      · have hsides := expireSlice_sides h
        exact hsides
      · cases h
        rfl

theorem schedulerTick_sides (h : schedulerTick s = .ok s') : s'.sides = s.sides := by
  obtain ⟨s₁, h₁, h⟩ := schedulerTick_cases h
  have hsides : s₁.sides = s.sides := by
    rcases magicTimer_cases h₁ with ⟨-, rfl⟩ | ⟨-, rfl⟩ | ⟨-, s₂, h₂, rfl⟩
    · rfl
    · rfl
    · have hsides := exitFromMagic_sides h₂
      exact hsides
  rcases h with ⟨-, rfl⟩ | ⟨-, h⟩
  · exact hsides
  · exact (chargeTick_sides h).trans hsides

theorem renewMagic_sides (m : TaskId) (s : State) : (renewMagic m s).sides = s.sides := by
  rw [renewMagic]
  split <;> rfl

theorem magicSegment_sides {f : Flow} (h : magicSegment s = .ok f) : f.state.sides = s.sides := by
  cases magicSegment_ok h with
  | idle hm => rfl
  | ended hm hend hexit => exact (exitFromMagic_sides hexit).trans (renewMagic_sides _ s)
  | resume hm htime hflag hstate => exact renewMagic_sides _ s
  | wait hm htime hflag hstate => exact renewMagic_sides _ s
  | kept hm hzombie htime hflag => exact renewMagic_sides _ s

theorem startUnlessStarted_sides (h : startUnlessStarted s = .ok s') : s'.sides = s.sides := by
  rw [startUnlessStarted] at h
  split at h
  · exact startMagic_sides h
  · cases h
    rfl

theorem runningArm_sides {f : Flow} (h : runningArm s = .ok f) : f.state.sides = s.sides := by
  rw [runningArm] at h
  split at h
  · obtain ⟨s₁, h₁, h⟩ := bind_eq_ok.1 h
    cases h
    exact startUnlessStarted_sides h₁
  · cases h
    rfl

theorem stateSwitch_sides {f : Flow} (h : stateSwitch s = .ok f) : f.state.sides = s.sides := by
  rw [stateSwitch] at h
  split at h
  · split at h
    · obtain ⟨s₁, h₁, h⟩ := bind_eq_ok.1 h
      obtain ⟨s₂, h₂, h⟩ := bind_eq_ok.1 h
      cases h
      have hstart := startUnlessStarted_sides h₁
      have hdeactivate := deactivateTask_sides h₂
      exact hdeactivate.trans hstart
    · split at h
      · cases h
        rfl
      · obtain ⟨s₁, h₁, h⟩ := bind_eq_ok.1 h
        exact (runningArm_sides h).trans (deactivateTask_sides h₁)
  · exact runningArm_sides h
  · obtain ⟨s₁, h₁, h⟩ := bind_eq_ok.1 h
    exact (runningArm_sides h).trans (deactivateTask_sides h₁)

/-- `pick_next_task` is the one place where the pointers are written. -/
theorem pickNextTask_sides {n : Next} (h : pickNextTask s = .ok (n, s')) :
    s'.sides = s.sides ∨ s'.sides = s.sides.swap := by
  rw [pickNextTask] at h
  split at h
  · cases h
    exact Or.inl rfl
  · obtain ⟨rfl, -⟩ := firstQueued_eq_ok h
    rw [switchArrays]
    split
    · exact Or.inr rfl
    · exact Or.inl rfl

theorem schedule_sides (h : schedule s = .ok s') : s'.sides = s.sides ∨ s'.sides = s.sides.swap := by
  obtain ⟨n, s₁, h₁, -, -, -, -, hactive, hexpired⟩ := schedule_cases h
  have hsides : s'.sides = s₁.sides := by rw [State.sides, hactive, hexpired, State.sides]
  rw [hsides]
  obtain ⟨f, hf, h₁⟩ := bind_eq_ok.1 h₁
  have hsegment := magicSegment_sides hf
  cases f with
  | goto n₁ s₂ =>
      cases h₁
      exact Or.inl hsegment
  | fall s₂ =>
      obtain ⟨g, hg, h₁⟩ := bind_eq_ok.1 h₁
      have hswitch := (stateSwitch_sides hg).trans hsegment
      cases g with
      | goto n₂ s₃ =>
          cases h₁
          exact Or.inl hswitch
      | fall s₃ =>
          have hsame : s₃.sides = s.sides := hswitch
          rw [← hsame]
          exact pickNextTask_sides h₁

theorem yieldRequeue_sides (h : yieldRequeue s = .ok s') : s'.sides = s.sides := by
  obtain ⟨a, i, B, -, rfl⟩ := yieldRequeue_ok h
  rfl

theorem tryToWakeUp_sides (h : tryToWakeUp p s = .ok s') : s'.sides = s.sides := by
  obtain ⟨s₁, h₁, h⟩ := bind_eq_ok.1 h
  cases h
  show s₁.sides = s.sides
  rw [wakeIfOffQueue] at h₁
  split at h₁
  · obtain ⟨s₂, h₂, h₁⟩ := bind_eq_ok.1 h₁
    cases h₁
    have hsides : s₂.sides = s.sides := by
      have hactivate := activateTask_sides h₂
      split at hactivate <;> exact hactivate
    split <;> exact hsides
  · cases h₁
    rfl

theorem wakeUpForkedProcess_sides (h : wakeUpForkedProcess p s = .ok s') : s'.sides = s.sides := by
  have hactivate := activateTask_sides h
  rw [forkPenalty] at hactivate
  split at hactivate <;> exact hactivate

theorem doFork_sides {child : TaskId} {vfork : Bool} (h : doFork child vfork s = .ok s') : s'.sides = s.sides := by
  obtain ⟨-, s₁, s₂, h₁, h₂, h⟩ := doFork_cases h
  have htick : s₁.sides = s.sides := by
    rcases tickIfSpent_cases h₁ with ⟨-, rfl⟩ | ⟨-, h₁⟩
    · rfl
    · have hsides := schedulerTick_sides h₁
      exact hsides
  have hwake := (wakeUpForkedProcess_sides h₂).trans htick
  rcases h with rfl | rfl
  · exact hwake
  · exact hwake

theorem step_sides {e : Event} (h : step s e = .ok s') : s'.sides = s.sides ∨ s'.sides = s.sides.swap := by
  cases e with
  | tick =>
      have hsides := schedulerTick_sides h
      exact Or.inl hsides
  | wake p => exact Or.inl (tryToWakeUp_sides h)
  | schedule => exact schedule_sides h
  | yield =>
      obtain ⟨s₁, h₁, h⟩ := bind_eq_ok.1 h
      rw [← yieldRequeue_sides h₁]
      exact schedule_sides h
  | fork child vfork => exact Or.inl (doFork_sides h)
  | release p =>
      obtain ⟨-, ts, avg, -, rfl⟩ := releaseTask_spec h
      exact Or.inl rfl
  | magicClock seconds =>
      cases h
      rw [sysMagicClock]
      split <;> exact Or.inl rfl
  | signal p pending =>
      cases h
      exact Or.inl rfl
  | setState state =>
      cases h
      exact Or.inl rfl
  | getWand =>
      cases h
      exact Or.inl rfl

end Sides

/-- The active and the expired array are two. -/
theorem active_ne_expired {s : State} (h : machine.Reachable Initial s) : s.active ≠ s.expired := by
  refine h.invariant (I := fun s => s.active ≠ s.expired) (fun s hs => hs.arrays) ?_
  intro s e s' _ hne hstep
  rcases step_sides hstep.2 with hsides | hsides
  · obtain ⟨hactive, hexpired⟩ := Prod.mk.inj hsides
    rw [hactive, hexpired]
    exact hne
  · obtain ⟨hactive, hexpired⟩ := Prod.mk.inj hsides
    rw [hactive, hexpired]
    exact hne.symm

/-! ### The search for the next task -/

section Pick

variable {s : State} {loc : TaskId → Option (ArrayId × Nat)}

/-- An array whose counter is not zero has a first task. -/
theorem exists_firstQueued (h : (s.arrays s.active).Accurate) (hactive : (s.arrays s.active).nrActive ≠ 0) :
    ∃ p, firstQueued s = .ok (.task p, s) := by
  rw [h.nrActive] at hactive
  obtain ⟨k, hk, hlength⟩ := Finset.exists_ne_zero_of_sum_ne_zero hactive
  have hbit : (s.arrays s.active).bitmap k = true := by
    refine (h.bitmap k (Finset.mem_range.1 hk)).2 fun hnil => hlength ?_
    rw [hnil]
    rfl
  have hfound : ((List.range maxPrio).find? (s.arrays s.active).bitmap).isSome = true :=
    List.find?_isSome.2 ⟨k, List.mem_range.2 (Finset.mem_range.1 hk), hbit⟩
  obtain ⟨i, hi⟩ := Option.isSome_iff_exists.1 hfound
  have hlt : i < maxPrio := List.mem_range.1 (List.mem_of_find?_eq_some hi)
  have hqueue := (h.bitmap i hlt).1 (List.find?_some hi)
  obtain ⟨p, ps, hps⟩ := List.exists_cons_of_ne_nil hqueue
  refine ⟨p, ?_⟩
  have hidx : schedFindFirstBit (s.arrays s.active).bitmap = i := by rw [schedFindFirstBit, hi, Option.getD_some]
  simp only [firstQueued, hidx, Nat.not_le.2 hlt, if_false, hps]

/-- If the active array is empty and `nr_running` is not zero, the expired array is not empty. -/
theorem Located.switchArrays_nrActive (h : Located loc 0 s) (hne : s.active ≠ s.expired)
    (hrunning : s.nrRunning ≠ 0) :
    ((switchArrays s).arrays (switchArrays s).active).nrActive ≠ 0 := by
  rw [switchArrays]
  split
  · rename_i hempty
    show (s.arrays s.expired).nrActive ≠ 0
    have hsum := h.nrRunning
    cases hactive : s.active <;> cases hexpired : s.expired <;> rw [hactive, hexpired] at hne <;>
      rw [hactive] at hempty
    · exact absurd rfl hne
    · omega
    · omega
    · exact absurd rfl hne
  · rename_i hactive
    exact hactive

theorem Located.exists_pickNextTask (h : Located loc 0 s) (hne : s.active ≠ s.expired) :
    ∃ p s', pickNextTask s = .ok (.task p, s') := by
  rw [pickNextTask]
  split
  · exact ⟨s.idle, _, rfl⟩
  · rename_i hrunning
    obtain ⟨-, -, harrays, -⟩ := switchArrays_spec s
    have haccurate := h.accurate (switchArrays s).active
    rw [← harrays] at haccurate
    obtain ⟨p, hp⟩ := exists_firstQueued haccurate (h.switchArrays_nrActive hne hrunning)
    exact ⟨p, _, hp⟩

end Pick

end MagicKernel.Sched
