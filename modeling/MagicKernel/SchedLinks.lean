import MagicKernel.SchedView

/-! A task is linked in a priority array exactly when its `array` field names that array. This much of
the run queue's representation survives every step, including those that put a task's priority out
of step with its queue, and it is what `dequeue_task` relies on: it faults only when it is called
for a task whose `array` is `NULL`. -/

namespace MagicKernel.Sched

open FaultMachine

namespace PrioArray

variable {A : PrioArray} {p q : TaskId} {k : Nat}

theorem links_listDel : (A.listDel p).Links q ↔ q ≠ p ∧ A.Links q := by
  simp only [Links, listDel, List.mem_filter, decide_eq_true_eq]
  constructor
  · rintro ⟨j, hj, hmem, hne⟩
    exact ⟨hne, j, hj, hmem⟩
  · rintro ⟨hne, j, hj, hmem⟩
    exact ⟨j, hj, hmem, hne⟩

theorem links_remove : (A.remove p k).Links q ↔ q ≠ p ∧ A.Links q := by
  rw [← links_listDel, remove]
  dsimp only
  split <;> exact Iff.rfl

theorem links_update {B : PrioArray} {l : List TaskId} (hk : k < maxPrio)
    (hqueue : B.queue = Function.update A.queue k l) (hl : ∀ q, q ∈ l ↔ q = p ∨ q ∈ A.queue k) :
    B.Links q ↔ q = p ∨ A.Links q := by
  simp only [Links, hqueue]
  constructor
  · rintro ⟨j, hj, hmem⟩
    by_cases hjk : j = k
    · subst hjk
      rw [Function.update_self, hl] at hmem
      exact hmem.imp_right fun h => ⟨j, hj, h⟩
    · rw [Function.update_of_ne hjk] at hmem
      exact Or.inr ⟨j, hj, hmem⟩
  · rintro (rfl | ⟨j, hj, hmem⟩)
    · exact ⟨k, hk, by rw [Function.update_self, hl]; exact Or.inl rfl⟩
    · refine ⟨j, hj, ?_⟩
      by_cases hjk : j = k
      · subst hjk
        rw [Function.update_self, hl]
        exact Or.inr hmem
      · rwa [Function.update_of_ne hjk]

theorem links_insert (hk : k < maxPrio) : (A.insert p k).Links q ↔ q = p ∨ A.Links q := by
  refine links_update hk rfl fun x => ?_
  rw [List.mem_append, List.mem_singleton, or_comm]

end PrioArray

/-- The tasks linked in the arrays are those that `loc` places there. -/
def LinkedAs (loc : TaskId → Option ArrayId) (s : State) : Prop :=
  ∀ a p, (s.arrays a).Links p ↔ loc p = some a

def State.loc (s : State) (p : TaskId) : Option ArrayId := (s.task p).array

def Linked (s : State) : Prop := LinkedAs s.loc s

/-- The faults of `dequeue_task` called on a task that is not linked in the array it is given. -/
def Fault.isDequeue : Fault → Bool
  | .dequeueNull => true
  | .dequeueUnlinked => true
  | _ => false

section

variable {loc : TaskId → Option ArrayId} {p : TaskId} {s s' : State}

theorem LinkedAs.congr {loc' : TaskId → Option ArrayId} (h : LinkedAs loc s)
    (harrays : s'.arrays = s.arrays) (hloc : ∀ p, loc' p = loc p) : LinkedAs loc' s' := by
  intro a p
  rw [harrays, hloc]
  exact h a p

theorem dequeueTask_linked (h : LinkedAs loc s) (array : Option ArrayId) :
    Outcome (fun f => f.isDequeue = true → array = none ∨ loc p ≠ array)
      (fun s' => LinkedAs (Function.update loc p none) s' ∧ ∃ a A, s' = s.setArray a A)
      (dequeueTask p array s) := by
  refine .intro ?_ ?_
  · intro f hf
    rcases dequeueTask_eq_error hf with ⟨rfl, harray⟩ | ⟨rfl, a, rfl, hlinks⟩ | ⟨rfl, -⟩
    · exact fun _ => Or.inl harray
    · exact fun _ => Or.inr fun hp => hlinks ((h a p).2 hp)
    · exact fun hf => absurd hf Bool.false_ne_true
  · intro s' hs'
    obtain ⟨a, rfl, hlinks, -, rfl⟩ := dequeueTask_eq_ok.1 hs'
    refine ⟨fun b q => ?_, a, _, rfl⟩
    have hp := (h a p).1 hlinks
    by_cases hb : b = a
    · subst hb
      rw [State.setArray_arrays, Function.update_self, PrioArray.links_remove, h b q]
      by_cases hq : q = p
      · subst hq
        simp
      · simp [hq]
    · rw [State.setArray_arrays, Function.update_of_ne hb, h b q]
      by_cases hq : q = p
      · subst hq
        simp [hp, Ne.symm hb]
      · simp [hq]

theorem enqueueTask_linked (h : LinkedAs loc s) (hp : loc p = none) (array : Option ArrayId) :
    Outcome (fun f => f.isDequeue = false)
      (fun s' => LinkedAs (Function.update loc p array) s' ∧
        s'.task = Function.update s.task p { s.task p with array := array })
      (enqueueTask p array s) := by
  refine .intro ?_ ?_
  · intro f hf
    rcases enqueueTask_eq_error hf with ⟨rfl, -⟩ | ⟨rfl, -⟩ <;> rfl
  · intro s' hs'
    obtain ⟨a, rfl, hprio, rfl⟩ := enqueueTask_eq_ok.1 hs'
    refine ⟨fun b q => ?_, rfl⟩
    by_cases hb : b = a
    · subst hb
      rw [State.modTask_arrays, State.setArray_arrays, Function.update_self,
        PrioArray.links_insert hprio, h b q]
      by_cases hq : q = p
      · subst hq
        simp
      · simp [hq]
    · rw [State.modTask_arrays, State.setArray_arrays, Function.update_of_ne hb, h b q]
      by_cases hq : q = p
      · subst hq
        simp [hp, Ne.symm hb]
      · simp [hq]

theorem loc_modTask (s : State) (p : TaskId) (f : Task → Task) (h : ∀ t, (f t).array = t.array) :
    (s.modTask p f).loc = s.loc := by
  funext q
  rw [State.loc, State.loc, State.modTask_task]
  by_cases hq : q = p
  · subst hq
    rw [Function.update_self, h]
  · rw [Function.update_of_ne hq]

theorem Linked.modTask (h : Linked s) (p : TaskId) (f : Task → Task)
    (hf : ∀ t, (f t).array = t.array) : Linked (s.modTask p f) :=
  h.congr rfl fun q => congrFun (loc_modTask s p f hf) q

theorem loc_of_update {t : Task} {T : TaskId → Task} {u : State}
    (hT : u.task = Function.update T p t) (q : TaskId) :
    u.loc q = Function.update (fun q => (T q).array) p t.array q := by
  rw [State.loc, hT]
  by_cases hq : q = p
  · subst hq
    rw [Function.update_self, Function.update_self]
  · rw [Function.update_of_ne hq, Function.update_of_ne hq]

theorem activateTask_linked (h : Linked s) (hp : (s.task p).array = none) :
    Outcome (fun f => f.isDequeue = false) Linked (activateTask p s) := by
  unfold activateTask
  have hbonus : Linked (s.modTask p (wakeBonus s.jiffies)) :=
    h.modTask p _ fun t => wakeBonus_array s.jiffies t
  have hloc := loc_modTask s p (wakeBonus s.jiffies) fun t => wakeBonus_array s.jiffies t
  refine (enqueueTask_linked hbonus (by rw [hloc]; exact hp) _).bind ?_
  rintro s₁ ⟨hlinked, htask⟩
  exact .ok (hlinked.congr rfl fun q => loc_of_update htask q)

theorem deactivateTask_linked (h : Linked s) :
    Outcome (fun f => f.isDequeue = true → (s.task p).array = none) Linked (deactivateTask p s) := by
  unfold deactivateTask
  dsimp only
  generalize hs₁ : (if (s.task p).state = .uninterruptible then _ else _ : State) = s₁
  have harrays : s₁.arrays = s.arrays := by
    rw [← hs₁]
    split <;> rfl
  have htask₁ : s₁.task = s.task := by
    rw [← hs₁]
    split <;> rfl
  have hlinked₁ : LinkedAs s.loc s₁ := h.congr harrays fun _ => rfl
  rw [htask₁]
  refine ((dequeueTask_linked hlinked₁ (s.task p).array).imp ?_ fun _ h => h).bind ?_
  · exact fun f hf hdeq => (hf hdeq).resolve_right fun hne => hne rfl
  · rintro s₂ ⟨hlinked₂, a, A, rfl⟩
    refine .ok (hlinked₂.congr rfl fun q => ?_)
    rw [loc_of_update (u := (s₁.setArray a A).modTask p fun t => { t with array := none }) rfl q,
      State.setArray_task, htask₁]
    rfl

/-- Taking `p` out of `array` and putting it into another. -/
theorem requeue_linked {array b : Option ArrayId} {g : State → Option ArrayId} {k : State → State}
    (h : LinkedAs loc s) (hg : ∀ a A, g (s.setArray a A) = b) (hk : ∀ s₁, (k s₁).arrays = s₁.arrays) :
    Outcome (fun f => f.isDequeue = true → array = none ∨ loc p ≠ array)
      (LinkedAs (Function.update loc p b))
      (dequeueTask p array s >>= fun s₁ => enqueueTask p (g s₁) (k s₁)) := by
  refine (dequeueTask_linked h array).bind ?_
  rintro s₁ ⟨hlinked, a, A, rfl⟩
  have hlinked₁ := hlinked.congr (hk (s.setArray a A)) fun _ => rfl
  rw [hg]
  refine (enqueueTask_linked hlinked₁ (Function.update_self ..) b).imp ?_ ?_
  · intro f hf hdeq
    rw [hf] at hdeq
    cases hdeq
  · rintro s₂ ⟨hlinked₂, -⟩
    rwa [Function.update_idem] at hlinked₂

/-- Taking `p` out of the array it is in and putting it back. -/
theorem replace_linked {g : State → Option ArrayId} {k : State → State} (h : Linked s)
    (hg : ∀ a A, g (s.setArray a A) = (s.task p).array) (hk : ∀ s₁, (k s₁).arrays = s₁.arrays) :
    Outcome (fun f => f.isDequeue = true → (s.task p).array = none) (LinkedAs s.loc)
      (dequeueTask p (s.task p).array s >>= fun s₁ => enqueueTask p (g s₁) (k s₁)) := by
  refine (requeue_linked h hg hk).imp ?_ ?_
  · exact fun f hf hdeq => (hf hdeq).resolve_right fun hne => hne rfl
  · intro s' hlinked
    have hloc : Function.update s.loc p (s.task p).array = s.loc := Function.update_eq_self p s.loc
    rwa [hloc] at hlinked

theorem startMagic_linked (h : Linked s) :
    Outcome (fun f => f.isDequeue = true → (s.task s.curr).array = none) Linked (startMagic s) := by
  have hlinked : Outcome (fun f => f.isDequeue = true → (s.task s.curr).array = none)
      (LinkedAs s.loc) (startMagic s) := by
    unfold startMagic
    dsimp only
    generalize hs₁ : State.modTask _ s.curr _ = s₁
    have hloc₁ : s₁.loc = s.loc := by
      rw [← hs₁]
      exact loc_modTask _ _ _ fun _ => rfl
    have hlinked₁ : Linked s₁ := h.congr (by rw [← hs₁]; rfl) fun q => congrFun hloc₁ q
    have harray : (s₁.task s.curr).array = (s.task s.curr).array := congrFun hloc₁ s.curr
    rw [← bind_assoc, ← harray, ← hloc₁]
    refine (replace_linked hlinked₁ (fun a A => ?_) ?_).bind ?_
    · exact congrFun (loc_modTask (s₁.setArray a A) s.curr (fun t => { t with prio := 50 }) fun _ => rfl) s.curr
    · exact fun _ => rfl
    · exact fun s₂ hlinked₂ => .ok (hlinked₂.congr rfl fun _ => rfl)
  refine (hlinked.and_ok fun s' h' => startMagic_spec h').imp (fun _ h => h) ?_
  rintro s' ⟨hlinked', -, htask, -⟩
  refine hlinked'.congr rfl fun q => ?_
  rw [loc_of_update htask q]
  exact congrFun (Function.update_eq_self s.curr s.loc) q

theorem lowerPrio_linked {m : TaskId} (h : Linked s) :
    Outcome (fun f => f.isDequeue = true → s.magicSleepFlag = false ∧ (s.task m).array = none)
      (LinkedAs s.loc) (lowerPrio m s) := by
  unfold lowerPrio
  split
  · rename_i hflag
    refine (replace_linked (p := m) h (fun a A => ?_) ?_).imp ?_ fun _ h => h
    · exact congrFun (loc_modTask (s.setArray a A) s.curr (fun t => { t with prio := 130 }) fun _ => rfl) m
    · exact fun _ => rfl
    · exact fun f hf hdeq => ⟨hflag, hf hdeq⟩
  · exact .ok h

theorem tasksAfterExit_array (s : State) (m q : TaskId) :
    (s.tasksAfterExit m q).array = (s.task q).array := by
  have hprio : ∀ q, (Function.update s.task (s.demoted m)
      { s.task (s.demoted m) with prio := 130 } q).array = (s.task q).array := by
    intro q
    by_cases hq : q = s.demoted m
    · subst hq
      rw [Function.update_self]
    · rw [Function.update_of_ne hq]
  rw [State.tasksAfterExit]
  by_cases hq : q = m
  · subst hq
    rw [Function.update_self]
    exact hprio q
  · rw [Function.update_of_ne hq]
    exact hprio q

theorem exitFromMagic_linked (h : Linked s) :
    Outcome (fun f => f.isDequeue = true →
        ∃ m, s.magicProcess = some m ∧ s.magicSleepFlag = false ∧ (s.task m).array = none)
      Linked (exitFromMagic s) := by
  have hlinked : Outcome (fun f => f.isDequeue = true →
        ∃ m, s.magicProcess = some m ∧ s.magicSleepFlag = false ∧ (s.task m).array = none)
      (LinkedAs s.loc) (exitFromMagic s) := by
    unfold exitFromMagic
    split
    · exact .error fun hf => absurd hf Bool.false_ne_true
    · rename_i m hm
      refine ((lowerPrio_linked h).imp ?_ fun _ h => h).bind ?_
      · exact fun f hf hdeq => ⟨m, hm, hf hdeq⟩
      · exact fun s₁ hlinked₁ => .ok (hlinked₁.congr rfl fun _ => rfl)
  refine (hlinked.and_ok fun s' h' => exitFromMagic_spec h').imp (fun _ h => h) ?_
  rintro s' ⟨hlinked', m, -, htask, -⟩
  refine hlinked'.congr rfl fun q => ?_
  rw [State.loc, htask]
  exact tasksAfterExit_array s m q

theorem not_isDequeue_of_imp {f : Fault} {P : Prop} (hf : f.isDequeue = true → P) (hP : ¬P) :
    f.isDequeue = false := by
  cases hdeq : f.isDequeue with
  | false => rfl
  | true => exact absurd (hf hdeq) hP

/-- Putting a task that has just been taken out of its array into another. -/
theorem enqueueTask_relinked (h : LinkedAs (Function.update s.loc p none) s) (array : Option ArrayId) :
    Outcome (fun f => f.isDequeue = false) Linked (enqueueTask p array s) := by
  refine (enqueueTask_linked h (Function.update_self ..) array).imp (fun _ h => h) ?_
  rintro s₁ ⟨hlinked, htask⟩
  refine hlinked.congr rfl fun q => ?_
  rw [loc_of_update htask q, Function.update_idem]
  rfl

theorem dequeueActive_linked (h : Linked s) (hp : (s.task p).array = some s.active) :
    Outcome (fun f => f.isDequeue = false)
      (fun s' => LinkedAs (Function.update s'.loc p none) s' ∧ ∃ a A, s' = s.setArray a A)
      (dequeueTask p (some s.active) s) := by
  refine (dequeueTask_linked h (some s.active)).imp ?_ ?_
  · exact fun f hf => not_isDequeue_of_imp hf
      (not_or.2 ⟨Option.some_ne_none _, fun hne => hne hp⟩)
  · rintro s₁ ⟨hlinked₁, a, A, rfl⟩
    exact ⟨hlinked₁, a, A, rfl⟩

theorem expireSlice_linked (h : Linked s) (hp : (s.task p).array = some s.active) :
    Outcome (fun f => f.isDequeue = false) Linked (expireSlice p s) := by
  unfold expireSlice
  refine (dequeueActive_linked h hp).bind ?_
  rintro s₁ ⟨hlinked₁, a, A, rfl⟩
  have hloc := loc_modTask (s.setArray a A) p
    (fun t => { refillSlice t with prio := t.effectivePrio }) fun _ => rfl
  rw [← hloc] at hlinked₁
  dsimp only
  split
  · refine enqueueTask_relinked ?_ _
    split <;> exact hlinked₁
  · exact enqueueTask_relinked hlinked₁ _

theorem chargeTick_linked (h : Linked s) :
    Outcome (fun f => f.isDequeue = false) Linked (chargeTick p s) := by
  unfold chargeTick
  split
  · exact .ok (h.modTask p (fun t => { t with needResched := true }) fun _ => rfl)
  · rename_i harray
    rw [not_not] at harray
    split
    · split
      · have hlinked₁ : Linked (s.modTask p fun t => { t with timeSlice := t.timeSlice - 1 }) :=
          h.modTask p (fun t => { t with timeSlice := t.timeSlice - 1 }) fun _ => rfl
        dsimp only
        split
        · have harray₂ : (((s.modTask p fun t => { t with timeSlice := t.timeSlice - 1 }).modTask p
              refillSlice).task p).array = some s.active := by
            simp only [State.modTask_task, Function.update_self]
            exact harray
          refine (dequeueActive_linked (hlinked₁.modTask p refillSlice fun _ => rfl) harray₂).bind ?_
          exact fun s₁ hlinked₂ => enqueueTask_relinked hlinked₂.1 _
        · exact .ok hlinked₁
      · exact .ok h
    · have hlinked₁ := (h.modTask p
        (fun t => { t with sleepAvg := if t.sleepAvg ≠ 0 then t.sleepAvg - 1 else 0 })
        fun _ => rfl).modTask p (fun t => { t with timeSlice := t.timeSlice - 1 }) fun _ => rfl
      dsimp only
      split
      · refine expireSlice_linked hlinked₁ ?_
        simp only [State.modTask_task, Function.update_self]
        exact harray
      · exact .ok hlinked₁

theorem yieldRequeue_error {f : Fault} (h : yieldRequeue s = .error f) : f.isDequeue = false := by
  rw [yieldRequeue] at h
  split at h
  · cases h
    rfl
  dsimp only at h
  split at h
  · cases h
    rfl
  split at h
  · cases h
    rfl
  split at h
  · cases h
  split at h
  · cases h
  · cases h

theorem yieldRequeue_linked (h : Linked s) :
    Outcome (fun f => f.isDequeue = false) Linked (yieldRequeue s) := by
  refine .intro (fun f hf => yieldRequeue_error hf) fun s' hs' b q => ?_
  obtain ⟨a, i, B, hrequeued, rfl⟩ := yieldRequeue_ok hs'
  obtain ⟨l, hperm, hqueue⟩ := hrequeued.queue
  have hlinks : B.Links q ↔ (s.arrays a).Links q := by
    rw [PrioArray.links_update hrequeued.lt hqueue fun r => hperm.mem_iff.trans List.mem_cons,
      PrioArray.links_listDel]
    by_cases hq : q = s.curr
    · subst hq
      simp [hrequeued.links]
    · simp [hq]
  have hloc : ((s.modTask s.curr fun t => { t with prio := i }).setArray a B).loc q = s.loc q :=
    congrFun (loc_modTask s s.curr (fun t => { t with prio := i }) fun _ => rfl) q
  rw [hloc, State.setArray_arrays, State.modTask_arrays]
  by_cases hb : b = a
  · subst hb
    rw [Function.update_self, hlinks]
    exact h b q
  · rw [Function.update_of_ne hb]
    exact h b q

/-! ### Ticks and `schedule()` -/

/-- `exit_from_magic` would now take the registered process off the run queue, but it is not on it. -/
def Exposed (s : State) : Prop :=
  ∃ m, s.magicProcess = some m ∧ s.magicSleepFlag = false ∧ (s.task m).array = none

theorem Exposed.congr (h : Exposed s') (hm : s'.magicProcess = s.magicProcess)
    (hflag : s'.magicSleepFlag = s.magicSleepFlag) (hloc : ∀ p, s'.loc p = none → s.loc p = none) :
    Exposed s := by
  obtain ⟨m, hm', hflag', harray⟩ := h
  exact ⟨m, hm ▸ hm', hflag ▸ hflag', hloc m harray⟩

theorem magicTimer_linked (h : Linked s) :
    Outcome (fun f => f.isDequeue = true → Exposed s) Linked (magicTimer s) := by
  unfold magicTimer
  split
  · dsimp only
    have hlinked₁ : Linked { s with MAGICTIME := s.MAGICTIME - 1 } := h
    split
    · refine (exitFromMagic_linked hlinked₁).bind fun s₁ hlinked₂ => ?_
      exact .ok (hlinked₂.modTask s.curr (fun t => { t with needResched := true }) fun _ => rfl)
    · exact .ok hlinked₁
  · exact .ok h

theorem imp_of_not_isDequeue {f : Fault} {P : Prop} (hf : f.isDequeue = false) :
    f.isDequeue = true → P := by
  intro hdeq
  rw [hf] at hdeq
  cases hdeq

theorem schedulerTick_linked (h : Linked s) :
    Outcome (fun f => f.isDequeue = true → Exposed s) Linked (schedulerTick s) := by
  unfold schedulerTick
  refine (magicTimer_linked h).bind fun s₁ hlinked₁ => ?_
  split
  · exact .ok hlinked₁
  · exact (chargeTick_linked hlinked₁).imp (fun f hf => imp_of_not_isDequeue hf) fun _ h => h

def Flow.state : Flow → State
  | .fall s => s
  | .goto _ s => s

theorem Linked.renewMagic (h : Linked s) (m : TaskId) : Linked (renewMagic m s) := by
  rw [Sched.renewMagic]
  split
  · exact h
  · exact h

theorem exitFromMagic_loc (h : exitFromMagic s = .ok s') : s'.loc = s.loc := by
  obtain ⟨m, -, htask, -⟩ := exitFromMagic_spec h
  funext q
  rw [State.loc, htask]
  exact tasksAfterExit_array s m q

theorem magicSegment_linked (h : Linked s) :
    Outcome (fun f => f.isDequeue = true → Exposed s)
      (fun f => Linked f.state ∧ f.state.loc = s.loc) (magicSegment s) := by
  unfold magicSegment
  split
  · exact .ok ⟨h, rfl⟩
  · rename_i m hm
    dsimp only
    have hlinked := h.renewMagic m
    have hloc : (renewMagic m s).loc = s.loc := by
      funext q
      rw [State.loc, renewMagic_task]
      rfl
    have hexit : Outcome (fun f => f.isDequeue = true → Exposed s)
        (fun s₁ => Linked s₁ ∧ s₁.loc = s.loc) (exitFromMagic (renewMagic m s)) := by
      refine ((exitFromMagic_linked hlinked).and_ok fun s₁ h₁ => exitFromMagic_loc h₁).imp ?_ ?_
      · intro f hf hdeq
        obtain ⟨m', hm', hflag, harray⟩ := hf hdeq
        rw [renewMagic_magicProcess] at hm'
        rw [renewMagic_magicSleepFlag] at hflag
        rw [renewMagic_task] at harray
        exact ⟨m', hm', hflag, harray⟩
      · exact fun s₁ h₁ => ⟨h₁.1, h₁.2.trans hloc⟩
    split
    · exact hexit.bind fun s₁ h₁ => .ok h₁
    · split
      · exact hexit.bind fun s₁ h₁ => .ok h₁
      · split
        · split
          · exact .ok ⟨hlinked, hloc⟩
          · exact .ok ⟨hlinked, hloc⟩
          · exact hexit.bind fun s₁ h₁ => .ok h₁
          · exact .ok ⟨hlinked, hloc⟩
        · exact .ok ⟨hlinked, hloc⟩

theorem startUnlessStarted_linked (h : Linked s) :
    Outcome (fun f => f.isDequeue = true → (s.task s.curr).array = none) Linked
      (startUnlessStarted s) := by
  unfold startUnlessStarted
  split
  · exact startMagic_linked h
  · exact .ok h

theorem startUnlessStarted_loc (h : startUnlessStarted s = .ok s') :
    s'.loc = s.loc ∧ s'.curr = s.curr := by
  rw [startUnlessStarted] at h
  split at h
  · obtain ⟨-, htask, hcore⟩ := startMagic_spec h
    refine ⟨funext fun q => ?_, congrArg Core.curr hcore⟩
    rw [loc_of_update htask q]
    exact congrFun (Function.update_eq_self s.curr s.loc) q
  · cases h
    exact ⟨rfl, rfl⟩

theorem runningArm_linked (h : Linked s) :
    Outcome (fun f => f.isDequeue = true →
        0 < (s.task s.curr).magicTime ∧ (s.task s.curr).array = none)
      (fun f => Linked f.state) (runningArm s) := by
  unfold runningArm
  split
  · rename_i hmagic
    refine ((startUnlessStarted_linked h).imp ?_ fun _ h => h).bind fun s₁ h₁ => .ok h₁
    exact fun f hf hdeq => ⟨hmagic, hf hdeq⟩
  · exact .ok h

/-- The current task of `v` must not call `schedule()` while it is off the run queue, unless it is
an idle task with nothing to start. -/
def OffQueueFault (v : View) : Prop := (v.task v.curr).state ≠ .running ∨ 0 < (v.task v.curr).magicTime

/-- The current task is deactivated and then falls into the arm that starts magic. -/
def FallThroughFault (v : View) : Prop :=
  0 < (v.task v.curr).magicTime ∧ (v.task v.curr).state ≠ .running ∧
    (v.task v.curr).state ≠ .interruptible

theorem stateSwitch_linked (h : Linked s) :
    Outcome (fun f => f.isDequeue = true →
        ((s.task s.curr).array = none ∧ OffQueueFault s.view) ∨ FallThroughFault s.view)
      (fun f => Linked f.state) (stateSwitch s) := by
  have hdeactivate : (s.task s.curr).state ≠ .running →
      ((s.task s.curr).state = .interruptible → ¬0 < (s.task s.curr).magicTime) →
      Outcome (fun f => f.isDequeue = true →
        ((s.task s.curr).array = none ∧ OffQueueFault s.view) ∨ FallThroughFault s.view)
      (fun f => Linked f.state) (deactivateTask s.curr s >>= runningArm) := by
    intro hrun hint
    refine (((deactivateTask_linked h).and_ok fun s₁ h₁ => frame_deactivateTask h₁).imp ?_
      fun _ h => h).bind ?_
    · exact fun f hf hdeq => Or.inl ⟨hf hdeq, Or.inl hrun⟩
    · rintro s₁ ⟨hlinked₁, hframe₁⟩
      refine (runningArm_linked hlinked₁).imp ?_ fun _ h => h
      intro f hf hdeq
      have hmagic : (s₁.task s₁.curr).magicTime = (s.task s.curr).magicTime := by
        rw [hframe₁.curr, hframe₁.task_self]
      have hpos := (hf hdeq).1
      rw [hmagic] at hpos
      exact Or.inr ⟨hpos, hrun, fun hstate => hint hstate hpos⟩
  unfold stateSwitch
  split
  · rename_i hstate
    have hrun : (s.task s.curr).state ≠ .running := by
      rw [hstate]
      exact TaskState.noConfusion
    split
    · refine (((startUnlessStarted_linked h).and_ok fun s₁ h₁ => startUnlessStarted_loc h₁).imp ?_
        fun _ h => h).bind ?_
      · exact fun f hf hdeq => Or.inl ⟨hf hdeq, Or.inl hrun⟩
      · rintro s₁ ⟨hlinked₁, hloc₁, hcurr₁⟩
        have hlinked₂ : Linked { s₁ with idleFromMagic := true, magicSleepFlag := true } := hlinked₁
        refine ((deactivateTask_linked hlinked₂).imp ?_ fun _ h => h).bind fun s₂ h₂ => .ok h₂
        intro f hf hdeq
        have harray : (s₁.task s₁.curr).array = none := hf hdeq
        rw [hcurr₁] at harray
        exact Or.inl ⟨(congrFun hloc₁ s.curr).symm.trans harray, Or.inl hrun⟩
    · rename_i hmagic
      split
      · exact .ok (h.modTask s.curr (fun t => { t with state := .running }) fun _ => rfl)
      · exact hdeactivate hrun fun _ => hmagic
  · refine (runningArm_linked h).imp ?_ fun _ h => h
    exact fun f hf hdeq => Or.inl ⟨(hf hdeq).2, Or.inr (hf hdeq).1⟩
  · rename_i hint hrun
    exact hdeactivate hrun fun hstate => absurd hstate hint

theorem pickNextTask_linked (h : Linked s) :
    Outcome (fun f => f.isDequeue = false) (fun r => Linked r.2) (pickNextTask s) := by
  refine .intro ?_ ?_
  · intro f hf
    rw [pickNextTask] at hf
    split at hf
    · cases hf
    · rcases firstQueued_eq_error hf with rfl | rfl <;> rfl
  · rintro ⟨n, s₁⟩ h₁
    obtain ⟨htask, -, harrays, -⟩ := pickNextTask_spec h₁
    exact h.congr harrays fun q => by rw [State.loc, htask]; rfl

/-- Where `schedule()` may call `dequeue_task` on a task that is off the run queue. -/
def ScheduleFault (s : State) : Prop :=
  Exposed s ∨ ∃ w, View.Segment s.view w ∧
    (((s.task s.curr).array = none ∧ OffQueueFault w) ∨ FallThroughFault w)

theorem selectNext_linked (h : Linked s) :
    Outcome (fun f => f.isDequeue = true → ScheduleFault s) (fun r => Linked r.2) (selectNext s) := by
  unfold selectNext
  have hview := stampSleep_view s
  have hloc : (stampSleep s).loc = s.loc :=
    loc_modTask s s.curr (fun t => { t with sleepTimestamp := s.jiffies }) fun _ => rfl
  have hlinked : Linked (stampSleep s) :=
    h.modTask s.curr (fun t => { t with sleepTimestamp := s.jiffies }) fun _ => rfl
  generalize stampSleep s = s₁ at hview hloc hlinked
  have hcurr : s₁.curr = s.curr := congrArg (fun v : View => v.curr) hview
  refine (((magicSegment_linked hlinked).and_ok fun f hf => magicSegment_view (fun _ => True) hf).imp ?_
    fun _ h => h).bind ?_
  · intro f hf hdeq
    obtain ⟨m, hm, hflag, harray⟩ := hf hdeq
    refine Or.inl ⟨m, ?_, ?_, ?_⟩
    · rw [← hm]
      exact (congrArg (fun v : View => v.magicProcess) hview).symm
    · rw [← hflag]
      exact (congrArg (fun v : View => v.magicSleepFlag) hview).symm
    · rw [← harray]
      exact (congrFun hloc m).symm
  · rintro f ⟨⟨hlinked₂, hloc₂⟩, hseg⟩
    cases f with
    | goto n s₂ => exact .ok hlinked₂
    | fall s₂ =>
        rw [FlowView, hview] at hseg
        have hcurr₂ : s₂.curr = s.curr := hseg.curr
        refine ((stateSwitch_linked hlinked₂).imp ?_ fun _ h => h).bind ?_
        · intro f hf hdeq
          refine Or.inr ⟨s₂.view, hseg, (hf hdeq).imp_left fun h₂ => ⟨?_, h₂.2⟩⟩
          have harray : s₂.loc s₂.curr = none := h₂.1
          have hloc₂' : s₂.loc = s.loc := hloc₂.trans hloc
          rw [hloc₂', hcurr₂] at harray
          exact harray
        · intro g hlinked₃
          cases g with
          | goto n s₃ => exact .ok hlinked₃
          | fall s₃ => exact (pickNextTask_linked hlinked₃).imp (fun f hf => imp_of_not_isDequeue hf) fun _ h => h

theorem schedule_linked (h : Linked s) :
    Outcome (fun f => f.isDequeue = true → ScheduleFault s) Linked (schedule s) := by
  unfold schedule
  refine (selectNext_linked h).bind ?_
  rintro ⟨n, s₁⟩ hlinked₁
  unfold switchTasks
  cases n with
  | unassigned => exact .error (imp_of_not_isDequeue rfl)
  | null => exact .error (imp_of_not_isDequeue rfl)
  | task n =>
      have hlinked₂ : Linked (s₁.modTask s₁.curr fun t => { t with needResched := false }) :=
        Linked.modTask hlinked₁ s₁.curr (fun t => { t with needResched := false }) fun _ => rfl
      dsimp only
      split
      · exact .ok hlinked₂
      · exact .ok hlinked₂

theorem sysSchedYield_linked (h : Linked s) :
    Outcome (fun f => f.isDequeue = true → ∃ s₁, yieldRequeue s = .ok s₁ ∧ ScheduleFault s₁) Linked
      (sysSchedYield s) := by
  unfold sysSchedYield
  refine (((yieldRequeue_linked h).and_ok (P := fun s₁ => yieldRequeue s = .ok s₁)
    fun _ h₁ => h₁).imp (fun f hf => imp_of_not_isDequeue hf) fun _ h => h).bind ?_
  rintro s₁ ⟨hlinked₁, h₁⟩
  exact (schedule_linked hlinked₁).imp (fun f hf hdeq => ⟨s₁, h₁, hf hdeq⟩) fun _ h => h

/-! ### The other steps -/

theorem setNeedResched_linked (h : Linked s) (p : TaskId) : Linked (s.setNeedResched p) :=
  h.modTask p (fun t => { t with needResched := true }) fun _ => rfl

theorem tryToWakeUp_linked (h : Linked s) :
    Outcome (fun f => f.isDequeue = false) Linked (tryToWakeUp p s) := by
  unfold tryToWakeUp
  refine Outcome.bind (Q := Linked) ?_ fun s₁ h₁ =>
    .ok (h₁.modTask p (fun t => { t with state := .running }) fun _ => rfl)
  unfold wakeIfOffQueue
  split
  · rename_i harray
    unfold wakeOffQueue
    refine (activateTask_linked ?_ ?_).bind fun s₁ h₁ => ?_
    · split <;> exact h
    · split <;> exact harray
    · refine .ok ?_
      split
      · exact setNeedResched_linked h₁ s₁.curr
      · exact h₁
  · exact .ok h

theorem forkPenalty_linked (h : Linked s) : Linked (forkPenalty p s) := by
  rw [forkPenalty]
  split
  · exact ((h.modTask _ (fun t => { t with sleepAvg := t.sleepAvg * parentPenalty / 100 })
      fun _ => rfl).modTask p (fun t => { t with sleepAvg := t.sleepAvg * childPenalty / 100 })
      fun _ => rfl).modTask p (fun t => { t with prio := t.effectivePrio }) fun _ => rfl
  · exact h

theorem forkPenalty_loc (p : TaskId) (s : State) : (forkPenalty p s).loc = s.loc := by
  rw [forkPenalty]
  split
  · exact (loc_modTask _ p (fun t => { t with prio := t.effectivePrio }) fun _ => rfl).trans
      ((loc_modTask _ p (fun t => { t with sleepAvg := t.sleepAvg * childPenalty / 100 })
        fun _ => rfl).trans (loc_modTask _ s.curr
          (fun t => { t with sleepAvg := t.sleepAvg * parentPenalty / 100 }) fun _ => rfl))
  · rfl

theorem wakeUpForkedProcess_linked (h : Linked s) (hp : (s.task p).array = none) :
    Outcome (fun f => f.isDequeue = false) Linked (wakeUpForkedProcess p s) := by
  unfold wakeUpForkedProcess
  have hlinked : Linked (s.modTask p fun t => { t with state := .running }) :=
    h.modTask p (fun t => { t with state := .running }) fun _ => rfl
  refine activateTask_linked (forkPenalty_linked hlinked) ?_
  exact (congrFun (forkPenalty_loc p _) p).trans
    ((congrFun (loc_modTask s p (fun t => { t with state := .running }) fun _ => rfl) p).trans hp)

theorem schedulerTick_loc (h : schedulerTick s = .ok s') (q : TaskId) :
    s'.loc q = none ↔ s.loc q = none := by
  have hsome : (s'.loc q).isSome = (s.loc q).isSome := (schedulerTick_view h).queued q
  rw [← Option.isNone_iff_eq_none, ← Option.isNone_iff_eq_none, ← Option.not_isSome,
    ← Option.not_isSome, hsome]

theorem tickIfSpent_linked (h : Linked s) :
    Outcome (fun f => f.isDequeue = true → Exposed s)
      (fun s' => Linked s' ∧ ∀ q, s'.loc q = none ↔ s.loc q = none) (tickIfSpent s) := by
  unfold tickIfSpent
  have hloc := loc_modTask s s.curr (fun t => { t with timeSlice := 1 }) fun _ => rfl
  split
  · have hlinked : Linked (s.modTask s.curr fun t => { t with timeSlice := 1 }) :=
      h.modTask s.curr (fun t => { t with timeSlice := 1 }) fun _ => rfl
    refine ((schedulerTick_linked hlinked).and_ok fun s₁ h₁ => schedulerTick_loc h₁).imp ?_ ?_
    · exact fun f hf hdeq => (hf hdeq).congr rfl rfl fun q hq => by rwa [hloc] at hq
    · rintro s₁ ⟨hlinked₁, hloc₁⟩
      exact ⟨hlinked₁, fun q => by rw [hloc₁, hloc]⟩
  · exact .ok ⟨h, fun q => Iff.rfl⟩

theorem copyProcess_loc {child : TaskId} (hchild : (s.task child).array = none) :
    (copyProcess child s).loc = s.loc := by
  funext q
  rw [loc_of_update (u := copyProcess child s) rfl q]
  have hloc : Function.update s.loc child none = s.loc := by
    rw [← hchild]
    exact Function.update_eq_self child s.loc
  exact congrFun hloc q

theorem shareTimeSlice_loc (child : TaskId) (s : State) : (shareTimeSlice child s).loc = s.loc :=
  (loc_modTask _ s.curr (fun t => { t with timeSlice := (s.task s.curr).timeSlice >>> 1 })
    fun _ => rfl).trans (loc_modTask s child
      (fun t => { t with
        timeSlice := ((s.task s.curr).timeSlice + 1) >>> 1
        firstTimeSlice := true
        sleepTimestamp := s.jiffies }) fun _ => rfl)

theorem doFork_linked {child : TaskId} {vfork : Bool} (h : Linked s)
    (hchild : (s.task child).array = none) :
    Outcome (fun f => f.isDequeue = true → Exposed s) Linked (doFork child vfork s) := by
  unfold doFork
  have hloc : (shareTimeSlice child (copyProcess child s)).loc = s.loc :=
    (shareTimeSlice_loc child _).trans (copyProcess_loc hchild)
  have hlinked : Linked (shareTimeSlice child (copyProcess child s)) :=
    h.congr rfl fun q => by rw [hloc]
  dsimp only
  split
  · exact .error (imp_of_not_isDequeue rfl)
  · refine ((tickIfSpent_linked hlinked).imp ?_ fun _ h => h).bind ?_
    · exact fun f hf hdeq => (hf hdeq).congr rfl rfl fun q hq => by rwa [hloc] at hq
    · rintro s₁ ⟨hlinked₁, hloc₁⟩
      have harray₁ : (s₁.task child).array = none := by
        refine (hloc₁ child).2 ?_
        rw [hloc]
        exact hchild
      refine ((wakeUpForkedProcess_linked hlinked₁ harray₁).imp
        (fun f hf => imp_of_not_isDequeue hf) fun _ h => h).bind fun s₂ h₂ => ?_
      refine .ok ?_
      split
      · exact h₂
      · exact setNeedResched_linked h₂ s₂.curr

theorem releaseTask_linked (h : Linked s) :
    Outcome (fun f => f.isDequeue = false) Linked (releaseTask p s) := by
  unfold releaseTask
  split
  · exact .error rfl
  · obtain ⟨ts, avg, hexit, -⟩ := schedExit_spec p s
    dsimp only
    rw [hexit]
    exact .ok (h.modTask s.curr (fun t => { t with timeSlice := ts, sleepAvg := avg }) fun _ => rfl)

/-- A task structure that is not in use is on no run queue. -/
def FreeUnlinked (s : State) : Prop := ∀ p, s.allocated p = false → (s.task p).array = none

/-- Where an event may call `dequeue_task` on a task that is off the run queue. -/
def DequeueFault (s : State) : Event → Prop
  | .tick => Exposed s
  | .fork _ _ => Exposed s
  | .schedule => ScheduleFault s
  | .yield => ∃ s', yieldRequeue s = .ok s' ∧ ScheduleFault s'
  | _ => False

/-- Every step keeps the links, and it faults in `dequeue_task` only where `DequeueFault` says. -/
theorem step_linked (h : Linked s) (hfree : FreeUnlinked s) {e : Event} (henabled : Enabled s e) :
    Outcome (fun f => f.isDequeue = true → DequeueFault s e) Linked (step s e) := by
  cases e with
  | tick =>
      have hlinked : Linked { s with jiffies := s.jiffies + 1 } := h
      exact (schedulerTick_linked hlinked).imp
        (fun f hf hdeq => (hf hdeq).congr rfl rfl fun _ hq => hq) fun _ h => h
  | wake p => exact (tryToWakeUp_linked h).imp (fun f hf => imp_of_not_isDequeue hf) fun _ h => h
  | signal p pending => exact .ok (h.modTask p (fun t => { t with sigpending := pending }) fun _ => rfl)
  | setState state => exact .ok (h.modTask s.curr (fun t => { t with state := state }) fun _ => rfl)
  | schedule => exact schedule_linked h
  | yield => exact sysSchedYield_linked h
  | fork child vfork => exact doFork_linked h (hfree child henabled.2)
  | release p => exact (releaseTask_linked h).imp (fun f hf => imp_of_not_isDequeue hf) fun _ h => h
  | getWand => exact .ok (h.modTask s.curr (fun t => { t with holdingWand := true }) fun _ => rfl)
  | magicClock seconds =>
      refine .ok ?_
      unfold sysMagicClock
      split
      · exact h.modTask s.curr (fun t =>
          { t with magicTime := seconds * UInt32.ofNat hz, magicCallTime := s.jiffies }) fun _ => rfl
      · exact h

end

end MagicKernel.Sched
