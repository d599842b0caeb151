import MagicKernel.ProcLinks

/-! Signals and wake-ups. Whatever is sent, tasks are only woken up and signals only become pending; what
`wake_up_parent` and `kill_pg` achieve beyond that is said of the tasks they are meant for. -/

namespace MagicKernel.Proc

open FaultMachine PointerLists
open Function (update update_of_ne)
open Sched (TaskState)

variable {env : Env} {s t u : State} {p q r : TaskId} {tasks : List TaskId} {kids : TaskId → List TaskId} {sig : Nat}
  {loose : Option TaskId}

/-! ### Tasks that are woken up -/

/-- Other states, pending signals and exit codes. -/
def State.rouse (s : State) (st : TaskId → TaskState) (sp : TaskId → Bool) (ec : TaskId → Nat) : State :=
  { s with state := st, sigpending := sp, exitCode := ec }

/-- Tasks that slept or were stopped may have been woken up, and signals become pending. -/
def Woken (s t : State) : Prop :=
  ∃ st sp ec, t = s.rouse st sp ec ∧
    (∀ p, st p = s.state p ∨ st p = .running ∧ (s.state p = .interruptible ∨ s.state p = .stopped)) ∧
    (∀ p, s.sigpending p = true → sp p = true) ∧ ∀ p, s.sighand p = false → ec p = s.exitCode p

theorem Woken.refl (s : State) : Woken s s :=
  ⟨s.state, s.sigpending, s.exitCode, rfl, fun _ => .inl rfl, fun _ => id, fun _ _ => rfl⟩

theorem Woken.zombie_iff (hw : Woken s t) (p : TaskId) : t.state p = .zombie ↔ s.state p = .zombie := by
  obtain ⟨st, sp, ec, rfl, hst, -⟩ := hw
  change st p = _ ↔ _
  rcases hst p with h | ⟨h, h' | h'⟩
  · rw [h]
  · simp only [h, h', reduceCtorEq]
  · simp only [h, h', reduceCtorEq]

/-- A task that waits has been waiting, and one that runs goes on. -/
theorem Woken.state_eq (hw : Woken s t) (h : t.state p ≠ .running) : s.state p = t.state p := by
  obtain ⟨st, sp, ec, rfl, hst, -⟩ := hw
  rcases hst p with h' | ⟨h', -⟩
  · exact h'.symm
  · exact absurd h' h

theorem Woken.stopped (hw : Woken s t) (h : t.state p = .stopped) : s.state p = .stopped :=
  (hw.state_eq (by rw [h]; exact TaskState.noConfusion)).trans h

theorem Woken.running (hw : Woken s t) (h : s.state p = .running) : t.state p = .running := by
  by_contra hne
  rw [← hw.state_eq hne] at hne
  exact hne h

theorem Woken.trans (hw : Woken s t) (hw' : Woken t u) : Woken s u := by
  obtain ⟨st, sp, ec, rfl, hst, hsp, hec⟩ := hw
  obtain ⟨st', sp', ec', rfl, hst', hsp', hec'⟩ := hw'
  refine ⟨st', sp', ec', rfl, fun p => ?_, fun p h => hsp' p (hsp p h), fun p h => ?_⟩
  · have hstep := hst' p
    change st' p = st p ∨ st' p = .running ∧ (st p = .interruptible ∨ st p = .stopped) at hstep
    rcases hst p with h | ⟨h, hold⟩ <;> rw [h] at hstep
    · exact hstep
    · rcases hstep with h' | ⟨h', -⟩ <;> exact .inr ⟨h', hold⟩
  · exact (hec' p h).trans (hec p h)

/-- What is done to each task of a list in turn. -/
theorem Woken.foldl {f : State → TaskId → State} (hf : ∀ s p, Woken s (f s p)) (l : List TaskId) (s : State) :
    Woken s (l.foldl f s) := by
  induction l generalizing s with
  | nil => exact .refl s
  | cons p l ih => exact (hf s p).trans (ih (f s p))

/-- If its turn brings `p` out of the state `x`, it is not in that state when all have had their turn. -/
theorem foldl_settles {f : State → TaskId → State} (hf : ∀ s p, Woken s (f s p)) {x : TaskState} (hx : x ≠ .running)
    {I : State → Prop} (hI : ∀ s t, Woken s t → I s → I t) (hself : ∀ s, I s → (f s p).state p ≠ x)
    {l : List TaskId}
    (hp : p ∈ l) (hs : I s) : (l.foldl f s).state p ≠ x := by
  induction l generalizing s with
  | nil => cases hp
  | cons q l ih =>
      rcases List.mem_cons.1 hp with rfl | hp
      · intro hst
        have hback := (Woken.foldl hf l (f s p)).state_eq (p := p) (fun h => hx (hst.symm.trans h))
        exact hself s hs (hback.trans hst)
      · exact ih hp (hI s _ (hf s q) hs)

theorem Woken.tree (hw : Woken s t) (ht : Tree loose s tasks kids) : Tree loose t tasks kids := by
  obtain ⟨st, sp, ec, rfl, -⟩ := hw
  exact ⟨ht.ring, ht.nodup, ht.family, ht.mem_kids, ht.allocated, ht.below⟩

theorem Woken.woven (hw : Woken s t) (h : Woven loose s tasks kids) : Woven loose t tasks kids := by
  have htree := hw.tree h.tree
  obtain ⟨st, sp, ec, rfl, -⟩ := hw
  exact ⟨htree, h.threads⟩

theorem Woken.sameGroup (hw : Woken s t) : t.SameGroup = s.SameGroup := by
  obtain ⟨st, sp, ec, rfl, -⟩ := hw
  rfl

theorem Woken.waiting (hw : Woken s t) : t.waiting = s.waiting := by
  obtain ⟨st, sp, ec, rfl, -⟩ := hw
  rfl

theorem Woken.pgrp (hw : Woken s t) : t.pgrp = s.pgrp := by
  obtain ⟨st, sp, ec, rfl, -⟩ := hw
  rfl

theorem woken_wakeUpProcess (h : s.state p = .interruptible ∨ s.state p = .stopped) : Woken s (wakeUpProcess p s) := by
  refine ⟨update s.state p .running, s.sigpending, s.exitCode, rfl, fun q => ?_, fun _ => id, fun _ _ => rfl⟩
  by_cases hq : q = p
  · subst hq
    exact .inr ⟨Function.update_self .., h⟩
  · exact .inl (update_of_ne hq ..)

theorem woken_signalWakeUp (p : TaskId) (s : State) : Woken s (signalWakeUp p s) := by
  have hpending : Woken s { s with sigpending := update s.sigpending p true } := by
    refine ⟨s.state, _, s.exitCode, rfl, fun _ => .inl rfl, fun q hq => ?_, fun _ _ => rfl⟩
    by_cases hqp : q = p
    · subst hqp
      exact Function.update_self ..
    · rwa [update_of_ne hqp]
  rw [signalWakeUp]
  split
  · rename_i h
    exact hpending.trans (woken_wakeUpProcess (.inl h))
  · exact hpending

theorem woken_handleStopSignal (h : s.sighand p ≠ false) : Woken s (handleStopSignal sig p s) := by
  have hcode : ∀ u : State, u.sighand p ≠ false → Woken u { u with exitCode := update u.exitCode p 0 } := by
    intro u hu
    refine ⟨u.state, u.sigpending, _, rfl, fun _ => .inl rfl, fun _ => id, fun q hq => update_of_ne ?_ ..⟩
    rintro rfl
    exact hu hq
  rw [handleStopSignal]
  split
  · dsimp only
    split
    · rename_i hstopped
      have hwake := woken_wakeUpProcess (.inr hstopped)
      exact hwake.trans (hcode _ h)
    · exact hcode s h
  · exact .refl s

theorem woken_sendSig (env : Env) (sig : Nat) (p : TaskId) (s : State) : Woken s (sendSig env sig p s) := by
  rw [sendSig]
  split
  · exact .refl s
  · rename_i h
    have hstop : Woken s (handleStopSignal sig p s) := woken_handleStopSignal (not_or.1 (not_or.1 h).2).2
    dsimp only
    split
    · exact hstop.trans (woken_signalWakeUp p _)
    · exact hstop

/-- Only tasks with signal handlers are stopped. -/
def State.Handled (s : State) (p : TaskId) : Prop := s.state p = .stopped → s.sighand p = true

theorem Woken.handled (hw : Woken s t) (h : s.Handled p) : t.Handled p := by
  intro hst
  have hsig := h (hw.stopped hst)
  obtain ⟨st, sp, ec, rfl, -⟩ := hw
  exact hsig

/-- `SIGCONT` leaves no task stopped. -/
theorem sendSig_cont (env : Env) (h : s.Handled p) : (sendSig env SIGCONT p s).state p ≠ .stopped := by
  by_cases hsig : s.sighand p = false
  · rw [sendSig, if_pos (.inr (.inr hsig))]
    intro hst
    rw [h hst] at hsig
    cases hsig
  · have hstop : (handleStopSignal SIGCONT p s).state p ≠ .stopped := by
      rw [handleStopSignal, if_pos (.inr rfl)]
      dsimp only
      split
      · change update s.state p .running p ≠ _
        rw [Function.update_self]
        exact TaskState.noConfusion
      · assumption
    rw [sendSig, if_neg (by simp [hsig, SIGCONT, nsig])]
    dsimp only
    split
    · intro hstopped
      have hback := (woken_signalWakeUp p (handleStopSignal SIGCONT p s)).state_eq (p := p) (by rw [hstopped]; decide)
      exact hstop (hback.trans hstopped)
    · exact hstop

/-! ### Waking up the parent -/

theorem woken_wakeChldexit (s : State) (p : TaskId) : Woken s (wakeChldexit s p) := by
  rw [wakeChldexit]
  split
  · rename_i h
    exact woken_wakeUpProcess (.inl h.2)
  · exact .refl s

theorem wakeChldexit_self (h : (s.waiting p).isSome = true) : (wakeChldexit s p).state p ≠ .interruptible := by
  rw [wakeChldexit]
  split
  · change update s.state p .running p ≠ _
    rw [Function.update_self]
    exact TaskState.noConfusion
  · rename_i hnot
    exact fun hst => hnot ⟨h, hst⟩

/-- Every thread of the group that sleeps in `sys_wait4` is woken up. -/
theorem Woven.wakeUpParent (hw : Woven loose s tasks kids) (hq : q ∈ initTask :: tasks) :
    ∃ t, wakeUpParent q s = .ok t ∧ Woken s t ∧
      ∀ r, s.SameGroup q r → (s.waiting r).isSome = true → t.state r ≠ .interruptible := by
  obtain ⟨l, hothers, -, -, hmem⟩ := hw.otherThreads hq
  refine ⟨(q :: l).foldl wakeChldexit s, ?_, Woken.foldl woken_wakeChldexit _ s, fun r hr hwait => ?_⟩
  · rw [Proc.wakeUpParent, deref_eq (hw.tree.allocated q hq), ok_bind, hothers, ok_bind]
    rfl
  · exact foldl_settles woken_wakeChldexit TaskState.noConfusion (I := fun s => (s.waiting r).isSome = true)
      (fun s t h hs => h.waiting ▸ hs) (fun s hs => wakeChldexit_self hs) ((hmem r).2 hr) hwait

theorem Woven.doNotifyParent (hw : Woven loose s tasks kids) (hparent : s.pptr p ∈ initTask :: tasks) (env : Env)
    (sig : Nat) :
    ∃ t, doNotifyParent env p sig s = .ok t ∧ Woken s t ∧
      ∀ r, s.SameGroup (s.pptr p) r → (s.waiting r).isSome = true → t.state r ≠ .interruptible := by
  have hsig := woken_sendSig env sig (s.pptr p) s
  obtain ⟨t, ht, hwoken, hwake⟩ := (hsig.woven hw).wakeUpParent hparent
  rw [hsig.sameGroup, hsig.waiting] at hwake
  refine ⟨t, ?_, hsig.trans hwoken, hwake⟩
  rw [Proc.doNotifyParent, deref_eq (hw.tree.allocated _ hparent), ok_bind, ht]

/-! ### Process groups -/

theorem Tree.killPg (ht : Tree loose s tasks kids) (env : Env) (pgrp sig : Nat) :
    ∃ t, killPg env pgrp sig s = .ok t ∧ Woken s t ∧ (sig = SIGCONT → pgrp ≠ 0 →
      ∀ p ∈ tasks, s.Handled p → s.pgrp p = pgrp → s.pid p = s.tgid p → t.state p ≠ .stopped) := by
  by_cases hg : pgrp = 0
  · refine ⟨s, ?_, .refl s, fun _ h => absurd hg h⟩
    rw [Proc.killPg, ht.forEachTask, ok_bind, if_pos hg]
    rfl
  · have hsend : ∀ s p, Woken s (sendSig env sig p s) := fun s p => woken_sendSig env sig p s
    refine ⟨(tasks.filter fun p => s.pgrp p = pgrp ∧ s.pid p = s.tgid p).foldl (fun s p => sendSig env sig p s) s,
      ?_, .foldl hsend _ s, fun hsig _ p hp hhandled hpg hlead => ?_⟩
    · rw [Proc.killPg, ht.forEachTask, ok_bind, if_neg hg]
      rfl
    · subst hsig
      have hmem : p ∈ tasks.filter fun p => s.pgrp p = pgrp ∧ s.pid p = s.tgid p :=
        List.mem_filter.2 ⟨hp, decide_eq_true ⟨hpg, hlead⟩⟩
      exact foldl_settles hsend TaskState.noConfusion (I := fun s => s.Handled p) (fun _ _ h => h.handled)
        (fun _ h => sendSig_cont env h) hmem hhandled

/-- A task by which the process group `pgrp` is connected to another group of its session. -/
def Connects (s : State) (pgrp : Nat) (ignored : Option TaskId) (p : TaskId) : Prop :=
  some p ≠ ignored ∧ s.pgrp p = pgrp ∧ s.state p ≠ .zombie ∧ s.pid (s.pptr p) ≠ 1 ∧
    s.pgrp (s.pptr p) ≠ pgrp ∧
    s.session (s.pptr p) = s.session p

instance (s : State) (pgrp : Nat) (ignored : Option TaskId) (p : TaskId) : Decidable (Connects s pgrp ignored p) :=
  inferInstanceAs (Decidable (_ ∧ _))

theorem isolated_eq {pgrp : Nat} {ignored : Option TaskId} {l : List TaskId}
    (hparent : ∀ p ∈ l, s.allocated (s.pptr p) = true) :
    s.isolated pgrp ignored l = .ok (decide (∀ p ∈ l, ¬Connects s pgrp ignored p)) := by
  induction l with
  | nil => rfl
  | cons p l ih =>
      have hrest := ih fun q hq => hparent q (List.mem_cons_of_mem p hq)
      rw [State.isolated]
      split
      · rename_i h
        have hnot : ¬Connects s pgrp ignored p := by
          rintro ⟨h₁, h₂, h₃, -⟩
          exact h.elim h₁ fun h => h.elim (fun h => h h₂) h₃
        rw [hrest]
        simp only [List.forall_mem_cons, hnot, not_false_eq_true, true_and]
      · rename_i h
        rw [deref_eq (hparent p List.mem_cons_self), ok_bind]
        simp only [not_or, not_not] at h
        split
        · rename_i h'
          have hconn : Connects s pgrp ignored p := ⟨h.1, h.2.1, h.2.2, h'⟩
          simp only [List.forall_mem_cons, hconn, not_true_eq_false, false_and, decide_false]
          rfl
        · rename_i h'
          have hnot : ¬Connects s pgrp ignored p := fun hc => h' hc.2.2.2
          rw [hrest]
          simp only [List.forall_mem_cons, hnot, not_false_eq_true, true_and]

/-- If no task connects the group to another one, none of its leaders stays stopped. -/
theorem Tree.hangUp (ht : Tree loose s tasks kids)
    (hparent : ∀ p ∈ tasks, s.pptr p ∈ initTask :: tasks) (env : Env) (pgrp : Nat) (ignored : Option TaskId) :
    ∃ t, hangUp env pgrp ignored s = .ok t ∧ Woken s t ∧
      ((∀ p ∈ tasks, ¬Connects s pgrp ignored p) → pgrp ≠ 0 →
      ∀ p ∈ tasks, s.Handled p → s.pgrp p = pgrp → s.pid p = s.tgid p → t.state p ≠ .stopped) := by
  have horphaned : willBecomeOrphanedPgrp pgrp ignored s = .ok (decide (∀ p ∈ tasks, ¬Connects s pgrp ignored p)) := by
    rw [willBecomeOrphanedPgrp, ht.forEachTask, ok_bind,
      isolated_eq fun p hp => ht.allocated _ (hparent p hp)]
  have hstopped : hasStoppedJobs pgrp s = .ok (tasks.any fun p => s.pgrp p = pgrp ∧ s.state p = .stopped) := by
    rw [hasStoppedJobs, ht.forEachTask, ok_bind]
    rfl
  rw [Proc.hangUp, horphaned, ok_bind]
  by_cases hiso : ∀ p ∈ tasks, ¬Connects s pgrp ignored p
  · rw [decide_eq_true hiso, if_pos rfl, hstopped, ok_bind]
    cases hany : tasks.any fun p => s.pgrp p = pgrp ∧ s.state p = .stopped with
    | true =>
        obtain ⟨u, hu, hwu, -⟩ := ht.killPg env pgrp SIGHUP
        obtain ⟨v, hv, hwv, hcont⟩ := (hwu.tree ht).killPg env pgrp SIGCONT
        refine ⟨v, ?_, hwu.trans hwv, fun _ hg p hp hhandled hpg hlead =>
          hcont rfl hg p hp (hwu.handled hhandled) ?_ ?_⟩
        · rw [if_pos rfl, hu, ok_bind, hv]
        · rwa [hwu.pgrp]
        · obtain ⟨st, sp, ec, rfl, -⟩ := hwu
          exact hlead
    | false =>
        refine ⟨s, rfl, .refl s, fun _ _ p hp _ hpg _ hst => ?_⟩
        rw [List.any_eq_false] at hany
        exact hany p hp (decide_eq_true ⟨hpg, hst⟩)
  · rw [decide_eq_false hiso]
    exact ⟨s, rfl, .refl s, fun h => absurd h hiso⟩

/-- The same where it is done on a condition. -/
theorem Tree.hangUpIf (ht : Tree loose s tasks kids) (hparent : ∀ p ∈ tasks, s.pptr p ∈ initTask :: tasks)
    (hhandled : ∀ p ∈ tasks, s.Handled p) (env : Env) (pgrp : Nat) (ignored : Option TaskId) (c : Prop) [Decidable c] :
    ∃ t, (if c then Proc.hangUp env pgrp ignored s else .ok s) = .ok t ∧ Woken s t ∧
      (c → (∀ p ∈ tasks, ¬Connects s pgrp ignored p) → pgrp ≠ 0 →
        ∀ p ∈ tasks, s.pgrp p = pgrp → s.pid p = s.tgid p → t.state p ≠ .stopped) := by
  by_cases hc : c
  · obtain ⟨t, hhang, hw, hstopped⟩ := ht.hangUp hparent env pgrp ignored
    exact ⟨t, (if_pos hc).trans hhang, hw, fun _ hnot hg p hp => hstopped hnot hg p hp (hhandled p hp)⟩
  · exact ⟨s, if_neg hc, .refl s, fun h => absurd h hc⟩

end MagicKernel.Proc
