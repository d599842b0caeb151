import MagicKernel.SchedDequeue

/-! What `schedule()` switches to. `next` is assigned on every path: the arm of the magic segment that
leaves it unassigned needs a registered zombie, which an earlier test of the segment has already
dealt with. What `next` is assigned is the idle task or a runnable task on the run queue, unless the
caller falls through from its deactivation into the arm of the running tasks. -/

namespace MagicKernel.Sched

open FaultMachine

namespace View

variable {v w : View}

/-- A caller that neither runs nor sleeps interruptibly does not get the processor back. -/
def GivesUp (v : View) (t : TaskId) : Prop :=
  (v.task v.curr).state ≠ .running → (v.task v.curr).state ≠ .interruptible → t ≠ v.curr

theorem givesUp_idle (hbase : Base v) : GivesUp v v.idle := by
  intro hrun _ heq
  rw [← heq] at hrun
  exact hrun hbase.idle_state

theorem givesUp_of_running {t : TaskId} (h : (v.task t).state = .running) : GivesUp v t := by
  rintro hrun - rfl
  exact hrun h

/-- The task that `pick_next_task` finds behind the state switch. -/
theorem Tidy.picked (h : Tidy v) (hpassed : Passed v w) {n : TaskId} (hn : (w.task n).queued = true) :
    (w.task n).state = .running ∧ GivesUp v n := by
  cases hpassed with
  | signal hstate hmagic =>
      by_cases hnc : n = v.curr
      · subst hnc
        simp only [View.setState, View.modTask, Function.update_self, true_and]
        exact fun _ hint => absurd hstate hint
      · simp only [View.setState, View.modTask, Function.update_of_ne hnc] at hn ⊢
        have hrun := h.queued_running n hnc hn
        exact ⟨hrun, givesUp_of_running hrun⟩
  | block hrun hmagic hqueued =>
      by_cases hnc : n = v.curr
      · subst hnc
        simp only [View.unqueue, View.modTask, Function.update_self] at hn
        cases hn
      · simp only [View.unqueue, View.modTask, Function.update_of_ne hnc] at hn ⊢
        have hrun' := h.queued_running n hnc hn
        exact ⟨hrun', givesUp_of_running hrun'⟩
  | preempt hstate hmagic =>
      by_cases hnc : n = v.curr
      · subst hnc
        exact ⟨hstate, givesUp_of_running hstate⟩
      · have hrun := h.queued_running n hnc hn
        exact ⟨hrun, givesUp_of_running hrun⟩

theorem Tidy.dispatch (h : Tidy v) (hbase : Base v) (hcons : Consistent v) (hfree : ¬Contested v)
    (hfall : ¬FallThrough v) {n : Next}
    (hselect : Select (fun p => (w.task p).queued = true) v n w) :
    ∃ t, n = .task t ∧ (t = v.idle ∨ ((w.task t).state = .running ∧ (w.task t).queued = true)) ∧
      GivesUp v t := by
  cases hselect with
  | @resume m hm htime hflag hstate =>
      refine ⟨m, rfl, Or.inr ?_, givesUp_of_running hstate⟩
      have hqueued := h.running_queued m (hbase.process_allocated m hm) (hbase.process_ne_idle m hm)
        hstate
      show ((v.renew m).task m).state = .running ∧ ((v.renew m).task m).queued = true
      rw [renew_task]
      exact ⟨hstate, hqueued⟩
  | wait hm htime hflag hstate => exact ⟨v.idle, rfl, Or.inl rfl, givesUp_idle hbase⟩
  | @caught u _ _ hseg hcaught =>
      have hpos := hcaught.magicTime_pos
      have hprocess := ((hcons.segment hseg).1.startUnlessStarted hpos fun m hm =>
        hseg.free_of_uncontested hfree hpos hm).2
      have hcurr := hseg.curr
      have hne : u.curr ≠ u.idle := by
        intro heq
        rw [heq, (hbase.segment hseg).idle_magicTime] at hpos
        exact absurd hpos (UInt32.lt_irrefl 0)
      cases hcaught with
      | sleep hint hmagic hqueued =>
          rw [hseg.idle_eq]
          exact ⟨v.idle, rfl, Or.inl rfl, givesUp_idle hbase⟩
      | run hrun hmagic hqueued =>
          rw [hprocess]
          refine ⟨u.curr, rfl, Or.inr ⟨?_, ?_⟩, ?_⟩
          · rw [startUnlessStarted_state]
            exact hrun
          · rw [startUnlessStarted_queued]
            exact (h.segment hseg).curr_queued hne
          · rw [hcurr]
            refine givesUp_of_running ?_
            rw [← (hseg.state_eq v.curr).1, ← hcurr]
            exact hrun
      | fallThrough hrun hint hmagic hqueued hstarted =>
          exact absurd (hseg.fallThrough ⟨hmagic, hrun, hint⟩) hfall
  | @picked u x n hseg hpassed hn =>
      refine ⟨n, rfl, ?_⟩
      rcases hn with rfl | hn
      · have hidle : w.idle = v.idle := (congrArg Core.idle hpassed.core_eq).trans hseg.idle_eq
        rw [hidle]
        exact ⟨Or.inl rfl, givesUp_idle hbase⟩
      · obtain ⟨hrun, hgives⟩ := (h.segment hseg).picked hpassed hn
        refine ⟨Or.inr ⟨hrun, hn⟩, ?_⟩
        rw [GivesUp, hseg.curr, (hseg.state_eq v.curr).1] at hgives
        exact hgives

end View

/-! ### The state at `switch_tasks` -/

/-- What may stand in `next` at `switch_tasks`, for a call made in `s`. -/
def Dispatched (s : State) (next : Next) (s' : State) : Prop :=
  ∃ t, next = .task t ∧
    (t = s.idle ∨ ((s'.task t).state = .running ∧ (s'.task t).array ≠ none)) ∧
    ((s.task s.curr).state ≠ .running → (s.task s.curr).state ≠ .interruptible → t ≠ s.curr)

theorem selectNext_dispatched {s s' : State} {next : Next} (hlinked : Linked s) (hbase : s.view.Base)
    (hcons : s.view.Consistent) (htidy : s.view.Tidy) (hfree : ¬s.view.Contested)
    (hfall : ¬s.view.FallThrough) (hstep : selectNext s = .ok (next, s')) : Dispatched s next s' := by
  have hlinked' : Linked s' := (selectNext_linked hlinked).of_ok hstep
  have hselect := (selectNext_view hstep).mono
    (R := fun p => (s'.view.task p).queued = true) fun p ⟨a, hp⟩ =>
      Option.isSome_iff_exists.2 ⟨a, (hlinked' a p).1 hp⟩
  obtain ⟨t, hnext, ht, hgives⟩ := htidy.dispatch hbase hcons hfree hfall hselect
  exact ⟨t, hnext, ht.imp_right fun h => ⟨h.1, queued_eq_true.1 h.2⟩, hgives⟩

end MagicKernel.Sched
