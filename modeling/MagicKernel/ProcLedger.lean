import MagicKernel.ProcNumbers

/-! Exit codes are neither lost nor reported twice: every death is reported by the `sys_wait4` that frees the number
of the task, with that number and the code it has died with, or it still has its zombie. -/

namespace MagicKernel.Proc

open FaultMachine PointerLists
open Function (update update_of_ne)
open Sched (TaskState)

variable {env : Env} {s t u : State} {p q current reaper : TaskId} {tasks tasks' l : List TaskId}
  {kids : TaskId → List TaskId} {e : Event} {args : WaitArgs} {code : Nat} {v : Option Report}

/-- The deaths of a run, and those that have been reported with the end of the task. -/
structure Ledger where
  deaths : List (Int × Nat)
  buried : List (Int × Nat)

/-- The report of a `sys_wait4` after which there is one task less. -/
def burial (s : State) : Option (Except Fault (Option Report × State)) → List (Int × Nat)
  | some (.ok (some (pid, some status), t)) => if t.nrThreads < s.nrThreads then [(pid, status)] else []
  | _ => []

def note (s : State) (e : Event) (h : Ledger) : Ledger where
  deaths := (e.death.map fun d => ((s.pid d.1 : Int), d.2)).toList ++ h.deaths
  buried := burial s (waitResult s e) ++ h.buried

/-- The zombies, by their numbers and codes. -/
def mourned (s : State) (l : List TaskId) : List (Int × Nat) :=
  (l.filter fun p => s.state p = .zombie).map fun p => ((s.pid p : Int), s.exitCode p)

theorem mourned_dead (hz : s.state p = .zombie) :
    mourned s (p :: l) = ((s.pid p : Int), s.exitCode p) :: mourned s l := by
  rw [mourned, List.filter_cons, if_pos (decide_eq_true hz)]
  rfl

theorem mourned_live (hz : s.state p ≠ .zombie) : mourned s (p :: l) = mourned s l := by
  rw [mourned, List.filter_cons, if_neg fun h => hz (of_decide_eq_true h)]
  rfl

theorem mourned_perm (h : tasks'.Perm tasks) : (mourned s tasks').Perm (mourned s tasks) := (h.filter _).map _

/-- The zombies are the same. -/
theorem mourned_congr (hz : ∀ p ∈ l, t.state p = .zombie ↔ s.state p = .zombie)
    (hsame : ∀ p ∈ l, s.state p = .zombie → t.pid p = s.pid p ∧ t.exitCode p = s.exitCode p) :
    mourned t l = mourned s l := by
  induction l with
  | nil => rfl
  | cons p l ih =>
      have hrest := ih (fun q hq => hz q (List.mem_cons_of_mem p hq)) fun q hq => hsame q (List.mem_cons_of_mem p hq)
      have hfirst := hz p List.mem_cons_self
      by_cases hzp : s.state p = .zombie
      · obtain ⟨hpid, hcode⟩ := hsame p List.mem_cons_self hzp
        rw [mourned_dead hzp, mourned_dead (hfirst.2 hzp), hpid, hcode, hrest]
      · rw [mourned_live hzp, mourned_live fun h => hzp (hfirst.1 h), hrest]

theorem Quiet.mourned (hq : Quiet s t tasks tasks') : (mourned t tasks').Perm (mourned s tasks) := by
  refine (mourned_perm hq.ids.perm).trans (.of_eq (mourned_congr (fun p hp => ?_) fun p hp hz => ?_))
  · exact ⟨hq.hush.zombie p hp, fun h => (hq.hush.dead p hp h).1⟩
  · obtain ⟨-, hpid, -, hcode, -⟩ := hq.hush.dead p hp hz
    exact ⟨hpid, hcode⟩

theorem mourned_forked {flags : UInt32} {last : Nat} {n pr : TaskId → TaskId} {c y o : TaskId → Option TaskId}
    {tn tp : TaskId → TaskId} (hp : p ∉ tasks) :
    (mourned (s.forked env current p flags last n pr c y o tn tp) (tasks ++ [p])).Perm (mourned s tasks) := by
  have hne : ∀ q ∈ tasks, q ≠ p := fun q hq h => hp (h ▸ hq)
  have hlive : (s.forked env current p flags last n pr c y o tn tp).state p ≠ .zombie := by
    have hrun : (s.forked env current p flags last n pr c y o tn tp).state p = .running := Function.update_self ..
    exact not_zombie_of_running hrun
  refine (mourned_perm (List.perm_append_singleton p tasks)).trans (.of_eq ?_)
  rw [mourned_live hlive]
  refine mourned_congr (fun q hq => ?_) fun q hq _ => ⟨update_of_ne (hne q hq) .., update_of_ne (hne q hq) ..⟩
  have hstate : (s.forked env current p flags last n pr c y o tn tp).state q = s.state q := update_of_ne (hne q hq) ..
  rw [hstate]

/-- The caller of `exit_notify` is one zombie more. -/
theorem Departure.mourned (hd : Departure s tasks l current reaper code t) (hs : Sound s tasks kids)
    (hc : current ∈ tasks) (hrun : s.state current = .running) :
    (mourned t tasks).Perm (((s.pid current : Int), code) :: mourned s tasks) := by
  obtain ⟨c, y, o, sig, -, hw⟩ := hd.departed
  have hself : t.state current = .zombie := (hw.zombie_iff current).2 (Function.update_self ..)
  have hother : ∀ p, p ≠ current → (t.state p = .zombie ↔ s.state p = .zombie) := by
    intro p hp
    have hold : (s.departed current reaper code sig tasks l c y o).state p = s.state p := update_of_ne hp ..
    rw [hw.zombie_iff, hold]
  have hpid : t.pid = s.pid := hw.sameKin.pid
  have hcode : ∀ p, update s.sighand current false p = false → t.exitCode p = update s.exitCode current code p := by
    obtain ⟨st, sp, ec, rfl, -, -, hec⟩ := hw
    exact hec
  have hlive := not_zombie_of_running hrun
  have herase := List.perm_cons_erase hc
  have hmem : ∀ p ∈ tasks.erase current, p ∈ tasks ∧ p ≠ current := fun p hp =>
    ((List.nodup_cons.1 hs.woven.tree.nodup).2.mem_erase_iff.1 hp).symm
  refine (mourned_perm herase).trans (.trans (.of_eq ?_) ((mourned_perm herase.symm).cons _))
  rw [mourned_dead hself, mourned_live hlive, hpid, hcode current (Function.update_self ..), Function.update_self]
  refine congrArg _ (mourned_congr (fun p hp => hother p (hmem p hp).2) fun p hp hz => ⟨by rw [hpid], ?_⟩)
  rw [hcode p, update_of_ne (hmem p hp).2]
  rw [update_of_ne (hmem p hp).2]
  exact hs.mute p (hmem p hp).1 hz

theorem mourned_awake (hrun : s.state current ≠ .zombie) (l : List TaskId) :
    mourned (s.awake current) l = mourned s l := by
  refine mourned_congr (fun p _ => ?_) fun p _ _ => ⟨rfl, rfl⟩
  by_cases hpc : p = current
  · subst hpc
    have hself : (s.awake p).state p = .running := Function.update_self ..
    rw [hself]
    exact ⟨fun h => TaskState.noConfusion h, fun h => absurd h hrun⟩
  · have hold : (s.awake current).state p = s.state p := update_of_ne hpc ..
    rw [hold]

theorem mourned_dozing (hrun : s.state current ≠ .zombie) (l : List TaskId) :
    mourned (s.dozing current) l = mourned s l := by
  refine mourned_congr (fun p _ => ?_) fun p _ _ => ⟨rfl, rfl⟩
  by_cases hpc : p = current
  · subst hpc
    have hself : (s.dozing p).state p = .interruptible := Function.update_self ..
    rw [hself]
    exact ⟨fun h => TaskState.noConfusion h, fun h => absurd h hrun⟩
  · have hold : (s.dozing current).state p = s.state p := update_of_ne hpc ..
    rw [hold]

/-- Zombies have no signal handlers, and wake-ups leave their codes alone. -/
theorem Woken.mourned (hw : Woken s t) (hmute : ∀ p ∈ l, s.state p = .zombie → s.sighand p = false) :
    mourned t l = mourned s l := by
  have hzombie := hw.zombie_iff
  obtain ⟨st, sp, ec, rfl, -, -, hec⟩ := hw
  exact mourned_congr (fun p _ => hzombie p) fun p hp hz => ⟨rfl, hec p (hmute p hp hz)⟩

/-- Either the zombies are the same and so is the number of tasks, or the one that is reported has gone. -/
theorem WaitEnd.mourned (hend : WaitEnd env s tasks current args v t tasks') (hs : Sound s tasks kids)
    (hrun : s.state current = .running) :
    (t.nrThreads = s.nrThreads ∧ (mourned t tasks').Perm (mourned s tasks)) ∨
      ∃ pid status, v = some (pid, some status) ∧ t.nrThreads < s.nrThreads ∧
        (mourned s tasks).Perm ((pid, status) :: mourned t tasks') := by
  have hnz := not_zombie_of_running hrun
  have hdoze : (s.dozing current).state current ≠ .zombie := by
    have hself : (s.dozing current).state current = .interruptible := Function.update_self ..
    rw [hself]
    exact TaskState.noConfusion
  cases hend with
  | kept hr => exact .inl ⟨rfl, .of_eq (mourned_awake hnz tasks)⟩
  | @stopped p hp hready hcopied hst =>
      have hcode : Proc.mourned { s with exitCode := update s.exitCode p 0 } tasks = Proc.mourned s tasks := by
        refine mourned_congr (fun _ _ => Iff.rfl) fun q _ hz => ⟨rfl, update_of_ne ?_ ..⟩
        rintro rfl
        rw [hst] at hz
        cases hz
      have hnz' : ({ s with exitCode := update s.exitCode p 0 } : State).state current ≠ .zombie := hnz
      exact .inl ⟨rfl, .of_eq ((mourned_awake hnz' tasks).trans hcode)⟩
  | @handed p n pr c y o u kids' hp hcopied hz hne hw hsound hwake =>
      have hu : u.state current ≠ .zombie := fun h => hdoze ((hw.zombie_iff current).1 h)
      have hsame := hw.mourned (l := tasks) fun q hq h => (hs.dozing hnz).mute q hq h
      have hthreads : u.nrThreads = s.nrThreads := by
        obtain ⟨st, sp, ec, rfl, -⟩ := hw
        rfl
      refine .inl ⟨hthreads, (mourned_perm (moved_perm hp.1)).trans (.of_eq ?_)⟩
      exact (mourned_awake hu tasks).trans (hsame.trans (mourned_dozing hnz tasks))
  | @released p n pr c y o kids' hp hcopied hz heq hsound =>
      refine .inr ⟨s.pid p, s.exitCode p, rfl, Int.sub_one_lt_of_le le_rfl, ?_⟩
      have hrel : (s.released p n pr c y o).state current ≠ .zombie := hnz
      have hrest : Proc.mourned (s.released p n pr c y o) (tasks.erase p) = Proc.mourned s (tasks.erase p) := by
        refine mourned_congr (fun _ _ => Iff.rfl) fun q hq _ => ⟨update_of_ne ?_ .., rfl⟩
        exact ((List.nodup_cons.1 hs.woven.tree.nodup).2.mem_erase_iff.1 hq).1
      rw [mourned_awake hrel, hrest, ← mourned_dead hz]
      exact mourned_perm (List.perm_cons_erase hp.1)
  | asleep hp hnone hhang hpending => exact .inl ⟨rfl, .of_eq (mourned_dozing hnz tasks)⟩

/-! ### Runs -/

/-- What a wait has come to is the state after the step. -/
theorem waitResult_step (hvalue : waitResult s e = some (.ok (v, u))) (hstep : step s e = .ok t) : u = t := by
  cases e with
  | wake p => cases hvalue
  | signal env pid sig => cases hvalue
  | call current env c =>
      cases c with
      | wait4 args =>
          have hwait : sysWait4 env current args s = .ok (v, u) := Option.some.inj hvalue
          rw [Proc.step, Call.step, hwait] at hstep
          exact Except.ok.inj hstep
      | again =>
          rw [waitResult] at hvalue
          obtain ⟨args, hargs, hwait⟩ := Option.map_eq_some_iff.1 hvalue
          rw [Proc.step, Call.step, hargs] at hstep
          dsimp only at hstep
          rw [hwait] at hstep
          exact Except.ok.inj hstep
      | _ => cases hvalue

/-- Nobody dies in a wait. -/
theorem death_of_waitResult {x : Except Fault (Option Report × State)} (hvalue : waitResult s e = some x) :
    e.death = none := by
  cases e with
  | call current env c =>
      cases c with
      | exitNotify code => cases hvalue
      | _ => rfl
  | _ => rfl

theorem burial_none (hstep : step s e = .ok t) (hthreads : t.nrThreads = s.nrThreads) :
    burial s (waitResult s e) = [] := by
  rw [burial.eq_def]
  split
  · rename_i pid status u hvalue
    rw [waitResult_step hvalue hstep, hthreads]
    exact if_neg (lt_irrefl _)
  · rfl

/-- The books are balanced. -/
def Balanced (s : State) (tasks : List TaskId) (h : Ledger) : Prop := h.deaths.Perm (h.buried ++ mourned s tasks)

theorem Effect.balanced {h : Ledger} (he : Effect s tasks e t tasks') (hs : Sound s tasks kids)
    (hstep : step s e = .ok t)
    (hb : Balanced s tasks h) : Balanced t tasks' (note s e h) := by
  -- Most events leave the zombies alone.
  have hsame : e.death = none → burial s (waitResult s e) = [] → (mourned t tasks').Perm (mourned s tasks) →
      Balanced t tasks' (note s e h) := by
    intro hlive hburial hperm
    rw [Balanced, note, hlive, hburial]
    exact hb.trans (hperm.symm.append_left h.buried)
  cases he with
  | quiet hq hlive => exact hsame hlive (burial_none hstep hq.ids.nrThreads) hq.mourned
  | counted hc hq => exact hsame rfl rfl hq.mourned
  | forked hcurrent hp hc hpos hfresh hroom hgroup => exact hsame rfl rfl (mourned_forked fun h => hp (hs.mem_cons h))
  | exited hcurrent hrun hs' hd =>
      rw [Balanced, note]
      have hmore := (hd.mourned hs' hcurrent hrun).symm.append_left h.buried
      exact ((hb.cons _).trans List.perm_middle.symm).trans hmore
  | @waited _ _ u _ _ _ _ _ _ hu hq hcurrent hrun hwait hend hvalue =>
      have hlive := death_of_waitResult hvalue
      rcases hend.mourned hu hrun with ⟨hthreads, hperm⟩ | ⟨pid, status, rfl, hthreads, hperm⟩
      · exact hsame hlive (burial_none hstep (hthreads.trans hq.ids.nrThreads)) (hperm.trans hq.mourned)
      · rw [hq.ids.nrThreads] at hthreads
        have hburial : burial s (some (.ok (some (pid, some status), t))) = [(pid, status)] := if_pos hthreads
        rw [Balanced, note, hlive, hvalue, hburial]
        -- The entry moves from the zombies to the reports.
        have hmoved := (hq.mourned.symm.trans hperm).append_left h.buried
        exact (hb.trans hmoved).trans List.perm_middle
  | regrouped hfind hr =>
      obtain @⟨g, -, -, -, -⟩ := hr
      exact hsame rfl rfl (.refl _)
  | sessioned hcurrent hrun hnone => exact hsame rfl rfl (.refl _)
  | daemonized hcurrent hrun => exact hsame rfl rfl (.refl _)

/-- In every run, the deaths are the deaths that have been reported together with those of the zombies, with the
same numbers and codes. -/
theorem deaths_balanced {x : State × Ledger}
    (h : (machine.record note).Reachable (fun x => Initial x.1 ∧ x.2 = ⟨[], []⟩) x) :
    ∃ tasks, x.1.forEachTask = .ok tasks ∧ x.2.deaths.Perm (x.2.buried ++ mourned x.1 tasks) := by
  obtain ⟨tasks, kids, hs, hb⟩ : ∃ tasks kids, Sound x.1 tasks kids ∧ Balanced x.1 tasks x.2 := by
    refine h.invariant (I := fun x => ∃ tasks kids, Sound x.1 tasks kids ∧ Balanced x.1 tasks x.2) (fun x hinit => ?_)
      fun x e y _ ih hstep => ?_
    · obtain ⟨init, kids, hs, hbooted⟩ := initial_sound hinit.1
      have hlive : x.1.state init ≠ .zombie := by
        rw [hbooted.state]
        exact TaskState.noConfusion
      refine ⟨[init], kids, hs, ?_⟩
      rw [Balanced, hinit.2, mourned_live hlive]
      exact .refl _
    · obtain ⟨hstep, hhistory⟩ := Machine.record_step.1 hstep
      obtain ⟨tasks, kids, hs, hb⟩ := ih
      obtain ⟨tasks', kids', hs', heffect⟩ := hs.effect hstep
      exact ⟨tasks', kids', hs', hhistory ▸ heffect.balanced hs hstep.2 hb⟩
  exact ⟨tasks, hs.woven.tree.forEachTask, hb⟩

/-- The child 2 dies with the code 5 and is reported to `init`, and the child 3 dies with the code 6. -/
def books : State × Ledger :=
  (machine.record note).after (booted, ⟨[], []⟩) [spawn 2, spawn 3, .call 2 kindEnv .exit,
    .call 2 kindEnv (.exitNotify 5), .call 1 kindEnv (.wait4 ⟨-1, 0⟩), .call 3 kindEnv .exit,
    .call 3 kindEnv (.exitNotify 6)]

set_option maxRecDepth 4000 in
theorem deaths_balanced_books : books.2.buried = [(2, 5)] ∧ ∃ tasks, books.1.forEachTask = .ok tasks ∧
    books.2.deaths.Perm (books.2.buried ++ mourned books.1 tasks) := by
  have hrun : (machine.record note).Run (booted, ⟨[], []⟩) _ books := Machine.run_after (by decide)
  exact ⟨by decide, deaths_balanced ⟨_, _, ⟨initial_booted, rfl⟩, hrun⟩⟩

end MagicKernel.Proc
