import MagicKernel.ProcCalls

/-! Runs of the process machine: what an event can do to a sound state, and that every reachable state is sound. -/

namespace MagicKernel.Proc

open FaultMachine PointerLists
open Function (update update_of_ne)
open Sched (TaskState)

variable {env : Env} {s t u : State} {p q r current : TaskId} {tasks tasks' : List TaskId}
  {kids : TaskId → List TaskId} {e : Event}

/-- What a `sys_wait4`, or the rest of one, comes to. -/
def waitResult (s : State) : Event → Option (Except Fault (Option Report × State))
  | .call current env (.wait4 args) => some (sysWait4 env current args s)
  | .call current env .again => (s.waiting current).map fun args => waitPass env current args s
  | _ => none

/-- The task that dies, and its exit code. -/
def Event.death : Event → Option (TaskId × Nat)
  | .call current _ (.exitNotify code) => some (current, code)
  | _ => none

/-- What an event can do. -/
inductive Effect (s : State) (tasks : List TaskId) : Event → State → List TaskId → Prop
  | quiet {e : Event} {t : State} {tasks' : List TaskId} (h : Quiet s t tasks tasks')
      (hlive : e.death = none := by rfl) : Effect s tasks e t tasks'
  | counted {current p : TaskId} {env : Env} {flags : UInt32} {outcome : ForkOutcome} {last safe : Nat} {t : State}
      (hc : Counted s tasks last safe) (h : Quiet (s.numbered last safe) t tasks tasks) :
      Effect s tasks (.call current env (.fork p flags outcome)) t tasks
  | forked {current p : TaskId} {env : Env} {flags : UInt32} {outcome : ForkOutcome} {last safe : Nat}
      {n pr : TaskId → TaskId} {c y o : TaskId → Option TaskId} {tn tp : TaskId → TaskId} (hcurrent : current ∈ tasks)
      (hp : p ∉ initTask :: tasks) (hc : Counted s tasks last safe) (hpos : 0 < last)
      (hfresh : Gap s tasks → ¬Used s tasks last) (hroom : s.nrThreads < s.maxThreads)
      (hgroup : ∀ q r, q ∈ initTask :: tasks → r ∈ initTask :: tasks →
        (((s.numbered last safe).forked env current p flags last n pr c y o tn tp).SameGroup q r ↔ s.SameGroup q r)) :
      Effect s tasks (.call current env (.fork p flags outcome))
        ((s.numbered last safe).forked env current p flags last n pr c y o tn tp) (tasks ++ [p])
  | exited {current reaper : TaskId} {env : Env} {code : Nat} {kids : TaskId → List TaskId} {t : State}
      (hcurrent : current ∈ tasks) (hrun : s.state current = .running) (hs : Sound s tasks kids)
      (h : Departure s tasks (kids current) current reaper code t) :
      Effect s tasks (.call current env (.exitNotify code)) t tasks
  | waited {e : Event} {env : Env} {u t : State} {tasks' : List TaskId} {kids : TaskId → List TaskId} {current : TaskId}
      {args : WaitArgs} {v : Option Report} (hu : Sound u tasks kids) (hq : Quiet s u tasks tasks)
      (hcurrent : current ∈ tasks) (hrun : u.state current = .running) (hwait : u.waiting current = some args)
      (hend : WaitEnd env u tasks current args v t tasks') (hvalue : waitResult s e = some (.ok (v, t))) :
      Effect s tasks e t tasks'
  | regrouped {current p : TaskId} {env : Env} {pid pgid : Int} {t : State}
      (hfind : findTaskByPid s (if pid = 0 then (s.pid current : Int) else pid) = some p)
      (h : Regrouped s tasks current p t) : Effect s tasks (.call current env (.setpgid pid pgid)) t tasks
  | sessioned {current : TaskId} {env : Env} (hcurrent : current ∈ tasks) (hrun : s.state current = .running)
      (hnone : ∀ p ∈ tasks, s.pgrp p ≠ s.pid current) :
      Effect s tasks (.call current env .setsid) (s.sessioned current) tasks
  | daemonized {current : TaskId} {env : Env} (hcurrent : current ∈ tasks) (hrun : s.state current = .running) :
      Effect s tasks (.call current env .daemonize) (daemonize current s) tasks

theorem Sound.fork_effect (hs : Sound s tasks kids) (hc : current ∈ tasks) (hstay : s.exiting current = false)
    (hp : s.allocated p = false) (env : Env) (flags : UInt32) (outcome : ForkOutcome) :
    ∃ v t tasks' kids', Proc.doFork env current p flags outcome s = .ok (v, t) ∧ Sound t tasks' kids' ∧
      Effect s tasks (.call current env (.fork p flags outcome)) t tasks' := by
  have hpall : p ∉ initTask :: tasks := fun h => by
    rw [hs.woven.tree.allocated p h] at hp
    cases hp
  have hne : ∀ q ∈ tasks, q ≠ p := fun q hq h => hpall (h ▸ hs.mem_cons hq)
  obtain ⟨v, t, hfork, hend⟩ := hs.doFork hc hstay hp env flags outcome
  cases hend with
  | failed hr hcount => exact ⟨v, _, tasks, kids, hfork, hs.ofNumbered hcount.numbered, .counted hcount (.refl _ tasks)⟩
  | @leaked _ last safe hr hcount =>
      have hs' := hs.ofNumbered hcount.numbered
      have hoff := sameOff_copied hs'.woven.tree.below current p flags last
      refine ⟨v, _, tasks, kids, hfork, hs'.off hoff hpall, .counted hcount ⟨?_, ?_⟩⟩
      · exact {
          perm := .refl _
          pid := fun q hq => hoff.pid q (hne q hq)
          pgrp := fun q hq => hoff.pgrp q (hne q hq)
          session := fun q hq => hoff.session q (hne q hq)
          tgid := fun q hq => .inl (hoff.tgid q (hne q hq))
          leader := fun q hq => (update_of_ne (hne q hq) ..).trans (update_of_ne (hne q hq) ..) }
      · have hset : ∀ (β : Type) (f : TaskId → β) (a b : β) (q : TaskId), q ∈ tasks →
            update (update f p a) p b q = f q := by
          intro β f a b q hq
          rw [update_of_ne (hne q hq), update_of_ne (hne q hq)]
        exact {
          zombie := fun q hq h => (hoff.state q (hne q hq)).symm.trans h
          dead := fun q hq h => ⟨(hoff.state q (hne q hq)).trans h, hoff.pid q (hne q hq), hoff.pgrp q (hne q hq),
            update_of_ne (hne q hq) .., hset _ _ _ _ q hq, hoff.pptr q (hne q hq)⟩
          asleep := fun q hq _ h => ⟨hset _ _ _ _ q hq, (hoff.state q (hne q hq)).symm.trans h, hoff.pgrp q (hne q hq)⟩
          group := fun q hq r h => (hs.woven.threads.reach_congr
            (fun r hr => hoff.threadNext r fun heq => hpall (heq ▸ hr)) hq).1 h }
  | done hcount hpos hfresh hroom hsound hgroup =>
      exact ⟨_, _, _, _, hfork, hsound, .forked hc hpall hcount hpos hfresh hroom hgroup⟩

theorem Sound.wait_effect {args : WaitArgs} (hu : Sound u tasks kids) (hc : current ∈ tasks)
    (hrun : u.state current = .running) (hwait : u.waiting current = some args) (hq : Quiet s u tasks tasks)
    (hvalue : waitResult s e = some (Proc.waitPass env current args u)) :
    ∃ v t tasks' kids', Proc.waitPass env current args u = .ok (v, t) ∧ Sound t tasks' kids' ∧
      Effect s tasks e t tasks' := by
  obtain ⟨v, t, tasks', hpass, hend⟩ := hu.waitPass hc hrun env args
  obtain ⟨kids', hsound⟩ := hend.sound hu hrun
  rw [hpass] at hvalue
  exact ⟨v, t, tasks', kids', hpass, hsound, .waited hu hq hc hrun hwait hend hvalue⟩

theorem Sound.call_effect (hs : Sound s tasks kids) {c : Call} (hc : current ∈ tasks)
    (hrun : s.state current = .running)
    (henabled : c.Enabled s current) (env : Env) :
    c = .exit ∧ s.pid current = 1 ∨
      ∃ t tasks' kids', c.step env current s = .ok t ∧ Sound t tasks' kids' ∧
        Effect s tasks (.call current env c) t tasks' := by
  have hnz := not_zombie_of_running hrun
  cases c with
  | fork p flags outcome =>
      obtain ⟨v, t, tasks', kids', hfork, hsound, heffect⟩ :=
        hs.fork_effect hc henabled.1 henabled.2.2 env flags outcome
      exact .inr ⟨t, tasks', kids', by rw [Call.step, hfork]; rfl, hsound, heffect⟩
  | exit =>
      rcases hs.doExit hc with h | ⟨t, ht, hsound, hquiet⟩
      · exact .inl ⟨rfl, h⟩
      · exact .inr ⟨t, tasks, kids, ht, hsound, .quiet hquiet⟩
  | exitNotify code =>
      obtain ⟨others, t, kids', -, -, ht, hsound, -, hdeparture⟩ := hs.exitNotify hc henabled hrun env code
      exact .inr ⟨t, tasks, kids', ht, hsound, .exited hc hrun hs hdeparture⟩
  | wait4 args =>
      rw [Call.step, sysWait4]
      split
      · exact .inr ⟨s, tasks, kids, rfl, hs, .quiet (.refl s tasks)⟩
      · rename_i hoptions
        have hu : Sound { s with waiting := update s.waiting current (some args) } tasks kids := hs.congr {}
        have hquiet : Quiet s { s with waiting := update s.waiting current (some args) } tasks tasks := by
          refine ⟨{ perm := .refl _ }, { asleep := fun r _ _ h => ⟨update_of_ne ?_ .., h, rfl⟩ }⟩
          rintro rfl
          have hst : s.state r = .interruptible := h
          rw [hrun] at hst
          cases hst
        obtain ⟨v, t, tasks', kids', hpass, hsound, heffect⟩ :=
          hu.wait_effect (e := .call current env (.wait4 args)) hc hrun (Function.update_self ..) hquiet
            (congrArg some (if_neg hoptions))
        exact .inr ⟨t, tasks', kids', by rw [hpass]; rfl, hsound, heffect⟩
  | again =>
      obtain ⟨args, hargs⟩ := Option.isSome_iff_exists.1 henabled.2
      obtain ⟨v, t, tasks', kids', hpass, hsound, heffect⟩ :=
        hs.wait_effect (e := .call current env .again) hc hrun hargs (.refl s tasks) (congrArg (Option.map _) hargs)
      refine .inr ⟨t, tasks', kids', ?_, hsound, heffect⟩
      rw [Call.step, hargs]
      dsimp only
      rw [hpass]
      rfl
  | setpgid pid pgid =>
      obtain ⟨v, t, ht, hcase⟩ := hs.sysSetpgid current pid pgid
      have hstep : Call.step env current s (.setpgid pid pgid) = .ok t := by
        rw [Call.step, ht]
        rfl
      rcases hcase with rfl | ⟨p, hfind, hregrouped⟩
      · exact .inr ⟨t, tasks, kids, hstep, hs, .quiet (.refl t tasks)⟩
      · exact .inr ⟨t, tasks, kids, hstep, hregrouped.sound hs, .regrouped hfind hregrouped⟩
  | setsid =>
      obtain ⟨v, t, ht, hsound, hcase⟩ := hs.sysSetsid current
      have hstep : Call.step env current s .setsid = .ok t := by
        rw [Call.step, ht]
        rfl
      rcases hcase with rfl | ⟨hnone, rfl⟩
      · exact .inr ⟨t, tasks, kids, hstep, hs, .quiet (.refl t tasks)⟩
      · exact .inr ⟨_, tasks, kids, hstep, hsound, .sessioned hc hrun hnone⟩
  | execve =>
      obtain ⟨t, ht, hsound, hquiet⟩ := hs.doExecve hc henabled.1
      exact .inr ⟨t, tasks, kids, ht, hsound, .quiet hquiet⟩
  | ptrace request pid =>
      obtain ⟨v, t, tasks', kids', ht, hsound, hquiet⟩ := hs.sysPtrace hc henabled.1 env request pid
      exact .inr ⟨t, tasks', kids', by rw [Call.step, ht]; rfl, hsound, .quiet hquiet⟩
  | setPdeathSignal sig =>
      exact .inr ⟨_, tasks, kids, rfl, hs.congr {}, .quiet ⟨{ perm := .refl _ }, {}⟩⟩
  | reparentToInit =>
      obtain ⟨t, tasks', kids', ht, hsound, hquiet⟩ := hs.reparentToInit hc henabled.1 henabled.2.2
      exact .inr ⟨t, tasks', kids', ht, hsound, .quiet hquiet⟩
  | daemonize => exact .inr ⟨_, tasks, kids, rfl, hs.daemonize, .daemonized hc hrun⟩
  | stop sig =>
      obtain ⟨t, ht, hsound, hquiet⟩ := hs.stopSelf hc henabled.1 env sig
      exact .inr ⟨t, tasks, kids, ht, hsound, .quiet hquiet⟩
  | sleep interruptible =>
      cases interruptible with
      | false =>
          exact .inr ⟨_, tasks, kids, rfl, hs.setState hnz TaskState.noConfusion (TaskState.noConfusion ·),
            .quiet (quiet_state hnz TaskState.noConfusion (TaskState.noConfusion ·))⟩
      | true =>
          exact .inr ⟨_, tasks, kids, rfl, hs.setState hnz TaskState.noConfusion (TaskState.noConfusion ·),
            .quiet (quiet_state hnz TaskState.noConfusion fun _ => henabled)⟩
  | recalcSigpending => exact .inr ⟨_, tasks, kids, rfl, hs.congr {}, .quiet ⟨{ perm := .refl _ }, {}⟩⟩

/-- Every event leaves a sound state, unless `init` exits. -/
theorem Sound.step_effect (hs : Sound s tasks kids) (henabled : Enabled s e) :
    (∃ current env, e = .call current env .exit ∧ s.pid current = 1) ∨
      ∃ t tasks' kids', step s e = .ok t ∧ Sound t tasks' kids' ∧ Effect s tasks e t tasks' := by
  cases e with
  | call current env c =>
      obtain ⟨hhashed, hrun, hc⟩ := henabled
      exact (hs.call_effect ((hs.mem_iff current).1 hhashed) hrun hc env).imp_left fun h =>
        ⟨current, env, congrArg (Event.call current env) h.1, h.2⟩
  | wake p =>
      obtain ⟨-, hnz⟩ := henabled
      exact .inr ⟨_, tasks, kids, rfl, hs.setState hnz TaskState.noConfusion (TaskState.noConfusion ·),
        .quiet (quiet_state hnz TaskState.noConfusion (TaskState.noConfusion ·))⟩
  | signal env pid sig =>
      obtain ⟨p, hfind⟩ := Option.isSome_iff_exists.1 henabled
      have hw := woken_sendSig env sig p s
      refine .inr ⟨sendSig env sig p s, tasks, kids, ?_, hs.woken hw, .quiet (hs.quiet_woken hw)⟩
      rw [Proc.step, hfind]
      dsimp only
      rw [deref_eq (hs.allocated (hs.find_mem hfind).1)]
      rfl

/-! ### Booting -/

theorem woven_idle (m : Int) : Woven none (idleState m) [] fun _ => [] where
  tree := {
    ring := ring_nil.2 ⟨rfl, rfl⟩
    nodup := List.nodup_singleton initTask
    family := ⟨fun _ => ⟨none, fun _ => rfl, rfl⟩, fun _ => List.nodup_nil, fun _ _ _ h => absurd h List.not_mem_nil⟩
    mem_kids := fun _ _ => ⟨fun h => absurd h List.not_mem_nil, fun h => absurd h.1 List.not_mem_nil⟩
    allocated := fun _ hp => decide_eq_true (List.mem_singleton.1 hp)
    below := fun _ hp => (of_decide_eq_true hp).trans_lt Nat.zero_lt_one }
  threads := ⟨fun _ _ => List.mem_cons_self, fun _ _ => List.mem_cons_self, fun _ hp => (List.mem_singleton.1 hp).symm,
    fun _ hp => (List.mem_singleton.1 hp).symm⟩

/-- The state after the idle task has forked `init`. -/
theorem initial_eq (h : Initial s) : ∃ m init env n pr c y o tn tp kids, init ≠ initTask ∧ 0 < m ∧
    s = { ((idleState m).numbered 1 pidMax).forked env initTask init initFlags 1 n pr c y o tn tp with
    childReaper := init } ∧
    Tree none s [init] kids ∧ Links (fun r => r ∈ [initTask] ∨ r = init) tn tp := by
  obtain ⟨m, init, env, v, s', hne, hfork, hpos, rfl⟩ := h
  have hw : Woven none ((idleState m).numbered 1 pidMax) [] fun _ => [] :=
    ⟨⟨(woven_idle m).tree.ring, (woven_idle m).tree.nodup, (woven_idle m).tree.family, (woven_idle m).tree.mem_kids,
      (woven_idle m).tree.allocated, (woven_idle m).tree.below⟩, (woven_idle m).threads⟩
  have hidle : initTask ∈ [initTask] := List.mem_cons_self
  obtain ⟨n, pr, c, y, o, tn, tp, kids, heq, htree, hlinks, -⟩ := linkTask_eq hw hidle hidle rfl
    (fun h => hne (List.mem_singleton.1 h)) rfl env initFlags 1
  have hget : getPid initTask initFlags (idleState m) = .ok (1, (idleState m).numbered 1 pidMax) := by
    have hlast : (idleState m).lastPid + 1 &&& 0xffff8000 = 0 := and_mask_eq_zero (show 0 + 1 < pidMax by decide)
    have hsafe : ¬(idleState m).nextSafe ≤ (idleState m).lastPid + 1 := show ¬pidMax ≤ 0 + 1 by decide
    rw [getPid, if_neg (by decide)]
    dsimp only
    rw [hlast, if_neg (fun h => h rfl), if_neg hsafe]
    rfl
  rw [doFork, if_neg (by decide), if_neg (fun h => h.2 rfl), if_neg (by decide)] at hfork
  by_cases hroom : (idleState m).maxThreads ≤ (idleState m).nrThreads
  · rw [if_pos (.inr hroom)] at hfork
    cases hfork
    exact absurd hpos (by decide)
  · rw [if_neg (not_or.2 ⟨by decide, hroom⟩), hget, ok_bind] at hfork
    dsimp only at hfork
    rw [if_neg (fun h => absurd h.1 (by decide)), if_neg (by decide), if_neg (by decide)] at hfork
    obtain ⟨u, hu, hend⟩ := bind_eq_ok.1 heq
    obtain ⟨u', hu', hend'⟩ := bind_eq_ok.1 hfork
    have huu : linkTask initTask init initFlags (((idleState m).numbered 1 pidMax).copied initTask init initFlags 1) =
      .ok u' := hu'
    cases hu.symm.trans huu
    have hs' : s' = ((idleState m).numbered 1 pidMax).forked env initTask init initFlags 1 n pr c y o tn tp :=
      (Prod.ext_iff.1 (Except.ok.inj hend')).2.symm.trans (Except.ok.inj hend)
    subst hs'
    refine ⟨m, init, env, n, pr, c, y, o, tn, tp, kids, hne, not_le.1 hroom, rfl, ?_, hlinks⟩
    exact ⟨htree.ring, htree.nodup, htree.family, htree.mem_kids, htree.allocated, htree.below⟩

/-- What is known of `init` when the machine starts. -/
structure Booted (s : State) (init : TaskId) : Prop where
  nrThreads : s.nrThreads = 1
  maxThreads : 1 ≤ s.maxThreads
  lastPid : s.lastPid = 1
  pid : s.pid init = 1
  pgrp : s.pgrp init = 0
  session : s.session init = 0
  tgid : s.tgid init = 0
  leader : s.leader init = false
  state : s.state init = .running

theorem initial_sound (h : Initial s) : ∃ init kids, Sound s [init] kids ∧ Booted s init := by
  obtain ⟨m, init, env, n, pr, c, y, o, tn, tp, kids, hne, hroom, rfl, htree, hlinks⟩ := initial_eq h
  have hmem : ∀ p ∈ [init], p = init := fun p => List.mem_singleton.1
  have hthread : initFlags &&& CLONE_THREAD ≠ 0 := by decide
  have hown : initFlags &&& CLONE_PARENT = 0 := by decide
  have htraced : tracedChild ((idleState m).numbered 1 pidMax) initTask initFlags = false := if_pos (by decide)
  generalize hs : ({ ((idleState m).numbered 1 pidMax).forked env initTask init initFlags 1 n pr c y o tn tp with
    childReaper := init } : State) = s at htree ⊢
  have hpid : s.pid init = 1 := by
    subst hs
    exact Function.update_self ..
  have hpgrp : s.pgrp init = 0 := by
    subst hs
    exact Function.update_self ..
  have hsession : s.session init = 0 := by
    subst hs
    exact Function.update_self ..
  have htgid : s.tgid init = 0 := by
    subst hs
    exact (Function.update_self ..).trans (if_pos hthread)
  have hleader : s.leader init = false := by
    subst hs
    exact Function.update_self ..
  have hstate : s.state init = .running := by
    subst hs
    exact Function.update_self ..
  have hexit : s.exiting init = false := by
    subst hs
    exact Function.update_self ..
  have hsig : s.sighand init = true := by
    subst hs
    exact Function.update_self ..
  have hidle : Alive s [init] initTask := by
    subst hs
    refine ⟨List.mem_cons_self, ?_⟩
    have hrun : update (fun _ => TaskState.running) init .running initTask = .running := update_of_ne hne.symm ..
    exact fun hz => TaskState.noConfusion (hrun.symm.trans hz)
  have hpptr : s.pptr init = initTask := by
    subst hs
    exact (Function.update_self ..).trans (if_pos ⟨hown, htraced⟩)
  have hopptr : s.opptr init = initTask := by
    subst hs
    exact (Function.update_self ..).trans (if_pos hown)
  have hused : ∀ i, Used s [init] i → i ≤ 1 := by
    rintro i ⟨p, hp, hi⟩
    rw [hmem p hp] at hi
    simp only [State.ids, hpid, hpgrp, hsession, htgid, List.mem_cons, List.not_mem_nil, or_false] at hi
    omega
  refine ⟨init, kids, ⟨⟨htree, ?_⟩, fun p hp => ?_, fun p hp => ?_, fun p hp hz => ?_, fun p hp h => ?_,
    fun p hp h => ?_, hidle.2, ?_, fun k p => ?_, fun p hp => ?_, ?_⟩, ?_, ?_, ?_, hpid, hpgrp, hsession, htgid,
    hleader, hstate⟩
  · have hset : (fun r => r ∈ [initTask] ∨ r = init) = (· ∈ [initTask, init]) := by
      funext r
      rw [List.mem_singleton, List.mem_pair]
    subst hs
    exact hset ▸ hlinks
  · rw [hmem p hp, hpptr]
    exact ⟨hidle, hne.symm⟩
  · rw [hmem p hp, hopptr]
    exact ⟨hidle, hne.symm⟩
  · rw [hmem p hp, hstate] at hz
    cases hz
  · rw [hmem p hp, hsig] at h
    cases h
  · rw [hmem p hp, hexit] at h
    cases h
  · have hreaper : s.childReaper = init := by
      subst hs
      rfl
    rw [hreaper]
    exact ⟨List.mem_singleton.2 rfl, hexit, hpid, hopptr⟩
  · have hhash : s.pidhash = update (fun _ => []) (pidHashfn 1) [init] := by
      subst hs
      rfl
    rw [hhash, List.mem_singleton]
    by_cases hk : k = pidHashfn 1
    · rw [hk, Function.update_self, List.mem_singleton]
      exact ⟨fun h => ⟨h, by rw [h, hpid]⟩, fun h => h.1⟩
    · rw [update_of_ne hk]
      exact ⟨fun h => absurd h List.not_mem_nil, fun h => absurd (by rw [← h.2, h.1, hpid]) hk⟩
  · rw [hmem p hp, hpid]
    exact Nat.zero_lt_one
  · subst hs
    exact ⟨show 1 < pidMax by decide, le_rfl, .inr hused⟩
  · subst hs
    rfl
  · subst hs
    exact hroom
  · subst hs
    rfl

/-- A step of the machine has an effect. -/
theorem Sound.effect (hs : Sound s tasks kids) (hstep : machine.Step s e t) :
    ∃ tasks' kids', Sound t tasks' kids' ∧ Effect s tasks e t tasks' := by
  rcases hs.step_effect hstep.1 with ⟨current, env, rfl, hpid⟩ | ⟨u, tasks', kids', hu, hsound, heffect⟩
  · have herror : Proc.step s (.call current env .exit) = .error .killedInit := if_pos (.inr hpid)
    cases herror.symm.trans hstep.2
  · cases hu.symm.trans hstep.2
    exact ⟨tasks', kids', hsound, heffect⟩

/-- Every reachable state is sound. -/
theorem reachable_sound (h : machine.Reachable Initial s) : ∃ tasks kids, Sound s tasks kids := by
  refine h.invariant (I := fun s => ∃ tasks kids, Sound s tasks kids) (fun s hs => ?_) fun s e t _ hs hstep => ?_
  · obtain ⟨init, kids, hs, -⟩ := initial_sound hs
    exact ⟨[init], kids, hs⟩
  · obtain ⟨tasks, kids, hs⟩ := hs
    obtain ⟨tasks', kids', hsound, -⟩ := hs.effect hstep
    exact ⟨tasks', kids', hsound⟩

/-- The tasks that `for_each_task` meets. -/
def State.taskList (s : State) : List TaskId :=
  match s.forEachTask with
  | .ok l => l
  | .error _ => []

theorem Sound.taskList_eq (hs : Sound s tasks kids) : s.taskList = tasks := by
  rw [State.taskList, hs.woven.tree.forEachTask]

theorem hashed_iff (h : machine.Reachable Initial s) : s.Hashed p ↔ p ∈ s.taskList := by
  obtain ⟨tasks, kids, hs⟩ := reachable_sound h
  rw [hs.mem_iff, hs.taskList_eq]

/-! ### What can be relied on -/

/-- Copies succeed, and everything is permitted. -/
def kindEnv : Env := ⟨fun _ _ => true, fun _ => true, true, true, fun _ => false, true⟩

/-- A machine for 100 tasks, with `init` as the task 1. -/
def booted : State :=
  match doFork kindEnv initTask 1 initFlags .done (idleState 100) with
  | .ok (_, s) => { s with childReaper := 1 }
  | .error _ => idleState 100

theorem initial_booted : Initial booted := by
  have hok : ∃ r, doFork kindEnv initTask 1 initFlags .done (idleState 100) = .ok r ∧ 0 < r.1 := ⟨_, rfl, by decide⟩
  obtain ⟨⟨pid, s⟩, hs, hpos⟩ := hok
  refine ⟨100, 1, kindEnv, pid, s, by decide, hs, hpos, ?_⟩
  rw [booted, hs]

/-- A state that a run from there comes to. -/
theorem reachable_after {es : List Event} (h : (machine.replay booted es).isSome = true) :
    machine.Reachable Initial (machine.after booted es) :=
  ⟨booted, es, initial_booted, Machine.run_after h⟩

/-- `init` forks the task `p`, whose exit signal is `SIGCHLD`. -/
def spawn (p : TaskId) : Event := .call 1 kindEnv (.fork p 17 .done)

/-- No access is to a structure that has been freed, no loop goes on for ever and no task frees itself: the machine
stops only when `init` exits. -/
theorem step_ok (h : machine.Reachable Initial s) (henabled : machine.enabled s e) :
    (∃ t, machine.step s e = .ok t) ∨
      machine.step s e = .error .killedInit ∧ ∃ current env, e = .call current env .exit ∧ s.pid current = 1 := by
  obtain ⟨tasks, kids, hs⟩ := reachable_sound h
  rcases hs.step_effect henabled with ⟨current, env, rfl, hpid⟩ | ⟨t, tasks', kids', ht, -, -⟩
  · exact .inr ⟨if_pos (.inr hpid), current, env, rfl, hpid⟩
  · exact .inl ⟨t, ht⟩

/-- The second task may exit. -/
theorem step_ok_exit : ∃ t, machine.step (machine.after booted [spawn 2]) (.call 2 kindEnv .exit) = .ok t := by
  have hreach : machine.Reachable Initial (machine.after booted [spawn 2]) := reachable_after (by decide)
  have henabled : machine.enabled (machine.after booted [spawn 2]) (.call 2 kindEnv .exit) := by decide
  rcases step_ok hreach henabled with h | ⟨-, current, env, h, hpid⟩
  · exact h
  · cases h
    exact absurd hpid (by decide)

/-- `exit_notify` gives the tasks that its caller has created to the first other thread of its group that is not
exiting, or else to `init`, and its children to those who have created them. -/
theorem exitNotify_heirs {code : Nat} (h : machine.Reachable Initial s)
    (hstep : machine.Step s (.call current env (.exitNotify code)) t) :
    ∃ others, s.otherThreads current = .ok others ∧ t.state current = .zombie ∧ t.cptr current = none ∧
      ∀ p, s.Hashed p →
        t.opptr p = (if s.opptr p = current then if p = heir s others then s.childReaper else heir s others
          else s.opptr p) ∧
        t.pptr p = (if s.pptr p = current then t.opptr p else s.pptr p) ∧
        (t.opptr p ≠ current ∧ t.state (t.opptr p) ≠ .zombie) ∧ t.pptr p ≠ current ∧
          t.state (t.pptr p) ≠ .zombie := by
  obtain ⟨tasks, kids, hs⟩ := reachable_sound h
  obtain ⟨⟨hhashed, hrun, hexit⟩, hstep⟩ := hstep
  have hc := (hs.mem_iff current).1 hhashed
  obtain ⟨others, u, kids', hothers, -, hu, hsound, hkids, hd⟩ := hs.exitNotify hc hexit hrun env code
  cases hu.symm.trans hstep
  obtain ⟨c, y, o, sig, -, hw⟩ := hd.departed
  have hself : t.state current = .zombie := (hw.zombie_iff current).2 (Function.update_self ..)
  have hrow := hsound.woven.tree.family.row_none current
  rw [hkids] at hrow
  refine ⟨others, hothers, hself, hrow, fun p hp => ?_⟩
  have hp := (hs.mem_iff p).1 hp
  have hfields : t.pptr p = (if p ∈ kids current then t.opptr p else s.pptr p) ∧ t.opptr p =
      (if p ∈ tasks ∧ s.opptr p = current then if p = heir s others then s.childReaper else heir s others
        else s.opptr p) := by
    rw [hw.sameKin.pptr, hw.sameKin.opptr]
    exact ⟨rfl, rfl⟩
  obtain ⟨hpptr, hopptr⟩ := hfields
  have hkid : p ∈ kids current ↔ s.pptr p = current := (hs.woven.tree.mem_kids p current).trans (and_iff_right hp)
  simp only [hkid] at hpptr
  simp only [hp, true_and] at hopptr
  have hcreator := (hsound.creator p hp).1.2
  have hparent := (hsound.parent p hp).1.2
  exact ⟨hopptr, hpptr, ⟨fun heq => hcreator (heq ▸ hself), hcreator⟩, fun heq => hparent (heq ▸ hself), hparent⟩

/-- The task 2, which has created the task 3, is about to die. -/
def leaving : State := machine.after booted [spawn 2, .call 2 kindEnv (.fork 3 17 .done), .call 2 kindEnv .exit]

theorem exitNotify_heirs_leaving : ∃ t, leaving.opptr 3 = 2 ∧ machine.Step leaving (.call 2 kindEnv (.exitNotify 5)) t ∧
    t.state (t.opptr 3) ≠ .zombie := by
  have hreach : machine.Reachable Initial leaving := reachable_after (by decide)
  have hstep : machine.Step leaving (.call 2 kindEnv (.exitNotify 5)) _ := Machine.step_after (by decide)
  obtain ⟨others, -, -, -, hall⟩ := exitNotify_heirs hreach hstep
  exact ⟨_, by decide, hstep, (hall 3 (by decide)).2.2.1.2⟩

/-- The options of a call that `sys_wait4` refuses. -/
def WaitArgs.Refused (args : WaitArgs) : Prop :=
  args.options &&& ~~~(WNOHANG ||| WUNTRACED ||| WNOTHREAD ||| WCLONE ||| WALL) ≠ 0

/-- A `sys_wait4` that is called, or that goes on after a sleep, fails without effect if its options are refused.
Otherwise it returns without a child for the reasons that there are, or it reports one that it waits for and that is
ready, or it goes to sleep because there is none yet. -/
theorem sysWait4_reports {c : Call} {args : WaitArgs} (h : machine.Reachable Initial s)
    (henabled : machine.enabled s (.call current env c))
    (hcall : c = .wait4 args ∨ c = .again ∧ s.waiting current = some args) :
    ∃ tasks v t, s.forEachTask = .ok tasks ∧ waitResult s (.call current env c) = some (.ok (v, t)) ∧
      machine.Step s (.call current env c) t ∧
      (c = .wait4 args ∧ args.Refused ∧ v = some (-EINVAL, none) ∧ t = s ∨
        (c = .wait4 args → ¬args.Refused) ∧ Reports env s tasks current args t v) := by
  obtain ⟨tasks, kids, hs⟩ := reachable_sound h
  have hc := (hs.mem_iff current).1 henabled.1
  have hrun := henabled.2.1
  have hlist := hs.woven.tree.forEachTask
  rcases hcall with rfl | ⟨rfl, hwait⟩
  · by_cases hrefused : args.Refused
    · have hresult : sysWait4 env current args s = .ok (some (-EINVAL, none), s) := if_pos hrefused
      refine ⟨tasks, _, s, hlist, congrArg some hresult, ⟨henabled, ?_⟩, .inl ⟨rfl, hrefused, rfl, rfl⟩⟩
      show Call.step env current s (.wait4 args) = _
      rw [Call.step, hresult]
      rfl
    · have hu : Sound { s with waiting := update s.waiting current (some args) } tasks kids := hs.congr {}
      obtain ⟨v, t, tasks', hpass, hend⟩ := hu.waitPass hc hrun env args
      have hresult : sysWait4 env current args s = .ok (v, t) := (if_neg hrefused).trans hpass
      refine ⟨tasks, v, t, hlist, congrArg some hresult, ⟨henabled, ?_⟩, .inr ⟨fun _ => hrefused, ?_⟩⟩
      · show Call.step env current s (.wait4 args) = _
        rw [Call.step, hresult]
        rfl
      · exact hend.reports hs hrun (Function.update_self ..) (Function.update_idem ..)
  · obtain ⟨v, t, tasks', hpass, hend⟩ := hs.waitPass hc hrun env args
    refine ⟨tasks, v, t, hlist, ?_, ⟨henabled, ?_⟩, .inr ⟨fun heq => ?_, hend.reports hs hrun hwait rfl⟩⟩
    · rw [waitResult, hwait]
      exact congrArg some hpass
    · show Call.step env current s .again = _
      rw [Call.step, hwait]
      dsimp only
      rw [hpass]
      rfl
    · cases heq

/-- The only child of `init` is dead. -/
def bereaved : State := machine.after booted [spawn 2, .call 2 kindEnv .exit, .call 2 kindEnv (.exitNotify 5)]

/-- `init` has been woken up in its `sys_wait4` by the death of its child. -/
def roused : State :=
  machine.after booted
    [spawn 2, .call 1 kindEnv (.wait4 ⟨-1, 0⟩), .call 2 kindEnv .exit, .call 2 kindEnv (.exitNotify 5)]

theorem sysWait4_reports_roused : ∃ t p, waitResult roused (.call 1 kindEnv .again) = some (.ok (some (2, some 5), t)) ∧
    roused.pid p = 2 ∧ ready roused ⟨-1, 0⟩ p = true := by
  have hreach : machine.Reachable Initial roused := reachable_after (by decide)
  have henabled : machine.enabled roused (.call 1 kindEnv .again) := by decide
  obtain ⟨tasks, v, t, -, hwait, -, hv⟩ := sysWait4_reports hreach henabled (.inr ⟨rfl, rfl⟩)
  have hvalue : (waitResult roused (.call 1 kindEnv .again)).map (Except.map Prod.fst) =
      some (.ok (some (2, some 5))) := rfl
  rw [hwait] at hvalue
  obtain rfl : v = some (2, some 5) := Except.ok.inj (Option.some.inj hvalue)
  rcases hv with ⟨hcall, -⟩ | ⟨-, -, p, -, hready, hpid, -⟩
  · cases hcall
  · exact ⟨t, p, hwait, Int.ofNat_inj.1 hpid.symm, hready⟩

end MagicKernel.Proc
