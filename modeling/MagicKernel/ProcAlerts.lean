import MagicKernel.ProcNumbers

/-! Nobody sleeps in `sys_wait4` while a child that he waits for is dead. What can change this are the exit of the
child or of its parent, a new parent, a new process group and a `sys_wait4` that goes to sleep; a task that
dies, or is handed over when it is dead, wakes its parent up. -/

namespace MagicKernel.Proc

open FaultMachine PointerLists
open Function (update update_of_ne)
open Sched (TaskState)

variable {env : Env} {s t u : State} {p q r current reaper : TaskId} {tasks tasks' l : List TaskId}
  {kids : TaskId → List TaskId} {e : Event} {args : WaitArgs} {code : Nat} {v : Option Report}

/-- `setpgid` is called for no zombie and for nobody who is in `sys_wait4`, and a zombie that another task than its
creator traces has the usual exit signal when its creator exits. -/
def Watchful (s : State) : Event → Prop
  | .call current _ (.setpgid pid _) => ∀ p ∈ findTaskByPid s (if pid = 0 then (s.pid current : Int) else pid),
      s.state p ≠ .zombie ∧ s.waiting p = none
  | .call current _ (.exitNotify _) => ∀ p ∈ s.taskList, s.state p = .zombie → s.opptr p = current →
      s.pptr p ≠ current → s.exitSignal p = SIGCHLD
  | _ => True

instance (s : State) : (e : Event) → Decidable (Watchful s e)
  | .call current _ c =>
    match c with
    | .setpgid pid _ =>
      inferInstanceAs (Decidable (∀ p ∈ findTaskByPid s (if pid = 0 then (s.pid current : Int) else pid), _))
    | .exitNotify _ => inferInstanceAs (Decidable (∀ p ∈ s.taskList, _))
    | .fork _ _ _ | .exit | .wait4 _ | .again | .setsid | .execve | .ptrace _ _ | .setPdeathSignal _ | .reparentToInit
    | .daemonize | .stop _ | .sleep _ | .recalcSigpending => isTrue trivial
  | .wake _ | .signal _ _ _ => isTrue trivial

/-- No task that sleeps in `sys_wait4` has a zombie to wait for. -/
def Attentive (s : State) (tasks : List TaskId) : Prop :=
  ∀ r ∈ tasks, ∀ args, s.waiting r = some args → s.state r = .interruptible →
    ∀ p ∈ tasks, s.state p = .zombie → Looks s r args p → eligible s r args p = false

/-- Before the step, `r` has slept in the same call and `p` has been the same zombie. -/
structure Settled (s t : State) (r p : TaskId) : Prop where
  waiting : t.waiting r = s.waiting r := by rfl
  asleep : s.state r = .interruptible
  zombie : s.state p = .zombie
  pptr : t.pptr p = s.pptr p := by rfl
  pid : t.pid p = s.pid p := by rfl
  pgrp : t.pgrp p = s.pgrp p := by rfl
  own : t.pgrp r = s.pgrp r := by rfl
  exitSignal : t.exitSignal p = s.exitSignal p := by rfl
  group : t.SameGroup r (s.pptr p) → s.SameGroup r (s.pptr p) := by exact id

theorem Settled.looks (h : Settled s t r p) (hlooks : Looks t r args p) : Looks s r args p := by
  rw [Looks] at hlooks ⊢
  rw [h.pptr] at hlooks
  split
  · rename_i hopt
    rwa [if_pos hopt] at hlooks
  · rename_i hopt
    rw [if_neg hopt] at hlooks
    exact h.group hlooks

theorem Settled.eligible_eq (h : Settled s t r p) (args : WaitArgs) : eligible t r args p = eligible s r args p := by
  simp only [eligible, h.pid, h.pgrp, h.own, h.exitSignal]

/-- Only the pairs that are new have to be looked at. -/
theorem Attentive.of_settled (h : Attentive s tasks)
    (hnew : ∀ r ∈ tasks', ∀ args, t.waiting r = some args → t.state r = .interruptible →
      ∀ p ∈ tasks', t.state p = .zombie →
      Looks t r args p → r ∈ tasks ∧ p ∈ tasks ∧ Settled s t r p) : Attentive t tasks' := by
  intro r hr args hwait hst p hp hz hlooks
  obtain ⟨hr', hp', hset⟩ := hnew r hr args hwait hst p hp hz hlooks
  rw [hset.eligible_eq]
  exact h r hr' args (hset.waiting.symm.trans hwait) hset.asleep p hp' hset.zombie (hset.looks hlooks)

/-- A task that looks at the child `p` is in the thread group of its parent. -/
theorem Looks.group (h : Looks s r args p) : s.SameGroup r (s.pptr p) := by
  rw [Looks] at h
  split at h
  · rw [h]
    exact reach_refl _ _
  · exact h

/-! ### One step -/

theorem Quiet.attentive (hq : Quiet s t tasks tasks') (h : Attentive s tasks) : Attentive t tasks' := by
  refine h.of_settled fun r hr args hwait hst p hp hz _ => ?_
  have hr' := hq.ids.perm.mem_iff.1 hr
  have hp' := hq.ids.perm.mem_iff.1 hp
  obtain ⟨hwaiting, hasleep, hpgrp⟩ := hq.hush.asleep r hr' (by rw [hwait]; rfl) hst
  have hzombie := hq.hush.zombie p hp' hz
  obtain ⟨-, hpid, hpg, -, hsig, hpptr⟩ := hq.hush.dead p hp' hzombie
  exact ⟨hr', hp', hwaiting, hasleep, hzombie, hpptr, hpid, hpg, hpgrp, hsig,
    hq.hush.group r (List.mem_cons_of_mem _ hr') _⟩

theorem Attentive.forked {flags : UInt32} {last : Nat} {n pr : TaskId → TaskId} {c y o : TaskId → Option TaskId}
    {tn tp : TaskId → TaskId} (h : Attentive s tasks) (hs : Sound s tasks kids) (hp : p ∉ initTask :: tasks)
    (hgroup : ∀ q r, q ∈ initTask :: tasks → r ∈ initTask :: tasks →
      ((s.forked env current p flags last n pr c y o tn tp).SameGroup q r ↔ s.SameGroup q r)) :
    Attentive (s.forked env current p flags last n pr c y o tn tp) (tasks ++ [p]) := by
  -- The new task runs.
  have hold : ∀ q ∈ tasks ++ [p], (s.forked env current p flags last n pr c y o tn tp).state q ≠ .running →
      q ∈ tasks ∧ q ≠ p := by
    intro q hq hst
    by_cases hqp : q = p
    · subst hqp
      exact absurd (Function.update_self ..) hst
    · rw [List.mem_append, List.mem_singleton, or_iff_left hqp] at hq
      exact ⟨hq, hqp⟩
  refine h.of_settled fun r hr args hwait hst a ha hz hlooks => ?_
  obtain ⟨hr', hrp⟩ := hold r hr (by rw [hst]; exact TaskState.noConfusion)
  obtain ⟨ha', hap⟩ := hold a ha (by rw [hz]; exact TaskState.noConfusion)
  have hpptr := hgroup r (s.pptr a) (hs.mem_cons hr') (hs.parent a ha').1.1
  exact ⟨hr', ha', {
    waiting := update_of_ne hrp ..
    asleep := (update_of_ne hrp ..).symm.trans hst
    zombie := (update_of_ne hap ..).symm.trans hz
    pptr := update_of_ne hap ..
    pid := update_of_ne hap ..
    pgrp := update_of_ne hap ..
    own := update_of_ne hrp ..
    exitSignal := update_of_ne hap ..
    group := hpptr.1 }⟩

theorem Attentive.departed (h : Attentive s tasks) (hs : Sound s tasks kids) (hc : current ∈ tasks)
    (hd : Departure s tasks (kids current) current reaper code t)
    (hsig : ∀ p ∈ tasks, s.state p = .zombie → s.opptr p = current → s.pptr p ≠ current →
      s.exitSignal p = SIGCHLD) :
    Attentive t tasks := by
  have hsymm : ∀ r q, r ∈ tasks → s.SameGroup r q → s.SameGroup q r := fun r q hr hg =>
    hs.woven.group_symm (hs.mem_cons hr) hg
  obtain ⟨c, y, o, sig, -, hw⟩ := hd.departed
  have hbase : ∀ p, p ≠ current → (s.departed current reaper code sig tasks (kids current) c y o).state p = s.state p :=
    fun p hp => update_of_ne hp ..
  have hself : (s.departed current reaper code sig tasks (kids current) c y o).state current = .zombie :=
    Function.update_self ..
  have hkid : current ∉ kids current := fun h =>
    (hs.parent current hc).2 ((hs.woven.tree.mem_kids current current).1 h).2
  refine h.of_settled fun r hr args hwait hst p hp hz hlooks => ?_
  have hback := (hw.state_eq (by rw [hst]; exact TaskState.noConfusion)).trans hst
  have hrc : r ≠ current := by
    rintro rfl
    rw [hself] at hback
    cases hback
  have hzombie := (hw.zombie_iff p).1 hz
  have hwaiting : t.waiting r = s.waiting r := congrFun hw.waiting r
  have hwaits : (s.waiting r).isSome = true := by rw [← hwaiting, hwait]; rfl
  have hfields : t.pptr p = (if p ∈ kids current then t.opptr p else s.pptr p) ∧ t.pid p = s.pid p ∧ t.pgrp = s.pgrp ∧
      t.exitSignal p =
        update (fun q => if q ∈ tasks ∧ s.opptr q = current then SIGCHLD else s.exitSignal q) current sig p := by
    obtain ⟨st, sp, ec, rfl, -⟩ := hw
    exact ⟨rfl, rfl, rfl, rfl⟩
  obtain ⟨hpptr, hpid, hpgrp, hexit⟩ := hfields
  have hgroup := hlooks.group
  rw [hw.sameGroup] at hgroup
  by_cases hpl : p ∈ kids current
  · -- Its new parent has been woken up.
    rw [hpptr, if_pos hpl] at hgroup
    have hzs : s.state p = .zombie := (hbase p fun heq => hkid (heq ▸ hpl)).symm.trans hzombie
    exact absurd hst (hd.heirs p hpl hzs r (hsymm r _ hr hgroup) hwaits)
  · rw [if_neg hpl] at hpptr
    rw [hpptr] at hgroup
    by_cases hpc : p = current
    · -- Its parent has been woken up.
      rw [hpc] at hgroup
      exact absurd hst (hd.parent r (hsymm r _ hr hgroup) hwaits)
    · have hzs : s.state p = .zombie := (hbase p hpc).symm.trans hzombie
      refine ⟨hr, hp, {
        waiting := hwaiting
        asleep := (hbase r hrc).symm.trans hback
        zombie := hzs
        pptr := hpptr
        pid := hpid
        pgrp := by rw [hpgrp]
        own := by rw [hpgrp]
        exitSignal := ?_
        group := fun _ => hgroup }⟩
      rw [hexit, update_of_ne hpc]
      split
      · rename_i hcreated
        exact (hsig p hp hzs hcreated.2 fun hkid' => hpl ((hs.woven.tree.mem_kids p current).2 ⟨hp, hkid'⟩)).symm
      · rfl

/-- Whoever sleeps or is dead after the call is not its caller. -/
theorem awake_ne {x : TaskState} (hx : x ≠ .running) (h : (s.awake current).state r = x) :
    r ≠ current ∧ s.state r = x := by
  have hrc : r ≠ current := by
    rintro rfl
    exact hx (h.symm.trans (Function.update_self ..))
  exact ⟨hrc, (update_of_ne hrc ..).symm.trans h⟩

theorem Attentive.awake (h : Attentive s tasks) (current : TaskId) : Attentive (s.awake current) tasks := by
  refine h.of_settled fun r hr args hwait hst p hp hz hlooks => ?_
  obtain ⟨hrc, hasleep⟩ := awake_ne TaskState.noConfusion hst
  obtain ⟨-, hzombie⟩ := awake_ne TaskState.noConfusion hz
  exact ⟨hr, hp, { waiting := update_of_ne hrc .., asleep := hasleep, zombie := hzombie }⟩

/-- A zombie is handed over to its creator. -/
theorem Attentive.handed {n pr : TaskId → TaskId} {c y o : TaskId → Option TaskId} (h : Attentive s tasks)
    (hs : Sound s tasks kids) (hp : p ∈ tasks) (hw : Woken ((s.dozing current).moved p (s.opptr p) n pr c y o) u)
    (hwake : ∀ r, s.SameGroup (s.opptr p) r → (s.waiting r).isSome = true → u.state r ≠ .interruptible) :
    Attentive (u.awake current) (tasks.erase p ++ [p]) := by
  have hmem : ∀ q, q ∈ tasks.erase p ++ [p] ↔ q ∈ tasks := fun q => (moved_perm hp).mem_iff
  have hfields : u.waiting = s.waiting ∧ u.pptr = update s.pptr p (s.opptr p) ∧ u.pid = s.pid ∧ u.pgrp = s.pgrp ∧
      u.exitSignal = s.exitSignal ∧ u.threadNext = s.threadNext := by
    obtain ⟨st, sp, ec, rfl, -⟩ := hw
    exact ⟨rfl, rfl, rfl, rfl, rfl, rfl⟩
  obtain ⟨hwaiting, hpptr, hpid, hpgrp, hsig, hthread⟩ := hfields
  refine h.of_settled fun r hr args hwait hst q hq hz hlooks => ?_
  obtain ⟨hrc, hru⟩ := awake_ne TaskState.noConfusion hst
  obtain ⟨hqc, hqu⟩ := awake_ne TaskState.noConfusion hz
  have hwaiting' : (u.awake current).waiting r = s.waiting r := (update_of_ne hrc ..).trans (congrFun hwaiting r)
  have hasleep : s.state r = .interruptible := by
    have hback := (hw.state_eq (by rw [hru]; exact TaskState.noConfusion)).trans hru
    exact (update_of_ne hrc ..).symm.trans hback
  have hzombie : s.state q = .zombie := (update_of_ne hqc ..).symm.trans ((hw.zombie_iff q).1 hqu)
  have hgroup : s.SameGroup r (update s.pptr p (s.opptr p) q) := by
    have hgroup := hlooks.group
    rw [State.SameGroup, State.awake, hpptr, hthread] at hgroup
    exact hgroup
  by_cases hqp : q = p
  · rw [hqp, Function.update_self] at hgroup
    have hsymm := hs.woven.group_symm (hs.mem_cons ((hmem r).1 hr)) hgroup
    exact absurd hru (hwake r hsymm (by rw [← hwaiting', hwait]; rfl))
  · rw [update_of_ne hqp] at hgroup
    exact ⟨(hmem r).1 hr, (hmem q).1 hq, {
      waiting := hwaiting'
      asleep := hasleep
      zombie := hzombie
      pptr := (congrFun hpptr q).trans (update_of_ne hqp ..)
      pid := congrFun hpid q
      pgrp := congrFun hpgrp q
      own := congrFun hpgrp r
      exitSignal := congrFun hsig q
      group := fun _ => hgroup }⟩

theorem Attentive.released {n pr : TaskId → TaskId} {c y o : TaskId → Option TaskId} (h : Attentive s tasks)
    (hs : Sound s tasks kids) (hp : p ∈ tasks) (hz : s.state p = .zombie) :
    Attentive (s.released p n pr c y o) (tasks.erase p) := by
  have hmem : ∀ q ∈ tasks.erase p, q ∈ tasks ∧ q ≠ p := fun q hq =>
    ((List.nodup_cons.1 hs.woven.tree.nodup).2.mem_erase_iff.1 hq).symm
  refine h.of_settled fun r hr args hwait hst q hq hzq hlooks => ?_
  obtain ⟨hr', hrp⟩ := hmem r hr
  obtain ⟨hq', hqp⟩ := hmem q hq
  have hparent : s.pptr q ≠ p := fun heq => (hs.parent q hq').1.2 (heq ▸ hz)
  exact ⟨hr', hq', {
    asleep := hst
    zombie := hzq
    pid := update_of_ne hqp ..
    group := (sameGroup_released hs hp (hs.mem_cons hr') hrp hparent).1 }⟩

/-- The caller has found no child to report. -/
theorem Attentive.dozing (h : Attentive s tasks) (hwait : s.waiting current = some args)
    (hnone : ∀ p, Awaited s tasks current args p → ready s args p = false) : Attentive (s.dozing current) tasks := by
  intro r hr args' hwait' hst p hp hz hlooks
  have hpc : p ≠ current := by
    rintro rfl
    cases (Function.update_self ..).symm.trans hz
  have hzombie : s.state p = .zombie := (update_of_ne hpc ..).symm.trans hz
  by_cases hrc : r = current
  · subst hrc
    obtain rfl : args = args' := Option.some.inj (hwait.symm.trans hwait')
    by_contra heligible
    have hready := hnone p ⟨hp, hlooks, Bool.not_eq_false _ ▸ heligible⟩
    rw [ready, hzombie] at hready
    cases hready
  · exact h r hr args' hwait' ((update_of_ne hrc ..).symm.trans hst) p hp hzombie hlooks

theorem WaitEnd.attentive (hend : WaitEnd env s tasks current args v t tasks') (h : Attentive s tasks)
    (hs : Sound s tasks kids) (hwait : s.waiting current = some args) : Attentive t tasks' := by
  cases hend with
  | kept hr => exact h.awake current
  | @stopped p hp hready hcopied hst =>
      have hcode : Attentive { s with exitCode := update s.exitCode p 0 } tasks := h
      exact hcode.awake current
  | handed hp hcopied hz hne hw hsound hwake => exact h.handed hs hp.1 hw hwake
  | released hp hcopied hz heq hsound => exact (h.released hs hp.1 hz).awake current
  | asleep hp hnone hhang hpending => exact h.dozing hwait hnone

/-- The numbers of `p` alone have changed, and it neither sleeps in `sys_wait4` nor is dead. -/
theorem Attentive.renumbered {g e : TaskId → Nat} {leader mm : TaskId → Bool} (h : Attentive s tasks)
    (hg : ∀ q, q ≠ p → g q = s.pgrp q) (hawake : (s.waiting p).isSome = true → s.state p ≠ .interruptible)
    (hnz : s.state p ≠ .zombie) : Attentive { s with pgrp := g, session := e, leader := leader, mm := mm } tasks := by
  refine h.of_settled fun r hr args hwait hst q hq hz hlooks => ?_
  have hwait' : s.waiting r = some args := hwait
  have hrp : r ≠ p := by
    rintro rfl
    exact hawake (by rw [hwait']; rfl) hst
  have hqp : q ≠ p := by
    rintro rfl
    exact hnz hz
  exact ⟨hr, hq, { asleep := hst, zombie := hz, pgrp := hg q hqp, own := hg r hrp }⟩

theorem Effect.attentive (he : Effect s tasks e t tasks') (hs : Sound s tasks kids) (h : Attentive s tasks)
    (hwatch : Watchful s e) : Attentive t tasks' := by
  cases he with
  | quiet hq => exact hq.attentive h
  | @counted _ _ _ _ _ last safe _ hc hq =>
      have hcounted : Attentive (s.numbered last safe) tasks := h
      exact hq.attentive hcounted
  | @forked current p env flags _ last safe n pr c y o tn tp hcurrent hp hc hpos hfresh hroom hgroup =>
      have hcounted : Attentive (s.numbered last safe) tasks := h
      exact hcounted.forked (hs.ofNumbered hc.numbered) hp hgroup
  | exited hcurrent hrun hs' hd =>
      exact h.departed hs' hcurrent hd fun p hp => hwatch p (hs.taskList_eq.symm ▸ hp)
  | waited hu hq hcurrent hrun hwait hend hvalue =>
      exact hend.attentive (hq.attentive h) hu hwait
  | @regrouped _ p _ _ _ _ hfind hr =>
      obtain ⟨hnz, hnone⟩ := hwatch p hfind
      obtain @⟨g, -, -, -, -⟩ := hr
      have hset : ∀ q, q ≠ p → update s.pgrp p g q = s.pgrp q := fun q hq => update_of_ne hq ..
      refine h.renumbered (e := s.session) hset (fun hsome => ?_) hnz
      rw [hnone] at hsome
      cases hsome
  | @sessioned current _ hcurrent hrun hnone =>
      have hset : ∀ q, q ≠ current → update s.pgrp current (s.pid current) q = s.pgrp q := fun q hq =>
        update_of_ne hq ..
      exact h.renumbered hset (fun _ => by rw [hrun]; exact TaskState.noConfusion) (not_zombie_of_running hrun)
  | @daemonized current _ hcurrent hrun =>
      have hset : ∀ q, q ≠ current → update s.pgrp current 1 q = s.pgrp q := fun q hq => update_of_ne hq ..
      exact h.renumbered hset (fun _ => by rw [hrun]; exact TaskState.noConfusion) (not_zombie_of_running hrun)

/-! ### Runs -/

/-- In watchful runs, nobody ever sleeps in `sys_wait4` while a child that he waits for is dead. -/
theorem no_lost_wakeup (h : (machine.restrict Watchful).Reachable Initial s) (hr : s.Hashed r)
    (hwait : s.waiting r = some args) (hst : s.state r = .interruptible) (hp : s.Hashed p) (hz : s.state p = .zombie)
    (hlooks : Looks s r args p) : eligible s r args p = false := by
  obtain ⟨tasks, kids, hs, hattentive⟩ : ∃ tasks kids, Sound s tasks kids ∧ Attentive s tasks := by
    refine h.invariant (I := fun s => ∃ tasks kids, Sound s tasks kids ∧ Attentive s tasks) (fun s hinit => ?_)
      fun s e t _ ih hstep => ?_
    · obtain ⟨init, kids, hs, hb⟩ := initial_sound hinit
      refine ⟨[init], kids, hs, fun r hr args hwait hst => ?_⟩
      rw [List.mem_singleton.1 hr, hb.state] at hst
      cases hst
    · obtain ⟨hwatch, hstep⟩ := Machine.restrict_step.1 hstep
      obtain ⟨tasks, kids, hs, hattentive⟩ := ih
      obtain ⟨tasks', kids', hs', heffect⟩ := hs.effect hstep
      exact ⟨tasks', kids', hs', heffect.attentive hs hattentive hwatch⟩
  exact hattentive r ((hs.mem_iff r).1 hr) args hwait hst p ((hs.mem_iff p).1 hp) hz hlooks

/-- `init` sleeps until its child 3 dies, while its child 2 is dead. -/
def drowsy : State :=
  (machine.restrict Watchful).after booted [spawn 2, spawn 3, .call 1 kindEnv (.wait4 ⟨3, 0⟩), .call 2 kindEnv .exit,
    .call 2 { kindEnv with takes := fun _ _ => false } (.exitNotify 5), .call 1 kindEnv .again]

theorem no_lost_wakeup_drowsy : drowsy.state 1 = .interruptible ∧ drowsy.state 2 = .zombie ∧ drowsy.pptr 2 = 1 ∧
    eligible drowsy 1 ⟨3, 0⟩ 2 = false := by
  have hreach : (machine.restrict Watchful).Reachable Initial drowsy :=
    ⟨booted, _, initial_booted, Machine.run_after (by decide)⟩
  have hlooks : Looks drowsy 1 ⟨3, 0⟩ 2 := by
    rw [Looks, if_neg (by decide)]
    exact reach_refl _ _
  exact ⟨by decide, by decide, by decide,
    no_lost_wakeup hreach (by decide) (by decide) (by decide) (by decide) (by decide) hlooks⟩

end MagicKernel.Proc
