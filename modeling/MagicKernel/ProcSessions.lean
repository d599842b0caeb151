import MagicKernel.ProcNumbers

/-! Process groups do not reach beyond a session, and a session leader leads its process group as well, as long as
`init` stays in its group and no leader of a group becomes a daemon. With this, `exit_notify` leaves nobody
stopped at the head of a process group that it has orphaned. -/

namespace MagicKernel.Proc

open FaultMachine PointerLists
open Function (update update_of_ne)
open Sched (TaskState)

variable {env : Env} {s t : State} {p q current : TaskId} {tasks tasks' : List TaskId} {kids : TaskId → List TaskId}
  {e : Event}

/-- What the callers of `setpgid` and `daemonize` keep to. -/
def Orderly (s : State) : Event → Prop
  | .call current _ (.setpgid pid _) => (if pid = 0 then (s.pid current : Int) else pid) ≠ 1
  | .call current _ .daemonize => ∀ p ∈ s.taskList, s.pgrp p ≠ s.pid current
  | _ => True

instance (s : State) : (e : Event) → Decidable (Orderly s e)
  | .call _ _ c =>
    match c with
    | .setpgid _ _ => inferInstanceAs (Decidable (_ ≠ _))
    | .daemonize => inferInstanceAs (Decidable (∀ p ∈ s.taskList, _))
    | .fork _ _ _ | .exit | .exitNotify _ | .wait4 _ | .again | .setsid | .execve | .ptrace _ _ | .setPdeathSignal _
    | .reparentToInit | .stop _ | .sleep _ | .recalcSigpending => isTrue trivial
  | .wake _ | .signal _ _ _ => isTrue trivial

/-- The group with the number of a task is in the session of that task, unless the task is `init`: the daemons are
in the group and the session 1. -/
structure Sessions (s : State) (tasks : List TaskId) : Prop where
  group : ∀ p ∈ tasks, ∀ q ∈ tasks, s.pgrp p = s.pgrp q → s.session p = s.session q
  own : ∀ p ∈ tasks, ∀ q ∈ tasks, s.pid p ≠ 1 → s.pgrp q = s.pid p → s.session q = s.session p
  daemon : ∀ q ∈ tasks, s.pgrp q = 1 → s.session q = 1
  leader : ∀ p ∈ tasks, s.leader p = true → s.pgrp p = s.pid p ∧ s.session p = s.pid p

/-- The numbers of `p` are the same. -/
structure SameNumbers (s t : State) (p : TaskId) : Prop where
  pid : t.pid p = s.pid p := by rfl
  pgrp : t.pgrp p = s.pgrp p := by rfl
  session : t.session p = s.session p := by rfl
  leader : t.leader p = s.leader p := by rfl

theorem Sessions.sub (h : Sessions s tasks) (hsub : ∀ p ∈ tasks', p ∈ tasks ∧ SameNumbers s t p) :
    Sessions t tasks' where
  group p hp q hq heq := by
    obtain ⟨hp', hsp⟩ := hsub p hp
    obtain ⟨hq', hsq⟩ := hsub q hq
    rw [hsp.pgrp, hsq.pgrp] at heq
    rw [hsp.session, hsq.session]
    exact h.group p hp' q hq' heq
  own p hp q hq hne heq := by
    obtain ⟨hp', hsp⟩ := hsub p hp
    obtain ⟨hq', hsq⟩ := hsub q hq
    rw [hsp.pid] at hne heq
    rw [hsq.pgrp] at heq
    rw [hsp.session, hsq.session]
    exact h.own p hp' q hq' hne heq
  daemon q hq heq := by
    obtain ⟨hq', hsq⟩ := hsub q hq
    rw [hsq.pgrp] at heq
    rw [hsq.session]
    exact h.daemon q hq' heq
  leader p hp hl := by
    obtain ⟨hp', hsp⟩ := hsub p hp
    rw [hsp.leader] at hl
    rw [hsp.pgrp, hsp.session, hsp.pid]
    exact h.leader p hp' hl

theorem SameIds.sessions (hi : SameIds s t tasks tasks') (h : Sessions s tasks) : Sessions t tasks' :=
  h.sub fun p hp =>
    have hp' := hi.perm.mem_iff.1 hp
    ⟨hp', hi.pid p hp', hi.pgrp p hp', hi.session p hp', hi.leader p hp'⟩

theorem WaitEnd.sessions {args : WaitArgs} {v : Option Report} (hend : WaitEnd env s tasks current args v t tasks')
    (hnodup : tasks.Nodup) (h : Sessions s tasks) : Sessions t tasks' := by
  rcases hend.ids with hi | ⟨p, n, pr, c, y, o, hp, rfl, rfl⟩
  · exact hi.sessions h
  · refine h.sub fun q hq => ?_
    obtain ⟨hqp, hq'⟩ := hnodup.mem_erase_iff.1 hq
    exact ⟨hq', { pid := update_of_ne hqp .. }⟩

theorem Sessions.forked {flags : UInt32} {last : Nat} {n pr : TaskId → TaskId} {c y o : TaskId → Option TaskId}
    {tn tp : TaskId → TaskId} (h : Sessions s tasks) (hc : current ∈ tasks) (hp : p ∉ tasks)
    (hfresh : ¬Used s tasks last) : Sessions (s.forked env current p flags last n pr c y o tn tp) (tasks ++ [p]) := by
  -- The new task has the group and the session of `current`.
  have hmem : ∀ q ∈ tasks ++ [p], ∃ r ∈ tasks, (q ≠ p → r = q) ∧
      (s.forked env current p flags last n pr c y o tn tp).pgrp q = s.pgrp r ∧
      (s.forked env current p flags last n pr c y o tn tp).session q = s.session r := by
    intro q hq
    by_cases hqp : q = p
    · subst hqp
      exact ⟨current, hc, fun h => absurd rfl h, Function.update_self .., Function.update_self ..⟩
    · rw [List.mem_append, List.mem_singleton, or_iff_left hqp] at hq
      exact ⟨q, hq, fun _ => rfl, update_of_ne hqp .., update_of_ne hqp ..⟩
  refine ⟨fun a ha b hb heq => ?_, fun a ha b hb hne heq => ?_, fun b hb heq => ?_, fun a ha hl => ?_⟩
  · obtain ⟨a', ha', -, hpa, hsa⟩ := hmem a ha
    obtain ⟨b', hb', -, hpb, hsb⟩ := hmem b hb
    rw [hpa, hpb] at heq
    rw [hsa, hsb]
    exact h.group a' ha' b' hb' heq
  · obtain ⟨b', hb', -, hpb, hsb⟩ := hmem b hb
    by_cases hap : a = p
    · subst hap
      have hpid : (s.forked env current a flags last n pr c y o tn tp).pid a = last := Function.update_self ..
      rw [hpid, hpb] at heq
      exact absurd ⟨b', hb', by simp [State.ids, heq]⟩ hfresh
    · obtain ⟨a', ha', hsame, -, hsa⟩ := hmem a ha
      obtain rfl := hsame hap
      have hpid : (s.forked env current p flags last n pr c y o tn tp).pid a' = s.pid a' := update_of_ne hap ..
      rw [hpid] at hne heq
      rw [hpb] at heq
      rw [hsb, hsa]
      exact h.own a' ha' b' hb' hne heq
  · obtain ⟨b', hb', -, hpb, hsb⟩ := hmem b hb
    rw [hpb] at heq
    rw [hsb]
    exact h.daemon b' hb' heq
  · by_cases hap : a = p
    · subst hap
      have hleader : (s.forked env current a flags last n pr c y o tn tp).leader a = false := Function.update_self ..
      rw [hleader] at hl
      cases hl
    · obtain ⟨a', ha', hsame, hpa, hsa⟩ := hmem a ha
      obtain rfl := hsame hap
      have hleader : (s.forked env current p flags last n pr c y o tn tp).leader a' = s.leader a' := update_of_ne hap ..
      have hpid : (s.forked env current p flags last n pr c y o tn tp).pid a' = s.pid a' := update_of_ne hap ..
      rw [hleader] at hl
      rw [hpa, hsa, hpid]
      exact h.leader a' ha' hl

theorem Sessions.regrouped (h : Sessions s tasks) (hn : Numbers s tasks) (hr : Regrouped s tasks current p t)
    (hinit : s.pid p ≠ 1) : Sessions t tasks := by
  obtain ⟨hp, hses, hleader, hg⟩ := hr
  rename_i g
  -- The group that the task comes into is in its session.
  have hcome : ∀ q ∈ tasks, s.pgrp q = g → s.session q = s.session p := by
    intro q hq heq
    rcases hg with rfl | ⟨r, hr, rfl, hsr⟩
    · exact h.own p hp q hq hinit heq
    · exact (h.group q hq r hr heq).trans (hsr.trans hses.symm)
  have hset : ∀ q, q ≠ p → update s.pgrp p g q = s.pgrp q := fun q hq => update_of_ne hq ..
  have hself : update s.pgrp p g p = g := Function.update_self ..
  refine ⟨fun a ha b hb heq => ?_, fun a ha b hb hne heq => ?_, fun b hb heq => ?_, fun a ha hl => ?_⟩
  · change update s.pgrp p g a = update s.pgrp p g b at heq
    change s.session a = s.session b
    by_cases hap : a = p <;> by_cases hbp : b = p
    · rw [hap, hbp]
    · rw [hap, hself, hset b hbp] at heq
      rw [hap, hcome b hb heq.symm]
    · rw [hbp, hself, hset a hap] at heq
      rw [hbp, hcome a ha heq]
    · rw [hset a hap, hset b hbp] at heq
      exact h.group a ha b hb heq
  · change update s.pgrp p g b = s.pid a at heq
    change s.session b = s.session a
    by_cases hbp : b = p
    · rw [hbp, hself] at heq
      rw [hbp]
      rcases hg with rfl | ⟨r, hr, hgr, hsr⟩
      · rw [hn.unique a ha p hp heq.symm]
      · rw [hses, ← hsr]
        exact h.own a ha r hr hne (hgr.trans heq)
    · rw [hset b hbp] at heq
      exact h.own a ha b hb hne heq
  · change update s.pgrp p g b = 1 at heq
    change s.session b = 1
    by_cases hbp : b = p
    · rw [hbp, hself] at heq
      rcases hg with hg | ⟨r, hr, hgr, hsr⟩
      · exact absurd (hg.symm.trans heq) hinit
      · rw [hbp, hses, ← hsr]
        exact h.daemon r hr (hgr.trans heq)
    · rw [hset b hbp] at heq
      exact h.daemon b hb heq
  · change update s.pgrp p g a = s.pid a ∧ _
    by_cases hap : a = p
    · have hl' : s.leader a = true := hl
      rw [hap, hleader] at hl'
      cases hl'
    · rw [hset a hap]
      exact h.leader a ha hl

theorem Sessions.sessioned (h : Sessions s tasks) (hn : Numbers s tasks) (hc : current ∈ tasks)
    (hnone : ∀ p ∈ tasks, s.pgrp p ≠ s.pid current) : Sessions (s.sessioned current) tasks := by
  have hpgrp : ∀ q, q ≠ current → (s.sessioned current).pgrp q = s.pgrp q := fun q hq => update_of_ne hq ..
  have hsession : ∀ q, q ≠ current → (s.sessioned current).session q = s.session q := fun q hq => update_of_ne hq ..
  have hself : (s.sessioned current).pgrp current = s.pid current := Function.update_self ..
  have hself' : (s.sessioned current).session current = s.pid current := Function.update_self ..
  have hpid : (s.sessioned current).pid = s.pid := rfl
  refine ⟨fun a ha b hb heq => ?_, fun a ha b hb hne heq => ?_, fun b hb heq => ?_, fun a ha hl => ?_⟩
  · by_cases hac : a = current <;> by_cases hbc : b = current
    · rw [hac, hbc]
    · rw [hac, hself, hpgrp b hbc] at heq
      exact absurd heq.symm (hnone b hb)
    · rw [hbc, hself, hpgrp a hac] at heq
      exact absurd heq (hnone a ha)
    · rw [hpgrp a hac, hpgrp b hbc] at heq
      rw [hsession a hac, hsession b hbc]
      exact h.group a ha b hb heq
  · rw [hpid] at hne heq
    by_cases hbc : b = current
    · rw [hbc, hself] at heq
      rw [hbc, hn.unique a ha current hc heq.symm]
    · rw [hpgrp b hbc] at heq
      by_cases hac : a = current
      · exact absurd (hac ▸ heq) (hnone b hb)
      · rw [hsession a hac, hsession b hbc]
        exact h.own a ha b hb hne heq
  · by_cases hbc : b = current
    · rw [hbc, hself] at heq
      rw [hbc, hself', heq]
    · rw [hpgrp b hbc] at heq
      rw [hsession b hbc]
      exact h.daemon b hb heq
  · by_cases hac : a = current
    · rw [hac, hself, hself', hpid]
      exact ⟨rfl, rfl⟩
    · rw [hpgrp a hac, hsession a hac, hpid]
      exact h.leader a ha ((update_of_ne hac ..).symm.trans hl)

theorem Sessions.daemonized (h : Sessions s tasks)
    (hnone : ∀ p ∈ tasks, s.pgrp p ≠ s.pid current) : Sessions (Proc.daemonize current s) tasks := by
  have hpgrp : ∀ q, q ≠ current → (Proc.daemonize current s).pgrp q = s.pgrp q := fun q hq => update_of_ne hq ..
  have hsession : ∀ q, q ≠ current → (Proc.daemonize current s).session q = s.session q := fun q hq =>
    update_of_ne hq ..
  have hself : (Proc.daemonize current s).pgrp current = 1 := Function.update_self ..
  have hself' : (Proc.daemonize current s).session current = 1 := Function.update_self ..
  have hpid : (Proc.daemonize current s).pid = s.pid := rfl
  have hone : ∀ q ∈ tasks, (Proc.daemonize current s).pgrp q = 1 → (Proc.daemonize current s).session q = 1 := by
    intro q hq heq
    by_cases hqc : q = current
    · rw [hqc, hself']
    · rw [hpgrp q hqc] at heq
      rw [hsession q hqc]
      exact h.daemon q hq heq
  refine ⟨fun a ha b hb heq => ?_, fun a ha b hb hne heq => ?_, hone, fun a ha hl => ?_⟩
  · by_cases hac : a = current
    · rw [hac, hself] at heq
      rw [hac, hself', hone b hb heq.symm]
    · by_cases hbc : b = current
      · rw [hbc, hself] at heq
        rw [hbc, hself', hone a ha heq]
      · rw [hpgrp a hac, hpgrp b hbc] at heq
        rw [hsession a hac, hsession b hbc]
        exact h.group a ha b hb heq
  · rw [hpid] at hne heq
    by_cases hbc : b = current
    · rw [hbc, hself] at heq
      exact absurd heq.symm hne
    · rw [hpgrp b hbc] at heq
      have hac : a ≠ current := fun hac => hnone b hb (hac ▸ heq)
      rw [hsession a hac, hsession b hbc]
      exact h.own a ha b hb hne heq
  · have hold := h.leader a ha hl
    have hac : a ≠ current := fun hac => hnone a ha (hac ▸ hold.1)
    rw [hpgrp a hac, hsession a hac, hpid]
    exact hold

theorem Effect.sessions (he : Effect s tasks e t tasks') (hs : Sound s tasks kids) (hn : Numbers s tasks)
    (h : Sessions s tasks) (ho : Orderly s e) : Sessions t tasks' := by
  cases he with
  | quiet hq => exact hq.ids.sessions h
  | @counted _ _ _ _ _ last safe _ hc hq =>
      have hcounted : Sessions (s.numbered last safe) tasks := h.sub fun p hp => ⟨hp, {}⟩
      exact hq.ids.sessions hcounted
  | @forked _ _ _ _ _ last safe _ _ _ _ _ _ _ hcurrent hp hc hpos hfresh hroom hgroup =>
      have hcounted : Sessions (s.numbered last safe) tasks := h.sub fun p hp => ⟨hp, {}⟩
      exact hcounted.forked hcurrent (fun h => hp (hs.mem_cons h)) (hfresh hn.gap)
  | exited hcurrent hrun hs' hd => exact hd.sameIds.sessions h
  | waited hu hq hcurrent hrun hwait hend hvalue =>
      exact hend.sessions (List.nodup_cons.1 hu.woven.tree.nodup).2 (hq.ids.sessions h)
  | regrouped hfind hr =>
      refine h.regrouped hn hr fun hpid => ho ?_
      rw [← (hs.find_mem hfind).2, hpid]
      rfl
  | sessioned hcurrent hrun hnone => exact h.sessioned hn hcurrent hnone
  | daemonized hcurrent hrun => exact h.daemonized fun p hp => ho p (hs.taskList_eq.symm ▸ hp)

theorem Booted.sessions {init : TaskId} (hb : Booted s init) : Sessions s [init] := by
  have hmem : ∀ p ∈ [init], p = init := fun p => List.mem_singleton.1
  refine ⟨fun p hp q hq _ => ?_, fun p hp q hq hne => ?_, fun q hq heq => ?_, fun p hp hl => ?_⟩
  · rw [hmem p hp, hmem q hq]
  · rw [hmem p hp, hb.pid] at hne
    exact absurd rfl hne
  · rw [hmem q hq, hb.pgrp] at heq
    cases heq
  · rw [hmem p hp, hb.leader] at hl
    cases hl

theorem reachable_sessions (h : (machine.restrict Orderly).Reachable Initial s) (hroomy : Roomy s)
    (hs : Sound s tasks kids) : Sessions s tasks := by
  refine h.invariant (I := fun s => Roomy s → ∀ tasks kids, Sound s tasks kids → Sessions s tasks)
    (fun s hinit _ tasks kids hs => ?_) (fun s e t hreach ih hstep hroomy tasks' kids' hs' => ?_) hroomy tasks kids hs
  · obtain ⟨init, kids', hs', hb⟩ := initial_sound hinit
    exact hs'.tasks_eq hs ▸ hb.sessions
  · obtain ⟨ho, hstep⟩ := Machine.restrict_step.1 hstep
    obtain ⟨tasks, kids, hs⟩ := reachable_sound hreach.of_restrict
    obtain ⟨tasks'', kids'', hs'', heffect⟩ := hs.effect hstep
    have hroomy' := heffect.roomy.1 hroomy
    obtain ⟨tasks₀, kids₀, hs₀, hn⟩ := reachable_numbers hreach.of_restrict hroomy'
    obtain rfl := hs.tasks_eq hs₀
    obtain rfl := hs''.tasks_eq hs'
    exact heffect.sessions hs hn (ih hroomy' _ _ hs) ho

/-- In orderly runs a process group never reaches beyond a session, and a session leader stays at the head of its
group and its session. -/
theorem group_in_session (h : (machine.restrict Orderly).Reachable Initial s) (hroomy : Roomy s) :
    (∀ p q, s.Hashed p → s.Hashed q → s.pgrp p = s.pgrp q → s.session p = s.session q) ∧
      ∀ p, s.Hashed p → s.leader p = true → s.pgrp p = s.pid p ∧ s.session p = s.pid p := by
  obtain ⟨tasks, kids, hs⟩ := reachable_sound h.of_restrict
  have hsessions := reachable_sessions h hroomy hs
  exact ⟨fun p q hp hq => hsessions.group p ((hs.mem_iff p).1 hp) q ((hs.mem_iff q).1 hq),
    fun p hp => hsessions.leader p ((hs.mem_iff p).1 hp)⟩

theorem reachable_orderly {es : List Event} (h : ((machine.restrict Orderly).replay booted es).isSome = true) :
    (machine.restrict Orderly).Reachable Initial ((machine.restrict Orderly).after booted es) :=
  ⟨booted, es, initial_booted, Machine.run_after h⟩

/-- The task 2 leads a session, and its child 3 another process group in it; the child is stopped, and the task 2 is
about to exit. -/
def grouped : State :=
  (machine.restrict Orderly).after booted [spawn 2, .call 2 kindEnv .setsid, .call 2 kindEnv (.fork 3 17 .done),
    .call 3 kindEnv (.setpgid 0 0), .call 3 kindEnv (.stop 20), .call 2 kindEnv .exit]

theorem group_in_session_grouped : grouped.pgrp 3 ≠ grouped.pgrp 2 ∧
    (∀ p q, grouped.Hashed p → grouped.Hashed q → grouped.pgrp p = grouped.pgrp q →
    grouped.session p = grouped.session q) ∧
      grouped.session 2 = grouped.pid 2 := by
  have hreach : (machine.restrict Orderly).Reachable Initial grouped := reachable_orderly (by decide)
  have hroomy : Roomy grouped := show 4 * (100 : Int) + 301 < pidMax by decide
  obtain ⟨hgroup, hleader⟩ := group_in_session hreach hroomy
  exact ⟨by decide, hgroup, (hleader 2 (by decide) (by decide)).2⟩

/-- In orderly runs, when an exit orphans a process group, no leader of a thread group in it stays stopped. -/
theorem orphaned_not_stopped {code g : Nat} (h : (machine.restrict Orderly).Reachable Initial s) (hroomy : Roomy s)
    (hstep : machine.Step s (.call current env (.exitNotify code)) t) (hg : g ≠ 0)
    (hbefore : ∃ p, s.Hashed p ∧ Connects s g none p) (hafter : ∀ p, t.Hashed p → ¬Connects t g none p)
    (hp : s.Hashed p) (hpgrp : s.pgrp p = g) (hlead : s.pid p = s.tgid p) : t.state p ≠ .stopped := by
  obtain ⟨tasks, kids, hs⟩ := reachable_sound h.of_restrict
  have hsessions := reachable_sessions h hroomy hs
  obtain ⟨⟨hhashed, hrun, hexit⟩, hstep⟩ := hstep
  have hc := (hs.mem_iff current).1 hhashed
  obtain ⟨others, u, kids', -, -, hu, hsound, -, hd⟩ := hs.exitNotify hc hexit hrun env code
  cases hu.symm.trans hstep
  obtain ⟨q, hq, hconn⟩ := hbefore
  exact hd.orphaned g hg (fun a ha b hb hga hgb => hsessions.group a ha b hb (hga.trans hgb.symm))
    ⟨q, (hs.mem_iff q).1 hq, hconn⟩ (fun b hb => hafter b ((hsound.mem_iff b).2 hb)) p ((hs.mem_iff p).1 hp) hpgrp hlead

set_option maxRecDepth 4000 in
theorem orphaned_not_stopped_grouped : ∃ t, grouped.state 3 = .stopped ∧
    machine.Step grouped (.call 2 kindEnv (.exitNotify 0)) t ∧ t.state 3 ≠ .stopped := by
  have hreach : (machine.restrict Orderly).Reachable Initial grouped := reachable_orderly (by decide)
  have hroomy : Roomy grouped := show 4 * (100 : Int) + 301 < pidMax by decide
  have hstep : machine.Step grouped (.call 2 kindEnv (.exitNotify 0)) _ := Machine.step_after (by decide)
  have hafter : ∀ p ∈ (machine.after grouped [.call 2 kindEnv (.exitNotify 0)]).taskList,
      ¬Connects (machine.after grouped [.call 2 kindEnv (.exitNotify 0)]) 3 none p := by decide
  refine ⟨_, by decide, hstep, orphaned_not_stopped hreach hroomy hstep (g := 3) (p := 3) (by decide)
    ⟨3, by decide, by decide⟩ (fun p hp => hafter p ((hashed_iff (hreach.of_restrict.step hstep)).1 hp)) (by decide)
    (by decide) (by decide)⟩

end MagicKernel.Proc
