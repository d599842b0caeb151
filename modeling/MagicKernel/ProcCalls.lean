import MagicKernel.ProcExit
import MagicKernel.ProcFork
import MagicKernel.ProcWait

/-! What the other calls do: process groups and sessions, `execve`, tracers, and tasks that stop. Most of them
are quiet: they neither make zombies nor send anybody to sleep, and give nobody a new number. -/

namespace MagicKernel.Proc

open FaultMachine PointerLists
open Function (update update_of_ne)
open Sched (TaskState)

variable {env : Env} {s t u : State} {p q r current : TaskId} {tasks tasks' : List TaskId}
  {kids : TaskId → List TaskId}

/-! ### Quiet changes -/

/-- The tasks and the numbers that identify them are the same; a task may have left its thread group. -/
structure SameIds (s t : State) (tasks tasks' : List TaskId) : Prop where
  perm : tasks'.Perm tasks
  pid : ∀ p ∈ tasks, t.pid p = s.pid p := by exact fun _ _ => rfl
  pgrp : ∀ p ∈ tasks, t.pgrp p = s.pgrp p := by exact fun _ _ => rfl
  session : ∀ p ∈ tasks, t.session p = s.session p := by exact fun _ _ => rfl
  tgid : ∀ p ∈ tasks, t.tgid p = s.tgid p ∨ t.tgid p = s.pid p := by exact fun _ _ => .inl rfl
  leader : ∀ p ∈ tasks, t.leader p = s.leader p := by exact fun _ _ => rfl
  lastPid : t.lastPid = s.lastPid := by rfl
  nextSafe : t.nextSafe = s.nextSafe := by rfl
  nrThreads : t.nrThreads = s.nrThreads := by rfl
  maxThreads : t.maxThreads = s.maxThreads := by rfl

/-- There are no new zombies, the old ones are as they were, and nobody has gone to sleep in `sys_wait4` or come
into a thread group. -/
structure Hush (s t : State) (tasks : List TaskId) : Prop where
  zombie : ∀ p ∈ tasks, t.state p = .zombie → s.state p = .zombie := by exact fun _ _ h => h
  dead : ∀ p ∈ tasks, s.state p = .zombie → t.state p = .zombie ∧ t.pid p = s.pid p ∧ t.pgrp p = s.pgrp p ∧
    t.exitCode p = s.exitCode p ∧ t.exitSignal p = s.exitSignal p ∧ t.pptr p = s.pptr p := by
      exact fun _ _ h => ⟨h, rfl, rfl, rfl, rfl, rfl⟩
  asleep : ∀ r ∈ tasks, (t.waiting r).isSome = true → t.state r = .interruptible →
    t.waiting r = s.waiting r ∧ s.state r = .interruptible ∧ t.pgrp r = s.pgrp r := by
      exact fun _ _ _ h => ⟨rfl, h, rfl⟩
  group : ∀ r ∈ initTask :: tasks, ∀ q, t.SameGroup r q → s.SameGroup r q := by exact fun _ _ _ h => h

structure Quiet (s t : State) (tasks tasks' : List TaskId) : Prop where
  ids : SameIds s t tasks tasks'
  hush : Hush s t tasks

theorem SameIds.trans {tasks'' : List TaskId} (h : SameIds s t tasks tasks') (h' : SameIds t u tasks' tasks'') :
    SameIds s u tasks tasks'' := by
  have hmem : ∀ p ∈ tasks, p ∈ tasks' := fun p hp => h.perm.mem_iff.2 hp
  refine ⟨h'.perm.trans h.perm, fun p hp => (h'.pid p (hmem p hp)).trans (h.pid p hp),
    fun p hp => (h'.pgrp p (hmem p hp)).trans (h.pgrp p hp),
    fun p hp => (h'.session p (hmem p hp)).trans (h.session p hp),
    fun p hp => ?_, fun p hp => (h'.leader p (hmem p hp)).trans (h.leader p hp), h'.lastPid.trans h.lastPid,
    h'.nextSafe.trans h.nextSafe, h'.nrThreads.trans h.nrThreads, h'.maxThreads.trans h.maxThreads⟩
  rcases h'.tgid p (hmem p hp) with heq | heq
  · exact (h.tgid p hp).imp (fun h => heq.trans h) fun h => heq.trans h
  · exact .inr (heq.trans (h.pid p hp))

theorem Hush.trans (h : Hush s t tasks) (h' : Hush t u tasks) : Hush s u tasks where
  zombie p hp hz := h.zombie p hp (h'.zombie p hp hz)
  dead p hp hz := by
    obtain ⟨h₀, h₁, h₂, h₃, h₄, h₅⟩ := h.dead p hp hz
    obtain ⟨h₀', h₁', h₂', h₃', h₄', h₅'⟩ := h'.dead p hp h₀
    exact ⟨h₀', h₁'.trans h₁, h₂'.trans h₂, h₃'.trans h₃, h₄'.trans h₄, h₅'.trans h₅⟩
  asleep r hr hwait hst := by
    obtain ⟨h₁', h₂', h₃'⟩ := h'.asleep r hr hwait hst
    obtain ⟨h₁, h₂, h₃⟩ := h.asleep r hr (h₁' ▸ hwait) h₂'
    exact ⟨h₁'.trans h₁, h₂, h₃'.trans h₃⟩
  group r hr q hq := h.group r hr q (h'.group r hr q hq)

theorem Hush.perm (h : Hush s t tasks) (hperm : tasks.Perm tasks') : Hush s t tasks' where
  zombie p hp := h.zombie p (hperm.mem_iff.2 hp)
  dead p hp := h.dead p (hperm.mem_iff.2 hp)
  asleep r hr := h.asleep r (hperm.mem_iff.2 hr)
  group r hr := h.group r ((hperm.cons initTask).mem_iff.2 hr)

theorem Quiet.refl (s : State) (tasks : List TaskId) : Quiet s s tasks tasks := ⟨{ perm := .refl _ }, {}⟩

theorem Quiet.trans {tasks'' : List TaskId} (h : Quiet s t tasks tasks') (h' : Quiet t u tasks' tasks'') :
    Quiet s u tasks tasks'' :=
  ⟨h.ids.trans h'.ids, h.hush.trans (h'.hush.perm h.ids.perm)⟩

/-- Wake-ups are quiet. -/
theorem Sound.quiet_woken (hs : Sound s tasks kids) (hw : Woken s t) : Quiet s t tasks tasks := by
  have hzombie := hw.zombie_iff
  have hasleep : ∀ r, t.state r = .interruptible → s.state r = .interruptible := fun r h =>
    (hw.state_eq (by rw [h]; exact TaskState.noConfusion)).trans h
  obtain ⟨st, sp, ec, rfl, -, -, hec⟩ := hw
  exact ⟨{ perm := .refl _ }, {
    zombie := fun p _ h => (hzombie p).1 h
    dead := fun p hp h => ⟨(hzombie p).2 h, rfl, rfl, hec p (hs.mute p hp h), rfl, rfl⟩
    asleep := fun r _ _ h => ⟨rfl, hasleep r h, rfl⟩ }⟩

/-- So is a new state for a task that runs or is made to, unless it goes to sleep in `sys_wait4`. -/
theorem quiet_state {x : TaskState} (hnz : s.state p ≠ .zombie) (hx : x ≠ .zombie)
    (hsleep : x = .interruptible → s.waiting p = none) :
    Quiet s { s with state := update s.state p x } tasks tasks := by
  refine ⟨{ perm := .refl _ }, {
    zombie := fun q _ h => ?_
    dead := fun q _ h => ⟨?_, rfl, rfl, rfl, rfl, rfl⟩
    asleep := fun r _ hw h => ⟨rfl, ?_, rfl⟩ }⟩
  · by_cases hqp : q = p
    · subst hqp
      exact absurd ((Function.update_self ..).symm.trans h) hx
    · exact (update_of_ne hqp ..).symm.trans h
  · have hqp : q ≠ p := fun heq => hnz (heq ▸ h)
    exact (update_of_ne hqp ..).trans h
  · by_cases hrp : r = p
    · subst hrp
      have hnone := hsleep ((Function.update_self ..).symm.trans h)
      have hsome : (s.waiting r).isSome = true := hw
      rw [hnone] at hsome
      cases hsome
    · exact (update_of_ne hrp ..).symm.trans h

/-- So is a new parent for a task that is no zombie. -/
theorem quiet_moved {n pr : TaskId → TaskId} {c y o : TaskId → Option TaskId} (hp : p ∈ tasks)
    (hnz : s.state p ≠ .zombie) :
    Quiet s (s.moved p q n pr c y o) tasks (tasks.erase p ++ [p]) :=
  ⟨{ perm := moved_perm hp },
    { dead := fun r _ h => ⟨h, rfl, rfl, rfl, rfl, update_of_ne (fun heq : r = p => hnz (heq ▸ h)) ..⟩ }⟩

/-! ### Calls that are quiet -/

theorem Sound.doExit (hs : Sound s tasks kids) (hc : current ∈ tasks) :
    s.pid current = 1 ∨ ∃ t, doExit current s = .ok t ∧ Sound t tasks kids ∧ Quiet s t tasks tasks := by
  rw [Proc.doExit]
  split
  · rename_i hpid
    exact .inl (hpid.resolve_left (hs.pid_pos current hc).ne')
  · rename_i hpid
    have hreaper : s.childReaper ≠ current := fun h => hpid (.inr (h ▸ hs.reaper.2.2.1))
    refine .inr ⟨_, rfl, ⟨⟨⟨hs.woven.tree.ring, hs.woven.tree.nodup, hs.woven.tree.family, hs.woven.tree.mem_kids,
      hs.woven.tree.allocated, hs.woven.tree.below⟩, hs.woven.threads⟩, hs.parent, hs.creator, hs.mute,
      fun p hp h => ⟨?_, (hs.leaving p hp h).2⟩, fun p hp h => ?_, hs.idle,
      ⟨hs.reaper.1, (update_of_ne hreaper ..).trans hs.reaper.2.1, hs.reaper.2.2⟩, hs.hashed, hs.pid_pos,
      ⟨hs.numbered.last_lt, hs.numbered.safe_le, hs.numbered.early⟩⟩, { perm := .refl _ }, {}⟩
    · by_cases hpc : p = current
      · subst hpc
        exact Function.update_self ..
      · exact (update_of_ne hpc ..).trans (hs.leaving p hp h).1
    · by_cases hpc : p = current
      · subst hpc
        exact Function.update_self ..
      · exact (update_of_ne hpc ..).trans (hs.gone p hp ((update_of_ne hpc ..).symm.trans h))

theorem Sound.stopSelf (hs : Sound s tasks kids) (hc : current ∈ tasks) (hstay : s.exiting current = false) (env : Env)
    (sig : Nat) : ∃ t, stopSelf env current sig s = .ok t ∧ Sound t tasks kids ∧ Quiet s t tasks tasks := by
  have hnz := hs.not_zombie_of_stay hc hstay
  have hstate := hs.setState (x := .stopped) hnz TaskState.noConfusion fun _ => hs.sighand_of_stay hc hstay
  have hquiet : Quiet s { s with state := update s.state current .stopped } tasks tasks :=
    quiet_state hnz TaskState.noConfusion (TaskState.noConfusion ·)
  have hstopped : Sound { s with state := update s.state current .stopped, exitCode := update s.exitCode current sig }
      tasks kids := hstate.congr {}
  have hquiet' : Quiet s { s with state := update s.state current .stopped, exitCode := update s.exitCode current sig }
      tasks tasks := by
    refine ⟨{ perm := .refl _ }, { hquiet.hush with dead := fun p hp h => ?_ }⟩
    obtain ⟨h₀, h₁, h₂, -, h₄, h₅⟩ := hquiet.hush.dead p hp h
    exact ⟨h₀, h₁, h₂, update_of_ne (fun heq : p = current => hnz (heq ▸ h)) .., h₄, h₅⟩
  have hparent := (hs.parent current hc).1.1
  obtain ⟨t, ht, hwt, -⟩ := hstopped.woven.doNotifyParent hparent env SIGCHLD
  have hnotified := And.intro (hstopped.woken hwt) (hquiet'.trans (hstopped.quiet_woken hwt))
  rw [Proc.stopSelf]
  dsimp only
  split
  · exact ⟨t, ht, hnotified⟩
  · rw [deref_eq (hstopped.woven.tree.allocated _ hparent), ok_bind]
    split
    · exact ⟨t, ht, hnotified⟩
    · exact ⟨_, rfl, hstopped, hquiet'⟩

/-- New process groups, sessions and thread group numbers, all of which are numbers that are used already. -/
theorem Sound.renumbered (hs : Sound s tasks kids) {g e i : TaskId → Nat}
    (hused : ∀ n, Used { s with pgrp := g, session := e, tgid := i } tasks n → Used s tasks n) :
    Sound { s with pgrp := g, session := e, tgid := i } tasks kids :=
  ⟨⟨⟨hs.woven.tree.ring, hs.woven.tree.nodup, hs.woven.tree.family, hs.woven.tree.mem_kids, hs.woven.tree.allocated,
    hs.woven.tree.below⟩, hs.woven.threads⟩, hs.parent, hs.creator, hs.mute, hs.leaving, hs.gone, hs.idle, hs.reaper,
    hs.hashed, hs.pid_pos, ⟨hs.numbered.last_lt, hs.numbered.safe_le,
      hs.numbered.early.imp_right fun h n hn => h n (hused n hn)⟩⟩

theorem Sound.rethreaded (hs : Sound s tasks kids) {tn tp : TaskId → TaskId}
    (hl : Links (· ∈ initTask :: tasks) tn tp) :
    Sound { s with threadNext := tn, threadPrev := tp } tasks kids :=
  ⟨⟨⟨hs.woven.tree.ring, hs.woven.tree.nodup, hs.woven.tree.family, hs.woven.tree.mem_kids, hs.woven.tree.allocated,
    hs.woven.tree.below⟩, hl⟩, hs.parent, hs.creator, hs.mute, hs.leaving, hs.gone, hs.idle, hs.reaper, hs.hashed,
    hs.pid_pos, ⟨hs.numbered.last_lt, hs.numbered.safe_le, hs.numbered.early⟩⟩

/-- The caller is alone in its thread group, and the other groups are as they were. -/
theorem Sound.deThread (hs : Sound s tasks kids) (hc : current ∈ tasks) :
    ∃ t, deThread current s = .ok t ∧ Sound t tasks kids ∧ Quiet s t tasks tasks ∧
      (∀ q, t.SameGroup current q ↔ q = current) := by
  have hcall := hs.mem_cons hc
  have hlinks := hs.woven.threads
  -- The links, whether or not there are other threads.
  obtain ⟨tn, tp, heq, hl, hgroup, hlone⟩ : ∃ tn tp, Proc.deThread current s =
        .ok { s with threadNext := tn, threadPrev := tp, tgid := update s.tgid current (s.pid current) } ∧
      Links (· ∈ initTask :: tasks) tn tp ∧
      (∀ r ∈ initTask :: tasks, ∀ q, Reach tn r q → Reach s.threadNext r q) ∧ tn current = current := by
    by_cases hself : s.threadNext current = current
    · refine ⟨s.threadNext, s.threadPrev, ?_, hlinks, fun _ _ _ h => h, hself⟩
      rw [Proc.deThread, if_pos hself]
      rfl
    · have hdel := threadDel_eq (s := s) (p := current) (hs.woven.tree.allocated _ (hlinks.next_mem _ hcall))
        (hs.woven.tree.allocated _ (hlinks.prev_mem _ hcall))
      have hset : (fun r => (r ∈ initTask :: tasks ∧ r ≠ current) ∨ r = current) = (· ∈ initTask :: tasks) := by
        funext r
        refine propext ⟨fun h => ?_, fun h => ?_⟩
        · rcases h with ⟨hr, -⟩ | rfl
          · exact hr
          · exact hcall
        · by_cases hrc : r = current
          · exact .inr hrc
          · exact .inl ⟨h, hrc⟩
      have herase := hlinks.erase hcall
      have hlone := herase.lone (p := current) (fun h => h.2 rfl)
      rw [hset] at hlone
      refine ⟨_, _, ?_, hlone, fun r hr q hq => ?_, Function.update_self ..⟩
      · rw [Proc.deThread, if_neg hself, hdel]
        rfl
      · by_cases hrc : r = current
        · subst hrc
          have hstuck : q = r := hq.induct (C := fun a => a = r) rfl fun a ha => by
            rw [ha, Function.update_self]
          exact hstuck ▸ reach_refl _ _
        · -- A way that starts elsewhere does not come to `current`.
          have hway : (q ∈ initTask :: tasks ∧ q ≠ current) ∧
              Reach (update s.threadNext (s.threadPrev current) (s.threadNext current)) r q :=
            hq.induct (C := fun a => (a ∈ initTask :: tasks ∧ a ≠ current) ∧
                Reach (update s.threadNext (s.threadPrev current) (s.threadNext current)) r a)
              ⟨⟨hr, hrc⟩, reach_refl _ _⟩ fun a ha => by
                rw [update_of_ne ha.1.2]
                exact ⟨herase.next_mem a ha.1, ha.2.step⟩
          exact (hlinks.reach_erase hcall hr hrc hway.1.2).1 hway.2
  have hused : ∀ n, Used { s with threadNext := tn, threadPrev := tp, tgid := update s.tgid current (s.pid current) }
      tasks n → Used s tasks n := by
    rintro n ⟨q, hq, hn⟩
    refine ⟨q, hq, ?_⟩
    by_cases hqc : q = current
    · subst hqc
      simp only [State.ids, Function.update_self, List.mem_cons, List.not_mem_nil, or_false] at hn ⊢
      tauto
    · simpa only [State.ids, update_of_ne hqc] using hn
  refine ⟨_, heq, (hs.rethreaded hl).renumbered hused,
    ⟨{ perm := .refl _, tgid := fun p hp => ?_ }, { group := hgroup }⟩,
    fun q => ⟨fun h => ?_, fun h => h ▸ reach_refl _ _⟩⟩
  · by_cases hpc : p = current
    · subst hpc
      exact .inr (Function.update_self ..)
    · exact .inl (update_of_ne hpc ..)
  · exact h.induct (C := fun a => a = current) rfl fun a ha => ha ▸ hlone

theorem Sound.doExecve (hs : Sound s tasks kids) (hc : current ∈ tasks) (hstay : s.exiting current = false) :
    ∃ t, doExecve current s = .ok t ∧ Sound t tasks kids ∧ Quiet s t tasks tasks := by
  have hmm : Sound { s with mm := update s.mm current true } tasks kids := by
    refine hs.congr { mm := fun p h => ?_ }
    by_cases hpc : p = current
    · exact .inr (hpc ▸ hstay)
    · exact .inl ((update_of_ne hpc ..).symm.trans h)
  have hquiet : Quiet s { s with mm := update s.mm current true } tasks tasks := ⟨{ perm := .refl _ }, {}⟩
  obtain ⟨t, ht, hst, hqt, -⟩ := hmm.deThread hc
  refine ⟨{ t with
    selfExecId := update t.selfExecId current (t.selfExecId current + 1)
    didExec := update t.didExec current true }, ?_, hst.congr {}, hquiet.trans (hqt.trans ⟨{ perm := .refl _ }, {}⟩)⟩
  rw [Proc.doExecve, ht]
  rfl

/-! ### Tracers -/

theorem quiet_exitCode {x : Nat} (hnz : s.state p ≠ .zombie) :
    Quiet s { s with exitCode := update s.exitCode p x } tasks tasks :=
  ⟨{ perm := .refl _ },
    { dead := fun r _ h => ⟨h, rfl, rfl, update_of_ne (fun heq : r = p => hnz (heq ▸ h)) .., rfl, rfl⟩ }⟩

/-- A task that is no zombie goes on, with a signal for its tracer. -/
theorem Sound.resumed {x : Nat} (hs : Sound s tasks kids) (hnz : s.state p ≠ .zombie) :
    Sound (wakeUpProcess p { s with exitCode := update s.exitCode p x }) tasks kids ∧
      Quiet s (wakeUpProcess p { s with exitCode := update s.exitCode p x }) tasks tasks := by
  have hcode : Sound { s with exitCode := update s.exitCode p x } tasks kids := hs.congr {}
  have hrun : Quiet { s with exitCode := update s.exitCode p x }
      (wakeUpProcess p { s with exitCode := update s.exitCode p x }) tasks tasks :=
    quiet_state hnz TaskState.noConfusion (TaskState.noConfusion ·)
  exact ⟨hcode.setState hnz TaskState.noConfusion (TaskState.noConfusion ·), (quiet_exitCode hnz).trans hrun⟩

theorem stopped_of_check (h : ¬ptraceCheckAttach current p false s = false) : s.state p ≠ .zombie := by
  rw [ptraceCheckAttach, decide_eq_false_iff_not, not_not] at h
  rcases h.2.2 with h | h
  · cases h
  · rw [h]
    exact TaskState.noConfusion

theorem Sound.ptraceAttach (hs : Sound s tasks kids) (hc : current ∈ tasks) (hstay : s.exiting current = false)
    (hp : p ∈ tasks) (env : Env) :
    ∃ v t tasks' kids', ptraceAttach env current p s = .ok (v, t) ∧ Sound t tasks' kids' ∧ Quiet s t tasks tasks' := by
  rw [Proc.ptraceAttach]
  split
  · exact ⟨_, s, tasks, kids, rfl, hs, .refl s tasks⟩
  · rename_i hnot
    simp only [not_or] at hnot
    obtain ⟨-, hpc, hmm, -⟩ := hnot
    have hnz : s.state p ≠ .zombie := fun hz => hmm (hs.gone p hp (hs.dead p hp hz))
    have htraced : Sound { s with ptraced := update s.ptraced p true } tasks kids := hs.congr {}
    have hquiet : Quiet s { s with ptraced := update s.ptraced p true } tasks tasks := ⟨{ perm := .refl _ }, {}⟩
    have hsent : ∀ u tasks' kids', Sound u tasks' kids' →
        Quiet { s with ptraced := update s.ptraced p true } u tasks tasks' →
        Sound (sendSig env SIGSTOP p u) tasks' kids' ∧ Quiet s (sendSig env SIGSTOP p u) tasks tasks' := by
      intro u tasks' kids' hu hqu
      have hw := woken_sendSig env SIGSTOP p u
      exact ⟨hu.woken hw, hquiet.trans (hqu.trans (hu.quiet_woken hw))⟩
    dsimp only
    by_cases hparent : s.pptr p ≠ current
    · have halive : Alive s tasks current := ⟨hs.mem_cons hc, hs.not_zombie_of_stay hc hstay⟩
      obtain ⟨n, pr, c, y, o, kids', hmoved, hsound⟩ := htraced.reparented hp halive (Ne.symm hpc)
      obtain ⟨hsound', hquiet'⟩ := hsent _ _ kids' hsound (quiet_moved hp hnz)
      refine ⟨0, _, _, kids', ?_, hsound', hquiet'⟩
      rw [if_pos hparent, hmoved]
      rfl
    · obtain ⟨hsound', hquiet'⟩ := hsent _ _ kids htraced (.refl _ _)
      refine ⟨0, _, _, kids, ?_, hsound', hquiet'⟩
      rw [if_neg hparent]
      rfl

theorem Sound.ptraceDetach (hs : Sound s tasks kids) (hp : p ∈ tasks) (hnz : s.state p ≠ .zombie) (data : Nat) :
    ∃ v t tasks' kids', ptraceDetach p data s = .ok (v, t) ∧ Sound t tasks' kids' ∧ Quiet s t tasks tasks' := by
  rw [Proc.ptraceDetach]
  split
  · exact ⟨_, s, tasks, kids, rfl, hs, .refl s tasks⟩
  · have hleft :
        Sound { s with ptraced := update s.ptraced p false, exitCode := update s.exitCode p data } tasks kids :=
      hs.congr {}
    have hquiet : Quiet s { s with ptraced := update s.ptraced p false, exitCode := update s.exitCode p data }
        tasks tasks := (quiet_exitCode hnz).trans ⟨{ perm := .refl _ }, {}⟩
    dsimp only
    generalize hu : ({ s with ptraced := update s.ptraced p false, exitCode := update s.exitCode p data } : State) = u
      at hleft hquiet
    have hnzu : u.state p ≠ .zombie := hu ▸ hnz
    have hopptr : s.opptr p = u.opptr p := hu ▸ rfl
    obtain ⟨halive, hself⟩ := hleft.creator p hp
    obtain ⟨n, pr, c, y, o, kids', hmoved, hsound⟩ := hleft.reparented hp halive hself
    have hawake : Quiet (u.moved p (u.opptr p) n pr c y o) (wakeUpProcess p (u.moved p (u.opptr p) n pr c y o))
        (tasks.erase p ++ [p]) (tasks.erase p ++ [p]) :=
      quiet_state hnzu TaskState.noConfusion (TaskState.noConfusion ·)
    refine ⟨0, wakeUpProcess p (u.moved p (u.opptr p) n pr c y o), _, kids', ?_,
      hsound.setState hnzu TaskState.noConfusion (TaskState.noConfusion ·),
      hquiet.trans ((quiet_moved hp hnzu).trans hawake)⟩
    rw [hopptr, hmoved]
    rfl

theorem Sound.sysPtrace (hs : Sound s tasks kids) (hc : current ∈ tasks) (hstay : s.exiting current = false)
    (env : Env) (request : PtraceRequest) (pid : Int) :
    ∃ v t tasks' kids', sysPtrace env current request pid s = .ok (v, t) ∧ Sound t tasks' kids' ∧
      Quiet s t tasks tasks' := by
  have hkept : ∀ v : Int, ∃ v' t tasks' kids', (.ok (v, s) : Except Fault (Int × State)) = .ok (v', t) ∧
      Sound t tasks' kids' ∧ Quiet s t tasks tasks' := fun v => ⟨v, s, tasks, kids, rfl, hs, .refl s tasks⟩
  rw [Proc.sysPtrace]
  split
  · split
    · exact hkept _
    · exact ⟨_, _, tasks, kids, rfl, hs.congr {}, { perm := .refl _ }, {}⟩
  · cases hfind : findTaskByPid s pid with
    | none => exact hkept _
    | some p =>
        have hp := (hs.find_mem hfind).1
        dsimp only
        split
        · exact hkept _
        · cases request with
          | traceme => exact hkept _
          | attach => exact hs.ptraceAttach hc hstay hp env
          | kill =>
              dsimp only
              split
              · exact hkept _
              · split
                · exact hkept _
                · rename_i hnz
                  exact ⟨_, _, tasks, kids, rfl, hs.resumed hnz⟩
          | cont data =>
              dsimp only
              split
              · exact hkept _
              · rename_i hcheck
                have hnz := stopped_of_check hcheck
                split
                · exact hkept _
                · exact ⟨_, _, tasks, kids, rfl, hs.resumed hnz⟩
          | detach data =>
              dsimp only
              split
              · exact hkept _
              · rename_i hcheck
                exact hs.ptraceDetach hp (stopped_of_check hcheck) data

/-! ### Process groups, sessions and kernel threads -/

theorem Sound.reparentToInit (hs : Sound s tasks kids) (hc : current ∈ tasks) (hstay : s.exiting current = false)
    (hne : current ≠ s.childReaper) :
    ∃ t tasks' kids', reparentToInit current s = .ok t ∧ Sound t tasks' kids' ∧ Quiet s t tasks tasks' := by
  have hnz := hs.not_zombie_of_stay hc hstay
  have hreaper : Alive s tasks s.childReaper :=
    ⟨hs.mem_cons hs.reaper.1, hs.not_zombie_of_stay hs.reaper.1 hs.reaper.2.1⟩
  obtain ⟨n₀, pr₀, c₀, y₀, o₀, n, pr, c, y, o, kids', hremove, hset, htree⟩ := hs.woven.tree.relinked hc
    (hs.parent current hc).1.1 hreaper.1 hne.symm (update s.opptr current s.childReaper)
  -- The new creator first.
  have hcreator : Sound { s with opptr := update s.opptr current s.childReaper } tasks kids := by
    refine ⟨⟨⟨hs.woven.tree.ring, hs.woven.tree.nodup, hs.woven.tree.family, hs.woven.tree.mem_kids,
      hs.woven.tree.allocated, hs.woven.tree.below⟩, hs.woven.threads⟩, hs.parent, fun p hp => ?_, hs.mute, hs.leaving,
      hs.gone, hs.idle, ⟨hs.reaper.1, hs.reaper.2.1, hs.reaper.2.2.1, (update_of_ne hne.symm ..).trans hs.reaper.2.2.2⟩,
      hs.hashed, hs.pid_pos, ⟨hs.numbered.last_lt, hs.numbered.safe_le, hs.numbered.early⟩⟩
    by_cases hpc : p = current
    · subst hpc
      have hopptr : ({ s with opptr := update s.opptr p s.childReaper } : State).opptr p = s.childReaper :=
        Function.update_self ..
      rw [hopptr]
      exact ⟨hreaper, hne.symm⟩
    · have hopptr : ({ s with opptr := update s.opptr current s.childReaper } : State).opptr p = s.opptr p :=
        update_of_ne hpc ..
      rw [hopptr]
      exact hs.creator p hp
  have hsound := hcreator.moved hc hreaper hne.symm htree
  refine ⟨{
    ({ s with opptr := update s.opptr current s.childReaper } : State).moved current s.childReaper n pr c y o with
    exitSignal := update s.exitSignal current SIGCHLD
    ptraced := update s.ptraced current false }, tasks.erase current ++ [current], kids', ?_, hsound.congr {},
    ⟨{ perm := moved_perm hc }, { dead := fun p _ hz => ?_ }⟩⟩
  · rw [Proc.reparentToInit, hremove, ok_bind]
    have hset' : setLinks current { s.relink n₀ pr₀ c₀ y₀ o₀ with
        pptr := update (s.relink n₀ pr₀ c₀ y₀ o₀).pptr current (s.relink n₀ pr₀ c₀ y₀ o₀).childReaper
        opptr := update (s.relink n₀ pr₀ c₀ y₀ o₀).opptr current (s.relink n₀ pr₀ c₀ y₀ o₀).childReaper } = _ :=
          hset
    rw [hset']
    rfl
  · have hpc : p ≠ current := fun heq => hnz (heq ▸ hz)
    exact ⟨hz, rfl, rfl, rfl, update_of_ne hpc .., update_of_ne hpc ..⟩

/-- The task `p` has moved to a process group of the session of `current`. -/
inductive Regrouped (s : State) (tasks : List TaskId) (current p : TaskId) : State → Prop
  | intro {g : Nat} (hp : p ∈ tasks) (hses : s.session p = s.session current) (hleader : s.leader p = false)
      (hg : g = s.pid p ∨ ∃ q ∈ tasks, s.pgrp q = g ∧ s.session q = s.session current) :
      Regrouped s tasks current p { s with pgrp := update s.pgrp p g }

theorem Regrouped.used {i : Nat} (h : Regrouped s tasks current p t) (hi : Used t tasks i) : Used s tasks i := by
  obtain ⟨hp, -, -, hg⟩ := h
  obtain ⟨q, hq, hi⟩ := hi
  by_cases hqp : q = p
  · subst hqp
    simp only [State.ids, Function.update_self, List.mem_cons, List.not_mem_nil, or_false] at hi
    rcases hi with hi | rfl | hi
    · exact ⟨q, hq, by simp [State.ids, hi]⟩
    · rcases hg with rfl | ⟨r, hr, rfl, -⟩
      · exact ⟨q, hq, by simp [State.ids]⟩
      · exact ⟨r, hr, by simp [State.ids]⟩
    · exact ⟨q, hq, by simp [State.ids, hi]⟩
  · exact ⟨q, hq, by simpa only [State.ids, update_of_ne hqp] using hi⟩

theorem Regrouped.sound (h : Regrouped s tasks current p t) (hs : Sound s tasks kids) : Sound t tasks kids := by
  have hused := fun n => h.used (i := n)
  obtain ⟨-, -, -, -⟩ := h
  exact hs.renumbered (e := s.session) (i := s.tgid) hused

/-- `setpgid` either fails or moves the task it is called for to a group of its session. -/
theorem Sound.sysSetpgid (hs : Sound s tasks kids) (current : TaskId) (pid pgid : Int) :
    ∃ v t, sysSetpgid current pid pgid s = .ok (v, t) ∧ (t = s ∨
      ∃ p, findTaskByPid s (if pid = 0 then (s.pid current : Int) else pid) = some p ∧
        Regrouped s tasks current p t) := by
  rw [Proc.sysSetpgid]
  dsimp only
  generalize (if pid = 0 then (s.pid current : Int) else pid) = n
  generalize hm : (if pgid = 0 then n else pgid) = m
  split
  · exact ⟨_, s, rfl, .inl rfl⟩
  · rename_i hneg
    cases hfind : findTaskByPid s n with
    | none => exact ⟨_, s, rfl, .inl rfl⟩
    | some p =>
        obtain ⟨hp, rfl⟩ := hs.find_mem hfind
        dsimp only
        rw [deref_eq (hs.allocated hp), ok_bind]
        split
        · exact ⟨_, s, rfl, .inl rfl⟩
        · rename_i hses
          split
          · exact ⟨_, s, rfl, .inl rfl⟩
          · split
            · exact ⟨_, s, rfl, .inl rfl⟩
            · rename_i hrelated
              have hsession : s.session p = s.session current := by
                by_cases hchild : s.pptr p = current ∨ s.opptr p = current
                · by_contra hne
                  exact hses ⟨hchild, hne⟩
                · by_contra hne
                  exact hrelated ⟨hchild, fun h => hne (h ▸ rfl)⟩
              split
              · exact ⟨_, s, rfl, .inl rfl⟩
              · rename_i hleader
                rw [hs.woven.tree.forEachTask, ok_bind]
                split
                · exact ⟨_, s, rfl, .inl rfl⟩
                · rename_i hgroup
                  refine ⟨0, _, rfl, .inr ⟨p, rfl, .intro hp hsession (Bool.eq_false_iff.2 hleader) ?_⟩⟩
                  by_cases hown : m = (s.pid p : Int)
                  · exact .inl (by rw [hown, Int.toNat_natCast])
                  · refine .inr ?_
                    by_contra hnone
                    refine hgroup ⟨hown, fun q hq hq' => hnone ⟨q, hq, ?_, hq'.2⟩⟩
                    omega

/-- The task leads a new session. -/
def State.sessioned (s : State) (current : TaskId) : State :=
  { s with
    leader := update s.leader current true
    session := update s.session current (s.pid current)
    pgrp := update s.pgrp current (s.pid current) }

theorem used_sessioned {i : Nat} (h : Used (s.sessioned current) tasks i) : Used s tasks i := by
  obtain ⟨q, hq, hi⟩ := h
  refine ⟨q, hq, ?_⟩
  by_cases hqc : q = current
  · subst hqc
    simp only [State.ids, State.sessioned, Function.update_self, List.mem_cons, List.not_mem_nil, or_false] at hi ⊢
    tauto
  · simpa only [State.ids, State.sessioned, update_of_ne hqc] using hi

/-- `setsid` either fails or makes its caller the leader of a new session. -/
theorem Sound.sysSetsid (hs : Sound s tasks kids) (current : TaskId) :
    ∃ v t, sysSetsid current s = .ok (v, t) ∧ Sound t tasks kids ∧ (t = s ∨
      (∀ p ∈ tasks, s.pgrp p ≠ s.pid current) ∧ t = s.sessioned current) := by
  rw [Proc.sysSetsid, hs.woven.tree.forEachTask, ok_bind]
  split
  · exact ⟨_, s, rfl, hs, .inl rfl⟩
  · rename_i hnone
    have hsound := hs.renumbered (g := update s.pgrp current (s.pid current))
      (e := update s.session current (s.pid current)) (i := s.tgid) fun n => used_sessioned
    exact ⟨_, s.sessioned current, rfl, hsound.congr {}, .inr ⟨fun p hp h => hnone ⟨p, hp, h⟩, rfl⟩⟩

/-- The number 1 is that of `init`. -/
theorem Sound.used_daemonized {i : Nat} (hs : Sound s tasks kids) (h : Used (Proc.daemonize current s) tasks i) :
    Used s tasks i := by
  obtain ⟨q, hq, hi⟩ := h
  by_cases hqc : q = current
  · subst hqc
    simp only [State.ids, Proc.daemonize, Function.update_self, List.mem_cons, List.not_mem_nil, or_false] at hi
    have hone : Used s tasks 1 := ⟨s.childReaper, hs.reaper.1, by simp [State.ids, hs.reaper.2.2.1]⟩
    rcases hi with hi | rfl | hi | rfl
    · exact ⟨q, hq, by simp [State.ids, hi]⟩
    · exact hone
    · exact ⟨q, hq, by simp [State.ids, hi]⟩
    · exact hone
  · exact ⟨q, hq, by simpa only [State.ids, Proc.daemonize, update_of_ne hqc] using hi⟩

theorem Sound.daemonize (hs : Sound s tasks kids) : Sound (daemonize current s) tasks kids := by
  have hmm : Sound { s with mm := update s.mm current false } tasks kids := by
    refine hs.congr { mm := fun p h => .inl ?_ }
    by_cases hpc : p = current
    · subst hpc
      exact absurd ((Function.update_self ..).symm.trans h) Bool.false_ne_true
    · exact (update_of_ne hpc ..).symm.trans h
  exact hmm.renumbered (i := s.tgid) fun n => hs.used_daemonized

end MagicKernel.Proc
