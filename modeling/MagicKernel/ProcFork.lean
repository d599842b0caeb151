import MagicKernel.ProcSound

/-! `do_fork`: what it leaves when it fails, and what it leaves when it succeeds. -/

namespace MagicKernel.Proc

open FaultMachine PointerLists
open Function (update update_of_ne)
open Sched (TaskState)

variable {env : Env} {s t : State} {p q current : TaskId} {tasks : List TaskId} {kids : TaskId → List TaskId}
  {flags : UInt32} {last safe : Nat}

theorem Sound.ofNumbered (hs : Sound s tasks kids) (hn : Numbered (s.numbered last safe) tasks) :
    Sound (s.numbered last safe) tasks kids :=
  ⟨⟨⟨hs.woven.tree.ring, hs.woven.tree.nodup, hs.woven.tree.family, hs.woven.tree.mem_kids,
    hs.woven.tree.allocated, hs.woven.tree.below⟩, hs.woven.threads⟩, hs.parent, hs.creator, hs.mute, hs.leaving,
    hs.gone, hs.idle, hs.reaper, hs.hashed, hs.pid_pos, hn⟩

/-- The new structure before it is linked. -/
def State.copied (s : State) (current p : TaskId) (flags : UInt32) (pid : Nat) : State :=
  prepareTask p flags { copyTask current p s with pid := update (copyTask current p s).pid p pid }

theorem sameOff_copied (hbelow : ∀ q, s.allocated q = true → q < s.top) (current p : TaskId) (flags : UInt32)
    (pid : Nat) : SameOff p s (s.copied current p flags pid) := by
  have hset : ∀ (β : Type) (f : TaskId → β) (a b : β) (q : TaskId), q ≠ p → update (update f p a) p b q = f q := by
    intro β f a b q hq
    rw [update_of_ne hq, update_of_ne hq]
  refine {
    below := fun q hq => ?_
    cptr_self := Function.update_self ..
    state := hset _ _ _ _
    sighand := fun q hq => ?_
    pid := hset _ _ _ _
    cptr := hset _ _ _ _
    threadNext := hset _ _ _ _
    threadPrev := hset _ _ _ _ }
  · change q < max s.top (p + 1)
    change update s.allocated p true q = true at hq
    by_cases hqp : q = p
    · subst hqp
      exact lt_max_of_lt_right (Nat.lt_succ_self q)
    · rw [update_of_ne hqp] at hq
      exact lt_max_of_lt_left (hbelow q hq)
  · change (if flags &&& CLONE_SIGHAND = 0 then update (update s.sighand p (s.sighand current)) p true
      else update s.sighand p (s.sighand current)) q = _
    split
    · exact hset _ _ _ _ q hq
    · exact update_of_ne hq ..

/-- Whether the child of a `do_fork` is traced from its start. -/
def tracedChild (s : State) (current : TaskId) (flags : UInt32) : Bool :=
  if flags &&& CLONE_PTRACE = 0 then false else s.ptraced current

/-- The state after a `do_fork` that succeeds, with the links that it has made. -/
def State.forked (s : State) (env : Env) (current p : TaskId) (flags : UInt32) (pid : Nat)
    (n pr : TaskId → TaskId) (c y o : TaskId → Option TaskId) (tn tp : TaskId → TaskId) : State :=
  { s with
    nrThreads := s.nrThreads + 1
    allocated := update s.allocated p true
    top := max s.top (p + 1)
    state := update s.state p .running
    exiting := update s.exiting p (s.exiting current)
    sigpending := update s.sigpending p (tracedChild s current flags && env.takes p SIGSTOP)
    sighand := update s.sighand p true
    ptraced := update s.ptraced p (tracedChild s current flags)
    nextTask := n
    prevTask := pr
    mm := update s.mm p (s.mm current)
    exitCode := update s.exitCode p (s.exitCode current)
    exitSignal := update s.exitSignal p (flags &&& CSIGNAL).toNat
    pdeathSignal := update s.pdeathSignal p 0
    didExec := update s.didExec p false
    pid := update s.pid p pid
    pgrp := update s.pgrp p (s.pgrp current)
    session := update s.session p (s.session current)
    tgid := update s.tgid p (if flags &&& CLONE_THREAD ≠ 0 then s.tgid current else pid)
    leader := update s.leader p false
    opptr := update s.opptr p (if flags &&& CLONE_PARENT = 0 then current else s.opptr current)
    pptr := update s.pptr p
      (if flags &&& CLONE_PARENT = 0 ∧ tracedChild s current flags = false then current else s.pptr current)
    cptr := c
    ysptr := y
    osptr := o
    threadNext := tn
    threadPrev := tp
    parentExecId := update s.parentExecId p (s.selfExecId current)
    selfExecId := update s.selfExecId p (s.selfExecId current)
    waiting := update s.waiting p none
    pidhash := update s.pidhash (pidHashfn pid) (p :: s.pidhash (pidHashfn pid)) }

/-- The counters after a `get_pid`. -/
structure Counted (s : State) (tasks : List TaskId) (last safe : Nat) : Prop where
  numbered : Numbered (s.numbered last safe) tasks
  gap : Gap s tasks → Free s tasks → Gap (s.numbered last safe) tasks

theorem Counted.refl (hn : Numbered s tasks) : Counted s tasks s.lastPid s.nextSafe := ⟨hn, fun h _ => h⟩

/-- How `do_fork` can end, and in what state. -/
inductive ForkEnd (env : Env) (s : State) (tasks : List TaskId) (current p : TaskId) (flags : UInt32) :
    Int → State → Prop
  | failed {r : Int} {last safe : Nat} (hr : r < 0) (hc : Counted s tasks last safe) :
      ForkEnd env s tasks current p flags r (s.numbered last safe)
  | leaked {r : Int} {last safe : Nat} (hr : r < 0) (hc : Counted s tasks last safe) :
      ForkEnd env s tasks current p flags r ((s.numbered last safe).copied current p flags last)
  | done {last safe : Nat} {n pr : TaskId → TaskId} {c y o : TaskId → Option TaskId} {tn tp : TaskId → TaskId}
      {kids : TaskId → List TaskId} (hc : Counted s tasks last safe) (hpos : 0 < last)
      (hfresh : Gap s tasks → ¬Used s tasks last) (hroom : s.nrThreads < s.maxThreads)
      (hsound : Sound ((s.numbered last safe).forked env current p flags last n pr c y o tn tp) (tasks ++ [p]) kids)
      (hgroup : ∀ q r, q ∈ initTask :: tasks → r ∈ initTask :: tasks →
        (((s.numbered last safe).forked env current p flags last n pr c y o tn tp).SameGroup q r ↔ s.SameGroup q r)) :
      ForkEnd env s tasks current p flags last ((s.numbered last safe).forked env current p flags last n pr c y o tn tp)

/-- The parents of the new structure, before it is linked. -/
def State.placed (s : State) (current p : TaskId) (flags : UInt32) (pid : Nat) : State :=
  { s.copied current p flags pid with
    tgid := update (s.copied current p flags pid).tgid p pid
    opptr := update s.opptr p (if flags &&& CLONE_PARENT = 0 then current else s.opptr current)
    pptr := update s.pptr p
      (if flags &&& CLONE_PARENT = 0 ∧ tracedChild s current flags = false then current else s.pptr current) }

theorem ptraced_copied (s : State) (current p : TaskId) (flags : UInt32) (pid : Nat) :
    (s.copied current p flags pid).ptraced = update s.ptraced p (tracedChild s current flags) := by
  rw [tracedChild, State.copied, prepareTask]
  dsimp only
  split
  · exact Function.update_idem ..
  · rfl

theorem sighand_copied {pid : Nat} (hsig : s.sighand current = true) :
    (s.copied current p flags pid).sighand = update s.sighand p true := by
  change (if flags &&& CLONE_SIGHAND = 0 then update (update s.sighand p (s.sighand current)) p true
    else update s.sighand p (s.sighand current)) = _
  rw [Function.update_idem, hsig, ite_self]

theorem placeTask_copied {pid : Nat} (hcp : current ≠ p) (flags : UInt32) :
    placeTask current p flags (s.copied current p flags pid) = s.placed current p flags pid := by
  have hpid : (s.copied current p flags pid).pid p = pid := Function.update_self ..
  have hopptr : (s.copied current p flags pid).opptr = update s.opptr p (s.opptr current) := rfl
  have hpptr : (s.copied current p flags pid).pptr = update s.pptr p (s.pptr current) := rfl
  have htraced : (s.copied current p flags pid).ptraced p = tracedChild s current flags := by
    rw [ptraced_copied, Function.update_self]
  rw [placeTask]
  dsimp only
  rw [hpid, hopptr, hpptr, update_of_ne hcp, update_of_ne hcp, htraced, State.placed]
  by_cases hparent : flags &&& CLONE_PARENT = 0
  · cases htraced : tracedChild s current flags with
    | false =>
        simp only [hparent, if_true, and_self, Function.update_idem]
    | true =>
        simp only [hparent, if_true, Bool.true_eq_false, and_false, if_false, Function.update_idem]
  · simp only [hparent, if_false, false_and, Function.update_idem]

/-- The new task is in no group yet, and comes into the one of `current` or stays alone. -/
theorem group_placed (hw : Woven none s tasks kids) (hcall : current ∈ initTask :: tasks) (hp : p ∉ initTask :: tasks)
    (flags : UInt32) (pid : Nat) :
    ∃ tn tp, joinGroup current p flags (s.placed current p flags pid) =
      .ok { s.placed current p flags pid with
        tgid := update s.tgid p (if flags &&& CLONE_THREAD ≠ 0 then s.tgid current else pid)
        threadNext := tn
        threadPrev := tp } ∧
      Links (fun r => r ∈ initTask :: tasks ∨ r = p) tn tp ∧
      ∀ q r, q ∈ initTask :: tasks → r ∈ initTask :: tasks → (Reach tn q r ↔ Reach s.threadNext q r) := by
  have hcp : current ≠ p := fun h => hp (h ▸ hcall)
  have hne : ∀ q ∈ initTask :: tasks, q ≠ p := fun q hq h => hp (h ▸ hq)
  have hlinks : Links (· ∈ initTask :: tasks) (s.placed current p flags pid).threadNext
      (s.placed current p flags pid).threadPrev :=
    hw.threads.congr (fun r hr => (update_of_ne (hne r hr) ..).trans (update_of_ne (hne r hr) ..))
      fun r hr => (update_of_ne (hne r hr) ..).trans (update_of_ne (hne r hr) ..)
  have hreach : ∀ q r, q ∈ initTask :: tasks →
      (Reach (s.placed current p flags pid).threadNext q r ↔ Reach s.threadNext q r) := fun q r hq =>
    hw.threads.reach_congr (fun r hr => (update_of_ne (hne r hr) ..).trans (update_of_ne (hne r hr) ..)) hq
  have htgid : (s.placed current p flags pid).tgid = update s.tgid p pid :=
    (Function.update_idem ..).trans rfl
  by_cases hthread : flags &&& CLONE_THREAD = 0
  · have hself : ∀ f : TaskId → TaskId, update (update f p p) p p = update f p p := fun f => Function.update_idem ..
    have hlone := hlinks.lone hp
    refine ⟨(s.placed current p flags pid).threadNext, (s.placed current p flags pid).threadPrev, ?_, ?_,
      fun q r hq _ => hreach q r hq⟩
    · simp only [joinGroup, hthread, ne_eq, not_true_eq_false, if_false]
      rw [← htgid]
    · have hn : update (s.placed current p flags pid).threadNext p p = (s.placed current p flags pid).threadNext :=
        hself _
      have hpr : update (s.placed current p flags pid).threadPrev p p = (s.placed current p flags pid).threadPrev :=
        hself _
      rwa [hn, hpr] at hlone
  · have halloc : ({ s.placed current p flags pid with
        tgid := update (s.placed current p flags pid).tgid p ((s.placed current p flags pid).tgid current) } :
          State).allocated ((s.placed current p flags pid).threadNext current) = true := by
      have hmem := hlinks.next_mem current hcall
      exact (update_of_ne (hne _ hmem) ..).trans (hw.tree.allocated _ hmem)
    refine ⟨_, _, ?_, hlinks.insert hp hcall, fun q r hq hr => (hlinks.reach_insert hp hq hr).trans (hreach q r hq)⟩
    rw [joinGroup, if_pos hthread, threadAdd_eq halloc, htgid, update_of_ne hcp, Function.update_idem]
    simp only [hthread, ne_eq, not_false_eq_true, if_true]

theorem sameOff_placed (hbelow : ∀ q, s.allocated q = true → q < s.top) (current p : TaskId) (flags : UInt32)
    (pid : Nat) : SameOff p s (s.placed current p flags pid) := by
  have hcopied := sameOff_copied hbelow current p flags pid
  exact {
    lastPid := hcopied.lastPid
    nextSafe := hcopied.nextSafe
    childReaper := hcopied.childReaper
    pidhash := hcopied.pidhash
    below := hcopied.below
    cptr_self := hcopied.cptr_self
    allocated := hcopied.allocated
    state := hcopied.state
    exiting := hcopied.exiting
    sighand := hcopied.sighand
    mm := hcopied.mm
    nextTask := hcopied.nextTask
    prevTask := hcopied.prevTask
    pid := hcopied.pid
    pgrp := hcopied.pgrp
    session := hcopied.session
    tgid := fun q hq => (update_of_ne hq ..).trans (hcopied.tgid q hq)
    cptr := hcopied.cptr
    ysptr := hcopied.ysptr
    osptr := hcopied.osptr
    threadNext := hcopied.threadNext
    threadPrev := hcopied.threadPrev }

/-- A task that is not ready to be woken up only learns that it has to stop. -/
theorem sendSig_stop (env : Env) (s : State) (h : s.state p = .uninterruptible) (hpending : s.sigpending p = false)
    (hsig : s.sighand p = true) :
    sendSig env SIGSTOP p s = { s with sigpending := update s.sigpending p (env.takes p SIGSTOP) } := by
  have hnot : ¬(SIGSTOP = 0 ∨ nsig < SIGSTOP ∨ s.sighand p = false) := by
    rw [hsig]
    decide
  have hstop : handleStopSignal SIGSTOP p s = s := if_neg (by decide)
  rw [sendSig, if_neg hnot, hstop]
  cases env.takes p SIGSTOP with
  | false =>
      have hsame : update s.sigpending p false = s.sigpending := by
        rw [← hpending, Function.update_eq_self]
      rw [hsame]
      rfl
  | true =>
      have hsleep : ¬s.state p = .interruptible := by
        rw [h]
        exact TaskState.noConfusion
      exact if_neg hsleep

/-- The part of `do_fork` that makes the new task visible. -/
theorem linkTask_eq (hwoven : Woven none s tasks kids) (hc : current ∈ initTask :: tasks)
    (hparent : s.pptr current ∈ initTask :: tasks) (hsig : s.sighand current = true) (hp : p ∉ initTask :: tasks)
    (hkids : kids p = []) (env : Env) (flags : UInt32) (pid : Nat) : ∃ n pr c y o tn tp kids',
      (do
        let u ← linkTask current p flags (s.copied current p flags pid)
        let u := if u.ptraced p then sendSig env SIGSTOP p u else u
        return (wakeUpProcess p u)) = .ok (s.forked env current p flags pid n pr c y o tn tp) ∧
      Tree none (s.forked env current p flags pid n pr c y o tn tp) (tasks ++ [p]) kids' ∧
      Links (fun r => r ∈ initTask :: tasks ∨ r = p) tn tp ∧
      ∀ q r, q ∈ initTask :: tasks → r ∈ initTask :: tasks → (Reach tn q r ↔ Reach s.threadNext q r) := by
  have hcp : current ≠ p := fun h => hp (h ▸ hc)
  obtain ⟨tn, tp, hthread, hlinks, hreach⟩ := group_placed hwoven hc hp flags pid
  have htree := (hwoven.off (sameOff_placed hwoven.tree.below current p flags pid) hp hkids).tree
  generalize hw : ({ s.placed current p flags pid with
    tgid := update s.tgid p (if flags &&& CLONE_THREAD ≠ 0 then s.tgid current else pid)
    threadNext := tn
    threadPrev := tp } : State) = w at hthread
  have htreew : Tree none w tasks kids := by
    subst hw
    exact ⟨htree.ring, htree.nodup, htree.family, htree.mem_kids, htree.allocated, htree.below⟩
  have hparent : w.pptr p ∈ initTask :: tasks := by
    subst hw
    change update s.pptr p _ p ∈ _
    rw [Function.update_self]
    split
    · exact hc
    · exact hparent
  have hallocw : w.allocated p = true := by
    subst hw
    exact Function.update_self ..
  obtain ⟨n, pr, c, y, o, hset, htree'⟩ := htreew.linked hp hallocw hparent
  refine ⟨n, pr, c, y, o, tn, tp, update kids (w.pptr p) (p :: kids (w.pptr p)), ?_, ?_, hlinks, hreach⟩
  · rw [linkTask, placeTask_copied hcp, hthread, ok_bind, hset, ok_bind]
    refine congrArg Except.ok ?_
    have htraced : (hashPid p (w.relink n pr c y o)).ptraced p = tracedChild s current flags := by
      subst hw
      exact (congrFun (ptraced_copied s current p flags pid) p).trans (Function.update_self ..)
    have hpending : (hashPid p (w.relink n pr c y o)).sigpending = update s.sigpending p false := by
      subst hw
      exact Function.update_idem ..
    have hsighand : (hashPid p (w.relink n pr c y o)).sighand = update s.sighand p true := by
      subst hw
      exact sighand_copied hsig
    have hforked : ∀ b, wakeUpProcess p { hashPid p (w.relink n pr c y o) with
        nrThreads := (hashPid p (w.relink n pr c y o)).nrThreads + 1
        sigpending := update s.sigpending p b } =
        { s.forked env current p flags pid n pr c y o tn tp with sigpending := update s.sigpending p b } := by
      intro b
      subst hw
      ext1
      case state =>
        change update (update (update s.state p (s.state current)) p .uninterruptible) p .running =
          update s.state p .running
        rw [Function.update_idem, Function.update_idem]
      case ptraced => exact ptraced_copied s current p flags pid
      case sighand => exact sighand_copied hsig
      case parentExecId =>
        change update (update s.parentExecId p _) p (update s.selfExecId p (s.selfExecId current) p) = _
        rw [Function.update_idem, Function.update_self]
        rfl
      case pidhash =>
        change update s.pidhash (pidHashfn (update (update s.pid p (s.pid current)) p pid p))
          (p :: s.pidhash (pidHashfn (update (update s.pid p (s.pid current)) p pid p))) = _
        rw [Function.update_self]
        rfl
      all_goals first | rfl | exact Function.update_idem ..
    change wakeUpProcess p (if (hashPid p (w.relink n pr c y o)).ptraced p = true then
      sendSig env SIGSTOP p { hashPid p (w.relink n pr c y o) with
        nrThreads := (hashPid p (w.relink n pr c y o)).nrThreads + 1 }
      else { hashPid p (w.relink n pr c y o) with nrThreads := (hashPid p (w.relink n pr c y o)).nrThreads + 1 }) = _
    have hend : ∀ b, b = (tracedChild s current flags && env.takes p SIGSTOP) →
        { s.forked env current p flags pid n pr c y o tn tp with sigpending := update s.sigpending p b } =
        s.forked env current p flags pid n pr c y o tn tp := by
      rintro b rfl
      rfl
    rw [htraced]
    cases htr : tracedChild s current flags with
    | false =>
        rw [if_neg Bool.false_ne_true, ← hend false (by rw [htr]; rfl), ← hforked false, ← hpending]
    | true =>
        have hst : (hashPid p (w.relink n pr c y o)).state p = .uninterruptible := by
          subst hw
          exact Function.update_self ..
        have hsp : (hashPid p (w.relink n pr c y o)).sigpending p = false := by
          rw [hpending, Function.update_self]
        rw [if_pos rfl, ← hend (env.takes p SIGSTOP) (by rw [htr]; rfl), ← hforked]
        refine congrArg (wakeUpProcess p) ((sendSig_stop env { hashPid p (w.relink n pr c y o) with
          nrThreads := (hashPid p (w.relink n pr c y o)).nrThreads + 1 } hst hsp
          ((congrFun hsighand p).trans (Function.update_self ..))).trans ?_)
        rw [hpending, Function.update_idem]
  · subst hw
    exact ⟨htree'.ring, htree'.nodup, htree'.family, htree'.mem_kids, htree'.allocated, htree'.below⟩

/-- The numbers of the new task are its own and some of its creator. -/
theorem used_forked {pid i : Nat} {n pr : TaskId → TaskId} {c y o : TaskId → Option TaskId} {tn tp : TaskId → TaskId}
    (hc : current ∈ tasks) (hp : p ∉ tasks)
    (h : Used (s.forked env current p flags pid n pr c y o tn tp) (tasks ++ [p]) i) : Used s tasks i ∨ i = pid := by
  obtain ⟨q, hq, hi⟩ := h
  rw [List.mem_append, List.mem_singleton] at hq
  rcases hq with hq | rfl
  · have hqp : q ≠ p := fun h => hp (h ▸ hq)
    refine .inl ⟨q, hq, ?_⟩
    simpa only [State.ids, State.forked, update_of_ne hqp] using hi
  · simp only [State.ids, State.forked, Function.update_self, List.mem_cons, List.not_mem_nil, or_false] at hi
    rcases hi with rfl | rfl | hi | rfl
    · exact .inr rfl
    · exact .inl ⟨current, hc, by simp [State.ids]⟩
    · split at hi
      · exact .inl ⟨current, hc, by simp [State.ids, hi]⟩
      · exact .inr hi
    · exact .inl ⟨current, hc, by simp [State.ids]⟩

theorem Sound.forked {pid : Nat} {n pr : TaskId → TaskId} {c y o : TaskId → Option TaskId} {tn tp : TaskId → TaskId}
    {kids' : TaskId → List TaskId} (hs : Sound s tasks kids) (hc : current ∈ tasks) (halive : s.state current ≠ .zombie)
    (hp : p ∉ initTask :: tasks) (hpid : 0 < pid) (hlast : s.lastPid = pid)
    (htree : Tree none (s.forked env current p flags pid n pr c y o tn tp) (tasks ++ [p]) kids')
    (hlinks : Links (fun r => r ∈ initTask :: tasks ∨ r = p) tn tp) :
    Sound (s.forked env current p flags pid n pr c y o tn tp) (tasks ++ [p]) kids' := by
  have hmem : ∀ q, q ∈ tasks ++ [p] ↔ q ∈ tasks ∨ q = p := fun q => by rw [List.mem_append, List.mem_singleton]
  have hmemall : ∀ q, q ∈ initTask :: (tasks ++ [p]) ↔ q ∈ initTask :: tasks ∨ q = p := fun q => by
    rw [← List.cons_append, List.mem_append, List.mem_singleton]
  have hne : ∀ q ∈ initTask :: tasks, q ≠ p := fun q hq h => hp (h ▸ hq)
  have hnet : ∀ q ∈ tasks, q ≠ p := fun q hq => hne q (hs.mem_cons hq)
  have hcall := hs.mem_cons hc
  have hkeep : ∀ q, Alive s tasks q → Alive (s.forked env current p flags pid n pr c y o tn tp) (tasks ++ [p]) q :=
    fun q hq => ⟨(hmemall q).2 (.inl hq.1), fun h => hq.2 ((update_of_ne (hne q hq.1) ..).symm.trans h)⟩
  refine ⟨⟨htree, ?_⟩, fun q hq => ?_, fun q hq => ?_, fun q hq h => ?_, fun q hq h => ?_,
    fun q hq h => ?_, fun h => ?_, ?_, fun k q => ?_, fun q hq => ?_, ?_⟩
  · have heq : (fun r => r ∈ initTask :: (tasks ++ [p])) = fun r => r ∈ initTask :: tasks ∨ r = p :=
      funext fun r => propext (hmemall r)
    rw [heq]
    exact hlinks
  · rcases (hmem q).1 hq with hq | rfl
    · have hpptr : (s.forked env current p flags pid n pr c y o tn tp).pptr q = s.pptr q := update_of_ne (hnet q hq) ..
      rw [hpptr]
      exact ⟨hkeep _ (hs.parent q hq).1, (hs.parent q hq).2⟩
    · have hpptr : (s.forked env current q flags pid n pr c y o tn tp).pptr q =
        if flags &&& CLONE_PARENT = 0 ∧ tracedChild s current flags = false then current else s.pptr current :=
        Function.update_self ..
      rw [hpptr]
      split
      · exact ⟨hkeep _ ⟨hcall, halive⟩, hnet _ hc⟩
      · exact ⟨hkeep _ (hs.parent current hc).1, hne _ (hs.parent current hc).1.1⟩
  · rcases (hmem q).1 hq with hq | rfl
    · have hopptr : (s.forked env current p flags pid n pr c y o tn tp).opptr q = s.opptr q :=
        update_of_ne (hnet q hq) ..
      rw [hopptr]
      exact ⟨hkeep _ (hs.creator q hq).1, (hs.creator q hq).2⟩
    · have hopptr : (s.forked env current q flags pid n pr c y o tn tp).opptr q =
        if flags &&& CLONE_PARENT = 0 then current else s.opptr current := Function.update_self ..
      rw [hopptr]
      split
      · exact ⟨hkeep _ ⟨hcall, halive⟩, hnet _ hc⟩
      · exact ⟨hkeep _ (hs.creator current hc).1, hne _ (hs.creator current hc).1.1⟩
  · rcases (hmem q).1 hq with hq | rfl
    · exact (update_of_ne (hnet q hq) ..).trans (hs.mute q hq ((update_of_ne (hnet q hq) ..).symm.trans h))
    · have hrun : (s.forked env current q flags pid n pr c y o tn tp).state q = .running := Function.update_self ..
      rw [hrun] at h
      cases h
  · rcases (hmem q).1 hq with hq | rfl
    · obtain ⟨hexit, hst⟩ := hs.leaving q hq ((update_of_ne (hnet q hq) ..).symm.trans h)
      exact ⟨(update_of_ne (hnet q hq) ..).trans hexit, fun h => hst ((update_of_ne (hnet q hq) ..).symm.trans h)⟩
    · have hsig : (s.forked env current q flags pid n pr c y o tn tp).sighand q = true := Function.update_self ..
      rw [hsig] at h
      cases h
  · rcases (hmem q).1 hq with hq | rfl
    · exact (update_of_ne (hnet q hq) ..).trans (hs.gone q hq ((update_of_ne (hnet q hq) ..).symm.trans h))
    · have hexit : s.exiting current = true := (Function.update_self (f := s.exiting) ..).symm.trans h
      exact (Function.update_self ..).trans (hs.gone current hc hexit)
  · exact hs.idle ((update_of_ne (hne _ List.mem_cons_self) ..).symm.trans h)
  · obtain ⟨hr, hexit, hpidr, hopptr⟩ := hs.reaper
    exact ⟨(hmem _).2 (.inl hr), (update_of_ne (hnet _ hr) ..).trans hexit, (update_of_ne (hnet _ hr) ..).trans hpidr,
      (update_of_ne (hnet _ hr) ..).trans hopptr⟩
  · change q ∈ update s.pidhash (pidHashfn pid) (p :: s.pidhash (pidHashfn pid)) k ↔ _ ∧
      pidHashfn (update s.pid p pid q) = k
    have hold : q ≠ p → (q ∈ s.pidhash k ↔ q ∈ tasks ++ [p] ∧ pidHashfn (update s.pid p pid q) = k) := by
      intro hqp
      rw [hs.hashed, hmem, update_of_ne hqp, or_iff_left hqp]
    have hnew : q = p → (q ∈ tasks ++ [p] ∧ pidHashfn (update s.pid p pid q) = k ↔ pidHashfn pid = k) := by
      rintro rfl
      rw [Function.update_self]
      exact and_iff_right ((hmem q).2 (.inr rfl))
    have hnotin : ∀ k, p ∉ s.pidhash k := fun k h => hp (hs.mem_cons ((hs.hashed k p).1 h).1)
    by_cases hk : k = pidHashfn pid
    · subst hk
      rw [Function.update_self, List.mem_cons]
      by_cases hqp : q = p
      · rw [hnew hqp]
        exact ⟨fun _ => rfl, fun _ => .inl hqp⟩
      · rw [or_iff_right hqp]
        exact hold hqp
    · rw [update_of_ne hk]
      by_cases hqp : q = p
      · rw [hnew hqp]
        exact ⟨fun h => absurd (hqp ▸ h) (hnotin k), fun h => absurd h.symm hk⟩
      · exact hold hqp
  · rcases (hmem q).1 hq with hq | rfl
    · exact (hs.pid_pos q hq).trans_eq (update_of_ne (hnet q hq) ..).symm
    · change 0 < update s.pid q pid q
      rw [Function.update_self]
      exact hpid
  · obtain ⟨hlt, hle, hearly⟩ := hs.numbered
    refine ⟨hlt, hle, hearly.imp_right fun h i hi => ?_⟩
    rcases used_forked hc (fun h => hp (hs.mem_cons h)) hi with hi | rfl
    · exact h i hi
    · exact hlast.ge

/-- Every way through `do_fork`. -/
theorem Sound.doFork (hs : Sound s tasks kids) (hc : current ∈ tasks) (hstay : s.exiting current = false)
    (hp : s.allocated p = false) (env : Env) (flags : UInt32) (outcome : ForkOutcome) :
    ∃ r t, doFork env current p flags outcome s = .ok (r, t) ∧ ForkEnd env s tasks current p flags r t := by
  have hpall : p ∉ initTask :: tasks := fun h => by
    rw [hs.woven.tree.allocated p h] at hp
    cases hp
  have hpid := (hs.pid_pos current hc).ne'
  have hsig := hs.sighand_of_stay hc hstay
  have halive := hs.not_zombie_of_stay hc hstay
  have hfail : ∀ r : Int, r < 0 → ForkEnd env s tasks current p flags r s := fun r hr =>
    .failed hr (Counted.refl hs.numbered)
  rw [Proc.doFork]
  split
  · exact ⟨_, _, rfl, hfail _ (by decide)⟩
  · split
    · exact ⟨_, _, rfl, hfail _ (by decide)⟩
    · rename_i hclone
      have hflags : flags &&& CLONE_PID = 0 := by
        by_contra h
        exact hclone ⟨h, hpid⟩
      split
      · exact ⟨_, _, rfl, hfail _ (by decide)⟩
      · split
        · exact ⟨_, _, rfl, hfail _ (by decide)⟩
        · rename_i hroom
          obtain ⟨pid, last, safe, hget, hnum, hlast, hgap, hfree⟩ :=
            getPid_spec hs.numbered hs.woven.tree.forEachTask hflags current
          have hcounted : Counted s tasks last safe := ⟨hnum, fun h h' => (hgap h (hfree h')).2⟩
          have hs' := hs.ofNumbered hnum
          rw [hget, ok_bind]
          dsimp only
          split
          · exact ⟨_, _, rfl, .failed (by decide) hcounted⟩
          · rename_i hnone
            have hpid0 : pid ≠ 0 := fun h => hnone ⟨h, hpid⟩
            obtain rfl : pid = last := hlast.resolve_left hpid0
            split
            · exact ⟨_, _, rfl, .failed (by decide) hcounted⟩
            · split
              · exact ⟨_, _, rfl, .leaked (by decide) hcounted⟩
              · obtain ⟨n, pr, c, y, o, tn, tp, kids', heq, htree, hlinks, hreach⟩ :=
                  linkTask_eq hs'.woven (hs.mem_cons hc) (hs.parent current hc).1.1 hsig hpall (hs.kids_off hpall) env
                    flags pid
                have hsound := hs'.forked hc halive hpall (Nat.pos_of_ne_zero hpid0) rfl htree hlinks
                obtain ⟨u, hlink, hend⟩ := bind_eq_ok.1 heq
                refine ⟨pid, _, ?_, .done hcounted (Nat.pos_of_ne_zero hpid0) (fun h => (hgap h hpid0).1) ?_ hsound
                  hreach⟩
                · have hlink' : linkTask current p flags (prepareTask p flags
                      { copyTask current p (s.numbered pid safe) with
                        pid := update (copyTask current p (s.numbered pid safe)).pid p pid }) = .ok u := hlink
                  rw [hlink', ok_bind, ← Except.ok.inj hend]
                  rfl
                · exact lt_of_not_ge fun h => hroom (.inr h)

end MagicKernel.Proc
