import MagicKernel.ProcSound

/-! `sys_wait4`: what the search among the children finds, what is reported of the child that is found, and what
happens to it. -/

namespace MagicKernel.Proc

open FaultMachine PointerLists
open Function (update update_of_ne)
open Sched (TaskState)

variable {env : Env} {s t u : State} {p q r current : TaskId} {tasks l l₁ l₂ others : List TaskId}
  {kids : TaskId → List TaskId} {args : WaitArgs} {flag : Bool}

/-! ### The search -/

/-- A child that the search stops at. -/
def reportable (s : State) (current : TaskId) (args : WaitArgs) (p : TaskId) : Bool :=
  eligible s current args p && ready s args p

/-- What a search through `l` comes to. -/
def searched (s : State) (current : TaskId) (args : WaitArgs) (l : List TaskId) (flag : Bool) : Search :=
  match l.find? (reportable s current args) with
  | some p => .found p
  | none => .none (flag || l.any (eligible s current args))

theorem searched_cons (s : State) (current : TaskId) (args : WaitArgs) (p : TaskId) (l : List TaskId) (flag : Bool) :
    searched s current args (p :: l) flag =
      if eligible s current args p = true then
        if ready s args p = true then .found p else searched s current args l true
      else searched s current args l flag := by
  rw [searched, searched, searched, List.find?_cons, List.any_cons, reportable]
  cases eligible s current args p with
  | false =>
      rw [Bool.false_and, Bool.false_or, if_neg Bool.false_ne_true]
  | true =>
      rw [Bool.true_and, Bool.true_or, Bool.or_true, if_pos rfl]
      cases ready s args p with
      | false => rw [if_neg Bool.false_ne_true]
      | true => rw [if_pos rfl]

theorem searched_append (s : State) (current : TaskId) (args : WaitArgs) (l₁ l₂ : List TaskId) (flag : Bool) :
    searched s current args (l₁ ++ l₂) flag =
      match searched s current args l₁ flag with
      | .found p => .found p
      | .none flag => searched s current args l₂ flag := by
  induction l₁ generalizing flag with
  | nil =>
      have hnil : searched s current args [] flag = .none flag := by
        rw [searched, List.any_nil, Bool.or_false]
        rfl
      rw [hnil]
      rfl
  | cons p l₁ ih =>
      rw [List.cons_append, searched_cons, searched_cons]
      split
      · split
        · rfl
        · exact ih true
      · exact ih flag

theorem scanChildren_eq {b x : Option TaskId} (hrow : Row s.ysptr s.osptr b x l)
    (hall : ∀ p ∈ l, s.allocated p = true) {fuel : Nat} (hfuel : l.length ≤ fuel) (flag : Bool) :
    scanChildren s current args fuel x flag = .ok (searched s current args l flag) := by
  induction l generalizing b x fuel flag with
  | nil =>
      have hx : x = none := hrow
      have hnil : searched s current args [] flag = .none flag := by
        rw [searched, List.any_nil, Bool.or_false]
        rfl
      rw [hx, hnil]
      cases fuel <;> rfl
  | cons p l ih =>
      obtain ⟨hx, -, hrest⟩ := hrow
      obtain ⟨fuel, rfl⟩ := Nat.exists_eq_succ_of_ne_zero (Nat.zero_lt_of_lt hfuel).ne'
      have hnext := fun flag => ih hrest (fun q hq => hall q (List.mem_cons_of_mem p hq))
        (Nat.le_of_succ_le_succ hfuel) flag
      rw [hx, scanChildren, deref_eq (hall p List.mem_cons_self), ok_bind, searched_cons]
      split
      · split
        · rfl
        · exact hnext true
      · exact hnext flag

/-- The children the call looks at, in this order. -/
def candidates (kids : TaskId → List TaskId) (current : TaskId) (args : WaitArgs) (others : List TaskId) :
    List TaskId :=
  if args.options &&& WNOTHREAD ≠ 0 then kids current else (current :: others).flatMap kids

theorem Tree.scanChildren (ht : Tree none s tasks kids) (current q : TaskId) (args : WaitArgs) (flag : Bool) :
    scanChildren s current args s.top (s.cptr q) flag = .ok (searched s current args (kids q) flag) :=
  scanChildren_eq (ht.family.row_none q) (fun p hp => ht.allocated_of_mem ((ht.mem_kids p q).1 hp).1)
    (ht.kids_length q) flag

theorem Tree.scanThreads (ht : Tree none s tasks kids)
    (hchain : (q :: l ++ [current]).IsChain fun a b => s.threadNext a = b ∧ s.threadPrev b = a) (hnot : current ∉ l)
    (hall : ∀ a ∈ q :: l, s.allocated a = true) {fuel : Nat} (hfuel : l.length < fuel) (flag : Bool) :
    scanThreads s current args fuel q flag = .ok (searched s current args
      (if args.options &&& WNOTHREAD ≠ 0 then kids q else (q :: l).flatMap kids) flag) := by
  induction l generalizing q fuel flag with
  | nil =>
      obtain ⟨fuel, rfl⟩ := Nat.exists_eq_succ_of_ne_zero hfuel.ne'
      rw [List.cons_append, List.nil_append, List.isChain_pair] at hchain
      rw [Proc.scanThreads, deref_eq (hall q List.mem_cons_self), ok_bind, ht.scanChildren, ok_bind,
        List.flatMap_singleton, ite_self]
      cases searched s current args (kids q) flag with
      | found p => rfl
      | none flag => exact if_pos (.inr hchain.1)
  | cons b l ih =>
      obtain ⟨fuel, rfl⟩ := Nat.exists_eq_succ_of_ne_zero (Nat.zero_lt_of_lt hfuel).ne'
      rw [List.cons_append, List.cons_append, List.isChain_cons_cons] at hchain
      have hb : b ≠ current := fun h => hnot (h ▸ List.mem_cons_self)
      have hnext := fun flag => ih hchain.2 (fun h => hnot (List.mem_cons_of_mem b h))
        (fun a ha => hall a (List.mem_cons_of_mem q ha)) (Nat.lt_of_succ_lt_succ hfuel) flag
      rw [Proc.scanThreads, deref_eq (hall q List.mem_cons_self), ok_bind, ht.scanChildren, ok_bind]
      by_cases hwnothread : args.options &&& WNOTHREAD ≠ 0
      · rw [if_pos hwnothread]
        cases searched s current args (kids q) flag with
        | found p => rfl
        | none flag => exact if_pos (.inl hwnothread)
      · rw [if_neg hwnothread, List.flatMap_cons, searched_append]
        cases searched s current args (kids q) flag with
        | found p => rfl
        | none flag =>
            have hgo : ¬(args.options &&& WNOTHREAD ≠ 0 ∨ s.threadNext q = current) :=
              not_or.2 ⟨hwnothread, by rw [hchain.1.1]; exact hb⟩
            have hrest := hnext flag
            rw [if_neg hwnothread] at hrest
            dsimp only
            rw [if_neg hgo, hchain.1.1, hrest]

theorem Woven.scanThreads (hw : Woven none s tasks kids) (hc : current ∈ initTask :: tasks) (args : WaitArgs) :
    ∃ others, s.otherThreads current = .ok others ∧ (∀ q, q ∈ current :: others ↔ s.SameGroup current q) ∧
      scanThreads s current args (s.top + 1) current false =
        .ok (searched s current args (candidates kids current args others) false) := by
  obtain ⟨others, hothers, hring, hnodup, hmem⟩ := hw.otherThreads hc
  have hall : ∀ a ∈ current :: others, s.allocated a = true := fun a ha =>
    hw.tree.allocated a (hw.group_mem hc ((hmem a).1 ha))
  have hlength : others.length < s.top := length_le_of_below hnodup fun a ha => hw.tree.below a (hall a ha)
  exact ⟨others, hothers, hmem, hw.tree.scanThreads hring (List.nodup_cons.1 hnodup).1 hall (by omega) false⟩

/-- The caller `r` of `sys_wait4` looks at the child `p`: its own children, and unless told otherwise those of the
other threads. -/
def Looks (s : State) (r : TaskId) (args : WaitArgs) (p : TaskId) : Prop :=
  if args.options &&& WNOTHREAD ≠ 0 then s.pptr p = r else s.SameGroup r (s.pptr p)

theorem Tree.mem_candidates (ht : Tree none s tasks kids)
    (hmem : ∀ q, q ∈ current :: others ↔ s.SameGroup current q) :
    p ∈ candidates kids current args others ↔ p ∈ tasks ∧ Looks s current args p := by
  rw [candidates, Looks]
  split
  · exact ht.mem_kids p current
  · rw [List.mem_flatMap]
    constructor
    · rintro ⟨q, hq, hp⟩
      obtain ⟨htask, rfl⟩ := (ht.mem_kids p q).1 hp
      exact ⟨htask, (hmem _).1 hq⟩
    · rintro ⟨hp, hgroup⟩
      exact ⟨s.pptr p, (hmem _).2 hgroup, (ht.mem_kids p _).2 ⟨hp, rfl⟩⟩

/-! ### `release_task` -/

/-- The state after `release_task`, with the links that it has changed. -/
def State.released (s : State) (p : TaskId) (n pr : TaskId → TaskId) (c y o : TaskId → Option TaskId) : State :=
  { s with
    nrThreads := s.nrThreads - 1
    allocated := update s.allocated p false
    nextTask := n
    prevTask := pr
    cptr := c
    ysptr := y
    osptr := o
    threadNext := update s.threadNext (s.threadPrev p) (s.threadNext p)
    threadPrev := update s.threadPrev (s.threadNext p) (s.threadPrev p)
    pid := update s.pid p 0
    pidhash := update s.pidhash (pidHashfn (s.pid p)) ((s.pidhash (pidHashfn (s.pid p))).filter (· ≠ p)) }

theorem mem_erase_iff (htree : Tree none s tasks kids) : q ∈ initTask :: tasks.erase p ↔
    q ∈ initTask :: tasks ∧ (q ≠ p ∨ q = initTask) := by
  rw [List.mem_cons, List.mem_cons, (List.nodup_cons.1 htree.nodup).2.mem_erase_iff]
  constructor
  · rintro (rfl | ⟨hne, hq⟩)
    · exact ⟨.inl rfl, .inr rfl⟩
    · exact ⟨.inr hq, .inl hne⟩
  · rintro ⟨h | h, hne | rfl⟩
    · exact .inl h
    · exact .inl h
    · exact .inr ⟨hne, h⟩
    · exact .inl rfl

/-- A zombie that is released leaves the others in order: none of them has it for a parent. -/
theorem Sound.releaseTask (hs : Sound s tasks kids) (hp : p ∈ tasks) (hz : s.state p = .zombie) (hpc : p ≠ current) :
    ∃ n pr c y o kids', releaseTask current p s = .ok (s.released p n pr c y o) ∧
      Sound (s.released p n pr c y o) (tasks.erase p) kids' := by
  have htree := hs.woven.tree
  have hnd : tasks.Nodup := (List.nodup_cons.1 htree.nodup).2
  have hpall := hs.mem_cons hp
  have hpinit : p ≠ initTask := htree.task_ne hp
  have hlinks := hs.woven.threads
  have hnext := htree.allocated _ (hlinks.next_mem p hpall)
  have hprev := htree.allocated _ (hlinks.prev_mem p hpall)
  have halive : ∀ q, Alive s tasks q → q ∈ initTask :: tasks.erase p := fun q hq =>
    (mem_erase_iff htree).2 ⟨hq.1, .inl fun h => hq.2 (h ▸ hz)⟩
  have hold : ∀ q ∈ tasks.erase p, q ∈ tasks ∧ q ≠ p := fun q hq => (hnd.mem_erase_iff.1 hq).symm
  have hreaper : s.childReaper ≠ p := by
    intro h
    have hexit := hs.dead p hp hz
    rw [← h, hs.reaper.2.1] at hexit
    cases hexit
  -- The links.
  obtain ⟨w, hw⟩ : ∃ w, w = unhashPid p { s with nrThreads := s.nrThreads - 1 } := ⟨_, rfl⟩
  have htreew : Tree none w tasks kids := by
    subst hw
    exact ⟨htree.ring, htree.nodup, htree.family, htree.mem_kids, htree.allocated, htree.below⟩
  obtain ⟨n, pr, c, y, o, hremove, ht⟩ := htreew.unlinked hp (by subst hw; exact (hs.parent p hp).1.1)
  have hdel : threadDel p (w.relink n pr c y o) = .ok { w.relink n pr c y o with
      threadNext := update s.threadNext (s.threadPrev p) (s.threadNext p)
      threadPrev := update s.threadPrev (s.threadNext p) (s.threadPrev p) } := by
    subst hw
    exact threadDel_eq hnext hprev
  refine ⟨n, pr, c, y, o, update kids (w.pptr p) ((kids (w.pptr p)).erase p), ?_, ⟨⟨?_, ?_⟩, fun q hq => ?_,
    fun q hq => ?_, fun q hq => hs.mute q (hold q hq).1, fun q hq => hs.leaving q (hold q hq).1,
    fun q hq => hs.gone q (hold q hq).1, hs.idle, ?_, fun k q => ?_,
    fun q hq => ?_, ?_⟩⟩
  · rw [Proc.releaseTask, if_neg hpc]
    dsimp only
    rw [← hw, hremove, ok_bind, hdel]
    subst hw
    rfl
  · subst hw
    refine ⟨ht.ring, ht.nodup, ht.family, ht.mem_kids, fun q hq => ?_, fun q hq => ?_⟩
    · have hqp : q ≠ p := ((mem_erase_iff htree).1 hq).2.elim id fun h => h ▸ hpinit.symm
      exact (update_of_ne hqp ..).trans (ht.allocated q hq)
    · refine htree.below q ?_
      by_cases hqp : q = p
      · rw [hqp]
        exact hs.allocated hp
      · exact (update_of_ne hqp ..).symm.trans hq
  · have heq : (fun r => r ∈ initTask :: tasks.erase p) = fun r => r ∈ initTask :: tasks ∧ r ≠ p := by
      funext r
      refine propext ((mem_erase_iff htree).trans (and_congr_right fun _ => ⟨?_, .inl⟩))
      rintro (h | rfl)
      · exact h
      · exact hpinit.symm
    have herase := hlinks.erase hpall
    rw [← heq] at herase
    exact herase
  · obtain ⟨hparent, hne⟩ := hs.parent q (hold q hq).1
    exact ⟨⟨halive _ hparent, hparent.2⟩, hne⟩
  · obtain ⟨hparent, hne⟩ := hs.creator q (hold q hq).1
    exact ⟨⟨halive _ hparent, hparent.2⟩, hne⟩
  · obtain ⟨hr, hexit, hpid, hopptr⟩ := hs.reaper
    exact ⟨hnd.mem_erase_iff.2 ⟨hreaper, hr⟩, hexit, (update_of_ne hreaper ..).trans hpid, hopptr⟩
  · change q ∈ update s.pidhash (pidHashfn (s.pid p)) ((s.pidhash (pidHashfn (s.pid p))).filter (· ≠ p)) k ↔
      q ∈ tasks.erase p ∧ pidHashfn (update s.pid p 0 q) = k
    rw [hnd.mem_erase_iff]
    by_cases hqp : q = p
    · subst hqp
      refine ⟨fun h => ?_, fun h => absurd rfl h.1.1⟩
      by_cases hk : k = pidHashfn (s.pid q)
      · rw [hk, Function.update_self, List.mem_filter] at h
        exact absurd rfl (of_decide_eq_true h.2)
      · rw [update_of_ne hk] at h
        exact absurd ((hs.hashed k q).1 h).2.symm hk
    · have hmem : q ∈ update s.pidhash (pidHashfn (s.pid p)) ((s.pidhash (pidHashfn (s.pid p))).filter (· ≠ p)) k ↔
          q ∈ s.pidhash k := by
        by_cases hk : k = pidHashfn (s.pid p)
        · rw [hk, Function.update_self, List.mem_filter, and_iff_left (decide_eq_true hqp)]
        · rw [update_of_ne hk]
      rw [hmem, hs.hashed, update_of_ne hqp, and_iff_right hqp]
  · exact (hs.pid_pos q (hold q hq).1).trans_eq (update_of_ne (hold q hq).2 ..).symm
  · obtain ⟨hlt, hle, hearly⟩ := hs.numbered
    refine ⟨hlt, hle, hearly.imp_right fun h i hi => h i ?_⟩
    obtain ⟨q, hq, hi⟩ := hi
    refine ⟨q, (hold q hq).1, ?_⟩
    simpa only [State.ids, State.released, update_of_ne (hold q hq).2] using hi

theorem sameGroup_released {n pr : TaskId → TaskId} {c y o : TaskId → Option TaskId} (hs : Sound s tasks kids)
    (hp : p ∈ tasks) (hq : q ∈ initTask :: tasks) (hqp : q ≠ p) (hrp : r ≠ p) :
    (s.released p n pr c y o).SameGroup q r ↔ s.SameGroup q r :=
  hs.woven.threads.reach_erase (hs.mem_cons hp) hq hqp hrp

/-! ### The end of a call -/

/-- A child that the call waits for. -/
def Awaited (s : State) (tasks : List TaskId) (current : TaskId) (args : WaitArgs) (p : TaskId) : Prop :=
  p ∈ tasks ∧ Looks s current args p ∧ eligible s current args p = true

/-- Why a call returns without a child. -/
inductive Unreported (env : Env) (s : State) (tasks : List TaskId) (current : TaskId) (args : WaitArgs) : Int → Prop
  | fault {p : TaskId} (hp : Awaited s tasks current args p) (hready : ready s args p = true)
      (hcopied : env.copied = false) :
      Unreported env s tasks current args (-EFAULT)
  | childless (hnone : ∀ p, ¬Awaited s tasks current args p) : Unreported env s tasks current args (-ECHILD)
  | nothing {p : TaskId} (hp : Awaited s tasks current args p)
      (hnone : ∀ q, Awaited s tasks current args q → ready s args q = false) (hnohang : args.options &&& WNOHANG ≠ 0) :
      Unreported env s tasks current args 0
  | interrupted {p : TaskId} (hp : Awaited s tasks current args p)
      (hnone : ∀ q, Awaited s tasks current args q → ready s args q = false) (hhang : args.options &&& WNOHANG = 0)
      (hpending : s.sigpending current = true) : Unreported env s tasks current args (-ERESTARTSYS)

/-- The caller leaves `sys_wait4`. -/
def State.awake (s : State) (current : TaskId) : State :=
  { s with state := update s.state current .running, waiting := update s.waiting current none }

/-- The caller looks for children, or sleeps. -/
def State.dozing (s : State) (current : TaskId) : State :=
  { s with state := update s.state current .interruptible }

/-- How a pass of `sys_wait4` can end: with what value, in what state and with what tasks. -/
inductive WaitEnd (env : Env) (s : State) (tasks : List TaskId) (current : TaskId) (args : WaitArgs) :
    Option Report → State → List TaskId → Prop
  | kept {r : Int} (hr : Unreported env s tasks current args r) :
      WaitEnd env s tasks current args (some (r, none)) (s.awake current) tasks
  | stopped {p : TaskId} (hp : Awaited s tasks current args p) (hready : ready s args p = true)
      (hcopied : env.copied = true) (hst : s.state p = .stopped) :
      WaitEnd env s tasks current args (some (s.pid p, some (s.exitCode p <<< 8 ||| 0x7f)))
        ({ s with exitCode := update s.exitCode p 0 }.awake current) tasks
  | handed {p : TaskId} {n pr : TaskId → TaskId} {c y o : TaskId → Option TaskId} {u : State}
      {kids : TaskId → List TaskId} (hp : Awaited s tasks current args p) (hcopied : env.copied = true)
      (hz : s.state p = .zombie) (hne : s.opptr p ≠ s.pptr p)
      (hwoken : Woken ((s.dozing current).moved p (s.opptr p) n pr c y o) u)
      (hsound : Sound (u.awake current) (tasks.erase p ++ [p]) kids)
      (hwake : ∀ r, s.SameGroup (s.opptr p) r → (s.waiting r).isSome = true → u.state r ≠ .interruptible) :
      WaitEnd env s tasks current args (some (s.pid p, some (s.exitCode p))) (u.awake current) (tasks.erase p ++ [p])
  | released {p : TaskId} {n pr : TaskId → TaskId} {c y o : TaskId → Option TaskId} {kids : TaskId → List TaskId}
      (hp : Awaited s tasks current args p) (hcopied : env.copied = true) (hz : s.state p = .zombie)
      (heq : s.opptr p = s.pptr p)
      (hsound : Sound ((s.released p n pr c y o).awake current) (tasks.erase p) kids) :
      WaitEnd env s tasks current args (some (s.pid p, some (s.exitCode p))) ((s.released p n pr c y o).awake current)
        (tasks.erase p)
  | asleep {p : TaskId} (hp : Awaited s tasks current args p)
      (hnone : ∀ q, Awaited s tasks current args q → ready s args q = false) (hhang : args.options &&& WNOHANG = 0)
      (hpending : s.sigpending current = false) : WaitEnd env s tasks current args none (s.dozing current) tasks

theorem Sound.awake (hs : Sound s tasks kids) (hc : s.state current ≠ .zombie) :
    Sound (s.awake current) tasks kids := by
  have hrunning := hs.setState (x := .running) hc TaskState.noConfusion (TaskState.noConfusion ·)
  exact hrunning.congr {}

theorem Sound.dozing (hs : Sound s tasks kids) (hc : s.state current ≠ .zombie) : Sound (s.dozing current) tasks kids :=
  hs.setState hc TaskState.noConfusion (TaskState.noConfusion ·)

theorem dozing_awake (s : State) (current : TaskId) : (s.dozing current).awake current = s.awake current := by
  rw [State.awake, State.awake, State.dozing, Function.update_idem]

/-- A task that runs is reported neither before nor after it looks for children. -/
theorem searched_dozing (hrun : s.state current = .running) (l : List TaskId) (flag : Bool) :
    searched (s.dozing current) current args l flag = searched s current args l flag := by
  have hready : ready (s.dozing current) args = ready s args := by
    funext p
    by_cases hp : p = current
    · subst hp
      have hdoze : (s.dozing p).state p = .interruptible := Function.update_self ..
      rw [ready, ready, hdoze, hrun]
    · have hsame : (s.dozing current).state p = s.state p := update_of_ne hp ..
      rw [ready, ready, hsame]
      rfl
  have hreport : reportable (s.dozing current) current args = reportable s current args := by
    funext p
    rw [reportable, reportable, hready]
    rfl
  rw [searched, searched, hreport]
  rfl

theorem Sound.reap (hs : Sound s tasks kids) (hc : current ∈ tasks) (hrun : s.state current = .running)
    (hawaited : Awaited s tasks current args p) (hready : ready s args p = true) (env : Env) :
    ∃ v u tasks', reap env current p (s.dozing current) = .ok (v, u) ∧
      WaitEnd env s tasks current args (some v) (u.awake current) tasks' := by
  have hp := hawaited.1
  have hcz := not_zombie_of_running hrun
  have hpc : p ≠ current := by
    rintro rfl
    rw [ready, hrun] at hready
    cases hready
  have hstate : (s.dozing current).state p = s.state p := update_of_ne hpc ..
  have hdoze := hs.dozing hcz
  rw [Proc.reap]
  by_cases hcopied : env.copied = false
  · rw [if_pos hcopied]
    refine ⟨_, _, tasks, rfl, ?_⟩
    rw [dozing_awake]
    exact .kept (.fault hawaited hready hcopied)
  · rw [if_neg hcopied]
    have hcopied : env.copied = true := Bool.eq_true_of_not_eq_false hcopied
    dsimp only
    rw [hstate]
    cases hst : s.state p with
    | running | interruptible | uninterruptible =>
        rw [ready, hst] at hready
        cases hready
    | stopped =>
        refine ⟨_, _, tasks, rfl, ?_⟩
        have heq : ({ s.dozing current with exitCode := update s.exitCode p 0 } : State).awake current =
            { s with exitCode := update s.exitCode p 0 }.awake current :=
          dozing_awake { s with exitCode := update s.exitCode p 0 } current
        exact heq ▸ .stopped hawaited hready hcopied hst
    | zombie =>
        have hnot : ¬TaskState.zombie = .stopped := TaskState.noConfusion
        rw [if_neg hnot]
        by_cases hne : (s.dozing current).opptr p ≠ (s.dozing current).pptr p
        · obtain ⟨halive, hself⟩ := hdoze.creator p hp
          obtain ⟨n, pr, c, y, o, kids', hmoved, hsound⟩ := hdoze.reparented hp halive hself
          have hpptr : ((s.dozing current).moved p ((s.dozing current).opptr p) n pr c y o).pptr p =
            (s.dozing current).opptr p := Function.update_self ..
          have hmem := ((moved_perm hp).cons initTask).mem_iff.2 halive.1
          obtain ⟨u, hu, hwoken, hwake⟩ := hsound.woven.doNotifyParent (hpptr.symm ▸ hmem) env SIGCHLD
          rw [hpptr] at hwake
          have hucz : u.state current ≠ .zombie := by
            intro h
            have hd : update s.state current .interruptible current = .zombie := (hwoken.zombie_iff current).1 h
            rw [Function.update_self] at hd
            cases hd
          refine ⟨(s.pid p, some (s.exitCode p)), u, _, ?_,
            .handed hawaited hcopied hst hne hwoken ((hsound.woken hwoken).awake hucz) hwake⟩
          rw [if_pos hne, hmoved, ok_bind, hu]
          rfl
        · have hz : (s.dozing current).state p = .zombie := hstate.trans hst
          obtain ⟨n, pr, c, y, o, kids', hrelease, hsound⟩ := hdoze.releaseTask hp hz hpc
          have hawake : ((s.dozing current).released p n pr c y o).awake current =
            (s.released p n pr c y o).awake current := dozing_awake (s.released p n pr c y o) current
          have hrcz : ((s.dozing current).released p n pr c y o).state current ≠ .zombie := by
            change update s.state current .interruptible current ≠ _
            rw [Function.update_self]
            exact TaskState.noConfusion
          refine ⟨(s.pid p, some (s.exitCode p)), (s.dozing current).released p n pr c y o, tasks.erase p, ?_, ?_⟩
          · rw [if_neg hne, hrelease]
            rfl
          · rw [hawake]
            exact .released hawaited hcopied hst (not_not.1 hne) (hawake ▸ hsound.awake hrcz)

theorem Sound.waitPass (hs : Sound s tasks kids) (hc : current ∈ tasks) (hrun : s.state current = .running) (env : Env)
    (args : WaitArgs) :
    ∃ v t tasks', waitPass env current args s = .ok (v, t) ∧ WaitEnd env s tasks current args v t tasks' := by
  have hcz := not_zombie_of_running hrun
  obtain ⟨others, hothers, hmem, hscan⟩ := (hs.dozing hcz).woven.scanThreads (hs.mem_cons hc) args
  have hpass : Proc.waitPass env current args s = (do
      let found ← Proc.scanThreads (s.dozing current) current args (s.top + 1) current false
      let r ← waitEnd env current args (s.dozing current) found
      return leaveWait current r) := rfl
  have hscan' : Proc.scanThreads (s.dozing current) current args (s.top + 1) current false = _ := hscan
  have hawaited : ∀ p, p ∈ candidates kids current args others ∧ eligible s current args p = true ↔
      Awaited s tasks current args p := fun p =>
    (and_congr_left' (hs.woven.tree.mem_candidates hmem)).trans and_assoc
  generalize candidates kids current args others = l at hscan' hawaited
  rw [searched_dozing hrun] at hscan'
  rw [hpass, hscan', ok_bind, searched]
  cases hfind : l.find? (reportable s current args) with
  | some p =>
      have hreport := List.find?_some hfind
      rw [reportable, Bool.and_eq_true] at hreport
      have hp := (hawaited p).1 ⟨List.mem_of_find?_eq_some hfind, hreport.1⟩
      obtain ⟨v, u, tasks', hu, hend⟩ := hs.reap hc hrun hp hreport.2 env
      refine ⟨some v, u.awake current, tasks', ?_, hend⟩
      dsimp only
      rw [waitEnd, hu]
      rfl
  | none =>
      have hnone : ∀ q, Awaited s tasks current args q → ready s args q = false := by
        intro q hq
        obtain ⟨hql, heligible⟩ := (hawaited q).2 hq
        have hnot := List.find?_eq_none.1 hfind q hql
        rw [reportable, heligible, Bool.true_and] at hnot
        exact Bool.eq_false_iff.2 hnot
      rw [Bool.false_or]
      cases hany : l.any (eligible s current args) with
      | false =>
          refine ⟨_, s.awake current, tasks, by rw [← dozing_awake]; rfl, .kept (.childless fun p hp => ?_)⟩
          obtain ⟨hpl, heligible⟩ := (hawaited p).2 hp
          exact List.any_eq_false.1 hany p hpl heligible
      | true =>
          obtain ⟨p, hpl, heligible⟩ := List.any_eq_true.1 hany
          have hp := (hawaited p).1 ⟨hpl, heligible⟩
          dsimp only
          rw [waitEnd]
          by_cases hnohang : args.options &&& WNOHANG ≠ 0
          · rw [if_pos hnohang]
            exact ⟨_, s.awake current, tasks, by rw [← dozing_awake]; rfl, .kept (.nothing hp hnone hnohang)⟩
          · rw [if_neg hnohang]
            by_cases hpending : s.sigpending current = true
            · have hpending' : (s.dozing current).sigpending current = true := hpending
              rw [if_pos hpending']
              exact ⟨_, s.awake current, tasks, by rw [← dozing_awake]; rfl,
                .kept (.interrupted hp hnone (not_not.1 hnohang) hpending)⟩
            · have hpending' : ¬(s.dozing current).sigpending current = true := hpending
              rw [if_neg hpending']
              exact ⟨_, s.dozing current, tasks, rfl,
                .asleep hp hnone (not_not.1 hnohang) (Bool.eq_false_iff.2 hpending)⟩

theorem WaitEnd.sound {v : Option Report} {tasks' : List TaskId} (he : WaitEnd env s tasks current args v t tasks')
    (hs : Sound s tasks kids) (hrun : s.state current = .running) : ∃ kids', Sound t tasks' kids' := by
  have hcz := not_zombie_of_running hrun
  cases he with
  | kept hr => exact ⟨kids, hs.awake hcz⟩
  | @stopped p hp hready hcopied hst =>
      have hcode : Sound { s with exitCode := update s.exitCode p 0 } tasks kids := hs.congr {}
      exact ⟨kids, hcode.awake hcz⟩
  | handed hp hcopied hz hne hwoken hsound hwake => exact ⟨_, hsound⟩
  | released hp hcopied hz heq hsound => exact ⟨_, hsound⟩
  | asleep hp hnone hhang hpending => exact ⟨kids, hs.dozing hcz⟩

/-- What a pass of `sys_wait4` from `s` to `t` comes to for its caller, and what has become of the child. -/
def Reports (env : Env) (s : State) (tasks : List TaskId) (current : TaskId) (args : WaitArgs) (t : State) :
    Option Report → Prop
  | some (r, none) => Unreported env s tasks current args r ∧ t = s.awake current
  | some (pid, some status) =>
    env.copied = true ∧ ∃ p, Awaited s tasks current args p ∧ ready s args p = true ∧ pid = s.pid p ∧
      (s.state p = .stopped ∧ status = (s.exitCode p <<< 8 ||| 0x7f) ∧ t.Hashed p ∧ t.exitCode p = 0 ∨
        s.state p = .zombie ∧ status = s.exitCode p ∧
          if s.opptr p = s.pptr p then ¬t.Hashed p else t.Hashed p ∧ t.state p = .zombie ∧ t.pptr p = s.opptr p)
  | none =>
    args.options &&& WNOHANG = 0 ∧ s.sigpending current = false ∧ t.state current = .interruptible ∧
      t.waiting current = some args ∧ (∃ p, Awaited s tasks current args p) ∧
      ∀ p, Awaited s tasks current args p → ready s args p = false

/-- `w` is `s.waiting`, where the caller may just have entered its arguments. -/
theorem WaitEnd.reports {w : TaskId → Option WaitArgs} {v : Option Report} {tasks' : List TaskId}
    (he : WaitEnd env { s with waiting := w } tasks current args v t tasks') (hs : Sound s tasks kids)
    (hrun : s.state current = .running) (hargs : w current = some args)
    (hw : update w current none = update s.waiting current none) : Reports env s tasks current args t v := by
  have hu : Sound { s with waiting := w } tasks kids := hs.congr {}
  obtain ⟨kids', ht⟩ := he.sound hu hrun
  cases he with
  | kept hr =>
      refine ⟨?_, ?_⟩
      · cases hr with
        | fault hp hready hcopied => exact .fault hp hready hcopied
        | childless hnone => exact .childless hnone
        | nothing hp hnone hnohang => exact .nothing hp hnone hnohang
        | interrupted hp hnone hhang hpending => exact .interrupted hp hnone hhang hpending
      · rw [State.awake, State.awake, hw]
  | @stopped p hp hready hcopied hst =>
      exact ⟨hcopied, p, hp, hready, rfl, .inl ⟨hst, rfl, (ht.mem_iff p).2 hp.1, Function.update_self ..⟩⟩
  | @handed p n pr c y o u kids'' hp hcopied hz hne hwoken hsound hwake =>
      have hpc : p ≠ current := fun heq => TaskState.noConfusion (hrun.symm.trans (heq ▸ hz))
      have huz : u.state p = .zombie := (hwoken.zombie_iff p).2 ((Function.update_of_ne hpc ..).trans hz)
      have hpptr : u.pptr p = s.opptr p := (congrFun hwoken.sameKin.pptr p).trans (Function.update_self ..)
      refine ⟨hcopied, p, hp, by rw [ready, hz], rfl, .inr ⟨hz, rfl, ?_⟩⟩
      rw [if_neg hne]
      exact ⟨(ht.mem_iff p).2 ((moved_perm hp.1).mem_iff.2 hp.1), (Function.update_of_ne hpc ..).trans huz, hpptr⟩
  | @released p n pr c y o kids'' hp hcopied hz heq hsound =>
      refine ⟨hcopied, p, hp, by rw [ready, hz], rfl, .inr ⟨hz, rfl, ?_⟩⟩
      rw [if_pos heq, ht.mem_iff]
      exact (List.nodup_cons.1 hs.woven.tree.nodup).2.not_mem_erase
  | asleep hp hnone hhang hpending =>
      exact ⟨hhang, hpending, Function.update_self .., hargs, ⟨_, hp⟩, hnone⟩

end MagicKernel.Proc
