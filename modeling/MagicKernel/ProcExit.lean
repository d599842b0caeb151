import MagicKernel.ProcSound

/-! `exit_notify`: the children of a task that exits get new parents, the parents of zombies are woken up, and
process groups that are orphaned by it are hung up. -/

namespace MagicKernel.Proc

open FaultMachine PointerLists
open Function (update update_of_ne)
open Sched (TaskState)

variable {env : Env} {s t u : State} {p q r current father reaper : TaskId} {tasks l rest : List TaskId}
  {kids : TaskId → List TaskId}

/-! ### `forget_original_parent` -/

/-- The tasks of `l` that `father` has created are given to `reaper`. -/
def State.adopted (s : State) (father reaper : TaskId) (l : List TaskId) : State :=
  { s with
    exitSignal := fun p => if p ∈ l ∧ s.opptr p = father then SIGCHLD else s.exitSignal p
    selfExecId := fun p => if p ∈ l ∧ s.opptr p = father then s.selfExecId p + 1 else s.selfExecId p
    opptr := fun p =>
      if p ∈ l ∧ s.opptr p = father then (if p = reaper then s.childReaper else reaper) else s.opptr p }

theorem Woken.adopted (hw : Woken s t) (father reaper : TaskId) (l : List TaskId) :
    Woken (s.adopted father reaper l) (t.adopted father reaper l) := by
  obtain ⟨st, sp, ec, rfl, hst, hsp, hec⟩ := hw
  exact ⟨st, sp, ec, rfl, hst, hsp, hec⟩

theorem adopted_cons (hp : p ∉ l) :
    (s.adopted father reaper [p]).adopted father reaper l = s.adopted father reaper (p :: l) := by
  ext1 <;> try rfl
  -- A task is on one side of the list only.
  all_goals
    funext q
    by_cases hq : q ∈ l
    · have hqp : q ≠ p := fun h => hp (h ▸ hq)
      simp [State.adopted, hq, hqp]
    · simp [State.adopted, hq]

theorem adopted_one (hp : s.opptr p = father) : s.adopted father reaper [p] = { s with
    exitSignal := update s.exitSignal p SIGCHLD
    selfExecId := update s.selfExecId p (s.selfExecId p + 1)
    opptr := update s.opptr p (if p = reaper then s.childReaper else reaper) } := by
  ext1 <;> try rfl
  all_goals
    funext q
    by_cases hq : q = p
    · subst hq
      simp [State.adopted, hp]
    · simp [State.adopted, hq]

theorem woken_adopt (env : Env) (father reaper : TaskId) (s : State) (p : TaskId) :
    Woken (s.adopted father reaper [p]) (adopt env father reaper s p) := by
  rw [adopt]
  by_cases hp : s.opptr p = father
  · rw [if_pos hp, adopted_one hp]
    dsimp only
    by_cases hdeath : s.pdeathSignal p ≠ 0 ∧ env.mayKill p = true
    · rw [if_pos hdeath]
      exact woken_sendSig ..
    · rw [if_neg hdeath]
      exact .refl _
  · have heq : s.adopted father reaper [p] = s := by
      have hnot : ∀ q, ¬(q ∈ [p] ∧ s.opptr q = father) := fun q h => hp (List.mem_singleton.1 h.1 ▸ h.2)
      ext1 <;> first | rfl | (funext q; exact if_neg (hnot q))
    rw [if_neg hp, heq]
    exact .refl s

theorem woken_adoptAll (env : Env) (father reaper : TaskId) (hnodup : l.Nodup) (s : State) :
    Woken (s.adopted father reaper l) (l.foldl (adopt env father reaper) s) := by
  induction l generalizing s with
  | nil => exact .refl s
  | cons p l ih =>
      obtain ⟨hp, hl⟩ := List.nodup_cons.1 hnodup
      rw [← adopted_cons hp, List.foldl_cons]
      exact ((woken_adopt env father reaper s p).adopted father reaper l).trans (ih hl _)

/-- Who gets the children of a task whose group has the other threads `others`. -/
def heir (s : State) (others : List TaskId) : TaskId := (others.find? fun q => !s.exiting q).getD s.childReaper

theorem Sound.heir_alive (hs : Sound s tasks kids) (hp : p ∈ tasks) (hexit : s.exiting p = true)
    {others : List TaskId} (hothers : ∀ q ∈ others, s.SameGroup p q ∧ q ≠ p) :
    Alive s tasks (heir s others) ∧ heir s others ≠ p := by
  have hnot : ∀ q ∈ initTask :: tasks, s.exiting q = false → s.state q ≠ .zombie := by
    intro q hq hexitq hz
    rcases List.mem_cons.1 hq with rfl | hq
    · exact hs.idle hz
    · rw [hs.dead q hq hz] at hexitq
      cases hexitq
  rw [heir]
  cases hfind : others.find? fun q => !s.exiting q with
  | none =>
      have hreaper := hs.mem_cons hs.reaper.1
      refine ⟨⟨hreaper, hnot _ hreaper hs.reaper.2.1⟩, ?_⟩
      rintro rfl
      rw [Option.getD_none, hs.reaper.2.1] at hexit
      cases hexit
  | some q =>
      obtain ⟨hgroup, hne⟩ := hothers q (List.mem_of_find?_eq_some hfind)
      have hq := hs.woven.group_mem (hs.mem_cons hp) hgroup
      have hexitq : s.exiting q = false := by
        have h := List.find?_some hfind
        simpa using h
      exact ⟨⟨hq, hnot q hq hexitq⟩, hne⟩

theorem Sound.forgetOriginalParent (hs : Sound s tasks kids) (hp : p ∈ tasks) (env : Env) :
    ∃ others t, s.otherThreads p = .ok others ∧ (∀ q ∈ others, s.SameGroup p q ∧ q ≠ p) ∧
      forgetOriginalParent env p s = .ok t ∧ Woken (s.adopted p (heir s others) tasks) t := by
  obtain ⟨others, hothers, hmem, halive⟩ := hs.woven.aliveThread (hs.mem_cons hp)
  have htree := hs.woven.tree
  refine ⟨others, tasks.foldl (adopt env p (heir s others)) s, hothers, hmem, ?_,
    woken_adoptAll env p (heir s others) (List.nodup_cons.1 htree.nodup).2 s⟩
  have hheir : (if (others.find? fun q => !s.exiting q).getD p = p then s.childReaper
      else (others.find? fun q => !s.exiting q).getD p) = heir s others := by
    rw [heir]
    cases hfind : others.find? fun q => !s.exiting q with
    | none => exact if_pos rfl
    | some q => exact if_neg (hmem q (List.mem_of_find?_eq_some hfind)).2
  rw [Proc.forgetOriginalParent, halive, ok_bind, htree.forEachTask]
  dsimp only
  rw [hheir]
  rfl

/-- Every task has a living creator again. -/
theorem Sound.adopted (hs : Sound s tasks kids) (hp : p ∈ tasks) (hexit : s.exiting p = true)
    (hr : Alive s tasks reaper) (hrp : reaper ≠ p) :
    Sound (s.adopted p reaper tasks) tasks kids ∧ ∀ q ∈ tasks, (s.adopted p reaper tasks).opptr q ≠ p := by
  have hinit : s.childReaper ≠ p := by
    intro h
    rw [← h, hs.reaper.2.1] at hexit
    cases hexit
  have hreaper : Alive s tasks s.childReaper := by
    refine ⟨hs.mem_cons hs.reaper.1, fun hz => ?_⟩
    have hdead := hs.dead _ hs.reaper.1 hz
    rw [hs.reaper.2.1] at hdead
    cases hdead
  have hcreator : ∀ q ∈ tasks, (Alive s tasks ((s.adopted p reaper tasks).opptr q) ∧
      (s.adopted p reaper tasks).opptr q ≠ q) ∧ (s.adopted p reaper tasks).opptr q ≠ p := by
    intro q hq
    change (Alive s tasks (if q ∈ tasks ∧ s.opptr q = p then _ else _) ∧
      (if q ∈ tasks ∧ s.opptr q = p then _ else _) ≠ q) ∧
      (if q ∈ tasks ∧ s.opptr q = p then _ else _) ≠ p
    by_cases hqp : s.opptr q = p
    · rw [if_pos ⟨hq, hqp⟩]
      by_cases hqr : q = reaper
      · rw [if_pos hqr]
        -- `init` has been created by the idle task.
        refine ⟨⟨hreaper, ?_⟩, hinit⟩
        rintro rfl
        rw [hs.reaper.2.2.2] at hqp
        exact hs.woven.tree.task_ne hp hqp.symm
      · rw [if_neg hqr]
        exact ⟨⟨hr, fun h => hqr h.symm⟩, hrp⟩
    · rw [if_neg fun h => hqp h.2]
      exact ⟨hs.creator q hq, hqp⟩
  refine ⟨⟨⟨⟨hs.woven.tree.ring, hs.woven.tree.nodup, hs.woven.tree.family, hs.woven.tree.mem_kids,
    hs.woven.tree.allocated, hs.woven.tree.below⟩, hs.woven.threads⟩, hs.parent, fun q hq => (hcreator q hq).1,
    hs.mute, hs.leaving, hs.gone, hs.idle, ⟨hs.reaper.1, hs.reaper.2.1, hs.reaper.2.2.1, ?_⟩, hs.hashed, hs.pid_pos,
    ⟨hs.numbered.last_lt, hs.numbered.safe_le, hs.numbered.early⟩⟩, fun q hq => (hcreator q hq).2⟩
  have hopptr := hs.reaper.2.2.2
  refine (if_neg fun h => ?_).trans hopptr
  exact hs.woven.tree.task_ne hp (hopptr.symm.trans h.2).symm

/-! ### The loop of `exit_notify` -/

/-- The invariant while the zombie `current` gives its children away: its first child may have a stale link to
the one before it, and the parents of its children are no living task. -/
structure Dying (s : State) (current : TaskId) (tasks : List TaskId) (kids : TaskId → List TaskId) : Prop where
  woven : Woven (some current) s tasks kids
  parent : ∀ p ∈ tasks, s.pptr p ∈ initTask :: tasks ∧ s.pptr p ≠ p ∧
    (s.pptr p ≠ current → s.state (s.pptr p) ≠ .zombie)
  creator : ∀ p ∈ tasks, Alive s tasks (s.opptr p) ∧ s.opptr p ≠ p
  zombie : s.state current = .zombie
  mute : ∀ p ∈ tasks, s.state p = .zombie → s.sighand p = false
  leaving : ∀ p ∈ tasks, s.sighand p = false → s.exiting p = true ∧ s.state p ≠ .stopped
  gone : ∀ p ∈ tasks, s.exiting p = true → s.mm p = false
  idle : s.state initTask ≠ .zombie
  reaper : s.childReaper ∈ tasks ∧ s.exiting s.childReaper = false ∧ s.pid s.childReaper = 1 ∧
    s.opptr s.childReaper = initTask
  hashed : ∀ k p, p ∈ s.pidhash k ↔ p ∈ tasks ∧ pidHashfn (s.pid p) = k
  pid_pos : ∀ p ∈ tasks, 0 < s.pid p
  numbered : Numbered s tasks

/-- A task that nobody has for its creator becomes a zombie. -/
theorem Sound.dying (hs : Sound s tasks kids) (hc : current ∈ tasks) (hsig : s.sighand current = false)
    (hnobody : ∀ p ∈ tasks, s.opptr p ≠ current) :
    Dying { s with state := update s.state current .zombie } current tasks kids where
  woven := ⟨⟨hs.woven.tree.ring, hs.woven.tree.nodup, hs.woven.tree.family.loosen current, hs.woven.tree.mem_kids,
    hs.woven.tree.allocated, hs.woven.tree.below⟩, hs.woven.threads⟩
  parent p hp := by
    obtain ⟨⟨hmem, hz⟩, hne⟩ := hs.parent p hp
    exact ⟨hmem, hne, fun hpc h => hz ((update_of_ne hpc ..).symm.trans h)⟩
  creator p hp := by
    obtain ⟨⟨hmem, hz⟩, hne⟩ := hs.creator p hp
    exact ⟨⟨hmem, fun h => hz ((update_of_ne (hnobody p hp) ..).symm.trans h)⟩, hne⟩
  zombie := Function.update_self ..
  mute p hp h := by
    by_cases hpc : p = current
    · rw [hpc]
      exact hsig
    · exact hs.mute p hp ((update_of_ne hpc ..).symm.trans h)
  leaving p hp h := by
    obtain ⟨hexit, hst⟩ := hs.leaving p hp h
    refine ⟨hexit, ?_⟩
    by_cases hpc : p = current
    · change update s.state current .zombie p ≠ _
      rw [hpc, Function.update_self]
      exact TaskState.noConfusion
    · exact fun h => hst ((update_of_ne hpc ..).symm.trans h)
  gone := hs.gone
  idle h := hs.idle ((update_of_ne (hs.woven.tree.task_ne hc).symm ..).symm.trans h)
  reaper := hs.reaper
  hashed := hs.hashed
  pid_pos := hs.pid_pos
  numbered := ⟨hs.numbered.last_lt, hs.numbered.safe_le, hs.numbered.early⟩

theorem Dying.handled (hd : Dying s current tasks kids) (hp : p ∈ tasks) : s.Handled p := by
  intro hst
  by_contra hsig
  exact (hd.leaving p hp (Bool.eq_false_iff.2 hsig)).2 hst

theorem Dying.woken (hd : Dying s current tasks kids) (hw : Woken s t) : Dying t current tasks kids := by
  have hzombie := hw.zombie_iff
  have hwoven := hw.woven hd.woven
  have hstopped := fun p => hw.stopped (p := p)
  obtain ⟨st, sp, ec, rfl, -⟩ := hw
  exact ⟨hwoven, fun p hp => ⟨(hd.parent p hp).1, (hd.parent p hp).2.1, fun h hz =>
      (hd.parent p hp).2.2 h ((hzombie _).1 hz)⟩,
    fun p hp => ⟨⟨(hd.creator p hp).1.1, fun hz => (hd.creator p hp).1.2 ((hzombie _).1 hz)⟩, (hd.creator p hp).2⟩,
    (hzombie _).2 hd.zombie, fun p hp h => hd.mute p hp ((hzombie p).1 h),
    fun p hp h => ⟨(hd.leaving p hp h).1, fun hst => (hd.leaving p hp h).2 (hstopped p hst)⟩,
    hd.gone, fun h => hd.idle ((hzombie _).1 h), hd.reaper, hd.hashed, hd.pid_pos,
    ⟨hd.numbered.last_lt, hd.numbered.safe_le, hd.numbered.early⟩⟩

/-- Without children it leaves everything in order. -/
theorem Dying.sound (hd : Dying s current tasks kids) (hk : kids current = []) : Sound s tasks kids where
  woven := ⟨⟨hd.woven.tree.ring, hd.woven.tree.nodup, hd.woven.tree.family.tighten hk, hd.woven.tree.mem_kids,
    hd.woven.tree.allocated, hd.woven.tree.below⟩, hd.woven.threads⟩
  parent p hp := by
    obtain ⟨hmem, hne, hz⟩ := hd.parent p hp
    refine ⟨⟨hmem, hz fun hpc => ?_⟩, hne⟩
    have hkid := (hd.woven.tree.mem_kids p current).2 ⟨hp, hpc⟩
    rw [hk] at hkid
    cases hkid
  creator := hd.creator
  mute := hd.mute
  leaving := hd.leaving
  gone := hd.gone
  idle := hd.idle
  reaper := hd.reaper
  hashed := hd.hashed
  pid_pos := hd.pid_pos
  numbered := hd.numbered

/-- A child of the task that exits with its new parent, and with the links that come with it. -/
def State.handed (s : State) (p : TaskId) (c y o : TaskId → Option TaskId) : State :=
  { s with
    ptraced := update s.ptraced p false
    pptr := update s.pptr p (s.opptr p)
    cptr := c
    ysptr := y
    osptr := o }

/-- Which tasks connect a group does not depend on who sleeps. -/
theorem Woken.connects (hw : Woken s t) {pgrp : Nat} {ignored : Option TaskId} :
    Connects t pgrp ignored p ↔ Connects s pgrp ignored p := by
  have hzombie := hw.zombie_iff p
  obtain ⟨st, sp, ec, rfl, -⟩ := hw
  exact and_congr_right fun _ => and_congr_right fun _ => and_congr_left fun _ => not_congr hzombie

/-- The first child comes to its creator. -/
theorem Dying.handover (hd : Dying s current tasks kids) (hk : kids current = p :: rest) :
    ∃ c y o kids', linkChild p { s with
        cptr := update s.cptr current (s.osptr p)
        ysptr := update s.ysptr p none
        ptraced := update s.ptraced p false
        pptr := update s.pptr p (s.opptr p) } = .ok (s.handed p c y o) ∧
      Dying (s.handed p c y o) current tasks kids' ∧ kids' current = rest := by
  have htree := hd.woven.tree
  obtain ⟨hp, hpc⟩ := (htree.mem_kids p current).1 (hk ▸ List.mem_cons_self)
  obtain ⟨⟨hr, hrz⟩, hrp⟩ := hd.creator p hp
  have hrc : s.opptr p ≠ current := fun h => hrz (h ▸ hd.zombie)
  have hpnc : p ≠ current := fun h => (hd.parent p hp).2.1 (h ▸ hpc)
  -- The links.
  have hpop := htree.family.pop hk
  obtain ⟨b, -, hrow⟩ := htree.family.row current
  rw [hk] at hrow
  have hnodup := htree.family.nodup current
  rw [hk, List.nodup_cons] at hnodup
  have hnokid : ∀ q, p ∉ update kids current rest q := by
    intro q hq
    by_cases hqc : q = current
    · subst hqc
      rw [Function.update_self] at hq
      exact hnodup.1 hq
    · rw [update_of_ne hqc] at hq
      exact hqc (((htree.mem_kids p q).1 hq).2.symm.trans hpc)
  have hpop' : Family (some current) (update s.cptr current (s.osptr p)) (update s.ysptr p none) s.osptr
      (update kids current rest) :=
    hpop.congr (fun a q ha => update_of_ne (ne_of_mem_of_not_mem ha (hnokid q)) ..) fun _ _ _ => rfl
  have hpush := hpop'.push hnokid (Function.update_self ..) fun h => hrc (Option.some.inj h)
  have hcr : update s.cptr current (s.osptr p) (s.opptr p) = s.cptr (s.opptr p) := update_of_ne hrc ..
  obtain ⟨c, y, o, hlink, hfamily⟩ : ∃ c y o, linkChild p { s with
        cptr := update s.cptr current (s.osptr p)
        ysptr := update s.ysptr p none
        ptraced := update s.ptraced p false
        pptr := update s.pptr p (s.opptr p) } = .ok (s.handed p c y o) ∧
      Family (some current) c y o
        (update (update kids current rest) (s.opptr p) (p :: update kids current rest (s.opptr p))) := by
    refine ⟨_, _, _, ?_, hpush⟩
    have hpptr : update s.pptr p (s.opptr p) p = s.opptr p := Function.update_self ..
    rw [linkChild_eq]
    · dsimp only
      rw [hpptr]
      rfl
    · dsimp only
      rw [hpptr]
      exact htree.allocated _ hr
    · dsimp only
      rw [hpptr, hcr]
      exact fun a ha => htree.allocated_cptr ha
  refine ⟨c, y, o, update (update kids current rest) (s.opptr p) (p :: update kids current rest (s.opptr p)), hlink, ?_,
    (update_of_ne (Ne.symm hrc) ..).trans (Function.update_self ..)⟩
  -- The invariant with the new links.
  refine ⟨⟨⟨htree.ring, htree.nodup, hfamily, fun a q => ?_, htree.allocated, htree.below⟩, hd.woven.threads⟩,
    fun a ha => ?_, hd.creator, hd.zombie, hd.mute, hd.leaving, hd.gone, hd.idle, hd.reaper, hd.hashed, hd.pid_pos,
    ⟨hd.numbered.last_lt, hd.numbered.safe_le, hd.numbered.early⟩⟩
  · change _ ↔ _ ∧ update s.pptr p (s.opptr p) a = q
    have hold : a ≠ p → (a ∈ update kids current rest q ↔ a ∈ tasks ∧ s.pptr a = q) := by
      intro hap
      rw [← htree.mem_kids]
      by_cases hqc : q = current
      · subst hqc
        rw [Function.update_self, hk, List.mem_cons, or_iff_right hap]
      · rw [update_of_ne hqc]
    by_cases hap : a = p
    · subst hap
      rw [Function.update_self, and_iff_right hp]
      by_cases hqr : q = s.opptr a
      · subst hqr
        rw [Function.update_self]
        exact ⟨fun _ => rfl, fun _ => List.mem_cons_self⟩
      · rw [update_of_ne hqr]
        exact ⟨fun h => absurd h (hnokid q), fun h => absurd h.symm hqr⟩
    · rw [update_of_ne hap]
      by_cases hqr : q = s.opptr p
      · subst hqr
        rw [Function.update_self, List.mem_cons, or_iff_right hap]
        exact hold hap
      · rw [update_of_ne hqr]
        exact hold hap
  · change update s.pptr p (s.opptr p) a ∈ _ ∧ update s.pptr p (s.opptr p) a ≠ a ∧
      (update s.pptr p (s.opptr p) a ≠ current → s.state (update s.pptr p (s.opptr p) a) ≠ .zombie)
    by_cases hap : a = p
    · subst hap
      rw [Function.update_self]
      exact ⟨hr, hrp, fun _ => hrz⟩
    · rw [update_of_ne hap]
      exact hd.parent a ha

/-- What one turn of the loop does with the first child. -/
theorem Dying.bequeath (hd : Dying s current tasks kids) (hk : kids current = p :: rest) (env : Env) :
    ∃ c y o kids' t, bequeath env current p s = .ok t ∧ Woken (s.handed p c y o) t ∧ Dying t current tasks kids' ∧
      kids' current = rest ∧
      (s.state p = .zombie → ∀ r, s.SameGroup (s.opptr p) r →
        (s.waiting r).isSome = true → t.state r ≠ .interruptible) ∧
      (s.pgrp p ≠ s.pgrp current → s.session p = s.session current → s.pgrp p ≠ 0 →
        (∀ q ∈ tasks, ¬Connects t (s.pgrp p) none q) →
        ∀ q ∈ tasks, s.pgrp q = s.pgrp p → s.pid q = s.tgid q → t.state q ≠ .stopped) := by
  have hp := ((hd.woven.tree.mem_kids p current).1 (hk ▸ List.mem_cons_self)).1
  have hr := (hd.creator p hp).1.1
  obtain ⟨c, y, o, kids', hlink, hdying, hkids⟩ := hd.handover hk
  -- The wake-ups.
  have hpptr : (s.handed p c y o).pptr p = s.opptr p := Function.update_self ..
  obtain ⟨u, hu, hwu, hwake⟩ : ∃ u, (if (s.handed p c y o).state p = .zombie then
        doNotifyParent env p ((s.handed p c y o).exitSignal p) (s.handed p c y o) else .ok (s.handed p c y o)) = .ok u ∧
      Woken (s.handed p c y o) u ∧
      (s.state p = .zombie → ∀ r, s.SameGroup (s.opptr p) r → (s.waiting r).isSome = true →
        u.state r ≠ .interruptible) := by
    by_cases hz : s.state p = .zombie
    · obtain ⟨u, hu, hwu, hwake⟩ := hdying.woven.doNotifyParent (hpptr.symm ▸ hr) env
        ((s.handed p c y o).exitSignal p)
      rw [hpptr] at hwake
      exact ⟨u, (if_pos hz).trans hu, hwu, fun _ => hwake⟩
    · exact ⟨_, if_neg hz, .refl _, fun h => absurd h hz⟩
  have hdu := hdying.woken hwu
  obtain ⟨t, ht, hwt, hhang⟩ : ∃ t, (if u.pgrp p ≠ u.pgrp current ∧ u.session p = u.session current then
        hangUp env (u.pgrp p) none u else .ok u) = .ok t ∧ Woken u t ∧
      (s.pgrp p ≠ s.pgrp current → s.session p = s.session current → s.pgrp p ≠ 0 →
        (∀ q ∈ tasks, ¬Connects u (s.pgrp p) none q) →
        ∀ q ∈ tasks, s.pgrp q = s.pgrp p → s.pid q = s.tgid q → t.state q ≠ .stopped) := by
    obtain ⟨v, hv, hwv, hstopped⟩ := hdu.woven.tree.hangUpIf (fun q hq => (hdu.parent q hq).1)
      (fun q hq => hdu.handled hq) env (u.pgrp p) none (u.pgrp p ≠ u.pgrp current ∧ u.session p = u.session current)
    obtain ⟨st, sp, ec, rfl, -⟩ := hwu
    exact ⟨v, hv, hwv, fun h h' hg hnot => hstopped ⟨h, h'⟩ hnot hg⟩
  refine ⟨c, y, o, _, t, ?_, hwu.trans hwt, hdu.woken hwt, hkids, fun hz r hr hwait h => ?_, fun h h' hg hnot => ?_⟩
  · rw [Proc.bequeath, deref_eq (hd.woven.tree.allocated_of_mem hp), ok_bind]
    dsimp only
    rw [hlink, ok_bind]
    by_cases hz : (s.handed p c y o).state p = .zombie
    · rw [if_pos hz] at hu ⊢
      rw [hu, ok_bind]
      exact ht
    · rw [if_neg hz] at hu ⊢
      rw [hu, ok_bind]
      exact ht
  · have hback := hwt.state_eq (p := r) (by rw [h]; exact TaskState.noConfusion)
    exact hwake hz r hr hwait (hback.trans h)
  · exact hhang h h' hg fun q hq hconn => hnot q hq (hwt.connects.2 hconn)

/-- The tasks of `l` with their new parents. -/
def State.given (s : State) (l : List TaskId) (c y o : TaskId → Option TaskId) : State :=
  { s with
    ptraced := fun p => if p ∈ l then false else s.ptraced p
    pptr := fun p => if p ∈ l then s.opptr p else s.pptr p
    cptr := c
    ysptr := y
    osptr := o }

theorem Woken.given (hw : Woken s t) (l : List TaskId) (c y o : TaskId → Option TaskId) :
    Woken (s.given l c y o) (t.given l c y o) := by
  obtain ⟨st, sp, ec, rfl, hst, hsp, hec⟩ := hw
  exact ⟨st, sp, ec, rfl, hst, hsp, hec⟩

theorem given_handed (c y o c' y' o' : TaskId → Option TaskId) :
    (s.handed p c y o).given l c' y' o' = s.given (p :: l) c' y' o' := by
  ext1 <;> try rfl
  all_goals
    funext q
    by_cases hq : q = p
    · subst hq
      simp [State.given, State.handed]
    · simp [State.given, State.handed, hq]

/-- A group of which `l` has no member is connected as before. -/
theorem connects_given {g : Nat} {ignored : Option TaskId} {c y o : TaskId → Option TaskId}
    (hl : ∀ q ∈ l, s.pgrp q ≠ g) : Connects (s.given l c y o) g ignored p ↔ Connects s g ignored p := by
  refine and_congr_right fun _ => and_congr_right fun hg => and_congr_right fun _ => ?_
  have hp : p ∉ l := fun h => hl p h hg
  have hpptr : (s.given l c y o).pptr p = s.pptr p := if_neg hp
  rw [hpptr]
  rfl

/-- The loop gives all children away. -/
theorem Dying.bequeathAll (hd : Dying s current tasks kids) (env : Env) {fuel : Nat}
    (hfuel : (kids current).length ≤ fuel) :
    ∃ t kids' c y o, bequeathAll env current fuel s = .ok t ∧ Sound t tasks kids' ∧ kids' current = [] ∧
      Woken (s.given (kids current) c y o) t ∧
      (∀ p ∈ kids current, s.state p = .zombie → ∀ r, s.SameGroup (s.opptr p) r → (s.waiting r).isSome = true →
        t.state r ≠ .interruptible) ∧
      (∀ g, g ≠ s.pgrp current → g ≠ 0 → (∃ p ∈ kids current, s.pgrp p = g) →
        (∀ p ∈ kids current, s.pgrp p = g → s.session p = s.session current) →
        (∀ q ∈ tasks, ¬Connects t g none q) →
        ∀ q ∈ tasks, s.pgrp q = g → s.pid q = s.tgid q → t.state q ≠ .stopped) := by
  generalize hl : kids current = l at hfuel ⊢
  induction l generalizing s kids fuel with
  | nil =>
      have hsound := hd.sound hl
      have hc : s.cptr current = none := by
        have hrow := (hsound.woven.tree.family.row_none current).head
        rw [hl] at hrow
        exact hrow
      refine ⟨s, kids, s.cptr, s.ysptr, s.osptr, ?_, hsound, hl, ?_, fun p hp => absurd hp List.not_mem_nil,
        fun g _ _ hex => ?_⟩
      · cases fuel <;> rw [Proc.bequeathAll, hc]
      · have heq : s.given [] s.cptr s.ysptr s.osptr = s := rfl
        rw [heq]
        exact .refl s
      · obtain ⟨p, hp, -⟩ := hex
        cases hp
  | cons p rest ih =>
      obtain ⟨fuel, rfl⟩ := Nat.exists_eq_succ_of_ne_zero (Nat.zero_lt_of_lt hfuel).ne'
      obtain ⟨c, y, o, kids₁, u, hu, hwu, hdu, hk₁, hwake, hhang⟩ := hd.bequeath hl env
      obtain ⟨t, kids₂, c', y', o', ht, hst, hk₂, hwt, hwake', hhang'⟩ := ih hdu hk₁ (Nat.le_of_succ_le_succ hfuel)
      have hwst : Woken (s.given (p :: rest) c' y' o') t := by
        rw [← given_handed c y o]
        exact (hwu.given rest c' y' o').trans hwt
      have hzombie := hwu.zombie_iff
      have hstop : ∀ q x, x ≠ TaskState.running → t.state q = x → u.state q = x := by
        intro q x hx hq
        have hback := hwt.state_eq (p := q) (fun h => hx (hq.symm.trans h))
        exact hback.trans hq
      refine ⟨t, kids₂, c', y', o', ?_, hst, hk₂, hwst, fun q hq hz r hr hwait h => ?_,
        fun g hgc hg hex hsess hnot => ?_⟩
      · obtain ⟨b, -, hrow⟩ := hd.woven.tree.family.row current
        rw [hl] at hrow
        rw [Proc.bequeathAll, hrow.1]
        dsimp only
        rw [hu, ok_bind, ht]
      · have hur := hstop r .interruptible TaskState.noConfusion h
        rcases List.mem_cons.1 hq with rfl | hq
        · exact hwake hz r hr hwait hur
        · obtain ⟨st, sp, ec, rfl, -⟩ := hwu
          exact hwake' q hq ((hzombie q).2 hz) r hr hwait h
      · by_cases hlater : ∃ q ∈ rest, s.pgrp q = g
        · obtain ⟨st, sp, ec, rfl, -⟩ := hwu
          exact hhang' g hgc hg hlater (fun q hq => hsess q (List.mem_cons_of_mem p hq)) hnot
        · -- `p` is the last child of the group: nothing that follows changes how the group is connected.
          have hpg : s.pgrp p = g := by
            obtain ⟨q, hq, hqg⟩ := hex
            rcases List.mem_cons.1 hq with rfl | hq
            · exact hqg
            · exact absurd ⟨q, hq, hqg⟩ hlater
          have hrest : ∀ q ∈ rest, u.pgrp q ≠ g := by
            obtain ⟨st, sp, ec, rfl, -⟩ := hwu
            exact fun q hq hqg => hlater ⟨q, hq, hqg⟩
          subst hpg
          intro q hq hqg hlead h
          refine hhang hgc (hsess p List.mem_cons_self rfl) hg (fun q hq hconn => hnot q hq ?_) q hq hqg hlead
            (hstop q .stopped TaskState.noConfusion h)
          exact hwt.connects.2 ((connects_given hrest).2 hconn)

/-! ### `exit_notify` -/

/-- The caller has lost its signal handlers and has got its exit code. -/
def State.muted (s : State) (current : TaskId) (code : Nat) : State :=
  { s with
    sighand := update s.sighand current false
    sigpending := update s.sigpending current false
    exitCode := update s.exitCode current code }

/-- The caller has become a zombie with the exit signal `sig`. -/
def State.died (s : State) (current : TaskId) (sig : Nat) : State :=
  { s with
    exitSignal := update s.exitSignal current sig
    state := update s.state current .zombie }

/-- All that `exit_notify` changes but for wake-ups. -/
def State.departed (s : State) (current reaper : TaskId) (code sig : Nat) (tasks l : List TaskId)
    (c y o : TaskId → Option TaskId) : State :=
  (((s.muted current code).adopted current reaper tasks).died current sig).given l c y o

theorem Sound.muted (hs : Sound s tasks kids) (hexit : s.exiting current = true) (hrun : s.state current = .running)
    (code : Nat) : Sound (s.muted current code) tasks kids where
  woven := ⟨⟨hs.woven.tree.ring, hs.woven.tree.nodup, hs.woven.tree.family, hs.woven.tree.mem_kids,
    hs.woven.tree.allocated, hs.woven.tree.below⟩, hs.woven.threads⟩
  parent := hs.parent
  creator := hs.creator
  mute p hp hz := by
    have hpc : p ≠ current := by
      rintro rfl
      have hz' : s.state p = .zombie := hz
      rw [hrun] at hz'
      cases hz'
    exact (update_of_ne hpc ..).trans (hs.mute p hp hz)
  leaving p hp h := by
    by_cases hpc : p = current
    · subst hpc
      refine ⟨hexit, fun hst => ?_⟩
      have hst' : s.state p = .stopped := hst
      rw [hrun] at hst'
      cases hst'
    · exact hs.leaving p hp ((update_of_ne hpc ..).symm.trans h)
  gone := hs.gone
  idle := hs.idle
  reaper := hs.reaper
  hashed := hs.hashed
  pid_pos := hs.pid_pos
  numbered := ⟨hs.numbered.last_lt, hs.numbered.safe_le, hs.numbered.early⟩

theorem Woken.died (hw : Woken s t) (current : TaskId) (sig : Nat) :
    Woken (s.died current sig) (t.died current sig) := by
  obtain ⟨st, sp, ec, rfl, hst, hsp, hec⟩ := hw
  refine ⟨update st current .zombie, sp, ec, rfl, fun p => ?_, hsp, hec⟩
  change update st current .zombie p = update s.state current .zombie p ∨ update st current .zombie p = .running ∧
    (update s.state current .zombie p = .interruptible ∨ update s.state current .zombie p = .stopped)
  by_cases hp : p = current
  · subst hp
    rw [Function.update_self, Function.update_self]
    exact .inl rfl
  · rw [update_of_ne hp, update_of_ne hp]
    exact hst p

/-- If `current` is of the group, then so are the parents of its children, and these do not connect the group. -/
theorem Tree.isolated_of_others {g : Nat} (ht : Tree loose s tasks kids) (hpg : s.pgrp current = g)
    (hnot : ∀ q ∈ tasks, q ≠ current → q ∉ kids current → ¬Connects s g none q) :
    ∀ q ∈ tasks, ¬Connects s g (some current) q := by
  rintro q hq ⟨hqc, hqg, hqz, hqi, hqn, hqs⟩
  have hql : q ∉ kids current := by
    intro hql
    rw [((ht.mem_kids q current).1 hql).2] at hqn
    exact hqn hpg
  exact hnot q hq (fun h => hqc (congrArg some h)) hql ⟨Option.some_ne_none q, hqg, hqz, hqi, hqn, hqs⟩

/-- The signal for the parent stays as it is, or becomes `SIGCHLD`. -/
theorem checkExitSignal_eq (env : Env) (current r : TaskId) (s : State) :
    ∃ sig, (sig = s.exitSignal current ∨ sig = SIGCHLD) ∧
      checkExitSignal env current r s = { s with exitSignal := update s.exitSignal current sig } := by
  rw [checkExitSignal]
  split
  · exact ⟨SIGCHLD, .inr rfl, rfl⟩
  · refine ⟨s.exitSignal current, .inl rfl, ?_⟩
    rw [Function.update_eq_self]

/-- What is the same after `exit_notify`, of a task that is neither the caller nor a child of it. -/
theorem connects_departed {g code sig : Nat} {c y o : TaskId → Option TaskId} (hpc : p ≠ current) (hp : p ∉ l) :
    Connects (s.departed current reaper code sig tasks l c y o) g none p ↔ Connects s g none p := by
  have hstate : (s.departed current reaper code sig tasks l c y o).state p = s.state p := update_of_ne hpc ..
  have hpptr : (s.departed current reaper code sig tasks l c y o).pptr p = s.pptr p := if_neg hp
  rw [Connects, hstate, hpptr]
  rfl

/-- What is known of the state after `exit_notify`: the parent of the caller is woken up, and so are the new parents
of zombies, and no leader stays stopped in a process group that has become orphaned. -/
structure Departure (s : State) (tasks l : List TaskId) (current reaper : TaskId) (code : Nat) (t : State) : Prop where
  departed : ∃ c y o sig, (sig = s.exitSignal current ∨ sig = SIGCHLD) ∧
    Woken (s.departed current reaper code sig tasks l c y o) t
  parent : ∀ r, s.SameGroup (s.pptr current) r → (s.waiting r).isSome = true → t.state r ≠ .interruptible
  heirs : ∀ p ∈ l, s.state p = .zombie → ∀ r, s.SameGroup (t.opptr p) r → (s.waiting r).isSome = true →
    t.state r ≠ .interruptible
  orphaned : ∀ g, g ≠ 0 →
    (∀ p ∈ tasks, ∀ q ∈ tasks, s.pgrp p = g → s.pgrp q = g → s.session p = s.session q) →
    (∃ q ∈ tasks, Connects s g none q) → (∀ q ∈ tasks, ¬Connects t g none q) →
    ∀ q ∈ tasks, s.pgrp q = g → s.pid q = s.tgid q → t.state q ≠ .stopped

theorem Sound.exitNotify (hs : Sound s tasks kids) (hc : current ∈ tasks) (hexit : s.exiting current = true)
    (hrun : s.state current = .running) (env : Env) (code : Nat) :
    ∃ others t kids', s.otherThreads current = .ok others ∧ (∀ q ∈ others, s.SameGroup current q ∧ q ≠ current) ∧
      exitNotify env current code s = .ok t ∧ Sound t tasks kids' ∧ kids' current = [] ∧
      Departure s tasks (kids current) current (heir s others) code t := by
  -- The children get their new creator.
  have hm := hs.muted hexit hrun code
  obtain ⟨others, a, hothers, hmem, hforget, hwa⟩ := hm.forgetOriginalParent hc env
  obtain ⟨hheir, hheirne⟩ := hm.heir_alive hc hexit hmem
  obtain ⟨hadopted, hnobody⟩ := hm.adopted hc hexit hheir hheirne
  have hsa := hadopted.woken hwa
  have htreea := hsa.woven.tree
  have hself : s.opptr current ≠ current := (hs.creator current hc).2
  have hsig : (((s.muted current code).adopted current (heir s others) tasks).exitSignal current) =
    s.exitSignal current := if_neg fun h => hself h.2
  -- Case i.
  obtain ⟨b, hb, hwb, hcase⟩ := htreea.hangUpIf (fun q hq => (hsa.parent q hq).1.1) (fun q hq => hsa.handled hq) env
    (a.pgrp current) (some current)
    (a.pgrp (a.pptr current) ≠ a.pgrp current ∧ a.session (a.pptr current) = a.session current)
  have hwab := hwa.trans hwb
  have hsb := hsa.woken hwb
  -- The caller dies.
  obtain ⟨sig, hsigb, hdied⟩ := checkExitSignal_eq env current (a.pptr current) b
  have hsigcase : sig = s.exitSignal current ∨ sig = SIGCHLD := by
    obtain ⟨st, sp, ec, rfl, -⟩ := hwab
    exact hsigb.imp_left fun h => h.trans hsig
  have hbmute : b.sighand current = false := (congrFun hwab.sameKin.sighand current).trans (Function.update_self ..)
  have hbnobody : ∀ p ∈ tasks, b.opptr p ≠ current := by
    rw [hwab.sameKin.opptr]
    exact hnobody
  have hsb' : Sound { b with exitSignal := update b.exitSignal current sig } tasks kids := hsb.congr {}
  have hdying : Dying (b.died current sig) current tasks kids := hsb'.dying hc hbmute hbnobody
  have hwd := hwab.died current sig
  -- Its parent is woken up.
  have hparent : (b.died current sig).pptr current ∈ initTask :: tasks := (hdying.parent current hc).1
  obtain ⟨e, he, hwe, hwake⟩ := hdying.woven.doNotifyParent hparent env
    ((b.died current sig).exitSignal current)
  have hde := hdying.woken hwe
  -- Its children are given away.
  obtain ⟨t, kids', c, y, o, ht, hst, hkids', hwt, hwake', hhang⟩ := hde.bequeathAll env
    (hde.woven.tree.kids_length current)
  have hwbase : Woken (s.departed current (heir s others) code sig tasks (kids current) c y o) t :=
    ((hwd.trans hwe).given (kids current) c y o).trans hwt
  have hrouse : ∀ {x : TaskState} {q : TaskId}, x ≠ .running → t.state q = x → e.state q = x := by
    intro x q hx h
    exact (hwt.state_eq (p := q) fun h' => hx (h.symm.trans h')).trans h
  refine ⟨others, t, kids', ?_, hmem, ?_, hst, hkids', ⟨c, y, o, sig, hsigcase, hwbase⟩, fun r hr hwait h => ?_,
    fun p hp hz r hr hwait h => ?_, fun g hg hsess hex hnot q hq hqg hlead h => ?_⟩
  · have hwalk : (s.muted current code).otherThreads current = s.otherThreads current :=
      walk_congr (s := s) (t := s.muted current code) rfl ..
    exact hwalk.symm.trans hothers
  · have hforget' : Proc.forgetOriginalParent env current { s with
        sighand := update s.sighand current false
        sigpending := update s.sigpending current false
        exitCode := update s.exitCode current code } = .ok a := hforget
    have hend : (do
        let u ← Proc.doNotifyParent env current ((b.died current sig).exitSignal current) (b.died current sig)
        Proc.bequeathAll env current u.top u) = .ok t := by
      rw [he, ok_bind]
      exact ht
    rw [Proc.exitNotify]
    dsimp only
    rw [hforget', ok_bind, deref_eq (htreea.allocated _ (hsa.parent current hc).1.1), ok_bind]
    by_cases hcond : a.pgrp (a.pptr current) ≠ a.pgrp current ∧ a.session (a.pptr current) = a.session current
    · rw [if_pos hcond] at hb ⊢
      rw [hb, ok_bind, hdied]
      exact hend
    · rw [if_neg hcond] at hb ⊢
      obtain rfl : a = b := Except.ok.inj hb
      rw [ok_bind, hdied]
      exact hend
  · have hgroup : (b.died current sig).SameGroup ((b.died current sig).pptr current) r ∧
        ((b.died current sig).waiting r).isSome = true := by
      obtain ⟨st, sp, ec, rfl, -⟩ := hwab
      exact ⟨hr, hwait⟩
    exact hwake r hgroup.1 hgroup.2 (hrouse TaskState.noConfusion h)
  · have hpc : p ≠ current := fun h => (hs.parent p ((hs.woven.tree.mem_kids p current).1 hp).1).2
      (h ▸ ((hs.woven.tree.mem_kids p current).1 hp).2)
    have hze : e.state p = .zombie := (hwe.zombie_iff p).2 (((hwd.zombie_iff p).2 ((update_of_ne hpc ..).trans hz)))
    have hgroup : e.SameGroup (e.opptr p) r ∧ (e.waiting r).isSome = true := by
      have hopptr : t.opptr p = e.opptr p := by
        obtain ⟨st, sp, ec, rfl, -⟩ := hwt
        rfl
      rw [← hopptr]
      obtain ⟨st, sp, ec, rfl, -⟩ := hwd.trans hwe
      exact ⟨hr, hwait⟩
    exact hwake' p hp hze r hgroup.1 hgroup.2 h
  · -- A task that connected the group before, and does not do so any more.
    obtain ⟨p, hp, hconn⟩ := hex
    have houtside : ∀ r ∈ tasks, r ≠ current → r ∉ kids current → ¬Connects s g none r := fun r hr hrc hrl hr' =>
      hnot r hr (hwbase.connects.2 ((connects_departed hrc hrl).2 hr'))
    by_cases hpl : p ∈ kids current
    · -- Case ii: a child of the caller, in another group.
      have hkin := (hwd.trans hwe).sameKin
      obtain ⟨-, hpg, -, -, hne, hses⟩ := hconn
      rw [((hs.woven.tree.mem_kids p current).1 hpl).2] at hne hses
      refine hhang g ?_ hg ⟨p, hpl, ?_⟩ (fun r hr hrg => ?_) hnot q hq ?_ ?_ h
      · rw [hkin.pgrp]
        exact hne.symm
      · rw [hkin.pgrp]
        exact hpg
      · rw [hkin.pgrp] at hrg
        rw [hkin.session]
        exact (hsess r ((hs.woven.tree.mem_kids r current).1 hr).1 p hp hrg hpg).trans hses.symm
      · rw [hkin.pgrp]
        exact hqg
      · rw [hkin.pid, hkin.tgid]
        exact hlead
    · by_cases hpc : p = current
      · -- Case i: the caller itself.
        subst hpc
        have hkin := hwa.sameKin
        obtain ⟨-, rfl, -, -, hne, hses⟩ := hconn
        have hnone : ∀ r ∈ tasks, ¬Connects a (a.pgrp p) (some p) r := by
          intro r hr hr'
          rw [hkin.pgrp] at hr'
          exact hs.woven.tree.isolated_of_others rfl houtside r hr (hwa.connects.1 hr')
        have hqb : b.state q ≠ .stopped := by
          refine hcase ⟨?_, ?_⟩ hnone ?_ q hq ?_ ?_
          · rw [hkin.pgrp, hkin.pptr]
            exact hne
          · rw [hkin.session, hkin.pptr]
            exact hses
          · rw [hkin.pgrp]
            exact hg
          · rw [hkin.pgrp]
            exact hqg
          · rw [hkin.pid, hkin.tgid]
            exact hlead
        have hqd : (b.died p sig).state q = .stopped := hwe.stopped (hrouse TaskState.noConfusion h)
        have hqp : q ≠ p := by
          rintro rfl
          have hz : (b.died q sig).state q = .zombie := Function.update_self ..
          rw [hz] at hqd
          cases hqd
        exact hqb ((update_of_ne hqp ..).symm.trans hqd)
      · exact houtside p hp hpc hpl hconn

end MagicKernel.Proc
