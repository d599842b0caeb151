import MagicKernel.ProcPids
import MagicKernel.ProcSignals

/-! The invariant of the process machine: the links are woven, every parent is a task that is no zombie, the
table of process numbers has the tasks and nothing else, and `init` is there. -/

namespace MagicKernel.Proc

open FaultMachine PointerLists
open Function (update update_of_ne)
open Sched (TaskState)

variable {env : Env} {s t u : State} {p q r current : TaskId} {tasks : List TaskId} {kids : TaskId → List TaskId}

/-- A task that children may be given to. -/
def Alive (s : State) (tasks : List TaskId) (q : TaskId) : Prop := q ∈ initTask :: tasks ∧ s.state q ≠ .zombie

structure Sound (s : State) (tasks : List TaskId) (kids : TaskId → List TaskId) : Prop where
  woven : Woven none s tasks kids
  parent : ∀ p ∈ tasks, Alive s tasks (s.pptr p) ∧ s.pptr p ≠ p
  creator : ∀ p ∈ tasks, Alive s tasks (s.opptr p) ∧ s.opptr p ≠ p
  mute : ∀ p ∈ tasks, s.state p = .zombie → s.sighand p = false
  leaving : ∀ p ∈ tasks, s.sighand p = false → s.exiting p = true ∧ s.state p ≠ .stopped
  gone : ∀ p ∈ tasks, s.exiting p = true → s.mm p = false
  idle : s.state initTask ≠ .zombie
  reaper : s.childReaper ∈ tasks ∧ s.exiting s.childReaper = false ∧ s.pid s.childReaper = 1 ∧
    s.opptr s.childReaper = initTask
  hashed : ∀ k p, p ∈ s.pidhash k ↔ p ∈ tasks ∧ pidHashfn (s.pid p) = k
  pid_pos : ∀ p ∈ tasks, 0 < s.pid p
  numbered : Numbered s tasks

theorem Sound.dead (hs : Sound s tasks kids) (p : TaskId) (hp : p ∈ tasks) (hz : s.state p = .zombie) :
    s.exiting p = true :=
  (hs.leaving p hp (hs.mute p hp hz)).1

theorem Sound.handled (hs : Sound s tasks kids) (hp : p ∈ tasks) : s.Handled p := by
  intro hst
  by_contra hsig
  exact (hs.leaving p hp (Bool.eq_false_iff.2 hsig)).2 hst

/-- A task that is not exiting has signal handlers. -/
theorem Sound.sighand_of_stay (hs : Sound s tasks kids) (hp : p ∈ tasks) (hstay : s.exiting p = false) :
    s.sighand p = true := by
  by_contra hsig
  rw [(hs.leaving p hp (Bool.eq_false_iff.2 hsig)).1] at hstay
  cases hstay

theorem Sound.not_zombie_of_stay (hs : Sound s tasks kids) (hp : p ∈ tasks) (hstay : s.exiting p = false) :
    s.state p ≠ .zombie := by
  intro hz
  rw [hs.dead p hp hz] at hstay
  cases hstay

theorem Sound.tasks_eq {tasks' : List TaskId} {kids' : TaskId → List TaskId} (hs : Sound s tasks kids)
    (hs' : Sound s tasks' kids') : tasks' = tasks :=
  Except.ok.inj (hs'.woven.tree.forEachTask.symm.trans hs.woven.tree.forEachTask)

/-! ### What the invariant does not look at -/

/-- The fields the invariant looks at are the same, and the zombies. -/
structure SameKin (s t : State) : Prop where
  lastPid : t.lastPid = s.lastPid := by rfl
  nextSafe : t.nextSafe = s.nextSafe := by rfl
  childReaper : t.childReaper = s.childReaper := by rfl
  allocated : t.allocated = s.allocated := by rfl
  top : t.top = s.top := by rfl
  zombie : ∀ p, t.state p = .zombie ↔ s.state p = .zombie := by exact fun _ => Iff.rfl
  stopped : ∀ p, t.state p = .stopped → s.state p = .stopped ∨ s.sighand p = true := by exact fun _ h => .inl h
  sighand : t.sighand = s.sighand := by rfl
  mm : ∀ p, t.mm p = true → s.mm p = true ∨ s.exiting p = false := by exact fun _ h => .inl h
  exiting : t.exiting = s.exiting := by rfl
  nextTask : t.nextTask = s.nextTask := by rfl
  prevTask : t.prevTask = s.prevTask := by rfl
  pid : t.pid = s.pid := by rfl
  pgrp : t.pgrp = s.pgrp := by rfl
  session : t.session = s.session := by rfl
  tgid : t.tgid = s.tgid := by rfl
  opptr : t.opptr = s.opptr := by rfl
  pptr : t.pptr = s.pptr := by rfl
  cptr : t.cptr = s.cptr := by rfl
  ysptr : t.ysptr = s.ysptr := by rfl
  osptr : t.osptr = s.osptr := by rfl
  threadNext : t.threadNext = s.threadNext := by rfl
  threadPrev : t.threadPrev = s.threadPrev := by rfl
  pidhash : t.pidhash = s.pidhash := by rfl

theorem Woken.sameKin (hw : Woken s t) : SameKin s t := by
  have hzombie := hw.zombie_iff
  have hstopped := fun p => hw.stopped (p := p)
  obtain ⟨st, sp, ec, rfl, -⟩ := hw
  exact { zombie := hzombie, stopped := fun p h => .inl (hstopped p h) }

theorem Alive.congr (hk : SameKin s t) (ha : Alive s tasks q) : Alive t tasks q :=
  ⟨ha.1, fun h => ha.2 ((hk.zombie q).1 h)⟩

theorem used_congr {i : Nat} (hpid : t.pid = s.pid) (hpgrp : t.pgrp = s.pgrp) (htgid : t.tgid = s.tgid)
    (hsession : t.session = s.session) : Used t tasks i ↔ Used s tasks i := by
  simp only [Used, State.ids, hpid, hpgrp, htgid, hsession]

theorem Sound.congr (hs : Sound s tasks kids) (hk : SameKin s t) : Sound t tasks kids where
  woven := by
    have ht := hs.woven.tree
    refine ⟨⟨?_, ht.nodup, ?_, ?_, ?_, ?_⟩, ?_⟩
    · rw [hk.nextTask, hk.prevTask]
      exact ht.ring
    · rw [hk.cptr, hk.ysptr, hk.osptr]
      exact ht.family
    · rw [hk.pptr]
      exact ht.mem_kids
    · rw [hk.allocated]
      exact ht.allocated
    · rw [hk.allocated, hk.top]
      exact ht.below
    · rw [hk.threadNext, hk.threadPrev]
      exact hs.woven.threads
  parent p hp := by
    rw [hk.pptr]
    exact ⟨(hs.parent p hp).1.congr hk, (hs.parent p hp).2⟩
  creator p hp := by
    rw [hk.opptr]
    exact ⟨(hs.creator p hp).1.congr hk, (hs.creator p hp).2⟩
  mute p hp h := by
    rw [hk.sighand]
    exact hs.mute p hp ((hk.zombie p).1 h)
  leaving p hp h := by
    rw [hk.sighand] at h
    obtain ⟨hexit, hst⟩ := hs.leaving p hp h
    rw [hk.exiting]
    refine ⟨hexit, fun hstopped => (hk.stopped p hstopped).elim hst fun hsig => ?_⟩
    rw [hsig] at h
    cases h
  gone p hp h := by
    rw [hk.exiting] at h
    by_contra hmm
    rcases hk.mm p (Bool.not_eq_false _ ▸ hmm) with hold | hstay
    · rw [hs.gone p hp h] at hold
      cases hold
    · rw [h] at hstay
      cases hstay
  idle h := hs.idle ((hk.zombie _).1 h)
  reaper := by
    rw [hk.childReaper, hk.exiting, hk.pid, hk.opptr]
    exact hs.reaper
  hashed := by
    rw [hk.pidhash, hk.pid]
    exact hs.hashed
  pid_pos := by
    rw [hk.pid]
    exact hs.pid_pos
  numbered := by
    obtain ⟨hlt, hle, hearly⟩ := hs.numbered
    refine ⟨hk.lastPid ▸ hlt, hk.nextSafe ▸ hle, ?_⟩
    rw [hk.lastPid]
    exact hearly.imp_right fun h i hi => h i ((used_congr hk.pid hk.pgrp hk.tgid hk.session).1 hi)

theorem Sound.woken (hs : Sound s tasks kids) (hw : Woken s t) : Sound t tasks kids := hs.congr hw.sameKin

/-- A task that is no zombie may come into any other state. -/
theorem Sound.setState {x : TaskState} (hs : Sound s tasks kids) (hnz : s.state p ≠ .zombie) (hx : x ≠ .zombie)
    (hstop : x = .stopped → s.sighand p = true) : Sound { s with state := update s.state p x } tasks kids := by
  refine hs.congr { zombie := fun q => ?_, stopped := fun q h => ?_ }
  · by_cases hqp : q = p
    · subst hqp
      simp only [Function.update_self, hnz, hx]
    · simp only [update_of_ne hqp]
  · by_cases hqp : q = p
    · subst hqp
      exact .inr (hstop ((Function.update_self ..).symm.trans h))
    · exact .inl ((update_of_ne hqp ..).symm.trans h)

theorem Sound.mem_iff (hs : Sound s tasks kids) (p : TaskId) : s.Hashed p ↔ p ∈ tasks :=
  (hs.hashed _ p).trans (and_iff_left rfl)

theorem Sound.mem_cons (_ : Sound s tasks kids) (hp : p ∈ tasks) : p ∈ initTask :: tasks := List.mem_cons_of_mem _ hp

theorem Sound.allocated (hs : Sound s tasks kids) (hp : p ∈ tasks) : s.allocated p = true :=
  hs.woven.tree.allocated_of_mem hp

/-- What `find_task_by_pid` finds is a task with that number. -/
theorem Sound.find_mem (hs : Sound s tasks kids) {pid : Int} (h : findTaskByPid s pid = some p) :
    p ∈ tasks ∧ (s.pid p : Int) = pid := by
  rw [findTaskByPid] at h
  have heq := List.find?_some h
  exact ⟨((hs.hashed _ p).1 (List.mem_of_find?_eq_some h)).1, of_decide_eq_true heq⟩

/-- A record that is no task may change its fields. -/
structure SameOff (p : TaskId) (s t : State) : Prop where
  lastPid : t.lastPid = s.lastPid := by rfl
  nextSafe : t.nextSafe = s.nextSafe := by rfl
  childReaper : t.childReaper = s.childReaper := by rfl
  pidhash : t.pidhash = s.pidhash := by rfl
  below : ∀ q, t.allocated q = true → q < t.top
  cptr_self : t.cptr p = none
  allocated : ∀ q, q ≠ p → t.allocated q = s.allocated q := by
    first | exact fun _ _ => rfl | exact fun _ h => Function.update_of_ne h _ _
  state : ∀ q, q ≠ p → t.state q = s.state q := by
    first | exact fun _ _ => rfl | exact fun _ h => Function.update_of_ne h _ _
  exiting : ∀ q, q ≠ p → t.exiting q = s.exiting q := by
    first | exact fun _ _ => rfl | exact fun _ h => Function.update_of_ne h _ _
  sighand : ∀ q, q ≠ p → t.sighand q = s.sighand q := by
    first | exact fun _ _ => rfl | exact fun _ h => Function.update_of_ne h _ _
  mm : ∀ q, q ≠ p → t.mm q = s.mm q := by
    first | exact fun _ _ => rfl | exact fun _ h => Function.update_of_ne h _ _
  nextTask : ∀ q, q ≠ p → t.nextTask q = s.nextTask q := by
    first | exact fun _ _ => rfl | exact fun _ h => Function.update_of_ne h _ _
  prevTask : ∀ q, q ≠ p → t.prevTask q = s.prevTask q := by
    first | exact fun _ _ => rfl | exact fun _ h => Function.update_of_ne h _ _
  pid : ∀ q, q ≠ p → t.pid q = s.pid q := by
    first | exact fun _ _ => rfl | exact fun _ h => Function.update_of_ne h _ _
  pgrp : ∀ q, q ≠ p → t.pgrp q = s.pgrp q := by
    first | exact fun _ _ => rfl | exact fun _ h => Function.update_of_ne h _ _
  session : ∀ q, q ≠ p → t.session q = s.session q := by
    first | exact fun _ _ => rfl | exact fun _ h => Function.update_of_ne h _ _
  tgid : ∀ q, q ≠ p → t.tgid q = s.tgid q := by
    first | exact fun _ _ => rfl | exact fun _ h => Function.update_of_ne h _ _
  opptr : ∀ q, q ≠ p → t.opptr q = s.opptr q := by
    first | exact fun _ _ => rfl | exact fun _ h => Function.update_of_ne h _ _
  pptr : ∀ q, q ≠ p → t.pptr q = s.pptr q := by
    first | exact fun _ _ => rfl | exact fun _ h => Function.update_of_ne h _ _
  cptr : ∀ q, q ≠ p → t.cptr q = s.cptr q := by
    first | exact fun _ _ => rfl | exact fun _ h => Function.update_of_ne h _ _
  ysptr : ∀ q, q ≠ p → t.ysptr q = s.ysptr q := by
    first | exact fun _ _ => rfl | exact fun _ h => Function.update_of_ne h _ _
  osptr : ∀ q, q ≠ p → t.osptr q = s.osptr q := by
    first | exact fun _ _ => rfl | exact fun _ h => Function.update_of_ne h _ _
  threadNext : ∀ q, q ≠ p → t.threadNext q = s.threadNext q := by
    first | exact fun _ _ => rfl | exact fun _ h => Function.update_of_ne h _ _
  threadPrev : ∀ q, q ≠ p → t.threadPrev q = s.threadPrev q := by
    first | exact fun _ _ => rfl | exact fun _ h => Function.update_of_ne h _ _

theorem SameOff.used (ho : SameOff p s t) (hp : p ∉ tasks) {i : Nat} : Used t tasks i ↔ Used s tasks i := by
  refine exists_congr fun q => and_congr_right fun hq => ?_
  have hqp : q ≠ p := fun h => hp (h ▸ hq)
  simp only [State.ids, ho.pid q hqp, ho.pgrp q hqp, ho.tgid q hqp, ho.session q hqp]

theorem Woven.off (hw : Woven none s tasks kids) (ho : SameOff p s t) (hp : p ∉ initTask :: tasks)
    (hkids : kids p = []) : Woven none t tasks kids := by
  have hne : ∀ q ∈ initTask :: tasks, q ≠ p := fun q hq h => hp (h ▸ hq)
  have hnet : ∀ q ∈ tasks, q ≠ p := fun q hq => hne q (List.mem_cons_of_mem _ hq)
  have htree := hw.tree
  have hkid : ∀ a q, a ∈ kids q → a ≠ p := fun a q ha => hnet a ((htree.mem_kids a q).1 ha).1
  refine ⟨⟨?_, htree.nodup, ?_, fun a q => ?_, fun a ha => ?_, ho.below⟩, ?_⟩
  · exact htree.ring.congr (fun a ha => ho.nextTask a (hne a ha)) fun a ha => ho.prevTask a (hne a ha)
  · have hfamily : Family none s.cptr t.ysptr t.osptr kids :=
      htree.family.congr (fun a q ha => ho.ysptr a (hkid a q ha)) fun a q ha => ho.osptr a (hkid a q ha)
    refine ⟨fun q => ⟨none, fun _ => rfl, ?_⟩, hfamily.nodup, hfamily.unique⟩
    by_cases hqp : q = p
    · subst hqp
      rw [hkids]
      exact ho.cptr_self
    · rw [ho.cptr q hqp]
      exact hfamily.row_none q
  · rw [htree.mem_kids]
    exact and_congr_right fun ha => by rw [ho.pptr a (hnet a ha)]
  · rw [ho.allocated a (hne a ha)]
    exact htree.allocated a ha
  · exact hw.threads.congr (fun a ha => ho.threadNext a (hne a ha)) fun a ha => ho.threadPrev a (hne a ha)

theorem Sound.kids_off (hs : Sound s tasks kids) (hp : p ∉ initTask :: tasks) : kids p = [] := by
  rw [List.eq_nil_iff_forall_not_mem]
  intro a ha
  obtain ⟨hat, rfl⟩ := (hs.woven.tree.mem_kids a p).1 ha
  exact hp (hs.parent a hat).1.1

theorem Sound.off (hs : Sound s tasks kids) (ho : SameOff p s t) (hp : p ∉ initTask :: tasks) : Sound t tasks kids := by
  have hne : ∀ q ∈ initTask :: tasks, q ≠ p := fun q hq h => hp (h ▸ hq)
  have hnet : ∀ q ∈ tasks, q ≠ p := fun q hq => hne q (hs.mem_cons hq)
  have hptasks : p ∉ tasks := fun h => hp (hs.mem_cons h)
  have halive : ∀ q, Alive s tasks q → Alive t tasks q := fun q hq =>
    ⟨hq.1, by rw [ho.state q (hne q hq.1)]; exact hq.2⟩
  refine ⟨hs.woven.off ho hp (hs.kids_off hp), fun a ha => ?_, fun a ha => ?_, fun a ha => ?_, fun a ha => ?_,
    fun a ha => ?_, ?_, ?_, fun k a => ?_, fun a ha => ?_, ?_⟩
  · rw [ho.pptr a (hnet a ha)]
    exact ⟨halive _ (hs.parent a ha).1, (hs.parent a ha).2⟩
  · rw [ho.opptr a (hnet a ha)]
    exact ⟨halive _ (hs.creator a ha).1, (hs.creator a ha).2⟩
  · rw [ho.state a (hnet a ha), ho.sighand a (hnet a ha)]
    exact hs.mute a ha
  · rw [ho.state a (hnet a ha), ho.sighand a (hnet a ha), ho.exiting a (hnet a ha)]
    exact hs.leaving a ha
  · rw [ho.exiting a (hnet a ha), ho.mm a (hnet a ha)]
    exact hs.gone a ha
  · rw [ho.state _ (hne _ List.mem_cons_self)]
    exact hs.idle
  · have hreaper := hnet _ hs.reaper.1
    rw [ho.childReaper, ho.exiting _ hreaper, ho.pid _ hreaper, ho.opptr _ hreaper]
    exact hs.reaper
  · rw [ho.pidhash, hs.hashed]
    exact and_congr_right fun ha => by rw [ho.pid a (hnet a ha)]
  · rw [ho.pid a (hnet a ha)]
    exact hs.pid_pos a ha
  · obtain ⟨hlt, hle, hearly⟩ := hs.numbered
    refine ⟨ho.lastPid ▸ hlt, ho.nextSafe ▸ hle, ?_⟩
    rw [ho.lastPid]
    exact hearly.imp_right fun h i hi => h i ((ho.used hptasks).1 hi)

/-! ### A new parent -/

/-- The task `p` with the parent `q`, and the links that come with it. -/
def State.moved (s : State) (p q : TaskId) (n pr : TaskId → TaskId) (c y o : TaskId → Option TaskId) : State :=
  { s with pptr := update s.pptr p q }.relink n pr c y o

theorem moved_perm (hp : p ∈ tasks) : (tasks.erase p ++ [p]).Perm tasks :=
  List.perm_append_singleton p (tasks.erase p) |>.trans (List.perm_cons_erase hp).symm

theorem Sound.moved {n pr : TaskId → TaskId} {c y o : TaskId → Option TaskId} {kids' : TaskId → List TaskId}
    (hs : Sound s tasks kids) (hp : p ∈ tasks) (hq : Alive s tasks q) (hqp : q ≠ p)
    (htree : Tree none (s.moved p q n pr c y o) (tasks.erase p ++ [p]) kids') :
    Sound (s.moved p q n pr c y o) (tasks.erase p ++ [p]) kids' := by
  have hperm := moved_perm hp
  have hmem : ∀ r, r ∈ tasks.erase p ++ [p] ↔ r ∈ tasks := fun r => hperm.mem_iff
  have hmemall : ∀ r, r ∈ initTask :: (tasks.erase p ++ [p]) ↔ r ∈ initTask :: tasks := fun r =>
    (hperm.cons initTask).mem_iff
  have halive : ∀ r, Alive s tasks r → Alive (s.moved p q n pr c y o) (tasks.erase p ++ [p]) r := fun r hr =>
    ⟨(hmemall r).2 hr.1, hr.2⟩
  refine ⟨⟨htree, ?_⟩, fun r hr => ?_, fun r hr => ?_, fun r hr => hs.mute r ((hmem r).1 hr),
    fun r hr => hs.leaving r ((hmem r).1 hr), fun r hr => hs.gone r ((hmem r).1 hr), hs.idle, ?_, fun k r => ?_,
    fun r hr => hs.pid_pos r ((hmem r).1 hr), ?_⟩
  · have hset : (fun r => r ∈ initTask :: (tasks.erase p ++ [p])) = fun r => r ∈ initTask :: tasks :=
      funext fun r => propext (hmemall r)
    rw [hset]
    exact hs.woven.threads
  · have hpptr : (s.moved p q n pr c y o).pptr = update s.pptr p q := rfl
    rw [hpptr]
    by_cases hrp : r = p
    · rw [hrp, Function.update_self]
      exact ⟨halive q hq, hqp⟩
    · rw [update_of_ne hrp]
      exact ⟨halive _ (hs.parent r ((hmem r).1 hr)).1, (hs.parent r ((hmem r).1 hr)).2⟩
  · exact ⟨halive _ (hs.creator r ((hmem r).1 hr)).1, (hs.creator r ((hmem r).1 hr)).2⟩
  · exact ⟨(hmem _).2 hs.reaper.1, hs.reaper.2⟩
  · rw [hmem]
    exact hs.hashed k r
  · obtain ⟨hlt, hle, hearly⟩ := hs.numbered
    refine ⟨hlt, hle, hearly.imp_right fun h i hi => h i ?_⟩
    obtain ⟨r, hr, hi⟩ := hi
    exact ⟨r, (hmem r).1 hr, hi⟩

theorem Sound.reparented (hs : Sound s tasks kids) (hp : p ∈ tasks) (hq : Alive s tasks q) (hqp : q ≠ p) :
    ∃ n pr c y o kids', reparent p q s = .ok (s.moved p q n pr c y o) ∧
      Sound (s.moved p q n pr c y o) (tasks.erase p ++ [p]) kids' := by
  obtain ⟨n₀, pr₀, c₀, y₀, o₀, n, pr, c, y, o, kids', hremove, hset, htree⟩ :=
    hs.woven.tree.relinked hp (hs.parent p hp).1.1 hq.1 hqp s.opptr
  refine ⟨n, pr, c, y, o, kids', ?_, hs.moved hp hq hqp htree⟩
  rw [reparent, hremove, ok_bind]
  exact hset

end MagicKernel.Proc
