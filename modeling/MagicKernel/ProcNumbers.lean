import MagicKernel.ProcRuns

/-! The numbers of processes over whole runs: process numbers are fresh when they are given out and never shared,
and process groups do not reach beyond a session. -/

namespace MagicKernel.Proc

open FaultMachine PointerLists
open Function (update update_of_ne)
open Sched (TaskState)

variable {env : Env} {s t u : State} {p q r current reaper : TaskId} {tasks tasks' l : List TaskId}
  {kids : TaskId → List TaskId} {e : Event} {code : Nat} {args : WaitArgs} {v : Option Report}

/-! ### What the effects do to the numbers -/

theorem Woken.sameIds (hw : Woken s t) : SameIds s t tasks tasks := by
  obtain ⟨st, sp, ec, rfl, -⟩ := hw
  exact { perm := .refl _ }

theorem Departure.sameIds (hd : Departure s tasks l current reaper code t) : SameIds s t tasks tasks := by
  obtain ⟨c, y, o, sig, -, hw⟩ := hd.departed
  have hbase : SameIds s (s.departed current reaper code sig tasks l c y o) tasks tasks := { perm := .refl _ }
  exact hbase.trans hw.sameIds

/-- Some tasks have gone, and no number is new. -/
structure Fewer (s t : State) (tasks tasks' : List TaskId) : Prop where
  sub : ∀ p ∈ tasks', p ∈ tasks
  used : ∀ i, Used t tasks' i → Used s tasks i
  pid : ∀ p ∈ tasks', t.pid p = s.pid p
  lastPid : t.lastPid = s.lastPid := by rfl
  nextSafe : t.nextSafe = s.nextSafe := by rfl
  count : t.nrThreads - tasks'.length = s.nrThreads - tasks.length
  fall : t.nrThreads ≤ s.nrThreads
  maxThreads : t.maxThreads = s.maxThreads := by rfl

theorem SameIds.fewer (h : SameIds s t tasks tasks') : Fewer s t tasks tasks' where
  sub p hp := h.perm.mem_iff.1 hp
  used i hi := by
    obtain ⟨p, hp, hi⟩ := hi
    have hp' := h.perm.mem_iff.1 hp
    refine ⟨p, hp', ?_⟩
    simp only [State.ids, h.pid p hp', h.pgrp p hp', h.session p hp', List.mem_cons, List.not_mem_nil, or_false] at hi ⊢
    rcases h.tgid p hp' with htgid | htgid
    · rwa [htgid] at hi
    · rw [htgid] at hi
      tauto
  pid p hp := h.pid p (h.perm.mem_iff.1 hp)
  lastPid := h.lastPid
  nextSafe := h.nextSafe
  count := by rw [h.nrThreads, h.perm.length_eq]
  fall := h.nrThreads.le
  maxThreads := h.maxThreads

theorem Fewer.trans {tasks'' : List TaskId} (h : Fewer s t tasks tasks') (h' : Fewer t u tasks' tasks'') :
    Fewer s u tasks tasks'' where
  sub p hp := h.sub p (h'.sub p hp)
  used i hi := h.used i (h'.used i hi)
  pid p hp := (h'.pid p hp).trans (h.pid p (h'.sub p hp))
  lastPid := h'.lastPid.trans h.lastPid
  nextSafe := h'.nextSafe.trans h.nextSafe
  count := h'.count.trans h.count
  fall := h'.fall.trans h.fall
  maxThreads := h'.maxThreads.trans h.maxThreads

theorem sameIds_awake (s : State) (current : TaskId) (tasks : List TaskId) : SameIds s (s.awake current) tasks tasks :=
  { perm := .refl _ }

/-- The end of a `sys_wait4`, by what it does to the numbers. -/
theorem WaitEnd.ids (hend : WaitEnd env s tasks current args v t tasks') : SameIds s t tasks tasks' ∨
    ∃ p n pr c y o, p ∈ tasks ∧ tasks' = tasks.erase p ∧ t = (s.released p n pr c y o).awake current := by
  cases hend with
  | kept hr => exact .inl (sameIds_awake s current tasks)
  | stopped hp hready hcopied hst => exact .inl { perm := .refl _ }
  | @handed p n pr c y o u _ hp hcopied hz hne hw hsound hwake =>
      have hmoved : SameIds s ((s.dozing current).moved p (s.opptr p) n pr c y o) tasks (tasks.erase p ++ [p]) :=
        { perm := moved_perm hp.1 }
      exact .inl (hmoved.trans (hw.sameIds.trans (sameIds_awake _ current _)))
  | released hp hcopied hz heq hsound => exact .inr ⟨_, _, _, _, _, _, hp.1, rfl, rfl⟩
  | asleep hp hnone hhang hpending => exact .inl { perm := .refl _ }

theorem WaitEnd.fewer (hend : WaitEnd env s tasks current args v t tasks') (hnodup : tasks.Nodup) :
    Fewer s t tasks tasks' := by
  rcases hend.ids with h | ⟨p, n, pr, c, y, o, hp, rfl, rfl⟩
  · exact h.fewer
  · have hne : ∀ q ∈ tasks.erase p, q ∈ tasks ∧ q ≠ p := fun q hq => (hnodup.mem_erase_iff.1 hq).symm
    have hlength := List.length_erase_add_one hp
    refine {
      sub := fun q hq => (hne q hq).1
      used := fun i hi => ?_
      pid := fun q hq => update_of_ne (hne q hq).2 ..
      count := ?_
      fall := ?_ }
    · obtain ⟨q, hq, hi⟩ := hi
      refine ⟨q, (hne q hq).1, ?_⟩
      simpa only [State.ids, State.awake, State.released, update_of_ne (hne q hq).2] using hi
    · change s.nrThreads - 1 - ((tasks.erase p).length : Int) = s.nrThreads - tasks.length
      omega
    · change s.nrThreads - 1 ≤ s.nrThreads
      omega

/-! ### Process numbers -/

/-- The counters are right, and no two tasks have the same number. -/
structure Numbers (s : State) (tasks : List TaskId) : Prop where
  gap : Gap s tasks
  count : s.nrThreads = tasks.length
  room : s.nrThreads ≤ s.maxThreads
  unique : ∀ p ∈ tasks, ∀ q ∈ tasks, s.pid p = s.pid q → p = q

theorem Numbers.fewer (hn : Numbers s tasks) (h : Fewer s t tasks tasks') : Numbers t tasks' where
  gap i hi hlast := by
    rw [h.nextSafe]
    rw [h.lastPid] at hlast
    exact hn.gap i (h.used i hi) hlast
  count := by
    have hcount := h.count
    have hold := hn.count
    omega
  room := h.fall.trans (hn.room.trans_eq h.maxThreads.symm)
  unique p hp q hq heq := by
    rw [h.pid p hp, h.pid q hq] at heq
    exact hn.unique p (h.sub p hp) q (h.sub q hq) heq

/-- There are more numbers than the limit on tasks can use up. -/
def Roomy (s : State) : Prop := 4 * s.maxThreads + 301 < pidMax

theorem Numbers.free (hn : Numbers s tasks) (hroomy : Roomy s) : Free s tasks := by
  refine free_of_length ?_
  have hcount := hn.count
  have hroom := hn.room
  have hbound : 4 * s.maxThreads + 301 < (pidMax : Int) := hroomy
  omega

theorem Numbers.numbered {last safe : Nat} (hn : Numbers s tasks) (hc : Counted s tasks last safe) (hroomy : Roomy s) :
    Numbers (s.numbered last safe) tasks :=
  ⟨hc.gap hn.gap (hn.free hroomy), hn.count, hn.room, hn.unique⟩

theorem Numbers.forked {flags : UInt32} {last : Nat} {n pr : TaskId → TaskId} {c y o : TaskId → Option TaskId}
    {tn tp : TaskId → TaskId} (hn : Numbers s tasks) (hc : current ∈ tasks) (hp : p ∉ tasks) (hlast : s.lastPid = last)
    (hfresh : ¬Used s tasks last) (hroom : s.nrThreads < s.maxThreads) :
    Numbers (s.forked env current p flags last n pr c y o tn tp) (tasks ++ [p]) where
  gap i hi hlt := by
    rcases used_forked hc hp hi with hi | rfl
    · exact hn.gap i hi hlt
    · exact absurd (hlast ▸ hlt) (Nat.lt_irrefl _)
  count := by
    have hcount := hn.count
    change s.nrThreads + 1 = ((tasks ++ [p]).length : Int)
    rw [List.length_append, List.length_singleton]
    omega
  room := hroom
  unique q hq r hr heq := by
    have hne : ∀ q ∈ tasks, q ≠ p := fun q hq h => hp (h ▸ hq)
    have hnew : (s.forked env current p flags last n pr c y o tn tp).pid p = last := Function.update_self ..
    have hold : ∀ q ∈ tasks, (s.forked env current p flags last n pr c y o tn tp).pid q = s.pid q := fun q hq =>
      update_of_ne (hne q hq) ..
    have hother : ∀ q ∈ tasks, s.pid q ≠ last := by
      rintro q hq rfl
      exact hfresh ⟨q, hq, by simp [State.ids]⟩
    rw [List.mem_append, List.mem_singleton] at hq hr
    rcases hq with hq | rfl <;> rcases hr with hr | rfl
    · rw [hold q hq, hold r hr] at heq
      exact hn.unique q hq r hr heq
    · rw [hold q hq, hnew] at heq
      exact absurd heq (hother q hq)
    · rw [hold r hr, hnew] at heq
      exact absurd heq.symm (hother r hr)
    · rfl

theorem Regrouped.fewer (h : Regrouped s tasks current p t) : Fewer s t tasks tasks := by
  have hused := fun n => h.used (i := n)
  obtain ⟨-, -, -, -⟩ := h
  exact { sub := fun _ => id, used := hused, pid := fun _ _ => rfl, count := rfl, fall := le_rfl }

theorem fewer_sessioned : Fewer s (s.sessioned current) tasks tasks :=
  { sub := fun _ => id, used := fun _ => used_sessioned, pid := fun _ _ => rfl, count := rfl, fall := le_rfl }

theorem Sound.fewer_daemonized (hs : Sound s tasks kids) : Fewer s (Proc.daemonize current s) tasks tasks :=
  { sub := fun _ => id, used := fun _ => hs.used_daemonized, pid := fun _ _ => rfl, count := rfl, fall := le_rfl }

theorem Effect.maxThreads (he : Effect s tasks e t tasks') : t.maxThreads = s.maxThreads := by
  cases he with
  | quiet h => exact h.ids.maxThreads
  | counted hc h => exact h.ids.maxThreads
  | forked => rfl
  | exited hcurrent hrun hs' h => exact h.sameIds.maxThreads
  | waited hu hq hcurrent hrun hwait hend hvalue =>
      exact (hend.fewer (List.nodup_cons.1 hu.woven.tree.nodup).2).maxThreads.trans hq.ids.maxThreads
  | regrouped hfind h => exact h.fewer.maxThreads
  | sessioned => rfl
  | daemonized => rfl

theorem Effect.roomy (he : Effect s tasks e t tasks') : Roomy t ↔ Roomy s := by rw [Roomy, Roomy, he.maxThreads]

theorem Effect.numbers (he : Effect s tasks e t tasks') (hs : Sound s tasks kids) (hn : Numbers s tasks)
    (hroomy : Roomy s) : Numbers t tasks' := by
  cases he with
  | quiet h => exact hn.fewer h.ids.fewer
  | counted hc h => exact (hn.numbered hc hroomy).fewer h.ids.fewer
  | forked hcurrent hp hc hpos hfresh hroom hgroup =>
      have hp' := fun h => hp (List.mem_cons_of_mem _ h)
      exact (hn.numbered hc hroomy).forked hcurrent hp' rfl (hfresh hn.gap) hroom
  | exited hcurrent hrun hs' h => exact hn.fewer h.sameIds.fewer
  | waited hu hq hcurrent hrun hwait hend hvalue =>
      exact hn.fewer (hq.ids.fewer.trans (hend.fewer (List.nodup_cons.1 hu.woven.tree.nodup).2))
  | regrouped hfind h => exact hn.fewer h.fewer
  | sessioned hcurrent hrun hnone => exact hn.fewer fewer_sessioned
  | daemonized hcurrent hrun => exact hn.fewer hs.fewer_daemonized

theorem Booted.numbers {init : TaskId} (h : Booted s init) : Numbers s [init] where
  gap i hi hlt := by
    obtain ⟨p, hp, hi⟩ := hi
    rw [List.mem_singleton.1 hp] at hi
    simp only [State.ids, h.pid, h.pgrp, h.session, h.tgid, List.mem_cons, List.not_mem_nil, or_false] at hi
    have hlast := h.lastPid
    omega
  count := h.nrThreads
  room := h.nrThreads.trans_le h.maxThreads
  unique p hp q hq _ := (List.mem_singleton.1 hp).trans (List.mem_singleton.1 hq).symm

/-- In every run of a machine with room, the counters are right in every state. -/
theorem reachable_numbers (h : machine.Reachable Initial s) (hroomy : Roomy s) :
    ∃ tasks kids, Sound s tasks kids ∧ Numbers s tasks := by
  suffices hinv : ∃ tasks kids, Sound s tasks kids ∧ (Roomy s → Numbers s tasks) by
    obtain ⟨tasks, kids, hs, hn⟩ := hinv
    exact ⟨tasks, kids, hs, hn hroomy⟩
  refine h.invariant (I := fun s => ∃ tasks kids, Sound s tasks kids ∧ (Roomy s → Numbers s tasks)) (fun s hs => ?_)
    fun s e t _ hs hstep => ?_
  · obtain ⟨init, kids, hs, hbooted⟩ := initial_sound hs
    exact ⟨[init], kids, hs, fun _ => hbooted.numbers⟩
  · obtain ⟨tasks, kids, hs, hn⟩ := hs
    obtain ⟨tasks', kids', hsound, heffect⟩ := hs.effect hstep
    refine ⟨tasks', kids', hsound, fun hroomy => ?_⟩
    have hroomy' := heffect.roomy.1 hroomy
    exact heffect.numbers hs (hn hroomy') hroomy'

/-! ### What the numbers are good for -/

theorem Sound.find_eq (hs : Sound s tasks kids) (hn : Numbers s tasks) (hp : p ∈ tasks) :
    findTaskByPid s (s.pid p) = some p := by
  cases hfind : findTaskByPid s (s.pid p) with
  | some q =>
      obtain ⟨hq, hpid⟩ := hs.find_mem hfind
      rw [hn.unique q hq p hp (Int.ofNat_inj.1 hpid)]
  | none =>
      rw [findTaskByPid, List.find?_eq_none, Int.toNat_natCast] at hfind
      exact absurd (decide_eq_true rfl) (hfind p ((hs.mem_iff p).2 hp))

/-- The list of all tasks and the table of numbers have the same tasks, `nr_threads` counts them, and every task is
found by its number. -/
theorem reachable_pidhash (h : machine.Reachable Initial s) (hroomy : Roomy s) :
    ∃ tasks, s.forEachTask = .ok tasks ∧ tasks.Nodup ∧
    (∀ p, p ∈ tasks ↔ s.Hashed p) ∧ s.nrThreads = tasks.length ∧
      s.nrThreads ≤ s.maxThreads ∧ ∀ p ∈ tasks, findTaskByPid s (s.pid p) = some p := by
  obtain ⟨tasks, kids, hs, hn⟩ := reachable_numbers h hroomy
  exact ⟨tasks, hs.woven.tree.forEachTask, (List.nodup_cons.1 hs.woven.tree.nodup).2, fun p => (hs.mem_iff p).symm,
    hn.count, hn.room, fun p hp => hs.find_eq hn hp⟩

theorem reachable_pidhash_bereaved : ∃ tasks, bereaved.forEachTask = .ok tasks ∧ tasks.Nodup ∧
    (∀ p, p ∈ tasks ↔ bereaved.Hashed p) ∧ bereaved.nrThreads = tasks.length ∧
    bereaved.nrThreads ≤ bereaved.maxThreads ∧
      ∀ p ∈ tasks, findTaskByPid bereaved (bereaved.pid p) = some p := by
  have hreach : machine.Reachable Initial bereaved := reachable_after (by decide)
  have hroomy : Roomy bereaved := show 4 * (100 : Int) + 301 < pidMax by decide
  exact reachable_pidhash hreach hroomy

/-- While there is room for another task, a `do_fork` that is not stopped by its flags, its limits or its helpers
succeeds, with a number that is no number of any task, group or session. -/
theorem doFork_fresh {flags : UInt32} (h : machine.Reachable Initial s) (hroomy : Roomy s)
    (henabled : machine.enabled s (.call current env (.fork p flags .done)))
    (hns : flags &&& (CLONE_NEWNS ||| CLONE_FS) ≠ CLONE_NEWNS ||| CLONE_FS) (hflags : flags &&& CLONE_PID = 0)
    (hroom : s.nrThreads < s.maxThreads) :
    ∃ (pid : Nat) (t : State), doFork env current p flags .done s = .ok (pid, t) ∧ 0 < pid ∧ pid < pidMax ∧
      (∀ q, s.Hashed q → pid ∉ s.ids q) ∧ findTaskByPid t pid = some p := by
  obtain ⟨tasks, kids, hs, hn⟩ := reachable_numbers h hroomy
  obtain ⟨hhashed, hrun, hstay, -, hp⟩ := henabled
  have hc := (hs.mem_iff current).1 hhashed
  have hpall : p ∉ tasks := fun h => by
    rw [hs.allocated h] at hp
    cases hp
  obtain ⟨r, t, hfork, hend⟩ := hs.doFork hc hstay hp env flags .done
  obtain ⟨pid, last, safe, hget, -, -, -, hfree⟩ := getPid_spec hs.numbered hs.woven.tree.forEachTask hflags current
  have hpos := hfree (hn.free hroomy)
  -- It is `get_pid` alone that could stop it.
  have hr : (pid : Int) = r := by
    have hfork' := hfork
    rw [doFork, if_neg hns, if_neg fun h => h.1 hflags, if_neg (by decide),
      if_neg (not_or.2 ⟨by decide, not_le.2 hroom⟩), hget, ok_bind] at hfork'
    dsimp only at hfork'
    rw [if_neg fun h => hpos h.1, if_neg (by decide), if_neg (by decide)] at hfork'
    obtain ⟨u, -, hu⟩ := bind_eq_ok.1 hfork'
    exact congrArg Prod.fst (Except.ok.inj hu)
  have hnot : ¬r < 0 := by omega
  cases hend with
  | failed hneg hc => exact absurd hneg hnot
  | leaked hneg hc => exact absurd hneg hnot
  | @done last' safe' n pr c y o tn tp kids' hcount hpos' hfresh hroom' hsound hgroup =>
      have hn' : Numbers ((s.numbered last' safe').forked env current p flags last' n pr c y o tn tp) (tasks ++ [p]) :=
        (hn.numbered hcount hroomy).forked hc hpall rfl (hfresh hn.gap) hroom'
      have hnew : ((s.numbered last' safe').forked env current p flags last' n pr c y o tn tp).pid p = last' :=
        Function.update_self ..
      have hfind := hsound.find_eq hn' (List.mem_append_right tasks (List.mem_singleton_self p))
      rw [hnew] at hfind
      exact ⟨last', _, hfork, hpos', hcount.numbered.last_lt,
        fun q hq hi => hfresh hn.gap ⟨q, (hs.mem_iff q).1 hq, hi⟩, hfind⟩

/-- The zombie 2 keeps its number from the task 3. -/
theorem doFork_fresh_bereaved : ∃ (pid : Nat) (t : State), doFork kindEnv 1 3 17 .done bereaved = .ok (pid, t) ∧
    0 < pid ∧ pid < pidMax ∧ (∀ q, bereaved.Hashed q → pid ∉ bereaved.ids q) ∧ findTaskByPid t pid = some 3 := by
  have hreach : machine.Reachable Initial bereaved := reachable_after (by decide)
  have hroomy : Roomy bereaved := show 4 * (100 : Int) + 301 < pidMax by decide
  have henabled : machine.enabled bereaved (.call 1 kindEnv (.fork 3 17 .done)) := by decide
  exact doFork_fresh hreach hroomy henabled (by decide) (by decide) (by decide)

end MagicKernel.Proc
