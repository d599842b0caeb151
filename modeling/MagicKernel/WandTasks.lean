import MagicKernel.WandEffects

/-! What a step may make of the task structures. Every step touches one of them at most, and the ways it
may do so are listed once; invariants of tasks are then settled way by way. -/

namespace MagicKernel.Wand

open FaultMachine BlockHeap

/-! ### The task that a step touches -/

/-- What a step may make of the structure of a visible task `q` that stays visible. -/
inductive Changes (s : State) (e : Event) (q : TaskId) : Task → Prop
  | same : Changes s e q (s.task q)
  | noMemory {power : Int32} {secret : Option SecretReads} {mem : Addr} {junk : Nat → UInt8}
      (he : e = ⟨q, .getWand power secret mem junk⟩) (hwand : (s.task q).holdingWand = false) :
      Changes s e q { s.task q with mySecret := 0 }
  | wand {power : Int32} {r : SecretReads} {mem : Addr} {junk : Nat → UInt8}
      (he : e = ⟨q, .getWand power (some r) mem junk⟩) (hwand : (s.task q).holdingWand = false) :
      Changes s e q { s.task q with mySecret := mem, power := power, holdingWand := true, health := 100 }
  | changed {power : Int32} {r : SecretReads} {mem : Addr} {junk : Nat → UInt8}
      (he : e = ⟨q, .getWand power (some r) mem junk⟩) (hwand : (s.task q).holdingWand = false)
      (hdiff : ¬ r.Agree) :
      Changes s e q { s.task q with mySecret := mem }
  | hit {attacker : TaskId} {pid : Int32} (he : e = ⟨attacker, .attack pid⟩) (hlands : Lands s attacker pid q) :
      Changes s e q { s.task q with health := hit (s.task q).health (s.task attacker).power }
  | clock {seconds jiffies : UInt32} (he : e = ⟨q, .magicClock seconds jiffies⟩)
      (magicTime magicCallTime : UInt32) :
      Changes s e q { s.task q with magicTime := magicTime, magicCallTime := magicCallTime }
  | exited (he : e = ⟨q, .exit⟩) : Changes s e q { s.task q with exited := true }

/-- The one task that a step touches: it was visible and stays so, it is the child of a fork, or it is
released. -/
inductive Touched (s t : State) (e : Event) (q : TaskId) : Prop
  | visible (hs : s.Visible q) (ht : t.Visible q) (hchange : Changes s e q (t.task q))
  | stillborn (hfree : s.inUse q = false) (ht : ¬ t.Visible q)
  | child {parent : TaskId} {pid : Int32} {mem : Addr} (he : e = ⟨parent, .fork q pid mem⟩)
      (hfree : s.inUse q = false) (htask : t.task q = childTask (s.task parent) pid mem)
  | released (he : e.call = .release q) (hexited : (s.task q).exited = true) (ht : ¬ t.Visible q)

section Touched

variable {s t : State} {e : Event} {p : TaskId}

/-- A step that leaves the process table alone and makes `f` of the task `p`. -/
theorem touched_modTask (hhashed : Hashed s) (hp : s.Visible p) {f : Task → Task}
    (hf : ∀ u, (f u).pid = u.pid) (heap : Heap Block) (hchange : Changes s e p (f (s.task p))) :
    ∃ q, ChangesOnly q s ({ s with heap := heap }.modTask p f) ∧
      Touched s ({ s with heap := heap }.modTask p f) e q := by
  refine ⟨p, changesOnly_modTask hhashed hf heap, .visible hp ((visible_modTask hf heap p).2 hp) ?_⟩
  rw [task_modTask_self]
  exact hchange

/-- A step that changes no task. -/
theorem touched_heap (hhashed : Hashed s) (hp : s.Visible p) (heap : Heap Block) :
    ∃ q, ChangesOnly q s { s with heap := heap } ∧ Touched s { s with heap := heap } e q :=
  ⟨p, ⟨hhashed, fun _ _ => Iff.rfl, fun _ _ => rfl⟩, .visible hp hp .same⟩

theorem touched_getWand (hhashed : Hashed s) (hp : s.Visible p) {power : Int32} {secret : Option SecretReads}
    {mem : Addr} {junk : Nat → UInt8} {x : Int} (he : e = ⟨p, .getWand power secret mem junk⟩)
    (hcall : sysMagicGetWand p power secret mem junk s = .ok (x, t)) :
    ∃ q, ChangesOnly q s t ∧ Touched s t e q := by
  rcases sysMagicGetWand_cases hcall with ⟨-, rfl⟩ |
    ⟨r, rfl, hwand, -, ⟨-, -, rfl⟩ | ⟨-, bytes, -, -, -, hend⟩⟩
  · exact touched_heap hhashed hp _
  · exact touched_modTask (f := fun u => { u with mySecret := 0 }) hhashed hp (fun _ => rfl) s.heap
      (.noMemory he hwand)
  · rcases hend with ⟨-, rfl⟩ | ⟨hdiff, -, rfl⟩
    · exact touched_modTask hhashed hp (fun _ => rfl) (s.heap.alloc mem (.string bytes)) (f := fun u =>
        { u with mySecret := mem, power := power, holdingWand := true, health := 100 }) (.wand he hwand)
    · exact touched_modTask hhashed hp (fun _ => rfl) ((s.heap.alloc mem (.string bytes)).free mem)
        (f := fun u => { u with mySecret := mem }) (.changed he hwand hdiff)

theorem touched_fork (hhashed : Hashed s) {child : TaskId} {pid : Int32} {mem : Addr}
    (he : e = ⟨p, .fork child pid mem⟩) (hchild : s.inUse child = false) :
    ∃ q, ChangesOnly q s (doFork p child pid mem s).2 ∧ Touched s (doFork p child pid mem s).2 e q := by
  by_cases hmem : mem = 0
  · subst hmem
    refine ⟨child, changesOnly_noMemory hhashed p pid hchild, .stillborn hchild ?_⟩
    exact not_mem_of_unused hhashed hchild _
  · refine ⟨child, changesOnly_child hhashed hmem p pid hchild, .child he hchild ?_⟩
    rw [doFork_child hmem]
    exact Function.update_self ..

theorem step_touched (hhashed : Hashed s) (hstep : machine.Step s e t) :
    ∃ q, ChangesOnly q s t ∧ Touched s t e q := by
  obtain ⟨⟨hvisible, hlive, henabled⟩, hstep⟩ := hstep
  obtain ⟨p, call⟩ := e
  have hp : s.Visible p := hvisible
  cases call with
  | fork child pid mem =>
      cases hstep
      exact touched_fork hhashed rfl henabled.1
  | getWand power secret mem junk =>
      obtain ⟨⟨r, u⟩, hcall, heq⟩ := bind_eq_ok.1 hstep
      cases heq
      exact touched_getWand hhashed hp rfl hcall
  | attack pid =>
      obtain ⟨⟨r, u⟩, hcall, heq⟩ := bind_eq_ok.1 hstep
      cases heq
      rcases sysMagicAttack_cases hcall with ⟨-, rfl⟩ | ⟨target, hlands, -, rfl⟩
      · exact touched_heap hhashed hp _
      · exact touched_modTask hhashed (visible_of_find hlands.found) (fun _ => rfl) s.heap
          (f := fun u => { u with health := Wand.hit (s.task target).health (s.task p).power })
          (.hit rfl hlands)
  | legilimens pid mem junk =>
      obtain ⟨⟨r, u⟩, hcall, heq⟩ := bind_eq_ok.1 hstep
      cases heq
      rcases sysMagicLegilimens_ok hcall with rfl | ⟨secret, heap, -, -, -, -, rfl⟩
      · exact touched_heap hhashed hp _
      · exact touched_heap hhashed hp heap
  | listSecrets secrets size =>
      obtain ⟨r, -, heq⟩ := bind_eq_ok.1 hstep
      cases heq
      exact touched_heap hhashed hp _
  | magicClock seconds jiffies =>
      cases hstep
      rcases sysMagicClock_eq p seconds jiffies s with heq | ⟨magicTime, magicCallTime, heq⟩
      · rw [heq]
        exact touched_heap hhashed hp _
      · rw [heq]
        exact touched_modTask hhashed hp (fun _ => rfl) s.heap
          (f := fun u => { u with magicTime := magicTime, magicCallTime := magicCallTime })
          (.clock rfl magicTime magicCallTime)
  | exit =>
      obtain ⟨heap, rfl⟩ := doExit_task hstep
      exact touched_modTask hhashed hp (fun _ => rfl) heap (f := fun u => { u with exited := true }) (.exited rfl)
  | release q =>
      cases hstep
      refine ⟨q, changesOnly_releaseTask hhashed q, .released rfl henabled.2.1 fun hq => ?_⟩
      exact ((mem_releaseTask hhashed).1 hq).1 rfl

theorem Hashed.step (hhashed : Hashed s) (hstep : machine.Step s e t) : Hashed t := by
  obtain ⟨q, honly, -⟩ := step_touched hhashed hstep
  exact honly.hashed

/-- A visible task stays visible unless it has exited and is released. -/
theorem step_visible (hhashed : Hashed s) (hstep : machine.Step s e t) {q : TaskId} (hq : s.Visible q) :
    (s.task q).exited = true ∧ ¬ t.Visible q ∨ t.Visible q ∧ Changes s e q (t.task q) := by
  obtain ⟨x, honly, htouched⟩ := step_touched hhashed hstep
  by_cases hqx : q = x
  · subst hqx
    cases htouched with
    | visible hs ht hchange => exact Or.inr ⟨ht, hchange⟩
    | stillborn hfree ht => exact absurd hq (not_mem_of_unused hhashed hfree _)
    | child he hfree htask => exact absurd hq (not_mem_of_unused hhashed hfree _)
    | released he hexited ht => exact Or.inl ⟨hexited, ht⟩
  · refine Or.inr ⟨(honly.visible q hqx).2 hq, ?_⟩
    rw [honly.task q hqx]
    exact .same

/-- Only an exit makes a task exited. -/
theorem Changes.exited_cases {q : TaskId} {u : Task} (hchange : Changes s e q u) :
    u.exited = (s.task q).exited ∨ (e = ⟨q, .exit⟩ ∧ u.exited = true) := by
  cases hchange with
  | same => exact Or.inl rfl
  | noMemory he hwand => exact Or.inl rfl
  | wand he hwand => exact Or.inl rfl
  | changed he hwand hdiff => exact Or.inl rfl
  | hit he hlands => exact Or.inl rfl
  | clock he magicTime magicCallTime => exact Or.inl rfl
  | exited he => exact Or.inr ⟨he, rfl⟩

/-- A live task stays live unless it exits. -/
theorem State.Live.step {q : TaskId} (hq : s.Live q) (hhashed : Hashed s) (hstep : machine.Step s e t)
    (hexit : e ≠ ⟨q, .exit⟩) : t.Live q ∧ Changes s e q (t.task q) := by
  obtain ⟨hvisible, hlive⟩ := hq
  rcases step_visible hhashed hstep hvisible with ⟨hexited, -⟩ | ⟨hvisible', hchange⟩
  · rw [hlive] at hexited
    cases hexited
  refine ⟨⟨hvisible', ?_⟩, hchange⟩
  rcases hchange.exited_cases with hsame | ⟨he, -⟩
  · rw [hsame, hlive]
  · exact absurd he hexit

/-- A wand holder keeps its wand, its secret and its list head. -/
theorem Changes.of_wand {q : TaskId} {u : Task} (hchange : Changes s e q u)
    (hwand : (s.task q).holdingWand = true) :
    u.holdingWand = true ∧ u.mySecret = (s.task q).mySecret ∧ u.secretsPtr = (s.task q).secretsPtr := by
  have hnot : (s.task q).holdingWand ≠ false := ne_false_of_eq_true hwand
  cases hchange with
  | same => exact ⟨hwand, rfl, rfl⟩
  | noMemory he hbare => exact absurd hbare hnot
  | wand he hbare => exact absurd hbare hnot
  | changed he hbare hdiff => exact absurd hbare hnot
  | hit he hlands => exact ⟨hwand, rfl, rfl⟩
  | clock he magicTime magicCallTime => exact ⟨hwand, rfl, rfl⟩
  | exited he => exact ⟨hwand, rfl, rfl⟩

/-- What is visible after a step was visible before it, or is the child of a fork. -/
theorem visible_of_step (hhashed : Hashed s) (hstep : machine.Step s e t) {q : TaskId} (hq : t.Visible q) :
    s.Visible q ∨ ∃ parent pid mem, e = ⟨parent, .fork q pid mem⟩ ∧
      t.task q = childTask (s.task parent) pid mem := by
  obtain ⟨x, honly, htouched⟩ := step_touched hhashed hstep
  by_cases hqx : q = x
  · subst hqx
    cases htouched with
    | visible hs ht hchange => exact Or.inl hs
    | stillborn hfree ht => exact absurd hq ht
    | child he hfree htask => exact Or.inr ⟨_, _, _, he, htask⟩
    | released he hexited ht => exact absurd hq ht
  · exact Or.inl ((honly.visible q hqx).1 hq)

/-- What is live after a step was live before it, or is the child of a fork. -/
theorem State.Live.of_step {q : TaskId} (hq : t.Live q) (hhashed : Hashed s) (hstep : machine.Step s e t) :
    s.Live q ∨ ∃ parent pid mem, e = ⟨parent, .fork q pid mem⟩ ∧ t.task q = childTask (s.task parent) pid mem := by
  obtain ⟨hvisible, hlive⟩ := hq
  rcases visible_of_step hhashed hstep hvisible with hvisible' | hchild
  · rcases step_visible hhashed hstep hvisible' with ⟨-, hgone⟩ | ⟨-, hchange⟩
    · exact absurd hvisible hgone
    refine Or.inl ⟨hvisible', ?_⟩
    rcases hchange.exited_cases with hsame | ⟨-, hexited⟩
    · rw [← hsame, hlive]
    · rw [hlive] at hexited
      cases hexited
  · exact Or.inr hchild

end Touched

/-- What holds of the children of forks and of whatever a step makes of a visible task, holds of every
visible task afterwards. -/
theorem visible_invariant {I : Task → Prop} {s t : State} {e : Event} (hhashed : Hashed s)
    (hstep : machine.Step s e t)
    (hchild : ∀ parent q pid mem, e = ⟨parent, .fork q pid mem⟩ → I (childTask (s.task parent) pid mem))
    (hchange : ∀ q u, s.Visible q → Changes s e q u → I u) : ∀ q, t.Visible q → I (t.task q) := by
  intro q hq
  rcases visible_of_step hhashed hstep hq with hvisible | ⟨parent, pid, mem, he, htask⟩
  · rcases step_visible hhashed hstep hvisible with ⟨-, hgone⟩ | ⟨-, hch⟩
    · exact absurd hq hgone
    · exact hchange q _ hvisible hch
  · rw [htask]
    exact hchild parent q pid mem he

end MagicKernel.Wand
