import MagicKernel.WandStable

/-! Stolen secrets. A task that has stolen the secret of another is safe from its attacks for as long as
both live: nobody stores the protection, an attack finds it again by searching the list of its target. It
rests on the victim's secret staying the same and on the thief's list growing only. -/

namespace MagicKernel.Wand

open FaultMachine BlockHeap

/-- The string in a block. -/
def stringAt (h : Heap Block) (a : Addr) : List UInt8 :=
  match h.cells a with
  | some (.string bytes) => bytes
  | _ => []

section At

variable {h h' : Heap Block} {a : Addr}

theorem secretAt_of_node {l : Link} {secret : List UInt8} (ha : h.contents Block.strip a = some (.node l secret)) :
    secretAt h a = secret := by
  obtain ⟨l', hcell⟩ := cells_of_node ha
  rw [secretAt, hcell]

theorem stringAt_of_string {bytes : List UInt8} (ha : h.contents Block.strip a = some (.string bytes)) :
    stringAt h a = bytes := by
  rw [stringAt, cells_of_string ha]

theorem secretAt_congr {t : Task} {xs : List Addr} (hkeeps : Keeps h t xs) (ha : a ∈ xs)
    (hsame : h'.contents Block.strip a = h.contents Block.strip a) : secretAt h' a = secretAt h a := by
  obtain ⟨secret, hsecret, -⟩ := hkeeps.entry a ha
  rw [secretAt_of_node hsecret, secretAt_of_node (hsame.trans hsecret)]

theorem stringAt_congr {t : Task} {xs : List Addr} (hkeeps : Keeps h t xs) (hwand : t.holdingWand = true)
    (hsame : h'.contents Block.strip t.mySecret = h.contents Block.strip t.mySecret) :
    stringAt h' t.mySecret = stringAt h t.mySecret := by
  obtain ⟨bytes, hbytes, -⟩ := hkeeps.secret hwand
  rw [stringAt_of_string hbytes, stringAt_of_string (hsame.trans hbytes)]

end At

/-- The strings in the entries of a list. -/
def stolenTexts (h : Heap Block) (xs : List Addr) : List (List UInt8) := xs.map fun a => text (secretAt h a)

/-- What the search of an intact list for a terminated secret finds. -/
theorem secretStolen_iff {h : Heap Block} {t : Task} {ys : List Addr} (hkeeps : Keeps h t ys) {secret : Addr}
    {mine : List UInt8} (hmine : h.contents Block.strip secret = some (.string mine)) (hzero : 0 ∈ mine) :
    secretStolen h t.secretsPtr secret = .ok (decide (text mine ∈ stolenTexts h ys)) := by
  rw [secretStolen_eq hkeeps hmine hzero]
  congr 1
  by_cases hmem : text mine ∈ stolenTexts h ys
  · obtain ⟨a, ha, heq⟩ := List.mem_map.1 hmem
    rw [decide_eq_true hmem, List.findSome?_isSome_iff]
    exact ⟨a, ha, by rw [if_pos heq]; rfl⟩
  · rw [decide_eq_false hmem, Option.isSome_eq_false_iff, Option.isNone_iff_eq_none, List.findSome?_eq_none_iff]
    intro a ha
    rw [if_neg]
    rintro heq
    exact hmem (List.mem_map.2 ⟨a, ha, heq⟩)

/-- The secret that a step of `q` adds to its list. -/
def loot (s : State) (e : Event) (q : TaskId) : List (List UInt8) :=
  if e.current = q then (victimOf s e).toList.map fun v => text (stringAt s.heap (s.task v).mySecret) else []

/-- The strings in a list stay the same, in the same order, and new ones come at its end. -/
theorem Carries.stolenTexts {s t : State} {e : Event} {q : TaskId} {xs ys : List Addr}
    (hcarries : Carries s t e q xs ys) (hkeeps : Keeps s.heap (s.task q) xs) :
    stolenTexts t.heap ys = stolenTexts s.heap xs ++ loot s e q := by
  have hold : Wand.stolenTexts t.heap xs = Wand.stolenTexts s.heap xs := by
    apply List.map_congr_left
    intro a ha
    rw [secretAt_congr hkeeps ha (hcarries.contents a (Task.mem_blocks.2 (Or.inl (List.mem_cons_of_mem _ ha))))]
  cases hcarries.entries with
  | nothing hnone =>
      rw [hold, loot]
      split
      · rename_i hcurrent
        rw [hnone hcurrent]
        exact (List.append_nil _).symm
      · exact (List.append_nil _).symm
  | secret he hsteals hvictim hmine hspells hentry =>
      have hcurrent : e.current = q := by rw [he]
      rw [loot, if_pos hcurrent, hvictim, ← hold, Wand.stolenTexts, List.map_append]
      simp only [List.map_cons, List.map_nil, Option.toList_some]
      rw [secretAt_of_node hentry, stringAt, hmine]
      dsimp only
      rw [text_of_spells hspells]
      rfl

/-! ### Protection -/

/-- The list of `thief` has the secret of `victim`, and both live with their wands. -/
structure Protected (s : State) (xs : TaskId → List Addr) (thief victim : TaskId) : Prop where
  thiefLive : s.Live thief
  victimLive : s.Live victim
  thiefArmed : (s.task thief).holdingWand = true
  victimArmed : (s.task victim).holdingWand = true
  stolen : text (stringAt s.heap (s.task victim).mySecret) ∈ stolenTexts s.heap (xs thief)

section Protected

variable {s t : State} {e : Event} {xs ys : TaskId → List Addr} {thief victim : TaskId}

theorem Owns.stringAt_step (howns : Owns s xs) (hstep : machine.Step s e t) {q : TaskId} (hq : s.Live q)
    (hexit : e ≠ ⟨q, .exit⟩) (hwand : (s.task q).holdingWand = true) (hcarries : Carries s t e q (xs q) (ys q)) :
    stringAt t.heap (t.task q).mySecret = stringAt s.heap (s.task q).mySecret := by
  obtain ⟨-, hchange⟩ := hq.step howns.hashed hstep hexit
  rw [(hchange.of_wand hwand).2.1]
  exact stringAt_congr (howns.keeps q hq) hwand (hcarries.contents _ (Task.mem_blocks.2 (Or.inr ⟨hwand, rfl⟩)))

theorem Protected.step (hprot : Protected s xs thief victim) (howns : Owns s xs) (hstep : machine.Step s e t)
    (hthief : e ≠ ⟨thief, .exit⟩) (hvictim : e ≠ ⟨victim, .exit⟩)
    (hcarries : ∀ q, s.Live q → t.Live q → Carries s t e q (xs q) (ys q)) : Protected t ys thief victim := by
  obtain ⟨hthiefLive, hthiefChange⟩ := hprot.thiefLive.step howns.hashed hstep hthief
  obtain ⟨hvictimLive, hvictimChange⟩ := hprot.victimLive.step howns.hashed hstep hvictim
  have hgrows := hcarries thief hprot.thiefLive hthiefLive
  refine ⟨hthiefLive, hvictimLive, (hthiefChange.of_wand hprot.thiefArmed).1,
    (hvictimChange.of_wand hprot.victimArmed).1, ?_⟩
  rw [howns.stringAt_step hstep hprot.victimLive hvictim hprot.victimArmed
    (hcarries victim hprot.victimLive hvictimLive), hgrows.stolenTexts (howns.keeps thief hprot.thiefLive)]
  exact List.mem_append_left _ hprot.stolen

/-- A successful reading of a live mind protects. -/
theorem protected_of_theft {pid : Int32} {mem : Addr} {junk : Nat → UInt8} (howns : Owns s xs)
    (hstep : machine.Step s ⟨thief, .legilimens pid mem junk⟩ t)
    (hfound : findTaskByPid s pid = some victim) (hother : victim ≠ thief) (hlive : (s.task victim).exited = false)
    (htheft : sysMagicLegilimens thief pid mem junk s = .ok (0, t))
    (hcarries : ∀ q, s.Live q → t.Live q → Carries s t ⟨thief, .legilimens pid mem junk⟩ q (xs q) (ys q)) :
    Protected t ys thief victim := by
  have hvictimLive : s.Live victim := ⟨visible_of_find hfound, hlive⟩
  have hthiefLive : s.Live thief := ⟨hstep.1.1, hstep.1.2.1⟩
  rcases sysMagicLegilimens_cases htheft with ⟨-, hneg | hself⟩ | ⟨v, -, -, -, hsteals, -⟩
  · exact absurd hneg (Int.lt_irrefl 0)
  · rw [hfound] at hself
    exact absurd (Option.some.inj hself) hother
  obtain rfl : victim = v := Option.some.inj (hfound.symm.trans hsteals.found)
  obtain ⟨hthiefLive', hthiefChange⟩ := hthiefLive.step howns.hashed hstep nofun
  obtain ⟨hvictimLive', hvictimChange⟩ := hvictimLive.step howns.hashed hstep nofun
  refine ⟨hthiefLive', hvictimLive', (hthiefChange.of_wand hsteals.armed).1,
    (hvictimChange.of_wand hsteals.victimArmed).1, ?_⟩
  rw [howns.stringAt_step hstep hvictimLive nofun hsteals.victimArmed (hcarries victim hvictimLive hvictimLive'),
    (hcarries thief hthiefLive hthiefLive').stolenTexts (howns.keeps thief hthiefLive), loot, if_pos rfl,
    victimOf_of_steals htheft hsteals]
  exact List.mem_append_right _ (List.mem_singleton_self _)

/-- An attack on a task that has the attacker's secret is refused. -/
theorem Protected.attack (hprot : Protected s xs thief victim) (howns : Owns s xs) {pid : Int32}
    (hfound : findTaskByPid s pid = some thief) : ∃ r, sysMagicAttack victim pid s = .ok (r, s) ∧ r < 0 ∧
      ((s.task victim).health ≠ 0 → (s.task thief).health ≠ 0 → r = -ECONNREFUSED) := by
  have hwands : ¬ ((s.task victim).holdingWand = false ∨ (s.task thief).holdingWand = false) := by
    rw [hprot.victimArmed, hprot.thiefArmed]
    decide
  unfold sysMagicAttack
  rw [hfound]
  dsimp only
  rw [if_neg hwands]
  split
  · rename_i hhealth
    refine ⟨_, rfl, by decide, fun hvictim hthief => ?_⟩
    exact absurd hhealth (not_or.2 ⟨hvictim, hthief⟩)
  split
  · exact ⟨_, rfl, by decide, fun _ _ => rfl⟩
  · obtain ⟨mine, hmine, hzero, -⟩ := (howns.keeps victim hprot.victimLive).secret hprot.victimArmed
    have hstolen := hprot.stolen
    rw [stringAt_of_string hmine] at hstolen
    rw [secretStolen_iff (howns.keeps thief hprot.thiefLive) hmine hzero, decide_eq_true hstolen]
    exact ⟨_, rfl, by decide, fun _ _ => rfl⟩

end Protected

theorem Protected.run {s t : State} {es : List Event} {xs : TaskId → List Addr} {thief victim : TaskId}
    (hrun : (machine.restrict CleanExit).Run s es t) (howns : Owns s xs) (hprot : Protected s xs thief victim)
    (hthief : ∀ e ∈ es, e ≠ ⟨thief, .exit⟩) (hvictim : ∀ e ∈ es, e ≠ ⟨victim, .exit⟩) :
    ∃ ys, Owns t ys ∧ Protected t ys thief victim := by
  induction hrun generalizing xs with
  | nil s => exact ⟨xs, howns, hprot⟩
  | cons hstep hrun ih =>
      obtain ⟨hclean, hstep⟩ := Machine.restrict_step.1 hstep
      obtain ⟨ys, howns', hcarries⟩ := howns.step hclean hstep
      have hprot' := hprot.step howns hstep (hthief _ List.mem_cons_self) (hvictim _ List.mem_cons_self) hcarries
      exact ih howns' hprot' (fun e he => hthief e (List.mem_cons_of_mem _ he))
        fun e he => hvictim e (List.mem_cons_of_mem _ he)

/-- Once `thief` has read the mind of the live task `victim`, attacks by `victim` on it are refused and
change nothing until one of them exits, as long as no exit frees a block that is not the exiting task's own. -/
theorem theft_protects {s t u : State} {thief victim : TaskId} {pid : Int32} {mem : Addr} {junk : Nat → UInt8}
    {es : List Event} (h : (machine.restrict CleanExit).Reachable Initial s)
    (henabled : machine.enabled s ⟨thief, .legilimens pid mem junk⟩)
    (htheft : sysMagicLegilimens thief pid mem junk s = .ok (0, t)) (hfound : findTaskByPid s pid = some victim)
    (hother : victim ≠ thief) (hlive : (s.task victim).exited = false)
    (hrun : (machine.restrict CleanExit).Run t es u) (hthief : ∀ e ∈ es, e ≠ ⟨thief, .exit⟩)
    (hvictim : ∀ e ∈ es, e ≠ ⟨victim, .exit⟩) {pid' : Int32} (hpid : findTaskByPid u pid' = some thief) :
    ∃ r, sysMagicAttack victim pid' u = .ok (r, u) ∧ r < 0 ∧
      ((u.task victim).health ≠ 0 → (u.task thief).health ≠ 0 → r = -ECONNREFUSED) := by
  obtain ⟨xs, howns⟩ := owns_of_reachable h
  have hstep : machine.Step s ⟨thief, .legilimens pid mem junk⟩ t := by
    refine ⟨henabled, ?_⟩
    show (do return (← sysMagicLegilimens thief pid mem junk s).2) = _
    rw [htheft]
    rfl
  have hclean : CleanExit s ⟨thief, .legilimens pid mem junk⟩ := trivial
  obtain ⟨ys, howns', hcarries⟩ := howns.step hclean hstep
  have hprot := protected_of_theft howns hstep hfound hother hlive htheft hcarries
  obtain ⟨zs, howns'', hprot'⟩ := Protected.run hrun howns' hprot hthief hvictim
  exact hprot'.attack howns'' hpid

/-- A successful call, told by what its step does. -/
theorem legilimens_of_step {s t : State} {thief : TaskId} {pid : Int32} {mem : Addr} {junk : Nat → UInt8}
    (hstep : machine.Step s ⟨thief, .legilimens pid mem junk⟩ t)
    (hvictim : victimOf s ⟨thief, .legilimens pid mem junk⟩ ≠ none) :
    sysMagicLegilimens thief pid mem junk s = .ok (0, t) := by
  obtain ⟨⟨r, u⟩, hcall, heq⟩ := bind_eq_ok.1 hstep.2
  cases heq
  rcases sysMagicLegilimens_cases hcall with ⟨-, hrefused⟩ | ⟨_, _, _, _, -, rfl, -⟩
  · exact absurd (victimOf_of_refused hcall hrefused) hvictim
  · exact hcall

/-- A child of the thief comes and goes before the victim strikes back, in vain. -/
theorem theft_protects_heist :
    (machine.restrict CleanExit).Reachable Initial armed ∧ machine.enabled armed ⟨2, .legilimens 1 5 fun _ => 7⟩ ∧
      ∃ u, (machine.restrict CleanExit).Run heist [⟨2, .fork 3 3 6⟩, ⟨3, .exit⟩] u ∧ findTaskByPid u 2 = some 2 ∧
        (u.task 1).health ≠ 0 ∧ (u.task 2).health ≠ 0 ∧ sysMagicAttack 1 2 u = .ok (-ECONNREFUSED, u) := by
  have hreach : (machine.restrict CleanExit).Reachable Initial armed :=
    ⟨boot, _, boot_initial, armed_run.restrict_of_forall
      (forall_armedEvents (fun _ => trivial) (fun _ => trivial) fun _ => trivial)⟩
  have hrun : (machine.restrict CleanExit).Run heist [⟨2, .fork 3 3 6⟩, ⟨3, .exit⟩]
      ((machine.restrict CleanExit).after heist [⟨2, .fork 3 3 6⟩, ⟨3, .exit⟩]) :=
    Machine.run_after (by decide +kernel)
  have htheft := legilimens_of_step heist_step (by decide +kernel)
  have hexit : ∀ p, p ≠ 3 → ∀ e ∈ ([⟨2, .fork 3 3 6⟩, ⟨3, .exit⟩] : List Event), e ≠ ⟨p, .exit⟩ := by
    intro p hp e he
    rcases List.mem_pair.1 he with rfl | rfl
    · nofun
    · rintro ⟨rfl⟩
      exact hp rfl
  have hfound :
      findTaskByPid ((machine.restrict CleanExit).after heist [⟨2, .fork 3 3 6⟩, ⟨3, .exit⟩]) 2 = some 2 := by
    decide +kernel
  obtain ⟨r, hattack, -, hrefused⟩ := theft_protects hreach heist_step.1 htheft
    (by decide +kernel) (by decide) (by decide +kernel) hrun (hexit 2 (by decide)) (hexit 1 (by decide)) hfound
  refine ⟨hreach, heist_step.1, _, hrun, hfound, by decide +kernel, by decide +kernel, ?_⟩
  rw [hattack, hrefused (by decide +kernel) (by decide +kernel)]

/-- The fourth task's call is refused when its buffer is no longer what was copied, and leaves its pointer on the
block it has freed. The second task's secret gets that block. -/
def crowd : State :=
  machine.after boot
    [⟨1, .fork 2 2 2⟩, ⟨1, .fork 3 3 3⟩, ⟨1, .fork 4 4 4⟩,
      ⟨4, .getWand 10 (some { oneLetter 97 with compare := (oneLetter 98).compare }) 5 fun _ => 7⟩,
      ⟨1, .getWand 1 (some (oneLetter 97)) 6 fun _ => 7⟩, ⟨2, .getWand 5 (some (oneLetter 98)) 5 fun _ => 7⟩,
      ⟨3, .getWand 10 (some (oneLetter 99)) 7 fun _ => 7⟩]

/-- The first task reads the second one's mind. -/
def divulged : State := machine.after crowd [⟨1, .legilimens 2 8 fun _ => 7⟩]

/-- The freed block goes to a fifth task for its secret. -/
def usurpingEvents : List Event :=
  [⟨4, .exit⟩, ⟨1, .fork 5 5 9⟩, ⟨5, .getWand 3 (some (oneLetter 122)) 5 fun _ => 7⟩]

def usurped : State := machine.after divulged usurpingEvents

theorem crowd_reachable : machine.Reachable Initial crowd :=
  ⟨boot, _, boot_initial, Machine.run_after (by decide +kernel)⟩

theorem divulged_step : machine.Step crowd ⟨1, .legilimens 2 8 fun _ => 7⟩ divulged :=
  Machine.step_after (by decide +kernel)

/-- The second task's pointer then leads to a string that the first has not stolen, and its attack lands. -/
theorem usurped_attack_lands :
    machine.Reachable Initial crowd ∧ machine.enabled crowd ⟨1, .legilimens 2 8 fun _ => 7⟩ ∧
      findTaskByPid crowd 2 = some 2 ∧ (crowd.task 2).exited = false ∧
      sysMagicLegilimens 1 2 8 (fun _ => 7) crowd = .ok (0, divulged) ∧
      machine.Run divulged usurpingEvents usurped ∧
        (∀ e ∈ usurpingEvents, e ≠ ⟨1, .exit⟩ ∧ e ≠ ⟨2, .exit⟩) ∧
      findTaskByPid usurped 1 = some 1 ∧ (usurped.task 1).health.toInt = 100 ∧
      ∃ u, sysMagicAttack 2 1 usurped = .ok (95, u) ∧ (u.task 1).health.toInt = 95 := by
  have hrun : machine.Run divulged usurpingEvents usurped := Machine.run_after (by decide +kernel)
  have hothers : ∀ e ∈ usurpingEvents, e ≠ ⟨1, .exit⟩ ∧ e ≠ ⟨2, .exit⟩ := by
    intro e he
    rcases List.mem_cons.1 he with rfl | he
    · exact ⟨nofun, nofun⟩
    rcases List.mem_pair.1 he with rfl | rfl
    · exact ⟨nofun, nofun⟩
    · exact ⟨nofun, nofun⟩
  have hlands : Lands usurped 2 1 1 := by decide +kernel
  have hresult : (hit (usurped.task 1).health (usurped.task 2).power).toInt = 95 := by decide +kernel
  refine ⟨crowd_reachable, divulged_step.1, by decide +kernel, by decide +kernel,
    legilimens_of_step divulged_step (by decide +kernel),
    hrun, hothers, by decide +kernel, by decide +kernel, ?_⟩
  rw [← hresult]
  exact ⟨_, hlands.attack, congrArg (fun u : Task => u.health.toInt) (task_modTask_self _ _ _)⟩

end MagicKernel.Wand
