import MagicKernel.WandOwned

/-! No wand call reads freed memory as long as no task exits with a wand. `do_exit` frees the secret and
the list of the exiting task, but the task keeps `holding_wand` and both pointers and stays in the table
until it is released: an attack on it in between goes through freed blocks. -/

namespace MagicKernel.Wand

open FaultMachine BlockHeap

/-- The secret, the list head and every list entry of `p` are in use. -/
def Intact (s : State) (p : TaskId) : Prop :=
  (∃ bytes, s.heap.cells (s.task p).mySecret = some (.string bytes)) ∧
  (∃ l, s.heap.cells (s.task p).secretsPtr = some (.head l)) ∧
  ∃ xs, s.heap.Ring (s.task p).secretsPtr xs ∧ ∀ a ∈ xs, ∃ l secret, s.heap.cells a = some (.node l secret)

/-- An exit by a task without a wand, whose `my_secret` is null. -/
def BareExit (s : State) (e : Event) : Prop :=
  match e.call with
  | .exit => (s.task e.current).holdingWand = false ∧ (s.task e.current).mySecret = 0
  | _ => True

instance (s : State) (e : Event) : Decidable (BareExit s e) :=
  match e with
  | ⟨p, .exit⟩ => inferInstanceAs (Decidable ((s.task p).holdingWand = false ∧ (s.task p).mySecret = 0))
  | ⟨_, .fork _ _ _⟩ => .isTrue trivial
  | ⟨_, .getWand _ _ _ _⟩ => .isTrue trivial
  | ⟨_, .attack _⟩ => .isTrue trivial
  | ⟨_, .legilimens _ _ _⟩ => .isTrue trivial
  | ⟨_, .listSecrets _ _⟩ => .isTrue trivial
  | ⟨_, .magicClock _ _⟩ => .isTrue trivial
  | ⟨_, .release _⟩ => .isTrue trivial

theorem cleanExit_of_bareExit {s : State} {e : Event} (h : BareExit s e) : CleanExit s e := by
  obtain ⟨p, call⟩ := e
  cases call with
  | exit => exact Or.inr h.2
  | fork child pid mem => trivial
  | getWand power secret mem junk => trivial
  | attack pid => trivial
  | legilimens pid mem junk => trivial
  | listSecrets secrets size => trivial
  | magicClock seconds jiffies => trivial
  | release q => trivial

/-! ### Tasks that have exited -/

/-- A visible task that has exited holds no wand. -/
def Disarmed (s : State) : Prop :=
  ∀ p, s.Visible p → (s.task p).exited = true → (s.task p).holdingWand = false

section Disarmed

variable {s t : State} {p : TaskId}

/-- Only the task `p` may change, and it is disarmed if it has exited. -/
theorem Disarmed.of_local (h : Disarmed s) (honly : ChangesOnly p s t)
    (hself : t.Visible p → (t.task p).exited = true → (t.task p).holdingWand = false) : Disarmed t := by
  intro q hq hexited
  by_cases hqp : q = p
  · subst hqp
    exact hself hq hexited
  · rw [honly.task q hqp] at hexited ⊢
    exact h q ((honly.visible q hqp).1 hq) hexited

theorem Disarmed.of_modTask (h : Disarmed s) (hhashed : Hashed s) {heap : Heap Block} {f : Task → Task}
    (hpid : ∀ u, (f u).pid = u.pid)
    (hself : s.Visible p → (f (s.task p)).exited = true → (f (s.task p)).holdingWand = false) :
    Disarmed ({ s with heap := heap }.modTask p f) := by
  refine h.of_local (changesOnly_modTask hhashed hpid heap) fun hp => ?_
  rw [task_modTask_self]
  exact hself ((visible_modTask hpid heap p).1 hp)

theorem Disarmed.fork (h : Disarmed s) (hhashed : Hashed s) (parent : TaskId) {child : TaskId} (pid : Int32)
    (mem : Addr) (hchild : s.inUse child = false) : Disarmed (doFork parent child pid mem s).2 := by
  by_cases hmem : mem = 0
  · subst hmem
    refine h.of_local (changesOnly_noMemory hhashed parent pid hchild) fun hc => ?_
    exact absurd hc (not_mem_of_unused hhashed hchild _)
  · have honly := changesOnly_child hhashed hmem parent pid hchild
    rw [doFork_child hmem] at honly ⊢
    refine h.of_local honly fun _ hexited => ?_
    dsimp only at hexited
    rw [Function.update_self] at hexited
    cases hexited

theorem Disarmed.getWand (h : Disarmed s) (hhashed : Hashed s) (hp : (s.task p).exited = false)
    {power : Int32} {mem : Addr} (hgot : GotWand p power mem s t) : Disarmed t := by
  have hlive : ¬ (s.task p).exited = true := ne_true_of_eq_false hp
  cases hgot with
  | refused => exact h
  | noMemory => exact h.of_modTask hhashed (fun _ => rfl) fun _ hexited => absurd hexited hlive
  | wand => exact h.of_modTask hhashed (fun _ => rfl) fun _ hexited => absurd hexited hlive
  | changed => exact h.of_modTask hhashed (fun _ => rfl) fun _ hexited => absurd hexited hlive

theorem Disarmed.attack (h : Disarmed s) (hhashed : Hashed s) (target : TaskId) (health : Int32) :
    Disarmed (s.modTask target fun u => { u with health := health }) :=
  h.of_modTask hhashed (fun _ => rfl) fun hvisible hexited => h target hvisible hexited

theorem Disarmed.release (h : Disarmed s) (hhashed : Hashed s) : Disarmed (releaseTask p s) := by
  refine h.of_local (changesOnly_releaseTask hhashed p) fun hp => ?_
  exact absurd rfl ((mem_releaseTask hhashed).1 hp).1

end Disarmed

/-- Along runs without an exit by a wand holder, what is visible and has exited is disarmed. -/
theorem Disarmed.step {s t : State} {e : Event} {xs : TaskId → List Addr} (h : Disarmed s)
    (howns : Owns s xs) (hbare : BareExit s e) (hstep : machine.Step s e t) : Disarmed t := by
  obtain ⟨⟨hvisible, hlive, henabled⟩, hstep⟩ := hstep
  obtain ⟨p, call⟩ := e
  cases call with
  | fork child pid mem =>
      cases hstep
      exact h.fork howns.hashed p pid mem henabled.1
  | getWand power secret mem junk =>
      obtain ⟨⟨r, u⟩, hcall, heq⟩ := bind_eq_ok.1 hstep
      cases heq
      exact h.getWand howns.hashed hlive (sysMagicGetWand_ok hcall)
  | attack pid =>
      obtain ⟨⟨r, u⟩, hcall, heq⟩ := bind_eq_ok.1 hstep
      cases heq
      rcases sysMagicAttack_ok hcall with rfl | ⟨target, health, -, rfl⟩
      · exact h
      · exact h.attack howns.hashed target health
  | legilimens pid mem junk =>
      obtain ⟨⟨r, u⟩, hcall, heq⟩ := bind_eq_ok.1 hstep
      cases heq
      rcases sysMagicLegilimens_ok hcall with rfl | ⟨secret, heap, -, -, -, -, rfl⟩
      · exact h
      · exact h
  | listSecrets secrets size =>
      obtain ⟨r, -, heq⟩ := bind_eq_ok.1 hstep
      cases heq
      exact h
  | magicClock seconds jiffies =>
      cases hstep
      rcases sysMagicClock_eq p seconds jiffies s with heq | ⟨magicTime, magicCallTime, heq⟩
      · rw [heq]
        exact h
      · rw [heq]
        exact h.of_modTask howns.hashed (fun _ => rfl) (f := fun u =>
          { u with magicTime := magicTime, magicCallTime := magicCallTime })
          fun hvisible hexited => h p hvisible hexited
  | exit =>
      obtain ⟨heap, rfl, -⟩ := doExit_ok (howns.keeps p ⟨hvisible, hlive⟩) (Or.inr hbare.2) hstep
      exact h.of_modTask howns.hashed (fun _ => rfl) fun _ _ => hbare.1
  | release q =>
      cases hstep
      exact h.release howns.hashed

theorem disarmed_of_reachable {s : State} (h : (machine.restrict BareExit).Reachable Initial s) :
    (∃ xs, Owns s xs) ∧ Disarmed s := by
  refine h.invariant (I := fun u => (∃ xs, Owns u xs) ∧ Disarmed u) ?_ ?_
  · intro u hu
    refine ⟨⟨_, owns_of_initial hu⟩, fun p hp hexited => ?_⟩
    rw [hu.live p hp] at hexited
    cases hexited
  · rintro u e t - ⟨⟨xs, howns⟩, hdisarmed⟩ hstep
    obtain ⟨hbare, hstep⟩ := Machine.restrict_step.1 hstep
    obtain ⟨ys, howns', -⟩ := howns.step (cleanExit_of_bareExit hbare) hstep
    exact ⟨⟨ys, howns'⟩, hdisarmed.step howns hbare hstep⟩

/-! ### Wand calls that do not fault -/

section Faultless

variable {s : State} {xs : TaskId → List Addr}

/-- A visible task with a wand is live, so its blocks are in use. -/
theorem keeps_of_wand (howns : Owns s xs) (hdisarmed : Disarmed s) {p : TaskId} (hp : s.Visible p)
    (hwand : (s.task p).holdingWand = true) : Keeps s.heap (s.task p) (xs p) := by
  refine howns.keeps p ⟨hp, ?_⟩
  by_contra hexited
  rw [hdisarmed p hp (eq_true_of_ne_false hexited)] at hwand
  cases hwand

theorem intact_of_keeps {p : TaskId} {ys : List Addr} (hkeeps : Keeps s.heap (s.task p) ys)
    (hwand : (s.task p).holdingWand = true) : Intact s p := by
  refine ⟨?_, cells_of_head hkeeps.head, ys, hkeeps.ring, ?_⟩
  · obtain ⟨bytes, hbytes, -⟩ := hkeeps.secret hwand
    exact ⟨bytes, cells_of_string hbytes⟩
  · intro a ha
    obtain ⟨secret, hsecret, -⟩ := hkeeps.entry a ha
    obtain ⟨l, hcell⟩ := cells_of_node hsecret
    exact ⟨l, secret, hcell⟩

theorem sysMagicAttack_faultless (howns : Owns s xs) (hdisarmed : Disarmed s) {attacker : TaskId}
    (hattacker : s.Visible attacker) (pid : Int32) : ∃ r, sysMagicAttack attacker pid s = .ok r := by
  unfold sysMagicAttack
  cases hfind : findTaskByPid s pid with
  | none => exact ⟨_, rfl⟩
  | some target =>
      dsimp only
      split
      · exact ⟨_, rfl⟩
      rename_i hwands
      obtain ⟨hwand, htarget⟩ := both_wands hwands
      split
      · exact ⟨_, rfl⟩
      split
      · exact ⟨_, rfl⟩
      obtain ⟨mine, hmine, hzero, -⟩ := (keeps_of_wand howns hdisarmed hattacker hwand).secret hwand
      rw [secretStolen_eq (keeps_of_wand howns hdisarmed (visible_of_find hfind) htarget) hmine hzero]
      dsimp only [bind, Except.bind]
      split
      · exact ⟨_, rfl⟩
      · exact ⟨_, rfl⟩

theorem sysMagicLegilimens_faultless (howns : Owns s xs) (hdisarmed : Disarmed s) {attacker : TaskId}
    (hattacker : s.Visible attacker) (pid : Int32) {mem : Addr} (hfree : s.heap.cells mem = none)
    (junk : Nat → UInt8) : ∃ r, sysMagicLegilimens attacker pid mem junk s = .ok r := by
  by_cases hreads : ∃ target, findTaskByPid s pid = some target ∧ target ≠ attacker ∧
      (s.task attacker).holdingWand = true ∧ (s.task target).holdingWand = true
  · obtain ⟨target, hfind, hother, hwand, htarget⟩ := hreads
    have hkeeps := keeps_of_wand howns hdisarmed hattacker hwand
    have hvictim := keeps_of_wand howns hdisarmed (visible_of_find hfind) htarget
    obtain ⟨mine, hmine, hzero, -⟩ := hvictim.secret htarget
    obtain ⟨t, ht⟩ := sysMagicLegilimens_eq junk hkeeps hvictim hfind hother hwand htarget hfree
      (secretStolen_eq hkeeps hmine hzero)
    exact ⟨_, ht⟩
  · unfold sysMagicLegilimens
    cases hfind : findTaskByPid s pid with
    | none => exact ⟨_, rfl⟩
    | some target =>
        dsimp only
        split
        · exact ⟨_, rfl⟩
        rename_i hother
        split
        · exact ⟨_, rfl⟩
        rename_i hwands
        obtain ⟨hwand, htarget⟩ := both_wands hwands
        exact absurd ⟨target, hfind, hother, hwand, htarget⟩ hreads

end Faultless

/-- As long as no task exits with a wand, whatever `find_task_by_pid` yields with a wand has its secret
and its list in use, and attacks and readings of minds go through no freed block: they return. -/
theorem wand_blocks_in_use {s : State} (h : (machine.restrict BareExit).Reachable Initial s) :
    (∀ pid p, findTaskByPid s pid = some p → (s.task p).holdingWand = true → Intact s p) ∧
    ∀ attacker, s.Live attacker → ∀ pid, (∃ r, sysMagicAttack attacker pid s = .ok r) ∧
      ∀ mem junk, s.heap.cells mem = none → ∃ r, sysMagicLegilimens attacker pid mem junk s = .ok r := by
  obtain ⟨⟨xs, howns⟩, hdisarmed⟩ := disarmed_of_reachable h
  refine ⟨?_, ?_⟩
  · intro pid p hfind hwand
    exact intact_of_keeps (keeps_of_wand howns hdisarmed (visible_of_find hfind) hwand) hwand
  · rintro attacker ⟨hvisible, -⟩ pid
    refine ⟨sysMagicAttack_faultless howns hdisarmed hvisible pid, fun mem junk hfree => ?_⟩
    exact sysMagicLegilimens_faultless howns hdisarmed hvisible pid hfree junk

/-- Two tasks with wands, the second of which has stolen the secret of the first, and a third that has
exited without a wand and is not yet released. -/
def afterTheft : State :=
  (machine.restrict BareExit).after boot
    [⟨1, .fork 2 2 2⟩, ⟨1, .getWand 10 (some (oneLetter 97)) 3 fun _ => 7⟩,
      ⟨2, .getWand 5 (some (oneLetter 98)) 4 fun _ => 7⟩, ⟨2, .legilimens 1 5 fun _ => 7⟩,
      ⟨1, .fork 3 3 6⟩, ⟨3, .exit⟩]

theorem wand_blocks_in_use_afterTheft :
    (machine.restrict BareExit).Reachable Initial afterTheft ∧ Intact afterTheft 1 ∧ Intact afterTheft 2 ∧
      (∃ r, sysMagicAttack 1 2 afterTheft = .ok r) ∧ ∃ r, sysMagicAttack 1 3 afterTheft = .ok r := by
  have hreach : (machine.restrict BareExit).Reachable Initial afterTheft :=
    ⟨boot, _, boot_initial, Machine.run_after (by decide +kernel)⟩
  obtain ⟨hintact, hcalls⟩ := wand_blocks_in_use hreach
  have hlive : afterTheft.Live 1 := ⟨by decide +kernel, by decide +kernel⟩
  exact ⟨hreach, hintact 1 1 (by decide +kernel) (by decide +kernel),
    hintact 2 2 (by decide +kernel) (by decide +kernel), (hcalls 1 hlive 2).1, (hcalls 1 hlive 3).1⟩

/-- A child exits with a wand while its parent, who has one too, is about to attack it. -/
def afterExit : State :=
  machine.after boot
    [⟨1, .fork 2 2 2⟩, ⟨1, .getWand 10 (some (oneLetter 97)) 3 fun _ => 7⟩,
      ⟨2, .getWand 5 (some (oneLetter 98)) 4 fun _ => 7⟩, ⟨2, .exit⟩]

/-- The zombie is still found with its wand, its secret and its list are gone, and the attack reads the
freed list head. -/
theorem afterExit_dangling :
    machine.Reachable Initial afterExit ∧ findTaskByPid afterExit 2 = some 2 ∧
      (afterExit.task 2).holdingWand = true ∧ ¬ Intact afterExit 2 ∧ afterExit.Live 1 ∧
      afterExit.heap.cells (afterExit.task 2).mySecret = none ∧
      afterExit.heap.cells (afterExit.task 2).secretsPtr = none ∧
      sysMagicAttack 1 2 afterExit = .error (.access (afterExit.task 2).secretsPtr) := by
  have hreach : machine.Reachable Initial afterExit :=
    ⟨boot, _, boot_initial, Machine.run_after (by decide +kernel)⟩
  have hsecret : afterExit.heap.cells (afterExit.task 2).mySecret = none := by decide +kernel
  refine ⟨hreach, by decide +kernel, by decide +kernel, ?_, ⟨by decide +kernel, by decide +kernel⟩, hsecret,
    by decide +kernel, eq_error_of_faultOf (by decide +kernel)⟩
  rintro ⟨⟨bytes, hbytes⟩, -⟩
  rw [hsecret] at hbytes
  cases hbytes

end MagicKernel.Wand
