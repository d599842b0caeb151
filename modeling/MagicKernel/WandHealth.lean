import MagicKernel.WandOwned
import MagicKernel.WandTasks

/-! The health of wand holders. It changes only where an attack lands, and health 0 is the end of all
attacks by and on a task. The difference of health and power is taken in 32-bit integers and the power of
a wand is never checked: a wand of negative power heals. -/

namespace MagicKernel.Wand

open FaultMachine BlockHeap

theorem hashed_of_reachable {s : State} (h : machine.Reachable Initial s) : Hashed s :=
  h.invariant (fun _ hinit => hinit.hashed) fun _ _ _ _ hhashed hstep => hhashed.step hstep

/-! ### The arithmetic of attacks -/

theorem toInt_hit_nonneg (health power : Int32) : 0 ≤ (hit health power).toInt :=
  Int32.le_iff_toInt_le.1 (hit_nonneg health power)

/-- Within range, a wand of non-negative power takes exactly its power, down to zero. -/
theorem toInt_hit {health power : Int32} (hlow : 0 ≤ health.toInt) (hpower : 0 ≤ power.toInt) :
    (hit health power).toInt = max 0 (health.toInt - power.toInt) := by
  have hhealth := health.toInt_lt
  have hrange := power.toInt_lt
  have hexact : (health - power).toInt = health.toInt - power.toInt := by
    rw [Int32.toInt_sub]
    apply Int.bmod_eq_of_le_mul_two <;> omega
  unfold hit
  split
  · rename_i hpos
    have hpos := Int32.lt_iff_toInt_lt.1 hpos
    rw [hexact, Int32.toInt_zero] at hpos
    rw [hexact]
    omega
  · rename_i hneg
    rw [gt_iff_lt, Int32.lt_iff_toInt_lt, hexact, Int32.toInt_zero] at hneg
    rw [Int32.toInt_zero]
    omega

/-- Every visible wand holder has a health from 0 to 100. -/
def HealthInRange (s : State) : Prop :=
  ∀ q, s.Visible q → (s.task q).holdingWand = true → 0 ≤ (s.task q).health.toInt ∧ (s.task q).health.toInt ≤ 100

/-- No attack with a wand of negative power lands. -/
def Harmful (s : State) (e : Event) : Prop :=
  ∀ pid target, e.call = .attack pid → Lands s e.current pid target → 0 ≤ (s.task e.current).power.toInt

instance (s : State) (e : Event) : Decidable (Harmful s e) :=
  match e with
  | ⟨p, .attack pid⟩ => decidable_of_iff
      ((findTaskByPid s pid).all (fun target => decide (Lands s p pid target → 0 ≤ (s.task p).power.toInt)) = true) (by
        constructor
        · rintro h _ target ⟨rfl⟩ hlands
          rw [hlands.found] at h
          exact of_decide_eq_true h hlands
        · intro h
          cases hfind : findTaskByPid s pid with
          | none => rfl
          | some target => exact decide_eq_true (h pid target rfl))
  | ⟨_, .fork _ _ _⟩ => .isTrue nofun
  | ⟨_, .getWand _ _ _ _⟩ => .isTrue nofun
  | ⟨_, .legilimens _ _ _⟩ => .isTrue nofun
  | ⟨_, .listSecrets _ _⟩ => .isTrue nofun
  | ⟨_, .magicClock _ _⟩ => .isTrue nofun
  | ⟨_, .exit⟩ => .isTrue nofun
  | ⟨_, .release _⟩ => .isTrue nofun

theorem HealthInRange.step {s t : State} {e : Event} (hrange : HealthInRange s) (hhashed : Hashed s)
    (hharm : Harmful s e) (hstep : machine.Step s e t) : HealthInRange t := by
  refine visible_invariant (I := fun u => u.holdingWand = true → 0 ≤ u.health.toInt ∧ u.health.toInt ≤ 100)
    hhashed hstep ?_ ?_
  · intro parent q pid mem _ hwand
    cases hwand
  · intro q u hq hchange hwand
    cases hchange with
    | same => exact hrange q hq hwand
    | noMemory he hbare => exact hrange q hq hwand
    | wand he hbare =>
        have hfull : (100 : Int32).toInt = 100 := by decide
        dsimp only
        omega
    | changed he hbare => exact hrange q hq hwand
    | hit he hlands =>
        subst he
        obtain ⟨hlow, hhigh⟩ := hrange q hq hwand
        have hpower := hharm _ q rfl hlands
        dsimp only at hpower ⊢
        rw [toInt_hit hlow hpower]
        omega
    | clock he magicTime magicCallTime => exact hrange q hq hwand
    | exited he => exact hrange q hq hwand

theorem healthInRange_of_reachable {s : State} (h : (machine.restrict Harmful).Reachable Initial s) :
    HealthInRange s := by
  refine h.invariant ?_ ?_
  · intro u hu q hq hwand
    rw [(hu.bare q hq).1] at hwand
    cases hwand
  · intro u e t hreach hrange hstep
    obtain ⟨hharm, hstep⟩ := Machine.restrict_step.1 hstep
    exact hrange.step (hashed_of_reachable hreach.of_restrict) hharm hstep

/-- As long as no wand of negative power has struck, health stays in range; and an attack that succeeds
then takes exactly the power of the wand from the health, and does not raise it, just if that power is
not negative. -/
theorem attack_exact {s : State} (h : (machine.restrict Harmful).Reachable Initial s) :
    HealthInRange s ∧ ∀ attacker pid r t, sysMagicAttack attacker pid s = .ok (r, t) → 0 ≤ r →
      ∃ target, findTaskByPid s pid = some target ∧
        (((t.task target).health.toInt = r ∧ r = max 0 ((s.task target).health.toInt - (s.task attacker).power.toInt) ∧
          (t.task target).health.toInt ≤ (s.task target).health.toInt) ↔ 0 ≤ (s.task attacker).power.toInt) := by
  have hrange := healthInRange_of_reachable h
  refine ⟨hrange, fun attacker pid r t hattack hr => ?_⟩
  rcases sysMagicAttack_cases hattack with ⟨hneg, -⟩ | ⟨target, hlands, hresult, rfl⟩
  · omega
  have hhealth := hrange target (visible_of_find hlands.found) hlands.targetArmed
  have hleft : ((s.modTask target fun u => { u with
      health := hit (s.task target).health (s.task attacker).power }).task target).health.toInt = r := by
    rw [task_modTask_self, hresult]
  refine ⟨target, hlands.found, ?_⟩
  rw [hleft]
  constructor
  · rintro ⟨-, hexact, hle⟩
    omega
  · intro hpower
    have hexact := toInt_hit hhealth.1 hpower
    rw [← hresult] at hexact
    exact ⟨rfl, hexact, by omega⟩

/-- Two tasks with wands of power 70 and 5, after the first has struck the second. -/
def duel : State :=
  (machine.restrict Harmful).after boot
    [⟨1, .fork 2 2 2⟩, ⟨1, .getWand 70 (some (oneLetter 97)) 3 fun _ => 7⟩,
      ⟨2, .getWand 5 (some (oneLetter 98)) 4 fun _ => 7⟩, ⟨1, .attack 2⟩]

theorem duel_reachable : (machine.restrict Harmful).Reachable Initial duel :=
  ⟨boot, _, boot_initial, Machine.run_after (by decide +kernel)⟩

/-- A second strike finds 30 left and leaves none. -/
theorem attack_exact_duel :
    (machine.restrict Harmful).Reachable Initial duel ∧ (duel.task 2).health.toInt = 30 ∧
      ∃ r t, sysMagicAttack 1 2 duel = .ok (r, t) ∧ 0 ≤ r ∧ ∃ target, findTaskByPid duel 2 = some target ∧
        (((t.task target).health.toInt = r ∧
          r = max 0 ((duel.task target).health.toInt - (duel.task 1).power.toInt) ∧
          (t.task target).health.toInt ≤ (duel.task target).health.toInt) ↔ 0 ≤ (duel.task 1).power.toInt) := by
  have hlands : Lands duel 1 2 2 := by decide +kernel
  have hnonneg := toInt_hit_nonneg (duel.task 2).health (duel.task 1).power
  exact ⟨duel_reachable, by decide +kernel, _, _, hlands.attack, hnonneg,
    (attack_exact duel_reachable).2 1 2 _ _ hlands.attack hnonneg⟩

/-- Two tasks with wands, the first of negative power. -/
def blessing : State :=
  machine.after boot
    [⟨1, .fork 2 2 2⟩, ⟨1, .getWand (-1) (some (oneLetter 97)) 3 fun _ => 7⟩,
      ⟨2, .getWand 5 (some (oneLetter 98)) 4 fun _ => 7⟩]

/-- An attack with a wand of power -1 succeeds, raises a health of 100 to 101 and so leaves a wand holder
out of range. -/
theorem blessing_raises :
    machine.Reachable Initial blessing ∧ (blessing.task 2).health.toInt = 100 ∧
      ∃ t, sysMagicAttack 1 2 blessing = .ok (101, t) ∧ machine.Reachable Initial t ∧ t.Visible 2 ∧
        (t.task 2).holdingWand = true ∧ (t.task 2).health.toInt = 101 := by
  have hreach : machine.Reachable Initial blessing :=
    ⟨boot, _, boot_initial, Machine.run_after (by decide +kernel)⟩
  have hlands : Lands blessing 1 2 2 := by decide +kernel
  have hstep : machine.Step blessing ⟨1, .attack 2⟩ (blessing.modTask 2 fun u => { u with
      health := hit (blessing.task 2).health (blessing.task 1).power }) := by
    refine ⟨by decide +kernel, ?_⟩
    show (do return (← sysMagicAttack 1 2 blessing).2) = _
    rw [hlands.attack]
    rfl
  have hresult : (hit (blessing.task 2).health (blessing.task 1).power).toInt = 101 := by decide +kernel
  refine ⟨hreach, by decide +kernel, _, ?_, hreach.step hstep, by decide +kernel, by decide +kernel,
    by decide +kernel⟩
  rw [hlands.attack, hresult]

/-! ### Who may change health -/

/-- The health of a wand holder changes only where an attack on it lands. -/
theorem lands_of_health_ne {s t : State} {e : Event} (hhashed : Hashed s) {q : TaskId} (hq : s.Live q)
    (hwand : (s.task q).holdingWand = true) (hstep : machine.Step s e t)
    (hne : (t.task q).health ≠ (s.task q).health) : ∃ pid, e.call = .attack pid ∧ Lands s e.current pid q := by
  rcases step_visible hhashed hstep hq.1 with ⟨hexited, -⟩ | ⟨-, hchange⟩
  · rw [hq.2] at hexited
    cases hexited
  generalize t.task q = u at hchange hne
  cases hchange with
  | same => exact absurd rfl hne
  | noMemory he hbare => exact absurd rfl hne
  | wand he hbare =>
      rw [hwand] at hbare
      cases hbare
  | changed he hbare => exact absurd rfl hne
  | hit he hlands =>
      subst he
      exact ⟨_, rfl, hlands⟩
  | clock he magicTime magicCallTime => exact absurd rfl hne
  | exited he => exact absurd rfl hne

/-- A live wand holder of health 0 stays one unless it exits. -/
def Fallen (s : State) (p : TaskId) : Prop :=
  s.Live p ∧ (s.task p).holdingWand = true ∧ (s.task p).health = 0

theorem Fallen.step {s t : State} {e : Event} {p : TaskId} (hfallen : Fallen s p) (hhashed : Hashed s)
    (hstep : machine.Step s e t) (hexit : e ≠ ⟨p, .exit⟩) : Fallen t p := by
  obtain ⟨hp, hwand, hzero⟩ := hfallen
  obtain ⟨hlive, hchange⟩ := hp.step hhashed hstep hexit
  refine ⟨hlive, (hchange.of_wand hwand).1, ?_⟩
  by_contra hne
  rw [← hzero] at hne
  obtain ⟨pid, -, hlands⟩ := lands_of_health_ne hhashed hp hwand hstep hne
  exact hlands.targetHealthy hzero

theorem Fallen.run {s t : State} {es : List Event} {p : TaskId} (hrun : machine.Run s es t)
    (hfallen : Fallen s p) (hhashed : Hashed s) (hexit : ∀ e ∈ es, e ≠ ⟨p, .exit⟩) : Fallen t p := by
  induction hrun with
  | nil s => exact hfallen
  | cons hstep hrun ih =>
      have hfirst := hexit _ List.mem_cons_self
      exact ih (hfallen.step hhashed hstep hfirst) (hhashed.step hstep)
        fun e he => hexit e (List.mem_cons_of_mem _ he)

/-- No attack by or on a task of health 0 goes as far as reading memory. -/
theorem Fallen.attack {s : State} {p attacker : TaskId} {pid : Int32} (hfallen : Fallen s p)
    (hp : findTaskByPid s pid = some p ∨ attacker = p) : ∃ r, r < 0 ∧ sysMagicAttack attacker pid s = .ok (r, s) := by
  unfold sysMagicAttack
  cases hfind : findTaskByPid s pid with
  | none => exact ⟨-ESRCH, by decide, rfl⟩
  | some target =>
      dsimp only
      split
      · exact ⟨-EPERM, by decide, rfl⟩
      have hhealth : (s.task attacker).health = 0 ∨ (s.task target).health = 0 := by
        rcases hp with hp | rfl
        · obtain rfl : target = p := Option.some.inj (hfind.symm.trans hp)
          exact Or.inr hfallen.2.2
        · exact Or.inl hfallen.2.2
      rw [if_pos hhealth]
      exact ⟨-EHOSTDOWN, by decide, rfl⟩

end MagicKernel.Wand
