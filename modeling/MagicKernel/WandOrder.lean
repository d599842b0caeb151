import Mathlib.Algebra.Order.BigOperators.Group.List
import Mathlib.Algebra.Order.Group.Int
import Mathlib.Algebra.Ring.Int.Defs
import MagicKernel.WandHealth
import MagicKernel.WandTheft

/-! The order of attacks. Each attack on a task takes the power of the attacker's wand from what health is
left, down to 0, and changes nothing that decides about the other attacks. So the order in which a list of
attacks is made does not matter for what health is left in the end, although the last of them may find
nothing to take. An attack has to read the list of its target, though: one that comes before the health is
gone may read freed memory where one that comes after it is refused. -/

namespace MagicKernel.Wand

open FaultMachine BlockHeap

/-! ### Process numbers -/

/-- No two visible tasks have the same process number. -/
def Distinct (s : State) : Prop :=
  ∀ p q, s.Visible p → s.Visible q → (s.task p).pid = (s.task q).pid → p = q

section Distinct

variable {s t : State} {e : Event}

theorem pid_ne_of_find_none {pid : Int32} (h : findTaskByPid s pid = none) {q : TaskId} (hq : s.Visible q) :
    (s.task q).pid ≠ pid := by
  rintro rfl
  exact List.find?_eq_none.1 h q hq (decide_eq_true rfl)

theorem pid_of_find {pid : Int32} {p : TaskId} (h : findTaskByPid s pid = some p) : (s.task p).pid = pid := by
  unfold findTaskByPid at h
  simpa only [decide_eq_true_eq] using List.find?_some h

theorem Changes.pid {q : TaskId} {u : Task} (hchange : Changes s e q u) : u.pid = (s.task q).pid := by
  cases hchange with
  | same => rfl
  | noMemory => rfl
  | wand => rfl
  | changed => rfl
  | hit => rfl
  | clock => rfl
  | exited => rfl

theorem pid_of_step (hhashed : Hashed s) (hstep : machine.Step s e t) {q : TaskId} (hq : s.Visible q)
    (hq' : t.Visible q) : (t.task q).pid = (s.task q).pid := by
  rcases step_visible hhashed hstep hq with ⟨-, hgone⟩ | ⟨-, hchange⟩
  · exact absurd hq' hgone
  · exact hchange.pid

/-- A fork gets a number that no visible task has. -/
theorem Distinct.step (hdistinct : Distinct s) (hhashed : Hashed s) (hstep : machine.Step s e t) : Distinct t := by
  have hfresh : ∀ {parent p q pid mem}, e = ⟨parent, .fork p pid mem⟩ →
      t.task p = childTask (s.task parent) pid mem →
      s.Visible q → t.Visible q → (t.task p).pid ≠ (t.task q).pid := by
    intro parent p q pid mem he htask hq hq' heq
    subst he
    rw [htask, pid_of_step hhashed hstep hq hq'] at heq
    exact pid_ne_of_find_none hstep.1.2.2.2.2.1 hq heq.symm
  intro p q hp hq heq
  rcases visible_of_step hhashed hstep hp with hp' | ⟨parent, pid, mem, he, htask⟩
  · rcases visible_of_step hhashed hstep hq with hq' | ⟨parent', pid', mem', he', htask'⟩
    · rw [pid_of_step hhashed hstep hp' hp, pid_of_step hhashed hstep hq' hq] at heq
      exact hdistinct p q hp' hq' heq
    · exact absurd heq.symm (hfresh he' htask' hp' hp)
  · rcases visible_of_step hhashed hstep hq with hq' | ⟨parent', pid', mem', he', htask'⟩
    · exact absurd heq (hfresh he htask hq' hq)
    · rw [he] at he'
      cases he'
      rfl

theorem Distinct.find (hdistinct : Distinct s) {q : TaskId} (hq : s.Visible q) :
    findTaskByPid s (s.task q).pid = some q := by
  cases hfind : findTaskByPid s (s.task q).pid with
  | none => exact absurd rfl (pid_ne_of_find_none hfind hq)
  | some p =>
      rw [hdistinct p q (visible_of_find hfind) hq (pid_of_find hfind)]

end Distinct

/-! ### What all runs keep -/

/-- Process numbers tell visible tasks apart, and wand holders have no negative health. -/
structure Sane (s : State) : Prop where
  hashed : Hashed s
  distinct : Distinct s
  nonneg : ∀ q, s.Visible q → (s.task q).holdingWand = true → 0 ≤ (s.task q).health.toInt

theorem Sane.step {s t : State} {e : Event} (hsane : Sane s) (hstep : machine.Step s e t) : Sane t := by
  refine ⟨hsane.hashed.step hstep, hsane.distinct.step hsane.hashed hstep, ?_⟩
  refine visible_invariant (I := fun u => u.holdingWand = true → 0 ≤ u.health.toInt) hsane.hashed hstep ?_ ?_
  · intro parent q pid mem _ hwand
    cases hwand
  · intro q u hq hchange hwand
    cases hchange with
    | same => exact hsane.nonneg q hq hwand
    | noMemory he hbare => exact hsane.nonneg q hq hwand
    | wand he hbare => exact Int.le_of_lt (by decide : 0 < (100 : Int32).toInt)
    | changed he hbare => exact hsane.nonneg q hq hwand
    | hit he hlands => exact toInt_hit_nonneg _ _
    | clock he magicTime magicCallTime => exact hsane.nonneg q hq hwand
    | exited he => exact hsane.nonneg q hq hwand

/-- An attack by `attacker` gets as far as the search of the list of `target`, if `target` has health left. -/
def Threatens (s : State) (target attacker : TaskId) : Prop :=
  (s.task attacker).holdingWand = true ∧ (s.task attacker).health ≠ 0 ∧ attacker ≠ target

instance (s : State) (target attacker : TaskId) : Decidable (Threatens s target attacker) :=
  inferInstanceAs (Decidable (_ ∧ _ ∧ _))

/-- What an attack by `attacker` takes from `target`, if there is as much. -/
def harm (s : State) (target attacker : TaskId) : Int :=
  if Threatens s target attacker ∧
      secretStolen s.heap (s.task target).secretsPtr (s.task attacker).mySecret = .ok false
  then (s.task attacker).power.toInt else 0

/-- The search comes to an end without reading freed memory. -/
def Searched (s : State) (target attacker : TaskId) : Prop :=
  Threatens s target attacker →
    ∃ known, secretStolen s.heap (s.task target).secretsPtr (s.task attacker).mySecret = .ok known

def State.withHealth (s : State) (target : TaskId) (health : Int32) : State :=
  s.modTask target fun u => { u with health := health }

def attempt (pid : Int32) (attacker : TaskId) : Event := ⟨attacker, .attack pid⟩

/-- The target, and what may be said of it all along. -/
structure Faces (s : State) (target : TaskId) (pid : Int32) : Prop where
  sane : Sane s
  live : s.Live target
  armed : (s.task target).holdingWand = true
  pid_eq : (s.task target).pid = pid

section Attack

variable {s t : State} {target attacker : TaskId} {pid : Int32}

theorem Faces.found (hfaces : Faces s target pid) : findTaskByPid s pid = some target := by
  rw [← hfaces.pid_eq]
  exact hfaces.sane.distinct.find hfaces.live.1

theorem Faces.nonneg (hfaces : Faces s target pid) : 0 ≤ (s.task target).health.toInt :=
  hfaces.sane.nonneg target hfaces.live.1 hfaces.armed

theorem harm_nonneg (target : TaskId) (hpower : 0 ≤ (s.task attacker).power.toInt) : 0 ≤ harm s target attacker := by
  rw [harm]
  split
  · exact hpower
  · exact Int.le_refl 0

theorem Faces.lands (hfaces : Faces s target pid) (hhealth : (s.task target).health ≠ 0)
    (h : Threatens s target attacker)
    (hunknown : secretStolen s.heap (s.task target).secretsPtr (s.task attacker).mySecret = .ok false) :
    Lands s attacker pid target :=
  ⟨hfaces.found, h.1, hfaces.armed, h.2.1, hhealth, h.2.2, hunknown⟩

theorem toInt_zero_of_health (h : (s.task target).health = 0) : (s.task target).health.toInt = 0 := by
  rw [h]
  rfl

/-- An attack that returns takes its harm from the health of the target, down to 0. -/
theorem Faces.attack (hfaces : Faces s target pid) (hpower : 0 ≤ (s.task attacker).power.toInt)
    (hstep : machine.Step s (attempt pid attacker) t) :
    ∃ health, t = s.withHealth target health ∧
      health.toInt = max 0 ((s.task target).health.toInt - harm s target attacker) := by
  obtain ⟨⟨r, u⟩, hcall, heq⟩ := bind_eq_ok.1 hstep.2
  cases heq
  change sysMagicAttack attacker pid s = _ at hcall
  rcases sysMagicAttack_cases hcall with ⟨hneg, rfl⟩ | ⟨target', hlands, -, rfl⟩
  · refine ⟨(u.task target).health, ?_, ?_⟩
    · rw [State.withHealth, State.modTask, Function.update_eq_self]
    · have hnonneg := hfaces.nonneg
      by_cases hzero : (u.task target).health = 0
      · have hharm := harm_nonneg target hpower
        have hhealth := toInt_zero_of_health hzero
        omega
      · have hnone : harm u target attacker = 0 := by
          rw [harm, if_neg]
          rintro ⟨hthreatens, hunknown⟩
          rw [(hfaces.lands hzero hthreatens hunknown).attack] at hcall
          have hret := (Prod.mk.inj (Except.ok.inj hcall)).1
          have hhit := toInt_hit_nonneg (u.task target).health (u.task attacker).power
          omega
        rw [hnone]
        omega
  · obtain rfl : target = target' := Option.some.inj (hfaces.found.symm.trans hlands.found)
    refine ⟨_, rfl, ?_⟩
    rw [harm, if_pos ⟨⟨hlands.armed, hlands.healthy, hlands.other⟩, hlands.unknown⟩]
    exact toInt_hit hfaces.nonneg hpower

/-- An attack returns unless its search does not. -/
theorem Faces.returns (hfaces : Faces s target pid) (h : (s.task target).health = 0 ∨ Searched s target attacker) :
    ∃ x, sysMagicAttack attacker pid s = .ok x := by
  unfold sysMagicAttack
  rw [hfaces.found]
  dsimp only
  split
  · exact ⟨_, rfl⟩
  rename_i hwands
  split
  · exact ⟨_, rfl⟩
  rename_i hhealth
  split
  · exact ⟨_, rfl⟩
  rename_i hother
  obtain ⟨hhealthy, hhealthy'⟩ := not_or.1 hhealth
  obtain ⟨known, hknown⟩ := h.resolve_left hhealthy' ⟨(both_wands hwands).1, hhealthy, hother⟩
  rw [hknown]
  cases known with
  | true => exact ⟨_, rfl⟩
  | false => exact ⟨_, rfl⟩

theorem task_withHealth_self (s : State) (target : TaskId) (health : Int32) :
    (s.withHealth target health).task target = { s.task target with health := health } := task_modTask_self _ _ _

theorem task_withHealth_of_ne {target q : TaskId} (hq : q ≠ target) (s : State) (health : Int32) :
    (s.withHealth target health).task q = s.task q := task_modTask_of_ne hq _ _

/-- The health of the target does not decide about any other attack. -/
theorem threatens_withHealth (s : State) (target attacker : TaskId) (health : Int32) :
    Threatens (s.withHealth target health) target attacker ↔ Threatens s target attacker := by
  by_cases hother : attacker = target
  · exact iff_of_false (fun h => h.2.2 hother) fun h => h.2.2 hother
  · rw [Threatens, Threatens, task_withHealth_of_ne hother]

theorem secretStolen_withHealth (s : State) {target attacker : TaskId} (hother : attacker ≠ target) (health : Int32) :
    secretStolen (s.withHealth target health).heap
        ((s.withHealth target health).task target).secretsPtr
        ((s.withHealth target health).task attacker).mySecret =
      secretStolen s.heap (s.task target).secretsPtr (s.task attacker).mySecret := by
  rw [task_withHealth_self, task_withHealth_of_ne hother]
  rfl

theorem harm_withHealth (s : State) (target attacker : TaskId) (health : Int32) :
    harm (s.withHealth target health) target attacker = harm s target attacker := by
  have hiff := threatens_withHealth s target attacker health
  by_cases hthreatens : Threatens s target attacker
  · have hother := hthreatens.2.2
    rw [harm, harm, secretStolen_withHealth s hother, task_withHealth_of_ne hother]
    exact if_congr (and_congr_left fun _ => hiff) rfl rfl
  · rw [harm, harm, if_neg fun h => hthreatens (hiff.1 h.1), if_neg fun h => hthreatens h.1]

theorem Searched.withHealth (h : Searched s target attacker) (health : Int32) :
    Searched (s.withHealth target health) target attacker := by
  intro hthreatens
  have hthreatens' := (threatens_withHealth s target attacker health).1 hthreatens
  rw [secretStolen_withHealth s hthreatens'.2.2]
  exact h hthreatens'

theorem live_withHealth (s : State) (target q : TaskId) (health : Int32) :
    (s.withHealth target health).Live q ↔ s.Live q := by
  have hvisible : (s.withHealth target health).Visible q ↔ s.Visible q :=
    visible_modTask (f := fun u => { u with health := health }) (fun _ => rfl) s.heap q
  rw [State.Live, State.Live, hvisible]
  by_cases hq : q = target
  · rw [hq, task_withHealth_self]
  · rw [task_withHealth_of_ne hq]

theorem power_withHealth (s : State) (target q : TaskId) (health : Int32) :
    ((s.withHealth target health).task q).power = (s.task q).power := by
  by_cases hq : q = target
  · rw [hq, task_withHealth_self]
  · rw [task_withHealth_of_ne hq]

theorem Faces.attacked (hfaces : Faces s target pid) (hstep : machine.Step s (attempt pid attacker) t)
    {health : Int32} (ht : t = s.withHealth target health) : Faces t target pid := by
  refine ⟨hfaces.sane.step hstep, ?_, ?_, ?_⟩
  · rw [ht, live_withHealth]
    exact hfaces.live
  · rw [ht, task_withHealth_self]
    exact hfaces.armed
  · rw [ht, task_withHealth_self]
    exact hfaces.pid_eq

end Attack

/-! ### Attacks in a row -/

/-- What health is left of `target` when all have attacked it. -/
def remaining (s : State) (target : TaskId) (attackers : List TaskId) : Int :=
  max 0 ((s.task target).health.toInt - (attackers.map (harm s target)).sum)

section Row

variable {s t : State} {target : TaskId} {pid : Int32}

theorem sum_harm_nonneg (target : TaskId) {attackers : List TaskId}
    (hpower : ∀ a ∈ attackers, 0 ≤ (s.task a).power.toInt) :
    0 ≤ (attackers.map (harm s target)).sum := by
  apply List.sum_nonneg
  intro x hx
  obtain ⟨a, ha, rfl⟩ := List.mem_map.1 hx
  exact harm_nonneg target (hpower a ha)

/-- An attack and then the others: what is left is clamped once. -/
theorem remaining_cons {attacker : TaskId} {attackers : List TaskId} {health : Int32}
    (hpower : ∀ a ∈ attackers, 0 ≤ (s.task a).power.toInt)
    (hhealth : health.toInt = max 0 ((s.task target).health.toInt - harm s target attacker)) :
    remaining (s.withHealth target health) target attackers =
      remaining s target (attacker :: attackers) := by
  have hsum := sum_harm_nonneg target hpower
  have hsame : attackers.map (harm (s.withHealth target health) target) =
      attackers.map (harm s target) := List.map_congr_left fun a _ => harm_withHealth s target a health
  rw [remaining, remaining, hsame, task_withHealth_self, List.map_cons, List.sum_cons]
  generalize (attackers.map (harm s target)).sum = others at hsum ⊢
  calc max 0 (health.toInt - others)
      = max 0 (max 0 ((s.task target).health.toInt - harm s target attacker) - others) := by rw [hhealth]
    _ = max 0 ((s.task target).health.toInt - (harm s target attacker + others)) := by omega

/-- Attacks in a row all return if the searches do, and leave what is to be left. -/
theorem Faces.row (hfaces : Faces s target pid) (order : List TaskId)
    (hattackers : ∀ a ∈ order, s.Live a ∧ 0 ≤ (s.task a).power.toInt)
    (h : (s.task target).health = 0 ∨ ∀ a ∈ order, Searched s target a) :
    ∃ t, machine.Run s (order.map (attempt pid)) t ∧ (t.task target).health.toInt = remaining s target order := by
  induction order generalizing s with
  | nil =>
      have hnonneg := hfaces.nonneg
      refine ⟨s, .nil s, ?_⟩
      rw [remaining, List.map_nil, List.sum_nil]
      omega
  | cons a order ih =>
      obtain ⟨hlive, hpower⟩ := hattackers a List.mem_cons_self
      obtain ⟨x, hcall⟩ := hfaces.returns (h.imp_right fun h => h a List.mem_cons_self)
      have hstep : machine.Step s (attempt pid a) x.2 := by
        refine ⟨⟨hlive.1, hlive.2, trivial⟩, ?_⟩
        show (do return (← sysMagicAttack a pid s).2) = _
        rw [hcall]
        rfl
      obtain ⟨health, ht, hhealth⟩ := hfaces.attack hpower hstep
      have hrest : ∀ b ∈ order, s.Live b ∧ 0 ≤ (s.task b).power.toInt :=
        fun b hb => hattackers b (List.mem_cons_of_mem a hb)
      have hfaces' := hfaces.attacked hstep ht
      rw [ht] at hfaces' hstep
      have hrest' : ∀ b ∈ order, (s.withHealth target health).Live b ∧
          0 ≤ ((s.withHealth target health).task b).power.toInt := by
        intro b hb
        rw [live_withHealth, power_withHealth]
        exact hrest b hb
      have hlater : ((s.withHealth target health).task target).health = 0 ∨
          ∀ b ∈ order, Searched (s.withHealth target health) target b := by
        rcases h with hzero | hsearched
        · left
          rw [task_withHealth_self]
          apply Int32.toInt_inj.1
          have hharm := harm_nonneg target hpower
          have hgone := toInt_zero_of_health hzero
          dsimp only
          rw [hhealth, Int32.toInt_zero]
          omega
        · right
          intro b hb
          exact (hsearched b (List.mem_cons_of_mem a hb)).withHealth health
      obtain ⟨u, hrun, hleft⟩ := ih hfaces' hrest' hlater
      refine ⟨u, .cons hstep hrun, ?_⟩
      rw [hleft, remaining_cons (fun b hb => (hrest b hb).2) hhealth]

end Row

/-! ### Attacks among other steps -/

def attackerOf (e : Event) : Option TaskId :=
  match e.call with
  | .attack _ => some e.current
  | _ => none

/-- An attack on the process number `pid`, or a step that is no wand call and does not end a task concerned. -/
def Between (pid : Int32) (target : TaskId) (attackers : List TaskId) (e : Event) : Prop :=
  match e.call with
  | .attack pid' => pid' = pid
  | .fork _ _ _ => True
  | .release _ => True
  | .exit => e.current ≠ target ∧ e.current ∉ attackers
  | _ => False

section Among

variable {s t : State} {e : Event} {xs : TaskId → List Addr} {target attacker : TaskId} {pid : Int32}
  {attackers : List TaskId}

theorem eq_attempt (hbetween : Between pid target attackers e) (h : attackerOf e = some attacker) :
    e = attempt pid attacker := by
  obtain ⟨p, call⟩ := e
  cases call with
  | attack pid' =>
      cases h
      rw [show pid' = pid from hbetween]
      rfl
  | _ => cases h

theorem Between.ne_exit (hbetween : Between pid target attackers e) {q : TaskId} (hq : q = target ∨ q ∈ attackers) :
    e ≠ ⟨q, .exit⟩ := by
  rintro rfl
  rcases hq with rfl | hq
  · exact hbetween.1 rfl
  · exact hbetween.2 hq

/-- Forks, exits and releases of other tasks leave a live task as it is. -/
theorem Between.task_eq (hbetween : Between pid target attackers e) (hquiet : attackerOf e = none)
    (hhashed : Hashed s) (hstep : machine.Step s e t) {q : TaskId} (hq : s.Live q)
    (hconcerned : q = target ∨ q ∈ attackers) : t.Live q ∧ t.task q = s.task q := by
  have hexit := hbetween.ne_exit hconcerned
  obtain ⟨hlive, hchange⟩ := hq.step hhashed hstep hexit
  refine ⟨hlive, ?_⟩
  generalize t.task q = u at hchange
  cases hchange with
  | same => rfl
  | noMemory he hwand =>
      subst he
      exact hbetween.elim
  | wand he hwand =>
      subst he
      exact hbetween.elim
  | changed he hwand hdiff =>
      subst he
      exact hbetween.elim
  | hit he hlands =>
      subst he
      cases hquiet
  | clock he magicTime magicCallTime =>
      subst he
      exact hbetween.elim
  | exited he => exact absurd he hexit

theorem Between.loot_eq (hbetween : Between pid target attackers e) (q : TaskId) : loot s e q = [] := by
  have hnone : victimOf s e = none := by
    obtain ⟨p, call⟩ := e
    cases call with
    | legilimens => exact hbetween.elim
    | _ => rfl
  rw [loot, hnone]
  split <;> rfl

/-- While tasks keep their blocks, the search finds the attacker's string in the target's list just if it is
there. -/
theorem Owns.search (howns : Owns s xs) (htarget : s.Live target) (hattacker : s.Live attacker)
    (hwand : (s.task attacker).holdingWand = true) :
    secretStolen s.heap (s.task target).secretsPtr (s.task attacker).mySecret =
      .ok (decide (text (stringAt s.heap (s.task attacker).mySecret) ∈ stolenTexts s.heap (xs target))) := by
  obtain ⟨mine, hmine, hzero, -⟩ := (howns.keeps attacker hattacker).secret hwand
  rw [secretStolen_iff (howns.keeps target htarget) hmine hzero, stringAt_of_string hmine]

theorem Owns.searched (howns : Owns s xs) (htarget : s.Live target) (hattacker : s.Live attacker) :
    Searched s target attacker := fun hthreatens => ⟨_, howns.search htarget hattacker hthreatens.1⟩

theorem Owns.harm_eq (howns : Owns s xs) (htarget : s.Live target) (hattacker : s.Live attacker) :
    harm s target attacker = if Threatens s target attacker ∧
        text (stringAt s.heap (s.task attacker).mySecret) ∉ stolenTexts s.heap (xs target)
      then (s.task attacker).power.toInt else 0 := by
  refine if_congr (and_congr_right fun hthreatens => ?_) rfl rfl
  rw [howns.search htarget hattacker hthreatens.1, Except.ok.injEq, decide_eq_false_iff_not]

/-- A step in between changes nothing that decides about an attack. -/
theorem Between.harm_step (hbetween : Between pid target attackers e) (hquiet : attackerOf e = none)
    (howns : Owns s xs) (hstep : machine.Step s e t) {ys : TaskId → List Addr} (howns' : Owns t ys)
    (hcarries : ∀ q, s.Live q → t.Live q → Carries s t e q (xs q) (ys q)) (htarget : s.Live target)
    (hattacker : s.Live attacker) (hmem : attacker ∈ attackers) : harm t target attacker = harm s target attacker := by
  obtain ⟨htarget', htask⟩ := hbetween.task_eq hquiet howns.hashed hstep htarget (Or.inl rfl)
  obtain ⟨hattacker', htask'⟩ := hbetween.task_eq hquiet howns.hashed hstep hattacker (Or.inr hmem)
  have hlist : stolenTexts t.heap (ys target) = stolenTexts s.heap (xs target) := by
    rw [(hcarries target htarget htarget').stolenTexts (howns.keeps target htarget), hbetween.loot_eq]
    exact List.append_nil _
  have hthreatens : Threatens t target attacker ↔ Threatens s target attacker := by
    rw [Threatens, Threatens, htask']
  rw [howns'.harm_eq htarget' hattacker', howns.harm_eq htarget hattacker]
  refine if_congr ?_ (by rw [htask']) rfl
  rw [hthreatens, hlist]
  refine and_congr_right fun h => ?_
  rw [howns.stringAt_step hstep hattacker (hbetween.ne_exit (Or.inr hmem)) h.1 (hcarries attacker hattacker hattacker')]

/-- Attacks in any order, with steps in between that are no wand calls, leave what is to be left. -/
theorem Faces.run {es : List Event} (hrun : (machine.restrict CleanExit).Run s es t) (howns : Owns s xs)
    (hfaces : Faces s target pid) (hbetween : ∀ e ∈ es, Between pid target attackers e)
    (hattackers : ∀ a ∈ attackers, s.Live a ∧ 0 ≤ (s.task a).power.toInt)
    (hof : ∀ a ∈ es.filterMap attackerOf, a ∈ attackers) :
    (t.task target).health.toInt = remaining s target (es.filterMap attackerOf) := by
  induction hrun generalizing xs with
  | nil s =>
      have hnonneg := hfaces.nonneg
      rw [List.filterMap_nil, remaining, List.map_nil, List.sum_nil]
      omega
  | @cons s u t e es hstep hrun ih =>
      obtain ⟨hclean, hstep⟩ := Machine.restrict_step.1 hstep
      obtain ⟨ys, howns', hcarries⟩ := howns.step hclean hstep
      have hfirst := hbetween e List.mem_cons_self
      have hrest : ∀ e' ∈ es, Between pid target attackers e' := fun e' he => hbetween e' (List.mem_cons_of_mem e he)
      have hsane := hfaces.sane.step hstep
      cases hattacker : attackerOf e with
      | some a =>
          rw [List.filterMap_cons_some hattacker] at hof ⊢
          obtain rfl := eq_attempt hfirst hattacker
          obtain ⟨hlive, hpower⟩ := hattackers a (hof a List.mem_cons_self)
          obtain ⟨health, rfl, hhealth⟩ := hfaces.attack hpower hstep
          have hof' : ∀ b ∈ es.filterMap attackerOf, b ∈ attackers := fun b hb => hof b (List.mem_cons_of_mem a hb)
          rw [ih howns' (hfaces.attacked hstep rfl) hrest (fun b hb => by
              rw [live_withHealth, power_withHealth]
              exact hattackers b hb) hof']
          exact remaining_cons (fun b hb => (hattackers b (hof' b hb)).2) hhealth
      | none =>
          rw [List.filterMap_cons_none hattacker] at hof ⊢
          obtain ⟨htarget, htask⟩ := hfirst.task_eq hattacker howns.hashed hstep hfaces.live (Or.inl rfl)
          have hattackers' : ∀ b ∈ attackers, u.Live b ∧ 0 ≤ (u.task b).power.toInt := by
            intro b hb
            obtain ⟨hlive, hpower⟩ := hattackers b hb
            obtain ⟨hlive', htask'⟩ := hfirst.task_eq hattacker howns.hashed hstep hlive (Or.inr hb)
            exact ⟨hlive', by rw [htask']; exact hpower⟩
          have hfaces' : Faces u target pid :=
            ⟨hsane, htarget, by rw [htask]; exact hfaces.armed, by rw [htask]; exact hfaces.pid_eq⟩
          rw [ih howns' hfaces' hrest hattackers' hof, remaining, remaining, htask]
          congr 3
          refine List.map_congr_left fun b hb => ?_
          exact hfirst.harm_step hattacker howns hstep howns' hcarries hfaces.live
            (hattackers b (hof b hb)).1 (hof b hb)

end Among

end MagicKernel.Wand
