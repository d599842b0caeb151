import MagicKernel.WandHistory

/-! Whose minds a task has read. `sys_magic_legilimens` tells its victims apart by their secrets: it refuses a
process whose secret is among those it has already read, and this is the same as refusing a process that
it has already read as long as no other process read before had the same secret. A process is told by its
task structure and by how many processes that structure has served before. -/

namespace MagicKernel.Wand

open FaultMachine BlockHeap

/-! ### What is written down -/

/-- A process: its task structure, and how often that has been handed out. -/
abbrev Process := TaskId × Nat

/-- A successful reading: the process, and its secret. -/
structure Reading where
  victim : Process
  secret : List UInt8
  deriving DecidableEq

structure Census where
  lives : TaskId → Nat
  read : TaskId → List Reading

def Census.blank : Census where
  lives _ := 0
  read _ := []

def Census.process (c : Census) (q : TaskId) : Process := (q, c.lives q)

/-- The reading by `q` that a call is. -/
def readings (s : State) (e : Event) (c : Census) (q : TaskId) : List Reading :=
  if e.current = q then
    (victimOf s e).toList.map fun v => ⟨c.process v, text (stringAt s.heap (s.task v).mySecret)⟩
  else []

/-- A fork makes a new process of the child's structure, which has read nothing. -/
def enroll (s : State) (e : Event) (c : Census) : Census :=
  match e.call with
  | .fork child _ _ =>
    { lives := Function.update c.lives child (c.lives child + 1), read := Function.update c.read child [] }
  | _ => { c with read := fun q => c.read q ++ readings s e c q }

/-- The runs whose exits free no block of another task, with their census. -/
def censusMachine : Machine (State × Census) Event Fault := (machine.restrict CleanExit).record enroll

section Enroll

variable {s : State} {e : Event} {c : Census} {q : TaskId}

theorem map_readings : (readings s e c q).map Reading.secret = loot s e q := by
  rw [readings, loot]
  split
  · rw [List.map_map]
    rfl
  · rfl

theorem enroll_of_child {parent : TaskId} {pid : Int32} {mem : Addr} (he : e = ⟨parent, .fork q pid mem⟩) :
    (enroll s e c).lives q = c.lives q + 1 ∧ (enroll s e c).read q = [] := by
  subst he
  exact ⟨Function.update_self _ _ _, Function.update_self _ _ _⟩

/-- A task that is not just born. -/
theorem enroll_of_ne (hq : ∀ parent pid mem, e ≠ ⟨parent, .fork q pid mem⟩) :
    (enroll s e c).lives q = c.lives q ∧ (enroll s e c).read q = c.read q ++ readings s e c q := by
  obtain ⟨p, call⟩ := e
  cases call with
  | fork child pid mem =>
      have hne : q ≠ child := by
        rintro rfl
        exact hq p pid mem rfl
      have hnone : readings s ⟨p, .fork child pid mem⟩ c q = [] := by
        rw [readings]
        exact ite_self _
      rw [hnone, List.append_nil]
      exact ⟨Function.update_of_ne hne _ _, Function.update_of_ne hne _ _⟩
  | getWand power secret mem junk => exact ⟨rfl, rfl⟩
  | attack pid => exact ⟨rfl, rfl⟩
  | legilimens pid mem junk => exact ⟨rfl, rfl⟩
  | listSecrets secrets size => exact ⟨rfl, rfl⟩
  | magicClock seconds jiffies => exact ⟨rfl, rfl⟩
  | exit => exact ⟨rfl, rfl⟩
  | release p' => exact ⟨rfl, rfl⟩

theorem lives_le_enroll : c.lives q ≤ (enroll s e c).lives q := by
  by_cases hchild : ∃ parent pid mem, e = ⟨parent, .fork q pid mem⟩
  · obtain ⟨parent, pid, mem, he⟩ := hchild
    rw [(enroll_of_child he).1]
    exact Nat.le_succ _
  · have hne : ∀ parent pid mem, e ≠ ⟨parent, .fork q pid mem⟩ := fun parent pid mem he =>
      hchild ⟨parent, pid, mem, he⟩
    exact Nat.le_of_eq (enroll_of_ne hne).1.symm

end Enroll

/-! ### What the lists say of the census -/

/-- The lists of the live tasks have the secrets that were read, none twice; and what was read from a process
that is still live is the secret it has. -/
structure Enrolled (s : State) (xs : TaskId → List Addr) (c : Census) : Prop where
  texts : ∀ q, s.Live q → stolenTexts s.heap (xs q) = (c.read q).map Reading.secret
  nodup : ∀ q, s.Live q → (stolenTexts s.heap (xs q)).Nodup
  lives : ∀ q, s.Live q → ∀ x ∈ c.read q, x.victim.2 ≤ c.lives x.victim.1
  current : ∀ q, s.Live q → ∀ v, s.Live v → ∀ x ∈ c.read q, x.victim = c.process v →
    (s.task v).holdingWand = true ∧ x.secret = text (stringAt s.heap (s.task v).mySecret)

section Enrolled

variable {s t : State} {e : Event} {xs ys : TaskId → List Addr} {c : Census} {q v : TaskId}

/-- A step reads from a task with a wand. -/
theorem mem_readings (hgains : Gains s t e q (xs q) (ys q)) {x : Reading} (hx : x ∈ readings s e c q) :
    ∃ u, (s.task u).holdingWand = true ∧ x.victim = c.process u ∧
      x.secret = text (stringAt s.heap (s.task u).mySecret) := by
  rw [readings] at hx
  split at hx
  · rename_i hcurrent
    obtain ⟨u, hu, rfl⟩ := List.mem_map.1 hx
    refine ⟨u, ?_, rfl, rfl⟩
    generalize ys q = zs at hgains
    cases hgains with
    | nothing hnone =>
        rw [hnone hcurrent] at hu
        exact absurd hu List.not_mem_nil
    | secret he hsteals hvictim hmine hspells hentry =>
        rw [hvictim, Option.toList_some, List.mem_singleton] at hu
        subst hu
        exact hsteals.victimArmed
  · exact absurd hx List.not_mem_nil

/-- What has been read from a task that is live before and after a step. -/
theorem Enrolled.current_step (henrolled : Enrolled s xs c) (howns : Owns s xs) (hstep : machine.Step s e t)
    (hcarries : ∀ q, s.Live q → t.Live q → Carries s t e q (xs q) (ys q)) (hq : s.Live q) (hq' : t.Live q)
    (hv : s.Live v) (hv' : t.Live v) {x : Reading} (hx : x ∈ c.read q ++ readings s e c q)
    (hvictim : x.victim = c.process v) :
    (t.task v).holdingWand = true ∧ x.secret = text (stringAt t.heap (t.task v).mySecret) := by
  have hexit : e ≠ ⟨v, .exit⟩ := by
    rintro rfl
    exact not_live_of_exit hstep.2 hv'
  have hold : (s.task v).holdingWand = true ∧ x.secret = text (stringAt s.heap (s.task v).mySecret) := by
    rcases List.mem_append.1 hx with hx | hx
    · exact henrolled.current q hq v hv x hx hvictim
    · obtain ⟨u, hwand, hprocess, hsecret⟩ := mem_readings (hcarries q hq hq').entries hx
      obtain rfl : u = v := congrArg Prod.fst (hprocess.symm.trans hvictim)
      exact ⟨hwand, hsecret⟩
  obtain ⟨-, hchange⟩ := hv.step howns.hashed hstep hexit
  refine ⟨(hchange.of_wand hold.1).1, ?_⟩
  rw [howns.stringAt_step hstep hv hexit hold.1 (hcarries v hv hv')]
  exact hold.2

theorem Enrolled.lives_step (henrolled : Enrolled s xs c) (hgains : Gains s t e q (xs q) (ys q)) (hq : s.Live q)
    {x : Reading} (hx : x ∈ c.read q ++ readings s e c q) : x.victim.2 ≤ c.lives x.victim.1 := by
  rcases List.mem_append.1 hx with hx | hx
  · exact henrolled.lives q hq x hx
  · obtain ⟨u, -, hprocess, -⟩ := mem_readings hgains hx
    rw [hprocess]
    exact Nat.le_refl _

theorem Enrolled.step (henrolled : Enrolled s xs c) (howns : Owns s xs) (howns' : Owns t ys)
    (hstep : machine.Step s e t) (hcarries : ∀ q, s.Live q → t.Live q → Carries s t e q (xs q) (ys q)) :
    Enrolled t ys (enroll s e c) := by
  have hnewborn : ∀ q, t.Live q → s.Live q ∧ (∀ parent pid mem, e ≠ ⟨parent, .fork q pid mem⟩) ∨
      ∃ parent pid mem, e = ⟨parent, .fork q pid mem⟩ ∧ ys q = [] := by
    intro q hq
    rcases hq.of_step howns.hashed hstep with hs | ⟨parent, pid, mem, rfl, -⟩
    · refine Or.inl ⟨hs, ?_⟩
      rintro parent pid mem rfl
      exact howns.ne_of_unused hstep.1.2.2.1 hs rfl
    · exact Or.inr ⟨parent, pid, mem, rfl, howns'.entries_child hstep howns.hashed hq⟩
  have hlives : ∀ q, t.Live q → ∀ x ∈ (enroll s e c).read q, x.victim.2 ≤ c.lives x.victim.1 := by
    intro q hq x hx
    rcases hnewborn q hq with ⟨hs, hne⟩ | ⟨parent, pid, mem, he, -⟩
    · rw [(enroll_of_ne hne).2] at hx
      exact henrolled.lives_step (hcarries q hs hq).entries hs hx
    · rw [(enroll_of_child he).2] at hx
      exact absurd hx List.not_mem_nil
  refine ⟨?_, ?_, ?_, ?_⟩
  · intro q hq
    rcases hnewborn q hq with ⟨hs, hne⟩ | ⟨parent, pid, mem, he, hnil⟩
    · rw [(hcarries q hs hq).stolenTexts (howns.keeps q hs), (enroll_of_ne hne).2, List.map_append,
        henrolled.texts q hs, map_readings]
    · rw [hnil, (enroll_of_child he).2]
      rfl
  · intro q hq
    rcases hnewborn q hq with ⟨hs, -⟩ | ⟨_, _, _, -, hnil⟩
    · rw [(hcarries q hs hq).stolenTexts (howns.keeps q hs)]
      exact nodup_loot (howns.keeps q hs) (hcarries q hs hq).entries (henrolled.nodup q hs)
    · rw [hnil]
      exact List.nodup_nil
  · intro q hq x hx
    exact (hlives q hq x hx).trans lives_le_enroll
  · intro q hq v hv x hx hvictim
    rcases hnewborn v hv with ⟨hsv, hnev⟩ | ⟨parent, pid, mem, he, -⟩
    · rw [Census.process, (enroll_of_ne hnev).1] at hvictim
      rcases hnewborn q hq with ⟨hsq, hneq⟩ | ⟨parent, pid, mem, he, -⟩
      · rw [(enroll_of_ne hneq).2] at hx
        exact henrolled.current_step howns hstep hcarries hsq hq hsv hv hx hvictim
      · rw [(enroll_of_child he).2] at hx
        exact absurd hx List.not_mem_nil
    · -- Nobody has read the process that was just born.
      have hle := hlives q hq x hx
      rw [hvictim, Census.process, (enroll_of_child he).1] at hle
      exact absurd hle (Nat.not_succ_le_self _)

end Enrolled

/-- Runs start with an empty census. -/
def Uncounted (x : State × Census) : Prop := Initial x.1 ∧ x.2 = .blank

theorem enrolled_of_reachable {x : State × Census} (h : censusMachine.Reachable Uncounted x) :
    ∃ xs, Owns x.1 xs ∧ Enrolled x.1 xs x.2 := by
  refine h.invariant (I := fun y => ∃ xs, Owns y.1 xs ∧ Enrolled y.1 xs y.2) ?_ ?_
  · rintro ⟨s, c⟩ ⟨hinit, rfl⟩
    refine ⟨_, owns_of_initial hinit, fun q _ => rfl, fun q _ => List.nodup_nil, fun q _ x hx => ?_,
      fun q _ v _ x hx => ?_⟩
    · exact absurd hx List.not_mem_nil
    · exact absurd hx List.not_mem_nil
  · rintro ⟨s, c⟩ e ⟨t, c'⟩ - ⟨xs, howns, henrolled⟩ hstep
    obtain ⟨hstep, hnote⟩ := Machine.record_step.1 hstep
    obtain ⟨hclean, hstep⟩ := Machine.restrict_step.1 hstep
    obtain ⟨ys, howns', hcarries⟩ := howns.step hclean hstep
    dsimp only at hnote
    subst hnote
    exact ⟨ys, howns', henrolled.step howns howns' hstep hcarries⟩

/-! ### The answers -/

/-- The mind of the process that has the structure `v` has been read by `thief`. -/
def Census.HasRead (c : Census) (thief v : TaskId) : Prop := ∃ x ∈ c.read thief, x.victim = c.process v

/-- No other process that `thief` has read had the secret of `v`. -/
def Told (s : State) (c : Census) (thief v : TaskId) : Prop :=
  ∀ x ∈ c.read thief, x.victim ≠ c.process v → x.secret ≠ text (stringAt s.heap (s.task v).mySecret)

/-- A reading of the mind of `v` is refused as known if and only if it has been read; if it has not, and there is
memory, it succeeds, and `thief` has one secret more. -/
def Remembers (s : State) (c : Census) (thief v : TaskId) (pid : Int32) (mem : Addr) (junk : Nat → UInt8) : Prop :=
  ((∃ t, sysMagicLegilimens thief pid mem junk s = .ok (-EEXIST, t)) ↔ c.HasRead thief v) ∧
  (¬c.HasRead thief v → mem ≠ 0 → ∃ t n, sysMagicLegilimens thief pid mem junk s = .ok (0, t) ∧
    sysMagicListSecrets thief none 0 s = .ok (n, []) ∧ sysMagicListSecrets thief none 0 t = .ok (n + 1, []))

section Answers

variable {s t : State} {xs : TaskId → List Addr} {c : Census} {thief v : TaskId} {pid : Int32} {mem : Addr}
  {junk : Nat → UInt8}

/-- What a reading of a live mind returns. -/
theorem legilimens_of_live (junk : Nat → UInt8) (howns : Owns s xs) (hthief : s.Live thief) (hv : s.Live v)
    (hfound : findTaskByPid s pid = some v) (hother : v ≠ thief) (harmed : (s.task thief).holdingWand = true)
    (hwand : (s.task v).holdingWand = true) (hfree : s.heap.cells mem = none) :
    ∃ t, sysMagicLegilimens thief pid mem junk s = .ok
      (if text (stringAt s.heap (s.task v).mySecret) ∈ stolenTexts s.heap (xs thief) then (-EEXIST, s)
      else if mem = 0 then (-ENOMEM, s) else (0, t)) := by
  have hkeeps := howns.keeps thief hthief
  obtain ⟨mine, hmine, hzero, -⟩ := (howns.keeps v hv).secret hwand
  obtain ⟨t, ht⟩ := sysMagicLegilimens_eq junk hkeeps (howns.keeps v hv) hfound hother harmed hwand hfree
    (secretStolen_iff hkeeps hmine hzero)
  refine ⟨t, ht.trans ?_⟩
  rw [stringAt_of_string hmine]
  simp only [decide_eq_true_eq]

/-- The number of secrets that a task is told it has. -/
theorem listSecrets_count {ys : List Addr} (hkeeps : Keeps s.heap (s.task thief) ys)
    (harmed : (s.task thief).holdingWand = true) : sysMagicListSecrets thief none 0 s = .ok (ys.length, []) := by
  have hroom : (0 : Nat) ≠ 0 → ∃ room, (none : Option (Nat → Nat)) = some room ∧
      ∀ i < 0, secretMaxsize ≤ room i := fun hne => absurd rfl hne
  rw [sysMagicListSecrets_eq hkeeps harmed hroom, Nat.min_zero, List.take_zero, Nat.zero_sub]
  simp [copies, pads]

/-- A successful reading adds one secret. -/
theorem count_of_theft (howns : Owns s xs) (henabled : machine.enabled s ⟨thief, .legilimens pid mem junk⟩)
    (harmed : (s.task thief).holdingWand = true) (hfound : findTaskByPid s pid = some v) (hother : v ≠ thief)
    (htheft : sysMagicLegilimens thief pid mem junk s = .ok (0, t)) :
    sysMagicListSecrets thief none 0 s = .ok ((xs thief).length, []) ∧
      sysMagicListSecrets thief none 0 t = .ok ((xs thief).length + 1, []) := by
  have hthief : s.Live thief := ⟨henabled.1, henabled.2.1⟩
  have hstep : machine.Step s ⟨thief, .legilimens pid mem junk⟩ t := ⟨henabled, bind_eq_ok.2 ⟨_, htheft, rfl⟩⟩
  have hclean : CleanExit s ⟨thief, .legilimens pid mem junk⟩ := trivial
  obtain ⟨ys, howns', hcarries⟩ := howns.step hclean hstep
  obtain ⟨hthief', hchange⟩ := hthief.step howns.hashed hstep (fun he => by cases he)
  have hentries := (hcarries thief hthief hthief').entries
  have hlength : (ys thief).length = (xs thief).length + 1 := by
    generalize ys thief = zs at hentries
    cases hentries with
    | nothing hnone =>
        have hvictim := hnone rfl
        rcases sysMagicLegilimens_cases htheft with ⟨-, hneg | hself⟩ | ⟨u, _, _, _, hsteals, -⟩
        · exact absurd hneg (Int.lt_irrefl 0)
        · rw [hfound] at hself
          exact absurd (Option.some.inj hself) hother
        · rw [victimOf_of_steals htheft hsteals] at hvictim
          cases hvictim
    | secret => exact List.length_append
  refine ⟨listSecrets_count (howns.keeps thief hthief) harmed, ?_⟩
  rw [listSecrets_count (howns'.keeps thief hthief') (hchange.of_wand harmed).1, hlength]
  rfl

end Answers

/-- Victims and strings. In runs whose exits free no block of another task, a reading of the mind of a live
process that holds a wand goes by whether that process has been read before if and only if no other process
that the caller has read had the same secret. -/
theorem legilimens_remembers_iff {s : State} {c : Census} (hreach : censusMachine.Reachable Uncounted (s, c))
    {thief v : TaskId} {pid : Int32} {mem : Addr} {junk : Nat → UInt8}
    (henabled : machine.enabled s ⟨thief, .legilimens pid mem junk⟩) (hfound : findTaskByPid s pid = some v)
    (hother : v ≠ thief) (harmed : (s.task thief).holdingWand = true) (hwand : (s.task v).holdingWand = true)
    (hlive : (s.task v).exited = false) : Remembers s c thief v pid mem junk ↔ Told s c thief v := by
  obtain ⟨xs, howns, henrolled⟩ := enrolled_of_reachable hreach
  have hthief : s.Live thief := ⟨henabled.1, henabled.2.1⟩
  have hv : s.Live v := ⟨visible_of_find hfound, hlive⟩
  obtain ⟨t, hcall⟩ := legilimens_of_live junk howns hthief hv hfound hother harmed hwand henabled.2.2
  have htexts := henrolled.texts thief hthief
  have hnodup := htexts ▸ henrolled.nodup thief hthief
  -- Whoever has been read has its secret in the list.
  have hread : c.HasRead thief v → text (stringAt s.heap (s.task v).mySecret) ∈ stolenTexts s.heap (xs thief) := by
    rintro ⟨x, hx, hvictim⟩
    rw [htexts, ← (henrolled.current thief hthief v hv x hx hvictim).2]
    exact List.mem_map_of_mem hx
  constructor
  · rintro ⟨hexists, -⟩ x hx hne hsecret
    have hknown : text (stringAt s.heap (s.task v).mySecret) ∈ stolenTexts s.heap (xs thief) := by
      rw [htexts, ← hsecret]
      exact List.mem_map_of_mem hx
    rw [if_pos hknown] at hcall
    obtain ⟨y, hy, hvictim⟩ := hexists.1 ⟨s, hcall⟩
    have hsame := hsecret.trans (henrolled.current thief hthief v hv y hy hvictim).2.symm
    obtain rfl := List.inj_on_of_nodup_map hnodup hx hy hsame
    exact hne hvictim
  · intro htold
    have hknown : text (stringAt s.heap (s.task v).mySecret) ∈ stolenTexts s.heap (xs thief) → c.HasRead thief v := by
      intro hmem
      rw [htexts] at hmem
      obtain ⟨x, hx, hsecret⟩ := List.mem_map.1 hmem
      by_contra hnot
      exact htold x hx (fun hvictim => hnot ⟨x, hx, hvictim⟩) hsecret
    refine ⟨⟨fun ⟨u, hu⟩ => hknown ?_, fun h => ⟨s, ?_⟩⟩, fun hnot hmem => ?_⟩
    · by_contra hmem
      rw [hcall, if_neg hmem] at hu
      split at hu
      · cases hu
      · cases hu
    · rw [hcall, if_pos (hread h)]
    · rw [if_neg (fun h => hnot (hknown h)), if_neg hmem] at hcall
      obtain ⟨hbefore, hafter⟩ := count_of_theft howns henabled harmed hfound hother hcall
      exact ⟨t, _, hcall, hbefore, hafter⟩

instance (x : State × Census) (e : Event) : Decidable (censusMachine.enabled x e) :=
  inferInstanceAs (Decidable (machine.enabled x.1 e ∧ CleanExit x.1 e))

/-- The second task reads the mind of the first; a third gets the secret of the first for its wand. -/
def namesakesEvents : List Event :=
  armedEvents ++ [⟨2, .legilimens 1 5 fun _ => 7⟩, ⟨1, .fork 3 3 6⟩,
    ⟨3, .getWand 1 (some (oneLetter 97)) 7 fun _ => 7⟩]

def namesakes : State × Census := censusMachine.after (boot, .blank) namesakesEvents

theorem namesakes_reachable : censusMachine.Reachable Uncounted namesakes :=
  ⟨(boot, .blank), namesakesEvents, ⟨boot_initial, rfl⟩, Machine.run_after (by decide +kernel)⟩

theorem read_namesakes : namesakes.2.read 2 = [⟨(1, 0), [97]⟩] ∧ namesakes.2.process 1 = (1, 0) ∧
    namesakes.2.process 3 = (3, 1) := by decide +kernel

/-- The first task is refused, having been read. -/
theorem legilimens_remembers_iff_namesakes :
    censusMachine.Reachable Uncounted namesakes ∧ namesakes.2.HasRead 2 1 ∧
      ∃ t, sysMagicLegilimens 2 1 8 (fun _ => 7) namesakes.1 = .ok (-EEXIST, t) := by
  have hreach := namesakes_reachable
  obtain ⟨hread, hprocess, -⟩ := read_namesakes
  have hhasRead : namesakes.2.HasRead 2 1 := by
    refine ⟨⟨(1, 0), [97]⟩, ?_, hprocess.symm⟩
    rw [hread]
    exact List.mem_singleton_self _
  have htold : Told namesakes.1 namesakes.2 2 1 := by
    intro x hx hne
    rw [hread, List.mem_singleton] at hx
    rw [hx, hprocess] at hne
    exact absurd rfl hne
  have henabled : machine.enabled namesakes.1 ⟨2, .legilimens 1 8 fun _ => 7⟩ := by decide +kernel
  have hremembers := (legilimens_remembers_iff hreach henabled (by decide +kernel) (by decide) (by decide +kernel)
    (by decide +kernel) (by decide +kernel)).2 htold
  exact ⟨hreach, hhasRead, hremembers.1.2 hhasRead⟩

/-- The third is refused as well, though nobody has read its mind. -/
theorem namesake_refused :
    censusMachine.Reachable Uncounted namesakes ∧ findTaskByPid namesakes.1 3 = some 3 ∧
      (namesakes.1.task 2).holdingWand = true ∧ (namesakes.1.task 3).holdingWand = true ∧
      (∃ t, sysMagicLegilimens 2 3 8 (fun _ => 7) namesakes.1 = .ok (-EEXIST, t)) ∧
      ¬namesakes.2.HasRead 2 3 ∧ ¬Remembers namesakes.1 namesakes.2 2 3 3 8 fun _ => 7 := by
  obtain ⟨hread, -, hprocess⟩ := read_namesakes
  have hhasRead : ¬namesakes.2.HasRead 2 3 := by
    rintro ⟨x, hx, hvictim⟩
    rw [hread, List.mem_singleton] at hx
    rw [hx, hprocess] at hvictim
    exact absurd hvictim (by decide)
  have hrefused : (sysMagicLegilimens 2 3 8 (fun _ => 7) namesakes.1).map Prod.fst = .ok (-EEXIST) := by decide +kernel
  have hexists : ∃ t, sysMagicLegilimens 2 3 8 (fun _ => 7) namesakes.1 = .ok (-EEXIST, t) := by
    generalize sysMagicLegilimens 2 3 8 (fun _ => 7) namesakes.1 = y at hrefused
    cases y with
    | error f => cases hrefused
    | ok y =>
        obtain ⟨r, t⟩ := y
        cases hrefused
        exact ⟨t, rfl⟩
  exact ⟨namesakes_reachable, by decide +kernel, by decide +kernel, by decide +kernel, hexists, hhasRead,
    fun hremembers => hhasRead (hremembers.1.1 hexists)⟩

end MagicKernel.Wand
