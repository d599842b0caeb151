import MagicKernel.WandStable

/-! Wand calls that fail. All of them leave the tasks and the memory alone, with two exceptions, both in
`sys_magic_get_wand`: it stores what `kmalloc` yields in `my_secret` before it looks at it, and it frees the
new secret without clearing `my_secret` when the user's buffer no longer holds what was copied. -/

namespace MagicKernel.Wand

open FaultMachine BlockHeap

/-! ### Calls with their allocations -/

/-- `sysMagicGetWand`, with the blocks that it allocates and frees. -/
def getWandLogged (p : TaskId) (power : Int32) (secret : Option SecretReads) (mem : Addr) (junk : Nat → UInt8)
    (s : State) : Except Fault ((Int × State) × List Traffic) :=
  if (s.task p).holdingWand then .ok ((-EEXIST, s), [])
  else match secret with
    | none => .ok ((-EFAULT, s), [])
    | some r =>
      if r.first = 0 then .ok ((-EINVAL, s), [])
      else do
        let fresh := (List.range (secretLen r.scan)).map junk
        let s := { s with heap := s.heap.alloc mem (.string fresh) }
        let s := s.modTask p fun t => { t with mySecret := mem }
        if mem = 0 then return ((-ENOMEM, s), [])
        else
          let bytes ← strcpy fresh (ofUser r.copy)
          let s := { s with heap := s.heap.modify mem fun _ => .string bytes }
          if ← strcmp bytes (ofUser r.compare) then
            let s := s.modTask p fun t => { t with power := power, holdingWand := true, health := 100 }
            return ((0, s), [.kmalloc mem])
          else
            let heap ← kfree mem s.heap
            return ((-EFAULT, { s with heap := heap }), [.kmalloc mem, .kfree mem])

/-- `sysMagicLegilimens`, with the block that it allocates. -/
def legilimensLogged (attacker : TaskId) (pid : Int32) (mem : Addr) (junk : Nat → UInt8) (s : State) :
    Except Fault ((Int × State) × List Traffic) :=
  match findTaskByPid s pid with
  | none => .ok ((-ESRCH, s), [])
  | some target =>
    if target = attacker then .ok ((0, s), [])
    else if (s.task attacker).holdingWand = false ∨ (s.task target).holdingWand = false then
      .ok ((-EPERM, s), [])
    else do
      if ← secretStolen s.heap (s.task attacker).secretsPtr (s.task target).mySecret then
        return ((-EEXIST, s), [])
      else if mem = 0 then return ((-ENOMEM, s), [])
      else
        let fresh := (List.range secretMaxsize).map junk
        let mine ← loadString s.heap (s.task target).mySecret
        let secret ← strcpy fresh (ofBlock mine)
        let heap := s.heap.alloc mem (.node ⟨0, 0⟩ secret)
        match heap.listAddTail mem (s.task attacker).secretsPtr with
        | none => .error (.access (s.task attacker).secretsPtr)
        | some heap => return ((0, { s with heap := heap }), [.kmalloc mem])

/-- What a wand call returns, the state it leaves, and the blocks it has allocated and freed. -/
inductive Returns (s : State) : Event → Int → State → List Traffic → Prop
  | getWand {p : TaskId} {power : Int32} {secret : Option SecretReads} {mem : Addr} {junk : Nat → UInt8} {r : Int}
      {t : State} {log : List Traffic} (h : getWandLogged p power secret mem junk s = .ok ((r, t), log)) :
      Returns s ⟨p, .getWand power secret mem junk⟩ r t log
  | attack {p : TaskId} {pid : Int32} {r : Int} {t : State} (h : sysMagicAttack p pid s = .ok (r, t)) :
      Returns s ⟨p, .attack pid⟩ r t []
  | legilimens {p : TaskId} {pid : Int32} {mem : Addr} {junk : Nat → UInt8} {r : Int} {t : State} {log : List Traffic}
      (h : legilimensLogged p pid mem junk s = .ok ((r, t), log)) : Returns s ⟨p, .legilimens pid mem junk⟩ r t log
  | listSecrets {p : TaskId} {secrets : Option (Nat → Nat)} {size : Nat} {r : Int} {out : List UserWrite}
      (h : sysMagicListSecrets p secrets size s = .ok (r, out)) : Returns s ⟨p, .listSecrets secrets size⟩ r s []
  | magicClock {p : TaskId} {seconds jiffies : UInt32} {r : Int} {t : State}
      (h : sysMagicClock p seconds jiffies s = (r, t)) : Returns s ⟨p, .magicClock seconds jiffies⟩ r t []

section Logged

variable {s t : State} {p : TaskId} {mem : Addr} {junk : Nat → UInt8} {log : List Traffic}

/-- How `sys_magic_get_wand` may fail. -/
inductive Failed (s : State) (p : TaskId) (secret : Option SecretReads) (mem : Addr) : State → List Traffic → Prop
  | refused (h : (s.task p).holdingWand = true ∨ ∀ r ∈ secret, r.first = 0) : Failed s p secret mem s []
  | noMemory {r : SecretReads} (hsecret : secret = some r) (hwand : (s.task p).holdingWand = false)
      (hfirst : r.first ≠ 0) (hmem : mem = 0) :
      Failed s p secret mem (s.modTask p fun u => { u with mySecret := 0 }) []
  | changed {r : SecretReads} {t : State} (hsecret : secret = some r) (hwand : (s.task p).holdingWand = false)
      (hfirst : r.first ≠ 0) (hmem : mem ≠ 0) (hdiff : ¬r.Agree) (htask : (t.task p).mySecret = mem) :
      Failed s p secret mem t [.kmalloc mem, .kfree mem]

theorem getWandLogged_failed {power : Int32} {secret : Option SecretReads} {r : Int}
    (h : getWandLogged p power secret mem junk s = .ok ((r, t), log)) (hr : r < 0) : Failed s p secret mem t log := by
  unfold getWandLogged at h
  split at h
  · rename_i hwand
    cases h
    exact .refused (Or.inl hwand)
  rename_i hwand
  replace hwand : (s.task p).holdingWand = false := eq_false_of_ne_true hwand
  cases secret with
  | none =>
      cases h
      exact .refused (Or.inr fun r hr => by cases hr)
  | some reads =>
      dsimp only at h
      split at h
      · rename_i hfirst
        cases h
        refine .refused (Or.inr fun r hr => ?_)
        cases hr
        exact hfirst
      rename_i hfirst
      split at h
      · rename_i hmem
        subst hmem
        cases h
        exact .noMemory rfl hwand hfirst rfl
      rename_i hmem
      obtain ⟨bytes, hcopy, h⟩ := bind_eq_ok.1 h
      obtain ⟨hzero, -, hspells⟩ := strcpy_ok hcopy
      obtain ⟨same, hsame, h⟩ := bind_eq_ok.1 h
      split at h
      · cases h
        exact absurd hr (Int.lt_irrefl 0)
      · rename_i hdiff
        obtain ⟨heap, -, h⟩ := bind_eq_ok.1 h
        cases h
        refine .changed rfl hwand hfirst hmem (fun hagree => ?_) ?_
        · rw [strcmp_spells hzero (hagree _ hspells), decide_eq_true rfl] at hsame
          cases hsame
          exact hdiff rfl
        · dsimp only
          rw [task_modTask_self]

theorem getWandLogged_erases (p : TaskId) (power : Int32) (secret : Option SecretReads) (mem : Addr)
    (junk : Nat → UInt8) (s : State) :
    Paired (fun y x => y.1 = x) (getWandLogged p power secret mem junk s)
      (sysMagicGetWand p power secret mem junk s) := by
  unfold getWandLogged sysMagicGetWand
  split
  · exact .ok rfl
  cases secret with
  | none => exact .ok rfl
  | some r =>
      dsimp only
      split
      · exact .ok rfl
      split
      · exact .ok rfl
      refine Paired.bind (R := Eq) (Paired.refl _) ?_
      rintro bytes _ rfl
      refine Paired.bind (R := Eq) (Paired.refl _) ?_
      rintro same _ rfl
      split
      · exact .ok rfl
      refine Paired.bind (R := Eq) (Paired.refl _) ?_
      rintro heap _ rfl
      exact .ok rfl

theorem legilimensLogged_erases (attacker : TaskId) (pid : Int32) (mem : Addr) (junk : Nat → UInt8) (s : State) :
    Paired (fun y x => y.1 = x) (legilimensLogged attacker pid mem junk s)
      (sysMagicLegilimens attacker pid mem junk s) := by
  unfold legilimensLogged sysMagicLegilimens
  cases findTaskByPid s pid with
  | none => exact .ok rfl
  | some target =>
      dsimp only
      split
      · exact .ok rfl
      split
      · exact .ok rfl
      refine Paired.bind (R := Eq) (Paired.refl _) ?_
      rintro stolen _ rfl
      split
      · exact .ok rfl
      split
      · exact .ok rfl
      refine Paired.bind (R := Eq) (Paired.refl _) ?_
      rintro mine _ rfl
      refine Paired.bind (R := Eq) (Paired.refl _) ?_
      rintro secret _ rfl
      cases (s.heap.alloc mem (.node ⟨0, 0⟩ secret)).listAddTail mem (s.task attacker).secretsPtr with
      | none => exact .error _
      | some heap => exact .ok rfl

theorem legilimensLogged_failed {pid : Int32} {r : Int} (h : legilimensLogged p pid mem junk s = .ok ((r, t), log))
    (hr : r < 0) : t = s ∧ log = [] := by
  unfold legilimensLogged at h
  cases hfind : findTaskByPid s pid with
  | none =>
      rw [hfind] at h
      cases h
      exact ⟨rfl, rfl⟩
  | some target =>
      rw [hfind] at h
      dsimp only at h
      split at h
      · cases h
        exact ⟨rfl, rfl⟩
      split at h
      · cases h
        exact ⟨rfl, rfl⟩
      obtain ⟨stolen, -, h⟩ := bind_eq_ok.1 h
      split at h
      · cases h
        exact ⟨rfl, rfl⟩
      split at h
      · cases h
        exact ⟨rfl, rfl⟩
      obtain ⟨mine, -, h⟩ := bind_eq_ok.1 h
      obtain ⟨secret, -, h⟩ := bind_eq_ok.1 h
      split at h
      · cases h
      · cases h
        exact absurd hr (Int.lt_irrefl 0)

/-- A call that returns is a step of the machine. -/
theorem Returns.step {e : Event} {r : Int} (h : Returns s e r t log) : step s e = .ok t := by
  cases h with
  | getWand h =>
      obtain ⟨x, hx, heq⟩ := (getWandLogged_erases _ _ _ _ _ s).exists_of_ok h
      subst heq
      exact bind_eq_ok.2 ⟨_, hx, rfl⟩
  | attack h => exact bind_eq_ok.2 ⟨_, h, rfl⟩
  | legilimens h =>
      obtain ⟨x, hx, heq⟩ := (legilimensLogged_erases _ _ _ _ s).exists_of_ok h
      subst heq
      exact bind_eq_ok.2 ⟨_, hx, rfl⟩
  | listSecrets h => exact bind_eq_ok.2 ⟨_, h, rfl⟩
  | magicClock h => exact congrArg (fun x => Except.ok x.2) h

end Logged

/-! ### Calls without effect -/

/-- The tasks and the blocks are as they were, and what the call has allocated it has freed, with no reference
left to what it has freed. -/
structure NoEffect (s t : State) (log : List Traffic) : Prop where
  task : ∀ q, t.task q = s.task q
  cells : t.heap.cells = s.heap.cells
  freed : ∀ a, .kmalloc a ∈ log → .kfree a ∈ log
  unreferenced : ∀ a, .kfree a ∈ log → ∀ q, (t.task q).mySecret ≠ a ∧ (t.task q).secretsPtr ≠ a

theorem noEffect_self (s : State) : NoEffect s s [] :=
  ⟨fun _ => rfl, rfl, fun _ ha => absurd ha List.not_mem_nil, fun _ ha => absurd ha List.not_mem_nil⟩

/-- A `sys_magic_get_wand` that gets as far as `kmalloc` has a null `my_secret` to begin with, if it gets no
memory, and compares with what it has copied, if it does. -/
def Unspoilt (s : State) (e : Event) : Prop :=
  ∀ power r mem junk, e.call = .getWand power (some r) mem junk → (s.task e.current).holdingWand = false →
    r.first ≠ 0 → (mem = 0 → (s.task e.current).mySecret = 0) ∧ (mem ≠ 0 → r.Agree)

theorem unspoilt_of_other {s : State} {e : Event}
    (he : ∀ power secret mem junk, e.call ≠ .getWand power secret mem junk) :
    Unspoilt s e := fun _ _ _ _ h => absurd h (he _ _ _ _)

section NoEffect

variable {s t : State} {e : Event} {r : Int} {log : List Traffic}

theorem Failed.noEffect_iff {p : TaskId} {power : Int32} {secret : Option SecretReads} {mem : Addr} {junk : Nat → UInt8}
    (h : Failed s p secret mem t log) :
    NoEffect s t log ↔ Unspoilt s ⟨p, .getWand power secret mem junk⟩ := by
  cases h with
  | refused hrefused =>
      refine iff_of_true (noEffect_self s) ?_
      rintro _ reads _ _ ⟨rfl⟩ hwand hfirst
      rcases hrefused with hheld | hnul
      · exact absurd (hheld.symm.trans hwand) (by decide)
      · exact absurd (hnul reads rfl) hfirst
  | noMemory hsecret hwand hfirst hmem =>
      subst hsecret hmem
      constructor
      · intro heffect
        have hsame := heffect.task p
        rw [task_modTask_self] at hsame
        rintro _ _ _ _ ⟨rfl⟩ - -
        exact ⟨fun _ => (congrArg Task.mySecret hsame).symm, fun hne => absurd rfl hne⟩
      · intro hunspoilt
        have hnull := (hunspoilt _ _ _ _ rfl hwand hfirst).1 rfl
        have hsame : s.modTask p (fun u => { u with mySecret := 0 }) = s := by
          dsimp only at hnull
          rw [State.modTask, ← hnull, Function.update_eq_self]
        rw [hsame]
        exact noEffect_self s
  | changed hsecret hwand hfirst hmem hdiff htask =>
      subst hsecret
      refine iff_of_false (fun heffect => ?_) fun hunspoilt => hdiff ((hunspoilt _ _ _ _ rfl hwand hfirst).2 hmem)
      exact (heffect.unreferenced mem (List.mem_cons_of_mem _ List.mem_cons_self) p).1 htask

theorem Returns.noEffect_iff (h : Returns s e r t log) (hr : r < 0) : NoEffect s t log ↔ Unspoilt s e := by
  cases h with
  | getWand h => exact (getWandLogged_failed h hr).noEffect_iff
  | attack h =>
      rcases sysMagicAttack_cases h with ⟨-, rfl⟩ | ⟨target, -, rfl, -⟩
      · exact iff_of_true (noEffect_self t) (unspoilt_of_other fun _ _ _ _ he => by cases he)
      · exact absurd hr (Int.not_lt.2 (Int32.le_iff_toInt_le.1 (hit_nonneg _ _)))
  | legilimens h =>
      obtain ⟨rfl, rfl⟩ := legilimensLogged_failed h hr
      exact iff_of_true (noEffect_self t) (unspoilt_of_other fun _ _ _ _ he => by cases he)
  | listSecrets h => exact iff_of_true (noEffect_self s) (unspoilt_of_other fun _ _ _ _ he => by cases he)
  | @magicClock p seconds jiffies _ _ h =>
      unfold sysMagicClock at h
      split at h
      · cases h
        exact iff_of_true (noEffect_self s) (unspoilt_of_other fun _ _ _ _ he => by cases he)
      · cases h
        exact absurd hr (Int.lt_irrefl 0)

theorem Bare.unspoilt (hbare : Bare s) (henabled : machine.enabled s e) (hagreed : Agreed s e) : Unspoilt s e :=
  fun _ _ _ _ he hwand _ => ⟨fun _ => (hbare e.current henabled.1).1 hwand, fun _ => hagreed _ _ _ _ he⟩

end NoEffect

/-- Failing wand calls. A wand call that returns a negative value has had no effect if and only if it is not a
`sys_magic_get_wand` that clears `my_secret` for want of memory or finds the buffer changed. In runs whose
calls never find their buffer changed, no failing call has an effect. -/
theorem failing_call_no_effect {s t : State} {e : Event} {r : Int} {log : List Traffic}
    (henabled : machine.enabled s e) (hreturns : Returns s e r t log) (hr : r < 0) :
    machine.Step s e t ∧ (NoEffect s t log ↔ Unspoilt s e) ∧
      ((machine.restrict Agreed).Reachable Initial s → Agreed s e → NoEffect s t log) := by
  have hiff := hreturns.noEffect_iff hr
  refine ⟨⟨henabled, hreturns.step⟩, hiff, fun hreach hagreed => ?_⟩
  exact hiff.2 ((owns_of_agreed hreach).2.unspoilt henabled hagreed)

/-- `init` asks for a wand, and there is no memory. -/
def starved : Event := ⟨1, .getWand 10 (some (oneLetter 97)) 0 fun _ => 7⟩

theorem failing_call_no_effect_starved : (machine.restrict Agreed).Reachable Initial boot ∧ Agreed boot starved ∧
    ∃ t, Returns boot starved (-ENOMEM) t [] ∧ machine.Step boot starved t ∧ NoEffect boot t [] := by
  have hreach : (machine.restrict Agreed).Reachable Initial boot := ⟨boot, [], boot_initial, .nil boot⟩
  have hagreed : Agreed boot starved := agreed_of_stable (stable_oneLetter boot 1 10 97 0 fun _ => 7)
  have hreturns : Returns boot starved (-ENOMEM) (boot.modTask 1 fun u => { u with mySecret := 0 }) [] := .getWand rfl
  obtain ⟨hstep, -, heffect⟩ := failing_call_no_effect (by decide +kernel) hreturns (by decide)
  exact ⟨hreach, hagreed, _, hreturns, hstep, heffect hreach hagreed⟩

/-- The buffer holds "a" when it is copied and "b" when it is compared. -/
def spoilt : Event := ⟨1, .getWand 10 (some { oneLetter 97 with compare := (oneLetter 98).compare }) 3 fun _ => 7⟩

theorem spoilt_leaves_reference : machine.Reachable Initial boot ∧ machine.enabled boot spoilt ∧
    (boot.task 1).mySecret = 0 ∧ ∃ t, Returns boot spoilt (-EFAULT) t [.kmalloc 3, .kfree 3] ∧
      (t.task 1).mySecret = 3 ∧ t.heap.cells 3 = none ∧ ¬NoEffect boot t [.kmalloc 3, .kfree 3] := by
  have hreturns : ∃ t, Returns boot spoilt (-EFAULT) t [.kmalloc 3, .kfree 3] ∧ (t.task 1).mySecret = 3 ∧
      t.heap.cells 3 = none := ⟨_, .getWand rfl, by decide +kernel, by decide +kernel⟩
  obtain ⟨t, hreturns, hsecret, hfreed⟩ := hreturns
  refine ⟨⟨boot, [], boot_initial, .nil boot⟩, by decide +kernel, by decide +kernel, t, hreturns, hsecret, hfreed, ?_⟩
  intro heffect
  exact (heffect.unreferenced 3 (by decide) 1).1 hsecret

end MagicKernel.Wand
