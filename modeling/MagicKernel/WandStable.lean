import MagicKernel.WandOwned
import MagicKernel.WandTasks

/-! Runs in which `sys_magic_get_wand` compares what it has copied. A task without a wand then has no
secret, so every exit frees the blocks of the exiting task, each once, and no other. -/

namespace MagicKernel.Wand

open FaultMachine BlockHeap

/-- The comparison of `sys_magic_get_wand` finds the string that was copied. -/
def Agreed (_ : State) (e : Event) : Prop :=
  ∀ power r mem junk, e.call = .getWand power (some r) mem junk → r.Agree

/-- A visible task without a wand has no secret, and a positive process number. -/
def Bare (s : State) : Prop :=
  ∀ q, s.Visible q → ((s.task q).holdingWand = false → (s.task q).mySecret = 0) ∧ 0 < (s.task q).pid

theorem Bare.step {s t : State} {e : Event} (hbare : Bare s) (hhashed : Hashed s) (hagreed : Agreed s e)
    (hstep : machine.Step s e t) : Bare t := by
  refine visible_invariant (I := fun u => (u.holdingWand = false → u.mySecret = 0) ∧ 0 < u.pid) hhashed hstep ?_ ?_
  · rintro parent q pid mem rfl
    exact ⟨fun _ => rfl, hstep.1.2.2.2.1⟩
  · intro q u hq hchange
    obtain ⟨hsecret, hpid⟩ := hbare q hq
    cases hchange with
    | same => exact ⟨hsecret, hpid⟩
    | noMemory he hwand => exact ⟨fun _ => rfl, hpid⟩
    | wand he hwand => exact ⟨nofun, hpid⟩
    | changed he hwand hdiff =>
        subst he
        exact absurd (hagreed _ _ _ _ rfl) hdiff
    | hit he hlands => exact ⟨hsecret, hpid⟩
    | clock he magicTime magicCallTime => exact ⟨hsecret, hpid⟩
    | exited he => exact ⟨hsecret, hpid⟩

theorem Bare.cleanExit {s : State} {e : Event} (hbare : Bare s) (he : machine.enabled s e) : CleanExit s e := by
  have hclean : (s.task e.current).holdingWand = true ∨ (s.task e.current).mySecret = 0 := by
    cases hwand : (s.task e.current).holdingWand with
    | true => exact Or.inl rfl
    | false => exact Or.inr ((hbare e.current he.1).1 hwand)
  unfold CleanExit
  split
  · exact hclean
  · trivial

/-- Along runs in which comparisons agree with copies, every live task keeps its blocks. -/
theorem owns_of_agreed {s : State} (h : (machine.restrict Agreed).Reachable Initial s) :
    (∃ xs, Owns s xs) ∧ Bare s := by
  refine h.invariant (I := fun u => (∃ xs, Owns u xs) ∧ Bare u) ?_ ?_
  · intro u hu
    exact ⟨⟨_, owns_of_initial hu⟩, fun q hq => ⟨fun _ => (hu.bare q hq).2, hu.pid_pos q hq⟩⟩
  · rintro u e t - ⟨⟨xs, howns⟩, hbare⟩ hstep
    obtain ⟨hagreed, hstep⟩ := Machine.restrict_step.1 hstep
    obtain ⟨ys, howns', -⟩ := howns.step (hbare.cleanExit hstep.1) hstep
    exact ⟨⟨ys, howns'⟩, hbare.step howns.hashed hagreed hstep⟩

/-! ### Exits that return -/

/-- `do_exit` returns: nothing that it frees was freed before. -/
theorem doExit_returns {s : State} {p : TaskId} {ys : List Addr} (hkeeps : Keeps s.heap (s.task p) ys)
    (hsecret : (s.task p).holdingWand = false → (s.task p).mySecret = 0) (hidle : (s.task p).pid ≠ 0)
    (hinit : (s.task p).pid ≠ 1) : ∃ t, doExit p s = .ok t := by
  have hfree : ∃ h₀, kfree (s.task p).mySecret s.heap = .ok h₀ ∧ h₀.Ring (s.task p).secretsPtr ys := by
    cases hwand : (s.task p).holdingWand with
    | false =>
        refine ⟨s.heap, ?_, hkeeps.ring⟩
        rw [kfree, if_pos (hsecret hwand)]
    | true =>
        obtain ⟨bytes, hbytes, -⟩ := hkeeps.secret hwand
        refine ⟨_, kfree_of_cell ?_, hkeeps.ring.free (hkeeps.secret_not_mem hwand)⟩
        rw [cells_of_string hbytes]
        exact Option.some_ne_none _
  obtain ⟨h₀, hkfree, hring⟩ := hfree
  obtain ⟨first, hfirst⟩ := Heap.chain_exists_next hring.chain List.mem_cons_self
  obtain ⟨h₁, hloop, hring', -, -⟩ := freeSecrets_ring hring hring.length_le_top hfirst
  rw [doExit, hkfree]
  dsimp only [bind, Except.bind]
  rw [loadNext, hfirst]
  dsimp only
  rw [hloop]
  dsimp only
  rw [kfree_of_cell (cell_of_next hring'.chain.1)]
  dsimp only
  rw [if_neg hidle, if_neg hinit]
  exact ⟨_, rfl⟩

/-! ### What forks and exits leave alone -/

/-- The task `q` with the list entries `ys` is live after a step, with the same task structure, and its
blocks have the same contents and links. -/
structure Undisturbed (s t : State) (q : TaskId) (ys : List Addr) : Prop where
  live : t.Live q
  task : t.task q = s.task q
  same : ∀ a ∈ (s.task q).blocks ys, Heap.SameAt Block.strip s.heap t.heap a

theorem ChangesOnly.live {s t : State} {p q : TaskId} (honly : ChangesOnly p s t) (hqp : q ≠ p) (hq : s.Live q) :
    t.Live q := by
  refine ⟨(honly.visible q hqp).2 hq.1, ?_⟩
  rw [honly.task q hqp]
  exact hq.2

section Frame

variable {s t : State} {xs : TaskId → List Addr}

theorem Owns.undisturbed_fork (howns : Owns s xs) (parent : TaskId) {child : TaskId} (pid : Int32) {mem : Addr}
    (hchild : s.inUse child = false) (hfree : s.heap.cells mem = none) (hmem : mem ≠ 0) {q : TaskId}
    (hq : s.Live q) : Undisturbed s (doFork parent child pid mem s).2 q (xs q) := by
  have honly := changesOnly_child howns.hashed hmem parent pid hchild
  have hqc := howns.ne_of_unused hchild hq
  refine ⟨honly.live hqc hq, honly.task q hqc, fun a ha => ?_⟩
  rw [doFork_child hmem]
  exact Heap.sameAt_alloc _ _ ((howns.keeps q hq).ne_of_free ha hfree) _

theorem Owns.undisturbed_exit (howns : Owns s xs) {p : TaskId} (hp : s.Live p)
    (hclean : (s.task p).holdingWand = true ∨ (s.task p).mySecret = 0)
    (h : doExit p s = .ok t) {q : TaskId} (hqp : q ≠ p) (hq : s.Live q) : Undisturbed s t q (xs q) := by
  obtain ⟨heap, rfl, -, hsame⟩ := doExit_ok (howns.keeps p hp) hclean h
  have honly := changesOnly_modTask (p := p) (f := fun u => { u with exited := true }) howns.hashed
    (fun _ => rfl) heap
  exact ⟨honly.live hqp hq, honly.task q hqp, fun a ha => hsame a (howns.apart q p hq hp hqp a ha)⟩

theorem Keeps.nodup {h : Heap Block} {u : Task} {ys : List Addr} (hkeeps : Keeps h u ys) :
    (u.blocks ys).Nodup := by
  unfold Task.blocks
  cases hwand : u.holdingWand with
  | false =>
      rw [if_neg Bool.false_ne_true, List.append_nil]
      exact hkeeps.ring.nodup
  | true =>
      rw [if_pos rfl, List.nodup_append]
      refine ⟨hkeeps.ring.nodup, List.nodup_singleton _, fun a ha b hb => ?_⟩
      rw [List.mem_singleton.1 hb]
      rintro rfl
      exact hkeeps.secret_not_mem hwand ha

/-- The blocks that `do_exit` takes out of use are those of the task. -/
theorem doExit_frees {p : TaskId} {ys : List Addr} (hkeeps : Keeps s.heap (s.task p) ys)
    (hclean : (s.task p).holdingWand = true ∨ (s.task p).mySecret = 0)
    (h : doExit p s = .ok t) (a : Addr) :
    t.heap.cells a = none ↔ s.heap.cells a = none ∨ a ∈ (s.task p).blocks ys := by
  obtain ⟨heap, rfl, hfreed, hsame⟩ := doExit_ok hkeeps hclean h
  by_cases ha : a ∈ (s.task p).blocks ys
  · exact iff_of_true (hfreed a ha) (Or.inr ha)
  · rw [or_iff_left ha]
    exact (hsame a ha).cells_eq_none

end Frame

/-- Every read of the user buffer finds the same bytes. -/
def Stable (_ : State) (e : Event) : Prop :=
  ∀ power r mem junk, e.call = .getWand power (some r) mem junk →
    r.first = r.scan 0 ∧ r.copy = r.scan ∧ r.compare = r.scan

theorem agreed_of_stable {s : State} {e : Event} (h : Stable s e) : Agreed s e := by
  intro power r mem junk he w hw
  obtain ⟨-, hcopy, hcompare⟩ := h power r mem junk he
  rw [hcompare, ← hcopy]
  exact hw

/-- With stable user buffers, live tasks own their memory: each has a circular list, the blocks of a task
are different from each other and from those of other tasks, a task without a wand has no secret. A fork
gives the child an empty list of its own and no wand, and leaves all other tasks as they are. An exit
returns, frees the blocks of the exiting task and no other, and leaves all other tasks as they are. -/
theorem wand_memory_owned {s : State} (h : (machine.restrict Stable).Reachable Initial s) :
    ∃ xs, Owns s xs ∧
      (∀ p, s.Live p → ((s.task p).blocks (xs p)).Nodup ∧
      ((s.task p).holdingWand = false → (s.task p).mySecret = 0)) ∧
      (∀ parent child pid mem, machine.enabled s ⟨parent, .fork child pid mem⟩ → mem ≠ 0 →
        Owns (doFork parent child pid mem s).2 (Function.update xs child []) ∧
        ((doFork parent child pid mem s).2).Live child ∧
        ((doFork parent child pid mem s).2.task child).holdingWand = false ∧
        ∀ q, s.Live q → Undisturbed s (doFork parent child pid mem s).2 q (xs q)) ∧
      ∀ p, s.Live p → (s.task p).pid ≠ 1 → ∃ t, doExit p s = .ok t ∧ Owns t xs ∧ (t.task p).exited = true ∧
        (∀ a, t.heap.cells a = none ↔ s.heap.cells a = none ∨ a ∈ (s.task p).blocks (xs p)) ∧
        ∀ q, q ≠ p → s.Live q → Undisturbed s t q (xs q) := by
  obtain ⟨⟨xs, howns⟩, hbare⟩ := owns_of_agreed (h.restrict_mono fun _ _ => agreed_of_stable)
  refine ⟨xs, howns, fun p hp => ⟨(howns.keeps p hp).nodup, (hbare p hp.1).1⟩, ?_, ?_⟩
  · rintro parent child pid mem ⟨-, -, hchild, -, -, hfree⟩ hmem
    have hlive : ((doFork parent child pid mem s).2).Live child := by
      rw [doFork_child hmem]
      refine ⟨?_, ?_⟩
      · rw [State.Visible]
        dsimp only
        rw [Function.update_self, childTask]
        dsimp only
        rw [Function.update_self]
        exact List.mem_cons_self
      · dsimp only
        rw [Function.update_self]
        rfl
    refine ⟨howns.fork_child parent pid hchild hfree hmem, hlive, ?_, fun q hq =>
      howns.undisturbed_fork parent pid hchild hfree hmem hq⟩
    rw [doFork_child hmem]
    dsimp only
    rw [Function.update_self]
    rfl
  · intro p hp hinit
    obtain ⟨hsecret, hpid⟩ := hbare p hp.1
    have hidle : (s.task p).pid ≠ 0 := by
      intro hzero
      rw [hzero] at hpid
      exact absurd hpid (by decide)
    have hclean := hbare.cleanExit (e := ⟨p, .exit⟩) ⟨hp.1, hp.2, trivial⟩
    obtain ⟨t, ht⟩ := doExit_returns (howns.keeps p hp) hsecret hidle hinit
    refine ⟨t, ht, howns.exit hp hclean ht, ?_, doExit_frees (howns.keeps p hp) hclean ht,
      fun q hqp hq => howns.undisturbed_exit hp hclean ht hqp hq⟩
    obtain ⟨heap, rfl⟩ := doExit_task ht
    rw [task_modTask_self]

/-- Two tasks get wands. -/
def armedEvents : List Event :=
  [⟨1, .fork 2 2 2⟩, ⟨1, .getWand 10 (some (oneLetter 97)) 3 fun _ => 7⟩,
    ⟨2, .getWand 5 (some (oneLetter 98)) 4 fun _ => 7⟩]

def armed : State := machine.after boot armedEvents

theorem armed_run : machine.Run boot armedEvents armed := Machine.run_after (by decide +kernel)

/-- What is to be shown of every event that arms the two. -/
theorem forall_armedEvents {C : Event → Prop} (hfork : C ⟨1, .fork 2 2 2⟩)
    (hfirst : C ⟨1, .getWand 10 (some (oneLetter 97)) 3 fun _ => 7⟩)
    (hsecond : C ⟨2, .getWand 5 (some (oneLetter 98)) 4 fun _ => 7⟩) : ∀ e ∈ armedEvents, C e := by
  intro e he
  rcases List.mem_cons.1 he with rfl | he
  · exact hfork
  rcases List.mem_cons.1 he with rfl | he
  · exact hfirst
  · obtain rfl := List.mem_singleton.1 he
    exact hsecond

/-- The second reads the mind of the first. -/
def heist : State := machine.after armed [⟨2, .legilimens 1 5 fun _ => 7⟩]

theorem heist_step : machine.Step armed ⟨2, .legilimens 1 5 fun _ => 7⟩ heist := Machine.step_after (by decide +kernel)

theorem stable_oneLetter (s : State) (p : TaskId) (power : Int32) (c : UInt8) (mem : Addr) (junk : Nat → UInt8) :
    Stable s ⟨p, .getWand power (some (oneLetter c)) mem junk⟩ := by
  rintro _ _ _ _ ⟨rfl⟩
  exact ⟨rfl, rfl, rfl⟩

/-- The thief exits: its list head, the stolen secret and its own secret are freed, and its parent keeps
what it has. -/
theorem wand_memory_owned_heist :
    (machine.restrict Stable).Reachable Initial heist ∧ ∃ xs, Owns heist xs ∧
      ∃ t, doExit 2 heist = .ok t ∧
        (∀ a, t.heap.cells a = none ↔ heist.heap.cells a = none ∨ a ∈ (heist.task 2).blocks (xs 2)) ∧
        Undisturbed heist t 1 (xs 1) := by
  have harmed : (machine.restrict Stable).Reachable Initial armed :=
    ⟨boot, _, boot_initial, armed_run.restrict_of_forall (forall_armedEvents (fun _ => nofun)
      (fun _ => stable_oneLetter _ _ _ _ _ _) fun _ => stable_oneLetter _ _ _ _ _ _)⟩
  have hstable : Stable armed ⟨2, .legilimens 1 5 fun _ => 7⟩ := nofun
  have hreach := harmed.step (Machine.restrict_step.2 ⟨hstable, heist_step⟩)
  obtain ⟨xs, howns, -, -, hexit⟩ := wand_memory_owned hreach
  obtain ⟨t, ht, -, -, hfreed, hothers⟩ := hexit 2 ⟨by decide +kernel, by decide +kernel⟩ (by decide +kernel)
  exact ⟨hreach, xs, howns, t, ht, hfreed, hothers 1 (by decide) ⟨by decide +kernel, by decide +kernel⟩⟩

/-! ### A secret that does not fit -/

/-- The bytes of a word in memory, the lowest first. -/
def wordBytes (a : Addr) : List UInt8 := (List.range 4).map fun i => UInt8.ofNat (a >>> (8 * i))

def wordOf (bytes : List UInt8) : Addr := bytes.foldr (fun b rest => b.toNat + 256 * rest) 0

/-- `sys_magic_get_wand` by `p`, past its checks and with a secret that counts as `SECRET_MAXSIZE` bytes, if the
object behind the block that `kmalloc` yields is a list head: nothing stops `strcpy` at the end of the block. -/
def spillingGetWand (p : TaskId) (power : Int32) (r : SecretReads) (mem : Addr) (junk : Nat → UInt8) (s : State) :
    Except Fault (Int × State) :=
  match s.heap.cells (mem + secretMaxsize) with
  | some (.head l) => do
    let objects := (List.range secretMaxsize).map junk ++ (wordBytes l.next ++ wordBytes l.prev)
    let bytes ← strcpy objects (ofUser r.copy)
    let links := bytes.drop secretMaxsize
    let heap := s.heap.alloc mem (.string (bytes.take secretMaxsize))
    let heap := heap.modify (mem + secretMaxsize) fun _ => .head ⟨wordOf (links.take 4), wordOf (links.drop 4)⟩
    let s := { s with heap := heap }.modTask p fun t => { t with mySecret := mem }
    if ← strcmp bytes (ofUser r.compare) then
      return (0, s.modTask p fun t => { t with power := power, holdingWand := true, health := 100 })
    else return (-EFAULT, s)
  | _ => .error (.access (mem + secretMaxsize))

/-- The second task's list head lies where the next object of a block at 288 does. -/
def cramped : State := machine.after boot [⟨1, .fork 2 2 320⟩]

/-- The first task takes a wand with a secret of 32 letters, in the block at 288. -/
def spilt : State := ((spillingGetWand 1 10 (letters 32) 288 (fun _ => 7) cramped).toOption.map Prod.snd).getD cramped

theorem eq_ok_of_map_fst {ε α : Type} {x : Except ε (Int × α)} {r : Int} (h : x.map Prod.fst = .ok r) (a : α) :
    x = .ok (r, (x.toOption.map Prod.snd).getD a) := by
  cases x with
  | error f => cases h
  | ok y =>
      cases h
      rfl

/-- The buffer is stable, and the call returns 0. The NUL has gone to the lowest byte of the second task's `next`
pointer, which leads nowhere any more, and the second task's exit follows it. -/
theorem spilt_list_broken :
    (machine.restrict Stable).Reachable Initial cramped ∧ cramped.Live 2 ∧
    cramped.heap.Ring (cramped.task 2).secretsPtr [] ∧
      Stable cramped ⟨1, .getWand 10 (some (letters 32)) 288 fun _ => 7⟩ ∧
      machine.enabled cramped ⟨1, .getWand 10 (some (letters 32)) 288 fun _ => 7⟩ ∧
      machine.step cramped ⟨1, .getWand 10 (some (letters 32)) 288 fun _ => 7⟩ = .error .overrun ∧
      spillingGetWand 1 10 (letters 32) 288 (fun _ => 7) cramped = .ok (0, spilt) ∧ spilt.Live 2 ∧
      (∀ ys, ¬spilt.heap.Ring (spilt.task 2).secretsPtr ys) ∧
        machine.step spilt ⟨2, .exit⟩ = .error (.access 256) := by
  have hstep : machine.Step boot ⟨1, .fork 2 2 320⟩ cramped := Machine.step_after (by decide +kernel)
  have hfork : Stable boot ⟨1, .fork 2 2 320⟩ := nofun
  have hreach : (machine.restrict Stable).Reachable Initial cramped :=
    Machine.Reachable.step ⟨boot, [], boot_initial, .nil boot⟩ (Machine.restrict_step.2 ⟨hfork, hstep⟩)
  have hstable : Stable cramped ⟨1, .getWand 10 (some (letters 32)) 288 fun _ => 7⟩ := by
    rintro _ _ _ _ ⟨rfl⟩
    exact ⟨rfl, rfl, rfl⟩
  have hlinks : cramped.heap.next 320 = some 320 ∧ cramped.heap.prev 320 = some 320 := by decide +kernel
  have hcramped : (cramped.task 2).secretsPtr = 320 := by decide +kernel
  have hhead : (spilt.task 2).secretsPtr = 320 := by decide +kernel
  have hfirst : spilt.heap.next 320 = some 256 := by decide +kernel
  have hlost : spilt.heap.next 256 = none := by decide +kernel
  refine ⟨hreach, ⟨by decide +kernel, by decide +kernel⟩, ⟨hcramped ▸ hlinks, List.nodup_singleton _⟩, hstable,
    by decide +kernel, eq_error_of_faultOf (by decide +kernel), eq_ok_of_map_fst (by decide +kernel) cramped,
    ⟨by decide +kernel, by decide +kernel⟩, fun ys hring => ?_, eq_error_of_faultOf (by decide +kernel)⟩
  have hchain := hring.chain
  rw [hhead] at hchain
  cases ys with
  | nil => exact absurd (Option.some.inj (hfirst.symm.trans hchain.1)) (by decide)
  | cons y ys =>
      obtain rfl : 256 = y := Option.some.inj (hfirst.symm.trans hchain.1)
      obtain ⟨n, hn⟩ := Heap.chain_exists_next hchain.2.2 List.mem_cons_self
      rw [hlost] at hn
      cases hn

end MagicKernel.Wand
