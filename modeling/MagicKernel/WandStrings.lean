import MagicKernel.WandOwned
import MagicKernel.WandTasks

/-! The strings in kernel memory. `sys_magic_get_wand` allocates for the length it has counted, but
`strcpy` stops only at a NUL of the user buffer as it finds it then. As long as that NUL comes in time,
every string in kernel memory is terminated within its block, and nothing is ever written past the end of
one. -/

namespace MagicKernel.Wand

open FaultMachine BlockHeap

/-! ### Terminated strings -/

/-- A string that ends within its block, which is no larger than a list entry can hold. -/
def Block.Terminated : Block → Prop
  | .head _ => True
  | .node _ secret => 0 ∈ secret ∧ secret.length = secretMaxsize
  | .string bytes => 0 ∈ bytes ∧ bytes.length ≤ secretMaxsize

/-- Every string in kernel memory is terminated. -/
def Terminated (h : Heap Block) : Prop := ∀ a b, h.contents Block.strip a = some b → b.Terminated

theorem terminated_strip {b : Block} (hb : b.Terminated) : b.strip.Terminated := by
  cases b with
  | head l => trivial
  | node l secret => exact hb
  | string bytes => exact hb

section Terminated

variable {h h' : Heap Block}

theorem Terminated.string (hterm : Terminated h) {a : Addr} {bytes : List UInt8}
    (ha : h.cells a = some (.string bytes)) : 0 ∈ bytes ∧ bytes.length ≤ secretMaxsize := by
  have hcontents : h.contents Block.strip a = some (.string bytes) := by
    rw [Heap.contents, ha]
    rfl
  exact hterm a _ hcontents

/-- Nothing comes into use but what was terminated before. -/
theorem Terminated.of_shrink (hterm : Terminated h)
    (hshrink : ∀ a, h'.contents Block.strip a = none ∨ h'.contents Block.strip a = h.contents Block.strip a) :
    Terminated h' := by
  intro a b hb
  rcases hshrink a with hnone | hsame
  · rw [hnone] at hb
    cases hb
  · rw [hsame] at hb
    exact hterm a b hb

theorem Terminated.alloc (hterm : Terminated h) {mem : Addr} (hmem : mem ≠ 0) {b : Block} (hb : b.Terminated) :
    Terminated (h.alloc mem b) := by
  intro a c hc
  rw [Heap.contents_alloc hmem] at hc
  by_cases ha : a = mem
  · subst ha
    rw [Function.update_self] at hc
    cases hc
    exact terminated_strip hb
  · rw [Function.update_of_ne ha] at hc
    exact hterm a c hc

theorem contents_free_shrink (h : Heap Block) (c a : Addr) :
    (h.free c).contents Block.strip a = none ∨ (h.free c).contents Block.strip a = h.contents Block.strip a := by
  rw [Heap.contents_free]
  by_cases ha : a = c
  · rw [ha, Function.update_self]
    exact Or.inl rfl
  · rw [Function.update_of_ne ha]
    exact Or.inr rfl

theorem Terminated.free (hterm : Terminated h) (c : Addr) : Terminated (h.free c) :=
  hterm.of_shrink (contents_free_shrink h c)

theorem Terminated.kfree (hterm : Terminated h) {c : Addr} (hfree : kfree c h = .ok h') : Terminated h' := by
  rcases kfree_ok hfree with ⟨-, rfl⟩ | ⟨-, -, rfl⟩
  · exact hterm
  · exact hterm.free c

theorem Terminated.congr (hterm : Terminated h) (hsame : h'.contents Block.strip = h.contents Block.strip) :
    Terminated h' :=
  hterm.of_shrink fun a => Or.inr (congrFun hsame a)

theorem Terminated.freeSecrets (hterm : Terminated h) {head pos : Addr} {fuel : Nat}
    (hfree : freeSecrets head fuel pos h = .ok h') : Terminated h' := by
  induction fuel generalizing pos h with
  | zero =>
      rw [Wand.freeSecrets] at hfree
      split at hfree
      · cases hfree
        exact hterm
      · cases hfree
  | succ fuel ih =>
      rw [Wand.freeSecrets] at hfree
      split at hfree
      · cases hfree
        exact hterm
      obtain ⟨n, -, hfree⟩ := bind_eq_ok.1 hfree
      split at hfree
      · cases hfree
      · rename_i h₁ hdel
        obtain ⟨h₂, hkfree, hfree⟩ := bind_eq_ok.1 hfree
        exact ih ((hterm.congr (Heap.contents_listDel strip_setLink hdel)).kfree hkfree) hfree

end Terminated

section Calls

variable {s t : State}

theorem Terminated.fork (hterm : Terminated s.heap) (parent child : TaskId) (pid : Int32) (mem : Addr) :
    Terminated (doFork parent child pid mem s).2.heap := by
  by_cases hmem : mem = 0
  · subst hmem
    exact hterm
  · rw [doFork_child hmem]
    exact hterm.alloc hmem trivial

theorem Terminated.getWand (hterm : Terminated s.heap) {p : TaskId} {power : Int32} {mem : Addr}
    (hgot : GotWand p power mem s t) : Terminated t.heap := by
  cases hgot with
  | refused => exact hterm
  | noMemory hwand => exact hterm
  | wand hwand hmem bytes hzero hlen => exact hterm.alloc hmem ⟨hzero, hlen⟩
  | changed hwand hmem bytes =>
      have hshrink : ∀ a, ((s.heap.alloc mem (.string bytes)).free mem).contents Block.strip a = none ∨
          ((s.heap.alloc mem (.string bytes)).free mem).contents Block.strip a = s.heap.contents Block.strip a := by
        intro a
        have hback := contents_free_shrink s.heap mem a
        rw [Heap.contents_free] at hback
        rw [Heap.contents_free, Heap.contents_alloc hmem, Function.update_idem]
        exact hback
      exact hterm.of_shrink hshrink

theorem Terminated.exit (hterm : Terminated s.heap) {p : TaskId} (h : doExit p s = .ok t) :
    Terminated t.heap := by
  obtain ⟨h₀, hsecret, h⟩ := bind_eq_ok.1 h
  obtain ⟨first, -, h⟩ := bind_eq_ok.1 h
  obtain ⟨h₁, hloop, h⟩ := bind_eq_ok.1 h
  obtain ⟨h₂, hhead, h⟩ := bind_eq_ok.1 h
  split at h
  · cases h
  split at h
  · cases h
  cases h
  exact ((hterm.kfree hsecret).freeSecrets hloop).kfree hhead

theorem Terminated.step {e : Event} (hterm : Terminated s.heap) (hstep : machine.Step s e t) :
    Terminated t.heap := by
  obtain ⟨-, hstep⟩ := hstep
  obtain ⟨p, call⟩ := e
  cases call with
  | fork child pid mem =>
      cases hstep
      exact hterm.fork p child pid mem
  | getWand power secret mem junk =>
      obtain ⟨⟨r, u⟩, hcall, heq⟩ := bind_eq_ok.1 hstep
      cases heq
      exact hterm.getWand (sysMagicGetWand_ok hcall)
  | attack pid =>
      obtain ⟨⟨r, u⟩, hcall, heq⟩ := bind_eq_ok.1 hstep
      cases heq
      rcases sysMagicAttack_ok hcall with rfl | ⟨target, health, -, rfl⟩
      · exact hterm
      · exact hterm
  | legilimens pid mem junk =>
      obtain ⟨⟨r, u⟩, hcall, heq⟩ := bind_eq_ok.1 hstep
      cases heq
      rcases sysMagicLegilimens_ok hcall with rfl | ⟨secret, heap, hmem, hzero, hlen, hadd, rfl⟩
      · exact hterm
      · exact (hterm.alloc hmem (b := .node ⟨0, 0⟩ secret) ⟨hzero, hlen⟩).congr
          (Heap.contents_listAddTail strip_setLink hadd)
  | listSecrets secrets size =>
      obtain ⟨r, -, heq⟩ := bind_eq_ok.1 hstep
      cases heq
      exact hterm
  | magicClock seconds jiffies =>
      cases hstep
      rcases sysMagicClock_eq p seconds jiffies s with heq | ⟨magicTime, magicCallTime, heq⟩
      · rw [heq]
        exact hterm
      · rw [heq]
        exact hterm
  | exit => exact hterm.exit hstep
  | release q =>
      cases hstep
      exact hterm

end Calls

/-- Initial states in which nothing but the list heads is allocated. -/
def Pristine (s : State) : Prop := Initial s ∧ ∀ a b, s.heap.cells a = some b → ∃ l, b = .head l

theorem terminated_of_reachable {s : State} (h : machine.Reachable Pristine s) : Terminated s.heap := by
  refine h.invariant (I := fun u => Terminated u.heap) ?_ fun u e t _ hterm hstep => hterm.step hstep
  rintro u ⟨-, hheads⟩ a b hb
  obtain ⟨c, hc, rfl⟩ := Option.map_eq_some_iff.1 hb
  obtain ⟨l, rfl⟩ := hheads a c hc
  trivial

/-! ### Copies that stay within their blocks -/

/-- The computation does not write past the end of a block. -/
def NoOverrun {α : Type} (x : Except Fault α) : Prop := Outcome (· ≠ .overrun) (fun _ => True) x

theorem NoOverrun.bind {α β : Type} {x : Except Fault α} {k : α → Except Fault β} (hx : NoOverrun x)
    (hk : ∀ a, x = .ok a → NoOverrun (k a)) : NoOverrun (x >>= k) :=
  Outcome.bind (hx.and_ok (P := fun a => x = .ok a) fun _ ha => ha) fun a ha => hk a ha.2

section NoOverrun

variable (h : Heap Block) (a : Addr)

end NoOverrun

/-- `sys_magic_get_wand` by `p` comes to its copy. -/
def Copies (s : State) (p : TaskId) (r : SecretReads) (mem : Addr) : Prop :=
  (s.task p).holdingWand = false ∧ r.first ≠ 0 ∧ mem ≠ 0

/-- If `sys_magic_get_wand` comes to its copy, the user buffer as the copy finds it has a NUL within the
length that was counted. -/
def Fits (s : State) (e : Event) : Prop :=
  ∀ power r mem junk, e.call = .getWand power (some r) mem junk → Copies s e.current r mem →
    ∃ i < secretLen r.scan, r.copy i = 0

theorem boot_pristine : Pristine boot := by
  refine ⟨boot_initial, fun a b hb => ?_⟩
  have hcells : boot.heap.cells = Function.update (fun _ => none) 1 (some (.head ⟨1, 1⟩)) := rfl
  rw [hcells] at hb
  by_cases ha : a = 1
  · subst ha
    rw [Function.update_self] at hb
    exact ⟨_, (Option.some.inj hb).symm⟩
  · rw [Function.update_of_ne ha] at hb
    cases hb

end MagicKernel.Wand
