import Mathlib.Data.Finset.Card
import Mathlib.Data.List.Basic
import Mathlib.Logic.Function.Basic

/-! A heap of blocks, and circular doubly linked lists through it. The address 0 is the null pointer:
it holds no block, and an allocation that yields it has failed. A heap is seen through the functions
that read it: the two link fields, and what a block holds besides them; each operation is described by
the update it makes to these. -/

namespace BlockHeap

abbrev Addr := Nat

/-- The blocks in use. They lie below `top`, so that a walk through distinct blocks is bounded. -/
structure Heap (β : Type) where
  cells : Addr → Option β
  top : Nat
  null : cells 0 = none
  bounded : ∀ a, top ≤ a → cells a = none

/-- The link fields of a list entry. -/
structure Link where
  next : Addr
  prev : Addr
  deriving DecidableEq, Repr

/-- Blocks that may be list entries. -/
class Linked (β : Type) where
  link : β → Option Link
  setLink : Link → β → β
  link_setLink : ∀ l b, (link b).isSome = true → link (setLink l b) = some l

namespace Heap

variable {β δ : Type}

/-! ### Blocks -/

def empty : Heap β where
  cells _ := none
  top := 0
  null := rfl
  bounded _ _ := rfl

/-- A block comes into use at `a`, unless the allocation failed. -/
def alloc (h : Heap β) (a : Addr) (b : β) : Heap β :=
  if ha : a = 0 then h
  else
    { cells := Function.update h.cells a (some b)
      top := max h.top (a + 1)
      null := by
        rw [Function.update_of_ne (Ne.symm ha)]
        exact h.null
      bounded := by
        intro c hc
        have hac : a + 1 ≤ c := (le_max_right h.top (a + 1)).trans hc
        have hca : c ≠ a := by omega
        rw [Function.update_of_ne hca]
        exact h.bounded c ((le_max_left h.top (a + 1)).trans hc) }

def free (h : Heap β) (a : Addr) : Heap β where
  cells := Function.update h.cells a none
  top := h.top
  null := by
    by_cases ha : 0 = a
    · rw [← ha, Function.update_self]
    · rw [Function.update_of_ne ha]
      exact h.null
  bounded := by
    intro c hc
    by_cases hca : c = a
    · rw [hca, Function.update_self]
    · rw [Function.update_of_ne hca]
      exact h.bounded c hc

/-- The block at `a`, if there is one, is overwritten. -/
def modify (h : Heap β) (a : Addr) (f : β → β) : Heap β where
  cells := Function.update h.cells a ((h.cells a).map f)
  top := h.top
  null := by
    by_cases ha : 0 = a
    · rw [← ha, Function.update_self, h.null]
      rfl
    · rw [Function.update_of_ne ha]
      exact h.null
  bounded := by
    intro c hc
    by_cases hca : c = a
    · subst hca
      rw [Function.update_self, h.bounded c hc]
      rfl
    · rw [Function.update_of_ne hca]
      exact h.bounded c hc

/-- What `f` sees of the blocks in use. -/
def contents (h : Heap β) (f : β → δ) (a : Addr) : Option δ := (h.cells a).map f

theorem cells_alloc {h : Heap β} {a : Addr} (ha : a ≠ 0) (b : β) :
    (h.alloc a b).cells = Function.update h.cells a (some b) := by
  rw [alloc, dif_neg ha]

theorem contents_alloc {h : Heap β} {a : Addr} (ha : a ≠ 0) (b : β) (f : β → δ) :
    (h.alloc a b).contents f = Function.update (h.contents f) a (some (f b)) := by
  funext c
  rw [contents, cells_alloc ha]
  exact Function.apply_update (fun _ => Option.map f) h.cells a (some b) c

/-- Nothing changes where there is no block. -/
theorem update_none {h : Heap β} {a : Addr} (ha : h.cells a = none) :
    Function.update h.cells a none = h.cells := by
  rw [← ha]
  exact Function.update_eq_self a h.cells

theorem free_zero (h : Heap β) : h.free 0 = h := by
  have hcells := h.update_none h.null
  cases h
  simp only [free, hcells]

/-- A block that is freed as soon as it is allocated. -/
theorem cells_free_alloc {h : Heap β} {a : Addr} (ha : a ≠ 0) (hfree : h.cells a = none) (b : β) :
    ((h.alloc a b).free a).cells = h.cells := by
  have hcells : ((h.alloc a b).free a).cells = Function.update (h.alloc a b).cells a none := rfl
  rw [hcells, cells_alloc ha, Function.update_idem, update_none hfree]

theorem contents_free (h : Heap β) (a : Addr) (f : β → δ) :
    (h.free a).contents f = Function.update (h.contents f) a none := by
  funext c
  exact Function.apply_update (fun _ => Option.map f) h.cells a none c

theorem contents_modify {h : Heap β} {a : Addr} {g : β → β} {f : β → δ} (hf : ∀ b ∈ h.cells a, f (g b) = f b) :
    (h.modify a g).contents f = h.contents f := by
  funext c
  rw [contents, contents, modify]
  dsimp only
  by_cases hc : c = a
  · subst hc
    rw [Function.update_self, Option.map_map]
    exact Option.map_congr hf
  · rw [Function.update_of_ne hc]

/-- A block may as well come into use with what is then written into it. -/
theorem modify_alloc {h : Heap β} {a : Addr} (ha : a ≠ 0) (b : β) (f : β → β) :
    (h.alloc a b).modify a f = h.alloc a (f b) := by
  rw [modify, alloc, dif_neg ha, alloc, dif_neg ha]
  dsimp only
  congr 1
  rw [Function.update_self, Function.update_idem]
  rfl

/-- What a block held is gone once it is freed. -/
theorem free_alloc_congr (h : Heap β) (a : Addr) (b b' : β) : (h.alloc a b).free a = (h.alloc a b').free a := by
  by_cases ha : a = 0
  · rw [alloc, dif_pos ha, alloc, dif_pos ha]
  · rw [free, free, alloc, dif_neg ha, alloc, dif_neg ha]
    dsimp only
    congr 1
    rw [Function.update_idem, Function.update_idem]

/-! ### Link fields -/

section Links

variable [Linked β]

def link (h : Heap β) (a : Addr) : Option Link := (h.cells a).bind Linked.link

def next (h : Heap β) (a : Addr) : Option Addr := (h.link a).map Link.next

def prev (h : Heap β) (a : Addr) : Option Addr := (h.link a).map Link.prev

/-- Write `a->next`. -/
def setNext (h : Heap β) (a x : Addr) : Option (Heap β) :=
  (h.link a).map fun l => h.modify a (Linked.setLink { l with next := x })

/-- Write `a->prev`. -/
def setPrev (h : Heap β) (a x : Addr) : Option (Heap β) :=
  (h.link a).map fun l => h.modify a (Linked.setLink { l with prev := x })

/-- `list_add_tail(x, head)`. -/
def listAddTail (h : Heap β) (x head : Addr) : Option (Heap β) := do
  let last ← h.prev head
  let h ← h.setPrev head x
  let h ← h.setNext x head
  let h ← h.setPrev x last
  h.setNext last x

/-- `list_del(x)`. -/
def listDel (h : Heap β) (x : Addr) : Option (Heap β) := do
  let before ← h.prev x
  let after ← h.next x
  let h ← h.setPrev after before
  h.setNext before after

theorem link_modify {h : Heap β} {a : Addr} {l : Link} (l' : Link) (ha : h.link a = some l) :
    (h.modify a (Linked.setLink l')).link = Function.update h.link a (some l') := by
  funext c
  by_cases hc : c = a
  · subst hc
    rw [Function.update_self, link, modify]
    dsimp only
    rw [Function.update_self]
    cases hcell : h.cells c with
    | none =>
        rw [link, hcell] at ha
        cases ha
    | some b =>
        rw [link, hcell] at ha
        exact Linked.link_setLink l' b (Option.isSome_iff_exists.2 ⟨l, ha⟩)
  · rw [Function.update_of_ne hc, link, modify]
    dsimp only
    rw [Function.update_of_ne hc]
    rfl

/-- A write of one link field, as the reading functions see it. -/
structure Relinked (h h' : Heap β) (next prev : Addr → Option Addr) : Prop where
  next : h'.next = next
  prev : h'.prev = prev
  top : h'.top = h.top
  contents : ∀ {δ : Type} (f : β → δ), (∀ l b, f (Linked.setLink l b) = f b) →
    h'.contents f = h.contents f

theorem Relinked.trans {h h' h'' : Heap β} {n p n' p' : Addr → Option Addr} (hr : Relinked h h' n p)
    (hr' : Relinked h' h'' n' p') : Relinked h h'' n' p' :=
  ⟨hr'.next, hr'.prev, hr'.top.trans hr.top, fun f hf => (hr'.contents f hf).trans (hr.contents f hf)⟩

theorem relinked_modify {h : Heap β} {a : Addr} {l : Link} (l' : Link) (ha : h.link a = some l) :
    Relinked h (h.modify a (Linked.setLink l')) (Function.update h.next a (some l'.next))
      (Function.update h.prev a (some l'.prev)) := by
  refine ⟨?_, ?_, rfl, fun f hf => contents_modify fun b _ => hf l' b⟩
  · funext c
    rw [next, link_modify l' ha]
    exact Function.apply_update (fun _ => Option.map Link.next) h.link a (some l') c
  · funext c
    rw [prev, link_modify l' ha]
    exact Function.apply_update (fun _ => Option.map Link.prev) h.link a (some l') c

theorem exists_link {h : Heap β} {a x : Addr} (ha : h.next a = some x ∨ h.prev a = some x) :
    ∃ l, h.link a = some l := by
  rcases ha with ha | ha
  · obtain ⟨l, hl, -⟩ := Option.map_eq_some_iff.1 ha
    exact ⟨l, hl⟩
  · obtain ⟨l, hl, -⟩ := Option.map_eq_some_iff.1 ha
    exact ⟨l, hl⟩

theorem relinked_setNext {h : Heap β} {a y : Addr} (x : Addr)
    (ha : h.next a = some y ∨ h.prev a = some y) :
    ∃ h', h.setNext a x = some h' ∧ Relinked h h' (Function.update h.next a (some x)) h.prev := by
  obtain ⟨l, hl⟩ := exists_link ha
  refine ⟨h.modify a (Linked.setLink { l with next := x }), by rw [setNext, hl]; rfl, ?_⟩
  have hprev : h.prev a = some l.prev := by rw [prev, hl]; rfl
  have hr := relinked_modify { l with next := x } hl
  rw [← hprev, Function.update_eq_self] at hr
  exact hr

theorem relinked_setPrev {h : Heap β} {a y : Addr} (x : Addr)
    (ha : h.next a = some y ∨ h.prev a = some y) :
    ∃ h', h.setPrev a x = some h' ∧ Relinked h h' h.next (Function.update h.prev a (some x)) := by
  obtain ⟨l, hl⟩ := exists_link ha
  refine ⟨h.modify a (Linked.setLink { l with prev := x }), by rw [setPrev, hl]; rfl, ?_⟩
  have hnext : h.next a = some l.next := by rw [next, hl]; rfl
  have hr := relinked_modify { l with prev := x } hl
  rw [← hnext, Function.update_eq_self] at hr
  exact hr

/-! What a write of links leaves of the contents, wherever the links lead. -/

theorem contents_setNext {h h' : Heap β} {a x : Addr} {f : β → δ} (hf : ∀ l b, f (Linked.setLink l b) = f b)
    (hset : h.setNext a x = some h') : h'.contents f = h.contents f := by
  obtain ⟨l, -, rfl⟩ := Option.map_eq_some_iff.1 hset
  exact contents_modify fun b _ => hf _ b

theorem contents_setPrev {h h' : Heap β} {a x : Addr} {f : β → δ} (hf : ∀ l b, f (Linked.setLink l b) = f b)
    (hset : h.setPrev a x = some h') : h'.contents f = h.contents f := by
  obtain ⟨l, -, rfl⟩ := Option.map_eq_some_iff.1 hset
  exact contents_modify fun b _ => hf _ b

theorem contents_listAddTail {h h' : Heap β} {x head : Addr} {f : β → δ}
    (hf : ∀ l b, f (Linked.setLink l b) = f b) (hadd : h.listAddTail x head = some h') :
    h'.contents f = h.contents f := by
  obtain ⟨last, -, hadd⟩ := Option.bind_eq_some_iff.1 hadd
  obtain ⟨h₁, h₁set, hadd⟩ := Option.bind_eq_some_iff.1 hadd
  obtain ⟨h₂, h₂set, hadd⟩ := Option.bind_eq_some_iff.1 hadd
  obtain ⟨h₃, h₃set, hadd⟩ := Option.bind_eq_some_iff.1 hadd
  rw [contents_setNext hf hadd, contents_setPrev hf h₃set, contents_setNext hf h₂set, contents_setPrev hf h₁set]

theorem contents_listDel {h h' : Heap β} {x : Addr} {f : β → δ} (hf : ∀ l b, f (Linked.setLink l b) = f b)
    (hdel : h.listDel x = some h') : h'.contents f = h.contents f := by
  obtain ⟨before, -, hdel⟩ := Option.bind_eq_some_iff.1 hdel
  obtain ⟨after, -, hdel⟩ := Option.bind_eq_some_iff.1 hdel
  obtain ⟨h₁, h₁set, hdel⟩ := Option.bind_eq_some_iff.1 hdel
  rw [contents_setNext hf hdel, contents_setPrev hf h₁set]

/-- Two heaps agree at `a`: in its links, and in what `f` sees of it. -/
structure SameAt (f : β → δ) (h h' : Heap β) (a : Addr) : Prop where
  next : h'.next a = h.next a
  prev : h'.prev a = h.prev a
  contents : h'.contents f a = h.contents f a

theorem SameAt.of_cells {f : β → δ} {h h' : Heap β} {a : Addr} (hcell : h'.cells a = h.cells a) :
    SameAt f h h' a := by
  refine ⟨?_, ?_, ?_⟩
  · rw [Heap.next, Heap.next, link, link, hcell]
  · rw [Heap.prev, Heap.prev, link, link, hcell]
  · rw [Heap.contents, Heap.contents, hcell]

theorem SameAt.cells_eq_none {f : β → δ} {h h' : Heap β} {a : Addr} (hs : SameAt f h h' a) :
    h'.cells a = none ↔ h.cells a = none := by
  have hcontents := hs.contents
  rw [Heap.contents, Heap.contents] at hcontents
  constructor
  · intro hnone
    rw [hnone] at hcontents
    exact Option.map_eq_none_iff.1 hcontents.symm
  · intro hnone
    rw [hnone] at hcontents
    exact Option.map_eq_none_iff.1 hcontents

theorem SameAt.trans {f : β → δ} {h h' h'' : Heap β} {a : Addr} (hs : SameAt f h h' a)
    (hs' : SameAt f h' h'' a) : SameAt f h h'' a :=
  ⟨hs'.next.trans hs.next, hs'.prev.trans hs.prev, hs'.contents.trans hs.contents⟩

theorem sameAt_alloc (f : β → δ) (h : Heap β) {a c : Addr} (hac : a ≠ c) (b : β) :
    SameAt f h (h.alloc c b) a := by
  apply SameAt.of_cells
  by_cases hc : c = 0
  · rw [alloc, dif_pos hc]
  · rw [cells_alloc hc, Function.update_of_ne hac]

theorem sameAt_free (f : β → δ) (h : Heap β) {a c : Addr} (hac : a ≠ c) : SameAt f h (h.free c) a :=
  SameAt.of_cells (Function.update_of_ne hac ..)

theorem Relinked.sameAt {f : β → δ} (hf : ∀ l b, f (Linked.setLink l b) = f b) {h h' : Heap β}
    {n p : Addr → Option Addr} (hr : Relinked h h' n p) {a : Addr} (hn : n a = h.next a)
    (hp : p a = h.prev a) : SameAt f h h' a :=
  ⟨(congrFun hr.next a).trans hn, (congrFun hr.prev a).trans hp, congrFun (hr.contents f hf) a⟩

/-! ### Circular lists -/

/-- The links from `a` through `xs` to `b`, in both directions. -/
def Chain (next prev : Addr → Option Addr) : Addr → List Addr → Addr → Prop
  | a, [], b => next a = some b ∧ prev b = some a
  | a, x :: xs, b => next a = some x ∧ prev x = some a ∧ Chain next prev x xs b

/-- The circular list with head `a` and the entries `xs`. -/
structure Ring (h : Heap β) (a : Addr) (xs : List Addr) : Prop where
  chain : Chain h.next h.prev a xs a
  nodup : (a :: xs).Nodup

variable {n p n' p' : Addr → Option Addr} {h h' : Heap β} {a b x : Addr} {xs : List Addr}

theorem chain_congr (hchain : Chain n p a xs b) (hn : ∀ c ∈ a :: xs, n' c = n c)
    (hp : ∀ c ∈ xs ++ [b], p' c = p c) : Chain n' p' a xs b := by
  induction xs generalizing a with
  | nil =>
      refine ⟨?_, ?_⟩
      · rw [hn a List.mem_cons_self]
        exact hchain.1
      · rw [hp b List.mem_cons_self]
        exact hchain.2
  | cons y ys ih =>
      obtain ⟨hnext, hprev, hrest⟩ := hchain
      refine ⟨?_, ?_, ih hrest ?_ ?_⟩
      · rw [hn a List.mem_cons_self]
        exact hnext
      · rw [hp y List.mem_cons_self]
        exact hprev
      · exact fun c hc => hn c (List.mem_cons_of_mem a hc)
      · exact fun c hc => hp c (List.mem_cons_of_mem y hc)

theorem chain_snoc (y : Addr) : Chain n p a (xs ++ [y]) b ↔
    Chain n p a xs y ∧ n y = some b ∧ p b = some y := by
  induction xs generalizing a with
  | nil => exact and_assoc.symm
  | cons z zs ih =>
      constructor
      · rintro ⟨hnext, hprev, hrest⟩
        obtain ⟨hchain, hy⟩ := ih.1 hrest
        exact ⟨⟨hnext, hprev, hchain⟩, hy⟩
      · rintro ⟨⟨hnext, hprev, hchain⟩, hy⟩
        exact ⟨hnext, hprev, ih.2 ⟨hchain, hy⟩⟩

/-- The last entry is the one before the end. -/
theorem chain_prev (hchain : Chain n p a xs b) : p b = some (xs.getLastD a) := by
  induction xs generalizing a with
  | nil => exact hchain.2
  | cons y ys ih =>
      rw [List.getLastD_cons]
      exact ih hchain.2.2

/-- The chain is bent from its end `b` to `x`. -/
theorem chain_retarget (hchain : Chain n p a xs b) (hnodup : (a :: xs).Nodup) (hx : x ∉ xs) :
    Chain (Function.update n (xs.getLastD a) (some x)) (Function.update p x (some (xs.getLastD a)))
      a xs x := by
  induction xs generalizing a with
  | nil => exact ⟨Function.update_self .., Function.update_self ..⟩
  | cons y ys ih =>
      obtain ⟨hnext, hprev, hrest⟩ := hchain
      rw [List.getLastD_cons]
      have hlast : ys.getLastD y ∈ y :: ys := List.getLastD_mem_cons
      have ha : a ≠ ys.getLastD y := by
        rintro rfl
        exact (List.nodup_cons.1 hnodup).1 hlast
      have hyx : y ≠ x := by
        rintro rfl
        exact hx List.mem_cons_self
      refine ⟨?_, ?_, ih hrest (List.nodup_cons.1 hnodup).2 fun hmem => hx (List.mem_cons_of_mem y hmem)⟩
      · rw [Function.update_of_ne ha]
        exact hnext
      · rw [Function.update_of_ne hyx]
        exact hprev

theorem Ring.congr (hring : Ring h a xs) (hn : ∀ c ∈ a :: xs, h'.next c = h.next c)
    (hp : ∀ c ∈ a :: xs, h'.prev c = h.prev c) : Ring h' a xs := by
  refine ⟨chain_congr hring.chain hn fun c hc => hp c ?_, hring.nodup⟩
  rcases List.mem_append.1 hc with hc | hc
  · exact List.mem_cons_of_mem a hc
  · rw [List.mem_singleton.1 hc]
    exact List.mem_cons_self

theorem chain_exists_next (hchain : Chain n p a xs b) {c : Addr} (hc : c ∈ a :: xs) :
    ∃ y, n c = some y := by
  induction xs generalizing a with
  | nil =>
      rw [List.mem_singleton.1 hc]
      exact ⟨b, hchain.1⟩
  | cons y ys ih =>
      rcases List.mem_cons.1 hc with rfl | hc
      · exact ⟨y, hchain.1⟩
      · exact ih hchain.2.2 hc

theorem relinked_listAddTail {last y : Addr} (hlast : h.prev a = some last)
    (hbefore : ∃ z, h.next last = some z) (hx : h.next x = some y) :
    ∃ h', h.listAddTail x a = some h' ∧
      Relinked h h' (Function.update (Function.update h.next x (some a)) last (some x))
        (Function.update (Function.update h.prev a (some x)) x (some last)) := by
  obtain ⟨z, hz⟩ := hbefore
  obtain ⟨h₁, h₁', hr₁⟩ := relinked_setPrev x (Or.inr hlast)
  obtain ⟨h₂, h₂', hr₂⟩ := relinked_setNext (h := h₁) (a := x) (y := y) a (Or.inl (by rw [hr₁.next]; exact hx))
  have hx₂ : h₂.next x = some a := by rw [hr₂.next, Function.update_self]
  obtain ⟨h₃, h₃', hr₃⟩ := relinked_setPrev (h := h₂) last (Or.inl hx₂)
  have hlast₃ : ∃ w, h₃.next last = some w := by
    rw [hr₃.next, hr₂.next, hr₁.next]
    by_cases hne : last = x
    · rw [hne, Function.update_self]
      exact ⟨a, rfl⟩
    · rw [Function.update_of_ne hne]
      exact ⟨z, hz⟩
  obtain ⟨w, hw⟩ := hlast₃
  obtain ⟨h₄, h₄', hr₄⟩ := relinked_setNext (h := h₃) x (Or.inl hw)
  refine ⟨h₄, ?_, ?_⟩
  · simp only [listAddTail, bind, Option.bind, hlast, h₁', h₂', h₃', h₄']
  · have hr := ((hr₁.trans hr₂).trans hr₃).trans hr₄
    rw [hr₃.next, hr₂.next, hr₁.next, hr₃.prev, hr₂.prev, hr₁.prev] at hr
    exact hr

/-- `list_add_tail` of an entry outside the ring. -/
theorem Ring.addTail (hring : Ring h a xs) {y : Addr} (hx : h.next x = some y) (hfresh : x ∉ a :: xs) :
    ∃ h', h.listAddTail x a = some h' ∧ Ring h' a (xs ++ [x]) ∧
      Relinked h h' (Function.update (Function.update h.next x (some a)) (xs.getLastD a) (some x))
        (Function.update (Function.update h.prev a (some x)) x (some (xs.getLastD a))) := by
  have hmem : xs.getLastD a ∈ a :: xs := List.getLastD_mem_cons
  obtain ⟨h', hadd, hr⟩ := relinked_listAddTail (chain_prev hring.chain) 
    (chain_exists_next hring.chain hmem) hx
  have hxa : x ≠ a := fun heq => hfresh (heq ▸ List.mem_cons_self)
  have hxs : x ∉ xs := fun hc => hfresh (List.mem_cons_of_mem a hc)
  have ha : a ∉ xs := (List.nodup_cons.1 hring.nodup).1
  refine ⟨h', hadd, ⟨?_, ?_⟩, hr⟩
  · rw [hr.next, hr.prev, chain_snoc]
    refine ⟨?_, ?_, ?_⟩
    · refine chain_congr (chain_retarget hring.chain hring.nodup hxs) (fun c hc => ?_) fun c hc => ?_
      · have hcx : c ≠ x := fun heq => hfresh (heq ▸ hc)
        by_cases hcl : c = xs.getLastD a
        · rw [hcl, Function.update_self, Function.update_self]
        · rw [Function.update_of_ne hcl, Function.update_of_ne hcl, Function.update_of_ne hcx]
      · by_cases hcx : c = x
        · rw [hcx, Function.update_self, Function.update_self]
        · have hca : c ≠ a := by
            rintro rfl
            rcases List.mem_append.1 hc with hc | hc
            · exact ha hc
            · exact hcx (List.mem_singleton.1 hc)
          rw [Function.update_of_ne hcx, Function.update_of_ne hcx, Function.update_of_ne hca]
    · have hxl : x ≠ xs.getLastD a := fun heq => hfresh (heq ▸ hmem)
      rw [Function.update_of_ne hxl, Function.update_self]
    · rw [Function.update_of_ne hxa.symm, Function.update_self]
  · rw [← List.cons_append, List.nodup_append]
    refine ⟨hring.nodup, List.nodup_singleton x, ?_⟩
    intro c hc d hd
    rw [List.mem_singleton.1 hd]
    rintro rfl
    exact hfresh hc

/-- `list_del` of the first entry. -/
theorem Ring.delFirst (hring : Ring h a (x :: xs)) :
    ∃ h' after, h.listDel x = some h' ∧ h.next x = some after ∧ after ∈ xs ++ [a] ∧ Ring h' a xs ∧
      Relinked h h' (Function.update h.next a (some after)) (Function.update h.prev after (some a)) := by
  obtain ⟨hnext, hprev, hchain⟩ := hring.chain
  obtain ⟨hax, hnodup⟩ := List.nodup_cons.1 hring.nodup
  have ha : a ∉ xs := fun hc => hax (List.mem_cons_of_mem x hc)
  -- The entry after the first is the next one, or the head again.
  obtain ⟨after, hafter, hmem, hback⟩ : ∃ after, h.next x = some after ∧ after ∈ xs ++ [a] ∧
      h.prev after = some x := by
    cases xs with
    | nil => exact ⟨a, hchain.1, List.mem_cons_self, hchain.2⟩
    | cons y ys => exact ⟨y, hchain.1, List.mem_cons_self, hchain.2.1⟩
  obtain ⟨h₁, h₁', hr₁⟩ := relinked_setPrev a (Or.inr hback)
  obtain ⟨h₂, h₂', hr₂⟩ := relinked_setNext (h := h₁) (a := a) (y := x) after
    (Or.inl (by rw [hr₁.next]; exact hnext))
  have hr := hr₁.trans hr₂
  rw [hr₁.next, hr₁.prev] at hr
  refine ⟨h₂, after, ?_, hafter, hmem, ⟨?_, ?_⟩, hr⟩
  · simp only [listDel, bind, Option.bind, hprev, hafter, h₁', h₂']
  · rw [hr.next, hr.prev]
    cases xs with
    | nil =>
        have heq : after = a := by
          have hx := hchain.1
          rw [hafter] at hx
          exact Option.some.inj hx
        subst heq
        exact ⟨Function.update_self .., Function.update_self ..⟩
    | cons y ys =>
        have heq : after = y := by
          have hx := hchain.1
          rw [hafter] at hx
          exact Option.some.inj hx
        subst heq
        have hys : after ∉ ys ++ [a] := by
          intro hc
          rcases List.mem_append.1 hc with hc | hc
          · exact (List.nodup_cons.1 (List.nodup_cons.1 hnodup).2).1 hc
          · exact ha (List.mem_singleton.1 hc ▸ List.mem_cons_self)
        refine ⟨Function.update_self .., Function.update_self .., ?_⟩
        refine chain_congr hchain.2.2 (fun c hc => ?_) fun c hc => ?_
        · have hca : c ≠ a := by
            rintro rfl
            exact ha hc
          exact Function.update_of_ne hca _ _
        · have hcy : c ≠ after := by
            rintro rfl
            exact hys hc
          exact Function.update_of_ne hcy _ _
  · exact List.nodup_cons.2 ⟨ha, (List.nodup_cons.1 hnodup).2⟩

theorem next_alloc {c : Addr} (hc : c ≠ 0) (b : β) :
    (h.alloc c b).next = Function.update h.next c ((Linked.link b).map Link.next) := by
  funext d
  by_cases hd : d = c
  · rw [hd, Function.update_self, next, link, cells_alloc hc, Function.update_self]
    rfl
  · rw [Function.update_of_ne hd, next, link, cells_alloc hc, Function.update_of_ne hd]
    rfl

theorem prev_alloc {c : Addr} (hc : c ≠ 0) (b : β) :
    (h.alloc c b).prev = Function.update h.prev c ((Linked.link b).map Link.prev) := by
  funext d
  by_cases hd : d = c
  · rw [hd, Function.update_self, prev, link, cells_alloc hc, Function.update_self]
    rfl
  · rw [Function.update_of_ne hd, prev, link, cells_alloc hc, Function.update_of_ne hd]
    rfl

theorem next_free (c : Addr) : (h.free c).next = Function.update h.next c none := by
  funext d
  exact Function.apply_update (fun _ (x : Option β) => (x.bind Linked.link).map Link.next) h.cells c none d

theorem prev_free (c : Addr) : (h.free c).prev = Function.update h.prev c none := by
  funext d
  exact Function.apply_update (fun _ (x : Option β) => (x.bind Linked.link).map Link.prev) h.cells c none d

/-- A ring is untouched by changes outside it. -/
theorem Ring.of_update (hring : Ring h a xs) {c : Addr} {y z : Option Addr} (hc : c ∉ a :: xs)
    (hn : h'.next = Function.update h.next c y) (hp : h'.prev = Function.update h.prev c z) :
    Ring h' a xs := by
  have hne : ∀ d ∈ a :: xs, d ≠ c := by
    rintro d hd rfl
    exact hc hd
  refine hring.congr (fun d hd => ?_) fun d hd => ?_
  · rw [hn, Function.update_of_ne (hne d hd)]
  · rw [hp, Function.update_of_ne (hne d hd)]

theorem Ring.alloc (hring : Ring h a xs) {c : Addr} (hc : c ∉ a :: xs) (b : β) :
    Ring (h.alloc c b) a xs := by
  by_cases hzero : c = 0
  · rw [Heap.alloc, dif_pos hzero]
    exact hring
  · exact hring.of_update hc (next_alloc hzero b) (prev_alloc hzero b)

theorem Ring.free (hring : Ring h a xs) {c : Addr} (hc : c ∉ a :: xs) : Ring (h.free c) a xs :=
  hring.of_update hc (next_free c) (prev_free c)

/-! ### Walks -/

/-- Run `body` on the entries from `pos` on, until it answers or the head is reached again. A walk that
takes more steps than there are blocks never ends. -/
def walk {φ ρ : Type} (h : Heap β) (head : Addr) (bad : Addr → φ) (endless : φ)
    (body : Addr → Except φ (Option ρ)) :
    Nat → Addr → Except φ (Option ρ)
  | 0, pos => if pos = head then .ok none else .error endless
  | fuel + 1, pos =>
    if pos = head then .ok none
    else do
      match ← body pos with
      | some r => return some r
      | none =>
        match h.next pos with
        | none => .error (bad pos)
        | some pos' => walk h head bad endless body fuel pos'

/-- What a walk over the entries `xs` amounts to. -/
def visit {φ ρ : Type} (body : Addr → Except φ (Option ρ)) : List Addr → Except φ (Option ρ)
  | [] => .ok none
  | x :: xs => do
    match ← body x with
    | some r => return some r
    | none => visit body xs

theorem walk_eq_visit {φ ρ : Type} {head : Addr} {bad : Addr → φ} {endless : φ} {body : Addr → Except φ (Option ρ)}
    {c : Addr} {fuel : Nat} (hchain : Chain h.next h.prev c xs head) (hhead : head ∉ xs)
    (hfuel : xs.length ≤ fuel) {pos : Addr} (hpos : h.next c = some pos) :
    walk h head bad endless body fuel pos = visit body xs := by
  induction xs generalizing c fuel pos with
  | nil =>
      obtain rfl : head = pos := Option.some.inj (hchain.1.symm.trans hpos)
      cases fuel with
      | zero => rw [walk, if_pos rfl, visit]
      | succ fuel => rw [walk, if_pos rfl, visit]
  | cons y ys ih =>
      obtain ⟨hnext, -, hrest⟩ := hchain
      obtain rfl : y = pos := Option.some.inj (hnext.symm.trans hpos)
      have hne : y ≠ head := by
        rintro rfl
        exact hhead List.mem_cons_self
      cases fuel with
      | zero => exact absurd hfuel (Nat.not_succ_le_zero _)
      | succ fuel =>
          rw [walk, if_neg hne, visit]
          obtain ⟨z, hz⟩ := chain_exists_next hrest List.mem_cons_self
          have hih := ih hrest (fun hmem => hhead (List.mem_cons_of_mem y hmem))
            (Nat.le_of_succ_le_succ hfuel) hz
          rw [hz]
          dsimp only
          rw [hih]

/-- A visit whose body answers `f` finds what `f` finds. -/
theorem visit_eq_findSome {φ ρ : Type} {body : Addr → Except φ (Option ρ)} {f : Addr → Option ρ}
    (hbody : ∀ c ∈ xs, body c = .ok (f c)) : visit body xs = .ok (xs.findSome? f) := by
  induction xs with
  | nil => rfl
  | cons y ys ih =>
      have hrest := ih fun c hc => hbody c (List.mem_cons_of_mem y hc)
      rw [visit, hbody y List.mem_cons_self, List.findSome?_cons]
      cases hy : f y with
      | none => exact hrest
      | some r => rfl

/-- The links from `a` through `xs` to `b`, in the forward direction only. -/
def Path (next : Addr → Option Addr) : Addr → List Addr → Addr → Prop
  | a, [], b => next a = some b
  | a, x :: xs, b => next a = some x ∧ Path next x xs b

theorem length_le_of_nodup {l : List Addr} {m : Nat} (hnodup : l.Nodup) (hlt : ∀ c ∈ l, c < m) :
    l.length ≤ m := by
  have hsub : l.toFinset ⊆ Finset.range m := fun c hc => Finset.mem_range.2 (hlt c (List.mem_toFinset.1 hc))
  have hcard := Finset.card_le_card hsub
  rwa [List.toFinset_card_of_nodup hnodup, Finset.card_range] at hcard

theorem lt_top_of_next {c y : Addr} (hc : h.next c = some y) : c < h.top := by
  by_contra hge
  rw [next, link, h.bounded c (Nat.le_of_not_lt hge)] at hc
  cases hc

/-- The number of blocks in use is enough fuel for any ring. -/
theorem Ring.length_le_top (hring : Ring h a xs) : xs.length ≤ h.top := by
  refine length_le_of_nodup (List.nodup_cons.1 hring.nodup).2 fun c hc => ?_
  obtain ⟨y, hy⟩ := chain_exists_next hring.chain (List.mem_cons_of_mem a hc)
  exact lt_top_of_next hy

theorem Ring.walk_eq (hring : Ring h a xs) {φ ρ : Type} {bad : Addr → φ} {endless : φ}
    {body : Addr → Except φ (Option ρ)} {pos : Addr} (hpos : h.next a = some pos) :
    walk h a bad endless body h.top pos = visit body xs :=
  walk_eq_visit hring.chain (List.nodup_cons.1 hring.nodup).1 hring.length_le_top hpos

end Links

end Heap

/-! ### What is allocated and freed -/

/-- A successful allocation, or a release. -/
inductive Traffic where
  | kmalloc (a : Addr)
  | kfree (a : Addr)
  deriving DecidableEq, Repr

def Traffic.addr : Traffic → Addr
  | .kmalloc a => a
  | .kfree a => a

/-- At `a` the log is a `kmalloc` and a `kfree` in turn; `live` says that the last one is a `kmalloc`. -/
def Alternates (a : Addr) (log : List Traffic) (live : Bool) : Prop :=
  ∃ n, log.filter (fun t => t.addr = a) =
    (List.replicate n [Traffic.kmalloc a, .kfree a]).flatten ++ if live then [.kmalloc a] else []

theorem Alternates.other {a : Addr} {log : List Traffic} {live : Bool} (h : Alternates a log live) {t : Traffic}
    (ht : t.addr ≠ a) : Alternates a (log ++ [t]) live := by
  obtain ⟨n, hn⟩ := h
  refine ⟨n, ?_⟩
  rw [List.filter_append, hn, List.filter_cons_of_neg (by simpa using ht), List.filter_nil, List.append_nil]

theorem Alternates.kmalloc {a : Addr} {log : List Traffic} (h : Alternates a log false) :
    Alternates a (log ++ [.kmalloc a]) true := by
  obtain ⟨n, hn⟩ := h
  refine ⟨n, ?_⟩
  rw [List.filter_append, hn, List.filter_cons_of_pos (by simp [Traffic.addr]), List.filter_nil]
  simp

theorem Alternates.kfree {a : Addr} {log : List Traffic} (h : Alternates a log true) :
    Alternates a (log ++ [.kfree a]) false := by
  obtain ⟨n, hn⟩ := h
  refine ⟨n + 1, ?_⟩
  rw [List.filter_append, hn, List.filter_cons_of_pos (by simp [Traffic.addr]), List.filter_nil,
    List.replicate_succ', List.flatten_append]
  simp

end BlockHeap
