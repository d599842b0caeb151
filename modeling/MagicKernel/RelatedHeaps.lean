import MagicKernel.BlockHeap

/-! Two heaps with blocks at the same addresses and related contents. The operations on heaps keep the
relation, as long as related blocks have the same links: what one does in one heap can be done in the
other. -/

namespace BlockHeap

namespace Heap

variable {β : Type} {R : β → β → Prop} {h h' : Heap β}

/-- The heaps have blocks at the same addresses, and these are related. -/
structure Related (R : β → β → Prop) (h h' : Heap β) : Prop where
  top : h'.top = h.top
  cells : ∀ a, Option.Rel R (h.cells a) (h'.cells a)

theorem Related.alloc (hrel : Related R h h') {b b' : β} (hb : R b b') (a : Addr) :
    Related R (h.alloc a b) (h'.alloc a b') := by
  by_cases ha : a = 0
  · rw [Heap.alloc, Heap.alloc, dif_pos ha, dif_pos ha]
    exact hrel
  · refine ⟨?_, fun c => ?_⟩
    · rw [Heap.alloc, Heap.alloc, dif_neg ha, dif_neg ha]
      dsimp only
      rw [hrel.top]
    · rw [cells_alloc ha, cells_alloc ha]
      by_cases hc : c = a
      · subst hc
        rw [Function.update_self, Function.update_self]
        exact .some hb
      · rw [Function.update_of_ne hc, Function.update_of_ne hc]
        exact hrel.cells c

theorem Related.free (hrel : Related R h h') (a : Addr) : Related R (h.free a) (h'.free a) := by
  refine ⟨hrel.top, fun c => ?_⟩
  dsimp only [Heap.free]
  by_cases hc : c = a
  · subst hc
    rw [Function.update_self, Function.update_self]
    exact .none
  · rw [Function.update_of_ne hc, Function.update_of_ne hc]
    exact hrel.cells c

theorem Related.modify (hrel : Related R h h') {f f' : β → β} (hf : ∀ b b', R b b' → R (f b) (f' b')) (a : Addr) :
    Related R (h.modify a f) (h'.modify a f') := by
  refine ⟨hrel.top, fun c => ?_⟩
  dsimp only [Heap.modify]
  by_cases hc : c = a
  · subst hc
    rw [Function.update_self, Function.update_self]
    have hcell := hrel.cells c
    generalize h.cells c = x at hcell
    generalize h'.cells c = x' at hcell
    cases hcell with
    | none => exact .none
    | some hb => exact .some (hf _ _ hb)
  · rw [Function.update_of_ne hc, Function.update_of_ne hc]
    exact hrel.cells c

theorem rel_of_eq {γ : Type} {x x' : Option γ} (h : x' = x) : Option.Rel (· = ·) x x' := by
  subst h
  cases x' with
  | none => exact .none
  | some c => exact .some rfl

theorem rel_bind {γ δ : Type} {S : γ → γ → Prop} {T : δ → δ → Prop} {x x' : Option γ} {k k' : γ → Option δ}
    (hx : Option.Rel S x x') (hk : ∀ c c', S c c' → Option.Rel T (k c) (k' c')) :
    Option.Rel T (x >>= k) (x' >>= k') := by
  cases hx with
  | none => exact .none
  | some h => exact hk _ _ h

/-! ### Links -/

section Links

variable [Linked β]

variable (hlink : ∀ b b', R b b' → Linked.link b' = Linked.link b)
  (hset : ∀ l b b', R b b' → R (Linked.setLink l b) (Linked.setLink l b'))

include hlink in
theorem Related.link (hrel : Related R h h') : h'.link = h.link := by
  funext a
  rw [Heap.link, Heap.link]
  have hcell := hrel.cells a
  generalize h.cells a = x at hcell
  generalize h'.cells a = x' at hcell
  cases hcell with
  | none => rfl
  | some hb => exact hlink _ _ hb

include hlink in
theorem Related.next (hrel : Related R h h') : h'.next = h.next := by
  funext a
  rw [Heap.next, Heap.next, hrel.link hlink]

include hlink in
theorem Related.prev (hrel : Related R h h') : h'.prev = h.prev := by
  funext a
  rw [Heap.prev, Heap.prev, hrel.link hlink]

include hlink hset

theorem Related.setNext (hrel : Related R h h') (a x : Addr) :
    Option.Rel (Related R) (h.setNext a x) (h'.setNext a x) := by
  rw [Heap.setNext, Heap.setNext, hrel.link hlink]
  cases h.link a with
  | none => exact .none
  | some l => exact .some (hrel.modify (hset _) a)

theorem Related.setPrev (hrel : Related R h h') (a x : Addr) :
    Option.Rel (Related R) (h.setPrev a x) (h'.setPrev a x) := by
  rw [Heap.setPrev, Heap.setPrev, hrel.link hlink]
  cases h.link a with
  | none => exact .none
  | some l => exact .some (hrel.modify (hset _) a)

theorem Related.listAddTail (hrel : Related R h h') (x head : Addr) :
    Option.Rel (Related R) (h.listAddTail x head) (h'.listAddTail x head) := by
  refine rel_bind (rel_of_eq (congrFun (hrel.prev hlink) head)) ?_
  rintro last _ rfl
  refine rel_bind (hrel.setPrev hlink hset head x) fun h₁ h₁' hrel₁ => ?_
  refine rel_bind (hrel₁.setNext hlink hset x head) fun h₂ h₂' hrel₂ => ?_
  exact rel_bind (hrel₂.setPrev hlink hset x last) fun h₃ h₃' hrel₃ => hrel₃.setNext hlink hset last x

theorem Related.listDel (hrel : Related R h h') (x : Addr) :
    Option.Rel (Related R) (h.listDel x) (h'.listDel x) := by
  refine rel_bind (rel_of_eq (congrFun (hrel.prev hlink) x)) ?_
  rintro before _ rfl
  refine rel_bind (rel_of_eq (congrFun (hrel.next hlink) x)) ?_
  rintro after _ rfl
  exact rel_bind (hrel.setPrev hlink hset after before) fun h₁ h₁' hrel₁ =>
    hrel₁.setNext hlink hset before after

omit hset in
/-- A walk with the same answers goes the same way. -/
theorem Related.walk (hrel : Related R h h') {φ ρ : Type} (head : Addr) (bad : Addr → φ) (endless : φ)
    {body body' : Addr → Except φ (Option ρ)} (hbody : ∀ a, body' a = body a) (fuel : Nat) (pos : Addr) :
    h'.walk head bad endless body' fuel pos = h.walk head bad endless body fuel pos := by
  induction fuel generalizing pos with
  | zero => rw [Heap.walk, Heap.walk]
  | succ fuel ih =>
      rw [Heap.walk, Heap.walk, hbody, hrel.next hlink]
      refine if_congr Iff.rfl rfl ?_
      cases body pos with
      | error f => rfl
      | ok answer =>
          cases answer with
          | some r => rfl
          | none =>
              cases h.next pos with
              | none => rfl
              | some pos' => exact ih pos'

end Links

end Heap

end BlockHeap
