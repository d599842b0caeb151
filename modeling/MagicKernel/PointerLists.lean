import Mathlib.Data.List.Chain
import Mathlib.Data.List.Nodup
import Mathlib.Dynamics.PeriodicPts.Lemmas
import Mathlib.Logic.Function.Basic

/-! Lists that run through the fields of records: rings with two links in each member, lists of children with
a head in the parent and two links in each child, and sets of records that are closed under two opposite links.
A field is a function from the records; each operation is the update it makes to the fields. -/

namespace PointerLists

open Function (update update_of_ne)

variable {α : Type}

/-! ### Rings -/

section Rings

variable {next prev : α → α} {h p q : α} {l l₁ l₂ : List α}

/-- From `h` on `next` meets the members of `l` in their order and comes back to `h`, and `prev` leads back. -/
def Ring (next prev : α → α) (h : α) (l : List α) : Prop :=
  (h :: l ++ [h]).IsChain fun a b => next a = b ∧ prev b = a

theorem ring_nil : Ring next prev h [] ↔ next h = h ∧ prev h = h := by
  rw [Ring, List.cons_append, List.nil_append, List.isChain_pair]

theorem exists_snoc (h : α) (l : List α) : ∃ u a, h :: l = u ++ [a] :=
  ⟨_, _, (List.dropLast_append_getLast (List.cons_ne_nil h l)).symm⟩

/-- The neighbours of a member, and the two parts of the ring between it and the head. -/
theorem Ring.split (hr : Ring next prev h (l₁ ++ p :: l₂)) : ∃ u a b v,
    h :: l₁ = u ++ [a] ∧ l₂ ++ [h] = b :: v ∧ (next a = p ∧ prev p = a) ∧ (next p = b ∧ prev b = p) ∧
      (u ++ [a]).IsChain (fun a b => next a = b ∧ prev b = a) ∧
      (b :: v).IsChain (fun a b => next a = b ∧ prev b = a) := by
  obtain ⟨u, a, hu⟩ := exists_snoc h l₁
  obtain ⟨b, v, hv⟩ : ∃ b v, l₂ ++ [h] = b :: v := List.exists_cons_of_ne_nil (by simp)
  have hlist : h :: (l₁ ++ p :: l₂) ++ [h] = u ++ a :: p :: (b :: v) := by
    rw [← hv, List.append_cons u a, ← hu]
    simp only [List.cons_append, List.append_assoc]
  rw [Ring, hlist, List.isChain_append_cons_cons, List.isChain_cons_cons] at hr
  exact ⟨u, a, b, v, hu, hv, hr.2.1, hr.2.2.1, hr.1, hr.2.2.2⟩

theorem Ring.prev_head (hr : Ring next prev h l) : ∃ u, h :: l = u ++ [prev h] ∧
    (u ++ [prev h]).IsChain (fun a b => next a = b ∧ prev b = a) ∧ next (prev h) = h := by
  obtain ⟨u, a, hu⟩ := exists_snoc h l
  rw [Ring, hu, List.append_assoc, List.singleton_append, List.isChain_append_cons_cons] at hr
  obtain ⟨hchain, ⟨hnext, hprev⟩, -⟩ := hr
  subst hprev
  exact ⟨u, hu, hchain, hnext⟩

theorem Ring.next_head (hr : Ring next prev h l) : next h ∈ l ++ [h] ∧ prev (next h) = h := by
  cases l with
  | nil =>
      rw [(ring_nil.1 hr).1]
      exact ⟨List.mem_singleton.2 rfl, (ring_nil.1 hr).2⟩
  | cons a l =>
      rw [Ring, List.cons_append, List.cons_append, List.isChain_cons_cons] at hr
      rw [hr.1.1]
      exact ⟨List.mem_cons_self, hr.1.2⟩

theorem Ring.next_mem (hr : Ring next prev h l) (hp : p ∈ h :: l) : next p ∈ h :: l := by
  rcases List.mem_cons.1 hp with rfl | hp
  · have hmem := hr.next_head.1
    rw [List.mem_append, List.mem_singleton] at hmem
    exact List.mem_cons.2 hmem.symm
  · obtain ⟨l₁, l₂, rfl⟩ := List.append_of_mem hp
    obtain ⟨u, a, b, v, -, hv, -, ⟨hnext, -⟩, -⟩ := hr.split
    have hb : b ∈ l₂ ++ [h] := hv ▸ List.mem_cons_self
    rw [hnext]
    simp only [List.mem_append, List.mem_cons, List.not_mem_nil, or_false] at hb ⊢
    tauto

theorem Ring.prev_mem (hr : Ring next prev h l) (hp : p ∈ h :: l) : prev p ∈ h :: l := by
  rcases List.mem_cons.1 hp with rfl | hp
  · obtain ⟨u, hu, -⟩ := hr.prev_head
    rw [hu]
    exact List.mem_append_right _ (List.mem_singleton.2 rfl)
  · obtain ⟨l₁, l₂, rfl⟩ := List.append_of_mem hp
    obtain ⟨u, a, b, v, hu, -, ⟨-, hprev⟩, -⟩ := hr.split
    have ha : a ∈ h :: l₁ := hu ▸ List.mem_append_right _ (List.mem_singleton.2 rfl)
    rw [hprev]
    simp only [List.mem_append, List.mem_cons] at ha ⊢
    tauto

/-- A change to the links shows in a part of a ring only where it breaks a pair of neighbours. -/
theorem chain_frame {next' prev' : α → α} {S : List α}
    (hchain : S.IsChain fun a b => next a = b ∧ prev b = a)
    (hnext : ∀ a b, a ∈ S → b ∈ S.tail → next a = b → next' a = next a)
    (hprev : ∀ a b, a ∈ S → b ∈ S.tail → prev b = a → prev' b = prev b) :
    S.IsChain fun a b => next' a = b ∧ prev' b = a :=
  hchain.imp_of_mem_tail_imp fun a b ha hb hab =>
    ⟨(hnext a b ha hb hab.1).trans hab.1, (hprev a b ha hb hab.2).trans hab.2⟩

theorem Ring.congr {next' prev' : α → α} (hr : Ring next prev h l) (hnext : ∀ a ∈ h :: l, next' a = next a)
    (hprev : ∀ a ∈ h :: l, prev' a = prev a) : Ring next' prev' h l := by
  have hmem : ∀ a ∈ h :: l ++ [h], a ∈ h :: l := by
    intro a ha
    rcases List.mem_append.1 ha with ha | ha
    · exact ha
    · exact List.mem_singleton.1 ha ▸ List.mem_cons_self
  exact chain_frame hr (fun a b ha _ _ => hnext a (hmem a ha))
    fun a b _ hb _ => hprev b (hmem b (List.mem_of_mem_tail hb))

variable [DecidableEq α]

/-- A member is taken out. -/
theorem Ring.unlink (hr : Ring next prev h (l₁ ++ p :: l₂)) (hnodup : (h :: (l₁ ++ p :: l₂)).Nodup) :
    Ring (update next (prev p) (next p)) (update prev (next p) (prev p)) h (l₁ ++ l₂) := by
  obtain ⟨u, a, b, v, hu, hv, ⟨hap, hprev⟩, ⟨hnext, hbp⟩, hleft, hright⟩ := hr.split
  rw [hnext, hprev]
  have hlist : h :: (l₁ ++ l₂) ++ [h] = u ++ a :: b :: v := by
    rw [← hv, List.append_cons u a, ← hu]
    simp only [List.cons_append, List.append_assoc]
  have hpl : p ∉ u ++ [a] := by
    rw [← hu]
    simp only [List.nodup_cons, List.nodup_append, List.mem_append, List.mem_cons] at hnodup ⊢
    grind
  have hpr : p ∉ b :: v := by
    rw [← hv]
    simp only [List.nodup_cons, List.nodup_append, List.mem_append, List.mem_cons] at hnodup ⊢
    grind
  -- A pair of neighbours that breaks would have `p` for a member.
  have hframe : ∀ S : List α, p ∉ S → S.IsChain (fun a b => next a = b ∧ prev b = a) →
      S.IsChain fun c d => update next a b c = d ∧ update prev b a d = c := by
    intro S hS hchain
    refine chain_frame hchain (fun c d _ hd hcd => update_of_ne ?_ ..) (fun c d hc _ hdc => update_of_ne ?_ ..)
    · rintro rfl
      exact hS (hap.symm.trans hcd ▸ List.mem_of_mem_tail hd)
    · rintro rfl
      exact hS (hbp.symm.trans hdc ▸ hc)
  rw [Ring, hlist, List.isChain_append_cons_cons]
  exact ⟨hframe _ hpl hleft, ⟨Function.update_self .., Function.update_self ..⟩, hframe _ hpr hright⟩

/-- A new member comes in before the head. -/
theorem Ring.append (hr : Ring next prev h l) (hnodup : (h :: l).Nodup) (hp : p ∉ h :: l) :
    Ring (update (update next p h) (prev h) p) (update (update prev p (prev h)) h p) h (l ++ [p]) := by
  obtain ⟨u, hu, hchain, hback⟩ := hr.prev_head
  have hh : h ∉ l := (List.nodup_cons.1 hnodup).1
  have hph : p ≠ h := fun heq => hp (heq ▸ List.mem_cons_self)
  have hpa : p ≠ prev h := fun heq => hp (heq ▸ hr.prev_mem List.mem_cons_self)
  have hlist : h :: (l ++ [p]) ++ [h] = u ++ prev h :: p :: [h] := by
    rw [List.append_cons u, ← hu]
    simp only [List.cons_append, List.append_assoc, List.nil_append]
  rw [Ring, hlist, List.isChain_append_cons_cons, List.isChain_pair]
  refine ⟨chain_frame hchain (fun c d hc hd hcd => ?_) (fun c d _ hd _ => ?_), ?_, ?_⟩
  · rw [← hu] at hc hd
    rw [update_of_ne ?_, update_of_ne ?_]
    · rintro rfl
      exact hp hc
    · rintro rfl
      exact hh (hback.symm.trans hcd ▸ hd)
  · rw [← hu] at hd
    rw [update_of_ne ?_, update_of_ne ?_]
    · rintro rfl
      exact hp (List.mem_cons_of_mem _ hd)
    · rintro rfl
      exact hh hd
  · rw [Function.update_self, update_of_ne hph, Function.update_self]
    exact ⟨rfl, rfl⟩
  · rw [update_of_ne hpa, Function.update_self, Function.update_self]
    exact ⟨rfl, rfl⟩

end Rings

/-! ### Lists of children -/

section Families

variable {y o : α → Option α} {p q r : α} {b x : Option α} {l l₁ l₂ : List α}

/-- From `x` on `o` meets the members of `l` in their order, each has in `y` the one before it, and the first
has `b` there. -/
def Row (y o : α → Option α) : Option α → Option α → List α → Prop
  | _, x, [] => x = none
  | b, x, p :: l => x = some p ∧ y p = b ∧ Row y o (some p) (o p) l

theorem Row.head (hr : Row y o b x l) : x = l.head? := by
  cases l with
  | nil => exact hr
  | cons p l => exact hr.1

/-- The neighbours of a member. -/
theorem Row.at_mem (hr : Row y o b x (l₁ ++ p :: l₂)) : o p = l₂.head? ∧ y p = l₁.getLast?.or b := by
  induction l₁ generalizing b x with
  | nil => exact ⟨hr.2.2.head, by rw [hr.2.1]; rfl⟩
  | cons a l₁ ih =>
      obtain ⟨hold, hyoung⟩ := ih hr.2.2
      refine ⟨hold, ?_⟩
      rw [hyoung, List.getLast?_cons, Option.some_or]
      cases l₁.getLast? <;> rfl

theorem Row.congr {y' o' : α → Option α} (hr : Row y o b x l) (hy : ∀ p ∈ l, y' p = y p)
    (ho : ∀ p ∈ l, o' p = o p) :
    Row y' o' b x l := by
  induction l generalizing b x with
  | nil => exact hr
  | cons p l ih =>
      refine ⟨hr.1, (hy p List.mem_cons_self).trans hr.2.1, ?_⟩
      rw [ho p List.mem_cons_self]
      exact ih hr.2.2 (fun q hq => hy q (List.mem_cons_of_mem p hq)) fun q hq => ho q (List.mem_cons_of_mem p hq)

/-- The children of every record stand in the row that starts at its field `c`, and each is in one row only. The
first child of the record `loose` may have anything in its field `y`. -/
structure Family (loose : Option α) (c y o : α → Option α) (kids : α → List α) : Prop where
  row : ∀ q, ∃ b, (some q ≠ loose → b = none) ∧ Row y o b (c q) (kids q)
  nodup : ∀ q, (kids q).Nodup
  unique : ∀ p q r, p ∈ kids q → p ∈ kids r → q = r

variable {loose : Option α} {c : α → Option α} {kids : α → List α}

theorem Family.row_none (hf : Family none c y o kids) (q : α) : Row y o none (c q) (kids q) := by
  obtain ⟨b, hb, hr⟩ := hf.row q
  exact hb (Option.some_ne_none q) ▸ hr

theorem Family.loosen (hf : Family none c y o kids) (q : α) : Family (some q) c y o kids where
  row r := ⟨none, fun _ => rfl, hf.row_none r⟩
  nodup := hf.nodup
  unique := hf.unique

theorem Family.tighten (hf : Family (some q) c y o kids) (hk : kids q = []) : Family none c y o kids where
  row r := by
    by_cases hrq : r = q
    · obtain ⟨b, -, hr⟩ := hf.row q
      subst hrq
      rw [hk] at hr ⊢
      exact ⟨none, fun _ => rfl, hr⟩
    · obtain ⟨b, hb, hr⟩ := hf.row r
      exact ⟨b, fun _ => hb fun heq => hrq (Option.some.inj heq), hr⟩
  nodup := hf.nodup
  unique := hf.unique

/-- The links of what is nobody's child are free. -/
theorem Family.congr (hf : Family loose c y o kids) {y' o' : α → Option α}
    (hy : ∀ p q, p ∈ kids q → y' p = y p) (ho : ∀ p q, p ∈ kids q → o' p = o p) : Family loose c y' o' kids where
  row q := by
    obtain ⟨b, hb, hr⟩ := hf.row q
    exact ⟨b, hb, hr.congr (fun p hp => hy p q hp) fun p hp => ho p q hp⟩
  nodup := hf.nodup
  unique := hf.unique

variable [DecidableEq α]

/-- An update at the record that a pointer leads to, if it leads to one. -/
def updateAt (f : α → Option α) (a b : Option α) : α → Option α :=
  match a with
  | none => f
  | some a => update f a b

theorem updateAt_ne {f : α → Option α} {a b : Option α} {c : α} (h : a ≠ some c) : updateAt f a b c = f c := by
  cases a with
  | none => rfl
  | some a => exact update_of_ne (fun heq : c = a => h (heq ▸ rfl)) ..

theorem updateAt_self {f : α → Option α} {b : Option α} {c : α} : updateAt f (some c) b c = b :=
  Function.update_self ..

/-- A member is taken out of a row; `b` is no member. -/
theorem Row.unlink (hr : Row y o b x (l₁ ++ p :: l₂)) (hnodup : (l₁ ++ p :: l₂).Nodup)
    (hb : ∀ a ∈ l₁ ++ p :: l₂, b ≠ some a) :
    Row (updateAt y (o p) (y p)) (updateAt o (y p) (o p)) b (if l₁ = [] then o p else x) (l₁ ++ l₂) := by
  have hold := hr.at_mem.1
  induction l₁ generalizing b x with
  | nil =>
      obtain ⟨-, hy, hrest⟩ := hr
      rw [hy, if_pos rfl, List.nil_append]
      rw [List.nil_append, List.nodup_cons] at hnodup
      cases l₂ with
      | nil => exact hrest
      | cons a l =>
          have hbl : ∀ c ∈ a :: l, b ≠ some c := fun c hc => hb c (List.mem_cons_of_mem p hc)
          obtain ⟨ho, -, hl⟩ := hrest
          rw [ho]
          refine ⟨rfl, updateAt_self, ?_⟩
          rw [updateAt_ne (hbl a List.mem_cons_self)]
          refine hl.congr (fun c hc => updateAt_ne fun heq => ?_)
            fun c hc => updateAt_ne (hbl c (List.mem_cons_of_mem a hc))
          cases heq
          exact (List.nodup_cons.1 hnodup.2).1 hc
  | cons a l₁ ih =>
      have hyoung := hr.at_mem.2
      obtain ⟨hx, hy, hrest⟩ := hr
      rw [List.cons_append, List.nodup_cons] at hnodup
      rw [if_neg (List.cons_ne_nil a l₁)]
      refine ⟨hx, ?_, ?_⟩
      · rw [updateAt_ne, hy]
        intro heq
        rw [hold] at heq
        exact hnodup.1 (List.mem_append_right _ (List.mem_cons_of_mem p (List.mem_of_mem_head? heq)))
      · have htail := ih hrest hnodup.2 (fun c hc heq => hnodup.1 (Option.some.inj heq ▸ hc))
        cases l₁ with
        | nil =>
            rw [if_pos rfl] at htail
            have hya : y p = some a := hyoung
            rw [show updateAt o (y p) (o p) a = o p by rw [hya]; exact updateAt_self]
            exact htail
        | cons c l₁ =>
            rw [if_neg (List.cons_ne_nil c l₁)] at htail
            rw [updateAt_ne]
            · exact htail
            · intro heq
              rw [hyoung, List.getLast?_cons_cons, List.getLast?_cons, Option.some_or] at heq
              have hmem := List.mem_of_getLast? (List.getLast?_cons.trans heq)
              exact hnodup.1 (List.mem_append_left _ hmem)

/-- A child is taken from its parent. -/
theorem Family.unlink (hf : Family none c y o kids) (hk : kids q = l₁ ++ p :: l₂) :
    Family none (if y p = none then update c q (o p) else c) (updateAt y (o p) (y p)) (updateAt o (y p) (o p))
      (update kids q (l₁ ++ l₂)) := by
  have hrow := hf.row_none q
  have hnodup := hf.nodup q
  rw [hk] at hrow hnodup
  obtain ⟨hold, hyoung⟩ := hrow.at_mem
  have hsub : ∀ a, a ∈ l₁ ++ l₂ → a ∈ kids q := by
    intro a ha
    rw [hk]
    simp only [List.mem_append, List.mem_cons] at ha ⊢
    tauto
  refine ⟨fun r => ⟨none, fun _ => rfl, ?_⟩, fun r => ?_, fun a r r' hr hr' => ?_⟩
  · by_cases hrq : r = q
    · subst hrq
      have hunlink := hrow.unlink hnodup fun a _ => (Option.some_ne_none a).symm
      rw [Function.update_self]
      convert hunlink using 1
      rw [hyoung, Option.or_none]
      cases l₁ with
      | nil =>
          rw [List.getLast?_nil, if_pos rfl, if_pos rfl]
          exact Function.update_self ..
      | cons a l₁ => rw [List.getLast?_cons, if_neg (Option.some_ne_none _), if_neg (List.cons_ne_nil a l₁)]
    · rw [update_of_ne hrq]
      have hcr : (if y p = none then update c q (o p) else c) r = c r := by
        split
        · exact update_of_ne hrq ..
        · rfl
      rw [hcr]
      -- The two records whose links change are children of `q`.
      refine (hf.row_none r).congr (fun a ha => updateAt_ne fun heq => hrq ?_) fun a ha => updateAt_ne fun heq => hrq ?_
      · rw [hold] at heq
        exact hf.unique a r q ha (hsub a (List.mem_append_right _ (List.mem_of_mem_head? heq)))
      · rw [hyoung, Option.or_none] at heq
        exact hf.unique a r q ha (hsub a (List.mem_append_left _ (List.mem_of_getLast? heq)))
  · by_cases hrq : r = q
    · subst hrq
      rw [Function.update_self]
      exact hnodup.sublist ((List.Sublist.refl l₁).append (List.sublist_cons_self p l₂))
    · rw [update_of_ne hrq]
      exact hf.nodup r
  · have hmem : ∀ s, a ∈ update kids q (l₁ ++ l₂) s → a ∈ kids s := by
      intro s hs
      by_cases hsq : s = q
      · subst hsq
        rw [Function.update_self] at hs
        exact hsub a hs
      · rwa [update_of_ne hsq] at hs
    exact hf.unique a r r' (hmem r hr) (hmem r' hr')

/-- What is nobody's child becomes the first child of `q`. -/
theorem Family.push (hf : Family loose c y o kids) (hp : ∀ r, p ∉ kids r) (hy : y p = none) (hq : some q ≠ loose) :
    Family loose (update c q (some p)) (updateAt y (c q) (some p)) (update o p (c q))
      (update kids q (p :: kids q)) := by
  have hhead : ∀ a, c q = some a → a ∈ kids q := by
    intro a ha
    obtain ⟨b, -, hr⟩ := hf.row q
    exact List.mem_of_mem_head? (hr.head.symm.trans ha)
  refine ⟨fun r => ?_, fun r => ?_, fun a r r' hr hr' => ?_⟩
  · by_cases hrq : r = q
    · subst hrq
      rw [Function.update_self, Function.update_self]
      refine ⟨none, fun _ => rfl, rfl, ?_, ?_⟩
      · rw [updateAt_ne fun heq => hp r (hhead p heq), hy]
      · rw [Function.update_self]
        obtain ⟨b, hb, hr⟩ := hf.row r
        have hnodup := hf.nodup r
        have hpr := hp r
        rw [hb hq] at hr
        -- The first child of before has `p` in its field `y` now.
        cases hk : kids r with
        | nil =>
            rw [hk] at hr
            exact hr
        | cons a l =>
            rw [hk] at hr hnodup hpr
            obtain ⟨hx, -, hl⟩ := hr
            have hap : a ≠ p := fun heq => hpr (heq ▸ List.mem_cons_self)
            refine ⟨hx, by rw [hx]; exact updateAt_self, ?_⟩
            rw [update_of_ne hap]
            refine hl.congr (fun d hd => updateAt_ne fun heq => ?_) fun d hd => update_of_ne (fun heq : d = p => ?_) ..
            · rw [hx] at heq
              cases heq
              exact (List.nodup_cons.1 hnodup).1 hd
            · exact hpr (heq ▸ List.mem_cons_of_mem a hd)
    · rw [update_of_ne hrq, update_of_ne hrq]
      obtain ⟨b, hb, hr⟩ := hf.row r
      refine ⟨b, hb, hr.congr (fun a ha => updateAt_ne fun heq => hrq ?_) fun a ha =>
        update_of_ne (fun heq : a = p => ?_) ..⟩
      · exact hf.unique a r q ha (hhead a heq)
      · exact hp r (heq ▸ ha)
  · by_cases hrq : r = q
    · subst hrq
      rw [Function.update_self]
      exact List.nodup_cons.2 ⟨hp r, hf.nodup r⟩
    · rw [update_of_ne hrq]
      exact hf.nodup r
  · have hmem : ∀ s, a ∈ update kids q (p :: kids q) s → a ∈ kids s ∨ a = p ∧ s = q := by
      intro s hs
      by_cases hsq : s = q
      · subst hsq
        rw [Function.update_self] at hs
        exact (List.mem_cons.1 hs).symm.imp id fun h => ⟨h, rfl⟩
      · rw [update_of_ne hsq] at hs
        exact .inl hs
    rcases hmem r hr with hold | ⟨ha, hrq⟩ <;> rcases hmem r' hr' with hold' | ⟨ha', hrq'⟩
    · exact hf.unique a r r' hold hold'
    · exact absurd (ha' ▸ hold) (hp r)
    · exact absurd (ha ▸ hold') (hp r')
    · exact hrq.trans hrq'.symm

/-- The first child of `q` leaves it, with its links as they were. -/
theorem Family.pop (hf : Family (some q) c y o kids) (hk : kids q = p :: l) :
    Family (some q) (update c q (o p)) y o (update kids q l) := by
  have hsub : ∀ r a, a ∈ update kids q l r → a ∈ kids r := by
    intro r a ha
    by_cases hrq : r = q
    · subst hrq
      rw [Function.update_self] at ha
      rw [hk]
      exact List.mem_cons_of_mem p ha
    · rwa [update_of_ne hrq] at ha
  refine ⟨fun r => ?_, fun r => ?_, fun a r r' hr hr' => hf.unique a r r' (hsub r a hr) (hsub r' a hr')⟩
  · by_cases hrq : r = q
    · obtain ⟨b, -, hr⟩ := hf.row q
      subst hrq
      rw [hk] at hr
      rw [Function.update_self, Function.update_self]
      exact ⟨some p, fun h => absurd rfl h, hr.2.2⟩
    · rw [update_of_ne hrq, update_of_ne hrq]
      exact hf.row r
  · by_cases hrq : r = q
    · subst hrq
      have hnodup := hf.nodup r
      rw [hk] at hnodup
      rw [Function.update_self]
      exact (List.nodup_cons.1 hnodup).2
    · rw [update_of_ne hrq]
      exact hf.nodup r

end Families

/-! ### Opposite links -/

section Links

variable {S : α → Prop} {next prev : α → α} {p q : α}

/-- `next` and `prev` are opposite to each other on the records of `S`, and do not lead out of it. -/
structure Links (S : α → Prop) (next prev : α → α) : Prop where
  next_mem : ∀ p, S p → S (next p)
  prev_mem : ∀ p, S p → S (prev p)
  prev_next : ∀ p, S p → prev (next p) = p
  next_prev : ∀ p, S p → next (prev p) = p

theorem Links.iterate_mem (hl : Links S next prev) (hp : S p) (n : Nat) : S (next^[n] p) := by
  induction n with
  | zero => exact hp
  | succ n ih =>
      rw [Function.iterate_succ_apply']
      exact hl.next_mem _ ih

/-- Following `next` in a finite set comes back. -/
theorem Links.mem_periodicPts (hl : Links S next prev) (hfinite : {p | S p}.Finite) (hp : S p) :
    p ∈ Function.periodicPts next := by
  have hmaps : Set.MapsTo next {p | S p} {p | S p} := fun a ha => hl.next_mem a ha
  have hinj : Function.Injective (hmaps.restrict next {p | S p} {p | S p}) := by
    rintro ⟨a, ha⟩ ⟨b, hb⟩ hab
    have heq : next a = next b := congrArg Subtype.val hab
    have hval : a = b := by rw [← hl.prev_next a ha, ← hl.prev_next b hb, heq]
    exact Subtype.ext hval
  have hback : Finite {p | S p} := hfinite
  obtain ⟨n, hn, hperiod⟩ := hinj.mem_periodicPts ⟨p, hp⟩
  refine ⟨n, hn, ?_⟩
  have hsemi : Function.Semiconj Subtype.val (hmaps.restrict next {p | S p} {p | S p}) next := fun _ => rfl
  exact hperiod.map hsemi

/-- To be met on the way along `next`. -/
def Reach (next : α → α) (p q : α) : Prop := ∃ n, next^[n] p = q

theorem reach_refl (next : α → α) (p : α) : Reach next p p := ⟨0, rfl⟩

theorem Reach.trans {r : α} (h : Reach next p q) (h' : Reach next q r) : Reach next p r := by
  obtain ⟨n, rfl⟩ := h
  obtain ⟨m, rfl⟩ := h'
  exact ⟨m + n, Function.iterate_add_apply _ m n p⟩

theorem Reach.step (h : Reach next p q) : Reach next p (next q) := h.trans ⟨1, rfl⟩

/-- What holds at the start and is kept by every step holds wherever the way leads. -/
theorem Reach.induct {C : α → Prop} (h : Reach next p q) (hp : C p) (hstep : ∀ r, C r → C (next r)) : C q := by
  obtain ⟨n, rfl⟩ := h
  induction n with
  | zero => exact hp
  | succ n ih =>
      rw [Function.iterate_succ_apply']
      exact hstep _ ih

theorem Links.reach_mem (hl : Links S next prev) (hp : S p) (h : Reach next p q) : S q := h.induct hp hl.next_mem

theorem Links.reach_congr {next' : α → α} (hl : Links S next prev) (hnext : ∀ r, S r → next' r = next r) (hp : S p) :
    Reach next' p q ↔ Reach next p q := by
  have hiff : ∀ n, next'^[n] p = next^[n] p := by
    intro n
    induction n with
    | zero => rfl
    | succ n ih =>
        rw [Function.iterate_succ_apply', Function.iterate_succ_apply', ih, hnext _ (hl.iterate_mem hp n)]
  exact exists_congr fun n => by rw [hiff]

/-- Each record is the head of a ring through the set. -/
theorem Links.exists_ring (hl : Links S next prev) (hfinite : {p | S p}.Finite) (hp : S p) :
    ∃ l, Ring next prev p l ∧ (p :: l).Nodup ∧ ∀ q, q ∈ p :: l ↔ Reach next p q := by
  have hperiodic := hl.mem_periodicPts hfinite hp
  obtain ⟨m, hm⟩ : ∃ m, Function.minimalPeriod next p = m + 1 :=
    Nat.exists_eq_succ_of_ne_zero (Function.minimalPeriod_pos_of_mem_periodicPts hperiodic).ne'
  have hreturn : next^[m + 1] p = p := hm ▸ Function.iterate_minimalPeriod
  have hcons : (List.range (m + 1)).map (fun n => next^[n] p) = p :: (List.range m).map fun n => next^[n + 1] p := by
    rw [List.range_succ_eq_map, List.map_cons, List.map_map]
    rfl
  refine ⟨(List.range m).map fun n => next^[n + 1] p, ?_, ?_, fun q => ?_⟩
  · have hlist : p :: (List.range m).map (fun n => next^[n + 1] p) ++ [p] =
        (List.range (m + 2)).map fun n => next^[n] p := by
      rw [List.range_succ (n := m + 1), List.map_append, hcons, List.map_singleton, hreturn]
    rw [Ring, hlist, List.isChain_iff_getElem]
    intro i hi
    rw [List.getElem_map, List.getElem_map, List.getElem_range, List.getElem_range, Function.iterate_succ_apply']
    exact ⟨rfl, hl.prev_next _ (hl.iterate_mem hp i)⟩
  · rw [← hcons]
    refine List.Nodup.map_on (fun i hi j hj hij => ?_) List.nodup_range
    have hinj := Function.iterate_injOn_Iio_minimalPeriod (f := next) (x := p)
    exact hinj (hm ▸ List.mem_range.1 hi) (hm ▸ List.mem_range.1 hj) hij
  · rw [← hcons, List.mem_map]
    constructor
    · rintro ⟨n, -, hq⟩
      exact ⟨n, hq⟩
    · rintro ⟨n, hq⟩
      refine ⟨n % (m + 1), List.mem_range.2 (Nat.mod_lt _ m.succ_pos), ?_⟩
      rw [← hm, Function.iterate_mod_minimalPeriod_eq, hq]

/-- To be met on the way from each other is symmetric. -/
theorem Links.reach_symm (hl : Links S next prev) (hfinite : {p | S p}.Finite) (hp : S p)
    (hq : Reach next p q) : Reach next q p := by
  obtain ⟨n, rfl⟩ := hq
  obtain ⟨k, hk, hperiod⟩ := hl.mem_periodicPts hfinite hp
  refine ⟨k * n - n, ?_⟩
  have hle : n ≤ k * n := Nat.le_mul_of_pos_left n hk
  rw [← Function.iterate_add_apply, Nat.sub_add_cancel hle]
  exact (hperiod.mul_const n)

theorem Links.congr {next' prev' : α → α} (hl : Links S next prev) (hnext : ∀ r, S r → next' r = next r)
    (hprev : ∀ r, S r → prev' r = prev r) : Links S next' prev' where
  next_mem r hr := (hnext r hr) ▸ hl.next_mem r hr
  prev_mem r hr := (hprev r hr) ▸ hl.prev_mem r hr
  prev_next r hr := by rw [hnext r hr, hprev _ (hl.next_mem r hr), hl.prev_next r hr]
  next_prev r hr := by rw [hprev r hr, hnext _ (hl.prev_mem r hr), hl.next_prev r hr]

variable [DecidableEq α]

/-- A record from outside is put in as a ring of its own. -/
theorem Links.lone (hl : Links S next prev) (hp : ¬S p) :
    Links (fun r => S r ∨ r = p) (update next p p) (update prev p p) := by
  have hout : ∀ r, S r → r ≠ p := fun r hr heq => hp (heq ▸ hr)
  refine ⟨fun r hr => ?_, fun r hr => ?_, fun r hr => ?_, fun r hr => ?_⟩ <;> rcases hr with hr | rfl
  · rw [update_of_ne (hout r hr)]
    exact .inl (hl.next_mem r hr)
  · rw [Function.update_self]
    exact .inr rfl
  · rw [update_of_ne (hout r hr)]
    exact .inl (hl.prev_mem r hr)
  · rw [Function.update_self]
    exact .inr rfl
  · rw [update_of_ne (hout r hr), update_of_ne (hout _ (hl.next_mem r hr)), hl.prev_next r hr]
  · rw [Function.update_self, Function.update_self]
  · rw [update_of_ne (hout r hr), update_of_ne (hout _ (hl.prev_mem r hr)), hl.next_prev r hr]
  · rw [Function.update_self, Function.update_self]

/-- A record from outside is put in behind `q`. -/
theorem Links.insert (hl : Links S next prev) (hp : ¬S p) (hq : S q) :
    Links (fun r => S r ∨ r = p) (update (update next p (next q)) q p) (update (update prev (next q) p) p q) := by
  have hout : ∀ r, S r → r ≠ p := fun r hr heq => hp (heq ▸ hr)
  have hpq : p ≠ q := (hout q hq).symm
  have hpn : p ≠ next q := (hout _ (hl.next_mem q hq)).symm
  refine ⟨fun r hr => ?_, fun r hr => ?_, fun r hr => ?_, fun r hr => ?_⟩
  · by_cases hrq : r = q
    · subst hrq
      rw [Function.update_self]
      exact .inr rfl
    · rw [update_of_ne hrq]
      rcases hr with hr | rfl
      · rw [update_of_ne (hout r hr)]
        exact .inl (hl.next_mem r hr)
      · rw [Function.update_self]
        exact .inl (hl.next_mem q hq)
  · rcases hr with hr | rfl
    · rw [update_of_ne (hout r hr)]
      by_cases hrn : r = next q
      · rw [hrn, Function.update_self]
        exact .inr rfl
      · rw [update_of_ne hrn]
        exact .inl (hl.prev_mem r hr)
    · rw [Function.update_self]
      exact .inl hq
  · by_cases hrq : r = q
    · subst hrq
      rw [Function.update_self, Function.update_self]
    · rw [update_of_ne hrq]
      rcases hr with hr | rfl
      · have hne : next r ≠ next q := by
          intro heq
          exact hrq (by rw [← hl.prev_next r hr, heq, hl.prev_next q hq])
        rw [update_of_ne (hout r hr), update_of_ne (hout _ (hl.next_mem r hr)), update_of_ne hne, hl.prev_next r hr]
      · rw [Function.update_self, update_of_ne hpn.symm, Function.update_self]
  · rcases hr with hr | rfl
    · rw [update_of_ne (hout r hr)]
      by_cases hrn : r = next q
      · subst hrn
        rw [Function.update_self, update_of_ne hpq, Function.update_self]
      · have hne : prev r ≠ q := fun heq => hrn (heq ▸ (hl.next_prev r hr).symm)
        rw [update_of_ne hrn, update_of_ne hne, update_of_ne (hout _ (hl.prev_mem r hr)), hl.next_prev r hr]
    · rw [Function.update_self, Function.update_self]

/-- A record that is put in is met on the way between the others, but nothing else changes. -/
theorem Links.reach_insert {a b : α} (hl : Links S next prev) (hp : ¬S p) (ha : S a) (hb : S b) :
    Reach (update (update next p (next q)) q p) a b ↔ Reach next a b := by
  have hout : ∀ r, S r → r ≠ p := fun r hr heq => hp (heq ▸ hr)
  constructor
  · intro h
    have hboth := h.induct (C := fun c => if c = p then Reach next a q else S c ∧ Reach next a c)
      (by rw [if_neg (hout a ha)]; exact ⟨ha, reach_refl next a⟩) fun c hc => ?_
    · rw [if_neg (hout b hb)] at hboth
      exact hboth.2
    · by_cases hcq : c = q
      · subst hcq
        rw [Function.update_self, if_pos rfl]
        split at hc
        · exact hc
        · exact hc.2
      · rw [update_of_ne hcq]
        by_cases hcp : c = p
        · subst hcp
          rw [if_pos rfl] at hc
          have hmem := hl.reach_mem ha hc.step
          rw [Function.update_self, if_neg (hout _ hmem)]
          exact ⟨hmem, hc.step⟩
        · rw [if_neg hcp] at hc
          have hmem := hl.next_mem c hc.1
          rw [update_of_ne hcp, if_neg (hout _ hmem)]
          exact ⟨hmem, hc.2.step⟩
  · intro h
    have hboth := h.induct (C := fun c => S c ∧ Reach (update (update next p (next q)) q p) a c)
      ⟨ha, reach_refl _ a⟩ fun c hc => ?_
    · exact hboth.2
    · refine ⟨hl.next_mem c hc.1, ?_⟩
      have hcp := hout c hc.1
      by_cases hcq : c = q
      · subst hcq
        have hstep := hc.2.step
        rw [Function.update_self] at hstep
        have hstep' := hstep.step
        rwa [update_of_ne hcp.symm, Function.update_self] at hstep'
      · have hstep := hc.2.step
        rwa [update_of_ne hcq, update_of_ne hcp] at hstep

/-- A record is taken out; its own links stay as they were. -/
theorem Links.erase (hl : Links S next prev) (hp : S p) :
    Links (fun r => S r ∧ r ≠ p) (update next (prev p) (next p)) (update prev (next p) (prev p)) := by
  -- The neighbours of `p` are others, unless nothing but `p` changes.
  have hnext : ∀ r, S r → r ≠ prev p → next r ≠ p := fun r hr hne heq => hne (heq ▸ (hl.prev_next r hr).symm)
  have hprev : ∀ r, S r → r ≠ next p → prev r ≠ p := fun r hr hne heq => hne (heq ▸ (hl.next_prev r hr).symm)
  have hfirst : prev p ≠ p → next p ≠ p := fun hne heq => hne (by rw [← heq, hl.prev_next p hp, heq])
  have hlast : next p ≠ p → prev p ≠ p := fun hne heq => hne (by rw [← heq, hl.next_prev p hp, heq])
  refine ⟨fun r hr => ?_, fun r hr => ?_, fun r hr => ?_, fun r hr => ?_⟩
  · by_cases hrp : r = prev p
    · subst hrp
      rw [Function.update_self]
      exact ⟨hl.next_mem p hp, hfirst hr.2⟩
    · rw [update_of_ne hrp]
      exact ⟨hl.next_mem r hr.1, hnext r hr.1 hrp⟩
  · by_cases hrn : r = next p
    · subst hrn
      rw [Function.update_self]
      exact ⟨hl.prev_mem p hp, hlast hr.2⟩
    · rw [update_of_ne hrn]
      exact ⟨hl.prev_mem r hr.1, hprev r hr.1 hrn⟩
  · by_cases hrp : r = prev p
    · subst hrp
      rw [Function.update_self, Function.update_self]
    · have hne : next r ≠ next p := fun heq => hr.2 (by rw [← hl.prev_next r hr.1, heq, hl.prev_next p hp])
      rw [update_of_ne hrp, update_of_ne hne, hl.prev_next r hr.1]
  · by_cases hrn : r = next p
    · subst hrn
      rw [Function.update_self, Function.update_self]
    · have hne : prev r ≠ prev p := fun heq => hr.2 (by rw [← hl.next_prev r hr.1, heq, hl.next_prev p hp])
      rw [update_of_ne hrn, update_of_ne hne, hl.next_prev r hr.1]

/-- A record that is taken out is left out on the way between the others, and nothing else changes. -/
theorem Links.reach_erase {a b : α} (hl : Links S next prev) (hp : S p) (ha : S a) (hap : a ≠ p) (hbp : b ≠ p) :
    Reach (update next (prev p) (next p)) a b ↔ Reach next a b := by
  have herase := hl.erase hp
  constructor
  · intro h
    have hboth := h.induct (C := fun c => (S c ∧ c ≠ p) ∧ Reach next a c)
      ⟨⟨ha, hap⟩, reach_refl next a⟩ fun c hc => ?_
    · exact hboth.2
    · refine ⟨herase.next_mem c hc.1, ?_⟩
      by_cases hcp : c = prev p
      · have hstep := hc.2.step.step
        rw [hcp, hl.next_prev p hp] at hstep
        rw [hcp, Function.update_self]
        exact hstep
      · rw [update_of_ne hcp]
        exact hc.2.step
  · intro h
    have hboth := h.induct
      (C := fun c => S c ∧ Reach (update next (prev p) (next p)) a (if c = p then prev p else c))
      ⟨ha, by rw [if_neg hap]; exact reach_refl _ a⟩ fun c hc => ?_
    · rw [if_neg hbp] at hboth
      exact hboth.2
    · refine ⟨hl.next_mem c hc.1, ?_⟩
      by_cases hcp : c = p
      · subst hcp
        rw [if_pos rfl] at hc
        by_cases hlone : next c = c
        · rw [if_pos hlone]
          exact hc.2
        · have hstep := hc.2.step
          rw [Function.update_self] at hstep
          rwa [if_neg hlone]
      · rw [if_neg hcp] at hc
        by_cases hnext : next c = p
        · have hback : prev p = c := by rw [← hnext, hl.prev_next c hc.1]
          rw [if_pos hnext, hback]
          exact hback ▸ hc.2
        · have hstep := hc.2.step
          have hne : c ≠ prev p := fun heq => hnext (by rw [heq, hl.next_prev p hp])
          rw [update_of_ne hne] at hstep
          rwa [if_neg hnext]

end Links

end PointerLists
