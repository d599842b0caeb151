import Mathlib.Algebra.BigOperators.Intervals
import Mathlib.Data.List.Count
import Mathlib.Data.Finset.Basic

/-! Families of lists that hold elements at locations. A family of doubly linked lists, each element
with one pair of link fields, is represented by its lists and by the function that sends an element to
the list it is linked in. Removal and insertion move a location, and a sum of lengths over a finite
part of the family moves with it. -/

namespace LocatedLists

variable {α ι : Type} [DecidableEq ι]

theorem sum_length_update (Q : ι → List α) {S : Finset ι} {i : ι} (hi : i ∈ S) (l : List α) :
    ∑ j ∈ S, ((Function.update Q i l j).length : Int) =
      ∑ j ∈ S, ((Q j).length : Int) + (l.length - (Q i).length) := by
  have hlength : (fun j => ((Function.update Q i l j).length : Int)) =
      Function.update (fun j => ((Q j).length : Int)) i (l.length : Int) := by
    funext j
    exact Function.apply_update (fun _ (l : List α) => (l.length : Int)) Q i l j
  have hsum := Finset.add_sum_erase S (fun j => ((Q j).length : Int)) hi
  rw [hlength, Finset.sum_update_of_mem hi, Finset.sdiff_singleton_eq_erase, ← hsum]
  omega

variable [DecidableEq α]

/-- Each element is linked once, in the list at its location, and nowhere without one. -/
def Represents (loc : α → Option ι) (Q : ι → List α) : Prop :=
  ∀ i x, (Q i).count x = if loc x = some i then 1 else 0

variable {loc : α → Option ι} {Q : ι → List α} {x : α} {i : ι}

theorem Represents.mem (h : Represents loc Q) : x ∈ Q i ↔ loc x = some i := by
  rw [← List.count_pos_iff, h i x]
  split
  · rename_i hloc
    exact iff_of_true Nat.one_pos hloc
  · rename_i hloc
    exact iff_of_false (Nat.lt_irrefl 0) hloc

theorem count_filter_ne (l : List α) (x y : α) :
    (l.filter (· ≠ x)).count y = if y = x then 0 else l.count y := by
  split
  · rename_i hyx
    subst hyx
    rw [List.count_eq_zero]
    intro hmem
    have hne := (List.mem_filter.1 hmem).2
    simp at hne
  · rename_i hyx
    exact List.count_filter (decide_eq_true hyx)

/-- Unlinking an element takes its location. -/
theorem Represents.remove (h : Represents loc Q) (x : α) :
    Represents (Function.update loc x none) fun i => (Q i).filter (· ≠ x) := by
  intro i y
  rw [count_filter_ne]
  by_cases hyx : y = x
  · subst hyx
    rw [Function.update_self]
    simp
  · rw [Function.update_of_ne hyx, if_neg hyx]
    exact h i y

/-- Linking an element that is linked nowhere, at any position of the list, gives it the location. -/
theorem Represents.insert (h : Represents loc Q) (hx : loc x = none) {l : List α}
    (hl : l.Perm (x :: Q i)) :
    Represents (Function.update loc x (some i)) (Function.update Q i l) := by
  intro j y
  have hcount : l.count y = (Q i).count y + if x = y then 1 else 0 := by
    rw [hl.count_eq, List.count_cons]
    simp
  by_cases hyx : y = x
  · subst hyx
    rw [Function.update_self]
    by_cases hj : j = i
    · subst hj
      rw [Function.update_self, hcount, h j y, hx]
      simp
    · rw [Function.update_of_ne hj, h j y, hx, if_neg (Option.some_ne_none j).symm, if_neg]
      exact fun heq => hj (Option.some.inj heq).symm
  · rw [Function.update_of_ne hyx]
    by_cases hj : j = i
    · subst hj
      rw [Function.update_self, hcount, if_neg (Ne.symm hyx), Nat.add_zero]
      exact h j y
    · rw [Function.update_of_ne hj]
      exact h j y

/-- Unlinking an element changes only the list at its location. -/
theorem Represents.filter_eq_update (h : Represents loc Q) (hx : loc x = some i) :
    (fun j => (Q j).filter (· ≠ x)) = Function.update Q i ((Q i).filter (· ≠ x)) := by
  funext j
  by_cases hj : j = i
  · subst hj
    rw [Function.update_self]
  · rw [Function.update_of_ne hj, List.filter_eq_self]
    intro y hy
    refine decide_eq_true ?_
    rintro rfl
    have hloc := h.mem.1 hy
    rw [hx] at hloc
    exact hj (Option.some.inj hloc).symm

theorem length_filter_ne (l : List α) (x : α) : (l.filter (· ≠ x)).length + l.count x = l.length := by
  induction l with
  | nil => rfl
  | cons y l ih =>
      by_cases hyx : y = x
      · subst hyx
        rw [List.filter_cons_of_neg (by simp), List.count_cons_self, List.length_cons, ← ih]
        omega
      · rw [List.filter_cons_of_pos (by simp [hyx]), List.count_cons_of_ne hyx, List.length_cons,
          List.length_cons, ← ih]
        omega

/-- The list at the location of an unlinked element gets shorter by one. -/
theorem Represents.length_filter (h : Represents loc Q) (hx : loc x = some i) :
    (((Q i).filter (· ≠ x)).length : Int) = (Q i).length - 1 := by
  have hlength := length_filter_ne (Q i) x
  rw [h i x, if_pos hx] at hlength
  omega

end LocatedLists
