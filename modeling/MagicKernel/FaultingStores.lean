import Mathlib.Algebra.Ring.Nat

/-! Stores that may fault. Of every byte of a 32-bit address space it is known whether a store to it
succeeds. A copy goes word by word and stops at the first word with a byte that cannot be stored, so that
it leaves a number of bytes and has made some of its stores. -/

namespace FaultingStores

/-- The bytes that can be stored to. -/
abbrev Space := UInt32 → Bool

/-- A byte stored, and where. -/
abbrev Store := UInt32 × UInt8

/-- The stores of the bytes `bytes` from the address `dst` on. -/
def stores (dst : UInt32) (bytes : List UInt8) : List Store := bytes.mapIdx fun k c => (dst + UInt32.ofNat k, c)

/-- A copy of `n` words of four bytes each: the number of bytes left, and the stores made. -/
def copyWords (mem : Space) : Nat → UInt32 → List UInt8 → Nat × List Store
  | 0, _, _ => (0, [])
  | n + 1, dst, src =>
    if (List.range 4).all fun k => mem (dst + UInt32.ofNat k) then
      let rest := copyWords mem n (dst + 4) (src.drop 4)
      (rest.1, stores dst (src.take 4) ++ rest.2)
    else (4 * (n + 1), [])

theorem add_offset (dst : UInt32) (a b : Nat) :
    dst + UInt32.ofNat a + UInt32.ofNat b = dst + UInt32.ofNat (a + b) := by
  rw [UInt32.add_assoc, UInt32.ofNat_add]

/-- An offset that does not lead past the end of the address space is added as it is. -/
theorem toNat_add_offset {dst : UInt32} {k : Nat} (h : dst.toNat + k < 2 ^ 32) :
    (dst + UInt32.ofNat k).toNat = dst.toNat + k := by
  have hk : k < UInt32.size := Nat.lt_of_le_of_lt (Nat.le_add_left k dst.toNat) h
  rw [UInt32.toNat_add, UInt32.toNat_ofNat_of_lt' hk]
  exact Nat.mod_eq_of_lt h

theorem stores_append (dst : UInt32) (xs ys : List UInt8) :
    stores dst (xs ++ ys) = stores dst xs ++ stores (dst + UInt32.ofNat xs.length) ys := by
  rw [stores, List.mapIdx_append, stores, stores]
  congr 2
  funext k c
  rw [add_offset, Nat.add_comm]

theorem mem_stores {dst : UInt32} {bytes : List UInt8} {x : Store} (h : x ∈ stores dst bytes) :
    ∃ k < bytes.length, x.1 = dst + UInt32.ofNat k := by
  obtain ⟨k, hk, rfl⟩ := List.mem_mapIdx.1 h
  exact ⟨k, hk, rfl⟩

section Copy

variable {mem : Space}

/-- The first word can be stored, and then the others. -/
theorem forall_offset_succ {P : UInt32 → Prop} {dst : UInt32} {n : Nat} :
    (∀ k < 4 * (n + 1), P (dst + UInt32.ofNat k)) ↔
      (∀ k < 4, P (dst + UInt32.ofNat k)) ∧ ∀ k < 4 * n, P (dst + 4 + UInt32.ofNat k) := by
  have hnext : ∀ k, dst + 4 + UInt32.ofNat k = dst + UInt32.ofNat (4 + k) := fun k => add_offset dst 4 k
  constructor
  · intro h
    refine ⟨fun k hk => h k (by omega), fun k hk => ?_⟩
    rw [hnext]
    exact h (4 + k) (by omega)
  · rintro ⟨hfirst, hrest⟩ k hk
    by_cases hlt : k < 4
    · exact hfirst k hlt
    · have hlater := hrest (k - 4) (by omega)
      rw [hnext, Nat.add_sub_cancel' (Nat.not_lt.1 hlt)] at hlater
      exact hlater

theorem all_range_four {dst : UInt32} :
    ((List.range 4).all fun k => mem (dst + UInt32.ofNat k)) = true ↔ ∀ k < 4, mem (dst + UInt32.ofNat k) = true := by
  simp only [List.all_eq_true, List.mem_range]

/-- A copy is complete exactly if all its bytes can be stored. -/
theorem copyWords_eq_zero {n : Nat} {dst : UInt32} {src : List UInt8} :
    (copyWords mem n dst src).1 = 0 ↔ ∀ k < 4 * n, mem (dst + UInt32.ofNat k) = true := by
  induction n generalizing dst src with
  | zero => exact iff_of_true rfl fun k hk => absurd hk (Nat.not_lt_zero k)
  | succ n ih =>
      rw [forall_offset_succ (P := fun a => mem a = true), copyWords]
      split
      · rename_i hword
        rw [all_range_four] at hword
        exact ih.trans ⟨fun hrest => ⟨hword, hrest⟩, fun hall => hall.2⟩
      · rename_i hword
        rw [all_range_four] at hword
        exact iff_of_false (Nat.succ_ne_zero _) fun hall => hword hall.1

/-- Complete or not, a copy stores only where it was told to. -/
theorem mem_copyWords {n : Nat} {dst : UInt32} {src : List UInt8} {x : Store}
    (h : x ∈ (copyWords mem n dst src).2) : ∃ k < 4 * n, x.1 = dst + UInt32.ofNat k := by
  induction n generalizing dst src with
  | zero => cases h
  | succ n ih =>
      rw [copyWords] at h
      split at h
      · rcases List.mem_append.1 h with hfirst | hrest
        · obtain ⟨k, hk, hx⟩ := mem_stores hfirst
          rw [List.length_take] at hk
          exact ⟨k, by omega, hx⟩
        · obtain ⟨k, hk, hx⟩ := ih hrest
          refine ⟨4 + k, by omega, hx.trans ?_⟩
          exact add_offset dst 4 k
      · cases h

/-- How much a copy leaves depends on the place only. -/
theorem copyWords_left (n : Nat) (dst : UInt32) (src src' : List UInt8) :
    (copyWords mem n dst src).1 = (copyWords mem n dst src').1 := by
  induction n generalizing dst src src' with
  | zero => rfl
  | succ n ih =>
      rw [copyWords, copyWords]
      split
      · exact ih _ _ _
      · rfl

theorem copyWords_left_le (n : Nat) (dst : UInt32) (src : List UInt8) : (copyWords mem n dst src).1 ≤ 4 * n := by
  induction n generalizing dst src with
  | zero => exact Nat.le_refl _
  | succ n ih =>
      rw [copyWords]
      split
      · exact Nat.le_trans (ih _ _) (Nat.mul_le_mul_left 4 (Nat.le_succ n))
      · exact Nat.le_refl _

/-- Complete or not, a copy stores the source up to what it leaves. -/
theorem copyWords_stores {n : Nat} {dst : UInt32} {src : List UInt8} (hlength : src.length = 4 * n) :
    (copyWords mem n dst src).2 = stores dst (src.take (4 * n - (copyWords mem n dst src).1)) := by
  induction n generalizing dst src with
  | zero =>
      obtain rfl : src = [] := List.length_eq_zero_iff.1 hlength
      rfl
  | succ n ih =>
      rw [copyWords]
      split
      · have hdrop : (src.drop 4).length = 4 * n := by
          rw [List.length_drop]
          omega
        have htake : (src.take 4).length = 4 := by
          rw [List.length_take]
          omega
        have hle : (copyWords mem n (dst + 4) (src.drop 4)).1 ≤ 4 * n := copyWords_left_le n (dst + 4) (src.drop 4)
        dsimp only
        rw [ih hdrop]
        generalize (copyWords mem n (dst + 4) (src.drop 4)).1 = left at hle
        have hcount : 4 * (n + 1) - left = 4 + (4 * n - left) := by omega
        calc stores dst (src.take 4) ++ stores (dst + 4) ((src.drop 4).take (4 * n - left))
            = stores dst (src.take 4) ++
                stores (dst + UInt32.ofNat (src.take 4).length) ((src.drop 4).take (4 * n - left)) := by
              rw [htake]
              rfl
          _ = stores dst (src.take 4 ++ (src.drop 4).take (4 * n - left)) := (stores_append dst _ _).symm
          _ = stores dst (src.take (4 * (n + 1) - left)) := by rw [hcount, List.take_add]
      · dsimp only
        rw [Nat.sub_self, List.take_zero]
        rfl

end Copy

end FaultingStores
