import Mathlib.Data.Int.ConditionallyCompleteOrder
import Mathlib.Data.Int.Init
import Mathlib.Data.Nat.Find
import Mathlib.Order.Bounds.Basic
import Mathlib.Order.ConditionallyCompleteLattice.Basic
import Mathlib.Tactic.Ring

/-!
This module contains the search along a sequence for its first element above a bound, one index at a
time, with the elements it finds when the sequence ascends.
-/

namespace FirstAbove

variable {β : Type} [LinearOrder β] {f : ℤ → β} {a b : β} {k : ℤ}

def search (f : ℤ → β) (a : β) : Nat → ℤ → Option β
  | 0, _ => none
  | fuel + 1, k => if f k ≤ a then search f a fuel (k + 1) else some (f k)

theorem search_of_le {fuel : Nat} (h : f k ≤ a)
    : search f a (fuel + 1) k = search f a fuel (k + 1) :=
  if_pos h

theorem search_of_lt {fuel : Nat} (h : a < f k)
    : search f a (fuel + 1) k = some (f k) :=
  if_neg (not_le.mpr h)

-- More fuel finds the same.
theorem search_fuel {fuel fuel' : Nat} (h : search f a fuel k = some b) (hle : fuel ≤ fuel')
    : search f a fuel' k = some b := by
  induction fuel generalizing fuel' k with
  | zero => contradiction
  | succ fuel ih =>
    cases fuel' with
    | zero => contradiction
    | succ fuel' =>
      by_cases hk : f k ≤ a
      . rw [search_of_le hk] at h ⊢
        exact ih h (Nat.le_of_succ_le_succ hle)
      . rw [search_of_lt (not_le.mp hk)] at h ⊢
        exact h

theorem search_eq {n : Nat} (hle : ∀ j : Nat, j < n → f (k + j) ≤ a) (hlt : a < f (k + n))
    : search f a (n + 1) k = some (f (k + n)) := by
  induction n generalizing k with
  | zero =>
    simp only [Nat.cast_zero, add_zero] at hlt ⊢
    exact search_of_lt hlt
  | succ n ih =>
    have hshift : ∀ j : Nat, k + 1 + j = k + (j + 1 : Nat) := by
      intro j
      push_cast
      ring
    have hfirst := hle 0 (Nat.succ_pos n)
    simp only [Nat.cast_zero, add_zero] at hfirst
    rw [search_of_le hfirst, ih, hshift]
    . intro j hj
      rw [hshift]
      exact hle (j + 1) (by omega)
    . rw [hshift]
      exact hlt

-- What the search has found when it ends.
theorem of_search {fuel : Nat} (h : search f a fuel k = some b)
    : ∃ n : Nat, b = f (k + n) ∧ a < b ∧ ∀ j : Nat, j < n → f (k + j) ≤ a := by
  induction fuel generalizing k with
  | zero => contradiction
  | succ fuel ih =>
    by_cases hk : f k ≤ a
    . rw [search_of_le hk] at h
      rcases ih h with ⟨n, heq, hlt, hle⟩
      refine ⟨n + 1, ?_, hlt, ?_⟩
      . rw [heq]
        congr 1
        push_cast
        ring
      . intro j hj
        cases j with
        | zero => simpa using hk
        | succ j =>
          have hj' := hle j (by omega)
          rwa [show k + 1 + j = k + (j + 1 : Nat) by push_cast; ring] at hj'
    . rw [search_of_lt (not_le.mp hk), Option.some.injEq] at h
      refine ⟨0, ?_, ?_, ?_⟩
      . rw [← h]
        simp
      . rw [← h]
        exact not_le.mp hk
      . intro j hj
        contradiction

theorem exists_search {n : Nat} (h : a < f (k + n))
    : ∃ b, ∀ fuel, n < fuel → search f a fuel k = some b := by
  have hex : ∃ n : Nat, a < f (k + n) := ⟨n, h⟩
  have hfirst := search_eq (n := Nat.find hex) (fun j hj => not_lt.mp (Nat.find_min hex hj))
    (Nat.find_spec hex)
  have hle := Nat.find_min' hex h
  exact ⟨_, fun fuel hfuel => search_fuel hfirst (by omega)⟩

-- Of an ascending sequence, the search finds the least element above the bound from its index on.
theorem search_le {fuel : Nat} (hf : Monotone f) (h : search f a fuel k = some b) {j : ℤ}
    (hj : k ≤ j) (hlt : a < f j) : b ≤ f j := by
  rcases of_search h with ⟨n, rfl, _, hle⟩
  apply hf
  by_contra hbefore
  have hat : k + ((j - k).toNat : ℤ) = j := by omega
  have hnot := hle (j - k).toNat (by omega)
  rw [hat] at hnot
  exact absurd hlt (not_lt.mpr hnot)

end FirstAbove
