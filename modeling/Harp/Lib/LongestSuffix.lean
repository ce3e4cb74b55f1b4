import Mathlib.Data.List.Infix
import Mathlib.Algebra.BigOperators.Group.List.Basic
import Mathlib.Algebra.GroupWithZero.Nat
import Mathlib.Algebra.Order.Group.Nat

/-!
This module contains the longest suffix of a list whose weights add up to no more than a budget, and
how it grows with the list.
-/

namespace LongestSuffix

variable {α : Type} (w : α → Nat)

def weight (l : List α) : Nat :=
  (l.map w).sum

def longest (budget : Nat) : List α → List α
  | [] => []
  | x :: l => if weight w (x :: l) ≤ budget then x :: l else longest budget l

def IsLongest (budget : Nat) (l s : List α) : Prop :=
  s <:+ l ∧ weight w s ≤ budget ∧ ∀ t, t <:+ l → weight w t ≤ budget → t <:+ s

@[simp]
theorem weight_nil : weight w [] = 0 :=
  rfl

@[simp]
theorem weight_cons (x : α) (l : List α) : weight w (x :: l) = w x + weight w l := by
  unfold weight
  rw [List.map_cons, List.sum_cons]

@[simp]
theorem weight_append (l l' : List α) : weight w (l ++ l') = weight w l + weight w l' := by
  unfold weight
  rw [List.map_append, List.sum_append]

theorem longest_of_le {budget : Nat} {l : List α} (h : weight w l ≤ budget)
    : longest w budget l = l := by
  cases l with
  | nil => rfl
  | cons x l =>
    rw [longest, if_pos h]

theorem longest_cons_of_lt {budget : Nat} {x : α} {l : List α} (h : budget < weight w (x :: l))
    : longest w budget (x :: l) = longest w budget l := by
  rw [longest, if_neg (Nat.not_le.mpr h)]

theorem weight_longest_le (budget : Nat) (l : List α) : weight w (longest w budget l) ≤ budget := by
  induction l with
  | nil => exact Nat.zero_le budget
  | cons x l ih =>
    by_cases h : weight w (x :: l) ≤ budget
    . rw [longest_of_le w h]
      exact h
    . rw [longest_cons_of_lt w (Nat.not_le.mp h)]
      exact ih

theorem longest_suffix (budget : Nat) (l : List α) : longest w budget l <:+ l := by
  induction l with
  | nil => exact List.suffix_rfl
  | cons x l ih =>
    by_cases h : weight w (x :: l) ≤ budget
    . rw [longest_of_le w h]
    . rw [longest_cons_of_lt w (Nat.not_le.mp h)]
      exact ih.trans (List.suffix_cons x l)

theorem isLongest_longest (budget : Nat) (l : List α)
    : IsLongest w budget l (longest w budget l) := by
  refine ⟨longest_suffix w budget l, weight_longest_le w budget l, ?_⟩
  induction l with
  | nil => exact fun t ht _ => ht
  | cons x l ih =>
    intro t ht hfits
    by_cases h : weight w (x :: l) ≤ budget
    . rw [longest_of_le w h]
      exact ht
    . rw [longest_cons_of_lt w (Nat.not_le.mp h)]
      rcases List.suffix_cons_iff.mp ht with rfl | ht
      . exact absurd hfits h
      . exact ih t ht hfits

-- A smaller budget cuts further.
theorem longest_longest {budget budget' : Nat} (hle : budget' ≤ budget) (l : List α)
    : longest w budget' (longest w budget l) = longest w budget' l := by
  induction l with
  | nil => rfl
  | cons x l ih =>
    by_cases h : weight w (x :: l) ≤ budget
    . rw [longest_of_le w h]
    . have hlt := Nat.not_le.mp h
      rw [longest_cons_of_lt w hlt, ih, longest_cons_of_lt w (Nat.lt_of_le_of_lt hle hlt)]

theorem longest_append {budget : Nat} {x : α} (hx : w x ≤ budget) (l : List α)
    : longest w budget (l ++ [x]) = longest w (budget - w x) l ++ [x] := by
  induction l with
  | nil =>
    have hfits : weight w [x] ≤ budget := by
      rw [weight_cons, weight_nil, Nat.add_zero]
      exact hx
    exact longest_of_le w hfits
  | cons y l ih =>
    have hsum : weight w (y :: l ++ [x]) = weight w (y :: l) + w x := by
      rw [weight_append, weight_cons w x, weight_nil, Nat.add_zero]
    by_cases h : weight w (y :: l) ≤ budget - w x
    . rw [longest_of_le w h, longest_of_le w (by omega)]
    . rw [longest_cons_of_lt w (Nat.not_le.mp h), List.cons_append,
        longest_cons_of_lt w (by rw [← List.cons_append]; omega), ih]

end LongestSuffix
