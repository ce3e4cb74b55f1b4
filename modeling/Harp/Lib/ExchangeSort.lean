import Mathlib.Data.List.GetD
import Mathlib.Data.List.Perm.Basic
import Mathlib.Data.List.Range
import Mathlib.Logic.Equiv.Basic
import Mathlib.Order.Lattice

/-!
This module contains sorting by exchanges: for each place in turn, whatever is smaller further on is
swapped into it. A list is sorted by a key of its elements, in the list itself.
-/

namespace ExchangeSort

variable {α κ : Type} [LinearOrder κ] (key : α → κ) (d : α)

def exchange (i : Nat) (l : List α) (j : Nat) : List α :=
  let x := l.getD i d
  let y := l.getD j d
  if key y < key x then (l.set i y).set j x else l

def pass (n : Nat) (l : List α) (i : Nat) : List α :=
  (List.range' (i + 1) (n - (i + 1))).foldl (exchange key d i) l

def sort (n : Nat) (l : List α) : List α :=
  (List.range n).foldl (pass key d n) l

variable {key d} {l : List α} {i j n : Nat}

theorem length_exchange : (exchange key d i l j).length = l.length := by
  unfold exchange
  dsimp only
  split
  . rw [List.length_set, List.length_set]
  . rfl

-- An exchange moves elements between the two places only.
theorem getD_exchange (hi : i < l.length) (hj : j < l.length) (k : Nat)
    : (exchange key d i l j).getD k d
        = if key (l.getD j d) < key (l.getD i d) then l.getD (Equiv.swap i j k) d
          else l.getD k d := by
  unfold exchange
  dsimp only
  split
  . rw [Equiv.swap_apply_def]
    simp only [List.getD_eq_getElem?_getD, List.getElem?_set]
    by_cases hkj : k = j
    . subst hkj
      by_cases hki : k = i
      . subst hki
        simp [hi]
      . simp [hki, hj]
    . by_cases hki : k = i
      . subst hki
        simp [Ne.symm hkj, hi]
      . simp [hki, hkj, Ne.symm hkj, Ne.symm hki]
  . rfl

theorem exchange_perm (hi : i < l.length) (hj : j < l.length)
    : (exchange key d i l j).Perm l := by
  unfold exchange
  dsimp only
  split
  . simp only [List.getD_eq_getElem _ _ hi, List.getD_eq_getElem _ _ hj]
    exact List.set_set_perm hi hj
  . exact List.Perm.refl l

/-- The places below `i` hold what belongs there: nothing behind them is smaller. -/
def Settled (key : α → κ) (d : α) (l : List α) (i : Nat) : Prop :=
  ∀ a b, a < i → a < b → b < l.length → key (l.getD a d) ≤ key (l.getD b d)

/-- The element at `i` is the least of those up to `j`. -/
def Least (key : α → κ) (d : α) (l : List α) (i j : Nat) : Prop :=
  ∀ t, i < t → t < j → key (l.getD i d) ≤ key (l.getD t d)

theorem Settled.exchange (h : Settled key d l i) (hij : i < j) (hj : j < l.length)
    : Settled key d (exchange key d i l j) i := by
  intro a b ha hab hb
  rw [length_exchange] at hb
  have hi : i < l.length := by omega
  rw [getD_exchange hi hj, getD_exchange hi hj]
  split
  . have hfix : Equiv.swap i j a = a := Equiv.swap_apply_of_ne_of_ne (by omega) (by omega)
    rw [hfix, Equiv.swap_apply_def]
    split
    . exact h a j ha (by omega) hj
    . split
      . exact h a i ha ha hi
      . exact h a b ha hab hb
  . exact h a b ha hab hb

theorem Least.exchange (h : Least key d l i j) (hij : i < j) (hj : j < l.length)
    : Least key d (exchange key d i l j) i (j + 1) := by
  intro t hit htj
  have hi : i < l.length := by omega
  rw [getD_exchange hi hj, getD_exchange hi hj]
  split
  next hlt =>
    rw [Equiv.swap_apply_left, Equiv.swap_apply_def, if_neg (by omega)]
    split
    . exact le_of_lt hlt
    . exact le_of_lt (lt_of_lt_of_le hlt (h t hit (by omega)))
  next hge =>
    rcases Nat.lt_or_ge t j with hlt | hge'
    . exact h t hit hlt
    . have ht : t = j := by omega
      subst ht
      exact le_of_not_gt hge

/-- What one pass keeps and what it brings about. -/
structure Passed (key : α → κ) (d : α) (l l' : List α) (i j : Nat) : Prop where
  perm : l'.Perm l
  settled : Settled key d l' i
  least : Least key d l' i j

theorem passed_foldl (m : Nat) (h : Settled key d l i) (hm : i + 1 + m ≤ l.length)
    : Passed key d l ((List.range' (i + 1) m).foldl (exchange key d i) l) i (i + 1 + m) := by
  induction m with
  | zero => exact ⟨List.Perm.refl l, h, fun t _ _ => by omega⟩
  | succ m ih =>
    have hbefore := ih (by omega)
    have hlen := hbefore.perm.length_eq
    rw [List.range'_concat, List.foldl_concat, Nat.one_mul]
    constructor
    . exact (exchange_perm (by omega) (by omega)).trans hbefore.perm
    . exact hbefore.settled.exchange (by omega) (by omega)
    . exact hbefore.least.exchange (by omega) (by omega)

theorem passed_pass (h : Settled key d l i) (hi : i < l.length)
    : Passed key d l (pass key d l.length l i) i l.length := by
  have hm : i + 1 + (l.length - (i + 1)) = l.length := by omega
  have hpassed := passed_foldl (l.length - (i + 1)) h (by omega)
  rw [hm] at hpassed
  exact hpassed

theorem sorted_foldl (key : α → κ) (d : α) (m : Nat) (hm : m ≤ l.length)
    : ((List.range m).foldl (pass key d l.length) l).Perm l
        ∧ Settled key d ((List.range m).foldl (pass key d l.length) l) m := by
  induction m with
  | zero => exact ⟨List.Perm.refl l, fun a _ ha => by omega⟩
  | succ m ih =>
    rcases ih (by omega) with ⟨hperm, hsettled⟩
    have hlen := hperm.length_eq
    have hpassed := passed_pass hsettled (by omega)
    rw [hlen] at hpassed
    rw [List.range_succ, List.foldl_concat]
    constructor
    . exact hpassed.perm.trans hperm
    . intro a b ha hab hb
      rcases Nat.lt_or_ge a m with hlt | hge
      . exact hpassed.settled a b hlt hab hb
      . have ham : a = m := by omega
        subst ham
        rw [hpassed.perm.length_eq, hlen] at hb
        exact hpassed.least b hab hb

theorem sort_perm (key : α → κ) (d : α) (l : List α) : (sort key d l.length l).Perm l :=
  (sorted_foldl key d l.length (Nat.le_refl _)).1

theorem sort_le (key : α → κ) (d : α) (l : List α) {a b : Nat} (hab : a < b) (hb : b < l.length)
    : key ((sort key d l.length l).getD a d) ≤ key ((sort key d l.length l).getD b d) := by
  have hsorted := sorted_foldl key d l.length (Nat.le_refl l.length)
  apply hsorted.2 a b (by omega) hab
  rw [hsorted.1.length_eq]
  exact hb

end ExchangeSort
