import Mathlib.Data.List.Count
import Mathlib.Data.List.Perm.Basic

/-!
This module contains the buffer of the `k` greatest elements of a sequence that is seen once. The
buffer is in ascending order, so its head tells which elements have `k` greater ones.
-/

namespace TopK

variable {α : Type} [LT α] [DecidableLT α]

def insert (x : α) : List α → List α
  | [] => [x]
  | y :: ys => if x < y then x :: y :: ys else y :: insert x ys

def push (k : Nat) (x : α) (kept : List α) : List α :=
  if kept.length < k then
    insert x kept
  else
    match kept with
    | [] => []
    | smallest :: rest => if smallest < x then insert x rest else smallest :: rest

def keep (k : Nat) (xs : List α) : List α :=
  xs.foldl (fun kept x => push k x kept) []

def above (x : α) (xs : List α) : Nat :=
  xs.countP (x < ·)

theorem insert_perm (x : α) (ys : List α)
    : (insert x ys).Perm (x :: ys) := by
  induction ys with
  | nil => exact List.Perm.refl _
  | cons y ys ih =>
    unfold insert
    split
    . exact List.Perm.refl _
    . exact (ih.cons y).trans (List.Perm.swap x y ys)

theorem length_insert (x : α) (ys : List α)
    : (insert x ys).length = ys.length + 1 := by
  rw [(insert_perm x ys).length_eq, List.length_cons]

theorem above_insert (N x : α) (ys : List α)
    : above N (insert x ys) = above N ys + if N < x then 1 else 0 := by
  unfold above
  rw [(insert_perm x ys).countP_eq, List.countP_cons]
  simp only [decide_eq_true_eq]

theorem above_le_length (N : α) (ys : List α)
    : above N ys ≤ ys.length :=
  List.countP_le_length

theorem above_concat (N x : α) (xs : List α)
    : above N (xs ++ [x]) = above N xs + if N < x then 1 else 0 := by
  unfold above
  rw [List.countP_append, List.countP_singleton]
  simp only [decide_eq_true_eq]

theorem above_cons_of_not_lt {N y : α} {ys : List α} (hlt : ¬ N < y)
    : above N (y :: ys) = above N ys := by
  unfold above
  rw [List.countP_cons_of_neg]
  simpa using hlt

theorem above_perm {xs ys : List α} (h : xs.Perm ys) (N : α)
    : above N xs = above N ys :=
  h.countP_eq _

def sorted (xs : List α) : List α :=
  xs.foldr insert []

theorem sorted_perm (xs : List α)
    : (sorted xs).Perm xs := by
  induction xs with
  | nil => exact List.Perm.refl _
  | cons x xs ih =>
    unfold sorted at ih ⊢
    rw [List.foldr_cons]
    exact (insert_perm x _).trans (ih.cons x)

variable [LE α]

def Ascending (ys : List α) : Prop :=
  ys.Pairwise (· ≤ ·)

-- The buffer is as long as it can be, and counts above every bound as the whole sequence does.
structure Kept (k : Nat) (xs kept : List α) : Prop where
  ascending : Ascending kept
  length : kept.length = min xs.length k
  count : ∀ N, above N kept = min (above N xs) k

theorem Kept.nil (k : Nat) : Kept k ([] : List α) [] := by
  constructor
  . exact List.Pairwise.nil
  . simp
  . simp [above]

variable [Std.LawfulOrderLT α] [Std.IsLinearOrder α]

theorem ascending_insert {ys : List α} (h : Ascending ys) (x : α)
    : Ascending (insert x ys) := by
  induction ys with
  | nil => simp [Ascending, insert]
  | cons y ys ih =>
    unfold Ascending at h ih
    rw [List.pairwise_cons] at h
    unfold insert Ascending
    split
    next hlt =>
      rw [List.pairwise_cons, List.pairwise_cons]
      refine ⟨?_, h⟩
      intro z hz
      rw [List.mem_cons] at hz
      cases hz with
      | inl heq =>
        rw [heq]
        exact Std.le_of_lt hlt
      | inr hz => exact Std.le_trans (Std.le_of_lt hlt) (h.1 z hz)
    next hlt =>
      rw [List.pairwise_cons]
      refine ⟨?_, ih h.2⟩
      intro z hz
      rw [(insert_perm x ys).mem_iff, List.mem_cons] at hz
      cases hz with
      | inl heq =>
        rw [heq]
        exact Std.not_lt.mp hlt
      | inr hz => exact h.1 z hz

-- Everything in an ascending list is above what is below its head.
theorem above_of_lt_head {N y : α} {ys : List α} (h : Ascending (y :: ys)) (hlt : N < y)
    : above N (y :: ys) = ys.length + 1 := by
  unfold Ascending at h
  rw [List.pairwise_cons] at h
  unfold above
  rw [List.countP_eq_length.mpr, List.length_cons]
  intro z hz
  rw [decide_eq_true_eq]
  rw [List.mem_cons] at hz
  cases hz with
  | inl heq =>
    rw [heq]
    exact hlt
  | inr hz => exact Std.lt_of_lt_of_le hlt (h.1 z hz)

theorem Kept.push {k : Nat} {xs kept : List α} (h : Kept k xs kept) (x : α)
    : Kept k (xs ++ [x]) (push k x kept) := by
  have hlen := h.length
  unfold TopK.push
  split
  next hroom =>
    constructor
    . exact ascending_insert h.ascending x
    . rw [length_insert, List.length_append, List.length_singleton]
      omega
    . intro N
      have hcount := h.count N
      have hle := above_le_length N xs
      rw [above_insert, above_concat, hcount]
      split <;> omega
  next hfull =>
    cases kept with
    | nil =>
      -- nothing is ever kept
      have hk : k = 0 := by
        rw [List.length_nil] at hfull
        omega
      subst hk
      constructor
      . exact List.Pairwise.nil
      . simp
      . simp [above]
    | cons smallest rest =>
      have hasc := h.ascending
      have hrest : Ascending rest := by
        unfold Ascending at hasc ⊢
        exact (List.pairwise_cons.mp hasc).2
      rw [List.length_cons] at hlen hfull
      dsimp only
      split
      next hlt =>
        constructor
        . exact ascending_insert hrest x
        . rw [length_insert, List.length_append, List.length_singleton]
          omega
        . intro N
          have hcount := h.count N
          have hle := above_le_length N xs
          have hler := above_le_length N rest
          rw [above_insert, above_concat]
          by_cases hN : N < smallest
          . rw [above_of_lt_head hasc hN] at hcount
            have hx : N < x := Std.lt_trans hN hlt
            have hall : above N rest = rest.length := by
              unfold above
              rw [List.countP_eq_length]
              intro z hz
              rw [decide_eq_true_eq]
              unfold Ascending at hasc
              exact Std.lt_of_lt_of_le hN ((List.pairwise_cons.mp hasc).1 z hz)
            rw [if_pos hx, hall]
            omega
          . rw [above_cons_of_not_lt hN] at hcount
            rw [hcount]
            split <;> omega
      next hlt =>
        constructor
        . exact hasc
        . rw [List.length_append, List.length_singleton, List.length_cons]
          omega
        . intro N
          have hcount := h.count N
          rw [above_concat]
          split
          next hx =>
            have hN : N < smallest := Std.lt_of_lt_of_le hx (Std.not_lt.mp hlt)
            rw [above_of_lt_head hasc hN] at hcount ⊢
            omega
          next => simpa using hcount

theorem kept_foldl (k : Nat) (xs : List α) {seen kept : List α} (h : Kept k seen kept)
    : Kept k (seen ++ xs) (xs.foldl (fun kept x => push k x kept) kept) := by
  induction xs generalizing seen kept with
  | nil =>
    rw [List.append_nil]
    exact h
  | cons x xs ih =>
    rw [List.foldl_cons, List.append_cons]
    apply ih
    exact h.push x

theorem kept_keep (k : Nat) (xs : List α)
    : Kept k xs (keep k xs) :=
  kept_foldl k xs (Kept.nil k)

-- The head of a full buffer is the threshold below which an element has `k` greater ones.
theorem Kept.lt_head_iff {k : Nat} {xs kept : List α} (h : Kept k xs kept) (hk : 0 < k)
    (hfull : k ≤ xs.length) (d N : α) : N < kept.headD d ↔ k ≤ above N xs := by
  have hlen := h.length
  have hcount := h.count N
  cases kept with
  | nil =>
    rw [List.length_nil] at hlen
    omega
  | cons y ys =>
    rw [List.length_cons] at hlen
    have hler := above_le_length N ys
    constructor
    . intro hlt
      rw [above_of_lt_head h.ascending hlt] at hcount
      omega
    . intro hle
      apply Decidable.byContradiction
      intro hlt
      rw [List.headD_cons] at hlt
      rw [above_cons_of_not_lt hlt] at hcount
      omega

theorem ascending_sorted (xs : List α)
    : Ascending (sorted xs) := by
  induction xs with
  | nil => exact List.Pairwise.nil
  | cons x xs ih =>
    unfold sorted at ih ⊢
    rw [List.foldr_cons]
    exact ascending_insert ih x

theorem countP_above_lt_of_ascending (k : Nat) {ys : List α} (h : Ascending ys) (hnodup : ys.Nodup)
    : ys.countP (fun y => above y ys < k) = min ys.length k := by
  induction ys with
  | nil => simp
  | cons y ys ih =>
    unfold Ascending at h ih
    rw [List.pairwise_cons] at h
    rw [List.nodup_cons] at hnodup
    have hlt : ∀ z ∈ ys, y < z := by
      intro z hz
      apply Std.lt_of_le_of_ne (h.1 z hz)
      intro heq
      rw [heq] at hnodup
      exact hnodup.1 hz
    have hhead : above y (y :: ys) = ys.length := by
      rw [above_cons_of_not_lt (Std.lt_irrefl)]
      unfold above
      rw [List.countP_eq_length]
      intro z hz
      rw [decide_eq_true_eq]
      exact hlt z hz
    have htail : ys.countP (fun z => above z (y :: ys) < k) = ys.countP (fun z => above z ys < k) := by
      apply List.countP_congr
      intro z hz
      rw [above_cons_of_not_lt (Std.not_lt.mpr (h.1 z hz))]
    rw [List.countP_cons, htail, ih h.2 hnodup.2, hhead, List.length_cons]
    simp only [decide_eq_true_eq]
    split <;> omega

-- Of distinct elements there are `k` that fewer than `k` others are greater than, or all of them.
theorem countP_above_lt (k : Nat) {xs : List α} (hnodup : xs.Nodup)
    : xs.countP (fun x => above x xs < k) = min xs.length k := by
  have hperm := sorted_perm xs
  have hsorted := countP_above_lt_of_ascending k (ascending_sorted xs) (hperm.nodup_iff.mpr hnodup)
  rw [hperm.length_eq, hperm.countP_eq] at hsorted
  rw [← hsorted]
  apply List.countP_congr
  intro x _
  rw [above_perm hperm]

theorem countP_le_above (k : Nat) {xs : List α} (hnodup : xs.Nodup)
    : xs.countP (fun x => k ≤ above x xs) + min xs.length k = xs.length := by
  have hlength := List.length_eq_countP_add_countP (fun x => decide (above x xs < k)) (l := xs)
  rw [countP_above_lt k hnodup] at hlength
  have hneg : xs.countP (fun x => ¬ (decide (above x xs < k)) = true)
      = xs.countP (fun x => k ≤ above x xs) := by
    apply List.countP_congr
    intro x _
    simp
  rw [hneg] at hlength
  omega

omit [Std.IsLinearOrder α] in
theorem above_lt_length {xs : List α} {x : α} (hx : x ∈ xs)
    : above x xs < xs.length := by
  apply Nat.lt_of_le_of_ne (above_le_length x xs)
  intro heq
  unfold above at heq
  rw [List.countP_eq_length] at heq
  have hlt := heq x hx
  rw [decide_eq_true_eq] at hlt
  exact Std.lt_irrefl hlt

end TopK
