import Mathlib.Data.List.Basic

/-!
This module contains sums in a magma with a unit, where the order of the additions matters: one sum
over all terms of several groups, from left to right, and the sum of the sums of the groups.
-/

namespace Magma

variable {M : Type}

structure Unital (add : M → M → M) (zero : M) : Prop where
  zero_add : ∀ x, add zero x = x
  add_zero : ∀ x, add x zero = x

def flat (add : M → M → M) (acc : M) (xss : List (List M)) : M :=
  xss.flatten.foldl add acc

def nested (add : M → M → M) (zero : M) (acc : M) (xss : List (List M)) : M :=
  xss.foldl (fun m xs => add m (xs.foldl add zero)) acc

-- Of the groups with a term in them, only the first has more than one.
def OneEach (xss : List (List M)) : Prop :=
  xss.Pairwise (fun xs ys => xs = [] ∨ ys.length ≤ 1)

section Agree

variable {add : M → M → M} {zero : M}

theorem flat_snoc (acc : M) (xss : List (List M)) (xs : List M)
    : flat add acc (xss ++ [xs]) = xs.foldl add (flat add acc xss) := by
  simp [flat]

theorem nested_snoc (acc : M) (xss : List (List M)) (xs : List M)
    : nested add zero acc (xss ++ [xs]) = add (nested add zero acc xss) (xs.foldl add zero) := by
  simp [nested]

section Map

variable {N : Type} {add' : N → N → N} {g : M → N}

theorem foldl_map_hom (hadd : ∀ x y, g (add x y) = add' (g x) (g y)) (xs : List M) (acc : M)
    : g (xs.foldl add acc) = (xs.map g).foldl add' (g acc) := by
  induction xs generalizing acc with
  | nil => rfl
  | cons x xs ih => rw [List.foldl_cons, List.map_cons, List.foldl_cons, ih, hadd]

theorem flat_map (hadd : ∀ x y, g (add x y) = add' (g x) (g y)) (acc : M) (xss : List (List M))
    : g (flat add acc xss) = flat add' (g acc) (xss.map (List.map g)) := by
  unfold flat
  rw [foldl_map_hom hadd, List.map_flatten]

theorem nested_map (hadd : ∀ x y, g (add x y) = add' (g x) (g y)) (acc : M) (xss : List (List M))
    : g (nested add zero acc xss) = nested add' (g zero) (g acc) (xss.map (List.map g)) := by
  unfold nested
  induction xss generalizing acc with
  | nil => rfl
  | cons xs xss ih =>
    rw [List.foldl_cons, List.map_cons, List.foldl_cons, ih, hadd, foldl_map_hom hadd]

theorem oneEach_map (xss : List (List M)) : OneEach (xss.map (List.map g)) ↔ OneEach xss := by
  unfold OneEach
  rw [List.pairwise_map]
  simp

end Map

theorem nested_eq_flat_of_le (h : Unital add zero) {xss : List (List M)}
    (hle : ∀ xs ∈ xss, xs.length ≤ 1) (acc : M) : nested add zero acc xss = flat add acc xss := by
  unfold nested flat
  induction xss generalizing acc with
  | nil => rfl
  | cons xs xss ih =>
    rw [List.forall_mem_cons] at hle
    rw [List.foldl_cons, List.flatten_cons, List.foldl_append, ih hle.2]
    match xs, hle.1 with
    | [], _ => rw [List.foldl_nil, List.foldl_nil, h.add_zero]
    | [x], _ => rw [List.foldl_cons, List.foldl_cons, h.zero_add, List.foldl_nil, List.foldl_nil]

theorem nested_eq_flat (h : Unital add zero) {xss : List (List M)} (hone : OneEach xss)
    : nested add zero zero xss = flat add zero xss := by
  induction xss with
  | nil => rfl
  | cons xs xss ih =>
    unfold OneEach at hone
    rw [List.pairwise_cons] at hone
    by_cases hxs : xs = []
    . subst hxs
      have hrest := ih hone.2
      unfold nested flat at hrest ⊢
      rw [List.foldl_cons, List.foldl_nil, h.add_zero, hrest, List.flatten_cons, List.nil_append]
    . have hle : ∀ ys ∈ xss, ys.length ≤ 1 := by
        intro ys hys
        exact (hone.1 ys hys).resolve_left hxs
      have hrest := nested_eq_flat_of_le h hle (xs.foldl add zero)
      unfold nested flat at hrest ⊢
      rw [List.foldl_cons, h.zero_add, hrest, List.flatten_cons, List.foldl_append]

end Agree

section Tally

/--
The magma that tells the two sums apart: nothing, one term, a sum from left to right, and a sum that
has another sum on its right.
-/
inductive Tally where
  | none
  | one
  | many
  | mixed
deriving DecidableEq, Repr

namespace Tally

def add : Tally → Tally → Tally
  | none, y => y
  | x, none => x
  | mixed, _ => mixed
  | _, one => many
  | _, _ => mixed

theorem unital : Unital add none := by
  constructor
  . intro x
    rfl
  . intro x
    cases x <;> rfl

-- Terms added one by one never mix.
theorem foldl_ones_ne_mixed {xs : List Tally} (h : ∀ x ∈ xs, x = one) {acc : Tally}
    (hacc : acc ≠ mixed) : xs.foldl add acc ≠ mixed := by
  induction xs generalizing acc with
  | nil => exact hacc
  | cons x xs ih =>
    rw [List.forall_mem_cons] at h
    rw [List.foldl_cons, h.1]
    apply ih h.2
    cases acc
    . decide
    . decide
    . decide
    . contradiction

theorem foldl_ones_of_ne_none {xs : List Tally} (h : ∀ x ∈ xs, x = one) {acc : Tally}
    (hacc : acc ≠ none) : xs.foldl add acc ≠ none := by
  induction xs generalizing acc with
  | nil => exact hacc
  | cons x xs ih =>
    rw [List.forall_mem_cons] at h
    rw [List.foldl_cons, h.1]
    apply ih h.2
    cases acc
    . contradiction
    . decide
    . decide
    . decide

-- Two terms and more are a sum.
theorem foldl_ones_many {x y : Tally} {xs : List Tally} (h : ∀ z ∈ x :: y :: xs, z = one)
    : (x :: y :: xs).foldl add none = many := by
  rw [List.forall_mem_cons, List.forall_mem_cons] at h
  rw [h.1, h.2.1]
  have hrest := h.2.2
  clear h
  induction xs with
  | nil => rfl
  | cons z xs ih =>
    rw [List.forall_mem_cons] at hrest
    rw [hrest.1]
    exact ih hrest.2

theorem nested_mixed (xss : List (List Tally)) : nested add none mixed xss = mixed := by
  unfold nested
  induction xss with
  | nil => rfl
  | cons xs xss ih =>
    rw [List.foldl_cons]
    cases xs.foldl add none <;> exact ih

theorem le_of_nested_ne_mixed {xss : List (List Tally)} (hones : ∀ xs ∈ xss, ∀ x ∈ xs, x = one)
    {acc : Tally} (hacc : acc ≠ none) (h : nested add none acc xss ≠ mixed)
    : ∀ xs ∈ xss, xs.length ≤ 1 := by
  induction xss generalizing acc with
  | nil => simp
  | cons xs xss ih =>
    rw [List.forall_mem_cons] at hones ⊢
    have hstep : nested add none (add acc (xs.foldl add none)) xss ≠ mixed := h
    match xs, hones.1 with
    | [], _ =>
      refine ⟨Nat.zero_le 1, ih hones.2 ?_ hstep⟩
      rw [List.foldl_nil, unital.add_zero]
      exact hacc
    | [x], hx =>
      refine ⟨Nat.le_refl 1, ih hones.2 ?_ hstep⟩
      rw [hx x List.mem_cons_self]
      cases acc
      . contradiction
      . decide
      . decide
      . decide
    | x :: y :: xs, hx =>
      -- a sum on the right of what is not nothing
      have hmixed : add acc ((x :: y :: xs).foldl add none) = mixed := by
        rw [foldl_ones_many hx]
        cases acc
        . contradiction
        . rfl
        . rfl
        . rfl
      rw [hmixed, nested_mixed] at hstep
      contradiction

theorem oneEach_of_nested_ne_mixed {xss : List (List Tally)}
    (hones : ∀ xs ∈ xss, ∀ x ∈ xs, x = one) (h : nested add none none xss ≠ mixed)
    : OneEach xss := by
  induction xss with
  | nil => exact List.Pairwise.nil
  | cons xs xss ih =>
    rw [List.forall_mem_cons] at hones
    have hstep : nested add none (xs.foldl add none) xss ≠ mixed := h
    unfold OneEach
    rw [List.pairwise_cons]
    match xs, hones.1 with
    | [], _ => exact ⟨fun ys _ => .inl rfl, ih hones.2 hstep⟩
    | x :: xs, hx =>
      rw [List.forall_mem_cons] at hx
      have hacc : (x :: xs).foldl add none ≠ none := by
        rw [List.foldl_cons, hx.1]
        apply foldl_ones_of_ne_none hx.2
        decide
      have hle := le_of_nested_ne_mixed hones.2 hacc hstep
      refine ⟨fun ys hys => .inr (hle ys hys), ?_⟩
      apply List.Pairwise.imp_of_mem _ (List.pairwise_of_forall (R := fun _ _ => True) fun _ _ => trivial)
      intro ys zs _ hzs _
      exact .inr (hle zs hzs)

/--
On ones, the two sums agree only if all groups after the first that is not empty have one term.
-/
theorem oneEach_of_nested_eq_flat {xss : List (List Tally)}
    (hones : ∀ xs ∈ xss, ∀ x ∈ xs, x = one) (h : nested add none none xss = flat add none xss)
    : OneEach xss := by
  apply oneEach_of_nested_ne_mixed hones
  rw [h]
  apply foldl_ones_ne_mixed
  . intro x hx
    rw [List.mem_flatten] at hx
    rcases hx with ⟨xs, hxs, hx⟩
    exact hones xs hxs x hx
  . decide

end Tally

end Tally

end Magma
