import Mathlib.Data.List.Basic

/-!
This module contains fixed tables of slots in which a slot carries a key while it is in use. As long
as no two slots carry the same key, a table behaves like a finite map.
-/

namespace SlotMap

variable {κ α : Type} [DecidableEq κ] (key : α → Option κ)

def find (slots : List α) (k : κ) : Option (Nat × α) :=
  (slots.zipIdx.find? (fun x => key x.1 = some k)).map Prod.swap

def Unique (slots : List α) : Prop :=
  ∀ (i j : Nat) x y k, slots[i]? = some x → slots[j]? = some y → key x = some k → key y = some k → i = j

def used (slots : List α) : Nat :=
  slots.countP (fun x => (key x).isSome)

variable {key} {slots : List α}

theorem find_some {k : κ} {i : Nat} {x : α} (h : find key slots k = some (i, x))
    : slots[i]? = some x ∧ key x = some k := by
  unfold find at h
  rw [Option.map_eq_some_iff] at h
  rcases h with ⟨⟨x', i'⟩, hfind, hswap⟩
  cases hswap
  refine ⟨?_, ?_⟩
  . exact List.mem_zipIdx_iff_getElem?.mp (List.mem_of_find?_eq_some hfind)
  . have := List.find?_some hfind
    rw [decide_eq_true_eq] at this
    exact this

theorem find_none {k : κ} (h : find key slots k = none) {i : Nat} {x : α} (hx : slots[i]? = some x)
    : key x ≠ some k := by
  unfold find at h
  rw [Option.map_eq_none_iff, List.find?_eq_none] at h
  have := h (x, i) (List.mem_zipIdx_iff_getElem?.mpr hx)
  rw [decide_eq_true_eq] at this
  exact this

theorem find_eq_some (hu : Unique key slots) {k : κ} {i : Nat} {x : α}
    : find key slots k = some (i, x) ↔ slots[i]? = some x ∧ key x = some k := by
  constructor
  . exact find_some
  . rintro ⟨hx, hk⟩
    cases hfind : find key slots k with
    | none => exact absurd hk (find_none hfind hx)
    | some p =>
      rcases p with ⟨j, y⟩
      rcases find_some hfind with ⟨hy, hky⟩
      have hij := hu i j x y k hx hy hk hky
      subst hij
      rw [hx] at hy
      cases hy
      rfl

omit [DecidableEq κ] in
-- A slot is written; no other slot carries the key it gets.
theorem Unique.set (hu : Unique key slots) {i : Nat} {y : α}
    (hfresh : ∀ k j x, key y = some k → slots[j]? = some x → key x = some k → j = i)
    : Unique key (slots.set i y) := by
  intro a b x x' k hx hx' hk hk'
  rw [List.getElem?_set] at hx hx'
  split at hx
  next ha =>
    split at hx'
    next hb => exact ha.symm.trans hb
    next hb =>
      split at hx
      . cases hx
        have := hfresh k b x' hk hx' hk'
        exact absurd this.symm hb
      . cases hx
  next ha =>
    split at hx'
    next hb =>
      split at hx'
      . cases hx'
        have := hfresh k a x hk' hx hk
        exact absurd this.symm ha
      . cases hx'
    next => exact hu a b x x' k hx hx' hk hk'

theorem find_set (hu : Unique key slots) {i : Nat} {x y : α} (hx : slots[i]? = some x)
    (hfresh : ∀ k j x, key y = some k → slots[j]? = some x → key x = some k → j = i) (k : κ)
    : find key (slots.set i y) k
        = if key y = some k then some (i, y) else if key x = some k then none else find key slots k := by
  have hu' := hu.set hfresh
  have hi : i < slots.length := (List.getElem?_eq_some_iff.mp hx).1
  have hat : (slots.set i y)[i]? = some y := by
    rw [List.getElem?_set_self hi]
  split
  next hk => exact (find_eq_some hu').mpr ⟨hat, hk⟩
  next hk =>
    -- what is found in the new table is somewhere else, and was there before
    have hother : ∀ j z, find key (slots.set i y) k = some (j, z) →
        j ≠ i ∧ find key slots k = some (j, z) := by
      intro j z hfind
      rcases find_some hfind with ⟨hz, hkz⟩
      have hji : j ≠ i := by
        rintro rfl
        rw [hat] at hz
        cases hz
        exact hk hkz
      rw [List.getElem?_set_ne (Ne.symm hji)] at hz
      exact ⟨hji, (find_eq_some hu).mpr ⟨hz, hkz⟩⟩
    cases hfind : find key (slots.set i y) k with
    | some p =>
      rcases hother p.1 p.2 hfind with ⟨hji, hold⟩
      rw [if_neg]
      . exact hold.symm
      . intro hkx
        exact hji (hu p.1 i p.2 x k (find_some hold).1 hx (find_some hold).2 hkx)
    | none =>
      split
      . rfl
      next hkx =>
        cases hold : find key slots k with
        | none => rfl
        | some p =>
          rcases find_some hold with ⟨hz, hkz⟩
          have hpi : p.1 ≠ i := by
            rintro rfl
            rw [hx] at hz
            cases hz
            exact hkx hkz
          exact absurd hkz (find_none hfind (by rw [List.getElem?_set_ne (Ne.symm hpi)]; exact hz))

omit [DecidableEq κ] in
theorem used_set {i : Nat} {x y : α} (hx : slots[i]? = some x)
    : used key (slots.set i y) + (key x).isSome.toNat = used key slots + (key y).isSome.toNat := by
  rcases List.getElem?_eq_some_iff.mp hx with ⟨hi, hget⟩
  have hpos : (key x).isSome = true → 0 < used key slots := by
    intro hkx
    unfold used
    rw [List.countP_pos_iff]
    exact ⟨x, List.mem_of_getElem? hx, hkx⟩
  unfold used at hpos ⊢
  rw [List.countP_set hi, hget]
  cases hkx : (key x).isSome with
  | false => cases hky : (key y).isSome <;> simp
  | true =>
    have := hpos hkx
    cases hky : (key y).isSome <;> simp <;> omega

theorem find_snd (k : κ)
    : (find key slots k).map Prod.snd = slots.find? (fun x => key x = some k) := by
  have hfst : slots = slots.zipIdx.map Prod.fst := by simp
  conv => rhs; rw [hfst, List.find?_map]
  unfold find
  rw [Option.map_map]
  rfl

-- No key is carried twice.
theorem Unique.countP_le_one (hu : Unique key slots) (k : κ)
    : slots.countP (fun x => key x = some k) ≤ 1 := by
  induction slots with
  | nil => exact Nat.zero_le 1
  | cons x slots ih =>
    have htail : Unique key slots := by
      intro i j y z k' hy hz hky hkz
      exact Nat.succ.inj (hu (i + 1) (j + 1) y z k' hy hz hky hkz)
    rw [List.countP_cons]
    split
    next hx =>
      have hzero : slots.countP (fun x => key x = some k) = 0 := by
        rw [List.countP_eq_zero]
        intro y hy hky
        rcases List.mem_iff_getElem?.mp hy with ⟨j, hj⟩
        have h := hu 0 (j + 1) x y k rfl hj (of_decide_eq_true hx) (of_decide_eq_true hky)
        cases h
      omega
    next => exact ih htail

section Map

variable {f : α → α} (hf : ∀ x k, key (f x) = some k → key x = some k)
include hf

omit [DecidableEq κ] in
-- Slots lose their keys, or keep them.
theorem Unique.map (hu : Unique key slots) : Unique key (slots.map f) := by
  intro i j x y k hx hy hkx hky
  rw [List.getElem?_map, Option.map_eq_some_iff] at hx hy
  rcases hx with ⟨x', hx', rfl⟩
  rcases hy with ⟨y', hy', rfl⟩
  exact hu i j x' y' k hx' hy' (hf x' k hkx) (hf y' k hky)

theorem find_map (hu : Unique key slots) (k : κ)
    : find key (slots.map f) k
        = (find key slots k).bind
            (fun p => if key (f p.2) = some k then some (p.1, f p.2) else none) := by
  have hu' := hu.map hf
  have hback : ∀ j z, find key (slots.map f) k = some (j, z) →
      ∃ x, find key slots k = some (j, x) ∧ z = f x ∧ key (f x) = some k := by
    intro j z hfind
    rcases find_some hfind with ⟨hz, hkz⟩
    rw [List.getElem?_map, Option.map_eq_some_iff] at hz
    rcases hz with ⟨x, hx, rfl⟩
    exact ⟨x, (find_eq_some hu).mpr ⟨hx, hf x k hkz⟩, rfl, hkz⟩
  cases hold : find key slots k with
  | none =>
    cases hfind : find key (slots.map f) k with
    | none => rfl
    | some p =>
      rcases hback p.1 p.2 hfind with ⟨x, hx, _, _⟩
      rw [hold] at hx
      cases hx
  | some p =>
    rcases find_some hold with ⟨hp, _⟩
    rw [Option.bind_some]
    split
    next hk =>
      apply (find_eq_some hu').mpr
      refine ⟨?_, hk⟩
      rw [List.getElem?_map, hp]
      rfl
    next hk =>
      cases hfind : find key (slots.map f) k with
      | none => rfl
      | some q =>
        rcases hback q.1 q.2 hfind with ⟨x, hx, _, hkx⟩
        rw [hold] at hx
        cases hx
        exact absurd hkx hk

end Map

end SlotMap
