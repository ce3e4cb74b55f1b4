import Mathlib.Data.List.Range
import Mathlib.Data.Nat.ModEq
import Mathlib.Tactic.Common

/-!
This module contains the copies into and out of a circular buffer of `cap` cells, which are two where
they straddle its end, and what the cells from a position on say after them.
-/

namespace ByteRing

variable {α : Type}

def memcpy (buf : Nat → α) (pos : Nat) (p : List α) : Nat → α :=
  fun i => if pos ≤ i then (p[i - pos]?).getD (buf i) else buf i

def read (buf : Nat → α) (pos n : Nat) : List α :=
  (List.range n).map (fun i => buf (pos + i))

def put (cap : Nat) (buf : Nat → α) (pos : Nat) (p : List α) : Nat → α :=
  let first := cap - pos
  if p.length ≤ first then
    memcpy buf pos p
  else
    memcpy (memcpy buf pos (p.take first)) 0 (p.drop first)

def get (cap : Nat) (buf : Nat → α) (pos n : Nat) : List α :=
  let first := cap - pos
  if n ≤ first then
    read buf pos n
  else
    read buf pos first ++ read buf 0 (n - first)

-- The cells from a position on, around the end.
def window (cap : Nat) (buf : Nat → α) (pos n : Nat) : List α :=
  (List.range n).map (fun i => buf ((pos + i) % cap))

variable {cap : Nat} {buf : Nat → α} {pos : Nat}

@[simp]
theorem length_window (cap : Nat) (buf : Nat → α) (pos n : Nat)
    : (window cap buf pos n).length = n := by
  simp [window]

theorem window_mod (cap : Nat) (buf : Nat → α) (pos n : Nat)
    : window cap buf (pos % cap) n = window cap buf pos n := by
  unfold window
  simp only [Nat.mod_add_mod]

theorem window_add (cap : Nat) (buf : Nat → α) (pos m n : Nat)
    : window cap buf pos (m + n) = window cap buf pos m ++ window cap buf (pos + m) n := by
  unfold window
  rw [List.range_add, List.map_append, List.map_map]
  congr 1
  apply List.map_congr_left
  intro i _
  dsimp only [Function.comp]
  rw [Nat.add_assoc]

theorem get_eq_window {n : Nat} (hpos : pos < cap) (hn : n ≤ cap)
    : get cap buf pos n = window cap buf pos n := by
  have hread : ∀ m, m ≤ cap - pos → read buf pos m = window cap buf pos m := by
    intro m hm
    unfold read window
    apply List.map_congr_left
    intro i hi
    rw [List.mem_range] at hi
    rw [Nat.mod_eq_of_lt (by omega)]
  unfold get
  dsimp only
  by_cases h : n ≤ cap - pos
  . rw [if_pos h, hread n h]
  . rw [if_neg h, hread _ (Nat.le_refl _)]
    conv => rhs; rw [show n = (cap - pos) + (n - (cap - pos)) by omega, window_add]
    congr 1
    unfold read window
    apply List.map_congr_left
    intro i hi
    rw [List.mem_range] at hi
    congr 1
    rw [show pos + (cap - pos) + i = i + cap by omega, Nat.add_mod_right,
      Nat.mod_eq_of_lt (by omega), Nat.zero_add]

theorem memcpy_of_lt {p : List α} {i : Nat} (h : i < pos) : memcpy buf pos p i = buf i := by
  unfold memcpy
  rw [if_neg (Nat.not_le.mpr h)]

theorem memcpy_of_le {p : List α} {i : Nat} (h : pos + p.length ≤ i)
    : memcpy buf pos p i = buf i := by
  unfold memcpy
  rw [if_pos (by omega), List.getElem?_eq_none (by omega), Option.getD_none]

theorem memcpy_add {p : List α} {j : Nat} (h : j < p.length)
    : memcpy buf pos p (pos + j) = p[j] := by
  unfold memcpy
  rw [if_pos (Nat.le_add_right _ _), Nat.add_sub_cancel_left, List.getElem?_eq_getElem h,
    Option.getD_some]

-- A cell is given by how far it is behind the position of the copy.
theorem put_of_lt {p : List α} {j : Nat} (hpos : pos < cap) (hlen : p.length ≤ cap)
    (hj : j < p.length) : put cap buf pos p ((pos + j) % cap) = p[j] := by
  unfold put
  by_cases h : p.length ≤ cap - pos
  . rw [if_pos h, Nat.mod_eq_of_lt (by omega), memcpy_add hj]
  . rw [if_neg h]
    by_cases hwrap : j < cap - pos
    . rw [Nat.mod_eq_of_lt (by omega), memcpy_of_le (by rw [List.length_drop]; omega),
        memcpy_add (by rw [List.length_take]; omega), List.getElem_take]
    . have hcell : (pos + j) % cap = 0 + (j - (cap - pos)) := by
        rw [show pos + j = j - (cap - pos) + cap by omega, Nat.add_mod_right,
          Nat.mod_eq_of_lt (by omega), Nat.zero_add]
      rw [hcell, memcpy_add (by rw [List.length_drop]; omega), List.getElem_drop]
      congr 1
      omega

theorem put_of_le {p : List α} {j : Nat} (hpos : pos < cap) (hj : p.length ≤ j) (hcap : j < cap)
    : put cap buf pos p ((pos + j) % cap) = buf ((pos + j) % cap) := by
  have hcell : (pos + j) % cap = if pos + j < cap then pos + j else pos + j - cap := by
    by_cases h : pos + j < cap
    . rw [if_pos h, Nat.mod_eq_of_lt h]
    . rw [if_neg h, Nat.mod_eq_sub_mod (by omega), Nat.mod_eq_of_lt (by omega)]
  unfold put
  by_cases h : p.length ≤ cap - pos
  . rw [if_pos h]
    by_cases hwrap : pos + j < cap
    . rw [if_pos hwrap] at hcell
      rw [hcell, memcpy_of_le (by omega)]
    . rw [if_neg hwrap] at hcell
      rw [hcell, memcpy_of_lt (by omega)]
  . rw [if_neg h]
    have hbehind : ¬ pos + j < cap := by omega
    rw [if_neg hbehind] at hcell
    rw [hcell, memcpy_of_le (by rw [List.length_drop]; omega), memcpy_of_lt (by omega)]

-- What is put behind a window is added to it.
theorem window_put {n : Nat} {p : List α} (hpos : pos < cap) (hn : n + p.length ≤ cap)
    : window cap (put cap buf ((pos + n) % cap) p) pos (n + p.length)
        = window cap buf pos n ++ p := by
  have hend : (pos + n) % cap < cap := Nat.mod_lt _ (by omega)
  rw [window_add]
  congr 1
  . unfold window
    apply List.map_congr_left
    intro i hi
    rw [List.mem_range] at hi
    have hcell : (pos + i) % cap = ((pos + n) % cap + (cap - n + i)) % cap := by
      rw [Nat.mod_add_mod, show pos + n + (cap - n + i) = pos + i + cap by omega, Nat.add_mod_right]
    rw [hcell]
    exact put_of_le hend (by omega) (by omega)
  . apply List.ext_getElem
    . rw [length_window]
    . intro i hi hi'
      simp only [window, List.getElem_map, List.getElem_range]
      rw [← Nat.mod_add_mod (pos + n) cap i]
      exact put_of_lt hend (by omega) hi'

end ByteRing
