import Mathlib.Data.List.Range
import Mathlib.Data.Nat.ModEq

/-!
This module contains a bounded queue in a ring: a buffer of `cap` cells with the cell that is read
next, the cell that is written next and the number of elements. `items` is the queue it stands for.
-/

namespace Rings

structure Ring (α : Type) (cap : Nat) where
  buf : Nat → α
  head : Nat
  tail : Nat
  count : Nat
  head_lt : head < cap
  tail_eq : tail = (head + count) % cap
  count_le : count ≤ cap

namespace Ring

variable {α : Type} {cap : Nat}

theorem succ_mod_lt (r : Ring α cap) : (r.head + 1) % cap < cap :=
  Nat.mod_lt _ (Nat.zero_lt_of_lt r.head_lt)

theorem zero_eq_mod : 0 = (0 + 0) % cap := by
  rw [Nat.zero_add, Nat.zero_mod]

def empty (buf : Nat → α) (hcap : 0 < cap) : Ring α cap where
  buf := buf
  head := 0
  tail := 0
  count := 0
  head_lt := hcap
  tail_eq := zero_eq_mod
  count_le := Nat.zero_le cap

def clear (r : Ring α cap) : Ring α cap :=
  empty r.buf (Nat.zero_lt_of_lt r.head_lt)

theorem push_tail (r : Ring α cap) : (r.tail + 1) % cap = (r.head + (r.count + 1)) % cap := by
  rw [r.tail_eq, Nat.mod_add_mod, Nat.add_assoc]

theorem push_count {r : Ring α cap} (h : r.count ≠ cap) : r.count + 1 ≤ cap :=
  Nat.lt_of_le_of_ne r.count_le h

-- A full ring keeps what it has.
def push (r : Ring α cap) (x : α) : Ring α cap :=
  if h : r.count = cap then
    r
  else
    { buf := fun i => if i = r.tail then x else r.buf i
      head := r.head
      tail := (r.tail + 1) % cap
      count := r.count + 1
      head_lt := r.head_lt
      tail_eq := push_tail r
      count_le := push_count h }

theorem pop_tail {r : Ring α cap} (h : r.count ≠ 0)
    : r.tail = ((r.head + 1) % cap + (r.count - 1)) % cap := by
  rw [r.tail_eq, Nat.mod_add_mod]
  congr 1
  omega

theorem pop_count (r : Ring α cap) : r.count - 1 ≤ cap :=
  Nat.le_trans (Nat.sub_le _ _) r.count_le

def pop (r : Ring α cap) : Ring α cap :=
  if h : r.count = 0 then
    r
  else
    { buf := r.buf
      head := (r.head + 1) % cap
      tail := r.tail
      count := r.count - 1
      head_lt := succ_mod_lt r
      tail_eq := pop_tail h
      count_le := pop_count r }

def items (r : Ring α cap) : List α :=
  (List.range r.count).map (fun i => r.buf ((r.head + i) % cap))

theorem length_items (r : Ring α cap) : r.items.length = r.count := by
  simp [items]

theorem items_eq_nil (r : Ring α cap) : r.items = [] ↔ r.count = 0 := by
  rw [← List.length_eq_zero_iff, length_items]

theorem items_clear (r : Ring α cap) : r.clear.items = [] := by
  rfl

-- The cell that is written is none of those in use.
theorem items_push {r : Ring α cap} (h : r.count ≠ cap) (x : α)
    : (r.push x).items = r.items ++ [x] := by
  have hlt := r.head_lt
  have hcount := Nat.lt_of_le_of_ne r.count_le h
  unfold push items
  rw [dif_neg h]
  dsimp only
  rw [List.range_succ, List.map_append, List.map_singleton, r.tail_eq, if_pos rfl]
  congr 1
  apply List.map_congr_left
  intro i hi
  rw [List.mem_range] at hi
  rw [if_neg]
  intro heq
  have hmod : Nat.ModEq cap (r.head + i) (r.head + r.count) := heq
  have hcancel := Nat.ModEq.add_left_cancel' r.head hmod
  have hsame := Nat.ModEq.eq_of_lt_of_lt hcancel (by omega) hcount
  omega

theorem items_pop {r : Ring α cap} (h : r.count ≠ 0)
    : r.items = r.buf r.head :: r.pop.items := by
  have hsucc : r.count = (r.count - 1) + 1 := by omega
  unfold items pop
  rw [dif_neg h]
  dsimp only
  rw [hsucc, List.range_succ_eq_map, List.map_cons, List.map_map, Nat.add_zero,
    Nat.mod_eq_of_lt r.head_lt]
  congr 1
  apply List.map_congr_left
  intro i _
  simp only [Function.comp_apply, Nat.succ_eq_add_one]
  rw [Nat.mod_add_mod]
  congr 2
  omega

end Ring

end Rings
