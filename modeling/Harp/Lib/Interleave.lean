import Mathlib.Logic.Function.Basic

/-!
This module contains interleaved buffers: `ns` rows of `total` columns in one array, row after row.
`gather` lists the columns of a part row by row and `scatter` is the loop that writes a part back
into a buffer.
-/

namespace Interleaved

variable {α : Type}

-- Position `k` of a part of `cnt` columns is column `k % cnt` of row `k / cnt`.
def gather (ns cnt : Nat) (cell : Nat → Nat → α) : List α :=
  (List.range ns).flatMap fun s => (List.range cnt).map (cell s)

def writeRow (cnt base : Nat) (val : Nat → α) (b : Nat → α) : Nat → α :=
  (List.range cnt).foldl (fun b c => Function.update b (base + c) (val c)) b

def scatter (ns cnt total off : Nat) (val : Nat → Nat → α) (b : Nat → α) : Nat → α :=
  (List.range ns).foldl (fun b s => writeRow cnt (s * total + off) (val s) b) b

theorem length_gather (ns cnt : Nat) (cell : Nat → Nat → α)
    : (gather ns cnt cell).length = ns * cnt := by
  induction ns with
  | zero => simp [gather]
  | succ ns ih =>
    unfold gather at ih ⊢
    rw [List.range_succ, List.flatMap_append, List.length_append, ih, List.flatMap_singleton,
      List.length_map, List.length_range, Nat.succ_mul]

theorem getElem?_gather {ns cnt s c : Nat} (cell : Nat → Nat → α) (hs : s < ns) (hc : c < cnt)
    : (gather ns cnt cell)[s * cnt + c]? = some (cell s c) := by
  induction ns with
  | zero => omega
  | succ ns ih =>
    have hlen := length_gather ns cnt cell
    have hsplit : gather (ns + 1) cnt cell
        = gather ns cnt cell ++ (List.range cnt).map (cell ns) := by
      unfold gather
      rw [List.range_succ, List.flatMap_append, List.flatMap_singleton]
    rw [hsplit]
    rcases Nat.lt_succ_iff_lt_or_eq.mp hs with hlt | rfl
    . have hrow : (s + 1) * cnt ≤ ns * cnt := Nat.mul_le_mul_right cnt hlt
      rw [Nat.succ_mul] at hrow
      rw [List.getElem?_append_left (by omega)]
      exact ih hlt
    . rw [List.getElem?_append_right (by omega), hlen, Nat.add_sub_cancel_left, List.getElem?_map,
        List.getElem?_range hc]
      rfl

theorem writeRow_apply (cnt base : Nat) (val : Nat → α) (b : Nat → α) (i : Nat)
    : writeRow cnt base val b i
        = if base ≤ i ∧ i < base + cnt then val (i - base) else b i := by
  induction cnt with
  | zero =>
    rw [if_neg (by omega)]
    rfl
  | succ cnt ih =>
    have hstep : writeRow (cnt + 1) base val b
        = Function.update (writeRow cnt base val b) (base + cnt) (val cnt) := by
      unfold writeRow
      rw [List.range_succ, List.foldl_append, List.foldl_cons, List.foldl_nil]
    rw [hstep]
    by_cases hi : i = base + cnt
    . rw [hi, Function.update_self, if_pos (by omega), Nat.add_sub_cancel_left]
    . rw [Function.update_of_ne hi, ih]
      split
      . rw [if_pos (by omega)]
      . rw [if_neg (by omega)]

-- Row `s` of the part is a run of cells inside row `s` of the buffer.
theorem mem_row {total off cnt s i : Nat} (hfits : off + cnt ≤ total)
    : (s * total + off ≤ i ∧ i < s * total + off + cnt)
        ↔ (i / total = s ∧ off ≤ i % total ∧ i % total < off + cnt) := by
  have hdiv := Nat.div_add_mod i total
  constructor
  . rintro ⟨hle, hlt⟩
    have hs : i / total = s := by
      apply Nat.div_eq_of_lt_le
      . omega
      . rw [Nat.succ_mul]
        omega
    rw [hs, Nat.mul_comm] at hdiv
    omega
  . rintro ⟨rfl, hle, hlt⟩
    rw [Nat.mul_comm] at hdiv
    omega

theorem scatter_apply {ns cnt total off : Nat} (hfits : off + cnt ≤ total)
    (val : Nat → Nat → α) (b : Nat → α) (i : Nat)
    : scatter ns cnt total off val b i
        = if i / total < ns ∧ off ≤ i % total ∧ i % total < off + cnt then
            val (i / total) (i % total - off)
          else
            b i := by
  induction ns with
  | zero =>
    rw [if_neg (fun h => Nat.not_lt_zero _ h.1)]
    rfl
  | succ ns ih =>
    have hstep : scatter (ns + 1) cnt total off val b
        = writeRow cnt (ns * total + off) (val ns) (scatter ns cnt total off val b) := by
      unfold scatter
      rw [List.range_succ, List.foldl_append, List.foldl_cons, List.foldl_nil]
    rw [hstep, writeRow_apply, ih]
    have hrow := mem_row (s := ns) (i := i) hfits
    split
    next hin =>
      have hat := hrow.mp hin
      have hdiv := Nat.div_add_mod i total
      rw [if_pos (by omega), hat.1]
      congr 1
      rw [hat.1, Nat.mul_comm] at hdiv
      omega
    next hout =>
      have hnot : ¬(i / total = ns ∧ off ≤ i % total ∧ i % total < off + cnt) :=
        fun h => hout (hrow.mpr h)
      split
      . rw [if_pos (by omega)]
      . rw [if_neg (by omega)]

end Interleaved
