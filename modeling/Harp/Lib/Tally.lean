import Mathlib.Algebra.GroupWithZero.Nat
import Mathlib.Data.List.AList

/-!
This module contains sums over the values of finite maps: what the value of one key adds, and what
the others have together.
-/

namespace Tally

variable {κ α : Type} [DecidableEq κ] (w : α → Nat)

def total (m : AList (fun _ : κ => α)) : Nat :=
  (m.entries.map (fun e => w e.2)).sum

def others (m : AList (fun _ : κ => α)) (k : κ) : Nat :=
  ((m.entries.filter (fun e => e.1 ≠ k)).map (fun e => w e.2)).sum

theorem kerase_eq_filter {k : κ} {l : List (Sigma (fun _ : κ => α))} (h : l.NodupKeys)
    : l.kerase k = l.filter (fun e => e.1 ≠ k) := by
  induction l with
  | nil => rfl
  | cons e l ih =>
    rcases List.nodupKeys_cons.mp h with ⟨hout, hrest⟩
    by_cases hk : k = e.1
    . rw [List.kerase_cons_eq hk, List.filter_cons_of_neg (by simp [hk])]
      symm
      apply List.filter_eq_self.mpr
      intro x hx
      rw [decide_eq_true_eq]
      intro heq
      apply hout
      rw [← hk, ← heq]
      exact List.mem_map_of_mem hx
    . rw [List.kerase_cons_ne hk, List.filter_cons_of_pos (by simp [Ne.symm hk]), ih hrest]

theorem total_erase (m : AList (fun _ : κ => α)) (k : κ) : total w (m.erase k) = others w m k := by
  have herase : (m.erase k).entries = m.entries.filter (fun e => e.1 ≠ k) :=
    kerase_eq_filter m.nodupKeys
  unfold total others
  rw [herase]

theorem total_insert (m : AList (fun _ : κ => α)) (k : κ) (a : α)
    : total w (m.insert k a) = w a + others w m k := by
  unfold total others
  rw [AList.entries_insert, List.map_cons, List.sum_cons, kerase_eq_filter m.nodupKeys]

theorem others_le (m : AList (fun _ : κ => α)) (k : κ) : others w m k ≤ total w m := by
  unfold others total
  induction m.entries with
  | nil => exact Nat.le_refl 0
  | cons e l ih =>
    rw [List.filter_cons, List.map_cons, List.sum_cons]
    split
    . rw [List.map_cons, List.sum_cons]
      exact Nat.add_le_add_left ih _
    . exact Nat.le_trans ih (Nat.le_add_left _ _)

end Tally
