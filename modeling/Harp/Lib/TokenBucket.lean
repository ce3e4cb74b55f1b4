import Mathlib.Algebra.Order.Ring.Defs
import Mathlib.Algebra.BigOperators.Group.List.Basic
import Mathlib.Tactic.Linarith

/-!
This module contains token buckets as a list of withdrawals: when, how much, and what was left. The
credit grows no faster than time passes, so whatever is withdrawn within some time is bounded by the
size of the bucket and that time, for any selection of the withdrawals.
-/

namespace TokenBucket

variable {α : Type} [CommRing α] [LinearOrder α] [IsStrictOrderedRing α]

structure Withdrawal (α : Type) where
  time : α
  spent : α
  credit : α

-- What was there before the later withdrawal is at most what was left and the time since.
def Accrues (x y : Withdrawal α) : Prop :=
  y.credit + y.spent ≤ x.credit + (y.time - x.time)

-- Nothing is overdrawn, and the bucket is never more than full.
structure WithinBurst (burst : α) (x : Withdrawal α) : Prop where
  spent : 0 ≤ x.spent
  credit : 0 ≤ x.credit
  full : x.credit + x.spent ≤ burst

variable {x y z : Withdrawal α} {l : List (Withdrawal α)} {burst start span : α}

theorem Accrues.trans (hxy : Accrues x y) (hy : 0 ≤ y.spent) (hyz : Accrues y z) : Accrues x z := by
  unfold Accrues at *
  linarith

theorem sum_spent_le_of_head {stop : α} (h : (x :: l).Pairwise Accrues) (hcredit : 0 ≤ x.credit)
    (hl : ∀ y ∈ l, 0 ≤ y.credit) (hstop : ∀ y ∈ x :: l, y.time ≤ stop)
    : ((x :: l).map Withdrawal.spent).sum ≤ x.credit + x.spent + (stop - x.time) := by
  induction l generalizing x with
  | nil =>
    have hx := hstop x List.mem_cons_self
    simp only [List.map_cons, List.map_nil, List.sum_cons, List.sum_nil]
    linarith
  | cons y l ih =>
    rw [List.pairwise_cons] at h
    have hrest := ih h.2 (hl y List.mem_cons_self) (fun z hz => hl z (List.mem_cons_of_mem y hz))
      (fun z hz => hstop z (List.mem_cons_of_mem x hz))
    have hfirst := h.1 y List.mem_cons_self
    unfold Accrues at hfirst
    rw [List.map_cons, List.sum_cons]
    linarith

theorem sum_spent_le (h : l.Pairwise Accrues) (hwithin : ∀ x ∈ l, WithinBurst burst x)
    (hburst : 0 ≤ burst) (hspan : 0 ≤ span)
    (htime : ∀ x ∈ l, start ≤ x.time ∧ x.time ≤ start + span)
    : (l.map Withdrawal.spent).sum ≤ burst + span := by
  cases l with
  | nil =>
    rw [List.map_nil, List.sum_nil]
    linarith
  | cons x l =>
    have hhead := sum_spent_le_of_head h (hwithin x List.mem_cons_self).credit
      (fun y hy => (hwithin y (List.mem_cons_of_mem x hy)).credit) (fun y hy => (htime y hy).2)
    have hfull := (hwithin x List.mem_cons_self).full
    have hstart := (htime x List.mem_cons_self).1
    linarith

-- Withdrawals of one size are as many as the bound allows.
theorem length_mul_le {cost : α} (h : l.Pairwise Accrues) (hwithin : ∀ x ∈ l, WithinBurst burst x)
    (hburst : 0 ≤ burst) (hspan : 0 ≤ span)
    (htime : ∀ x ∈ l, start ≤ x.time ∧ x.time ≤ start + span) (hcost : ∀ x ∈ l, x.spent = cost)
    : l.length * cost ≤ burst + span := by
  have hsum : (l.map Withdrawal.spent).sum = l.length * cost := by
    have hconst : l.map Withdrawal.spent = List.replicate l.length cost := by
      rw [List.eq_replicate_iff, List.length_map]
      refine ⟨rfl, ?_⟩
      intro c hc
      rcases List.mem_map.mp hc with ⟨x, hx, rfl⟩
      exact hcost x hx
    rw [hconst, List.sum_replicate, nsmul_eq_mul]
  rw [← hsum]
  exact sum_spent_le h hwithin hburst hspan htime

end TokenBucket
