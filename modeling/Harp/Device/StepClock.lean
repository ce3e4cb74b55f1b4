import Harp.Lib.FirstAbove
import Mathlib.Algebra.Order.Floor.Semiring
import Mathlib.Algebra.Order.Archimedean.Basic
import Mathlib.Data.Rat.Floor
import Mathlib.Tactic.FieldSimp
import Mathlib.Tactic.Linarith
import Mathlib.Tactic.Positivity

/-!
This module contains the step clock of the arpeggiator in exact arithmetic: where the musical position
and the stream position meet under an anchor, and which step boundary the clock finds next.
-/

namespace Harp

open FirstAbove

-- `ARP_DIV_PPQ`.
def arpDivPpq (i : Nat) : ℚ :=
  [1, 1 / 2, 1 / 3, 1 / 4, 1 / 6, 1 / 8].getD i 1

theorem arpDivPpq_pos (i : Nat) : 0 < arpDivPpq i := by
  unfold arpDivPpq
  rw [List.getD_eq_getElem?_getD]
  cases h : ([1, 1 / 2, 1 / 3, 1 / 4, 1 / 6, 1 / 8] : List ℚ)[i]? with
  | none => norm_num
  | some q =>
    have hmem := List.mem_of_getElem? h
    simp only [List.mem_cons, List.not_mem_nil, or_false] at hmem
    rcases hmem with rfl | rfl | rfl | rfl | rfl | rfl <;> norm_num

-- A tempo that runs, with the last anchor.
structure StepClock where
  rate : ℚ
  tempo : ℚ
  div : ℚ
  anchorPpq : ℚ
  anchorSsi : Nat
  rate_pos : 0 < rate
  tempo_pos : 0 < tempo
  div_pos : 0 < div

namespace StepClock

variable (c : StepClock)

def arpPpqAt (ssi : Nat) : ℚ :=
  c.anchorPpq + ((ssi : ℚ) - c.anchorSsi) * c.tempo / (60 * c.rate)

def arpSsiAt (ppq : ℚ) : Nat :=
  let ds := (ppq - c.anchorPpq) * 60 * c.rate / c.tempo
  let ssi := c.anchorSsi + ds
  if ssi ≤ 0 then 0 else ⌊ssi + 1 / 2⌋₊

-- The sample of the step `k`.
def boundary (k : ℤ) : Nat :=
  c.arpSsiAt (k * c.div)

-- The step from which the search starts, with the allowance of the source.
def firstStep (after : Nat) : ℤ :=
  ⌊c.arpPpqAt after / c.div + 1 / 10 ^ 9⌋ + 1

-- The loop of `arp_next_step_ssi`, with fuel.
def arpNextStepSsi (fuel after : Nat) : Option Nat :=
  search c.boundary after fuel (c.firstStep after)

-- The length of a step in samples.
def stepSamples : ℚ :=
  c.div * 60 * c.rate / c.tempo

def Boundary (b : Nat) : Prop :=
  ∃ k, c.boundary k = b

-- Every step that the allowance takes for reached is less than half a sample ahead.
def Fine (after : Nat) : Prop :=
  ∀ k : ℤ, k - c.arpPpqAt after / c.div ≤ 1 / 10 ^ 9 →
    (k - c.arpPpqAt after / c.div) * c.stepSamples < 1 / 2

section Boundaries

theorem stepSamples_pos : 0 < c.stepSamples := by
  have hrate := c.rate_pos
  have htempo := c.tempo_pos
  have hdiv := c.div_pos
  unfold stepSamples
  positivity

-- The exact sample of the step `k`.
def exactSsi (k : ℤ) : ℚ :=
  c.anchorSsi + (k * c.div - c.anchorPpq) * 60 * c.rate / c.tempo

theorem exactSsi_eq (k : ℤ) (after : Nat)
    : c.exactSsi k = after + (k - c.arpPpqAt after / c.div) * c.stepSamples := by
  have hrate := c.rate_pos.ne'
  have htempo := c.tempo_pos.ne'
  have hdiv := c.div_pos.ne'
  unfold exactSsi arpPpqAt stepSamples
  field_simp
  ring

theorem exactSsi_succ (k : ℤ) : c.exactSsi (k + 1) = c.exactSsi k + c.stepSamples := by
  unfold exactSsi stepSamples
  push_cast
  ring

theorem lt_boundary_iff_exact (k : ℤ) (after : Nat)
    : after < c.boundary k ↔ 1 / 2 ≤ c.exactSsi k - after := by
  have hpos : (0 : ℚ) ≤ after := Nat.cast_nonneg after
  have heq : c.boundary k = if c.exactSsi k ≤ 0 then 0 else ⌊c.exactSsi k + 1 / 2⌋₊ := rfl
  rw [heq]
  split
  next hle =>
    constructor
    . intro h
      contradiction
    . intro h
      linarith
  next hlt =>
    rw [← Nat.succ_le_iff, Nat.le_floor_iff (by linarith)]
    push_cast
    constructor
    . intro h
      linarith
    . intro h
      linarith

-- A step is after a position when it is at least half a sample ahead of it.
theorem lt_boundary_iff (k : ℤ) (after : Nat)
    : after < c.boundary k ↔ 1 / 2 ≤ (k - c.arpPpqAt after / c.div) * c.stepSamples := by
  rw [lt_boundary_iff_exact, c.exactSsi_eq k after, add_sub_cancel_left]

theorem boundary_mono : Monotone c.boundary := by
  intro k k' hk
  by_contra hlt
  have h := (c.lt_boundary_iff k _).mp (not_le.mp hlt)
  apply lt_irrefl (c.boundary k')
  rw [lt_boundary_iff]
  apply h.trans
  apply mul_le_mul_of_nonneg_right _ c.stepSamples_pos.le
  have hcast : (k : ℚ) ≤ k' := Int.cast_le.mpr hk
  linarith

-- Steps of a sample or more do not share a boundary.
theorem boundary_lt_succ {k : ℤ} (hsteps : 1 ≤ c.stepSamples) (hpos : 0 < c.boundary k)
    : c.boundary k < c.boundary (k + 1) := by
  have hexact := (c.lt_boundary_iff_exact k 0).mp hpos
  rw [Nat.cast_zero] at hexact
  have hround : (c.boundary k : ℚ) ≤ c.exactSsi k + 1 / 2 := by
    have heq : c.boundary k = if c.exactSsi k ≤ 0 then 0 else ⌊c.exactSsi k + 1 / 2⌋₊ := rfl
    rw [heq, if_neg (by linarith)]
    apply Nat.floor_le
    linarith
  rw [lt_boundary_iff_exact, exactSsi_succ]
  linarith

end Boundaries

section Search

theorem firstStep_gt (after : Nat) : c.arpPpqAt after / c.div < c.firstStep after := by
  have h := Int.lt_floor_add_one (c.arpPpqAt after / c.div + 1 / 10 ^ 9)
  unfold firstStep
  push_cast
  linarith

-- Turns of the loop that are enough from any position.
def turns : Nat :=
  ⌈1 / 2 / c.stepSamples⌉₊

theorem lt_boundary_turns (after : Nat) : after < c.boundary (c.firstStep after + c.turns) := by
  rw [lt_boundary_iff]
  have hfirst := c.firstStep_gt after
  have hturns : 1 / 2 / c.stepSamples ≤ c.turns := Nat.le_ceil _
  calc (1 / 2 : ℚ) ≤ c.turns * c.stepSamples := (div_le_iff₀ c.stepSamples_pos).mp hturns
    _ ≤ _ := by
      apply mul_le_mul_of_nonneg_right _ c.stepSamples_pos.le
      push_cast
      linarith

-- The loop ends, whatever the position.
theorem arpNextStepSsi_terminates (after : Nat)
    : ∃ b, ∀ fuel, c.turns < fuel → c.arpNextStepSsi fuel after = some b :=
  exists_search (c.lt_boundary_turns after)

variable {c} {fuel after b : Nat}

theorem arpNextStepSsi_gt (h : c.arpNextStepSsi fuel after = some b) : after < b := by
  rcases of_search h with ⟨_, _, hlt, _⟩
  exact hlt

theorem arpNextStepSsi_boundary (h : c.arpNextStepSsi fuel after = some b) : c.Boundary b := by
  rcases of_search h with ⟨n, heq, _⟩
  exact ⟨_, heq.symm⟩

theorem lt_firstStep_iff (c : StepClock) (after : Nat) (k : ℤ)
    : k < c.firstStep after ↔ k - c.arpPpqAt after / c.div ≤ 1 / 10 ^ 9 := by
  unfold firstStep
  rw [Int.lt_add_one_iff, Int.le_floor, sub_le_iff_le_add, add_comm]

theorem one_le_stepSamples {k : ℤ} (hnear : k - c.arpPpqAt after / c.div ≤ 1 / 10 ^ 9)
    (hahead : 1 / 2 ≤ (k - c.arpPpqAt after / c.div) * c.stepSamples) : 1 ≤ c.stepSamples := by
  have hpos := c.stepSamples_pos
  have hbound := mul_le_mul_of_nonneg_right hnear hpos.le
  norm_num at hbound hahead
  linarith

-- The boundary that is found is the least one exactly where the allowance does no harm.
theorem arpNextStepSsi_isLeast_iff (h : c.arpNextStepSsi fuel after = some b)
    : IsLeast {b | c.Boundary b ∧ after < b} b ↔ c.Fine after := by
  constructor
  . intro hleast k hnear
    by_contra hnot
    have hahead := not_lt.mp hnot
    have hskip : after < c.boundary k := (c.lt_boundary_iff k after).mpr hahead
    have hle := hleast.2 ⟨⟨k, rfl⟩, hskip⟩
    have hlt := c.boundary_lt_succ (one_le_stepSamples hnear hahead) (Nat.zero_lt_of_lt hskip)
    -- the search starts behind the step
    have hfirst := (c.lt_firstStep_iff after k).mpr hnear
    rcases of_search h with ⟨n, rfl, _⟩
    have hmono := c.boundary_mono (show k + 1 ≤ c.firstStep after + n by omega)
    omega
  . intro hfine
    refine ⟨⟨arpNextStepSsi_boundary h, arpNextStepSsi_gt h⟩, ?_⟩
    rintro _ ⟨⟨k, rfl⟩, hlt⟩
    apply search_le c.boundary_mono h _ hlt
    by_contra hbefore
    rw [lt_boundary_iff] at hlt
    apply not_lt.mpr hlt
    apply hfine
    exact (c.lt_firstStep_iff after k).mp (not_le.mp hbefore)

-- Steps shorter than half a thousand million samples are found everywhere.
theorem fine_of_stepSamples (h : c.stepSamples < 5 * 10 ^ 8) (after : Nat) : c.Fine after := by
  intro k hnear
  calc _ ≤ 1 / 10 ^ 9 * c.stepSamples := mul_le_mul_of_nonneg_right hnear c.stepSamples_pos.le
    _ < 1 / 2 := by
      norm_num at h ⊢
      linarith

-- The boundary that the loop finds.
def next (c : StepClock) (after : Nat) : Nat :=
  (c.arpNextStepSsi (c.turns + 1) after).getD 0

theorem arpNextStepSsi_next (c : StepClock) (after : Nat)
    : c.arpNextStepSsi (c.turns + 1) after = some (c.next after) := by
  rcases c.arpNextStepSsi_terminates after with ⟨b, hb⟩
  unfold next
  rw [hb _ (Nat.lt_succ_self _)]
  rfl

theorem next_gt (c : StepClock) (after : Nat) : after < c.next after :=
  arpNextStepSsi_gt (c.arpNextStepSsi_next after)

theorem next_boundary (c : StepClock) (after : Nat) : c.Boundary (c.next after) :=
  arpNextStepSsi_boundary (c.arpNextStepSsi_next after)

theorem next_le (hfine : c.Fine after) (hb : c.Boundary b) (hlt : after < b) : c.next after ≤ b :=
  ((arpNextStepSsi_isLeast_iff (c.arpNextStepSsi_next after)).mpr hfine).2 ⟨hb, hlt⟩

-- The boundary of a position is the one that is seen from the position before it.
theorem next_pred_iff {pos : Nat} (hfine : c.Fine (pos - 1)) (hpos : pos ≠ 0)
    : c.next (pos - 1) = pos ↔ c.Boundary pos := by
  have hgt := c.next_gt (pos - 1)
  constructor
  . intro h
    rw [← h]
    apply next_boundary
  . intro h
    have hle := next_le hfine h (by omega)
    omega

end Search

end StepClock

end Harp
