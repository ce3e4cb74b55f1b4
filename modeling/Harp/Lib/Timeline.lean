import Mathlib.Data.List.Basic
import Mathlib.Data.List.Range

/-!
This module contains queues of time-stamped items on a discrete timeline: what is due in a range of
positions, at which position and in which order, and what stays queued. An item whose time has
passed is due at the first position of the range.
-/

namespace Timeline

variable {α : Type} (ts : α → Nat)

-- The items whose turn comes at `x`, in a range that starts at `p`.
def turnAt (q : List α) (p x : Nat) : List (Nat × α) :=
  (q.filter (fun a => max (ts a) p = x)).map (Prod.mk x)

/--
What a range of `n` positions from `p` on takes from the queue.
-/
def schedule (q : List α) (p n : Nat) : List (Nat × α) :=
  (List.range' p n).flatMap (turnAt ts q p)

/--
What such a range leaves in the queue. An empty range takes nothing, not even what is overdue.
-/
def rest (q : List α) (p n : Nat) : List α :=
  if n = 0 then q else q.filter (fun a => p + n ≤ ts a)

variable {ts}

@[simp]
theorem schedule_zero (q : List α) (p : Nat) : schedule ts q p 0 = [] := by
  simp [schedule]

@[simp]
theorem rest_zero (q : List α) (p : Nat) : rest ts q p 0 = q := by
  simp [rest]

theorem rest_add (q : List α) (p m n : Nat)
    : rest ts q p (m + n) = rest ts (rest ts q p m) (p + m) n := by
  by_cases hm : m = 0
  . subst hm
    simp
  . by_cases hn : n = 0
    . subst hn
      simp
    . rw [rest, rest, rest, if_neg (by omega), if_neg hn, if_neg hm, List.filter_filter]
      apply List.filter_congr
      intro a _
      simp only [← Bool.decide_and, decide_eq_decide]
      omega

-- Past the first range, the turns of the queue are those of what it leaves.
theorem turnAt_rest {q : List α} {p m x : Nat} (h : p + m ≤ x)
    : turnAt ts (rest ts q p m) (p + m) x = turnAt ts q p x := by
  by_cases hm : m = 0
  . subst hm
    simp
  . rw [turnAt, turnAt, rest, if_neg hm, List.filter_filter]
    congr 1
    apply List.filter_congr
    intro a _
    simp only [← Bool.decide_and, decide_eq_decide]
    omega

/--
A range may be cut anywhere.
-/
theorem schedule_add (q : List α) (p m n : Nat)
    : schedule ts q p (m + n)
        = schedule ts q p m ++ schedule ts (rest ts q p m) (p + m) n := by
  unfold schedule
  rw [← List.range'_append_1, List.flatMap_append]
  congr 1
  apply List.flatMap_congr
  intro x hx
  rw [List.mem_range'_1] at hx
  exact (turnAt_rest hx.1).symm

section Gap

variable {q : List α} {p n : Nat}

theorem rest_of_gap (hn : n ≠ 0) (hgap : ∀ a ∈ q, p < ts a → p + n ≤ ts a)
    : rest ts q p n = q.filter (fun a => p < ts a) := by
  rw [rest, if_neg hn]
  apply List.filter_congr
  intro a ha
  have := hgap a ha
  simp only [decide_eq_decide]
  omega

/--
Where no item falls inside the range, everything due is due at its start.
-/
theorem schedule_of_gap (hn : n ≠ 0) (hgap : ∀ a ∈ q, p < ts a → p + n ≤ ts a)
    : schedule ts q p n = (q.filter (fun a => ts a ≤ p)).map (Prod.mk p) := by
  obtain ⟨m, rfl⟩ := Nat.exists_eq_succ_of_ne_zero hn
  have hfirst : turnAt ts q p p = (q.filter (fun a => ts a ≤ p)).map (Prod.mk p) := by
    unfold turnAt
    congr 1
    apply List.filter_congr
    intro a _
    simp only [decide_eq_decide]
    omega
  have hlater : (List.range' (p + 1) m).flatMap (turnAt ts q p) = [] := by
    rw [List.flatMap_eq_nil_iff]
    intro x hx
    rw [List.mem_range'_1] at hx
    rw [turnAt, List.map_eq_nil_iff, List.filter_eq_nil_iff]
    intro a ha
    have := hgap a ha
    simp only [decide_eq_true_eq]
    omega
  rw [schedule, List.range'_succ, List.flatMap_cons, hfirst, hlater, List.append_nil]

end Gap

end Timeline
