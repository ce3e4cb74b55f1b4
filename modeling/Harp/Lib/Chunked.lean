import Mathlib.Data.List.Basic

/-!
This module contains a reader over a stream that arrives in runs: what is left of the run that was
read last, and the runs that are still to come. A run without elements is the end of the stream.

`pull` is a refill loop. It hands every element on as it comes, with its place; how the stream was
cut into runs cannot be seen in its result.
-/

namespace Chunks

variable {α σ : Type}

-- A fold that is told the place of each element.
def foldAt (f : σ → Nat → α → σ) (pos : Nat) (s : σ) : List α → σ
  | [] => s
  | x :: xs => foldAt f (pos + 1) (f s pos x) xs

theorem foldAt_append (f : σ → Nat → α → σ) (pos : Nat) (s : σ) (xs ys : List α)
    : foldAt f pos s (xs ++ ys) = foldAt f (pos + xs.length) (foldAt f pos s xs) ys := by
  induction xs generalizing pos s with
  | nil => rfl
  | cons x xs ih =>
    rw [List.cons_append, foldAt, ih, foldAt, List.length_cons]
    congr 1
    omega

-- What is kept of every longer and longer front part holds of the whole.
theorem foldAt_inv (f : σ → Nat → α → σ) (I : Nat → σ → Prop) (xs : List α)
    (hstep : ∀ k s x, xs[k]? = some x → I k s → I (k + 1) (f s k x)) {s : σ} (hs : I 0 s)
    : I xs.length (foldAt f 0 s xs) := by
  suffices h : ∀ (done rest : List α) (s : σ), xs = done ++ rest → I done.length s →
      I xs.length (foldAt f done.length s rest) from h [] xs s rfl hs
  intro done rest
  induction rest generalizing done with
  | nil =>
    intro s hxs hs
    rw [hxs, List.append_nil]
    exact hs
  | cons x rest ih =>
    intro s hxs hs
    have hget : xs[done.length]? = some x := by
      rw [hxs, List.getElem?_append_right (Nat.le_refl _), Nat.sub_self]
      rfl
    have hnext := ih (done ++ [x]) (f s done.length x) (by rw [hxs, List.append_assoc]; rfl)
    rw [List.length_append, List.length_singleton] at hnext
    exact hnext (hstep done.length s x hget hs)

structure Reader (α : Type) where
  buf : List α
  runs : List (List α)

namespace Reader

-- The runs up to the end of the stream.
def alive : List (List α) → List α
  | [] => []
  | [] :: _ => []
  | run :: runs => run ++ alive runs

def rest (r : Reader α) : List α :=
  r.buf ++ alive r.runs

-- `none`: the stream ended first.
def pull (f : σ → Nat → α → σ) (buf : List α) (need pos : Nat) (s : σ)
    : List (List α) → Option (σ × Reader α)
  | [] =>
    if need ≤ buf.length then some (foldAt f pos s (buf.take need), ⟨buf.drop need, []⟩) else none
  | run :: runs =>
    if need ≤ buf.length then
      some (foldAt f pos s (buf.take need), ⟨buf.drop need, run :: runs⟩)
    else if run.isEmpty then
      none
    else
      pull f run (need - buf.length) (pos + buf.length) (foldAt f pos s buf) runs

def refill (r : Reader α) (f : σ → Nat → α → σ) (need : Nat) (s : σ) : Option (σ × Reader α) :=
  pull f r.buf need 0 s r.runs

theorem alive_cons {run : List α} (h : run.isEmpty = false) (runs : List (List α))
    : alive (run :: runs) = run ++ alive runs := by
  cases run with
  | nil => cases h
  | cons x run => rfl

theorem alive_of_isEmpty {run : List α} (h : run.isEmpty = true) (runs : List (List α))
    : alive (run :: runs) = [] := by
  cases run with
  | nil => rfl
  | cons x run => cases h

theorem pull_eq_some (f : σ → Nat → α → σ) (buf : List α) (need pos : Nat) (s : σ)
    (runs : List (List α)) (h : need ≤ (buf ++ alive runs).length)
    : ∃ r, pull f buf need pos s runs = some (foldAt f pos s ((buf ++ alive runs).take need), r)
        ∧ r.rest = (buf ++ alive runs).drop need := by
  induction runs generalizing buf need pos s with
  | nil =>
    rw [alive, List.append_nil] at h ⊢
    unfold pull
    rw [if_pos h]
    exact ⟨_, rfl, List.append_nil _⟩
  | cons run runs ih =>
    unfold pull
    by_cases hbuf : need ≤ buf.length
    . rw [if_pos hbuf, List.take_append_of_le_length hbuf, List.drop_append_of_le_length hbuf]
      exact ⟨_, rfl, rfl⟩
    . rw [if_neg hbuf]
      cases hrun : run.isEmpty with
      | true =>
        rw [alive_of_isEmpty hrun, List.append_nil] at h
        omega
      | false =>
        rw [alive_cons hrun] at h ⊢
        rw [if_neg (by simp)]
        have hneed : need - buf.length ≤ (run ++ alive runs).length := by
          rw [List.length_append] at h
          omega
        rcases ih run (need - buf.length) (pos + buf.length) (foldAt f pos s buf) hneed with
          ⟨r, hpull, hrest⟩
        refine ⟨r, ?_, ?_⟩
        . have htake : (buf ++ (run ++ alive runs)).take need
              = buf.take need ++ (run ++ alive runs).take (need - buf.length) := List.take_append
          have hall : buf.take need = buf := List.take_of_length_le (by omega)
          rw [hpull, htake, hall, foldAt_append]
        . have hdrop : (buf ++ (run ++ alive runs)).drop need
              = buf.drop need ++ (run ++ alive runs).drop (need - buf.length) := List.drop_append
          have hnone : buf.drop need = [] := List.drop_of_length_le (by omega)
          rw [hrest, hdrop, hnone, List.nil_append]

theorem pull_eq_none (f : σ → Nat → α → σ) (buf : List α) (need pos : Nat) (s : σ)
    (runs : List (List α)) (h : (buf ++ alive runs).length < need)
    : pull f buf need pos s runs = none := by
  induction runs generalizing buf need pos s with
  | nil =>
    rw [alive, List.append_nil] at h
    unfold pull
    rw [if_neg (by omega)]
  | cons run runs ih =>
    have hbuf : ¬ need ≤ buf.length := by
      rw [List.length_append] at h
      omega
    unfold pull
    rw [if_neg hbuf]
    cases hrun : run.isEmpty with
    | true => rfl
    | false =>
      rw [if_neg (by simp)]
      apply ih
      rw [alive_cons hrun, List.length_append] at h
      omega

variable {r : Reader α}

theorem refill_of_le (f : σ → Nat → α → σ) {need : Nat} (s : σ) (h : need ≤ r.rest.length)
    : ∃ r', r.refill f need s = some (foldAt f 0 s (r.rest.take need), r')
        ∧ r'.rest = r.rest.drop need :=
  pull_eq_some f r.buf need 0 s r.runs h

theorem refill_of_lt (f : σ → Nat → α → σ) {need : Nat} (s : σ) (h : r.rest.length < need)
    : r.refill f need s = none :=
  pull_eq_none f r.buf need 0 s r.runs h

end Reader

-- `memcpy` into a buffer at the place that was reached.
def copy (s : List α) (_ : Nat) (x : α) : List α :=
  s ++ [x]

theorem foldAt_copy (pos : Nat) (s xs : List α) : foldAt copy pos s xs = s ++ xs := by
  induction xs generalizing pos s with
  | nil => rw [foldAt, List.append_nil]
  | cons x xs ih => rw [foldAt, ih, copy, List.append_assoc, List.singleton_append]

end Chunks
