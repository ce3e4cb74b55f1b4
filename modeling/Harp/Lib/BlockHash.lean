import Mathlib.Data.List.Basic

/-!
This module contains hash functions that take their message in blocks of a fixed length: a state
is updated by one block after the other. `Feed` is what a machine knows that is given the message
piece by piece and keeps the block it has not completed in a buffer.
-/

namespace BlockHash

variable {α β σ τ : Type}

-- The complete blocks a message begins with.
def blocks (n : Nat) (m : List α) : List (List α) :=
  if 0 < n ∧ n ≤ m.length then
    m.take n :: blocks n (m.drop n)
  else
    []
termination_by m.length
decreasing_by
  rw [List.length_drop]
  omega

def absorb (f : σ → List α → σ) (n : Nat) (s : σ) (m : List α) : σ :=
  (blocks n m).foldl f s

theorem blocks_of_length_lt {n : Nat} {m : List α} (h : m.length < n) : blocks n m = [] := by
  rw [blocks, if_neg (by omega)]

theorem blocks_append {n : Nat} (hn : 0 < n) {b : List α} (hb : b.length = n) (m : List α)
    : blocks n (b ++ m) = b :: blocks n m := by
  rw [blocks, if_pos ⟨hn, by rw [List.length_append]; omega⟩, List.take_left' hb,
    List.drop_left' hb]

theorem absorb_nil (f : σ → List α → σ) {n : Nat} (hn : 0 < n) (s : σ) : absorb f n s [] = s := by
  rw [absorb, blocks_of_length_lt hn, List.foldl_nil]

theorem absorb_block (f : σ → List α → σ) {n : Nat} (hn : 0 < n) (s : σ) {b : List α}
    (hb : b.length = n) (m : List α)
    : absorb f n s (b ++ m) = absorb f n (f s b) m := by
  rw [absorb, blocks_append hn hb, List.foldl_cons]
  rfl

-- The first block of a message that is a whole number of blocks.
theorem exists_block {n k : Nat} {m : List α} (hm : m.length = n * (k + 1))
    : ∃ b rest, m = b ++ rest ∧ b.length = n ∧ rest.length = n * k := by
  rw [Nat.mul_succ] at hm
  refine ⟨m.take n, m.drop n, (List.take_append_drop n m).symm, ?_, ?_⟩
  . rw [List.length_take]
    omega
  . rw [List.length_drop]
    omega

theorem absorb_append (f : σ → List α → σ) {n : Nat} (hn : 0 < n) {k : Nat} (s : σ) {m : List α}
    (hm : m.length = n * k) (m' : List α)
    : absorb f n s (m ++ m') = absorb f n (absorb f n s m) m' := by
  induction k generalizing s m with
  | zero =>
    have hnil : m = [] := List.eq_nil_of_length_eq_zero (by simpa using hm)
    rw [hnil, absorb_nil f hn, List.nil_append]
  | succ k ih =>
    obtain ⟨b, rest, rfl, hb, hrest⟩ := exists_block hm
    rw [List.append_assoc, absorb_block f hn s hb, ih (f s b) hrest, absorb_block f hn s hb]

/--
An encoding of every element in `w` others turns one hash into another when it does so for the
update by one block.
-/
theorem absorb_flatMap {f : σ → List α → σ} {g : τ → List β → τ} {R : σ → τ} {e : α → List β}
    {n w : Nat} (hn : 0 < n) (hw : 0 < w) (he : ∀ x, (e x).length = w)
    (hf : ∀ s b, b.length = n → R (f s b) = g (R s) (b.flatMap e)) {k : Nat} (s : σ) {m : List α}
    (hm : m.length = n * k)
    : R (absorb f n s m) = absorb g (n * w) (R s) (m.flatMap e) := by
  have hlen (b : List α) (hb : b.length = n) : (b.flatMap e).length = n * w := by
    rw [List.length_flatMap, List.map_congr_left (fun x _ => he x), List.map_const',
      List.sum_replicate_nat, hb]
  have hpos : 0 < n * w := Nat.mul_pos hn hw
  induction k generalizing s m with
  | zero =>
    have hnil : m = [] := List.eq_nil_of_length_eq_zero (by simpa using hm)
    rw [hnil, absorb_nil f hn, List.flatMap_nil, absorb_nil g hpos]
  | succ k ih =>
    obtain ⟨b, rest, rfl, hb, hrest⟩ := exists_block hm
    rw [absorb_block f hn s hb, ih (f s b) hrest, hf s b hb, List.flatMap_append,
      absorb_block g hpos _ (hlen b hb)]

/--
A state and a buffer after the message `m`: the state is that of the blocks completed, the buffer
holds what follows them.
-/
structure Feed (f : σ → List α → σ) (n : Nat) (init : σ) (m : List α) (s : σ) (buf : List α)
    : Prop where
  lt : buf.length < n
  split : ∃ whole k, m = whole ++ buf ∧ whole.length = n * k ∧ s = absorb f n init whole

namespace Feed

variable {f : σ → List α → σ} {n : Nat} {init s : σ} {m p buf : List α}

theorem start (f : σ → List α → σ) (hn : 0 < n) (init : σ) : Feed f n init [] init [] :=
  ⟨hn, [], 0, rfl, rfl, (absorb_nil f hn init).symm⟩

theorem length_buf (h : Feed f n init m s buf) : buf.length = m.length % n := by
  obtain ⟨whole, k, hm, hk, _⟩ := h.split
  rw [hm, List.length_append, hk, Nat.mul_add_mod, Nat.mod_eq_of_lt h.lt]

-- Elements that do not complete the block only lengthen the buffer.
theorem append (h : Feed f n init m s buf) (hlt : buf.length + p.length < n)
    : Feed f n init (m ++ p) s (buf ++ p) := by
  obtain ⟨whole, k, hm, hk, hs⟩ := h.split
  have hsplit : m ++ p = whole ++ (buf ++ p) := by
    rw [hm, List.append_assoc]
  exact ⟨by rw [List.length_append]; exact hlt, whole, k, hsplit, hk, hs⟩

-- What completes a block is hashed with what the buffer held.
theorem absorb_eq (h : Feed f n init m s buf) (hlen : buf.length + p.length = n)
    : f s (buf ++ p) = absorb f n init (m ++ p) := by
  obtain ⟨whole, k, hm, hk, hs⟩ := h.split
  have hn : 0 < n := Nat.lt_of_le_of_lt (Nat.zero_le _) h.lt
  have hblock : (buf ++ p).length = n := by
    rw [List.length_append, hlen]
  have hone : absorb f n s (buf ++ p) = f s (buf ++ p) := by
    have h := absorb_block f hn s hblock []
    rwa [List.append_nil, absorb_nil f hn] at h
  rw [hm, List.append_assoc, absorb_append f hn init hk, ← hs, hone]

theorem complete (h : Feed f n init m s buf) (hlen : buf.length + p.length = n)
    : Feed f n init (m ++ p) (f s (buf ++ p)) [] := by
  obtain ⟨whole, k, hm, hk, _⟩ := h.split
  refine ⟨Nat.lt_of_le_of_lt (Nat.zero_le _) h.lt, m ++ p, k + 1, (List.append_nil _).symm, ?_,
    h.absorb_eq hlen⟩
  rw [hm, List.length_append, List.length_append, hk, Nat.mul_succ]
  omega

end Feed

end BlockHash
