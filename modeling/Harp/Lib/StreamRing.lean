import Mathlib.Data.List.Range
import Mathlib.Data.Nat.ModEq

/-!
This module contains a ring with one producer and one consumer. Both cursors only grow: `head` counts
what was ever written and `tail` what was ever read, and the cell of a cursor is its rest modulo the
capacity. `items` is the queue the ring stands for.
-/

namespace StreamRings

structure StreamRing (α : Type) (cap : Nat) where
  buf : Nat → α
  head : Nat
  tail : Nat
  tail_le : tail ≤ head
  fill_le : head ≤ tail + cap

namespace StreamRing

variable {α : Type} {cap : Nat}

def empty (buf : Nat → α) : StreamRing α cap where
  buf := buf
  head := 0
  tail := 0
  tail_le := Nat.le_refl 0
  fill_le := Nat.zero_le _

def readAvailable (r : StreamRing α cap) : Nat :=
  r.head - r.tail

def writeAvailable (r : StreamRing α cap) : Nat :=
  cap - (r.head - r.tail)

-- The cells from cursor `h` on, as they are filled one after another.
def fill (cap : Nat) (buf : Nat → α) (h : Nat) : List α → Nat → α
  | [] => buf
  | x :: xs => fill cap (fun i => if i = h % cap then x else buf i) (h + 1) xs

theorem le_head_add (r : StreamRing α cap) (n : Nat) : r.tail ≤ r.head + n :=
  Nat.le_trans r.tail_le (Nat.le_add_right r.head n)

theorem head_add_min_le (r : StreamRing α cap) (n : Nat)
    : r.head + min n r.writeAvailable ≤ r.tail + cap := by
  have hle := r.fill_le
  have htail := r.tail_le
  unfold writeAvailable
  omega

-- What does not fit is dropped.
def write (r : StreamRing α cap) (xs : List α) : StreamRing α cap where
  buf := fill cap r.buf r.head (xs.take r.writeAvailable)
  head := r.head + min xs.length r.writeAvailable
  tail := r.tail
  tail_le := r.le_head_add _
  fill_le := r.head_add_min_le _

def items (r : StreamRing α cap) : List α :=
  (List.range r.readAvailable).map (fun i => r.buf ((r.tail + i) % cap))

theorem tail_add_min_le (r : StreamRing α cap) (n : Nat)
    : r.tail + min n r.readAvailable ≤ r.head := by
  have hle := r.tail_le
  unfold readAvailable
  omega

theorem head_le_add (r : StreamRing α cap) (n : Nat) : r.head ≤ r.tail + n + cap := by
  have hle := r.fill_le
  omega

def read (r : StreamRing α cap) (n : Nat) : List α × StreamRing α cap :=
  ((List.range (min n r.readAvailable)).map (fun i => r.buf ((r.tail + i) % cap)),
    { buf := r.buf
      head := r.head
      tail := r.tail + min n r.readAvailable
      tail_le := r.tail_add_min_le n
      fill_le := r.head_le_add _ })

def clear (r : StreamRing α cap) : StreamRing α cap where
  buf := r.buf
  head := r.head
  tail := r.head
  tail_le := Nat.le_refl _
  fill_le := Nat.le_add_right _ _

theorem length_items (r : StreamRing α cap) : r.items.length = r.readAvailable := by
  simp [items]

theorem items_empty (buf : Nat → α) : (empty buf : StreamRing α cap).items = [] := by
  rfl

theorem items_clear (r : StreamRing α cap) : r.clear.items = [] := by
  simp [items, clear, readAvailable]

theorem read_fst (r : StreamRing α cap) (n : Nat) : (r.read n).1 = r.items.take n := by
  unfold read items
  rw [← List.map_take, List.take_range]

theorem items_read (r : StreamRing α cap) (n : Nat) : (r.read n).2.items = r.items.drop n := by
  have havail : (r.read n).2.readAvailable = r.readAvailable - n := by
    unfold read readAvailable
    dsimp only
    omega
  apply List.ext_getElem
  . simp [length_items, havail]
  . intro i hi hi'
    rw [length_items, havail] at hi
    have htail : (r.read n).2.tail = r.tail + n := by
      unfold read
      dsimp only
      omega
    simp only [items, List.getElem_map, List.getElem_range, List.getElem_drop, htail]
    rw [Nat.add_assoc]
    rfl

theorem length_read (r : StreamRing α cap) (n : Nat)
    : (r.read n).1.length = min n r.readAvailable := by
  simp [read]

@[simp]
theorem read_tail (r : StreamRing α cap) (n : Nat)
    : (r.read n).2.tail = r.tail + (r.read n).1.length := by
  rw [length_read]
  rfl

@[simp]
theorem read_head (r : StreamRing α cap) (n : Nat) : (r.read n).2.head = r.head := by
  rfl

@[simp]
theorem write_tail (r : StreamRing α cap) (xs : List α) : (r.write xs).tail = r.tail := by
  rfl

theorem write_head_of_le {r : StreamRing α cap} {xs : List α} (h : xs.length ≤ r.writeAvailable)
    : (r.write xs).head = r.head + xs.length := by
  have hmin := Nat.min_eq_left h
  unfold write
  dsimp only
  omega

theorem write_head (r : StreamRing α cap) (xs : List α)
    : (r.write xs).head = r.head + min xs.length r.writeAvailable := by
  rfl

theorem tail_le_head (r : StreamRing α cap) : r.tail ≤ r.head :=
  r.tail_le

-- A short read leaves nothing for the next one.
theorem read_read {r : StreamRing α cap} {m n : Nat} (h : m ≤ n)
    : ((r.read m).2.read (n - (r.read m).1.length)).2 = (r.read n).2 := by
  have htail : ((r.read m).2.read (n - (r.read m).1.length)).2.tail = (r.read n).2.tail := by
    simp only [read, readAvailable, List.length_map, List.length_range]
    omega
  have hbuf : ((r.read m).2.read (n - (r.read m).1.length)).2.buf = (r.read n).2.buf := rfl
  have hhead : ((r.read m).2.read (n - (r.read m).1.length)).2.head = (r.read n).2.head := rfl
  generalize ((r.read m).2.read (n - (r.read m).1.length)).2 = a at *
  generalize (r.read n).2 = b at *
  cases a
  cases b
  dsimp only at *
  subst htail hbuf hhead
  rfl

theorem read_of_none {r : StreamRing α cap} {n : Nat} (h : (r.read n).1.length = 0)
    : (r.read n).2 = r := by
  have htail : (r.read n).2.tail = r.tail := by
    rw [read_tail, h, Nat.add_zero]
  have hbuf : (r.read n).2.buf = r.buf := rfl
  have hhead : (r.read n).2.head = r.head := rfl
  generalize (r.read n).2 = a at *
  cases a
  cases r
  dsimp only at *
  subst htail hbuf hhead
  rfl

theorem head_eq (r : StreamRing α cap) : r.head = r.tail + r.items.length := by
  have hle := r.tail_le
  rw [length_items]
  unfold readAvailable
  omega

theorem fill_of_ne {buf : Nat → α} {h i : Nat} {xs : List α}
    (hne : ∀ j, j < xs.length → i ≠ (h + j) % cap) : fill cap buf h xs i = buf i := by
  induction xs generalizing buf h with
  | nil => rfl
  | cons x xs ih =>
    unfold fill
    rw [ih, if_neg]
    . exact hne 0 (by simp)
    . intro j hj
      rw [Nat.add_assoc, Nat.add_comm 1]
      exact hne (j + 1) (by simpa using hj)

theorem mod_ne_of_lt {a i j : Nat} (hij : i < j) (hj : j < cap) : (a + i) % cap ≠ (a + j) % cap := by
  intro heq
  have hmod : Nat.ModEq cap (a + i) (a + j) := heq
  have hcancel := Nat.ModEq.add_left_cancel' a hmod
  have hsame := Nat.ModEq.eq_of_lt_of_lt hcancel (by omega) hj
  omega

theorem fill_get {buf : Nat → α} {h j : Nat} {xs : List α} (hj : j < xs.length)
    (hcap : xs.length ≤ cap) : fill cap buf h xs ((h + j) % cap) = xs[j] := by
  induction xs generalizing buf h j with
  | nil => simp at hj
  | cons x xs ih =>
    rw [List.length_cons] at hj hcap
    unfold fill
    cases j with
    | zero =>
      rw [fill_of_ne]
      . simp
      . intro j hj
        rw [Nat.add_assoc, Nat.add_comm 1]
        exact mod_ne_of_lt (by omega) (by omega)
    | succ j =>
      have hih := @ih (fun i => if i = h % cap then x else buf i) (h + 1) j (by omega) (by omega)
      rw [Nat.add_assoc, Nat.add_comm 1] at hih
      rw [hih]
      rfl

theorem items_write (r : StreamRing α cap) (xs : List α)
    : (r.write xs).items = r.items ++ xs.take r.writeAvailable := by
  have htail := r.tail_le
  have hfill := r.fill_le
  have hroom : r.readAvailable + r.writeAvailable = cap := by
    unfold readAvailable writeAvailable
    omega
  have havail
      : (r.write xs).readAvailable = r.readAvailable + (xs.take r.writeAvailable).length := by
    rw [List.length_take, Nat.min_comm]
    unfold readAvailable write
    dsimp only
    omega
  have hlen : (xs.take r.writeAvailable).length ≤ r.writeAvailable := List.length_take_le _ _
  apply List.ext_getElem
  . rw [length_items, List.length_append, length_items, havail]
  . intro i hi hi'
    rw [length_items, havail] at hi
    rw [List.getElem_append]
    simp only [items, List.getElem_map, List.getElem_range, List.length_map, List.length_range]
    split
    next hlt =>
      have hkeep : (r.write xs).buf ((r.tail + i) % cap) = r.buf ((r.tail + i) % cap) := by
        apply fill_of_ne
        intro j hj
        have hhead : r.head + j = r.tail + (r.readAvailable + j) := by
          unfold readAvailable
          omega
        rw [hhead]
        exact mod_ne_of_lt (by omega) (by omega)
      exact hkeep
    next hge =>
      have hcell : r.tail + i = r.head + (i - r.readAvailable) := by
        unfold readAvailable at hge ⊢
        omega
      rw [write_tail, hcell]
      exact fill_get (by omega) (by omega)

-- A write that fits.
theorem items_write_of_le {r : StreamRing α cap} {xs : List α} (h : xs.length ≤ r.writeAvailable)
    : (r.write xs).items = r.items ++ xs := by
  rw [items_write, List.take_of_length_le h]

section Overwrite

-- What is kept of the elements at most fills the ring.
theorem length_drop_le (cap : Nat) (xs : List α) : (xs.drop (xs.length - cap)).length ≤ cap := by
  rw [List.length_drop]
  omega

-- What does not fit takes the place of the oldest.
def overwrite (r : StreamRing α cap) (xs : List α) : StreamRing α cap :=
  let kept := xs.drop (xs.length - cap)
  { buf := fill cap r.buf r.head kept
    head := r.head + kept.length
    tail := if r.readAvailable + kept.length > cap then r.head + kept.length - cap else r.tail
    tail_le := by
      have hle := r.tail_le
      split <;> omega
    fill_le := by
      have hle := r.tail_le
      unfold readAvailable
      split <;> omega }

theorem eq_of_fields {r r' : StreamRing α cap} (hbuf : r.buf = r'.buf) (hhead : r.head = r'.head)
    (htail : r.tail = r'.tail) : r = r' := by
  cases r
  cases r'
  dsimp only at hbuf hhead htail
  subst hbuf hhead htail
  rfl

-- An overwriting write reads what is in its way and then writes.
theorem overwrite_eq (r : StreamRing α cap) (xs : List α)
    : r.overwrite xs
        = (r.read (r.readAvailable + (xs.drop (xs.length - cap)).length - cap)).2.write
            (xs.drop (xs.length - cap)) := by
  have hkept := length_drop_le cap xs
  have htail := r.tail_le
  have hroom : (xs.drop (xs.length - cap)).length
      ≤ (r.read (r.readAvailable + (xs.drop (xs.length - cap)).length - cap)).2.writeAvailable := by
    unfold writeAvailable read readAvailable
    dsimp only
    omega
  apply eq_of_fields
  . unfold overwrite write
    dsimp only
    rw [List.take_of_length_le hroom]
    rfl
  . rw [write_head_of_le hroom]
    rfl
  . rw [write_tail]
    unfold overwrite read readAvailable
    dsimp only
    split <;> omega

-- The newest elements that fit.
theorem items_overwrite (r : StreamRing α cap) (xs : List α)
    : (r.overwrite xs).items = (r.items ++ xs).drop (r.items.length + xs.length - cap) := by
  have hkept := length_drop_le cap xs
  have hfill := r.fill_le
  have htail := r.tail_le
  have havail : r.readAvailable ≤ cap := by
    unfold readAvailable
    omega
  rw [overwrite_eq, items_write_of_le, items_read, length_items, List.drop_append, length_items]
  . rw [List.length_drop]
    by_cases hlong : xs.length ≤ cap
    . have hnone : xs.length - cap = 0 := by omega
      have hall : r.readAvailable + xs.length - cap - r.readAvailable = 0 := by omega
      rw [hnone, hall, List.drop_zero, Nat.sub_zero]
    . have hgone : ∀ n, r.readAvailable ≤ n → r.items.drop n = [] := by
        intro n hn
        rw [List.drop_eq_nil_iff, length_items]
        exact hn
      rw [hgone _ (by omega), hgone _ (by omega)]
      congr 2
      omega
  . unfold writeAvailable read readAvailable
    dsimp only
    omega

theorem overwrite_nil (r : StreamRing α cap) : r.overwrite [] = r := by
  have hfill := r.fill_le
  have htail := r.tail_le
  apply eq_of_fields
  . simp [overwrite, fill]
  . simp [overwrite]
  . unfold overwrite readAvailable
    simp only [List.drop_nil, List.length_nil, Nat.add_zero]
    rw [if_neg (by omega)]

theorem length_overwrite (r : StreamRing α cap) (xs : List α)
    : (r.overwrite xs).readAvailable = min (r.readAvailable + xs.length) cap := by
  rw [← length_items, items_overwrite, List.length_drop, List.length_append, length_items]
  omega

end Overwrite

end StreamRing

end StreamRings
