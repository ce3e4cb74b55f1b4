import Mathlib.Data.List.ReduceOption
import Mathlib.Data.List.Nodup

/-!
This module contains open-addressed sets with linear probing over an arbitrary key type. A table
that no insertion has filled answers membership exactly; a full one is probed forever, which the
operations report as `none`.
-/

namespace LinearProbe

variable {α : Type}

def slotAt (slots : List (Option α)) (i : Nat) : Option α :=
  slots.getD (i % slots.length) none

def OtherKey (slots : List (Option α)) (k : α) (i : Nat) : Prop :=
  ∃ k', k' ≠ k ∧ slotAt slots i = some k'

def Found (slots : List (Option α)) (k : α) (i : Nat) : Prop :=
  ∃ d, d < slots.length ∧ slotAt slots (i + d) = some k ∧ ∀ e, e < d → OtherKey slots k (i + e)

structure Table (start : α → Nat) where
  slots : List (Option α)
  pos : 0 < slots.length
  nodup : slots.reduceOption.Nodup
  found : ∀ k, some k ∈ slots → Found slots k (start k)

theorem mem_of_slotAt {slots : List (Option α)} {i : Nat} {k : α} (h : slotAt slots i = some k)
    : some k ∈ slots := by
  unfold slotAt at h
  rw [List.getD_eq_getElem?_getD] at h
  cases hget : slots[i % slots.length]? with
  | none => simp [hget] at h
  | some o =>
    simp only [hget, Option.getD_some] at h
    rw [← h]
    exact List.mem_of_getElem? hget

theorem slotAt_set_self {slots : List (Option α)} {i : Nat} (o : Option α) (h : 0 < slots.length)
    : slotAt (slots.set (i % slots.length) o) i = o := by
  unfold slotAt
  rw [List.length_set, List.getD_eq_getElem?_getD, List.getElem?_set_self (Nat.mod_lt i h)]
  rfl

theorem slotAt_set_ne {slots : List (Option α)} {i j : Nat} (o : Option α)
    (h : slotAt slots i ≠ slotAt slots j)
    : slotAt (slots.set (i % slots.length) o) j = slotAt slots j := by
  have hne : i % slots.length ≠ j % slots.length := by
    intro heq
    apply h
    unfold slotAt
    rw [heq]
  unfold slotAt
  rw [List.length_set, List.getD_eq_getElem?_getD, List.getD_eq_getElem?_getD,
    List.getElem?_set_ne hne]

theorem reduceOption_set_perm {slots : List (Option α)} {i : Nat} (k : α) (hi : i < slots.length)
    (h : slots.getD i none = none)
    : (slots.set i (some k)).reduceOption.Perm (k :: slots.reduceOption) := by
  induction slots generalizing i with
  | nil => simp at hi
  | cons o slots ih =>
    cases i with
    | zero =>
      simp only [List.getD_cons_zero] at h
      subst h
      simp
    | succ i =>
      have ih := ih (Nat.lt_of_succ_lt_succ hi) h
      cases o with
      | none => simpa using ih
      | some a =>
        simp only [List.set_cons_succ, List.reduceOption_cons_of_some]
        exact (ih.cons a).trans (List.Perm.swap k a _)

theorem exists_slotAt_none {slots : List (Option α)} (i : Nat)
    (h : slots.reduceOption.length < slots.length)
    : ∃ d, d < slots.length ∧ slotAt slots (i + d) = none := by
  have hnone : none ∈ slots := by
    by_contra hnone
    have hlen : slots.reduceOption.length = slots.length := by
      rw [List.reduceOption_length_eq_iff]
      intro o ho
      cases o with
      | none => contradiction
      | some a => rfl
    omega
  rcases List.getElem_of_mem hnone with ⟨j, hj, hget⟩
  exists (j + (slots.length - i % slots.length)) % slots.length
  constructor
  . apply Nat.mod_lt
    omega
  . have hmod : (i + (j + (slots.length - i % slots.length)) % slots.length) % slots.length = j := by
      have hi := Nat.mod_lt i (show 0 < slots.length by omega)
      rw [Nat.add_mod_mod]
      have hsplit := Nat.div_add_mod i slots.length
      have hsum : i + (j + (slots.length - i % slots.length))
          = j + slots.length * (i / slots.length + 1) := by
        rw [Nat.mul_add, Nat.mul_one]
        omega
      rw [hsum, Nat.add_mul_mod_self_left, Nat.mod_eq_of_lt hj]
    unfold slotAt
    rw [hmod, List.getD_eq_getElem?_getD, List.getElem?_eq_getElem hj, hget]
    rfl

section Operations

variable [DecidableEq α]

-- The offset at which the search from `i` ends; `none` once `fuel` slots in a row hold other keys.
def probe (slots : List (Option α)) (k : α) (i fuel d : Nat) : Option (Bool × Nat) :=
  match fuel with
  | 0 => none
  | fuel + 1 =>
    match slotAt slots (i + d) with
    | none => some (false, d)
    | some k' => if k' = k then some (true, d) else probe slots k i fuel (d + 1)

theorem probe_eq_some {slots : List (Option α)} {k : α} {i fuel d d' : Nat} {b : Bool}
    (h : probe slots k i fuel d = some (b, d'))
    : d ≤ d' ∧ d' < d + fuel ∧ slotAt slots (i + d') = (if b then some k else none)
        ∧ ∀ e, d ≤ e → e < d' → OtherKey slots k (i + e) := by
  induction fuel generalizing d with
  | zero => simp [probe] at h
  | succ fuel ih =>
    unfold probe at h
    split at h
    next hnone =>
      cases h
      refine ⟨Nat.le_refl _, by omega, by simp [hnone], ?_⟩
      intros
      omega
    next k' hsome =>
      split at h
      next heq =>
        cases h
        refine ⟨Nat.le_refl _, by omega, by simp [hsome, heq], ?_⟩
        intros
        omega
      next hne =>
        rcases ih h with ⟨hle, hlt, hslot, hother⟩
        refine ⟨by omega, by omega, hslot, ?_⟩
        intro e hde hed
        by_cases heq : e = d
        . subst heq
          exact ⟨k', hne, hsome⟩
        . apply hother <;> omega

theorem probe_ne_none {slots : List (Option α)} {k : α} {i fuel d d' : Nat}
    (hd : d ≤ d') (hfuel : d' < d + fuel) (hslot : slotAt slots (i + d') = none)
    : probe slots k i fuel d ≠ none := by
  induction fuel generalizing d with
  | zero => omega
  | succ fuel ih =>
    unfold probe
    split
    . simp
    next k' hsome =>
      split
      . simp
      . have hne : d ≠ d' := by
          intro heq
          subst heq
          rw [hslot] at hsome
          contradiction
        apply ih <;> omega

end Operations

namespace Table

variable {start : α → Nat}

def keys (t : Table start) : List α :=
  t.slots.reduceOption

theorem mem_keys (t : Table start) (k : α) : k ∈ t.keys ↔ some k ∈ t.slots :=
  List.reduceOption_mem_iff

def empty (start : α → Nat) (cap : Nat) (h : 0 < cap) : Table start where
  slots := List.replicate cap none
  pos := by simpa using h
  nodup := by simp [List.reduceOption_replicate_none]
  found := by
    intro k hk
    have := List.eq_of_mem_replicate hk
    contradiction

@[simp]
theorem keys_empty (start : α → Nat) (cap : Nat) (h : 0 < cap) : (empty start cap h).keys = [] :=
  List.reduceOption_replicate_none

theorem found_set {slots : List (Option α)} {k k' : α} {i : Nat}
    (hnone : slotAt slots i = none) (h : Found slots k' (start k'))
    : Found (slots.set (i % slots.length) (some k)) k' (start k') := by
  rcases h with ⟨d, hd, hslot, hother⟩
  have hset : ∀ {j : Nat} {a : α}, slotAt slots j = some a →
      slotAt (slots.set (i % slots.length) (some k)) j = some a := by
    intro j a hj
    rw [slotAt_set_ne, hj]
    rw [hnone, hj]
    simp
  refine ⟨d, by rw [List.length_set]; exact hd, hset hslot, ?_⟩
  intro e he
  rcases hother e he with ⟨a, hne, ha⟩
  exact ⟨a, hne, hset ha⟩

-- The new key goes to the first free slot of its own probe sequence.
def insertAt (t : Table start) (k : α) (d : Nat) (hd : d < t.slots.length)
    (hnone : slotAt t.slots (start k + d) = none)
    (hother : ∀ e, e < d → OtherKey t.slots k (start k + e)) : Table start where
  slots := t.slots.set ((start k + d) % t.slots.length) (some k)
  pos := by
    rw [List.length_set]
    exact t.pos
  nodup := by
    have hperm := reduceOption_set_perm k (Nat.mod_lt (start k + d) t.pos) hnone
    rw [hperm.nodup_iff, List.nodup_cons]
    refine ⟨?_, t.nodup⟩
    intro hmem
    rcases t.found k (List.reduceOption_mem_iff.mp hmem) with ⟨d', _, hslot, hother'⟩
    rcases Nat.lt_trichotomy d d' with hlt | heq | hlt
    . rcases hother' d hlt with ⟨_, _, h⟩
      rw [hnone] at h
      contradiction
    . subst heq
      rw [hnone] at hslot
      contradiction
    . rcases hother d' hlt with ⟨_, hne, h⟩
      rw [hslot] at h
      exact hne (Option.some.inj h).symm
  found := by
    intro k' hk'
    rcases List.mem_or_eq_of_mem_set hk' with hmem | heq
    . exact found_set hnone (t.found k' hmem)
    . cases heq
      refine ⟨d, by rw [List.length_set]; exact hd, slotAt_set_self _ t.pos, ?_⟩
      intro e he
      rcases hother e he with ⟨a, hne, ha⟩
      refine ⟨a, hne, ?_⟩
      rw [slotAt_set_ne, ha]
      rw [hnone, ha]
      simp

def capacity (t : Table start) : Nat :=
  t.slots.length

theorem found_probe_iff [DecidableEq α] {t : Table start} {k : α} {b : Bool} {d : Nat}
    (h : probe t.slots k (start k) t.slots.length 0 = some (b, d))
    : b = true ↔ k ∈ t.keys := by
  rcases probe_eq_some h with ⟨_, _, hslot, hother⟩
  rw [mem_keys]
  constructor
  . intro hb
    rw [hb] at hslot
    exact mem_of_slotAt hslot
  . intro hmem
    rcases t.found k hmem with ⟨d', _, hslot', hother'⟩
    cases b with
    | true => rfl
    | false =>
      rcases Nat.lt_trichotomy d d' with hlt | heq | hlt
      . rcases hother' d hlt with ⟨_, _, h⟩
        rw [hslot] at h
        contradiction
      . subst heq
        rw [hslot] at hslot'
        contradiction
      . rcases hother d' (Nat.zero_le d') hlt with ⟨_, hne, h⟩
        rw [hslot'] at h
        exact absurd (Option.some.inj h).symm hne

variable [DecidableEq α]

def has (t : Table start) (k : α) : Option Bool :=
  (probe t.slots k (start k) t.slots.length 0).map Prod.fst

-- The flag is true if the key is newly added.
def add (t : Table start) (k : α) : Option (Bool × Table start) :=
  match h : probe t.slots k (start k) t.slots.length 0 with
  | none => none
  | some (true, _) => some (false, t)
  | some (false, d) =>
    have hspec := probe_eq_some h
    some (true, t.insertAt k d (by omega) hspec.2.2.1 (fun e => hspec.2.2.2 e (Nat.zero_le e)))

theorem probe_isSome (t : Table start) (k : α) (h : t.keys.length < t.capacity)
    : ∃ b d, probe t.slots k (start k) t.slots.length 0 = some (b, d) := by
  rcases exists_slotAt_none (start k) h with ⟨d, hd, hslot⟩
  have hne := probe_ne_none (k := k) (Nat.zero_le d) (show d < 0 + t.slots.length by omega) hslot
  cases hprobe : probe t.slots k (start k) t.slots.length 0 with
  | none => contradiction
  | some r => exact ⟨r.1, r.2, rfl⟩

theorem has_eq (t : Table start) (k : α) (h : t.keys.length < t.capacity)
    : t.has k = some (decide (k ∈ t.keys)) := by
  rcases probe_isSome t k h with ⟨b, d, hprobe⟩
  have hiff := found_probe_iff hprobe
  unfold has
  rw [hprobe]
  cases b <;> simp_all

theorem add_of_mem (t : Table start) (k : α) (h : t.keys.length < t.capacity) (hk : k ∈ t.keys)
    : t.add k = some (false, t) := by
  rcases probe_isSome t k h with ⟨b, d, hprobe⟩
  have hb := (found_probe_iff hprobe).mpr hk
  subst hb
  unfold add
  split
  next hnone => simp [hprobe] at hnone
  next => rfl
  next hfalse => simp [hprobe] at hfalse

theorem add_of_not_mem (t : Table start) (k : α) (h : t.keys.length < t.capacity) (hk : k ∉ t.keys)
    : ∃ t', t.add k = some (true, t') ∧ t'.keys.Perm (k :: t.keys) ∧ t'.capacity = t.capacity := by
  rcases probe_isSome t k h with ⟨b, d, hprobe⟩
  have hb : b = false := by
    rw [← Bool.not_eq_true, found_probe_iff hprobe]
    exact hk
  subst hb
  unfold add
  split
  next hnone => simp [hprobe] at hnone
  next htrue => simp [hprobe] at htrue
  next d' hfalse =>
    refine ⟨_, rfl, ?_, ?_⟩
    . exact reduceOption_set_perm k (Nat.mod_lt _ t.pos) (probe_eq_some hfalse).2.2.1
    . simp [capacity, insertAt]

end Table

end LinearProbe
