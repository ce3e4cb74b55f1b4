import Harp.Device.Voices
import Harp.Lib.ExchangeSort

/-!
This module contains the patterns of the arpeggiator: what `harp_arp_select` goes through step by
step, for every latch of held keys and every span of octaves.
-/

namespace Harp

open Ieee ExchangeSort

section Pairs

-- The place in the sweep over the notes and octaves that a step has.
def arpPlace (mode : Int) (step span : Nat) : Nat :=
  if mode = 2 then
    span - 1 - step % span
  else if mode = 3 then
    let cycle := if span > 1 then 2 * span - 2 else 1
    let t := step % cycle
    if t ≥ span then cycle - t else t
  else
    step % span

def arpIndices (mode : Int) (latch : List Nat) : List Nat :=
  if mode ≠ 4 then arpOrder latch else List.range latch.length

/--
The pair a step selects: the place of a key in the latch and the octave it is played in.
-/
def arpPair (mode : Int) (step : Nat) (latch : List Nat) (octaves : Nat) : Nat × Nat :=
  let t := arpPlace mode step (latch.length * (octaves + 1))
  ((arpIndices mode latch).getD (t % latch.length) 0, t / latch.length)

-- A note that goes above 127 falls back to the pitch of its key.
def arpPitch (latch : List Nat) (x : Nat × Nat) : Nat :=
  let note := latch.getD x.1 0 + 12 * x.2
  if note > 127 then latch.getD x.1 0 else note

theorem harpArpSelect_eq (mode : Int) (step : Nat) (latch : List Nat) (octaves : Nat)
    : harpArpSelect mode step latch octaves
        = ⟨arpPitch latch (arpPair mode step latch octaves),
            (arpPair mode step latch octaves).1⟩ := by
  unfold harpArpSelect arpPitch arpPair arpPlace arpIndices
  rfl

end Pairs

section Latches

inductive LatchOp where
  | add (note : Nat) (vel : F32)
  | remove (note : Nat)

def LatchOp.note : LatchOp → Nat
  | .add note _ => note
  | .remove note => note

def Latch.next (l : Latch) : LatchOp → Latch
  | .add note vel => l.add note vel
  | .remove note => l.remove note

def Latch.built (ops : List LatchOp) : Latch :=
  ops.foldl Latch.next Latch.empty

def Latch.notes (l : Latch) : List Nat :=
  l.keys.map Prod.fst

theorem Latch.mem_notes_next {l : Latch} {op : LatchOp} {note : Nat}
    (h : note ∈ (l.next op).notes) : note ∈ l.notes ∨ note = op.note := by
  unfold Latch.notes at h ⊢
  cases op with
  | add n vel =>
    unfold Latch.next Latch.add at h
    dsimp only at h
    split at h
    . rw [List.map_map, List.mem_map] at h
      rcases h with ⟨x, hx, rfl⟩
      dsimp only [Function.comp]
      split
      . exact .inr rfl
      . exact .inl (List.mem_map_of_mem hx)
    . split at h
      . rw [List.map_append, List.mem_append] at h
        rcases h with h | h
        . exact .inl h
        . exact .inr (List.mem_singleton.mp h)
      . exact .inl h
  | remove n =>
    exact .inl ((List.eraseP_sublist.map Prod.fst).subset h)

theorem Latch.notes_built (ops : List LatchOp) (hops : ∀ op ∈ ops, op.note < 128)
    : ∀ note ∈ (Latch.built ops).notes, note < 128 := by
  suffices hstep : ∀ l : Latch, (∀ note ∈ l.notes, note < 128)
      → ∀ note ∈ (ops.foldl Latch.next l).notes, note < 128 by
    apply hstep
    intro note hnote
    exact absurd hnote List.not_mem_nil
  induction ops with
  | nil => exact fun l hl => hl
  | cons op ops ih =>
    intro l hl
    apply ih (fun op' hop' => hops op' (List.mem_cons_of_mem op hop'))
    intro note hnote
    rcases Latch.mem_notes_next hnote with hold | hnew
    . exact hl note hold
    . rw [hnew]
      exact hops op List.mem_cons_self

end Latches

section Law

def arpAbove (latch : List Nat) (x y : Nat × Nat) : Prop :=
  x.2 < y.2 ∨ x.2 = y.2 ∧ latch.getD x.1 0 < latch.getD y.1 0

def arpLater (x y : Nat × Nat) : Prop :=
  x.2 < y.2 ∨ x.2 = y.2 ∧ x.1 < y.1

-- The lowest note of the lowest octave and the highest one of the highest.
def ArpEnd (latch : List Nat) (octaves : Nat) (x : Nat × Nat) : Prop :=
  (∀ y < latch.length, latch.getD x.1 0 ≤ latch.getD y 0) ∧ x.2 = 0
    ∨ (∀ y < latch.length, latch.getD y 0 ≤ latch.getD x.1 0) ∧ x.2 = octaves

instance decidableArpEnd (latch : List Nat) (octaves : Nat) (x : Nat × Nat)
    : Decidable (ArpEnd latch octaves x) :=
  inferInstanceAs (Decidable (_ ∨ _))

-- The pairs of `m` consecutive steps.
def arpRun (mode : Int) (start m : Nat) (latch : List Nat) (octaves : Nat) : List (Nat × Nat) :=
  (List.range m).map (fun i => arpPair mode (start + i) latch octaves)

def ArpPaired (latch : List Nat) (octaves : Nat) (x : Nat × Nat) : Prop :=
  x.1 < latch.length ∧ x.2 ≤ octaves

/--
A sweep selects each pair once. Ordered says in which order of the pairs.
-/
structure ArpSweep (mode : Int) (latch : List Nat) (octaves : Nat)
    (ordered : Nat × Nat → Nat × Nat → Prop) : Prop where
  once : ∀ r x, ArpPaired latch octaves x →
    (arpRun mode (latch.length * (octaves + 1) * r) (latch.length * (octaves + 1)) latch
      octaves).count x = 1
  ordered : ∀ r, (arpRun mode (latch.length * (octaves + 1) * r) (latch.length * (octaves + 1))
    latch octaves).Pairwise ordered

/-- What the arpeggiator plays of a latch. -/
structure ArpLaw (latch : List Nat) (octaves : Nat) : Prop where
  played : ∀ mode step, harpArpSelect mode step latch octaves
    = ⟨arpPitch latch (arpPair mode step latch octaves), (arpPair mode step latch octaves).1⟩
  paired : ∀ mode step, ArpPaired latch octaves (arpPair mode step latch octaves)
  midi : ∀ mode step, (harpArpSelect mode step latch octaves).note ≤ 127
  up : ArpSweep 1 latch octaves (arpAbove latch)
  down : ArpSweep 2 latch octaves (fun x y => arpAbove latch y x)
  asPlayed : ArpSweep 4 latch octaves arpLater
  upDown : 2 ≤ latch.length * (octaves + 1) → ∀ start x, ArpPaired latch octaves x →
    (arpRun 3 start (2 * (latch.length * (octaves + 1)) - 2) latch octaves).count x
      = if ArpEnd latch octaves x then 1 else 2
  unrepeated : 2 ≤ latch.length * (octaves + 1) → ∀ step,
    arpPair 3 step latch octaves ≠ arpPair 3 (step + 1) latch octaves

end Law

section Order

variable {latch : List Nat} {mode : Int}

theorem arpOrder_eq (latch : List Nat)
    : arpOrder latch
        = sort (fun i => latch.getD i 0) 0 (List.range latch.length).length
          (List.range latch.length) := by
  rw [List.length_range]
  rfl

theorem arpIndices_perm (mode : Int) (latch : List Nat)
    : (arpIndices mode latch).Perm (List.range latch.length) := by
  unfold arpIndices
  split
  . rw [arpOrder_eq]
    apply sort_perm
  . apply List.Perm.refl

theorem length_arpIndices (mode : Int) (latch : List Nat)
    : (arpIndices mode latch).length = latch.length := by
  rw [(arpIndices_perm mode latch).length_eq, List.length_range]

theorem nodup_arpIndices (mode : Int) (latch : List Nat) : (arpIndices mode latch).Nodup :=
  (arpIndices_perm mode latch).nodup_iff.mpr List.nodup_range

theorem getD_arpIndices_lt (mode : Int) {k : Nat} (hk : k < latch.length)
    : (arpIndices mode latch).getD k 0 < latch.length := by
  rw [← length_arpIndices mode latch] at hk
  rw [List.getD_eq_getElem _ _ hk]
  have hmem := (arpIndices_perm mode latch).mem_iff.mp (List.getElem_mem hk)
  exact List.mem_range.mp hmem

theorem getD_arpIndices_idxOf (mode : Int) {sel : Nat} (hsel : sel < latch.length)
    : (arpIndices mode latch).idxOf sel < latch.length
        ∧ (arpIndices mode latch).getD ((arpIndices mode latch).idxOf sel) 0 = sel := by
  have hmem : sel ∈ arpIndices mode latch :=
    (arpIndices_perm mode latch).mem_iff.mpr (List.mem_range.mpr hsel)
  have hlt := List.idxOf_lt_length_of_mem hmem
  constructor
  . rw [← length_arpIndices mode latch]
    exact hlt
  . rw [List.getD_eq_getElem _ _ hlt]
    exact List.getElem_idxOf hlt

theorem idxOf_arpIndices_getD (mode : Int) {k : Nat} (hk : k < latch.length)
    : (arpIndices mode latch).idxOf ((arpIndices mode latch).getD k 0) = k := by
  rw [← length_arpIndices mode latch] at hk
  rw [List.getD_eq_getElem _ _ hk]
  exact (nodup_arpIndices mode latch).idxOf_getElem k hk

-- No two keys of a latch have the same pitch, so that the order by pitch is strict.
theorem arpIndices_lt (hnodup : latch.Nodup) (hmode : mode ≠ 4) {a b : Nat} (hab : a < b)
    (hb : b < latch.length)
    : latch.getD ((arpIndices mode latch).getD a 0) 0
        < latch.getD ((arpIndices mode latch).getD b 0) 0 := by
  have hle : latch.getD ((arpIndices mode latch).getD a 0) 0
      ≤ latch.getD ((arpIndices mode latch).getD b 0) 0 := by
    unfold arpIndices
    rw [if_pos hmode, arpOrder_eq]
    apply sort_le (fun i => latch.getD i 0) 0 (List.range latch.length) hab
    rw [List.length_range]
    exact hb
  have ha : a < latch.length := by omega
  have hlta := getD_arpIndices_lt mode ha
  have hltb := getD_arpIndices_lt mode hb
  apply Nat.lt_of_le_of_ne hle
  intro heq
  rw [List.getD_eq_getElem _ _ hlta, List.getD_eq_getElem _ _ hltb] at heq
  have hsame := (hnodup.getElem_inj_iff).mp heq
  have hka := idxOf_arpIndices_getD mode ha
  have hkb := idxOf_arpIndices_getD mode hb
  rw [hsame] at hka
  omega

end Order

section Places

variable {latch : List Nat} {mode : Int} {octaves : Nat}

-- The pair at a place of the sweep.
def arpAt (mode : Int) (latch : List Nat) (t : Nat) : Nat × Nat :=
  ((arpIndices mode latch).getD (t % latch.length) 0, t / latch.length)

def arpPlaceOf (mode : Int) (latch : List Nat) (x : Nat × Nat) : Nat :=
  latch.length * x.2 + (arpIndices mode latch).idxOf x.1

theorem arpPair_eq (mode : Int) (step : Nat) (latch : List Nat) (octaves : Nat)
    : arpPair mode step latch octaves
        = arpAt mode latch (arpPlace mode step (latch.length * (octaves + 1))) :=
  rfl

theorem arpPaired_arpAt (mode : Int) (hne : 0 < latch.length) {t : Nat}
    (ht : t < latch.length * (octaves + 1)) : ArpPaired latch octaves (arpAt mode latch t) := by
  constructor
  . exact getD_arpIndices_lt mode (Nat.mod_lt t hne)
  . have := Nat.div_lt_of_lt_mul ht
    dsimp only [arpAt]
    omega

theorem arpPlaceOf_lt (mode : Int) {x : Nat × Nat} (hx : ArpPaired latch octaves x)
    : arpPlaceOf mode latch x < latch.length * (octaves + 1) := by
  have hlt := (getD_arpIndices_idxOf mode hx.1).1
  have hle := Nat.mul_le_mul_left latch.length hx.2
  unfold arpPlaceOf
  rw [Nat.mul_succ]
  omega

theorem arpAt_eq_iff (hne : 0 < latch.length) {x : Nat × Nat} (hx : ArpPaired latch octaves x)
    (t : Nat) : arpAt mode latch t = x ↔ t = arpPlaceOf mode latch x := by
  have hplace := getD_arpIndices_idxOf mode hx.1
  constructor
  . rintro rfl
    unfold arpPlaceOf arpAt
    rw [idxOf_arpIndices_getD mode (Nat.mod_lt t hne), Nat.div_add_mod]
  . rintro rfl
    have hmod : arpPlaceOf mode latch x % latch.length
        = (arpIndices mode latch).idxOf x.1 := by
      unfold arpPlaceOf
      rw [Nat.mul_add_mod, Nat.mod_eq_of_lt hplace.1]
    have hdiv : arpPlaceOf mode latch x / latch.length = x.2 := by
      unfold arpPlaceOf
      rw [Nat.mul_add_div hne, Nat.div_eq_of_lt hplace.1, Nat.add_zero]
    unfold arpAt
    rw [hmod, hdiv, hplace.2]

-- Places in ascending order are pairs in ascending order.
theorem arpAt_ascends (hne : 0 < latch.length) {r : Nat × Nat → Nat × Nat → Prop}
    (hsame : ∀ a b o, a < b → b < latch.length →
      r ((arpIndices mode latch).getD a 0, o) ((arpIndices mode latch).getD b 0, o))
    (hnext : ∀ x y : Nat × Nat, x.2 < y.2 → r x y) {s t : Nat} (hst : s < t)
    : r (arpAt mode latch s) (arpAt mode latch t) := by
  have hle : s / latch.length ≤ t / latch.length := Nat.div_le_div_right (Nat.le_of_lt hst)
  rcases Nat.lt_or_eq_of_le hle with hlt | heq
  . exact hnext _ _ hlt
  . have hs := Nat.div_add_mod s latch.length
    have ht := Nat.div_add_mod t latch.length
    rw [heq] at hs
    unfold arpAt
    rw [heq]
    apply hsame
    . omega
    . exact Nat.mod_lt t hne

theorem arpPlace_lt {span : Nat} (hspan : 0 < span) (mode : Int) (step : Nat)
    : arpPlace mode step span < span := by
  have hmod := Nat.mod_lt step hspan
  unfold arpPlace
  dsimp only
  split
  . omega
  . split
    . split
      . have := Nat.mod_lt step (show 0 < 2 * span - 2 by omega)
        split <;> omega
      . have := Nat.mod_lt step Nat.one_pos
        split <;> omega
    . exact hmod

theorem count_arpRun (hne : 0 < latch.length) {x : Nat × Nat} (hx : ArpPaired latch octaves x)
    (mode : Int) (start m : Nat)
    : (arpRun mode start m latch octaves).count x
        = ((List.range m).map
            (fun i => arpPlace mode (start + i) (latch.length * (octaves + 1)))).count
          (arpPlaceOf mode latch x) := by
  unfold arpRun
  rw [List.count_eq_countP, List.count_eq_countP, List.countP_map, List.countP_map]
  apply List.countP_congr
  intro i _
  simp only [Function.comp, beq_iff_eq, arpPair_eq]
  exact arpAt_eq_iff hne hx _

end Places

section Sweeps

variable {latch : List Nat} {octaves : Nat}

theorem arpPlace_sweep {mode : Int} (hmode : mode ≠ 2 ∧ mode ≠ 3) {span i : Nat} (hi : i < span)
    (r : Nat) : arpPlace mode (span * r + i) span = i := by
  unfold arpPlace
  rw [if_neg hmode.1, if_neg hmode.2, Nat.mul_add_mod, Nat.mod_eq_of_lt hi]

theorem arpPlace_down {span i : Nat} (hi : i < span) (r : Nat)
    : arpPlace 2 (span * r + i) span = span - 1 - i := by
  unfold arpPlace
  rw [if_pos rfl, Nat.mul_add_mod, Nat.mod_eq_of_lt hi]

-- A sweep that goes through the places one way or the other.
theorem arpSweep_of_places (hne : 0 < latch.length) {mode : Int} {p : Nat → Nat}
    {ordered : Nat × Nat → Nat × Nat → Prop}
    (hplace : ∀ r i, i < latch.length * (octaves + 1) →
      arpPlace mode (latch.length * (octaves + 1) * r + i) (latch.length * (octaves + 1)) = p i)
    (hinv : ∀ t, t < latch.length * (octaves + 1) →
      p t < latch.length * (octaves + 1) ∧ p (p t) = t)
    (hord : ∀ i j, i < j → j < latch.length * (octaves + 1) →
      ordered (arpAt mode latch (p i)) (arpAt mode latch (p j)))
    : ArpSweep mode latch octaves ordered := by
  constructor
  . intro r x hx
    have hlt := arpPlaceOf_lt mode hx
    have hplaces : (List.range (latch.length * (octaves + 1))).map
        (fun i => arpPlace mode (latch.length * (octaves + 1) * r + i)
          (latch.length * (octaves + 1)))
        = (List.range (latch.length * (octaves + 1))).map p := by
      apply List.map_congr_left
      intro i hi
      exact hplace r i (List.mem_range.mp hi)
    rw [count_arpRun hne hx, hplaces]
    apply List.count_eq_one_of_mem
    . apply List.Nodup.map_on _ List.nodup_range
      intro i hi j hj heq
      rw [← (hinv i (List.mem_range.mp hi)).2, heq, (hinv j (List.mem_range.mp hj)).2]
    . rw [List.mem_map]
      exact ⟨p (arpPlaceOf mode latch x), List.mem_range.mpr (hinv _ hlt).1, (hinv _ hlt).2⟩
  . intro r
    unfold arpRun
    rw [List.pairwise_map]
    apply List.pairwise_lt_range.imp_of_mem
    intro i j hi hj hij
    rw [arpPair_eq, arpPair_eq, hplace r i (List.mem_range.mp hi),
      hplace r j (List.mem_range.mp hj)]
    exact hord i j hij (List.mem_range.mp hj)

theorem arpSweep_up (hne : 0 < latch.length) (hnodup : latch.Nodup)
    : ArpSweep 1 latch octaves (arpAbove latch) := by
  apply arpSweep_of_places hne (p := id)
  . exact fun r i hi => arpPlace_sweep (by decide) hi r
  . exact fun t ht => ⟨ht, rfl⟩
  . intro i j hij _
    apply arpAt_ascends hne _ _ hij
    . exact fun a b o hab hb => .inr ⟨rfl, arpIndices_lt hnodup (by decide) hab hb⟩
    . exact fun x y hlt => .inl hlt

theorem arpSweep_down (hne : 0 < latch.length) (hnodup : latch.Nodup)
    : ArpSweep 2 latch octaves (fun x y => arpAbove latch y x) := by
  apply arpSweep_of_places hne (p := fun i => latch.length * (octaves + 1) - 1 - i)
  . exact fun r i hi => arpPlace_down hi r
  . intro t ht
    omega
  . intro i j hij hj
    apply arpAt_ascends hne (r := arpAbove latch)
    . exact fun a b o hab hb => .inr ⟨rfl, arpIndices_lt hnodup (by decide) hab hb⟩
    . exact fun x y hlt => .inl hlt
    . omega

theorem arpSweep_asPlayed (hne : 0 < latch.length) : ArpSweep 4 latch octaves arpLater := by
  apply arpSweep_of_places hne (p := id)
  . exact fun r i hi => arpPlace_sweep (by decide) hi r
  . exact fun t ht => ⟨ht, rfl⟩
  . intro i j hij _
    apply arpAt_ascends hne _ _ hij
    . intro a b o hab hb
      have ha : a < latch.length := by omega
      right
      unfold arpIndices
      simp only [ne_eq, not_true_eq_false, if_false, true_and]
      rw [List.getD_eq_getElem _ _ (by rw [List.length_range]; exact ha),
        List.getD_eq_getElem _ _ (by rw [List.length_range]; exact hb), List.getElem_range,
        List.getElem_range]
      exact hab
    . exact fun x y hlt => .inl hlt

end Sweeps

section UpDown

variable {latch : List Nat} {octaves : Nat}

-- Where the cycle of the up-down mode is at its step `t`.
def upDownPlace (span t : Nat) : Nat :=
  if t ≥ span then 2 * span - 2 - t else t

theorem arpPlace_upDown {span : Nat} (hspan : 2 ≤ span) (step : Nat)
    : arpPlace 3 step span = upDownPlace span (step % (2 * span - 2)) := by
  have hcycle : (if span > 1 then 2 * span - 2 else 1) = 2 * span - 2 := if_pos (by omega)
  unfold arpPlace upDownPlace
  rw [if_neg (by decide), if_pos rfl, hcycle]

-- Any cycle of steps has each rest once.
theorem map_mod_perm (start : Nat) {c : Nat} (hc : 0 < c)
    : ((List.range c).map (fun i => (start + i) % c)).Perm (List.range c) := by
  apply List.Subperm.perm_of_length_le
  . apply List.subperm_of_subset
    . apply List.Nodup.map_on _ List.nodup_range
      intro i hi j hj heq
      have hcancel : i ≡ j [MOD c] := Nat.ModEq.add_left_cancel' start heq
      exact hcancel.eq_of_lt_of_lt (List.mem_range.mp hi) (List.mem_range.mp hj)
    . intro t ht
      rcases List.mem_map.mp ht with ⟨i, _, rfl⟩
      exact List.mem_range.mpr (Nat.mod_lt _ hc)
  . rw [List.length_map]

theorem count_upDownPlace {span t : Nat} (hspan : 2 ≤ span) (ht : t < span)
    : ((List.range (2 * span - 2)).map (upDownPlace span)).count t
        = if t = 0 ∨ t = span - 1 then 1 else 2 := by
  have hsplit : List.range (2 * span - 2) = List.range span ++ List.range' span (span - 2) := by
    have hsum : 2 * span - 2 = span + (span - 2) := by omega
    rw [List.range_eq_range', List.range_eq_range', hsum, ← List.range'_append_1, Nat.zero_add]
  have hup : ((List.range span).map (upDownPlace span)).count t = 1 := by
    have hid : (List.range span).map (upDownPlace span) = List.range span := by
      rw [List.map_congr_left (g := id), List.map_id]
      intro i hi
      have := List.mem_range.mp hi
      unfold upDownPlace
      rw [if_neg (by omega)]
      rfl
    rw [hid]
    exact List.count_eq_one_of_mem List.nodup_range (List.mem_range.mpr ht)
  have hback : ((List.range' span (span - 2)).map (upDownPlace span)).Nodup := by
    apply List.Nodup.map_on _ List.nodup_range'
    intro i hi j hj heq
    rw [List.mem_range'_1] at hi hj
    unfold upDownPlace at heq
    rw [if_pos hi.1, if_pos hj.1] at heq
    omega
  have hmem : t ∈ (List.range' span (span - 2)).map (upDownPlace span)
      ↔ ¬(t = 0 ∨ t = span - 1) := by
    rw [List.mem_map]
    constructor
    . rintro ⟨i, hi, rfl⟩
      rw [List.mem_range'_1] at hi
      unfold upDownPlace
      rw [if_pos hi.1]
      omega
    . intro hinner
      refine ⟨2 * span - 2 - t, ?_, ?_⟩
      . rw [List.mem_range'_1]
        omega
      . unfold upDownPlace
        rw [if_pos (by omega)]
        omega
  rw [hsplit, List.map_append, List.count_append, hup]
  split
  next hend =>
    rw [List.count_eq_zero_of_not_mem (fun h => hmem.mp h hend)]
  next hinner =>
    rw [List.count_eq_one_of_mem hback (hmem.mpr hinner)]

-- The ends of the cycle are the first place and the last one.
theorem arpEnd_iff (hne : 0 < latch.length) (hnodup : latch.Nodup) {x : Nat × Nat}
    (hx : ArpPaired latch octaves x)
    : ArpEnd latch octaves x
        ↔ arpPlaceOf 3 latch x = 0 ∨ arpPlaceOf 3 latch x = latch.length * (octaves + 1) - 1 := by
  have hplace := getD_arpIndices_idxOf 3 hx.1
  have hlow : (∀ y < latch.length, latch.getD x.1 0 ≤ latch.getD y 0)
      ↔ (arpIndices 3 latch).idxOf x.1 = 0 := by
    constructor
    . intro hall
      by_contra hpos
      have hlt := arpIndices_lt hnodup (by decide : (3 : Int) ≠ 4) (Nat.pos_of_ne_zero hpos)
        hplace.1
      have hle := hall _ (getD_arpIndices_lt 3 hne)
      rw [hplace.2] at hlt
      omega
    . intro hzero y hy
      have hy' := getD_arpIndices_idxOf 3 hy
      rcases Nat.eq_zero_or_pos ((arpIndices 3 latch).idxOf y) with h0 | hpos
      . rw [← hplace.2, ← hy'.2, h0, hzero]
      . have hlt := arpIndices_lt hnodup (by decide : (3 : Int) ≠ 4) hpos hy'.1
        have hfirst := hplace.2
        rw [hzero] at hfirst
        rw [hy'.2, hfirst] at hlt
        exact Nat.le_of_lt hlt
  have hhigh : (∀ y < latch.length, latch.getD y 0 ≤ latch.getD x.1 0)
      ↔ (arpIndices 3 latch).idxOf x.1 = latch.length - 1 := by
    have hlast : latch.length - 1 < latch.length := by omega
    constructor
    . intro hall
      by_contra hinner
      have hlt := arpIndices_lt hnodup (by decide : (3 : Int) ≠ 4)
        (show (arpIndices 3 latch).idxOf x.1 < latch.length - 1 by omega) hlast
      have hle := hall _ (getD_arpIndices_lt 3 hlast)
      rw [hplace.2] at hlt
      omega
    . intro htop y hy
      have hy' := getD_arpIndices_idxOf 3 hy
      rcases Nat.lt_or_ge ((arpIndices 3 latch).idxOf y) (latch.length - 1) with hlt | hge
      . have hlt := arpIndices_lt hnodup (by decide : (3 : Int) ≠ 4) hlt hlast
        rw [hy'.2, ← htop, hplace.2] at hlt
        exact Nat.le_of_lt hlt
      . have hsame : (arpIndices 3 latch).idxOf y = (arpIndices 3 latch).idxOf x.1 := by omega
        rw [← hplace.2, ← hy'.2, hsame]
  have hoct := hx.2
  have hlt := hplace.1
  unfold ArpEnd arpPlaceOf
  rw [hlow, hhigh, Nat.mul_succ]
  constructor
  . rintro (⟨hidx, ho⟩ | ⟨hidx, ho⟩)
    . rw [hidx, ho]
      exact .inl rfl
    . rw [hidx, ho]
      right
      omega
  . rintro (hzero | hlast)
    . left
      have hmul : latch.length * x.2 = 0 := by omega
      exact ⟨by omega, (Nat.mul_eq_zero.mp hmul).resolve_left (by omega)⟩
    . right
      have ho : x.2 = octaves := by
        by_contra hless
        have hle := Nat.mul_le_mul_left latch.length (show x.2 + 1 ≤ octaves by omega)
        rw [Nat.mul_succ] at hle
        omega
      rw [ho] at hlast
      exact ⟨by omega, ho⟩

theorem arpUpDown_count (hne : 0 < latch.length) (hnodup : latch.Nodup)
    (hspan : 2 ≤ latch.length * (octaves + 1)) (start : Nat) {x : Nat × Nat}
    (hx : ArpPaired latch octaves x)
    : (arpRun 3 start (2 * (latch.length * (octaves + 1)) - 2) latch octaves).count x
        = if ArpEnd latch octaves x then 1 else 2 := by
  have hplaces : (List.range (2 * (latch.length * (octaves + 1)) - 2)).map
      (fun i => arpPlace 3 (start + i) (latch.length * (octaves + 1)))
      = ((List.range (2 * (latch.length * (octaves + 1)) - 2)).map
          (fun i => (start + i) % (2 * (latch.length * (octaves + 1)) - 2))).map
        (upDownPlace (latch.length * (octaves + 1))) := by
    rw [List.map_map]
    apply List.map_congr_left
    intro i _
    exact arpPlace_upDown hspan (start + i)
  have hperm := (map_mod_perm start
    (show 0 < 2 * (latch.length * (octaves + 1)) - 2 by omega)).map
    (upDownPlace (latch.length * (octaves + 1)))
  rw [count_arpRun hne hx, hplaces, hperm.count_eq, count_upDownPlace hspan (arpPlaceOf_lt 3 hx)]
  simp only [arpEnd_iff hne hnodup hx]

theorem arpUpDown_unrepeated (hne : 0 < latch.length) (hspan : 2 ≤ latch.length * (octaves + 1))
    (step : Nat) : arpPair 3 step latch octaves ≠ arpPair 3 (step + 1) latch octaves := by
  intro heq
  have hpaired := arpPaired_arpAt 3 hne
    (arpPlace_lt (show 0 < latch.length * (octaves + 1) by omega) 3 (step + 1))
  rw [arpPair_eq, arpPair_eq, arpAt_eq_iff hne hpaired] at heq
  have hself := (arpAt_eq_iff hne hpaired _).mp rfl
  rw [← hself, arpPlace_upDown hspan, arpPlace_upDown hspan] at heq
  generalize latch.length * (octaves + 1) = span at hspan heq
  have hlt := Nat.mod_lt step (show 0 < 2 * span - 2 by omega)
  have hnext : (step + 1) % (2 * span - 2)
      = if step % (2 * span - 2) + 1 = 2 * span - 2 then 0 else step % (2 * span - 2) + 1 := by
    rw [← Nat.mod_add_mod]
    split
    next hfull => rw [hfull, Nat.mod_self]
    next hless => exact Nat.mod_eq_of_lt (by omega)
  rw [hnext] at heq
  generalize step % (2 * span - 2) = t at hlt heq
  unfold upDownPlace at heq
  split at heq <;> split at heq <;> split at heq <;> omega

end UpDown

section Played

theorem arpPitch_le {latch : List Nat} (hnotes : ∀ note ∈ latch, note < 128) {x : Nat × Nat}
    (hx : x.1 < latch.length) : arpPitch latch x ≤ 127 := by
  have hnote := hnotes _ (List.getElem_mem hx)
  unfold arpPitch
  rw [List.getD_eq_getElem _ _ hx]
  dsimp only
  split <;> omega

/--
What the arpeggiator plays of the keys that presses and releases have left in the latch: in every
mode each key in each octave, in the order of the mode.
-/
theorem arpLaw_built (ops : List LatchOp) (hops : ∀ op ∈ ops, op.note < 128)
    (hne : (Latch.built ops).notes ≠ []) (octaves : Nat)
    : ArpLaw (Latch.built ops).notes octaves := by
  have hpos := List.length_pos_of_ne_nil hne
  have hnodup : (Latch.built ops).notes.Nodup := (Latch.built ops).nodup
  have hnotes := Latch.notes_built ops hops
  generalize (Latch.built ops).notes = latch at hpos hnodup hnotes
  have hspan : 0 < latch.length * (octaves + 1) := Nat.mul_pos hpos (Nat.succ_pos octaves)
  have hpaired : ∀ mode step, ArpPaired latch octaves (arpPair mode step latch octaves) :=
    fun mode step => arpPaired_arpAt mode hpos (arpPlace_lt hspan mode step)
  constructor
  . exact fun mode step => harpArpSelect_eq mode step latch octaves
  . exact hpaired
  . intro mode step
    have hle := arpPitch_le hnotes (hpaired mode step).1
    rw [harpArpSelect_eq]
    exact Int.ofNat_le.mpr hle
  . exact arpSweep_up hpos hnodup
  . exact arpSweep_down hpos hnodup
  . exact arpSweep_asPlayed hpos
  . exact fun htwo start x hx => arpUpDown_count hpos hnodup htwo start hx
  . exact fun htwo step => arpUpDown_unrepeated hpos htwo step

-- Three keys pressed out of order, one of them released and another pressed again.
def chordOps : List LatchOp :=
  [.add 64 (Fp.ofBits 0), .add 60 (Fp.ofBits 0), .add 120 (Fp.ofBits 0), .remove 60,
    .add 67 (Fp.ofBits 0), .add 64 (Fp.ofBits 0)]

theorem arpLaw_chord : ArpLaw [64, 120, 67] 1 :=
  arpLaw_built chordOps (by decide) (by decide) 1

end Played

end Harp
