import Harp.Device.RampRun
import Harp.Device.UnitRange

/-!
This module contains what the voices of a part read of a ramp they share.

The voices go through the segment one after another, and each one moves the ramp along it. What a
voice finds is what the one before it has left, so the line is read as it is only if going through the
segment once more reads the same values.
-/

namespace Harp

open Ieee

variable {D X : Type} {k : Kernel D X}

section Reads

-- The part as the voice `vi` finds it: the voices before it have gone through the segment.
def Part.foundBy (k : Kernel D X) (p : Part D) (n pos : Nat) (vi : Fin nVoices) : Part D :=
  ((List.finRange nVoices).take vi.val).foldl (Part.voiceAfter k n pos) p

-- The values the voice `vi` reads for its sub-block `m`.
def Part.subBlockReads (k : Kernel D X) (p : Part D) (n pos : Nat) (vi : Fin nVoices) (m : Nat)
    : Fin nParams → F32 :=
  let p := p.foundBy k n pos vi
  let v := p.voices vi
  let p := p.setVoice vi { v with dsp := k.land v p.pval }
  let s := ((subStarts n).take m).foldl (Part.subBlock k vi n pos) (p, [])
  (s.1.rampsAdvance k (u64 (pos + smoothSubblock * m))).pval

-- The line of a ramp, and its target from the end on.
def Ramp.valueAt (line : Ramp → Nat → F32) (r : Ramp) (q : Nat) : F32 :=
  if r.overAt q then
    r.target
  else if r.start < q then
    line r q
  else
    r.startVal

-- Every voice reads every ramp where it is at the start of the sub-block.
def VoicesFollow (k : Kernel D X) (p : Part D) (n pos : Nat) : Prop :=
  ∀ vi, (p.voices vi).active → ∀ m, smoothSubblock * m < n → ∀ j, (p.ramps j).active →
    p.subBlockReads k n pos vi m j
      = (p.ramps j).valueAt k.line (u64 (pos + smoothSubblock * m))

def lastSub (n pos : Nat) : Nat :=
  pos + smoothSubblock * ((n - 1) / smoothSubblock)

-- A ramp that has not left its start drives a value that is the start value.
def Ramp.AtStart (r : Ramp) (v : F32) (pos : Nat) : Prop :=
  pos ≤ r.start → r.start < r.stop → v = r.startVal

-- Going through the segment once more reads the same: the ramp does not end behind a sub-block that
-- it is not at its target in, nor does it leave its start.
structure Ramp.Replays (line : Ramp → Nat → F32) (r : Ramp) (n pos : Nat) : Prop where
  ended : r.stop ≤ lastSub n pos → ∀ m, smoothSubblock * m < n → pos + smoothSubblock * m < r.stop →
    r.valueAt line (pos + smoothSubblock * m) = r.target
  begun : lastSub n pos < r.stop → pos ≤ r.start → r.start < lastSub n pos →
    line r (lastSub n pos) = r.startVal

end Reads

section Pass

variable {line : Ramp → Nat → F32} {r : Ramp} {v : F32}

def rampStep (line : Ramp → Nat → F32) (s : Ramp × F32) (q : Nat) : Ramp × F32 :=
  (s.1.settle q, s.1.tick line q s.2)

-- What a pass over ascending positions leaves, the last of which is `q`.
def passEnd (line : Ramp → Nat → F32) (r : Ramp) (v : F32) (q : Nat) : Ramp × F32 :=
  if r.overAt q then
    ({ r with active := false }, r.target)
  else
    (r, if r.start < q then line r q else v)

theorem rampStep_of_inactive (h : r.active = false) (q : Nat) : rampStep line (r, v) q = (r, v) := by
  unfold rampStep Ramp.settle Ramp.tick
  simp [h]

theorem rampStep_of_active (h : r.active = true) (q : Nat)
    : rampStep line (r, v) q = passEnd line r v q := by
  unfold rampStep Ramp.settle Ramp.tick passEnd Ramp.overAt
  by_cases hover : q ≥ r.stop ∨ r.stop ≤ r.start
  . simp [h, hover]
  . simp [h, hover]

theorem rampStep_passEnd (h : r.active = true) {q q' : Nat} (hle : q ≤ q')
    : rampStep line (passEnd line r v q) q' = passEnd line r v q' := by
  by_cases hover : r.overAt q
  . have hover' : r.overAt q' := by
      unfold Ramp.overAt at hover ⊢
      omega
    have heq : passEnd line r v q = ({ r with active := false }, r.target) := by
      unfold passEnd
      rw [if_pos hover]
    have heq' : passEnd line r v q' = ({ r with active := false }, r.target) := by
      unfold passEnd
      rw [if_pos hover']
    rw [heq, heq']
    exact rampStep_of_inactive rfl q'
  . have heq : passEnd line r v q = (r, if r.start < q then line r q else v) := by
      unfold passEnd
      rw [if_neg hover]
    rw [heq, rampStep_of_active h]
    unfold passEnd
    split
    . rfl
    . congr 1
      split
      . rfl
      . rw [if_neg (by omega)]

def subPositions (pos m : Nat) : List Nat :=
  (List.range m).map (fun i => pos + smoothSubblock * i)

theorem foldl_rampStep_succ (h : r.active = true) (pos m : Nat)
    : (subPositions pos (m + 1)).foldl (rampStep line) (r, v)
        = passEnd line r v (pos + smoothSubblock * m) := by
  induction m with
  | zero => exact rampStep_of_active h _
  | succ m ih =>
    have hsplit : subPositions pos (m + 1 + 1)
        = subPositions pos (m + 1) ++ [pos + smoothSubblock * (m + 1)] := by
      unfold subPositions
      rw [List.range_succ, List.map_append]
      rfl
    rw [hsplit, List.foldl_append, ih, List.foldl_cons, List.foldl_nil]
    apply rampStep_passEnd h
    unfold smoothSubblock
    omega

theorem foldl_rampStep_inactive (h : r.active = false) (qs : List Nat)
    : qs.foldl (rampStep line) (r, v) = (r, v) := by
  induction qs with
  | nil => rfl
  | cons q qs ih => rw [List.foldl_cons, rampStep_of_inactive h, ih]

-- What a voice that finds the ramp running reads for its sub-block `m`.
theorem read_of_active (h : r.active = true) (pos m : Nat)
    : (rampStep line ((subPositions pos m).foldl (rampStep line) (r, v))
          (pos + smoothSubblock * m)).2
        = if r.overAt (pos + smoothSubblock * m) then r.target
          else if r.start < pos + smoothSubblock * m then line r (pos + smoothSubblock * m) else v := by
  have hend : rampStep line ((subPositions pos m).foldl (rampStep line) (r, v))
      (pos + smoothSubblock * m) = passEnd line r v (pos + smoothSubblock * m) := by
    cases m with
    | zero => exact rampStep_of_active h _
    | succ m =>
      rw [foldl_rampStep_succ h]
      apply rampStep_passEnd h
      unfold smoothSubblock
      omega
  rw [hend]
  unfold passEnd
  split <;> rfl

end Pass

section Projection

variable {n pos : Nat} {j : Fin nParams}

def Part.rampOf (p : Part D) (j : Fin nParams) : Ramp × F32 :=
  (p.ramps j, p.pval j)

theorem rampOf_subBlocks (vi : Fin nVoices) (starts : List Nat) (s : Part D × List (X × X))
    : (starts.foldl (Part.subBlock k vi n pos) s).1.rampOf j
        = (starts.map (fun i => u64 (pos + i))).foldl (rampStep k.line) (s.1.rampOf j) := by
  induction starts generalizing s with
  | nil => rfl
  | cons i starts ih =>
    rw [List.foldl_cons, List.map_cons, List.foldl_cons, ih]
    rfl

theorem map_u64_take (h : pos + n ≤ 2 ^ 64) {m : Nat} (hm : m ≤ (n + 31) / 32)
    : ((subStarts n).take m).map (fun i => u64 (pos + i)) = subPositions pos m := by
  unfold subStarts subPositions
  rw [← List.map_take, List.take_range, Nat.min_eq_left (by unfold smoothSubblock; omega),
    List.map_map]
  apply List.map_congr_left
  intro i hi
  rw [List.mem_range] at hi
  unfold u64
  rw [Function.comp_apply, Nat.mod_eq_of_lt]
  unfold smoothSubblock
  omega

theorem rampOf_voiceAfter (h : pos + n ≤ 2 ^ 64) {p : Part D} {vi : Fin nVoices}
    (hvi : (p.voices vi).active = true)
    : (p.voiceAfter k n pos vi).rampOf j
        = (subPositions pos ((n + 31) / 32)).foldl (rampStep k.line) (p.rampOf j) := by
  have hreclaim : ∀ p : Part D, (p.reclaim k vi).rampOf j = p.rampOf j := by
    intro p
    unfold Part.reclaim
    dsimp only
    split <;> rfl
  have hall : (subStarts n).take ((n + 31) / 32) = subStarts n := by
    apply List.take_of_length_le
    unfold subStarts smoothSubblock
    simp
  unfold Part.voiceAfter
  rw [if_pos hvi, hreclaim]
  unfold Part.voiceSubBlocks Part.engineRender
  dsimp only
  have hpositions := map_u64_take h (Nat.le_refl ((n + 31) / 32))
  rw [hall] at hpositions
  rw [← hpositions]
  exact rampOf_subBlocks vi (subStarts n) (_, [])

theorem active_foldl_voiceAfter {vis : List (Fin nVoices)} {vi : Fin nVoices} (hvi : vi ∉ vis)
    (p : Part D)
    : ((vis.foldl (Part.voiceAfter k n pos) p).voices vi).active = (p.voices vi).active := by
  induction vis generalizing p with
  | nil => rfl
  | cons vi' vis ih =>
    rw [List.mem_cons, not_or] at hvi
    rw [List.foldl_cons, ih hvi.2, (Part.voiceAfter_other hvi.1 p).1]

end Projection

section Follow

variable {p : Part D} {n pos : Nat} {vi : Fin nVoices} {j : Fin nParams}

-- An active voice in front of `vi`.
def Part.precedes (p : Part D) (vi : Fin nVoices) : Prop :=
  ∃ vi', vi' < vi ∧ (p.voices vi').active = true

theorem lastSub_eq (hn : 0 < n) : lastSub n pos = pos + smoothSubblock * ((n + 31) / 32 - 1) := by
  unfold lastSub smoothSubblock
  congr 2
  omega

-- One voice or several: they leave what one of them leaves.
theorem rampOf_foundBy (h : pos + n ≤ 2 ^ 64) (hn : 0 < n) (hj : (p.ramps j).active = true)
    (vi : Fin nVoices)
    : (¬ p.precedes vi → (p.foundBy k n pos vi).rampOf j = p.rampOf j)
        ∧ (p.precedes vi → (p.foundBy k n pos vi).rampOf j
          = passEnd k.line (p.ramps j) (p.pval j) (lastSub n pos)) := by
  have hpass : ∀ s, s = p.rampOf j ∨ s = passEnd k.line (p.ramps j) (p.pval j) (lastSub n pos) →
      (subPositions pos ((n + 31) / 32)).foldl (rampStep k.line) s
        = passEnd k.line (p.ramps j) (p.pval j) (lastSub n pos) := by
    have hcount : (n + 31) / 32 = (n + 31) / 32 - 1 + 1 := by omega
    rintro s (rfl | rfl)
    . rw [hcount, lastSub_eq hn]
      exact foldl_rampStep_succ hj pos _
    . unfold passEnd
      split
      . exact foldl_rampStep_inactive rfl _
      next hover =>
        rw [hcount, foldl_rampStep_succ hj, ← lastSub_eq hn]
        unfold passEnd
        rw [if_neg hover]
        congr 1
        split <;> rfl
  have hfold : ∀ m, m ≤ nVoices →
      let q := ((List.finRange nVoices).take m).foldl (Part.voiceAfter k n pos) p
      ((¬ ∃ vi' : Fin nVoices, vi'.val < m ∧ (p.voices vi').active = true) →
          q.rampOf j = p.rampOf j)
        ∧ ((∃ vi' : Fin nVoices, vi'.val < m ∧ (p.voices vi').active = true) →
          q.rampOf j = passEnd k.line (p.ramps j) (p.pval j) (lastSub n pos)) := by
    intro m
    induction m with
    | zero =>
      intro _
      refine ⟨fun _ => rfl, ?_⟩
      rintro ⟨vi', hlt, _⟩
      omega
    | succ m ih =>
      intro hm
      rcases ih (by omega) with ⟨hnone, hsome⟩
      have hget : (List.finRange nVoices)[m]? = some ⟨m, hm⟩ := by
        rw [List.getElem?_eq_getElem (by simpa using hm), List.getElem_finRange]
        rfl
      have hnot : (⟨m, hm⟩ : Fin nVoices) ∉ (List.finRange nVoices).take m := by
        intro hmem
        rcases List.mem_take_iff_getElem.mp hmem with ⟨i, hi, heq⟩
        rw [List.getElem_finRange] at heq
        have hval := congrArg Fin.val heq
        simp only [Fin.val_cast] at hval
        omega
      have hactive : ((((List.finRange nVoices).take m).foldl (Part.voiceAfter k n pos) p).voices
          ⟨m, hm⟩).active = (p.voices ⟨m, hm⟩).active := active_foldl_voiceAfter hnot p
      rw [List.take_add_one, hget, Option.toList_some, List.foldl_append, List.foldl_cons,
        List.foldl_nil]
      dsimp only
      generalize ((List.finRange nVoices).take m).foldl (Part.voiceAfter k n pos) p = q
        at hnone hsome hactive
      have hbefore : ∀ vi' : Fin nVoices, vi'.val < m + 1 → vi' ≠ ⟨m, hm⟩ → vi'.val < m := by
        intro vi' hlt hne
        have hval : vi'.val ≠ m := fun hval => hne (Fin.ext hval)
        omega
      cases hvoice : (p.voices ⟨m, hm⟩).active with
      | true =>
        rw [hvoice] at hactive
        have hq : (q.voiceAfter k n pos ⟨m, hm⟩).rampOf j
            = passEnd k.line (p.ramps j) (p.pval j) (lastSub n pos) := by
          rw [rampOf_voiceAfter h hactive]
          apply hpass
          by_cases hex : ∃ vi' : Fin nVoices, vi'.val < m ∧ (p.voices vi').active = true
          . exact .inr (hsome hex)
          . exact .inl (hnone hex)
        refine ⟨?_, fun _ => hq⟩
        intro hno
        exact absurd ⟨⟨m, hm⟩, Nat.lt_succ_self m, hvoice⟩ hno
      | false =>
        rw [hvoice] at hactive
        have hq : q.voiceAfter k n pos ⟨m, hm⟩ = q := by
          unfold Part.voiceAfter
          rw [hactive, if_neg (by simp)]
        rw [hq]
        constructor
        . intro hno
          apply hnone
          rintro ⟨vi', hlt, hact⟩
          exact hno ⟨vi', by omega, hact⟩
        . rintro ⟨vi', hlt, hact⟩
          apply hsome
          refine ⟨vi', hbefore vi' hlt ?_, hact⟩
          rintro rfl
          rw [hvoice] at hact
          cases hact
  exact hfold vi.val (by omega)

theorem u64_subBlock {m : Nat} (h : pos + n ≤ 2 ^ 64) (hm : smoothSubblock * m < n)
    : u64 (pos + smoothSubblock * m) = pos + smoothSubblock * m := by
  unfold u64
  rw [Nat.mod_eq_of_lt]
  omega

theorem subBlockReads_eq (h : pos + n ≤ 2 ^ 64) {m : Nat} (hm : smoothSubblock * m < n)
    : p.subBlockReads k n pos vi m j
        = (rampStep k.line ((subPositions pos m).foldl (rampStep k.line)
            ((p.foundBy k n pos vi).rampOf j)) (pos + smoothSubblock * m)).2 := by
  have hlast := u64_subBlock h hm
  have hcount : m ≤ (n + 31) / 32 := by
    unfold smoothSubblock at hm
    omega
  rw [← map_u64_take h hcount, ← hlast]
  generalize hq : p.foundBy k n pos vi = q
  have hfold : ((((subStarts n).take m).foldl (Part.subBlock k vi n pos)
      (q.setVoice vi { q.voices vi with dsp := k.land (q.voices vi) q.pval }, [])).1).rampOf j
      = (((subStarts n).take m).map (fun i => u64 (pos + i))).foldl (rampStep k.line)
        (q.rampOf j) := rampOf_subBlocks vi _ (_, [])
  rw [← hfold]
  unfold Part.subBlockReads
  rw [hq]
  rfl

-- The first voice of the pool goes by what the part has, the ones behind it by what is left to them.
theorem reads_first (h : pos + n ≤ 2 ^ 64) (hn : 0 < n) (hj : (p.ramps j).active = true)
    (hvi : ¬ p.precedes vi) {m : Nat} (hm : smoothSubblock * m < n)
    : p.subBlockReads k n pos vi m j
        = if (p.ramps j).overAt (pos + smoothSubblock * m) then (p.ramps j).target
          else if (p.ramps j).start < pos + smoothSubblock * m
            then k.line (p.ramps j) (pos + smoothSubblock * m) else p.pval j := by
  rw [subBlockReads_eq h hm, (rampOf_foundBy h hn hj vi).1 hvi]
  exact read_of_active hj pos m

theorem reads_later (h : pos + n ≤ 2 ^ 64) (hn : 0 < n) (hj : (p.ramps j).active = true)
    (hvi : p.precedes vi) {m : Nat} (hm : smoothSubblock * m < n)
    : p.subBlockReads k n pos vi m j
        = if (p.ramps j).overAt (lastSub n pos) then (p.ramps j).target
          else if (p.ramps j).start < pos + smoothSubblock * m
            then k.line (p.ramps j) (pos + smoothSubblock * m)
          else if (p.ramps j).start < lastSub n pos then k.line (p.ramps j) (lastSub n pos)
          else p.pval j := by
  have hle : pos + smoothSubblock * m ≤ lastSub n pos := by
    unfold lastSub smoothSubblock
    unfold smoothSubblock at hm
    omega
  rw [subBlockReads_eq h hm, (rampOf_foundBy h hn hj vi).2 hvi]
  unfold passEnd
  split
  . rw [foldl_rampStep_inactive rfl, rampStep_of_inactive rfl]
  next hover =>
    rw [read_of_active hj pos m, if_neg]
    unfold Ramp.overAt at hover ⊢
    omega

theorem precedes_or (p : Part D) {vi vi' : Fin nVoices} (hne : vi ≠ vi')
    (hvi : (p.voices vi).active = true) (hvi' : (p.voices vi').active = true)
    : p.precedes vi ∨ p.precedes vi' := by
  rcases lt_or_gt_of_ne hne with hlt | hlt
  . exact .inr ⟨vi, hlt, hvi⟩
  . exact .inl ⟨vi', hlt, hvi'⟩

-- The first active voice.
theorem exists_first (p : Part D) (h : ∃ vi, (p.voices vi).active = true)
    : ∃ vi, (p.voices vi).active = true ∧ ¬ p.precedes vi := by
  have hwf : WellFounded (fun vi vi' : Fin nVoices => vi < vi') := wellFounded_lt
  rcases hwf.has_min { vi | (p.voices vi).active = true } h with ⟨vi, hvi, hmin⟩
  refine ⟨vi, hvi, ?_⟩
  rintro ⟨vi', hlt, hvi'⟩
  exact hmin vi' hvi' hlt

end Follow

theorem voicesFollow_iff (k : Kernel D X) (p : Part D) (n pos : Nat) (h : pos + n ≤ 2 ^ 64)
    : VoicesFollow k p n pos
        ↔ (0 < n → ∀ j, (p.ramps j).active →
            ((∃ vi, (p.voices vi).active) → (p.ramps j).AtStart (p.pval j) pos)
            ∧ ((∃ vi vi', vi ≠ vi' ∧ (p.voices vi).active ∧ (p.voices vi').active) →
              (p.ramps j).Replays k.line n pos)) := by
  constructor
  . intro hfollow hn j hj
    constructor
    . intro hvoice hstart hstop
      rcases exists_first p hvoice with ⟨vi, hvi, hfirst⟩
      have hzero : smoothSubblock * 0 < n := hn
      have hread := hfollow vi hvi 0 hzero j hj
      rw [u64_subBlock h hzero, reads_first h hn hj hfirst hzero] at hread
      have hnot : ¬ (p.ramps j).overAt (pos + smoothSubblock * 0) := by
        unfold Ramp.overAt
        omega
      have hstale : ¬ (p.ramps j).start < pos + smoothSubblock * 0 := by omega
      unfold Ramp.valueAt at hread
      simp only [if_neg hnot, if_neg hstale] at hread
      exact hread
    . rintro ⟨vi, vi', hne, hvi, hvi'⟩
      have hlater : ∃ vi, (p.voices vi).active = true ∧ p.precedes vi := by
        rcases precedes_or p hne hvi hvi' with hpre | hpre
        . exact ⟨vi, hvi, hpre⟩
        . exact ⟨vi', hvi', hpre⟩
      rcases hlater with ⟨vi, hvi, hpre⟩
      constructor
      . intro hended m hm _
        have hread := hfollow vi hvi m hm j hj
        rw [u64_subBlock h hm, reads_later h hn hj hpre hm, if_pos (.inl hended)] at hread
        exact hread.symm
      . intro hrunning hstart hbegun
        have hzero : smoothSubblock * 0 < n := hn
        have hread := hfollow vi hvi 0 hzero j hj
        rw [u64_subBlock h hzero, reads_later h hn hj hpre hzero] at hread
        have hlast : ¬ (p.ramps j).overAt (lastSub n pos) := by
          unfold Ramp.overAt
          omega
        have hnot : ¬ (p.ramps j).overAt (pos + smoothSubblock * 0) := by
          unfold Ramp.overAt
          omega
        have hstale : ¬ (p.ramps j).start < pos + smoothSubblock * 0 := by omega
        unfold Ramp.valueAt at hread
        simp only [if_neg hlast, if_neg hnot, if_neg hstale, if_pos hbegun] at hread
        exact hread
  . intro hcond vi hvi m hm j hj
    have hn : 0 < n := by omega
    have hle : pos + smoothSubblock * m ≤ lastSub n pos := by
      unfold lastSub smoothSubblock
      unfold smoothSubblock at hm
      omega
    rcases hcond hn j hj with ⟨hstart, hreplays⟩
    have hstart := hstart ⟨vi, hvi⟩
    rw [u64_subBlock h hm]
    by_cases hpre : p.precedes vi
    . have htwo := hpre
      rcases htwo with ⟨vi', hlt, hvi'⟩
      have hreplays := hreplays ⟨vi', vi, ne_of_lt hlt, hvi', hvi⟩
      rw [reads_later h hn hj hpre hm]
      by_cases hover : (p.ramps j).overAt (pos + smoothSubblock * m)
      . have hover' : (p.ramps j).overAt (lastSub n pos) := by
          unfold Ramp.overAt at hover ⊢
          omega
        unfold Ramp.valueAt
        rw [if_pos hover, if_pos hover']
      . by_cases hover' : (p.ramps j).overAt (lastSub n pos)
        . rw [if_pos hover']
          unfold Ramp.overAt at hover hover'
          apply Eq.symm
          apply hreplays.ended (by omega) m hm
          omega
        . have hrunning : lastSub n pos < (p.ramps j).stop
              ∧ (p.ramps j).start < (p.ramps j).stop := by
            unfold Ramp.overAt at hover'
            omega
          rw [if_neg hover']
          unfold Ramp.valueAt
          rw [if_neg hover]
          split
          . rfl
          next hstale =>
            split
            next hbegun => exact hreplays.begun hrunning.1 (by omega) hbegun
            next => exact hstart (by omega) hrunning.2
    . rw [reads_first h hn hj hpre hm]
      unfold Ramp.valueAt
      split
      . rfl
      next hover =>
        have hrunning : (p.ramps j).start < (p.ramps j).stop := by
          unfold Ramp.overAt at hover
          omega
        split
        . rfl
        next hstale => exact hstart (by omega) hrunning

section Shared

def lineKernel : Kernel Nat Nat :=
  { countKernel with line := Ramp.line }

-- A ramp of parameter 0 from 0 to 1 over 64 samples, on a part whose first voices are sounding.
def rampedPart (sounding : Nat) : Part Nat :=
  let p := Part.boot lineKernel
  { p with
    voices := fun vi => { p.voices vi with active := vi.val < sounding, note := 60 },
    pval := fun j => if j = 0 then Fp.of false 0 0 else p.pval j,
    ramps := fun j =>
      if j = 0 then ⟨true, 64, 128, Fp.of false 0 0, Fp.of false 127 0⟩ else Ramp.none }

theorem voicesFollow_rampedPart : 64 + 128 ≤ 2 ^ 64 ∧ VoicesFollow lineKernel (rampedPart 1) 128 64 := by
  refine ⟨by decide, (voicesFollow_iff lineKernel (rampedPart 1) 128 64 (by decide)).mpr ?_⟩
  intro _ j hj
  have hzero : j = 0 := by
    by_contra hne
    unfold rampedPart at hj
    dsimp only at hj
    rw [if_neg hne] at hj
    cases hj
  subst hzero
  constructor
  . intro _ _ _
    rfl
  . rintro ⟨vi, vi', hne, hvi, hvi'⟩
    unfold rampedPart at hvi hvi'
    simp only [decide_eq_true_eq] at hvi hvi'
    exact absurd (Fin.ext (by omega)) hne

-- The first voice has ended the ramp, and the second one reads its target at the start.
theorem not_voicesFollow_rampedPart : ¬ VoicesFollow lineKernel (rampedPart 2) 128 64 := by
  intro hfollow
  have hread := hfollow 1 (by decide) 0 (by decide) 0 (by decide)
  revert hread
  decide +kernel

end Shared

end Harp
