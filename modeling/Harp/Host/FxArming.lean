import Harp.Host.FxStream

/-!
This module contains `shell/fx_arm.h` and the late guard of the runtime on machine integers: what an
effect session arms, and what its re-anchors make of the delay of the wet.
-/

namespace Harp.FxArming

open Runs

structure FxArm where
  preroll : UInt32
  delivered : UInt32
  lag : UInt32
  capped : Bool

def reported (base latchedPipe : UInt32) : UInt64 :=
  base.toUInt64 + latchedPipe.toUInt64

-- The pre-roll before the cap; the timing budget is never cut.
def budgeted (base latchedPipe pipe : UInt32) : UInt64 :=
  let preroll :=
    if pipe.toUInt64 < reported base latchedPipe then
      reported base latchedPipe - pipe.toUInt64
    else
      0
  if preroll < base.toUInt64 then base.toUInt64 else preroll

-- The pre-roll cut to what the dry line holds; a pipeline beyond it stays.
def armed (base latchedPipe pipe maxDelay : UInt32) : UInt64 :=
  if maxDelay.toUInt64 < budgeted base latchedPipe pipe + pipe.toUInt64 then
    (if pipe < maxDelay then (maxDelay - pipe).toUInt64 else 0)
  else
    budgeted base latchedPipe pipe

def fxArmFor (base latchedPipe pipe maxDelay : UInt32) : FxArm :=
  let preroll := armed base latchedPipe pipe maxDelay
  let delivered := preroll + pipe.toUInt64
  { preroll := preroll.toUInt32
    delivered := delivered.toUInt32
    lag :=
      if reported base latchedPipe < delivered then
        (delivered - reported base latchedPipe).toUInt32
      else
        0
    capped := maxDelay.toUInt64 < budgeted base latchedPipe pipe + pipe.toUInt64 }

def kFxMaxWetDelay : UInt32 := 65535

-- What the audio thread keeps of a session's delay.
structure FxDelay where
  fxArmedDelay : UInt32
  fxExtraDelay : UInt32
  fxPipe : UInt32
  fxLateRunFrames : Nat
  padDebtFloats : UInt64
  fxReanchors : Nat

def fxBeginBlock (base latchedPipe pipe testUnderbudget : UInt32) : FxDelay where
  fxArmedDelay :=
    let lat := (fxArmFor base latchedPipe pipe kFxMaxWetDelay).preroll
    if lat ≤ testUnderbudget then 0 else lat - testUnderbudget
  fxExtraDelay := 0
  fxPipe := pipe
  fxLateRunFrames := 0
  padDebtFloats := 0
  fxReanchors := 0

namespace FxDelay

def fxWetDelay (s : FxDelay) : UInt32 :=
  s.fxArmedDelay + s.fxExtraDelay + s.fxPipe

def fixedDelay (s : FxDelay) : UInt64 :=
  s.fxArmedDelay.toUInt64 + s.fxPipe.toUInt64

def reanchored (s : FxDelay) : UInt32 :=
  let owed := s.padDebtFloats / 2
  if kFxMaxWetDelay.toUInt64 < s.fixedDelay + s.fxExtraDelay.toUInt64 + owed then
    if s.fixedDelay < kFxMaxWetDelay.toUInt64 then
      kFxMaxWetDelay - s.fixedDelay.toUInt32
    else
      0
  else
    s.fxExtraDelay + owed.toUInt32

def fxLateGuard (s : FxDelay) (nFrames window : Nat) (connected : Bool) : FxDelay :=
  let late := fxLateStep s.fxLateRunFrames (s.padDebtFloats ≠ 0) connected nFrames window
  if late.1 then
    { s with
      fxLateRunFrames := late.2
      padDebtFloats := 0
      fxExtraDelay := s.reanchored
      fxReanchors := s.fxReanchors + 1 }
  else
    { s with fxLateRunFrames := late.2 }

inductive Act where
  -- what the pulls between two guards make of the debt
  | pull (padDebtFloats : UInt64)
  | fxLateGuard (nFrames window : Nat) (connected : Bool)

def next (s : FxDelay) : Act → FxDelay
  | .pull padDebtFloats => { s with padDebtFloats }
  | .fxLateGuard nFrames window connected => s.fxLateGuard nFrames window connected

end FxDelay

section Arm

variable (base latchedPipe pipe maxDelay : UInt32)

theorem toNat_reported
    : (reported base latchedPipe).toNat = base.toNat + latchedPipe.toNat := by
  have hbase := base.toNat_lt
  have hlatched := latchedPipe.toNat_lt
  unfold reported
  rw [UInt64.toNat_add, UInt32.toNat_toUInt64, UInt32.toNat_toUInt64, Nat.mod_eq_of_lt (by omega)]

theorem toNat_budgeted
    : (budgeted base latchedPipe pipe).toNat
        = max (base.toNat + latchedPipe.toNat - pipe.toNat) base.toNat := by
  have hreported := toNat_reported base latchedPipe
  have hsub : (if pipe.toUInt64 < reported base latchedPipe then
        reported base latchedPipe - pipe.toUInt64 else 0).toNat
      = base.toNat + latchedPipe.toNat - pipe.toNat := by
    split
    next h =>
      rw [UInt64.toNat_sub_of_le _ _ (UInt64.le_of_lt h), hreported, UInt32.toNat_toUInt64]
    next h =>
      rw [UInt64.lt_iff_toNat_lt, hreported, UInt32.toNat_toUInt64] at h
      rw [UInt64.toNat_zero]
      omega
  unfold budgeted
  dsimp only
  generalize (if pipe.toUInt64 < reported base latchedPipe then
    reported base latchedPipe - pipe.toUInt64 else 0) = preroll at hsub ⊢
  split
  next h =>
    rw [UInt64.lt_iff_toNat_lt, hsub, UInt32.toNat_toUInt64] at h
    rw [UInt32.toNat_toUInt64]
    omega
  next h =>
    rw [UInt64.lt_iff_toNat_lt, hsub, UInt32.toNat_toUInt64] at h
    rw [hsub]
    omega

theorem toNat_delivered
    : (budgeted base latchedPipe pipe + pipe.toUInt64).toNat
        = max (base.toNat + latchedPipe.toNat) (base.toNat + pipe.toNat) := by
  have hbase := base.toNat_lt
  have hlatched := latchedPipe.toNat_lt
  have hpipe := pipe.toNat_lt
  rw [UInt64.toNat_add, toNat_budgeted, UInt32.toNat_toUInt64, Nat.mod_eq_of_lt (by omega)]
  omega

theorem toNat_armed
    : (armed base latchedPipe pipe maxDelay).toNat
        = if maxDelay.toNat < max (base.toNat + latchedPipe.toNat) (base.toNat + pipe.toNat) then
            maxDelay.toNat - pipe.toNat
          else
            max (base.toNat + latchedPipe.toNat - pipe.toNat) base.toNat := by
  have hdelivered := toNat_delivered base latchedPipe pipe
  unfold armed
  by_cases hcap : maxDelay.toUInt64 < budgeted base latchedPipe pipe + pipe.toUInt64
  . have hnat := hcap
    rw [UInt64.lt_iff_toNat_lt, hdelivered, UInt32.toNat_toUInt64] at hnat
    rw [if_pos hcap, if_pos hnat]
    split
    next h =>
      rw [UInt32.toNat_toUInt64, UInt32.toNat_sub_of_le _ _ (UInt32.le_of_lt h)]
    next h =>
      rw [UInt32.lt_iff_toNat_lt] at h
      rw [UInt64.toNat_zero]
      omega
  . have hnat := hcap
    rw [UInt64.lt_iff_toNat_lt, hdelivered, UInt32.toNat_toUInt64] at hnat
    rw [if_neg hcap, if_neg hnat, toNat_budgeted]

theorem toNat_toUInt32 {x : UInt64} (h : x.toNat < 2 ^ 32) : x.toUInt32.toNat = x.toNat := by
  rw [UInt64.toNat_toUInt32, Nat.mod_eq_of_lt h]

theorem capped_iff
    : (fxArmFor base latchedPipe pipe maxDelay).capped = true
        ↔ maxDelay.toNat < max (base.toNat + latchedPipe.toNat) (base.toNat + pipe.toNat) := by
  unfold fxArmFor
  dsimp only
  rw [decide_eq_true_eq, UInt64.lt_iff_toNat_lt, toNat_delivered, UInt32.toNat_toUInt64]

-- Where the wet is armed to be, in 64 bits: it fits 32.
theorem toNat_armed_add
    : (armed base latchedPipe pipe maxDelay + pipe.toUInt64).toNat
          = (armed base latchedPipe pipe maxDelay).toNat + pipe.toNat
        ∧ (armed base latchedPipe pipe maxDelay).toNat + pipe.toNat < 2 ^ 32 := by
  have hpipe := pipe.toNat_lt
  have hmax := maxDelay.toNat_lt
  have hfit : (armed base latchedPipe pipe maxDelay).toNat + pipe.toNat < 2 ^ 32 := by
    rw [toNat_armed]
    split
    . omega
    . omega
  refine ⟨?_, hfit⟩
  rw [UInt64.toNat_add, UInt32.toNat_toUInt64, Nat.mod_eq_of_lt (by omega)]

theorem toNat_preroll
    : (fxArmFor base latchedPipe pipe maxDelay).preroll.toNat
        = (armed base latchedPipe pipe maxDelay).toNat := by
  have hfit := (toNat_armed_add base latchedPipe pipe maxDelay).2
  exact toNat_toUInt32 (by omega)

theorem toNat_delivered_arm
    : (fxArmFor base latchedPipe pipe maxDelay).delivered.toNat
        = (armed base latchedPipe pipe maxDelay).toNat + pipe.toNat := by
  rcases toNat_armed_add base latchedPipe pipe maxDelay with ⟨hadd, hfit⟩
  have hcut : (fxArmFor base latchedPipe pipe maxDelay).delivered.toNat
      = (armed base latchedPipe pipe maxDelay + pipe.toUInt64).toNat :=
    toNat_toUInt32 (by rw [hadd]; exact hfit)
  exact hcut.trans hadd

theorem toNat_lag
    : (fxArmFor base latchedPipe pipe maxDelay).lag.toNat
        = (armed base latchedPipe pipe maxDelay).toNat + pipe.toNat
            - (base.toNat + latchedPipe.toNat) := by
  rcases toNat_armed_add base latchedPipe pipe maxDelay with ⟨hadd, hfit⟩
  have hreported := toNat_reported base latchedPipe
  unfold fxArmFor
  dsimp only
  split
  next h =>
    have hsub : (armed base latchedPipe pipe maxDelay + pipe.toUInt64
          - reported base latchedPipe).toNat
        = (armed base latchedPipe pipe maxDelay).toNat + pipe.toNat
            - (base.toNat + latchedPipe.toNat) := by
      rw [UInt64.toNat_sub_of_le _ _ (UInt64.le_of_lt h), hadd, hreported]
    rw [toNat_toUInt32 (by omega), hsub]
  next h =>
    rw [UInt64.lt_iff_toNat_lt, hadd, hreported] at h
    rw [UInt32.toNat_zero]
    omega

-- Nothing is cut where the code stores 32 bits: it is the arming of natural numbers.
theorem fxArmFor_toNat
    : Harp.fxArmFor base.toNat latchedPipe.toNat pipe.toNat maxDelay.toNat
        = ⟨(fxArmFor base latchedPipe pipe maxDelay).preroll.toNat,
          (fxArmFor base latchedPipe pipe maxDelay).delivered.toNat,
          (fxArmFor base latchedPipe pipe maxDelay).lag.toNat,
          (fxArmFor base latchedPipe pipe maxDelay).capped⟩ := by
  have hsum : max (base.toNat + latchedPipe.toNat - pipe.toNat) base.toNat + pipe.toNat
      = max (base.toNat + latchedPipe.toNat) (base.toNat + pipe.toNat) := by
    omega
  rw [toNat_preroll, toNat_delivered_arm, toNat_lag, toNat_armed]
  unfold Harp.fxArmFor
  dsimp only
  rw [hsum]
  have hcapped := capped_iff base latchedPipe pipe maxDelay
  by_cases hcap : maxDelay.toNat < max (base.toNat + latchedPipe.toNat) (base.toNat + pipe.toNat)
  . rw [hcapped.mpr hcap, decide_eq_true hcap, if_pos rfl, if_pos hcap]
  . rw [Bool.eq_false_iff.mpr (fun h => hcap (hcapped.mp h)), decide_eq_false hcap, if_neg hcap,
      if_neg Bool.false_ne_true]

-- What an arming promises.
structure Armed (base latchedPipe pipe maxDelay : UInt32) (arm : FxArm) : Prop where
  delivered : arm.delivered.toNat = arm.preroll.toNat + pipe.toNat
  told : pipe ≤ latchedPipe → arm.capped = false →
    arm.delivered.toNat = base.toNat + latchedPipe.toNat
  preroll : arm.capped = false → base ≤ arm.preroll
  lag : (arm.lag.toNat : Int)
    = max 0 ((arm.delivered.toNat : Int) - (base.toNat + latchedPipe.toNat))
  capped : arm.capped = true
    ↔ maxDelay.toNat < max (base.toNat + latchedPipe.toNat) (base.toNat + pipe.toNat)

theorem armed_fxArmFor
    : Armed base latchedPipe pipe maxDelay (fxArmFor base latchedPipe pipe maxDelay) := by
  have hpre : (fxArmFor base latchedPipe pipe maxDelay).capped = false →
      (armed base latchedPipe pipe maxDelay).toNat
        = max (base.toNat + latchedPipe.toNat - pipe.toNat) base.toNat := by
    intro hfree
    rw [toNat_armed, if_neg]
    intro hcap
    rw [(capped_iff base latchedPipe pipe maxDelay).mpr hcap] at hfree
    cases hfree
  constructor
  . rw [toNat_delivered_arm, toNat_preroll]
  . intro hle hfree
    rw [UInt32.le_iff_toNat_le] at hle
    rw [toNat_delivered_arm, hpre hfree]
    omega
  . intro hfree
    rw [UInt32.le_iff_toNat_le, toNat_preroll, hpre hfree]
    omega
  . rw [toNat_lag, toNat_delivered_arm]
    omega
  . exact capped_iff base latchedPipe pipe maxDelay

end Arm

namespace FxDelay

variable {s : FxDelay}

-- The delay is one the dry can follow, unless the pipeline alone is beyond it.
def Fits (s : FxDelay) : Prop :=
  s.fxArmedDelay.toNat + s.fxExtraDelay.toNat + s.fxPipe.toNat ≤ max 65535 s.fxPipe.toNat

theorem toNat_fxWetDelay (h : s.Fits)
    : s.fxWetDelay.toNat = s.fxArmedDelay.toNat + s.fxExtraDelay.toNat + s.fxPipe.toNat := by
  have hpipe := s.fxPipe.toNat_lt
  unfold Fits at h
  unfold fxWetDelay
  rw [UInt32.toNat_add, UInt32.toNat_add, Nat.mod_eq_of_lt (a := _ + s.fxExtraDelay.toNat),
    Nat.mod_eq_of_lt]
  . omega
  . omega

theorem toNat_fixedDelay : s.fixedDelay.toNat = s.fxArmedDelay.toNat + s.fxPipe.toNat := by
  have harmed := s.fxArmedDelay.toNat_lt
  have hpipe := s.fxPipe.toNat_lt
  unfold fixedDelay
  rw [UInt64.toNat_add, UInt32.toNat_toUInt64, UInt32.toNat_toUInt64, Nat.mod_eq_of_lt (by omega)]

theorem toNat_owed : (s.padDebtFloats / 2).toNat = s.padDebtFloats.toNat / 2 := by
  rw [UInt64.toNat_div]
  rfl

-- The re-anchor of natural numbers.
theorem toNat_reanchored
    : s.reanchored.toNat
        = if 65535 < s.fxArmedDelay.toNat + s.fxPipe.toNat + s.fxExtraDelay.toNat
              + s.padDebtFloats.toNat / 2 then
            65535 - (s.fxArmedDelay.toNat + s.fxPipe.toNat)
          else
            s.fxExtraDelay.toNat + s.padDebtFloats.toNat / 2 := by
  have harmed := s.fxArmedDelay.toNat_lt
  have hpipe := s.fxPipe.toNat_lt
  have hextra := s.fxExtraDelay.toNat_lt
  have hdebt := s.padDebtFloats.toNat_lt
  have hmax : kFxMaxWetDelay.toUInt64.toNat = 65535 := rfl
  have hsum : (s.fixedDelay + s.fxExtraDelay.toUInt64 + s.padDebtFloats / 2).toNat
      = s.fxArmedDelay.toNat + s.fxPipe.toNat + s.fxExtraDelay.toNat
          + s.padDebtFloats.toNat / 2 := by
    rw [UInt64.toNat_add, UInt64.toNat_add, toNat_fixedDelay, UInt32.toNat_toUInt64, toNat_owed]
    omega
  unfold reanchored
  dsimp only
  by_cases hcap : kFxMaxWetDelay.toUInt64
      < s.fixedDelay + s.fxExtraDelay.toUInt64 + s.padDebtFloats / 2
  . have hnat := hcap
    rw [UInt64.lt_iff_toNat_lt, hsum, hmax] at hnat
    rw [if_pos hcap, if_pos hnat]
    split
    next hfixed =>
      rw [UInt64.lt_iff_toNat_lt, toNat_fixedDelay, hmax] at hfixed
      have hcut : s.fixedDelay.toUInt32.toNat = s.fxArmedDelay.toNat + s.fxPipe.toNat := by
        rw [toNat_toUInt32 (by rw [toNat_fixedDelay]; omega), toNat_fixedDelay]
      have hle : s.fixedDelay.toUInt32 ≤ kFxMaxWetDelay := by
        rw [UInt32.le_iff_toNat_le, hcut]
        exact Nat.le_of_lt hfixed
      rw [UInt32.toNat_sub_of_le _ _ hle, hcut]
      rfl
    next hfixed =>
      rw [UInt64.lt_iff_toNat_lt, toNat_fixedDelay, hmax] at hfixed
      rw [UInt32.toNat_zero]
      omega
  . have hnat := hcap
    rw [UInt64.lt_iff_toNat_lt, hsum, hmax] at hnat
    rw [if_neg hcap, if_neg hnat, UInt32.toNat_add,
      toNat_toUInt32 (by rw [toNat_owed]; omega), toNat_owed, Nat.mod_eq_of_lt (by omega)]

theorem fits_begin (base latchedPipe pipe testUnderbudget : UInt32)
    : (fxBeginBlock base latchedPipe pipe testUnderbudget).Fits := by
  have hmax : kFxMaxWetDelay.toNat = 65535 := rfl
  have hpreroll : (fxArmFor base latchedPipe pipe kFxMaxWetDelay).preroll.toNat + pipe.toNat
      ≤ max 65535 pipe.toNat := by
    rw [toNat_preroll, toNat_armed, hmax]
    split
    . omega
    . omega
  have harmed : (fxBeginBlock base latchedPipe pipe testUnderbudget).fxArmedDelay.toNat
      ≤ (fxArmFor base latchedPipe pipe kFxMaxWetDelay).preroll.toNat := by
    unfold fxBeginBlock
    dsimp only
    split
    next => exact Nat.zero_le _
    next h =>
      rw [UInt32.toNat_sub_of_le _ _ (UInt32.le_of_lt (UInt32.not_le.mp h))]
      omega
  have hextra : (fxBeginBlock base latchedPipe pipe testUnderbudget).fxExtraDelay.toNat = 0 := rfl
  have hpipe : (fxBeginBlock base latchedPipe pipe testUnderbudget).fxPipe = pipe := rfl
  unfold Fits
  rw [hextra, hpipe]
  omega

-- A step leaves what was armed, and the extra delay does not shrink.
theorem Fits.next (h : s.Fits) (a : Act)
    : (s.next a).Fits ∧ (s.next a).fxArmedDelay = s.fxArmedDelay ∧ (s.next a).fxPipe = s.fxPipe
        ∧ s.fxExtraDelay.toNat ≤ (s.next a).fxExtraDelay.toNat := by
  cases a with
  | pull padDebtFloats => exact ⟨h, rfl, rfl, Nat.le_refl _⟩
  | fxLateGuard nFrames window connected =>
    unfold FxDelay.next FxDelay.fxLateGuard
    dsimp only
    split
    next =>
      have hre := toNat_reanchored (s := s)
      unfold Fits at h ⊢
      dsimp only
      refine ⟨?_, rfl, rfl, ?_⟩
      . rw [hre]
        split
        . omega
        . omega
      . rw [hre]
        split
        . omega
        . omega
    next => exact ⟨h, rfl, rfl, Nat.le_refl _⟩

theorem Fits.le_next (h : s.Fits) (a : Act) : s.fxWetDelay ≤ (s.next a).fxWetDelay := by
  rcases h.next a with ⟨hnext, harmed, hpipe, hextra⟩
  rw [UInt32.le_iff_toNat_le, toNat_fxWetDelay h, toNat_fxWetDelay hnext, harmed, hpipe]
  omega

theorem Fits.le_foldl (h : s.Fits) (acts : List Act)
    : s.fxWetDelay ≤ (acts.foldl FxDelay.next s).fxWetDelay := by
  induction acts generalizing s with
  | nil => exact UInt32.le_refl _
  | cons a acts ih => exact UInt32.le_trans (h.le_next a) (ih (h.next a).1)

theorem fits_run {base latchedPipe pipe testUnderbudget : UInt32}
    (h : Run FxDelay.next free (fxBeginBlock base latchedPipe pipe testUnderbudget) s)
    : s.Fits ∧ s.fxPipe = pipe := by
  apply h.inv (I := fun s => s.Fits ∧ s.fxPipe = pipe)
  . exact ⟨fits_begin base latchedPipe pipe testUnderbudget, rfl⟩
  . intro s a hs _
    rcases hs.1.next a with ⟨hfits, _, hpipe, _⟩
    exact ⟨hfits, hpipe.trans hs.2⟩

end FxDelay

/--
What a session arms is exact in 32 bits, and over its re-anchors the delay of the wet grows only,
up to what the dry line holds.
-/
theorem fxWetDelay_armed (base latchedPipe pipe maxDelay testUnderbudget : UInt32)
    : Armed base latchedPipe pipe maxDelay (fxArmFor base latchedPipe pipe maxDelay)
        ∧ ∀ s, Run FxDelay.next free (fxBeginBlock base latchedPipe pipe testUnderbudget) s →
            (∀ acts : List FxDelay.Act, s.fxWetDelay ≤ (acts.foldl FxDelay.next s).fxWetDelay)
            ∧ (pipe.toNat ≤ 65535 → s.fxWetDelay.toNat ≤ 65535) := by
  refine ⟨armed_fxArmFor base latchedPipe pipe maxDelay, ?_⟩
  intro s h
  rcases FxDelay.fits_run h with ⟨hfits, hpipe⟩
  refine ⟨fun acts => hfits.le_foldl acts, ?_⟩
  intro hle
  rw [FxDelay.toNat_fxWetDelay hfits]
  unfold FxDelay.Fits at hfits
  rw [hpipe] at hfits ⊢
  omega

-- A live session whose wet is 300 frames late for longer than a quarter of a second.
def lateWet : List FxDelay.Act :=
  [.pull 600, .fxLateGuard 12000 12000 true]

theorem fxWetDelay_armed_lateWet
    : (fxArmFor 767 256 2048 65535).delivered = 2815
        ∧ (lateWet.foldl FxDelay.next (fxBeginBlock 767 256 2048 0)).fxWetDelay = 3115
        ∧ (lateWet.foldl FxDelay.next (fxBeginBlock 767 256 2048 0)).fxWetDelay.toNat ≤ 65535 := by
  refine ⟨by decide +kernel, by decide +kernel, ?_⟩
  exact ((fxWetDelay_armed 767 256 2048 65535 0).2 _ (Run.foldl lateWet .start)).2 (by decide)

end Harp.FxArming
