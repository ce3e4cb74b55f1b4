import Harp.Lib.WeightedFit
import Mathlib.Algebra.Order.Ring.Rat

/-!
This module contains how `host/freerun.c` recovers the rate of the device's clock: the line through
the observations that is fitted with forgetting, whose origin is moved along with them. The doubles
are rational numbers, and the diagnostic of the arrival jitter is left out.
-/

namespace Harp.ClockFit

open WeightedFit

structure Observation where
  dev : UInt64
  host : UInt64

def forget : ℚ := 999 / 1000

def shiftS : ℚ := 8

def maxAdj : ℚ := 5 / 100

structure Freerun where
  hostRate : ℚ
  nominal : ℚ
  obsPrimed : Bool
  ts0 : UInt64
  host0 : UInt64
  s : Sums ℚ
  target : ℚ

namespace Freerun

def new (hostRate devRate : ℚ) : Freerun where
  hostRate := hostRate
  nominal := hostRate / devRate
  obsPrimed := false
  ts0 := 0
  host0 := 0
  s := Sums.zero
  target := hostRate / devRate

def prime (fr : Freerun) (o : Observation) : Freerun :=
  { fr with obsPrimed := true, ts0 := o.dev, host0 := o.host }

-- Host seconds and device samples since the origin.
def x (fr : Freerun) (o : Observation) : ℚ :=
  ((o.host - fr.host0).toNat : ℚ) / 1000000000

def y (fr : Freerun) (o : Observation) : ℚ :=
  ((o.dev - fr.ts0).toNat : ℚ)

def shift (fr : Freerun) (o : Observation) : Freerun :=
  { fr with s := fr.s.shift (fr.x o) (fr.y o), ts0 := o.dev, host0 := o.host }

-- An observation that becomes the origin itself is at zero.
def accumulate (fr : Freerun) (o : Observation) : Freerun :=
  if shiftS < fr.x o then
    { fr.shift o with s := (fr.shift o).s.push forget 0 0 }
  else
    { fr with s := fr.s.push forget (fr.x o) (fr.y o) }

def slope? (fr : Freerun) : Option ℚ :=
  if fr.s.denom ≤ 0 then none else some fr.s.slope

def retarget (fr : Freerun) : Freerun :=
  match fr.slope? with
  | none => fr
  | some slope =>
    if slope ≤ 0 then
      fr
    else
      let t := fr.hostRate / slope
      let lo := fr.nominal * (1 - maxAdj)
      let hi := fr.nominal * (1 + maxAdj)
      { fr with target := if t < lo then lo else if hi < t then hi else t }

def observe (fr : Freerun) (o : Observation) : Freerun :=
  if fr.obsPrimed then (fr.accumulate o).retarget else fr.prime o

end Freerun

-- An observation about an origin at `host0` nanoseconds and `ts0` samples.
def point (host0 ts0 : ℚ) (o : Observation) : ℚ × ℚ :=
  (((o.host.toNat : ℚ) - host0) / 1000000000, (o.dev.toNat : ℚ) - ts0)

-- The observations that count, from the newest: all but the one that primes.
def points (host0 ts0 : ℚ) (os : List Observation) : List (ℚ × ℚ) :=
  os.tail.reverse.map (point host0 ts0)

def NoEarlier (p o : Observation) : Prop :=
  p.dev ≤ o.dev ∧ p.host ≤ o.host
deriving Decidable

theorem points_append (host0 ts0 : ℚ) {os : List Observation} (hne : os ≠ []) (o : Observation)
    : points host0 ts0 (os ++ [o]) = point host0 ts0 o :: points host0 ts0 os := by
  unfold points
  rw [List.tail_append_of_ne_nil hne, List.reverse_append, List.map_append]
  rfl

theorem sums_points (host0 ts0 host0' ts0' : ℚ) (os : List Observation)
    : sums forget (points host0' ts0' os)
        = (sums forget (points host0 ts0 os)).shift ((host0' - host0) / 1000000000)
            (ts0' - ts0) := by
  rw [← sums_shift]
  congr 1
  unfold points
  rw [List.map_map]
  apply List.map_congr_left
  intro o _
  unfold point
  dsimp only [Function.comp]
  congr 1
  . ring
  . ring

/--
The sums are the ones of all points that count about the present origin, which was observed.
-/
structure Tracks (os : List Observation) (fr : Freerun) : Prop where
  primed : fr.obsPrimed = !os.isEmpty
  sums : fr.s = sums forget (points (fr.host0.toNat : ℚ) (fr.ts0.toNat : ℚ) os)
  origin : fr.obsPrimed = true → ∃ p ∈ os, p.host = fr.host0 ∧ p.dev = fr.ts0

namespace Freerun

variable {fr : Freerun} {os : List Observation} {o : Observation}

theorem x_eq (h : fr.host0 ≤ o.host)
    : fr.x o = ((o.host.toNat : ℚ) - (fr.host0.toNat : ℚ)) / 1000000000 := by
  unfold x
  rw [UInt64.toNat_sub_of_le _ _ h, Nat.cast_sub (UInt64.le_iff_toNat_le.mp h)]

theorem y_eq (h : fr.ts0 ≤ o.dev) : fr.y o = (o.dev.toNat : ℚ) - (fr.ts0.toNat : ℚ) := by
  unfold y
  rw [UInt64.toNat_sub_of_le _ _ h, Nat.cast_sub (UInt64.le_iff_toNat_le.mp h)]

theorem retarget_frame (fr : Freerun)
    : fr.retarget.obsPrimed = fr.obsPrimed ∧ fr.retarget.s = fr.s
        ∧ fr.retarget.host0 = fr.host0 ∧ fr.retarget.ts0 = fr.ts0 := by
  unfold retarget
  split
  . exact ⟨rfl, rfl, rfl, rfl⟩
  . split
    . exact ⟨rfl, rfl, rfl, rfl⟩
    . exact ⟨rfl, rfl, rfl, rfl⟩

end Freerun

namespace Tracks

variable {fr : Freerun} {os : List Observation} {o : Observation}

theorem new (hostRate devRate : ℚ) : Tracks [] (Freerun.new hostRate devRate) :=
  ⟨rfl, rfl, fun h => Bool.noConfusion h⟩

theorem prime (h : Tracks os fr) (hprimed : fr.obsPrimed = false)
    : Tracks (os ++ [o]) (fr.prime o) := by
  have hnil : os = [] := by
    have hempty := h.primed
    rw [hprimed] at hempty
    simpa using hempty.symm
  subst hnil
  refine ⟨rfl, h.sums, fun _ => ⟨o, List.mem_cons_self, rfl, rfl⟩⟩

theorem accumulate (h : Tracks os fr) (hprimed : fr.obsPrimed = true)
    (hord : ∀ p ∈ os, NoEarlier p o) : Tracks (os ++ [o]) (fr.accumulate o) := by
  have hne : os ≠ [] := by
    rintro rfl
    have hempty := h.primed
    rw [hprimed] at hempty
    cases hempty
  rcases h.origin hprimed with ⟨p, hp, hhost, hdev⟩
  have hx := Freerun.x_eq (hhost ▸ (hord p hp).2)
  have hy := Freerun.y_eq (hdev ▸ (hord p hp).1)
  have hprimed' : fr.obsPrimed = !(os ++ [o]).isEmpty := by
    rw [hprimed]
    simp
  unfold Freerun.accumulate
  by_cases hshift : shiftS < fr.x o
  . rw [if_pos hshift]
    refine ⟨hprimed', ?_, fun _ => ⟨o, by simp, rfl, rfl⟩⟩
    dsimp only [Freerun.shift]
    rw [points_append _ _ hne, h.sums, hx, hy, ← sums_points]
    dsimp only [WeightedFit.sums, point]
    rw [sub_self, sub_self, zero_div]
  . rw [if_neg hshift]
    refine ⟨hprimed', ?_, fun _ => ⟨p, List.mem_append_left _ hp, hhost, hdev⟩⟩
    dsimp only
    rw [points_append _ _ hne, h.sums, hx, hy]
    rfl

theorem retarget (h : Tracks os fr) : Tracks os fr.retarget := by
  rcases fr.retarget_frame with ⟨hprimed, hs, hhost, hts⟩
  refine ⟨?_, ?_, ?_⟩
  . rw [hprimed]
    exact h.primed
  . rw [hs, hhost, hts]
    exact h.sums
  . rw [hprimed, hhost, hts]
    exact h.origin

theorem observe (h : Tracks os fr) (hord : ∀ p ∈ os, NoEarlier p o)
    : Tracks (os ++ [o]) (fr.observe o) := by
  unfold Freerun.observe
  cases hprimed : fr.obsPrimed with
  | true => exact (h.accumulate hprimed hord).retarget
  | false => exact h.prime hprimed

theorem run (hostRate devRate : ℚ) (os : List Observation) (hord : os.Pairwise NoEarlier)
    : Tracks os (os.foldl Freerun.observe (Freerun.new hostRate devRate)) := by
  induction os using List.reverseRecOn with
  | nil => exact new hostRate devRate
  | append_singleton os o ih =>
    rw [List.foldl_append, List.foldl_cons, List.foldl_nil]
    rcases List.pairwise_append.mp hord with ⟨hearlier, -, hlast⟩
    exact (ih hearlier).observe (fun p hp => hlast p hp o List.mem_cons_self)

end Tracks

theorem slope?_eq_some_iff (fr : Freerun) (b : ℚ)
    : fr.slope? = some b ↔ 0 < fr.s.denom ∧ b = fr.s.slope := by
  unfold Freerun.slope?
  by_cases h : fr.s.denom ≤ 0
  . rw [if_pos h]
    simp [h]
  . rw [if_neg h, Option.some_inj]
    exact ⟨fun heq => ⟨lt_of_not_ge h, heq.symm⟩, fun heq => heq.2.symm⟩

theorem slope?_shift (fr : Freerun) (o : Observation) : (fr.shift o).slope? = fr.slope? := by
  unfold Freerun.slope? Freerun.shift
  dsimp only
  rw [Sums.denom_shift, Sums.slope_shift]

theorem forget_pos : 0 < forget := by
  unfold forget
  norm_num

/--
After every observation there is a slope if and only if the weighted line about any one origin has
one, and it is the same; a new origin does not change it.
-/
theorem slope?_run (hostRate devRate : ℚ) (os : List Observation) (hord : os.Pairwise NoEarlier)
    : let fr := os.foldl Freerun.observe (Freerun.new hostRate devRate)
      (∀ (host0 ts0 b : ℚ), fr.slope? = some b ↔ IsSlope forget (points host0 ts0 os) b)
        ∧ (∀ o, (fr.shift o).slope? = fr.slope?)
        ∧ ∀ p ∈ os.tail, ∀ q ∈ os.tail, p.host ≠ q.host → 0 < fr.s.denom := by
  intro fr
  have h : Tracks os fr := Tracks.run hostRate devRate os hord
  refine ⟨?_, slope?_shift fr, ?_⟩
  . intro host0 ts0 b
    rw [slope?_eq_some_iff, isSlope_iff forget_pos, h.sums,
      sums_points host0 ts0 (fr.host0.toNat : ℚ) (fr.ts0.toNat : ℚ), Sums.denom_shift,
      Sums.slope_shift]
  . intro p hp q hq hne
    have hpoint : ∀ r ∈ os.tail, point 0 0 r ∈ points 0 0 os := by
      intro r hr
      exact List.mem_map_of_mem (List.mem_reverse.mpr hr)
    rw [h.sums, sums_points 0 0, Sums.denom_shift]
    apply denom_pos forget_pos (hpoint p hp) (hpoint q hq)
    intro heq
    apply hne
    unfold point at heq
    dsimp only at heq
    rw [sub_zero, sub_zero, div_left_inj' (by norm_num), Nat.cast_inj] at heq
    exact UInt64.toNat_inj.mp heq

-- The third observation is past eight seconds and moves the origin.
def moved : List Observation :=
  [⟨0, 0⟩, ⟨48000, 1000000000⟩, ⟨480000, 10000000000⟩, ⟨528000, 11000000000⟩]

theorem slope?_run_moved
    : (moved.foldl Freerun.observe (Freerun.new 44100 48000)).host0 = 10000000000
        ∧ IsSlope forget (points 0 0 moved) 48000 := by
  have hord : moved.Pairwise NoEarlier := by decide
  have h := slope?_run 44100 48000 moved hord
  exact ⟨by decide +kernel, (h.1 0 0 48000).mp (by decide +kernel)⟩

end Harp.ClockFit
