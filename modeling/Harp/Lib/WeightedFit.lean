import Mathlib.Algebra.Order.Field.Basic
import Mathlib.Tactic.Ring
import Mathlib.Tactic.FieldSimp
import Mathlib.Tactic.Positivity

/-!
This module contains the line through weighted points that is fitted by least squares: the sums it
is computed from, what a new point and a new origin make of them, and that their slope is the one of
the best line. The points are listed from the newest, and one that is older by a step weighs less by
the factor `forget`.
-/

namespace WeightedFit

structure Sums (K : Type) where
  sw : K
  sx : K
  sy : K
  sxx : K
  sxy : K
  syy : K
deriving DecidableEq

namespace Sums

variable {K : Type} [Field K]

def zero : Sums K :=
  ⟨0, 0, 0, 0, 0, 0⟩

def push (forget : K) (s : Sums K) (x y : K) : Sums K where
  sw := forget * s.sw + 1
  sx := forget * s.sx + x
  sy := forget * s.sy + y
  sxx := forget * s.sxx + x * x
  sxy := forget * s.sxy + x * y
  syy := forget * s.syy + y * y

-- The sums about an origin that is further by `dx` and `dy`.
def shift (s : Sums K) (dx dy : K) : Sums K where
  sw := s.sw
  sx := s.sx - s.sw * dx
  sy := s.sy - s.sw * dy
  sxx := s.sxx + (-2 * dx * s.sx + s.sw * dx * dx)
  sxy := s.sxy + (-dx * s.sy - dy * s.sx + s.sw * dx * dy)
  syy := s.syy + (-2 * dy * s.sy + s.sw * dy * dy)

def denom (s : Sums K) : K :=
  s.sw * s.sxx - s.sx * s.sx

def num (s : Sums K) : K :=
  s.sw * s.sxy - s.sx * s.sy

def slope (s : Sums K) : K :=
  s.num / s.denom

def icpt (s : Sums K) : K :=
  (s.sy - s.slope * s.sx) / s.sw

theorem shift_push (forget : K) (s : Sums K) (x y dx dy : K)
    : (s.push forget x y).shift dx dy = (s.shift dx dy).push forget (x - dx) (y - dy) := by
  unfold push shift
  congr 1 <;> ring

theorem shift_zero (dx dy : K) : (zero : Sums K).shift dx dy = zero := by
  unfold shift zero
  congr 1 <;> ring

@[simp]
theorem denom_shift (s : Sums K) (dx dy : K) : (s.shift dx dy).denom = s.denom := by
  unfold denom shift
  ring

@[simp]
theorem num_shift (s : Sums K) (dx dy : K) : (s.shift dx dy).num = s.num := by
  unfold num shift
  ring

@[simp]
theorem slope_shift (s : Sums K) (dx dy : K) : (s.shift dx dy).slope = s.slope := by
  unfold slope
  rw [num_shift, denom_shift]

end Sums

section

variable {K : Type} [Field K]

def sums (forget : K) : List (K × K) → Sums K
  | [] => Sums.zero
  | p :: ps => (sums forget ps).push forget p.1 p.2

def weighted (forget : K) (f : K × K → K) (ps : List (K × K)) : K :=
  (ps.mapIdx (fun age p => forget ^ age * f p)).sum

-- What the points are off the line through `a` with slope `b`, squared.
def sse (forget : K) (ps : List (K × K)) (a b : K) : K :=
  weighted forget (fun p => (p.2 - (a + b * p.1)) ^ 2) ps

theorem weighted_cons (forget : K) (f : K × K → K) (p : K × K) (ps : List (K × K))
    : weighted forget f (p :: ps) = forget * weighted forget f ps + f p := by
  have hage : ∀ (l : List (K × K)) (g : Nat → K × K → K),
      (l.mapIdx (fun age p => forget * g age p)).sum = forget * (l.mapIdx g).sum := by
    intro l
    induction l with
    | nil => intro g; simp
    | cons q l ih =>
      intro g
      rw [List.mapIdx_cons, List.mapIdx_cons, List.sum_cons, List.sum_cons,
        ih (fun age => g (age + 1)), mul_add]
  unfold weighted
  rw [List.mapIdx_cons, List.sum_cons, pow_zero, one_mul, add_comm]
  congr 1
  rw [← hage]
  congr 2
  funext age q
  ring

theorem sums_shift (forget : K) (ps : List (K × K)) (dx dy : K)
    : sums forget (ps.map (fun p => (p.1 - dx, p.2 - dy))) = (sums forget ps).shift dx dy := by
  induction ps with
  | nil => exact (Sums.shift_zero dx dy).symm
  | cons p ps ih =>
    rw [List.map_cons, sums, sums, ih, Sums.shift_push]

theorem sse_eq (forget : K) (ps : List (K × K)) (a b : K)
    : sse forget ps a b
        = (sums forget ps).syy - 2 * a * (sums forget ps).sy - 2 * b * (sums forget ps).sxy
          + a ^ 2 * (sums forget ps).sw + 2 * a * b * (sums forget ps).sx
          + b ^ 2 * (sums forget ps).sxx := by
  unfold sse
  induction ps with
  | nil => simp [weighted, sums, Sums.zero]
  | cons p ps ih =>
    rw [weighted_cons, ih]
    dsimp only [sums, Sums.push]
    ring

-- A new point adds to the denominator what the older ones are away from it.
theorem denom_cons (forget : K) (p : K × K) (ps : List (K × K))
    : (sums forget (p :: ps)).denom
        = forget ^ 2 * (sums forget ps).denom
          + forget * weighted forget (fun q => (q.1 - p.1) ^ 2) ps := by
  have haway : weighted forget (fun q => (q.1 - p.1) ^ 2) ps
      = (sums forget ps).sxx - 2 * p.1 * (sums forget ps).sx
        + p.1 ^ 2 * (sums forget ps).sw := by
    induction ps with
    | nil => simp [weighted, sums, Sums.zero]
    | cons q ps ih =>
      rw [weighted_cons, ih]
      dsimp only [sums, Sums.push]
      ring
  rw [haway]
  dsimp only [sums, Sums.push, Sums.denom]
  ring

-- The square is completed about the line the sums have.
theorem sse_eq_add (forget : K) (ps : List (K × K)) (hsw : (sums forget ps).sw ≠ 0)
    (hdenom : (sums forget ps).denom ≠ 0) (a b : K)
    : let s := sums forget ps
      sse forget ps a b
        = sse forget ps s.icpt s.slope
          + (s.sw * (a - s.icpt + (b - s.slope) * s.sx / s.sw) ^ 2
            + (b - s.slope) ^ 2 * s.denom / s.sw) := by
  intro s
  have hslope : s.slope * s.denom = s.num := div_mul_cancel₀ s.num hdenom
  have hicpt : s.icpt * s.sw = s.sy - s.slope * s.sx := div_mul_cancel₀ _ hsw
  rw [sse_eq, sse_eq]
  change s.sw ≠ 0 at hsw
  change s.syy - 2 * a * s.sy - 2 * b * s.sxy + a ^ 2 * s.sw + 2 * a * b * s.sx + b ^ 2 * s.sxx
    = s.syy - 2 * s.icpt * s.sy - 2 * s.slope * s.sxy + s.icpt ^ 2 * s.sw
      + 2 * s.icpt * s.slope * s.sx + s.slope ^ 2 * s.sxx + _
  generalize s.icpt = a' at hicpt ⊢
  generalize s.slope = b' at hslope hicpt ⊢
  -- The normal equations, which leave the squares only.
  have hsy : s.sy = a' * s.sw + b' * s.sx := by
    rw [hicpt]
    ring
  have hsxy : s.sxy = (b' * s.denom + s.sx * s.sy) / s.sw := by
    rw [hslope]
    unfold Sums.num
    rw [sub_add_cancel, mul_div_cancel_left₀ s.sxy hsw]
  rw [hsxy, hsy]
  unfold Sums.denom
  field_simp
  ring

-- Points that are all at one place leave the slope open.
theorem sse_tilt (forget : K) (ps : List (K × K)) (x : K) (hx : ∀ p ∈ ps, p.1 = x) (a b : K)
    : sse forget ps (a - x) (b + 1) = sse forget ps a b := by
  unfold sse
  induction ps with
  | nil => rfl
  | cons p ps ih =>
    rw [weighted_cons, weighted_cons, ih (fun q hq => hx q (List.mem_cons_of_mem p hq)),
      hx p List.mem_cons_self]
    ring

end

section

variable {K : Type} [Field K] [LinearOrder K] [IsStrictOrderedRing K] {forget : K}

def Fits (forget : K) (ps : List (K × K)) (a b : K) : Prop :=
  ∀ a' b', sse forget ps a b ≤ sse forget ps a' b'

-- The slope that every best line has.
def IsSlope (forget : K) (ps : List (K × K)) (b : K) : Prop :=
  (∃ a, Fits forget ps a b) ∧ ∀ a' b', Fits forget ps a' b' → b' = b

theorem weighted_nonneg (hforget : 0 < forget) {f : K × K → K} (hf : ∀ p, 0 ≤ f p)
    (ps : List (K × K)) : 0 ≤ weighted forget f ps := by
  induction ps with
  | nil => exact le_refl 0
  | cons p ps ih =>
    rw [weighted_cons]
    exact add_nonneg (mul_nonneg hforget.le ih) (hf p)

theorem weighted_pos (hforget : 0 < forget) {f : K × K → K} (hf : ∀ p, 0 ≤ f p)
    {ps : List (K × K)} {q : K × K} (hmem : q ∈ ps) (hq : 0 < f q) : 0 < weighted forget f ps := by
  induction ps with
  | nil => cases hmem
  | cons p ps ih =>
    rw [weighted_cons]
    cases hmem with
    | head =>
      have hrest := mul_nonneg hforget.le (weighted_nonneg hforget hf ps)
      exact add_pos_of_nonneg_of_pos hrest hq
    | tail _ hmem =>
      have hrest := mul_pos hforget (ih hmem)
      exact add_pos_of_pos_of_nonneg hrest (hf p)

theorem sw_pos (hforget : 0 < forget) {ps : List (K × K)} (hne : ps ≠ [])
    : 0 < (sums forget ps).sw := by
  induction ps with
  | nil => exact absurd rfl hne
  | cons p ps ih =>
    have hrest : 0 ≤ (sums forget ps).sw := by
      cases ps with
      | nil => exact le_refl 0
      | cons q qs => exact (ih (List.cons_ne_nil q qs)).le
    exact add_pos_of_nonneg_of_pos (mul_nonneg hforget.le hrest) one_pos

theorem denom_nonneg (hforget : 0 < forget) (ps : List (K × K))
    : 0 ≤ (sums forget ps).denom := by
  induction ps with
  | nil => simp [sums, Sums.zero, Sums.denom]
  | cons p ps ih =>
    rw [denom_cons]
    have haway : 0 ≤ weighted forget (fun q => (q.1 - p.1) ^ 2) ps :=
      weighted_nonneg hforget (fun q => sq_nonneg (q.1 - p.1)) ps
    exact add_nonneg (mul_nonneg (sq_nonneg forget) ih) (mul_nonneg hforget.le haway)

theorem denom_pos (hforget : 0 < forget) {ps : List (K × K)} {p q : K × K} (hp : p ∈ ps)
    (hq : q ∈ ps) (hne : p.1 ≠ q.1) : 0 < (sums forget ps).denom := by
  induction ps with
  | nil => cases hp
  | cons r ps ih =>
    rw [denom_cons]
    have hnonneg : ∀ t : K × K, 0 ≤ (t.1 - r.1) ^ 2 := fun t => sq_nonneg (t.1 - r.1)
    have holder := mul_nonneg (sq_nonneg forget) (denom_nonneg hforget ps)
    cases hp with
    | head =>
      cases hq with
      | head => exact absurd rfl hne
      | tail _ hq =>
        have haway : 0 < (q.1 - p.1) ^ 2 := sq_pos_of_ne_zero (sub_ne_zero.mpr hne.symm)
        exact add_pos_of_nonneg_of_pos holder
          (mul_pos hforget (weighted_pos hforget hnonneg hq haway))
    | tail _ hp =>
      cases hq with
      | head =>
        have haway : 0 < (p.1 - q.1) ^ 2 := sq_pos_of_ne_zero (sub_ne_zero.mpr hne)
        exact add_pos_of_nonneg_of_pos holder
          (mul_pos hforget (weighted_pos hforget hnonneg hp haway))
      | tail _ hq =>
        have haway := mul_nonneg hforget.le (weighted_nonneg hforget hnonneg ps)
        exact add_pos_of_pos_of_nonneg (mul_pos (pow_pos hforget 2) (ih hp hq)) haway

theorem isSlope_of_denom_pos (hforget : 0 < forget) (ps : List (K × K))
    (hdenom : 0 < (sums forget ps).denom) : IsSlope forget ps (sums forget ps).slope := by
  have hne : ps ≠ [] := by
    rintro rfl
    simp [sums, Sums.zero, Sums.denom] at hdenom
  have hsw := sw_pos hforget hne
  have hadd := sse_eq_add forget ps hsw.ne' hdenom.ne'
  constructor
  . refine ⟨(sums forget ps).icpt, fun a' b' => ?_⟩
    rw [hadd a' b']
    apply le_add_of_nonneg_right
    positivity
  . intro a' b' hfits
    have hle := hfits (sums forget ps).icpt (sums forget ps).slope
    rw [hadd a' b'] at hle
    by_contra hb
    have hoff : 0 < (b' - (sums forget ps).slope) ^ 2 := sq_pos_of_ne_zero (sub_ne_zero.mpr hb)
    apply absurd hle
    rw [not_le]
    apply lt_add_of_pos_right
    apply add_pos_of_nonneg_of_pos
    . exact mul_nonneg hsw.le (sq_nonneg _)
    . exact div_pos (mul_pos hoff hdenom) hsw

theorem denom_pos_of_isSlope (hforget : 0 < forget) {ps : List (K × K)} {b : K}
    (h : IsSlope forget ps b) : 0 < (sums forget ps).denom := by
  rcases h with ⟨⟨a, hfits⟩, hunique⟩
  by_contra hdenom
  have hplace : ∃ x, ∀ p ∈ ps, p.1 = x := by
    cases ps with
    | nil => exact ⟨0, fun p hp => by cases hp⟩
    | cons q qs =>
      refine ⟨q.1, fun p hp => ?_⟩
      by_contra hne
      exact hdenom (denom_pos hforget hp List.mem_cons_self hne)
  rcases hplace with ⟨x, hx⟩
  have htilt : Fits forget ps (a - x) (b + 1) := by
    intro a' b'
    rw [sse_tilt forget ps x hx]
    exact hfits a' b'
  exact absurd (hunique _ _ htilt) (lt_add_one b).ne'

theorem isSlope_iff (hforget : 0 < forget) (ps : List (K × K)) (b : K)
    : IsSlope forget ps b
        ↔ 0 < (sums forget ps).denom ∧ b = (sums forget ps).slope := by
  constructor
  . intro h
    have hdenom := denom_pos_of_isSlope hforget h
    have hsums := isSlope_of_denom_pos hforget ps hdenom
    rcases h with ⟨⟨a, hfits⟩, -⟩
    exact ⟨hdenom, hsums.2 a b hfits⟩
  . rintro ⟨hdenom, rfl⟩
    exact isSlope_of_denom_pos hforget ps hdenom

end

end WeightedFit
