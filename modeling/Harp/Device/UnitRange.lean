import Harp.Device.SessionRun
import Harp.Lib.IeeeArith

/-!
This module contains the values of [0, 1]: what the clamps of `device/session.c` and
`device/state.c` make of a value, and that a ramp from one such value to another stays among them.
-/

namespace Harp

open Ieee

section Values

def InUnit (v : F32) : Prop :=
  (Fp.of false 0 0 : F32).le v = true ∧ v.le (Fp.of false 127 0) = true

instance decidableInUnit (v : F32) : Decidable (InUnit v) :=
  inferInstanceAs (Decidable (_ ∧ _))

-- The clamp of a single, as the comparisons of the source would make it.
def clampUnit (v : F32) : F32 :=
  if v.lt (Fp.of false 0 0) then
    Fp.of false 0 0
  else if (Fp.of false 127 0 : F32).lt v then
    Fp.of false 127 0
  else
    v

theorem inUnit_iff {v : F32}
    : InUnit v ↔ v.isNaN = false ∧ 0 ≤ v.key ∧ v.key ≤ 127 * 2 ^ 23 := by
  have hzero : (Fp.of false 0 0 : F32).isNaN = false := rfl
  have hone : (Fp.of false 127 0 : F32).isNaN = false := rfl
  have hkey0 : (Fp.of false 0 0 : F32).key = 0 := rfl
  have hkey1 : (Fp.of false 127 0 : F32).key = 127 * 2 ^ 23 := rfl
  unfold InUnit Fp.le
  simp only [hzero, hone, hkey0, hkey1, decide_eq_true_eq]
  cases v.isNaN <;> simp

theorem isZero_widen (v : F32) : (widen v).isZero = v.isZero := by
  have hexp := v.exp_lt
  unfold widen Fp.isZero
  split
  next h255 =>
    split <;> simp [Fp.of, h255]
  next h255 =>
    split
    next h0 =>
      split
      next hman => simp [Fp.of, h0, hman]
      next hman =>
        have hk : Nat.log2 v.man < 23 := (Nat.log2_lt hman).mpr v.man_lt
        have hne : (874 + Nat.log2 v.man) % 2 ^ 11 ≠ 0 := by omega
        simp only [Fp.of, hne, h0, hman, false_and, and_false]
    next h0 =>
      have hne : (v.exp + 896) % 2 ^ 11 ≠ 0 := by omega
      simp only [Fp.of, hne, h0, false_and]

theorem sign_widen (v : F32) : (widen v).sign = v.sign := by
  unfold widen
  repeat' split
  all_goals rfl

-- Above one as a double is above one as a single.
theorem above_widen {v : F32} (h : v.isNaN = false)
    : (1023 < (widen v).exp ∨ ((widen v).exp = 1023 ∧ 0 < (widen v).man))
        ↔ 127 * 2 ^ 23 < v.exp * 2 ^ 23 + v.man := by
  have hexp := v.exp_lt
  have hlt := v.man_lt
  unfold widen
  split
  next h255 =>
    have hman : v.man = 0 := by
      by_contra hne
      simp [Fp.isNaN, h255, hne] at h
    rw [if_pos hman]
    simp [Fp.of, h255, hman]
  next h255 =>
    split
    next h0 =>
      split
      next hman => simp [Fp.of, h0, hman]
      next hman =>
        have hk : Nat.log2 v.man < 23 := (Nat.log2_lt hman).mpr v.man_lt
        have hmod : (874 + Nat.log2 v.man) % 2 ^ 11 = 874 + Nat.log2 v.man := by omega
        simp only [Fp.of, hmod, h0]
        omega
    next h0 =>
      have hmod : (v.exp + 896) % 2 ^ 11 = v.exp + 896 := by omega
      have hman : v.man * 2 ^ 29 % 2 ^ 52 = v.man * 2 ^ 29 := by omega
      simp only [Fp.of, hmod, hman]
      omega

theorem lt_zero_iff {v : F32} (h : v.isNaN = false)
    : v.lt (Fp.of false 0 0) = true ↔ v.sign = true ∧ v.isZero = false := by
  have hzero : (Fp.of false 0 0 : F32).isNaN = false := rfl
  have hkey : (Fp.of false 0 0 : F32).key = 0 := rfl
  unfold Fp.lt
  simp only [hzero, h, hkey, decide_eq_true_eq, Bool.false_eq_true, not_false_eq_true, true_and]
  unfold Fp.key Fp.isZero
  cases v.sign with
  | true =>
    simp only [if_true, decide_eq_false_iff_not, true_and]
    omega
  | false =>
    simp only [Bool.false_eq_true, if_false, false_and, iff_false]
    omega

theorem one_lt_iff {v : F32} (h : v.isNaN = false)
    : (Fp.of false 127 0 : F32).lt v = true
        ↔ v.sign = false ∧ 127 * 2 ^ 23 < v.exp * 2 ^ 23 + v.man := by
  have hone : (Fp.of false 127 0 : F32).isNaN = false := rfl
  have hkey : (Fp.of false 127 0 : F32).key = ((127 * 2 ^ 23 : Nat) : Int) := rfl
  unfold Fp.lt
  simp only [hone, h, hkey, decide_eq_true_eq, Bool.false_eq_true, not_false_eq_true, true_and]
  unfold Fp.key
  cases v.sign with
  | true =>
    simp only [if_true, Bool.true_eq_false, false_and, iff_false]
    omega
  | false =>
    simp only [Bool.false_eq_true, if_false, true_and]
    omega

theorem narrow_zero : narrow (Fp.of false 0 0) = Fp.of false 0 0 :=
  narrow_widen (Fp.of false 0 0) rfl

theorem narrow_one : narrow (Fp.of false 1023 0) = Fp.of false 127 0 :=
  narrow_widen (Fp.of false 127 0) rfl

theorem narrow_clamp01_widen {v : F32} (h : v.isNaN = false)
    : narrow (clamp01 (widen v)) = clampUnit v := by
  unfold clamp01 clampUnit
  simp only [isNaN_widen, h, isZero_widen, sign_widen, above_widen h, lt_zero_iff h, one_lt_iff h,
    Bool.false_eq_true, if_false, Bool.not_eq_true]
  split
  . exact narrow_zero
  . split
    . exact narrow_one
    . exact narrow_widen v h

theorem inUnit_of_bits {sign : Bool} {n : Nat} (hn : n ≤ 127 * 2 ^ 23) (hsign : sign = true → n = 0)
    : InUnit (Fp.of sign (n / 2 ^ 23) n) := by
  have hfin : (Fp.of sign (n / 2 ^ 23) n : F32).Finite := by
    unfold Fp.Finite Fp.of
    dsimp only
    omega
  have hkey : (Fp.of sign (n / 2 ^ 23) n : F32).key = if sign then -(n : ℤ) else n :=
    Fp.key_of (by omega)
  rw [inUnit_iff, hkey]
  refine ⟨hfin.isNaN, ?_⟩
  cases sign with
  | true =>
    rw [hsign rfl]
    simp
  | false =>
    simp only [Bool.false_eq_true, if_false]
    omega

-- A double of [0, 1] is rounded to a single of [0, 1].
theorem inUnit_narrow {v : F64} (hsign : v.sign = true → v.isZero = true)
    (hone : v.exp < 1023 ∨ (v.exp = 1023 ∧ v.man = 0)) : InUnit (narrow v) := by
  by_cases hbelow : v.exp ≤ 896
  . rcases narrow_below hbelow with ⟨m, hm, hzero, heq⟩
    rw [heq]
    apply inUnit_of_bits
    . omega
    . intro hs
      exact hzero (hsign hs)
  . rcases narrow_within (show 896 < v.exp by omega) (by omega) with ⟨r, hr, hzero, heq⟩
    have hpos : v.sign = false := by
      by_contra hs
      have := hsign (by simpa using hs)
      unfold Fp.isZero at this
      rw [decide_eq_true_eq] at this
      omega
    rw [heq, hpos]
    apply inUnit_of_bits
    . rcases hone with hlt | ⟨heq, hman⟩
      . omega
      . have := hzero hman
        omega
    . intro hs
      cases hs

theorem inUnit_clamp01 {v : F64} (h : v.isNaN = false) : InUnit (narrow (clamp01 v)) := by
  unfold clamp01
  rw [h, if_neg Bool.false_ne_true]
  split
  . rw [narrow_zero]
    decide
  next hneg =>
    split
    . rw [narrow_one]
      decide
    next habove =>
      cases hs : v.sign with
      | true =>
        have hzero : v.isZero = true := by
          by_contra hz
          exact hneg ⟨hs, hz⟩
        apply inUnit_narrow
        . intro _
          exact hzero
        . unfold Fp.isZero at hzero
          rw [decide_eq_true_eq] at hzero
          omega
      | false =>
        rw [hs] at habove
        apply inUnit_narrow
        . intro htrue
          rw [hs] at htrue
          cases htrue
        . simp only [Bool.false_eq_true, not_false_eq_true, true_and] at habove
          omega

theorem isNaN_clamp01 {v : F64} (h : v.isNaN = true) : clamp01 v = v := by
  unfold clamp01
  rw [if_pos h]

end Values

section Line

-- What `ramps_advance` stores between the two ends of a ramp.
def Ramp.line (r : Ramp) (pos : Nat) : F32 :=
  let t : F32 := (Fp.ofNat (pos - r.start)).div (Fp.ofNat (r.stop - r.start))
  r.startVal.add ((r.target.sub r.startVal).mul t)

theorem mag_one : mag 23 (127 * 2 ^ 23) = 2 ^ 149 := by
  decide

theorem bitsNum_one : bitsNum 23 (127 * 2 ^ 23) = 2 ^ 149 := by
  rw [bitsNum_of_nonneg (by omega)]
  have h : mag 23 (127 * 2 ^ 23 : ℤ).toNat = 2 ^ 149 := mag_one
  rw [h]
  norm_num

theorem unit_single : Fp.unit 8 23 = 2 ^ 149 := by
  unfold Fp.unit
  norm_num

-- The values of the unit interval, counted in the smallest single.
theorem InUnit.num {v : F32} (h : InUnit v) : v.Finite ∧ 0 ≤ v.num ∧ v.num ≤ 2 ^ 149 := by
  rw [inUnit_iff] at h
  rcases h with ⟨hnan, hlo, hhi⟩
  refine ⟨?_, bitsNum_nonneg hlo, ?_⟩
  . have hlt := v.man_lt
    unfold Fp.Finite
    unfold Fp.key at hlo hhi
    cases hsign : v.sign with
    | true =>
      simp only [hsign, if_true] at hlo
      omega
    | false =>
      simp only [hsign, Bool.false_eq_true, if_false] at hhi
      omega
  . rw [← bitsNum_one]
    exact bitsNum_mono hhi

theorem inUnit_of_key {v : F32} (hfin : v.Finite) (hlo : 0 ≤ v.key) (hhi : v.key ≤ 127 * 2 ^ 23)
    : InUnit v :=
  inUnit_iff.mpr ⟨hfin.isNaN, hlo, hhi⟩

-- A result of at most one in size.
theorem round_within (zeroSign : Bool) {q : ℚ} (h : |q| ≤ 2 ^ 149)
    : (Fp.round zeroSign q : F32).num = bitsNum 23 (roundKey 23 q)
        ∧ (Fp.round zeroSign q : F32).key = roundKey 23 q
        ∧ (Fp.round zeroSign q : F32).Finite := by
  have hmag : |q| ≤ mag 23 (127 * 2 ^ 23) := by
    rw [mag_one]
    push_cast
    exact h
  have hkey : (Fp.round zeroSign q : F32).key = roundKey 23 q
      ∧ (Fp.round zeroSign q : F32).Finite :=
    Fp.key_round hmag (by norm_num)
  refine ⟨?_, hkey.1, hkey.2⟩
  unfold Fp.num
  rw [hkey.1]

theorem ofNat_single {n : Nat} (h : n < 2 ^ 64)
    : (Fp.ofNat n : F32).Finite ∧ (Fp.ofNat n : F32).key = roundBits 23 (n * 2 ^ 149) := by
  have hnonneg : (0 : ℚ) ≤ n * 2 ^ 149 := by positivity
  have hmag : |(n * 2 ^ 149 : ℚ)| ≤ mag 23 (191 * 2 ^ 23) := by
    have heq : mag 23 (191 * 2 ^ 23) = 2 ^ 213 := by decide
    have hlt : (n : ℚ) ≤ ((2 ^ 64 : ℕ) : ℚ) := Nat.cast_le.mpr h.le
    rw [abs_of_nonneg hnonneg, heq]
    push_cast at hlt ⊢
    calc (n * 2 ^ 149 : ℚ) ≤ 2 ^ 64 * 2 ^ 149 := by
          apply mul_le_mul_of_nonneg_right hlt
          positivity
      _ = 2 ^ 213 := by norm_num
  have hkey : (Fp.round false (n * 2 ^ 149 : ℚ) : F32).key = roundKey 23 (n * 2 ^ 149)
      ∧ (Fp.round false (n * 2 ^ 149 : ℚ) : F32).Finite :=
    Fp.key_round hmag (by norm_num)
  unfold Fp.ofNat
  rw [unit_single]
  refine ⟨hkey.2, ?_⟩
  rw [hkey.1]
  unfold roundKey
  rw [if_neg (by linarith)]

-- The fraction of the way a ramp has gone.
theorem fraction_within {a b : Nat} (hle : a ≤ b) (hpos : 0 < b) (hlt : b < 2 ^ 64)
    : ((Fp.ofNat a : F32).div (Fp.ofNat b)).Finite
        ∧ 0 ≤ ((Fp.ofNat a : F32).div (Fp.ofNat b)).num
        ∧ ((Fp.ofNat a : F32).div (Fp.ofNat b)).num ≤ 2 ^ 149 := by
  rcases ofNat_single (Nat.lt_of_le_of_lt hle hlt) with ⟨hfina, hkeya⟩
  rcases ofNat_single hlt with ⟨hfinb, hkeyb⟩
  have hone : (127 * 2 ^ 23 : ℕ) ≤ roundBits 23 (b * 2 ^ 149) := by
    apply le_roundBits
    have hb : ((1 : ℕ) : ℚ) ≤ b := Nat.cast_le.mpr hpos
    rw [mag_one]
    push_cast at hb ⊢
    linarith
  have hmono : roundBits 23 (a * 2 ^ 149) ≤ roundBits 23 (b * 2 ^ 149) := by
    apply roundBits_mono
    . positivity
    . have hab : (a : ℚ) ≤ b := Nat.cast_le.mpr hle
      linarith
  have hnuma : 0 ≤ (Fp.ofNat a : F32).num := bitsNum_nonneg (by omega)
  have hnumle : (Fp.ofNat a : F32).num ≤ (Fp.ofNat b : F32).num := bitsNum_mono (by omega)
  have hnumb : 2 ^ 149 ≤ (Fp.ofNat b : F32).num := by
    rw [← bitsNum_one]
    exact bitsNum_mono (by omega)
  have hzero : (Fp.ofNat b : F32).isZero = false := by
    unfold Fp.key at hkeyb
    unfold Fp.isZero
    rw [decide_eq_false_iff_not]
    split at hkeyb <;> omega
  have hunit : (0 : ℚ) < 2 ^ 149 := by positivity
  have hquot : 0 ≤ (Fp.ofNat a : F32).num * 2 ^ 149 / (Fp.ofNat b : F32).num
      ∧ (Fp.ofNat a : F32).num * 2 ^ 149 / (Fp.ofNat b : F32).num ≤ 2 ^ 149 := by
    apply And.intro
    . exact div_nonneg (mul_nonneg hnuma hunit.le) (by linarith)
    . rw [div_le_iff₀ (by linarith), mul_comm]
      exact mul_le_mul_of_nonneg_left hnumle hunit.le
  rw [Fp.div_of_finite hfina hfinb hzero, unit_single]
  rcases round_within _ (abs_le.mpr ⟨by linarith, hquot.2⟩) with ⟨hnum, hkey, hfin⟩
  refine ⟨hfin, ?_, ?_⟩
  . rw [hnum]
    exact bitsNum_nonneg (roundKey_nonneg hquot.1)
  . rw [hnum, ← bitsNum_one]
    apply bitsNum_mono
    apply roundKey_le
    rw [bitsNum_one]
    exact hquot.2

theorem excess_le {q : ℚ} (h : q ≤ 2 ^ 149) : excess 23 q ≤ 126 := by
  have hmono := excess_mono (w := 23) h
  have hfloor : ⌊((2 : ℚ) ^ 149)⌋₊ = 2 ^ 149 := by
    have hcast : (2 : ℚ) ^ 149 = ((2 ^ 149 : ℕ) : ℚ) := by norm_num
    rw [hcast, Nat.floor_natCast]
  have htop : excess 23 ((2 : ℚ) ^ 149) = 126 := by
    unfold excess
    rw [hfloor, Nat.log2_two_pow]
  omega

theorem round_up_le {q : ℚ} (h0 : 0 ≤ q) (h : q ≤ 2 ^ 149)
    : bitsNum 23 (roundKey 23 q) ≤ q + 2 ^ 125 := by
  have hkey : roundKey 23 q = (roundBits 23 q : ℤ) := by
    unfold roundKey
    rw [if_neg (by linarith)]
  have hle := excess_le h
  generalize hex : excess 23 q = e at hle
  have hnear := nearest_le_add_half (q := q / 2 ^ e) (by positivity)
  have hpow : (2 : ℚ) ^ e ≤ 2 ^ 126 := pow_le_pow_right₀ (by norm_num) hle
  rw [hkey, bitsNum_of_nonneg (by omega), Int.toNat_natCast, mag_roundBits h0, hex]
  push_cast
  calc (nearest (q / 2 ^ e) : ℚ) * 2 ^ e ≤ (q / 2 ^ e + 1 / 2) * 2 ^ e := by
        apply mul_le_mul_of_nonneg_right hnear
        positivity
    _ = q + 2 ^ e / 2 := by field_simp
    _ ≤ q + 2 ^ 125 := by linarith

-- Half a step above one is rounded to one.
theorem roundKey_above_one {q : ℚ} (h0 : 0 ≤ q) (h : q ≤ 2 ^ 149 + 2 ^ 125)
    : roundKey 23 q ≤ 127 * 2 ^ 23 := by
  have hmono := roundBits_mono (w := 23) h0 h
  have hfloor : ⌊((2 : ℚ) ^ 149 + 2 ^ 125)⌋₊ = 2 ^ 149 + 2 ^ 125 := by
    have hcast : (2 : ℚ) ^ 149 + 2 ^ 125 = ((2 ^ 149 + 2 ^ 125 : ℕ) : ℚ) := by norm_num
    rw [hcast, Nat.floor_natCast]
  have hexcess : excess 23 ((2 : ℚ) ^ 149 + 2 ^ 125) = 126 := by
    unfold excess
    rw [hfloor]
    decide
  have hquot : ((2 : ℚ) ^ 149 + 2 ^ 125) / 2 ^ 126 = 2 ^ 23 + 1 / 2 := by norm_num
  have hnear : nearest ((2 : ℚ) ^ 23 + 1 / 2) = 2 ^ 23 := by
    unfold nearest
    have hf : ⌊((2 : ℚ) ^ 23 + 1 / 2)⌋₊ = 2 ^ 23 := by
      rw [Nat.floor_eq_iff (by positivity)]
      norm_num
    simp only [hf]
    norm_num
  have htop : roundBits 23 ((2 : ℚ) ^ 149 + 2 ^ 125) = 127 * 2 ^ 23 := by
    unfold roundBits
    rw [hexcess, hquot, hnear]
    norm_num
  rw [htop] at hmono
  unfold roundKey
  rw [if_neg (by linarith)]
  omega

theorem bitsNum_zero : bitsNum 23 0 = 0 := by
  simp [bitsNum, mag]

-- The difference of the two ends.
theorem difference_within {s g : F32} (hs : InUnit s) (hg : InUnit g)
    : (g.sub s).Finite ∧ -s.num ≤ (g.sub s).num ∧ (g.sub s).num ≤ 2 ^ 149
        ∧ s.num + max (g.sub s).num 0 ≤ 2 ^ 149 + 2 ^ 125 := by
  rcases hs.num with ⟨hfs, hs0, hs1⟩
  rcases hg.num with ⟨hfg, hg0, hg1⟩
  have habs : |g.num - s.num| ≤ 2 ^ 149 := abs_le.mpr ⟨by linarith, by linarith⟩
  rcases round_within (g.sign && !s.sign) habs with ⟨hnum, _, hfin⟩
  rw [Fp.sub_of_finite hfg hfs, hnum]
  refine ⟨hfin, ?_, ?_, ?_⟩
  . have hneg : bitsNum 23 (-s.key) = -s.num := bitsNum_neg _
    rw [← hneg]
    apply bitsNum_mono
    apply le_roundKey
    linarith
  . rw [← bitsNum_one]
    apply bitsNum_mono
    apply roundKey_le
    rw [bitsNum_one]
    linarith
  . rcases le_total 0 (g.num - s.num) with hpos | hneg
    . have hup := round_up_le hpos (by linarith)
      rw [max_eq_left (bitsNum_nonneg (roundKey_nonneg hpos))]
      linarith
    . have hle : bitsNum 23 (roundKey 23 (g.num - s.num)) ≤ bitsNum 23 0 := by
        apply bitsNum_mono
        apply roundKey_le
        rw [bitsNum_zero]
        exact hneg
      rw [bitsNum_zero] at hle
      rw [max_eq_right hle]
      linarith

-- The part of the difference that a ramp has gone.
theorem part_within {d t : F32} (hd : d.Finite) (habs : |d.num| ≤ 2 ^ 149) (ht : t.Finite)
    (ht0 : 0 ≤ t.num) (ht1 : t.num ≤ 2 ^ 149)
    : (d.mul t).Finite ∧ min d.num 0 ≤ (d.mul t).num ∧ (d.mul t).num ≤ max d.num 0 := by
  have hunit : (0 : ℚ) < 2 ^ 149 := by positivity
  have hfrac0 : 0 ≤ t.num / 2 ^ 149 := div_nonneg ht0 hunit.le
  have hfrac1 : t.num / 2 ^ 149 ≤ 1 := (div_le_one hunit).mpr ht1
  have hquot : d.num * t.num / 2 ^ 149 = d.num * (t.num / 2 ^ 149) := mul_div_assoc _ _ _
  have hbounds : min d.num 0 ≤ d.num * t.num / 2 ^ 149 ∧ d.num * t.num / 2 ^ 149 ≤ max d.num 0 := by
    rw [hquot]
    rcases le_total 0 d.num with hpos | hneg
    . rw [min_eq_right hpos, max_eq_left hpos]
      exact ⟨mul_nonneg hpos hfrac0, mul_le_of_le_one_right hpos hfrac1⟩
    . rw [min_eq_left hneg, max_eq_right hneg]
      exact ⟨le_mul_of_le_one_right hneg hfrac1, mul_nonpos_of_nonpos_of_nonneg hneg hfrac0⟩
  have hsmall : |d.num * t.num / 2 ^ 149| ≤ 2 ^ 149 := by
    have hd := abs_le.mp habs
    rw [abs_le]
    apply And.intro
    . exact le_trans (le_min hd.1 (by linarith)) hbounds.1
    . exact le_trans hbounds.2 (max_le hd.2 hunit.le)
  have hmono : Monotone (bitsNum 23) := fun _ _ h => bitsNum_mono h
  have hmin : bitsNum 23 (min d.key 0) = min d.num 0 := by
    rw [hmono.map_min, bitsNum_zero]
    rfl
  have hmax : bitsNum 23 (max d.key 0) = max d.num 0 := by
    rw [hmono.map_max, bitsNum_zero]
    rfl
  rcases round_within (d.sign ^^ t.sign) hsmall with ⟨hnum, _, hfin⟩
  rw [Fp.mul_of_finite hd ht, unit_single, hnum]
  refine ⟨hfin, ?_, ?_⟩
  . rw [← hmin]
    apply bitsNum_mono
    apply le_roundKey
    rw [hmin]
    exact hbounds.1
  . rw [← hmax]
    apply bitsNum_mono
    apply roundKey_le
    rw [hmax]
    exact hbounds.2

theorem sum_within {s m : F32} (hs : s.Finite) (hm : m.Finite) (hlo : 0 ≤ s.num + m.num)
    (hhi : s.num + m.num ≤ 2 ^ 149 + 2 ^ 125) : InUnit (s.add m) := by
  have hmag : |s.num + m.num| ≤ mag 23 (127 * 2 ^ 23 + 1) := by
    have heq : mag 23 (127 * 2 ^ 23 + 1) = 2 ^ 149 + 2 ^ 126 := by decide
    rw [abs_of_nonneg hlo, heq]
    push_cast
    linarith
  have hkey : (Fp.round (s.sign && m.sign) (s.num + m.num) : F32).key
        = roundKey 23 (s.num + m.num)
      ∧ (Fp.round (s.sign && m.sign) (s.num + m.num) : F32).Finite :=
    Fp.key_round hmag (by norm_num)
  rw [Fp.add_of_finite hs hm]
  apply inUnit_of_key hkey.2
  . rw [hkey.1]
    exact roundKey_nonneg hlo
  . rw [hkey.1]
    exact roundKey_above_one hlo hhi

theorem Ramp.line_inUnit {r : Ramp} {pos : Nat} (hstart : InUnit r.startVal)
    (htarget : InUnit r.target) (hlo : r.start < pos) (hhi : pos < r.stop) (hstop : r.stop < 2 ^ 64)
    : InUnit (r.line pos) := by
  rcases hstart.num with ⟨hfs, hs0, hs1⟩
  rcases fraction_within (show pos - r.start ≤ r.stop - r.start by omega) (by omega) (by omega)
    with ⟨hft, ht0, ht1⟩
  rcases difference_within hstart htarget with ⟨hfd, hdlo, hdhi, hdup⟩
  have habs : |(r.target.sub r.startVal).num| ≤ 2 ^ 149 := abs_le.mpr ⟨by linarith, hdhi⟩
  rcases part_within hfd habs hft ht0 ht1 with ⟨hfm, hmlo, hmhi⟩
  unfold Ramp.line
  dsimp only
  apply sum_within hfs hfm
  . have hmin : -r.startVal.num ≤ min (r.target.sub r.startVal).num 0 := le_min hdlo (by linarith)
    linarith
  . linarith

end Line

end Harp
