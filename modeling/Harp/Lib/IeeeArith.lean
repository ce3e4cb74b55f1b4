import Harp.Lib.Ieee
import Mathlib.Algebra.Order.Floor.Semiring
import Mathlib.Data.Rat.Floor
import Mathlib.Tactic.Linarith
import Mathlib.Tactic.Positivity
import Mathlib.Tactic.FieldSimp

/-!
This module contains the arithmetic of IEEE 754 binary formats: a result is the exact one, rounded
to the nearest value of the format, ties to even.

A value is counted in units of the smallest one of its format, so that the magnitude of every finite
value is a natural number.
-/

namespace Ieee

section Nearest

-- The integer nearest to a rational that is not negative.
def nearest (q : ℚ) : ℕ :=
  let f := ⌊q⌋₊
  if 1 / 2 < q - f ∨ (q - f = 1 / 2 ∧ f % 2 = 1) then f + 1 else f

theorem floor_le_nearest (q : ℚ) : ⌊q⌋₊ ≤ nearest q := by
  unfold nearest
  dsimp only
  split <;> omega

theorem nearest_le_floor (q : ℚ) : nearest q ≤ ⌊q⌋₊ + 1 := by
  unfold nearest
  dsimp only
  split <;> omega

theorem nearest_natCast (n : ℕ) : nearest (n : ℚ) = n := by
  unfold nearest
  simp only [Nat.floor_natCast, sub_self]
  norm_num

theorem nearest_mono {q q' : ℚ} (h : q ≤ q') : nearest q ≤ nearest q' := by
  have hfloor : ⌊q⌋₊ ≤ ⌊q'⌋₊ := Nat.floor_le_floor h
  rcases Nat.lt_or_eq_of_le hfloor with hlt | heq
  . calc nearest q ≤ ⌊q⌋₊ + 1 := nearest_le_floor q
      _ ≤ ⌊q'⌋₊ := hlt
      _ ≤ nearest q' := floor_le_nearest q'
  . unfold nearest
    dsimp only
    rw [heq]
    split
    next hup =>
      rw [if_pos]
      rcases hup with hup | ⟨hup, hodd⟩
      . left
        linarith
      . rcases lt_or_eq_of_le h with hlt | rfl
        . left
          linarith
        . exact .inr ⟨hup, hodd⟩
    next => split <;> omega

theorem nearest_le_add_half {q : ℚ} (h0 : 0 ≤ q) : (nearest q : ℚ) ≤ q + 1 / 2 := by
  have hfloor := Nat.floor_le h0
  unfold nearest
  dsimp only
  split
  next hup =>
    rw [Nat.cast_add, Nat.cast_one]
    rcases hup with hup | ⟨hup, _⟩ <;> linarith
  next => linarith

end Nearest

section Magnitudes

variable {w : ℕ}

-- The magnitude of the finite value with these exponent and mantissa bits.
def mag (w n : ℕ) : ℕ :=
  if n < 2 ^ w then n else (2 ^ w + n % 2 ^ w) * 2 ^ (n / 2 ^ w - 1)

-- How many low bits a rational of this size has too many.
def excess (w : ℕ) (q : ℚ) : ℕ :=
  ⌊q⌋₊.log2 - w

-- The bits of the value nearest to a rational that is not negative.
def roundBits (w : ℕ) (q : ℚ) : ℕ :=
  excess w q * 2 ^ w + nearest (q / 2 ^ excess w q)

theorem mag_shifted {s m : ℕ} (hs : s = 0 ∨ 2 ^ w ≤ m) (hm : m ≤ 2 ^ (w + 1))
    : mag w (s * 2 ^ w + m) = m * 2 ^ s := by
  have hpos := Nat.two_pow_pos w
  have hsucc : 2 ^ (w + 1) = 2 * 2 ^ w := by ring
  unfold mag
  by_cases hlow : m < 2 ^ w
  . have hs : s = 0 := by omega
    subst hs
    rw [if_pos (by omega)]
    omega
  . rw [if_neg (by nlinarith)]
    by_cases htop : m = 2 ^ (w + 1)
    . have hn : s * 2 ^ w + m = (s + 2) * 2 ^ w := by
        rw [htop]
        ring
      rw [hn, Nat.mul_mod_left, Nat.mul_div_cancel _ hpos, htop, Nat.add_zero,
        show s + 2 - 1 = s + 1 by omega]
      ring
    . have hn : s * 2 ^ w + m = (m - 2 ^ w) + (s + 1) * 2 ^ w := by
        rw [Nat.add_mul]
        omega
      rw [hn, Nat.add_mul_mod_self_right, Nat.add_mul_div_right _ _ hpos,
        Nat.mod_eq_of_lt (by omega), Nat.div_eq_of_lt (by omega),
        show 0 + (s + 1) - 1 = s by omega, show 2 ^ w + (m - 2 ^ w) = m by omega]

theorem lt_two_pow_excess {q : ℚ} : q < 2 ^ (w + 1 + excess w q) := by
  have hlt := Nat.lt_floor_add_one q
  have hlog : ⌊q⌋₊ < 2 ^ (w + 1 + excess w q) := by
    apply Nat.lt_of_lt_of_le Nat.lt_log2_self
    apply Nat.pow_le_pow_right (by omega)
    unfold excess
    omega
  have hcast : ((⌊q⌋₊ + 1 : ℕ) : ℚ) ≤ ((2 ^ (w + 1 + excess w q) : ℕ) : ℚ) :=
    Nat.cast_le.mpr hlog
  push_cast at hcast
  linarith

theorem two_pow_excess_le {q : ℚ} (h0 : 0 ≤ q) (h : excess w q ≠ 0)
    : (2 : ℚ) ^ (w + excess w q) ≤ q := by
  have hne : ⌊q⌋₊ ≠ 0 := by
    intro hzero
    unfold excess at h
    rw [hzero] at h
    exact h (by simp)
  have hlog : 2 ^ (w + excess w q) ≤ ⌊q⌋₊ := by
    apply Nat.le_trans _ (Nat.log2_self_le hne)
    apply Nat.pow_le_pow_right (by omega)
    unfold excess at h ⊢
    omega
  have hcast : ((2 ^ (w + excess w q) : ℕ) : ℚ) ≤ (⌊q⌋₊ : ℚ) := Nat.cast_le.mpr hlog
  push_cast at hcast
  exact hcast.trans (Nat.floor_le h0)

theorem excess_mono {q q' : ℚ} (h : q ≤ q') : excess w q ≤ excess w q' := by
  have hlog : ⌊q⌋₊.log2 ≤ ⌊q'⌋₊.log2 := by
    rw [Nat.log2_eq_log_two, Nat.log2_eq_log_two]
    exact Nat.log_mono_right (Nat.floor_le_floor h)
  unfold excess
  omega

theorem nearest_excess_le {q : ℚ} : nearest (q / 2 ^ excess w q) ≤ 2 ^ (w + 1) := by
  have hlt : q / 2 ^ excess w q < ((2 ^ (w + 1) : ℕ) : ℚ) := by
    rw [div_lt_iff₀ (by positivity)]
    have := lt_two_pow_excess (w := w) (q := q)
    push_cast
    rwa [← pow_add]
  have hfloor : ⌊q / 2 ^ excess w q⌋₊ < 2 ^ (w + 1) :=
    (Nat.floor_lt' (Nat.two_pow_pos _).ne').mpr hlt
  exact Nat.le_trans (nearest_le_floor _) hfloor

theorem le_nearest_excess {q : ℚ} (h0 : 0 ≤ q) (h : excess w q ≠ 0)
    : 2 ^ w ≤ nearest (q / 2 ^ excess w q) := by
  have hle : ((2 ^ w : ℕ) : ℚ) ≤ q / 2 ^ excess w q := by
    rw [le_div_iff₀ (by positivity)]
    have := two_pow_excess_le h0 h
    push_cast
    rwa [← pow_add]
  exact Nat.le_trans (Nat.le_floor hle) (floor_le_nearest _)

theorem roundBits_mono {q q' : ℚ} (h0 : 0 ≤ q) (h : q ≤ q') : roundBits w q ≤ roundBits w q' := by
  have hexcess := excess_mono (w := w) h
  unfold roundBits
  rcases Nat.lt_or_eq_of_le hexcess with hlt | heq
  . have hlo := nearest_excess_le (w := w) (q := q)
    have hhi := le_nearest_excess (w := w) (h0.trans h) (by omega)
    have hstep : (excess w q + 1) * 2 ^ w ≤ excess w q' * 2 ^ w := Nat.mul_le_mul_right _ hlt
    rw [Nat.pow_succ] at hlo
    rw [Nat.add_mul] at hstep
    omega
  . rw [heq]
    apply Nat.add_le_add_left
    apply nearest_mono
    exact div_le_div_of_nonneg_right h (by positivity)

theorem mag_roundBits {q : ℚ} (h0 : 0 ≤ q)
    : mag w (roundBits w q) = nearest (q / 2 ^ excess w q) * 2 ^ excess w q := by
  unfold roundBits
  apply mag_shifted
  . by_cases h : excess w q = 0
    . exact .inl h
    . exact .inr (le_nearest_excess h0 h)
  . exact nearest_excess_le

theorem roundBits_mag (n : ℕ) : roundBits w (mag w n) = n := by
  have hpos := Nat.two_pow_pos w
  unfold roundBits excess
  rw [Nat.floor_natCast]
  unfold mag
  split
  next hlt =>
    have hlog : n.log2 - w = 0 := by
      by_cases hn : n = 0
      . rw [hn]
        simp
      . have := (Nat.log2_lt hn).mpr hlt
        omega
    rw [hlog]
    simp only [Nat.zero_mul, pow_zero, div_one, Nat.zero_add]
    exact nearest_natCast n
  next hge =>
    have hmod := Nat.mod_lt n hpos
    have hdiv : 1 ≤ n / 2 ^ w := (Nat.one_le_div_iff hpos).mpr (by omega)
    have hlog : ((2 ^ w + n % 2 ^ w) * 2 ^ (n / 2 ^ w - 1)).log2 = w + (n / 2 ^ w - 1) := by
      rw [Nat.log2_eq_iff (by positivity)]
      rw [Nat.pow_add, show w + (n / 2 ^ w - 1) + 1 = (w + 1) + (n / 2 ^ w - 1) by omega,
        Nat.pow_add 2 (w + 1), Nat.pow_succ]
      apply And.intro
      . apply Nat.mul_le_mul_right
        omega
      . apply Nat.mul_lt_mul_of_pos_right _ (Nat.two_pow_pos _)
        omega
    rw [hlog, show w + (n / 2 ^ w - 1) - w = n / 2 ^ w - 1 by omega]
    have hquot : (((2 ^ w + n % 2 ^ w) * 2 ^ (n / 2 ^ w - 1) : ℕ) : ℚ) / 2 ^ (n / 2 ^ w - 1)
        = ((2 ^ w + n % 2 ^ w : ℕ) : ℚ) := by
      rw [Nat.cast_mul, Nat.cast_pow, Nat.cast_ofNat]
      field_simp
    rw [hquot, nearest_natCast]
    have hsplit := Nat.div_add_mod n (2 ^ w)
    have hcomm : n / 2 ^ w * 2 ^ w = 2 ^ w * (n / 2 ^ w) := Nat.mul_comm _ _
    rw [Nat.sub_mul]
    have hle : 1 * 2 ^ w ≤ n / 2 ^ w * 2 ^ w := Nat.mul_le_mul_right _ hdiv
    omega

theorem roundBits_le {q : ℚ} {n : ℕ} (h0 : 0 ≤ q) (h : q ≤ mag w n) : roundBits w q ≤ n := by
  have := roundBits_mono (w := w) h0 h
  rwa [roundBits_mag] at this

theorem le_roundBits {q : ℚ} {n : ℕ} (h : (mag w n : ℚ) ≤ q) : n ≤ roundBits w q := by
  have := roundBits_mono (w := w) (Nat.cast_nonneg _) h
  rwa [roundBits_mag] at this

theorem mag_mono {n n' : ℕ} (h : n ≤ n') : mag w n ≤ mag w n' := by
  by_contra hlt
  have hle : ((mag w n' : ℕ) : ℚ) ≤ mag w n := Nat.cast_le.mpr (by omega)
  have := le_roundBits hle
  rw [roundBits_mag] at this
  have heq : n = n' := by omega
  rw [heq] at hlt
  omega

end Magnitudes

section Arithmetic

variable {eb w : ℕ}

-- The bits of a magnitude, and the value it stands for, with the sign.
def bitsNum (w : ℕ) (k : ℤ) : ℚ :=
  if k < 0 then -(mag w k.natAbs : ℚ) else mag w k.natAbs

def roundKey (w : ℕ) (q : ℚ) : ℤ :=
  if q < 0 then -(roundBits w (-q) : ℤ) else roundBits w q

theorem bitsNum_neg (k : ℤ) : bitsNum w (-k) = -bitsNum w k := by
  unfold bitsNum
  rw [Int.natAbs_neg]
  rcases lt_trichotomy k 0 with h | h | h
  . rw [if_neg (by omega), if_pos h, neg_neg]
  . subst h
    simp [mag]
  . rw [if_pos (by omega), if_neg (by omega)]

theorem bitsNum_of_nonneg {k : ℤ} (h : 0 ≤ k) : bitsNum w k = mag w k.toNat := by
  unfold bitsNum
  rw [if_neg (by omega)]
  congr 2
  omega

theorem bitsNum_nonneg {k : ℤ} (h : 0 ≤ k) : 0 ≤ bitsNum w k := by
  rw [bitsNum_of_nonneg h]
  exact Nat.cast_nonneg _

theorem bitsNum_mono {k k' : ℤ} (h : k ≤ k') : bitsNum w k ≤ bitsNum w k' := by
  by_cases hk : 0 ≤ k
  . rw [bitsNum_of_nonneg hk, bitsNum_of_nonneg (hk.trans h)]
    exact Nat.cast_le.mpr (mag_mono (by omega))
  . have hneg : bitsNum w k = -bitsNum w (-k) := by
      rw [bitsNum_neg, neg_neg]
    by_cases hk' : 0 ≤ k'
    . have hlo := bitsNum_nonneg (w := w) (show 0 ≤ -k by omega)
      have hhi := bitsNum_nonneg (w := w) hk'
      linarith
    . have hneg' : bitsNum w k' = -bitsNum w (-k') := by
        rw [bitsNum_neg, neg_neg]
      rw [hneg, hneg', bitsNum_of_nonneg (show 0 ≤ -k by omega),
        bitsNum_of_nonneg (show 0 ≤ -k' by omega)]
      apply neg_le_neg
      exact Nat.cast_le.mpr (mag_mono (by omega))

theorem roundKey_nonneg {q : ℚ} (h : 0 ≤ q) : 0 ≤ roundKey w q := by
  unfold roundKey
  rw [if_neg (by linarith)]
  omega

theorem roundKey_le {q : ℚ} {k : ℤ} (h : q ≤ bitsNum w k) : roundKey w q ≤ k := by
  unfold roundKey
  split
  next hneg =>
    by_cases hk : 0 ≤ k
    . omega
    . have hle : (mag w (-k).toNat : ℚ) ≤ -q := by
        rw [← bitsNum_of_nonneg (show 0 ≤ -k by omega), bitsNum_neg]
        linarith
      have := le_roundBits hle
      omega
  next hpos =>
    have hk : 0 ≤ k := by
      by_contra hk
      have := bitsNum_nonneg (w := w) (show 0 ≤ -k by omega)
      rw [bitsNum_neg] at this
      have hzero : q = 0 := by linarith
      have hnum : bitsNum w k = 0 := by linarith
      have hone := bitsNum_mono (w := w) (show k ≤ -1 by omega)
      rw [bitsNum_neg, bitsNum_of_nonneg (show (0 : ℤ) ≤ 1 by omega)] at hone
      have hmag : 1 ≤ mag w (1 : ℤ).toNat := by
        unfold mag
        split
        . exact Nat.le_refl 1
        . exact Nat.one_le_iff_ne_zero.mpr (by positivity)
      have : (1 : ℚ) ≤ (mag w (1 : ℤ).toNat : ℕ) := by exact_mod_cast hmag
      linarith
    rw [bitsNum_of_nonneg hk] at h
    have := roundBits_le (by linarith) h
    omega

theorem roundBits_zero : roundBits w 0 = 0 := by
  have h := roundBits_mag (w := w) 0
  have hmag : mag w 0 = 0 := if_pos (Nat.two_pow_pos w)
  rwa [hmag, Nat.cast_zero] at h

theorem roundKey_neg (q : ℚ) : roundKey w (-q) = -roundKey w q := by
  unfold roundKey
  rcases lt_trichotomy q 0 with h | rfl | h
  . rw [if_neg (by linarith), if_pos h, neg_neg]
  . simp [roundBits_zero]
  . rw [if_pos (by linarith), if_neg (by linarith), neg_neg]

theorem le_roundKey {q : ℚ} {k : ℤ} (h : bitsNum w k ≤ q) : k ≤ roundKey w q := by
  have hneg : -q ≤ bitsNum w (-k) := by
    rw [bitsNum_neg]
    linarith
  have hle := roundKey_le hneg
  rw [roundKey_neg] at hle
  omega

namespace Fp

-- One, in units of the smallest value.
def unit (eb w : ℕ) : ℚ :=
  2 ^ (2 ^ (eb - 1) - 2 + w)

def num (x : Fp eb w) : ℚ :=
  bitsNum w x.key

def Finite (x : Fp eb w) : Prop :=
  x.exp < 2 ^ eb - 1

def quiet : Fp eb w :=
  of false (2 ^ eb - 1) (2 ^ (w - 1))

def inf (sign : Bool) : Fp eb w :=
  of sign (2 ^ eb - 1) 0

def neg (x : Fp eb w) : Fp eb w :=
  { x with sign := !x.sign }

-- An exact zero has the sign the operation gives it.
def round (zeroSign : Bool) (q : ℚ) : Fp eb w :=
  let sign := if q = 0 then zeroSign else q < 0
  let n := roundBits w |q|
  if n < (2 ^ eb - 1) * 2 ^ w then of sign (n / 2 ^ w) n else inf sign

def add (x y : Fp eb w) : Fp eb w :=
  if x.isNaN ∨ y.isNaN then
    quiet
  else if x.isInf then
    if y.isInf ∧ x.sign ≠ y.sign then quiet else x
  else if y.isInf then
    y
  else
    round (x.sign && y.sign) (x.num + y.num)

def sub (x y : Fp eb w) : Fp eb w :=
  x.add y.neg

def mul (x y : Fp eb w) : Fp eb w :=
  let sign := x.sign ^^ y.sign
  if x.isNaN ∨ y.isNaN then
    quiet
  else if x.isInf ∨ y.isInf then
    if x.isZero ∨ y.isZero then quiet else inf sign
  else
    round sign (x.num * y.num / unit eb w)

def div (x y : Fp eb w) : Fp eb w :=
  let sign := x.sign ^^ y.sign
  if x.isNaN ∨ y.isNaN then
    quiet
  else if x.isInf then
    if y.isInf then quiet else inf sign
  else if y.isInf then
    of sign 0 0
  else if y.isZero then
    if x.isZero then quiet else inf sign
  else
    round sign (x.num * unit eb w / y.num)

def ofNat (n : ℕ) : Fp eb w :=
  round false (n * unit eb w)

theorem Finite.isNaN {x : Fp eb w} (h : x.Finite) : x.isNaN = false := by
  unfold Finite at h
  unfold Fp.isNaN
  rw [decide_eq_false_iff_not]
  omega

theorem Finite.isInf {x : Fp eb w} (h : x.Finite) : x.isInf = false := by
  unfold Finite at h
  unfold Fp.isInf
  rw [decide_eq_false_iff_not]
  omega

theorem key_of {sign : Bool} {n : ℕ} (h : n < 2 ^ eb * 2 ^ w)
    : (of sign (n / 2 ^ w) n : Fp eb w).key = if sign then -(n : ℤ) else n := by
  have hexp : n / 2 ^ w % 2 ^ eb = n / 2 ^ w :=
    Nat.mod_eq_of_lt (Nat.div_lt_of_lt_mul (by rwa [Nat.mul_comm]))
  have hsum : n / 2 ^ w * 2 ^ w + n % 2 ^ w = n := Nat.div_add_mod' n (2 ^ w)
  simp only [key, of, hexp, hsum]

-- A result below the largest value is rounded to a value of the format.
theorem key_round {zeroSign : Bool} {q : ℚ} {n : ℕ} (hq : |q| ≤ mag w n)
    (hn : n < (2 ^ eb - 1) * 2 ^ w)
    : (round zeroSign q : Fp eb w).key = roundKey w q ∧ (round zeroSign q : Fp eb w).Finite := by
  have hpos := Nat.two_pow_pos w
  have hle := roundBits_le (abs_nonneg q) hq
  have hlt : roundBits w |q| < (2 ^ eb - 1) * 2 ^ w := by omega
  have hlt' : roundBits w |q| < 2 ^ eb * 2 ^ w :=
    Nat.lt_of_lt_of_le hlt (Nat.mul_le_mul_right _ (Nat.sub_le _ _))
  unfold round
  dsimp only
  rw [if_pos hlt]
  apply And.intro
  . rw [key_of hlt']
    unfold roundKey
    rcases lt_trichotomy q 0 with h | h | h
    . rw [if_neg h.ne, if_pos (decide_eq_true h), if_pos h, abs_of_neg h]
    . simp [h, roundBits_zero]
    . have hdec : decide (q < 0) = false := decide_eq_false (by linarith)
      rw [if_neg h.ne', hdec, if_neg Bool.false_ne_true, if_neg (by linarith), abs_of_pos h]
  . unfold Finite of
    dsimp only
    apply Nat.lt_of_le_of_lt (Nat.mod_le _ _)
    exact Nat.div_lt_of_lt_mul (by rwa [Nat.mul_comm])

theorem add_of_finite {x y : Fp eb w} (hx : x.Finite) (hy : y.Finite)
    : x.add y = round (x.sign && y.sign) (x.num + y.num) := by
  unfold add
  rw [if_neg (by simp [hx.isNaN, hy.isNaN]), if_neg (by simp [hx.isInf]), if_neg (by simp [hy.isInf])]

theorem num_neg (x : Fp eb w) : x.neg.num = -x.num := by
  unfold num
  rw [← bitsNum_neg]
  unfold neg key
  cases x.sign <;> simp

theorem sub_of_finite {x y : Fp eb w} (hx : x.Finite) (hy : y.Finite)
    : x.sub y = round (x.sign && !y.sign) (x.num - y.num) := by
  have hneg : y.neg.Finite := hy
  unfold sub
  rw [add_of_finite hx hneg, num_neg, sub_eq_add_neg]
  rfl

theorem mul_of_finite {x y : Fp eb w} (hx : x.Finite) (hy : y.Finite)
    : x.mul y = round (x.sign ^^ y.sign) (x.num * y.num / unit eb w) := by
  unfold mul
  dsimp only
  rw [if_neg (by simp [hx.isNaN, hy.isNaN]), if_neg (by simp [hx.isInf, hy.isInf])]

theorem div_of_finite {x y : Fp eb w} (hx : x.Finite) (hy : y.Finite) (hzero : y.isZero = false)
    : x.div y = round (x.sign ^^ y.sign) (x.num * unit eb w / y.num) := by
  unfold div
  dsimp only
  rw [if_neg (by simp [hx.isNaN, hy.isNaN]), if_neg (by simp [hx.isInf]),
    if_neg (by simp [hy.isInf]), if_neg (by simp [hzero])]

end Fp

end Arithmetic

end Ieee
