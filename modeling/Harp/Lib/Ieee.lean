import Mathlib.Data.Nat.Log
import Mathlib.Tactic.Ring

/-!
This module contains IEEE 754 binary formats as fields, their bit patterns, the exact conversion
from single to double precision and the conversion back, which rounds to nearest, ties to even.
-/

namespace Ieee

structure Fp (eb mb : Nat) where
  sign : Bool
  exp : Nat
  man : Nat
  exp_lt : exp < 2 ^ eb
  man_lt : man < 2 ^ mb
deriving DecidableEq, Repr

abbrev F16 := Fp 5 10
abbrev F32 := Fp 8 23
abbrev F64 := Fp 11 52

namespace Fp

variable {eb mb : Nat}

-- The fields are cut to their widths.
def of (sign : Bool) (exp man : Nat) : Fp eb mb where
  sign := sign
  exp := exp % 2 ^ eb
  man := man % 2 ^ mb
  exp_lt := Nat.mod_lt _ (Nat.two_pow_pos eb)
  man_lt := Nat.mod_lt _ (Nat.two_pow_pos mb)

theorem ext_fields {x y : Fp eb mb} (hsign : x.sign = y.sign) (hexp : x.exp = y.exp)
    (hman : x.man = y.man) : x = y := by
  cases x
  cases y
  simp_all

theorem of_fields (x : Fp eb mb) : of x.sign x.exp x.man = x := by
  apply ext_fields
  . rfl
  . exact Nat.mod_eq_of_lt x.exp_lt
  . exact Nat.mod_eq_of_lt x.man_lt

def toBits (x : Fp eb mb) : Nat :=
  (if x.sign then 2 ^ (eb + mb) else 0) + x.exp * 2 ^ mb + x.man

def ofBits (n : Nat) : Fp eb mb :=
  of (n / 2 ^ (eb + mb) % 2 = 1) (n / 2 ^ mb) n

def isNaN (x : Fp eb mb) : Bool :=
  x.exp = 2 ^ eb - 1 ∧ x.man ≠ 0

def isInf (x : Fp eb mb) : Bool :=
  x.exp = 2 ^ eb - 1 ∧ x.man = 0

def isZero (x : Fp eb mb) : Bool :=
  x.exp = 0 ∧ x.man = 0

-- Orders the values that are not a NaN; both zeros have key 0.
def key (x : Fp eb mb) : Int :=
  if x.sign then -(x.exp * 2 ^ mb + x.man : Nat) else (x.exp * 2 ^ mb + x.man : Nat)

def le (x y : Fp eb mb) : Bool :=
  ¬ x.isNaN ∧ ¬ y.isNaN ∧ x.key ≤ y.key

def lt (x y : Fp eb mb) : Bool :=
  ¬ x.isNaN ∧ ¬ y.isNaN ∧ x.key < y.key

theorem magnitude_lt (x : Fp eb mb) : x.exp * 2 ^ mb + x.man < 2 ^ (eb + mb) := by
  have hexp := x.exp_lt
  have hman := x.man_lt
  calc x.exp * 2 ^ mb + x.man
      < x.exp * 2 ^ mb + 2 ^ mb := by omega
    _ = (x.exp + 1) * 2 ^ mb := by ring
    _ ≤ 2 ^ eb * 2 ^ mb := Nat.mul_le_mul_right _ hexp
    _ = 2 ^ (eb + mb) := by rw [Nat.pow_add]

theorem toBits_lt (x : Fp eb mb) : x.toBits < 2 ^ (eb + mb + 1) := by
  have hmag := magnitude_lt x
  unfold toBits
  rw [Nat.pow_succ]
  split <;> omega

theorem ofBits_toBits (x : Fp eb mb) : ofBits x.toBits = x := by
  have hmag := magnitude_lt x
  have hman := x.man_lt
  have hpos := Nat.two_pow_pos mb
  have hsum : 2 ^ (eb + mb) = 2 ^ eb * 2 ^ mb := Nat.pow_add 2 eb mb
  have hbits : x.toBits = (x.sign.toNat * 2 ^ eb + x.exp) * 2 ^ mb + x.man := by
    unfold toBits
    rw [hsum]
    cases x.sign <;> simp
    ring
  have hdiv : x.toBits / 2 ^ mb = x.sign.toNat * 2 ^ eb + x.exp := by
    rw [hbits, Nat.mul_comm, Nat.mul_add_div hpos, Nat.div_eq_of_lt hman, Nat.add_zero]
  have hmod : x.toBits % 2 ^ mb = x.man := by
    rw [hbits, Nat.mul_comm, Nat.mul_add_mod, Nat.mod_eq_of_lt hman]
  have hsign : x.toBits / 2 ^ (eb + mb) = x.sign.toNat := by
    rw [Nat.add_comm eb mb, Nat.pow_add, ← Nat.div_div_eq_div_mul, hdiv, Nat.mul_comm,
      Nat.mul_add_div (Nat.two_pow_pos eb), Nat.div_eq_of_lt x.exp_lt, Nat.add_zero]
  apply ext_fields
  . simp only [ofBits, of, hsign]
    cases x.sign <;> rfl
  . simp only [ofBits, of, hdiv]
    rw [Nat.mul_comm, Nat.mul_add_mod, Nat.mod_eq_of_lt x.exp_lt]
  . exact hmod

end Fp

-- `x / 2 ^ s`, to the nearest integer, ties to even.
def rne (x s : Nat) : Nat :=
  let q := x / 2 ^ s
  let r := x % 2 ^ s
  if 2 ^ s < 2 * r ∨ (2 * r = 2 ^ s ∧ q % 2 = 1) then q + 1 else q

-- `(int)(x * n)`: the product in single precision, cut towards zero. What no `int` holds is `INT_MIN`.
def mulTrunc (x : F32) (n : Nat) : Int :=
  let m := (if x.exp = 0 then x.man else 2 ^ 23 + x.man) * n
  let s := m.log2 - 23
  let q : Nat := rne m s * 2 ^ s * 2 ^ max x.exp 1 / 2 ^ 150
  if x.exp = 255 ∨ 2 ^ 31 ≤ q then -2 ^ 31 else if x.sign then -q else q

theorem rne_mul (m s : Nat) : rne (m * 2 ^ s) s = m := by
  have hpos := Nat.two_pow_pos s
  unfold rne
  simp only [Nat.mul_mod_left, Nat.mul_div_cancel m hpos]
  rw [if_neg]
  omega

theorem rne_le {x s a : Nat} (h : x < a * 2 ^ s) : rne x s ≤ a := by
  have hlt : x / 2 ^ s < a := Nat.div_lt_of_lt_mul (by rwa [Nat.mul_comm])
  unfold rne
  dsimp only
  split <;> omega

def widen (x : F32) : F64 :=
  if x.exp = 255 then
    if x.man = 0 then
      Fp.of x.sign 2047 0
    else
      Fp.of x.sign 2047 (2 ^ 51 + x.man * 2 ^ 29 % 2 ^ 51)
  else if x.exp = 0 then
    if x.man = 0 then
      Fp.of x.sign 0 0
    else
      let k := Nat.log2 x.man
      Fp.of x.sign (874 + k) ((x.man - 2 ^ k) * 2 ^ (52 - k))
  else
    Fp.of x.sign (x.exp + 896) (x.man * 2 ^ 29)

def narrow (x : F64) : F32 :=
  if x.exp = 2047 then
    if x.man = 0 then
      Fp.of x.sign 255 0
    else
      Fp.of x.sign 255 (2 ^ 22 + x.man / 2 ^ 29 % 2 ^ 22)
  else if x.exp ≤ 896 then
    -- below the smallest normal single; a double this small with `exp = 0` rounds to zero
    let full := if x.exp = 0 then x.man else 2 ^ 52 + x.man
    let m := rne full (29 + (897 - x.exp))
    Fp.of x.sign (m / 2 ^ 23) m
  else if 1151 ≤ x.exp then
    Fp.of x.sign 255 0
  else
    let m := (x.exp - 896) * 2 ^ 23 + rne x.man 29
    Fp.of x.sign (m / 2 ^ 23) m

theorem widen_normal {x : F32} (h0 : x.exp ≠ 0) (h1 : x.exp ≠ 255)
    : widen x = Fp.of x.sign (x.exp + 896) (x.man * 2 ^ 29) := by
  unfold widen
  rw [if_neg h1, if_neg h0]

-- The rounded significand of a double below the range of the normal singles.
theorem narrow_below {x : F64} (h : x.exp ≤ 896)
    : ∃ m, m ≤ 2 ^ 23 ∧ (x.isZero = true → m = 0)
        ∧ narrow x = Fp.of x.sign (m / 2 ^ 23) m := by
  have hman := x.man_lt
  have hpow : 2 ^ 53 ≤ 2 ^ 23 * 2 ^ (29 + (897 - x.exp)) := by
    rw [← Nat.pow_add]
    exact Nat.pow_le_pow_right (by omega) (by omega)
  refine ⟨rne (if x.exp = 0 then x.man else 2 ^ 52 + x.man) (29 + (897 - x.exp)), rne_le ?_, ?_, ?_⟩
  . split <;> omega
  . intro hzero
    unfold Fp.isZero at hzero
    rw [decide_eq_true_eq] at hzero
    have hrne := rne_mul 0 (29 + (897 - x.exp))
    rw [if_pos hzero.1, hzero.2]
    rwa [Nat.zero_mul] at hrne
  . unfold narrow
    rw [if_neg (by omega), if_pos h]

theorem narrow_within {x : F64} (hlo : 896 < x.exp) (hhi : x.exp < 1151)
    : ∃ r, r ≤ 2 ^ 23 ∧ (x.man = 0 → r = 0)
        ∧ narrow x = Fp.of x.sign (((x.exp - 896) * 2 ^ 23 + r) / 2 ^ 23)
          ((x.exp - 896) * 2 ^ 23 + r) := by
  have hman := x.man_lt
  refine ⟨rne x.man 29, rne_le (by omega), ?_, ?_⟩
  . intro hzero
    have := rne_mul 0 29
    rw [hzero]
    rwa [Nat.zero_mul] at this
  . unfold narrow
    rw [if_neg (by omega), if_neg (by omega), if_neg (by omega)]

theorem isNaN_narrow_of_number {x : F64} (h : x.isNaN = false) : (narrow x).isNaN = false := by
  have hexp := x.exp_lt
  by_cases hbelow : x.exp ≤ 896
  . rcases narrow_below hbelow with ⟨m, hm, _, heq⟩
    have hne : ¬ m / 2 ^ 23 % 2 ^ 8 = 2 ^ 8 - 1 := by omega
    rw [heq]
    simp only [Fp.isNaN, Fp.of, hne, false_and, decide_false]
  . by_cases hwithin : x.exp < 1151
    . rcases narrow_within (by omega) hwithin with ⟨r, hr, _, heq⟩
      have hne : ¬ (((x.exp - 896) * 2 ^ 23 + r) / 2 ^ 23 % 2 ^ 8 = 2 ^ 8 - 1
          ∧ ((x.exp - 896) * 2 ^ 23 + r) % 2 ^ 23 ≠ 0) := by omega
      rw [heq]
      simp only [Fp.isNaN, Fp.of, hne, decide_false]
    . have hinf : narrow x = Fp.of x.sign 255 0 := by
        unfold narrow
        split
        next htop =>
          have hman : x.man = 0 := by
            by_contra hne
            simp [Fp.isNaN, htop, hne] at h
          rw [if_pos hman]
        . rw [if_pos (by omega)]
      rw [hinf]
      rfl

theorem narrow_normal {s : Bool} {e m : Nat} (h0 : 0 < e) (h1 : e < 255) (hm : m < 2 ^ 23)
    : narrow (Fp.of s (e + 896) (m * 2 ^ 29)) = Fp.of s e m := by
  have hexp : (Fp.of s (e + 896) (m * 2 ^ 29) : F64).exp = e + 896 := Nat.mod_eq_of_lt (by omega)
  have hman : (Fp.of s (e + 896) (m * 2 ^ 29) : F64).man = m * 2 ^ 29 :=
    Nat.mod_eq_of_lt (by omega)
  unfold narrow
  simp only [hexp, hman, rne_mul]
  rw [if_neg (by omega), if_neg (by omega), if_neg (by omega)]
  apply Fp.ext_fields
  . rfl
  . dsimp only [Fp.of]
    omega
  . dsimp only [Fp.of]
    omega

-- A non-zero `m` at exponent `e` below the normal range of a single.
theorem narrow_subnormal {s : Bool} {m : Nat} (hm : 0 < m) (hlt : m < 2 ^ 23)
    : narrow (Fp.of s (874 + Nat.log2 m) ((m - 2 ^ Nat.log2 m) * 2 ^ (52 - Nat.log2 m)))
        = Fp.of s 0 m := by
  have hle : 2 ^ Nat.log2 m ≤ m := Nat.log2_self_le (by omega)
  have hup : m < 2 ^ (Nat.log2 m + 1) := Nat.lt_log2_self
  have hk : Nat.log2 m < 23 := (Nat.log2_lt (by omega)).mpr hlt
  generalize hkdef : Nat.log2 m = k at hle hup hk ⊢
  have hpow : 2 ^ k * 2 ^ (52 - k) = 2 ^ 52 := by
    rw [← Nat.pow_add]
    congr 1
    omega
  have hmanlt : (m - 2 ^ k) * 2 ^ (52 - k) < 2 ^ 52 := by
    calc (m - 2 ^ k) * 2 ^ (52 - k)
        < 2 ^ k * 2 ^ (52 - k) := by
          apply Nat.mul_lt_mul_of_pos_right _ (Nat.two_pow_pos _)
          rw [Nat.pow_succ] at hup
          omega
      _ = 2 ^ 52 := hpow
  have hfull : 2 ^ 52 + (m - 2 ^ k) * 2 ^ (52 - k) = m * 2 ^ (52 - k) := by
    rw [← hpow, ← Nat.add_mul]
    congr 1
    omega
  have hexp : (Fp.of s (874 + k) ((m - 2 ^ k) * 2 ^ (52 - k)) : F64).exp = 874 + k :=
    Nat.mod_eq_of_lt (by omega)
  have hman : (Fp.of s (874 + k) ((m - 2 ^ k) * 2 ^ (52 - k)) : F64).man
      = (m - 2 ^ k) * 2 ^ (52 - k) := Nat.mod_eq_of_lt hmanlt
  have hshift : 29 + (897 - (874 + k)) = 52 - k := by omega
  unfold narrow
  simp only [hexp, hman, hshift]
  rw [if_neg (by omega), if_pos (by omega), if_neg (by omega), hfull, rne_mul]
  apply Fp.ext_fields
  . rfl
  . dsimp only [Fp.of]
    omega
  . rfl

theorem narrow_widen (x : F32) (h : x.isNaN = false) : narrow (widen x) = x := by
  have hfields := Fp.of_fields x
  have hexp := x.exp_lt
  by_cases h255 : x.exp = 255
  . have hman : x.man = 0 := by
      by_contra hne
      simp [Fp.isNaN, h255, hne] at h
    have hinf : narrow (widen x) = Fp.of x.sign 255 0 := by
      simp [widen, narrow, Fp.of, h255, hman]
    rw [hinf, ← h255, ← hman]
    exact hfields
  . by_cases h0 : x.exp = 0
    . by_cases hm0 : x.man = 0
      . have hrne : ∀ k, rne 0 k = 0 := by
          intro k
          have := rne_mul 0 k
          rwa [Nat.zero_mul] at this
        have hzero : narrow (widen x) = Fp.of x.sign 0 0 := by
          simp [widen, narrow, Fp.of, h0, hm0, hrne]
        rw [h0, hm0] at hfields
        rw [hzero]
        exact hfields
      . have hw : widen x = Fp.of x.sign (874 + Nat.log2 x.man)
            ((x.man - 2 ^ Nat.log2 x.man) * 2 ^ (52 - Nat.log2 x.man)) := by
          unfold widen
          rw [if_neg h255, if_pos h0, if_neg hm0]
        rw [hw, narrow_subnormal (by omega) x.man_lt]
        rw [h0] at hfields
        exact hfields
    . rw [widen_normal h0 h255, narrow_normal (by omega) (by omega) x.man_lt]
      exact hfields

end Ieee
