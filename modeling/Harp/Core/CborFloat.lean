import Harp.Core.CborLemmas
import Harp.Lib.Ieee

/-!
This module contains the floating-point items of `core/src/cbor.c` and their round trip: a single
survives the shortest encoding exactly, and every NaN comes back as the quiet one.
-/

namespace Harp

open Ieee

def halfFromFloat (f : F32) : Option F16 :=
  let unb : Int := (f.exp : Int) - 127
  if f.isNaN then
    some (Fp.ofBits 0x7e00)
  else if f.isInf then
    some (Fp.of f.sign 31 0)
  else if f.isZero then
    some (Fp.of f.sign 0 0)
  else if -14 ≤ unb ∧ unb ≤ 15 then
    if f.man % 2 ^ 13 ≠ 0 then
      none
    else
      some (Fp.of f.sign (unb + 15).toNat (f.man >>> 13))
  else if unb < -14 then
    let shift := (13 + (-14 - unb)).toNat
    let full := 2 ^ 23 + f.man
    if shift ≥ 24 then
      none
    else if full % 2 ^ shift ≠ 0 then
      none
    else
      let hm := full >>> shift
      if hm = 0 ∨ hm > 0x3ff then
        none
      else
        some (Fp.of f.sign 0 hm)
  else
    none

def doubleEq (a b : F64) : Bool :=
  !a.isNaN && !b.isNaN && (a = b || (a.isZero && b.isZero))

def cborFloat (v : F64) : Bytes :=
  let f := narrow v
  if doubleEq (widen f) v || v.isNaN then
    match halfFromFloat f with
    | some h16 => 0xf9 :: beBytes h16.toBits 2
    | none => 0xfa :: beBytes f.toBits 4
  else
    0xfb :: beBytes v.toBits 8

-- `ldexp (m, e)` where the result is a normal double.
def ldexp (sign : Bool) (m : Nat) (e : Int) : F64 :=
  if m = 0 then
    Fp.of sign 0 0
  else
    let k := Nat.log2 m
    Fp.of sign (k + e + 1023).toNat ((m - 2 ^ k) * 2 ^ (52 - k))

def halfToDouble (h : F16) : F64 :=
  if h.exp = 0 then
    ldexp h.sign h.man (-24)
  else if h.exp = 31 then
    if h.man ≠ 0 then Fp.of h.sign 2047 (2 ^ 51) else Fp.of h.sign 2047 0
  else
    ldexp h.sign (1024 + h.man) (h.exp - 25)

def cdecFloat : Dec F64 := do
  let h ← readHead
  if h.major ≠ 7 then
    Dec.error
  else if h.ai = 25 then
    return halfToDouble (Fp.ofBits h.val)
  else if h.ai = 26 then
    return widen (Fp.ofBits h.val)
  else if h.ai = 27 then
    return Fp.ofBits h.val
  else
    Dec.error

def quietNaN : F32 :=
  Fp.of false 255 (2 ^ 22)

def canon (f : F32) : F32 :=
  if f.isNaN then quietNaN else f

theorem length_cborFloat_le (v : F64) : (cborFloat v).length ≤ 9 := by
  unfold cborFloat
  dsimp only
  repeat' split
  all_goals simp [length_beBytes]

theorem ldexp_eq {sign : Bool} {m k : Nat} (e : Int) (hle : 2 ^ k ≤ m) (hlt : m < 2 ^ (k + 1))
    : ldexp sign m e = Fp.of sign (k + e + 1023).toNat ((m - 2 ^ k) * 2 ^ (52 - k)) := by
  have hpos := Nat.two_pow_pos k
  have hlog : Nat.log2 m = k := by
    rw [Nat.log2_eq_iff (by omega)]
    exact ⟨hle, hlt⟩
  unfold ldexp
  rw [if_neg (by omega), hlog]

section Half

variable {f : F32}

theorem halfToDouble_normal (hlo : 113 ≤ f.exp) (hhi : f.exp ≤ 142) (hman : f.man % 2 ^ 13 = 0)
    : halfToDouble (Fp.of f.sign ((f.exp : Int) - 127 + 15).toNat (f.man >>> 13)) = widen f := by
  have hmlt := f.man_lt
  have hdiv : f.man >>> 13 = f.man / 2 ^ 13 := Nat.shiftRight_eq_div_pow _ _
  have hexp : (Fp.of f.sign ((f.exp : Int) - 127 + 15).toNat (f.man >>> 13) : F16).exp
      = f.exp - 112 := by
    dsimp only [Fp.of]
    omega
  have hm : (Fp.of f.sign ((f.exp : Int) - 127 + 15).toNat (f.man >>> 13) : F16).man
      = f.man / 2 ^ 13 := by
    dsimp only [Fp.of]
    rw [hdiv]
    omega
  unfold halfToDouble
  rw [hexp, hm, if_neg (by omega), if_neg (by omega), widen_normal (by omega) (by omega),
    ldexp_eq (k := 10) _ (by omega) (by omega)]
  apply Fp.ext_fields
  . rfl
  . dsimp only [Fp.of]
    omega
  . dsimp only [Fp.of]
    omega

theorem halfToDouble_subnormal {shift : Nat} (hexp : f.exp + shift = 126) (hshift : shift < 24)
    (hfull : (2 ^ 23 + f.man) % 2 ^ shift = 0)
    (hhi : (2 ^ 23 + f.man) >>> shift ≤ 0x3ff)
    : halfToDouble (Fp.of f.sign 0 ((2 ^ 23 + f.man) >>> shift)) = widen f := by
  have hmlt := f.man_lt
  generalize hhm : (2 ^ 23 + f.man) >>> shift = hm at hhi ⊢
  rw [Nat.shiftRight_eq_div_pow] at hhm
  have hprod : hm * 2 ^ shift = 2 ^ 23 + f.man := by
    rw [← hhm]
    exact Nat.div_mul_cancel (Nat.dvd_of_mod_eq_zero hfull)
  have hpow : 2 ^ (23 - shift) * 2 ^ shift = 2 ^ 23 := by
    rw [← Nat.pow_add]
    congr 1
    omega
  have hpos := Nat.two_pow_pos shift
  have hle : 2 ^ (23 - shift) ≤ hm := by
    apply Nat.le_of_mul_le_mul_right _ hpos
    omega
  have hlt : hm < 2 ^ (23 - shift + 1) := by
    apply Nat.lt_of_mul_lt_mul_right (a := 2 ^ shift)
    rw [Nat.pow_succ, Nat.mul_assoc, Nat.mul_comm 2, ← Nat.mul_assoc, hpow]
    omega
  have hman : (hm - 2 ^ (23 - shift)) * 2 ^ (52 - (23 - shift)) = f.man * 2 ^ 29 := by
    have hexp2 : 52 - (23 - shift) = shift + 29 := by omega
    rw [hexp2, Nat.pow_add, ← Nat.mul_assoc, Nat.sub_mul, hprod, hpow, Nat.add_sub_cancel_left]
  have hfield : (Fp.of f.sign 0 hm : F16).man = hm := Nat.mod_eq_of_lt (by omega)
  have hzero : (Fp.of f.sign 0 hm : F16).exp = 0 := rfl
  unfold halfToDouble
  rw [hzero, if_pos rfl, hfield, ldexp_eq _ hle hlt, widen_normal (by omega) (by omega), hman]
  apply Fp.ext_fields
  . rfl
  . dsimp only [Fp.of]
    omega
  . rfl

theorem halfToDouble_halfFromFloat {h : F16} (hnan : f.isNaN = false) (hhalf : halfFromFloat f = some h)
    : halfToDouble h = widen f := by
  unfold halfFromFloat at hhalf
  dsimp only at hhalf
  rw [if_neg (by simp [hnan])] at hhalf
  split at hhalf
  next hinf =>
    cases hhalf
    simp only [Fp.isInf, decide_eq_true_eq] at hinf
    simp [halfToDouble, widen, Fp.of, hinf.1, hinf.2]
  next =>
    split at hhalf
    next hzero =>
      cases hhalf
      simp only [Fp.isZero, decide_eq_true_eq] at hzero
      simp [halfToDouble, widen, ldexp, Fp.of, hzero.1, hzero.2]
    next =>
      split at hhalf
      next hrange =>
        split at hhalf
        . contradiction
        next hman =>
          cases hhalf
          exact halfToDouble_normal (by omega) (by omega) (by omega)
      next =>
        split at hhalf
        next hsmall =>
          split at hhalf
          . contradiction
          next hshift =>
            split at hhalf
            . contradiction
            next hmod =>
              split at hhalf
              . contradiction
              next hhm =>
                cases hhalf
                rw [not_or] at hhm
                exact halfToDouble_subnormal (by omega) (by omega) (not_not.mp hmod) (by omega)
        . contradiction

end Half

theorem cdecFloat_half (h : F16) (rest : Bytes)
    : cdecFloat ⟨0xf9 :: beBytes h.toBits 2 ++ rest, false⟩
        = (some (halfToDouble h), ⟨rest, false⟩) := by
  have hbits := Fp.toBits_lt h
  have hhead : readHead ⟨0xf9 :: beBytes h.toBits 2 ++ rest, false⟩
      = (some ⟨7, 25, h.toBits⟩, ⟨rest, false⟩) := by
    have hcons := readHead_cons (beBytes h.toBits 2 ++ rest) (show 7 < 8 by omega)
      (show 25 < 32 by omega)
    rw [List.cons_append]
    refine hcons.trans ?_
    simp only [Nat.reduceLT, Nat.reduceEqDiff, if_false, if_true]
    rw [readHead_arg (length_beBytes _ 2), beNat_beBytes, Nat.mod_eq_of_lt (by omega)]
  unfold cdecFloat
  rw [Dec.bind_eq, Dec.bind_of_some hhead]
  simp only [ne_eq, not_true_eq_false, if_false, if_true, Fp.ofBits_toBits]
  rfl

theorem cdecFloat_single (f : F32) (rest : Bytes)
    : cdecFloat ⟨0xfa :: beBytes f.toBits 4 ++ rest, false⟩ = (some (widen f), ⟨rest, false⟩) := by
  have hbits := Fp.toBits_lt f
  have hhead : readHead ⟨0xfa :: beBytes f.toBits 4 ++ rest, false⟩
      = (some ⟨7, 26, f.toBits⟩, ⟨rest, false⟩) := by
    have hcons := readHead_cons (beBytes f.toBits 4 ++ rest) (show 7 < 8 by omega)
      (show 26 < 32 by omega)
    rw [List.cons_append]
    refine hcons.trans ?_
    simp only [Nat.reduceLT, Nat.reduceEqDiff, if_false, if_true]
    rw [readHead_arg (length_beBytes _ 4), beNat_beBytes, Nat.mod_eq_of_lt (by omega)]
  unfold cdecFloat
  rw [Dec.bind_eq, Dec.bind_of_some hhead]
  simp only [Nat.reduceEqDiff, ne_eq, not_true_eq_false, if_false, if_true, Fp.ofBits_toBits]
  rfl

theorem isNaN_widen (f : F32) : (widen f).isNaN = f.isNaN := by
  have hexp := f.exp_lt
  unfold widen
  split
  next h255 =>
    split
    next hman => simp [Fp.isNaN, Fp.of, h255, hman]
    next hman =>
      have hne : ¬ (2251799813685248 + f.man * 536870912 % 2251799813685248) % 4503599627370496 = 0 := by
        omega
      simp [Fp.isNaN, Fp.of, h255, hman, hne]
  next h255 =>
    have hf : f.isNaN = false := by simp [Fp.isNaN, h255]
    rw [hf]
    split
    . split
      . simp [Fp.isNaN, Fp.of]
      next hman =>
        have hk : Nat.log2 f.man < 23 := (Nat.log2_lt hman).mpr f.man_lt
        have hne : (874 + Nat.log2 f.man) % 2 ^ 11 ≠ 2 ^ 11 - 1 := by omega
        simp only [Fp.isNaN, Fp.of, hne, false_and, decide_false]
    . have hne : (f.exp + 896) % 2 ^ 11 ≠ 2 ^ 11 - 1 := by omega
      simp only [Fp.isNaN, Fp.of, hne, false_and, decide_false]

theorem isNaN_narrow {v : F64} (h : v.isNaN = true) : (narrow v).isNaN = true := by
  simp only [Fp.isNaN, decide_eq_true_eq] at h
  have hexp : v.exp = 2047 := h.1
  have hne : ¬ (4194304 + v.man / 536870912 % 4194304) % 8388608 = 0 := by omega
  unfold narrow
  rw [if_pos hexp, if_neg h.2]
  simp [Fp.isNaN, Fp.of, hne]

theorem halfFromFloat_nan {f : F32} (h : f.isNaN = true)
    : halfFromFloat f = some (Fp.ofBits 0x7e00) := by
  unfold halfFromFloat
  simp only [h, if_true]

theorem cdecFloat_cborFloat (f : F32) (rest : Bytes)
    : ∃ v, cdecFloat ⟨cborFloat (widen f) ++ rest, false⟩ = (some v, ⟨rest, false⟩)
        ∧ narrow v = canon f := by
  have hwide := isNaN_widen f
  unfold cborFloat canon
  cases hnan : f.isNaN with
  | true =>
    rw [hnan] at hwide
    simp only [hwide, Bool.or_true, if_true, halfFromFloat_nan (isNaN_narrow hwide)]
    exact ⟨_, cdecFloat_half _ rest, by decide⟩
  | false =>
    rw [hnan] at hwide
    have hnarrow := narrow_widen f hnan
    have heq : doubleEq (widen f) (widen f) = true := by simp [doubleEq, hwide]
    simp only [hnarrow, heq, Bool.true_or, if_true]
    cases hhalf : halfFromFloat f with
    | some h =>
      refine ⟨_, cdecFloat_half h rest, ?_⟩
      rw [halfToDouble_halfFromFloat hnan hhalf]
      exact hnarrow
    | none => exact ⟨_, cdecFloat_single f rest, hnarrow⟩

end Harp
