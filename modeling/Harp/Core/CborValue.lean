import Harp.Core.CborFloat
import Harp.Core.CborItem

/-!
This module contains the values that calls of the encoder build and the decoder calls that match
them: the round trip, that different values have different encodings, and that no shorter bytes are
read as the same value.
-/

namespace Harp

open Ieee

section Doubles

def quietNaN64 : F64 :=
  Fp.of false 2047 (2 ^ 51)

def canon64 (v : F64) : F64 :=
  if v.isNaN then quietNaN64 else v

theorem cdecFloat_double (v : F64) (rest : Bytes)
    : cdecFloat ⟨0xfb :: beBytes v.toBits 8 ++ rest, false⟩ = (some v, ⟨rest, false⟩) := by
  have hbits := Fp.toBits_lt v
  have hhead : readHead ⟨0xfb :: beBytes v.toBits 8 ++ rest, false⟩
      = (some ⟨7, 27, v.toBits⟩, ⟨rest, false⟩) := by
    have hcons := readHead_cons (beBytes v.toBits 8 ++ rest) (show 7 < 8 by omega)
      (show 27 < 32 by omega)
    rw [List.cons_append]
    refine hcons.trans ?_
    simp only [Nat.reduceLT, Nat.reduceEqDiff, if_false, if_true]
    rw [readHead_arg (length_beBytes _ 8), beNat_beBytes, Nat.mod_eq_of_lt (by omega)]
  unfold cdecFloat
  rw [Dec.bind_eq, Dec.bind_of_some hhead]
  simp only [Nat.reduceEqDiff, ne_eq, not_true_eq_false, if_false, if_true, Fp.ofBits_toBits]
  rfl

theorem widen_narrow_zero {v : F64} (h : v.isZero = true) : widen (narrow v) = v := by
  simp only [Fp.isZero, decide_eq_true_eq] at h
  have hnarrow : narrow v = Fp.of v.sign 0 0 := by
    have hrne : ∀ k, rne 0 k = 0 := by
      intro k
      have := rne_mul 0 k
      rwa [Nat.zero_mul] at this
    unfold narrow
    dsimp only
    rw [h.1, h.2, if_neg (by omega), if_pos (by omega), if_pos rfl, hrne, Nat.zero_div]
  rw [hnarrow]
  apply Fp.ext_fields
  . simp [widen, Fp.of]
  . simp [widen, Fp.of, h.1]
  . simp [widen, Fp.of, h.2]

-- Where the single is equal as a number it is equal in every bit.
theorem widen_narrow_of_doubleEq {v : F64} (h : doubleEq (widen (narrow v)) v = true)
    : widen (narrow v) = v := by
  unfold doubleEq at h
  simp only [Bool.and_eq_true, Bool.or_eq_true, decide_eq_true_eq] at h
  rcases h.2 with heq | hzero
  . exact heq
  . exact widen_narrow_zero hzero.2

theorem doubleEq_self {v : F64} (h : v.isNaN = false) : doubleEq v v = true := by
  simp [doubleEq, h]

theorem cdecFloat_cborFloat64 (v : F64) (rest : Bytes)
    : cdecFloat ⟨cborFloat v ++ rest, false⟩ = (some (canon64 v), ⟨rest, false⟩) := by
  unfold cborFloat canon64
  cases hnan : v.isNaN with
  | true =>
    simp only [Bool.or_true, if_true, halfFromFloat_nan (isNaN_narrow hnan)]
    rw [cdecFloat_half]
    congr 1
  | false =>
    dsimp only
    rw [Bool.or_false, if_neg (show ¬ false = true by simp)]
    cases heq : doubleEq (widen (narrow v)) v with
    | false => exact cdecFloat_double v rest
    | true =>
      have hv := widen_narrow_of_doubleEq heq
      have hf : (narrow v).isNaN = false := by
        rw [← isNaN_widen, hv]
        exact hnan
      rw [if_pos rfl]
      cases hhalf : halfFromFloat (narrow v) with
      | some h =>
        dsimp only
        rw [cdecFloat_half, halfToDouble_halfFromFloat hf hhalf, hv]
      | none =>
        dsimp only
        rw [cdecFloat_single, hv]

theorem halfFromFloat_normal {h : F16} (hpos : 0 < h.exp) (hlt : h.exp < 31)
    : ∃ f : F32, widen f = halfToDouble h ∧ f.isNaN = false ∧ halfFromFloat f = some h := by
  have hman := h.man_lt
  have hexp : (Fp.of h.sign (h.exp + 112) (h.man * 2 ^ 13) : F32).exp = h.exp + 112 := by
    dsimp only [Fp.of]
    omega
  have hm : (Fp.of h.sign (h.exp + 112) (h.man * 2 ^ 13) : F32).man = h.man * 2 ^ 13 := by
    dsimp only [Fp.of]
    omega
  have hsign : (Fp.of h.sign (h.exp + 112) (h.man * 2 ^ 13) : F32).sign = h.sign := rfl
  generalize (Fp.of h.sign (h.exp + 112) (h.man * 2 ^ 13) : F32) = f at hexp hm hsign
  have hback : Fp.of f.sign ((f.exp : Int) - 127 + 15).toNat (f.man >>> 13) = h := by
    rw [hm, Nat.shiftRight_eq_div_pow, Nat.mul_div_cancel _ (Nat.two_pow_pos 13), hexp, hsign]
    have htoNat : ((h.exp + 112 : Nat) - 127 + 15 : Int).toNat = h.exp := by omega
    rw [htoNat, Fp.of_fields]
  have hnan : f.isNaN = false := by
    simp only [Fp.isNaN, hexp, decide_eq_false_iff_not]
    omega
  have hinf : f.isInf = false := by
    simp only [Fp.isInf, hexp, decide_eq_false_iff_not]
    omega
  have hzero : f.isZero = false := by
    simp only [Fp.isZero, hexp, decide_eq_false_iff_not]
    omega
  have hmod : f.man % 2 ^ 13 = 0 := by omega
  refine ⟨f, ?_, hnan, ?_⟩
  . rw [← halfToDouble_normal (by omega) (by omega) hmod, hback]
  . unfold halfFromFloat
    dsimp only
    rw [if_neg (by simp [hnan]), if_neg (by simp [hinf]), if_neg (by simp [hzero]),
      if_pos (by omega), if_neg (by omega), hback]

theorem halfFromFloat_subnormal {h : F16} (hexp0 : h.exp = 0) (hne : h.man ≠ 0)
    : ∃ f : F32, widen f = halfToDouble h ∧ f.isNaN = false ∧ halfFromFloat f = some h := by
  have hman := h.man_lt
  have hk : Nat.log2 h.man < 10 := (Nat.log2_lt hne).mpr hman
  have hle : 2 ^ Nat.log2 h.man ≤ h.man := Nat.log2_self_le hne
  have hlt : h.man < 2 ^ (Nat.log2 h.man + 1) := Nat.lt_log2_self
  generalize Nat.log2 h.man = k at hk hle hlt
  have hpow : 2 ^ k * 2 ^ (23 - k) = 2 ^ 23 := by
    rw [← Nat.pow_add]
    congr 1
    omega
  have hfull : 2 ^ 23 + (h.man - 2 ^ k) * 2 ^ (23 - k) = h.man * 2 ^ (23 - k) := by
    rw [Nat.sub_mul, hpow]
    have := Nat.mul_le_mul_right (2 ^ (23 - k)) hle
    omega
  have hbound : h.man * 2 ^ (23 - k) < 2 ^ 24 := by
    calc h.man * 2 ^ (23 - k)
        < 2 ^ (k + 1) * 2 ^ (23 - k) := Nat.mul_lt_mul_of_pos_right hlt (Nat.two_pow_pos _)
      _ = 2 ^ 24 := by
        rw [← Nat.pow_add]
        congr 1
        omega
  have hexp : (Fp.of h.sign (k + 103) ((h.man - 2 ^ k) * 2 ^ (23 - k)) : F32).exp = k + 103 := by
    dsimp only [Fp.of]
    omega
  have hm : (Fp.of h.sign (k + 103) ((h.man - 2 ^ k) * 2 ^ (23 - k)) : F32).man
      = (h.man - 2 ^ k) * 2 ^ (23 - k) := by
    dsimp only [Fp.of]
    omega
  have hsign : (Fp.of h.sign (k + 103) ((h.man - 2 ^ k) * 2 ^ (23 - k)) : F32).sign = h.sign := rfl
  generalize (Fp.of h.sign (k + 103) ((h.man - 2 ^ k) * 2 ^ (23 - k)) : F32) = f at hexp hm hsign
  rw [← hm] at hfull
  have hshift : (2 ^ 23 + f.man) >>> (23 - k) = h.man := by
    rw [hfull, Nat.shiftRight_eq_div_pow, Nat.mul_div_cancel _ (Nat.two_pow_pos _)]
  have hmod : (2 ^ 23 + f.man) % 2 ^ (23 - k) = 0 := by
    rw [hfull, Nat.mul_mod_left]
  have hback : Fp.of f.sign 0 h.man = h := by
    rw [hsign, ← hexp0, Fp.of_fields]
  have hnan : f.isNaN = false := by
    simp only [Fp.isNaN, hexp, decide_eq_false_iff_not]
    omega
  have hinf : f.isInf = false := by
    simp only [Fp.isInf, hexp, decide_eq_false_iff_not]
    omega
  have hzero : f.isZero = false := by
    simp only [Fp.isZero, hexp, decide_eq_false_iff_not]
    omega
  refine ⟨f, ?_, hnan, ?_⟩
  . have hdouble := halfToDouble_subnormal (show f.exp + (23 - k) = 126 by omega) (by omega) hmod
      (by omega)
    rw [← hdouble, hshift, hback]
  . have hs : ((13 + (-14 - ((f.exp : Int) - 127))).toNat) = 23 - k := by omega
    unfold halfFromFloat
    dsimp only
    rw [if_neg (by simp [hnan]), if_neg (by simp [hinf]), if_neg (by simp [hzero]),
      if_neg (by omega), if_pos (by omega), hs, hshift, hmod, if_neg (by omega),
      if_neg (by simp), if_neg (by omega), hback]

-- Every half that is a number is found again from the double it stands for.
theorem halfFromFloat_of_half {h : F16} (hnan : h.isNaN = false)
    : ∃ f : F32, widen f = halfToDouble h ∧ f.isNaN = false ∧ halfFromFloat f = some h := by
  have hexp := h.exp_lt
  have hfields := Fp.of_fields h
  simp only [Fp.isNaN, decide_eq_false_iff_not] at hnan
  by_cases h31 : h.exp = 31
  . have hman : h.man = 0 := by omega
    rw [h31, hman] at hfields
    refine ⟨Fp.of h.sign 255 0, ?_, by simp [Fp.isNaN, Fp.of], ?_⟩
    . simp [halfToDouble, h31, hman, widen, Fp.of]
    . simp [halfFromFloat, Fp.isNaN, Fp.isInf, Fp.of] at hfields ⊢
      exact hfields
  . by_cases h0 : h.exp = 0
    . by_cases hman : h.man = 0
      . rw [h0, hman] at hfields
        refine ⟨Fp.of h.sign 0 0, ?_, by simp [Fp.isNaN, Fp.of], ?_⟩
        . simp [halfToDouble, h0, hman, widen, ldexp, Fp.of]
        . simp [halfFromFloat, Fp.isNaN, Fp.isInf, Fp.isZero, Fp.of] at hfields ⊢
          exact hfields
      . exact halfFromFloat_subnormal h0 hman
    . exact halfFromFloat_normal (by omega) (by omega)

end Doubles

/--
A value as the encoder calls build it, one constructor a call (`array` and `map` are followed by the
calls of their items).
-/
inductive CborVal where
  | uint (v : UInt64)
  | int (v : Int64)
  | bytes (p : Bytes)
  | text (s : Bytes)
  | array (items : List CborVal)
  | map (pairs : List (CborVal × CborVal))
  | bool (v : Bool)
  | null
  | float (v : F64)

namespace CborVal

mutual

def encode : CborVal → Bytes
  | uint v => cborUint v.toNat
  | int v => cborInt v.toInt
  | bytes p => cborBytes p
  | text s => cborText s
  | array items => cborArray items.length ++ encodeAll items
  | map pairs => cborMap pairs.length ++ encodePairs pairs
  | bool v => cborBool v
  | null => cborNull
  | float v => cborFloat v

def encodeAll : List CborVal → Bytes
  | [] => []
  | v :: vs => encode v ++ encodeAll vs

def encodePairs : List (CborVal × CborVal) → Bytes
  | [] => []
  | (k, v) :: ps => encode k ++ encode v ++ encodePairs ps

end

mutual

/--
The decoder calls that match the calls which built a value. They fail where a container has another
number of items.
-/
def decodeLike : CborVal → Dec CborVal
  | uint _ => do return uint (UInt64.ofNat (← cdecUint))
  | int _ => do return int (Int64.ofInt (← cdecInt))
  | bytes _ => do return bytes (← cdecBytes)
  | text _ => do return text (← cdecText)
  | array items => do
    let n ← cdecArray
    if n = items.length then return array (← decodeAll items) else Dec.fail
  | map pairs => do
    let n ← cdecMap
    if n = pairs.length then return map (← decodePairs pairs) else Dec.fail
  | bool _ => do return bool (← cdecBool)
  | null => do
    cdecNull
    return null
  | float _ => do return float (← cdecFloat)

def decodeAll : List CborVal → Dec (List CborVal)
  | [] => return []
  | v :: vs => do
    let w ← decodeLike v
    return w :: (← decodeAll vs)

def decodePairs : List (CborVal × CborVal) → Dec (List (CborVal × CborVal))
  | [] => return []
  | (k, v) :: ps => do
    let k' ← decodeLike k
    let w ← decodeLike v
    return (k', w) :: (← decodePairs ps)

end

mutual

-- A value with every leaf replaced.
def mapLeaf (f : CborVal → CborVal) : CborVal → CborVal
  | array items => array (mapLeafAll f items)
  | map pairs => map (mapLeafPairs f pairs)
  | v => f v

def mapLeafAll (f : CborVal → CborVal) : List CborVal → List CborVal
  | [] => []
  | v :: vs => mapLeaf f v :: mapLeafAll f vs

def mapLeafPairs (f : CborVal → CborVal) : List (CborVal × CborVal) → List (CborVal × CborVal)
  | [] => []
  | (k, v) :: ps => (mapLeaf f k, mapLeaf f v) :: mapLeafPairs f ps

end

-- Every NaN is the canonical one.
def quietLeaf : CborVal → CborVal
  | float v => float (canon64 v)
  | v => v

def quiet (v : CborVal) : CborVal :=
  mapLeaf quietLeaf v

-- An integer is the same value whichever of the two calls wrote it.
def normLeaf : CborVal → CborVal
  | float v => float (canon64 v)
  | int v => if v < 0 then int v else uint v.toUInt64
  | v => v

def norm (v : CborVal) : CborVal :=
  mapLeaf normLeaf v

end CborVal

section RoundTrip

theorem cdecInt_cborInt (v : Int64) (rest : Bytes)
    : cdecInt ⟨cborInt v.toInt ++ rest, false⟩ = (some v.toInt, ⟨rest, false⟩) := by
  have hlo := Int64.le_toInt v
  have hhi := Int64.toInt_lt v
  unfold cborInt
  split
  next hneg =>
    rcases readHead_putHead rest (show 1 < 8 by omega)
      (show (-1 - v.toInt).toNat < 2 ^ 64 by omega) with ⟨ai, hread⟩
    unfold cdecInt
    rw [Dec.bind_eq, Dec.bind_of_some hread]
    dsimp only
    rw [if_neg (by omega), if_pos rfl, if_neg (by simp only [int64Max]; omega)]
    have hback : -1 - ((-1 - v.toInt).toNat : Int) = v.toInt := by omega
    rw [hback]
    rfl
  next hneg =>
    rcases readHead_putHead rest (show 0 < 8 by omega)
      (show v.toInt.toNat < 2 ^ 64 by omega) with ⟨ai, hread⟩
    unfold cdecInt
    rw [Dec.bind_eq, Dec.bind_of_some hread]
    dsimp only
    rw [if_pos rfl, if_neg (by simp only [int64Max]; omega)]
    have hback : (v.toInt.toNat : Int) = v.toInt := by omega
    rw [hback]
    rfl

namespace CborVal

theorem encode_ne_nil (v : CborVal) : encode v ≠ [] := by
  cases v <;> simp only [encode]
  case uint => apply putHead_ne_nil
  case int =>
    unfold cborInt
    split <;> apply putHead_ne_nil
  case bytes => simp [cborBytes, putHead_ne_nil]
  case text => simp [cborText, putHead_ne_nil]
  case array => simp [cborArray, putHead_ne_nil]
  case map => simp [cborMap, putHead_ne_nil]
  case bool => simp [cborBool]
  case null => simp [cborNull]
  case float =>
    unfold cborFloat
    dsimp only
    repeat' split
    all_goals simp

theorem length_encode_pos (v : CborVal) : 0 < (encode v).length := by
  apply List.length_pos_of_ne_nil
  apply encode_ne_nil

theorem length_encodeAll (vs : List CborVal) : vs.length ≤ (encodeAll vs).length := by
  induction vs with
  | nil => simp
  | cons v vs ih =>
    have := length_encode_pos v
    simp only [encodeAll, List.length_cons, List.length_append]
    omega

theorem length_encodePairs (ps : List (CborVal × CborVal))
    : ps.length * 2 ≤ (encodePairs ps).length := by
  induction ps with
  | nil => simp
  | cons p ps ih =>
    have hkey := length_encode_pos p.1
    have hval := length_encode_pos p.2
    simp only [encodePairs, List.length_cons, List.length_append]
    omega

mutual

-- The bytes of one value, read back by the calls that match it.
theorem decodeLike_encode : ∀ (v : CborVal) (rest : Bytes), (encode v).length < 2 ^ 64 →
    decodeLike v ⟨encode v ++ rest, false⟩ = (some v.quiet, ⟨rest, false⟩)
  | uint v, rest, _ => by
    have hread := cdecUint_cborUint rest v.toNat_lt
    simp only [encode, decodeLike, Dec.bind_eq]
    rw [Dec.bind_of_some hread, UInt64.ofNat_toNat]
    rfl
  | int v, rest, _ => by
    simp only [encode, decodeLike, Dec.bind_eq]
    rw [Dec.bind_of_some (cdecInt_cborInt v rest), Int64.ofInt_toInt]
    rfl
  | bytes p, rest, hlen => by
    have hp : p.length < 2 ^ 64 := by
      simp only [encode, cborBytes, List.length_append] at hlen
      omega
    simp only [encode, decodeLike, Dec.bind_eq]
    rw [Dec.bind_of_some (cdecBytes_cborBytes p rest hp)]
    rfl
  | text s, rest, hlen => by
    have hs : s.length < 2 ^ 64 := by
      simp only [encode, cborText, List.length_append] at hlen
      omega
    simp only [encode, decodeLike, Dec.bind_eq]
    rw [Dec.bind_of_some (cdecText_cborText s rest hs)]
    rfl
  | array items, rest, hlen => by
    have hcount := length_encodeAll items
    simp only [encode, List.length_append] at hlen
    have hhead := cdecArray_cborArray (encodeAll items ++ rest)
      (show items.length < 2 ^ 64 by omega) (by rw [List.length_append]; omega)
    have hitems := decodeAll_encodeAll items rest (by omega)
    simp only [encode, decodeLike, Dec.bind_eq]
    rw [List.append_assoc, Dec.bind_of_some hhead, if_pos rfl, Dec.bind_of_some hitems]
    rfl
  | map pairs, rest, hlen => by
    have hcount := length_encodePairs pairs
    simp only [encode, List.length_append] at hlen
    have hhead := cdecMap_cborMap (encodePairs pairs ++ rest)
      (show pairs.length < 2 ^ 63 by omega) (by rw [List.length_append]; omega)
    have hpairs := decodePairs_encodePairs pairs rest (by omega)
    simp only [encode, decodeLike, Dec.bind_eq]
    rw [List.append_assoc, Dec.bind_of_some hhead, if_pos rfl, Dec.bind_of_some hpairs]
    rfl
  | bool v, rest, _ => by
    simp only [encode, decodeLike, Dec.bind_eq]
    rw [Dec.bind_of_some (cdecBool_cborBool v rest)]
    rfl
  | null, rest, _ => by
    simp only [encode, decodeLike, Dec.bind_eq]
    rw [Dec.bind_of_some (cdecNull_cborNull rest)]
    rfl
  | float v, rest, _ => by
    simp only [encode, decodeLike, Dec.bind_eq]
    rw [Dec.bind_of_some (cdecFloat_cborFloat64 v rest)]
    rfl

theorem decodeAll_encodeAll : ∀ (vs : List CborVal) (rest : Bytes),
    (encodeAll vs).length < 2 ^ 64 →
    decodeAll vs ⟨encodeAll vs ++ rest, false⟩ = (some (mapLeafAll quietLeaf vs), ⟨rest, false⟩)
  | [], _, _ => rfl
  | v :: vs, rest, hlen => by
    simp only [encodeAll, List.length_append] at hlen
    have hv := decodeLike_encode v (encodeAll vs ++ rest) (by omega)
    have hvs := decodeAll_encodeAll vs rest (by omega)
    simp only [encodeAll, decodeAll, Dec.bind_eq]
    rw [List.append_assoc, Dec.bind_of_some hv, Dec.bind_of_some hvs]
    rfl

theorem decodePairs_encodePairs : ∀ (ps : List (CborVal × CborVal)) (rest : Bytes),
    (encodePairs ps).length < 2 ^ 64 →
    decodePairs ps ⟨encodePairs ps ++ rest, false⟩
      = (some (mapLeafPairs quietLeaf ps), ⟨rest, false⟩)
  | [], _, _ => rfl
  | (k, v) :: ps, rest, hlen => by
    simp only [encodePairs, List.length_append] at hlen
    have hk := decodeLike_encode k (encode v ++ (encodePairs ps ++ rest)) (by omega)
    have hv := decodeLike_encode v (encodePairs ps ++ rest) (by omega)
    have hps := decodePairs_encodePairs ps rest (by omega)
    simp only [encodePairs, decodePairs, Dec.bind_eq]
    rw [List.append_assoc, List.append_assoc, Dec.bind_of_some hk, Dec.bind_of_some hv,
      Dec.bind_of_some hps]
    rfl

end

end CborVal

end RoundTrip

section Injective

theorem canon64_canon64 (v : F64) : canon64 (canon64 v) = canon64 v := by
  cases h : v.isNaN with
  | false => simp [canon64, h]
  | true =>
    simp only [canon64, h, if_true]
    decide

theorem cborFloat_nan {v : F64} (h : v.isNaN = true) : cborFloat v = [0xf9, 0x7e, 0x00] := by
  unfold cborFloat
  simp only [h, Bool.or_true, if_true, halfFromFloat_nan (isNaN_narrow h)]
  decide

theorem cborFloat_canon64 (v : F64) : cborFloat (canon64 v) = cborFloat v := by
  cases h : v.isNaN with
  | false => simp [canon64, h]
  | true =>
    have hquiet : quietNaN64.isNaN = true := by decide
    simp only [canon64, h, if_true]
    rw [cborFloat_nan h, cborFloat_nan hquiet]

theorem cborInt_nonneg {v : Int64} (h : ¬ v < 0) : cborInt v.toInt = cborUint v.toUInt64.toNat := by
  rw [Int64.not_lt] at h
  have hint := Int64.le_iff_toInt_le.mp h
  rw [Int64.toInt_zero] at hint
  unfold cborInt cborUint
  rw [if_neg (by omega), Int64.toNat_toUInt64_of_le h]
  rfl

-- The kind of value that a first byte starts: the major type, or one of the three kinds of major 7.
def leadTag (b : UInt8) : Nat :=
  if b.toNat < 224 then b.toNat / 32
  else if b = 0xf4 ∨ b = 0xf5 then 7
  else if b = 0xf6 then 8
  else 9

theorem leadTag_putHead {major : Nat} (v : Nat) (h : major < 7)
    : (putHead major v).head?.map leadTag = some major := by
  have hlead : ∀ a, a < 32 → leadTag (UInt8.ofNat (major <<< 5 + a)) = major := by
    intro a ha
    have hnat : (UInt8.ofNat (major <<< 5 + a)).toNat = major * 32 + a := by
      rw [UInt8.toNat_ofNat', Nat.shiftLeft_eq]
      omega
    unfold leadTag
    rw [hnat, if_pos (by omega)]
    omega
  unfold putHead
  split
  . simp only [List.head?_cons, Option.map_some]
    rw [hlead v (by omega)]
  . repeat' split
    all_goals
      simp only [List.head?_cons, Option.map_some]
      rw [hlead _ (by omega)]

namespace CborVal

mutual

theorem encode_norm : ∀ v : CborVal, encode v.norm = encode v
  | uint _ => rfl
  | int v => by
    simp only [norm, mapLeaf, normLeaf]
    split
    . rfl
    next h => rw [encode, encode, cborInt_nonneg h]
  | bytes _ => rfl
  | text _ => rfl
  | array items => by
    have hitems := encodeAll_norm items
    simp only [norm, mapLeaf, encode]
    rw [hitems.1, hitems.2]
  | map pairs => by
    have hpairs := encodePairs_norm pairs
    simp only [norm, mapLeaf, encode]
    rw [hpairs.1, hpairs.2]
  | bool _ => rfl
  | null => rfl
  | float v => by
    simp only [norm, mapLeaf, normLeaf, encode]
    apply cborFloat_canon64

theorem encodeAll_norm : ∀ vs : List CborVal, encodeAll (mapLeafAll normLeaf vs) = encodeAll vs
    ∧ (mapLeafAll normLeaf vs).length = vs.length
  | [] => ⟨rfl, rfl⟩
  | v :: vs => by
    have hv := encode_norm v
    have hvs := encodeAll_norm vs
    rw [norm] at hv
    simp only [mapLeafAll, encodeAll, List.length_cons]
    rw [hv, hvs.1, hvs.2]
    exact ⟨rfl, rfl⟩

theorem encodePairs_norm : ∀ ps : List (CborVal × CborVal),
    encodePairs (mapLeafPairs normLeaf ps) = encodePairs ps
      ∧ (mapLeafPairs normLeaf ps).length = ps.length
  | [] => ⟨rfl, rfl⟩
  | (k, v) :: ps => by
    have hk := encode_norm k
    have hv := encode_norm v
    have hps := encodePairs_norm ps
    rw [norm] at hk hv
    simp only [mapLeafPairs, encodePairs, List.length_cons]
    rw [hk, hv, hps.1, hps.2]
    exact ⟨rfl, rfl⟩

end

mutual

theorem norm_norm : ∀ v : CborVal, v.norm.norm = v.norm
  | uint _ => rfl
  | int v => by
    simp only [norm, mapLeaf, normLeaf]
    split
    next h => simp only [mapLeaf, normLeaf, if_pos h]
    . rfl
  | bytes _ => rfl
  | text _ => rfl
  | array items => by
    simp only [norm, mapLeaf]
    rw [normAll_norm items]
  | map pairs => by
    simp only [norm, mapLeaf]
    rw [normPairs_norm pairs]
  | bool _ => rfl
  | null => rfl
  | float v => by
    simp only [norm, mapLeaf, normLeaf]
    rw [canon64_canon64]

theorem normAll_norm : ∀ vs : List CborVal,
    mapLeafAll normLeaf (mapLeafAll normLeaf vs) = mapLeafAll normLeaf vs
  | [] => rfl
  | v :: vs => by
    have hv := norm_norm v
    simp only [norm] at hv
    simp only [mapLeafAll]
    rw [hv, normAll_norm vs]

theorem normPairs_norm : ∀ ps : List (CborVal × CborVal),
    mapLeafPairs normLeaf (mapLeafPairs normLeaf ps) = mapLeafPairs normLeaf ps
  | [] => rfl
  | (k, v) :: ps => by
    have hk := norm_norm k
    have hv := norm_norm v
    simp only [norm] at hk hv
    simp only [mapLeafPairs]
    rw [hk, hv, normPairs_norm ps]

end

def tag : CborVal → Nat
  | uint _ => 0
  | int _ => 1
  | bytes _ => 2
  | text _ => 3
  | array _ => 4
  | map _ => 5
  | bool _ => 7
  | null => 8
  | float _ => 9

theorem neg_of_norm {v : Int64} (h : (int v).norm = int v) : v < 0 := by
  simp only [norm, mapLeaf, normLeaf] at h
  split at h
  next hneg => exact hneg
  . cases h

theorem leadTag_encode {v : CborVal} (h : v.norm = v)
    : (encode v).head?.map leadTag = some v.tag := by
  cases v with
  | uint v => exact leadTag_putHead _ (by omega)
  | int v =>
    have hneg := Int64.lt_iff_toInt_lt.mp (neg_of_norm h)
    rw [Int64.toInt_zero] at hneg
    simp only [encode, cborInt, if_pos hneg]
    exact leadTag_putHead _ (by omega)
  | bytes p =>
    have hhead := leadTag_putHead p.length (show 2 < 7 by omega)
    simp only [encode, cborBytes, List.head?_append_of_ne_nil _ (putHead_ne_nil 2 p.length)]
    exact hhead
  | text s =>
    have hhead := leadTag_putHead s.length (show 3 < 7 by omega)
    simp only [encode, cborText, List.head?_append_of_ne_nil _ (putHead_ne_nil 3 s.length)]
    exact hhead
  | array items =>
    have hhead := leadTag_putHead items.length (show 4 < 7 by omega)
    simp only [encode, cborArray, List.head?_append_of_ne_nil _ (putHead_ne_nil 4 items.length)]
    exact hhead
  | map pairs =>
    have hhead := leadTag_putHead pairs.length (show 5 < 7 by omega)
    simp only [encode, cborMap, List.head?_append_of_ne_nil _ (putHead_ne_nil 5 pairs.length)]
    exact hhead
  | bool v => cases v <;> decide
  | null => decide
  | float v =>
    simp only [encode, cborFloat]
    repeat' split
    all_goals rfl

-- The bytes of two values of one shape are told apart by the decoder of that shape.
theorem decodeLike_inj {v w : CborVal} {r r' : Bytes} (hv : (encode v).length < 2 ^ 64)
    (hw : (encode w).length < 2 ^ 64) (h : encode v ++ r = encode w ++ r')
    (hshape : decodeLike v = decodeLike w) : v.quiet = w.quiet ∧ r = r' := by
  have hleft := decodeLike_encode v r hv
  have hright := decodeLike_encode w r' hw
  rw [hshape, h, hright, Prod.mk.injEq, Option.some.injEq, Cdec.mk.injEq] at hleft
  exact ⟨hleft.1.symm, hleft.2.1.symm⟩

theorem tag_of_append_eq {v w : CborVal} (hv : v.norm = v) (hw : w.norm = w) {r r' : Bytes}
    (h : encode v ++ r = encode w ++ r') : v.tag = w.tag := by
  have hleft := leadTag_encode hv
  have hright := leadTag_encode hw
  have hhead : (encode v).head? = (encode w).head? := by
    have hstart : (encode v ++ r).head? = (encode v).head? :=
      List.head?_append_of_ne_nil _ (encode_ne_nil v)
    rw [← hstart, h, List.head?_append_of_ne_nil _ (encode_ne_nil w)]
  rw [hhead, hright] at hleft
  exact (Option.some.inj hleft).symm

theorem putHead_inj {major n n' : Nat} {r r' : Bytes} (hm : major < 8) (hn : n < 2 ^ 64)
    (hn' : n' < 2 ^ 64) (h : putHead major n ++ r = putHead major n' ++ r') : n = n' ∧ r = r' := by
  rcases readHead_putHead r hm hn with ⟨ai, hleft⟩
  rcases readHead_putHead r' hm hn' with ⟨ai', hright⟩
  rw [h, hright] at hleft
  cases hleft
  exact ⟨rfl, rfl⟩

mutual

theorem encode_inj : ∀ (v w : CborVal) (r r' : Bytes), v.norm = v → w.norm = w →
    (encode v).length < 2 ^ 64 → (encode w).length < 2 ^ 64 → encode v ++ r = encode w ++ r' →
    v = w ∧ r = r'
  | v, w, r, r', hv, hw, hvlen, hwlen, h => by
    have htag := tag_of_append_eq hv hw h
    -- the tags alone rule out two values of different shapes
    revert hv hw hvlen hwlen h
    match v, w with
    | uint v, uint w => exact fun _ _ hvlen hwlen h => decodeLike_inj hvlen hwlen h rfl
    | int v, int w => exact fun _ _ hvlen hwlen h => decodeLike_inj hvlen hwlen h rfl
    | bytes v, bytes w => exact fun _ _ hvlen hwlen h => decodeLike_inj hvlen hwlen h rfl
    | text v, text w => exact fun _ _ hvlen hwlen h => decodeLike_inj hvlen hwlen h rfl
    | bool v, bool w => exact fun _ _ hvlen hwlen h => decodeLike_inj hvlen hwlen h rfl
    | null, null => exact fun _ _ hvlen hwlen h => decodeLike_inj hvlen hwlen h rfl
    | float v, float w =>
      intro hv hw hvlen hwlen h
      have hquiet := decodeLike_inj hvlen hwlen h rfl
      have hvq : (float v).quiet = float v := hv
      have hwq : (float w).quiet = float w := hw
      rw [hvq, hwq] at hquiet
      exact hquiet
    | array vs, array ws =>
      intro hv hw hvlen hwlen h
      simp only [norm, mapLeaf, array.injEq] at hv hw
      simp only [encode, List.length_append] at hvlen hwlen
      simp only [encode, cborArray, List.append_assoc] at h
      have hvs := length_encodeAll vs
      have hws := length_encodeAll ws
      have hhead := putHead_inj (by omega) (by omega) (by omega) h
      have hitems := encodeAll_inj vs ws r r' hhead.1 hv hw (by omega) (by omega) hhead.2
      exact ⟨congrArg array hitems.1, hitems.2⟩
    | map vs, map ws =>
      intro hv hw hvlen hwlen h
      simp only [norm, mapLeaf, map.injEq] at hv hw
      simp only [encode, List.length_append] at hvlen hwlen
      simp only [encode, cborMap, List.append_assoc] at h
      have hvs := length_encodePairs vs
      have hws := length_encodePairs ws
      have hhead := putHead_inj (by omega) (by omega) (by omega) h
      have hpairs := encodePairs_inj vs ws r r' hhead.1 hv hw (by omega) (by omega) hhead.2
      exact ⟨congrArg map hpairs.1, hpairs.2⟩

theorem encodeAll_inj : ∀ (vs ws : List CborVal) (r r' : Bytes), vs.length = ws.length →
    mapLeafAll normLeaf vs = vs → mapLeafAll normLeaf ws = ws →
    (encodeAll vs).length < 2 ^ 64 → (encodeAll ws).length < 2 ^ 64 →
    encodeAll vs ++ r = encodeAll ws ++ r' → vs = ws ∧ r = r'
  | [], [], _, _, _, _, _, _, _, h => ⟨rfl, h⟩
  | v :: vs, w :: ws, r, r', hlen, hv, hw, hvlen, hwlen, h => by
    simp only [mapLeafAll, List.cons.injEq] at hv hw
    simp only [encodeAll, List.length_append] at hvlen hwlen
    simp only [encodeAll, List.append_assoc] at h
    have hhead := encode_inj v w _ _ hv.1 hw.1 (by omega) (by omega) h
    have htail := encodeAll_inj vs ws r r' (Nat.succ.inj hlen) hv.2 hw.2 (by omega) (by omega)
      hhead.2
    rw [hhead.1, htail.1]
    exact ⟨rfl, htail.2⟩

theorem encodePairs_inj : ∀ (ps qs : List (CborVal × CborVal)) (r r' : Bytes),
    ps.length = qs.length → mapLeafPairs normLeaf ps = ps → mapLeafPairs normLeaf qs = qs →
    (encodePairs ps).length < 2 ^ 64 → (encodePairs qs).length < 2 ^ 64 →
    encodePairs ps ++ r = encodePairs qs ++ r' → ps = qs ∧ r = r'
  | [], [], _, _, _, _, _, _, _, h => ⟨rfl, h⟩
  | (k, v) :: ps, (k', v') :: qs, r, r', hlen, hp, hq, hplen, hqlen, h => by
    simp only [mapLeafPairs, List.cons.injEq, Prod.mk.injEq] at hp hq
    simp only [encodePairs, List.length_append] at hplen hqlen
    simp only [encodePairs, List.append_assoc] at h
    have hkey := encode_inj k k' _ _ hp.1.1 hq.1.1 (by omega) (by omega) h
    have hval := encode_inj v v' _ _ hp.1.2 hq.1.2 (by omega) (by omega) hkey.2
    have htail := encodePairs_inj ps qs r r' (Nat.succ.inj hlen) hp.2 hq.2 (by omega) (by omega)
      hval.2
    rw [hkey.1, hval.1, htail.1]
    exact ⟨rfl, htail.2⟩

end

theorem encode_eq_iff {v : CborVal} (hlen : (encode v).length < 2 ^ 64) (w : CborVal)
    : encode v = encode w ↔ v.norm = w.norm := by
  constructor
  . intro h
    have hnorm : encode v.norm ++ [] = encode w.norm ++ [] := by
      rw [encode_norm, encode_norm, h]
    refine (encode_inj v.norm w.norm [] [] (norm_norm v) (norm_norm w) ?_ ?_ hnorm).1
    . rw [encode_norm]
      exact hlen
    . rw [encode_norm, ← h]
      exact hlen
  . intro h
    rw [← encode_norm v, h, encode_norm]

end CborVal

end Injective

section Shortest

theorem Head.Spells.putHead_le {h : Head} {hb : Bytes} (hspells : h.Spells hb)
    : (putHead h.major h.val).length ≤ hb.length := by
  rcases hspells with ⟨arg, rfl, _, ⟨hai, rfl, hval⟩ | ⟨hge, hlt, hlen, hval⟩⟩
  . unfold putHead
    rw [if_pos (by omega)]
    simp
  . have hbound := beNat_lt arg
    have hcases : h.ai = 24 ∨ h.ai = 25 ∨ h.ai = 26 ∨ h.ai = 27 := by omega
    rw [← hval] at hbound
    unfold putHead
    rcases hcases with hai | hai | hai | hai
    all_goals
      rw [hai] at hlen
      simp only [Nat.reduceSub, Nat.reducePow] at hlen
      rw [hlen] at hbound
      repeat' split
      all_goals
        simp only [List.length_cons, List.length_nil, length_beBytes]
        omega

theorem readHead_shortest {d d' : Cdec} {h : Head} (hread : readHead d = (some h, d'))
    : (putHead h.major h.val).length + d'.p.length ≤ d.p.length ∧ h.val < 2 ^ 64 := by
  rcases readHead_inv hread with ⟨hb, hp, hspells, _, _⟩
  have hle := hspells.putHead_le
  rw [hp, List.length_append]
  exact ⟨by omega, hspells.val_lt⟩

theorem cdecUint_shortest {d d' : Cdec} {n : Nat} (h : cdecUint d = (some n, d'))
    : (cborUint n).length + d'.p.length ≤ d.p.length ∧ n < 2 ^ 64 := by
  unfold cdecUint at h
  rw [Dec.bind_eq] at h
  rcases Dec.bind_inv h with ⟨hd, d₁, hread, hval⟩
  have hshort := readHead_shortest hread
  split at hval
  . cases hval
  next hmajor =>
    cases hval
    rw [not_not.mp hmajor] at hshort
    exact hshort

theorem cdecInt_shortest {d d' : Cdec} {n : Int} (h : cdecInt d = (some n, d'))
    : (cborInt n).length + d'.p.length ≤ d.p.length ∧ -2 ^ 63 ≤ n ∧ n < 2 ^ 63 := by
  unfold cdecInt at h
  rw [Dec.bind_eq] at h
  rcases Dec.bind_inv h with ⟨hd, d₁, hread, hval⟩
  have hshort := (readHead_shortest hread).1
  have hmax64 : int64Max = 2 ^ 63 - 1 := rfl
  split at hval
  next hmajor =>
    split at hval
    . cases hval
    next hmax =>
      cases hval
      rw [hmajor] at hshort
      have hpos : cborInt (hd.val : Int) = putHead 0 hd.val := by
        unfold cborInt
        rw [if_neg (by omega)]
        rfl
      rw [hpos]
      exact ⟨hshort, by omega, by omega⟩
  next =>
    split at hval
    next hmajor =>
      split at hval
      . cases hval
      next hmax =>
        cases hval
        rw [hmajor] at hshort
        have hneg : cborInt (-1 - (hd.val : Int)) = putHead 1 hd.val := by
          unfold cborInt
          rw [if_pos (by omega)]
          congr 1
          omega
        rw [hneg]
        exact ⟨hshort, by omega, by omega⟩
    . cases hval

theorem readString_shortest {major : Nat} {d d' : Cdec} {s : Bytes}
    (h : readString major d = (some s, d'))
    : (putHead major s.length ++ s).length + d'.p.length ≤ d.p.length := by
  unfold readString at h
  rw [Dec.bind_eq] at h
  rcases Dec.bind_inv h with ⟨hd, d₁, hread, hval⟩
  have hshort := (readHead_shortest hread).1
  split at hval
  . cases hval
  next hok =>
    rw [not_or, not_not, Nat.not_lt] at hok
    rcases advance_inv hval hok.2 with ⟨hp, hlen, _⟩
    rw [hp, List.length_append, hok.1] at hshort
    rw [List.length_append, hlen]
    omega

theorem readCount_shortest {major n : Nat} {d d' : Cdec} (h : readCount major d = (some n, d'))
    : (putHead major n).length + d'.p.length ≤ d.p.length := by
  rcases readCount_inv h with ⟨hd, hb, hp, hspells, rfl, rfl, _⟩
  have hle := hspells.putHead_le
  rw [hp, List.length_append]
  omega

theorem cdecBool_shortest {d d' : Cdec} {v : Bool} (h : cdecBool d = (some v, d'))
    : (cborBool v).length + d'.p.length ≤ d.p.length := by
  unfold cdecBool at h
  rw [Dec.bind_eq] at h
  rcases Dec.bind_inv h with ⟨_, d₁, hneed, hval⟩
  rcases need_inv hneed with ⟨rfl, _, hlen⟩
  repeat' split at hval
  all_goals
    cases hval
    try
      simp only [cborBool, List.length_cons, List.length_nil, List.length_drop]
      omega

theorem cdecNull_shortest {d d' : Cdec} (h : cdecNull d = (some (), d'))
    : cborNull.length + d'.p.length ≤ d.p.length := by
  unfold cdecNull at h
  rw [Dec.bind_eq] at h
  rcases Dec.bind_inv h with ⟨_, d₁, hneed, hval⟩
  rcases need_inv hneed with ⟨rfl, _, hlen⟩
  split at hval
  . cases hval
  . cases hval
    simp only [cborNull, List.length_cons, List.length_nil, List.length_drop]
    omega

theorem length_cborFloat_widen (f : F32) : (cborFloat (widen f)).length ≤ 5 := by
  cases hnan : f.isNaN with
  | true =>
    have hwide : (widen f).isNaN = true := by
      rw [isNaN_widen]
      exact hnan
    rw [cborFloat_nan hwide]
    simp
  | false =>
    have hwide : (widen f).isNaN = false := by
      rw [isNaN_widen]
      exact hnan
    unfold cborFloat
    simp only [narrow_widen f hnan, doubleEq_self hwide, Bool.true_or, if_true]
    split
    all_goals simp [length_beBytes]

theorem length_cborFloat_half (h : F16) : (cborFloat (halfToDouble h)).length ≤ 3 := by
  cases hnan : h.isNaN with
  | true =>
    have hdouble : (halfToDouble h).isNaN = true := by
      simp only [Fp.isNaN, decide_eq_true_eq] at hnan
      have hexp : h.exp = 31 := hnan.1
      simp [halfToDouble, hexp, hnan.2, Fp.isNaN, Fp.of]
    rw [cborFloat_nan hdouble]
    simp
  | false =>
    rcases halfFromFloat_of_half hnan with ⟨f, hwiden, hf, hhalf⟩
    have hwide : (widen f).isNaN = false := by
      rw [isNaN_widen]
      exact hf
    rw [← hwiden]
    unfold cborFloat
    simp only [narrow_widen f hf, doubleEq_self hwide, Bool.true_or, if_true, hhalf]
    simp [length_beBytes]

theorem cdecFloat_shortest {d d' : Cdec} {v : F64} (h : cdecFloat d = (some v, d'))
    : (cborFloat v).length + d'.p.length ≤ d.p.length := by
  unfold cdecFloat at h
  rw [Dec.bind_eq] at h
  rcases Dec.bind_inv h with ⟨hd, d₁, hread, hval⟩
  rcases readHead_inv hread with ⟨hb, hp, ⟨arg, rfl, _, hspells⟩, _, _⟩
  rw [hp, List.length_append, List.length_cons]
  split at hval
  . cases hval
  . split at hval
    next hai =>
      cases hval
      have hlen := length_cborFloat_half (Fp.ofBits hd.val)
      have harg : arg.length = 2 := by
        rcases hspells with hsmall | hwide
        . omega
        . rw [hwide.2.2.1, hai]
          rfl
      omega
    next =>
      split at hval
      next hai =>
        cases hval
        have hlen := length_cborFloat_widen (Fp.ofBits hd.val)
        have harg : arg.length = 4 := by
          rcases hspells with hsmall | hwide
          . omega
          . rw [hwide.2.2.1, hai]
            rfl
        omega
      next =>
        split at hval
        next hai =>
          cases hval
          have hlen := length_cborFloat_le (Fp.ofBits hd.val)
          have harg : arg.length = 8 := by
            rcases hspells with hsmall | hwide
            . omega
            . rw [hwide.2.2.1, hai]
              rfl
          omega
        next => cases hval

namespace CborVal

mutual

-- Whatever was read as `w` was at least as long as what the encoder writes for `w`.
theorem decodeLike_shortest : ∀ (v w : CborVal) (d d' : Cdec), decodeLike v d = (some w, d') →
    (encode w).length + d'.p.length ≤ d.p.length
  | uint _, w, d, d', h => by
    simp only [decodeLike, Dec.bind_eq] at h
    rcases Dec.bind_inv h with ⟨n, d₁, hread, hw⟩
    cases hw
    have hshort := cdecUint_shortest hread
    rw [encode, UInt64.toNat_ofNat_of_lt' hshort.2]
    exact hshort.1
  | int _, w, d, d', h => by
    simp only [decodeLike, Dec.bind_eq] at h
    rcases Dec.bind_inv h with ⟨n, d₁, hread, hw⟩
    cases hw
    have hshort := cdecInt_shortest hread
    rw [encode, Int64.toInt_ofInt_of_le hshort.2.1 hshort.2.2]
    exact hshort.1
  | bytes _, w, d, d', h => by
    simp only [decodeLike, Dec.bind_eq] at h
    rcases Dec.bind_inv h with ⟨p, d₁, hread, hw⟩
    cases hw
    exact readString_shortest hread
  | text _, w, d, d', h => by
    simp only [decodeLike, Dec.bind_eq] at h
    rcases Dec.bind_inv h with ⟨s, d₁, hread, hw⟩
    cases hw
    exact readString_shortest hread
  | array items, w, d, d', h => by
    simp only [decodeLike, Dec.bind_eq] at h
    rcases Dec.bind_inv h with ⟨n, d₁, hread, hbody⟩
    split at hbody
    next hn =>
      rcases Dec.bind_inv hbody with ⟨ws, d₂, hitems, hw⟩
      cases hw
      have hhead := readCount_shortest hread
      have htail := decodeAll_shortest items ws d₁ d' hitems
      rw [encode, cborArray, List.length_append, htail.2, ← hn]
      omega
    . cases hbody
  | map pairs, w, d, d', h => by
    simp only [decodeLike, Dec.bind_eq] at h
    rcases Dec.bind_inv h with ⟨n, d₁, hread, hbody⟩
    split at hbody
    next hn =>
      rcases Dec.bind_inv hbody with ⟨ws, d₂, hpairs, hw⟩
      cases hw
      have hhead := readCount_shortest hread
      have htail := decodePairs_shortest pairs ws d₁ d' hpairs
      rw [encode, cborMap, List.length_append, htail.2, ← hn]
      omega
    . cases hbody
  | bool _, w, d, d', h => by
    simp only [decodeLike, Dec.bind_eq] at h
    rcases Dec.bind_inv h with ⟨b, d₁, hread, hw⟩
    cases hw
    exact cdecBool_shortest hread
  | null, w, d, d', h => by
    simp only [decodeLike, Dec.bind_eq] at h
    rcases Dec.bind_inv h with ⟨_, d₁, hread, hw⟩
    cases hw
    exact cdecNull_shortest hread
  | float _, w, d, d', h => by
    simp only [decodeLike, Dec.bind_eq] at h
    rcases Dec.bind_inv h with ⟨f, d₁, hread, hw⟩
    cases hw
    exact cdecFloat_shortest hread

theorem decodeAll_shortest : ∀ (vs ws : List CborVal) (d d' : Cdec),
    decodeAll vs d = (some ws, d') →
    (encodeAll ws).length + d'.p.length ≤ d.p.length ∧ ws.length = vs.length
  | [], ws, d, d', h => by
    cases h
    simp [encodeAll]
  | v :: vs, ws, d, d', h => by
    simp only [decodeAll, Dec.bind_eq] at h
    rcases Dec.bind_inv h with ⟨w, d₁, hv, hrest⟩
    rcases Dec.bind_inv hrest with ⟨ws', d₂, hvs, hw⟩
    cases hw
    have hhead := decodeLike_shortest v w d d₁ hv
    have htail := decodeAll_shortest vs ws' d₁ d' hvs
    rw [encodeAll, List.length_append, List.length_cons, List.length_cons]
    omega

theorem decodePairs_shortest : ∀ (ps qs : List (CborVal × CborVal)) (d d' : Cdec),
    decodePairs ps d = (some qs, d') →
    (encodePairs qs).length + d'.p.length ≤ d.p.length ∧ qs.length = ps.length
  | [], qs, d, d', h => by
    cases h
    simp [encodePairs]
  | (k, v) :: ps, qs, d, d', h => by
    simp only [decodePairs, Dec.bind_eq] at h
    rcases Dec.bind_inv h with ⟨k', d₁, hk, hrest⟩
    rcases Dec.bind_inv hrest with ⟨w, d₂, hv, hrest⟩
    rcases Dec.bind_inv hrest with ⟨qs', d₃, hps, hw⟩
    cases hw
    have hkey := decodeLike_shortest k k' d d₁ hk
    have hval := decodeLike_shortest v w d₁ d₂ hv
    have htail := decodePairs_shortest ps qs' d₂ d' hps
    rw [encodePairs, List.length_append, List.length_append, List.length_cons, List.length_cons]
    omega

end

end CborVal

end Shortest

/--
What the encoder and the decoder promise of a value: it is read back, bit for bit apart from the
payload of a NaN, from exactly its own bytes; only the same value has the same bytes; and nothing
shorter is read as the same value.
-/
structure CborCodec (v : CborVal) : Prop where
  reads : ∀ rest, v.decodeLike ⟨v.encode ++ rest, false⟩ = (some v.quiet, ⟨rest, false⟩)
  injective : ∀ w : CborVal, v.encode = w.encode ↔ v.norm = w.norm
  shortest : ∀ (u w : CborVal) (d d' : Cdec), u.decodeLike d = (some w, d') → w.norm = v.norm →
    v.encode.length + d'.p.length ≤ d.p.length

-- The length of a buffer is a `size_t`.
theorem cborCodec {v : CborVal} (hlen : v.encode.length < 2 ^ 64) : CborCodec v where
  reads rest := v.decodeLike_encode rest hlen
  injective := CborVal.encode_eq_iff hlen
  shortest u w d d' h hnorm := by
    have hsame : v.encode = w.encode := (CborVal.encode_eq_iff hlen w).mpr hnorm.symm
    rw [hsame]
    exact CborVal.decodeLike_shortest u w d d' h

theorem cborCodec_nested
    : CborCodec (.map [(.uint 0, .array [.int (-1), .float (Fp.of true 2047 1), .null]),
        (.text [], .bytes [0x00])]) := by
  apply cborCodec
  decide

end Harp
