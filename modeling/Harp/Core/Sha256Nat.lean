import Harp.Core.Object
import Harp.Core.Sha256Standard

/-!
This module contains the digest as arithmetic on natural numbers below `2 ^ 32`, the form in which a
proof evaluates it.
-/

namespace Harp

namespace Sha256

open BlockHash (absorb)

def rotrNat (x n : Nat) : Nat :=
  (x >>> n) ||| (x <<< (32 - n)) % 4294967296

structure NatState where
  a : Nat
  b : Nat
  c : Nat
  d : Nat
  e : Nat
  f : Nat
  g : Nat
  h : Nat

def State.nat (s : State) : NatState :=
  ⟨s.a.toNat, s.b.toNat, s.c.toNat, s.d.toNat, s.e.toNat, s.f.toNat, s.g.toNat, s.h.toNat⟩

def NatState.toState (s : NatState) : State :=
  ⟨.ofNat s.a, .ofNat s.b, .ofNat s.c, .ofNat s.d, .ofNat s.e, .ofNat s.f, .ofNat s.g, .ofNat s.h⟩

def loadWordsNat : Bytes → List Nat
  | p0 :: p1 :: p2 :: p3 :: p =>
    ((p0.toNat <<< 24) % 4294967296 ||| (p1.toNat <<< 16) % 4294967296
        ||| (p2.toNat <<< 8) % 4294967296 ||| p3.toNat)
      :: loadWordsNat p
  | _ => []

-- The words of the schedule with the last one first.
def scheduleNat (w : List Nat) : Nat → List Nat
  | 0 => w
  | n + 1 =>
    let w := scheduleNat w n
    let w15 := w.getD 14 0
    let w2 := w.getD 1 0
    let s0 := rotrNat w15 7 ^^^ rotrNat w15 18 ^^^ (w15 >>> 3)
    let s1 := rotrNat w2 17 ^^^ rotrNat w2 19 ^^^ (w2 >>> 10)
    (w.getD 15 0 + s0 + w.getD 6 0 + s1) % 4294967296 :: w

def roundNat (s : NatState) (kw : Nat × Nat) : NatState :=
  let s1 := rotrNat s.e 6 ^^^ rotrNat s.e 11 ^^^ rotrNat s.e 25
  let ch := (s.e &&& s.f) ^^^ ((4294967295 - s.e) &&& s.g)
  let t1 := s.h + s1 + ch + kw.1 + kw.2
  let s0 := rotrNat s.a 2 ^^^ rotrNat s.a 13 ^^^ rotrNat s.a 22
  let maj := (s.a &&& s.b) ^^^ (s.a &&& s.c) ^^^ (s.b &&& s.c)
  ⟨(t1 + (s0 + maj)) % 4294967296, s.a, s.b, s.c, (s.d + t1) % 4294967296, s.e, s.f, s.g⟩

def kNat : List Nat :=
  k.map UInt32.toNat

def transformNat (s : NatState) (p : Bytes) : NatState :=
  let r := (kNat.zip (scheduleNat (loadWordsNat p).reverse 48).reverse).foldl roundNat s
  ⟨(s.a + r.a) % 4294967296, (s.b + r.b) % 4294967296, (s.c + r.c) % 4294967296,
    (s.d + r.d) % 4294967296, (s.e + r.e) % 4294967296, (s.f + r.f) % 4294967296,
    (s.g + r.g) % 4294967296, (s.h + r.h) % 4294967296⟩

def absorbNat (s : NatState) (m : Bytes) : Nat → NatState
  | 0 => s
  | n + 1 => absorbNat (transformNat s (m.take 64)) (m.drop 64) n

def digestNat (m : Bytes) : Bytes :=
  stateBytes (absorbNat init.state.nat (padBytes m)
    ((m.length + 1 + zeroBytes m.length) / 64 + 1)).toState

theorem toState_nat (s : State) : s.nat.toState = s := by
  simp [State.nat, NatState.toState]

theorem toNat_rotr (x : UInt32) {n : UInt32} (h0 : 0 < n.toNat) (h : n.toNat < 32)
    : (rotr x n).toNat = rotrNat x.toNat n.toNat := by
  have hsub : (32 - n).toNat = 32 - n.toNat := by
    rw [UInt32.toNat_sub_of_le]
    . rfl
    . rw [UInt32.le_iff_toNat_le]
      exact Nat.le_of_lt h
  rw [rotr, rotrNat, UInt32.toNat_or, UInt32.toNat_shiftRight, UInt32.toNat_shiftLeft, hsub,
    Nat.mod_eq_of_lt h, Nat.mod_eq_of_lt (by omega : 32 - n.toNat < 32)]

theorem toNat_loadWords (p : Bytes) : (loadWords p).map UInt32.toNat = loadWordsNat p := by
  fun_induction loadWords p with
  | case1 p0 p1 p2 p3 p ih =>
    rw [List.map_cons, ih, loadWordsNat]
    simp [UInt32.toNat_or, UInt32.toNat_shiftLeft]
  | case2 p h => 
    rw [loadWordsNat]
    rfl
    exact h

theorem length_schedule (w : List UInt32) (n : Nat) : (schedule w n).length = w.length + n := by
  induction n with
  | zero => rfl
  | succ n ih =>
    rw [schedule, List.length_append, ih, List.length_singleton]
    rfl

-- A word that is counted from the front, in the list of the numbers from the back.
theorem toNat_getD {w : List UInt32} {v : List Nat} (hv : (w.map UInt32.toNat).reverse = v)
    {i j : Nat} (hij : i + j + 1 = w.length) : (w.getD i 0).toNat = v.getD j 0 := by
  rw [← hv, List.getD_eq_getElem?_getD, List.getD_eq_getElem?_getD,
    List.getElem?_reverse' (i := j) (j := i) (by rw [List.length_map]; omega), List.getElem?_map]
  cases w[i]? with
  | none => rfl
  | some x => rfl

theorem toNat_schedule {w : List UInt32} (hw : w.length = 16) (n : Nat)
    : ((schedule w n).map UInt32.toNat).reverse = scheduleNat (w.map UInt32.toNat).reverse n := by
  induction n with
  | zero => rfl
  | succ n ih =>
    have hlen := length_schedule w n
    have h16 := toNat_getD ih (i := 16 + n - 16) (j := 15) (by omega)
    have h15 := toNat_getD ih (i := 16 + n - 15) (j := 14) (by omega)
    have h7 := toNat_getD ih (i := 16 + n - 7) (j := 6) (by omega)
    have h2 := toNat_getD ih (i := 16 + n - 2) (j := 1) (by omega)
    rw [schedule, scheduleNat, List.map_append, List.map_singleton, List.reverse_append, ih,
      List.reverse_singleton, List.singleton_append, ← h16, ← h15, ← h7, ← h2]
    simp [toNat_rotr]

theorem nat_round (s : State) (kw : UInt32 × UInt32)
    : (round s kw).nat = roundNat s.nat (kw.1.toNat, kw.2.toNat) := by
  simp [round, roundNat, State.nat, toNat_rotr]

theorem nat_rounds (s : State) (kw : List (UInt32 × UInt32))
    : (kw.foldl round s).nat
        = (kw.map fun x => (x.1.toNat, x.2.toNat)).foldl roundNat s.nat := by
  induction kw generalizing s with
  | nil => rfl
  | cons x kw ih => rw [List.foldl_cons, ih, nat_round, List.map_cons, List.foldl_cons]

theorem nat_transform (s : State) {p : Bytes} (hp : p.length = 64)
    : (transform s p).nat = transformNat s.nat p := by
  have hw : (loadWords p).length = 16 := by
    rw [length_loadWords, hp]
  have hzip : (k.zip (schedule (loadWords p) 48)).map (fun x => (x.1.toNat, x.2.toNat))
      = kNat.zip (scheduleNat (loadWordsNat p).reverse 48).reverse := by
    rw [kNat, ← toNat_loadWords, ← toNat_schedule hw, List.reverse_reverse, List.zip_map]
    rfl
  rw [transform, transformNat, ← hzip, ← nat_rounds]
  simp [State.nat]

theorem nat_absorb {n : Nat} (s : State) {m : Bytes} (hm : m.length = 64 * n)
    : (absorb transform 64 s m).nat = absorbNat s.nat m n := by
  induction n generalizing s m with
  | zero =>
    have hnil : m = [] := List.eq_nil_of_length_eq_zero (by omega)
    rw [hnil, BlockHash.absorb_nil transform (by omega)]
    rfl
  | succ n ih =>
    have htake : (m.take 64).length = 64 := by
      rw [List.length_take]
      omega
    have hdrop : (m.drop 64).length = 64 * n := by
      rw [List.length_drop]
      omega
    have hsplit : absorb transform 64 s m = absorb transform 64 (transform s (m.take 64)) (m.drop 64) := by
      conv_lhs => rw [← List.take_append_drop 64 m]
      exact BlockHash.absorb_block transform (by omega) s htake _
    rw [hsplit, ih _ hdrop, nat_transform s htake, absorbNat]

theorem digest_eq_nat {m : Bytes} (h : m.length < 2 ^ 61) : sha256Digest m = digestNat m := by
  rw [sha256Digest, final_eq (given_init.update m) h, digestNat,
    ← nat_absorb init.state (length_padBytes m), toState_nat]
  rfl

end Sha256

theorem hashCompute_of_nat {m : Bytes} {h : Hash} (hm : m.length < 2 ^ 61)
    (hb : h.b = 0x01 :: Sha256.digestNat m) : hashCompute m = h := by
  have hdigest := Sha256.digest_eq_nat hm
  cases h with
  | mk b len =>
    dsimp only at hb
    subst hb
    unfold hashCompute
    simp only [hdigest]

end Harp
