import Mathlib.Data.Nat.Find
import Mathlib.Data.Nat.NthRoot.Defs
import Mathlib.Data.Nat.Prime.Defs
import Harp.Lib.BlockHash

/-!
This module contains SHA-256 as FIPS 180-4 defines it, over strings of bits. A word's first bit is
its most significant one.
-/

namespace Fips180

abbrev Word := BitVec 32

def toBits {w : Nat} (x : BitVec w) : List Bool :=
  (List.range w).map x.getMsbD

def word (bs : List Bool) : Word :=
  (BitVec.ofBoolListBE bs).setWidth 32

-- Section 4.1.2

def ch (x y z : Word) : Word :=
  (x &&& y) ^^^ (~~~x &&& z)

def maj (x y z : Word) : Word :=
  (x &&& y) ^^^ (x &&& z) ^^^ (y &&& z)

def bigSigma0 (x : Word) : Word :=
  x.rotateRight 2 ^^^ x.rotateRight 13 ^^^ x.rotateRight 22

def bigSigma1 (x : Word) : Word :=
  x.rotateRight 6 ^^^ x.rotateRight 11 ^^^ x.rotateRight 25

def sigma0 (x : Word) : Word :=
  x.rotateRight 7 ^^^ x.rotateRight 18 ^^^ (x >>> 3)

def sigma1 (x : Word) : Word :=
  x.rotateRight 17 ^^^ x.rotateRight 19 ^^^ (x >>> 10)

-- Sections 4.2.2 and 5.3.3

-- The sixty-four smallest primes.
def primes : List Nat :=
  (List.range 312).filter fun p => p.Prime

-- The first thirty-two bits of the fractional part of the `n`-th root of `p`.
def rootBits (n p : Nat) : Word :=
  BitVec.ofNat 32 (Nat.nthRoot n (p * 2 ^ (32 * n)))

def constants : List Word :=
  primes.map (rootBits 3)

structure Hash where
  a : Word
  b : Word
  c : Word
  d : Word
  e : Word
  f : Word
  g : Word
  h : Word
deriving DecidableEq

def Hash.ofList (ws : List Word) : Hash :=
  ⟨ws.getD 0 0, ws.getD 1 0, ws.getD 2 0, ws.getD 3 0, ws.getD 4 0, ws.getD 5 0, ws.getD 6 0,
    ws.getD 7 0⟩

def Hash.toList (h : Hash) : List Word :=
  [h.a, h.b, h.c, h.d, h.e, h.f, h.g, h.h]

def initial : Hash :=
  Hash.ofList ((primes.take 8).map (rootBits 2))

-- Section 5.1.1

-- A message is shorter than `2 ^ 64` bits.
structure Message where
  bits : List Bool
  hlen : bits.length < 2 ^ 64

theorem exists_zeros (l : Nat) : ∃ k, (l + 1 + k) % 512 = 448 :=
  ⟨959 - (l + 512) % 512, by omega⟩

-- The smallest number of zeros that leaves room for the length alone in the last block.
def zeros (l : Nat) : Nat :=
  Nat.find (exists_zeros l)

def pad (m : Message) : List Bool :=
  m.bits ++ true :: List.replicate (zeros m.bits.length) false
    ++ toBits (BitVec.ofNat 64 m.bits.length)

-- Section 6.2.2

def schedule (m : Nat → Word) (t : Nat) : Word :=
  if t < 16 then
    m t
  else
    sigma1 (schedule m (t - 2)) + schedule m (t - 7) + sigma0 (schedule m (t - 15))
      + schedule m (t - 16)

def round (v : Hash) (kt wt : Word) : Hash :=
  let t1 := v.h + bigSigma1 v.e + ch v.e v.f v.g + kt + wt
  let t2 := bigSigma0 v.a + maj v.a v.b v.c
  ⟨t1 + t2, v.a, v.b, v.c, v.d + t1, v.e, v.f, v.g⟩

def blockWord (block : List Bool) (t : Nat) : Word :=
  word ((block.drop (32 * t)).take 32)

def compress (h : Hash) (block : List Bool) : Hash :=
  let v := (List.range 64).foldl
    (fun v t => round v (constants.getD t 0) (schedule (blockWord block) t)) h
  ⟨h.a + v.a, h.b + v.b, h.c + v.c, h.d + v.d, h.e + v.e, h.f + v.f, h.g + v.g, h.h + v.h⟩

def sha256 (m : Message) : List Bool :=
  (BlockHash.absorb compress 512 initial (pad m)).toList.flatMap toBits

theorem length_toBits {w : Nat} (x : BitVec w) : (toBits x).length = w := by
  rw [toBits, List.length_map, List.length_range]

theorem zeros_eq (l : Nat) : zeros l = (959 - l % 512) % 512 := by
  rw [zeros, Nat.find_eq_iff]
  constructor
  . omega
  . intro k hk
    omega

theorem word_toBits (x : Word) : word (toBits x) = x := by
  apply BitVec.eq_of_getMsbD_eq
  intro i hi
  rw [word, BitVec.getMsbD_setWidth, BitVec.getMsbD_ofBoolListBE, length_toBits]
  simp [toBits, hi]

theorem toBits_append {v w : Nat} (x : BitVec v) (y : BitVec w)
    : toBits (x ++ y) = toBits x ++ toBits y := by
  apply List.ext_getElem
  . simp [length_toBits]
  . intro i hi hi'
    simp only [toBits, List.getElem_append, List.getElem_map, List.getElem_range, List.length_map,
      List.length_range, BitVec.getMsbD_append]
    split
    next h => rw [dif_neg (by omega)]
    next h => rw [dif_pos (by omega)]

-- A composite number has a divisor below its root.
theorem prime_iff_of_lt_sq {n p : Nat} (h : p < n * n)
    : p.Prime ↔ 2 ≤ p ∧ ∀ m < n, 2 ≤ m → m ∣ p → m = p := by
  constructor
  . intro hp
    refine ⟨hp.two_le, fun m _ hm hdvd => ?_⟩
    apply (hp.eq_one_or_self_of_dvd m hdvd).resolve_left
    omega
  . intro ⟨hp, hall⟩
    rw [Nat.prime_def_le_sqrt]
    refine ⟨hp, fun m hm hsqrt hdvd => ?_⟩
    have heq := hall m (Nat.lt_of_le_of_lt hsqrt (Nat.sqrt_lt.mpr h)) hm hdvd
    have hlt := Nat.sqrt_lt_self hp
    omega

theorem primes_eq
    : primes = [2, 3, 5, 7, 11, 13, 17, 19, 23, 29, 31, 37, 41, 43, 47, 53, 59, 61, 67, 71, 73, 79,
        83, 89, 97, 101, 103, 107, 109, 113, 127, 131, 137, 139, 149, 151, 157, 163, 167, 173, 179,
        181, 191, 193, 197, 199, 211, 223, 227, 229, 233, 239, 241, 251, 257, 263, 269, 271, 277,
        281, 283, 293, 307, 311] := by
  have hcheck : primes = (List.range 312).filter
      fun p => 2 ≤ p ∧ ∀ m < 18, 2 ≤ m → m ∣ p → m = p := by
    apply List.filter_congr
    intro p hp
    rw [List.mem_range] at hp
    rw [decide_eq_decide]
    exact prime_iff_of_lt_sq (by omega)
  rw [hcheck]
  decide +kernel

end Fips180
