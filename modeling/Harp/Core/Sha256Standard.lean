import Harp.Core.Sha256Stream
import Harp.Lib.Fips180

/-!
This module contains the digest of `core/src/sha256.c` as the one of FIPS 180-4: the block
function word by word, the padding bit by bit, and the streaming calls for every cut of a message.
-/

namespace Harp

namespace Sha256

open BlockHash (absorb Feed)

def byteBits (b : UInt8) : List Bool :=
  Fips180.toBits b.toBitVec

def bits (m : Bytes) : List Bool :=
  m.flatMap byteBits

def State.toHash (s : State) : Fips180.Hash :=
  ⟨s.a.toBitVec, s.b.toBitVec, s.c.toBitVec, s.d.toBitVec, s.e.toBitVec, s.f.toBitVec,
    s.g.toBitVec, s.h.toBitVec⟩

theorem length_byteBits (b : UInt8) : (byteBits b).length = 8 :=
  Fips180.length_toBits _

theorem bits_append (m m' : Bytes) : bits (m ++ m') = bits m ++ bits m' :=
  List.flatMap_append

theorem bits_cons (b : UInt8) (m : Bytes) : bits (b :: m) = byteBits b ++ bits m :=
  List.flatMap_cons

theorem length_bits (m : Bytes) : (bits m).length = 8 * m.length := by
  induction m with
  | nil => rfl
  | cons b m ih =>
    rw [bits_cons, List.length_append, length_byteBits, ih, List.length_cons]
    omega

section Constants

theorem k_eq : k.map UInt32.toBitVec = Fips180.constants := by
  rw [Fips180.constants, Fips180.primes_eq]
  decide +kernel

theorem init_eq : init.state.toHash = Fips180.initial := by
  rw [Fips180.initial, Fips180.primes_eq]
  decide +kernel

end Constants

section BlockFunction

theorem toBitVec_rotr (x : UInt32) {n : UInt32} (h0 : 0 < n.toNat) (h : n.toNat < 32)
    : (rotr x n).toBitVec = x.toBitVec.rotateRight n.toNat := by
  rw [rotr, BitVec.rotateRight_def, UInt32.toBitVec_or, UInt32.toBitVec_shiftRight,
    UInt32.toBitVec_shiftLeft, BitVec.ushiftRight_eq', BitVec.shiftLeft_eq']
  congr 2
  simp [BitVec.toNat_umod]
  omega

theorem toHash_round (s : State) (kw : UInt32 × UInt32)
    : (round s kw).toHash = Fips180.round s.toHash kw.1.toBitVec kw.2.toBitVec := by
  simp (disch := decide) only [State.toHash, round, Fips180.round, Fips180.bigSigma0,
    Fips180.bigSigma1, Fips180.ch, Fips180.maj, UInt32.toBitVec_add, UInt32.toBitVec_xor,
    UInt32.toBitVec_and, UInt32.toBitVec_not, toBitVec_rotr]
  rfl

def loadWord (p0 p1 p2 p3 : UInt8) : UInt32 :=
  (p0.toUInt32 <<< 24) ||| (p1.toUInt32 <<< 16) ||| (p2.toUInt32 <<< 8) ||| p3.toUInt32

theorem toBitVec_loadWord (p0 p1 p2 p3 : UInt8)
    : (loadWord p0 p1 p2 p3).toBitVec
        = p0.toBitVec ++ (p1.toBitVec ++ (p2.toBitVec ++ p3.toBitVec)) := by
  have h24 : ((24 : UInt32).toBitVec % 32).toNat = 24 := rfl
  have h16 : ((16 : UInt32).toBitVec % 32).toNat = 16 := rfl
  have h8 : ((8 : UInt32).toBitVec % 32).toNat = 8 := rfl
  have hge (p : UInt8) (j : Nat) (hj : 8 ≤ j) : p.toBitVec.getLsbD j = false :=
    BitVec.getLsbD_of_ge _ _ hj
  apply BitVec.eq_of_getLsbD_eq
  intro i hi
  simp only [loadWord, UInt32.toBitVec_or, UInt32.toBitVec_shiftLeft, UInt8.toBitVec_toUInt32,
    BitVec.shiftLeft_eq', h24, h16, h8, BitVec.getLsbD_or, BitVec.getLsbD_shiftLeft,
    BitVec.getLsbD_setWidth, BitVec.getLsbD_append]
  grind

theorem bits_word (p0 p1 p2 p3 : UInt8)
    : bits [p0, p1, p2, p3] = Fips180.toBits (loadWord p0 p1 p2 p3).toBitVec := by
  rw [toBitVec_loadWord, Fips180.toBits_append, Fips180.toBits_append, Fips180.toBits_append,
    bits_cons, bits_cons, bits_cons, bits_cons]
  exact congrArg _ (congrArg _ (congrArg _ (List.append_nil _)))

theorem bits_drop (m : Bytes) (n : Nat) : (bits m).drop (8 * n) = bits (m.drop n) := by
  induction n generalizing m with
  | zero => rfl
  | succ n ih =>
    cases m with
    | nil => simp [bits]
    | cons b m =>
      have hlen : 8 * (n + 1) = (byteBits b).length + 8 * n := by
        rw [length_byteBits]
        omega
      rw [bits_cons, hlen, List.drop_length_add_append, ih, List.drop_succ_cons]

theorem bits_take (m : Bytes) (n : Nat) : (bits m).take (8 * n) = bits (m.take n) := by
  induction n generalizing m with
  | zero => rfl
  | succ n ih =>
    cases m with
    | nil => simp [bits]
    | cons b m =>
      have hlen : 8 * (n + 1) = (byteBits b).length + 8 * n := by
        rw [length_byteBits]
        omega
      rw [bits_cons, hlen, List.take_length_add_append, ih, List.take_succ_cons, bits_cons]

theorem length_lt_four {p : Bytes}
    (h : ∀ p0 p1 p2 p3 rest, p = p0 :: p1 :: p2 :: p3 :: rest → False)
    : p.length < 4 := by
  match p with
  | [] | [_] | [_, _] | [_, _, _] => simp
  | p0 :: p1 :: p2 :: p3 :: rest => exact (h p0 p1 p2 p3 rest rfl).elim

theorem length_loadWords (p : Bytes) : (loadWords p).length = p.length / 4 := by
  fun_induction loadWords p with
  | case1 p0 p1 p2 p3 p ih =>
    simp only [List.length_cons, ih]
    omega
  | case2 p h =>
    have hlen := length_lt_four h
    rw [List.length_nil]
    omega

theorem loadWords_getD (p : Bytes) (t : Nat) (ht : 4 * t + 4 ≤ p.length)
    : ((loadWords p).getD t 0).toBitVec = Fips180.blockWord (bits p) t := by
  have hbits : Fips180.blockWord (bits p) t = Fips180.word (bits ((p.drop (4 * t)).take 4)) := by
    rw [Fips180.blockWord, show 32 * t = 8 * (4 * t) by omega, bits_drop, bits_take _ 4]
  rw [hbits]
  clear hbits
  fun_induction loadWords p generalizing t with
  | case1 p0 p1 p2 p3 p ih =>
    cases t with
    | zero =>
      have hword : Fips180.word (bits [p0, p1, p2, p3]) = (loadWord p0 p1 p2 p3).toBitVec := by
        rw [bits_word, Fips180.word_toBits]
      exact hword.symm
    | succ t =>
      simp only [List.length_cons] at ht
      rw [List.getD_cons_succ, ih t (by omega), show 4 * (t + 1) = 4 * t + 4 by omega]
      rfl
  | case2 p h =>
    have hlen := length_lt_four h
    omega

-- The four terms of the schedule, as the source adds them up.
theorem sum_comm (x y z w : Fips180.Word) : x + y + z + w = w + z + y + x := by
  ac_rfl

theorem schedule_getD {w : List UInt32} (hw : w.length = 16) {m : Nat → Fips180.Word}
    (hm : ∀ t < 16, (w.getD t 0).toBitVec = m t) (n : Nat)
    : (schedule w n).length = 16 + n
        ∧ ∀ t < 16 + n, ((schedule w n).getD t 0).toBitVec = Fips180.schedule m t := by
  induction n with
  | zero =>
    refine ⟨hw, fun t ht => ?_⟩
    rw [Fips180.schedule, if_pos ht]
    exact hm t ht
  | succ n ih =>
    obtain ⟨hlen, hget⟩ := ih
    unfold schedule
    refine ⟨by simp [hlen]; omega, fun t ht => ?_⟩
    by_cases hold : t < 16 + n
    . rw [List.getD_append _ _ _ _ (by omega)]
      exact hget t hold
    . have ht : t = 16 + n := by omega
      rw [List.getD_append_right _ _ _ _ (by omega), ht, hlen, Nat.sub_self, List.getD_cons_zero,
        Fips180.schedule, if_neg (by omega), ← hget (16 + n - 2) (by omega),
        ← hget (16 + n - 7) (by omega), ← hget (16 + n - 15) (by omega),
        ← hget (16 + n - 16) (by omega), sum_comm]
      simp (disch := decide) only [Fips180.sigma0, Fips180.sigma1, UInt32.toBitVec_add,
        UInt32.toBitVec_xor, toBitVec_rotr]
      rfl

theorem toHash_rounds (kw : List (UInt32 × UInt32)) (s : State)
    : (kw.foldl round s).toHash
        = (kw.map fun x => (x.1.toBitVec, x.2.toBitVec)).foldl
            (fun v x => Fips180.round v x.1 x.2) s.toHash := by
  induction kw generalizing s with
  | nil => rfl
  | cons x kw ih => rw [List.foldl_cons, ih, List.map_cons, List.foldl_cons, toHash_round]

theorem zip_eq_map_range {α β : Type} {xs : List α} {ys : List β} {n : Nat} (hx : xs.length = n)
    (hy : ys.length = n) (a : α) (b : β)
    : xs.zip ys = (List.range n).map fun t => (xs.getD t a, ys.getD t b) := by
  apply List.ext_getElem
  . simp [hx, hy]
  . intro t ht ht'
    rw [List.length_map, List.length_range] at ht'
    rw [List.getElem_zip, List.getElem_map, List.getElem_range,
      List.getD_eq_getElem _ _ (by omega), List.getD_eq_getElem _ _ (by omega)]

theorem constants_getD (t : Nat) : Fips180.constants.getD t 0 = (k.getD t 0).toBitVec := by
  rw [← k_eq]
  exact List.getD_map (f := UInt32.toBitVec) ..

theorem toHash_zip_rounds {w : List UInt32} (hlen : w.length = 64) {W : Nat → Fips180.Word}
    (hget : ∀ t < 64, (w.getD t 0).toBitVec = W t) (s : State)
    : ((k.zip w).foldl round s).toHash
        = (List.range 64).foldl (fun v t => Fips180.round v (Fips180.constants.getD t 0) (W t))
            s.toHash := by
  have hk : k.length = 64 := rfl
  rw [toHash_rounds, zip_eq_map_range hk hlen 0 0, List.map_map, List.foldl_map]
  apply List.foldl_ext
  intro v t ht
  simp only [Function.comp, constants_getD, hget t (List.mem_range.mp ht)]

theorem toHash_transform (s : State) (p : Bytes) (hp : p.length = 64)
    : (transform s p).toHash = Fips180.compress s.toHash (bits p) := by
  have hload : (loadWords p).length = 16 := by
    rw [length_loadWords, hp]
  obtain ⟨hlen, hget⟩ := schedule_getD hload (m := Fips180.blockWord (bits p))
    (fun t ht => loadWords_getD p t (by omega)) 48
  have hrounds := toHash_zip_rounds hlen hget s
  unfold transform Fips180.compress
  dsimp only
  rw [← hrounds]
  generalize (k.zip (schedule (loadWords p) 48)).foldl round s = r
  rfl

end BlockFunction

section Padding

-- The number of zero bytes, from where the block stands after `0x80`.
def zeroBytes (len : Nat) : Nat :=
  (119 - len % 64) % 64

def padBytes (m : Bytes) : Bytes :=
  m ++ 0x80 :: List.replicate (zeroBytes m.length) 0 ++ beBytes (m.length * 8) 8

theorem length_padBytes (m : Bytes)
    : (padBytes m).length = 64 * ((m.length + 1 + zeroBytes m.length) / 64 + 1) := by
  simp only [padBytes, List.length_append, List.length_cons, List.length_replicate,
    length_beBytes, zeroBytes]
  omega

theorem bits_replicate (n : Nat) : bits (List.replicate n 0) = List.replicate (8 * n) false := by
  induction n with
  | zero => rfl
  | succ n ih =>
    have hzero : byteBits 0 = List.replicate 8 false := by decide
    rw [List.replicate_succ, bits_cons, ih, hzero, List.replicate_append_replicate]
    congr 1
    omega

theorem toBits_ofNat_add (v a b : Nat)
    : Fips180.toBits (BitVec.ofNat (a + b) v)
        = Fips180.toBits (BitVec.ofNat a (v >>> b)) ++ Fips180.toBits (BitVec.ofNat b v) := by
  rw [← Fips180.toBits_append]
  congr 1
  apply BitVec.eq_of_getLsbD_eq
  intro i hi
  rw [BitVec.getLsbD_append, BitVec.getLsbD_ofNat, BitVec.getLsbD_ofNat, BitVec.getLsbD_ofNat,
    Nat.testBit_shiftRight]
  split
  next h => simp [h, hi]
  next h =>
    have hsub : b + (i - b) = i := by omega
    have hlt : i - b < a := by omega
    simp [hsub, hlt, hi]

theorem bits_beBytes (v n : Nat)
    : bits (beBytes v n) = Fips180.toBits (BitVec.ofNat (8 * n) v) := by
  induction n with
  | zero => rfl
  | succ n ih =>
    have hlen : 8 * (n + 1) = 8 + 8 * n := by omega
    rw [beBytes, bits_cons, ih, hlen, toBits_ofNat_add]
    rfl

def message (m : Bytes) (h : m.length < 2 ^ 61) : Fips180.Message :=
  ⟨bits m, by rw [length_bits]; omega⟩

theorem bits_padBytes (m : Bytes) (h : m.length < 2 ^ 61)
    : bits (padBytes m) = Fips180.pad (message m h) := by
  have hfirst : byteBits 0x80 = true :: List.replicate 7 false := by decide
  have hzeros : Fips180.zeros (8 * m.length) = 7 + 8 * zeroBytes m.length := by
    rw [Fips180.zeros_eq, zeroBytes]
    omega
  have hbits : (message m h).bits = bits m := rfl
  rw [padBytes, Fips180.pad, hbits, length_bits, hzeros, bits_append, bits_append, bits_cons,
    bits_replicate, bits_beBytes, hfirst, List.cons_append, List.replicate_append_replicate,
    Nat.mul_comm m.length]

end Padding

section Context

def absorbed (m : Bytes) : State :=
  absorb transform 64 init.state m

-- The context has been given the message `m`.
structure Given (c : Ctx) (m : Bytes) : Prop where
  feed : Feed transform 64 init.state m c.state c.block
  bitlen : c.bitlen = UInt64.ofNat (m.length * 8)

theorem given_init : Given init [] :=
  ⟨Feed.start _ (by omega) _, rfl⟩

theorem Given.updateByte {c : Ctx} {m : Bytes} (h : Given c m) (b : UInt8)
    : Given (updateByte c b) (m ++ [b]) := by
  have hbitlen : c.bitlen + 8 = UInt64.ofNat ((m ++ [b]).length * 8) := by
    rw [h.bitlen, List.length_append, List.length_singleton, Nat.add_mul, UInt64.ofNat_add]
    rfl
  have hlt := h.feed.lt
  unfold Sha256.updateByte
  dsimp only
  split
  next hfull =>
    rw [List.length_append] at hfull
    exact ⟨h.feed.complete hfull, hbitlen⟩
  next hfull =>
    rw [List.length_append, List.length_singleton] at hfull
    exact ⟨h.feed.append (by rw [List.length_singleton]; omega), hbitlen⟩

theorem Given.update {c : Ctx} {m : Bytes} (h : Given c m) (p : Bytes)
    : Given (update c p) (m ++ p) := by
  induction p generalizing c m with
  | nil =>
    rw [List.append_nil]
    exact h
  | cons b p ih =>
    have hrest := ih (h.updateByte b)
    rw [List.append_assoc] at hrest
    exact hrest

theorem Given.padZeros {c : Ctx} {m : Bytes} (h : Given c m) {n : Nat}
    (hn : (120 - c.block.length) % 64 < n)
    : Given (padZeros c n) (m ++ List.replicate ((120 - c.block.length) % 64) 0)
        ∧ (padZeros c n).block.length = 56 := by
  induction n generalizing c m with
  | zero => omega
  | succ n ih =>
    rw [Sha256.padZeros]
    split
    next h56 =>
      rw [h56, List.replicate_zero, List.append_nil]
      exact ⟨h, rfl⟩
    next h56 =>
      have hone := h.updateByte 0
      have hlt := h.feed.lt
      have hlen : (Sha256.updateByte c 0).block.length = (c.block.length + 1) % 64 := by
        rw [hone.feed.length_buf, h.feed.length_buf, List.length_append, List.length_singleton]
        omega
      obtain ⟨hgiven, hpad⟩ := ih hone (by omega)
      have hcount : (120 - c.block.length) % 64
          = 1 + (120 - (Sha256.updateByte c 0).block.length) % 64 := by omega
      rw [hcount, List.replicate_add, ← List.append_assoc]
      exact ⟨hgiven, hpad⟩

theorem final_eq {c : Ctx} {m : Bytes} (h : Given c m) (hm : m.length < 2 ^ 61)
    : final c = stateBytes (absorbed (padBytes m)) := by
  have hfirst := h.updateByte 0x80
  have hlt := h.feed.lt
  have hlen : (updateByte c 0x80).block.length = (m.length + 1) % 64 := by
    rw [hfirst.feed.length_buf, List.length_append, List.length_singleton]
  obtain ⟨hpad, h56⟩ := hfirst.padZeros (n := 64) (by omega)
  have hzeros : (120 - (updateByte c 0x80).block.length) % 64 = zeroBytes m.length := by
    rw [hlen, zeroBytes]
    omega
  have hbits : c.bitlen.toNat = m.length * 8 := by
    rw [h.bitlen, UInt64.toNat_ofNat', Nat.mod_eq_of_lt (by omega)]
  have hlast := hpad.feed.absorb_eq (p := beBytes (m.length * 8) 8) (by rw [h56, length_beBytes])
  unfold final
  dsimp only
  rw [hbits, hlast, hzeros, absorbed, padBytes, List.append_assoc m, List.singleton_append]
  rfl

theorem loadWord_wordBytes (w : UInt32)
    : loadWord (w >>> 24).toUInt8 (w >>> 16).toUInt8 (w >>> 8).toUInt8 w.toUInt8 = w := by
  have h24 : ((24 : UInt32).toBitVec % 32).toNat = 24 := rfl
  have h16 : ((16 : UInt32).toBitVec % 32).toNat = 16 := rfl
  have h8 : ((8 : UInt32).toBitVec % 32).toNat = 8 := rfl
  apply UInt32.toBitVec_inj.mp
  rw [toBitVec_loadWord]
  apply BitVec.eq_of_getLsbD_eq
  intro i hi
  simp only [UInt32.toBitVec_toUInt8, UInt32.toBitVec_shiftRight, BitVec.ushiftRight_eq', h24, h16,
    h8, BitVec.getLsbD_append, BitVec.getLsbD_setWidth, BitVec.getLsbD_ushiftRight]
  grind

theorem bits_wordBytes (w : UInt32) : bits (wordBytes w) = Fips180.toBits w.toBitVec := by
  rw [wordBytes, bits_word, loadWord_wordBytes]

theorem bits_stateBytes (s : State)
    : bits (stateBytes s) = s.toHash.toList.flatMap Fips180.toBits := by
  simp only [stateBytes, bits_append, bits_wordBytes, State.toHash, Fips180.Hash.toList,
    List.flatMap_cons, List.flatMap_nil, List.append_nil, List.append_assoc]

theorem toHash_absorbed {m : Bytes} {k : Nat} (hm : m.length = 64 * k)
    : (absorbed m).toHash = absorb Fips180.compress 512 Fips180.initial (bits m) := by
  rw [absorbed, ← init_eq]
  exact BlockHash.absorb_flatMap (by omega) (by omega) length_byteBits toHash_transform
    init.state hm

theorem bits_final {c : Ctx} {m : Bytes} (hgiven : Given c m) (h : m.length < 2 ^ 61)
    : bits (final c) = Fips180.sha256 (message m h) := by
  rw [final_eq hgiven h, bits_stateBytes, toHash_absorbed (length_padBytes m), bits_padBytes m h]
  rfl

end Context

section Calls

-- The calls of `harp_sha256_update` one after the other.
def Stream.updates (c : Stream) (pieces : List Bytes) : Stream :=
  pieces.foldl Stream.update c

-- `harp_sha256_digest`
def Stream.digest (block : Vector UInt8 64) (data : Bytes) : Bytes :=
  ((Stream.init block).update data).final

theorem Simulates.updates {s : Stream} {c : Ctx} (h : Simulates s c) (pieces : List Bytes)
    : Simulates (s.updates pieces) (Sha256.update c pieces.flatten) := by
  induction pieces generalizing s c with
  | nil => exact h
  | cons p pieces ih =>
    have hsplit : Sha256.update c (p :: pieces).flatten
        = Sha256.update (Sha256.update c p) pieces.flatten := by
      rw [List.flatten_cons, Sha256.update, List.foldl_append]
      rfl
    rw [hsplit]
    exact ih (h.update p)

theorem digest_eq (block : Vector UInt8 64) (data : Bytes)
    : Stream.digest block data = sha256Digest data :=
  ((Simulates.init block).update data).final

example : beNat (sha256Digest (ascii "abc"))
    = 0xba7816bf8f01cfea414140de5dae2223b00361a396177a9cb410ff61f20015ad := by
  decide +kernel

theorem digest_of_pieces (block block' : Vector UInt8 64) (pieces : List Bytes)
    (h : pieces.flatten.length < 2 ^ 61)
    : bits ((Stream.init block).updates pieces).final
          = Fips180.sha256 (message pieces.flatten h)
        ∧ ((Stream.init block).updates pieces).final.length = 32
        ∧ ((Stream.init block).updates pieces).final = Stream.digest block' pieces.flatten := by
  have hsim := (Simulates.init block).updates pieces
  rw [digest_eq, hsim.final]
  exact ⟨bits_final (given_init.update _) h, length_sha256Digest _, rfl⟩

theorem digest_of_pieces_abc
    : bits ((Stream.init (Vector.replicate 64 0xaa)).updates [ascii "a", [], ascii "bc", []]).final
          = Fips180.sha256 (message (ascii "abc") (by decide))
        ∧ ((Stream.init (Vector.replicate 64 0xaa)).updates
            [ascii "a", [], ascii "bc", []]).final.length = 32
        ∧ ((Stream.init (Vector.replicate 64 0xaa)).updates [ascii "a", [], ascii "bc", []]).final
          = Stream.digest (Vector.replicate 64 0) (ascii "abc") :=
  digest_of_pieces (Vector.replicate 64 0xaa) (Vector.replicate 64 0)
    [ascii "a", [], ascii "bc", []] (by decide)

end Calls

end Sha256

end Harp
