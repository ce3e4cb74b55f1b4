import Harp.Core.CborLemmas
import Harp.Core.Sha256

/-!
This module contains the streaming context of `core/src/sha256.c` with its block buffer as the
memory it is: bytes are copied into it in runs of up to 64 and are left there when the block has
been hashed. It is shown to simulate the context of `Core/Sha256.lean`, that takes one byte at a
time.
-/

namespace Harp

namespace Sha256

-- A completed block has been hashed before a call returns.
structure Stream where
  state : State
  bitlen : UInt64
  block : Vector UInt8 64
  blocklen : Nat
  hlt : blocklen < 64

def memcpyAt (block : Vector UInt8 64) (pos : Nat) (p : Bytes) : Vector UInt8 64 :=
  Vector.ofFn fun i => if pos ≤ i ∧ i < pos + p.length then p.getD (i - pos) 0 else block[i]

def stateBytes (s : State) : Bytes :=
  wordBytes s.a ++ wordBytes s.b ++ wordBytes s.c ++ wordBytes s.d ++ wordBytes s.e
    ++ wordBytes s.f ++ wordBytes s.g ++ wordBytes s.h

namespace Stream

-- `harp_sha256_init` does not write the block: it holds what the memory held.
def init (block : Vector UInt8 64) : Stream :=
  ⟨Sha256.init.state, 0, block, 0, by omega⟩

def taken (c : Stream) (p : Bytes) : Nat :=
  min (64 - c.blocklen) p.length

-- One pass of the loop of `harp_sha256_update`.
def fill (c : Stream) (p : Bytes) : Stream :=
  let take := c.taken p
  let block := memcpyAt c.block c.blocklen (p.take take)
  let bitlen := c.bitlen + UInt64.ofNat take * 8
  if h : c.blocklen + take = 64 then
    ⟨transform c.state block.toList, bitlen, block, 0, by omega⟩
  else
    ⟨c.state, bitlen, block, c.blocklen + take, by
      have := c.hlt
      simp only [take, taken] at h ⊢
      omega⟩

def update (c : Stream) (p : Bytes) : Stream :=
  if p = [] then
    c
  else
    update (c.fill p) (p.drop (c.taken p))
termination_by p.length
decreasing_by
  have hpos := List.length_pos_iff.mpr ‹¬p = []›
  have hlt := c.hlt
  rw [List.length_drop, taken]
  omega

theorem blocklen_fill (c : Stream) (p : Bytes)
    : (c.fill p).blocklen = (c.blocklen + c.taken p) % 64 := by
  have hlt := c.hlt
  have htaken : c.taken p ≤ 64 - c.blocklen := Nat.min_le_left _ _
  unfold fill
  dsimp only
  split
  next h => rw [h]
  next h =>
    dsimp only
    omega

theorem taken_byte (c : Stream) (b : UInt8) : c.taken [b] = 1 := by
  have hlt := c.hlt
  rw [taken, List.length_singleton]
  omega

theorem update_byte (c : Stream) (b : UInt8) : c.update [b] = c.fill [b] := by
  rw [update, if_neg (List.cons_ne_nil _ _), taken_byte, List.drop_one, List.tail_cons, update,
    if_pos rfl]

def padZeros (c : Stream) : Stream :=
  if c.blocklen = 56 then
    c
  else
    padZeros (c.update [0])
termination_by (120 - c.blocklen) % 64
decreasing_by
  have hlt := c.hlt
  rw [update_byte, blocklen_fill, taken_byte]
  omega

theorem blocklen_padZeros (c : Stream) : c.padZeros.blocklen = 56 := by
  fun_induction padZeros c with
  | case1 c h => exact h
  | case2 c h ih => exact ih

def final (c : Stream) : Bytes :=
  let bits := c.bitlen
  let c := c.update [0x80]
  let c := c.padZeros
  -- the length field does not go through the accounting of `bitlen`
  let block := memcpyAt c.block 56 (beBytes bits.toNat 8)
  stateBytes (transform c.state block.toList)

end Stream

theorem toList_memcpyAt (block : Vector UInt8 64) (pos : Nat) (p : Bytes)
    (h : pos + p.length ≤ 64)
    : (memcpyAt block pos p).toList
        = block.toList.take pos ++ p ++ block.toList.drop (pos + p.length) := by
  have htake : min pos 64 = pos := by omega
  apply List.ext_getElem
  . simp
    omega
  . intro i hi hi'
    rw [Vector.length_toList] at hi
    simp only [memcpyAt, Vector.getElem_toList, Vector.getElem_ofFn, List.getElem_append,
      List.getElem_take, List.getElem_drop, List.length_append, List.length_take,
      Vector.length_toList, htake]
    by_cases hbefore : i < pos
    . rw [if_neg (by omega), dif_pos (by omega), dif_pos hbefore]
      rfl
    . by_cases hin : i < pos + p.length
      . rw [if_pos ⟨by omega, hin⟩, dif_pos hin, dif_neg hbefore,
          List.getD_eq_getElem _ _ (by omega)]
      . rw [if_neg (by omega), dif_neg hin]
        simp only [Nat.add_sub_of_le (Nat.not_lt.mp hin)]
        rfl

-- The bytes of the block that count.
def Stream.held (c : Stream) : Bytes :=
  c.block.toList.take c.blocklen

structure Simulates (s : Stream) (c : Ctx) : Prop where
  state : s.state = c.state
  bitlen : s.bitlen = c.bitlen
  block : s.held = c.block

theorem bitlen_snoc (x : UInt64) (n : Nat)
    : x + UInt64.ofNat n * 8 + 8 = x + UInt64.ofNat (n + 1) * 8 := by
  rw [UInt64.ofNat_add, UInt64.add_mul, UInt64.add_assoc]
  rfl

theorem update_of_lt (c : Ctx) {p : Bytes} (h : c.block.length + p.length < 64)
    : update c p = ⟨c.state, c.bitlen + UInt64.ofNat p.length * 8, c.block ++ p⟩ := by
  induction p using List.reverseRecOn with
  | nil => simp [update]
  | append_singleton p b ih =>
    rw [List.length_append, List.length_singleton] at h
    have hone : update c (p ++ [b]) = updateByte (update c p) b := by
      rw [update, update, List.foldl_append, List.foldl_cons, List.foldl_nil]
    rw [hone, ih (by omega), updateByte]
    dsimp only
    rw [if_neg (by simp; omega), bitlen_snoc, List.length_append, List.length_singleton,
      List.append_assoc]

theorem update_of_eq (c : Ctx) {p : Bytes} (hp : p ≠ []) (h : c.block.length + p.length = 64)
    : update c p
        = ⟨transform c.state (c.block ++ p), c.bitlen + UInt64.ofNat p.length * 8, []⟩ := by
  obtain ⟨p, b, rfl⟩ := (List.eq_nil_or_concat' p).resolve_left hp
  rw [List.length_append, List.length_singleton] at h
  have hone : update c (p ++ [b]) = updateByte (update c p) b := by
    rw [update, update, List.foldl_append, List.foldl_cons, List.foldl_nil]
  rw [hone, update_of_lt c (by omega), updateByte]
  dsimp only
  rw [if_pos (by simp; omega), bitlen_snoc, List.length_append, List.length_singleton,
    List.append_assoc]

namespace Simulates

variable {s : Stream} {c : Ctx}

theorem length_block (h : Simulates s c) : c.block.length = s.blocklen := by
  have hlt := s.hlt
  rw [← h.block, Stream.held, List.length_take, Vector.length_toList]
  omega

theorem init (block : Vector UInt8 64) : Simulates (Stream.init block) Sha256.init :=
  ⟨rfl, rfl, rfl⟩

theorem fill (h : Simulates s c) {p : Bytes} (hp : p ≠ [])
    : Simulates (s.fill p) (Sha256.update c (p.take (s.taken p))) := by
  have hlt := s.hlt
  have hlen := h.length_block
  have hpos := List.length_pos_iff.mpr hp
  have hle : s.taken p ≤ 64 - s.blocklen := Nat.min_le_left _ _
  have htake : (p.take (s.taken p)).length = s.taken p := by
    rw [List.length_take, Stream.taken]
    omega
  have hcopy := toList_memcpyAt s.block s.blocklen (p.take (s.taken p)) (by omega)
  rw [htake] at hcopy
  have hheld : s.block.toList.take s.blocklen = c.block := h.block
  unfold Stream.fill
  dsimp only
  split
  next hfull =>
    have hne : p.take (s.taken p) ≠ [] := by
      apply List.ne_nil_of_length_pos
      rw [htake, Stream.taken]
      omega
    have hblock : (memcpyAt s.block s.blocklen (p.take (s.taken p))).toList
        = c.block ++ p.take (s.taken p) := by
      rw [hcopy, hheld, hfull, List.drop_of_length_le (by simp), List.append_nil]
    rw [update_of_eq c hne (by omega), htake]
    exact ⟨by rw [hblock, h.state], by rw [h.bitlen], rfl⟩
  next hfull =>
    rw [update_of_lt c (by omega), htake]
    refine ⟨h.state, by rw [h.bitlen], ?_⟩
    rw [Stream.held]
    dsimp only
    rw [hcopy, hheld, List.take_left' (by rw [List.length_append, htake]; omega)]

theorem update (h : Simulates s c) (p : Bytes)
    : Simulates (s.update p) (Sha256.update c p) := by
  fun_induction Stream.update s p generalizing c with
  | case1 s => exact h
  | case2 s p hp ih =>
    have hsplit : Sha256.update c p
        = Sha256.update (Sha256.update c (p.take (s.taken p))) (p.drop (s.taken p)) := by
      rw [Sha256.update, Sha256.update, Sha256.update, ← List.foldl_append,
        List.take_append_drop]
    rw [hsplit]
    exact ih (h.fill hp)

theorem padZeros (h : Simulates s c) {n : Nat} (hn : (120 - s.blocklen) % 64 < n)
    : Simulates s.padZeros (Sha256.padZeros c n) := by
  induction n generalizing s c with
  | zero => omega
  | succ n ih =>
    rw [Stream.padZeros, Sha256.padZeros, h.length_block]
    split
    . exact h
    . have hone := h.update [0]
      have hlen := s.blocklen_fill [0]
      rw [s.taken_byte, ← s.update_byte] at hlen
      apply ih hone
      have hlt := s.hlt
      omega

theorem final (h : Simulates s c) : s.final = Sha256.final c := by
  have hpad : Simulates (s.update [0x80]).padZeros (Sha256.padZeros (updateByte c 0x80) 64) :=
    (h.update [0x80]).padZeros (by omega)
  have hlen := Stream.blocklen_padZeros (s.update [0x80])
  have hcopy := toList_memcpyAt (s.update [0x80]).padZeros.block 56
    (beBytes s.bitlen.toNat 8) (by simp [length_beBytes])
  have hheld : (s.update [0x80]).padZeros.block.toList.take 56
      = (Sha256.padZeros (updateByte c 0x80) 64).block := by
    rw [← hpad.block, Stream.held, hlen]
  rw [hheld, List.drop_of_length_le (by simp [length_beBytes]), List.append_nil] at hcopy
  unfold Stream.final Sha256.final
  dsimp only
  rw [hcopy, hpad.state, h.bitlen]
  rfl

end Simulates

end Sha256

end Harp
