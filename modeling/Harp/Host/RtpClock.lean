import Harp.Host.RtpFrames
import Harp.Lib.Run
import Mathlib.Data.Int.Interval

/-!
This module contains what the reader makes of the counters of an RTP stream: the timestamps it
unwraps for the clock recovery of `shell/runtime_audio.cpp`, which of them it observes, and the
losses it counts.
-/

namespace Harp.RtpClock

open Runs

-- The difference is signed, and is added modulo 2 ^ 64.
def rtpUnwrapTs (ts32 : UInt32) (prev64 : UInt64) : UInt64 :=
  let delta := (ts32 - prev64.toUInt32).toInt32
  prev64 + UInt64.ofInt delta.toInt

-- The largest of some numbers.
def highest : List Int → Option Int
  | [] => none
  | n :: ns =>
    match highest ns with
    | none => some n
    | some h => some (if h < n then n else h)

-- A packet by its true number; `frame` is the true index of the samples it makes complete.
structure Arrival where
  num : Int
  frame : Option Int

-- A frame the reader got: what its timestamp was unwrapped to, and whether that was an advance.
structure Seen where
  sample : Int
  dev : UInt64
  advance : Bool
deriving DecidableEq

-- The lists have what arrived, the latest first.
structure Reader where
  rx : RtpRx
  prevTs : UInt64
  tsPrimed : Bool
  nums : List Int
  seen : List Seen

namespace Reader

def start : Reader :=
  ⟨RtpRx.fresh, 0, false, [], []⟩

def observe (r : Reader) (sample : Int) : Reader :=
  let dev := rtpUnwrapTs (UInt32.ofInt sample) r.prevTs
  let advance := !r.tsPrimed || decide (r.prevTs < dev)
  let r := { r with seen := ⟨sample, dev, advance⟩ :: r.seen }
  if advance then { r with prevTs := dev, tsPrimed := true } else r

def next (r : Reader) (a : Arrival) : Reader :=
  let r := { r with rx := r.rx.countLoss (UInt16.ofNat (a.num % 65536).toNat), nums := a.num :: r.nums }
  match a.frame with
  | some sample => r.observe sample
  | none => r

-- What is on the wire tells the true numbers from the highest before apart.
def Near (r : Reader) (a : Arrival) : Prop :=
  (∀ h ∈ highest r.nums, -32768 < a.num - h ∧ a.num - h ≤ 32768)
    ∧ ∀ x ∈ a.frame, ∀ h ∈ highest (r.seen.map Seen.sample),
        -2147483648 ≤ x - h ∧ x - h < 2147483648
deriving Decidable

end Reader

-- The numbers that were jumped over when they were passed.
noncomputable def skipped : List Int → Finset Int
  | [] => ∅
  | n :: ns =>
    match highest ns with
    | none => ∅
    | some h => Finset.Ioo h n ∪ skipped ns

-- The differences of the unwrapped timestamps are the true ones, and so is what advances.
def Exact : List Seen → Prop
  | [] => True
  | s :: earlier =>
    Exact earlier ∧ (s.advance = true ↔ ∀ e ∈ earlier, e.sample < s.sample)
      ∧ ∀ e ∈ earlier, (s.dev.toNat : Int) - e.dev.toNat = s.sample - e.sample

/--
From a first timestamp below 2 ^ 31 no frame is older than its stream, and from one above it none
comes past the next wrap of the timestamps.
-/
def Fits (first sample : Int) : Prop :=
  let t := first % 4294967296
  if t < 2147483648 then
    0 ≤ t + (sample - first) ∧ t + (sample - first) < 18446744073709551616
  else
    t + (sample - first) < 4294967296
deriving Decidable

def FitsAll (seen : List Seen) : Prop :=
  ∀ f ∈ seen.getLast?, ∀ s ∈ seen, Fits f.sample s.sample
deriving Decidable

section Unwrap

theorem toNat_unwrap {ts32 : UInt32} {prev64 : UInt64} {x h : Int}
    (hts : (ts32.toNat : Int) = x % 4294967296)
    (hprev : (prev64.toNat : Int) % 4294967296 = h % 4294967296)
    (hlow : -2147483648 ≤ x - h) (hhigh : x - h < 2147483648)
    : ((rtpUnwrapTs ts32 prev64).toNat : Int)
        = (prev64.toNat + (x - h)) % 18446744073709551616 := by
  have hdelta : (ts32 - prev64.toUInt32).toInt32.toInt = x - h := by
    have hint : (ts32 - prev64.toUInt32).toInt32.toInt
        = (ts32 - prev64.toUInt32).toBitVec.toInt := rfl
    have hnat : (ts32 - prev64.toUInt32).toBitVec.toNat
        = (4294967296 - prev64.toNat % 4294967296 + ts32.toNat) % 4294967296 := by
      have hsub : (ts32 - prev64.toUInt32).toBitVec.toNat = (ts32 - prev64.toUInt32).toNat := rfl
      rw [hsub, UInt32.toNat_sub, UInt64.toNat_toUInt32]
    rw [hint, BitVec.toInt_eq_toNat_cond, hnat]
    split
    . omega
    . omega
  unfold rtpUnwrapTs
  dsimp only
  rw [hdelta]
  unfold UInt64.ofInt
  rw [UInt64.toNat_add, UInt64.toNat_ofNat']
  omega

end Unwrap

section Highest

variable {n h : Int} {ns : List Int}

theorem highest_cons (hh : highest ns = some h)
    : highest (n :: ns) = some (if h < n then n else h) := by
  unfold highest
  rw [hh]

theorem exists_highest (hne : ns ≠ []) : ∃ h, highest ns = some h := by
  cases ns with
  | nil => exact absurd rfl hne
  | cons n ns =>
    cases hh : highest ns with
    | none =>
      refine ⟨n, ?_⟩
      unfold highest
      rw [hh]
    | some h => exact ⟨_, highest_cons hh⟩

theorem highest_mem_le (hh : highest ns = some h) : h ∈ ns ∧ ∀ m ∈ ns, m ≤ h := by
  induction ns generalizing h with
  | nil => cases hh
  | cons n ns ih =>
    cases ns with
    | nil =>
      cases hh
      refine ⟨List.mem_singleton_self n, ?_⟩
      intro m hm
      rw [List.mem_singleton.mp hm]
    | cons n' ns =>
      rcases exists_highest (List.cons_ne_nil n' ns) with ⟨h', hh'⟩
      rcases ih hh' with ⟨hmem, hle⟩
      rw [highest_cons hh', Option.some.injEq] at hh
      split at hh
      next hlt =>
        rw [← hh]
        refine ⟨List.mem_cons_self, ?_⟩
        intro m hm
        rcases List.mem_cons.mp hm with rfl | hm
        . exact Int.le_refl m
        . exact Int.le_of_lt (Int.lt_of_le_of_lt (hle m hm) hlt)
      next hge =>
        rw [← hh]
        refine ⟨List.mem_cons_of_mem n hmem, ?_⟩
        intro m hm
        rcases List.mem_cons.mp hm with rfl | hm
        . exact Int.not_lt.mp hge
        . exact hle m hm

end Highest

section Loss

variable {ns : List Int} {r : Reader}

theorem lt_of_mem_skipped {h m : Int} (hh : highest ns = some h) (hm : m ∈ skipped ns) : m < h := by
  induction ns generalizing h with
  | nil => cases hh
  | cons n ns ih =>
    unfold skipped at hm
    cases hh' : highest ns with
    | none =>
      rw [hh'] at hm
      cases Finset.notMem_empty m hm
    | some h' =>
      rw [hh'] at hm
      rw [highest_cons hh', Option.some.injEq] at hh
      rcases Finset.mem_union.mp hm with hnew | hold
      . have hlt := (Finset.mem_Ioo.mp hnew).2
        have hgt := (Finset.mem_Ioo.mp hnew).1
        rw [if_pos (Int.lt_trans hgt hlt)] at hh
        rw [← hh]
        exact hlt
      . have hlt := ih hh' hold
        rw [← hh]
        split
        . omega
        . exact hlt

-- What one packet adds to the losses.
theorem card_skipped_cons {n h : Int} (hh : highest ns = some h)
    : (skipped (n :: ns)).card = (n - h - 1).toNat + (skipped ns).card := by
  have heq : skipped (n :: ns) = Finset.Ioo h n ∪ skipped ns := by
    conv => lhs; unfold skipped
    rw [hh]
  rw [heq, Finset.card_union_of_disjoint, Int.card_Ioo]
  rw [Finset.disjoint_left]
  intro m hm hold
  have hgt := (Finset.mem_Ioo.mp hm).1
  have hlt := lt_of_mem_skipped hh hold
  omega

-- The sequence number kept is that of the highest packet, and the losses are counted.
structure Counts (r : Reader) : Prop where
  fresh : r.nums = [] → r.rx.seqValid = false ∧ r.rx.rtpLost = 0
  valid : ∀ h, highest r.nums = some h →
    r.rx.seqValid = true ∧ (r.rx.lastSeq.toNat : Int) = h % 65536
  lost : r.rx.rtpLost.toNat = (skipped r.nums).card % 18446744073709551616

theorem rx_observe (r : Reader) (sample : Int)
    : (r.observe sample).rx = r.rx ∧ (r.observe sample).nums = r.nums := by
  unfold Reader.observe
  dsimp only
  split
  . exact ⟨rfl, rfl⟩
  . exact ⟨rfl, rfl⟩

theorem toNat_seq (n : Int) : ((UInt16.ofNat (n % 65536).toNat).toNat : Int) = n % 65536 := by
  rw [UInt16.toNat_ofNat']
  omega

theorem Counts.countLoss (h : Counts r) (n : Int)
    (hnear : ∀ h, highest r.nums = some h → -32768 < n - h ∧ n - h ≤ 32768)
    : Counts { r with
        rx := r.rx.countLoss (UInt16.ofNat (n % 65536).toNat)
        nums := n :: r.nums } := by
  have hseq := toNat_seq n
  cases hh : highest r.nums with
  | none =>
    have hempty : r.nums = [] := by
      by_contra hne
      rcases exists_highest hne with ⟨h', hh'⟩
      rw [hh] at hh'
      cases hh'
    rcases h.fresh hempty with ⟨hinvalid, hzero⟩
    have hrx : r.rx.countLoss (UInt16.ofNat (n % 65536).toNat)
        = { r.rx with lastSeq := UInt16.ofNat (n % 65536).toNat, seqValid := true } := by
      unfold RtpRx.countLoss
      rw [hinvalid, if_neg Bool.false_ne_true]
    rw [hrx, hempty]
    refine ⟨fun hne => absurd hne (List.cons_ne_nil n []), ?_, ?_⟩
    . intro h' hh'
      cases hh'
      exact ⟨rfl, hseq⟩
    . dsimp only
      rw [hzero]
      rfl
  | some high =>
    rcases h.valid high hh with ⟨hvalid, hlast⟩
    rcases hnear high hh with ⟨hlow, hhigh⟩
    have hgap : (UInt16.ofNat (n % 65536).toNat - r.rx.lastSeq - 1).toNat
        = if high < n then (n - high - 1).toNat else (65536 + n - high - 1).toNat := by
      rw [UInt16.toNat_sub, UInt16.toNat_sub]
      have hone : (1 : UInt16).toNat = 1 := rfl
      rw [hone]
      split
      . omega
      . omega
    have hcard := card_skipped_cons (n := n) hh
    have hlost := h.lost
    have hforward : UInt16.ofNat (n % 65536).toNat - r.rx.lastSeq - 1 < 0x8000 ↔ high < n := by
      have hhalf : (0x8000 : UInt16).toNat = 32768 := rfl
      rw [UInt16.lt_iff_toNat_lt, hgap, hhalf]
      split
      . omega
      . omega
    by_cases hlt : high < n
    . have hrx : r.rx.countLoss (UInt16.ofNat (n % 65536).toNat)
          = { r.rx with
            rtpLost := r.rx.rtpLost
              + (UInt16.ofNat (n % 65536).toNat - r.rx.lastSeq - 1).toUInt64
            lastSeq := UInt16.ofNat (n % 65536).toNat } := by
        unfold RtpRx.countLoss rtpLossGap
        rw [if_pos hvalid, if_pos (hforward.mpr hlt)]
        rfl
      rw [hrx]
      refine ⟨fun hne => absurd hne (List.cons_ne_nil n r.nums), ?_, ?_⟩
      . intro h' hh'
        rw [highest_cons hh, Option.some.injEq, if_pos hlt] at hh'
        rw [← hh']
        exact ⟨hvalid, hseq⟩
      . dsimp only
        rw [if_pos hlt] at hgap
        rw [UInt64.toNat_add, UInt16.toNat_toUInt64, hgap, hcard]
        omega
    . have hrx : r.rx.countLoss (UInt16.ofNat (n % 65536).toNat) = r.rx := by
        unfold RtpRx.countLoss rtpLossGap
        rw [if_pos hvalid, if_neg (fun hgt => hlt (hforward.mp hgt))]
        have hzero : r.rx.rtpLost + (0 : UInt16).toUInt64 = r.rx.rtpLost := by
          apply UInt64.toNat.inj
          rw [UInt64.toNat_add, UInt16.toNat_toUInt64, UInt16.toNat_zero, Nat.add_zero,
            Nat.mod_eq_of_lt r.rx.rtpLost.toNat_lt]
        dsimp only
        rw [hzero, if_neg Bool.false_ne_true]
      rw [hrx]
      refine ⟨fun hne => absurd hne (List.cons_ne_nil n r.nums), ?_, ?_⟩
      . intro h' hh'
        rw [highest_cons hh, Option.some.injEq, if_neg hlt] at hh'
        rw [← hh']
        exact ⟨hvalid, hlast⟩
      . dsimp only
        have hnone : (n - high - 1).toNat = 0 := by omega
        rw [hcard, hnone, Nat.zero_add]
        exact hlost

theorem counts_start : Counts Reader.start := by
  refine ⟨fun _ => ⟨rfl, rfl⟩, ?_, rfl⟩
  intro h hh
  cases hh

theorem Counts.next (h : Counts r) (a : Arrival) (hnear : r.Near a) : Counts (r.next a) := by
  have hcount := h.countLoss a.num hnear.1
  unfold Reader.next
  dsimp only
  split
  next sample _ =>
    rcases rx_observe { r with
      rx := r.rx.countLoss (UInt16.ofNat (a.num % 65536).toNat)
      nums := a.num :: r.nums } sample with ⟨hrx, hnums⟩
    constructor
    . rw [hrx, hnums]
      exact hcount.fresh
    . rw [hrx, hnums]
      exact hcount.valid
    . rw [hrx, hnums]
      exact hcount.lost
  next => exact hcount

theorem counts_run (h : Run Reader.next Reader.Near .start r) : Counts r :=
  h.inv counts_start (fun _ a hs hnear => hs.next a hnear)

end Loss

section Clock

variable {r : Reader} {f : Seen}

-- What the first timestamp of a stream is unwrapped to.
def base (first : Int) : Int :=
  if first % 4294967296 < 2147483648 then
    first % 4294967296
  else
    first % 4294967296 - 4294967296 + 18446744073709551616

theorem base_mod (first : Int) : base first % 4294967296 = first % 4294967296 := by
  unfold base
  split
  . omega
  . omega

theorem toNat_ofInt (x : Int) : ((UInt32.ofInt x).toNat : Int) = x % 4294967296 := by
  unfold UInt32.ofInt
  rw [UInt32.toNat_ofNat']
  omega

theorem toNat_first (x : Int) : ((rtpUnwrapTs (UInt32.ofInt x) 0).toNat : Int) = base x := by
  have hzero : ((0 : UInt64).toNat : Int) = 0 := rfl
  unfold base
  by_cases hlow : x % 4294967296 < 2147483648
  . rw [if_pos hlow, toNat_unwrap (x := x % 4294967296) (h := 0) (by rw [toNat_ofInt]; omega) rfl
      (by omega) (by omega), hzero]
    omega
  . rw [if_neg hlow, toNat_unwrap (x := x % 4294967296 - 4294967296) (h := 0)
      (by rw [toNat_ofInt]; omega) rfl (by omega) (by omega), hzero]
    omega

-- In a stream that fits, the frames are at their distance from the first.
structure Tracks (r : Reader) (f : Seen) : Prop where
  primed : r.tsPrimed = true
  prev : ∀ h, highest (r.seen.map Seen.sample) = some h →
    (r.prevTs.toNat : Int) = base f.sample + (h - f.sample)
  devs : ∀ s ∈ r.seen, (s.dev.toNat : Int) = base f.sample + (s.sample - f.sample)
  exact : Exact r.seen

theorem fits_range {first sample h : Int} (hfits : Fits first sample) (hfirst : first ≤ h)
    (hnear : -2147483648 ≤ sample - h)
    : 0 ≤ base first + (sample - first)
        ∧ base first + (sample - first) < 18446744073709551616 := by
  unfold Fits at hfits
  dsimp only at hfits
  unfold base
  split at hfits
  next hlow =>
    rw [if_pos hlow]
    exact hfits
  next hhigh =>
    rw [if_neg hhigh]
    omega

theorem fits_of_range {first sample : Int} (hlow : 0 ≤ base first + (sample - first))
    (hhigh : base first + (sample - first) < 18446744073709551616) : Fits first sample := by
  unfold base at hlow hhigh
  unfold Fits
  dsimp only
  split at hlow
  next h =>
    rw [if_pos h] at hhigh ⊢
    exact ⟨hlow, hhigh⟩
  next h =>
    rw [if_neg h] at hhigh ⊢
    omega

theorem observe_seen (r : Reader) (sample : Int)
    : ∃ advance, (r.observe sample).seen
        = ⟨sample, rtpUnwrapTs (UInt32.ofInt sample) r.prevTs, advance⟩ :: r.seen := by
  unfold Reader.observe
  dsimp only
  split
  . exact ⟨_, rfl⟩
  . exact ⟨_, rfl⟩

theorem tracks_first (sample : Int) (hempty : r.seen = []) (hprev : r.prevTs = 0)
    (hunprimed : r.tsPrimed = false)
    : ∃ f, (r.observe sample).seen = [f] ∧ f.sample = sample ∧ Tracks (r.observe sample) f := by
  have hfirst := toNat_first sample
  unfold Reader.observe
  dsimp only
  rw [hunprimed, Bool.not_false, Bool.true_or, if_pos rfl, hempty, hprev]
  refine ⟨_, rfl, rfl, rfl, ?_, ?_, ?_⟩
  . intro h hh
    cases hh
    dsimp only
    omega
  . intro s hs
    rw [List.mem_singleton.mp hs]
    dsimp only
    omega
  . refine ⟨trivial, ⟨?_, fun _ => rfl⟩, ?_⟩
    . intro _ e he
      cases he
    . intro e he
      cases he

-- One more frame of a stream that fits.
theorem Tracks.observe (h : Tracks r f) {sample high : Int} (hmem : f ∈ r.seen)
    (hh : highest (r.seen.map Seen.sample) = some high) (hlow : -2147483648 ≤ sample - high)
    (hhigh : sample - high < 2147483648) (hfits : Fits f.sample sample)
    : Tracks (r.observe sample) f := by
  rcases highest_mem_le hh with ⟨_, hle⟩
  have hfirst : f.sample ≤ high := hle _ (List.mem_map_of_mem hmem)
  rcases fits_range hfits hfirst hlow with ⟨hzero, hword⟩
  have hprev := h.prev high hh
  have hmod := base_mod f.sample
  have hdev : ((rtpUnwrapTs (UInt32.ofInt sample) r.prevTs).toNat : Int)
      = base f.sample + (sample - f.sample) := by
    rw [toNat_unwrap (x := sample) (h := high) (toNat_ofInt sample) (by omega) hlow hhigh, hprev]
    omega
  have hadvance : r.prevTs < rtpUnwrapTs (UInt32.ofInt sample) r.prevTs ↔ high < sample := by
    rw [UInt64.lt_iff_toNat_lt]
    omega
  have hexact : ∀ advance : Bool, (advance = true ↔ high < sample) →
      Exact (⟨sample, rtpUnwrapTs (UInt32.ofInt sample) r.prevTs, advance⟩ :: r.seen) := by
    intro advance hadv
    refine ⟨h.exact, ?_, ?_⟩
    . rw [hadv]
      constructor
      . intro hlt e he
        exact Int.lt_of_le_of_lt (hle _ (List.mem_map_of_mem he)) hlt
      . intro hall
        rcases List.mem_map.mp (highest_mem_le hh).1 with ⟨e, he, heq⟩
        rw [← heq]
        exact hall e he
    . intro e he
      have hold := h.devs e he
      dsimp only
      omega
  have hdevs : ∀ advance : Bool, ∀ s ∈ (⟨sample, rtpUnwrapTs (UInt32.ofInt sample) r.prevTs,
      advance⟩ :: r.seen : List Seen), (s.dev.toNat : Int) = base f.sample
        + (s.sample - f.sample) := by
    intro advance s hs
    rcases List.mem_cons.mp hs with rfl | hs
    . exact hdev
    . exact h.devs s hs
  have hnext : highest (sample :: r.seen.map Seen.sample)
      = some (if high < sample then sample else high) := highest_cons hh
  unfold Reader.observe
  dsimp only
  rw [h.primed, Bool.not_true, Bool.false_or]
  by_cases hlt : high < sample
  . rw [decide_eq_true (hadvance.mpr hlt), if_pos rfl]
    refine ⟨rfl, ?_, hdevs true, hexact true ⟨fun _ => hlt, fun _ => rfl⟩⟩
    intro h' hh'
    have hsame : some (if high < sample then sample else high) = some h' := hnext.symm.trans hh'
    rw [if_pos hlt, Option.some.injEq] at hsame
    rw [← hsame]
    exact hdev
  . rw [decide_eq_false (fun hgt => hlt (hadvance.mp hgt)), if_neg Bool.false_ne_true]
    have hkept : false = true ↔ high < sample :=
      ⟨fun hf => absurd hf Bool.false_ne_true, fun hgt => absurd hgt hlt⟩
    refine ⟨rfl, ?_, hdevs false, hexact false hkept⟩
    intro h' hh'
    have hsame : some (if high < sample then sample else high) = some h' := hnext.symm.trans hh'
    rw [if_neg hlt, Option.some.injEq] at hsame
    rw [← hsame]
    exact hprev

-- Before the first frame.
structure Unprimed (r : Reader) : Prop where
  seen : r.seen = []
  prev : r.prevTs = 0
  primed : r.tsPrimed = false

-- A frame comes in, or none is complete yet.
theorem next_cases (r : Reader) (a : Arrival)
    : (a.frame = none ∧ (r.next a).seen = r.seen ∧ (r.next a).prevTs = r.prevTs
          ∧ (r.next a).tsPrimed = r.tsPrimed)
        ∨ ∃ sample, a.frame = some sample ∧ (r.next a).seen = (r.observe sample).seen
          ∧ (r.next a).prevTs = (r.observe sample).prevTs
          ∧ (r.next a).tsPrimed = (r.observe sample).tsPrimed := by
  unfold Reader.next
  dsimp only
  cases a.frame with
  | none => exact .inl ⟨rfl, rfl, rfl, rfl⟩
  | some sample =>
    refine .inr ⟨sample, rfl, ?_⟩
    unfold Reader.observe
    dsimp only
    split
    . exact ⟨rfl, rfl, rfl⟩
    . exact ⟨rfl, rfl, rfl⟩

theorem Unprimed.congr {r' : Reader} (h : Unprimed r) (hseen : r'.seen = r.seen)
    (hprev : r'.prevTs = r.prevTs) (hprimed : r'.tsPrimed = r.tsPrimed) : Unprimed r' :=
  ⟨hseen.trans h.seen, hprev.trans h.prev, hprimed.trans h.primed⟩

theorem Tracks.congr {r' : Reader} (h : Tracks r f) (hseen : r'.seen = r.seen)
    (hprev : r'.prevTs = r.prevTs) (hprimed : r'.tsPrimed = r.tsPrimed) : Tracks r' f := by
  constructor
  . exact hprimed.trans h.primed
  . rw [hseen, hprev]
    exact h.prev
  . rw [hseen]
    exact h.devs
  . rw [hseen]
    exact h.exact

-- The frames of a stream that fits are tracked.
def Tracked (r : Reader) : Prop :=
  Unprimed r ∨ ∃ f, r.seen.getLast? = some f ∧ (f.dev.toNat : Int) = base f.sample
    ∧ (FitsAll r.seen → Tracks r f)

theorem tracked_observe (h : Tracked r) (sample : Int)
    (hnear : ∀ high, highest (r.seen.map Seen.sample) = some high →
      -2147483648 ≤ sample - high ∧ sample - high < 2147483648)
    : Tracked (r.observe sample) := by
  rcases h with hnone | ⟨f, hlast, hdev, htracks⟩
  . rcases tracks_first sample hnone.seen hnone.prev hnone.primed with
      ⟨f, hseen, hsample, htracks⟩
    apply Or.inr
    refine ⟨f, by rw [hseen]; rfl, ?_, fun _ => htracks⟩
    have hdev := htracks.devs f (by rw [hseen]; exact List.mem_singleton_self f)
    omega
  . rcases observe_seen r sample with ⟨advance, hseen⟩
    have hmem : f ∈ r.seen := List.mem_of_getLast? hlast
    have hne : r.seen ≠ [] := List.ne_nil_of_mem hmem
    have hlast' : (r.observe sample).seen.getLast? = some f := by
      rw [hseen, List.getLast?_cons_of_ne_nil hne]
      exact hlast
    apply Or.inr
    refine ⟨f, hlast', hdev, ?_⟩
    intro hfits
    have hall := hfits f hlast'
    rw [hseen] at hall
    have hold : FitsAll r.seen := by
      intro f' hlast'' s hs
      rw [hlast, Option.mem_some_iff] at hlast''
      rw [← hlast'']
      exact hall s (List.mem_cons_of_mem _ hs)
    have hne' : r.seen.map Seen.sample ≠ [] := by simpa using hne
    rcases exists_highest hne' with ⟨high, hh⟩
    rcases hnear high hh with ⟨hlow, hhigh⟩
    exact (htracks hold).observe hmem hh hlow hhigh (hall _ List.mem_cons_self)

theorem Tracked.next (h : Tracked r) (a : Arrival) (hnear : r.Near a) : Tracked (r.next a) := by
  rcases next_cases r a with ⟨_, hseen, hprev, hprimed⟩ | ⟨sample, hframe, hseen, hprev, hprimed⟩
  . rcases h with hnone | ⟨f, hlast, hdev, htracks⟩
    . exact .inl (hnone.congr hseen hprev hprimed)
    . apply Or.inr
      rw [hseen]
      exact ⟨f, hlast, hdev, fun hfits => (htracks hfits).congr hseen hprev hprimed⟩
  . rcases tracked_observe h sample (hnear.2 sample hframe) with
      hnone | ⟨f, hlast, hdev, htracks⟩
    . exact .inl (hnone.congr hseen hprev hprimed)
    . apply Or.inr
      rw [hseen]
      exact ⟨f, hlast, hdev, fun hfits => (htracks hfits).congr hseen hprev hprimed⟩

theorem tracked_run (h : Run Reader.next Reader.Near .start r) : Tracked r :=
  h.inv (.inl ⟨rfl, rfl, rfl⟩) (fun _ a hs hnear => hs.next a hnear)

-- What is exact is exact from the first frame on.
theorem Exact.from_first {seen : List Seen} (h : Exact seen) (hlast : seen.getLast? = some f)
    {s : Seen} (hs : s ∈ seen) : (s.dev.toNat : Int) - f.dev.toNat = s.sample - f.sample := by
  induction seen generalizing s with
  | nil => cases hs
  | cons s' earlier ih =>
    rcases h with ⟨hearlier, _, hdiff⟩
    cases earlier with
    | nil =>
      have heq : s' = f := Option.some.inj hlast
      rw [List.mem_singleton.mp hs, heq]
      omega
    | cons s'' earlier =>
      have hlast' : (s'' :: earlier).getLast? = some f := by
        rw [List.getLast?_cons_of_ne_nil (List.cons_ne_nil s'' earlier)] at hlast
        exact hlast
      rcases List.mem_cons.mp hs with rfl | hs
      . exact hdiff f (List.mem_of_getLast? hlast')
      . exact ih hearlier hlast' hs

end Clock

/--
The unwrapped timestamps are right just as long as the stream fits the 64 bits they are unwrapped
to, and the losses are the packets that were jumped over.
-/
theorem exact_iff_fits {r : Reader} (h : Run Reader.next Reader.Near .start r)
    : (Exact r.seen ↔ FitsAll r.seen)
        ∧ r.rx.rtpLost.toNat = (skipped r.nums).card % 18446744073709551616 := by
  refine ⟨?_, (counts_run h).lost⟩
  rcases tracked_run h with hnone | ⟨f, hlast, hdev, htracks⟩
  . rw [hnone.seen]
    constructor
    . intro _ f hlast
      cases hlast
    . intro _
      trivial
  . constructor
    . intro hexact f' hlast' s hs
      rw [hlast, Option.mem_some_iff] at hlast'
      have hdiff := hexact.from_first hlast hs
      have hword := s.dev.toNat_lt
      rw [← hlast']
      apply fits_of_range
      . omega
      . omega
    . intro hfits
      exact (htracks hfits).exact

-- Over the wrap of the sequence numbers one packet comes late and one is lost.
def reordered : List Arrival :=
  [⟨65534, some 2147483000⟩, ⟨65536, some 2147483512⟩, ⟨65535, some 2147483256⟩,
    ⟨65538, some 2147484024⟩]

theorem exact_iff_fits_reordered
    : Exact (reordered.foldl Reader.next .start).seen
        ∧ (reordered.foldl Reader.next .start).rx.rtpLost = 2 := by
  have hrun : Run Reader.next Reader.Near .start (reordered.foldl Reader.next .start) := by
    apply Run.of_guarded reordered .start
    decide +kernel
  exact ⟨(exact_iff_fits hrun).1.mpr (by decide +kernel), by decide +kernel⟩

-- A stream that begins one packet before its timestamps wrap.
def beforeWrap : List Arrival :=
  [⟨0, some 4294967040⟩, ⟨1, some 4294967296⟩]

theorem not_exact_beforeWrap
    : ¬ ∀ r, Run Reader.next Reader.Near .start r → Exact r.seen := by
  intro h
  have hrun : Run Reader.next Reader.Near .start (beforeWrap.foldl Reader.next .start) := by
    apply Run.of_guarded beforeWrap .start
    decide +kernel
  have hfits := (h _ hrun).from_first (f := ⟨4294967040, 18446744073709551360, true⟩)
    (s := ⟨4294967296, 0, false⟩) (by decide +kernel) (by decide +kernel)
  exact absurd hfits (by decide)

end Harp.RtpClock
