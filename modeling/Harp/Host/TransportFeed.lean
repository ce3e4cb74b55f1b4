import Harp.Host.EventManager
import Harp.Lib.IeeeArith
import Harp.Lib.Run

/-!
This module contains `feedTransport` and `queueTransport` of `shell/runtime_events.cpp`: what the host
reports of its transport with every block, and which of it becomes an event.

The ring of the events is shared with the other queue operations and with the pump, which may leave
it in any state between two calls. The last transport event that was queued, and whether the last
call reported a valid tempo, are history.
-/

namespace Harp.TransportFeed

open Ieee Runs

section Number

-- `x == y`: both zeros are equal, and a NaN is equal to nothing.
def feq {eb mb : Nat} (x y : Fp eb mb) : Bool :=
  x.le y && y.le x

-- The same value, up to the sign of a zero.
def SameNum {eb mb : Nat} (x y : Fp eb mb) : Prop :=
  x = y ∨ (x.isZero = true ∧ y.isZero = true)

variable {eb mb : Nat} {x y z : Fp eb mb}

theorem magnitude_inj (h : x.exp * 2 ^ mb + x.man = y.exp * 2 ^ mb + y.man)
    : x.exp = y.exp ∧ x.man = y.man := by
  have hpos := Nat.two_pow_pos mb
  have hexp : x.exp = y.exp := by
    have hdiv : (x.exp * 2 ^ mb + x.man) / 2 ^ mb = (y.exp * 2 ^ mb + y.man) / 2 ^ mb := by
      rw [h]
    rw [Nat.mul_comm, Nat.mul_add_div hpos, Nat.div_eq_of_lt x.man_lt, Nat.mul_comm,
      Nat.mul_add_div hpos, Nat.div_eq_of_lt y.man_lt] at hdiv
    exact hdiv
  rw [hexp] at h
  exact ⟨hexp, Nat.add_left_cancel h⟩

theorem isZero_of_magnitude (h : x.exp * 2 ^ mb + x.man = 0) : x.isZero = true := by
  have hpos := Nat.two_pow_pos mb
  rw [Nat.add_eq_zero_iff, Nat.mul_eq_zero] at h
  rcases h with ⟨hexp | hpow, hman⟩
  . unfold Fp.isZero
    rw [decide_eq_true_eq]
    exact ⟨hexp, hman⟩
  . omega

theorem sameNum_of_feq (h : feq x y = true) : SameNum x y := by
  unfold feq at h
  rw [Bool.and_eq_true] at h
  unfold Fp.le at h
  simp only [decide_eq_true_eq] at h
  have hkey : x.key = y.key := Int.le_antisymm h.1.2.2 h.2.2.2
  unfold Fp.key at hkey
  cases hx : x.sign <;> cases hy : y.sign
  . rw [hx, hy, if_neg Bool.false_ne_true, if_neg Bool.false_ne_true, Int.ofNat_inj] at hkey
    rcases magnitude_inj hkey with ⟨hexp, hman⟩
    exact .inl (Fp.ext_fields (hx.trans hy.symm) hexp hman)
  . rw [hx, hy, if_neg Bool.false_ne_true, if_pos rfl] at hkey
    exact .inr ⟨isZero_of_magnitude (by omega), isZero_of_magnitude (by omega)⟩
  . rw [hx, hy, if_pos rfl, if_neg Bool.false_ne_true] at hkey
    exact .inr ⟨isZero_of_magnitude (by omega), isZero_of_magnitude (by omega)⟩
  . rw [hx, hy, if_pos rfl, if_pos rfl, Int.neg_inj, Int.ofNat_inj] at hkey
    rcases magnitude_inj hkey with ⟨hexp, hman⟩
    exact .inl (Fp.ext_fields (hx.trans hy.symm) hexp hman)

theorem SameNum.symm (h : SameNum x y) : SameNum y x := by
  rcases h with rfl | ⟨hx, hy⟩
  . exact .inl rfl
  . exact .inr ⟨hy, hx⟩

theorem SameNum.trans (h : SameNum x y) (h' : SameNum y z) : SameNum x z := by
  rcases h with rfl | ⟨hx, hy⟩
  . exact h'
  . rcases h' with rfl | ⟨_, hz⟩
    . exact .inr ⟨hx, hy⟩
    . exact .inr ⟨hx, hz⟩

theorem isZero_narrow {x : F64} (h : x.isZero = true) : (narrow x).isZero = true := by
  have hexp : x.exp ≤ 896 := by
    unfold Fp.isZero at h
    rw [decide_eq_true_eq] at h
    omega
  rcases narrow_below hexp with ⟨m, _, hzero, heq⟩
  rw [heq, hzero h]
  rfl

theorem SameNum.narrow {x y : F64} (h : SameNum x y) : SameNum (narrow x) (narrow y) := by
  rcases h with rfl | ⟨hx, hy⟩
  . exact .inl rfl
  . exact .inr ⟨isZero_narrow hx, isZero_narrow hy⟩

end Number

structure FeedCall where
  playing : Bool
  tempoValid : Bool
  tempo : F64
  posValid : Bool
  ppq : F64
  blockSamples : UInt32
  base : UInt64
  rate : UInt32
  op : Nat
  tag : UInt32

structure Feed where
  em : EventManager
  tpLastPlaying : Bool
  tpSent : Bool
  tpLastTempo : F64
  tpLastEndPpq : F64
  tpSamplesSince : UInt64
  told : Option TimedEv
  lastValid : Bool

def Feed.start : Feed :=
  ⟨EventManager.fresh, false, false, Fp.ofBits 0, Fp.ofBits 0, 0, none, false⟩

def transportFlags (playing tempoValid posValid : Bool) : UInt32 :=
  (if playing then (1 : UInt32) else 0) ||| (if tempoValid then (1 : UInt32) <<< 3 else 0)
    ||| (if posValid then (1 : UInt32) <<< 5 else 0)

-- `1e-3`
def halfTick : F64 :=
  Fp.ofBits 0x3f50624dd2f1a9fc

def FeedCall.ev (c : FeedCall) : TimedEv where
  kind := .transport
  a := transportFlags c.playing c.tempoValid c.posValid
  v := narrow c.tempo
  ts := c.base
  end_ := UInt64.ofNat c.ppq.toBits
  channel := 0
  tag := c.tag

namespace Feed

def queueTransport (t : Feed) (c : FeedCall) : Feed :=
  match t.em.push ⟨c.op, c.ev⟩ with
  | (true, em) => { t with em := em.count, told := some c.ev }
  | (false, em) => { t with em }

def discont (t : Feed) (c : FeedCall) : Bool :=
  (c.playing && t.tpLastPlaying && c.posValid)
    && ((c.ppq.add halfTick).lt t.tpLastEndPpq || (t.tpLastEndPpq.add halfTick).lt c.ppq)

def change (t : Feed) (c : FeedCall) : Bool :=
  c.playing != t.tpLastPlaying || (c.tempoValid && !feq c.tempo t.tpLastTempo) || t.discont c

def samplesSince (t : Feed) (c : FeedCall) : UInt64 :=
  t.tpSamplesSince + c.blockSamples.toUInt64

def refresh (t : Feed) (c : FeedCall) : Bool :=
  c.playing && decide (c.rate.toUInt64 ≤ t.samplesSince c)

def due (t : Feed) (c : FeedCall) : Bool :=
  t.change c || t.refresh c || !t.tpSent

-- Where the song will be at the end of the block.
def endPpq (c : FeedCall) : F64 :=
  if c.playing && c.tempoValid && c.posValid then
    c.ppq.add (((Fp.ofNat c.blockSamples.toNat).mul c.tempo).div
      ((Fp.ofNat 60).mul (Fp.ofNat c.rate.toNat)))
  else
    c.ppq

def feedTransport (t : Feed) (c : FeedCall) : Feed :=
  let since := t.samplesSince c
  let t' :=
    if t.due c then
      { t.queueTransport c with tpSent := true, tpSamplesSince := 0 }
    else
      { t with tpSamplesSince := since }
  { t' with
    tpLastPlaying := c.playing
    tpLastTempo := c.tempo
    tpLastEndPpq := endPpq c
    lastValid := c.tempoValid }

inductive Act where
  | feed (c : FeedCall)
  | ring (em : EventManager)

def next (t : Feed) : Act → Feed
  | .feed c => t.feedTransport c
  | .ring em => { t with em }

def Room (t : Feed) : Prop :=
  t.em.ring.length < timedRingCap
deriving Decidable

-- What the host reports all the time.
structure Report where
  playing : Bool
  tempoValid : Bool
  tempo : F64
  rate : UInt32

-- A block of the steady time: the same report, and room in the ring.
def Steady (p : Report) (t : Feed) : Act → Prop
  | .feed c =>
    c.playing = p.playing ∧ c.tempoValid = p.tempoValid ∧ SameNum c.tempo p.tempo ∧ c.rate = p.rate
      ∧ t.Room
  | .ring _ => True

def Act.samples : Act → Nat
  | .feed c => c.blockSamples.toNat
  | .ring _ => 0

def Act.isFeed : Act → Bool
  | .feed _ => true
  | .ring _ => false

-- One second of blocks.
def Second (p : Report) (acts : List Act) : Prop :=
  acts.any Act.isFeed = true ∧ p.rate.toNat ≤ (acts.map Act.samples).sum

structure Says (ev : TimedEv) (p : Report) : Prop where
  playing : ev.a.toNat.testBit 0 = p.playing
  valid : p.tempoValid = true → ev.a.toNat.testBit 3 = true
  tempo : p.tempoValid = true → SameNum ev.v (narrow p.tempo)

def Converged (t : Feed) (p : Report) : Prop :=
  ∃ ev, t.told = some ev ∧ Says ev p

/--
While the transport is stopped, an event that is due finds room, and a valid tempo that is the one
of the last call was valid there.
-/
def Meets (t : Feed) : Act → Prop
  | .feed c =>
    c.playing = false →
      (t.due c = true → t.Room) ∧ (t.due c = false → c.tempoValid = true → t.lastValid = true)
  | .ring _ => True

section Laws

variable {t : Feed} {c : FeedCall} {p : Report}

theorem testBit_flags (playing tempoValid posValid : Bool)
    : (transportFlags playing tempoValid posValid).toNat.testBit 0 = playing
        ∧ (transportFlags playing tempoValid posValid).toNat.testBit 3 = tempoValid := by
  cases playing <;> cases tempoValid <;> cases posValid <;> decide

theorem says_ev (hplaying : c.playing = p.playing) (hvalid : c.tempoValid = p.tempoValid)
    (htempo : SameNum c.tempo p.tempo) : Says c.ev p := by
  rcases testBit_flags c.playing c.tempoValid c.posValid with ⟨hzero, hthree⟩
  constructor
  . exact hzero.trans hplaying
  . intro h
    exact hthree.trans (hvalid.trans h)
  . intro _
    exact htempo.narrow

-- What a call does to the last event that was queued.
theorem told_of_due (hdue : t.due c = true) (hroom : t.Room)
    : (t.feedTransport c).told = some c.ev := by
  unfold Room at hroom
  unfold feedTransport
  dsimp only
  rw [if_pos hdue]
  unfold queueTransport EventManager.push
  rw [if_pos hroom]

theorem told_of_not_due (hdue : t.due c = false) : (t.feedTransport c).told = t.told := by
  unfold feedTransport
  rw [hdue]
  rfl

theorem due_cases (hdue : t.due c = false)
    : c.playing = t.tpLastPlaying ∧ t.tpSent = true ∧ t.refresh c = false
        ∧ (c.tempoValid = true → SameNum c.tempo t.tpLastTempo) := by
  unfold due change at hdue
  simp only [Bool.or_eq_false_iff, bne_eq_false_iff_eq, Bool.not_eq_false'] at hdue
  rcases hdue with ⟨⟨⟨⟨hplaying, htempo⟩, _⟩, hrefresh⟩, hsent⟩
  refine ⟨hplaying, hsent, hrefresh, ?_⟩
  intro hvalid
  rw [hvalid, Bool.true_and, Bool.not_eq_false'] at htempo
  exact sameNum_of_feq htempo

/--
While stopped, the last event that was queued says what the last call reported; while playing, the
samples since the last event that was due are fewer than a second.
-/
structure FeedInv (t : Feed) : Prop where
  stopped : t.tpSent = true → t.tpLastPlaying = false →
    Converged t ⟨false, t.lastValid, t.tpLastTempo, 0⟩
  playing : t.tpLastPlaying = true → t.tpSamplesSince.toNat < 2 ^ 32

theorem feedInv_start : FeedInv Feed.start := by
  constructor
  . intro h
    cases h
  . intro h
    cases h

theorem tpSent_feedTransport (t : Feed) (c : FeedCall) : (t.feedTransport c).tpSent = true := by
  unfold feedTransport
  cases hdue : t.due c with
  | true => rfl
  | false =>
    rcases due_cases hdue with ⟨_, hsent, _, _⟩
    exact hsent

theorem samplesSince_toNat (hplaying : FeedInv t) (hlast : t.tpLastPlaying = true)
    : (t.samplesSince c).toNat = t.tpSamplesSince.toNat + c.blockSamples.toNat := by
  have hsince := hplaying.playing hlast
  have hblock := c.blockSamples.toNat_lt
  unfold samplesSince
  rw [UInt64.toNat_add, UInt32.toNat_toUInt64, Nat.mod_eq_of_lt (by omega)]

theorem since_feedTransport (h : FeedInv t) (hplaying : c.playing = true)
    (hdue : t.due c = false)
    : (t.feedTransport c).tpSamplesSince.toNat
          = t.tpSamplesSince.toNat + c.blockSamples.toNat
        ∧ t.tpSamplesSince.toNat + c.blockSamples.toNat < c.rate.toNat := by
  rcases due_cases hdue with ⟨hlast, _, hrefresh, _⟩
  have hsince := samplesSince_toNat (c := c) h (hlast.symm.trans hplaying)
  have heq : (t.feedTransport c).tpSamplesSince = t.samplesSince c := by
    unfold feedTransport
    rw [hdue]
    rfl
  unfold refresh at hrefresh
  rw [hplaying, Bool.true_and, decide_eq_false_iff_not, UInt64.le_iff_toNat_le,
    UInt32.toNat_toUInt64, hsince] at hrefresh
  refine ⟨?_, by omega⟩
  rw [heq, hsince]

theorem FeedInv.feed (h : FeedInv t) (hmeets : t.Meets (.feed c)) : FeedInv (t.feedTransport c) := by
  constructor
  . intro _ hstopped
    have hstop : c.playing = false := hstopped
    rcases hmeets hstop with ⟨hroom, hvalid⟩
    cases hdue : t.due c with
    | true =>
      refine ⟨c.ev, told_of_due hdue (hroom hdue), ?_⟩
      exact says_ev hstop rfl (.inl rfl)
    | false =>
      rcases due_cases hdue with ⟨hlast, hsent, _, htempo⟩
      rcases h.stopped hsent (hlast.symm.trans hstop) with ⟨ev, htold, hsaid⟩
      refine ⟨ev, (told_of_not_due hdue).trans htold, hsaid.playing, ?_, ?_⟩
      . intro hv
        exact hsaid.valid (hvalid hdue hv)
      . intro hv
        exact (hsaid.tempo (hvalid hdue hv)).trans (htempo hv).symm.narrow
  . intro hplaying
    have hplay : c.playing = true := hplaying
    cases hdue : t.due c with
    | true =>
      have hzero : (t.feedTransport c).tpSamplesSince = 0 := by
        unfold feedTransport
        rw [hdue]
        rfl
      rw [hzero]
      decide
    | false =>
      rcases since_feedTransport h hplay hdue with ⟨hsince, hlt⟩
      have hrate := c.rate.toNat_lt
      omega

theorem FeedInv.next (h : FeedInv t) (a : Act) (hmeets : t.Meets a) : FeedInv (t.next a) := by
  cases a with
  | feed c => exact h.feed hmeets
  | ring em => exact ⟨h.stopped, h.playing⟩

theorem feedInv_run (h : Run Feed.next Feed.Meets Feed.start t) : FeedInv t :=
  h.inv feedInv_start (fun _ a hs hmeets => hs.next a hmeets)

end Laws

section Second

variable {t : Feed} {p : Report}

theorem Converged.step (h : Converged t p) (a : Act) (hsteady : Steady p t a)
    : Converged (t.next a) p := by
  cases a with
  | ring em => exact h
  | feed c =>
    rcases hsteady with ⟨hplaying, hvalid, htempo, _, hroom⟩
    cases hdue : t.due c with
    | true => exact ⟨c.ev, told_of_due hdue hroom, says_ev hplaying hvalid htempo⟩
    | false =>
      rcases h with ⟨ev, htold, hsaid⟩
      exact ⟨ev, (told_of_not_due hdue).trans htold, hsaid⟩

theorem Converged.run (acts : List Act) (h : Converged t p)
    (hsteady : Run.Guarded Feed.next (Steady p) t acts) : Converged (acts.foldl Feed.next t) p := by
  induction acts generalizing t with
  | nil => exact h
  | cons a acts ih => exact ih (h.step a hsteady.1) hsteady.2

-- A stopped transport is told at the first block of the steady time.
theorem converged_stopped (acts : List Act) (hinv : FeedInv t) (hstop : p.playing = false)
    (hmeets : Run.Guarded Feed.next Meets t acts)
    (hsteady : Run.Guarded Feed.next (Steady p) t acts) (hfeed : acts.any Act.isFeed = true)
    : Converged (acts.foldl Feed.next t) p := by
  induction acts generalizing t with
  | nil => cases hfeed
  | cons a acts ih =>
    have hnext := hinv.next a hmeets.1
    cases a with
    | ring em => exact ih hnext hmeets.2 hsteady.2 hfeed
    | feed c =>
      rcases hsteady with ⟨⟨hplaying, hvalid, htempo, _, _⟩, hrest⟩
      rcases hnext.stopped (tpSent_feedTransport t c) (hplaying.trans hstop) with
        ⟨ev, htold, hsaid⟩
      have hnow : Converged (t.feedTransport c) p := by
        refine ⟨ev, htold, hsaid.playing.trans hstop.symm, ?_, ?_⟩
        . intro hv
          exact hsaid.valid (hvalid.trans hv)
        . intro hv
          exact (hsaid.tempo (hvalid.trans hv)).trans htempo.narrow
      exact hnow.run acts hrest

theorem samples_of_no_feed {acts : List Act} (h : ¬ acts.any Act.isFeed = true)
    : (acts.map Act.samples).sum = 0 := by
  induction acts with
  | nil => rfl
  | cons a acts ih =>
    cases a with
    | ring em =>
      have hsum := ih h
      simpa [Act.samples] using hsum
    | feed c => exact absurd rfl h

-- A playing transport is told, or the blocks are fewer than a second.
theorem converged_playing (acts : List Act) (hinv : FeedInv t) (hplay : p.playing = true)
    (hmeets : Run.Guarded Feed.next Meets t acts)
    (hsteady : Run.Guarded Feed.next (Steady p) t acts) (hfeed : acts.any Act.isFeed = true)
    : Converged (acts.foldl Feed.next t) p
        ∨ t.tpSamplesSince.toNat + (acts.map Act.samples).sum < p.rate.toNat := by
  induction acts generalizing t with
  | nil => cases hfeed
  | cons a acts ih =>
    have hnext := hinv.next a hmeets.1
    cases a with
    | ring em =>
      have hrest := ih hnext hmeets.2 hsteady.2 hfeed
      have hzero : (Act.ring em).samples = 0 := rfl
      rw [List.map_cons, List.sum_cons, hzero, Nat.zero_add]
      exact hrest
    | feed c =>
      rcases hsteady with ⟨⟨hplaying, hvalid, htempo, hrate, hroom⟩, hsteady⟩
      rw [List.map_cons, List.sum_cons, List.foldl_cons]
      cases hdue : t.due c with
      | true =>
        have hnow : Converged (t.feedTransport c) p :=
          ⟨c.ev, told_of_due hdue hroom, says_ev hplaying hvalid htempo⟩
        exact .inl (hnow.run acts hsteady)
      | false =>
        rcases since_feedTransport hinv (hplaying.trans hplay) hdue with ⟨hsince, hlt⟩
        rw [hrate] at hlt
        by_cases hmore : acts.any Act.isFeed = true
        . rcases ih hnext hmeets.2 hsteady hmore with hdone | hshort
          . exact .inl hdone
          . have hshort' : (t.feedTransport c).tpSamplesSince.toNat + (acts.map Act.samples).sum
                < p.rate.toNat := hshort
            rw [hsince] at hshort'
            apply Or.inr
            have hsamples : (Act.feed c).samples = c.blockSamples.toNat := rfl
            omega
        . have hzero := samples_of_no_feed hmore
          apply Or.inr
          have hsamples : (Act.feed c).samples = c.blockSamples.toNat := rfl
          omega

-- What the host has reported for a second, with room in the ring, is what was queued last.
theorem transport_converges (hrun : Run Feed.next Meets Feed.start t) {acts : List Act}
    (hmeets : Run.Guarded Feed.next Meets t acts)
    (hsteady : Run.Guarded Feed.next (Steady p) t acts) (hsecond : Second p acts)
    : Converged (acts.foldl Feed.next t) p := by
  have hinv := feedInv_run hrun
  cases hplay : p.playing with
  | false => exact converged_stopped acts hinv hplay hmeets hsteady hsecond.1
  | true =>
    rcases converged_playing acts hinv hplay hmeets hsteady hsecond.1 with hdone | hshort
    . exact hdone
    . have hlong := hsecond.2
      omega

end Second

section Refused

-- Blocks of a second at 48 kHz and 120 quarter notes a minute.
def block (playing : Bool) : FeedCall where
  playing := playing
  tempoValid := true
  tempo := Fp.ofBits 0x405e000000000000
  posValid := false
  ppq := Fp.ofBits 0
  blockSamples := 48000
  base := 0
  rate := 48000
  op := 0
  tag := 0

def report (playing : Bool) : Report :=
  ⟨playing, true, Fp.ofBits 0x405e000000000000, 48000⟩

theorem transport_converges_stopped
    : Converged ([Act.feed (block false)].foldl Feed.next (Feed.start.next (.feed (block true))))
        (report false) := by
  have hstart : Run Feed.next Meets Feed.start (Feed.start.next (.feed (block true))) := by
    apply Run.step _ .start
    intro hstop
    cases hstop
  apply transport_converges hstart
  . refine ⟨?_, trivial⟩
    intro _
    refine ⟨fun _ => by decide, ?_⟩
    intro hdue
    exact absurd hdue (by decide +kernel)
  . exact ⟨⟨rfl, rfl, .inl rfl, rfl, by decide⟩, trivial⟩
  . exact ⟨rfl, by decide⟩

def fullRing : EventManager :=
  { EventManager.fresh with ring := List.replicate timedRingCap ⟨0, (block true).ev⟩ }

-- The stop finds a full ring; from the next block on the transport counts as told.
def refusedStop : Feed :=
  [Act.feed (block true), .ring fullRing, .feed (block false), .ring EventManager.fresh].foldl
    Feed.next Feed.start

theorem not_converges_refused
    : ¬ ∀ (t : Feed) (p : Report) (acts : List Act), Run Feed.next free Feed.start t →
        Run.Guarded Feed.next (Steady p) t acts → Second p acts →
        Converged (acts.foldl Feed.next t) p := by
  intro h
  have hrun : Run Feed.next free Feed.start refusedStop := Run.foldl _ .start
  have hsteady : Run.Guarded Feed.next (Steady (report false)) refusedStop
      [.feed (block false)] := ⟨⟨rfl, rfl, .inl rfl, rfl, by decide +kernel⟩, trivial⟩
  rcases h refusedStop (report false) [.feed (block false)] hrun hsteady ⟨rfl, by decide⟩ with
    ⟨ev, htold, hsaid⟩
  have htold' : ([Act.feed (block false)].foldl Feed.next refusedStop).told
      = some (block true).ev := by
    decide +kernel
  rw [htold', Option.some.injEq] at htold
  have hplaying := hsaid.playing
  rw [← htold] at hplaying
  exact absurd hplaying (by decide)

end Refused

end Feed

end Harp.TransportFeed
