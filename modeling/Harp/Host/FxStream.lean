import Harp.Lib.Run
import Harp.Lib.StreamRing

/-!
This module contains the audio thread of an armed effect: the input it hands to the feeder, the wet
it pulls and what both do to the delay it reports. A frame stands for the floats of its columns.
-/

namespace Harp

open Runs StreamRings

def kFxMaxWetDelay : Nat := 65535

structure FxArm where
  preroll : Nat
  delivered : Nat
  lag : Nat
  capped : Bool

def fxArmFor (base latchedPipe pipe maxDelay : Nat) : FxArm :=
  let reported := base + latchedPipe
  let preroll := max (reported - pipe) base
  let capped : Bool := maxDelay < preroll + pipe
  let preroll := if capped then maxDelay - pipe else preroll
  let delivered := preroll + pipe
  ⟨preroll, delivered, delivered - reported, capped⟩

-- Whether to re-anchor now, and the run of frames that follows.
def fxLateStep (run : Nat) (owed connected : Bool) (nFrames window : Nat) : Bool × Nat :=
  if !owed || !connected then
    (false, 0)
  else if run + nFrames < window then
    (false, run + nFrames)
  else
    (true, 0)

structure FxGap where
  ssi : Nat
  frames : Nat
  deriving DecidableEq

-- An input frame is the time it was handed over; a wet frame is the time of the input it was made
-- from, or `none` while the pipeline holds nothing. `fed` is what the feeder has taken and
-- `returned` how much wet has come back. `out` has each frame with the delay reported in its block.
structure FxState (inCap wetCap : Nat) where
  fxInRing : StreamRing Nat inCap
  fxInBase : Nat
  fed : List Nat
  returned : Nat
  audioRing : StreamRing (Option Nat) wetCap
  padDebt : Nat
  ssiRead : Nat
  fxArmedDelay : Nat
  fxPreroll : Nat
  fxPipe : Nat
  fxExtraDelay : Nat
  fxGaps : List FxGap
  fxLateRunFrames : Nat
  fxReanchors : Nat
  fxInDropped : Nat
  underruns : Nat
  padSamples : Nat
  block : Option Nat
  lastGap : Nat
  out : List (Nat × Option Nat)

section Blocks

variable {inCap wetCap : Nat}

-- The state of a session as its first block adopts it. The ring still holds earlier input.
def fxBeginBlock (ring : StreamRing Nat inCap) (base latchedPipe pipe : Nat)
    : FxState inCap wetCap where
  fxInRing := ring
  fxInBase := ring.head
  fed := []
  returned := 0
  audioRing := .empty (fun _ => none)
  padDebt := 0
  ssiRead := 0
  fxArmedDelay := (fxArmFor base latchedPipe pipe kFxMaxWetDelay).preroll
  fxPreroll := (fxArmFor base latchedPipe pipe kFxMaxWetDelay).preroll
  fxPipe := pipe
  fxExtraDelay := 0
  fxGaps := []
  fxLateRunFrames := 0
  fxReanchors := 0
  fxInDropped := 0
  underruns := 0
  padSamples := 0
  block := none
  lastGap := 0
  out := []

namespace FxState

def fxInputPos (s : FxState inCap wetCap) : Nat :=
  s.fxInRing.head - s.fxInBase

def fxWetDelay (s : FxState inCap wetCap) : Nat :=
  s.fxArmedDelay + s.fxExtraDelay + s.fxPipe

-- With eight gaps pending, a ninth is counted to the last of them.
def recordGap (gaps : List FxGap) (ssi dropped : Nat) : List FxGap :=
  match gaps.getLast? with
  | none => [⟨ssi, dropped⟩]
  | some g =>
    if g.ssi = ssi then
      gaps.dropLast ++ [⟨g.ssi, g.frames + dropped⟩]
    else if gaps.length < 8 then
      gaps ++ [⟨ssi, dropped⟩]
    else
      gaps.dropLast ++ [⟨g.ssi, g.frames + dropped⟩]

def writeFxInput (s : FxState inCap wetCap) (nFrames : Nat) : FxState inCap wetCap :=
  let ring := s.fxInRing.write ((List.range nFrames).map (s.out.length + ·))
  let dropped := nFrames - (ring.head - s.fxInRing.head)
  let ssi := ring.head - s.fxInBase + s.fxPipe
  if dropped = 0 then
    { s with fxInRing := ring, block := some nFrames }
  else
    { s with
      fxInRing := ring
      block := some nFrames
      fxGaps := recordGap s.fxGaps ssi dropped
      lastGap := ssi
      fxInDropped := s.fxInDropped + dropped }

def settleLoop : Nat → FxState inCap wetCap → FxState inCap wetCap
  | 0, s => s
  | fuel + 1, s =>
    let got := s.audioRing.read (min s.padDebt 512)
    if s.padDebt = 0 ∨ got.1.length = 0 then
      s
    else
      settleLoop fuel { s with audioRing := got.2, padDebt := s.padDebt - got.1.length }

def settlePadDebt (s : FxState inCap wetCap) : FxState inCap wetCap :=
  settleLoop s.padDebt s

end FxState

-- A pull in progress.
structure FxPull (inCap wetCap : Nat) where
  st : FxState inCap wetCap
  dst : List (Option Nat)
  preroll : Bool
  shortBy : Nat

namespace FxPull

def takeFxPreroll (p : FxPull inCap wetCap) (n : Nat) : FxPull inCap wetCap :=
  { p with
    st := { p.st with fxPreroll := p.st.fxPreroll - n }
    dst := p.dst ++ List.replicate n none
    preroll := true }

def playGap (p : FxPull inCap wetCap) (g : FxGap) (gaps : List FxGap) (n : Nat)
    : FxPull inCap wetCap :=
  { p with
    st := { p.st with
      fxGaps := if g.frames - n = 0 then gaps else ⟨g.ssi, g.frames - n⟩ :: gaps }
    dst := p.dst ++ List.replicate n none }

def readWet (p : FxPull inCap wetCap) (take : Nat) (conn : Bool) : FxPull inCap wetCap :=
  let got := p.st.audioRing.read take
  let short := take - got.1.length
  let count : Bool := conn && short ≠ 0
  { p with
    st := { p.st with
      audioRing := got.2
      ssiRead := p.st.ssiRead + take
      padDebt := p.st.padDebt + short
      underruns := if count then p.st.underruns + 1 else p.st.underruns
      padSamples := if count then p.st.padSamples + short else p.st.padSamples }
    dst := p.dst ++ (got.1 ++ List.replicate short none)
    shortBy := p.shortBy + short }

-- One turn of the loop, with `rem` frames to go.
def turn (p : FxPull inCap wetCap) (rem : Nat) (conn : Bool) : FxPull inCap wetCap :=
  if min p.st.fxPreroll rem ≠ 0 then
    p.takeFxPreroll (min p.st.fxPreroll rem)
  else
    match p.st.fxGaps with
    | [] => p.readWet rem conn
    | g :: gaps =>
      if g.ssi ≤ p.st.ssiRead then
        p.playGap g gaps (min g.frames rem)
      else
        p.readWet (min rem (g.ssi - p.st.ssiRead)) conn

def loop (conn : Bool) (nFrames : Nat) : Nat → FxPull inCap wetCap → FxPull inCap wetCap
  | 0, p => p
  | fuel + 1, p =>
    if p.dst.length < nFrames then
      loop conn nFrames fuel (p.turn (nFrames - p.dst.length) conn)
    else
      p

end FxPull

namespace FxState

def fxLateGuard (window : Nat) (s : FxState inCap wetCap) (nFrames : Nat) (connected : Bool)
    : FxState inCap wetCap :=
  let late := fxLateStep s.fxLateRunFrames (s.padDebt ≠ 0) connected nFrames window
  if late.1 then
    let fixedDelay := s.fxArmedDelay + s.fxPipe
    { s with
      fxLateRunFrames := late.2
      padDebt := 0
      fxExtraDelay :=
        if kFxMaxWetDelay < fixedDelay + s.fxExtraDelay + s.padDebt then
          kFxMaxWetDelay - fixedDelay
        else
          s.fxExtraDelay + s.padDebt
      fxReanchors := s.fxReanchors + 1 }
  else
    { s with fxLateRunFrames := late.2 }

-- The shell reads the delay once it has pulled.
def pullFxLive (window : Nat) (s : FxState inCap wetCap) (nFrames : Nat) (connected : Bool)
    : FxState inCap wetCap :=
  let p := FxPull.loop connected nFrames nFrames ⟨s.settlePadDebt, [], false, 0⟩
  let s' := if p.preroll then p.st else p.st.fxLateGuard window nFrames connected
  { s' with block := none, out := s'.out ++ p.dst.map (fun x => (s'.fxWetDelay, x)) }

-- The feeder drops what is older than the session before it takes anything.
def feed (s : FxState inCap wetCap) (nFrames : Nat) : FxState inCap wetCap :=
  let ring := (s.fxInRing.read (s.fxInBase - s.fxInRing.tail)).2
  { s with fxInRing := (ring.read nFrames).2, fed := s.fed ++ (ring.read nFrames).1 }

def wetFrame (fed : List Nat) (pipe ssi : Nat) : Option Nat :=
  if ssi < pipe then none else fed[ssi - pipe]?

def wet (s : FxState inCap wetCap) (nFrames : Nat) : FxState inCap wetCap :=
  { s with
    audioRing := s.audioRing.write
      ((List.range nFrames).map (fun i => wetFrame s.fed s.fxPipe (s.returned + i)))
    returned := s.returned + nFrames }

end FxState

inductive FxAct where
  | writeFxInput (nFrames : Nat)
  | pullFxLive (connected : Bool)
  | feed (nFrames : Nat)
  | wet (nFrames : Nat)
  deriving DecidableEq

def FxState.next (window : Nat) (s : FxState inCap wetCap) (a : FxAct) : FxState inCap wetCap :=
  match a, s.block with
  | .writeFxInput nFrames, none => s.writeFxInput nFrames
  | .pullFxLive connected, some nFrames => s.pullFxLive window nFrames connected
  | .feed nFrames, _ => s.feed nFrames
  | .wet nFrames, _ => s.wet nFrames
  | .writeFxInput _, some _ => s
  | .pullFxLive _, none => s

def FxAligned (s : FxState inCap wetCap) : Prop :=
  ∀ t d τ : Nat, s.out[t]? = some (d, some τ) → t = τ + d

-- The wet frames that `nFrames` of output ask for, with the gaps that are pending from `pos` on.
def wetWanted (pos : Nat) : List FxGap → Nat → Nat
  | [], nFrames => nFrames
  | g :: gaps, nFrames =>
    if nFrames ≤ g.ssi - pos then
      nFrames
    else
      g.ssi - pos + wetWanted g.ssi gaps (nFrames - (g.ssi - pos) - g.frames)

-- What is owed at the end of a pull.
def FxState.owedAfter (s : FxState inCap wetCap) (nFrames : Nat) : Nat :=
  s.padDebt + wetWanted s.ssiRead s.fxGaps nFrames - s.audioRing.readAvailable

-- The late guard re-anchors in this pull.
def FxState.fires (window : Nat) (s : FxState inCap wetCap) (nFrames : Nat) (connected : Bool)
    : Prop :=
  s.fxPreroll = 0 ∧ connected = true ∧ window ≤ s.fxLateRunFrames + nFrames
    ∧ 0 < s.owedAfter nFrames

-- Wet comes back for what was sent, and a re-anchor stays below the longest delay.
def FxState.given (window : Nat) (s : FxState inCap wetCap) (a : FxAct) : Prop :=
  match a, s.block with
  | .pullFxLive connected, some nFrames => s.fires window nFrames connected
      → s.fxWetDelay + s.owedAfter nFrames ≤ kFxMaxWetDelay
  | .wet nFrames, _ => s.returned + nFrames ≤ s.fed.length
  | _, _ => True

-- An overflow has a gap of its own, and the wet positions are those the gaps are counted in.
def FxState.gapKept (s : FxState inCap wetCap) (nFrames : Nat) : Prop :=
  s.fxInRing.writeAvailable < nFrames → s.fxExtraDelay = 0
    ∧ (s.fxGaps.length < 8
      ∨ s.lastGap = s.fxInputPos + s.fxInRing.writeAvailable + s.fxPipe)

-- A re-anchor finds all wet before the gaps played and plays none itself.
def FxState.cleanAnchor (window : Nat) (s : FxState inCap wetCap) (nFrames : Nat)
    (connected : Bool) : Prop :=
  s.fires window nFrames connected
    → s.audioRing.readAvailable ≤ s.padDebt ∧ s.lastGap ≤ s.audioRing.head

def FxState.kept (window : Nat) (s : FxState inCap wetCap) (a : FxAct) : Prop :=
  s.given window a ∧
  match a, s.block with
  | .writeFxInput nFrames, none => s.gapKept nFrames
  | .pullFxLive connected, some nFrames => s.cleanAnchor window nFrames connected
  | .wet nFrames, _ => nFrames ≤ s.audioRing.writeAvailable
  | _, _ => True

instance FxState.decidableFires (window : Nat) (s : FxState inCap wetCap) (nFrames : Nat)
    (connected : Bool) : Decidable (s.fires window nFrames connected) :=
  inferInstanceAs (Decidable (_ ∧ _))

instance FxState.decidableGapKept (s : FxState inCap wetCap) (nFrames : Nat)
    : Decidable (s.gapKept nFrames) :=
  inferInstanceAs (Decidable (_ → _))

instance FxState.decidableCleanAnchor (window : Nat) (s : FxState inCap wetCap) (nFrames : Nat)
    (connected : Bool) : Decidable (s.cleanAnchor window nFrames connected) :=
  inferInstanceAs (Decidable (_ → _))

instance FxState.decidableGiven (window : Nat) (s : FxState inCap wetCap) (a : FxAct)
    : Decidable (s.given window a) :=
  match a, h : s.block with
  | .writeFxInput _, _ => .isTrue (by simp [FxState.given])
  | .feed _, _ => .isTrue (by simp [FxState.given])
  | .wet nFrames, _ =>
    decidable_of_iff (s.returned + nFrames ≤ s.fed.length) (by simp [FxState.given])
  | .pullFxLive _, none => .isTrue (by simp [FxState.given, h])
  | .pullFxLive connected, some nFrames =>
    decidable_of_iff (s.fires window nFrames connected
      → s.fxWetDelay + s.owedAfter nFrames ≤ kFxMaxWetDelay) (by simp [FxState.given, h])

instance FxState.decidableKept (window : Nat) (s : FxState inCap wetCap) (a : FxAct)
    : Decidable (s.kept window a) :=
  match a, h : s.block with
  | .writeFxInput nFrames, none =>
    decidable_of_iff (s.given window (.writeFxInput nFrames) ∧ s.gapKept nFrames)
      (by simp [FxState.kept, h])
  | .writeFxInput _, some _ => .isTrue (by simp [FxState.kept, FxState.given, h])
  | .feed _, _ => .isTrue (by simp [FxState.kept, FxState.given])
  | .wet nFrames, _ =>
    decidable_of_iff (s.given window (.wet nFrames) ∧ nFrames ≤ s.audioRing.writeAvailable)
      (by simp [FxState.kept])
  | .pullFxLive _, none => .isTrue (by simp [FxState.kept, FxState.given, h])
  | .pullFxLive connected, some nFrames =>
    decidable_of_iff (s.given window (.pullFxLive connected)
      ∧ s.cleanAnchor window nFrames connected) (by simp [FxState.kept, h])

end Blocks

end Harp
