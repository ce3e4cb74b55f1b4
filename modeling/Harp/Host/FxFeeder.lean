import Harp.Host.EventManager
import Harp.Lib.Run
import Harp.Lib.StreamRing

/-!
This module contains the feeder of an effect's session: the audio thread that queues events and hands
over input, and the pacing loop that frames the input and stamps the fence, one access to what they
share at a time.
-/

namespace Harp

open Ieee Runs StreamRings

def kBlock : Nat := 256

-- How `audioWrite` ends: all slots in flight until the timeout, or a dead transport.
inductive AudioWrite where
  | ok
  | slotTimeout
  | failed
  deriving DecidableEq

def fxClampTs (fxHorizon ts : UInt64) : UInt64 :=
  if ts < fxHorizon then fxHorizon else ts

-- The calls of the event facade. `held` is the read-only hold, which the first two look at.
inductive FxQueue where
  | queueParamSet (held : Bool) (id : UInt32) (v : F32) (ts : UInt64) (channel : Fin 16)
  | queueRamp (held : Bool) (id : UInt32) (target : F32) (start end_ : UInt64) (channel : Fin 16)
  | queueNote (word : UInt32) (ts : UInt64)
  | queueMod (id : UInt32) (offset : F32) (voice : UInt32) (ts : UInt64) (channel : Fin 16)
  | queueTransport (flags : UInt32) (tempo : F32) (ppqBits ts : UInt64)

-- The event a call pushes, with the domain tag of the audio thread.
def FxQueue.timed (fxHorizon : UInt64) (tag : UInt32) : FxQueue → Option TimedEv
  | .queueParamSet held id v ts channel =>
    if held then none else some ⟨.param, id, v, fxClampTs fxHorizon ts, 0, channel, tag⟩
  | .queueRamp held id target start end_ channel =>
    if held then
      none
    else
      let start := fxClampTs fxHorizon start
      some ⟨.ramp, id, target, start, if end_ < start then start else end_, channel, tag⟩
  | .queueNote word ts => some ⟨.ump, word, Fp.ofBits 0, ts, 0, 0, tag⟩
  | .queueMod id offset voice ts channel => some ⟨.mod, id, offset, ts, voice.toUInt64, channel, tag⟩
  | .queueTransport flags tempo ppqBits ts => some ⟨.transport, flags, tempo, ts, ppqBits, 0, tag⟩

-- Where the audio thread is: an event is pushed and not counted, or the horizon is published and the
-- block's input is not written.
inductive FxAudioPc (α : Type) where
  | idle
  | pushed (ev : TimedEv)
  | published (block : List α)

-- Where the feeder is in its pacing loop. `stamped` has the fence of the frame in hand.
inductive FeederPc where
  | top
  | loop
  | horizon
  | stamp
  | stamped (fence : UInt32)
  deriving DecidableEq

structure InputFrame (α : Type) where
  ssi : Nat
  fence : UInt32
  payload : List α
  deriving DecidableEq

-- `counted` has every event counted since the fence was reset, `mine` how many of them are older than
-- the adoption, `inputs` the input frames written since, `built` the frames with their fences and
-- `sent` those the transport took. `refused` says that it has refused one.
structure FxFeed (α : Type) (cap : Nat) where
  em : EventManager
  domainTag : UInt32
  counted : List TimedEv
  mine : Nat
  fxInRing : StreamRing α cap
  fxInBase : Nat
  adopted : Bool
  fxHorizon : UInt64
  audio : FxAudioPc α
  inputs : List α
  feeder : FeederPc
  ssi : Nat
  framesSent : Nat
  framesRecv : Nat
  framesRecvAtomic : Nat
  inFlight : Nat
  built : List (Nat × UInt32)
  sent : List (InputFrame α)
  refused : Bool

inductive FxFeedAct (α : Type) where
  | fxBeginBlock (tag : UInt32)
  | queue (q : FxQueue)
  | count
  | writeFxInput (block : List α)
  | inputWritten
  | feeder (io : AudioWrite)
  | frameReturned
  | drain

section Feed

variable {α : Type} {cap : Nat}

-- A session is up and the audio thread is still in the domain of the last one.
def FxFeed.sessionUp (ring : StreamRing α cap) (fxInBase : Nat) (fxHorizon : UInt64)
    (domainTag expectedTag : UInt32) : FxFeed α cap where
  em := { EventManager.fresh with expectedTag := expectedTag }
  domainTag := domainTag
  counted := []
  mine := 0
  fxInRing := ring
  fxInBase := fxInBase
  adopted := false
  fxHorizon := fxHorizon
  audio := .idle
  inputs := []
  feeder := .top
  ssi := 0
  framesSent := 0
  framesRecv := 0
  framesRecvAtomic := 0
  inFlight := 0
  built := []
  sent := []
  refused := false

namespace FxFeed

def fxInputPos (s : FxFeed α cap) : Nat :=
  s.fxInRing.head - s.fxInBase

def fxBeginBlock (s : FxFeed α cap) (tag : UInt32) : FxFeed α cap :=
  if s.adopted then
    s
  else
    { s with
      fxInBase := s.fxInRing.head
      fxHorizon := 0
      domainTag := tag
      adopted := true
      mine := s.counted.length
      inputs := [] }

def queue (s : FxFeed α cap) (q : FxQueue) : FxFeed α cap :=
  match q.timed s.fxHorizon s.domainTag with
  | none => s
  | some ev =>
    let pushed := s.em.push ⟨s.counted.length, ev⟩
    { s with em := pushed.2, audio := if pushed.1 then .pushed ev else .idle }

def count (s : FxFeed α cap) : FxFeed α cap :=
  match s.audio with
  | .pushed ev => { s with em := s.em.count, counted := s.counted ++ [ev], audio := .idle }
  | _ => s

-- The horizon is the input position before the block.
def writeFxInput (s : FxFeed α cap) (block : List α) : FxFeed α cap :=
  if block = [] then
    s
  else
    { s with fxHorizon := UInt64.ofNat s.fxInputPos, audio := .published block }

def inputWritten (s : FxFeed α cap) : FxFeed α cap :=
  match s.audio with
  | .published block =>
    { s with
      fxInRing := s.fxInRing.write block
      inputs := s.inputs ++ block.take s.fxInRing.writeAvailable
      audio := .idle }
  | _ => s

-- Small fixed pipeline (`ahead_`).
def ahead : Nat := 2

-- Back to the top of the feeder, past the count the reader keeps.
def feederTop (s : FxFeed α cap) : FxFeed α cap :=
  { s with feeder := .top, framesRecv := s.framesRecvAtomic }

-- The top of the pacing: input below the base is read into a scratch buffer and forgotten.
def feederReady (s : FxFeed α cap) : FxFeed α cap :=
  if s.adopted then
    { s with
      fxInRing := (s.fxInRing.read (s.fxInBase - s.fxInRing.tail)).2
      inFlight := s.framesSent - s.framesRecv
      feeder := .loop }
  else
    s.feederTop

-- The input is taken out of the ring before the write is known to succeed.
def feederWrite (s : FxFeed α cap) (fence : UInt32) (io : AudioWrite) : FxFeed α cap :=
  let got := s.fxInRing.read kBlock
  match io with
  | .ok =>
    { s with
      fxInRing := got.2
      sent := s.sent ++ [⟨s.ssi, fence, got.1⟩]
      ssi := s.ssi + kBlock
      framesSent := s.framesSent + 1
      inFlight := s.inFlight + 1
      feeder := .loop }
  | _ => { s with fxInRing := got.2, refused := true }.feederTop

def feederStep (s : FxFeed α cap) (io : AudioWrite) : FxFeed α cap :=
  match s.feeder with
  | .top => s.feederReady
  | .loop =>
    if s.inFlight < ahead ∧ kBlock ≤ s.fxInRing.readAvailable then
      { s with feeder := .horizon }
    else
      s.feederTop
  | .horizon =>
    if s.ssi + kBlock ≤ s.fxHorizon.toNat then { s with feeder := .stamp } else s.feederTop
  | .stamp =>
    { s with
      feeder := .stamped s.em.fenceStamp
      built := s.built ++ [(s.ssi, s.em.fenceStamp)] }
  | .stamped fence => s.feederWrite fence io

def next (s : FxFeed α cap) (a : FxFeedAct α) : FxFeed α cap :=
  match a, s.audio with
  | .fxBeginBlock tag, .idle => s.fxBeginBlock tag
  | .queue q, .idle => s.queue q
  | .writeFxInput block, .idle => s.writeFxInput block
  | .fxBeginBlock _, _ => s
  | .queue _, _ => s
  | .writeFxInput _, _ => s
  | .count, _ => s.count
  | .inputWritten, _ => s.inputWritten
  | .feeder io, _ => s.feederStep io
  | .frameReturned, _ => { s with framesRecvAtomic := s.framesRecvAtomic + 1 }
  | .drain, _ => { s with em := s.em.drainOwner.2 }

-- Every event the audio thread has pushed since the fence was reset.
def evs (s : FxFeed α cap) : List TimedEv :=
  match s.audio with
  | .pushed ev => s.counted ++ [ev]
  | _ => s.counted

-- After a refused write the transport takes no more.
def refusedLast (s : FxFeed α cap) (a : FxFeedAct α) : Prop :=
  match s.feeder, a with
  | .stamped _, .feeder .ok => s.refused = false
  | _, _ => True

-- Notes, mods and transport changes are not clamped: they come with a timestamp the feeder has not
-- got to. The counters do not wrap.
def horizonKept (s : FxFeed α cap) : FxFeedAct α → Prop
  | .queue q =>
    s.counted.length + 1 < 2 ^ 32 ∧
    match q with
    | .queueNote _ ts => s.fxHorizon ≤ ts
    | .queueMod _ _ _ ts _ => s.fxHorizon ≤ ts
    | .queueTransport _ _ _ ts => s.fxHorizon ≤ ts
    | _ => True
  | .writeFxInput _ => s.fxInputPos < 2 ^ 64
  | _ => True

instance decidableRefusedLast (s : FxFeed α cap) (a : FxFeedAct α)
    : Decidable (s.refusedLast a) := by
  unfold refusedLast
  split <;> infer_instance

instance decidableHorizonKept (s : FxFeed α cap) (a : FxFeedAct α)
    : Decidable (s.horizonKept a) :=
  match a with
  | .queue (.queueParamSet _ _ _ _ _) => inferInstanceAs (Decidable (_ ∧ True))
  | .queue (.queueRamp _ _ _ _ _ _) => inferInstanceAs (Decidable (_ ∧ True))
  | .queue (.queueNote _ _) => inferInstanceAs (Decidable (_ ∧ _ ≤ _))
  | .queue (.queueMod _ _ _ _ _) => inferInstanceAs (Decidable (_ ∧ _ ≤ _))
  | .queue (.queueTransport _ _ _ _) => inferInstanceAs (Decidable (_ ∧ _ ≤ _))
  | .writeFxInput _ => inferInstanceAs (Decidable (_ < _))
  | .fxBeginBlock _ => .isTrue trivial
  | .count => .isTrue trivial
  | .inputWritten => .isTrue trivial
  | .feeder _ => .isTrue trivial
  | .frameReturned => .isTrue trivial
  | .drain => .isTrue trivial

end FxFeed

-- Input frame `k` of the session is in the frame that covers SSI `k`.
structure InputCarried (s : FxFeed α cap) : Prop where
  consecutive : ∀ i f, s.sent[i]? = some f → f.ssi = kBlock * i ∧ f.payload.length = kBlock
  carried : ∀ f ∈ s.sent, ∀ j x, f.payload[j]? = some x → s.inputs[f.ssi + j]? = some x

-- A frame's fence counts all events of the session below the frame's end, the later ones too.
def FencedLaw (s : FxFeed α cap) : Prop :=
  ∀ f ∈ s.built, ∀ i ev, s.mine ≤ i → s.evs[i]? = some ev → ev.ts.toNat < f.1 + kBlock
    → i < f.2.toNat

end Feed

end Harp
