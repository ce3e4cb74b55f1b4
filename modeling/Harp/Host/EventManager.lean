import Harp.Device.Params

/-!
This module contains the event plane of `shell/runtime_events.cpp`: the ring of the events on their
way to the device, the messages they become, and the fence the pacing frames carry.

A queue operation is known by its number, which the source does not have.
-/

namespace Harp

open Ieee

inductive TimedKind where
  | param
  | ramp
  | ump
  | transport
  | mod
deriving DecidableEq, Repr

structure TimedEv where
  kind : TimedKind
  a : UInt32
  v : F32
  ts : UInt64
  end_ : UInt64
  channel : Fin 16
  tag : UInt32
deriving DecidableEq, Repr

section Encode

def evtHeadBytes (ts : UInt64) (etype : Nat) : Bytes :=
  cborArray 3 ++ cborArray 2 ++ cborUint 0 ++ cborUint ts.toNat ++ cborUint etype

-- Key 5 is left out for part 0.
def channelBytes (channel : Nat) : Bytes :=
  if channel ≠ 0 then cborUint 5 ++ cborUint channel else []

def paramBytes (a : UInt32) (v : F32) : Bytes :=
  cborUint 0 ++ cborUint a.toNat ++ cborUint 1 ++ cborFloat (widen v)

def encodeParamEvent (id : UInt32) (v : F32) (ts : UInt64) (channel : Nat) : Bytes :=
  evtHeadBytes ts 1 ++ cborMap (if channel ≠ 0 then 3 else 2) ++ paramBytes id v
    ++ channelBytes channel

def encodeRampEvent (id : UInt32) (target : F32) (start end_ : UInt64) (channel : Nat) : Bytes :=
  evtHeadBytes start 5 ++ cborMap (if channel ≠ 0 then 4 else 3) ++ paramBytes id target
    ++ cborUint 2 ++ cborArray 2 ++ cborUint 0 ++ cborUint end_.toNat ++ channelBytes channel

def encodeUmpEvent (word : UInt32) (ts : UInt64) : Bytes :=
  evtHeadBytes ts 0 ++ cborBytes (beBytes word.toNat 4)

def encodeModEvent (id : UInt32) (offset : F32) (ts : UInt64) (voice : UInt32) (srcChan : Nat)
    : Bytes :=
  let channel := if voice ≠ 0 then voice.toNat / 2 ^ 8 % 16 else srcChan % 16
  let n := 2 + (if voice ≠ 0 then 1 else 0) + (if channel ≠ 0 then 1 else 0)
  evtHeadBytes ts 6 ++ cborMap n ++ paramBytes id offset
    ++ (if voice ≠ 0 then cborUint 3 ++ cborUint voice.toNat else []) ++ channelBytes channel

def encodeTransportEvent (flags : UInt32) (tempo ppq : F64) (ts : UInt64) : Bytes :=
  evtHeadBytes ts 7 ++ cborMap 3 ++ cborUint 0 ++ cborUint flags.toNat ++ cborUint 1
    ++ cborFloat tempo ++ cborUint 4 ++ cborFloat ppq

def TimedEv.encode (te : TimedEv) : Bytes :=
  match te.kind with
  | .param => encodeParamEvent te.a te.v te.ts te.channel
  | .ramp => encodeRampEvent te.a te.v te.ts te.end_ te.channel
  | .transport => encodeTransportEvent te.a (widen te.v) (Fp.ofBits te.end_.toNat) te.ts
  | .mod => encodeModEvent te.a te.v te.ts te.end_.toUInt32 te.channel
  | .ump => encodeUmpEvent te.a te.ts

-- An event stamped in another SSI domain is delivered "now", a ramp as a set of its target.
def TimedEv.restamp (te : TimedEv) (curTag : UInt32) : TimedEv :=
  if te.tag ≠ 0 ∧ te.tag ≠ curTag then
    { te with kind := if te.kind = .ramp then .param else te.kind, ts := 0 }
  else
    te

def umpAllNotesOff : UInt32 := 0x20b07b00

def panicBytes : Bytes :=
  encodeUmpEvent umpAllNotesOff 0

end Encode

section Ring

structure Queued where
  op : Nat
  ev : TimedEv
deriving DecidableEq, Repr

def timedRingCap : Nat := 1024

structure EventManager where
  ring : List Queued
  evtQueuedSeq : UInt32
  evtEpochBase : UInt32
  evDrops : Nat
  panicPending : Bool
  expectedTag : UInt32

def EventManager.fresh : EventManager :=
  ⟨[], 0, 0, 0, false, 0⟩

def TimedEv.isNoteOn (te : TimedEv) : Bool :=
  te.a.toNat / 2 ^ 20 % 16 = 9 ∧ 0 < te.a.toNat % 128

namespace EventManager

-- The push of a queue operation; its count comes in a step of its own.
def push (em : EventManager) (q : Queued) : Bool × EventManager :=
  if em.ring.length < timedRingCap then
    (true, { em with ring := em.ring ++ [q] })
  else
    (false,
      { em with
        evDrops := em.evDrops + 1,
        -- a lost note-off would be a note that never stops
        panicPending := em.panicPending || (q.ev.kind = .ump && !q.ev.isNoteOn) })

def count (em : EventManager) : EventManager :=
  { em with evtQueuedSeq := em.evtQueuedSeq + 1 }

def fenceStamp (em : EventManager) : UInt32 :=
  if em.evtQueuedSeq > em.evtEpochBase then em.evtQueuedSeq - em.evtEpochBase else 0

def advanceEpoch (em : EventManager) : EventManager :=
  { em with evtEpochBase := em.evtQueuedSeq }

-- The two stores of `resetFence`.
def zeroSeq (em : EventManager) : EventManager :=
  { em with evtQueuedSeq := 0 }

def zeroBase (em : EventManager) : EventManager :=
  { em with evtEpochBase := 0 }

def drainBudget : Nat := 64

def drainOwner (em : EventManager) : List (Nat × Bytes) × EventManager :=
  ((em.ring.take drainBudget).map (fun q => (q.op, (q.ev.restamp em.expectedTag).encode)),
    { em with ring := em.ring.drop drainBudget })

end EventManager

end Ring

end Harp
