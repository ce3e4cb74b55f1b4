import Harp.Device.State

/-!
This module contains the event plane of `device/session.c` and `device/engine.c`: the event queue,
the staged run of untagged events, the transactions, and the decoding of an EVT message.

Voices and the arpeggiator are not modelled; a note changes neither a parameter nor a transaction.
-/

namespace Harp

open Ieee

inductive EvKind where
  | noteOn
  | noteOff
  | paramSet
  | ramp
  | allOff
  | transport
  | mod
deriving DecidableEq, Repr

structure DevEvent where
  ts : Nat
  kind : EvKind
  a : Nat
  v : F32
  end_ : Nat
  ppq : F64
  channel : Nat
  voice : Nat
deriving DecidableEq, Repr

def devEvqCap : Nat := 512
def devTxnMax : Nat := 4
def devTxnEventsMax : Nat := 256
def evtStageCap : Nat := 64

structure DevTxn where
  open_ : Bool
  id : Nat
  ev : List DevEvent
  bound : ev.length ≤ devTxnEventsMax

def DevTxn.closed : DevTxn :=
  ⟨false, 0, [], Nat.zero_le _⟩

structure TxnTable where
  slots : List DevTxn
  len : slots.length = devTxnMax

def TxnTable.clear : TxnTable :=
  ⟨List.replicate devTxnMax DevTxn.closed, List.length_replicate ..⟩

def TxnTable.set (t : TxnTable) (i : Nat) (x : DevTxn) : TxnTable :=
  ⟨t.slots.set i x, by rw [List.length_set, t.len]⟩

structure EvtCounters where
  evqDrops : Nat
  txnRejected : Nat
  txnOverflow : Nat
  txnUnknown : Nat
  frameErrors : Nat
  staleEpoch : Nat
deriving DecidableEq, Repr

structure EvtState where
  evq : List DevEvent
  evtStage : List DevEvent
  evtStaged : Bool
  txn : TxnTable
  evtConsumed : UInt32
  counters : EvtCounters

def EvtState.fresh : EvtState :=
  ⟨[], [], false, TxnTable.clear, 0, ⟨0, 0, 0, 0, 0, 0⟩⟩

section Queue

def evqFull (e : EvtState) : Bool :=
  e.evq.length ≥ devEvqCap

def evqPush (e : EvtState) (ev : DevEvent) : EvtState :=
  if e.evq.length < devEvqCap then
    { e with evq := e.evq ++ [ev] }
  else
    { e with counters := { e.counters with evqDrops := e.counters.evqDrops + 1 } }

def evqPushBatch (e : EvtState) (evs : List DevEvent) : Bool × EvtState :=
  if e.evq.length + evs.length ≤ devEvqCap then
    (true, { e with evq := e.evq ++ evs })
  else
    (false, { e with counters := { e.counters with evqDrops := e.counters.evqDrops + evs.length } })

def evqPushRun (e : EvtState) (evs : List DevEvent) : EvtState :=
  evs.foldl evqPush e

-- What `evq_apply_due` leaves in the queue.
def evqRemaining (evq : List DevEvent) (pos : Nat) : List DevEvent :=
  evq.filter (fun ev => pos < ev.ts)

def evtStageFlush (e : EvtState) : EvtState :=
  if e.evtStage.isEmpty then
    e
  else
    let n := e.evtStage.length
    let e := evqPushRun e e.evtStage
    { e with evtConsumed := e.evtConsumed + UInt32.ofNat n, evtStage := [] }

def evtStageAdd (e : EvtState) (ev : DevEvent) : EvtState :=
  let e := if e.evtStage.length ≥ evtStageCap then evtStageFlush e else e
  { e with evtStage := e.evtStage ++ [ev], evtStaged := true }

end Queue

section Transactions

def txnFind (e : EvtState) (id : Nat) : Option (Nat × DevTxn) :=
  (e.txn.slots.zipIdx.find? (fun x => x.1.open_ ∧ x.1.id = id)).map Prod.swap

def txnFree (e : EvtState) : Option Nat :=
  e.txn.slots.findIdx? (fun t => !t.open_)

def EvtState.reject (e : EvtState) : EvtState :=
  { e with counters := { e.counters with txnRejected := e.counters.txnRejected + 1 } }

def EvtState.unknown (e : EvtState) : EvtState :=
  { e with counters := { e.counters with txnUnknown := e.counters.txnUnknown + 1 } }

def txnBegin (e : EvtState) (id : Nat) : EvtState :=
  if id = 0 then
    e.reject
  else
    match txnFind e id with
    | some _ => e.reject
    | none =>
      match txnFree e with
      | some i => { e with txn := e.txn.set i ⟨true, id, [], Nat.zero_le _⟩ }
      | none => e.reject

def DevTxn.push (t : DevTxn) (ev : DevEvent) : Option DevTxn :=
  if h : t.ev.length < devTxnEventsMax then
    some { t with ev := t.ev ++ [ev], bound := by rw [List.length_append]; exact h }
  else
    none

def txnSubmit (e : EvtState) (txnId : Nat) (ev : DevEvent) : EvtState :=
  if txnId = 0 then
    evtStageAdd e ev
  else
    match txnFind e txnId with
    | none => e.unknown
    | some (i, t) =>
      match t.push ev with
      | some t => { e with txn := e.txn.set i t }
      | none =>
        { e with counters := { e.counters with txnOverflow := e.counters.txnOverflow + 1 } }

def DevEvent.stamp (msc : Nat) (ev : DevEvent) : DevEvent :=
  { ev with ts := msc }

def DevEvent.dirties (ev : DevEvent) : Bool :=
  (ev.kind = .paramSet ∨ ev.kind = .ramp) ∧ ev.voice = 0

def DevTxn.shut (t : DevTxn) : DevTxn :=
  { t with open_ := false }

def txnCommit (e : EvtState) (id commitMsc : Nat) : Bool × EvtState :=
  match txnFind e id with
  | none => (false, e.unknown)
  | some (i, t) =>
    let evs := t.ev.map (DevEvent.stamp commitMsc)
    let hadDirty := evs.any DevEvent.dirties
    let e := evtStageFlush e
    let (pushed, e) := if evs.length = 0 then (true, e) else evqPushBatch e evs
    (hadDirty && pushed, { e with txn := e.txn.set i t.shut })

def txnAbort (e : EvtState) (id : Nat) : EvtState :=
  match txnFind e id with
  | none => e.unknown
  | some (i, t) => { e with txn := e.txn.set i t.shut }

end Transactions

section Decode

inductive EvtMsg where
  | frameError
  | stale
  | ignored
  -- a channel voice message that is neither a note nor a panic
  | otherVoice
  | note (ev : DevEvent)
  | transport (ev : DevEvent)
  | submit (txnId : Nat) (ev : DevEvent) (touches : Bool)
  | begin_ (id : Nat)
  | commit (id commitMsc : Nat)
  | commitStale (id : Nat)
  | abort (id : Nat)
deriving DecidableEq, Repr

def evtEpochStale (evEpoch curEpoch : Nat) : Bool :=
  evEpoch ≠ 0 ∧ evEpoch < curEpoch

def evtDirtiesLive (etype voice : Nat) (haveTxn : Bool) : Bool :=
  if haveTxn then false
  else if voice ≠ 0 then false
  else etype = 1 ∨ etype = 5

-- `(float)vel / 127.0f` for a velocity of 1 to 127; the quotient is never halfway.
def velocity (vel : Nat) : F32 :=
  let k := ((List.range 7).find? (fun k => 127 ≤ vel * 2 ^ k)).getD 7
  let n := vel * 2 ^ (k + 23)
  let m := n / 127 + if 127 < 2 * (n % 127) then 1 else 0
  Fp.of false (127 - k - 1 + m / 2 ^ 23) m

def umpMsg (msc : Nat) (p : Bytes) : EvtMsg :=
  let w := beNat (p.take 4)
  if w >>> 28 ≠ 2 then
    .ignored
  else
    let status := (w >>> 20) % 16
    let note := (w >>> 8) % 128
    let vel := w % 128
    let ev : DevEvent := ⟨msc, .noteOn, note, Fp.of false 0 0, 0, Fp.of false 0 0, (w >>> 16) % 16, 0⟩
    if status = 9 ∧ vel > 0 then
      .note { ev with v := velocity vel }
    else if status = 8 ∨ (status = 9 ∧ vel = 0) then
      .note { ev with kind := .noteOff }
    else if status = 0xb ∧ (note = 120 ∨ note = 123) then
      .note { ev with kind := .allOff }
    else
      .otherVoice

structure EvtBody where
  id : Option Nat
  val : Option F64
  end_ : Option (Nat × Nat)
  voice : Nat
  txn : Option Nat
  channel : Nat

def tstamp : Dec (Nat × Nat) := do
  let n ← cdecArray
  if n ≠ 2 then
    Dec.fail
  else
    let ep ← cdecUint
    let msc ← cdecUint
    return (ep, msc)

-- The fields of a set, a ramp and a mod; only a ramp has an end.
def evtField (hasEnd : Bool) (b : EvtBody) : Dec EvtBody := do
  let key ← cdecUint
  if key = 0 then
    let id ← cdecUint
    return { b with id := some id }
  else if key = 1 then
    let val ← cdecFloat
    return { b with val := some val }
  else if key = 2 ∧ hasEnd then
    let t ← tstamp
    return { b with end_ := some t }
  else if key = 3 then
    let voice ← cdecUint
    return { b with voice }
  else if key = 4 then
    let txn ← cdecUint
    return { b with txn := some txn }
  else if key = 5 then
    let channel ← cdecUint
    return { b with channel }
  else
    cdecSkip
    return b

def DevEvent.ofBody (msc : Nat) (kind : EvKind) (b : EvtBody) (id : Nat) (v : F64) (end_ : Nat)
    : DevEvent :=
  ⟨msc, kind, id % 2 ^ 32, narrow v, end_, Fp.of false 0 0, b.channel % 16, b.voice % 2 ^ 32⟩

def bodyMsg (epoch msc etype : Nat) (b : EvtBody) : EvtMsg :=
  match b.id, b.val with
  | some id, some val =>
    let touches := evtDirtiesLive etype (b.voice % 2 ^ 32) b.txn.isSome
    if etype = 5 then
      match b.end_ with
      | none => .ignored
      | some (eep, ets) =>
        if evtEpochStale eep epoch then
          .stale
        else
          .submit (b.txn.getD 0) (.ofBody msc .ramp b id (clamp01 val) ets) touches
    else if etype = 6 then
      .submit (b.txn.getD 0) (.ofBody msc .mod b id val 0) touches
    else
      .submit (b.txn.getD 0) (.ofBody msc .paramSet b id (clamp01 val) 0) touches
  | _, _ => .ignored

structure TransportBody where
  flags : Nat
  tempo : F64
  ppq : F64

def transportField (b : TransportBody) : Dec TransportBody := do
  let key ← cdecUint
  if key = 0 then
    let flags ← cdecUint
    return { b with flags }
  else if key = 1 then
    let tempo ← cdecFloat
    return { b with tempo }
  else if key = 4 then
    let ppq ← cdecFloat
    return { b with ppq }
  else
    cdecSkip
    return b

structure TxnBody where
  id : Option Nat
  at_ : Option (Nat × Nat)

-- The body of a begin, a commit and an abort; only a commit has an instant.
def txnField (hasAt : Bool) (b : TxnBody) : Dec TxnBody := do
  let key ← cdecUint
  if key = 0 then
    let id ← cdecUint
    return { b with id := some id }
  else if key = 1 ∧ hasAt then
    let t ← tstamp
    return { b with at_ := some t }
  else
    cdecSkip
    return b

def txnMsg (epoch msc etype : Nat) (b : TxnBody) : EvtMsg :=
  match b.id with
  | none => .ignored
  | some id =>
    if etype = 2 then
      .begin_ id
    else if etype = 4 then
      .abort id
    else
      match b.at_ with
      | none => .commit id msc
      | some (cep, cts) => if evtEpochStale cep epoch then .commitStale id else .commit id cts

-- A map that cannot be read is a frame error, a field that cannot be read drops the message.
def mapBody (field : σ → Dec σ) (init : σ) (done : σ → EvtMsg) (d : Cdec) : EvtMsg :=
  match cdecMap d with
  | (none, _) => .frameError
  | (some n, d) =>
    match Dec.loop n field init d with
    | (none, _) => .ignored
    | (some b, _) => done b

def evtHead : Dec (Nat × Nat × Nat) := do
  let alen ← cdecArray
  if alen < 3 then
    Dec.fail
  else
    let (ep, msc) ← tstamp
    let etype ← cdecUint
    return (ep, msc, etype)

def evtDecode (epoch : Nat) (buf : Bytes) : EvtMsg :=
  match evtHead (Cdec.init buf) with
  | (none, _) => .frameError
  | (some (ep, msc, etype), d) =>
    if evtEpochStale ep epoch then
      .stale
    else if etype = 0 then
      match cdecBytes d with
      | (some p, _) => if p.length < 4 then .ignored else umpMsg msc p
      | (none, _) => .ignored
    else if etype = 7 then
      mapBody transportField ⟨0, Fp.of false 0 0, Fp.of false 0 0⟩ (fun b => .transport
        ⟨msc, .transport, b.flags % 2 ^ 32, narrow b.tempo, 0, b.ppq, 0, 0⟩) d
    else if etype = 5 ∨ etype = 6 ∨ etype = 1 then
      mapBody (evtField (etype = 5)) ⟨none, none, none, 0, none, 0⟩ (bodyMsg epoch msc etype) d
    else if etype = 2 ∨ etype = 3 ∨ etype = 4 then
      mapBody (txnField (etype = 3)) ⟨none, none⟩ (txnMsg epoch msc etype) d
    else
      .ignored

end Decode

section Session

structure Session where
  dev : Device
  evt : EvtState
  audioEpoch : Nat

-- A note-off or a panic that finds the queue full is applied at once, outside the queue.
def noteEvt (e : EvtState) (ev : DevEvent) : EvtState :=
  let e := evtStageFlush e
  if ev.kind ≠ .noteOn ∧ evqFull e then e else evqPush e ev

def applyEvtMsg (s : Session) (msg : EvtMsg) (io : WriteIo) : Session :=
  let c := s.evt.counters
  match msg with
  | .frameError =>
    { s with evt := { s.evt with counters := { c with frameErrors := c.frameErrors + 1 } } }
  | .stale =>
    { s with evt := { s.evt with counters := { c with staleEpoch := c.staleEpoch + 1 } } }
  | .ignored => s
  | .otherVoice => { s with evt := evtStageFlush s.evt }
  | .note ev => { s with evt := noteEvt s.evt ev }
  | .transport ev => { s with evt := evqPush (evtStageFlush s.evt) ev }
  | .submit txnId ev touches =>
    { s with evt := txnSubmit s.evt txnId ev,
             dev := if touches then liveRefTouch s.dev true io else s.dev }
  | .begin_ id => { s with evt := txnBegin s.evt id }
  | .commit id commitMsc =>
    let (dirty, evt) := txnCommit s.evt id commitMsc
    { s with evt, dev := if dirty then liveRefTouch s.dev true io else s.dev }
  | .commitStale id =>
    let evt := txnAbort s.evt id
    { s with evt := { evt with counters :=
        { evt.counters with staleEpoch := evt.counters.staleEpoch + 1 } } }
  | .abort id => { s with evt := txnAbort s.evt id }

def handleEvtMsg (s : Session) (buf : Bytes) (io : WriteIo) : Session :=
  applyEvtMsg s (evtDecode s.audioEpoch buf) io

-- One EVT frame of the session loop; `readable` says whether more input is there already.
def consumeEvt (s : Session) (buf : Bytes) (readable : Bool) (io : WriteIo) : Session :=
  let s := { s with evt := { s.evt with evtStaged := false } }
  let s := handleEvtMsg s buf io
  let evt :=
    if ¬ s.evt.evtStaged then
      let evt := evtStageFlush s.evt
      { evt with evtConsumed := evt.evtConsumed + 1 }
    else
      s.evt
  { s with evt := if ¬ evt.evtStage.isEmpty ∧ ¬ readable then evtStageFlush evt else evt }

end Session

end Harp
