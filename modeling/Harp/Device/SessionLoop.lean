import Harp.Core.Envelope
import Harp.Device.AudioStart
import Harp.Device.EngineRun
import Harp.Device.LiveCache
import Harp.Device.SessionRun
import Harp.Host.ObjTransfer

/-!
This module contains the session loop of `device/session.c`, `harp_deviced_run_session`, with the
control requests that change the device, over one session after the other.

The render loop and the front panel are threads of their own and go on between the sessions. A
`x.harp-refdev.restart` ends the process, and with it the run.
-/

namespace Harp

open Ieee Rings

/--
The device with its session fields. `log` is not part of the source: the objects and grants that the
device has written.
-/
structure Daemon (D : Type) where
  store : Store
  liveCache : Option Ref
  archivesSinceGc : Nat
  engineVer : Option Bytes
  e : Engine D
  audio : AudioState
  send : ObjSend
  granted : Nat
  helloDone : Bool
  closing : Bool
  up : Bool
  log : List ObjMsg

-- What the environment answers to a control message.
structure CtlIo where
  touch : WriteIo
  refs : WriteIo
  shed : Bool
  time : Nat
  snap : SnapIo
  refset : RefsetIo
  panel : WriteIo
  start : StartIo
  msc : UInt64

def Engine.voicesQuiet {D : Type} (e : Engine D) : Engine D :=
  { e with parts := fun q => { (e.parts q).freeVoices with panicNote := .none } }

section Parse

-- A version that cannot be read leaves the one that was read before.
def helloFields (n : Nat) (b : Cdec) (major : Nat) : Nat :=
  match n with
  | 0 => major
  | n + 1 =>
    match cdecUint b with
    | (none, _) => major
    | (some 0, b) =>
      match cdecArray b with
      | (some 2, b) =>
        match cdecUint b with
        | (some mj, b) =>
          match cdecUint b with
          | (some _, b) => helloFields n b mj
          | (none, b) => helloFields n b major
        | (none, b) => helloFields n b major
      | (_, b) => helloFields n b major
    | (some _, b) => helloFields n (cdecSkip b).2 major

def helloMajor (body : Option Bytes) : Nat :=
  match body with
  | none => 0
  | some body =>
    match cdecMap (Cdec.init body) with
    | (some n, b) => helloFields n b 0
    | (none, _) => 0

def protoMajor : Nat := 1

def knobFields : Dec (Nat × F64) := do
  let n ← cdecMap
  if n < 2 then
    Dec.fail
  else
    let key ← cdecUint
    if key ≠ 0 then
      Dec.fail
    else
      let id ← cdecUint
      let key ← cdecUint
      if key ≠ 1 then
        Dec.fail
      else
        let v ← cdecFloat
        return (id, v)

def knobParse (body : Option Bytes) : Option (Nat × F64) :=
  body.bind (fun body => (knobFields (Cdec.init body)).1)

-- The handlers; `reply` stands for those that only answer.
inductive Handler where
  | hello
  | bye
  | stateRefs
  | stateSnapshot
  | stateWant
  | stateRefset
  | audioStart
  | audioStop
  | knob
  | devGc
  | reply
deriving DecidableEq, Repr

def ctlHandlers : List (Bytes × Handler) :=
  [ (ascii "core.hello", .hello),
    (ascii "core.identify", .reply),
    (ascii "core.ping", .reply),
    (ascii "core.bye", .bye),
    (ascii "time.ping", .reply),
    (ascii "state.refs", .stateRefs),
    (ascii "state.snapshot", .stateSnapshot),
    (ascii "state.have", .reply),
    (ascii "state.want", .stateWant),
    (ascii "state.send", .reply),
    (ascii "state.refset", .stateRefset),
    (ascii "evt.params", .reply),
    (ascii "evt.format", .reply),
    (ascii "evt.parse", .reply),
    (ascii "audio.start", .audioStart),
    (ascii "audio.stop", .audioStop),
    (ascii "audio.trim", .reply),
    (ascii "diag.counters", .reply),
    (ascii "diag.bundle", .reply),
    (ascii "diag.loopback.start", .reply),
    (ascii "diag.loopback.stop", .reply),
    (ascii "x.harp-refdev.knob", .knob),
    (ascii "x.harp.reconcile.offer", .reply),
    (ascii "x.harp.reconcile.poll", .reply),
    (ascii "x.harp-refdev.params", .reply),
    (ascii "x.harp-refdev.meters", .reply),
    (ascii "x.harp-refdev.txn", .reply),
    (ascii "x.harp-refdev.gc", .devGc),
    (ascii "x.harp-refdev.notify-changed", .reply) ]

def handlerOf (method : Bytes) : Option Handler :=
  (ctlHandlers.find? (fun row => row.1 = method)).map Prod.snd

end Parse

namespace Daemon

variable {D X : Type}

-- The part of the state that the operations of `Harp.Device.State` work on.
def dev (c : Daemon D) : Device where
  store := c.store
  liveCache := c.liveCache
  pval := fun p => (c.e.parts p).pval
  ramps := fun p => (c.e.parts p).ramps
  touchPending := c.e.touchPending
  archivesSinceGc := c.archivesSinceGc
  engineVer := c.engineVer

def setDev (c : Daemon D) (d : Device) : Daemon D :=
  { c with
    store := d.store
    liveCache := d.liveCache
    archivesSinceGc := d.archivesSinceGc
    engineVer := d.engineVer
    e := { c.e with
      parts := fun p => { c.e.parts p with pval := d.pval p, ramps := d.ramps p }
      touchPending := d.touchPending } }

def setEvt (c : Daemon D) (evt : EvtState) : Daemon D :=
  { c with e := { c.e with evt } }

def frameError (c : Daemon D) : Daemon D :=
  c.setEvt { c.e.evt with counters :=
    { c.e.evt.counters with frameErrors := c.e.evt.counters.frameErrors + 1 } }

def evtStageFlush (c : Daemon D) : Daemon D :=
  c.setEvt (Harp.evtStageFlush c.e.evt)

def clearTxn (c : Daemon D) : Daemon D :=
  c.setEvt { c.e.evt with txn := TxnTable.clear }

def dropBacklog (c : Daemon D) : Daemon D :=
  { c with send := { c.send with peerCredit := 0, sendq := c.send.sendq.clear }, granted := 0 }

def grantCredit (c : Daemon D) : Daemon D :=
  let window := Harp.grantCredit c.granted
  { c with granted := window.1, log := c.log ++ window.2 }

def audioStop (c : Daemon D) (msc : UInt64) : Daemon D :=
  { c with
    audio := Harp.audioStop c.audio msc
    e := if c.audio.threadLive then c.e.voicesQuiet else c.e }

section Requests

def handleHello (c : Daemon D) (body : Option Bytes) (io : CtlIo) : Daemon D :=
  if helloMajor body ≠ protoMajor then
    c
  else
    let c := c.audioStop io.msc
    let c := { c with helloDone := true }
    c.dropBacklog.clearTxn.grantCredit

def handleStateWant (c : Daemon D) (body : Option Bytes) : Daemon D :=
  let out := ObjSend.stateWant c.store c.send body
  { c with send := out.1, log := c.log ++ sentMsgs out.2 }

-- The old timeline goes as soon as the start has passed its checks, whether the thread comes or not.
def handleAudioStart (k : Kernel D X) (c : Daemon D) (body : Option Bytes) (io : CtlIo)
    : Daemon D :=
  match startRefused c.audio (startParse body) io.start with
  | some _ => c
  | none =>
    let audio := (Harp.handleAudioStart c.audio body io.start).2.2
    let c := { c with e := c.e.evqResetForNewStream }
    let c := c.clearTxn
    { c with audio, e := if audio.threadLive then c.e.engineVoicesCold k else c.e }

def handleAudioStop (c : Daemon D) (io : CtlIo) : Daemon D :=
  (c.audioStop io.msc).clearTxn

def handleKnob (c : Daemon D) (body : Option Bytes) (io : CtlIo) : Daemon D :=
  match knobParse body with
  | none => c
  | some (id, v) => c.setDev (frontPanelSetPart c.dev 0 (id % 2 ^ 32) v io.panel).2

def handleDevGc (c : Daemon D) : Daemon D :=
  let store := (pruneNamespace c.store archivePrefix).store
  let store := (pruneNamespace store duplicatePrefix).store
  let store :=
    match storeGc store 0 with
    | some out => out.store
    | none => store
  { c with store, archivesSinceGc := 0 }

def dispatch (k : Kernel D X) (c : Daemon D) (body : Option Bytes) (io : CtlIo)
    : Handler → Daemon D
  | .hello => c.handleHello body io
  | .bye => { c with closing := true }
  | .stateRefs => c.setDev (stateRefs c.dev body io.refs).2
  | .stateSnapshot => c.setDev (stateSnapshot c.dev io.shed body io.time io.snap).2
  | .stateWant => c.handleStateWant body
  | .stateRefset => c.setDev (handleStateRefset c.dev body io.refset).2
  | .audioStart => c.handleAudioStart k body io
  | .audioStop => c.handleAudioStop io
  | .knob => c.handleKnob body io
  | .devGc => c.handleDevGc
  | .reply => c

end Requests

section Messages

def coreCredit (c : Daemon D) (body : Bytes) : Daemon D :=
  let out := ObjSend.coreCredit c.store c.send body
  { c with send := out.1, log := c.log ++ sentMsgs out.2 }

def handleCtl (k : Kernel D X) (c : Daemon D) (buf : Bytes) (io : CtlIo) : Daemon D :=
  let c := c.setDev (ctlTouch c.dev io.touch)
  match envParse buf with
  | none => c.frameError
  | some e =>
    match e.msgtype with
    | .notification =>
      match e.body with
      | some body => if e.method = ascii "core.credit" then c.coreCredit body else c
      | none => c
    | .request =>
      if ¬ c.helloDone ∧ e.method ≠ ascii "core.hello" then
        c
      else
        match handlerOf e.method with
        | some h => c.dispatch k e.body io h
        | none => c
    | _ => c

def handleObj (c : Daemon D) (enc : Bytes) (io : WriteIo) : Daemon D :=
  let bad := (objKind enc).isNone || !(storePut c.store enc io).1
  let window := consumeObj c.granted enc.length
  let c := if bad then c.frameError else c
  { c with
    store := Harp.handleObj c.store enc io
    granted := window.1
    log := c.log ++ window.2 }

def handleEvt (c : Daemon D) (buf : Bytes) (readable : Bool) (io : WriteIo) : Daemon D :=
  let s := Synth.consumeEvt ⟨c.dev, c.audio.epoch.toNat, c.e⟩ buf readable io
  { c with e := s.e }.setDev s.dev

inductive StreamMsg where
  | ctl (buf : Bytes) (io : CtlIo)
  | obj (enc : Bytes) (io : WriteIo)
  | evt (buf : Bytes) (readable : Bool) (io : WriteIo)

-- One frame of the session loop.
def message (k : Kernel D X) (c : Daemon D) : StreamMsg → Daemon D
  | .ctl buf io => c.evtStageFlush.handleCtl k buf io
  | .obj enc io => if ¬ c.helloDone then c.frameError else c.evtStageFlush.handleObj enc io
  | .evt buf readable io =>
    if ¬ c.helloDone then c.frameError else c.handleEvt buf readable io

end Messages

section Sessions

def connect (c : Daemon D) : Daemon D :=
  let c := { c with up := true, helloDone := false, closing := false }
  let c := c.dropBacklog
  c.setEvt { c.e.evt with txn := TxnTable.clear, evtStage := [], evtStaged := false }

def disconnect (c : Daemon D) (msc : UInt64) (io : WriteIo) : Daemon D :=
  let c := c.evtStageFlush.audioStop msc
  { c.setDev (liveCacheFlush c.dev io) with up := false }

inductive Act where
  | connect
  | message (m : StreamMsg)
  | disconnect (msc : UInt64) (io : WriteIo)
  | panel (part : Int) (id : Nat) (v : F64) (io : WriteIo)
  | revert (refname : Bytes) (io : RevertIo)
  | segment (slots : List OutSlot) (n pos done : Nat)

-- After a `core.bye` the loop is left without another frame.
def next (k : Kernel D X) (c : Daemon D) : Act → Daemon D
  | .connect => if c.up then c else c.connect
  | .message m => if c.up ∧ ¬ c.closing then c.message k m else c
  | .disconnect msc io => if c.up then c.disconnect msc io else c
  | .panel part id v io => c.setDev (frontPanelSetPart c.dev part id v io).2
  | .revert refname io => c.setDev (panelRevert c.dev refname io)
  | .segment slots n pos done =>
    if c.audio.threadLive then { c with e := c.e.segment k slots n pos done } else c

end Sessions

end Daemon

end Harp
