import Harp.Host.EventManager
import Harp.Device.SessionRun

/-!
This module contains the event fence between the shell and the device: the audio thread that queues
events, the event pump, the supervisor that starts, paces and re-negotiates streams, the two pipes,
and the device's session loop and audio thread, one step at a time.

`ctlMutex_` shows in the phases of the supervisor: the pump writes only while it is not held. The
numbers of the queue operations and the lists of them are history, which no step reads.
-/

namespace Harp

def fenceKeepWaiting (pending : Int) (running offline : Bool) (now deadline : Nat) : Bool :=
  if pending ≤ 0 ∨ running = false then false
  else if offline then true
  else now < deadline

inductive SupPhase where
  | down
  -- `sessionUp`: audio.start is answered, the stale ring is drained, one of two counters is zero
  | started
  | drained
  | zeroed
  -- `feeder`
  | up
  -- `audioRenegotiateLocked`: the device joins its audio thread, has answered, the epoch is set
  | stopping
  | stopped
  | based
deriving DecidableEq, Repr

structure Frame where
  fence : UInt32
  -- the queue operations of the stream that were over when the frame was stamped
  after : List Nat
deriving DecidableEq, Repr

structure FenceRun where
  em : EventManager
  -- the operation the audio thread has pushed and not counted
  audio : Option Nat
  -- what the pump has drained and not written
  pump : List (Nat × Bytes)
  sup : SupPhase
  -- EVT messages on the link; a panic message comes from no queue operation
  link : List (Option Nat × Bytes)
  frames : List Frame
  dev : Session
  running : Bool
  nextOp : Nat
  -- the EVT messages the device has handled since audio.start
  handled : List (Option Nat)
  -- the operations over, and not over, when the stream's fence was put to zero, whose events the
  -- device was still to get, and the later ones
  old : List Nat
  mine : List Nat

def Session.reopen (s : Session) (io : WriteIo) : Session :=
  { s with
    dev := liveCacheFlush s.dev io,
    evt := { evtStageFlush s.evt with txn := TxnTable.clear, evtStaged := false } }

-- What the session and the render thread do besides EVT messages, audio.start and audio.stop.
def SessAct.inStream : SessAct → Bool
  | .evt _ _ _ => false
  | .ctl .hello _ => false
  | .ctl (.audioStart _) _ => false
  | .ctl .audioStop _ => false
  | _ => true

inductive FenceAct where
  | queue (ev : TimedEv)
  | count
  | drain
  | write
  | panic
  | recv (readable : Bool) (io : WriteIo)
  | device (a : SessAct)
  | stamp
  | render (now deadline : Nat)
  | audioStop (touch : WriteIo)
  | joined
  | advanceEpoch
  | audioStart (newEpoch : Bool) (touch : WriteIo)
  | down
  | connect (newEpoch : Bool) (tag : UInt32) (flush touch touch' : WriteIo)
  | drainStale
  | drainedStale
  | zeroSeq
  | zeroBase

namespace FenceRun

def boot (dev : Device) (epoch : Nat) : FenceRun where
  em := EventManager.fresh
  audio := none
  pump := []
  sup := .down
  link := []
  frames := []
  dev := ⟨dev, EvtState.fresh, epoch⟩
  running := false
  nextOp := 0
  handled := []
  old := []
  mine := []

-- The events that are still to be written to the link.
def unsent (w : FenceRun) : List Nat :=
  w.pump.map Prod.fst ++ w.em.ring.map Queued.op

def finished (audio : Option Nat) (ops : List Nat) : List Nat :=
  ops.filter (fun op => some op ≠ audio)

def unfinished (audio : Option Nat) (ops : List Nat) : List Nat :=
  ops.filter (fun op => some op = audio)

-- The fence starts from zero again.
def rebase (w : FenceRun) : FenceRun :=
  { w with old := finished w.audio w.unsent, mine := unfinished w.audio w.unsent }

def pending (w : FenceRun) (f : Frame) : Int :=
  (f.fence - w.dev.evt.evtConsumed).toBitVec.toInt

def waits (w : FenceRun) (f : Frame) (now deadline : Nat) : Bool :=
  fenceKeepWaiting (w.pending f) w.running true now deadline

-- `eventPump` runs while the session is connected.
def pumping (w : FenceRun) : Bool :=
  w.sup = .up ∨ w.sup = .stopping ∨ w.sup = .stopped ∨ w.sup = .based

def next (w : FenceRun) : FenceAct → FenceRun
  | .queue ev =>
    if w.audio.isSome then
      w
    else
      let (pushed, em) := w.em.push ⟨w.nextOp, ev⟩
      let w := { w with em, nextOp := w.nextOp + 1 }
      if pushed then
        { w with audio := some (w.nextOp - 1), mine := w.mine ++ [w.nextOp - 1] }
      else
        w
  | .count => if w.audio.isSome then { w with em := w.em.count, audio := none } else w
  | .drain =>
    if w.pumping ∧ w.pump = [] then
      { w with pump := w.em.drainOwner.1, em := w.em.drainOwner.2 }
    else
      w
  | .write =>
    if w.sup = .up then
      { w with link := w.link ++ w.pump.map (fun m => (some m.1, m.2)), pump := [] }
    else
      w
  | .panic =>
    if w.sup = .up ∧ w.pump = [] ∧ w.em.panicPending then
      { w with
        link := w.link ++ [(none, panicBytes)],
        em := { w.em with panicPending := false } }
    else
      w
  | .recv readable io =>
    match w.link with
    | [] => w
    | m :: link =>
      { w with link, dev := consumeEvt w.dev m.2 readable io, handled := w.handled ++ [m.1] }
  | .device a => if a.inStream then { w with dev := w.dev.next a } else w
  | .stamp =>
    if w.sup = .up then
      { w with frames := w.frames ++ [⟨w.em.fenceStamp, finished w.audio w.mine⟩] }
    else
      w
  | .render now deadline =>
    match w.frames with
    | [] => w
    | f :: frames => if w.waits f now deadline then w else { w with frames }
  | .audioStop touch =>
    -- the request is answered after every message written before it
    if w.sup = .up ∧ w.link = [] then
      { w with dev := w.dev.next (.ctl .audioStop touch), running := false, sup := .stopping }
    else
      w
  | .joined => if w.sup = .stopping then { w with frames := [], sup := .stopped } else w
  | .advanceEpoch =>
    if w.sup = .stopped then { w.rebase with em := w.em.advanceEpoch, sup := .based } else w
  | .audioStart newEpoch touch =>
    if w.sup = .based then
      { w with
        dev := w.dev.next (.ctl (.audioStart newEpoch) touch),
        running := true, handled := [], sup := .up }
    else
      w
  | .down => { w with pump := [], sup := .down }
  | .connect newEpoch tag flush touch touch' =>
    if w.sup = .down then
      { w with
        link := [], frames := [], handled := [], running := true, sup := .started,
        em := { w.em with expectedTag := tag },
        dev := ((w.dev.reopen flush).next (.ctl .hello touch)).next
          (.ctl (.audioStart newEpoch) touch') }
    else
      w
  | .drainStale =>
    if w.sup = .started then { w with em := { w.em with ring := w.em.ring.tail } } else w
  | .drainedStale => if w.sup = .started ∧ w.em.ring = [] then { w with sup := .drained } else w
  | .zeroSeq =>
    if w.sup = .drained then { w.rebase with em := w.em.zeroSeq, sup := .zeroed } else w
  | .zeroBase => if w.sup = .zeroed then { w with em := w.em.zeroBase, sup := .up } else w

-- The events written to the link since audio.start.
def sent (w : FenceRun) : List Nat :=
  w.handled.filterMap id ++ w.link.filterMap Prod.fst

def underway (w : FenceRun) : Nat :=
  w.dev.evt.evtStage.length + w.link.length + w.unsent.length

end FenceRun

end Harp
