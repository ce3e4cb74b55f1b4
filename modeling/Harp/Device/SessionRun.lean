import Harp.Device.Events
import Harp.Device.Refset
import Harp.Lib.Run

/-!
This module contains the device as a whole: the frames of the session loop, the render thread and
the front panel, one operation a step.

What a ramp gives between its ends is floating-point arithmetic of the engine and an argument.
-/

namespace Harp

open Ieee

section Render

-- The parameter value of a part, as `evq_apply_due` changes it for one due event.
def applyDue (pos : Nat) (d : Device) (ev : DevEvent) : Device :=
  let p : Fin nParts := ⟨ev.channel % nParts, Nat.mod_lt _ (by decide)⟩
  match ev.kind with
  | .paramSet =>
    if ev.voice ≠ 0 then
      d
    else
      match paramIndex ev.a with
      | some j =>
        { d with
          pval := gridPut d.pval p j ev.v,
          ramps := fun p' j' =>
            if p' = p ∧ j' = j then { d.ramps p j with active := false } else d.ramps p' j',
          touchPending := true }
      | none => { d with touchPending := true }
  | .ramp =>
    if ev.voice ≠ 0 then
      d
    else
      match paramIndex ev.a with
      | some j =>
        { d with
          ramps := fun p' j' =>
            if p' = p ∧ j' = j then ⟨true, pos, ev.end_, d.pval p j, ev.v⟩ else d.ramps p' j',
          touchPending := true }
      | none => { d with touchPending := true }
  | _ => d

def evqApplyDue (s : Session) (pos : Nat) : Session :=
  { s with
    dev := (s.evt.evq.filter (fun ev => ev.ts ≤ pos)).foldl (applyDue pos) s.dev,
    evt := { s.evt with evq := evqRemaining s.evt.evq pos } }

def Ramp.over (r : Ramp) (pos : Nat) : Bool :=
  pos ≥ r.stop ∨ r.stop ≤ r.start

-- `ramps_advance` on the ramps of one part.
def rampsAdvance (d : Device) (p : Fin nParts) (pos : Nat) (line : Ramp → Nat → F32) : Device :=
  { d with
    pval := fun p' i =>
      let r := d.ramps p' i
      if p' = p ∧ r.active then
        if r.over pos then r.target
        else if pos > r.start then line r pos
        else d.pval p' i
      else
        d.pval p' i,
    ramps := fun p' i =>
      let r := d.ramps p' i
      if p' = p ∧ r.active ∧ r.over pos then { r with active := false } else r }

end Render

section Panel

structure RevertIo where
  flush : WriteIo
  time : Nat
  snap : SnapIo
  flush2 : WriteIo
  write : WriteIo

def revertFinish (d : Device) (src : Ref) (io : RevertIo) : Device :=
  match src.hash.bind (engineLoadSnapshot d.store d.pval) with
  | none => d
  | some pval =>
    let d := liveCacheFlush { d with pval } io.flush2
    -- the result of this read is not looked at: a failed one leaves an unborn ref
    let live := (storeRefRead d.store liveRef).getD (Ref.unborn liveRef)
    { d with store := (storeRefWrite d.store (revertRef src live) io.write).2 }

def panelRevert (d : Device) (refname : Bytes) (io : RevertIo) : Device :=
  match storeRefRead d.store refname with
  | none => d
  | some src =>
    if src.hash.isNone then
      d
    else
      let d := liveCacheFlush d io.flush
      match storeRefRead d.store liveRef with
      | none => d
      | some live =>
        if live.dirty then
          match doSnapshot d (some (ascii "pre-revert")) io.time io.snap with
          | (none, d) => d
          | (some _, d) => revertFinish d src io
        else
          revertFinish d src io

end Panel

section Session

-- A new stream: the queue and the ramps of the old one are gone.
def evqResetForNewStream (s : Session) : Session :=
  { s with
    dev := { s.dev with ramps := fun _ _ => Ramp.none },
    evt := { s.evt with evq := [], evtConsumed := 0 } }

inductive CtlReq where
  | refs (io : WriteIo)
  | snapshot (shed : Bool) (msg : Option Bytes) (time : Nat) (io : SnapIo)
  | refset (body : Option Bytes) (io : RefsetIo)
  | hello
  | audioStart (newEpoch : Bool)
  | audioStop
  | other

def handleCtlReq (s : Session) : CtlReq → Session
  | .refs io => { s with dev := liveCacheFlush s.dev io }
  | .snapshot shed msg time io =>
    if shed then s else { s with dev := (doSnapshot s.dev msg time io).2 }
  | .refset body io => { s with dev := (handleStateRefset s.dev body io).2 }
  | .hello => { s with evt := { s.evt with txn := TxnTable.clear } }
  | .audioStart newEpoch =>
    let s := evqResetForNewStream s
    { s with
      evt := { s.evt with txn := TxnTable.clear },
      audioEpoch := if newEpoch then s.audioEpoch + 1 else s.audioEpoch }
  | .audioStop => { s with evt := { s.evt with txn := TxnTable.clear } }
  | .other => s

inductive SessAct where
  | evt (buf : Bytes) (readable : Bool) (io : WriteIo)
  | ctl (req : CtlReq) (touch : WriteIo)
  | obj (enc : Bytes) (io : WriteIo)
  | panel (part : Int) (id : Nat) (v : F64) (io : WriteIo)
  | revert (refname : Bytes) (io : RevertIo)
  | due (pos : Nat)
  | advance (p : Fin nParts) (pos : Nat) (line : Ramp → Nat → F32)

def Session.next (s : Session) : SessAct → Session
  | .evt buf readable io => consumeEvt s buf readable io
  | .ctl req touch =>
    let s := { s with evt := evtStageFlush s.evt }
    handleCtlReq { s with dev := ctlTouch s.dev touch } req
  | .obj enc io =>
    let s := { s with evt := evtStageFlush s.evt }
    { s with dev := { s.dev with store := handleObj s.dev.store enc io } }
  | .panel part id v io => { s with dev := (frontPanelSetPart s.dev part id v io).2 }
  | .revert refname io => { s with dev := panelRevert s.dev refname io }
  | .due pos => evqApplyDue s pos
  | .advance p pos line => { s with dev := rampsAdvance s.dev p pos line }

end Session

end Harp
