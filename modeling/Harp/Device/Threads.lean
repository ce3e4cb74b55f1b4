import Harp.Device.Refset
import Harp.Lib.Run

/-!
This module contains the operations on the live ref as the session thread and the panel thread
interleave them: `live_ref_touch`, `do_snapshot`, `handle_state_refset` and `panel_revert`.

A step is one critical section of `state_mu` or one unlocked read or write of a ref. The object
reads of a closure check or an engine load touch no ref and are one step with what they decide.
-/

namespace Harp

open Runs

-- Where a thread is inside an operation: the name says what its next step does.
inductive Pc where
  | idle
  | snapLocked (msg : Option Bytes) (revert : Option Ref)
  | refsetRead (q : RefsetReq) (newh : Hash)
  | refsetChecks (q : RefsetReq) (newh : Hash) (r : Ref)
  | refsetWrite (q : RefsetReq) (newh : Hash) (r : Ref)
  | refsetGc (refname : Bytes)
  | revertFlush (src : Ref)
  | revertRead (src : Ref)
  | revertSnap (src : Ref)
  | revertLoad (src : Ref)
  | revertFlush2 (src : Ref)
  | revertRead2 (src : Ref)
  | revertWrite (src live : Ref)

inductive Op where
  | touch
  | flush
  | snapshot (msg : Option Bytes)
  | refset (body : Option Bytes)
  | revert (refname : Bytes)

structure StepIo where
  write : WriteIo
  snap : SnapIo
  time : Nat

-- The first step of an operation.
def startOp (d : Device) (op : Op) (io : StepIo) : Device × Pc :=
  match op with
  | .touch => (liveRefTouch d true io.write, .idle)
  | .flush => (liveCacheFlush d io.write, .idle)
  | .snapshot msg => (liveCacheFlush d io.write, .snapLocked msg none)
  | .refset body =>
    let q := refsetParse body
    match q.newh with
    | none => (d, .idle)
    | some newh =>
      if q.refname.isEmpty ∨ ¬ q.haveExpect then
        (d, .idle)
      else
        (refsetFlush d q io.write, .refsetRead q newh)
  | .revert refname =>
    match storeRefRead d.store refname with
    | none => (d, .idle)
    | some src => if src.hash.isNone then (d, .idle) else (d, .revertFlush src)

def continueOp (d : Device) (pc : Pc) (io : StepIo) : Device × Pc :=
  match pc with
  | .idle => (d, .idle)
  | .snapLocked msg revert =>
    match snapshotLocked d msg io.time io.snap, revert with
    | (some _, d), some src => (d, .revertLoad src)
    | (_, d), _ => (d, .idle)
  | .refsetRead q newh =>
    match storeRefRead d.store q.refname with
    | none => (d, .idle)
    | some r => (d, .refsetChecks q newh r)
  | .refsetChecks q newh r =>
    match (refsetChecks d q newh r).2 with
    | .error _ => (d, .idle)
    | .ok (r, pval) => ({ d with pval }, .refsetWrite q newh r)
  | .refsetWrite q newh r =>
    let (ok, store) := storeRefWrite d.store (r.moved newh) io.write
    ({ d with store }, if ok then .refsetGc q.refname else .idle)
  | .refsetGc refname => (maybeGc d refname, .idle)
  | .revertFlush src => (liveCacheFlush d io.write, .revertRead src)
  | .revertRead src =>
    match storeRefRead d.store liveRef with
    | none => (d, .idle)
    | some live => (d, if live.dirty then .revertSnap src else .revertLoad src)
  | .revertSnap src => (liveCacheFlush d io.write, .snapLocked (some (ascii "pre-revert")) (some src))
  | .revertLoad src =>
    match src.hash.bind (engineLoadSnapshot d.store d.pval) with
    | none => (d, .idle)
    | some pval => ({ d with pval }, .revertFlush2 src)
  | .revertFlush2 src => (liveCacheFlush d io.write, .revertRead2 src)
  | .revertRead2 src =>
    -- the result of this read is not looked at: a failed one leaves an unborn ref
    (d, .revertWrite src ((storeRefRead d.store liveRef).getD (Ref.unborn liveRef)))
  | .revertWrite src live =>
    ({ d with store := (storeRefWrite d.store (revertRef src live) io.write).2 }, .idle)

-- The ref with a new hash that the next step of `pc` succeeds in writing, if it does.
def hashWrite (d : Device) (pc : Pc) (io : StepIo) : Option Ref :=
  match pc with
  | .snapLocked msg _ =>
    match storeRefRead d.store liveRef, (snapshotLocked d msg io.time io.snap).1 with
    | some r, some (snap, _) => some (r.moved snap)
    | _, _ => none
  | .refsetWrite _ newh r =>
    if (storeRefWrite d.store (r.moved newh) io.write).1 then some (r.moved newh) else none
  | .revertWrite src live =>
    if (storeRefWrite d.store (revertRef src live) io.write).1 then some (revertRef src live)
    else none
  | _ => none

inductive Thread where
  | session
  | panel
deriving DecidableEq

-- `last` and `touched` are no part of the device: the hash last written to the live ref by any
-- operation, and whether a touch has come since.
structure Machine where
  dev : Device
  pc : Thread → Pc
  last : Option Hash
  touched : Bool

inductive Act where
  | start (t : Thread) (op : Op) (io : StepIo)
  | go (t : Thread) (io : StepIo)

def setPc (pc : Thread → Pc) (t : Thread) (p : Pc) : Thread → Pc := fun t' =>
  if t' = t then p else pc t'

def Op.isTouch : Op → Bool
  | .touch => true
  | _ => false

def Machine.next (m : Machine) (a : Act) : Machine :=
  match a with
  | .start t op io =>
    match m.pc t with
    | .idle =>
      let (dev, p) := startOp m.dev op io
      { m with dev, pc := setPc m.pc t p, touched := m.touched || op.isTouch }
    | _ => m
  | .go t io =>
    let (dev, p) := continueOp m.dev (m.pc t) io
    let m' := { m with dev, pc := setPc m.pc t p }
    match hashWrite m.dev (m.pc t) io with
    | some r => if comps r.name = comps liveRef then { m' with last := r.hash, touched := false } else m'
    | none => m'

end Harp
