import Harp.Device.Params

/-!
This module contains the state operations of `device/state.c`: engine values to and from objects,
the write-back cache of the live ref, snapshots, and the closure check of a refset.

Every write takes the outcome of the storage underneath it. The time of a snapshot is an argument.
-/

namespace Harp

open Ieee

structure Ramp where
  active : Bool
  start : Nat
  stop : Nat
  startVal : F32
  target : F32
deriving DecidableEq, Repr

def Ramp.none : Ramp :=
  ⟨false, 0, 0, Fp.ofBits 0, Fp.ofBits 0⟩

structure Device where
  store : Store
  liveCache : Option Ref
  pval : Grid
  ramps : Fin nParts → Fin nParams → Ramp
  touchPending : Bool
  archivesSinceGc : Nat
  engineVer : Option Bytes

-- A device that was never used.
def blankDevice : Device :=
  ⟨⟨[7], [], .dir true []⟩, none, factoryGrid, fun _ _ => Ramp.none, false, 0, none⟩

def liveRef : Bytes :=
  ascii "live/project"

def engineVersion : Bytes :=
  ascii "2.1.0"

structure SnapIo where
  flush : WriteIo
  blob : WriteIo
  tree : WriteIo
  snap : WriteIo
  ref : WriteIo

def engineSnapshotObjects (s : Store) (v : Grid) (parent : Option Hash) (msg : Option Bytes)
    (time : Nat) (io : SnapIo) : Option Hash × Store :=
  let enc := engineEncodeParamsBlob v
  match storePut s enc io.blob with
  | (false, s) => (none, s)
  | (true, s) =>
    match objEncodeTree [⟨ascii "params", hashCompute enc, objBlob⟩] with
    | none => (none, s)
    | some tree =>
      match storePut s tree io.tree with
      | (false, s) => (none, s)
      | (true, s) =>
        let snap := objEncodeSnapshot (hashCompute tree) parent.toList time (ascii "device")
          engineVersion msg
        match storePut s snap io.snap with
        | (false, s) => (none, s)
        | (true, s) => (some (hashCompute snap), s)

structure LoadCtx where
  staged : Grid
  ok : Bool

def loadTreeEntry (s : Store) : TreeCb LoadCtx := fun name h kind ctx =>
  if name ≠ ascii "params" ∨ kind ≠ objBlob then
    (true, ctx)
  else
    match storeGet s h with
    | none => (false, { ctx with ok := false })
    | some enc =>
      match objParseBlob enc with
      | none => (false, { ctx with ok := false })
      | some (_, payload) =>
        match refdevParseParamsBlob payload with
        | none => (false, { ctx with ok := false })
        | some v => (true, { ctx with staged := overlay v ctx.staged })

-- The values the engine has after the load, or `none` when nothing is applied.
def engineLoadSnapshot (s : Store) (v : Grid) (snap : Hash) : Option Grid :=
  match storeGet s snap with
  | none => none
  | some enc =>
    match objParseSnapshotRoot enc with
    | none => none
    | some root =>
      match storeGet s root with
      | none => none
      | some treeEnc =>
        let (walked, ctx) := objTreeForeach treeEnc (loadTreeEntry s) ⟨v, true⟩
        if walked ∧ ctx.ok then some ctx.staged else none

def liveRefTouch (d : Device) (dirty : Bool) (io : WriteIo) : Device :=
  match d.liveCache <|> storeRefRead d.store liveRef with
  | none => d
  | some r =>
    let transition := dirty && !r.dirty
    let r := { r with generation := r.generation + 1, dirty }
    let store := if transition then (storeRefWrite d.store r io).2 else d.store
    { d with store, liveCache := some r }

-- The dirty flag the render thread left behind, taken over at the start of every request.
def ctlTouch (d : Device) (io : WriteIo) : Device :=
  if d.touchPending then liveRefTouch { d with touchPending := false } true io else d

def liveCacheFlush (d : Device) (io : WriteIo) : Device :=
  match d.liveCache with
  | none => d
  | some r => { d with store := (storeRefWrite d.store r io).2, liveCache := none }

-- `v < 0`, `v > 1`; both are false of a NaN.
def clamp01 (v : F64) : F64 :=
  if v.isNaN then
    v
  else if v.sign ∧ ¬ v.isZero then
    Fp.of false 0 0
  else if ¬ v.sign ∧ (1023 < v.exp ∨ (v.exp = 1023 ∧ 0 < v.man)) then
    Fp.of false 1023 0
  else
    v

def gridPut (g : Grid) (p : Fin nParts) (i : Fin nParams) (v : F32) : Grid := fun p' i' =>
  if p' = p ∧ i' = i then v else g p' i'

def frontPanelSetPart (d : Device) (part : Int) (id : Nat) (v : F64) (io : WriteIo)
    : Bool × Device :=
  let v := clamp01 v
  if part < 0 then
    (false, d)
  else
    match partOf part.toNat, paramIndex id with
    | some p, some i =>
      (true, liveRefTouch { d with pval := gridPut d.pval p i (narrow v) } true io)
    | _, _ => (false, d)

-- The section of `doSnapshot` that holds `state_mu`.
def snapshotLocked (d : Device) (msg : Option Bytes) (time : Nat) (io : SnapIo)
    : Option (Hash × UInt64) × Device :=
  match storeRefRead d.store liveRef with
  | none => (none, d)
  | some r =>
    match engineSnapshotObjects d.store d.pval r.hash msg time io with
    | (none, store) => (none, { d with store })
    | (some snap, store) =>
      let r := { r with hash := some snap, generation := r.generation + 1, dirty := false }
      match storeRefWrite store r io.ref with
      | (false, store) => (none, { d with store })
      | (true, store) => (some (snap, r.generation), { d with store })

def doSnapshot (d : Device) (msg : Option Bytes) (time : Nat) (io : SnapIo)
    : Option (Hash × UInt64) × Device :=
  snapshotLocked (liveCacheFlush d io.flush) msg time io

-- Below depth 16 nothing is checked any more.
def closureWalk (s : Store) (levels : Nat) (complete : Bool) (h : Hash) : Bool :=
  match levels with
  | 0 => complete
  | levels + 1 =>
    if ¬ complete then
      false
    else if ¬ storeHave s h then
      false
    else
      match storeGet s h with
      | none => false
      | some enc =>
        let closureVisit : HashCb Bool := fun h complete =>
          let complete := closureWalk s levels complete h
          (complete, complete)
        let (ok, complete) := objForeachChild enc false closureVisit true
        ok && complete

def closureComplete (s : Store) (h : Hash) : Bool :=
  closureWalk s 17 true h

def handleObj (s : Store) (enc : Bytes) (io : WriteIo) : Store :=
  if (objKind enc).isNone then s else (storePut s enc io).2

-- The live ref that a revert of the front panel writes.
def revertRef (src live : Ref) : Ref :=
  { live with hash := src.hash, generation := live.generation + 1, dirty := false }

end Harp
