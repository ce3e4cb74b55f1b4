import Harp.Device.LiveRef
import Harp.Device.Refset
import Harp.Host.PushClosure

/-!
This module contains `HarpRuntime::pushStateLocked` of `shell/runtime_recall.cpp` running against a
device: archive the displaced head, push the closure of the target, move the live ref.

A host step is one request and what the host makes of its answer. Between two requests the front
panel and the render thread of the device go on, and other requests take over a pending touch.
-/

namespace Harp

section Device

-- `state.refs` with a filter.
def handleStateRefs (d : Device) (filter : Bytes) (io : WriteIo) : List Ref × Device :=
  let d := liveCacheFlush d io
  match storeRefRead d.store filter with
  | some r => if r.hash.isSome then ([r], d) else ([], d)
  | none => ([], d)

def handleStateSnapshot (d : Device) (shed : Bool) (msg : Bytes) (time : Nat) (io : SnapIo)
    : Option Hash × Device :=
  if shed then
    (none, d)
  else
    match doSnapshot d (some msg) time io with
    | (some (snap, _), d) => (some snap, d)
    | (none, d) => (none, d)

inductive Edit where
  | panel (part : Int) (id : Nat) (v : Ieee.F64) (io : WriteIo)
  | render (pval : Grid) (ramps : Fin nParts → Fin nParams → Ramp) (touched : Bool)
  | ctl (io : WriteIo)

def Device.edit (d : Device) : Edit → Device
  | .panel part id v io => (frontPanelSetPart d part id v io).2
  | .render pval ramps touched => { d with pval, ramps, touchPending := d.touchPending || touched }
  | .ctl io => ctlTouch d io

end Device

section Names

structure Tm where
  year : Nat
  mon : Nat
  mday : Nat
  hour : Nat
  min : Nat
  sec : Nat
deriving DecidableEq, Repr

def decDigit (n : Nat) : UInt8 :=
  UInt8.ofNat (48 + n % 10)

-- An `int` has at most ten digits.
def decimal (digits n : Nat) : Bytes :=
  match digits with
  | 0 => []
  | digits + 1 => if n < 10 then [decDigit n] else decimal digits (n / 10) ++ [decDigit n]

-- `%0<width>d`
def padDecimal (width n : Nat) : Bytes :=
  let ds := decimal 10 n
  List.replicate (width - ds.length) 48 ++ ds

-- `<prefix>/%04d-%02d-%02dT%02d:%02d:%02dZ` into 96 bytes.
def tsname (duplicate : Bool) (now : Tm) : Bytes :=
  ((if duplicate then ascii "duplicate/" else ascii "archive/")
    ++ padDecimal 4 now.year ++ ascii "-" ++ padDecimal 2 now.mon ++ ascii "-"
    ++ padDecimal 2 now.mday ++ ascii "T" ++ padDecimal 2 now.hour ++ ascii ":"
    ++ padDecimal 2 now.min ++ ascii ":" ++ padDecimal 2 now.sec ++ ascii "Z").take 95

def archiveName (duplicate : Bool) (now : Tm) (seq : Nat) : Bytes :=
  if seq = 0 then
    tsname duplicate now
  else
    (tsname duplicate now ++ [dot] ++ padDecimal 3 seq).take 111

end Names

section Host

inductive Link where
  | lost
  | unanswered
  | answered
deriving DecidableEq, Repr

-- A request that gets through is handled, whether its answer gets back or not.
def Link.request (link : Link) (d : Device) (handle : Device → α × Device) : Option α × Device :=
  match link with
  | .lost => (none, d)
  | .unanswered => (none, (handle d).2)
  | .answered => (some (handle d).1, (handle d).2)

inductive PushPhase where
  | refs
  | snapshot (live : Ref)
  | choose (live : Ref) (deviceHead : Option Hash)
  | archive (live : Ref) (deviceHead : Hash) (duplicate : Bool) (now : Tm) (seq : Nat)
  | push (live : Ref) (deviceHead : Option Hash)
  | cas (live : Ref) (deviceHead : Option Hash)
  -- `displaced` is the head the live ref had when it was moved, `answered` says whether the last
  -- request was
  | done (ret answered : Bool) (displaced : Option Hash)
deriving DecidableEq, Repr

structure PushRun where
  dev : Device
  local_ : Store
  target : Hash
  consentEngineMajor : Bool
  snap : Option Hash
  phase : PushPhase

structure HostIo where
  link : Link
  touch : WriteIo
  flush : WriteIo
  shed : Bool
  time : Nat
  snap : SnapIo
  timeoutMs : Nat
  choice : Int
  fetched : Bool
  now : Tm
  refset : RefsetIo
  push : PushIo

def archiveBody (deviceHead : Hash) (duplicate : Bool) (now : Tm) (seq : Nat) : Option Bytes :=
  some (clientRefset (archiveName duplicate now seq) none deviceHead true false false)

def PushRun.casBody (m : PushRun) (live : Ref) (deviceHead : Option Hash) : Option Bytes :=
  some (clientRefset liveRef (if live.hash.isNone then none else deviceHead) m.target
    live.hash.isNone false m.consentEngineMajor)

-- What the panel picked; nobody answering is a push.
def pushChoice (live : Ref) (timeoutMs : Nat) (choice : Int) : Int :=
  if live.hash.isSome ∧ timeoutMs > 0 then
    if choice < 0 then 0 else choice
  else
    0

def PushRun.afterRefs (m : PushRun) (live : Ref) : PushPhase :=
  if live.hash = some m.target ∧ ¬ live.dirty then
    .done true true none
  else if live.dirty then
    .snapshot live
  else
    .choose live live.hash

def PushRun.afterChoice (m : PushRun) (live : Ref) (deviceHead : Option Hash) (choice : Int)
    (now : Tm) : PushPhase :=
  match live.hash, deviceHead with
  | some _, some head =>
    if head ≠ m.target then .archive live head (choice = 3) now 0 else .push live (some head)
  | _, _ => .push live deviceHead

def PushRun.host (m : PushRun) (io : HostIo) : PushRun :=
  match m.phase with
  | .refs =>
    let (rsp, dev) := io.link.request m.dev
      (fun d => handleStateRefs (ctlTouch d io.touch) liveRef io.flush)
    match rsp with
    | none => { m with dev, phase := .done false false none }
    | some rs =>
      match rs.find? (fun r => r.name = liveRef) with
      | none => { m with dev, phase := .done false true none }
      | some live => { m with dev, phase := m.afterRefs live }
  | .snapshot live =>
    let (rsp, dev) := io.link.request m.dev
      (fun d => handleStateSnapshot (ctlTouch d io.touch) io.shed (ascii "VST3 shell") io.time io.snap)
    match rsp with
    | none => { m with dev, phase := .done false false none }
    | some none => { m with dev, phase := .done false true none }
    | some (some head) => { m with dev, snap := some head, phase := .choose live (some head) }
  | .choose live deviceHead =>
    let choice := pushChoice live io.timeoutMs io.choice
    if choice = 1 then
      { m with phase := .done io.fetched (io.link = .answered) none }
    else if choice = 2 then
      { m with phase := .done true true none }
    else
      { m with consentEngineMajor := m.consentEngineMajor || choice = 4,
               phase := m.afterChoice live deviceHead choice io.now }
  | .archive live head duplicate now seq =>
    if seq ≥ 1000 then
      { m with phase := .done false true none }
    else
      let (rsp, dev) := io.link.request m.dev (fun d => handleStateRefset (ctlTouch d io.touch)
        (archiveBody head duplicate now seq) io.refset)
      match rsp with
      | none => { m with dev, phase := .done false false none }
      | some (.ok _) => { m with dev, phase := .push live (some head) }
      | some (.conflict _ _ _ _) =>
        { m with dev, phase := .archive live head duplicate now (seq + 1) }
      | some _ => { m with dev, phase := .done false true none }
  | .push live deviceHead =>
    let (ok, store) := pushClosure m.local_ m.dev.store m.target io.push
    let dev := { m.dev with store }
    { m with dev, phase := if ok then .cas live deviceHead else .done false true none }
  | .cas live deviceHead =>
    let (rsp, dev) := io.link.request m.dev
      (fun d => handleStateRefset (ctlTouch d io.touch) (m.casBody live deviceHead) io.refset)
    match rsp with
    | none => { m with dev, phase := .done false false none }
    | some (.ok _) => { m with dev, phase := .done true true (liveHash m.dev) }
    | some _ => { m with dev, phase := .done false true none }
  | .done _ _ _ => m

inductive PushAct where
  | edit (e : Edit)
  | host (io : HostIo)

def PushRun.next (m : PushRun) : PushAct → PushRun
  | .edit e => { m with dev := m.dev.edit e }
  | .host io => m.host io

end Host

end Harp
