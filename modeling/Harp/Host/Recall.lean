import Harp.Host.Bundle
import Harp.Host.PushState

/-!
This module contains the runtime's side of a recall: what holds a project read-only, and the four
places from which its state is pushed. The device answers as it likes.
-/

namespace Harp

def atoi (s : Bytes) : Int :=
  let s := (cstr s).dropWhile fun c => c = 32 ∨ (9 ≤ c ∧ c ≤ 13)
  match s with
  | 45 :: s => intOfLong (-(leadingInt s : Int))
  | 43 :: s => intOfLong (leadingInt s)
  | s => intOfLong (leadingInt s)

structure DeviceIdentity where
  serial : Bytes
  engineVer : Bytes
  deriving DecidableEq

-- A `state.refset` of the live ref, with what the runtime knew when it was sent.
structure LiveRefset where
  target : Hash
  bound : DeviceIdentity
  wantSerial : Bytes
  wantEngineMajor : Nat
  consented : Bool

-- `granted` says that the user has consented since the project was staged, `sent` is the log.
structure ShellRt where
  storeOk : Bool
  store : Store
  project : StagedProject
  usb : WantedUsb
  connected : Bool
  bound : DeviceIdentity
  consentEngineMajor : Bool
  engineRefused : Bool
  readOnlyDefault : Bool
  roExplicit : Bool
  granted : Bool
  sent : List LiveRefset

inductive RefsetAnswer where
  | ok
  | incompatible
  | failed
  deriving DecidableEq

-- `archived` is whether one of the thousand names was free.
structure PushAnswers where
  live : Option Ref
  snapshot : Option Hash
  timeoutMs : Nat
  choice : Int
  fetched : Bool
  archived : Bool
  pushed : Bool
  refset : RefsetAnswer

-- A device that does not answer.
def PushAnswers.unanswered : PushAnswers :=
  ⟨none, none, 0, 0, false, false, false, .failed⟩

theorem length_replicate_hash : (List.replicate 33 (0 : UInt8)).length = 33 := rfl

def Hash.zero : Hash :=
  ⟨List.replicate 33 0, length_replicate_hash⟩

-- A store directory without objects and refs.
def openStore : Store :=
  ⟨[7], [], .dir true []⟩

namespace ShellRt

-- A runtime with its store open, before any project and any device.
def fresh (store : Store) : ShellRt where
  storeOk := true
  store
  project := ⟨false, .zero, [], false, .zero, 0, []⟩
  usb := ⟨false, 0, 0, []⟩
  connected := false
  bound := ⟨[], []⟩
  consentEngineMajor := false
  engineRefused := false
  readOnlyDefault := false
  roExplicit := false
  granted := false
  sent := []

def serialDiffers (rt : ShellRt) : Bool :=
  !rt.project.wantSerial.isEmpty && !rt.bound.serial.isEmpty
    && rt.bound.serial != rt.project.wantSerial

def majorMismatch (rt : ShellRt) : Bool :=
  rt.project.wantEngineMajor > 0 && atoi rt.bound.engineVer != rt.project.wantEngineMajor

def recomputeReadOnlyHolds (rt : ShellRt) : ShellRt :=
  { rt with
    readOnlyDefault := rt.serialDiffers
      || ((rt.majorMismatch || rt.engineRefused) && !rt.consentEngineMajor) }

def held (rt : ShellRt) : Bool :=
  rt.readOnlyDefault || rt.roExplicit

def grantConsent (rt : ShellRt) : ShellRt :=
  { rt with consentEngineMajor := true, engineRefused := false, readOnlyDefault := false, granted := true }

def sendLive (rt : ShellRt) (target : Hash) : ShellRt :=
  { rt with
    sent := rt.sent ++
      [⟨target, rt.bound, rt.project.wantSerial, rt.project.wantEngineMajor, rt.granted⟩] }

-- The compare-and-swap of the live ref, at the end of a push.
def casLive (rt : ShellRt) (target : Hash) (answer : RefsetAnswer) : Bool × ShellRt :=
  let rt := rt.sendLive target
  match answer with
  | .ok => (true, rt)
  | .incompatible => (false, { rt with engineRefused := true, readOnlyDefault := true })
  | .failed => (false, rt)

def pushChosen (rt : ShellRt) (target : Hash) (live : Ref) (deviceHead : Option Hash) (choice : Int)
    (answers : PushAnswers) : Bool × ShellRt :=
  let rt := { rt with roExplicit := choice = 2 }
  if choice = 1 then
    (answers.fetched, rt)
  else if choice = 2 then
    (true, rt)
  else
    let rt := if choice = 4 then rt.grantConsent else rt
    if live.hash.isSome ∧ deviceHead ≠ some target ∧ ¬answers.archived then
      (false, rt)
    else if ¬answers.pushed then
      (false, rt)
    else
      rt.casLive target answers.refset

def pushStateLocked (rt : ShellRt) (target : Hash) (answers : PushAnswers) : Bool × ShellRt :=
  match answers.live with
  | none => (false, rt)
  | some live =>
    if live.hash = some target ∧ ¬live.dirty then
      (true, rt)
    else if live.dirty ∧ answers.snapshot.isNone then
      (false, rt)
    else
      let deviceHead := if live.dirty then answers.snapshot else live.hash
      rt.pushChosen target live deviceHead (pushChoice live answers.timeoutMs answers.choice) answers

-- Whether the reader came to the end, and its locals.
def readBundle (rt : ShellRt) (data : Bytes) (put : Bytes → WriteIo) : Bool × BundleState :=
  let r := bundleRead (Cdec.init data)
  (r.1.isSome, r.2.2.foldl (BundleState.meet put) (.begin rt.usb rt.store))

def stage (rt : ShellRt) (s : BundleState) (target : Hash) : ShellRt :=
  { rt with
    project :=
      { hasBundle := true
        bundleTarget := target
        bundleParams := paramsFromStore s.store target
        bundleParamMapHashSet := s.paramMapHash.isSome
        bundleParamMapHash := s.paramMapHash.getD rt.project.bundleParamMapHash
        wantEngineMajor := s.engineMajor
        wantSerial := s.serial }
    consentEngineMajor := false
    engineRefused := false
    roExplicit := false
    granted := false }

-- The reading and the staging, up to where the connection is looked at.
def stageBundle (rt : ShellRt) (data : Bytes) (put : Bytes → WriteIo) : Bool × ShellRt :=
  if !rt.storeOk || data.isEmpty then
    (false, rt)
  else
    let r := rt.readBundle data put
    let rt := { rt with usb := r.2.usb, store := r.2.store }
    match r.1, r.2.magicOk, r.2.target with
    | true, true, some target => (true, rt.stage r.2 target)
    | _, _, _ => (false, rt)

-- A push that fails leaves the project staged.
def setStateBundle (rt : ShellRt) (data : Bytes) (put : Bytes → WriteIo) (answers : PushAnswers)
    : Bool × ShellRt :=
  match rt.stageBundle data put with
  | (false, rt) => (false, rt)
  | (true, rt) =>
    if rt.connected then
      let rt := rt.recomputeReadOnlyHolds
      if rt.held then
        (true, rt)
      else
        (true, (rt.pushStateLocked rt.project.bundleTarget answers).2)
    else
      (true, rt)

def consentEngineMajorOverride (rt : ShellRt) (answers : PushAnswers) : ShellRt :=
  let rt := { rt.grantConsent with roExplicit := false }
  if rt.project.hasBundle && rt.connected then
    (rt.pushStateLocked rt.project.bundleTarget answers).2
  else
    rt

-- The hello, the re-assert of the staged project and the start of the stream.
def sessionUp (rt : ShellRt) (id : DeviceIdentity) (answers : PushAnswers) (audioOk : Bool)
    : ShellRt :=
  let rt := recomputeReadOnlyHolds { rt with bound := id }
  let rt :=
    if rt.project.hasBundle && !rt.held then
      (rt.pushStateLocked rt.project.bundleTarget answers).2
    else
      rt
  { rt with connected := audioOk }

end ShellRt

end Harp
