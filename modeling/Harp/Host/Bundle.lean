import Harp.Host.ParamsPayload
import Harp.Host.PushClosure
import Harp.Lib.Trail

/-!
This module contains the recall bundle of `shell/runtime_recall.cpp`: how it is written, how it is
read, and what the reading does to the members of the runtime on the way.

The reader works key by key in whatever order the bytes have. Nothing it meets decides how it goes
on, so that it is a decoder with a trace, and the trace is what the members go through.
-/

namespace Harp

open Trails

def bundleMagic : Bytes :=
  ascii "harpb"

-- What a reader of a bundle comes past. `mapCount` is a product that `read_count` or the skipping
-- loop computes.
inductive BundleEvent where
  | mapCount (n : Nat)
  | magic (s : Bytes)
  | paramMapHash (b : Bytes)
  | engineVer (s : Bytes)
  | serial (s : Bytes)
  | ref (r : Ref)
  | usb (vid pid : Nat) (serial : Option Bytes)
  | object (span : Bytes)
  deriving DecidableEq

abbrev BundleDec (α : Type) : Type :=
  Trail Cdec BundleEvent α

section Reader

open Trail

def mapHeads (d : Cdec) : List BundleEvent :=
  match (readHead d).1 with
  | some h => if h.major = 5 then [.mapCount h.val] else []
  | none => []

def bundleMap : BundleDec Nat := fun d =>
  ((cdecMap d).1, (cdecMap d).2, mapHeads d)

def bundleSkipItem (levels : Nat) : BundleDec Unit :=
  match levels with
  | 0 => lift Dec.error
  | levels + 1 => do
    let h ← lift readHead
    if h.major = 0 ∨ h.major = 1 then
      return ()
    else if h.major = 2 ∨ h.major = 3 then
      lift fun d =>
        if d.p.length < h.val then
          Dec.error d
        else
          (some (), { d with p := d.p.drop h.val })
    else if h.major = 4 then
      loop h.val (fun _ => bundleSkipItem levels) ()
    else if h.major = 5 then
      emit (.mapCount h.val)
      loop (h.val * 2 % 2 ^ 64) (fun _ => bundleSkipItem levels) ()
    else if h.major = 6 then
      bundleSkipItem levels
    else
      return ()

def bundleSkip : BundleDec Unit :=
  bundleSkipItem 33

def bundleSpan : BundleDec Bytes := fun d =>
  match bundleSkip d with
  | (some _, d', es) => (some (d.p.take (d.p.length - d'.p.length)), d', es)
  | (none, d', es) => (none, d', es)

def bundleRefField (key : Nat) (it : RefIter) : BundleDec RefIter :=
  if key ≤ 3 then
    lift (refDecodeField key it)
  else do
    bundleSkip
    return it

def bundleRefDecode : BundleDec Ref := do
  let n ← bundleMap
  let it ← loop n (fun it => do let key ← lift cdecUint; bundleRefField key it) ⟨Ref.unborn [], false⟩
  if it.haveName then
    return it.r
  else
    lift Dec.fail

def bundleEngine : BundleDec Unit := do
  let en ← bundleMap
  loop en (fun _ => do
    let ek ← lift cdecUint
    if ek = 2 then
      let hp ← lift cdecBytes
      emit (.paramMapHash hp)
    else if ek = 1 then
      let es ← lift cdecText
      emit (.engineVer es)
    else
      bundleSkip) ()

def bundleIdentity : BundleDec Unit := do
  let n ← bundleMap
  loop n (fun _ => do
    let ik ← lift cdecUint
    if ik = 3 then
      bundleEngine
    else if ik = 2 then
      let ss ← lift cdecText
      emit (.serial ss)
    else
      bundleSkip) ()

def bundleRefs : BundleDec Unit := do
  let alen ← lift cdecArray
  loop alen (fun _ => do
    let r ← bundleRefDecode
    emit (.ref r)) ()

def bundleObjects : BundleDec Unit := fun d =>
  if cdecPeekNull d then
    (some (), (cdecNull d).2, [])
  else
    (do
      let alen ← lift cdecArray
      loop alen (fun _ => do
        let span ← bundleSpan
        emit (.object span)) () : BundleDec Unit) d

structure UsbFields where
  vid : Nat
  pid : Nat
  serial : Option Bytes

-- A value that is no number is stored all the same; a string that cannot be read is not.
def bundleUsbField (mk : Nat) (u : UsbFields) : BundleDec UsbFields := do
  if mk = 0 then
    let vid ← usbNumber u.vid
    return { u with vid }
  else if mk = 1 then
    let pid ← usbNumber u.pid
    return { u with pid }
  else if mk = 2 then
    let s ← attempt (lift cdecText)
    return { u with serial := s <|> u.serial }
  else
    let _ ← attempt bundleSkip
    return u
where
  usbNumber (v : Nat) : BundleDec Nat := fun d =>
    match readHead d with
    | (some h, d') => (some h.val, { d' with err := d'.err || h.major ≠ 0 }, [])
    | (none, d') => (some v, d', [])

def bundleUsb : BundleDec Unit := do
  let mn ← bundleMap
  let u ← loop mn (fun u => do let mk ← lift cdecUint; bundleUsbField mk u) ⟨0, 0, none⟩
  emit (.usb u.vid u.pid u.serial)

def bundleField (key : Nat) : BundleDec Unit :=
  if key = 0 then do
    let s ← lift cdecText
    emit (.magic s)
  else if key = 2 then
    bundleIdentity
  else if key = 3 then
    bundleRefs
  else if key = 5 then
    bundleUsb
  else if key = 4 then
    bundleObjects
  else
    bundleSkip

def bundleRead : BundleDec Unit := do
  let n ← bundleMap
  loopWhile (fun d => !d.err) n (do let key ← lift cdecUint; bundleField key)

-- The reader without a runtime, which looks at fewer keys.
def bundleParamsField (key : Nat) : BundleDec Unit :=
  if key = 0 then do
    let s ← lift cdecText
    emit (.magic s)
  else if key = 3 then
    bundleRefs
  else if key = 4 then
    bundleObjects
  else
    bundleSkip

def bundleParamsRead : BundleDec Unit := do
  let n ← bundleMap
  loopWhile (fun d => !d.err) n (do let key ← lift cdecUint; bundleParamsField key)

end Reader

section Members

-- The leading digits of a version, as `int` arithmetic would have them without a bound.
def leadingInt (s : Bytes) : Nat :=
  (s.takeWhile fun c => 48 ≤ c ∧ c ≤ 57).foldl (fun v c => v * 10 + (c.toNat - 48)) 0

structure WantedUsb where
  wantUsb : Bool
  vid : UInt16
  pid : UInt16
  serial : Bytes
  deriving DecidableEq

def WantedUsb.of (vid pid : Nat) (serial : Option Bytes) : WantedUsb where
  wantUsb := !(serial.getD []).isEmpty && !(ascii "eth:").isPrefixOf (serial.getD [])
  vid := UInt16.ofNat vid
  pid := UInt16.ofNat pid
  serial := serial.getD []

-- The locals of the reader, and the two members that it writes as it goes.
structure BundleState where
  magicOk : Bool
  target : Option Hash
  paramMapHash : Option Hash
  engineMajor : Nat
  serial : Bytes
  usb : WantedUsb
  store : Store

def BundleState.begin (usb : WantedUsb) (store : Store) : BundleState where
  magicOk := false
  target := none
  paramMapHash := none
  engineMajor := 0
  serial := []
  usb
  store

def BundleState.meet (put : Bytes → WriteIo) (s : BundleState) : BundleEvent → BundleState
  | .mapCount _ => s
  | .magic t => { s with magicOk := t = bundleMagic }
  | .paramMapHash b => if h : b.length = 33 then { s with paramMapHash := some ⟨b, h⟩ } else s
  | .engineVer t => { s with engineMajor := leadingInt t }
  | .serial t => { s with serial := t }
  | .ref r => if r.name = liveRef ∧ r.hash.isSome then { s with target := r.hash } else s
  | .usb vid pid serial => { s with usb := .of vid pid serial }
  | .object span => { s with store := (storePut s.store span (put span)).2 }

end Members

def paramsCb (s : Store) : TreeCb ParamPairs := fun name h kind out =>
  if name ≠ ascii "params" ∨ kind ≠ 0 then
    (true, out)
  else
    match storeGet s h with
    | none => (true, out)
    | some blob =>
      match objParseBlob blob with
      | none => (true, out)
      | some (_, pl) => (true, out ++ decodeParamsPayload pl)

def paramsFromStore (s : Store) (target : Hash) : ParamPairs :=
  match storeGet s target with
  | none => []
  | some enc =>
    match objParseSnapshotRoot enc with
    | none => []
    | some root =>
      match storeGet s root with
      | none => []
      | some tree => (objTreeForeach tree (paramsCb s) []).2

-- `none` is the return value `false`; the store has the objects met before it either way.
def bundleParams (data : Bytes) (store : Store) (put : Bytes → WriteIo)
    : Option ParamPairs × Store :=
  let r := bundleParamsRead (Cdec.init data)
  let s := r.2.2.foldl (BundleState.meet put) (.begin ⟨false, 0, 0, []⟩ store)
  if r.1.isNone then
    (none, s.store)
  else
    match s.magicOk, s.target with
    | true, some target => (some (paramsFromStore s.store target), s.store)
    | _, _ => (none, s.store)

structure StagedProject where
  hasBundle : Bool
  bundleTarget : Hash
  bundleParams : ParamPairs
  bundleParamMapHashSet : Bool
  bundleParamMapHash : Hash
  wantEngineMajor : Nat
  wantSerial : Bytes

end Harp
