import Harp.Host.FetchClosure
import Harp.Host.PushLemmas
import Harp.Host.Recall

/-!
This module contains the saving side of a recall bundle, `encode_bundle` and
`HarpRuntime::getStateBundle` of `shell/runtime_recall.cpp`.
-/

namespace Harp

-- A `std::string` that was copied out of a `char` array: all of it is in front of its zero byte.
structure CString where
  b : Bytes
  no_nul : 0 ∉ b

-- The identity members of the runtime.
structure SavedIdentity where
  vendorId : UInt32
  vendorName : CString
  productId : UInt32
  productName : CString
  serial : CString
  engineId : CString
  engineVer : CString
  paramMapHash : Hash
  usbVid : UInt16
  usbPid : UInt16
  usbSerial : CString

def cborCString (s : CString) : Bytes :=
  cborText (cstr s.b)

-- An object that cannot be read leaves nothing where it would stand.
def encodeBundle (id : SavedIdentity) (ref : Ref) (store : Store) (closure : List Hash) : Bytes :=
  cborMap 6
    ++ cborUint 0 ++ cborText bundleMagic
    ++ cborUint 1 ++ cborUint 1
    ++ cborUint 2 ++ cborMap 4
    ++ cborUint 0 ++ cborMap 2
    ++ cborUint 0 ++ cborUint id.vendorId.toNat
    ++ cborUint 1 ++ cborCString id.vendorName
    ++ cborUint 1 ++ cborMap 2
    ++ cborUint 0 ++ cborUint id.productId.toNat
    ++ cborUint 1 ++ cborCString id.productName
    ++ cborUint 2 ++ cborCString id.serial
    ++ cborUint 3 ++ cborMap 3
    ++ cborUint 0 ++ cborCString id.engineId
    ++ cborUint 1 ++ cborCString id.engineVer
    ++ cborUint 2 ++ cborBytes id.paramMapHash.b
    ++ cborUint 3 ++ cborArray 1 ++ refEncode ref
    ++ cborUint 4 ++ cborArray closure.length ++ closure.flatMap (fun h => (storeGet store h).getD [])
    ++ cborUint 5 ++ cborMap 3
    ++ cborUint 0 ++ cborUint id.usbVid.toNat
    ++ cborUint 1 ++ cborUint id.usbPid.toNat
    ++ cborUint 2 ++ cborCString id.usbSerial

-- A `HashList` takes as many hashes as the list of the client; what is over is dropped.
def gatherFrom (s : Store) (passes cur : Nat) (clo : List Hash) : List Hash :=
  match passes with
  | 0 => clo
  | passes + 1 =>
    match clo[cur]? with
    | none => clo
    | some h =>
      match storeGet s h with
      | none => gatherFrom s passes (cur + 1) clo
      | some enc => gatherFrom s passes (cur + 1) (objForeachChild enc false listCollect clo).2

def gatherClosure (s : Store) (head : Hash) : List Hash :=
  gatherFrom s clientMaxClosure 0 (listCollect head []).2

-- What one round of requests meets.
structure SaveAttempt where
  connected : Bool
  live : Option Ref
  snapshot : Option Hash
  dev : Store
  io : FetchIo

-- The live ref and the head whose closure was fetched.
def saveAttempts (s : Store) (attempts : List SaveAttempt) : Option (Ref × Hash) × Store :=
  match attempts with
  | [] => (none, s)
  | a :: attempts =>
    if !a.connected then
      (none, s)
    else
      match a.live with
      | none => saveAttempts s attempts
      | some live =>
        match live.hash with
        | none => (none, s)
        | some hash =>
          match (if live.dirty then a.snapshot else some hash) with
          | none => saveAttempts s attempts
          | some head =>
            match fetchClosure s a.dev head a.io with
            | (none, s) => saveAttempts s attempts
            | (some _, s) => (some (live, head), s)

namespace ShellRt

-- The waiting for a connection is over when the first attempt starts.
def getStateBundle (rt : ShellRt) (id : SavedIdentity) (attempts : List SaveAttempt)
    : Option Bytes × ShellRt :=
  if !rt.storeOk then
    (none, rt)
  else
    match saveAttempts rt.store (attempts.take 3) with
    | (none, store) => (none, { rt with store })
    | (some (live, head), store) =>
      let expected : Ref := ⟨liveRef, some head, live.generation, false⟩
      (some (encodeBundle id expected store (gatherClosure store head)),
        { rt with
          store
          project := { rt.project with hasBundle := true, bundleTarget := head } })

end ShellRt

end Harp
