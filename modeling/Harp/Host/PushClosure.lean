import Harp.Device.State

/-!
This module contains `harp_client_push_closure` of `host/client.c` together with the device's side
of the exchange: `handle_state_have`, `handle_state_send` and `handle_obj` of `device/session.c`.

What the link and the storage do is an argument: whether the two requests are answered, what each
frame pumped while waiting brings, which frames the link takes and how each write on the device ends.
-/

namespace Harp

section Device

-- A map whose first key is 0 and whose first value is an array.
def firstArray : Dec Nat := do
  let n ← cdecMap
  if n = 0 then
    Dec.fail
  else
    let key ← cdecUint
    if key ≠ 0 then
      Dec.fail
    else
      cdecArray

def haveBools (s : Store) (n : Nat) (b : Cdec) : List Bool :=
  match n with
  | 0 => []
  | n + 1 =>
    match hashRead b with
    | (some h, b) => storeHave s h :: haveBools s n b
    | (none, _) => []

def handleStateHave (s : Store) (body : Option Bytes) : Bytes :=
  let bools :=
    match body with
    | none => []
    | some body =>
      match firstArray (Cdec.init body) with
      | (some alen, b) => haveBools s alen b
      | (none, _) => []
  cborMap 1 ++ cborUint 0 ++ cborArray bools.length ++ bools.flatMap cborBool

def sendTotal (n : Nat) (b : Cdec) (total : Nat) : Nat :=
  match n with
  | 0 => total
  | n + 1 =>
    match cdecUint b with
    | (none, _) => total
    | (some key, b) =>
      if key = 1 then
        -- the argument is stored before its major type is looked at
        match readHead b with
        | (some h, b) => if h.major ≠ 0 then h.val else sendTotal n b h.val
        | (none, _) => total
      else
        sendTotal n (cdecSkip b).2 total

-- `free` is what `statvfs` reports, if it reports anything.
def handleStateSend (body : Option Bytes) (free : Option Nat) : Bool :=
  let total :=
    match body with
    | none => 0
    | some body =>
      match cdecMap (Cdec.init body) with
      | (some n, b) => sendTotal n b 0
      | (none, _) => 0
  match free with
  | some free => total ≤ free
  | none => true

end Device

section Host

def clientMaxClosure : Nat := 512

def clientSendqCap : Nat := 1024

def listCollect : HashCb (List Hash) := fun h l =>
  (true, if h ∉ l ∧ l.length < clientMaxClosure then l ++ [h] else l)

-- The list never outgrows `clientMaxClosure`, so that many passes reach its end.
def collectFrom (s : Store) (passes cur : Nat) (clo : List Hash) : Option (List Hash) :=
  match passes with
  | 0 => some clo
  | passes + 1 =>
    match clo[cur]? with
    | none => some clo
    | some h =>
      match storeGet s h with
      | none => none
      | some enc => collectFrom s passes (cur + 1) (objForeachChild enc false listCollect clo).2

def collectClosure (s : Store) (root : Hash) : Option (List Hash) :=
  collectFrom s clientMaxClosure 0 (listCollect root []).2

def haveRequest (clo : List Hash) : Bytes :=
  cborMap 1 ++ cborUint 0 ++ cborArray clo.length ++ clo.flatMap (fun h => cborBytes h.b)

def readMissing (n : Nat) (b : Cdec) : List Bool :=
  match n with
  | 0 => []
  | n + 1 =>
    match cdecBool b with
    | (some have_, b) => (!have_) :: readMissing n b
    | (none, _) => List.replicate (n + 1) false

def missingFlags (n : Nat) (rsp : Bytes) : List Bool :=
  match firstArray (Cdec.init rsp) with
  | (some alen, b) => if alen = n then readMissing n b else List.replicate n false
  | (none, _) => List.replicate n false

def sendRequest (s : Store) (missing : List Hash) : Bytes :=
  let total := (missing.map (fun h => ((storeGet s h).getD []).length)).sum
  cborMap 2 ++ cborUint 0 ++ cborArray missing.length ++ missing.flatMap (fun h => cborBytes h.b)
    ++ cborUint 1 ++ cborUint (total % 2 ^ 64)

def csendqPush (q : List Hash) (h : Hash) : List Hash :=
  if q.length = clientSendqCap then q else q ++ [h]

structure Credit where
  peerCredit : Nat
  spins : Nat
  -- what each further frame adds to the credit, until the transport fails
  grants : List Nat

def awaitCredit (len peerCredit spins : Nat) (grants : List Nat) : Option Credit :=
  match grants with
  | [] => if len > peerCredit then none else some ⟨peerCredit, spins, []⟩
  | v :: rest =>
    if len > peerCredit then
      if spins + 1 > 100000 then none
      else awaitCredit len ((peerCredit + v) % 2 ^ 64) (spins + 1) rest
    else
      some ⟨peerCredit, spins, v :: rest⟩

structure PushIo where
  haveOk : Bool
  sendOk : Bool
  free : Option Nat
  credit : Credit
  link : Hash → Bool
  put : Hash → WriteIo

def csendqFlush (local_ : Store) (io : PushIo) (q : List Hash) (credit : Credit) (dev : Store)
    : Bool × Store :=
  match q with
  | [] => (true, dev)
  | h :: q =>
    match storeGet local_ h with
    | none => (false, dev)
    | some enc =>
      match awaitCredit enc.length credit.peerCredit credit.spins credit.grants with
      | none => (false, dev)
      | some credit =>
        if ¬ io.link h then
          (false, dev)
        else
          csendqFlush local_ io q { credit with peerCredit := credit.peerCredit - enc.length }
            (handleObj dev enc (io.put h))

-- `true` is the return value 0.
def pushClosure (local_ dev : Store) (root : Hash) (io : PushIo) : Bool × Store :=
  match collectClosure local_ root with
  | none => (false, dev)
  | some clo =>
    if ¬ io.haveOk then
      (false, dev)
    else
      let flags := missingFlags clo.length (handleStateHave dev (some (haveRequest clo)))
      let missing := ((clo.zip flags).filter Prod.snd).map Prod.fst
      if missing.isEmpty then
        (true, dev)
      else if ¬ (io.sendOk ∧ handleStateSend (some (sendRequest local_ missing)) io.free) then
        (false, dev)
      else
        csendqFlush local_ io (missing.foldl csendqPush []) { io.credit with spins := 0 } dev

end Host

end Harp
