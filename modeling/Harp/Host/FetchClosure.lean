import Harp.Host.PushClosure

/-!
This module contains `harp_client_fetch_closure` of `host/client.c` together with the device's side
of the exchange, `handle_state_want` and `sendq_flush` of `device/session.c`.

What the link and the local storage do is an argument: whether a request is answered, which frames
arrive while the client waits, and how each write ends.
-/

namespace Harp

section Device

def wantHashes (s : Store) (n : Nat) (b : Cdec) (queue : List Hash) : List Hash :=
  match n with
  | 0 => queue
  | n + 1 =>
    match hashRead b with
    | (some h, b) =>
      wantHashes s n b (if queue.length < 256 ∧ storeHave s h then queue ++ [h] else queue)
    | (none, _) => queue

def handleStateWant (s : Store) (body : Option Bytes) : List Hash :=
  match body with
  | none => []
  | some body =>
    match firstArray (Cdec.init body) with
    | (some alen, b) => wantHashes s alen b []
    | (none, _) => []

-- The queue is sent in order; an object that cannot be read is dropped from it.
def sendqFlush (s : Store) (queue : List Hash) : List Hash :=
  queue.filter (fun h => (storeGet s h).isSome)

end Device

section Host

structure FetchRound where
  answered : Bool
  -- `true` is the next object the device has queued, `false` any other frame
  frames : List Bool
deriving Repr

structure FetchIo where
  rounds : List FetchRound
  put : Hash → WriteIo

def wantRequest (want : List Hash) : Bytes :=
  cborMap 1 ++ cborUint 0 ++ cborArray want.length ++ want.flatMap (fun h => cborBytes h.b)

def fetchBatch : Nat := 64

-- Pumps frames until everything wanted is held.
def pumpWanted (dev : Store) (put : Hash → WriteIo) (want queue : List Hash) (frames : List Bool)
    (spins : Nat) (s : Store) : Bool × Store :=
  if want.all (storeHave s) then
    (true, s)
  else if spins + 1 > 4096 then
    (false, s)
  else
    match frames with
    | [] => (false, s)
    | false :: frames => pumpWanted dev put want queue frames (spins + 1) s
    | true :: frames =>
      match queue with
      | [] => (false, s)
      | h :: queue =>
        pumpWanted dev put want queue frames (spins + 1)
          (handleObj s ((storeGet dev h).getD []) (put h))

def fetchWanted (dev : Store) (put : Hash → WriteIo) (want : List Hash) (round : FetchRound)
    (s : Store) : Bool × Store :=
  if want.isEmpty then
    (true, s)
  else if ¬ round.answered then
    (false, s)
  else
    let queue := sendqFlush dev (handleStateWant dev (some (wantRequest want)))
    pumpWanted dev put want queue round.frames 0 s

-- The children of one generation; what cannot be read has none.
def expandPending (s : Store) (seg pending : List Hash) : List Hash :=
  seg.foldl (fun pending h =>
    match storeGet s h with
    | none => pending
    | some enc => (objForeachChild enc false listCollect pending).2) pending

-- `some` is the return value 0 with the number of objects fetched.
def fetchLoop (dev : Store) (put : Hash → WriteIo) (rounds : List FetchRound) (cursor : Nat)
    (pending : List Hash) (got : Nat) (s : Store) : Option Nat × Store :=
  if cursor < pending.length then
    match rounds with
    | [] => (none, s)
    | round :: rounds =>
      let seg := pending.drop cursor
      let want := (seg.filter (fun h => !storeHave s h)).take fetchBatch
      match fetchWanted dev put want round s with
      | (false, s) => (none, s)
      | (true, s) =>
        fetchLoop dev put rounds pending.length (expandPending s seg pending) (got + want.length) s
  else
    (some got, s)

def fetchClosure (local_ dev : Store) (root : Hash) (io : FetchIo) : Option Nat × Store :=
  fetchLoop dev io.put io.rounds 0 (listCollect root []).2 0 local_

end Host

end Harp
