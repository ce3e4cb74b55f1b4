import Harp.Device.SendQueue
import Harp.Core.Link

/-!
This module contains the exchange of objects between a host and a device as two processes joined by
two links: `csendq_flush`, `pump_one` and `client_grant` of `host/client.c` on the one side,
`handle_obj`, `grant_credit` and `sendq_flush` of `device/session.c` on the other.

A step is one message taken off a link, one turn of a loop, or something from outside (a request of
the host, a change of a store). Nothing is lost on the links.
-/

namespace Harp

open Rings Runs

def creditGrant : Nat := 16 <<< 20

inductive ObjMsg where
  | obj (enc : Bytes)
  | credit (body : Bytes)
  | want (body : Option Bytes)
  | other
deriving DecidableEq, Repr

-- `grant_credit` and `client_grant`: the window grows by what the peer is told.
def grantCredit (granted : Nat) : Nat × List ObjMsg :=
  ((granted + creditGrant) % 2 ^ 64, [.credit (creditBody creditGrant)])

-- An object of `len` bytes has been taken, on either side.
def consumeObj (granted len : Nat) : Nat × List ObjMsg :=
  let granted := if granted ≥ len then granted - len else 0
  if granted < creditGrant / 2 then grantCredit granted else (granted, [])

structure DevSide where
  send : ObjSend
  granted : Nat
  store : Store

-- What the device writes for the entries that left its queue.
def sentMsgs (log : SendLog) : List ObjMsg :=
  log.filterMap (fun e => e.2.map ObjMsg.obj)

def DevSide.recv (d : DevSide) (io : WriteIo) : ObjMsg → DevSide × List ObjMsg
  | .obj enc =>
    let window := consumeObj d.granted enc.length
    ({ d with store := handleObj d.store enc io, granted := window.1 }, window.2)
  | .credit body =>
    let out := d.send.coreCredit d.store body
    ({ d with send := out.1 }, sentMsgs out.2)
  | .want body =>
    let out := d.send.stateWant d.store body
    ({ d with send := out.1 }, .other :: sentMsgs out.2)
  | .other => (d, [])

-- Where the client is: outside of `csendq_flush`, at the top of its loop, or with the bytes of the
-- head in its hand. `spins` counts the frames it has pumped.
inductive Phase where
  | idle
  | flushing (spins : Nat)
  | sending (spins : Nat) (enc : Bytes)
deriving DecidableEq, Repr

structure HostSide where
  peerCredit : Nat
  granted : Nat
  sendq : Ring Hash clientSendqCap
  objDrops : Nat
  phase : Phase
  store : Store

namespace HostSide

def sendqPush (c : HostSide) (h : Hash) : HostSide :=
  if c.sendq.count = clientSendqCap then
    { c with objDrops := c.objDrops + 1 }
  else
    { c with sendq := c.sendq.push h }

def pumpOne (c : HostSide) (io : WriteIo) : ObjMsg → HostSide × List ObjMsg
  | .obj enc =>
    let window := consumeObj c.granted enc.length
    ({ c with store := handleObj c.store enc io, granted := window.1 }, window.2)
  | .credit body =>
    match creditAmount body with
    | none => (c, [])
    | some v => ({ c with peerCredit := (c.peerCredit + v) % 2 ^ 64 }, [])
  | .want _ => (c, [])
  | .other => (c, [])

-- An error: the queue is given up.
def flushFails (c : HostSide) : HostSide :=
  { c with sendq := c.sendq.clear, phase := .idle }

/-- One turn of `csendq_flush` that receives nothing. -/
def flushTurn (c : HostSide) : HostSide × List ObjMsg :=
  match c.phase with
  | .idle => (c, [])
  | .flushing spins =>
    if c.sendq.count = 0 then
      ({ c with phase := .idle }, [])
    else
      match storeGet c.store (c.sendq.buf c.sendq.head) with
      | none => (c.flushFails, [])
      | some enc => ({ c with phase := .sending spins enc }, [])
  | .sending spins enc =>
    if enc.length > c.peerCredit then
      if spins + 1 > 100000 then (c.flushFails, []) else (c, [])
    else
      ({ c with
          peerCredit := c.peerCredit - enc.length
          sendq := c.sendq.pop
          phase := .flushing spins }, [.obj enc])

-- Whether a frame is received now: outside of `csendq_flush`, or in it where the head does not fit.
def pumps (c : HostSide) : Option HostSide :=
  match c.phase with
  | .idle => some c
  | .flushing _ => none
  | .sending spins enc =>
    if enc.length > c.peerCredit ∧ ¬ spins + 1 > 100000 then
      some { c with phase := .sending (spins + 1) enc }
    else
      none

end HostSide

structure Xfer where
  host : HostSide
  dev : DevSide
  h2d : List ObjMsg
  d2h : List ObjMsg

inductive XferOp where
  | devRecv (io : WriteIo)
  | devNotify
  | devStore (s : Store)
  | hostPump (io : WriteIo)
  | hostRequest (body : Option Bytes)
  | hostPush (h : Hash)
  | hostFlush
  | hostTurn
  | hostStore (s : Store)

namespace Xfer

def next (x : Xfer) : XferOp → Xfer
  | .devRecv io =>
    match x.h2d with
    | [] => x
    | m :: h2d =>
      let out := x.dev.recv io m
      { x with dev := out.1, h2d, d2h := x.d2h ++ out.2 }
  | .devNotify => { x with d2h := x.d2h ++ [.other] }
  | .devStore s => { x with dev := { x.dev with store := s } }
  | .hostPump io =>
    match x.d2h, x.host.pumps with
    | m :: d2h, some host =>
      let out := host.pumpOne io m
      { x with host := out.1, d2h, h2d := x.h2d ++ out.2 }
    | _, _ => x
  | .hostRequest body =>
    if x.host.phase = .idle then { x with h2d := x.h2d ++ [.want body] } else x
  | .hostPush h =>
    if x.host.phase = .idle then
      { x with host := x.host.sendqPush h }
    else
      x
  | .hostFlush =>
    if x.host.phase = .idle then
      { x with host := { x.host with phase := .flushing 0 } }
    else
      x
  | .hostTurn =>
    let out := x.host.flushTurn
    { x with host := out.1, h2d := x.h2d ++ out.2 }
  | .hostStore s => { x with host := { x.host with store := s } }

-- Both sides have granted a window, and neither has received the other's.
def hello (hq : Ring Hash clientSendqCap) (dq : Ring Hash sendqCap) (hdrops ddrops : Nat)
    (hs ds : Store) : Xfer where
  host := ⟨0, creditGrant, hq.clear, hdrops, .idle, hs⟩
  dev := ⟨⟨0, dq.clear, ddrops⟩, creditGrant, ds⟩
  h2d := [.credit (creditBody creditGrant)]
  d2h := [.credit (creditBody creditGrant)]

-- The objects on a link, in bytes.
def objBytes (link : List ObjMsg) : Nat :=
  (link.map (fun
    | .obj enc => enc.length
    | _ => 0)).sum

-- The credit on a link.
def creditBytes (link : List ObjMsg) : Nat :=
  (link.map (fun
    | .credit body => (creditAmount body).getD 0
    | _ => 0)).sum

-- The grants that the objects on a link call up when the receiver takes them.
def answers (granted : Nat) : List ObjMsg → List ObjMsg
  | [] => []
  | .obj enc :: link =>
    let window := consumeObj granted enc.length
    window.2 ++ answers window.1 link
  | .credit _ :: link => answers granted link
  | .want _ :: link => answers granted link
  | .other :: link => answers granted link

/-- What each sender may still send, what is on its way and what the receiver has granted agree. -/
structure Balanced (x : Xfer) : Prop where
  host : x.host.peerCredit + objBytes x.h2d + creditBytes x.d2h = x.dev.granted
  dev : x.dev.send.peerCredit + objBytes x.d2h + creditBytes x.h2d = x.host.granted

-- The object that a sender has to send next.
def hostHead (x : Xfer) : Option Bytes :=
  match x.host.phase with
  | .sending _ enc => some enc
  | _ => x.host.sendq.items.head?.bind (storeGet x.host.store)

def devHead (x : Xfer) : Option Bytes :=
  x.dev.send.sendq.items.head?.bind (storeGet x.dev.store)

/--
The next object fits into the credit, or a grant is on the way that makes it fit: on the link, or
sure to be sent for the objects on the link.
-/
def Served (head : Option Bytes) (peerCredit : Nat) (grants : List ObjMsg) : Prop :=
  ∀ enc, head = some enc → enc.length ≤ objMaxPayload →
    enc.length ≤ peerCredit
      ∨ (0 < creditBytes grants ∧ enc.length ≤ peerCredit + creditBytes grants)

structure Flowing (x : Xfer) : Prop extends Balanced x where
  hostServed : Served x.hostHead x.host.peerCredit (x.d2h ++ answers x.dev.granted x.h2d)
  devServed : Served x.devHead x.dev.send.peerCredit (x.h2d ++ answers x.host.granted x.d2h)

-- Both stores hold no object of more than `limit` bytes.
structure StoresWithin (limit : Nat) (x : Xfer) : Prop where
  host : ∀ h enc, storeGet x.host.store h = some enc → enc.length ≤ limit
  dev : ∀ h enc, storeGet x.dev.store h = some enc → enc.length ≤ limit

def KeepsWithin (limit : Nat) (x : Xfer) (op : XferOp) : Prop :=
  StoresWithin limit (x.next op)

section Bytes

theorem objBytes_cons (m : ObjMsg) (link : List ObjMsg)
    : objBytes (m :: link) = objBytes [m] + objBytes link := by
  simp [objBytes]

theorem creditBytes_cons (m : ObjMsg) (link : List ObjMsg)
    : creditBytes (m :: link) = creditBytes [m] + creditBytes link := by
  simp [creditBytes]

theorem objBytes_append (a b : List ObjMsg) : objBytes (a ++ b) = objBytes a + objBytes b := by
  simp [objBytes]

theorem creditBytes_append (a b : List ObjMsg)
    : creditBytes (a ++ b) = creditBytes a + creditBytes b := by
  simp [creditBytes]

theorem objBytes_obj (enc : Bytes) : objBytes [.obj enc] = enc.length := by
  simp [objBytes]

theorem creditBytes_credit {body : Bytes} {v : Nat} (h : creditAmount body = some v)
    : creditBytes [.credit body] = v := by
  simp [creditBytes, h]

theorem creditBytes_none {body : Bytes} (h : creditAmount body = none)
    : creditBytes [.credit body] = 0 := by
  simp [creditBytes, h]

theorem creditBytes_grant : creditBytes [.credit (creditBody creditGrant)] = creditGrant :=
  creditBytes_credit (creditAmount_creditBody (by decide))

theorem bytes_sentMsgs (log : SendLog)
    : objBytes (sentMsgs log) = log.bytes ∧ creditBytes (sentMsgs log) = 0 := by
  induction log with
  | nil => exact ⟨rfl, rfl⟩
  | cons e log ih =>
    rcases e with ⟨h, out⟩
    cases out with
    | none =>
      have hskip : sentMsgs ((h, none) :: log) = sentMsgs log := rfl
      have hbytes : SendLog.bytes ((h, none) :: log) = SendLog.bytes log := by
        simp [SendLog.bytes]
      rw [hskip, hbytes]
      exact ih
    | some enc =>
      have hsent : sentMsgs ((h, some enc) :: log) = .obj enc :: sentMsgs log := rfl
      have hbytes : SendLog.bytes ((h, some enc) :: log) = enc.length + SendLog.bytes log := by
        simp [SendLog.bytes]
      rw [hsent, hbytes, objBytes_cons, creditBytes_cons, objBytes_obj, ih.1, ih.2]
      exact ⟨rfl, rfl⟩

end Bytes

section Lanes

/--
One direction: the credit of the sender, the objects ahead of it, the grants behind it and the window
of the receiver. The receiver never lets its window fall below half a grant.
-/
structure Lane (peerCredit : Nat) (ahead behind : List ObjMsg) (granted : Nat) : Prop where
  balance : peerCredit + objBytes ahead + creditBytes behind = granted
  low : creditGrant / 2 ≤ granted
  high : granted < creditGrant / 2 + creditGrant

variable {peerCredit granted : Nat} {ahead behind : List ObjMsg}

theorem consumeObj_window {len : Nat} (hlow : creditGrant / 2 ≤ granted)
    (hhigh : granted < creditGrant / 2 + creditGrant) (hlen : len ≤ granted)
    : (consumeObj granted len).1 + len = granted + creditBytes (consumeObj granted len).2
        ∧ objBytes (consumeObj granted len).2 = 0
        ∧ creditGrant / 2 ≤ (consumeObj granted len).1
        ∧ (consumeObj granted len).1 < creditGrant / 2 + creditGrant := by
  have hgrant : creditGrant = 16777216 := rfl
  unfold consumeObj grantCredit
  rw [if_pos hlen]
  dsimp only
  by_cases hsmall : granted - len < creditGrant / 2
  . rw [if_pos hsmall]
    dsimp only
    rw [creditBytes_grant, Nat.mod_eq_of_lt (by omega)]
    refine ⟨by omega, rfl, by omega, by omega⟩
  . rw [if_neg hsmall]
    refine ⟨?_, rfl, by omega, by omega⟩
    have hnone : creditBytes [] = 0 := rfl
    dsimp only
    rw [hnone]
    omega

theorem Lane.takeObj {enc : Bytes} (h : Lane peerCredit (.obj enc :: ahead) behind granted)
    : Lane peerCredit ahead (behind ++ (consumeObj granted enc.length).2)
        (consumeObj granted enc.length).1 := by
  have hbalance := h.balance
  rw [objBytes_cons, objBytes_obj] at hbalance
  rcases consumeObj_window h.low h.high (show enc.length ≤ granted by omega) with
    ⟨hwindow, _, hlow, hhigh⟩
  constructor
  . rw [creditBytes_append]
    omega
  . exact hlow
  . exact hhigh

theorem Lane.takeCredit {body : Bytes} {v : Nat} (hamt : creditAmount body = some v)
    (h : Lane peerCredit ahead (.credit body :: behind) granted)
    : peerCredit + v < 2 ^ 64 ∧ Lane (peerCredit + v) ahead behind granted := by
  have hgrant : creditGrant = 16777216 := rfl
  have hbalance := h.balance
  have hhigh := h.high
  rw [creditBytes_cons, creditBytes_credit hamt] at hbalance
  refine ⟨by omega, ?_, h.low, hhigh⟩
  omega

-- What a sender puts on the link comes out of its credit.
theorem Lane.send {peerCredit' : Nat} {out : List ObjMsg}
    (h : Lane peerCredit ahead behind granted) (hpaid : peerCredit' + objBytes out = peerCredit)
    : Lane peerCredit' (ahead ++ out) behind granted := by
  have hbalance := h.balance
  refine ⟨?_, h.low, h.high⟩
  rw [objBytes_append]
  omega

-- Messages that are no object ahead and no grant behind change nothing.
theorem Lane.congr {ahead' behind' : List ObjMsg} (h : Lane peerCredit ahead behind granted)
    (hahead : objBytes ahead' = objBytes ahead) (hbehind : creditBytes behind' = creditBytes behind)
    : Lane peerCredit ahead' behind' granted := by
  refine ⟨?_, h.low, h.high⟩
  rw [hahead, hbehind]
  exact h.balance

theorem answers_window (hlow : creditGrant / 2 ≤ granted)
    (hhigh : granted < creditGrant / 2 + creditGrant) (hbytes : objBytes ahead ≤ granted)
    : creditGrant / 2 + objBytes ahead ≤ granted + creditBytes (answers granted ahead) := by
  induction ahead generalizing granted with
  | nil =>
    have hnone : objBytes [] = 0 := rfl
    rw [hnone]
    omega
  | cons m ahead ih =>
    rw [objBytes_cons] at hbytes ⊢
    cases m with
    | obj enc =>
      rw [objBytes_obj] at hbytes ⊢
      rcases consumeObj_window hlow hhigh (show enc.length ≤ granted by omega) with
        ⟨hwindow, _, hlow', hhigh'⟩
      have hrest := ih hlow' hhigh' (by omega)
      rw [answers, creditBytes_append]
      omega
    | credit body =>
      have hrest := ih hlow hhigh (by omega)
      rw [answers]
      have hzero : objBytes [.credit body] = 0 := rfl
      omega
    | want body =>
      have hrest := ih hlow hhigh (by omega)
      rw [answers]
      have hzero : objBytes [.want body] = 0 := rfl
      omega
    | other =>
      have hrest := ih hlow hhigh (by omega)
      rw [answers]
      have hzero : objBytes [.other] = 0 := rfl
      omega

-- Half a window is always there or on the way.
theorem Lane.served {head : Option Bytes} (h : Lane peerCredit ahead behind granted)
    (hhead : ∀ enc, head = some enc → enc.length ≤ creditGrant / 2)
    : Served head peerCredit (behind ++ answers granted ahead) := by
  intro enc henc _
  have hlen := hhead enc henc
  have hbalance := h.balance
  have hwindow := answers_window h.low h.high (show objBytes ahead ≤ granted by omega)
  rw [creditBytes_append]
  omega

end Lanes

section Steps

variable {x : Xfer}

structure Lanes (x : Xfer) : Prop where
  host : Lane x.host.peerCredit x.h2d x.d2h x.dev.granted
  dev : Lane x.dev.send.peerCredit x.d2h x.h2d x.host.granted

theorem lanes_hello (hq : Ring Hash clientSendqCap) (dq : Ring Hash sendqCap)
    (hdrops ddrops : Nat) (hs ds : Store) : Lanes (hello hq dq hdrops ddrops hs ds) := by
  have hlane : Lane 0 [.credit (creditBody creditGrant)] [.credit (creditBody creditGrant)]
      creditGrant := by
    have hzero : objBytes [.credit (creditBody creditGrant)] = 0 := rfl
    refine ⟨?_, by decide, by decide⟩
    rw [hzero, creditBytes_grant]
    decide
  exact ⟨hlane, hlane⟩

-- The credit after what the device does with a grant.
theorem paid_coreCredit {d : ObjSend} (s : Store) {body : Bytes} {v : Nat}
    (hamt : creditAmount body = some v) (hfits : d.peerCredit + v < 2 ^ 64)
    : (d.coreCredit s body).1.peerCredit + objBytes (sentMsgs (d.coreCredit s body).2)
        = d.peerCredit + v := by
  have hflush := ObjSend.flushed_sendqFlush s
    { d with peerCredit := (d.peerCredit + v) % 2 ^ 64 }
  have hpaid := hflush.paid
  have hraised : d.coreCredit s body
      = ObjSend.sendqFlush s { d with peerCredit := (d.peerCredit + v) % 2 ^ 64 } := by
    unfold ObjSend.coreCredit
    rw [hamt]
  rw [hraised, (bytes_sentMsgs _).1, hpaid]
  exact Nat.mod_eq_of_lt hfits

theorem paid_stateWant (d : ObjSend) (s : Store) (body : Option Bytes)
    : (d.stateWant s body).1.peerCredit + objBytes (sentMsgs (d.stateWant s body).2)
        = d.peerCredit := by
  have hflush := ObjSend.flushed_sendqFlush s
    ((handleStateWant s body).foldl ObjSend.sendqPush d)
  rw [(bytes_sentMsgs _).1]
  exact hflush.paid.trans (ObjSend.foldl_sendqPush (handleStateWant s body) d).2.2

theorem lanes_devRecv (h : Lanes x) {m : ObjMsg} {h2d : List ObjMsg} (hlink : x.h2d = m :: h2d)
    (io : WriteIo)
    : Lanes { x with dev := (x.dev.recv io m).1, h2d, d2h := x.d2h ++ (x.dev.recv io m).2 } := by
  have hhost := h.host
  have hdev := h.dev
  rw [hlink] at hhost hdev
  cases m with
  | obj enc =>
    have hwindow := consumeObj_window hhost.low hhost.high (show enc.length ≤ x.dev.granted by
      have hbalance := hhost.balance
      rw [objBytes_cons, objBytes_obj] at hbalance
      omega)
    refine ⟨hhost.takeObj, hdev.congr ?_ ?_⟩
    . simp only [DevSide.recv]
      rw [objBytes_append, hwindow.2.1]
      rfl
    . simp [creditBytes]
  | credit body =>
    cases hamt : creditAmount body with
    | none =>
      have hsame : x.dev.recv io (.credit body) = (x.dev, []) := by
        simp [DevSide.recv, ObjSend.coreCredit, hamt, sentMsgs]
      rw [hsame, List.append_nil]
      refine ⟨hhost.congr ?_ rfl, hdev.congr rfl ?_⟩
      . rw [objBytes_cons]
        simp [objBytes]
      . rw [creditBytes_cons, creditBytes_none hamt, Nat.zero_add]
    | some v =>
      rcases Lane.takeCredit hamt hdev with ⟨hfits, hraised⟩
      refine ⟨hhost.congr ?_ ?_, hraised.send (paid_coreCredit x.dev.store hamt hfits)⟩
      . rw [objBytes_cons]
        simp [objBytes]
      . rw [creditBytes_append]
        simp only [DevSide.recv]
        rw [(bytes_sentMsgs _).2, Nat.add_zero]
  | want body =>
    have hpaid := paid_stateWant x.dev.send x.dev.store body
    refine ⟨hhost.congr ?_ ?_, ?_⟩
    . rw [objBytes_cons]
      simp [objBytes]
    . rw [creditBytes_append]
      simp only [DevSide.recv]
      rw [creditBytes_cons, (bytes_sentMsgs _).2]
      rfl
    . apply Lane.send
      . refine hdev.congr rfl ?_
        rw [creditBytes_cons]
        simp [creditBytes]
      . simp only [DevSide.recv]
        rw [objBytes_cons]
        have hzero : objBytes [.other] = 0 := rfl
        rw [hzero, Nat.zero_add]
        exact hpaid
  | other =>
    have hsame : x.dev.recv io .other = (x.dev, []) := rfl
    rw [hsame, List.append_nil]
    refine ⟨hhost.congr ?_ rfl, hdev.congr rfl ?_⟩
    . rw [objBytes_cons]
      simp [objBytes]
    . rw [creditBytes_cons]
      simp [creditBytes]

theorem pumps_fields {c c' : HostSide} (h : c.pumps = some c')
    : c'.peerCredit = c.peerCredit ∧ c'.granted = c.granted := by
  unfold HostSide.pumps at h
  split at h
  . cases h
    exact ⟨rfl, rfl⟩
  . cases h
  . split at h
    . cases h
      exact ⟨rfl, rfl⟩
    . cases h

theorem lanes_hostPump (h : Lanes x) {m : ObjMsg} {d2h : List ObjMsg} {c : HostSide}
    (hlink : x.d2h = m :: d2h) (hc : x.host.pumps = some c) (io : WriteIo)
    : Lanes { x with host := (c.pumpOne io m).1, d2h, h2d := x.h2d ++ (c.pumpOne io m).2 } := by
  have hhost := h.host
  have hdev := h.dev
  rw [hlink, ← (pumps_fields hc).1] at hhost
  rw [hlink, ← (pumps_fields hc).2] at hdev
  cases m with
  | obj enc =>
    have hwindow := consumeObj_window hdev.low hdev.high (show enc.length ≤ c.granted by
      have hbalance := hdev.balance
      rw [objBytes_cons, objBytes_obj] at hbalance
      omega)
    refine ⟨hhost.congr ?_ ?_, hdev.takeObj⟩
    . simp only [HostSide.pumpOne]
      rw [objBytes_append, hwindow.2.1]
      rfl
    . simp [creditBytes]
  | credit body =>
    cases hamt : creditAmount body with
    | none =>
      have hsame : c.pumpOne io (.credit body) = (c, []) := by
        simp [HostSide.pumpOne, hamt]
      rw [hsame, List.append_nil]
      refine ⟨hhost.congr rfl ?_, hdev.congr ?_ rfl⟩
      . rw [creditBytes_cons, creditBytes_none hamt, Nat.zero_add]
      . simp [objBytes]
    | some v =>
      rcases Lane.takeCredit hamt hhost with ⟨hfits, hraised⟩
      have hstep : c.pumpOne io (.credit body) = ({ c with peerCredit := c.peerCredit + v }, []) := by
        simp only [HostSide.pumpOne, hamt, Nat.mod_eq_of_lt hfits]
      rw [hstep, List.append_nil]
      refine ⟨hraised, hdev.congr ?_ rfl⟩
      simp [objBytes]
  | want body =>
    have hsame : c.pumpOne io (.want body) = (c, []) := rfl
    rw [hsame, List.append_nil]
    refine ⟨hhost.congr rfl ?_, hdev.congr ?_ rfl⟩
    . simp [creditBytes]
    . simp [objBytes]
  | other =>
    have hsame : c.pumpOne io .other = (c, []) := rfl
    rw [hsame, List.append_nil]
    refine ⟨hhost.congr rfl ?_, hdev.congr ?_ rfl⟩
    . simp [creditBytes]
    . simp [objBytes]

-- What a turn of the flush sends comes out of the credit; it grants nothing.
theorem flushTurn_paid (c : HostSide)
    : c.flushTurn.1.peerCredit + objBytes c.flushTurn.2 = c.peerCredit
        ∧ creditBytes c.flushTurn.2 = 0 ∧ c.flushTurn.1.granted = c.granted := by
  have hnone : objBytes [] = 0 := rfl
  unfold HostSide.flushTurn
  split
  . exact ⟨rfl, rfl, rfl⟩
  . split
    . exact ⟨rfl, rfl, rfl⟩
    . split
      . exact ⟨rfl, rfl, rfl⟩
      . exact ⟨rfl, rfl, rfl⟩
  next spins enc _ =>
    split
    . split
      . exact ⟨rfl, rfl, rfl⟩
      . exact ⟨rfl, rfl, rfl⟩
    next hfits =>
      refine ⟨?_, rfl, rfl⟩
      dsimp only
      rw [objBytes_obj]
      omega

theorem lanes_next (h : Lanes x) (op : XferOp) : Lanes (x.next op) := by
  cases op with
  | devRecv io =>
    simp only [next]
    split
    . exact h
    next hlink => exact lanes_devRecv h hlink io
  | devNotify =>
    refine ⟨h.host.congr rfl ?_, h.dev.congr ?_ rfl⟩
    . simp [next, creditBytes]
    . simp [next, objBytes]
  | devStore s => exact ⟨h.host, h.dev⟩
  | hostPump io =>
    simp only [next]
    split
    next hlink hc => exact lanes_hostPump h hlink hc io
    . exact h
  | hostRequest body =>
    simp only [next]
    split
    . refine ⟨h.host.congr ?_ rfl, h.dev.congr rfl ?_⟩
      . simp [objBytes]
      . simp [creditBytes]
    . exact h
  | hostPush hash =>
    simp only [next]
    split
    . unfold HostSide.sendqPush
      split
      . exact ⟨h.host, h.dev⟩
      . exact ⟨h.host, h.dev⟩
    . exact h
  | hostFlush =>
    simp only [next]
    split
    . exact ⟨h.host, h.dev⟩
    . exact h
  | hostTurn =>
    rcases flushTurn_paid x.host with ⟨hpaid, hcredit, hgranted⟩
    refine ⟨h.host.send hpaid, ?_⟩
    have hdev := h.dev
    rw [← hgranted] at hdev
    refine hdev.congr rfl ?_
    simp only [next]
    rw [creditBytes_append, hcredit, Nat.add_zero]
  | hostStore s => exact ⟨h.host, h.dev⟩

theorem Lanes.balanced (h : Lanes x) : Balanced x :=
  ⟨h.host.balance, h.dev.balance⟩

end Steps

section Small

variable {x : Xfer}

-- The object in the hand of the client was read from its store.
def HandWithin (limit : Nat) (x : Xfer) : Prop :=
  ∀ spins enc, x.host.phase = .sending spins enc → enc.length ≤ limit

theorem pumpOne_phase (c : HostSide) (io : WriteIo) (m : ObjMsg)
    : (c.pumpOne io m).1.phase = c.phase := by
  unfold HostSide.pumpOne
  split
  . rfl
  . split
    . rfl
    . rfl
  . rfl
  . rfl

theorem handWithin_next {limit : Nat} (hstores : StoresWithin limit x) (h : HandWithin limit x)
    (op : XferOp) : HandWithin limit (x.next op) := by
  cases op with
  | devRecv io =>
    simp only [next]
    split
    . exact h
    . exact h
  | devNotify => exact h
  | devStore s => exact h
  | hostPump io =>
    simp only [next]
    split
    next m d2h c hlink hc =>
      intro spins enc hphase
      rw [pumpOne_phase] at hphase
      unfold HostSide.pumps at hc
      split at hc
      next hidle =>
        cases hc
        exact h spins enc hphase
      . cases hc
      next spins' enc' hsending =>
        split at hc
        . cases hc
          cases hphase
          exact h _ _ hsending
        . cases hc
    . exact h
  | hostRequest body =>
    simp only [next]
    split
    . exact h
    . exact h
  | hostPush hash =>
    simp only [next]
    split
    . intro spins enc hphase
      unfold HostSide.sendqPush at hphase
      split at hphase
      . exact h spins enc hphase
      . exact h spins enc hphase
    . exact h
  | hostFlush =>
    simp only [next]
    split
    . intro spins enc hphase
      cases hphase
    . exact h
  | hostTurn =>
    intro spins enc hphase
    simp only [next, HostSide.flushTurn] at hphase
    split at hphase
    . exact h spins enc hphase
    . split at hphase
      . cases hphase
      . split at hphase
        . cases hphase
        next hget =>
          cases hphase
          exact hstores.host _ _ hget
    . split at hphase
      . split at hphase
        . cases hphase
        . exact h spins enc hphase
      . cases hphase
  | hostStore s => exact h

theorem hostHead_within {limit : Nat} (hstores : StoresWithin limit x) (h : HandWithin limit x)
    {enc : Bytes} (henc : x.hostHead = some enc) : enc.length ≤ limit := by
  unfold hostHead at henc
  split at henc
  next hphase =>
    cases henc
    exact h _ _ hphase
  . rcases Option.bind_eq_some_iff.mp henc with ⟨hash, _, hget⟩
    exact hstores.host hash enc hget

theorem devHead_within {limit : Nat} (hstores : StoresWithin limit x) {enc : Bytes}
    (henc : x.devHead = some enc) : enc.length ≤ limit := by
  rcases Option.bind_eq_some_iff.mp henc with ⟨hash, _, hget⟩
  exact hstores.dev hash enc hget

structure SmallInv (x : Xfer) : Prop where
  lanes : Lanes x
  stores : StoresWithin (creditGrant / 2) x
  hand : HandWithin (creditGrant / 2) x

theorem SmallInv.flowing (h : SmallInv x) : Flowing x where
  toBalanced := h.lanes.balanced
  hostServed := h.lanes.host.served (fun _ henc => hostHead_within h.stores h.hand henc)
  devServed := h.lanes.dev.served (fun _ henc => devHead_within h.stores henc)

end Small

/--
The four counters balance in every run. Where neither store ever holds an object of more than half a
grant, a sender always has the credit for its next object or a grant for it on the way.
-/
theorem flowing_run (hq : Ring Hash clientSendqCap) (dq : Ring Hash sendqCap)
    (hdrops ddrops : Nat) (hs ds : Store)
    : (∀ x, Run next free (hello hq dq hdrops ddrops hs ds) x → Balanced x)
        ∧ (StoresWithin (creditGrant / 2) (hello hq dq hdrops ddrops hs ds) →
          ∀ x, Run next (KeepsWithin (creditGrant / 2)) (hello hq dq hdrops ddrops hs ds) x →
          Flowing x) := by
  have hlanes := lanes_hello hq dq hdrops ddrops hs ds
  constructor
  . intro x hrun
    exact (Run.inv hlanes (fun _ op h _ => lanes_next h op) hrun).balanced
  . intro hstores x hrun
    have hhand : HandWithin (creditGrant / 2) (hello hq dq hdrops ddrops hs ds) := by
      intro spins enc hphase
      cases hphase
    have hinv : SmallInv x := by
      refine Run.inv ⟨hlanes, hstores, hhand⟩ ?_ hrun
      intro x op h hkeeps
      exact ⟨lanes_next h.lanes op, hkeeps, handWithin_next h.stores h.hand op⟩
    exact hinv.flowing

section Stuck

def bareStore : Store :=
  ⟨[7], [], .dir true []⟩

-- A store with one object.
def oneStore (enc : Bytes) : Store :=
  (storePut bareStore enc .ok).2

theorem objFile_oneStore (enc : Bytes) (h : Hash)
    : objFile (oneStore enc) h
        = if h = hashCompute enc then some ⟨true, some enc, true⟩ else none := by
  unfold oneStore
  rw [objFile_storePut]
  by_cases heq : h = hashCompute enc
  . rw [if_pos heq, if_pos ⟨rfl, rfl, heq⟩]
    rfl
  . rw [if_neg heq, if_neg]
    . rfl
    . rintro ⟨_, _, hsame⟩
      exact heq hsame

theorem storeGet_oneStore (enc : Bytes)
    : storeGet (oneStore enc) (hashCompute enc) = some enc := by
  unfold storeGet
  rw [objFile_oneStore, if_pos rfl]
  rfl

-- What an object that arrives can add to a store.
theorem storeGet_handleObj {s : Store} {enc e : Bytes} {io : WriteIo} {h : Hash}
    (hget : storeGet (handleObj s enc io) h = some e)
    : storeGet s h = some e ∨ e = io.onDisk enc := by
  unfold storeGet at hget ⊢
  rcases objFile_handleObj s enc io h with ⟨_, _, _, hfile⟩ | ⟨_, hfile⟩
  . rw [hfile] at hget
    cases hget
    exact .inr rfl
  . rw [hfile] at hget
    exact .inl hget

theorem handleStateWant_oneStore (enc : Bytes) {n : Nat} (hn : n ≤ 256)
    : handleStateWant (oneStore enc) (some (wantRequest (List.replicate n (hashCompute enc))))
        = List.replicate n (hashCompute enc) := by
  apply handleStateWant_held
  . rw [List.length_replicate]
    exact hn
  . intro h hmem
    rw [List.eq_of_mem_replicate hmem]
    refine ⟨?_, rfl⟩
    unfold storeHave
    rw [objFile_oneStore, if_pos rfl]

-- The device waits with the object `n` times in its queue, and no store has anything else.
structure Waiting (enc : Bytes) (x : Xfer) (n peerCredit granted : Nat)
    (h2d d2h : List ObjMsg) : Prop where
  items : x.dev.send.sendq.items = List.replicate n (hashCompute enc)
  credit : x.dev.send.peerCredit = peerCredit
  granted : x.host.granted = granted
  h2d : x.h2d = h2d
  d2h : x.d2h = d2h
  idle : x.host.phase = .idle
  devStore : x.dev.store = oneStore enc
  hostStore : ∀ h e, storeGet x.host.store h = some e → e = enc

variable {enc : Bytes} {x : Xfer} {n peerCredit granted : Nat} {h2d d2h : List ObjMsg}

theorem Waiting.within {limit : Nat} (h : Waiting enc x n peerCredit granted h2d d2h)
    (hlimit : enc.length ≤ limit) : StoresWithin limit x := by
  constructor
  . intro hash e hget
    rw [h.hostStore hash e hget]
    exact hlimit
  . intro hash e hget
    rw [h.devStore] at hget
    unfold storeGet at hget
    rw [objFile_oneStore] at hget
    split at hget
    . cases hget
      exact hlimit
    . cases hget

-- The credit covers the object once, and no second time.
theorem sendqFlush_one {d : ObjSend}
    (hitems : d.sendq.items = List.replicate (n + 1) (hashCompute enc))
    (hfits : enc.length ≤ d.peerCredit) (hstop : 0 < n → d.peerCredit - enc.length < enc.length)
    : (ObjSend.sendqFlush (oneStore enc) d).1.sendq.items = List.replicate n (hashCompute enc)
        ∧ (ObjSend.sendqFlush (oneStore enc) d).1.peerCredit = d.peerCredit - enc.length
        ∧ (ObjSend.sendqFlush (oneStore enc) d).2 = [(hashCompute enc, some enc)] := by
  have hget := storeGet_oneStore enc
  rw [List.replicate_succ] at hitems
  rcases ObjSend.sendqFlush_send hitems hget hfits with ⟨d', hd', hcredit, hflush⟩
  have hdone : ObjSend.sendqFlush (oneStore enc) d' = (d', []) := by
    cases n with
    | zero => exact ObjSend.sendqFlush_empty hd'
    | succ n =>
      rw [List.replicate_succ] at hd'
      exact ObjSend.sendqFlush_stop hd' hget (by omega)
  rw [hflush, hdone]
  exact ⟨hd', hcredit, rfl⟩

-- A grant reaches the device: it sends what fits.
theorem Waiting.devCredit {body : Bytes} {v : Nat}
    (h : Waiting enc x n peerCredit granted (.credit body :: h2d) d2h)
    (hamt : creditAmount body = some v) (hfits : peerCredit + v < 2 ^ 64) {n' : Nat} (left : Nat)
    {out : SendLog}
    (hflush : ∀ d : ObjSend, d.sendq.items = List.replicate n (hashCompute enc) →
      d.peerCredit = peerCredit + v →
      (ObjSend.sendqFlush (oneStore enc) d).1.sendq.items = List.replicate n' (hashCompute enc)
        ∧ (ObjSend.sendqFlush (oneStore enc) d).1.peerCredit = left
        ∧ (ObjSend.sendqFlush (oneStore enc) d).2 = out)
    : Waiting enc (x.next (.devRecv .ok)) n' left granted h2d (d2h ++ sentMsgs out) := by
  have hraised : (x.dev.send.peerCredit + v) % 2 ^ 64 = peerCredit + v := by
    rw [h.credit, Nat.mod_eq_of_lt hfits]
  rcases hflush { x.dev.send with peerCredit := (x.dev.send.peerCredit + v) % 2 ^ 64 } h.items
    hraised with ⟨hitems, hcredit, hout⟩
  have hcore : x.dev.send.coreCredit x.dev.store body = ObjSend.sendqFlush (oneStore enc)
      { x.dev.send with peerCredit := (x.dev.send.peerCredit + v) % 2 ^ 64 } := by
    unfold ObjSend.coreCredit
    rw [hamt, h.devStore]
  have hstep : x.next (.devRecv .ok)
      = { x with
          dev := { x.dev with send := (x.dev.send.coreCredit x.dev.store body).1 }
          h2d
          d2h := x.d2h ++ sentMsgs (x.dev.send.coreCredit x.dev.store body).2 } := by
    simp only [next, h.h2d, DevSide.recv]
  rw [hstep, hcore, hout, h.d2h]
  exact ⟨hitems, hcredit, h.granted, rfl, rfl, h.idle, h.devStore, h.hostStore⟩

theorem Waiting.devWant {body : Option Bytes}
    (h : Waiting enc x 0 peerCredit granted (.want body :: h2d) d2h)
    (hwant : handleStateWant (oneStore enc) body = List.replicate (n + 1) (hashCompute enc))
    (hlen : n < sendqCap) (hfits : enc.length ≤ peerCredit)
    (hstop : 0 < n → peerCredit - enc.length < enc.length)
    : Waiting enc (x.next (.devRecv .ok)) n (peerCredit - enc.length) granted h2d
        (d2h ++ [.other, .obj enc]) := by
  rcases ObjSend.foldl_sendqPush (List.replicate (n + 1) (hashCompute enc)) x.dev.send with
    ⟨hpush, _, hsame⟩
  rw [h.items, List.replicate_zero, List.nil_append, List.length_nil,
    List.take_of_length_le (by rw [List.length_replicate]; omega)] at hpush
  rw [h.credit] at hsame
  rcases sendqFlush_one hpush (by omega) (by rw [hsame]; exact hstop) with ⟨hitems, hcredit, hout⟩
  have hcore : x.dev.send.stateWant x.dev.store body = ObjSend.sendqFlush (oneStore enc)
      ((List.replicate (n + 1) (hashCompute enc)).foldl ObjSend.sendqPush x.dev.send) := by
    unfold ObjSend.stateWant
    rw [h.devStore, hwant]
  have hstep : x.next (.devRecv .ok)
      = { x with
          dev := { x.dev with send := (x.dev.send.stateWant x.dev.store body).1 }
          h2d
          d2h := x.d2h ++ .other :: sentMsgs (x.dev.send.stateWant x.dev.store body).2 } := by
    simp only [next, h.h2d, DevSide.recv]
  rw [hstep, hcore, hout, h.d2h]
  refine ⟨hitems, ?_, h.granted, rfl, rfl, h.idle, h.devStore, h.hostStore⟩
  rw [hcredit, hsame]

theorem Waiting.devHead (h : Waiting enc x (n + 1) peerCredit granted h2d d2h)
    : x.devHead = some enc := by
  unfold Xfer.devHead
  rw [h.items, h.devStore]
  exact storeGet_oneStore enc

theorem Waiting.pumps (h : Waiting enc x n peerCredit granted h2d d2h)
    : x.host.pumps = some x.host := by
  unfold HostSide.pumps
  rw [h.idle]

theorem Waiting.hostObj (h : Waiting enc x n peerCredit granted h2d (.obj enc :: d2h))
    : Waiting enc (x.next (.hostPump .ok)) n peerCredit (consumeObj granted enc.length).1
        (h2d ++ (consumeObj granted enc.length).2) d2h := by
  have hstep : x.next (.hostPump .ok)
      = { x with
          host := { x.host with
            store := handleObj x.host.store enc .ok
            granted := (consumeObj x.host.granted enc.length).1 }
          d2h
          h2d := x.h2d ++ (consumeObj x.host.granted enc.length).2 } := by
    simp only [next, h.d2h, h.pumps, HostSide.pumpOne]
  rw [hstep, h.granted, h.h2d]
  refine ⟨h.items, h.credit, rfl, rfl, rfl, h.idle, h.devStore, ?_⟩
  intro hash e hget
  rcases storeGet_handleObj hget with hold | hnew
  . exact h.hostStore hash e hold
  . exact hnew

theorem Waiting.hostHeld (h : Waiting enc x n peerCredit granted h2d (.obj enc :: d2h))
    (hkind : (objKind enc).isSome) (hnew : storeHave x.host.store (hashCompute enc) = false)
    : storeGet (x.next (.hostPump .ok)).host.store (hashCompute enc) = some enc := by
  have hstore : (x.next (.hostPump .ok)).host.store = handleObj x.host.store enc .ok := by
    simp only [next, h.d2h, h.pumps, HostSide.pumpOne]
  rw [hstore]
  unfold storeGet
  rcases objFile_handleObj x.host.store enc .ok (hashCompute enc) with ⟨_, _, _, hfile⟩ | ⟨hnot, _⟩
  . rw [hfile]
    rfl
  . exact absurd ⟨hnew, ⟨hkind, rfl⟩, rfl⟩ hnot

-- Any other message only leaves the link.
theorem Waiting.hostSkip {m : ObjMsg} (h : Waiting enc x n peerCredit granted h2d (m :: d2h))
    (hskip : ∀ c : HostSide, ∃ v, c.pumpOne .ok m = ({ c with peerCredit := v }, []))
    : Waiting enc (x.next (.hostPump .ok)) n peerCredit granted h2d d2h
        ∧ (x.next (.hostPump .ok)).host.store = x.host.store := by
  rcases hskip x.host with ⟨v, hpump⟩
  have hstep : x.next (.hostPump .ok) = { x with host := { x.host with peerCredit := v }, d2h } := by
    simp only [next, h.d2h, h.pumps, hpump, List.append_nil]
  rw [hstep]
  exact ⟨⟨h.items, h.credit, h.granted, h.h2d, rfl, h.idle, h.devStore, h.hostStore⟩, rfl⟩

theorem store_hostRequest (x : Xfer) (body : Option Bytes)
    : (x.next (.hostRequest body)).host.store = x.host.store := by
  unfold next
  dsimp only
  split <;> rfl

theorem host_devRecv (x : Xfer) (io : WriteIo) : (x.next (.devRecv io)).host = x.host := by
  unfold next
  dsimp only
  split <;> rfl

theorem Waiting.hostRequest (h : Waiting enc x n peerCredit granted h2d d2h) (body : Option Bytes)
    : Waiting enc (x.next (.hostRequest body)) n peerCredit granted (h2d ++ [.want body]) d2h := by
  have hstep : x.next (.hostRequest body) = { x with h2d := x.h2d ++ [.want body] } := by
    simp only [next, h.idle, if_true]
  rw [hstep, h.h2d]
  exact ⟨h.items, h.credit, h.granted, rfl, h.d2h, h.idle, h.devStore, h.hostStore⟩

theorem waiting_hello (hq : Ring Hash clientSendqCap) (dq : Ring Hash sendqCap)
    : Waiting enc (hello hq dq 0 0 bareStore (oneStore enc)) 0 0 creditGrant
        [.credit (creditBody creditGrant)] [.credit (creditBody creditGrant)] := by
  refine ⟨Ring.items_clear _, rfl, rfl, rfl, rfl, rfl, rfl, ?_⟩
  intro h e hget
  cases hget

-- A step that keeps the device waiting is one that keeps the stores within the limit.
theorem Waiting.step {op : XferOp} {x₀ : Xfer} {limit : Nat} (hlimit : enc.length ≤ limit)
    (hrun : Run next (KeepsWithin limit) x₀ x)
    (h : Waiting enc (x.next op) n peerCredit granted h2d d2h)
    : Run next (KeepsWithin limit) x₀ (x.next op) :=
  .step op hrun (h.within hlimit)

-- The hello grants reach both sides.
theorem creditGrant_skips (c : HostSide) : ∃ v,
    c.pumpOne .ok (.credit (creditBody creditGrant)) = ({ c with peerCredit := v }, []) := by
  simp only [HostSide.pumpOne, creditAmount_creditBody (show creditGrant < 2 ^ 64 by decide)]
  exact ⟨_, rfl⟩

theorem waiting_granted (hq : Ring Hash clientSendqCap) (dq : Ring Hash sendqCap)
    : Waiting enc ((hello hq dq 0 0 bareStore (oneStore enc)).next (.devRecv .ok)) 0
        (0 + creditGrant) creditGrant [] [.credit (creditBody creditGrant)] := by
  have hamt := creditAmount_creditBody (show creditGrant < 2 ^ 64 by decide)
  exact (waiting_hello hq dq).devCredit hamt (by decide) (0 + creditGrant) (fun d hitems hc => by
    rw [ObjSend.sendqFlush_empty hitems]
    exact ⟨hitems, hc, rfl⟩)

/--
The host asks for an object of at most half a grant and gets it.
-/
theorem sent_run (hlen : enc.length ≤ creditGrant / 2) (hkind : (objKind enc).isSome)
    (hq : Ring Hash clientSendqCap) (dq : Ring Hash sendqCap)
    : ∃ x, Run next (KeepsWithin (creditGrant / 2)) (hello hq dq 0 0 bareStore (oneStore enc)) x
        ∧ storeGet x.host.store (hashCompute enc) = some enc := by
  have h1 := @waiting_granted enc hq dq
  have r1 := h1.step hlen .start
  have h2 := h1.hostRequest (some (wantRequest (List.replicate 1 (hashCompute enc))))
  have r2 := h2.step hlen r1
  have h3 := h2.devWant (handleStateWant_oneStore enc (by omega)) (by decide) (by omega)
    (fun hpos => absurd hpos (Nat.lt_irrefl 0))
  have r3 := h3.step hlen r2
  obtain ⟨h4, hstore4⟩ := h3.hostSkip creditGrant_skips
  have r4 := h4.step hlen r3
  obtain ⟨h5, hstore5⟩ := h4.hostSkip (fun c => ⟨c.peerCredit, rfl⟩)
  have r5 := h5.step hlen r4
  have hbare : storeHave bareStore (hashCompute enc) = false := rfl
  refine ⟨_, h5.hostObj.step hlen r5, h5.hostHeld hkind ?_⟩
  rw [hstore5, hstore4, host_devRecv, store_hostRequest, host_devRecv]
  exact hbare

/--
The host asks three times for an object of 11 MiB. Two of them leave; then nothing is on the links,
10 MiB of credit are left on both sides and that is more than half a grant.
-/
theorem stuck_run (hlen : enc.length = 11 * 2 ^ 20) (hq : Ring Hash clientSendqCap)
    (dq : Ring Hash sendqCap)
    : ∃ x, Run next (KeepsWithin objMaxPayload) (hello hq dq 0 0 bareStore (oneStore enc)) x
        ∧ Waiting enc x 1 (10 * 2 ^ 20) (10 * 2 ^ 20) [] [] := by
  have hgrant : creditGrant = 16 * 2 ^ 20 := rfl
  have hcap : enc.length ≤ objMaxPayload := by
    rw [hlen]
    decide
  have hamt := creditAmount_creditBody (show creditGrant < 2 ^ 64 by decide)
  have hfirst : consumeObj creditGrant enc.length
      = (21 * 2 ^ 20, [.credit (creditBody creditGrant)]) := by
    rw [hlen]
    decide
  have hsecond : consumeObj (21 * 2 ^ 20) enc.length = (10 * 2 ^ 20, []) := by
    rw [hlen]
    decide
  have h1 := @waiting_granted enc hq dq
  have r1 := h1.step hcap .start
  have h2 := h1.hostRequest (some (wantRequest (List.replicate 3 (hashCompute enc))))
  have r2 := h2.step hcap r1
  have h3 := h2.devWant (handleStateWant_oneStore enc (by omega)) (by decide) (by omega)
    (fun _ => by omega)
  have r3 := h3.step hcap r2
  have h4 := (h3.hostSkip creditGrant_skips).1
  have r4 := h4.step hcap r3
  have h5 := (h4.hostSkip (fun c => ⟨c.peerCredit, rfl⟩)).1
  have r5 := h5.step hcap r4
  have h6 := h5.hostObj
  have r6 := h6.step hcap r5
  rw [hfirst] at h6
  have h7 := h6.devCredit hamt (by omega) (10 * 2 ^ 20) (fun d hitems hc => by
    have hone := sendqFlush_one hitems (by omega) (fun _ => by omega)
    have hleft : d.peerCredit - enc.length = 10 * 2 ^ 20 := by omega
    rw [hleft] at hone
    exact hone)
  have r7 := h7.step hcap r6
  have h8 := h7.hostObj
  have r8 := h8.step hcap r7
  rw [hsecond] at h8
  exact ⟨_, r8, h8⟩

def bigBlob : Bytes :=
  objEncodeBlob [] (List.replicate 11534325 0)

theorem length_bigBlob : bigBlob.length = 11 * 2 ^ 20 := by
  have hhead : (putHead 2 11534325).length = 5 := by decide
  unfold bigBlob objEncodeBlob
  simp only [cborMap, cborUint, cborText, cborBytes, List.length_append, List.length_replicate,
    hhead]
  decide

theorem clientSendqCap_pos : 0 < clientSendqCap := by decide

def clientRing : Ring Hash clientSendqCap :=
  Ring.empty (fun _ => hashCompute []) clientSendqCap_pos

def deviceRing : Ring Hash sendqCap :=
  Ring.empty (fun _ => hashCompute []) sendqCap_pos

def oneBlob : Bytes :=
  objEncodeBlob [] [7]

theorem flowing_oneBlob
    : ∃ x, Run next (KeepsWithin (creditGrant / 2))
          (hello clientRing deviceRing 0 0 bareStore (oneStore oneBlob)) x
        ∧ storeGet x.host.store (hashCompute oneBlob) = some oneBlob ∧ Flowing x := by
  have hlen : oneBlob.length ≤ creditGrant / 2 := by decide
  obtain ⟨x, hrun, hget⟩ := sent_run hlen (by decide) clientRing deviceRing
  have hflowing := (flowing_run clientRing deviceRing 0 0 bareStore (oneStore oneBlob)).2
  exact ⟨x, hrun, hget, hflowing ((waiting_hello clientRing deviceRing).within hlen) x hrun⟩

-- Objects of up to 16 MiB: the device has one to send, no credit for it and nothing on the way.
theorem not_flowing_big
    : ¬ (StoresWithin objMaxPayload (hello clientRing deviceRing 0 0 bareStore (oneStore bigBlob)) →
      ∀ x, Run next (KeepsWithin objMaxPayload)
        (hello clientRing deviceRing 0 0 bareStore (oneStore bigBlob)) x → Flowing x) := by
  intro h
  have hcap : bigBlob.length ≤ objMaxPayload := by
    rw [length_bigBlob]
    decide
  rcases stuck_run length_bigBlob clientRing deviceRing with ⟨x, hrun, hwait⟩
  have hserved := (h ((waiting_hello clientRing deviceRing).within hcap) x hrun).devServed
  have hhead := hwait.devHead
  have hlen := length_bigBlob
  rcases hserved bigBlob hhead hcap with hfits | ⟨hgrants, _⟩
  . rw [hwait.credit] at hfits
    omega
  . rw [hwait.h2d, hwait.d2h] at hgrants
    exact absurd hgrants (Nat.lt_irrefl 0)

end Stuck

end Xfer

end Harp
