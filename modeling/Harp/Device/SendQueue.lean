import Harp.Host.FetchClosure
import Harp.Host.PushLemmas
import Harp.Lib.Ring
import Harp.Lib.Run

/-!
This module contains the flow control of the objects the device sends: the credit the host grants,
the ring of objects that wait for it and `sendq_flush` of `device/session.c`.

The link takes what is sent. `sendqFlush` returns what became of every entry that left the queue, in
order: sent with its bytes, or dropped because the store does not have it any more.
-/

namespace Harp

open Rings Runs

def sendqCap : Nat := 1024

theorem sendqCap_pos : 0 < sendqCap := by decide

structure ObjSend where
  peerCredit : Nat
  sendq : Ring Hash sendqCap
  objDrops : Nat

abbrev SendLog := List (Hash × Option Bytes)

namespace ObjSend

def sendqPush (d : ObjSend) (h : Hash) : ObjSend :=
  if d.sendq.count = sendqCap then
    { d with objDrops := d.objDrops + 1 }
  else
    { d with sendq := d.sendq.push h }

def flushLoop (s : Store) : Nat → ObjSend → ObjSend × SendLog
  | 0, d => (d, [])
  | n + 1, d =>
    if d.sendq.count = 0 then
      (d, [])
    else
      let h := d.sendq.buf d.sendq.head
      match storeGet s h with
      | none =>
        let rest := flushLoop s n { d with sendq := d.sendq.pop, objDrops := d.objDrops + 1 }
        (rest.1, (h, none) :: rest.2)
      | some enc =>
        -- the head waits for the next grant
        if enc.length > d.peerCredit then
          (d, [])
        else
          let rest := flushLoop s n
            { d with peerCredit := d.peerCredit - enc.length, sendq := d.sendq.pop }
          (rest.1, (h, some enc) :: rest.2)

-- Every turn of the loop takes an entry off the queue.
def sendqFlush (s : Store) (d : ObjSend) : ObjSend × SendLog :=
  flushLoop s d.sendq.count d

end ObjSend

def creditFields : Dec Nat := do
  let n ← cdecMap
  if n = 0 then
    Dec.fail
  else
    let key ← cdecUint
    if key ≠ 0 then
      Dec.fail
    else
      cdecUint

-- What the body of a `core.credit` grants.
def creditAmount (body : Bytes) : Option Nat :=
  (creditFields (Cdec.init body)).1

def creditBody (amt : Nat) : Bytes :=
  cborMap 1 ++ cborUint 0 ++ cborUint amt

def ObjSend.coreCredit (s : Store) (d : ObjSend) (body : Bytes) : ObjSend × SendLog :=
  match creditAmount body with
  | none => (d, [])
  | some v => ObjSend.sendqFlush s { d with peerCredit := (d.peerCredit + v) % 2 ^ 64 }

def ObjSend.stateWant (s : Store) (d : ObjSend) (body : Option Bytes) : ObjSend × SendLog :=
  ObjSend.sendqFlush s ((handleStateWant s body).foldl ObjSend.sendqPush d)

theorem creditAmount_creditBody {amt : Nat} (h : amt < 2 ^ 64)
    : creditAmount (creditBody amt) = some amt := by
  have hmap := cdecMap_cborMap (cborUint 0 ++ cborUint amt) (show 1 < 2 ^ 63 by omega) (by
    have h0 := length_putHead_pos 0 0
    have h1 := length_putHead_pos 0 amt
    simp only [cborUint, List.length_append]
    omega)
  have hkey := cdecUint_cborUint (cborUint amt) (show 0 < 2 ^ 64 by omega)
  have hamt := cdecUint_cborUint [] h
  rw [List.append_nil] at hamt
  unfold creditAmount creditFields creditBody Cdec.init
  rw [Dec.bind_eq, List.append_assoc, Dec.bind_of_some hmap, if_neg (by omega), Dec.bind_eq,
    Dec.bind_of_some hkey, if_neg (by omega), hamt]

theorem wantHashes_held {s : Store} (hs : List Hash) (queue : List Hash)
    (hlen : queue.length + hs.length ≤ 256)
    (hheld : ∀ h ∈ hs, storeHave s h = true ∧ h.b.head? = some 0x01)
    : wantHashes s hs.length ⟨hs.flatMap (fun h => cborBytes h.b), false⟩ queue = queue ++ hs := by
  induction hs generalizing queue with
  | nil => rw [List.length_nil, wantHashes, List.append_nil]
  | cons h hs ih =>
    have hfirst := hheld h List.mem_cons_self
    rw [List.length_cons] at hlen
    rw [List.length_cons, List.flatMap_cons, wantHashes, hashRead_cborBytes, if_pos hfirst.2]
    dsimp only
    rw [if_pos ⟨by omega, hfirst.1⟩, ih (queue ++ [h])]
    . rw [List.append_assoc, List.singleton_append]
    . rw [List.length_append, List.length_singleton]
      omega
    . intro h' hmem
      exact hheld h' (List.mem_cons_of_mem h hmem)

-- Everything that is asked for and held is queued, up to the 256 entries of a request.
theorem handleStateWant_held {s : Store} {hs : List Hash} (hlen : hs.length ≤ 256)
    (hheld : ∀ h ∈ hs, storeHave s h = true ∧ h.b.head? = some 0x01)
    : handleStateWant s (some (wantRequest hs)) = hs := by
  have hbytes : hs.length ≤ (hs.flatMap (fun h => cborBytes h.b)).length := by
    apply length_le_flatMap
    intro h
    simp [cborBytes, h.len]
  unfold handleStateWant wantRequest
  dsimp only
  rw [firstArray_eq _ (by omega) hbytes]
  dsimp only
  rw [wantHashes_held hs [] (by rw [List.length_nil]; omega) hheld, List.nil_append]

namespace SendLog

def bytes (log : SendLog) : Nat :=
  (log.map (fun e => (e.2.getD []).length)).sum

def dropped (log : SendLog) : Nat :=
  log.countP (fun e => e.2.isNone)

theorem bytes_append (a b : SendLog) : bytes (a ++ b) = bytes a + bytes b := by
  simp [bytes]

theorem dropped_append (a b : SendLog) : dropped (a ++ b) = dropped a + dropped b := by
  simp [dropped]

end SendLog

namespace ObjSend

variable {s : Store} {d : ObjSend}

-- What the store still has of the queue.
def need (s : Store) (q : List Hash) : Nat :=
  (q.map (fun h => ((storeGet s h).getD []).length)).sum

/-- What a flush does: entries leave from the front, and it stops at a head that does not fit. -/
structure Flushed (s : Store) (d : ObjSend) (out : ObjSend × SendLog) : Prop where
  fifo : d.sendq.items = out.2.map Prod.fst ++ out.1.sendq.items
  paid : out.1.peerCredit + SendLog.bytes out.2 = d.peerCredit
  counted : out.1.objDrops = d.objDrops + SendLog.dropped out.2
  left : need s out.1.sendq.items + SendLog.bytes out.2 = need s d.sendq.items
  blocked : ∀ h q, out.1.sendq.items = h :: q →
    ∃ enc, storeGet s h = some enc ∧ out.1.peerCredit < enc.length

theorem flushed_nil (hempty : d.sendq.count = 0) : Flushed s d (d, []) := by
  have hnil := d.sendq.items_eq_nil.mpr hempty
  constructor
  . rfl
  . rfl
  . rfl
  . rfl
  . intro h q hitems
    rw [hnil] at hitems
    cases hitems

theorem flushed_flushLoop (n : Nat) (d : ObjSend) (hn : d.sendq.count ≤ n)
    : Flushed s d (flushLoop s n d) := by
  induction n generalizing d with
  | zero => exact flushed_nil (by omega)
  | succ n ih =>
    unfold flushLoop
    split
    next hempty => exact flushed_nil hempty
    next hsome =>
      have hitems := Ring.items_pop hsome
      have hpop : d.sendq.pop.count ≤ n := by
        rw [← Ring.length_items] at hn ⊢
        rw [hitems, List.length_cons] at hn
        omega
      dsimp only
      split
      next hget =>
        have hrest := ih { d with sendq := d.sendq.pop, objDrops := d.objDrops + 1 } hpop
        constructor
        . rw [hitems, List.map_cons, List.cons_append, ← hrest.fifo]
        . have hpaid := hrest.paid
          simp only [SendLog.bytes, List.map_cons, List.sum_cons, Option.getD_none,
            List.length_nil, Nat.zero_add] at hpaid ⊢
          exact hpaid
        . have hcounted := hrest.counted
          simp only [SendLog.dropped, List.countP_cons, Option.isNone_none, if_true]
            at hcounted ⊢
          omega
        . have hleft := hrest.left
          simp only [SendLog.bytes, List.map_cons, List.sum_cons, Option.getD_none,
            List.length_nil, Nat.zero_add, need, hitems, hget] at hleft ⊢
          exact hleft
        . exact hrest.blocked
      next enc hget =>
        split
        next hlong =>
          constructor
          . rfl
          . rfl
          . rfl
          . rfl
          . intro h q hq
            rw [hitems] at hq
            cases hq
            exact ⟨enc, hget, hlong⟩
        next hfits =>
          have hrest := ih
            { d with peerCredit := d.peerCredit - enc.length, sendq := d.sendq.pop } hpop
          constructor
          . rw [hitems, List.map_cons, List.cons_append, ← hrest.fifo]
          . have hpaid := hrest.paid
            simp only [SendLog.bytes, List.map_cons, List.sum_cons, Option.getD_some] at hpaid ⊢
            omega
          . have hcounted := hrest.counted
            simp only [SendLog.dropped, List.countP_cons, Option.isNone_some] at hcounted ⊢
            exact hcounted
          . have hleft := hrest.left
            simp only [SendLog.bytes, List.map_cons, List.sum_cons, Option.getD_some, need, hitems,
              hget] at hleft ⊢
            omega
          . exact hrest.blocked

theorem flushed_sendqFlush (s : Store) (d : ObjSend) : Flushed s d (sendqFlush s d) :=
  flushed_flushLoop _ d (Nat.le_refl _)

theorem sendqFlush_send {h : Hash} {q : List Hash} {enc : Bytes} (hitems : d.sendq.items = h :: q)
    (hget : storeGet s h = some enc) (hfits : enc.length ≤ d.peerCredit)
    : ∃ d' : ObjSend, d'.sendq.items = q ∧ d'.peerCredit = d.peerCredit - enc.length
        ∧ sendqFlush s d = ((sendqFlush s d').1, (h, some enc) :: (sendqFlush s d').2) := by
  have hcount : d.sendq.count = q.length + 1 := by
    rw [← Ring.length_items, hitems, List.length_cons]
  have hpop := Ring.items_pop (show d.sendq.count ≠ 0 by omega)
  rw [hitems, List.cons.injEq] at hpop
  have hpopcount : d.sendq.pop.count = q.length := by
    rw [← Ring.length_items, ← hpop.2]
  refine ⟨{ d with peerCredit := d.peerCredit - enc.length, sendq := d.sendq.pop }, hpop.2.symm,
    rfl, ?_⟩
  unfold sendqFlush
  dsimp only
  rw [hcount, hpopcount, flushLoop, if_neg (by omega), ← hpop.1]
  simp only [hget]
  rw [if_neg (by omega)]

theorem sendqFlush_stop {h : Hash} {q : List Hash} {enc : Bytes} (hitems : d.sendq.items = h :: q)
    (hget : storeGet s h = some enc) (hlong : d.peerCredit < enc.length)
    : sendqFlush s d = (d, []) := by
  have hcount : d.sendq.count = q.length + 1 := by
    rw [← Ring.length_items, hitems, List.length_cons]
  have hpop := Ring.items_pop (show d.sendq.count ≠ 0 by omega)
  rw [hitems, List.cons.injEq] at hpop
  unfold sendqFlush
  rw [hcount, flushLoop, if_neg (by omega), ← hpop.1]
  simp only [hget]
  rw [if_pos hlong]

theorem sendqFlush_empty (hitems : d.sendq.items = []) : sendqFlush s d = (d, []) := by
  rw [Ring.items_eq_nil] at hitems
  unfold sendqFlush
  rw [hitems]
  rfl

theorem sendqPush_items (d : ObjSend) (h : Hash)
    : (d.sendqPush h).sendq.items
        = d.sendq.items ++ (if d.sendq.items.length < sendqCap then [h] else []) := by
  have hle := d.sendq.count_le
  unfold sendqPush
  rw [Ring.length_items]
  split
  next hfull =>
    rw [if_neg (by omega), List.append_nil]
  next hroom =>
    rw [if_pos (by omega), Ring.items_push hroom]

theorem foldl_sendqPush (hs : List Hash) (d : ObjSend)
    : (hs.foldl sendqPush d).sendq.items
          = d.sendq.items ++ hs.take (sendqCap - d.sendq.items.length)
        ∧ (hs.foldl sendqPush d).objDrops
          = d.objDrops + (hs.length - (sendqCap - d.sendq.items.length))
        ∧ (hs.foldl sendqPush d).peerCredit = d.peerCredit := by
  induction hs generalizing d with
  | nil => simp
  | cons h hs ih =>
    have hle := d.sendq.count_le
    have hitems := sendqPush_items d h
    rcases ih (d.sendqPush h) with ⟨hi, hd, hc⟩
    rw [List.foldl_cons]
    by_cases hroom : d.sendq.items.length < sendqCap
    . have hstep : d.sendqPush h = { d with sendq := d.sendq.push h } := by
        rw [Ring.length_items] at hroom
        unfold sendqPush
        rw [if_neg (by omega)]
      rw [if_pos hroom] at hitems
      have hsub : sendqCap - d.sendq.items.length
          = sendqCap - (d.sendq.items.length + 1) + 1 := by omega
      refine ⟨?_, ?_, ?_⟩
      . rw [hi, hitems, List.length_append, List.length_singleton, hsub, List.take_succ_cons,
          List.append_assoc, List.singleton_append]
      . rw [hd, hitems, hstep, List.length_append, List.length_singleton, List.length_cons]
        dsimp only
        omega
      . rw [hc, hstep]
    . have hstep : d.sendqPush h = { d with objDrops := d.objDrops + 1 } := by
        rw [Ring.length_items] at hroom
        unfold sendqPush
        rw [if_pos (by omega)]
      have hzero : sendqCap - d.sendq.items.length = 0 := by omega
      rw [if_neg hroom, List.append_nil] at hitems
      refine ⟨?_, ?_, ?_⟩
      . rw [hi, hitems, hzero, List.take_zero, List.take_zero]
      . rw [hd, hitems, hstep, hzero, List.length_cons]
        dsimp only
        omega
      . rw [hc, hstep]

end ObjSend

/--
A session: what the host asks for and grants, each with what the store holds at that moment. The log,
the credit granted so far, and which entries the queue took or had no room for are kept beside the
state.
-/
structure FlowState where
  d : ObjSend
  log : SendLog
  credited : Nat
  accepted : List Hash
  refused : Nat

inductive FlowOp where
  | credit (s : Store) (body : Bytes)
  | want (s : Store) (body : Option Bytes)

namespace FlowState

def next (f : FlowState) : FlowOp → FlowState
  | .credit s body =>
    let out := f.d.coreCredit s body
    { f with
      d := out.1
      log := f.log ++ out.2
      credited := f.credited + (creditAmount body).getD 0 }
  | .want s body =>
    let out := f.d.stateWant s body
    let hs := handleStateWant s body
    let room := sendqCap - f.d.sendq.items.length
    { f with
      d := out.1
      log := f.log ++ out.2
      accepted := f.accepted ++ hs.take room
      refused := f.refused + (hs.length - room) }

-- The credit and the queue of a session that has just said hello.
def hello (sendq : Ring Hash sendqCap) (objDrops : Nat) : FlowState where
  d := ⟨0, sendq.clear, objDrops⟩
  log := []
  credited := 0
  accepted := []
  refused := objDrops

-- The grant fits into the counter.
def Fits (f : FlowState) : FlowOp → Prop
  | .credit _ body => f.d.peerCredit + (creditAmount body).getD 0 < 2 ^ 64
  | .want _ _ => True

/-- What holds of the queue and the credit whatever is granted and asked for. -/
structure Accounted (f : FlowState) : Prop where
  budget : f.log.bytes + f.d.peerCredit ≤ f.credited
  fifo : f.accepted = f.log.map Prod.fst ++ f.d.sendq.items
  counted : f.d.objDrops = f.refused + f.log.dropped

def granted (bodies : List Bytes) : Nat :=
  (bodies.map (fun body => (creditAmount body).getD 0)).sum

-- Further credit of at least `enough` bytes, granted within `guard`, empties the queue.
def Drains (guard : FlowState → FlowOp → Prop) (s : Store) (f : FlowState) (enough : Nat) : Prop :=
  ∀ bodies : List Bytes, Run.Guarded next guard f (bodies.map (FlowOp.credit s)) →
    enough ≤ granted bodies → ((bodies.map (FlowOp.credit s)).foldl next f).d.sendq.items = []

/--
The flow control of a state: the budget, the order and the count, and that the queue is empty once
the credit there is and what is granted on top of it cover the objects that wait.
-/
structure Flows (f : FlowState) : Prop extends Accounted f where
  drains : ∀ s, Drains Fits s f (max 1 (ObjSend.need s f.d.sendq.items - f.d.peerCredit))

section Accounts

variable {f : FlowState}

theorem accounted_hello (sendq : Ring Hash sendqCap) (objDrops : Nat)
    : Accounted (hello sendq objDrops) := by
  constructor
  . simp [hello, SendLog.bytes]
  . simp [hello, Ring.items_clear]
  . simp [hello, SendLog.dropped]

theorem next_credit_none {body : Bytes} (s : Store) (h : creditAmount body = none)
    : f.next (.credit s body) = f := by
  unfold next ObjSend.coreCredit
  simp only [h, Option.getD_none, Nat.add_zero, List.append_nil]

-- A grant that is understood.
def raised (d : ObjSend) (v : Nat) : ObjSend :=
  { d with peerCredit := (d.peerCredit + v) % 2 ^ 64 }

theorem next_credit_some {body : Bytes} {v : Nat} (s : Store) (h : creditAmount body = some v)
    : f.next (.credit s body)
        = { f with
            d := (ObjSend.sendqFlush s (raised f.d v)).1
            log := f.log ++ (ObjSend.sendqFlush s (raised f.d v)).2
            credited := f.credited + v } := by
  unfold next ObjSend.coreCredit
  simp only [h, Option.getD_some, raised]

theorem accounted_credit (h : Accounted f) (s : Store) (body : Bytes)
    : Accounted (f.next (.credit s body)) := by
  cases hamt : creditAmount body with
  | none =>
    rw [next_credit_none s hamt]
    exact h
  | some v =>
    have hflush := ObjSend.flushed_sendqFlush s (raised f.d v)
    rw [next_credit_some s hamt]
    constructor
    . have hpaid := hflush.paid
      have hbudget := h.budget
      have hwrap := Nat.mod_le (f.d.peerCredit + v) (2 ^ 64)
      dsimp only [raised] at hpaid ⊢
      rw [SendLog.bytes_append]
      omega
    . have hfifo := hflush.fifo
      dsimp only [raised] at hfifo ⊢
      rw [h.fifo, hfifo, List.map_append, List.append_assoc]
    . have hcounted := hflush.counted
      have hold := h.counted
      dsimp only [raised] at hcounted ⊢
      rw [SendLog.dropped_append]
      omega

theorem accounted_want (h : Accounted f) (s : Store) (body : Option Bytes)
    : Accounted (f.next (.want s body)) := by
  have hflush := ObjSend.flushed_sendqFlush s
    ((handleStateWant s body).foldl ObjSend.sendqPush f.d)
  rcases ObjSend.foldl_sendqPush (handleStateWant s body) f.d with ⟨hitems, hdrops, hcredit⟩
  unfold next ObjSend.stateWant
  constructor
  . have hpaid := hflush.paid
    have hbudget := h.budget
    dsimp only
    rw [SendLog.bytes_append]
    omega
  . have hfifo := hflush.fifo
    dsimp only
    rw [h.fifo, List.append_assoc, ← hitems, hfifo, List.map_append, List.append_assoc]
  . have hcounted := hflush.counted
    have hold := h.counted
    dsimp only
    rw [SendLog.dropped_append]
    omega

theorem accounted_next (h : Accounted f) (op : FlowOp) : Accounted (f.next op) := by
  cases op with
  | credit s body => exact accounted_credit h s body
  | want s body => exact accounted_want h s body

end Accounts

section Drain

variable {f : FlowState} {s : Store}

-- A flush has stopped at this state.
def Stopped (s : Store) (f : FlowState) : Prop :=
  ∀ h q, f.d.sendq.items = h :: q → ∃ enc, storeGet s h = some enc ∧ f.d.peerCredit < enc.length

def amount (body : Bytes) : Nat :=
  (creditAmount body).getD 0

theorem credit_balance (body : Bytes) (hfits : Fits f (.credit s body))
    : ObjSend.need s (f.next (.credit s body)).d.sendq.items + (f.d.peerCredit + amount body)
        = ObjSend.need s f.d.sendq.items + (f.next (.credit s body)).d.peerCredit := by
  have hfits : f.d.peerCredit + (creditAmount body).getD 0 < 2 ^ 64 := hfits
  cases hamt : creditAmount body with
  | none =>
    rw [next_credit_none s hamt]
    simp [amount, hamt]
  | some v =>
    have hflush := ObjSend.flushed_sendqFlush s (raised f.d v)
    have hpaid := hflush.paid
    have hleft := hflush.left
    rw [hamt, Option.getD_some] at hfits
    have hraised : (raised f.d v).peerCredit = f.d.peerCredit + v := Nat.mod_eq_of_lt hfits
    have hsame : (raised f.d v).sendq = f.d.sendq := rfl
    rw [hraised] at hpaid
    rw [hsame] at hleft
    rw [next_credit_some s hamt, amount, hamt, Option.getD_some]
    dsimp only
    omega

theorem credit_stopped (body : Bytes) (h : Stopped s f ∨ 0 < amount body)
    : Stopped s (f.next (.credit s body)) := by
  unfold amount at h
  cases hamt : creditAmount body with
  | none =>
    rw [hamt] at h
    rw [next_credit_none s hamt]
    cases h with
    | inl h => exact h
    | inr h => exact absurd h (Nat.lt_irrefl 0)
  | some v =>
    rw [next_credit_some s hamt]
    exact (ObjSend.flushed_sendqFlush s (raised f.d v)).blocked

-- What is queued and what is granted shrink together, grant by grant.
theorem credits_balance (bodies : List Bytes)
    (hfits : Run.Guarded next Fits f (bodies.map (FlowOp.credit s)))
    (hstart : Stopped s f ∨ 0 < (bodies.map amount).sum)
    : ObjSend.need s ((bodies.map (FlowOp.credit s)).foldl next f).d.sendq.items
          + (f.d.peerCredit + (bodies.map amount).sum)
          = ObjSend.need s f.d.sendq.items
            + ((bodies.map (FlowOp.credit s)).foldl next f).d.peerCredit
        ∧ Stopped s ((bodies.map (FlowOp.credit s)).foldl next f) := by
  induction bodies generalizing f with
  | nil =>
    refine ⟨by simp, ?_⟩
    cases hstart with
    | inl h => exact h
    | inr h => exact absurd h (Nat.lt_irrefl 0)
  | cons body bodies ih =>
    have hstep := credit_balance body hfits.1
    have hnext : Stopped s (f.next (.credit s body)) ∨ 0 < (bodies.map amount).sum := by
      by_cases hpos : 0 < (bodies.map amount).sum
      . exact .inr hpos
      . apply Or.inl
        apply credit_stopped
        cases hstart with
        | inl h => exact .inl h
        | inr h =>
          rw [List.map_cons, List.sum_cons] at h
          exact .inr (by omega)
    have hrest := ih hfits.2 hnext
    rw [List.map_cons, List.foldl_cons, List.map_cons, List.sum_cons]
    refine ⟨?_, hrest.2⟩
    have hbalance := hrest.1
    omega

theorem drains_of_fits (f : FlowState) (s : Store)
    : Drains Fits s f (max 1 (ObjSend.need s f.d.sendq.items - f.d.peerCredit)) := by
  intro bodies hfits henough
  have hsum : max 1 (ObjSend.need s f.d.sendq.items - f.d.peerCredit) ≤ (bodies.map amount).sum :=
    henough
  rcases credits_balance bodies hfits (.inr (by omega)) with ⟨hbalance, hstopped⟩
  generalize (bodies.map (FlowOp.credit s)).foldl next f = f' at hbalance hstopped ⊢
  cases hitems : f'.d.sendq.items with
  | nil => rfl
  | cons h q =>
    rcases hstopped h q hitems with ⟨enc, hget, hshort⟩
    have hneed : enc.length ≤ ObjSend.need s f'.d.sendq.items := by
      rw [hitems]
      simp [ObjSend.need, hget]
    omega

end Drain

/--
Budget, order and count hold in every session; as long as no grant overflows the counter, credit for
what waits empties the queue.
-/
theorem flows_run (sendq : Ring Hash sendqCap) (objDrops : Nat)
    : (∀ f, Run next free (hello sendq objDrops) f → Accounted f)
        ∧ ∀ f, Run next Fits (hello sendq objDrops) f → Flows f := by
  constructor
  . intro f hrun
    exact Run.inv (accounted_hello sendq objDrops) (fun _ op h _ => accounted_next h op) hrun
  . intro f hrun
    have haccounted := Run.inv (accounted_hello sendq objDrops)
      (fun _ op h _ => accounted_next h op) hrun
    exact ⟨haccounted, drains_of_fits f⟩

section Overflow

def smallBlob : Bytes :=
  objEncodeBlob [] []

def smallHash : Hash :=
  hashCompute smallBlob

def smallStore : Store :=
  (storePut ⟨[7], [], .dir true []⟩ smallBlob .ok).2

theorem objFile_smallStore : objFile smallStore smallHash = some ⟨true, some smallBlob, true⟩ := by
  unfold smallStore
  rw [objFile_storePut, if_pos ⟨rfl, rfl, rfl⟩]
  rfl

-- Where the queue waits with little credit and a grant changes the credit to as little.
structure Starved (f : FlowState) (credit : Nat) : Prop where
  items : f.d.sendq.items = [smallHash]
  credit : f.d.peerCredit = credit

theorem starved_of_flushed {d : ObjSend} {out : ObjSend × SendLog}
    (h : ObjSend.Flushed smallStore d out) (hitems : d.sendq.items = [smallHash])
    (hcredit : d.peerCredit ≤ 1)
    : out.1.sendq.items = [smallHash] ∧ out.1.peerCredit = d.peerCredit := by
  have hget : storeGet smallStore smallHash = some smallBlob := by
    unfold storeGet
    rw [objFile_smallStore]
    rfl
  have hlen : 1 < smallBlob.length := by decide
  have hfifo := h.fifo
  have hpaid := h.paid
  have hleft := h.left
  rw [hitems] at hfifo
  cases hq : out.1.sendq.items with
  | nil =>
    simp only [ObjSend.need, hitems, hq, hget, List.map_cons, List.map_nil, List.sum_cons,
      List.sum_nil, Option.getD_some] at hleft
    omega
  | cons x q =>
    rw [hq] at hfifo
    have hlog : out.2 = [] := by
      have hsize := congrArg List.length hfifo
      simp only [List.length_append, List.length_map, List.length_cons, List.length_nil] at hsize
      rw [← List.length_eq_zero_iff]
      omega
    rw [hlog] at hfifo hpaid
    exact ⟨hfifo.symm, hpaid⟩

theorem starved_credit {f : FlowState} {credit credit' : Nat} {body : Bytes} {v : Nat}
    (h : Starved f credit) (hamt : creditAmount body = some v)
    (hsum : (credit + v) % 2 ^ 64 = credit') (hsmall : credit' ≤ 1)
    : Starved (f.next (.credit smallStore body)) credit' := by
  have hraised : (raised f.d v).peerCredit = credit' := by
    simp only [raised, h.credit]
    exact hsum
  have hflush := ObjSend.flushed_sendqFlush smallStore (raised f.d v)
  rcases starved_of_flushed hflush h.items (by omega) with ⟨hitems, hcredit⟩
  rw [next_credit_some smallStore hamt]
  exact ⟨hitems, hcredit.trans hraised⟩

def maxGrant : Nat := 2 ^ 64 - 1

-- One byte and then as much as the counter holds: the counter is back where it was.
def overflowing : Nat → List Bytes
  | 0 => []
  | n + 1 => creditBody 1 :: creditBody maxGrant :: overflowing n

theorem sum_overflowing (n : Nat)
    : n ≤ granted (overflowing n) := by
  have h1 := creditAmount_creditBody (show 1 < 2 ^ 64 by omega)
  have hmax := creditAmount_creditBody (show maxGrant < 2 ^ 64 by decide)
  unfold granted
  induction n with
  | zero => simp
  | succ n ih =>
    simp only [overflowing, List.map_cons, List.sum_cons, h1, hmax, Option.getD_some]
    omega

theorem starved_overflowing (n : Nat) {f : FlowState} (h : Starved f 0)
    : Starved (((overflowing n).map (FlowOp.credit smallStore)).foldl next f) 0 := by
  have h1 := creditAmount_creditBody (show 1 < 2 ^ 64 by omega)
  have hmax := creditAmount_creditBody (show maxGrant < 2 ^ 64 by decide)
  induction n generalizing f with
  | zero => exact h
  | succ n ih =>
    simp only [overflowing, List.map_cons, List.foldl_cons]
    apply ih
    have hone : Starved (f.next (.credit smallStore (creditBody 1))) 1 :=
      starved_credit h h1 (by omega) (by omega)
    exact starved_credit hone hmax (by decide) (by omega)

theorem guarded_free (ops : List FlowOp) (f : FlowState) : Run.Guarded next free f ops := by
  induction ops generalizing f with
  | nil => trivial
  | cons op ops ih => exact ⟨trivial, ih _⟩

def smallRing : Ring Hash sendqCap :=
  Ring.empty (fun _ => smallHash) sendqCap_pos

def wanted : FlowState :=
  (hello smallRing 0).next (.want smallStore (some (wantRequest [smallHash])))

theorem next_want_d (f : FlowState) (s : Store) (body : Option Bytes)
    : (f.next (.want s body)).d
        = (ObjSend.sendqFlush s ((handleStateWant s body).foldl ObjSend.sendqPush f.d)).1 := rfl

theorem starved_wanted : Starved wanted 0 := by
  have hheld : ∀ h ∈ [smallHash], storeHave smallStore h = true ∧ h.b.head? = some 0x01 := by
    intro h hmem
    rw [List.mem_singleton] at hmem
    rw [hmem]
    refine ⟨?_, rfl⟩
    unfold storeHave
    rw [objFile_smallStore]
  have hflush := ObjSend.flushed_sendqFlush smallStore
    ((handleStateWant smallStore (some (wantRequest [smallHash]))).foldl ObjSend.sendqPush
      (hello smallRing 0).d)
  rcases ObjSend.foldl_sendqPush (handleStateWant smallStore (some (wantRequest [smallHash])))
    (hello smallRing 0).d with ⟨hitems, _, hcredit⟩
  have hone : ((handleStateWant smallStore (some (wantRequest [smallHash]))).foldl
      ObjSend.sendqPush (hello smallRing 0).d).sendq.items = [smallHash] := by
    rw [hitems, handleStateWant_held (by simp) hheld]
    rfl
  have hzero : ((handleStateWant smallStore (some (wantRequest [smallHash]))).foldl
      ObjSend.sendqPush (hello smallRing 0).d).peerCredit = 0 := hcredit
  rcases starved_of_flushed hflush hone (by omega) with ⟨hq, hc⟩
  rw [← next_want_d] at hq hc
  exact ⟨hq, hc.trans hzero⟩

-- One grant of a window empties the queue.
theorem flows_run_wanted
    : Accounted wanted
        ∧ (wanted.next (.credit smallStore (creditBody 100))).d.sendq.items = [] := by
  have hrun : Run next Fits (hello smallRing 0) wanted := .step _ .start trivial
  refine ⟨(flows_run smallRing 0).1 wanted (hrun.imp (fun _ _ _ => trivial)), ?_⟩
  have hflows := (flows_run smallRing 0).2 wanted hrun
  have hamt := creditAmount_creditBody (show 100 < 2 ^ 64 by omega)
  have hget : storeGet smallStore smallHash = some smallBlob := by
    unfold storeGet
    rw [objFile_smallStore]
    rfl
  have hlen : smallBlob.length ≤ 100 := by decide
  apply hflows.drains smallStore [creditBody 100]
  . refine ⟨?_, trivial⟩
    show wanted.d.peerCredit + (creditAmount (creditBody 100)).getD 0 < 2 ^ 64
    rw [starved_wanted.credit, hamt, Option.getD_some]
    omega
  . rw [starved_wanted.items, starved_wanted.credit]
    simp only [granted, ObjSend.need, List.map_cons, List.map_nil, List.sum_cons, List.sum_nil, hget,
      hamt, Option.getD_some]
    omega

-- However much is granted, the object stays in the queue.
theorem not_flows_overflowing
    : ¬ ∀ f, Run next free (hello smallRing 0) f → ∀ s, ∃ enough, Drains free s f enough := by
  intro h
  rcases h wanted (.step _ .start trivial) smallStore with ⟨enough, hdrains⟩
  have hempty := hdrains (overflowing enough) (guarded_free _ _) (sum_overflowing enough)
  rw [(starved_overflowing enough starved_wanted).items] at hempty
  cases hempty

end Overflow

end FlowState

end Harp
