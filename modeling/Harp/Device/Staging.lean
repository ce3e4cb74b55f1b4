import Harp.Device.TxnAtomic

/-!
This module contains the consume-side batching of `harp_deviced_run_session`: the session loop with
its stage, the same loop without one, and the proof that nothing but the moment of a push depends
on the stage. By the time a message is counted, what has become of its event is settled.
-/

namespace Harp

open Ieee

section Loop

inductive SessMsg where
  | ctl (req : CtlReq) (touch : WriteIo)
  -- the one request that sets a parameter, on part 0
  | knob (id : Nat) (v : F64) (touch io : WriteIo)
  | obj (enc : Bytes) (io : WriteIo)
  -- `readable` is what the transport answers after this message
  | evt (buf : Bytes) (readable : Bool) (io : WriteIo)

-- The fields `harp_deviced_run_session` sets before its loop.
def Session.opened (s : Session) : Session :=
  { s with evt := { s.evt with txn := TxnTable.clear, evtStage := [], evtStaged := false } }

def Session.recv (s : Session) : SessMsg → Session
  | .ctl req touch => s.next (.ctl req touch)
  | .knob id v touch io =>
    let s := { s with evt := evtStageFlush s.evt }
    { s with dev := (frontPanelSetPart (ctlTouch s.dev touch) 0 id v io).2 }
  | .obj enc io => s.next (.obj enc io)
  | .evt buf readable io => s.next (.evt buf readable io)

def Session.loop (s : Session) (msgs : List SessMsg) : Session :=
  msgs.foldl Session.recv s.opened

-- All exits of the loop fall through to one last flush.
def Session.over (s : Session) : Session :=
  { s with evt := evtStageFlush s.evt }

end Loop

section Now

def applyEvtMsgNow (s : Session) (msg : EvtMsg) (io : WriteIo) : Session :=
  match msg with
  | .submit 0 ev touches =>
    { s with evt := evqPush s.evt ev,
             dev := if touches then liveRefTouch s.dev true io else s.dev }
  | msg => applyEvtMsg s msg io

-- Every message is pushed and counted before the next one is read.
def consumeEvtNow (s : Session) (buf : Bytes) (io : WriteIo) : Session :=
  let s := applyEvtMsgNow s (evtDecode s.audioEpoch buf) io
  { s with evt := { s.evt with evtConsumed := s.evt.evtConsumed + 1 } }

def Session.recvNow (s : Session) : SessMsg → Session
  | .evt buf _ io => consumeEvtNow s buf io
  | msg => s.recv msg

def Session.loopNow (s : Session) (msgs : List SessMsg) : Session :=
  msgs.foldl Session.recvNow s.opened

-- The EVT messages handled since the last stream reset.
def SessMsg.count (n : Nat) : SessMsg → Nat
  | .evt _ _ _ => n + 1
  | .ctl (.audioStart _) _ => 0
  | _ => n

-- The event a message leaves on the stage of a session in the given epoch.
def SessMsg.stages (epoch : Nat) : SessMsg → Option DevEvent
  | .evt buf _ _ =>
    match evtDecode epoch buf with
    | .submit 0 ev _ => some ev
    | _ => none
  | _ => none

def EvtState.unstaged (e : EvtState) : EvtState :=
  { e with evtStage := [], evtStaged := false }

def EvtMsg.event : EvtMsg → Option DevEvent
  | .note ev | .transport ev | .submit _ ev _ => some ev
  | _ => none

-- What becomes of an event by the time its message is counted.
inductive Fate where
  | pushed
  | refused
  | held (id : Nat)
  -- its transaction is unknown or full
  | dropped (id : Nat)
  -- a note-off or a panic that finds the queue full
  | atOnce
deriving DecidableEq, Repr

def Fate.Shows (e e' : EvtState) (ev : DevEvent) : Fate → Prop
  | .pushed => e'.evq = e.evq ++ [ev]
  | .refused =>
    devEvqCap ≤ e.evq.length ∧ e'.evq = e.evq ∧ e'.counters.evqDrops = e.counters.evqDrops + 1
  | .held id => e'.evq = e.evq
    ∧ ∃ i x x', txnFind e id = some (i, x) ∧ e'.txn.slots[i]? = some x' ∧ x'.open_ = true
      ∧ x'.id = id ∧ x'.ev = x.ev ++ [ev]
  | .dropped id => e'.evq = e.evq
    ∧ (txnFind e id = none ∧ e'.counters.txnUnknown = e.counters.txnUnknown + 1
      ∨ ∃ i x, txnFind e id = some (i, x) ∧ x.ev.length = devTxnEventsMax
        ∧ e'.counters.txnOverflow = e.counters.txnOverflow + 1)
  | .atOnce => ev.kind ≠ .noteOn ∧ devEvqCap ≤ e.evq.length ∧ e'.evq = e.evq

-- Pushed to the queue, refused by it or held in a transaction.
def Fate.plain : Fate → Bool
  | .pushed | .refused | .held _ => true
  | _ => false

-- Every event of the messages has met one of the fates when its message is counted.
def Settled (fates : Fate → Prop) (s : Session) (msgs : List SessMsg) : Prop :=
  ∀ before buf readable io after ev, msgs = before ++ .evt buf readable io :: after →
    (evtDecode (s.loopNow before).audioEpoch buf).event = some ev →
      ∃ fate, fates fate
        ∧ fate.Shows (s.loopNow before).evt (s.loopNow (before ++ [.evt buf readable io])).evt ev

-- A session that has received `msgs`, against one without a stage.
structure Batched (fates : Fate → Prop) (s : Session) (msgs : List SessMsg) : Prop where
  evq : (s.loop msgs).over.evt.evq = (s.loopNow msgs).evt.evq
  counters : (s.loop msgs).over.evt.counters = (s.loopNow msgs).evt.counters
  txn : (s.loop msgs).over.evt.txn.slots = (s.loopNow msgs).evt.txn.slots
  dev : (s.loop msgs).over.dev = (s.loopNow msgs).dev
  counted : (s.loop msgs).evt.evtConsumed + UInt32.ofNat (s.loop msgs).evt.evtStage.length
    = UInt32.ofNat (msgs.foldl SessMsg.count s.evt.evtConsumed.toNat)
  -- what is not counted yet is the stage, message by message; the events of all before it are
  -- settled
  pushed : ∃ done rest, msgs = done ++ rest
    ∧ rest.map (SessMsg.stages (s.loop msgs).audioEpoch) = (s.loop msgs).evt.evtStage.map some
    ∧ (s.loop msgs).evt.unstaged = (s.loopNow done).evt
    ∧ Settled fates s done
  stage : (s.loopNow msgs).evt.evtStage = []

end Now

section Flush

variable {e : EvtState}

theorem txnFind_flush (id : Nat) : txnFind (evtStageFlush e) id = txnFind e id := by
  unfold txnFind
  rw [evtStageFlush_form]

theorem txnFree_flush : txnFree (evtStageFlush e) = txnFree e := by
  unfold txnFree
  rw [evtStageFlush_form]

theorem noteEvt_flush (ev : DevEvent)
    : evtStageFlush (noteEvt e ev) = noteEvt (evtStageFlush e) ev := by
  unfold noteEvt
  simp only [evtStageFlush_flush]
  split
  . rw [evtStageFlush_flush]
  . apply evtStageFlush_of_nil
    simp

theorem txnBegin_flush (id : Nat)
    : evtStageFlush (txnBegin e id) = txnBegin (evtStageFlush e) id := by
  simp only [txnBegin, txnFind_flush, txnFree_flush]
  split
  . simp [EvtState.reject, evtStageFlush_form]
  . split
    . simp [EvtState.reject, evtStageFlush_form]
    . split
      . simp [evtStageFlush_form]
      . simp [EvtState.reject, evtStageFlush_form]

theorem txnAbort_flush (id : Nat)
    : evtStageFlush (txnAbort e id) = txnAbort (evtStageFlush e) id := by
  simp only [txnAbort, txnFind_flush]
  split
  . simp [EvtState.unknown, evtStageFlush_form]
  . simp [evtStageFlush_form]

theorem txnSubmit_flush {id : Nat} (hid : id ≠ 0) (ev : DevEvent)
    : evtStageFlush (txnSubmit e id ev) = txnSubmit (evtStageFlush e) id ev := by
  simp only [txnSubmit, hid, if_false, txnFind_flush]
  split
  . simp [EvtState.unknown, evtStageFlush_form]
  . split
    . simp [evtStageFlush_form]
    . simp [evtStageFlush_form]

theorem txnCommit_flush (id commitMsc : Nat)
    : evtStageFlush (txnCommit e id commitMsc).2 = (txnCommit (evtStageFlush e) id commitMsc).2
        ∧ (txnCommit (evtStageFlush e) id commitMsc).1 = (txnCommit e id commitMsc).1 := by
  simp only [txnCommit, txnFind_flush, evtStageFlush_flush]
  split
  . simp [EvtState.unknown, evtStageFlush_form]
  . refine ⟨?_, rfl⟩
    apply evtStageFlush_of_nil
    split
    . simp
    . unfold evqPushBatch
      split <;> simp

theorem evtStageFlush_snoc (ev : DevEvent)
    : evtStageFlush { e with evtStage := e.evtStage ++ [ev], evtStaged := true }
        = { evqPush (evtStageFlush e) ev with
            evtConsumed := (evtStageFlush e).evtConsumed + 1, evtStaged := true } := by
  have hcount : UInt32.ofNat (e.evtStage.length + 1) = UInt32.ofNat e.evtStage.length + 1 := by
    rw [UInt32.ofNat_add]
    rfl
  simp only [evtStageFlush_form, evqPush, List.length_append, List.length_take,
    List.length_singleton, List.take_append, hcount, UInt32.add_assoc]
  split
  next hlt =>
    have hroom : devEvqCap - e.evq.length - e.evtStage.length ≠ 0 := by omega
    have hdrop : e.evtStage.length + 1 - (devEvqCap - e.evq.length)
        = e.evtStage.length - (devEvqCap - e.evq.length) := by omega
    rw [List.take_of_length_le (l := [ev]) (by simp; omega), hdrop, List.append_assoc]
  next hfull =>
    have hroom : devEvqCap - e.evq.length - e.evtStage.length = 0 := by omega
    have hdrop : e.evtStage.length + 1 - (devEvqCap - e.evq.length)
        = e.evtStage.length - (devEvqCap - e.evq.length) + 1 := by omega
    rw [hroom, hdrop, List.take_zero, List.append_nil, Nat.add_assoc]

-- Staging an event and flushing is flushing and pushing the event.
theorem evtStageAdd_flush (ev : DevEvent)
    : evtStageFlush (evtStageAdd e ev) = { evqPush (evtStageFlush e) ev with
        evtConsumed := (evtStageFlush e).evtConsumed + 1, evtStaged := true } := by
  unfold evtStageAdd
  dsimp only
  split
  . rw [evtStageFlush_snoc, evtStageFlush_flush]
  . rw [evtStageFlush_snoc]

end Flush

section Step

def EvtMsg.untagged : EvtMsg → Option DevEvent
  | .submit 0 ev _ => some ev
  | _ => none

variable {s : Session} {msg : EvtMsg} (io : WriteIo)

theorem applyEvtMsgNow_of_tagged (h : msg.untagged = none)
    : applyEvtMsgNow s msg io = applyEvtMsg s msg io := by
  unfold applyEvtMsgNow
  split
  next => cases h
  next => rfl

-- What a message does that is not staged is the same before and after a flush.
theorem applyEvtMsg_flush (h : msg.untagged = none)
    : (applyEvtMsg s msg io).over = applyEvtMsg s.over msg io := by
  cases msg with
  | frameError => simp [applyEvtMsg, Session.over, evtStageFlush_form]
  | stale => simp [applyEvtMsg, Session.over, evtStageFlush_form]
  | ignored => rfl
  | otherVoice => simp [applyEvtMsg, Session.over]
  | note ev => simp [applyEvtMsg, Session.over, noteEvt_flush]
  | transport ev =>
    simp only [applyEvtMsg, Session.over, evtStageFlush_flush]
    rw [evtStageFlush_of_nil (by simp)]
  | submit txnId ev touches =>
    have hid : txnId ≠ 0 := by
      rintro rfl
      cases h
    simp [applyEvtMsg, Session.over, txnSubmit_flush hid]
  | begin_ id => simp [applyEvtMsg, Session.over, txnBegin_flush]
  | commit id commitMsc =>
    have hcommit := @txnCommit_flush s.evt id commitMsc
    simp only [applyEvtMsg, Session.over, hcommit.1, hcommit.2]
  | commitStale id =>
    simp only [applyEvtMsg, Session.over, ← txnAbort_flush]
    simp [evtStageFlush_form]
  | abort id => simp [applyEvtMsg, Session.over, txnAbort_flush]

theorem applyEvtMsg_staged (h : msg.untagged = none)
    : (applyEvtMsg s msg io).evt.evtStaged = s.evt.evtStaged := by
  cases msg with
  | note ev => exact (noteEvt_published ev).2
  | submit txnId ev touches =>
    have hid : txnId ≠ 0 := by
      rintro rfl
      cases h
    simp only [applyEvtMsg, txnSubmit, hid, if_false]
    split
    . rfl
    . split <;> rfl
  | begin_ id => exact (txnBegin_published id).2
  | commit id commitMsc => exact (txnCommit_published id commitMsc).2
  | commitStale id => exact (txnAbort_published id).2
  | abort id => exact (txnAbort_published id).2
  | otherVoice => exact evtStageFlush_staged
  | transport ev => exact (evqPush_staged ev).trans evtStageFlush_staged
  | _ => rfl

theorem untagged_eq_some {ev : DevEvent} (h : msg.untagged = some ev)
    : ∃ touches, msg = .submit 0 ev touches := by
  unfold EvtMsg.untagged at h
  split at h
  next => exact ⟨_, by rw [Option.some.inj h]⟩
  next => cases h

def Session.settle (s : Session) : Session :=
  { s with evt := (evtStageFlush s.evt).unstaged }

theorem settle_of_nil (h : s.evt.evtStage = []) : s.settle = { s with evt := s.evt.unstaged } := by
  unfold Session.settle
  rw [evtStageFlush_of_nil h]

theorem settle_over : s.over.settle = s.settle := by
  simp [Session.settle, Session.over]

theorem settle_eq_over : { s with evt := { s.evt with evtStaged := false } }.over = s.settle := by
  simp [Session.over, Session.settle, EvtState.unstaged, evtStageFlush_form]

theorem over_settle : s.settle.over = s.settle := by
  unfold Session.over
  rw [evtStageFlush_of_nil (by rfl)]

def Session.counted (s : Session) : Session :=
  { s with evt := { s.evt with evtConsumed := s.evt.evtConsumed + 1 } }

theorem settle_counted (h : s.evt.evtStage = []) : s.counted.settle = s.settle.counted := by
  have hcounted : s.counted.evt.evtStage = [] := h
  rw [settle_of_nil h, settle_of_nil hcounted]
  rfl

-- A message in the loop, before the transport is asked for more.
def consumeOne (s : Session) (msg : EvtMsg) (io : WriteIo) : Session :=
  let s := applyEvtMsg { s with evt := { s.evt with evtStaged := false } } msg io
  if s.evt.evtStaged then s else s.over.counted

theorem consumeEvt_eq (buf : Bytes) (readable : Bool)
    : consumeEvt s buf readable io
        = if ¬ (consumeOne s (evtDecode s.audioEpoch buf) io).evt.evtStage.isEmpty
            ∧ ¬ readable then
            (consumeOne s (evtDecode s.audioEpoch buf) io).over
          else
            consumeOne s (evtDecode s.audioEpoch buf) io := by
  unfold consumeEvt handleEvtMsg consumeOne
  dsimp only
  generalize applyEvtMsg _ (evtDecode s.audioEpoch buf) io = t
  by_cases hstaged : t.evt.evtStaged
  . simp only [hstaged, not_true_eq_false, if_false, if_true]
    split <;> rfl
  . rw [Bool.not_eq_true] at hstaged
    simp only [hstaged, Bool.false_eq_true, not_false_eq_true, if_true, if_false,
      Session.over, Session.counted]
    split <;> rfl

theorem consumeOne_of_tagged (h : msg.untagged = none)
    : consumeOne s msg io = (applyEvtMsg s.settle msg io).counted := by
  unfold consumeOne
  dsimp only
  rw [applyEvtMsg_staged io h, applyEvtMsg_flush io h, settle_eq_over]
  rfl

theorem consumeOne_submit (ev : DevEvent) (touches : Bool)
    : consumeOne s (.submit 0 ev touches) io
        = { s with
            evt := evtStageAdd { s.evt with evtStaged := false } ev,
            dev := if touches then liveRefTouch s.dev true io else s.dev } := by
  rfl

theorem applyEvtMsg_settle (h : msg.untagged = none)
    : (applyEvtMsg s.settle msg io).evt.evtStage = []
        ∧ (applyEvtMsg s.settle msg io).settle = applyEvtMsg s.settle msg io := by
  have hover : (applyEvtMsg s.settle msg io).over = applyEvtMsg s.settle msg io := by
    rw [applyEvtMsg_flush io h, over_settle]
  have hstage : (applyEvtMsg s.settle msg io).evt.evtStage = [] := by
    rw [← hover]
    apply evtStageFlush_stage
  have hstaged : (applyEvtMsg s.settle msg io).evt.evtStaged = false := by
    rw [applyEvtMsg_staged io h]
    rfl
  refine ⟨hstage, ?_⟩
  rw [settle_of_nil hstage, EvtState.unstaged, ← hstage, ← hstaged]

theorem settle_consumeOne
    : (consumeOne s msg io).settle = (applyEvtMsgNow s.settle msg io).counted := by
  cases htag : msg.untagged with
  | none =>
    rcases applyEvtMsg_settle (s := s) io htag with ⟨hstage, hsettle⟩
    rw [consumeOne_of_tagged io htag, applyEvtMsgNow_of_tagged io htag, settle_counted hstage,
      hsettle]
  | some ev =>
    rcases untagged_eq_some htag with ⟨touches, rfl⟩
    have hflag : evtStageFlush { s.evt with evtStaged := false } = s.settle.evt := by
      simp [Session.settle, EvtState.unstaged, evtStageFlush_form]
    rw [consumeOne_submit]
    have hpush : { evqPush s.settle.evt ev with
          evtConsumed := s.settle.evt.evtConsumed + 1, evtStaged := true }.unstaged
        = { evqPush s.settle.evt ev with
            evtConsumed := (evqPush s.settle.evt ev).evtConsumed + 1 } := by
      unfold evqPush
      split <;> rfl
    unfold Session.settle
    simp only [evtStageAdd_flush, hflag, hpush]
    rfl

theorem settle_handleCtlReq (h : s.evt.evtStage = []) (req : CtlReq)
    : (handleCtlReq s req).evt.evtStage = []
        ∧ (handleCtlReq s req).settle = handleCtlReq s.settle req := by
  have hnil : evtStageFlush s.evt = s.evt := evtStageFlush_of_nil h
  cases req with
  | snapshot shed msg time io =>
    cases shed <;> simp [handleCtlReq, Session.settle, hnil, h]
  | hello =>
    refine ⟨h, ?_⟩
    simp [handleCtlReq, Session.settle, EvtState.unstaged, evtStageFlush_form, h]
  | audioStart newEpoch =>
    refine ⟨h, ?_⟩
    simp [handleCtlReq, Session.settle, EvtState.unstaged, evqResetForNewStream,
      evtStageFlush_form, h]
  | audioStop =>
    refine ⟨h, ?_⟩
    simp [handleCtlReq, Session.settle, EvtState.unstaged, evtStageFlush_form, h]
  | _ => simp [handleCtlReq, Session.settle, hnil, h]

-- One message leaves the settled session as the loop without a stage leaves it.
theorem settle_recv (m : SessMsg) : (s.recv m).settle = s.settle.recvNow m := by
  cases m with
  | ctl req touch =>
    have hctl := (settle_handleCtlReq
      (s := { s.over with dev := ctlTouch s.dev touch }) evtStageFlush_stage req).2
    have hsettle : { s.over with dev := ctlTouch s.dev touch }.settle
        = { s.settle.over with dev := ctlTouch s.settle.dev touch } := by
      rw [over_settle]
      simp [Session.settle, Session.over]
    rw [hsettle] at hctl
    exact hctl
  | knob id v touch io =>
    simp [Session.recvNow, Session.recv, Session.settle, EvtState.unstaged, evtStageFlush_form]
  | obj enc io =>
    simp [Session.recvNow, Session.recv, Session.next, Session.settle, EvtState.unstaged,
      evtStageFlush_form]
  | evt buf readable io =>
    have hepoch : s.settle.audioEpoch = s.audioEpoch := rfl
    simp only [Session.recv, Session.next, Session.recvNow]
    rw [consumeEvt_eq]
    unfold consumeEvtNow
    rw [hepoch]
    split
    . rw [settle_over, settle_consumeOne]
      rfl
    . rw [settle_consumeOne]
      rfl

theorem arrived_recv {n : Nat} (h : s.evt.arrived = UInt32.ofNat n) (m : SessMsg)
    : (s.recv m).evt.arrived = UInt32.ofNat (m.count n) := by
  have hover : s.over.evt.arrived = UInt32.ofNat n := by
    rw [← h]
    exact evtStageFlush_published.arrived
  cases m with
  | ctl req touch =>
    cases req with
    | snapshot shed msg time io => cases shed <;> exact hover
    | audioStart newEpoch =>
      have hstage : s.over.evt.evtStage = [] := evtStageFlush_stage
      show (0 : UInt32) + UInt32.ofNat s.over.evt.evtStage.length = _
      rw [hstage]
      rfl
    | _ => exact hover
  | knob id v touch io => exact hover
  | obj enc io => exact hover
  | evt buf readable io =>
    have harrived := (consumeEvt_arrived s buf readable io).arrived
    rw [h] at harrived
    unfold SessMsg.count
    rw [UInt32.ofNat_add]
    exact harrived

-- The stage after a message: empty, or what the message adds to it.
theorem recv_stage (m : SessMsg)
    : (s.recv m).evt.evtStage = []
        ∨ ∃ ev, m.stages s.audioEpoch = some ev ∧ (s.recv m).audioEpoch = s.audioEpoch
            ∧ ((s.recv m).evt.evtStage = s.evt.evtStage ++ [ev]
                ∧ (s.recv m).evt.unstaged = s.evt.unstaged
              ∨ (s.recv m).evt.evtStage = [ev] ∧ (s.recv m).evt.unstaged = s.settle.evt) := by
  cases m with
  | ctl req touch =>
    exact .inl (settle_handleCtlReq
      (s := { s.over with dev := ctlTouch s.dev touch }) evtStageFlush_stage req).1
  | knob id v touch io => exact .inl evtStageFlush_stage
  | obj enc io => exact .inl evtStageFlush_stage
  | evt buf readable io =>
    simp only [Session.recv, Session.next]
    rw [consumeEvt_eq]
    split
    . exact .inl evtStageFlush_stage
    next =>
      cases htag : (evtDecode s.audioEpoch buf).untagged with
      | none =>
        rw [consumeOne_of_tagged io htag]
        exact .inl (applyEvtMsg_settle io htag).1
      | some ev =>
        rcases untagged_eq_some htag with ⟨touches, hmsg⟩
        right
        refine ⟨ev, by simp [SessMsg.stages, hmsg], ?_⟩
        rw [hmsg, consumeOne_submit]
        refine ⟨rfl, ?_⟩
        unfold evtStageAdd
        dsimp only
        split
        . right
          simp [Session.settle, EvtState.unstaged, evtStageFlush_form]
        . left
          exact ⟨rfl, rfl⟩

end Step

section Run

variable (s : Session)

theorem settle_loop (msgs : List SessMsg) : (s.loop msgs).settle = s.loopNow msgs := by
  have hopened : s.opened.settle = s.opened := by
    rw [settle_of_nil rfl]
    rfl
  have hfold : ∀ t : Session,
      (msgs.foldl Session.recv t).settle = msgs.foldl Session.recvNow t.settle := by
    intro t
    induction msgs generalizing t with
    | nil => rfl
    | cons m msgs ih => rw [List.foldl_cons, List.foldl_cons, ih, settle_recv]
  unfold Session.loop Session.loopNow
  rw [hfold, hopened]

theorem arrived_loop (msgs : List SessMsg)
    : (s.loop msgs).evt.arrived
        = UInt32.ofNat (msgs.foldl SessMsg.count s.evt.evtConsumed.toNat) := by
  have hfold : ∀ (t : Session) (n : Nat), t.evt.arrived = UInt32.ofNat n
      → (msgs.foldl Session.recv t).evt.arrived = UInt32.ofNat (msgs.foldl SessMsg.count n) := by
    intro t n h
    induction msgs generalizing t n with
    | nil => exact h
    | cons m msgs ih =>
      apply ih
      apply arrived_recv h
  apply hfold
  simp [EvtState.arrived, Session.opened]

-- Induction on the messages from the last one back: the stage holds the newest of them.
theorem staged_loop (msgs : List SessMsg)
    : ∃ done rest, msgs = done ++ rest
        ∧ rest.map (SessMsg.stages (s.loop msgs).audioEpoch) = (s.loop msgs).evt.evtStage.map some
        ∧ (s.loop msgs).evt.unstaged = (s.loopNow done).evt := by
  induction msgs using List.reverseRecOn with
  | nil => exact ⟨[], [], rfl, rfl, rfl⟩
  | append_singleton msgs m ih =>
    rcases ih with ⟨done, rest, hmsgs, hstage, hdone⟩
    have hsnoc : s.loop (msgs ++ [m]) = (s.loop msgs).recv m := by
      simp [Session.loop]
    rcases recv_stage (s := s.loop msgs) m with hnil | ⟨ev, hev, hepoch, hadd⟩
    . refine ⟨msgs ++ [m], [], by simp, ?_, ?_⟩
      . rw [hsnoc, hnil]
        rfl
      . rw [← settle_loop, hsnoc, settle_of_nil hnil]
    . rw [hsnoc, hepoch]
      rcases hadd with ⟨hsnoc', hsame⟩ | ⟨hone, hsame⟩
      . refine ⟨done, rest ++ [m], by rw [hmsgs, List.append_assoc], ?_, ?_⟩
        . rw [hsnoc', List.map_append, List.map_append, hstage]
          simp [hev]
        . rw [hsame, hdone]
      . refine ⟨msgs, [m], rfl, ?_, ?_⟩
        . rw [hone]
          simp [hev]
        . rw [hsame, settle_loop]

theorem stage_loopNow (msgs : List SessMsg) : (s.loopNow msgs).evt.evtStage = [] := by
  rw [← settle_loop]
  rfl

theorem shows_evqPush (e : EvtState) (ev : DevEvent)
    : Fate.Shows e (evqPush e ev) ev .pushed ∨ Fate.Shows e (evqPush e ev) ev .refused := by
  unfold evqPush
  split
  . exact .inl rfl
  next hfull => exact .inr ⟨by omega, rfl, rfl⟩

theorem shows_noteEvt {e : EvtState} (hstage : e.evtStage = []) (ev : DevEvent)
    : ∃ fate : Fate, fate.Shows e (noteEvt e ev) ev := by
  unfold noteEvt
  dsimp only
  rw [evtStageFlush_of_nil hstage]
  split
  next hfull =>
    refine ⟨.atOnce, hfull.1, ?_, rfl⟩
    have hcap := hfull.2
    unfold evqFull at hcap
    rw [decide_eq_true_eq] at hcap
    exact hcap
  next => rcases shows_evqPush e ev with h | h <;> exact ⟨_, h⟩

theorem shows_txnSubmit (e : EvtState) {id : Nat} (hid : id ≠ 0) (ev : DevEvent)
    : ∃ fate : Fate, fate.Shows e (txnSubmit e id ev) ev := by
  unfold txnSubmit
  rw [if_neg hid]
  cases hfound : txnFind e id with
  | none => exact ⟨.dropped id, rfl, .inl ⟨hfound, rfl⟩⟩
  | some p =>
    rcases p with ⟨i, x⟩
    dsimp only
    unfold DevTxn.push
    split
    next x' hpush =>
      split at hpush
      . cases hpush
        rw [txnFind_eq] at hfound
        rcases SlotMap.find_some hfound with ⟨hx, hkey⟩
        have hopen : x.open_ = true ∧ x.id = id := by
          unfold DevTxn.key at hkey
          split at hkey
          next hopen => exact ⟨hopen, Option.some.inj hkey⟩
          next => cases hkey
        rcases List.getElem?_eq_some_iff.mp hx with ⟨hi, _⟩
        refine ⟨.held id, rfl, i, x, _, (txnFind_eq e id).trans hfound,
          List.getElem?_set_self hi, hopen.1, hopen.2, rfl⟩
      . cases hpush
    next hpush =>
      split at hpush
      . cases hpush
      next hfull =>
        have hbound := x.bound
        exact ⟨.dropped id, rfl, .inr ⟨i, x, hfound, by omega, rfl⟩⟩

-- Counting a message changes nothing its event shows.
theorem Fate.Shows.count {e e' : EvtState} {ev : DevEvent} {fate : Fate} (h : fate.Shows e e' ev)
    (n : UInt32) : fate.Shows e { e' with evtConsumed := n } ev := by
  cases fate <;> exact h

theorem shows_consumeEvtNow {t : Session} (hstage : t.evt.evtStage = []) {buf : Bytes} {ev : DevEvent}
    (hev : (evtDecode t.audioEpoch buf).event = some ev) (io : WriteIo)
    : ∃ fate : Fate, fate.Shows t.evt (consumeEvtNow t buf io).evt ev := by
  have hmsg : ∃ fate : Fate,
      fate.Shows t.evt (applyEvtMsgNow t (evtDecode t.audioEpoch buf) io).evt ev := by
    generalize evtDecode t.audioEpoch buf = msg at hev
    cases msg with
    | note ev' =>
      cases hev
      exact shows_noteEvt hstage ev
    | transport ev' =>
      cases hev
      unfold applyEvtMsgNow applyEvtMsg
      dsimp only
      rw [evtStageFlush_of_nil hstage]
      rcases shows_evqPush t.evt ev with h | h <;> exact ⟨_, h⟩
    | submit id ev' touches =>
      cases hev
      by_cases hid : id = 0
      . subst hid
        rcases shows_evqPush t.evt ev with h | h <;> exact ⟨_, h⟩
      . have hnow : applyEvtMsgNow t (.submit id ev touches) io
            = applyEvtMsg t (.submit id ev touches) io := by
          apply applyEvtMsgNow_of_tagged
          unfold EvtMsg.untagged
          split
          next heq =>
            cases heq
            contradiction
          next => rfl
        rw [hnow]
        exact shows_txnSubmit t.evt hid ev
    | _ => cases hev
  rcases hmsg with ⟨fate, hshows⟩
  exact ⟨fate, hshows.count _⟩

theorem settled_loopNow (msgs : List SessMsg) : Settled (fun _ => True) s msgs := by
  intro before buf readable io after ev _ hev
  have hsnoc : s.loopNow (before ++ [.evt buf readable io]) = consumeEvtNow (s.loopNow before) buf io := by
    unfold Session.loopNow
    rw [List.foldl_append]
    rfl
  rw [hsnoc]
  rcases shows_consumeEvtNow (stage_loopNow s before) hev io with ⟨fate, hshows⟩
  exact ⟨fate, trivial, hshows⟩

theorem loop_batched (msgs : List SessMsg) : Batched (fun _ => True) s msgs := by
  have hsettle := settle_loop s msgs
  rcases staged_loop s msgs with ⟨done, rest, hmsgs, hstage, hdone⟩
  refine ⟨?_, ?_, ?_, ?_, arrived_loop s msgs,
    ⟨done, rest, hmsgs, hstage, hdone, settled_loopNow s done⟩, ?_⟩
  all_goals rw [← hsettle]
  all_goals rfl

-- An event that names a transaction nobody has opened is counted and in no queue and no transaction.
theorem not_batched_unknownTxn
    : ¬ ∀ (s : Session) (msgs : List SessMsg), Batched (fun fate => fate.plain) s msgs := by
  intro h
  let s : Session := ⟨blankDevice, EvtState.fresh, 1⟩
  let m : SessMsg := .evt (setFrame 1 1) false .ok
  have hnow : (s.loopNow [m]).evt.evq = [] ∧ txnFind (s.loopNow []).evt 1 = none := by
    have hstep : s.loopNow [m] = consumeEvtNow s.opened (setFrame 1 1) .ok := rfl
    have hdecode : evtDecode s.opened.audioEpoch (setFrame 1 1) = .submit 1 setEvent false :=
      setFrame_decode
    refine ⟨?_, rfl⟩
    rw [hstep]
    unfold consumeEvtNow
    rw [hdecode]
    rfl
  have hstage : (s.loop [m]).evt.evtStage = [] := by
    have hstep : s.loop [m] = consumeEvt s.opened (setFrame 1 1) false .ok := rfl
    rw [hstep, consumeEvt_eq]
    generalize evtDecode s.opened.audioEpoch (setFrame 1 1) = msg
    split
    . exact evtStageFlush_stage
    next hkeep =>
      simp only [Bool.false_eq_true, not_false_eq_true, and_true, not_not, List.isEmpty_iff] at hkeep
      exact hkeep
  rcases (h s [m]).pushed with ⟨done, rest, hmsgs, hrest, _, hsettled⟩
  rw [hstage, List.map_nil, List.map_eq_nil_iff] at hrest
  subst hrest
  rw [List.append_nil] at hmsgs
  have hev : (evtDecode (s.loopNow []).audioEpoch (setFrame 1 1)).event = some setEvent := by
    rw [show (s.loopNow []).audioEpoch = 1 from rfl, setFrame_decode]
    rfl
  rcases hsettled [] (setFrame 1 1) false .ok [] setEvent hmsgs.symm hev with ⟨fate, hplain, hshows⟩
  have hempty : (s.loopNow []).evt.evq = [] := rfl
  cases fate with
  | pushed =>
    have hevq : (s.loopNow [m]).evt.evq = (s.loopNow []).evt.evq ++ [setEvent] := hshows
    rw [hnow.1, hempty] at hevq
    cases hevq
  | refused =>
    have hfull : devEvqCap ≤ (s.loopNow []).evt.evq.length := hshows.1
    rw [hempty] at hfull
    exact absurd hfull (by decide)
  | held id =>
    rcases hshows.2 with ⟨i, x, x', hfound, _⟩
    have hclosed : txnFind (s.loopNow []).evt id = none := rfl
    rw [hclosed] at hfound
    cases hfound
  | dropped id => cases hplain
  | atOnce => cases hplain

end Run

end Harp
