import Harp.Device.EngineLemmas
import Harp.Device.TxnAtomic
import Harp.Lib.Run

/-!
This module contains the steps of a device while a stream runs: the EVT frames of the session loop
and the segments of the render loop, in any order.

The two loops are threads of their own. They meet in the event queue and in the panic mailboxes, which
the render loop reads once a segment.
-/

namespace Harp

open Runs

variable {D X : Type} {k : Kernel D X}

section Steps

structure Synth (D : Type) where
  dev : Device
  audioEpoch : Nat
  e : Engine D

def Synth.session (s : Synth D) : Session :=
  ⟨s.dev, s.e.evt, s.audioEpoch⟩

inductive SynthOp where
  | evt (buf : Bytes) (readable : Bool) (io : WriteIo)
  | segment (slots : List OutSlot) (n pos done : Nat)

-- One EVT frame. What a note message leaves in the queue is in `consumeEvt`, the mailboxes are here.
def Synth.consumeEvt (s : Synth D) (buf : Bytes) (readable : Bool) (io : WriteIo) : Synth D :=
  let t := Harp.consumeEvt s.session buf readable io
  let parts :=
    match evtDecode s.audioEpoch buf with
    | .note ev => (s.e.noteMsg ev).parts
    | _ => s.e.parts
  ⟨t.dev, t.audioEpoch, { s.e with evt := t.evt, parts }⟩

-- One turn of the render loop, from `done` samples of a block of `n` at `pos`.
def Engine.segment (k : Kernel D X) (e : Engine D) (slots : List OutSlot) (n pos done : Nat)
    : Engine D :=
  if slots = [0, 1] then
    (Block.turn k (Engine.mixSegment k) (· ++ ·) pos n ⟨e, done, []⟩).e
  else
    (Block.turn k (Engine.slotSegment k slots) (· ++ ·) pos n ⟨e, done, []⟩).e

def Synth.next (k : Kernel D X) (s : Synth D) : SynthOp → Synth D
  | .evt buf readable io => s.consumeEvt buf readable io
  | .segment slots n pos done => { s with e := s.e.segment k slots n pos done }

end Steps

section Segment

variable {slots : List OutSlot} {n pos done : Nat}

theorem Engine.mixSegment_aged (e : Engine D) (seg cur : Nat)
    : (e.mixSegment k seg cur).1.evt = e.evt ∧ (e.mixSegment k seg cur).1.applied = e.applied ∧
      ∀ q, Aged (e.parts q) ((e.mixSegment k seg cur).1.parts q) := by
  rw [Engine.mixSegment_fst]
  refine ⟨rfl, rfl, ?_⟩
  intro q
  dsimp only [Engine.mapParts]
  split
  next => exact Aged.poolAfter _
  next => exact Aged.refl _

theorem Engine.slotSegment_aged (e : Engine D) (slots : List OutSlot) (seg cur : Nat)
    : (e.slotSegment k slots seg cur).1.evt = e.evt ∧
      (e.slotSegment k slots seg cur).1.applied = e.applied ∧
      ∀ q, Aged (e.parts q) ((e.slotSegment k slots seg cur).1.parts q) := by
  rw [Engine.slotSegment_fst]
  refine ⟨rfl, rfl, ?_⟩
  intro q
  dsimp only [Engine.mapParts]
  split
  next => exact Aged.poolAfter _
  next => exact Aged.refl _

/--
A segment applies what is due and renders; on either path the rendering only ages the parts.
-/
theorem Engine.segment_aged (e : Engine D)
    : (e.segment k slots n pos done).evt =
        (e.segStart k (u64 (pos + done)) (u64 (pos + n))).1.evt ∧
      (e.segment k slots n pos done).applied =
        (e.segStart k (u64 (pos + done)) (u64 (pos + n))).1.applied ∧
      ∀ q, Aged ((e.segStart k (u64 (pos + done)) (u64 (pos + n))).1.parts q)
        ((e.segment k slots n pos done).parts q) := by
  unfold Engine.segment Block.turn
  dsimp only
  split
  next => apply Engine.mixSegment_aged
  next => apply Engine.slotSegment_aged

theorem Engine.segment_evq (e : Engine D)
    : (e.segment k slots n pos done).evt.evq = evqRemaining e.evt.evq (u64 (pos + done)) := by
  rw [(Engine.segment_aged e).1, Engine.segStart_evt]

-- The engine goes through the turns of a block, whatever they render.
theorem Block.loop_turns {O : Type} (body : Nat → Nat → Engine D → Engine D × O)
    (append : O → O → O) (fuel : Nat) (b : Block D O) (out : O)
    : ∃ dones : List Nat, (Block.loop k body append pos n fuel b).e
        = dones.foldl (fun e done => (Block.turn k body append pos n ⟨e, done, out⟩).e) b.e := by
  induction fuel generalizing b with
  | zero => exact ⟨[], rfl⟩
  | succ fuel ih =>
    unfold Block.loop
    split
    next =>
      obtain ⟨dones, hloop⟩ := ih (b.turn k body append pos n)
      exact ⟨b.done :: dones, hloop⟩
    next => exact ⟨[], rfl⟩

/--
A block that is rendered is a run of its segments.
-/
theorem Synth.renderOutput_run (s : Synth D)
    : Run (Synth.next k) free s { s with e := (s.e.renderOutput k slots n pos).1 } := by
  have hturns : ∃ dones : List Nat, (s.e.renderOutput k slots n pos).1
      = dones.foldl (fun e done => e.segment k slots n pos done) s.e := by
    unfold Engine.renderOutput Engine.segment
    by_cases hmain : slots = [0, 1]
    . simp only [if_pos hmain]
      exact Block.loop_turns _ _ n ⟨s.e, 0, []⟩ []
    . simp only [if_neg hmain]
      exact Block.loop_turns _ _ n ⟨s.e, 0, []⟩ []
  have hfold : ∀ (dones : List Nat) (e : Engine D),
      (dones.map (SynthOp.segment slots n pos)).foldl (Synth.next k) { s with e := e }
        = { s with e := dones.foldl (fun e done => e.segment k slots n pos done) e } := by
    intro dones
    induction dones with
    | nil => exact fun e => rfl
    | cons done dones ih => exact fun e => ih (e.segment k slots n pos done)
  obtain ⟨dones, hdones⟩ := hturns
  rw [hdones, ← hfold dones s.e]
  exact Run.foldl _ .start

end Segment

section Decode

def EvtMsg.notes : EvtMsg → List DevEvent
  | .note ev => [ev]
  | _ => []

theorem EvtMsg.mem_notes {msg : EvtMsg} {ev : DevEvent} : ev ∈ msg.notes ↔ msg = .note ev := by
  unfold EvtMsg.notes
  split
  next ev' => simp [eq_comm]
  next h =>
    constructor
    . exact fun hmem => absurd hmem List.not_mem_nil
    . exact fun heq => absurd heq (h ev)

-- The kinds of events each message brings.
def EvtMsg.Kinds : EvtMsg → Prop
  | .note ev => (ev.kind = .noteOn ∨ ev.kind = .noteOff ∨ ev.kind = .allOff) ∧ ev.a < 128
  | .transport ev => ev.kind = .transport
  | .submit _ ev _ => ev.kind = .paramSet ∨ ev.kind = .ramp ∨ ev.kind = .mod
  | _ => True

theorem umpMsg_kinds (msc : Nat) (p : Bytes) : (umpMsg msc p).Kinds := by
  have hnote : (beNat (p.take 4) >>> 8) % 128 < 128 := Nat.mod_lt _ (by decide)
  unfold umpMsg
  dsimp only
  split_ifs <;> simp [EvtMsg.Kinds, hnote]

theorem bodyMsg_kinds (epoch msc etype : Nat) (b : EvtBody) : (bodyMsg epoch msc etype b).Kinds := by
  unfold bodyMsg
  split
  next =>
    dsimp only
    split_ifs
    next =>
      split
      next => trivial
      next => split_ifs <;> simp [EvtMsg.Kinds, DevEvent.ofBody]
    next => simp [EvtMsg.Kinds, DevEvent.ofBody]
    next => simp [EvtMsg.Kinds, DevEvent.ofBody]
  next => trivial

theorem txnMsg_kinds (epoch msc etype : Nat) (b : TxnBody) : (txnMsg epoch msc etype b).Kinds := by
  unfold txnMsg
  split
  next => trivial
  next =>
    split_ifs
    next => trivial
    next => trivial
    next =>
      split
      next => trivial
      next => split_ifs <;> trivial

theorem mapBody_kinds {σ : Type} {field : σ → Dec σ} {done : σ → EvtMsg} (h : ∀ b, (done b).Kinds)
    (init : σ) (d : Cdec) : (mapBody field init done d).Kinds := by
  unfold mapBody
  split
  next => trivial
  next =>
    split
    next => trivial
    next => apply h

theorem evtDecode_kinds (epoch : Nat) (buf : Bytes) : (evtDecode epoch buf).Kinds := by
  unfold evtDecode
  split
  next => trivial
  next =>
    split_ifs
    next => trivial
    next =>
      split
      next =>
        split_ifs
        next => trivial
        next => apply umpMsg_kinds
      next => trivial
    next =>
      apply mapBody_kinds
      intro b
      rfl
    next => exact mapBody_kinds (fun _ => bodyMsg_kinds _ _ _ _) _ _
    next => exact mapBody_kinds (fun _ => txnMsg_kinds _ _ _ _) _ _
    next => trivial

end Decode

section Frames

-- A message only appends to the queue.
theorem evtStageFlush_isPrefix (e : EvtState) : e.evq <+: (evtStageFlush e).evq := by
  rw [(evtStageFlush_eq e).1]
  apply List.prefix_append

theorem evqPush_isPrefix (e : EvtState) (ev : DevEvent) : e.evq <+: (evqPush e ev).evq := by
  cases (evqPush_frame e ev).2.2 with
  | inl h =>
    rw [h]
    apply List.prefix_append
  | inr h =>
    rw [h]

theorem evtStageAdd_isPrefix (e : EvtState) (ev : DevEvent) : e.evq <+: (evtStageAdd e ev).evq := by
  unfold evtStageAdd
  dsimp only
  split
  next => apply evtStageFlush_isPrefix
  next => apply List.prefix_refl

theorem txnCommit_isPrefix (e : EvtState) (id commitMsc : Nat)
    : e.evq <+: (txnCommit e id commitMsc).2.evq := by
  cases hfound : txnFind e id with
  | none =>
    unfold txnCommit
    rw [hfound]
    apply List.prefix_refl
  | some x =>
    obtain ⟨_, _, hevq⟩ := txnCommit_eq (i := x.1) (t := x.2) hfound commitMsc
    apply (evtStageFlush_isPrefix e).trans
    rw [hevq]
    split
    next => apply List.prefix_append
    next => apply List.prefix_refl

theorem applyEvtMsg_isPrefix (s : Session) (msg : EvtMsg) (io : WriteIo)
    : s.evt.evq <+: (applyEvtMsg s msg io).evt.evq := by
  cases msg with
  | frameError => apply List.prefix_refl
  | stale => apply List.prefix_refl
  | ignored => apply List.prefix_refl
  | otherVoice => apply evtStageFlush_isPrefix
  | note ev =>
    dsimp only [applyEvtMsg, noteEvt]
    split
    next => apply evtStageFlush_isPrefix
    next => exact (evtStageFlush_isPrefix _).trans (evqPush_isPrefix _ ev)
  | transport ev => exact (evtStageFlush_isPrefix _).trans (evqPush_isPrefix _ ev)
  | submit txnId ev touches =>
    dsimp only [applyEvtMsg]
    by_cases hid : txnId = 0
    . unfold txnSubmit
      rw [if_pos hid]
      apply evtStageAdd_isPrefix
    . rw [(txnSubmit_evq hid ev).1]
  | begin_ id =>
    dsimp only [applyEvtMsg]
    rw [(txnBegin_evq id).1]
  | commit id commitMsc => apply txnCommit_isPrefix
  | commitStale id =>
    dsimp only [applyEvtMsg]
    rw [(txnAbort_evq id).1]
  | abort id =>
    dsimp only [applyEvtMsg]
    rw [(txnAbort_evq id).1]

theorem consumeEvt_isPrefix (s : Session) (buf : Bytes) (readable : Bool) (io : WriteIo)
    : s.evt.evq <+: (consumeEvt s buf readable io).evt.evq := by
  unfold consumeEvt handleEvtMsg
  dsimp only
  have hmsg := applyEvtMsg_isPrefix { s with evt := { s.evt with evtStaged := false } }
    (evtDecode s.audioEpoch buf) io
  generalize (applyEvtMsg { s with evt := { s.evt with evtStaged := false } }
    (evtDecode s.audioEpoch buf) io).evt = e at hmsg
  have hlast : ∀ e₁ : EvtState, e₁.evq <+:
      (if ¬ e₁.evtStage.isEmpty = true ∧ ¬ readable = true then evtStageFlush e₁ else e₁).evq := by
    intro e₁
    split
    next => apply evtStageFlush_isPrefix
    next => apply List.prefix_refl
  apply hmsg.trans
  split
  next =>
    apply List.IsPrefix.trans _ (hlast _)
    apply evtStageFlush_isPrefix
  next => apply hlast

-- What is queued ahead of a note message: it flushes the staged run first.
def EvtState.ahead (e : EvtState) : List DevEvent :=
  (evtStageFlush e).evq

theorem noteEvt_evq (e : EvtState) (ev : DevEvent)
    : (noteEvt e ev).txn = e.txn ∧ (noteEvt e ev).evtStage = [] ∧ (noteEvt e ev).evq =
        if e.ahead.length < devEvqCap then e.ahead ++ [ev] else e.ahead := by
  obtain ⟨hevq, htxn, hstage⟩ := evtStageFlush_eq e
  unfold noteEvt EvtState.ahead evqFull evqPush
  dsimp only
  by_cases hroom : (evtStageFlush e).evq.length < devEvqCap
  . have hfull : ¬ devEvqCap ≤ (evtStageFlush e).evq.length := by omega
    simp [hroom, hfull, htxn]
  . simp only [hroom, if_false]
    split <;> exact ⟨htxn, hstage, rfl⟩

theorem EvtState.ahead_staged (e : EvtState) (staged : Bool)
    : EvtState.ahead { e with evtStaged := staged } = e.ahead := by
  unfold EvtState.ahead
  rw [(evtStageFlush_eq _).1, (evtStageFlush_eq _).1]

/--
A note message: what was staged goes first, and the event is queued when there is room.
-/
theorem Synth.consumeEvt_note {s : Synth D} {buf : Bytes} {ev : DevEvent}
    (hmsg : evtDecode s.audioEpoch buf = .note ev) (readable : Bool) (io : WriteIo)
    : (s.consumeEvt buf readable io).e.parts = (s.e.noteMsg ev).parts ∧
      (s.consumeEvt buf readable io).e.evt.txn = s.e.evt.txn ∧
      (s.consumeEvt buf readable io).e.evt.evtStage = [] ∧
      (s.consumeEvt buf readable io).e.evt.evq =
        if s.e.evt.ahead.length < devEvqCap then s.e.evt.ahead ++ [ev] else s.e.evt.ahead := by
  have hflushed := consumeEvt_flushed s.session buf readable io
  have hdecode : evtDecode s.session.audioEpoch buf = .note ev := hmsg
  rw [hdecode] at hflushed
  dsimp only [applyEvtMsg] at hflushed
  obtain ⟨htxn, hstage, hevq⟩ := noteEvt_evq { s.session.evt with evtStaged := false } ev
  obtain ⟨hkept, hstage⟩ := hflushed.rest hstage
  refine ⟨?_, hflushed.txn.trans htxn, hstage, ?_⟩
  . unfold Synth.consumeEvt
    rw [hmsg]
  . apply hkept.trans
    rw [hevq, EvtState.ahead_staged]
    rfl

/--
Any other message leaves the parts alone, and every message only adds to the queue.
-/
theorem Synth.consumeEvt_parts {s : Synth D} {buf : Bytes}
    (hmsg : ∀ ev, evtDecode s.audioEpoch buf ≠ .note ev) (readable : Bool) (io : WriteIo)
    : (s.consumeEvt buf readable io).e.parts = s.e.parts := by
  unfold Synth.consumeEvt
  dsimp only
  split
  next ev heq => exact absurd heq (hmsg ev)
  next => rfl

theorem Synth.consumeEvt_frame (s : Synth D) (buf : Bytes) (readable : Bool) (io : WriteIo)
    : (s.consumeEvt buf readable io).audioEpoch = s.audioEpoch ∧
      (s.consumeEvt buf readable io).e.applied = s.e.applied ∧
      s.e.evt.evq <+: (s.consumeEvt buf readable io).e.evt.evq := by
  refine ⟨?_, rfl, consumeEvt_isPrefix s.session buf readable io⟩
  unfold Synth.consumeEvt Harp.consumeEvt handleEvtMsg
  dsimp only
  generalize evtDecode s.session.audioEpoch buf = msg
  cases msg <;> rfl

theorem Engine.noteMsg_allOff (e : Engine D) {ev : DevEvent} (h : ev.kind = .allOff) (q : Fin nParts)
    : (e.noteMsg ev).parts q = { e.parts q with panicNote := .all } := by
  unfold Engine.noteMsg Engine.engineAllNotesOff
  dsimp only
  rw [if_pos h]
  split <;> simp

-- A note-on, and a note-off that finds room, is in the queue only.
theorem Engine.noteMsg_queued (e : Engine D) {ev : DevEvent} (hoff : ev.kind ≠ .allOff)
    (h : ev.kind = .noteOn ∨ e.evt.ahead.length < devEvqCap) : (e.noteMsg ev).parts = e.parts := by
  unfold Engine.noteMsg
  dsimp only
  rw [if_neg hoff, if_neg]
  rintro ⟨hon, hfull⟩
  unfold evqFull at hfull
  unfold EvtState.ahead at h
  simp only [hon, false_or] at h
  simp only [decide_eq_true_eq] at hfull
  omega

-- The mailboxes are all that a note message writes into the parts.
theorem Engine.noteMsg_parts (e : Engine D) (ev : DevEvent) (q : Fin nParts)
    : ∃ pn, (e.noteMsg ev).parts q = { e.parts q with panicNote := pn } := by
  unfold Engine.noteMsg Engine.engineAllNotesOff Engine.engineNoteOffIf
  dsimp only
  split_ifs <;> exact ⟨_, rfl⟩

theorem Synth.consumeEvt_mailbox (s : Synth D) (buf : Bytes) (readable : Bool) (io : WriteIo)
    (q : Fin nParts)
    : ∃ pn, (s.consumeEvt buf readable io).e.parts q = { s.e.parts q with panicNote := pn } := by
  unfold Synth.consumeEvt
  dsimp only
  split
  next ev _ => apply Engine.noteMsg_parts
  next => exact ⟨(s.e.parts q).panicNote, rfl⟩

end Frames

-- A channel voice message of one UMP word, in an EVT frame of any epoch.
def umpFrame (msc status channel note vel : Nat) : Bytes :=
  evtFrame msc 0 (cborBytes
    [0x20, UInt8.ofNat (status * 16 + channel), UInt8.ofNat note, UInt8.ofNat vel])

end Harp
