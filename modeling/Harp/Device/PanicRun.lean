import Harp.Device.EngineRun
import Harp.Device.StuckNotes

/-!
This module contains the panic of `handle_evt_msg` over whole runs of a device: when CC 120 or 123
has been applied, no voice sounds until a later note-on.

The event that goes through the queue also clears the arpeggiator of every part, the mailbox does not.
-/

namespace Harp

open Runs

variable {D X : Type} {k : Kernel D X}

section Spec

/--
A device after a panic. `old` is how many events of the queue were there when the message had been
handled, `due` the instant of the queued panic if there is one. The panic is `pending` until the
render has applied it, and `fresh` says that a note-on which arrived later has been applied since.
-/
structure Watch (D : Type) where
  s : Synth D
  old : Nat
  due : Option Nat
  pending : Bool
  fresh : Bool

def Watch.panic (s : Synth D) (buf : Bytes) (readable : Bool) (io : WriteIo) (ev : DevEvent)
    : Watch D :=
  let after := s.consumeEvt buf readable io
  ⟨after, after.e.evt.evq.length, if evqFull (evtStageFlush s.e.evt) then none else some ev.ts, true,
    false⟩

def Watch.next (k : Kernel D X) (w : Watch D) (op : SynthOp) : Watch D :=
  match op with
  | .evt .. => { w with s := w.s.next k op }
  | .segment _ _ pos done =>
    let cur := u64 (pos + done)
    let evq := w.s.e.evt.evq
    let pending := w.pending && w.due.any (cur < ·)
    { s := w.s.next k op,
      old := (evqRemaining (evq.take w.old) cur).length,
      due := w.due,
      pending,
      fresh := !pending && (w.fresh || (dueAt (evq.drop w.old) cur).any (·.kind = .noteOn)) }

/--
Once the panic has been applied, and until a later note-on is, no voice of any part is active.
-/
def Watch.Silenced (w : Watch D) : Prop :=
  w.pending = false → w.fresh = false → ∀ q vi, ((w.s.e.parts q).voices vi).active = false

/--
When the panic clears all that was there before it. One that is queued comes after every note-on that
waits; one that finds the queue full can only free voices, so nothing may wait and nothing be latched.
-/
def Synth.Clears (s : Synth D) (ev : DevEvent) : Prop :=
  if s.e.evt.ahead.length < devEvqCap then
    ∀ x ∈ s.e.evt.ahead, x.kind = .noteOn → x.ts ≤ ev.ts
  else
    (∀ x ∈ s.e.evt.ahead, x.kind ≠ .noteOn) ∧ ∀ q, (s.e.parts q).arp.latch.keys = []

-- A panic that is in the mailboxes only is not overwritten there by a note-off.
def Watch.Keeps (w : Watch D) : SynthOp → Prop
  | .evt buf _ _ => w.pending → w.due = none →
      ∀ ev ∈ (evtDecode w.s.audioEpoch buf).notes, ev.kind ≠ .noteOff
  | .segment .. => True

end Spec

section Calm

-- No voice has become active and no key has been latched.
structure Calmer (p p' : Part D) : Prop where
  active : ∀ i, (p'.voices i).active → (p.voices i).active
  latch : p.arp.latch.keys = [] → p'.arp.latch.keys = []

namespace Calmer

variable {p : Part D} {ev : DevEvent}

theorem refl (p : Part D) : Calmer p p :=
  ⟨fun _ h => h, fun h => h⟩

theorem trans {p p' p'' : Part D} (h : Calmer p p') (h' : Calmer p' p'') : Calmer p p'' :=
  ⟨fun i hi => h.active i (h'.active i hi), fun hnil => h'.latch (h.latch hnil)⟩

theorem of_aged {p' : Part D} (h : Aged p p') : Calmer p p' := by
  constructor
  . exact h.freed
  . rw [h.arp]
    exact id

theorem of_notesKept {p' : Part D} (h : NotesKept p p') : Calmer p p' := by
  constructor
  . intro i
    rw [h.active i]
    exact id
  . rw [h.arp]
    exact id

theorem arpVoiceOff (p : Part D) : Calmer p p.arpVoiceOff := by
  constructor
  . intro i
    unfold Part.arpVoiceOff
    dsimp only
    split
    next =>
      dsimp only [Part.setVoice]
      split
      next h =>
        subst h
        exact id
      next => exact id
    next => exact id
  . rw [Part.arpVoiceOff_arp]
    exact id

theorem freeVoices (p : Part D) : Calmer p p.freeVoices :=
  ⟨fun _ h => absurd h Bool.false_ne_true, id⟩

theorem voiceNoteOff (p : Part D) (note : Int) : Calmer p (p.voiceNoteOff note) := by
  constructor
  . intro i
    dsimp only [Part.voiceNoteOff, Part.mapVoices]
    split <;> exact id
  . exact id

theorem panicService (p : Part D) : Calmer p p.panicService := by
  unfold Part.panicService
  split
  next => exact refl p
  next =>
    obtain ⟨hactive, hlatch⟩ := freeVoices p
    exact ⟨hactive, hlatch⟩
  next n _ =>
    obtain ⟨hactive, hlatch⟩ := voiceNoteOff p n
    exact ⟨hactive, hlatch⟩

theorem noteOff (p : Part D) (ev : DevEvent) : Calmer p (p.noteOff ev) := by
  have hremove : Calmer p (p.arpLatchRemove (ev.a % 256)) := by
    constructor
    . exact fun _ h => h
    . intro hnil
      show p.arp.latch.keys.eraseP _ = []
      rw [hnil]
      rfl
  unfold Part.noteOff
  dsimp only
  split
  next => exact hremove.trans (voiceNoteOff _ _)
  next =>
    split
    next => exact hremove.trans (arpVoiceOff _)
    next => exact hremove

theorem allOff (p : Part D) : Calmer p p.allOff := by
  constructor
  . exact fun _ h => absurd h Bool.false_ne_true
  . intro _
    unfold Part.allOff Part.freeVoices Part.mapVoices Part.arpReset
    dsimp only
    rw [Part.arpVoiceOff_arp]
    rfl

theorem transport (pos : Nat) (p : Part D) (ev : DevEvent) : Calmer p (p.transport pos ev) := by
  have hanchored : Calmer p (p.anchored pos ev) := ⟨fun _ h => h, fun h => h⟩
  obtain ⟨_, _, heq⟩ | ⟨_, _, heq⟩ | ⟨_, heq⟩ := Part.transport_cases pos p ev
  . rw [heq]
    exact hanchored.trans (arpVoiceOff _)
  . rw [heq]
    exact ⟨fun _ h => h, fun h => h⟩
  . rw [heq]
    exact hanchored

theorem applyEvent (p : Part D) (pos : Nat) (routed : Bool) (h : ev.kind ≠ .noteOn)
    : Calmer p (p.applyEvent k pos ev routed) := by
  unfold Part.applyEvent
  cases hkind : ev.kind with
  | noteOn => exact absurd hkind h
  | allOff => exact allOff p
  | transport => exact transport pos p ev
  | noteOff | paramSet | ramp | mod =>
    dsimp only
    split
    next =>
      first
        | exact noteOff p ev
        | exact of_notesKept (NotesKept.paramSet p ev)
        | exact of_notesKept (NotesKept.rampTo p ev pos)
        | exact of_notesKept (NotesKept.modulate p ev)
    next => exact refl p

theorem applyEvents {pos : Nat} (e : Engine D) {evs : List DevEvent}
    (h : ∀ x ∈ evs, x.kind ≠ .noteOn) (q : Fin nParts)
    : Calmer (e.parts q) ((evs.foldl (Engine.applyEvent k pos) e).parts q) := by
  induction evs generalizing e with
  | nil => exact refl _
  | cons ev evs ih =>
    rw [List.forall_mem_cons] at h
    rw [List.foldl_cons]
    exact (applyEvent (e.parts q) pos _ h.1).trans (ih (e.applyEvent k pos ev) h.2)

-- With no key latched the step clock has nothing to play.
theorem arpFireDue (pos : Nat) (h : p.arp.latch.keys = []) : Calmer p (p.arpFireDue k pos) := by
  have hgate : Calmer p (p.arpGate pos) := by
    unfold Part.arpGate
    split
    next => exact arpVoiceOff p
    next => exact refl p
  have hstep : (p.arpGate pos).arpStep k pos = p.arpGate pos := by
    unfold Part.arpStep
    rw [if_pos]
    simp [hgate.latch h]
  unfold Part.arpFireDue
  split
  next => exact refl p
  next =>
    rw [hstep]
    exact hgate

end Calmer

-- Nothing sounds and nothing is latched.
structure Part.Silent (p : Part D) : Prop where
  idle : ∀ i, (p.voices i).active = false
  unlatched : p.arp.latch.keys = []

theorem Calmer.silent {p p' : Part D} (h : Calmer p p') (hp : p.Silent) : p'.Silent where
  idle i := by
    have := h.active i
    rw [hp.idle i] at this
    cases hact : (p'.voices i).active with
    | false => rfl
    | true => exact absurd (this hact) Bool.false_ne_true
  unlatched := h.latch hp.unlatched

theorem Part.Silent.allOff (p : Part D) : p.allOff.Silent where
  idle _ := rfl
  unlatched := by
    unfold Part.allOff Part.freeVoices Part.mapVoices Part.arpReset
    dsimp only
    rw [Part.arpVoiceOff_arp]
    rfl

-- What is left of a segment once the events and the panic have been served.
theorem Part.Silent.arpFireDue {p : Part D} (h : p.Silent) (pos : Nat) : (p.arpFireDue k pos).Silent :=
  (Calmer.arpFireDue pos h.unlatched).silent h

theorem Part.Silent.panicService_all {p : Part D} (h : p.arp.latch.keys = []) (hall : p.panicNote = .all)
    : p.panicService.Silent := by
  unfold Part.panicService
  rw [hall]
  exact ⟨fun _ => rfl, h⟩

end Calm

section Invariant

def Watch.oldEvents (w : Watch D) : List DevEvent :=
  w.s.e.evt.evq.take w.old

-- How far the panic has come.
inductive Watch.Phase (w : Watch D) : Prop where
  | queued {ahead : List DevEvent} {ev : DevEvent} (hpending : w.pending = true)
      (hdue : w.due = some ev.ts) (hold : w.oldEvents = ahead ++ [ev]) (hkind : ev.kind = .allOff)
      (hahead : ∀ x ∈ ahead, x.kind = .noteOn → x.ts ≤ ev.ts)
  | mailed (hpending : w.pending = true) (hdue : w.due = none)
      (hold : ∀ x ∈ w.oldEvents, x.kind ≠ .noteOn)
      (hparts : ∀ q, (w.s.e.parts q).arp.latch.keys = [] ∧ (w.s.e.parts q).panicNote = .all)
  | ended (hpending : w.pending = false) (hold : ∀ x ∈ w.oldEvents, x.kind ≠ .noteOn)
      (hsilent : ∀ q, (w.s.e.parts q).Silent)
  | fresh (hpending : w.pending = false) (hfresh : w.fresh = true)

structure PanicInv (w : Watch D) : Prop where
  bound : w.old ≤ w.s.e.evt.evq.length
  phase : w.Phase

variable {w : Watch D}

theorem PanicInv.silenced (h : PanicInv w) : w.Silenced := by
  intro hpending hfresh q vi
  cases h.phase with
  | queued hp => rw [hp] at hpending; cases hpending
  | mailed hp => rw [hp] at hpending; cases hpending
  | ended _ _ hsilent => exact (hsilent q).idle vi
  | fresh _ hf => rw [hf] at hfresh; cases hfresh

theorem PanicInv.panic {s : Synth D} {buf : Bytes} {ev : DevEvent}
    (hmsg : evtDecode s.audioEpoch buf = .note ev) (hkind : ev.kind = .allOff) (hclears : s.Clears ev)
    (readable : Bool) (io : WriteIo) : PanicInv (Watch.panic s buf readable io ev) := by
  obtain ⟨hparts, _, _, hevq⟩ := Synth.consumeEvt_note hmsg readable io
  have hold : (Watch.panic s buf readable io ev).oldEvents =
      (s.consumeEvt buf readable io).e.evt.evq := List.take_length
  constructor
  . exact Nat.le_refl _
  . unfold Synth.Clears at hclears
    by_cases hroom : s.e.evt.ahead.length < devEvqCap
    . rw [if_pos hroom] at hclears hevq
      have hfull : evqFull (evtStageFlush s.e.evt) = false := by
        unfold evqFull
        unfold EvtState.ahead at hroom
        simpa using hroom
      apply Watch.Phase.queued rfl _ (hold.trans hevq) hkind hclears
      show (if evqFull (evtStageFlush s.e.evt) then none else some ev.ts) = some ev.ts
      rw [hfull]
      rfl
    . rw [if_neg hroom] at hclears hevq
      have hfull : evqFull (evtStageFlush s.e.evt) = true := by
        unfold evqFull
        unfold EvtState.ahead at hroom
        simpa using hroom
      apply Watch.Phase.mailed rfl
      . show (if evqFull (evtStageFlush s.e.evt) then none else some ev.ts) = none
        rw [hfull]
        rfl
      . rw [hold, hevq]
        exact hclears.1
      . intro q
        show ((s.consumeEvt buf readable io).e.parts q).arp.latch.keys = [] ∧
          ((s.consumeEvt buf readable io).e.parts q).panicNote = .all
        rw [hparts, Engine.noteMsg_allOff _ hkind]
        exact ⟨hclears.2 q, rfl⟩

-- A frame leaves the panic where it is.
theorem PanicInv.evt (h : PanicInv w) {buf : Bytes} {readable : Bool} {io : WriteIo}
    (hkeeps : w.Keeps (.evt buf readable io)) : PanicInv (w.next k (.evt buf readable io)) := by
  obtain ⟨_, _, hevq⟩ := w.s.consumeEvt_frame buf readable io
  have hold : (w.next k (.evt buf readable io)).oldEvents = w.oldEvents := by
    obtain ⟨new, hnew⟩ := hevq
    show (w.s.consumeEvt buf readable io).e.evt.evq.take w.old = w.s.e.evt.evq.take w.old
    rw [← hnew, List.take_append_of_le_length h.bound]
  constructor
  . exact Nat.le_trans h.bound hevq.length_le
  . cases h.phase with
    | queued hp hdue hq hkind hahead => exact .queued hp hdue (hold.trans hq) hkind hahead
    | mailed hp hdue hq hparts =>
      refine Watch.Phase.mailed hp hdue (by rw [hold]; exact hq) ?_
      intro q
      show ((w.s.consumeEvt buf readable io).e.parts q).arp.latch.keys = [] ∧
        ((w.s.consumeEvt buf readable io).e.parts q).panicNote = .all
      by_cases hnote : ∃ ev, evtDecode w.s.audioEpoch buf = .note ev
      . obtain ⟨ev, hmsg⟩ := hnote
        have hkinds := evtDecode_kinds w.s.audioEpoch buf
        rw [hmsg] at hkinds
        rw [(Synth.consumeEvt_note hmsg readable io).1]
        obtain ⟨hon | hoff | hall, _⟩ := hkinds
        . rw [Engine.noteMsg_queued _ (by rw [hon]; decide) (.inl hon)]
          exact hparts q
        . exact absurd hoff (hkeeps hp hdue ev (EvtMsg.mem_notes.mpr hmsg))
        . rw [Engine.noteMsg_allOff _ hall]
          exact ⟨(hparts q).1, rfl⟩
      . rw [Synth.consumeEvt_parts (not_exists.mp hnote)]
        exact hparts q
    | ended hp hq hsilent =>
      refine Watch.Phase.ended hp (by rw [hold]; exact hq) ?_
      intro q
      obtain ⟨pn, hpn⟩ := w.s.consumeEvt_mailbox buf readable io q
      show ((w.s.consumeEvt buf readable io).e.parts q).Silent
      rw [hpn]
      exact ⟨(hsilent q).idle, (hsilent q).unlatched⟩
    | fresh hp hfresh => exact .fresh hp hfresh

section Segment

variable {slots : List OutSlot} {n pos done : Nat}

-- The events from before the panic stay in front.
theorem Watch.oldEvents_segment (w : Watch D)
    : (w.next k (.segment slots n pos done)).oldEvents =
        evqRemaining w.oldEvents (u64 (pos + done)) := by
  have hsplit : w.oldEvents ++ w.s.e.evt.evq.drop w.old = w.s.e.evt.evq := List.take_append_drop ..
  unfold Watch.oldEvents Watch.next Synth.next
  dsimp only
  rw [Engine.segment_evq]
  nth_rewrite 2 [← hsplit]
  unfold evqRemaining Watch.oldEvents
  rw [List.filter_append, List.take_left]

theorem Watch.dueAt_split (w : Watch D) (cur : Nat)
    : dueAt w.s.e.evt.evq cur = dueAt w.oldEvents cur ++ dueAt (w.s.e.evt.evq.drop w.old) cur := by
  unfold dueAt
  rw [← List.filter_append, Watch.oldEvents, List.take_append_drop]

-- Silence after the events and the mailboxes lasts through the segment.
theorem Engine.segment_silent {e : Engine D}
    (h : ∀ q, (((dueAt e.evt.evq (u64 (pos + done))).foldl (Engine.applyEvent k (u64 (pos + done)))
      e).parts q).panicService.Silent) (q : Fin nParts)
    : ((e.segment k slots n pos done).parts q).Silent := by
  apply (Calmer.of_aged ((Engine.segment_aged e).2.2 q)).silent
  rw [Engine.segStart_parts]
  exact (h q).arpFireDue _

-- The end of the panic, where a later note-on may already be among the due events.
theorem Watch.phase_ended
    (hdone : (w.pending && w.due.any (u64 (pos + done) < ·)) = false)
    (hrest : ∀ x ∈ evqRemaining w.oldEvents (u64 (pos + done)), x.kind ≠ .noteOn)
    (hsilent : (∀ x ∈ dueAt (w.s.e.evt.evq.drop w.old) (u64 (pos + done)), x.kind ≠ .noteOn) →
      ∀ q, (((dueAt w.s.e.evt.evq (u64 (pos + done))).foldl
        (Engine.applyEvent k (u64 (pos + done))) w.s.e).parts q).panicService.Silent)
    : (w.next k (.segment slots n pos done)).Phase := by
  by_cases hlater : ∀ x ∈ dueAt (w.s.e.evt.evq.drop w.old) (u64 (pos + done)), x.kind ≠ .noteOn
  . apply Watch.Phase.ended hdone
    . rw [Watch.oldEvents_segment]
      exact hrest
    . exact Engine.segment_silent (hsilent hlater)
  . apply Watch.Phase.fresh hdone
    show (!(w.pending && w.due.any (u64 (pos + done) < ·)) && (w.fresh ||
      (dueAt (w.s.e.evt.evq.drop w.old) (u64 (pos + done))).any (·.kind = .noteOn))) = true
    rw [hdone]
    simp only [not_forall, not_not] at hlater
    obtain ⟨x, hx, hkind⟩ := hlater
    have hany : (dueAt (w.s.e.evt.evq.drop w.old) (u64 (pos + done))).any (·.kind = .noteOn) := by
      rw [List.any_eq_true]
      exact ⟨x, hx, by simpa using hkind⟩
    rw [hany]
    simp

theorem Watch.phase_queued {ahead : List DevEvent} {ev : DevEvent} (hp : w.pending = true)
    (hdue : w.due = some ev.ts) (hold : w.oldEvents = ahead ++ [ev])
    (hkind : ev.kind = .allOff) (hahead : ∀ x ∈ ahead, x.kind = .noteOn → x.ts ≤ ev.ts)
    : (w.next k (.segment slots n pos done)).Phase := by
  by_cases hcur : u64 (pos + done) < ev.ts
  . have hrest : evqRemaining w.oldEvents (u64 (pos + done)) =
        evqRemaining ahead (u64 (pos + done)) ++ [ev] := by
      rw [hold]
      unfold evqRemaining
      simp [hcur]
    refine .queued ?_ hdue (w.oldEvents_segment.trans hrest) hkind ?_
    . show (w.pending && w.due.any (u64 (pos + done) < ·)) = true
      rw [hp, hdue]
      simpa using hcur
    . intro x hx
      exact hahead x (List.mem_of_mem_filter hx)
  . apply Watch.phase_ended
    . rw [hdue]
      simp [hcur]
    . intro x hx hon
      rw [hold] at hx
      unfold evqRemaining at hx
      rw [List.mem_filter, List.mem_append, List.mem_singleton, decide_eq_true_eq] at hx
      cases hx.1 with
      | inl hmem =>
        have := hahead x hmem hon
        omega
      | inr heq =>
        rw [heq, hkind] at hon
        cases hon
    . -- what is due is all that was ahead, the panic, and what came later
      intro hlater q
      have hev : dueAt [ev] (u64 (pos + done)) = [ev] := by
        unfold dueAt
        rw [List.filter_singleton, decide_eq_true (Nat.not_lt.mp hcur)]
        rfl
      have hdueAt : dueAt w.s.e.evt.evq (u64 (pos + done)) =
          dueAt ahead (u64 (pos + done)) ++ ev ::
            dueAt (w.s.e.evt.evq.drop w.old) (u64 (pos + done)) := by
        have happ : dueAt (ahead ++ [ev]) (u64 (pos + done)) =
            dueAt ahead (u64 (pos + done)) ++ dueAt [ev] (u64 (pos + done)) := List.filter_append ..
        rw [Watch.dueAt_split, hold, happ, hev, List.append_assoc, List.singleton_append]
      rw [hdueAt, List.foldl_append, List.foldl_cons]
      apply (Calmer.panicService _).silent
      apply (Calmer.applyEvents _ hlater q).silent
      unfold Engine.applyEvent Part.applyEvent
      rw [hkind]
      apply Part.Silent.allOff

theorem PanicInv.segment (h : PanicInv w) : PanicInv (w.next k (.segment slots n pos done)) := by
  -- events from before the panic that are no note-ons, with those that are due after it
  have hnone : (∀ x ∈ w.oldEvents, x.kind ≠ .noteOn) →
      (∀ x ∈ dueAt (w.s.e.evt.evq.drop w.old) (u64 (pos + done)), x.kind ≠ .noteOn) →
      ∀ x ∈ dueAt w.s.e.evt.evq (u64 (pos + done)), x.kind ≠ .noteOn := by
    intro hold hlater x hx
    rw [Watch.dueAt_split, List.mem_append] at hx
    cases hx with
    | inl hx => exact hold x (List.mem_of_mem_filter hx)
    | inr hx => exact hlater x hx
  constructor
  . show (evqRemaining w.oldEvents (u64 (pos + done))).length ≤
      (w.s.e.segment k slots n pos done).evt.evq.length
    rw [Engine.segment_evq]
    exact ((List.take_sublist w.old _).filter _).length_le
  . cases h.phase with
    | queued hp hdue hold hkind hahead => exact Watch.phase_queued hp hdue hold hkind hahead
    | mailed hp hdue hold hparts =>
      apply Watch.phase_ended
      . rw [hdue]
        simp
      . exact fun x hx => hold x (List.mem_of_mem_filter hx)
      . intro hlater q
        apply Part.Silent.panicService_all
        . exact (Calmer.applyEvents _ (hnone hold hlater) q).latch (hparts q).1
        . rw [Engine.applyEvents_panicNote]
          exact (hparts q).2
    | ended hp hold hsilent =>
      apply Watch.phase_ended
      . rw [hp]
        rfl
      . exact fun x hx => hold x (List.mem_of_mem_filter hx)
      . intro hlater q
        apply (Calmer.panicService _).silent
        exact (Calmer.applyEvents _ (hnone hold hlater) q).silent (hsilent q)
    | fresh hp hfresh =>
      apply Watch.Phase.fresh
      . show (w.pending && w.due.any (u64 (pos + done) < ·)) = false
        rw [hp]
        rfl
      . show (!(w.pending && w.due.any (u64 (pos + done) < ·)) && (w.fresh || _)) = true
        rw [hp, hfresh]
        rfl

end Segment

/--
A panic that clears all that was there before it silences the device: in every run that follows, once
it has been applied, no voice is active until a later note-on is applied.
-/
theorem silenced_of_clears (k : Kernel D X) (s : Synth D) (buf : Bytes) (readable : Bool) (io : WriteIo)
    (ev : DevEvent) (hmsg : evtDecode s.audioEpoch buf = .note ev) (hkind : ev.kind = .allOff)
    (hclears : s.Clears ev) {w : Watch D}
    (h : Run (Watch.next k) Watch.Keeps (Watch.panic s buf readable io ev) w) : w.Silenced := by
  apply PanicInv.silenced
  apply h.inv (PanicInv.panic hmsg hkind hclears readable io)
  intro w op hw hkeeps
  cases op with
  | evt buf readable io => exact hw.evt hkeeps
  | segment slots n pos done => exact hw.segment

end Invariant

section Held

-- CC 123, at once.
def panicFrame : Bytes := umpFrame 0 0xb 0 123 0

def panicEvent : DevEvent := eventNow .allOff 123 (Ieee.Fp.ofBits 0)

theorem panicFrame_decode : evtDecode 0 panicFrame = .note panicEvent := by
  decide +kernel

-- The arpeggiator of part 0 plays a key that is held.
def arpHeld : Engine Nat :=
  [setMode, play, keyOn].foldl (Engine.applyEvent countKernel 0) (Engine.boot countKernel)

def held (evq : List DevEvent) : Synth Nat :=
  ⟨blankDevice, 0, { arpHeld with evt := { EvtState.fresh with evq } }⟩

theorem silenced_arpHeld
    : let w := [.segment [0, 1] 4 0 1, .segment [0, 1] 4 4 0].foldl (Watch.next countKernel)
        (Watch.panic (held [keyOn]) panicFrame false .ok panicEvent)
      w.pending = false ∧ w.fresh = false ∧ w.Silenced := by
  refine ⟨by decide +kernel, by decide +kernel, ?_⟩
  apply silenced_of_clears countKernel (held [keyOn]) panicFrame false .ok panicEvent
    panicFrame_decode rfl
  . unfold Synth.Clears
    decide
  . exact Run.of_guarded _ .start ⟨trivial, trivial, trivial⟩

-- A queue full of settings for much later.
def jammed : Synth Nat :=
  held (List.replicate devEvqCap { setEvent with ts := 2 ^ 40 })

theorem not_silenced_jammed
    : ¬ ∀ (s : Synth Nat) (buf : Bytes) (readable : Bool) (io : WriteIo) (ev : DevEvent),
        evtDecode s.audioEpoch buf = .note ev → ev.kind = .allOff →
          ∀ w, Run (Watch.next countKernel) free (Watch.panic s buf readable io ev) w → w.Silenced := by
  intro h
  have hsilenced := h jammed panicFrame false .ok panicEvent panicFrame_decode rfl _
    (Run.foldl [.segment [0, 1] 2 0 1] .start)
  have hactive := hsilenced (by decide +kernel) (by decide +kernel) 0 0
  revert hactive
  decide +kernel

end Held

end Harp
