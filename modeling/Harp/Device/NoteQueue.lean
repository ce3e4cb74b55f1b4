import Harp.Device.EngineRun
import Harp.Device.EventCarry
import Harp.Device.StuckNotes

/-!
This module contains the way of note messages through the event queue, over whole runs of a device: a
note-off that was the last message of its key releases it once the queue has drained, and releases
nothing on another part.

A note-off that finds the queue full goes to the panic mailboxes. There is one for each part, it holds
one note, and the note is written to all of them.
-/

namespace Harp

open Runs

variable {D X : Type} {k : Kernel D X}

section Spec

-- A device with the note messages it has been sent.
structure Played (D : Type) where
  s : Synth D
  sent : List DevEvent

def Played.next (k : Kernel D X) (p : Played D) (op : SynthOp) : Played D :=
  { s := p.s.next k op,
    sent :=
      match op with
      | .evt buf _ _ => p.sent ++ (evtDecode p.s.audioEpoch buf).notes
      | .segment .. => p.sent }

-- The first stream of a session, on an engine with any patch.
def Played.start (k : Kernel D X) (dev : Device) (epoch : Nat) (e : Engine D) : Played D :=
  ⟨⟨dev, epoch, (Stream.start k { e with evt := EvtState.fresh }).e⟩, []⟩

def DevEvent.onKey (q : Fin nParts) (a : Nat) (ev : DevEvent) : Bool :=
  harpEvtPart ev.channel = q ∧ ev.a = a

-- The last note-on or note-off of a key.
def lastMsg (q : Fin nParts) (a : Nat) (sent : List DevEvent) : Option EvKind :=
  ((sent.filter (fun ev => ev.onKey q a ∧ (ev.kind = .noteOn ∨ ev.kind = .noteOff))).getLast?).map
    DevEvent.kind

/--
A key is released: it is not latched, and no voice holds its note, unless it is the step that the
arpeggiator plays of other keys.
-/
def Part.Released (p : Part D) (a : Nat) : Prop :=
  a ∉ p.arp.latch.keys.map Prod.fst ∧
    ∀ vi, (p.voices vi).note = a → p.arpEngaged ∧ vi = 0 ∧ p.arp.sounding = a ∧ p.arp.latch.keys ≠ []

-- A set of the Arp Mode to a mode that steps.
def DevEvent.arpOn (ev : DevEvent) : Prop :=
  ev.kind = .paramSet ∧ ev.voice = 0 ∧ paramIndex ev.a = some arpModeIx ∧ modeOn ev.v

-- What takes a note from a voice of a part: events of its own, the panic, and the step clock.
def DevEvent.takes (q : Fin nParts) (note : Int) (ev : DevEvent) : Prop :=
  (harpEvtPart ev.channel = q ∧
      (ev.kind = .noteOn ∨ (ev.kind = .noteOff ∧ (ev.a : Int) = note) ∨ ev.arpOn)) ∨
    ev.kind = .allOff ∨ ev.kind = .transport

def Engine.Cause (q : Fin nParts) (cur : Nat) (note : Int) (e : Engine D) : Prop :=
  (∃ ev ∈ dueAt e.evt.evq cur, ev.takes q note) ∨ (e.parts q).panicNote = .all ∨
    (e.parts q).arpEngaged ∨ 0 ≤ (e.parts q).arp.sounding

/--
The next segment takes a note from a voice for a cause of its own part only, never for a note-off of
another one.
-/
def Synth.Spares (k : Kernel D X) (q : Fin nParts) (s : Synth D) : Prop :=
  ∀ slots n pos done vi,
    (((s.e.segment k slots n pos done).parts q).voices vi).note = ((s.e.parts q).voices vi).note ∨
      s.e.Cause q (u64 (pos + done)) ((s.e.parts q).voices vi).note

structure Played.Unlost (k : Kernel D X) (q : Fin nParts) (p : Played D) : Prop where
  released : ∀ a, lastMsg q a p.sent = some .noteOff → p.s.e.evt.evq = [] → (p.s.e.parts q).Released a
  spares : p.s.Spares k q

/--
A note-off finds room in the queue, and no note-on of its key waits there for a later instant. An
event that is applied fits the part, as in the life of a note.
-/
def Played.Fits (k : Kernel D X) (q : Fin nParts) (p : Played D) : SynthOp → Prop
  | .evt buf _ _ => ∀ ev ∈ (evtDecode p.s.audioEpoch buf).notes, ev.kind = .noteOff →
      p.s.e.evt.ahead.length < devEvqCap ∧
        ∀ x ∈ p.s.e.evt.ahead, x.kind = .noteOn → x.onKey (harpEvtPart ev.channel) ev.a → x.ts ≤ ev.ts
  | .segment _ _ pos done =>
      Run.Guarded (Engine.applyEvent k (u64 (pos + done))) (Engine.Fits q) p.s.e
        (dueAt p.s.e.evt.evq (u64 (pos + done)))

instance (k : Kernel D X) (q : Fin nParts) (p : Played D)
    : (op : SynthOp) → Decidable (p.Fits k q op)
  | .evt buf _ _ => inferInstanceAs (Decidable (∀ ev ∈ (evtDecode p.s.audioEpoch buf).notes,
      ev.kind = .noteOff → p.s.e.evt.ahead.length < devEvqCap ∧
        ∀ x ∈ p.s.e.evt.ahead, x.kind = .noteOn → x.onKey (harpEvtPart ev.channel) ev.a →
          x.ts ≤ ev.ts))
  | .segment _ _ pos done => inferInstanceAs (Decidable
      (Run.Guarded (Engine.applyEvent k (u64 (pos + done))) (Engine.Fits q) p.s.e
        (dueAt p.s.e.evt.evq (u64 (pos + done)))))

end Spec

section Queue

-- No note-on is staged or buffered in a transaction: only sets, ramps and modulations are.
structure Unkeyed (e : EvtState) : Prop where
  stage : ∀ ev ∈ e.evtStage, ev.kind ≠ .noteOn
  txn : ∀ t ∈ e.txn.slots, ∀ ev ∈ t.ev, ev.kind ≠ .noteOn

/--
A step of the event plane that brings no note-on.
-/
structure Carries (e e' : EvtState) : Prop where
  unkeyed : Unkeyed e'
  evq : ∃ new, e'.evq = e.evq ++ new ∧ ∀ ev ∈ new, ev.kind ≠ .noteOn

theorem Unkeyed.holding {e : EvtState} (h : Unkeyed e)
    : e.Holding (fun ev => ev.kind ≠ .noteOn) :=
  ⟨h.stage, h.txn⟩

theorem Carries.of_brings {e e' : EvtState} (h : Brings (fun ev => ev.kind ≠ .noteOn) e e')
    : Carries e e' :=
  ⟨⟨h.holding.stage, h.holding.txn⟩, h.evq⟩

theorem EvtMsg.Kinds.of {msg : EvtMsg} (h : msg.Kinds) (hnote : ∀ ev, msg ≠ .note ev)
    : msg.Of (fun ev => ev.kind ≠ .noteOn) := by
  cases msg with
  | note ev => exact absurd rfl (hnote ev)
  | transport ev =>
    have hkind : ev.kind = .transport := h
    show ev.kind ≠ .noteOn
    rw [hkind]
    decide
  | submit txnId ev touches =>
    show ev.kind ≠ .noteOn
    obtain hkind | hkind | hkind := h
    all_goals
      rw [hkind]
      decide
  | _ => trivial

theorem Carries.frame {s : Session} (h : Unkeyed s.evt) {buf : Bytes}
    (hnote : ∀ ev, evtDecode s.audioEpoch buf ≠ .note ev) (readable : Bool) (io : WriteIo)
    : Carries s.evt (consumeEvt s buf readable io).evt := by
  apply Carries.of_brings
  apply Brings.frame
  . intro msc ev hev
    exact hev
  . exact h.holding
  . exact (evtDecode_kinds s.audioEpoch buf).of hnote

end Queue

section Keys

variable {q : Fin nParts} {a : Nat}

theorem not_mem_keyStep {down : List Nat} {ev : DevEvent} (h : a ∉ down)
    (hev : ev.onKey q a → ev.kind ≠ .noteOn) : a ∉ keyStep q down ev := by
  unfold DevEvent.onKey at hev
  unfold keyStep
  split
  next => exact h
  next hq =>
    split
    next hkind =>
      rw [List.mem_cons, not_or]
      refine ⟨?_, h⟩
      intro heq
      exact hev (by simpa [heq] using hq) hkind
    next => exact fun hmem => h (List.mem_of_mem_filter hmem)
    next => exact h

theorem not_mem_keyStep_off {ev : DevEvent} (down : List Nat) (hkind : ev.kind = .noteOff)
    (hkey : ev.onKey q a) : a ∉ keyStep q down ev := by
  unfold DevEvent.onKey at hkey
  simp only [decide_eq_true_eq] at hkey
  unfold keyStep
  rw [if_neg (not_not.mpr hkey.1), hkind]
  simp [hkey.2]

theorem not_mem_keySteps {down : List Nat} {evs : List DevEvent} (h : a ∉ down)
    (hevs : ∀ ev ∈ evs, ev.onKey q a → ev.kind ≠ .noteOn) : a ∉ evs.foldl (keyStep q) down := by
  induction evs generalizing down with
  | nil => exact h
  | cons ev evs ih =>
    rw [List.forall_mem_cons] at hevs
    rw [List.foldl_cons]
    exact ih (not_mem_keyStep h hevs.1) hevs.2

theorem keysDown_append (q : Fin nParts) (applied : List (Nat × DevEvent)) (cur : Nat)
    (evs : List DevEvent)
    : keysDown q (applied ++ evs.map (Prod.mk cur)) = evs.foldl (keyStep q) (keysDown q applied) := by
  unfold keysDown
  rw [List.foldl_append, List.foldl_map]

/--
A key whose last message was a note-off is up, or its note-off is still in the queue. In either case
no note-on of the key comes after it.
-/
inductive KeyInv (q : Fin nParts) (a : Nat) (down : List Nat) (evq : List DevEvent) : Prop where
  | up (hdown : a ∉ down) (hevq : ∀ x ∈ evq, x.onKey q a → x.kind ≠ .noteOn)
  | waiting {ahead behind : List DevEvent} {off : DevEvent} (hevq : evq = ahead ++ off :: behind)
      (hkind : off.kind = .noteOff) (hkey : off.onKey q a)
      (hahead : ∀ x ∈ ahead, x.kind = .noteOn → x.onKey q a → x.ts ≤ off.ts)
      (hbehind : ∀ x ∈ behind, x.onKey q a → x.kind ≠ .noteOn)

variable {down : List Nat} {evq : List DevEvent}

theorem KeyInv.append (h : KeyInv q a down evq) {new : List DevEvent}
    (hnew : ∀ x ∈ new, x.onKey q a → x.kind ≠ .noteOn) : KeyInv q a down (evq ++ new) := by
  cases h with
  | up hdown hevq =>
    apply KeyInv.up hdown
    intro x hx
    rw [List.mem_append] at hx
    cases hx with
    | inl hx => exact hevq x hx
    | inr hx => exact hnew x hx
  | @waiting ahead behind off hevq hkind hkey hahead hbehind =>
    have hsplit : evq ++ new = ahead ++ off :: (behind ++ new) := by
      rw [hevq, List.append_assoc, List.cons_append]
    apply KeyInv.waiting hsplit hkind hkey hahead
    intro x hx
    rw [List.mem_append] at hx
    cases hx with
    | inl hx => exact hbehind x hx
    | inr hx => exact hnew x hx

-- The due events are applied in the order of the queue.
theorem KeyInv.applyDue (h : KeyInv q a down evq) (cur : Nat)
    : KeyInv q a ((dueAt evq cur).foldl (keyStep q) down) (evqRemaining evq cur) := by
  cases h with
  | up hdown hevq =>
    apply KeyInv.up
    . exact not_mem_keySteps hdown (fun x hx => hevq x (List.mem_of_mem_filter hx))
    . exact fun x hx => hevq x (List.mem_of_mem_filter hx)
  | @waiting ahead behind off hevq hkind hkey hahead hbehind =>
    unfold dueAt evqRemaining
    rw [hevq, List.filter_append, List.filter_append]
    by_cases hcur : off.ts ≤ cur
    . have hlt : ¬ cur < off.ts := by omega
      rw [List.filter_cons_of_pos (by simpa using hcur), List.filter_cons_of_neg (by simpa using hlt),
        List.foldl_append, List.foldl_cons]
      apply KeyInv.up
      . apply not_mem_keySteps
        . exact not_mem_keyStep_off _ hkind hkey
        . exact fun x hx => hbehind x (List.mem_of_mem_filter hx)
      . intro x hx hx' hon
        rw [List.mem_append, List.mem_filter, List.mem_filter, decide_eq_true_eq] at hx
        cases hx with
        | inl hx =>
          have := hahead x hx.1 hon hx'
          omega
        | inr hx => exact hbehind x hx.1 hx' hon
    . have hlt : cur < off.ts := by omega
      rw [List.filter_cons_of_pos (p := fun ev : DevEvent => decide (cur < ev.ts)) (by simpa using hlt)]
      apply KeyInv.waiting rfl hkind hkey
      . exact fun x hx => hahead x (List.mem_of_mem_filter hx)
      . exact fun x hx => hbehind x (List.mem_of_mem_filter hx)

end Keys

section Voices

variable {vi : Fin nVoices} {note : Int} {p : Part D} {ev : DevEvent}

-- A voice with its note on a part whose notes the step clock does not own.
structure Part.Rests (vi : Fin nVoices) (note : Int) (p : Part D) : Prop where
  free : p.arpEngaged = false
  unplayed : p.arp.sounding < 0
  held : (p.voices vi).note = note

theorem Part.Rests.of_notesKept {p' : Part D} (h : p.Rests vi note) (hkept : NotesKept p p')
    (hmode : modeOn (p'.pval arpModeIx) → p'.pval arpModeIx = p.pval arpModeIx)
    : p'.Rests vi note := by
  have hrun : p'.running = p.running := by
    unfold Part.running
    rw [hkept.arp]
  constructor
  . have hfree := h.free
    rw [Part.arpEngaged_eq] at hfree ⊢
    cases hon : modeOn (p'.pval arpModeIx) with
    | false => rfl
    | true =>
      rw [hmode hon] at hon
      rw [hrun, Bool.true_and]
      rwa [hon, Bool.true_and] at hfree
  . rw [hkept.arp]
    exact h.unplayed
  . rw [hkept.note]
    exact h.held

theorem Part.arpEngaged_stopped (h : p.arp.playing = false) : p.arpEngaged = false := by
  unfold Part.arpEngaged
  simp [h]

theorem Part.Rests.paramSet (h : p.Rests vi note) (hkind : ev.kind = .paramSet) (hoff : ¬ ev.arpOn)
    : (p.paramSet k ev).Rests vi note := by
  apply h.of_notesKept (NotesKept.paramSet p ev)
  unfold Part.paramSet
  cases hix : paramIndex ev.a with
  | none => exact fun _ => rfl
  | some j =>
    dsimp only
    split
    next => exact fun _ => rfl
    next hvoice =>
      dsimp only [Part.setRamp]
      intro hon
      by_cases hj : arpModeIx = j
      . subst hj
        rw [if_pos rfl] at hon
        exact absurd ⟨hkind, not_not.mp hvoice, hix, hon⟩ hoff
      . exact if_neg hj

theorem Part.rampTo_pval (pos : Nat) (p : Part D) (ev : DevEvent)
    : (p.rampTo k pos ev).pval = p.pval := by
  unfold Part.rampTo
  split
  next => rfl
  next => split <;> rfl

theorem Part.Rests.noteOff (h : p.Rests vi note) (hother : (ev.a : Int) ≠ note)
    : (p.noteOff ev).Rests vi note := by
  have heng : (p.arpLatchRemove (ev.a % 256)).arpEngaged = false := h.free
  unfold Part.noteOff
  dsimp only
  rw [heng, if_pos (by decide)]
  constructor
  . exact h.free
  . exact h.unplayed
  . have hheld : ((p.arpLatchRemove (ev.a % 256)).voices vi).note = note := h.held
    dsimp only [Part.voiceNoteOff, Part.mapVoices]
    rw [if_neg]
    . exact hheld
    . rintro ⟨_, heq⟩
      exact hother (heq.symm.trans hheld)

theorem Part.Rests.applyEvent {q : Fin nParts} (h : p.Rests vi note) (pos : Nat)
    (htakes : ¬ ev.takes q note)
    : (p.applyEvent k pos ev (q = harpEvtPart ev.channel)).Rests vi note := by
  unfold DevEvent.takes at htakes
  rw [not_or, not_or] at htakes
  obtain ⟨hown, hall, htransport⟩ := htakes
  unfold Part.applyEvent
  by_cases hq : harpEvtPart ev.channel = q
  . simp only [hq, decide_true, if_true]
    simp only [hq, true_and, not_or, not_and] at hown
    cases hkind : ev.kind with
    | noteOn => exact absurd hkind hown.1
    | noteOff => exact h.noteOff (hown.2.1 hkind)
    | allOff => exact absurd hkind hall
    | transport => exact absurd hkind htransport
    | paramSet => exact h.paramSet hkind hown.2.2
    | ramp =>
      apply h.of_notesKept (NotesKept.rampTo p ev pos)
      exact fun _ => congrFun (Part.rampTo_pval pos p ev) _
    | mod => exact h.of_notesKept (NotesKept.modulate p ev) (fun _ => rfl)
  . simp only [Ne.symm hq, decide_false]
    cases hkind : ev.kind with
    | allOff => exact absurd hkind hall
    | transport => exact absurd hkind htransport
    | _ => exact h

theorem Part.Rests.applyEvents {q : Fin nParts} {e : Engine D} (h : (e.parts q).Rests vi note)
    (pos : Nat) {evs : List DevEvent} (hevs : ∀ ev ∈ evs, ¬ ev.takes q note)
    : ((evs.foldl (Engine.applyEvent k pos) e).parts q).Rests vi note := by
  induction evs generalizing e with
  | nil => exact h
  | cons ev evs ih =>
    rw [List.forall_mem_cons] at hevs
    rw [List.foldl_cons]
    exact ih (h.applyEvent pos hevs.1) hevs.2

theorem Part.Rests.arpFireDue (h : p.Rests vi note) (pos : Nat)
    : (p.arpFireDue k pos).Rests vi note := by
  have hgate : (p.arpGate pos).Rests vi note := by
    unfold Part.arpGate
    split
    next =>
      unfold Part.arpVoiceOff
      dsimp only
      rw [if_neg]
      . exact ⟨h.free, (by decide : (-1 : Int) < 0), h.held⟩
      . rintro ⟨hge, _⟩
        have := h.unplayed
        omega
    next => exact h
  unfold Part.arpFireDue
  split
  next => exact h
  next hactive =>
    have hidle : (p.arpGate pos).running = false := by
      rw [Part.running_of_sameTransport (Part.arpGate_sameTransport p pos)]
      have hfree := h.free
      rw [Part.arpEngaged_eq, ← Part.arpActive_eq, not_not.mp hactive, Bool.true_and] at hfree
      exact hfree
    have hstep : (p.arpGate pos).arpStep k pos = p.arpGate pos := by
      unfold Part.arpStep
      rw [if_pos]
      unfold Part.running at hidle
      cases hplaying : (p.arpGate pos).arp.playing with
      | false => exact .inl Bool.false_ne_true
      | true =>
        rw [hplaying, Bool.true_and] at hidle
        exact .inr (.inl (Bool.eq_false_iff.mp hidle))
    rw [hstep]
    exact hgate

theorem Part.Rests.segment {q : Fin nParts} {e : Engine D} {slots : List OutSlot} {n pos done : Nat}
    (h : (e.parts q).Rests vi note) (hnone : (e.parts q).panicNote = .none)
    (hevs : ∀ ev ∈ dueAt e.evt.evq (u64 (pos + done)), ¬ ev.takes q note)
    : (((e.segment k slots n pos done).parts q).voices vi).note = note := by
  have hevents := h.applyEvents (k := k) (u64 (pos + done)) hevs
  have hstart : ((e.segStart k (u64 (pos + done)) (u64 (pos + n))).1.parts q).Rests vi note := by
    rw [Engine.segStart_parts]
    apply Part.Rests.arpFireDue
    unfold Part.panicService
    rw [Engine.applyEvents_panicNote, hnone]
    exact hevents
  rw [((Engine.segment_aged e).2.2 q).note]
  exact hstart.held

/--
As long as the mailbox of a part holds no single note, its voices lose their notes for a cause of
their own.
-/
theorem Synth.spares_of_mailbox {q : Fin nParts} {s : Synth D}
    (h : (s.e.parts q).panicNote = .none ∨ (s.e.parts q).panicNote = .all) : s.Spares k q := by
  intro slots n pos done vi
  by_cases hcause : s.e.Cause q (u64 (pos + done)) ((s.e.parts q).voices vi).note
  . exact .inr hcause
  . left
    unfold Engine.Cause at hcause
    simp only [not_or, not_exists, not_and] at hcause
    obtain ⟨hevs, hall, hfree, hsounding⟩ := hcause
    have hrests : (s.e.parts q).Rests vi ((s.e.parts q).voices vi).note := by
      constructor
      . exact Bool.not_eq_true _ ▸ hfree
      . omega
      . rfl
    exact hrests.segment (h.resolve_right hall) hevs

end Voices

section Runs

variable {q : Fin nParts} {p : Played D}

structure PlayInv (q : Fin nParts) (p : Played D) : Prop where
  unkeyed : Unkeyed p.s.e.evt
  mailbox : (p.s.e.parts q).panicNote = .none ∨ (p.s.e.parts q).panicNote = .all
  follows : p.s.e.NotesFollow q
  queued : ∀ ev ∈ p.s.e.evt.evq, ev.kind = .noteOn → ev.a < 128
  down : ∀ b ∈ keysDown q p.s.e.applied, b < 128
  keys : ∀ a, lastMsg q a p.sent = some .noteOff →
    KeyInv q a (keysDown q p.s.e.applied) p.s.e.evt.evq

theorem PlayInv.unlost (h : PlayInv q p) : p.Unlost k q := by
  constructor
  . intro a hlast hdrained
    have hup : a ∉ keysDown q p.s.e.applied := by
      cases h.keys a hlast with
      | up hdown _ => exact hdown
      | waiting hevq =>
        rw [hdrained] at hevq
        simp at hevq
    have hinv : NoteInv (keysDown q p.s.e.applied) (p.s.e.parts q) := h.follows
    constructor
    . intro hmem
      rw [List.mem_map] at hmem
      obtain ⟨x, hx, hxa⟩ := hmem
      obtain ⟨b, hb, hbx⟩ := hinv.latch x hx
      have hlt := h.down b hb
      have hba : b = a := by omega
      exact hup (hba ▸ hb)
    . intro vi hvi
      have hge : 0 ≤ ((p.s.e.parts q).voices vi).note := by omega
      cases heng : (p.s.e.parts q).arpEngaged with
      | false =>
        obtain ⟨b, hb, hbx⟩ := hinv.pool heng vi hge
        have hba : b = a := by omega
        exact absurd (hba ▸ hb) hup
      | true =>
        have h0 : vi = 0 := by
          by_contra hne
          have := hinv.mono heng vi hne
          omega
        subst h0
        obtain ⟨hsounding, hkeys⟩ := hinv.step heng hge
        exact ⟨rfl, rfl, hsounding.symm.trans hvi, hkeys⟩
  . exact Synth.spares_of_mailbox h.mailbox

theorem PlayInv.start (k : Kernel D X) (dev : Device) (epoch : Nat) (e : Engine D)
    : PlayInv q (Played.start k dev epoch e) := by
  constructor
  case unkeyed =>
    constructor
    . exact fun _ hev => absurd hev List.not_mem_nil
    . intro t ht
      have heq : t = DevTxn.closed := List.eq_of_mem_replicate ht
      rw [heq]
      exact fun _ hev => absurd hev List.not_mem_nil
  case mailbox =>
    left
    show (Part.arpVoiceOff _).panicNote = .none
    rw [Part.arpVoiceOff_panicNote]
  case follows => exact Engine.NotesFollow.start k _
  case queued => exact fun _ hev => absurd hev List.not_mem_nil
  case down => exact fun _ hb => absurd hb List.not_mem_nil
  case keys =>
    intro a hlast
    cases hlast

theorem lastMsg_snoc (a : Nat) (sent : List DevEvent) (ev : DevEvent)
    : lastMsg q a (sent ++ [ev]) =
        if ev.onKey q a ∧ (ev.kind = .noteOn ∨ ev.kind = .noteOff) then some ev.kind
        else lastMsg q a sent := by
  unfold lastMsg
  rw [List.filter_append, List.filter_singleton]
  split
  next h => simp [h]
  next h => simp [h]

-- A mailbox is no part of the invariant of the notes.
theorem NoteInv.mailbox {down : List Nat} {x : Part D} (h : NoteInv down x) (pn : PanicNote)
    : NoteInv down { x with panicNote := pn } :=
  ⟨h.latch, h.gated, h.pool, h.mono, h.step, h.ramp⟩

theorem PlayInv.follows_evt (h : PlayInv q p) (buf : Bytes) (readable : Bool) (io : WriteIo)
    : (p.s.consumeEvt buf readable io).e.NotesFollow q := by
  obtain ⟨pn, hpn⟩ := p.s.consumeEvt_mailbox buf readable io q
  unfold Engine.NotesFollow
  rw [hpn, (p.s.consumeEvt_frame buf readable io).2.1]
  exact NoteInv.mailbox h.follows pn

theorem PlayInv.other (h : PlayInv q p) {buf : Bytes} {readable : Bool} {io : WriteIo}
    (hnote : ∀ ev, evtDecode p.s.audioEpoch buf ≠ .note ev)
    : PlayInv q (p.next k (.evt buf readable io)) := by
  have hcarries : Carries p.s.e.evt (p.s.consumeEvt buf readable io).e.evt :=
    Carries.frame (s := p.s.session) h.unkeyed hnote readable io
  obtain ⟨new, hevq, hnew⟩ := hcarries.evq
  have hparts := Synth.consumeEvt_parts hnote readable io
  have hsent : (p.next k (.evt buf readable io)).sent = p.sent := by
    have hnil : (evtDecode p.s.audioEpoch buf).notes = [] := by
      rw [List.eq_nil_iff_forall_not_mem]
      exact fun ev hev => hnote ev (EvtMsg.mem_notes.mp hev)
    unfold Played.next
    dsimp only
    rw [hnil, List.append_nil]
  constructor
  case unkeyed => exact hcarries.unkeyed
  case mailbox =>
    show ((p.s.consumeEvt buf readable io).e.parts q).panicNote = .none ∨
      ((p.s.consumeEvt buf readable io).e.parts q).panicNote = .all
    rw [hparts]
    exact h.mailbox
  case follows => exact h.follows_evt buf readable io
  case queued =>
    show ∀ ev ∈ (p.s.consumeEvt buf readable io).e.evt.evq, ev.kind = .noteOn → ev.a < 128
    intro ev hev hon
    rw [hevq, List.mem_append] at hev
    cases hev with
    | inl hev => exact h.queued ev hev hon
    | inr hev => exact absurd hon (hnew ev hev)
  case down => exact h.down
  case keys =>
    intro a hlast
    rw [hsent] at hlast
    show KeyInv q a (keysDown q p.s.e.applied) (p.s.consumeEvt buf readable io).e.evt.evq
    rw [hevq]
    exact (h.keys a hlast).append (fun x hx _ => hnew x hx)

-- The staged run that goes ahead of a note message.
theorem Unkeyed.ahead {e : EvtState} (h : Unkeyed e)
    : ∃ new, e.ahead = e.evq ++ new ∧ ∀ ev ∈ new, ev.kind ≠ .noteOn :=
  (Brings.flush h.holding).evq

theorem PlayInv.note (h : PlayInv q p) {buf : Bytes} {readable : Bool} {io : WriteIo} {ev : DevEvent}
    (hmsg : evtDecode p.s.audioEpoch buf = .note ev)
    (hfits : p.Fits k q (.evt buf readable io)) : PlayInv q (p.next k (.evt buf readable io)) := by
  obtain ⟨hparts, htxn, hstage, hevq⟩ := Synth.consumeEvt_note hmsg readable io
  obtain ⟨new, hahead, hnew⟩ := h.unkeyed.ahead
  have hkinds := evtDecode_kinds p.s.audioEpoch buf
  rw [hmsg] at hkinds
  obtain ⟨hkinds, hsmall⟩ := hkinds
  have hsent : (p.next k (.evt buf readable io)).sent = p.sent ++ [ev] := by
    unfold Played.next
    dsimp only
    rw [hmsg]
    rfl
  have hroom := hfits ev (EvtMsg.mem_notes.mpr hmsg)
  constructor
  case unkeyed =>
    constructor
    . show ∀ x ∈ (p.s.consumeEvt buf readable io).e.evt.evtStage, x.kind ≠ .noteOn
      rw [hstage]
      exact fun _ hx => absurd hx List.not_mem_nil
    . show ∀ t ∈ (p.s.consumeEvt buf readable io).e.evt.txn.slots, ∀ x ∈ t.ev, x.kind ≠ .noteOn
      rw [htxn]
      exact h.unkeyed.txn
  case mailbox =>
    show ((p.s.consumeEvt buf readable io).e.parts q).panicNote = .none ∨
      ((p.s.consumeEvt buf readable io).e.parts q).panicNote = .all
    rw [hparts]
    obtain hon | hoff | hall := hkinds
    . rw [Engine.noteMsg_queued _ (by rw [hon]; decide) (.inl hon)]
      exact h.mailbox
    . rw [Engine.noteMsg_queued _ (by rw [hoff]; decide) (.inr (hroom hoff).1)]
      exact h.mailbox
    . rw [Engine.noteMsg_allOff _ hall]
      exact .inr rfl
  case follows => exact h.follows_evt buf readable io
  case queued =>
    show ∀ x ∈ (p.s.consumeEvt buf readable io).e.evt.evq, x.kind = .noteOn → x.a < 128
    have haheadlt : ∀ x ∈ p.s.e.evt.ahead, x.kind = .noteOn → x.a < 128 := by
      intro x hx hon
      rw [hahead, List.mem_append] at hx
      cases hx with
      | inl hx => exact h.queued x hx hon
      | inr hx => exact absurd hon (hnew x hx)
    intro x hx
    rw [hevq] at hx
    split at hx
    next =>
      rw [List.mem_append, List.mem_singleton] at hx
      cases hx with
      | inl hx => exact haheadlt x hx
      | inr hx =>
        rw [hx]
        exact fun _ => hsmall
    next => exact haheadlt x hx
  case down => exact h.down
  case keys =>
    intro a hlast
    rw [hsent, lastMsg_snoc] at hlast
    show KeyInv q a (keysDown q p.s.e.applied) (p.s.consumeEvt buf readable io).e.evt.evq
    rw [hevq]
    split at hlast
    next hkey =>
      -- the key's own note-off, which goes behind all that waits
      have hoff : ev.kind = .noteOff := Option.some.inj hlast
      obtain ⟨hlt, hbefore⟩ := hroom hoff
      have hon := hkey.1
      unfold DevEvent.onKey at hon
      simp only [decide_eq_true_eq] at hon
      rw [hon.1, hon.2] at hbefore
      rw [if_pos hlt]
      exact .waiting rfl hoff hkey.1 hbefore (fun _ hx => absurd hx List.not_mem_nil)
    next hkey =>
      have hkept : KeyInv q a (keysDown q p.s.e.applied) p.s.e.evt.ahead := by
        rw [hahead]
        exact (h.keys a hlast).append (fun x hx _ => hnew x hx)
      split
      next =>
        apply hkept.append
        intro x hx hon honk
        rw [List.mem_singleton] at hx
        subst hx
        exact hkey ⟨hon, .inl honk⟩
      next => exact hkept

theorem keySteps_small {down : List Nat} {evs : List DevEvent} (h : ∀ b ∈ down, b < 128)
    (hevs : ∀ ev ∈ evs, ev.kind = .noteOn → ev.a < 128)
    : ∀ b ∈ evs.foldl (keyStep q) down, b < 128 := by
  induction evs generalizing down with
  | nil => exact h
  | cons ev evs ih =>
    rw [List.forall_mem_cons] at hevs
    rw [List.foldl_cons]
    apply ih _ hevs.2
    unfold keyStep
    split
    next => exact h
    next =>
      split
      next hkind =>
        rw [List.forall_mem_cons]
        exact ⟨hevs.1 hkind, h⟩
      next => exact fun b hb => h b (List.mem_of_mem_filter hb)
      next => exact h

theorem PlayInv.segment (h : PlayInv q p) {slots : List OutSlot} {n pos done : Nat}
    (hfits : p.Fits k q (.segment slots n pos done))
    : PlayInv q (p.next k (.segment slots n pos done)) := by
  have haged : ∀ q, Aged ((p.s.e.segStart k (u64 (pos + done)) (u64 (pos + n))).1.parts q)
      ((p.s.e.segment k slots n pos done).parts q) := (Engine.segment_aged p.s.e).2.2
  have hevq : (p.s.e.segment k slots n pos done).evt =
      { p.s.e.evt with evq := evqRemaining p.s.e.evt.evq (u64 (pos + done)) } := by
    rw [(Engine.segment_aged p.s.e).1, Engine.segStart_evt]
  have happlied : (p.s.e.segment k slots n pos done).applied =
      p.s.e.applied ++ (dueAt p.s.e.evt.evq (u64 (pos + done))).map (Prod.mk (u64 (pos + done))) := by
    rw [(Engine.segment_aged p.s.e).2.1, Engine.segStart_applied]
  have hdown : keysDown q (p.s.e.segment k slots n pos done).applied =
      (dueAt p.s.e.evt.evq (u64 (pos + done))).foldl (keyStep q) (keysDown q p.s.e.applied) := by
    rw [happlied, keysDown_append]
  constructor
  case unkeyed =>
    show Unkeyed (p.s.e.segment k slots n pos done).evt
    rw [hevq]
    exact ⟨h.unkeyed.stage, h.unkeyed.txn⟩
  case mailbox =>
    left
    show ((p.s.e.segment k slots n pos done).parts q).panicNote = .none
    rw [(haged q).panicNote, Engine.segStart_parts, Part.arpFireDue_panicNote,
      Part.panicService_panicNote]
  case follows =>
    have hstart := h.follows.segStart (u64 (pos + n)) hfits
    show (p.s.e.segment k slots n pos done).NotesFollow q
    unfold Engine.NotesFollow at hstart ⊢
    rw [Engine.segStart_applied] at hstart
    rw [happlied]
    exact hstart.aged (haged q)
  case queued =>
    show ∀ ev ∈ (p.s.e.segment k slots n pos done).evt.evq, ev.kind = .noteOn → ev.a < 128
    rw [hevq]
    exact fun ev hev => h.queued ev (List.mem_of_mem_filter hev)
  case down =>
    show ∀ b ∈ keysDown q (p.s.e.segment k slots n pos done).applied, b < 128
    rw [hdown]
    exact keySteps_small h.down (fun ev hev => h.queued ev (List.mem_of_mem_filter hev))
  case keys =>
    intro a hlast
    show KeyInv q a (keysDown q (p.s.e.segment k slots n pos done).applied)
      (p.s.e.segment k slots n pos done).evt.evq
    rw [hdown, hevq]
    exact (h.keys a hlast).applyDue _

/--
When every note-off finds room in the queue behind the note-ons of its key, none is lost and none
reaches another part.
-/
theorem unlost_of_fits (k : Kernel D X) (dev : Device) (epoch : Nat) (e : Engine D) (q : Fin nParts)
    {p : Played D} (h : Run (Played.next k) (Played.Fits k q) (Played.start k dev epoch e) p)
    : p.Unlost k q := by
  apply PlayInv.unlost
  apply h.inv (PlayInv.start k dev epoch e)
  intro p op hp hfits
  cases op with
  | evt buf readable io =>
    by_cases hnote : ∃ ev, evtDecode p.s.audioEpoch buf = .note ev
    . obtain ⟨ev, hmsg⟩ := hnote
      exact hp.note hmsg hfits
    . exact hp.other (not_exists.mp hnote)
  | segment slots n pos done => exact hp.segment hfits

-- Frames for part 0, due at once.
def noteOnOp (note : Nat) : SynthOp := .evt (umpFrame 0 9 0 note 100) false .ok
def noteOffOp (note : Nat) : SynthOp := .evt (umpFrame 0 8 0 note 0) false .ok

def started : Played Nat := Played.start countKernel blankDevice 0 (Engine.boot countKernel)

-- Two keys of a chord go up between two segments.
def chord : List SynthOp :=
  [noteOnOp 60, noteOnOp 64, .segment [0, 1] 4 0 0, noteOffOp 60, noteOffOp 64,
    .segment [0, 1] 4 4 0]

theorem unlost_chord : (chord.foldl (Played.next countKernel) started).Unlost countKernel 0 :=
  unlost_of_fits countKernel blankDevice 0 (Engine.boot countKernel) 0
    (Run.of_guarded chord .start (by decide +kernel))

end Runs

section Crowd

-- A note-on of part 5, for much later.
def laterOn : DevEvent :=
  ⟨2 ^ 40, .noteOn, 1, velocity 100, 0, Ieee.Fp.ofBits 0, 5, 0⟩

def laterOnOp : SynthOp := .evt (umpFrame (2 ^ 40) 9 5 1 100) false .ok

def crowded (n : Nat) : Played Nat :=
  ⟨⟨blankDevice, 0, { started.s.e with evt := { EvtState.fresh with
    evq := List.replicate n laterOn, evtConsumed := UInt32.ofNat n } }⟩, List.replicate n laterOn⟩

theorem laterOnOp_decode : evtDecode 0 (umpFrame (2 ^ 40) 9 5 1 100) = .note laterOn := by
  decide +kernel

theorem crowded_next {n : Nat} (h : n < devEvqCap)
    : (crowded n).next countKernel laterOnOp = crowded (n + 1) := by
  have hdecode : evtDecode (crowded n).s.audioEpoch (umpFrame (2 ^ 40) 9 5 1 100) = .note laterOn :=
    laterOnOp_decode
  have hsession : evtDecode (crowded n).s.session.audioEpoch (umpFrame (2 ^ 40) 9 5 1 100) =
      .note laterOn := laterOnOp_decode
  have hkind : laterOn.kind = .noteOn := rfl
  have hroom : (List.replicate n laterOn).length < devEvqCap := by simpa using h
  unfold Played.next laterOnOp Synth.next Synth.consumeEvt consumeEvt handleEvtMsg
  dsimp only
  rw [hdecode, hsession]
  simp [applyEvtMsg, noteEvt, evtStageFlush, evqPush, Engine.noteMsg, EvtMsg.notes, hkind, crowded,
    Synth.session, EvtState.fresh, h, List.replicate_succ', UInt32.ofNat_add]

theorem crowded_eq {n : Nat} (h : n ≤ devEvqCap)
    : (List.replicate n laterOnOp).foldl (Played.next countKernel) started = crowded n := by
  induction n with
  | zero => rfl
  | succ n ih =>
    rw [List.replicate_succ', List.foldl_append, ih (by omega), List.foldl_cons, List.foldl_nil]
    exact crowded_next h

-- Two keys go down into the last places of the queue, and both go up before it is read.
def lostOff : List SynthOp :=
  [noteOnOp 60, noteOnOp 64, noteOffOp 60, noteOffOp 64, .segment [0, 1] 1 0 0]

def lost : Played Nat :=
  lostOff.foldl (Played.next countKernel) (crowded 510)

theorem lost_eq
    : lastMsg 0 60 lost.sent = some .noteOff ∧ lost.s.e.evt.evq = List.replicate 510 laterOn ∧
      (lost.s.e.parts 0).panicNote = .none ∧ (lost.s.e.parts 0).arp.playing = false ∧
      (lost.s.e.parts 0).Rests 0 60 := by
  refine ⟨by decide +kernel, by decide +kernel, by decide +kernel, by decide +kernel, ?_⟩
  constructor
  . decide +kernel
  . decide +kernel
  . decide +kernel

-- What is left of the queue is played and releases nothing: a key that went up is still held.
theorem not_unlost_of_rests {q : Fin nParts} {a : Nat} {p : Played D} {vi : Fin nVoices}
    {slots : List OutSlot} {n pos done : Nat} (hlast : lastMsg q a p.sent = some .noteOff)
    (hnone : (p.s.e.parts q).panicNote = .none) (hstopped : (p.s.e.parts q).arp.playing = false)
    (hrests : (p.s.e.parts q).Rests vi a)
    (hevq : ∀ ev ∈ p.s.e.evt.evq, ev.ts ≤ u64 (pos + done) ∧ ¬ ev.takes q a)
    : ¬ (p.next k (.segment slots n pos done)).Unlost k q := by
  intro hunlost
  have hdrained : (p.s.e.segment k slots n pos done).evt.evq = [] := by
    rw [Engine.segment_evq]
    unfold evqRemaining
    rw [List.filter_eq_nil_iff]
    intro ev hev
    have := (hevq ev hev).1
    simpa using this
  have hdue : ∀ ev ∈ dueAt p.s.e.evt.evq (u64 (pos + done)), ¬ ev.takes q a :=
    fun ev hev => (hevq ev (List.mem_of_mem_filter hev)).2
  have hafter : ((p.s.e.segment k slots n pos done).parts q).arp.playing = false := by
    rw [((Engine.segment_aged p.s.e).2.2 q).arp, Engine.segStart_playing _ q]
    . exact hstopped
    . exact fun ev hev hkind => hdue ev hev (.inr (.inr hkind))
  have heng := ((hunlost.released a hlast hdrained).2 vi (hrests.segment hnone hdue)).1
  exact absurd ((Part.arpEngaged_stopped hafter).symm.trans heng) Bool.false_ne_true

theorem not_unlost_crowded
    : ¬ ∀ (dev : Device) (epoch : Nat) (e : Engine Nat) (p : Played Nat),
        Run (Played.next countKernel) free (Played.start countKernel dev epoch e) p →
          ∀ q, p.Unlost countKernel q := by
  intro h
  obtain ⟨hlast, hevq, hnone, hstopped, hrests⟩ := lost_eq
  have hrun : Run (Played.next countKernel) free started lost := by
    unfold lost
    rw [← crowded_eq (by decide : 510 ≤ devEvqCap)]
    exact Run.foldl _ (Run.foldl _ .start)
  have hunlost : (lost.next countKernel (.segment [0, 1] 1 (2 ^ 40) 0)).Unlost countKernel 0 :=
    h blankDevice 0 (Engine.boot countKernel) _ (.step _ hrun trivial) 0
  revert hunlost
  apply not_unlost_of_rests hlast hnone hstopped hrests
  intro ev hev
  rw [hevq] at hev
  rw [List.eq_of_mem_replicate hev]
  unfold DevEvent.takes DevEvent.arpOn
  decide +kernel

end Crowd

end Harp
