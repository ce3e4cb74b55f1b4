import Harp.Device.EngineLemmas
import Harp.Lib.Run

/-!
This module contains the life of a note over whole runs of the stream: which keys of a part are down
by the events applied so far, and when its voices follow them.

A key that went down into the voice pool is released by its note-off, one that went down into the
latch by the step clock. The two do not match up when the arpeggiator takes over, or gives up, the
part in between.
-/

namespace Harp

open Runs

variable {D X : Type} {k : Kernel D X}

section Keys

def keyStep (q : Fin nParts) (down : List Nat) (ev : DevEvent) : List Nat :=
  if harpEvtPart ev.channel ≠ q then
    down
  else
    match ev.kind with
    | .noteOn => ev.a :: down
    | .noteOff => down.filter (· ≠ ev.a)
    | _ => down

/--
The keys of a part that are down: a note-on was applied and no note-off of the key since.
-/
def keysDown (q : Fin nParts) (applied : List (Nat × DevEvent)) : List Nat :=
  applied.foldl (fun down x => keyStep q down x.2) []

theorem keysDown_snoc (q : Fin nParts) (applied : List (Nat × DevEvent)) (x : Nat × DevEvent)
    : keysDown q (applied ++ [x]) = keyStep q (keysDown q applied) x.2 := by
  unfold keysDown
  rw [List.foldl_append]
  rfl

end Keys

section Stream

structure Stream (D : Type) where
  e : Engine D
  pos : Nat

inductive StreamOp where
  | push (ev : DevEvent)
  | block (n : Nat)

-- Events arrive, and blocks of any size are rendered one after the other.
def Stream.next (k : Kernel D X) (s : Stream D) : StreamOp → Stream D
  | .push ev => { s with e := { s.e with evt := evqPush s.e.evt ev } }
  | .block n => ⟨(s.e.renderWithEvents k n s.pos).1, u64 (s.pos + n)⟩

-- A stream as `audio.start` begins it, on an engine with any patch.
def Stream.start (k : Kernel D X) (e : Engine D) : Stream D :=
  ⟨e.evqResetForNewStream.engineVoicesCold k, 0⟩

/--
When every key of the part is up and its pending gate has passed, none of its voices holds a note.
-/
def NoStuck (q : Fin nParts) (s : Stream D) : Prop :=
  keysDown q s.e.applied = [] →
    (s.e.parts q).arp.gateOff = 0 ∨ (s.e.parts q).arp.gateOff < s.pos →
      ∀ vi, ((s.e.parts q).voices vi).note < 0

end Stream

section Modes

abbrev arpModeIx : Fin nParams := 7

def Part.running (p : Part D) : Bool :=
  p.arp.playing && p.arp.anchorValid

def Part.Quiet (p : Part D) : Prop :=
  ∀ i, (p.voices i).note < 0

def modeOn (v : Ieee.F32) : Bool :=
  stepOf 5 v ≠ 0

theorem Part.arpActive_eq (p : Part D) : p.arpActive = modeOn (p.pval arpModeIx) := by
  have hix : paramIndex 8 = some arpModeIx := by decide
  unfold Part.arpActive Part.paramStepIndex modeOn
  rw [hix]
  rfl

theorem Part.arpEngaged_eq (p : Part D)
    : p.arpEngaged = (modeOn (p.pval arpModeIx) && p.running) := by
  unfold Part.arpEngaged Part.running
  rw [Part.arpActive_eq]
  cases modeOn (p.pval arpModeIx) <;> cases p.arp.playing <;> cases p.arp.anchorValid <;> rfl

theorem Part.arpEngaged_congr {p p' : Part D} (hval : p'.pval arpModeIx = p.pval arpModeIx)
    (hrun : p'.running = p.running) : p'.arpEngaged = p.arpEngaged := by
  rw [Part.arpEngaged_eq, Part.arpEngaged_eq, hval, hrun]

-- The transport after an event.
def Part.runsAfter (p : Part D) (ev : DevEvent) : Bool :=
  ev.a.testBit 0 && (p.arp.anchorValid || ev.a.testBit 5)

/--
An event fits a part when it does not hand held notes from the voice pool to the step clock or back:
the transport starts an arpeggiator, and the Arp Mode turns it on or off while the transport runs,
only while no voice holds a note; and while the Arp Mode is ramping on a running transport no key is
down.
-/
structure Part.Fits (p : Part D) (ev : DevEvent) (routed : Bool) : Prop where
  noteOn : ev.kind = .noteOn ∧ routed ∧ p.running → (p.ramps arpModeIx).active = false
  paramSet : ev.kind = .paramSet ∧ routed ∧ ev.voice = 0 ∧ paramIndex ev.a = some arpModeIx ∧
    p.running ∧ modeOn ev.v ≠ p.arpActive → p.Quiet
  ramp : ev.kind = .ramp ∧ routed ∧ ev.voice = 0 ∧ paramIndex ev.a = some arpModeIx ∧ p.running →
    p.Quiet ∧ p.arp.latch.keys = []
  starts : ev.kind = .transport ∧ p.running = false ∧ p.runsAfter ev ∧ p.arpActive → p.Quiet
  ramping : ev.kind = .transport ∧ p.running = false ∧ p.runsAfter ev ∧
    (p.ramps arpModeIx).active → p.Quiet ∧ p.arp.latch.keys = []

instance (p : Part D) : Decidable p.Quiet :=
  inferInstanceAs (Decidable (∀ i, (p.voices i).note < 0))

instance (p : Part D) (ev : DevEvent) (routed : Bool) : Decidable (p.Fits ev routed) :=
  decidable_of_iff
    ((ev.kind = .noteOn ∧ routed ∧ p.running → (p.ramps arpModeIx).active = false) ∧
      (ev.kind = .paramSet ∧ routed ∧ ev.voice = 0 ∧ paramIndex ev.a = some arpModeIx ∧
        p.running ∧ modeOn ev.v ≠ p.arpActive → p.Quiet) ∧
      (ev.kind = .ramp ∧ routed ∧ ev.voice = 0 ∧ paramIndex ev.a = some arpModeIx ∧ p.running →
        p.Quiet ∧ p.arp.latch.keys = []) ∧
      (ev.kind = .transport ∧ p.running = false ∧ p.runsAfter ev ∧ p.arpActive → p.Quiet) ∧
      (ev.kind = .transport ∧ p.running = false ∧ p.runsAfter ev ∧
        (p.ramps arpModeIx).active → p.Quiet ∧ p.arp.latch.keys = []))
    ⟨fun ⟨h1, h2, h3, h4, h5⟩ => ⟨h1, h2, h3, h4, h5⟩,
      fun ⟨h1, h2, h3, h4, h5⟩ => ⟨h1, h2, h3, h4, h5⟩⟩

def Engine.Fits (q : Fin nParts) (e : Engine D) (ev : DevEvent) : Prop :=
  (e.parts q).Fits ev (q = harpEvtPart ev.channel)

-- Every event a block applies fits the part in the state it finds.
def Stream.Fits (k : Kernel D X) (q : Fin nParts) (s : Stream D) : StreamOp → Prop
  | .push _ => True
  | .block n => ∀ x ∈ s.e.starts k n s.pos,
      Run.Guarded (Engine.applyEvent k x.2) (Engine.Fits q) x.1 (dueAt x.1.evt.evq x.2)

instance (q : Fin nParts) (e : Engine D) (ev : DevEvent) : Decidable (e.Fits q ev) :=
  inferInstanceAs (Decidable ((e.parts q).Fits ev (q = harpEvtPart ev.channel)))

instance (k : Kernel D X) (q : Fin nParts) (s : Stream D) : (op : StreamOp) → Decidable (s.Fits k q op)
  | .push _ => .isTrue trivial
  | .block n => inferInstanceAs (Decidable (∀ x ∈ s.e.starts k n s.pos,
      Run.Guarded (Engine.applyEvent k x.2) (Engine.Fits q) x.1 (dueAt x.1.evt.evq x.2)))

end Modes

section Invariant

/--
What holds of a part with the keys `down`. Outside of the step clock every held note is a key that
is down; under it only voice 0 holds a note, the one that sounds, and only while keys are latched.
-/
structure NoteInv (down : List Nat) (p : Part D) : Prop where
  latch : ∀ x ∈ p.arp.latch.keys, ∃ a ∈ down, a % 256 = x.1
  gated : ∀ i, 0 ≤ (p.voices i).note → (p.voices i).active
  pool : p.arpEngaged = false → ∀ i, 0 ≤ (p.voices i).note → ∃ a ∈ down, (a : Int) = (p.voices i).note
  mono : p.arpEngaged → ∀ i, i ≠ 0 → (p.voices i).note < 0
  step : p.arpEngaged → 0 ≤ (p.voices 0).note →
    (p.voices 0).note = p.arp.sounding ∧ p.arp.latch.keys ≠ []
  ramp : (p.ramps arpModeIx).active → p.running → p.Quiet ∧ p.arp.latch.keys = []

theorem NoteInv.quiet_of_up {p : Part D} (h : NoteInv [] p) : p.Quiet := by
  intro i
  by_contra hi
  rw [Int.not_lt] at hi
  cases heng : p.arpEngaged with
  | false =>
    obtain ⟨a, ha, _⟩ := h.pool heng i hi
    cases ha
  | true =>
    by_cases h0 : i = 0
    . subst h0
      obtain ⟨x, hx⟩ := List.exists_mem_of_ne_nil _ (h.step heng hi).2
      obtain ⟨a, ha, _⟩ := h.latch x hx
      cases ha
    . have := h.mono heng i h0
      omega

-- A part whose voices hold nothing needs little.
theorem NoteInv.of_quiet {down : List Nat} {p : Part D} (hquiet : p.Quiet)
    (hlatch : ∀ x ∈ p.arp.latch.keys, ∃ a ∈ down, a % 256 = x.1)
    (hramp : (p.ramps arpModeIx).active → p.running → p.arp.latch.keys = []) : NoteInv down p where
  latch := hlatch
  gated i hi := absurd (hquiet i) (Int.not_lt.mpr hi)
  pool _ i hi := absurd (hquiet i) (Int.not_lt.mpr hi)
  mono _ i _ := hquiet i
  step _ hi := absurd (hquiet 0) (Int.not_lt.mpr hi)
  ramp hr hrun := ⟨hquiet, hramp hr hrun⟩

-- Notes are kept or released, and what holds a note stays allocated.
structure Quieter (p p' : Part D) : Prop where
  note : ∀ i, (p'.voices i).note = (p.voices i).note ∨ (p'.voices i).note < 0
  active : ∀ i, 0 ≤ (p'.voices i).note → (p.voices i).active → (p'.voices i).active

namespace Quieter

theorem held {p p' : Part D} (h : Quieter p p') {i : Fin nVoices} (hi : 0 ≤ (p'.voices i).note)
    : (p'.voices i).note = (p.voices i).note := by
  cases h.note i with
  | inl heq => exact heq
  | inr hlt => omega

theorem quiet {p p' : Part D} (h : Quieter p p') (hp : p.Quiet) : p'.Quiet := by
  intro i
  have := hp i
  cases h.note i with
  | inl heq => omega
  | inr hlt => exact hlt

theorem of_voices {p p' : Part D} (h : p'.voices = p.voices) : Quieter p p' :=
  ⟨fun i => .inl (by rw [h]), fun i _ hact => by rw [h]; exact hact⟩

theorem of_aged {p p' : Part D} (h : Aged p p') : Quieter p p' :=
  ⟨fun i => .inl (h.note i), fun i hi hact => h.gated i hact (by rw [← h.note i]; exact hi)⟩

theorem of_notesKept {p p' : Part D} (h : NotesKept p p') : Quieter p p' :=
  ⟨fun i => .inl (h.note i), fun i _ hact => by rw [h.active i]; exact hact⟩

theorem mapVoices {p : Part D} {f : Voice D → Voice D}
    (h : ∀ v, (f v).note < 0 ∨ ((f v).note = v.note ∧ (f v).active = v.active))
    : Quieter p (p.mapVoices f) := by
  constructor
  . intro i
    cases h (p.voices i) with
    | inl hlt => exact .inr hlt
    | inr heq => exact .inl heq.1
  . intro i hi hact
    cases h (p.voices i) with
    | inl hlt => exact absurd hlt (Int.not_lt.mpr hi)
    | inr heq => exact heq.2.trans hact

theorem freeVoices (p : Part D) : Quieter p p.freeVoices :=
  mapVoices (fun _ => .inl (by decide : (-1 : Int) < 0))

theorem voiceNoteOff (p : Part D) (note : Int) : Quieter p (p.voiceNoteOff note) := by
  apply mapVoices
  intro v
  split
  next => exact .inl (by decide : (-1 : Int) < 0)
  next => exact .inr ⟨rfl, rfl⟩

theorem arpVoiceOff (p : Part D) : Quieter p p.arpVoiceOff := by
  unfold Part.arpVoiceOff
  dsimp only
  split
  next =>
    constructor
    . intro i
      dsimp only [Part.setVoice]
      split
      next => exact .inr (by decide : (-1 : Int) < 0)
      next => exact .inl rfl
    . intro i
      dsimp only [Part.setVoice]
      split
      next => exact fun hi => absurd hi (by decide : ¬ (0 : Int) ≤ -1)
      next => exact fun _ hact => hact
  next => exact of_voices rfl

end Quieter

-- Releasing notes keeps the invariant, as long as what sounds is still known.
theorem NoteInv.quieter {down : List Nat} {p p' : Part D} (h : NoteInv down p) (hq : Quieter p p')
    (hlatch : p'.arp.latch = p.arp.latch) (heng : p'.arpEngaged = p.arpEngaged)
    (hrun : p'.running = p.running)
    (hramp : (p'.ramps arpModeIx).active → (p.ramps arpModeIx).active)
    (hsound : p'.arp.sounding = p.arp.sounding ∨ (p'.arpEngaged → (p'.voices 0).note < 0))
    : NoteInv down p' where
  latch := by
    rw [hlatch]
    exact h.latch
  gated i hi := hq.active i hi (h.gated i (by rw [← hq.held hi]; exact hi))
  pool he i hi := by
    rw [hq.held hi]
    exact h.pool (heng ▸ he) i (by rw [← hq.held hi]; exact hi)
  mono he i hi := by
    have := h.mono (heng ▸ he) i hi
    cases hq.note i with
    | inl heq => omega
    | inr hlt => exact hlt
  step he hi := by
    cases hsound with
    | inl hsame =>
      rw [hsame, hlatch, hq.held hi]
      exact h.step (heng ▸ he) (by rw [← hq.held hi]; exact hi)
    | inr hlt => exact absurd (hlt he) (Int.not_lt.mpr hi)
  ramp hr hp := by
    rw [hlatch]
    obtain ⟨hquiet, hkeys⟩ := h.ramp (hramp hr) (hrun ▸ hp)
    exact ⟨hq.quiet hquiet, hkeys⟩

theorem Part.running_of_sameTransport {p p' : Part D} (h : SameTransport p.arp p'.arp)
    : p'.running = p.running := by
  unfold Part.running
  rw [h.playing, h.anchorValid]

theorem NoteInv.aged {down : List Nat} {p p' : Part D} (h : NoteInv down p) (ha : Aged p p')
    : NoteInv down p' := by
  have hrun : p'.running = p.running := by
    unfold Part.running
    rw [ha.arp]
  cases hramp : (p.ramps arpModeIx).active with
  | false =>
    obtain ⟨hval, hstill⟩ := ha.still arpModeIx hramp
    refine h.quieter (Quieter.of_aged ha) (by rw [ha.arp]) (Part.arpEngaged_congr hval hrun) hrun ?_
      (.inl (by rw [ha.arp]))
    rw [hstill]
    exact id
  | true =>
    -- the mode may change: nothing is held, or the transport does not run
    cases hp : p.running with
    | true =>
      obtain ⟨hquiet, hkeys⟩ := h.ramp hramp hp
      apply NoteInv.of_quiet ((Quieter.of_aged ha).quiet hquiet)
      . rw [ha.arp]
        exact h.latch
      . rw [ha.arp]
        exact fun _ _ => hkeys
    | false =>
      have heng : p'.arpEngaged = p.arpEngaged := by
        rw [Part.arpEngaged_eq, Part.arpEngaged_eq, hrun, hp, Bool.and_false, Bool.and_false]
      exact h.quieter (Quieter.of_aged ha) (by rw [ha.arp]) heng hrun (fun _ => hramp)
        (.inl (by rw [ha.arp]))

theorem Part.arpVoiceOff_engaged (p : Part D) : p.arpVoiceOff.arpEngaged = p.arpEngaged := by
  apply Part.arpEngaged_congr
  . rw [Part.arpVoiceOff_pval]
  . unfold Part.running
    rw [Part.arpVoiceOff_arp]

-- What voice 0 holds is what sounds: then it is released.
theorem Part.arpVoiceOff_voice0 {p : Part D}
    (h : 0 ≤ (p.voices 0).note → (p.voices 0).note = p.arp.sounding)
    : (p.arpVoiceOff.voices 0).note < 0 := by
  unfold Part.arpVoiceOff
  dsimp only
  split
  next =>
    rw [Part.setVoice_self]
    exact (by decide : (-1 : Int) < 0)
  next hno =>
    by_contra hi
    rw [Int.not_lt] at hi
    have hsound := h hi
    exact hno ⟨by rw [← hsound]; exact hi, hsound⟩

theorem NoteInv.arpVoiceOff {down : List Nat} {p : Part D} (h : NoteInv down p)
    : NoteInv down p.arpVoiceOff := by
  apply h.quieter (Quieter.arpVoiceOff p)
  . rw [Part.arpVoiceOff_arp]
  . exact Part.arpVoiceOff_engaged p
  . unfold Part.running
    rw [Part.arpVoiceOff_arp]
  . rw [Part.arpVoiceOff_ramps]
    exact id
  . right
    intro heng
    rw [Part.arpVoiceOff_engaged] at heng
    exact Part.arpVoiceOff_voice0 (fun hi => (h.step heng hi).1)

theorem NoteInv.panicService {down : List Nat} {p : Part D} (h : NoteInv down p)
    : NoteInv down p.panicService := by
  unfold Part.panicService
  split
  next => exact h
  next =>
    have hq := Quieter.freeVoices p
    exact h.quieter ⟨hq.note, hq.active⟩ rfl rfl rfl id (.inl rfl)
  next n _ =>
    have hq := Quieter.voiceNoteOff p n
    exact h.quieter ⟨hq.note, hq.active⟩ rfl rfl rfl id (.inl rfl)

theorem Part.arpFire_engaged (p : Part D) (pos : Nat) : (p.arpFire k pos).arpEngaged = p.arpEngaged :=
  Part.arpEngaged_congr rfl rfl

theorem NoteInv.arpFire {down : List Nat} {p : Part D} (h : NoteInv down p) (heng : p.arpEngaged)
    (hkeys : p.arp.latch.keys ≠ []) (pos : Nat) : NoteInv down (p.arpFire k pos) := by
  have hother : ∀ i, i ≠ 0 → (p.arpFire k pos).voices i = p.voices i :=
    fun i hi => Part.setVoice_ne p _ hi
  have hvoice0 : ((p.arpFire k pos).voices 0).note = (p.arpFire k pos).arp.sounding := by
    unfold Part.arpFire Part.arpVoiceOn
    dsimp only
    rw [Part.setVoice_self]
  have hactive0 : ((p.arpFire k pos).voices 0).active = true := by
    unfold Part.arpFire Part.arpVoiceOn
    dsimp only
    rw [Part.setVoice_self]
  constructor
  case latch => exact h.latch
  case gated =>
    intro i hi
    by_cases h0 : i = 0
    . subst h0
      exact hactive0
    . rw [hother i h0] at hi ⊢
      exact h.gated i hi
  case pool =>
    intro hno
    rw [Part.arpFire_engaged, heng] at hno
    cases hno
  case mono =>
    intro _ i hi
    rw [hother i hi]
    exact h.mono heng i hi
  case step => exact fun _ _ => ⟨hvoice0, hkeys⟩
  case ramp => exact fun hr hrun => absurd (h.ramp hr hrun).2 hkeys

theorem NoteInv.arpStep {down : List Nat} {p : Part D} (h : NoteInv down p) (hact : p.arpActive)
    (pos : Nat) : NoteInv down (p.arpStep k pos) := by
  unfold Part.arpStep
  split
  next => exact h
  next hgo =>
    simp only [not_or, not_not] at hgo
    split
    next => exact h
    next =>
      refine h.arpFire ?_ hgo.2.2.2.1 pos
      simp [Part.arpEngaged, hact, hgo.1, hgo.2.1]

theorem NoteInv.arpFireDue {down : List Nat} {p : Part D} (h : NoteInv down p) (pos : Nat)
    : NoteInv down (p.arpFireDue k pos) := by
  have hgate : NoteInv down (p.arpGate pos) ∧ (p.arpGate pos).arpActive = p.arpActive := by
    unfold Part.arpGate
    split
    next =>
      refine ⟨h.arpVoiceOff, ?_⟩
      rw [Part.arpActive_eq, Part.arpActive_eq, Part.arpVoiceOff_pval]
    next => exact ⟨h, rfl⟩
  unfold Part.arpFireDue
  split
  next => exact h
  next hact =>
    apply hgate.1.arpStep
    rw [hgate.2]
    simpa using hact

end Invariant

section Latch

theorem Latch.mem_add {l : Latch} {note : Nat} {vel : Ieee.F32} {x : Nat × Ieee.F32}
    (hx : x ∈ (l.add note vel).keys) : x.1 = note ∨ x.1 ∈ l.keys.map Prod.fst := by
  unfold Latch.add at hx
  split at hx
  next =>
    obtain ⟨y, hy, hxy⟩ := List.mem_map.mp hx
    split at hxy
    next => exact .inl (by rw [← hxy])
    next => exact .inr (by rw [← hxy]; exact List.mem_map_of_mem hy)
  next =>
    split at hx
    next =>
      cases List.mem_append.mp hx with
      | inl hx => exact .inr (List.mem_map_of_mem hx)
      | inr hx => exact .inl (by rw [List.mem_singleton.mp hx])
    next => exact .inr (List.mem_map_of_mem hx)

theorem Latch.add_ne_nil {l : Latch} {note : Nat} {vel : Ieee.F32} (h : l.keys ≠ [])
    : (l.add note vel).keys ≠ [] := by
  unfold Latch.add
  split
  next => simpa using h
  next =>
    split
    next => simp
    next => exact h

theorem Latch.mem_remove {l : Latch} {note : Nat} {x : Nat × Ieee.F32}
    (hx : x ∈ (l.remove note).keys) : x ∈ l.keys ∧ x.1 ≠ note := by
  have hmem : x ∈ l.keys := List.mem_of_mem_eraseP hx
  refine ⟨hmem, fun heq => ?_⟩
  -- the key is there twice: once to be erased, once to be left
  subst heq
  unfold Latch.remove at hx
  dsimp only at hx
  obtain ⟨y, l₁, l₂, _, hy, hl, herase⟩ := List.exists_of_eraseP hmem (p := (·.1 = x.1)) (by simp)
  have hnodup := l.nodup
  rw [herase] at hx
  rw [hl] at hnodup
  simp only [decide_eq_true_eq] at hy
  simp only [List.map_append, List.map_cons, List.nodup_append, List.nodup_cons] at hnodup
  cases List.mem_append.mp hx with
  | inl hx => exact hnodup.2.2 _ (List.mem_map_of_mem hx) _ List.mem_cons_self hy.symm
  | inr hx => exact hnodup.2.1.1 (hy ▸ List.mem_map_of_mem hx)

end Latch

section Events

variable {down : List Nat} {p : Part D} {ev : DevEvent}

theorem NoteInv.latchAdd (h : NoteInv down p) (note : Nat) (vel : Ieee.F32)
    (hramp : p.running → (p.ramps arpModeIx).active = false)
    : NoteInv (note :: down) (p.arpLatchAdd (note % 256) vel) where
  latch x hx := by
    cases Latch.mem_add hx with
    | inl heq => exact ⟨note, List.mem_cons_self, heq.symm⟩
    | inr hmem =>
      obtain ⟨y, hy, hxy⟩ := List.mem_map.mp hmem
      obtain ⟨a, ha, hax⟩ := h.latch y hy
      exact ⟨a, List.mem_cons_of_mem _ ha, by rw [hax, hxy]⟩
  gated := h.gated
  pool heng i hi := by
    obtain ⟨a, ha, hai⟩ := h.pool heng i hi
    exact ⟨a, List.mem_cons_of_mem _ ha, hai⟩
  mono := h.mono
  step heng hi := by
    obtain ⟨hsound, hkeys⟩ := h.step heng hi
    exact ⟨hsound, Latch.add_ne_nil hkeys⟩
  ramp hr hrun := absurd ((hramp hrun).symm.trans hr) (by decide)

theorem NoteInv.voiceNoteOn (h : NoteInv down p) (heng : p.arpEngaged = false) {note : Nat}
    (hnote : note ∈ down) (vel : Ieee.F32) (vid : Nat)
    (hramp : p.running → (p.ramps arpModeIx).active = false)
    : NoteInv down (p.voiceNoteOn note vel vid) := by
  have hcases : ∀ i, (((p.voiceNoteOn note vel vid).voices i).note = note ∧
      ((p.voiceNoteOn note vel vid).voices i).active = true) ∨
      (p.voiceNoteOn note vel vid).voices i = p.voices i := by
    intro i
    unfold Part.voiceNoteOn Part.setVoice
    dsimp only
    split
    next => exact .inl ⟨rfl, rfl⟩
    next => exact .inr rfl
  constructor
  case latch => exact h.latch
  case gated =>
    intro i hi
    cases hcases i with
    | inl hnew => exact hnew.2
    | inr hold =>
      rw [hold] at hi ⊢
      exact h.gated i hi
  case pool =>
    intro _ i hi
    cases hcases i with
    | inl hnew => exact ⟨note, hnote, hnew.1.symm⟩
    | inr hold =>
      rw [hold] at hi ⊢
      exact h.pool heng i hi
  case mono => exact fun he => absurd (heng.symm.trans he) (by decide)
  case step => exact fun he => absurd (heng.symm.trans he) (by decide)
  case ramp => exact fun hr hrun => absurd ((hramp hrun).symm.trans hr) (by decide)

theorem NoteInv.noteOn (h : NoteInv down p) (hramp : p.running → (p.ramps arpModeIx).active = false)
    : NoteInv (ev.a :: down) (p.noteOn ev) := by
  have hadd := h.latchAdd ev.a ev.v hramp
  unfold Part.noteOn
  dsimp only
  split
  next heng => exact hadd.voiceNoteOn (by simpa using heng) List.mem_cons_self _ _ hramp
  next => exact hadd

theorem Part.arpLatchRemove_engaged (p : Part D) (note : Nat)
    : (p.arpLatchRemove note).arpEngaged = p.arpEngaged :=
  rfl

-- The latch and the ramp after a note-off, whoever has the notes.
theorem NoteInv.latchRemove (h : NoteInv down p) (note : Nat)
    : (∀ x ∈ (p.arp.latch.remove (note % 256)).keys,
        ∃ a ∈ down.filter (· ≠ note), a % 256 = x.1) ∧
      ((p.ramps arpModeIx).active → p.running →
        p.Quiet ∧ (p.arp.latch.remove (note % 256)).keys = []) := by
  constructor
  . intro x hx
    obtain ⟨hmem, hne⟩ := Latch.mem_remove hx
    obtain ⟨a, ha, hax⟩ := h.latch x hmem
    refine ⟨a, List.mem_filter.mpr ⟨ha, ?_⟩, hax⟩
    rw [decide_eq_true_eq]
    intro heq
    exact hne (by rw [← hax, heq])
  . intro hr hrun
    obtain ⟨hquiet, hnil⟩ := h.ramp hr hrun
    refine ⟨hquiet, ?_⟩
    unfold Latch.remove
    dsimp only
    rw [hnil]
    rfl

theorem NoteInv.noteOff_pool (h : NoteInv down p) (heng : p.arpEngaged = false) (note : Nat)
    : NoteInv (down.filter (· ≠ note)) ((p.arpLatchRemove (note % 256)).voiceNoteOff note) := by
  obtain ⟨hlatch, hramp⟩ := h.latchRemove note
  have hq := Quieter.voiceNoteOff (p.arpLatchRemove (note % 256)) note
  constructor
  case latch => exact hlatch
  case gated =>
    intro i hi
    exact hq.active i hi (h.gated i (by rw [hq.held hi] at hi; exact hi))
  case pool =>
    intro _ i hi
    have hheld := hq.held hi
    have hi' := hi
    rw [hheld] at hi'
    obtain ⟨a, ha, hai⟩ := h.pool heng i hi'
    refine ⟨a, List.mem_filter.mpr ⟨ha, ?_⟩, hai.trans hheld.symm⟩
    rw [decide_eq_true_eq]
    rintro rfl
    -- the voice held the released key, so it was released
    have hoff : (((p.arpLatchRemove (a % 256)).voiceNoteOff a).voices i).note = -1 := by
      unfold Part.voiceNoteOff Part.mapVoices
      dsimp only
      rw [if_pos ⟨h.gated i hi', hai.symm⟩]
    omega
  case mono => exact fun he => absurd (heng.symm.trans he) (by decide)
  case step => exact fun he => absurd (heng.symm.trans he) (by decide)
  case ramp =>
    intro hr hrun
    obtain ⟨hquiet, hnil⟩ := hramp hr hrun
    exact ⟨hq.quiet hquiet, hnil⟩

theorem NoteInv.noteOff_latch (h : NoteInv down p) (heng : p.arpEngaged) (note : Nat)
    : NoteInv (down.filter (· ≠ note))
        (if (p.arpLatchRemove (note % 256)).arp.latch.keys = [] then
          (p.arpLatchRemove (note % 256)).arpVoiceOff
        else
          p.arpLatchRemove (note % 256)) := by
  obtain ⟨hlatch, hramp⟩ := h.latchRemove note
  split
  next hnil =>
    have hq := Quieter.arpVoiceOff (p.arpLatchRemove (note % 256))
    apply NoteInv.of_quiet
    . intro i
      by_cases h0 : i = 0
      . subst h0
        exact Part.arpVoiceOff_voice0 (fun hi => (h.step heng hi).1)
      . have hlt := h.mono heng i h0
        cases hq.note i with
        | inl heq => rw [heq]; exact hlt
        | inr hlt => exact hlt
    . rw [Part.arpVoiceOff_arp]
      exact hlatch
    . rw [Part.arpVoiceOff_arp]
      exact fun _ _ => hnil
  next hkeep =>
    constructor
    case latch => exact hlatch
    case gated => exact h.gated
    case pool => exact fun he => absurd (heng.symm.trans he) (by decide)
    case mono => exact h.mono
    case step => exact fun he hi => ⟨(h.step he hi).1, hkeep⟩
    case ramp => exact hramp

theorem NoteInv.noteOff (h : NoteInv down p)
    : NoteInv (down.filter (· ≠ ev.a)) (p.noteOff ev) := by
  unfold Part.noteOff
  dsimp only
  rw [Part.arpLatchRemove_engaged]
  split
  next heng => exact h.noteOff_pool (by simpa using heng) ev.a
  next heng => exact h.noteOff_latch (by simpa using heng) ev.a

theorem NoteInv.allOff (p : Part D) : NoteInv down p.allOff := by
  have hlatch : p.allOff.arp.latch = Latch.empty := by
    unfold Part.allOff Part.freeVoices Part.mapVoices Part.arpReset
    dsimp only
    rw [Part.arpVoiceOff_arp]
  apply NoteInv.of_quiet
  . exact fun i => (by decide : (-1 : Int) < 0)
  . rw [hlatch]
    exact fun x hx => absurd hx List.not_mem_nil
  . rw [hlatch]
    exact fun _ _ => rfl

-- A part that is anchored, where a running step clock is not stopped under a held note.
theorem NoteInv.anchored (h : NoteInv down p) (pos : Nat)
    (hfits : p.running = false → p.runsAfter ev →
      (p.arpActive → p.Quiet) ∧ ((p.ramps arpModeIx).active → p.Quiet ∧ p.arp.latch.keys = []))
    (hstop : p.running → p.runsAfter ev = false → p.arpEngaged → p.Quiet)
    : NoteInv down (p.anchored pos ev) := by
  have hafter : (p.anchored pos ev).running = p.runsAfter ev := rfl
  have hramp : (p.ramps arpModeIx).active → (p.anchored pos ev).running →
      p.Quiet ∧ p.arp.latch.keys = [] := by
    intro hr hrun
    cases hp : p.running with
    | true => exact h.ramp hr hp
    | false => exact (hfits hp hrun).2 hr
  by_cases heng : (p.anchored pos ev).arpEngaged = p.arpEngaged
  . constructor
    case latch => exact h.latch
    case gated => exact h.gated
    case pool => exact fun he => h.pool (heng ▸ he)
    case mono => exact fun he => h.mono (heng ▸ he)
    case step => exact fun he => h.step (heng ▸ he)
    case ramp => exact hramp
  . -- the step clock takes over or gives up a part that holds nothing
    have hquiet : p.Quiet := by
      rw [Part.arpEngaged_eq, Part.arpEngaged_eq, hafter] at heng
      have hmode : (p.anchored pos ev).pval arpModeIx = p.pval arpModeIx := rfl
      rw [hmode, ← Part.arpActive_eq] at heng
      cases hact : p.arpActive with
      | false => simp [hact] at heng
      | true =>
        cases hp : p.running with
        | true =>
          apply hstop hp
          . simpa [hact, hp] using heng
          . rw [Part.arpEngaged_eq, ← Part.arpActive_eq, hact, hp]
            rfl
        | false => exact (hfits hp (by simpa [hact, hp] using heng)).1 hact
    exact NoteInv.of_quiet hquiet h.latch (fun hr hrun => (hramp hr hrun).2)

theorem NoteInv.transport_stop (h : NoteInv down p) (pos : Nat) (h0 : ev.a.testBit 0 = false)
    : NoteInv down (p.anchored pos ev).arpVoiceOff := by
  have hafter : p.runsAfter ev = false := by
    unfold Part.runsAfter
    rw [h0, Bool.false_and]
  cases heng : p.arpEngaged with
  | false =>
    apply NoteInv.arpVoiceOff
    apply h.anchored pos
    . intro _ hrun
      exact absurd (hafter.symm.trans hrun) (by decide)
    . intro _ _ he
      exact absurd (heng.symm.trans he) (by decide)
  | true =>
    have hq := Quieter.arpVoiceOff (p.anchored pos ev)
    apply NoteInv.of_quiet
    . intro i
      by_cases hi : i = 0
      . subst hi
        exact Part.arpVoiceOff_voice0 (fun hi => (h.step heng hi).1)
      . have hlt := h.mono heng i hi
        cases hq.note i with
        | inl heq => rw [heq]; exact hlt
        | inr hlt => exact hlt
    . rw [Part.arpVoiceOff_arp]
      exact h.latch
    . intro _ hrun
      have hno : (p.anchored pos ev).arpVoiceOff.running = p.runsAfter ev := by
        unfold Part.running
        rw [Part.arpVoiceOff_arp]
        rfl
      rw [hno, hafter] at hrun
      cases hrun

theorem NoteInv.transport (h : NoteInv down p) (pos : Nat) (hkind : ev.kind = .transport)
    {routed : Bool} (hfits : p.Fits ev routed) : NoteInv down (p.transport pos ev) := by
  have hfits : p.running = false → p.runsAfter ev →
      (p.arpActive → p.Quiet) ∧ ((p.ramps arpModeIx).active → p.Quiet ∧ p.arp.latch.keys = []) :=
    fun hp hrun => ⟨fun hact => hfits.starts ⟨hkind, hp, hrun, hact⟩,
      fun hr => hfits.ramping ⟨hkind, hp, hrun, hr⟩⟩
  -- a clock that goes on running keeps running
  have hgoes : ev.a.testBit 0 = true ∨ p.arp.playing = false →
      p.running → p.runsAfter ev = false → p.arpEngaged → p.Quiet := by
    intro hcase hrun hafter
    unfold Part.running at hrun
    unfold Part.runsAfter at hafter
    cases hcase with
    | inl h0 => simp_all
    | inr hp => simp_all
  obtain ⟨h0, _, heq⟩ | ⟨h0, _, heq⟩ | ⟨hsame, heq⟩ := Part.transport_cases pos p ev
  . rw [heq]
    exact h.transport_stop pos h0
  . rw [heq]
    have hanch := h.anchored pos hfits (hgoes (.inl h0))
    exact hanch.quieter (Quieter.of_voices rfl) rfl rfl rfl id (.inl rfl)
  . rw [heq]
    apply h.anchored pos hfits
    apply hgoes
    rw [hsame]
    cases p.arp.playing <;> simp

theorem NoteInv.kept {p' : Part D} (h : NoteInv down p) (hkept : NotesKept p p')
    (hval : p'.pval arpModeIx = p.pval arpModeIx)
    (hramp : (p'.ramps arpModeIx).active → (p.ramps arpModeIx).active) : NoteInv down p' := by
  have hrun : p'.running = p.running := by
    unfold Part.running
    rw [hkept.arp]
  exact h.quieter (Quieter.of_notesKept hkept) (by rw [hkept.arp]) (Part.arpEngaged_congr hval hrun)
    hrun hramp (.inl (by rw [hkept.arp]))

theorem NoteInv.paramSet (h : NoteInv down p) (hkind : ev.kind = .paramSet)
    (hfits : p.Fits ev true) : NoteInv down (p.paramSet k ev) := by
  have hkept := NotesKept.paramSet (k := k) p ev
  unfold Part.paramSet at hkept ⊢
  split
  next => exact h
  next j hj =>
    rw [hj] at hkept
    dsimp only at hkept
    split
    next hv =>
      rw [if_pos hv] at hkept
      exact h.kept hkept rfl id
    next hv =>
      rw [if_neg hv] at hkept
      by_cases hmode : j = arpModeIx
      . subst hmode
        by_cases hswitch : p.running = true ∧ modeOn ev.v ≠ p.arpActive
        . -- the mode changes under a running transport, and nothing is held
          have hquiet := hfits.paramSet ⟨hkind, rfl, by simpa using hv, hj, hswitch.1, hswitch.2⟩
          apply NoteInv.of_quiet ((Quieter.of_notesKept hkept).quiet hquiet) h.latch
          intro hr
          simp [Part.setRamp] at hr
        . have heng : ({ p with pval := fun i => if i = arpModeIx then ev.v else p.pval i }.setRamp
              arpModeIx { p.ramps arpModeIx with active := false }).arpEngaged = p.arpEngaged := by
            rw [Part.arpEngaged_eq, Part.arpEngaged_eq, ← Part.arpActive_eq]
            show (modeOn ev.v && p.running) = (p.arpActive && p.running)
            cases hrun : p.running with
            | false => simp
            | true =>
              have hsame : modeOn ev.v = p.arpActive := by
                by_contra hne
                exact hswitch ⟨hrun, hne⟩
              rw [hsame]
          refine h.quieter (Quieter.of_notesKept hkept) rfl heng rfl ?_ (.inl rfl)
          intro hr
          simp [Part.setRamp] at hr
      . apply h.kept hkept
        . simp [Part.setRamp, Ne.symm hmode]
        . simp [Part.setRamp, Ne.symm hmode]

theorem NoteInv.rampTo (h : NoteInv down p) (pos : Nat) (hkind : ev.kind = .ramp)
    (hfits : p.Fits ev true) : NoteInv down (p.rampTo k pos ev) := by
  have hkept := NotesKept.rampTo (k := k) p ev pos
  unfold Part.rampTo at hkept ⊢
  split
  next => exact h
  next j hj =>
    rw [hj] at hkept
    dsimp only at hkept
    split
    next hv =>
      rw [if_pos hv] at hkept
      exact h.kept hkept rfl id
    next hv =>
      by_cases hmode : j = arpModeIx
      . subst hmode
        constructor
        case latch => exact h.latch
        case gated => exact h.gated
        case pool => exact h.pool
        case mono => exact h.mono
        case step => exact h.step
        case ramp => exact fun _ hrun => hfits.ramp ⟨hkind, rfl, by simpa using hv, hj, hrun⟩
      . rw [if_neg hv] at hkept
        apply h.kept hkept rfl
        simp [Part.setRamp, Ne.symm hmode]

/--
An event that fits keeps the invariant, for the keys as the event leaves them.
-/
theorem NoteInv.applyEvent {q : Fin nParts} (h : NoteInv down p) (pos : Nat)
    (hfits : p.Fits ev (q = harpEvtPart ev.channel))
    : NoteInv (keyStep q down ev) (p.applyEvent k pos ev (q = harpEvtPart ev.channel)) := by
  unfold keyStep
  by_cases hq : harpEvtPart ev.channel = q
  . rw [if_neg (not_not.mpr hq)]
    simp only [hq, decide_true] at hfits ⊢
    unfold Part.applyEvent
    cases hkind : ev.kind with
    | noteOn => exact h.noteOn (fun hrun => hfits.noteOn ⟨hkind, rfl, hrun⟩)
    | noteOff => exact h.noteOff
    | allOff => exact NoteInv.allOff p
    | transport => exact h.transport pos hkind hfits
    | paramSet => exact h.paramSet hkind hfits
    | ramp => exact h.rampTo pos hkind hfits
    | mod => exact h.kept (NotesKept.modulate p ev) rfl id
  . rw [if_pos hq]
    simp only [Ne.symm hq, decide_false] at hfits ⊢
    unfold Part.applyEvent
    cases hkind : ev.kind with
    | allOff => exact NoteInv.allOff p
    | transport => exact h.transport pos hkind hfits
    | _ => exact h

end Events

section Runs

variable {q : Fin nParts}

def Engine.NotesFollow (q : Fin nParts) (e : Engine D) : Prop :=
  NoteInv (keysDown q e.applied) (e.parts q)

theorem Engine.NotesFollow.applyEvents {e : Engine D} {pos : Nat} {evs : List DevEvent}
    (h : e.NotesFollow q) (hfits : Run.Guarded (Engine.applyEvent k pos) (Engine.Fits q) e evs)
    : (evs.foldl (Engine.applyEvent k pos) e).NotesFollow q := by
  induction evs generalizing e with
  | nil => exact h
  | cons ev evs ih =>
    rw [List.foldl_cons]
    apply ih _ hfits.2
    unfold Engine.NotesFollow Engine.applyEvent
    dsimp only
    rw [keysDown_snoc]
    exact NoteInv.applyEvent h pos hfits.1

theorem Engine.NotesFollow.segStart {e : Engine D} (h : e.NotesFollow q) {cur : Nat} (limit : Nat)
    (hfits : Run.Guarded (Engine.applyEvent k cur) (Engine.Fits q) e (dueAt e.evt.evq cur))
    : (e.segStart k cur limit).1.NotesFollow q := by
  have hevents := h.applyEvents hfits
  unfold Engine.NotesFollow at hevents ⊢
  rw [Engine.applyEvents_applied] at hevents
  rw [Engine.segStart_applied, Engine.segStart_parts]
  exact hevents.panicService.arpFireDue cur

theorem Engine.NotesFollow.mixSegment {e : Engine D} (h : e.NotesFollow q) (seg cur : Nat)
    : (e.mixSegment k seg cur).1.NotesFollow q := by
  rw [Engine.mixSegment_fst]
  unfold Engine.NotesFollow Engine.mapParts
  dsimp only
  split
  next => exact NoteInv.aged h (Aged.poolAfter _)
  next => exact h

theorem Engine.NotesFollow.start (k : Kernel D X) (e : Engine D)
    : (Stream.start k e).e.NotesFollow q := by
  have hlatch : ((Stream.start k e).e.parts q).arp.latch = Latch.empty := by
    unfold Stream.start Engine.engineVoicesCold Engine.evqResetForNewStream Part.voicesCold
      Part.arpStreamReset Part.arpReset
    dsimp only
    rw [Part.arpVoiceOff_arp]
  apply NoteInv.of_quiet
  . exact fun i => (by decide : (-1 : Int) < 0)
  . rw [hlatch]
    exact fun x hx => absurd hx List.not_mem_nil
  . rw [hlatch]
    exact fun _ _ => rfl

theorem Engine.NotesFollow.next {s : Stream D} {op : StreamOp} (h : s.e.NotesFollow q)
    (hfits : s.Fits k q op) : (s.next k op).e.NotesFollow q := by
  cases op with
  | push ev => exact h
  | block n =>
    apply Engine.renderWithEvents_inv (I := fun e => e.NotesFollow q) (G := fun e cur =>
      Run.Guarded (Engine.applyEvent k cur) (Engine.Fits q) e (dueAt e.evt.evq cur)) h hfits
    intro e cur limit seg he hg
    exact (he.segStart limit hg).mixSegment seg cur

/--
In a run whose events all fit the part, no note of the part is stuck.
-/
theorem noStuck_of_fits (k : Kernel D X) (e : Engine D) (q : Fin nParts) {s : Stream D}
    (h : Run (Stream.next k) (Stream.Fits k q) (Stream.start k e) s) : NoStuck q s := by
  have hinv : s.e.NotesFollow q :=
    h.inv (I := fun s => s.e.NotesFollow q) (Engine.NotesFollow.start k e)
      (fun _ _ hs hfits => hs.next hfits)
  intro hup _ vi
  unfold Engine.NotesFollow at hinv
  rw [hup] at hinv
  exact hinv.quiet_of_up vi

-- An event of part 0 that is due at once.
def eventNow (kind : EvKind) (a : Nat) (v : Ieee.F32) : DevEvent :=
  ⟨0, kind, a, v, 0, Ieee.Fp.ofBits 0, 0, 0⟩

def setMode : DevEvent := eventNow .paramSet 8 (Ieee.Fp.ofBits 0x3f800000)
-- plays, with a tempo of 120 and a song position
def play : DevEvent := eventNow .transport 41 (Ieee.Fp.ofBits 0x42f00000)
def keyOn : DevEvent := eventNow .noteOn 60 half
def keyOff : DevEvent := eventNow .noteOff 60 half

-- The arp is set up, then a key goes down and up.
def arpPlayed : List StreamOp :=
  [.push setMode, .push play, .block 2, .push keyOn, .block 2, .push keyOff, .block 2]

theorem noStuck_arpPlayed
    : NoStuck 0 (arpPlayed.foldl (Stream.next countKernel)
        (Stream.start countKernel (Engine.boot countKernel))) :=
  noStuck_of_fits countKernel (Engine.boot countKernel) 0
    (Run.of_guarded arpPlayed .start (by decide +kernel))

-- A key is held in a stopped song; the song starts, and the key goes up.
def heldAtStart : List StreamOp :=
  [.push setMode, .push keyOn, .push play, .push keyOff, .block 32]

theorem not_noStuck_heldAtStart
    : ¬ ∀ s, Run (Stream.next countKernel) free
        (Stream.start countKernel (Engine.boot countKernel)) s → NoStuck 0 s := by
  intro h
  have hstuck := h _ (Run.foldl heldAtStart .start)
  have hup : keysDown 0 (heldAtStart.foldl (Stream.next countKernel)
      (Stream.start countKernel (Engine.boot countKernel))).e.applied = [] := by decide +kernel
  have hgate : ((heldAtStart.foldl (Stream.next countKernel)
      (Stream.start countKernel (Engine.boot countKernel))).e.parts 0).arp.gateOff = 0 := by
    decide +kernel
  have hnote : (((heldAtStart.foldl (Stream.next countKernel)
      (Stream.start countKernel (Engine.boot countKernel))).e.parts 0).voices 0).note = 60 := by
    decide +kernel
  have hlt := hstuck hup (.inl hgate) 0
  omega

end Runs

end Harp
