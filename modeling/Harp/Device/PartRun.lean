import Harp.Device.EngineRun

/-!
This module contains what happens to one part of the engine one operation at a time: an event that
is applied, a panic, an arp step, a rendered segment, a loaded patch and the resets of a stream. A
segment of the whole engine is such operations on each of its parts.
-/

namespace Harp

variable {D X : Type} {k : Kernel D X}

inductive PartOp where
  | event (pos : Nat) (ev : DevEvent) (routed : Bool)
  | post (note : PanicNote)
  | panic
  | fire (pos : Nat)
  | render (n pos : Nat)
  | load (pval : Fin nParams → Ieee.F32)
  | reset
  | cold

-- `evq_reset_for_new_stream`, of one part.
def Part.streamReset (p : Part D) : Part D :=
  let p := p.freeVoices
  { p with panicNote := .none, ramps := fun _ => Ramp.none }.arpStreamReset

def Part.next (k : Kernel D X) (p : Part D) : PartOp → Part D
  | .event pos ev routed => p.applyEvent k pos ev routed
  | .post note => { p with panicNote := note }
  | .panic => p.panicService
  | .fire pos => p.arpFireDue k pos
  | .render n pos => p.poolAfter k n pos
  | .load pval => { p with pval }
  | .reset => p.streamReset
  | .cold => p.voicesCold k

section Segment

-- What a segment does to the part `q` before it is rendered.
def startOps (q : Fin nParts) (due : List DevEvent) (cur : Nat) : List PartOp :=
  due.map (fun ev => .event cur ev (q = harpEvtPart ev.channel)) ++ [.panic, .fire cur]

theorem Engine.applyEvents_part (e : Engine D) (q : Fin nParts) (due : List DevEvent) (cur : Nat)
    : (due.foldl (Engine.applyEvent k cur) e).parts q
        = (due.map (fun ev => PartOp.event cur ev (q = harpEvtPart ev.channel))).foldl (Part.next k)
            (e.parts q) := by
  induction due generalizing e with
  | nil => rfl
  | cons ev due ih =>
    rw [List.foldl_cons, ih, List.map_cons, List.foldl_cons]
    rfl

theorem Engine.segStart_part (e : Engine D) (q : Fin nParts) (cur limit : Nat)
    : (e.segStart k cur limit).1.parts q
        = (startOps q (dueAt e.evt.evq cur) cur).foldl (Part.next k) (e.parts q) := by
  rw [Engine.segStart_parts, Engine.applyEvents_part]
  unfold startOps
  rw [List.foldl_append]
  rfl

def renderOps (rendered : Bool) (n pos : Nat) : List PartOp :=
  if rendered then [.render n pos] else []

theorem renderOps_of_ite (p : Part D) (c : Prop) [Decidable c] (n pos : Nat)
    : (if c then p.poolAfter k n pos else p)
        = (renderOps c n pos).foldl (Part.next k) p := by
  unfold renderOps
  by_cases hc : c
  . simp only [hc, if_true, decide_true]
    rfl
  . simp only [hc, if_false, decide_false, Bool.false_eq_true]
    rfl

theorem Engine.rendered_part (e : Engine D) (q : Fin nParts) (cur limit seg : Nat) (c : Prop)
    [Decidable c]
    : ∃ rendered n, (if c then ((e.segStart k cur limit).1.parts q).poolAfter k seg cur
          else (e.segStart k cur limit).1.parts q)
        = (startOps q (dueAt e.evt.evq cur) cur ++ renderOps rendered n cur).foldl (Part.next k)
            (e.parts q) := by
  refine ⟨decide c, seg, ?_⟩
  rw [List.foldl_append, ← Engine.segStart_part e q cur limit, ← renderOps_of_ite]

-- A segment of either render path is operations on each part, and only on its own state.
theorem Engine.segment_part (e : Engine D) (slots : List OutSlot) (n pos done : Nat) (q : Fin nParts)
    : ∃ rendered seg, (e.segment k slots n pos done).parts q
        = (startOps q (dueAt e.evt.evq (u64 (pos + done))) (u64 (pos + done))
            ++ renderOps rendered seg (u64 (pos + done))).foldl (Part.next k) (e.parts q) := by
  unfold Engine.segment Block.turn
  dsimp only
  split
  . rw [Engine.mixSegment_fst]
    apply Engine.rendered_part
  . rw [Engine.slotSegment_fst]
    apply Engine.rendered_part

-- A frame leaves at most a mark in the mailbox.
theorem Synth.consumeEvt_part (s : Synth D) (buf : Bytes) (readable : Bool) (io : WriteIo)
    (q : Fin nParts)
    : ∃ note, (s.consumeEvt buf readable io).e.parts q = (s.e.parts q).next k (.post note) :=
  s.consumeEvt_mailbox buf readable io q

theorem Engine.evqResetForNewStream_part (e : Engine D) (q : Fin nParts)
    : e.evqResetForNewStream.parts q = (e.parts q).next k .reset := rfl

theorem Engine.engineVoicesCold_part (e : Engine D) (q : Fin nParts)
    : (e.engineVoicesCold k).parts q = (e.parts q).next k .cold := rfl

end Segment

section Starts

-- A step of the arp fires at `pos`.
def Part.arpFires (k : Kernel D X) (p : Part D) (pos : Nat) : Bool :=
  p.arpActive ∧ p.arp.playing ∧ p.arp.anchorValid ∧ tempoStopped p.arp.tempo = false
    ∧ p.arp.latch.keys ≠ [] ∧ pos ≠ 0 ∧ p.arpNextStepSsi k (pos - 1) = pos

-- The voice on which the operation starts a note.
def Part.startsAt (k : Kernel D X) (p : Part D) : PartOp → Option (Fin nVoices)
  | .event _ ev routed =>
    if routed ∧ ev.kind = .noteOn ∧ p.arpEngaged = false then some p.voiceAlloc else none
  | .fire pos => if p.arpFires k pos then some 0 else none
  | _ => none

-- No note starts: voices are released or freed, and the pool keeps its order.
structure Silent (p p' : Part D) : Prop where
  allocClock : p'.allocClock = p.allocClock
  allocSeq : ∀ i, (p'.voices i).allocSeq = (p.voices i).allocSeq
  voiceId : ∀ i, (p'.voices i).voiceId = (p.voices i).voiceId
  noteSeq : ∀ i, (p'.voices i).noteSeq = (p.voices i).noteSeq
  active : ∀ i, (p'.voices i).active = true → (p.voices i).active = true

namespace Silent

theorem refl (p : Part D) : Silent p p :=
  ⟨rfl, fun _ => rfl, fun _ => rfl, fun _ => rfl, fun _ h => h⟩

theorem trans {p q r : Part D} (h : Silent p q) (h' : Silent q r) : Silent p r where
  allocClock := h'.allocClock.trans h.allocClock
  allocSeq i := (h'.allocSeq i).trans (h.allocSeq i)
  voiceId i := (h'.voiceId i).trans (h.voiceId i)
  noteSeq i := (h'.noteSeq i).trans (h.noteSeq i)
  active i hi := h.active i (h'.active i hi)

theorem of_voices {p p' : Part D} (hclock : p'.allocClock = p.allocClock)
    (hvoices : p'.voices = p.voices) : Silent p p' := by
  constructor
  . exact hclock
  all_goals
    rw [hvoices]
    intros
    first
      | rfl
      | assumption

-- One voice is released or freed.
theorem setVoice {p : Part D} {vi : Fin nVoices} {v : Voice D}
    (hseq : v.allocSeq = (p.voices vi).allocSeq) (hid : v.voiceId = (p.voices vi).voiceId)
    (hnote : v.noteSeq = (p.voices vi).noteSeq) (hactive : v.active = true → (p.voices vi).active = true)
    : Silent p (p.setVoice vi v) := by
  have hvoices : ∀ i, (p.setVoice vi v).voices i = if i = vi then v else p.voices i := fun _ => rfl
  constructor
  . rfl
  all_goals
    intro i
    rw [hvoices]
    split
    next h => rw [h]; assumption
    next => first | rfl | exact id

theorem mapVoices {p : Part D} {f : Voice D → Voice D} (hseq : ∀ v, (f v).allocSeq = v.allocSeq)
    (hid : ∀ v, (f v).voiceId = v.voiceId) (hnote : ∀ v, (f v).noteSeq = v.noteSeq)
    (hactive : ∀ v, (f v).active = true → v.active = true) : Silent p (p.mapVoices f) where
  allocClock := rfl
  allocSeq i := hseq (p.voices i)
  voiceId i := hid (p.voices i)
  noteSeq i := hnote (p.voices i)
  active i h := hactive (p.voices i) h

theorem freeVoices (p : Part D) : Silent p p.freeVoices := by
  apply mapVoices
  . intro v
    rfl
  . intro v
    rfl
  . intro v
    rfl
  . intro v h
    contradiction

theorem voiceNoteOff (p : Part D) (note : Int) : Silent p (p.voiceNoteOff note) := by
  apply mapVoices
  all_goals
    intro v
    split
    . first | rfl | exact id
    . first | rfl | exact id

theorem arpVoiceOff (p : Part D) : Silent p p.arpVoiceOff := by
  unfold Part.arpVoiceOff
  dsimp only
  split
  . apply Silent.trans (q := p.setVoice 0 { p.voices 0 with note := -1 })
    . exact setVoice rfl rfl rfl id
    . exact of_voices rfl rfl
  . exact of_voices rfl rfl

theorem arpReset (p : Part D) : Silent p p.arpReset := by
  unfold Part.arpReset
  apply Silent.trans _ (arpVoiceOff _)
  exact of_voices rfl rfl

theorem panicService (p : Part D) : Silent p p.panicService := by
  unfold Part.panicService
  split
  . exact refl p
  . exact (freeVoices p).trans (of_voices rfl rfl)
  next n _ => exact (voiceNoteOff p n).trans (of_voices rfl rfl)

theorem streamReset (p : Part D) : Silent p p.streamReset := by
  unfold Part.streamReset Part.arpStreamReset
  dsimp only
  apply Silent.trans (freeVoices p)
  apply Silent.trans (q := { p.freeVoices with panicNote := .none, ramps := fun _ => Ramp.none })
  . exact of_voices rfl rfl
  . apply (arpReset _).trans
    exact of_voices rfl rfl

theorem arpGate (p : Part D) (pos : Nat) : Silent p (p.arpGate pos) := by
  unfold Part.arpGate
  split
  . exact arpVoiceOff p
  . exact refl p

theorem transport (pos : Nat) (p : Part D) (ev : DevEvent) : Silent p (p.transport pos ev) := by
  unfold Part.transport
  dsimp only
  have hanchored : Silent p (p.anchored pos ev) := of_voices rfl rfl
  split
  . split
    . exact (hanchored.trans (arpVoiceOff _)).trans (of_voices rfl rfl)
    . exact hanchored.trans (arpVoiceOff _)
  . split
    . exact hanchored.trans (of_voices rfl rfl)
    . exact hanchored

theorem paramSet (p : Part D) (ev : DevEvent) : Silent p (p.paramSet k ev) := by
  unfold Part.paramSet
  split
  . exact refl p
  . split
    . apply mapVoices
      all_goals
        intro v
        split
        . first | rfl | exact id
        . first | rfl | exact id
    . exact of_voices rfl rfl

theorem rampTo (p : Part D) (ev : DevEvent) (pos : Nat) : Silent p (p.rampTo k pos ev) := by
  unfold Part.rampTo
  split
  . exact refl p
  . split
    . apply mapVoices
      all_goals
        intro v
        split
        . first | rfl | exact id
        . first | rfl | exact id
    . exact of_voices rfl rfl

theorem modulate (p : Part D) (ev : DevEvent) : Silent p (p.modulate ev) := by
  apply mapVoices
  all_goals
    intro v
    split
    . cases harpModTarget ev.a <;> first | rfl | exact id
    . first | rfl | exact id

theorem foldl {β : Type} {f : Part D → β → Part D} (hf : ∀ p x, Silent p (f p x)) (xs : List β)
    (p : Part D) : Silent p (xs.foldl f p) := by
  induction xs generalizing p with
  | nil => exact refl p
  | cons x xs ih => exact (hf p x).trans (ih (f p x))

theorem voiceSubBlocks (p : Part D) (vi : Fin nVoices) (n pos : Nat)
    : Silent p (p.voiceSubBlocks k vi n pos) := by
  have hblock : ∀ (s : Part D × List (X × X)) i, Silent s.1 (Part.subBlock k vi n pos s i).1 := by
    intro s i
    have hramps : Silent s.1 (s.1.rampsAdvance k (u64 (pos + i))) :=
      ⟨rfl, fun _ => rfl, fun _ => rfl, fun _ => rfl, fun _ h => h⟩
    apply hramps.trans
    exact setVoice rfl rfl rfl id
  have hfold : ∀ (starts : List Nat) (s : Part D × List (X × X)),
      Silent s.1 (starts.foldl (Part.subBlock k vi n pos) s).1 := by
    intro starts
    induction starts with
    | nil => exact fun s => refl s.1
    | cons i starts ih => exact fun s => (hblock s i).trans (ih _)
  unfold Part.voiceSubBlocks Part.engineRender
  dsimp only
  apply Silent.trans _ (hfold _ _)
  exact setVoice rfl rfl rfl id

theorem reclaim (p : Part D) (vi : Fin nVoices) : Silent p (p.reclaim k vi) := by
  unfold Part.reclaim
  dsimp only
  split
  . apply setVoice
    . rfl
    . rfl
    . rfl
    . intro h
      contradiction
  . exact refl p

theorem poolAfter (p : Part D) (n pos : Nat) : Silent p (p.poolAfter k n pos) := by
  apply foldl
  intro p vi
  unfold Part.voiceAfter
  split
  . exact (voiceSubBlocks p vi n pos).trans (reclaim _ vi)
  . exact refl p

end Silent

theorem Part.arpStep_of_not {p : Part D} {pos : Nat} (hactive : p.arpActive = true)
    (h : p.arpFires k pos = false) : p.arpStep k pos = p := by
  unfold Part.arpFires at h
  unfold Part.arpStep
  split
  . rfl
  next hready =>
    split
    . rfl
    next hpos =>
      simp only [not_or, Bool.not_eq_true] at hready
      simp_all

theorem Part.arpStep_of_fires {p : Part D} {pos : Nat} (h : p.arpFires k pos = true)
    : p.arpStep k pos = p.arpFire k pos := by
  unfold Part.arpFires at h
  simp only [decide_eq_true_eq] at h
  unfold Part.arpStep
  rw [if_neg, if_neg]
  . simpa using h.2.2.2.2.2.2
  . simp [h]

theorem Part.arpGate_fires (p : Part D) (pos : Nat)
    : (p.arpGate pos).arpFires k pos = p.arpFires k pos := by
  unfold Part.arpGate
  split
  . unfold Part.arpFires Part.arpActive Part.paramStepIndex Part.arpNextStepSsi Part.paramStepIndex
    rw [Part.arpVoiceOff_arp, Part.arpVoiceOff_pval]
  . rfl

-- A note-on that takes a voice from the pool.
structure Took (vi : Fin nVoices) (id : Nat) (p p' : Part D) : Prop where
  allocClock : p'.allocClock = u64 (p.allocClock + 1)
  allocSeq : (p'.voices vi).allocSeq = p.allocClock
  voiceId : (p'.voices vi).voiceId = id
  noteSeq : (p'.voices vi).noteSeq = ((p.voices vi).noteSeq + 1) % 2 ^ 32
  active : (p'.voices vi).active = true
  other : ∀ i, i ≠ vi → p'.voices i = p.voices i

-- A step of the arp, which takes voice 0 as it is.
structure Fired (p p' : Part D) : Prop where
  allocClock : p'.allocClock = p.allocClock
  allocSeq : ∀ i, (p'.voices i).allocSeq = (p.voices i).allocSeq
  voiceId : ∀ i, (p'.voices i).voiceId = (p.voices i).voiceId
  noteSeq : (p'.voices 0).noteSeq = ((p.voices 0).noteSeq + 1) % 2 ^ 32
  started : (p'.voices 0).active = true
  other : ∀ i, i ≠ 0 → (p'.voices i).noteSeq = (p.voices i).noteSeq
  active : ∀ i, i ≠ 0 → (p'.voices i).active = (p.voices i).active

theorem Part.arpGate_active (p : Part D) (pos : Nat) (i : Fin nVoices)
    : ((p.arpGate pos).voices i).active = (p.voices i).active := by
  unfold Part.arpGate
  split
  . unfold Part.arpVoiceOff
    dsimp only
    split
    . dsimp only [Part.setVoice]
      split
      next h => rw [h]
      next => rfl
    . rfl
  . rfl

def DevEvent.voiceKey (ev : DevEvent) : Nat :=
  if ev.voice ≠ 0 then ev.voice else ev.channel * 256 + ev.a % 128

theorem Part.noteOn_took {p : Part D} (heng : p.arpEngaged = false) (ev : DevEvent)
    : Took p.voiceAlloc ev.voiceKey p (p.noteOn ev) := by
  have hlatch : ¬ (p.arpLatchAdd (ev.a % 256) ev.v).arpEngaged = true := by
    have heq : (p.arpLatchAdd (ev.a % 256) ev.v).arpEngaged = p.arpEngaged := rfl
    rw [heq, heng]
    simp
  unfold Part.noteOn
  dsimp only
  rw [if_pos hlatch]
  have halloc : (p.arpLatchAdd (ev.a % 256) ev.v).voiceAlloc = p.voiceAlloc := rfl
  unfold Part.voiceNoteOn
  dsimp only
  rw [halloc]
  constructor
  . rfl
  . dsimp only
    rw [Part.setVoice_self]
    rfl
  . dsimp only
    rw [Part.setVoice_self]
    rfl
  . dsimp only
    rw [Part.setVoice_self]
    rfl
  . dsimp only
    rw [Part.setVoice_self]
  . intro i hi
    dsimp only
    rw [Part.setVoice_ne _ _ hi]
    rfl

theorem Part.noteOn_silent {p : Part D} (heng : p.arpEngaged = true) (ev : DevEvent)
    : Silent p (p.noteOn ev) := by
  have hlatch : ¬ ¬ (p.arpLatchAdd (ev.a % 256) ev.v).arpEngaged = true := by
    have heq : (p.arpLatchAdd (ev.a % 256) ev.v).arpEngaged = p.arpEngaged := rfl
    rw [heq, heng]
    simp
  unfold Part.noteOn
  dsimp only
  rw [if_neg hlatch]
  exact Silent.of_voices rfl rfl

theorem Part.noteOff_silent (p : Part D) (ev : DevEvent) : Silent p (p.noteOff ev) := by
  have hlatch : Silent p (p.arpLatchRemove (ev.a % 256)) := Silent.of_voices rfl rfl
  unfold Part.noteOff
  dsimp only
  split
  . exact hlatch.trans (Silent.voiceNoteOff _ _)
  . split
    . exact hlatch.trans (Silent.arpVoiceOff _)
    . exact hlatch

theorem Part.arpFire_fired (p : Part D) (pos : Nat) : Fired p (p.arpFire k pos) := by
  unfold Part.arpFire Part.arpVoiceOn
  dsimp only
  have hcases : ∀ (v : Voice D) i, (p.setVoice 0 v).voices i = if i = 0 then v else p.voices i :=
    fun _ _ => rfl
  constructor
  . rfl
  . intro i
    dsimp only
    rw [hcases]
    split
    next h => rw [h]
    next => rfl
  . intro i
    dsimp only
    rw [hcases]
    split
    next h => rw [h]
    next => rfl
  . rfl
  . rfl
  . intro i hi
    dsimp only
    rw [hcases, if_neg hi]
  . intro i hi
    dsimp only
    rw [hcases, if_neg hi]

theorem Part.arpFireDue_fired {p : Part D} {pos : Nat} (h : p.arpFires k pos = true)
    : Fired p (p.arpFireDue k pos) := by
  have hactive : p.arpActive = true := by
    unfold Part.arpFires at h
    simp only [decide_eq_true_eq] at h
    exact h.1
  have hgate := Silent.arpGate p pos
  unfold Part.arpFireDue
  rw [if_neg (by simp [hactive]), Part.arpStep_of_fires (by rw [Part.arpGate_fires]; exact h)]
  have hfire := Part.arpFire_fired (k := k) (p.arpGate pos) pos
  constructor
  . exact hfire.allocClock.trans hgate.allocClock
  . intro i
    exact (hfire.allocSeq i).trans (hgate.allocSeq i)
  . intro i
    exact (hfire.voiceId i).trans (hgate.voiceId i)
  . rw [hfire.noteSeq, hgate.noteSeq]
  . exact hfire.started
  . intro i hi
    exact (hfire.other i hi).trans (hgate.noteSeq i)
  . intro i hi
    exact (hfire.active i hi).trans (p.arpGate_active pos i)

theorem Part.arpFireDue_silent {p : Part D} {pos : Nat} (h : p.arpFires k pos = false)
    : Silent p (p.arpFireDue k pos) := by
  unfold Part.arpFireDue
  split
  . exact Silent.refl p
  next hactive =>
    rw [Classical.not_not] at hactive
    have hgate : (p.arpGate pos).arpActive = true := by
      unfold Part.arpGate
      split
      . unfold Part.arpActive Part.paramStepIndex
        rw [Part.arpVoiceOff_pval]
        exact hactive
      . exact hactive
    rw [Part.arpStep_of_not hgate (by rw [Part.arpGate_fires]; exact h)]
    exact Silent.arpGate p pos

-- What an operation does to the pool, by the note it starts.
inductive PoolStep (k : Kernel D X) (p : Part D) (op : PartOp) : Prop where
  | silent (hstart : p.startsAt k op = none) (h : Silent p (p.next k op))
  | took (pos : Nat) (ev : DevEvent) (hop : op = .event pos ev true) (hkind : ev.kind = .noteOn)
      (heng : p.arpEngaged = false) (h : Took p.voiceAlloc ev.voiceKey p (p.next k op))
  | fired (pos : Nat) (hop : op = .fire pos) (hfires : p.arpFires k pos = true)
      (h : Fired p (p.next k op))
  | cold (hop : op = .cold)

theorem Part.poolStep (p : Part D) (op : PartOp) : PoolStep k p op := by
  cases op with
  | event pos ev routed =>
    by_cases hstart : routed = true ∧ ev.kind = .noteOn ∧ p.arpEngaged = false
    . rcases hstart with ⟨rfl, hkind, heng⟩
      apply PoolStep.took pos ev rfl hkind heng
      have hnext : p.next k (.event pos ev true) = p.noteOn ev := by
        unfold Part.next Part.applyEvent
        dsimp only
        rw [hkind]
        rfl
      rw [hnext]
      exact Part.noteOn_took heng ev
    . apply PoolStep.silent
      . unfold Part.startsAt
        dsimp only
        rw [if_neg hstart]
      . unfold Part.next Part.applyEvent
        dsimp only
        cases hkind : ev.kind with
        | noteOn =>
          cases routed with
          | false => exact Silent.refl p
          | true =>
            apply Part.noteOn_silent
            simpa [hkind] using hstart
        | noteOff =>
          cases routed with
          | false => exact Silent.refl p
          | true => exact Part.noteOff_silent p ev
        | allOff => exact (Silent.arpReset p).trans (Silent.freeVoices _)
        | transport => exact Silent.transport pos p ev
        | paramSet =>
          cases routed with
          | false => exact Silent.refl p
          | true => exact Silent.paramSet p ev
        | ramp =>
          cases routed with
          | false => exact Silent.refl p
          | true => exact Silent.rampTo p ev pos
        | mod =>
          cases routed with
          | false => exact Silent.refl p
          | true => exact Silent.modulate p ev
  | fire pos =>
    cases hfires : p.arpFires k pos with
    | true => exact .fired pos rfl hfires (Part.arpFireDue_fired hfires)
    | false =>
      apply PoolStep.silent
      . unfold Part.startsAt
        dsimp only
        rw [hfires]
        rfl
      . exact Part.arpFireDue_silent hfires
  | post note => exact .silent rfl (Silent.of_voices rfl rfl)
  | panic => exact .silent rfl (Silent.panicService p)
  | render n pos => exact .silent rfl (Silent.poolAfter p n pos)
  | load pval => exact .silent rfl (Silent.of_voices rfl rfl)
  | reset => exact .silent rfl (Silent.streamReset p)
  | cold => exact .cold rfl

end Starts

end Harp
