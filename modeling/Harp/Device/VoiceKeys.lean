import Harp.Device.RangeRun
import Harp.Device.VoicePool

/-!
This module contains which voices an event with a voice key reaches, over whole runs. A voice has the
key of the note-on that took it; the arpeggiator takes up voice 0 without a key of its own, and the
key 0 means the whole part.
-/

namespace Harp

open Runs

variable {D X : Type} {k : Kernel D X}

-- What started the current note of a voice.
inductive NoteSource where
  | key (channel note : Nat)
  | arp
deriving DecidableEq, Repr

def PartOp.source : PartOp → NoteSource
  | .event _ ev _ => .key ev.channel ev.a
  | _ => .arp

/--
A part with what started the current note of each voice.
-/
structure Keyed (D : Type) where
  p : Part D
  source : Fin nVoices → Option NoteSource

def Keyed.next (k : Kernel D X) (s : Keyed D) (op : PartOp) : Keyed D where
  p := s.p.next k op
  source i := if s.p.startsAt k op = some i then some op.source else s.source i

def Keyed.start (k : Kernel D X) (p : Part D) : Keyed D :=
  ⟨p.voicesCold k, fun _ => none⟩

-- A note-on as a MIDI message brings it.
def DevEvent.Wired (ev : DevEvent) : Prop :=
  ev.kind = .noteOn → ev.voice = 0 ∧ ev.a < 128

def Keyed.Wired (_ : Keyed D) : PartOp → Prop
  | .event _ ev _ => ev.Wired
  | _ => True

-- The key the host forms for a note.
def voiceKeyOf (channel note : Nat) : Nat :=
  channel <<< 8 ||| note

def DevEvent.PerVoice (ev : DevEvent) : Prop :=
  ev.kind = .paramSet ∨ ev.kind = .ramp ∨ ev.kind = .mod

/--
An event changes the voices that a note-on of the key started, and nothing else in the engine's
parts.
-/
structure Addressed (channel note : Nat) (q : Fin nParts) (source : Fin nVoices → Option NoteSource)
    (e e' : Engine D) : Prop where
  voices : ∀ i, source i ≠ some (.key channel note) → (e'.parts q).voices i = (e.parts q).voices i
  stored : (e'.parts q).pval = (e.parts q).pval ∧ (e'.parts q).ramps = (e.parts q).ramps
  others : ∀ q', q' ≠ q → e'.parts q' = e.parts q'

-- Every event for the voices of the note keeps to them.
def Keyed.Addresses (k : Kernel D X) (s : Keyed D) (q : Fin nParts) (e : Engine D)
    (channel note : Nat) : Prop :=
  ∀ pos ev, ev.PerVoice → ev.voice = voiceKeyOf channel note → harpEvtPart ev.channel = q →
    Addressed channel note q s.source e (e.applyEvent k pos ev)

-- The key is not that of the whole part, and the arp does not sound under it.
def Keyed.Owns (s : Keyed D) (channel note : Nat) : Prop :=
  voiceKeyOf channel note ≠ 0
    ∧ ¬ ((s.p.voices 0).active = true ∧ s.source 0 = some .arp
      ∧ (s.p.voices 0).voiceId = voiceKeyOf channel note)

section Keys

theorem voiceKeyOf_eq {note : Nat} (channel : Nat) (h : note < 128)
    : voiceKeyOf channel note = channel * 256 + note := by
  unfold voiceKeyOf
  rw [← Nat.shiftLeft_add_eq_or_of_lt (show note < 2 ^ 8 by omega), Nat.shiftLeft_eq]

theorem voiceKeyOf_inj {channel note channel' note' : Nat} (h : note < 128) (h' : note' < 128)
    (heq : voiceKeyOf channel note = voiceKeyOf channel' note')
    : channel = channel' ∧ note = note' := by
  rw [voiceKeyOf_eq channel h, voiceKeyOf_eq channel' h'] at heq
  omega

end Keys

section Inv

variable {s : Keyed D} {op : PartOp}

-- Every sounding voice has the key of its note, but for the arp's voice.
structure KeyedInv (s : Keyed D) : Prop where
  voices : ∀ i, (s.p.voices i).active = true →
    (∃ channel note, s.source i = some (.key channel note) ∧ note < 128
        ∧ (s.p.voices i).voiceId = voiceKeyOf channel note)
      ∨ i = 0 ∧ s.source i = some .arp

theorem KeyedInv.start (k : Kernel D X) (p : Part D) : KeyedInv (Keyed.start k p) := by
  constructor
  intro i hi
  contradiction

theorem Keyed.next_source_self {i : Fin nVoices} (h : s.p.startsAt k op = some i)
    : (s.next k op).source i = some op.source := by
  unfold Keyed.next
  dsimp only
  rw [if_pos h]

theorem Keyed.next_source_ne {i : Fin nVoices} (h : s.p.startsAt k op ≠ some i)
    : (s.next k op).source i = s.source i := by
  unfold Keyed.next
  dsimp only
  rw [if_neg h]

theorem KeyedInv.next (h : KeyedInv s) (hg : s.Wired op) : KeyedInv (s.next k op) := by
  constructor
  intro i hactive
  have hp : (s.next k op).p = s.p.next k op := rfl
  rw [hp] at hactive ⊢
  cases s.p.poolStep (k := k) op with
  | silent hstart hsilent =>
    rw [Keyed.next_source_ne (by simp [hstart]), hsilent.voiceId]
    exact h.voices i (hsilent.active i hactive)
  | took pos ev hop hkind heng htook =>
    have hstart : s.p.startsAt k op = some s.p.voiceAlloc := by
      rw [hop]
      unfold Part.startsAt
      dsimp only
      rw [if_pos ⟨rfl, hkind, heng⟩]
    by_cases hi : i = s.p.voiceAlloc
    . apply Or.inl
      have hwired : ev.voice = 0 ∧ ev.a < 128 := by
        rw [hop] at hg
        exact hg hkind
      refine ⟨ev.channel, ev.a, ?_, hwired.2, ?_⟩
      . rw [hi, Keyed.next_source_self hstart, hop]
        rfl
      . rw [hi, htook.voiceId, voiceKeyOf_eq ev.channel hwired.2]
        unfold DevEvent.voiceKey
        rw [if_neg (by simp [hwired.1]), Nat.mod_eq_of_lt hwired.2]
    . rw [Keyed.next_source_ne (by rw [hstart]; simpa using Ne.symm hi)]
      rw [htook.other i hi] at hactive ⊢
      exact h.voices i hactive
  | fired pos hop hfires hfired =>
    have hstart : s.p.startsAt k op = some 0 := by
      rw [hop]
      unfold Part.startsAt
      dsimp only
      rw [if_pos hfires]
    by_cases hi : i = 0
    . apply Or.inr
      refine ⟨hi, ?_⟩
      rw [hi, Keyed.next_source_self hstart, hop]
      rfl
    . rw [Keyed.next_source_ne (by rw [hstart]; simpa using Ne.symm hi), hfired.voiceId]
      rw [hfired.active i hi] at hactive
      exact h.voices i hactive
  | cold hop =>
    rw [hop] at hactive
    contradiction

theorem keyedInv_of_run {p : Part D} (h : Run (Keyed.next k) Keyed.Wired (Keyed.start k p) s)
    : KeyedInv s :=
  Run.inv (KeyedInv.start k p) (fun _ _ hs hg => hs.next hg) h

end Inv

section Reach

variable {s : Keyed D} {channel note : Nat}

-- The voices an event with the key reaches are those of its notes.
theorem KeyedInv.source_of_target (h : KeyedInv s) (howns : s.Owns channel note) (hnote : note < 128)
    {i : Fin nVoices}
    (htarget : harpModTargetsVoice (voiceKeyOf channel note) (s.p.voices i).active
      (s.p.voices i).voiceId = true) : s.source i = some (.key channel note) := by
  unfold harpModTargetsVoice at htarget
  rw [decide_eq_true_eq] at htarget
  rcases htarget with ⟨hactive, hkey⟩
  have hid : (s.p.voices i).voiceId = voiceKeyOf channel note := by
    cases hkey with
    | inl hzero => exact absurd hzero howns.1
    | inr hid => exact hid
  cases h.voices i hactive with
  | inl hvoice =>
    rcases hvoice with ⟨channel', note', hsource, hnote', hid'⟩
    rw [hid] at hid'
    rcases voiceKeyOf_inj hnote hnote' hid' with ⟨rfl, rfl⟩
    exact hsource
  | inr harp =>
    rcases harp with ⟨rfl, hsource⟩
    exact absurd ⟨hactive, hsource, hid⟩ howns.2

-- What an event does to a part when it only reaches the voices with its key.
structure KeyOnly (key : Nat) (p p' : Part D) : Prop where
  pval : p'.pval = p.pval
  ramps : p'.ramps = p.ramps
  voices : ∀ i, harpModTargetsVoice key (p.voices i).active (p.voices i).voiceId = false →
    p'.voices i = p.voices i

namespace KeyOnly

variable {p : Part D} {ev : DevEvent} {key : Nat}

theorem refl : KeyOnly key p p :=
  ⟨rfl, rfl, fun _ _ => rfl⟩

theorem mapVoices (f : Voice D → Voice D)
    : KeyOnly key p
        (p.mapVoices fun v => if harpModTargetsVoice key v.active v.voiceId then f v else v) := by
  constructor
  . rfl
  . rfl
  . intro i hi
    dsimp only [Part.mapVoices]
    rw [hi]
    rfl

theorem paramSet (hvoice : ev.voice ≠ 0) : KeyOnly ev.voice p (p.paramSet k ev) := by
  unfold Part.paramSet
  split
  . exact refl
  . rw [if_pos hvoice]
    apply mapVoices

theorem rampTo (pos : Nat) (hvoice : ev.voice ≠ 0) : KeyOnly ev.voice p (p.rampTo k pos ev) := by
  unfold Part.rampTo
  split
  . exact refl
  . rw [if_pos hvoice]
    apply mapVoices

theorem modulate : KeyOnly ev.voice p (p.modulate ev) :=
  mapVoices _

-- An event with a key of its own keeps to the voices that have it.
theorem applyEvent (pos : Nat) (hkind : ev.PerVoice) (hvoice : ev.voice ≠ 0)
    : KeyOnly ev.voice p (p.applyEvent k pos ev true) := by
  unfold Part.applyEvent
  rcases hkind with hkind | hkind | hkind
  . rw [hkind]
    exact paramSet hvoice
  . rw [hkind]
    exact rampTo pos hvoice
  . rw [hkind]
    exact modulate

end KeyOnly

theorem Engine.applyEvent_other (e : Engine D) (pos : Nat) {ev : DevEvent} (hkind : ev.PerVoice)
    {q : Fin nParts} (hq : q ≠ harpEvtPart ev.channel)
    : (e.applyEvent k pos ev).parts q = e.parts q := by
  unfold Engine.applyEvent Part.applyEvent
  dsimp only
  rw [decide_eq_false hq]
  rcases hkind with hkind | hkind | hkind
  all_goals
    rw [hkind]
    rfl

theorem Engine.applyEvent_self (e : Engine D) (pos : Nat) {ev : DevEvent} {q : Fin nParts}
    (hq : harpEvtPart ev.channel = q)
    : (e.applyEvent k pos ev).parts q = (e.parts q).applyEvent k pos ev true := by
  unfold Engine.applyEvent
  dsimp only
  rw [decide_eq_true hq.symm]

theorem KeyedInv.addresses {e : Engine D} {q : Fin nParts} (h : KeyedInv s) (hpart : e.parts q = s.p)
    (hnote : note < 128) (howns : s.Owns channel note) : s.Addresses k q e channel note := by
  intro pos ev hkind hvoice hq
  have hkeyed : KeyOnly ev.voice (e.parts q) ((e.parts q).applyEvent k pos ev true) := by
    apply KeyOnly.applyEvent pos hkind
    rw [hvoice]
    exact howns.1
  constructor
  . intro i hi
    rw [Engine.applyEvent_self e pos hq]
    apply hkeyed.voices
    rw [Bool.eq_false_iff]
    intro htarget
    rw [hvoice, hpart] at htarget
    exact hi (h.source_of_target howns hnote htarget)
  . rw [Engine.applyEvent_self e pos hq]
    exact ⟨hkeyed.pval, hkeyed.ramps⟩
  . intro q' hq'
    apply Engine.applyEvent_other e pos hkind
    rw [hq]
    exact hq'

theorem exists_f32_ne (x : Ieee.F32) : ∃ v : Ieee.F32, v ≠ x := by
  by_cases h : half = x
  . refine ⟨Ieee.Fp.ofBits 0, ?_⟩
    rw [← h]
    decide
  . exact ⟨half, h⟩

theorem harpEvtPart_val (q : Fin nParts) : harpEvtPart q.val = q := by
  unfold harpEvtPart
  apply Fin.ext
  exact Nat.mod_eq_of_lt q.isLt

-- The key 0 stores a value for the whole part.
theorem Keyed.Addresses.key_ne_zero {e : Engine D} {q : Fin nParts}
    (h : s.Addresses k q e channel note) : voiceKeyOf channel note ≠ 0 := by
  intro hkey
  rcases exists_f32_ne ((e.parts q).pval 0) with ⟨v, hv⟩
  have haddr := h 0 ⟨0, .paramSet, 1, v, 0, Ieee.Fp.ofBits 0, q.val, 0⟩ (.inl rfl) hkey.symm
    (harpEvtPart_val q)
  have hpval := haddr.stored.1
  rw [Engine.applyEvent_self e 0 (harpEvtPart_val q)] at hpval
  apply hv
  rw [← hpval]
  rfl

-- A pitch bend for the note bends the arp's voice.
theorem Keyed.Addresses.not_arp {e : Engine D} {q : Fin nParts} (hpart : e.parts q = s.p)
    (h : s.Addresses k q e channel note)
    : ¬ ((s.p.voices 0).active = true ∧ s.source 0 = some .arp
      ∧ (s.p.voices 0).voiceId = voiceKeyOf channel note) := by
  rintro ⟨hactive, hsource, hid⟩
  rcases exists_f32_ne (s.p.voices 0).bendSemis with ⟨v, hv⟩
  let ev : DevEvent :=
    ⟨0, .mod, harpModPitchBend, v, 0, Ieee.Fp.ofBits 0, q.val, voiceKeyOf channel note⟩
  have haddr := h 0 ev (.inr (.inr rfl)) rfl (harpEvtPart_val q)
  have hvoice := haddr.voices 0 (by simp [hsource])
  rw [Engine.applyEvent_self e 0 (harpEvtPart_val q), hpart] at hvoice
  have htarget : harpModTargetsVoice (voiceKeyOf channel note) (s.p.voices 0).active
      (s.p.voices 0).voiceId = true := by
    unfold harpModTargetsVoice
    rw [decide_eq_true_eq]
    exact ⟨hactive, .inr hid⟩
  have hbend : (s.p.applyEvent k 0 ev true).voices 0 = { s.p.voices 0 with bendSemis := v } := by
    have hmod : s.p.applyEvent k 0 ev true = s.p.modulate ev := rfl
    rw [hmod]
    unfold Part.modulate
    dsimp only [ev, Part.mapVoices]
    rw [htarget]
    rfl
  rw [hbend] at hvoice
  apply hv
  rw [← hvoice]

theorem addresses_iff {p : Part D} (h : Run (Keyed.next k) Keyed.Wired (Keyed.start k p) s)
    {e : Engine D} {q : Fin nParts} (hpart : e.parts q = s.p) (channel : Nat) (hnote : note < 128)
    : s.Addresses k q e channel note ↔ s.Owns channel note := by
  constructor
  . intro haddr
    exact ⟨haddr.key_ne_zero, haddr.not_arp hpart⟩
  . exact (keyedInv_of_run h).addresses hpart hnote

instance (s : Keyed D) (channel note : Nat) : Decidable (s.Owns channel note) :=
  inferInstanceAs (Decidable (_ ∧ ¬ _))

instance (ev : DevEvent) : Decidable ev.Wired :=
  inferInstanceAs (Decidable (_ → _ ∧ _))

instance (s : Keyed D) : (op : PartOp) → Decidable (s.Wired op)
  | .event _ ev _ => inferInstanceAs (Decidable ev.Wired)
  | .post _ | .panic | .fire _ | .render _ _ | .load _ | .reset | .cold => .isTrue trivial

def Keyed.boot (ops : List PartOp) : Keyed Nat :=
  ops.foldl (Keyed.next countKernel) (Keyed.start countKernel (Part.boot countKernel))

-- One note of the chord, before the arp takes its voice.
def noteKeys : List PartOp :=
  [.event 0 keyOn true, .event 0 (eventNow .noteOn 64 half) true, .event 0 setMode true]

theorem addresses_noteKeys
    : (Keyed.boot noteKeys).Addresses countKernel 0
        { Engine.boot countKernel with parts := fun _ => (Keyed.boot noteKeys).p } 0 60 :=
  (addresses_iff (Run.of_guarded noteKeys .start (by decide +kernel)) rfl 0 (by decide)).mpr
    (by decide +kernel)

-- The arp starts a step of its own on the voice that has the key 60.
theorem not_addresses_arp
    : ¬ ∀ s, Run (Keyed.next countKernel) Keyed.Wired (Keyed.start countKernel (Part.boot countKernel)) s →
        ∀ e : Engine Nat, e.parts 0 = s.p → s.Addresses countKernel 0 e 0 60 := by
  intro h
  have haddr := h (Keyed.boot (arpOnYoungest.take 5))
    (Run.of_guarded (arpOnYoungest.take 5) .start (by decide +kernel))
    { Engine.boot countKernel with parts := fun _ => (Keyed.boot (arpOnYoungest.take 5)).p } rfl
  apply haddr.not_arp rfl
  decide +kernel

end Reach

section Wire

-- Only a MIDI message brings a note-on.
theorem wired_of_kind {ev : DevEvent} (h : ev.kind ≠ .noteOn) : ev.Wired :=
  fun hkind => absurd hkind h

theorem umpMsg_wired (msc : Nat) (p : Bytes) : (umpMsg msc p).Of DevEvent.Wired := by
  unfold umpMsg
  dsimp only
  split
  . trivial
  . split
    . intro _
      exact ⟨rfl, Nat.mod_lt _ (by decide)⟩
    . split
      . apply wired_of_kind
        simp
      . split
        . apply wired_of_kind
          simp
        . trivial

theorem bodyMsg_wired (epoch msc etype : Nat) (b : EvtBody)
    : (bodyMsg epoch msc etype b).Of DevEvent.Wired := by
  unfold bodyMsg
  split
  . dsimp only
    split
    . split
      . trivial
      . split
        . trivial
        . apply wired_of_kind
          simp [DevEvent.ofBody]
    . split
      . apply wired_of_kind
        simp [DevEvent.ofBody]
      . apply wired_of_kind
        simp [DevEvent.ofBody]
  . trivial

theorem evtDecode_wired (epoch : Nat) (buf : Bytes)
    : (evtDecode epoch buf).Of DevEvent.Wired := by
  have hfree : ∀ {σ : Type} {field : σ → Dec σ} {init : σ} {done : σ → EvtMsg} (d : Cdec),
      (∀ b, (done b).Of DevEvent.Wired) → (mapBody field init done d).Of DevEvent.Wired := by
    intro σ field init done d hdone
    apply mapBody_of (I := fun _ => True)
    . intros
      trivial
    . trivial
    . intro b _
      exact hdone b
  unfold evtDecode
  split
  . trivial
  next ep msc etype d _ =>
    split
    . trivial
    . split
      . split
        . split
          . trivial
          . apply umpMsg_wired
        . trivial
      . split
        . apply hfree
          intro b
          apply wired_of_kind
          simp
        . split
          . apply hfree
            apply bodyMsg_wired
          . split
            . apply hfree
              intro b
              apply txnMsg_of
            . trivial

structure SynthWired (s : Synth D) : Prop where
  waiting : s.e.evt.Holding DevEvent.Wired
  queued : ∀ ev ∈ s.e.evt.evq, ev.Wired

theorem SynthWired.next {s : Synth D} (h : SynthWired s) (op : SynthOp)
    : SynthWired (s.next k op) := by
  cases op with
  | evt buf readable io =>
    have hframe := Brings.frame (s := s.session) (fun _ _ hev => hev) h.waiting
      (evtDecode_wired s.audioEpoch buf) readable io
    rcases hframe.evq with ⟨new, hnew, hall⟩
    refine ⟨hframe.holding, ?_⟩
    intro ev hev
    have hmem : ev ∈ s.e.evt.evq ++ new := by
      rw [← show _ = s.e.evt.evq ++ new from hnew]
      exact hev
    rw [List.mem_append] at hmem
    cases hmem with
    | inl hold => exact h.queued ev hold
    | inr hin => exact hall ev hin
  | segment slots n pos done =>
    have hevt : (s.next k (.segment slots n pos done)).e.evt
        = { s.e.evt with evq := evqRemaining s.e.evt.evq (u64 (pos + done)) } := by
      unfold Synth.next
      dsimp only
      rw [(Engine.segment_aged s.e).1, Engine.segStart_evt]
    constructor
    . rw [hevt]
      exact ⟨h.waiting.stage, h.waiting.txn⟩
    . rw [hevt]
      intro ev hev
      exact h.queued ev (List.mem_of_mem_filter hev)

theorem Keyed.foldl_p (ops : List PartOp) (s : Keyed D)
    : (ops.foldl (Keyed.next k) s).p = ops.foldl (Part.next k) s.p := by
  induction ops generalizing s with
  | nil => rfl
  | cons op ops ih => exact ih (s.next k op)

theorem Keyed.run_foldl {init s : Keyed D} (ops : List PartOp)
    (h : Run (Keyed.next k) Keyed.Wired init s) (hops : ∀ op ∈ ops, ∀ t : Keyed D, t.Wired op)
    : Run (Keyed.next k) Keyed.Wired init (ops.foldl (Keyed.next k) s) := by
  induction ops generalizing s with
  | nil => exact h
  | cons op ops ih =>
    rw [List.foldl_cons]
    apply ih
    . exact .step op h (hops op List.mem_cons_self s)
    . intro op' hop'
      exact hops op' (List.mem_cons_of_mem op hop')

-- Whatever a device plays, each of its parts goes through operations with keys of MIDI messages.
theorem keyed_of_synth {init t : Synth D} {q : Fin nParts} {p : Part D}
    (hinit : init.e.parts q = p.voicesCold k) (hwired : SynthWired init)
    (h : Run (Synth.next k) free init t)
    : SynthWired t ∧ ∃ s, Run (Keyed.next k) Keyed.Wired (Keyed.start k p) s ∧ s.p = t.e.parts q := by
  induction h with
  | start => exact ⟨hwired, Keyed.start k p, .start, hinit.symm⟩
  | @step t op _ _ ih =>
    rcases ih with ⟨ht, s, hrun, hs⟩
    refine ⟨ht.next op, ?_⟩
    cases op with
    | evt buf readable io =>
      rcases t.consumeEvt_part (k := k) buf readable io q with ⟨note, hpart⟩
      refine ⟨s.next k (.post note), .step _ hrun trivial, ?_⟩
      unfold Synth.next
      dsimp only
      rw [hpart, ← hs]
      rfl
    | segment slots n pos done =>
      rcases t.e.segment_part (k := k) slots n pos done q with ⟨rendered, seg, hpart⟩
      refine ⟨_, Keyed.run_foldl (startOps q (dueAt t.e.evt.evq (u64 (pos + done)))
        (u64 (pos + done)) ++ renderOps rendered seg (u64 (pos + done))) hrun ?_, ?_⟩
      . intro op hop u
        rw [List.mem_append] at hop
        cases hop with
        | inl hop =>
          unfold startOps at hop
          rw [List.mem_append, List.mem_map] at hop
          cases hop with
          | inl hop =>
            rcases hop with ⟨ev, hev, rfl⟩
            exact ht.queued ev (List.mem_of_mem_filter hev)
          | inr hop =>
            simp only [List.mem_cons, List.not_mem_nil, or_false] at hop
            cases hop with
            | inl hop =>
              rw [hop]
              trivial
            | inr hop =>
              rw [hop]
              trivial
        | inr hop =>
          unfold renderOps at hop
          split at hop
          . rw [List.mem_singleton] at hop
            rw [hop]
            trivial
          . contradiction
      . unfold Synth.next
        dsimp only
        rw [Keyed.foldl_p, hpart, hs]

end Wire

end Harp
