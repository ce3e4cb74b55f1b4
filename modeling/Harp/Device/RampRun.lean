import Harp.Device.EngineRun
import Harp.Device.ParamsCodec
import Harp.Device.SlotState
import Harp.Lib.Run

/-!
This module contains the ramps of a stream: how a ramp carries the stored value of its parameter, and
when it is at its target once the stream is past its end. A ramp moves only in a sub-block of a voice
of its part.
-/

namespace Harp

open Ieee Runs

variable {D X : Type} {k : Kernel D X}

section Playback

/--
A stream in the middle of a block: `done` samples of the `n` at `pos` are rendered.
-/
structure Playback (D : Type) where
  synth : Synth D
  slots : List OutSlot
  pos : Nat
  n : Nat
  done : Nat

def Playback.start (s : Synth D) (pos : Nat) : Playback D :=
  ⟨{ s with e := s.e.evqResetForNewStream }, [], pos, 0, 0⟩

inductive PlaybackOp where
  | evt (buf : Bytes) (readable : Bool) (io : WriteIo)
  | block (slots : List OutSlot) (n : Nat)
  | segment

-- The position the stream is rendered up to.
def Playback.rendered (s : Playback D) : Nat :=
  u64 (s.pos + s.done)

-- The state the voices of the next segment start from, and how many samples they render.
def Playback.segStart (k : Kernel D X) (s : Playback D) : Engine D × Nat :=
  let r := s.synth.e.segStart k s.rendered (u64 (s.pos + s.n))
  (r.1, segLen r.2 s.rendered s.done s.n)

def Playback.next (k : Kernel D X) (s : Playback D) : PlaybackOp → Playback D
  | .evt buf readable io => { s with synth := s.synth.consumeEvt buf readable io }
  | .block slots n =>
    if s.done < s.n then s else { s with slots, pos := u64 (s.pos + s.n), n, done := 0 }
  | .segment =>
    if s.done < s.n then
      { s with
        synth := { s.synth with e := s.synth.e.segment k s.slots s.n s.pos s.done },
        done := s.done + (s.segStart k).2 }
    else
      s

end Playback

section Edits

-- A set or a ramp of the stored value of a parameter.
def DevEvent.edits (q : Fin nParts) (j : Fin nParams) (ev : DevEvent) : Bool :=
  ev.dirties ∧ harpEvtPart ev.channel = q ∧ paramIndex ev.a = some j

-- The last of them that was applied, with the position it was applied at.
def lastEdit (q : Fin nParts) (j : Fin nParams) (applied : List (Nat × DevEvent))
    : Option (Nat × DevEvent) :=
  (applied.filter (fun x => x.2.edits q j)).getLast?

theorem lastEdit_snoc (q : Fin nParts) (j : Fin nParams) (applied : List (Nat × DevEvent))
    (x : Nat × DevEvent)
    : lastEdit q j (applied ++ [x]) = if x.2.edits q j then some x else lastEdit q j applied := by
  unfold lastEdit
  rw [List.filter_append, List.filter_singleton]
  cases x.2.edits q j <;> simp

def Engine.grid (e : Engine D) : Grid :=
  fun q j => (e.parts q).pval j

/--
Every ramp that is not superseded has its target once the stream is past its end, in the engine and
in the params blob of a snapshot taken then.
-/
structure RampsLand (s : Playback D) : Prop where
  value : ∀ q j start ev, lastEdit q j s.synth.e.applied = some (start, ev) → ev.kind = .ramp →
    ev.end_ < s.rendered → s.synth.e.grid q j = ev.v
  saved : ∀ q j start ev, lastEdit q j s.synth.e.applied = some (start, ev) → ev.kind = .ramp →
    ev.end_ < s.rendered →
      (refdevParseParamsBlob (refdevEncodeParamsBlob s.synth.e.grid)).bind (fun cells => cells q j)
        = some (canon ev.v)

-- The offsets at which the sub-blocks of a segment start.
def subStarts (n : Nat) : List Nat :=
  (List.range ((n + smoothSubblock - 1) / smoothSubblock)).map (smoothSubblock * ·)

def Ramp.overAt (r : Ramp) (pos : Nat) : Prop :=
  pos ≥ r.stop ∨ r.stop ≤ r.start

instance decidableOverAt (r : Ramp) (pos : Nat) : Decidable (r.overAt pos) :=
  inferInstanceAs (Decidable (pos ≥ r.stop ∨ r.stop ≤ r.start))

/--
The segment ends every ramp whose end it passes: the part has an allocated voice and is requested,
and a sub-block starts at the end or behind it.
-/
def Playback.Passes (k : Kernel D X) (s : Playback D) : PlaybackOp → Prop
  | .segment => s.done < s.n → ∀ q j,
    let e := (s.segStart k).1
    let seg := (s.segStart k).2
    let r := (e.parts q).ramps j
    r.active → r.stop < u64 (s.pos + (s.done + seg)) →
      (needMain s.slots ∨ needPart s.slots q) ∧ (∃ vi, ((e.parts q).voices vi).active) ∧
        ∃ i ∈ subStarts seg, r.overAt (u64 (s.rendered + i))
  | _ => True

end Edits

section Carried

/--
What becomes of a ramp and the value it drives while nothing edits them: the ramp is as before, or it
has ended and the value is its target. An ended ramp leaves the value alone.
-/
inductive Carried (r : Ramp) (v : F32) (r' : Ramp) (v' : F32) : Prop where
  | kept (hr : r' = r) (hv : r.active = false → v' = v)
  | landed (hactive : r.active) (hr : r' = { r with active := false }) (hv : v' = r.target)

namespace Carried

variable {r r' r'' : Ramp} {v v' v'' : F32}

theorem refl (r : Ramp) (v : F32) : Carried r v r v :=
  .kept rfl (fun _ => rfl)

theorem trans (h : Carried r v r' v') (h' : Carried r' v' r'' v'') : Carried r v r'' v'' := by
  cases h with
  | kept hr hv =>
    subst hr
    cases h' with
    | kept hr' hv' => exact .kept hr' (fun hoff => (hv' hoff).trans (hv hoff))
    | landed hactive hr' hv' => exact .landed hactive hr' hv'
  | landed hactive hr hv =>
    subst hr
    cases h' with
    | kept hr' hv' => exact .landed hactive hr' ((hv' rfl).trans hv)
    | landed hactive' _ _ => cases hactive'

-- A ramp that has ended stays ended.
theorem inactive (h : Carried r v r' v') (hoff : r.active = false) : r'.active = false := by
  cases h with
  | kept hr _ => rw [hr, hoff]
  | landed hactive hr _ => rw [hr]

end Carried

def Part.Carries (p p' : Part D) : Prop :=
  ∀ j, Carried (p.ramps j) (p.pval j) (p'.ramps j) (p'.pval j)

namespace Part.Carries

variable {n pos : Nat}

theorem refl (p : Part D) : Part.Carries p p :=
  fun _ => Carried.refl _ _

theorem trans {p p' p'' : Part D} (h : Part.Carries p p') (h' : Part.Carries p' p'')
    : Part.Carries p p'' :=
  fun j => (h j).trans (h' j)

theorem foldl {S β : Type} {f : S → β → S} (proj : S → Part D)
    (hf : ∀ s x, Part.Carries (proj s) (proj (f s x))) (xs : List β) (s : S)
    : Part.Carries (proj s) (proj (xs.foldl f s)) := by
  induction xs generalizing s with
  | nil => exact refl _
  | cons x xs ih => exact (hf s x).trans (ih (f s x))

theorem rampsAdvance (p : Part D) (pos : Nat) : Part.Carries p (p.rampsAdvance k pos) := by
  intro j
  unfold Part.rampsAdvance Ramp.tick Ramp.settle
  dsimp only
  by_cases hactive : (p.ramps j).active
  . by_cases hover : pos ≥ (p.ramps j).stop ∨ (p.ramps j).stop ≤ (p.ramps j).start
    . apply Carried.landed hactive
      . simp [hactive, hover]
      . simp [hactive, hover]
    . apply Carried.kept
      . simp [hover]
      . simp [hactive]
  . apply Carried.kept
    . simp [hactive]
    . simp [hactive]

theorem subBlock (vi : Fin nVoices) (s : Part D × List (X × X)) (i : Nat)
    : Part.Carries s.1 (Part.subBlock k vi n pos s i).1 :=
  rampsAdvance s.1 (u64 (pos + i))

theorem reclaim (p : Part D) (vi : Fin nVoices) : Part.Carries p (p.reclaim k vi) := by
  unfold Part.reclaim
  dsimp only
  split
  next => exact refl p
  next => exact refl p

theorem voiceSubBlocks (p : Part D) (vi : Fin nVoices)
    : Part.Carries p (p.voiceSubBlocks k vi n pos) :=
  foldl Prod.fst (subBlock vi) _ (p.setVoice vi _, [])

theorem voiceAfter (p : Part D) (vi : Fin nVoices)
    : Part.Carries p (p.voiceAfter k n pos vi) := by
  unfold Part.voiceAfter
  split
  next => exact (voiceSubBlocks p vi).trans (reclaim _ vi)
  next => exact refl p

theorem poolAfter (p : Part D) : Part.Carries p (p.poolAfter k n pos) :=
  foldl id voiceAfter (List.finRange nVoices) p

end Part.Carries

end Carried

section Landing

variable {n pos : Nat} {j : Fin nParams}

-- The sub-block that starts at the end of a ramp ends it.
theorem Part.rampsAdvance_over {p : Part D} {pos : Nat} (h : (p.ramps j).overAt pos)
    : ((p.rampsAdvance k pos).ramps j).active = false := by
  unfold Part.rampsAdvance Ramp.settle
  unfold Ramp.overAt at h
  dsimp only
  by_cases hactive : (p.ramps j).active
  . simp [hactive, h]
  . simp [hactive]

theorem Part.subBlocks_over {vi : Fin nVoices} {starts : List Nat} {i : Nat} (hi : i ∈ starts)
    {s : Part D × List (X × X)} (h : (s.1.ramps j).overAt (u64 (pos + i)))
    : ((starts.foldl (Part.subBlock k vi n pos) s).1.ramps j).active = false := by
  induction starts generalizing s with
  | nil => cases hi
  | cons i' starts ih =>
    have hstep : Part.Carries s.1 (Part.subBlock k vi n pos s i').1 :=
      Part.Carries.subBlock vi s i'
    have hrest : ∀ s : Part D × List (X × X), Part.Carries s.1
        (starts.foldl (Part.subBlock k vi n pos) s).1 :=
      Part.Carries.foldl Prod.fst (Part.Carries.subBlock vi) starts
    rw [List.foldl_cons]
    rw [List.mem_cons] at hi
    rcases hi with rfl | hi
    . exact (hrest _ j).inactive (Part.rampsAdvance_over (k := k) h)
    . cases hstep j with
      | kept hr _ =>
        apply ih hi
        rw [hr]
        exact h
      | landed _ hr _ =>
        apply (hrest _ j).inactive
        rw [hr]

theorem Part.voiceAfter_over {p : Part D} {vi : Fin nVoices} (hvi : (p.voices vi).active) {i : Nat}
    (hi : i ∈ subStarts n) (h : (p.ramps j).overAt (u64 (pos + i)))
    : ((p.voiceAfter k n pos vi).ramps j).active = false := by
  unfold Part.voiceAfter
  rw [if_pos hvi]
  apply (Part.Carries.reclaim _ vi j).inactive
  exact Part.subBlocks_over hi h

-- One allocated voice is enough.
theorem Part.poolAfter_over {p : Part D} {vi : Fin nVoices} (hvi : (p.voices vi).active) {i : Nat}
    (hi : i ∈ subStarts n) (h : (p.ramps j).overAt (u64 (pos + i)))
    : ((p.poolAfter k n pos).ramps j).active = false := by
  have hfold : ∀ (vis : List (Fin nVoices)) (p : Part D), vi ∈ vis → (p.voices vi).active →
      (p.ramps j).overAt (u64 (pos + i)) →
        ((vis.foldl (Part.voiceAfter k n pos) p).ramps j).active = false := by
    intro vis
    induction vis with
    | nil => exact fun _ hmem => absurd hmem List.not_mem_nil
    | cons vi' vis ih =>
      intro p hmem hvi h
      have hrest : ∀ p : Part D, Part.Carries p (vis.foldl (Part.voiceAfter k n pos) p) :=
        Part.Carries.foldl id Part.Carries.voiceAfter vis
      rw [List.foldl_cons]
      by_cases heq : vi = vi'
      . subst heq
        exact (hrest _ j).inactive (Part.voiceAfter_over hvi hi h)
      . have hstep : Part.Carries p (p.voiceAfter k n pos vi') := Part.Carries.voiceAfter p vi'
        cases hstep j with
        | kept hr _ =>
          apply ih _ ((List.mem_cons.mp hmem).resolve_left heq)
          . rw [(Part.voiceAfter_other heq p).1]
            exact hvi
          . rw [hr]
            exact h
        | landed _ hr _ =>
          apply (hrest _ j).inactive
          rw [hr]
  exact hfold _ p (List.mem_finRange vi) hvi h

end Landing

section Events

variable {pos : Nat} {q : Fin nParts} {j : Fin nParams}

def Part.SameParams (p p' : Part D) : Prop :=
  p'.pval = p.pval ∧ p'.ramps = p.ramps

theorem Part.arpVoiceOff_sameParams (p : Part D) : p.SameParams p.arpVoiceOff :=
  ⟨p.arpVoiceOff_pval, p.arpVoiceOff_ramps⟩

theorem Part.allOff_sameParams (p : Part D) : p.SameParams p.allOff := by
  unfold Part.allOff Part.arpReset Part.freeVoices
  apply Part.arpVoiceOff_sameParams

theorem Part.arpFireDue_sameParams (p : Part D) (pos : Nat)
    : p.SameParams (p.arpFireDue k pos) := by
  have hgate : p.SameParams (p.arpGate pos) := by
    unfold Part.arpGate
    split
    next => exact p.arpVoiceOff_sameParams
    next => exact ⟨rfl, rfl⟩
  have hstep : ∀ p : Part D, p.SameParams (p.arpStep k pos) := by
    intro p
    unfold Part.arpStep
    split_ifs
    . exact ⟨rfl, rfl⟩
    . exact ⟨rfl, rfl⟩
    . exact ⟨rfl, rfl⟩
  unfold Part.arpFireDue
  split
  next => exact ⟨rfl, rfl⟩
  next => exact ⟨(hstep _).1.trans hgate.1, (hstep _).2.trans hgate.2⟩

theorem Part.panicService_sameParams (p : Part D) : p.SameParams p.panicService := by
  unfold Part.panicService
  split <;> exact ⟨rfl, rfl⟩

theorem Part.noteOff_sameParams (p : Part D) (ev : DevEvent) : p.SameParams (p.noteOff ev) := by
  unfold Part.noteOff
  dsimp only
  split
  next => exact ⟨rfl, rfl⟩
  next =>
    split
    next => exact (p.arpLatchRemove (ev.a % 256)).arpVoiceOff_sameParams
    next => exact ⟨rfl, rfl⟩

theorem Part.noteOn_sameParams (p : Part D) (ev : DevEvent) : p.SameParams (p.noteOn ev) := by
  unfold Part.noteOn
  dsimp only
  split_ifs <;> exact ⟨rfl, rfl⟩

theorem Part.transport_sameParams (p : Part D) (ev : DevEvent)
    : p.SameParams (p.transport pos ev) := by
  obtain ⟨_, _, heq⟩ | ⟨_, _, heq⟩ | ⟨_, heq⟩ := Part.transport_cases pos p ev
  . rw [heq]
    exact (p.anchored pos ev).arpVoiceOff_sameParams
  . rw [heq]
    exact ⟨rfl, rfl⟩
  . rw [heq]
    exact ⟨rfl, rfl⟩

theorem Part.modulate_sameParams (p : Part D) (ev : DevEvent) : p.SameParams (p.modulate ev) :=
  ⟨rfl, rfl⟩

theorem Part.paramSet_other (p : Part D) {ev : DevEvent}
    (h : ¬ (ev.voice = 0 ∧ paramIndex ev.a = some j))
    : (p.paramSet k ev).pval j = p.pval j ∧ (p.paramSet k ev).ramps j = p.ramps j := by
  unfold Part.paramSet
  split
  next => exact ⟨rfl, rfl⟩
  next j' hj' =>
    split
    next => exact ⟨rfl, rfl⟩
    next hvoice =>
      have hne : j ≠ j' := by
        rintro rfl
        exact h ⟨by simpa using hvoice, hj'⟩
      simp [Part.setRamp, hne]

theorem Part.rampTo_other (p : Part D) {ev : DevEvent}
    (h : ¬ (ev.voice = 0 ∧ paramIndex ev.a = some j))
    : (p.rampTo k pos ev).pval j = p.pval j ∧ (p.rampTo k pos ev).ramps j = p.ramps j := by
  unfold Part.rampTo
  split
  next => exact ⟨rfl, rfl⟩
  next j' hj' =>
    split
    next => exact ⟨rfl, rfl⟩
    next hvoice =>
      have hne : j ≠ j' := by
        rintro rfl
        exact h ⟨by simpa using hvoice, hj'⟩
      simp [Part.setRamp, hne]

-- An event that does not edit a parameter of a part leaves its value and its ramp.
theorem Part.applyEvent_other (p : Part D) (pos : Nat) {ev : DevEvent} (h : ev.edits q j = false)
    : (p.applyEvent k pos ev (q = harpEvtPart ev.channel)).pval j = p.pval j ∧
      (p.applyEvent k pos ev (q = harpEvtPart ev.channel)).ramps j = p.ramps j := by
  have hsame : ∀ {p' : Part D}, p.SameParams p' → p'.pval j = p.pval j ∧ p'.ramps j = p.ramps j :=
    fun h => ⟨congrFun h.1 j, congrFun h.2 j⟩
  have hrouted : ∀ {p' : Part D}, p.SameParams p' →
      p.SameParams (if decide (q = harpEvtPart ev.channel) then p' else p) := by
    intro p' h
    split
    next => exact h
    next => exact ⟨rfl, rfl⟩
  unfold DevEvent.edits DevEvent.dirties at h
  rw [decide_eq_false_iff_not, decide_eq_true_eq] at h
  unfold Part.applyEvent
  split
  case h_1 => exact hsame (hrouted (p.noteOn_sameParams ev))
  case h_2 => exact hsame (hrouted (p.noteOff_sameParams ev))
  case h_3 => exact hsame p.allOff_sameParams
  case h_4 => exact hsame (p.transport_sameParams ev)
  case h_5 hkind =>
    split
    next hq =>
      apply p.paramSet_other
      rintro ⟨hvoice, hparam⟩
      exact h ⟨⟨.inl hkind, hvoice⟩, (of_decide_eq_true hq).symm, hparam⟩
    next => exact ⟨rfl, rfl⟩
  case h_6 hkind =>
    split
    next hq =>
      apply p.rampTo_other
      rintro ⟨hvoice, hparam⟩
      exact h ⟨⟨.inr hkind, hvoice⟩, (of_decide_eq_true hq).symm, hparam⟩
    next => exact ⟨rfl, rfl⟩
  case h_7 => exact hsame (hrouted (p.modulate_sameParams ev))

-- An event that does starts the ramp, or sets the value and ends it.
theorem Part.applyEvent_edit (p : Part D) (pos : Nat) {ev : DevEvent} (h : ev.edits q j = true)
    (hkind : ev.kind = .ramp)
    : ((p.applyEvent k pos ev (q = harpEvtPart ev.channel)).pval j = p.pval j) ∧
      ((p.applyEvent k pos ev (q = harpEvtPart ev.channel)).ramps j =
        ⟨true, pos, ev.end_, p.pval j, ev.v⟩) := by
  unfold DevEvent.edits DevEvent.dirties at h
  rw [decide_eq_true_eq, decide_eq_true_eq] at h
  rcases h with ⟨⟨_, hvoice⟩, hpart, hparam⟩
  unfold Part.applyEvent
  simp [hkind, hpart, Part.rampTo, hparam, hvoice, Part.setRamp]

end Events

section Log

-- The ramp of every parameter whose last edit was one comes from that edit.
def Logged (e : Engine D) : Prop :=
  ∀ q j start ev, lastEdit q j e.applied = some (start, ev) → ev.kind = .ramp →
    ∃ v₀ v, Carried ⟨true, start, ev.end_, v₀, ev.v⟩ v ((e.parts q).ramps j) ((e.parts q).pval j)

theorem Logged.applyEvent {e : Engine D} (h : Logged e) (pos : Nat) (ev : DevEvent)
    : Logged (e.applyEvent k pos ev) := by
  intro q j start ev' hlast hkind
  have happlied : (e.applyEvent k pos ev).applied = e.applied ++ [(pos, ev)] := rfl
  rw [happlied, lastEdit_snoc] at hlast
  cases hedits : ev.edits q j with
  | true =>
    rw [hedits, if_pos rfl] at hlast
    cases hlast
    rcases (e.parts q).applyEvent_edit (k := k) pos hedits hkind with ⟨hpval, hramps⟩
    refine ⟨(e.parts q).pval j, (e.parts q).pval j, .kept hramps ?_⟩
    intro hoff
    cases hoff
  | false =>
    rw [hedits, if_neg (by decide)] at hlast
    rcases (e.parts q).applyEvent_other (k := k) pos hedits with ⟨hpval, hramps⟩
    have hcarried := h q j start ev' hlast hkind
    rw [← hpval, ← hramps] at hcarried
    exact hcarried

theorem Logged.applyEvents {e : Engine D} (h : Logged e) (pos : Nat) (evs : List DevEvent)
    : Logged (evs.foldl (Engine.applyEvent k pos) e) := by
  induction evs generalizing e with
  | nil => exact h
  | cons ev evs ih => exact ih (h.applyEvent pos ev)

-- Whatever only carries the ramps on.
theorem Logged.carried {e e' : Engine D} (h : Logged e) (happlied : e'.applied = e.applied)
    (hparts : ∀ q, Part.Carries (e.parts q) (e'.parts q)) : Logged e' := by
  intro q j start ev hlast hkind
  rw [happlied] at hlast
  rcases h q j start ev hlast hkind with ⟨v₀, v, hcarried⟩
  exact ⟨v₀, v, hcarried.trans (hparts q j)⟩

theorem Part.SameParams.carries {p p' : Part D} (h : p.SameParams p') : Part.Carries p p' := by
  intro j
  rw [h.1, h.2]
  exact Carried.refl _ _

theorem Logged.segStart {e : Engine D} (h : Logged e) (cur limit : Nat)
    : Logged (e.segStart k cur limit).1 := by
  have hevents := h.applyEvents (k := k) cur (dueAt e.evt.evq cur)
  apply hevents.carried
  . rw [Engine.segStart_applied, Engine.applyEvents_applied]
  . intro q
    rw [Engine.segStart_parts]
    exact (Part.panicService_sameParams _).carries.trans
      (Part.arpFireDue_sameParams _ cur).carries

end Log

section Segment

variable {slots : List OutSlot} {n pos done : Nat}

-- A segment leaves a part alone or renders its voices.
theorem Engine.segment_carries (e : Engine D) (q : Fin nParts)
    : Part.Carries ((e.segStart k (u64 (pos + done)) (u64 (pos + n))).1.parts q)
        ((e.segment k slots n pos done).parts q) := by
  unfold Engine.segment Block.turn
  dsimp only
  split
  next =>
    rw [Engine.mixSegment_fst]
    dsimp only [Engine.mapParts]
    split
    next => exact Part.Carries.poolAfter _
    next => exact Part.Carries.refl _
  next =>
    rw [Engine.slotSegment_fst]
    dsimp only [Engine.mapParts]
    split
    next => exact Part.Carries.poolAfter _
    next => exact Part.Carries.refl _

theorem Part.partActive_of_active {p : Part D} {vi : Fin nVoices} (h : (p.voices vi).active)
    : p.partActive k := by
  by_contra hno
  rw [Part.idle_of_not_partActive (by simpa using hno) vi] at h
  cases h

-- It renders a part that is requested and has an allocated voice.
theorem Engine.segment_poolAfter (e : Engine D) {q : Fin nParts}
    (hneed : needMain slots ∨ needPart slots q) {vi : Fin nVoices}
    (hvi : (((e.segStart k (u64 (pos + done)) (u64 (pos + n))).1.parts q).voices vi).active)
    : (e.segment k slots n pos done).parts q =
        ((e.segStart k (u64 (pos + done)) (u64 (pos + n))).1.parts q).poolAfter k
          (segLen (e.segStart k (u64 (pos + done)) (u64 (pos + n))).2 (u64 (pos + done)) done n)
          (u64 (pos + done)) := by
  have hact := Part.partActive_of_active (k := k) hvi
  unfold Engine.segment Block.turn
  dsimp only
  split
  next =>
    rw [Engine.mixSegment_fst]
    dsimp only [Engine.mapParts]
    rw [if_pos (.inr hact)]
  next =>
    rw [Engine.slotSegment_fst]
    dsimp only [Engine.mapParts]
    rw [if_pos]
    rcases hneed with hmain | hpart
    . exact .inr ⟨hmain, .inr hact⟩
    . exact .inl hpart

theorem Playback.segment_poolAfter (s : Playback D) {q : Fin nParts}
    (hneed : needMain s.slots ∨ needPart s.slots q) {vi : Fin nVoices}
    (hvi : (((s.segStart k).1.parts q).voices vi).active)
    : (s.synth.e.segment k s.slots s.n s.pos s.done).parts q =
        ((s.segStart k).1.parts q).poolAfter k (s.segStart k).2 s.rendered := by
  unfold Playback.segStart Playback.rendered at *
  dsimp only at hvi ⊢
  exact s.synth.e.segment_poolAfter hneed hvi

theorem Playback.segment_carries (s : Playback D) (q : Fin nParts)
    : Part.Carries ((s.segStart k).1.parts q)
        ((s.synth.e.segment k s.slots s.n s.pos s.done).parts q) := by
  unfold Playback.segStart Playback.rendered
  dsimp only
  exact s.synth.e.segment_carries q

end Segment

section Run

structure RampTrack (s : Playback D) : Prop where
  within : s.done ≤ s.n
  logged : Logged s.synth.e
  ahead : ∀ q j, ((s.synth.e.parts q).ramps j).active →
    s.rendered ≤ ((s.synth.e.parts q).ramps j).stop

theorem RampTrack.rampsLand {s : Playback D} (h : RampTrack s) : RampsLand s := by
  have hvalue : ∀ q j start ev, lastEdit q j s.synth.e.applied = some (start, ev) →
      ev.kind = .ramp → ev.end_ < s.rendered → s.synth.e.grid q j = ev.v := by
    intro q j start ev hlast hkind hpast
    rcases h.logged q j start ev hlast hkind with ⟨v₀, v, hcarried⟩
    cases hcarried with
    | kept hr _ =>
      have hahead := h.ahead q j
      rw [hr] at hahead
      have := hahead rfl
      dsimp only at this
      omega
    | landed _ _ hv => exact hv
  refine ⟨hvalue, ?_⟩
  intro q j start ev hlast hkind hpast
  rw [refdevParseParamsBlob_encode, Option.bind_some]
  dsimp only
  rw [hvalue q j start ev hlast hkind hpast]

theorem RampTrack.start (s : Synth D) (pos : Nat) : RampTrack (Playback.start s pos) := by
  constructor
  . apply Nat.le_refl
  . intro q j start ev hlast
    cases hlast
  . intro q j hactive
    simp [Playback.start, Engine.evqResetForNewStream, Part.arpStreamReset, Part.arpReset,
      Part.arpVoiceOff_ramps, Ramp.none] at hactive

theorem RampTrack.next {s : Playback D} (h : RampTrack s) (op : PlaybackOp) (hg : s.Passes k op)
    : RampTrack (s.next k op) := by
  cases op with
  | evt buf readable io =>
    have hparts : ∀ q, ((s.next k (.evt buf readable io)).synth.e.parts q).ramps
          = (s.synth.e.parts q).ramps ∧
        ((s.next k (.evt buf readable io)).synth.e.parts q).pval = (s.synth.e.parts q).pval := by
      intro q
      rcases s.synth.consumeEvt_mailbox buf readable io q with ⟨pn, hpn⟩
      unfold Playback.next
      dsimp only
      rw [hpn]
      exact ⟨rfl, rfl⟩
    constructor
    . exact h.within
    . apply h.logged.carried (s.synth.consumeEvt_frame buf readable io).2.1
      intro q
      exact Part.SameParams.carries ⟨(hparts q).2, (hparts q).1⟩
    . intro q j
      rw [(hparts q).1]
      exact h.ahead q j
  | block slots n =>
    simp only [Playback.next]
    split
    next => exact h
    next hdone =>
      refine ⟨Nat.zero_le n, h.logged, ?_⟩
      intro q j hactive
      have hahead := h.ahead q j hactive
      have hwithin := h.within
      have hend : s.done = s.n := by omega
      unfold Playback.rendered at hahead ⊢
      rw [hend] at hahead
      simpa [u64] using hahead
  | segment =>
    simp only [Playback.next]
    split
    next hlt =>
      constructor
      . exact (segLen_progress _ _ hlt).2
      . apply (h.logged.segStart (k := k) s.rendered (u64 (s.pos + s.n))).carried
        . exact (Engine.segment_aged s.synth.e).2.1
        . intro q
          exact s.synth.e.segment_carries q
      . intro q j hactive
        cases s.segment_carries (k := k) q j with
        | landed _ hr _ =>
          rw [hr] at hactive
          cases hactive
        | kept hr _ =>
          -- the ramp is active behind the segment, so the segment has not passed its end
          by_contra hpast
          dsimp only at hactive hpast
          rw [hr] at hactive hpast
          rcases hg hlt q j hactive (Nat.lt_of_not_le hpast) with ⟨hneed, ⟨vi, hvi⟩, i, hi, hover⟩
          have hoff := Part.poolAfter_over (k := k) hvi hi hover
          rw [← hr, s.segment_poolAfter hneed hvi, hoff] at hactive
          cases hactive
    next => exact h

theorem rampsLand_of_passes (k : Kernel D X) (s : Synth D) (pos : Nat) {t : Playback D}
    (h : Run (Playback.next k) (Playback.Passes k) (Playback.start s pos) t) : RampsLand t := by
  apply RampTrack.rampsLand
  apply h.inv (RampTrack.start s pos)
  intro t op ht hg
  exact ht.next op hg

instance decidablePasses (s : Playback D) (op : PlaybackOp) : Decidable (s.Passes k op) := by
  cases op <;> unfold Playback.Passes <;> infer_instance

-- A ramp of a parameter of part 0, in an EVT frame of any epoch.
def rampFrame (id : Nat) (target : F32) (stop : Nat) : Bytes :=
  evtFrame 0 5 (cborMap 3 ++ cborUint 0 ++ cborUint id ++ cborUint 1 ++ cborFloat (widen target)
    ++ cborUint 2 ++ cborArray 2 ++ cborUint 0 ++ cborUint stop)

def freshSynth : Synth Nat :=
  ⟨blankDevice, 0, Engine.boot countKernel⟩

-- A ramp to zero by sample 10, and a block of 64 samples.
def ramped : List PlaybackOp :=
  [.evt (rampFrame 3 (Fp.ofBits 0) 10) false .ok, .block [0, 1] 64, .segment]

-- With a note on part 0 before it.
def noteRamped : List PlaybackOp :=
  .evt (umpFrame 0 9 0 60 64) false .ok :: ramped

theorem rampsLand_noteRamped
    : let t := noteRamped.foldl (Playback.next countKernel) (Playback.start freshSynth 0)
      t.rendered = 64 ∧ RampsLand t := by
  refine ⟨by decide +kernel, ?_⟩
  apply rampsLand_of_passes countKernel freshSynth 0
  exact Run.of_guarded _ .start (by decide +kernel)

theorem not_rampsLand_ramped
    : ¬ ∀ (s : Synth Nat) (pos : Nat) (t : Playback Nat),
        Run (Playback.next countKernel) free (Playback.start s pos) t → RampsLand t := by
  intro h
  have hland := h freshSynth 0 _ (Run.foldl ramped .start)
  have hvalue := hland.value 0 2 0 ⟨0, .ramp, 3, Fp.ofBits 0, 10, Fp.of false 0 0, 0, 0⟩
    (by decide +kernel) rfl (by decide +kernel)
  revert hvalue
  decide +kernel

end Run

end Harp
