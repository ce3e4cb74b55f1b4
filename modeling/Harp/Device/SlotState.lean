import Harp.Device.EngineLemmas

/-!
This module contains what the requested output slots do to the state of the engine. The part outputs
render the requested parts only, and only what is rendered ages.
-/

namespace Harp

variable {D X : Type} {k : Kernel D X}

section Segments

/--
The states whose voices a block renders, one for each segment of the main mix.
-/
def Block.segments (k : Kernel D X) (pos n fuel : Nat) (b : Block D (List (X × X)))
    : List (Engine D) :=
  (Block.starts k pos n fuel b).map (fun s => (s.1.segStart k s.2 (u64 (pos + n))).1)

def Engine.segments (k : Kernel D X) (e : Engine D) (n pos : Nat) : List (Engine D) :=
  Block.segments k pos n n ⟨e, 0, []⟩

theorem Block.segments_succ (pos n fuel : Nat) (b : Block D (List (X × X)))
    : Block.segments k pos n (fuel + 1) b =
        if b.done < n then
          (b.e.segStart k (u64 (pos + b.done)) (u64 (pos + n))).1 ::
            Block.segments k pos n fuel (b.turn k (Engine.mixSegment k) (· ++ ·) pos n)
        else
          [] := by
  unfold Block.segments
  rw [Block.starts]
  split <;> rfl

-- Every part with an allocated voice is requested, by itself or in the main mix.
def Heard (slots : List OutSlot) (e : Engine D) : Prop :=
  needMain slots ∨ ∀ q vi, ((e.parts q).voices vi).active → needPart slots q

end Segments

section Agree

theorem Engine.slotSegment_eq {slots : List OutSlot} {e : Engine D} (h : Heard slots e) (seg cur : Nat)
    : (e.slotSegment k slots seg cur).1 = (e.mixSegment k seg cur).1 := by
  rw [Engine.slotSegment_fst, Engine.mixSegment_fst]
  unfold Engine.mapParts
  congr 1
  funext q
  dsimp only
  by_cases hidle : ∀ vi, ((e.parts q).voices vi).active = false
  . rw [Part.poolAfter_idle _ hidle]
    simp
  . -- a part that sounds is active, and it is requested
    have hact : (e.parts q).partActive k := by
      by_contra hno
      exact hidle (Part.idle_of_not_partActive (by simpa using hno))
    have hneed : needPart slots q ∨ needMain slots := by
      cases h with
      | inl hmain => exact .inr hmain
      | inr hpart =>
        left
        by_contra hno
        apply hidle
        intro vi
        by_contra hvi
        exact hno (hpart q vi (by simpa using hvi))
    simp [hact, hneed]

theorem Block.loop_agree {slots : List OutSlot} {pos n : Nat} (fuel : Nat)
    {b : Block D (List (X × X))} {b' : Block D (List (List X))} (he : b'.e = b.e)
    (hdone : b'.done = b.done) (h : ∀ e ∈ Block.segments k pos n fuel b, Heard slots e)
    : (Block.loop k (Engine.slotSegment k slots) (· ++ ·) pos n fuel b').e =
        (Block.loop k (Engine.mixSegment k) (· ++ ·) pos n fuel b).e := by
  induction fuel generalizing b b' with
  | zero => exact he
  | succ fuel ih =>
    unfold Block.loop
    rw [Block.segments_succ] at h
    rw [hdone]
    by_cases hlt : b.done < n
    . rw [if_pos hlt, List.forall_mem_cons] at h
      rw [if_pos hlt, if_pos hlt]
      apply ih _ _ h.2
      . unfold Block.turn
        dsimp only
        rw [he, hdone]
        exact Engine.slotSegment_eq h.1 _ _
      . unfold Block.turn
        dsimp only
        rw [he, hdone]
    . rw [if_neg hlt, if_neg hlt, he]

/--
Rendering a block through the part outputs leaves the state that the main mix leaves.
-/
def SlotsAgree (k : Kernel D X) (e : Engine D) (slots : List OutSlot) (n pos : Nat) : Prop :=
  (e.renderPartSlots k slots n pos).1 = (e.renderWithEvents k n pos).1

theorem SlotsAgree.of_heard {e : Engine D} {slots : List OutSlot} {n pos : Nat}
    (h : ∀ e' ∈ e.segments k n pos, Heard slots e') : SlotsAgree k e slots n pos :=
  Block.loop_agree n rfl rfl h

end Agree

section Ages

-- Each sub-block leaves a trace in the voice, of which `age` is a measure.
structure Ages (k : Kernel D X) (age : D → Nat) : Prop where
  land : ∀ v pval, age v.dsp ≤ age (k.land v pval)
  subBlock : ∀ v pval len, age v.dsp < age (k.subBlock v pval len).1

-- The same voices, as far as the kernel keeps them.
def SameDsp (p p' : Part D) : Prop :=
  ∀ i, (p'.voices i).dsp = (p.voices i).dsp

theorem SameDsp.refl (p : Part D) : SameDsp p p :=
  fun _ => rfl

theorem SameDsp.trans {p q r : Part D} (h : SameDsp p q) (h' : SameDsp q r) : SameDsp p r :=
  fun i => (h' i).trans (h i)

theorem SameDsp.setVoice {p : Part D} {vi : Fin nVoices} {v : Voice D}
    (h : v.dsp = (p.voices vi).dsp) : SameDsp p (p.setVoice vi v) := by
  intro i
  unfold Part.setVoice
  dsimp only
  split
  next hi => rw [hi, h]
  next => rfl

theorem SameDsp.mapVoices {p : Part D} {f : Voice D → Voice D} (h : ∀ v, (f v).dsp = v.dsp)
    : SameDsp p (p.mapVoices f) :=
  fun i => h (p.voices i)

theorem SameDsp.arpVoiceOff (p : Part D) : SameDsp p p.arpVoiceOff := by
  unfold Part.arpVoiceOff
  dsimp only
  split
  next => exact SameDsp.setVoice (p := p) rfl
  next => exact SameDsp.refl p

theorem SameDsp.voiceNoteOff (p : Part D) (note : Int) : SameDsp p (p.voiceNoteOff note) :=
  SameDsp.mapVoices (fun v => by split <;> rfl)

theorem SameDsp.panicService (p : Part D) : SameDsp p p.panicService := by
  unfold Part.panicService
  split
  next => exact SameDsp.refl p
  next => exact fun _ => rfl
  next n _ => exact SameDsp.voiceNoteOff p n

theorem SameDsp.arpFireDue (p : Part D) (pos : Nat) : SameDsp p (p.arpFireDue k pos) := by
  have hgate : SameDsp p (p.arpGate pos) := by
    unfold Part.arpGate
    split
    next => exact SameDsp.arpVoiceOff p
    next => exact SameDsp.refl p
  have hstep : ∀ p : Part D, SameDsp p (p.arpStep k pos) := by
    intro p
    unfold Part.arpStep
    split_ifs
    . exact SameDsp.refl p
    . exact SameDsp.refl p
    . exact SameDsp.setVoice (p := p) rfl
  unfold Part.arpFireDue
  split
  next => exact SameDsp.refl p
  next => exact hgate.trans (hstep _)

theorem SameDsp.noteOn (p : Part D) (ev : DevEvent) : SameDsp p (p.noteOn ev) := by
  unfold Part.noteOn
  dsimp only
  split
  next => exact SameDsp.setVoice (p := p.arpLatchAdd (ev.a % 256) ev.v) rfl
  next => exact SameDsp.refl p

theorem SameDsp.noteOff (p : Part D) (ev : DevEvent) : SameDsp p (p.noteOff ev) := by
  unfold Part.noteOff
  dsimp only
  split
  next => exact SameDsp.voiceNoteOff (p.arpLatchRemove _) _
  next =>
    split
    next => exact SameDsp.arpVoiceOff (p.arpLatchRemove _)
    next => exact SameDsp.refl p

theorem SameDsp.transport (p : Part D) (pos : Nat) (ev : DevEvent)
    : SameDsp p (p.transport pos ev) := by
  obtain ⟨_, _, heq⟩ | ⟨_, _, heq⟩ | ⟨_, heq⟩ := Part.transport_cases pos p ev
  . rw [heq]
    exact SameDsp.arpVoiceOff (p.anchored pos ev)
  . rw [heq]
    exact SameDsp.refl p
  . rw [heq]
    exact SameDsp.refl p

theorem SameDsp.applyEvent (p : Part D) (pos : Nat) (ev : DevEvent) (routed : Bool)
    : SameDsp p (p.applyEvent k pos ev routed) := by
  have hrouted : ∀ p' : Part D, SameDsp p p' → SameDsp p (if routed then p' else p) := by
    intro p' h
    split
    next => exact h
    next => exact SameDsp.refl p
  unfold Part.applyEvent
  split
  case h_1 => exact hrouted _ (SameDsp.noteOn p ev)
  case h_2 => exact hrouted _ (SameDsp.noteOff p ev)
  case h_3 => exact (SameDsp.arpVoiceOff _ : SameDsp p p.arpReset).trans (SameDsp.mapVoices (fun _ => rfl))
  case h_4 => exact SameDsp.transport p pos ev
  case h_5 => exact hrouted _ (NotesKept.paramSet p ev).dsp
  case h_6 => exact hrouted _ (NotesKept.rampTo p ev pos).dsp
  case h_7 => exact hrouted _ (NotesKept.modulate p ev).dsp

theorem SameDsp.segStart (e : Engine D) (cur limit : Nat) (q : Fin nParts)
    : SameDsp (e.parts q) ((e.segStart k cur limit).1.parts q) := by
  have hevents : ∀ (evs : List DevEvent) (e : Engine D),
      SameDsp (e.parts q) ((evs.foldl (Engine.applyEvent k cur) e).parts q) := by
    intro evs
    induction evs with
    | nil => exact fun e => SameDsp.refl _
    | cons ev evs ih => exact fun e => (SameDsp.applyEvent _ _ _ _).trans (ih _)
  rw [Engine.segStart_parts]
  exact ((hevents _ e).trans (SameDsp.panicService _)).trans (SameDsp.arpFireDue _ _)

section Pool

variable {age : D → Nat} {n pos : Nat}

-- The sub-blocks of one voice leave the other voices allocated as they are.
theorem Part.subBlocks_other {vi i : Fin nVoices} (hi : i ≠ vi) (starts : List Nat)
    (s : Part D × List (X × X))
    : ((starts.foldl (Part.subBlock k vi n pos) s).1.voices i).active = (s.1.voices i).active ∧
      ((starts.foldl (Part.subBlock k vi n pos) s).1.voices i).dsp = (s.1.voices i).dsp := by
  induction starts generalizing s with
  | nil => exact ⟨rfl, rfl⟩
  | cons b starts ih =>
    rw [List.foldl_cons, (ih _).1, (ih _).2]
    unfold Part.subBlock
    dsimp only
    rw [Part.setVoice_ne _ _ hi]
    exact ⟨rfl, rfl⟩

theorem Part.voiceAfter_other {vi i : Fin nVoices} (hi : i ≠ vi) (p : Part D)
    : ((p.voiceAfter k n pos vi).voices i).active = (p.voices i).active ∧
      ((p.voiceAfter k n pos vi).voices i).dsp = (p.voices i).dsp := by
  have hreclaim : ∀ p : Part D, (p.reclaim k vi).voices i = p.voices i := by
    intro p
    unfold Part.reclaim
    dsimp only
    split
    next => exact Part.setVoice_ne _ _ hi
    next => rfl
  unfold Part.voiceAfter
  split
  next =>
    rw [hreclaim]
    unfold Part.voiceSubBlocks Part.engineRender
    dsimp only
    rw [(Part.subBlocks_other hi _ _).1, (Part.subBlocks_other hi _ _).2, Part.setVoice_ne _ _ hi]
    exact ⟨rfl, rfl⟩
  next => exact ⟨rfl, rfl⟩

theorem Ages.subBlocks (h : Ages k age) {vi : Fin nVoices} (starts : List Nat)
    (s : Part D × List (X × X))
    : age (s.1.voices vi).dsp + starts.length ≤
        age ((starts.foldl (Part.subBlock k vi n pos) s).1.voices vi).dsp := by
  induction starts generalizing s with
  | nil => exact Nat.le_refl _
  | cons b starts ih =>
    have hrest := ih (Part.subBlock k vi n pos s b)
    have hfirst : age (s.1.voices vi).dsp < age ((Part.subBlock k vi n pos s b).1.voices vi).dsp := by
      unfold Part.subBlock
      dsimp only
      rw [Part.setVoice_self]
      exact h.subBlock ((s.1.rampsAdvance k (u64 (pos + b))).voices vi) _ _
    rw [List.foldl_cons, List.length_cons]
    omega

theorem Ages.voiceAfter (h : Ages k age) {vi : Fin nVoices} {p : Part D} (hn : n ≠ 0)
    (hact : (p.voices vi).active)
    : age (p.voices vi).dsp < age ((p.voiceAfter k n pos vi).voices vi).dsp := by
  have hreclaim : ∀ p : Part D, ((p.reclaim k vi).voices vi).dsp = (p.voices vi).dsp := by
    intro p
    unfold Part.reclaim
    dsimp only
    split
    next => rw [Part.setVoice_self]
    next => rfl
  unfold Part.voiceAfter
  rw [if_pos hact, hreclaim]
  unfold Part.voiceSubBlocks Part.engineRender
  dsimp only
  refine Nat.lt_of_lt_of_le ?_ (h.subBlocks _ _)
  have hland := h.land (p.voices vi) p.pval
  rw [Part.setVoice_self, List.length_map, List.length_range]
  dsimp only
  have hblocks : 0 < (n + smoothSubblock - 1) / smoothSubblock := by
    unfold smoothSubblock
    omega
  omega

theorem Ages.voiceAfter_le (h : Ages k age) (hn : n ≠ 0) (p : Part D) (vi i : Fin nVoices)
    : age (p.voices i).dsp ≤ age ((p.voiceAfter k n pos vi).voices i).dsp := by
  by_cases hi : i = vi
  . subst hi
    by_cases hact : (p.voices i).active
    . exact (h.voiceAfter hn hact).le
    . unfold Part.voiceAfter
      rw [if_neg hact]
  . rw [(Part.voiceAfter_other hi p).2]

theorem Ages.poolAfter_le (h : Ages k age) (hn : n ≠ 0) (vis : List (Fin nVoices)) (p : Part D)
    (i : Fin nVoices)
    : age (p.voices i).dsp ≤ age ((vis.foldl (Part.voiceAfter k n pos) p).voices i).dsp := by
  induction vis generalizing p with
  | nil => exact Nat.le_refl _
  | cons vi vis ih => exact (h.voiceAfter_le hn p vi i).trans (ih _)

theorem Ages.poolAfter_lt (h : Ages k age) (hn : n ≠ 0) {i : Fin nVoices} {p : Part D}
    (hact : (p.voices i).active) : age (p.voices i).dsp < age ((p.poolAfter k n pos).voices i).dsp := by
  have hloop : ∀ (vis : List (Fin nVoices)) (p : Part D), i ∈ vis → (p.voices i).active →
      age (p.voices i).dsp < age ((vis.foldl (Part.voiceAfter k n pos) p).voices i).dsp := by
    intro vis
    induction vis with
    | nil => exact fun _ hi _ => absurd hi List.not_mem_nil
    | cons vi vis ih =>
      intro p hi hact
      by_cases hvi : i = vi
      . subst hvi
        exact (h.voiceAfter hn hact).trans_le (h.poolAfter_le hn vis _ i)
      . have hrest := ih (p.voiceAfter k n pos vi) ((List.mem_cons.mp hi).resolve_left hvi)
          (by rw [(Part.voiceAfter_other hvi p).1]; exact hact)
        rw [(Part.voiceAfter_other hvi p).2] at hrest
        exact hrest
  exact hloop _ p (List.mem_finRange i) hact

end Pool

section Unheard

variable {age : D → Nat} {pos n : Nat}

-- What the main mix leaves is not younger, and older wherever a voice sounded.
theorem Ages.loop_mix (h : Ages k age) (q : Fin nParts) (vi : Fin nVoices) (fuel : Nat)
    (b : Block D (List (X × X)))
    : age ((b.e.parts q).voices vi).dsp ≤
        age (((Block.loop k (Engine.mixSegment k) (· ++ ·) pos n fuel b).e.parts q).voices vi).dsp ∧
      ((∃ e ∈ Block.segments k pos n fuel b, ((e.parts q).voices vi).active) →
        age ((b.e.parts q).voices vi).dsp <
          age (((Block.loop k (Engine.mixSegment k) (· ++ ·) pos n fuel b).e.parts q).voices vi).dsp) := by
  induction fuel generalizing b with
  | zero => simp [Block.loop, Block.segments, Block.starts]
  | succ fuel ih =>
    rw [Block.loop, Block.segments_succ]
    by_cases hlt : b.done < n
    . rw [if_pos hlt, if_pos hlt]
      obtain ⟨hle, hsound⟩ := ih (b.turn k (Engine.mixSegment k) (· ++ ·) pos n)
      have hprog := segLen_progress
        (b.e.segStart k (u64 (pos + b.done)) (u64 (pos + n))).2 (u64 (pos + b.done)) hlt
      have hsame := SameDsp.segStart (k := k) b.e (u64 (pos + b.done)) (u64 (pos + n)) q vi
      have hturn : age ((b.e.parts q).voices vi).dsp ≤
          age (((b.turn k (Engine.mixSegment k) (· ++ ·) pos n).e.parts q).voices vi).dsp ∧
          ((((b.e.segStart k (u64 (pos + b.done)) (u64 (pos + n))).1.parts q).voices vi).active →
            age ((b.e.parts q).voices vi).dsp <
              age (((b.turn k (Engine.mixSegment k) (· ++ ·) pos n).e.parts q).voices vi).dsp) := by
        unfold Block.turn
        dsimp only
        rw [Engine.mixSegment_fst, ← hsame]
        unfold Engine.mapParts
        dsimp only
        generalize (b.e.segStart k (u64 (pos + b.done)) (u64 (pos + n))).1.parts q = p
        by_cases hact : q = 0 ∨ p.partActive k
        . rw [if_pos hact]
          exact ⟨h.poolAfter_le (by omega) _ p vi, fun hvi => h.poolAfter_lt (by omega) hvi⟩
        . rw [if_neg hact]
          refine ⟨Nat.le_refl _, fun hvi => ?_⟩
          rw [not_or] at hact
          rw [Part.idle_of_not_partActive (by simpa using hact.2) vi] at hvi
          cases hvi
      refine ⟨hturn.1.trans hle, ?_⟩
      rintro ⟨e, he, hvi⟩
      cases List.mem_cons.mp he with
      | inl hfirst =>
        subst hfirst
        exact (hturn.2 hvi).trans_le hle
      | inr hlater => exact hturn.1.trans_lt (hsound ⟨e, hlater, hvi⟩)
    . rw [if_neg hlt, if_neg hlt]
      simp

-- A part that is not requested is not rendered.
theorem Block.loop_slots_unheard {slots : List OutSlot} {q : Fin nParts} (hmain : ¬ needMain slots)
    (hpart : ¬ needPart slots q) (fuel : Nat) (b : Block D (List (List X)))
    : SameDsp (b.e.parts q)
        ((Block.loop k (Engine.slotSegment k slots) (· ++ ·) pos n fuel b).e.parts q) := by
  apply Block.loop_inv (I := fun b' => SameDsp (b.e.parts q) (b'.e.parts q)) (SameDsp.refl _)
  intro b' _ hb'
  apply hb'.trans
  unfold Block.turn
  dsimp only
  rw [Engine.slotSegment_fst]
  unfold Engine.mapParts
  dsimp only
  rw [if_neg (by simp [hmain, hpart])]
  exact SameDsp.segStart b'.e _ _ q

theorem Ages.heard_of_agree (h : Ages k age) {e : Engine D} {slots : List OutSlot}
    (hagree : SlotsAgree k e slots n pos) : ∀ e' ∈ e.segments k n pos, Heard slots e' := by
  intro e' he'
  by_contra hno
  unfold Heard at hno
  rw [not_or] at hno
  simp only [not_forall] at hno
  obtain ⟨hmain, q, vi, hact, hpart⟩ := hno
  have hmix := (h.loop_mix q vi n ⟨e, 0, []⟩).2 ⟨e', he', hact⟩
  have hslots : (((e.renderPartSlots k slots n pos).1.parts q).voices vi).dsp =
      ((e.parts q).voices vi).dsp := Block.loop_slots_unheard hmain hpart n ⟨e, 0, []⟩ vi
  have hsame := congrArg (fun e => ((e.parts q).voices vi).dsp) hagree
  exact absurd (hsame.symm.trans hslots) (fun heq => absurd (congrArg age heq) (Nat.ne_of_gt hmix))

/--
The part outputs leave the state of the main mix if in every segment each part with an allocated
voice is requested, by itself or in the main mix. Where a kernel shows the age of its voices, they do
so only then.
-/
theorem slotsAgree_iff_heard (k : Kernel D X) (e : Engine D) (slots : List OutSlot) (n pos : Nat)
    : ((∀ e' ∈ e.segments k n pos, Heard slots e') → SlotsAgree k e slots n pos) ∧
      ∀ age : D → Nat, Ages k age →
        SlotsAgree k e slots n pos → ∀ e' ∈ e.segments k n pos, Heard slots e' :=
  ⟨SlotsAgree.of_heard, fun _ h hagree => h.heard_of_agree hagree⟩

-- A note-on for part 1, due at once.
def noteQueued : Engine Nat :=
  { Engine.boot countKernel with
    evt := { EvtState.fresh with evq := [⟨0, .noteOn, 60, half, 0, Ieee.Fp.ofBits 0, 1, 0⟩] } }

theorem slotsAgree_mainAndPart : SlotsAgree countKernel noteQueued [0, 1, 4, 5] 32 0 :=
  (slotsAgree_iff_heard countKernel noteQueued [0, 1, 4, 5] 32 0).1 (fun _ _ => .inl (by decide))

-- Only part 0 is requested: the voice of part 1 is allocated and not rendered.
theorem not_slotsAgree_otherPart : ¬ SlotsAgree countKernel noteQueued [2, 3] 32 0 := by
  intro h
  have hsame := congrArg (fun e => ((e.parts 1).voices 0).dsp) h
  revert hsame
  decide +kernel

end Unheard

end Ages

end Harp
