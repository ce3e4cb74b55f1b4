import Harp.Device.Engine
import Harp.Lib.Timeline

/-!
This module contains what the functions of the engine do to its state: the queue after the due
events are applied, and what rendering voices leaves as it was.
-/

namespace Harp

open Ieee

variable {D X : Type} {k : Kernel D X}

section Queue

variable {pos limit : Nat}

theorem Engine.applyEvents_evt (e : Engine D) (evs : List DevEvent)
    : (evs.foldl (Engine.applyEvent k pos) e).evt = e.evt := by
  induction evs generalizing e with
  | nil => rfl
  | cons ev evs ih =>
    rw [List.foldl_cons, ih]
    rfl

theorem Engine.applyEvents_applied (e : Engine D) (evs : List DevEvent)
    : (evs.foldl (Engine.applyEvent k pos) e).applied = e.applied ++ evs.map (Prod.mk pos) := by
  induction evs generalizing e with
  | nil => simp
  | cons ev evs ih =>
    rw [List.foldl_cons, ih]
    simp [Engine.applyEvent]

def dueAt (q : List DevEvent) (pos : Nat) : List DevEvent :=
  q.filter (fun ev => ev.ts ≤ pos)

-- The loop over the queue, from any point of it.
theorem Scan.events_eq (q : List DevEvent) (s : Scan D)
    : (q.foldl (Scan.event k pos limit) s).e = (dueAt q pos).foldl (Engine.applyEvent k pos) s.e ∧
      (q.foldl (Scan.event k pos limit) s).kept = s.kept ++ evqRemaining q pos := by
  induction q generalizing s with
  | nil => simp [dueAt, evqRemaining]
  | cons ev q ih =>
    rw [List.foldl_cons]
    obtain ⟨he, hkept⟩ := ih (s.event k pos limit ev)
    rw [he, hkept]
    unfold Scan.event dueAt evqRemaining
    by_cases hts : ev.ts ≤ pos
    . have hlt : ¬ pos < ev.ts := by omega
      simp [hts, hlt]
    . have hlt : pos < ev.ts := by omega
      simp [hts, hlt]

theorem Engine.evqApplyDue_fst (e : Engine D)
    : (e.evqApplyDue k pos limit).1 =
        { (dueAt e.evt.evq pos).foldl (Engine.applyEvent k pos) e with
          evt := { e.evt with evq := evqRemaining e.evt.evq pos } } := by
  unfold Engine.evqApplyDue
  dsimp only
  rw [(Scan.events_eq e.evt.evq _).1, (Scan.events_eq e.evt.evq _).2, List.nil_append,
    Engine.applyEvents_evt]

-- The deadline found so far: none, or one ahead that no kept event precedes.
def NextOk (pos limit : Nat) (kept : List DevEvent) (next : Nat) : Prop :=
  (next = 0 ∨ pos < next) ∧ ∀ ev ∈ kept, ev.ts < limit → next ≠ 0 ∧ next ≤ ev.ts

theorem Scan.event_nextOk (s : Scan D) (ev : DevEvent) (h : NextOk pos limit s.kept s.next)
    : NextOk pos limit (s.event k pos limit ev).kept (s.event k pos limit ev).next := by
  unfold Scan.event
  by_cases hts : ev.ts ≤ pos
  . simpa [hts] using h
  . simp only [hts, if_false]
    constructor
    . split
      next => right; omega
      next => exact h.1
    . intro x hx hlim
      rw [List.mem_append, List.mem_singleton] at hx
      cases hx with
      | inl hx =>
        have := h.2 x hx hlim
        split <;> omega
      | inr hx =>
        subst hx
        split <;> omega

theorem Engine.evqApplyDue_nextOk (e : Engine D)
    : NextOk pos limit (evqRemaining e.evt.evq pos) (e.evqApplyDue k pos limit).2 := by
  have hloop : ∀ (q : List DevEvent) (s : Scan D), NextOk pos limit s.kept s.next →
      NextOk pos limit (q.foldl (Scan.event k pos limit) s).kept
        (q.foldl (Scan.event k pos limit) s).next := by
    intro q
    induction q with
    | nil => exact fun s h => h
    | cons ev q ih => exact fun s h => ih _ (Scan.event_nextOk s ev h)
  have h := hloop e.evt.evq ⟨e, [], 0⟩ ⟨.inl rfl, by simp⟩
  rw [(Scan.events_eq _ _).2] at h
  exact h

end Queue

section Voices

variable {n pos : Nat}

@[simp]
theorem Part.setVoice_self (p : Part D) (vi : Fin nVoices) (v : Voice D)
    : (p.setVoice vi v).voices vi = v := by
  simp [Part.setVoice]

theorem Part.setVoice_ne (p : Part D) {vi i : Fin nVoices} (v : Voice D) (h : i ≠ vi)
    : (p.setVoice vi v).voices i = p.voices i := by
  simp [Part.setVoice, h]

/--
What rendering leaves of a part: the arp, the mailbox and the notes stay, a voice is freed only once
it is released, and a value moves only while its ramp is active.
-/
structure Aged (p p' : Part D) : Prop where
  arp : p'.arp = p.arp
  panicNote : p'.panicNote = p.panicNote
  allocClock : p'.allocClock = p.allocClock
  note : ∀ i, (p'.voices i).note = (p.voices i).note
  voiceId : ∀ i, (p'.voices i).voiceId = (p.voices i).voiceId
  allocSeq : ∀ i, (p'.voices i).allocSeq = (p.voices i).allocSeq
  freed : ∀ i, (p'.voices i).active → (p.voices i).active
  gated : ∀ i, (p.voices i).active → 0 ≤ (p.voices i).note → (p'.voices i).active
  still : ∀ i, (p.ramps i).active = false → p'.pval i = p.pval i ∧ p'.ramps i = p.ramps i

namespace Aged

theorem refl (p : Part D) : Aged p p :=
  ⟨rfl, rfl, rfl, fun _ => rfl, fun _ => rfl, fun _ => rfl, fun _ h => h, fun _ h _ => h,
    fun _ _ => ⟨rfl, rfl⟩⟩

theorem trans {p q r : Part D} (h : Aged p q) (h' : Aged q r) : Aged p r where
  arp := h'.arp.trans h.arp
  panicNote := h'.panicNote.trans h.panicNote
  allocClock := h'.allocClock.trans h.allocClock
  note i := (h'.note i).trans (h.note i)
  voiceId i := (h'.voiceId i).trans (h.voiceId i)
  allocSeq i := (h'.allocSeq i).trans (h.allocSeq i)
  freed i hr := h.freed i (h'.freed i hr)
  gated i hp hn := h'.gated i (h.gated i hp hn) (by rw [h.note]; exact hn)
  still i hi := by
    obtain ⟨hv, hr⟩ := h.still i hi
    obtain ⟨hv', hr'⟩ := h'.still i (by rw [hr]; exact hi)
    exact ⟨hv'.trans hv, hr'.trans hr⟩

theorem foldl {β : Type} {f : Part D → β → Part D} (hf : ∀ p x, Aged p (f p x)) (xs : List β)
    (p : Part D) : Aged p (xs.foldl f p) := by
  induction xs generalizing p with
  | nil => exact refl p
  | cons x xs ih => exact (hf p x).trans (ih (f p x))

theorem setVoice {p : Part D} {vi : Fin nVoices} {v : Voice D} (hnote : v.note = (p.voices vi).note)
    (hid : v.voiceId = (p.voices vi).voiceId) (hseq : v.allocSeq = (p.voices vi).allocSeq)
    (hfreed : v.active → (p.voices vi).active)
    (hgated : (p.voices vi).active → 0 ≤ (p.voices vi).note → v.active)
    : Aged p (p.setVoice vi v) := by
  have hcases : ∀ i, (p.setVoice vi v).voices i = if i = vi then v else p.voices i := fun _ => rfl
  constructor
  case note | voiceId | allocSeq | freed | gated =>
    intro i
    rw [hcases]
    split
    next h => subst h; assumption
    next => simp_all
  all_goals simp [Part.setVoice]

theorem rampsAdvance (p : Part D) : Aged p (p.rampsAdvance k pos) := by
  constructor <;> simp_all [Part.rampsAdvance, Voice.rampAdvance, Ramp.tick, Ramp.settle]

theorem subBlock (vi : Fin nVoices) (s : Part D × List (X × X)) (i : Nat)
    : Aged s.1 (Part.subBlock k vi n pos s i).1 :=
  (rampsAdvance s.1).trans (setVoice rfl rfl rfl id (fun h _ => h))

theorem reclaim (p : Part D) (vi : Fin nVoices) : Aged p (p.reclaim k vi) := by
  unfold Part.reclaim
  dsimp only
  split
  next h =>
    refine setVoice rfl rfl rfl ?_ ?_
    . intro hact
      cases hact
    . intro _ hnote
      omega
  next => exact refl p

end Aged

-- The sub-blocks of one voice, without the samples.
def Part.voiceSubBlocks (k : Kernel D X) (p : Part D) (vi : Fin nVoices) (n pos : Nat) : Part D :=
  (p.engineRender k vi [] n pos false).1

theorem Aged.voiceSubBlocks (p : Part D) (vi : Fin nVoices)
    : Aged p (p.voiceSubBlocks k vi n pos) := by
  unfold Part.voiceSubBlocks Part.engineRender
  dsimp only
  have hfold : ∀ (starts : List Nat) (s : Part D × List (X × X)),
      Aged s.1 (starts.foldl (Part.subBlock k vi n pos) s).1 := by
    intro starts
    induction starts with
    | nil => exact fun s => Aged.refl s.1
    | cons i starts ih => exact fun s => (Aged.subBlock vi s i).trans (ih _)
  refine Aged.trans ?_ (hfold _ _)
  exact Aged.setVoice rfl rfl rfl id (fun h _ => h)

def Part.voiceAfter (k : Kernel D X) (n pos : Nat) (p : Part D) (vi : Fin nVoices) : Part D :=
  if (p.voices vi).active then (p.voiceSubBlocks k vi n pos).reclaim k vi else p

/--
The part after its voices are rendered; where the samples go makes no difference to it.
-/
def Part.poolAfter (k : Kernel D X) (p : Part D) (n pos : Nat) : Part D :=
  (List.finRange nVoices).foldl (Part.voiceAfter k n pos) p

theorem Part.renderPartVoices_fst (p : Part D) (out : List (X × X)) (accumulate : Bool)
    : (p.renderPartVoices k out n pos accumulate).1 = p.poolAfter k n pos := by
  have hvoice : ∀ (s : PoolOut D X) (vi : Fin nVoices),
      s.p.voiceAfter k n pos vi = (s.voice k n pos accumulate vi).p := by
    intro s vi
    unfold Part.voiceAfter PoolOut.voice
    split <;> rfl
  exact (List.foldl_hom PoolOut.p hvoice).symm

theorem Aged.poolAfter (p : Part D) : Aged p (p.poolAfter k n pos) := by
  apply Aged.foldl
  intro p vi
  unfold Part.voiceAfter
  split
  next => exact (Aged.voiceSubBlocks p vi).trans (Aged.reclaim _ vi)
  next => exact Aged.refl p

-- A part without a sounding voice is left as it is.
theorem Part.poolAfter_idle (p : Part D) (h : ∀ i, (p.voices i).active = false)
    : p.poolAfter k n pos = p := by
  have hfold : ∀ (vis : List (Fin nVoices)), vis.foldl (Part.voiceAfter k n pos) p = p := by
    intro vis
    induction vis with
    | nil => rfl
    | cons vi vis ih =>
      rw [List.foldl_cons]
      have hvi : p.voiceAfter k n pos vi = p := by
        unfold Part.voiceAfter
        rw [h vi, if_neg (by decide)]
      rw [hvi, ih]
  exact hfold _

theorem Part.idle_of_not_partActive {p : Part D} (h : p.partActive k = false) (i : Fin nVoices)
    : (p.voices i).active = false := by
  unfold Part.partActive at h
  simp only [decide_eq_false_iff_not, not_or] at h
  have hany := h.2.2.2
  simp only [List.any_eq_true, not_exists, not_and] at hany
  have hi := hany i (List.mem_finRange i)
  simp_all

end Voices

section Segments

variable {cur limit : Nat}

theorem Part.arpNextDeadline_gt (p : Part D) (pos : Nat)
    : p.arpNextDeadline k pos = 0 ∨ pos < p.arpNextDeadline k pos := by
  have hstep : pos < p.arpNextStepSsi k pos := k.lt_nextStepSsi ..
  unfold Part.arpNextDeadline
  dsimp only
  split_ifs <;> omega

theorem Engine.segStart_evt (e : Engine D)
    : (e.segStart k cur limit).1.evt = { e.evt with evq := evqRemaining e.evt.evq cur } := by
  unfold Engine.segStart
  dsimp only
  rw [Engine.evqApplyDue_fst]

theorem Engine.segStart_applied (e : Engine D)
    : (e.segStart k cur limit).1.applied =
        e.applied ++ (dueAt e.evt.evq cur).map (Prod.mk cur) := by
  unfold Engine.segStart
  dsimp only
  rw [Engine.evqApplyDue_fst, Engine.applyEvents_applied]

theorem Engine.segStart_parts (e : Engine D) (q : Fin nParts)
    : (e.segStart k cur limit).1.parts q =
        (((dueAt e.evt.evq cur).foldl (Engine.applyEvent k cur) e).parts q).panicService.arpFireDue
          k cur := by
  unfold Engine.segStart
  dsimp only
  rw [Engine.evqApplyDue_fst]

-- The deadlines of the parts, each none or ahead.
theorem NextOk.deadlines {kept : List DevEvent} {next : Nat} {d : Fin nParts → Nat}
    (h : NextOk cur limit kept next) (hd : ∀ q, d q = 0 ∨ cur < d q) (qs : List (Fin nParts))
    : NextOk cur limit kept (qs.foldl (fun next q =>
        if d q ≠ 0 ∧ (next = 0 ∨ d q < next) then d q else next) next) := by
  induction qs generalizing next with
  | nil => exact h
  | cons q qs ih =>
    rw [List.foldl_cons]
    apply ih
    have hgt := hd q
    split
    next hlt =>
      constructor
      . omega
      . intro ev hev hlim
        have := h.2 ev hev hlim
        omega
    next => exact h

theorem Engine.segStart_nextOk (e : Engine D) (cur limit : Nat)
    : NextOk cur limit (evqRemaining e.evt.evq cur) (e.segStart k cur limit).2 := by
  unfold Engine.segStart
  apply NextOk.deadlines (Engine.evqApplyDue_nextOk e)
  intro q
  apply Part.arpNextDeadline_gt

theorem segLen_progress (next cur : Nat) {done n : Nat} (h : done < n)
    : 0 < segLen next cur done n ∧ done + segLen next cur done n ≤ n := by
  unfold segLen
  dsimp only
  split <;> split <;> split <;> omega

theorem segLen_le {next : Nat} (hnext : cur < next) (done n : Nat)
    : segLen next cur done n ≤ next - cur := by
  have hmod : (next - cur) % 2 ^ 32 ≤ next - cur := Nat.mod_le _ _
  have hne : next ≠ 0 := by omega
  unfold segLen
  simp only [hne, ne_eq, not_false_eq_true, if_true]
  split_ifs <;> omega

end Segments

section Bodies

variable {seg cur : Nat}

def Engine.mapParts (e : Engine D) (f : Fin nParts → Part D → Part D) : Engine D :=
  { e with parts := fun q => f q (e.parts q) }

theorem Engine.setPart_self (e : Engine D) (q : Fin nParts) : e.setPart q (e.parts q) = e := by
  unfold Engine.setPart
  congr 1
  funext i
  split
  next h => rw [h]
  next => rfl

-- A loop over parts that changes each from its own state only.
theorem Engine.foldParts {S : Type} (proj : S → Engine D) (f : S → Fin nParts → S)
    (g : Fin nParts → Part D → Part D)
    (hf : ∀ s q, proj (f s q) = (proj s).setPart q (g q ((proj s).parts q))) (qs : List (Fin nParts))
    (hqs : qs.Nodup) (s : S)
    : proj (qs.foldl f s) = (proj s).mapParts (fun i p => if i ∈ qs then g i p else p) := by
  induction qs generalizing s with
  | nil => simp [Engine.mapParts]
  | cons q qs ih =>
    rw [List.nodup_cons] at hqs
    rw [List.foldl_cons, ih hqs.2, hf]
    unfold Engine.setPart Engine.mapParts
    congr 1
    funext i
    by_cases hi : i = q
    . subst hi
      simp [hqs.1]
    . simp [hi]

/--
The state after a segment of the main mix.
-/
theorem Engine.mixSegment_fst (e : Engine D)
    : (e.mixSegment k seg cur).1 = e.mapParts (fun q p =>
        if q = 0 ∨ p.partActive k then p.poolAfter k seg cur else p) := by
  unfold Engine.mixSegment
  dsimp only
  rw [Engine.foldParts Prod.fst _
    (fun _ p => if p.partActive k then p.poolAfter k seg cur else p)]
  . simp only [Part.renderPartVoices_fst]
    unfold Engine.setPart Engine.mapParts
    congr 1
    funext q
    by_cases hq : q = 0
    . subst hq
      simp
    . simp [hq]
  . intro s q
    split
    next => rw [Part.renderPartVoices_fst]
    next => rw [Engine.setPart_self]
  . exact (List.nodup_finRange nParts).filter _

/--
The state after a segment of the part outputs.
-/
theorem Engine.slotSegment_fst (e : Engine D) (slots : List OutSlot)
    : (e.slotSegment k slots seg cur).1 = e.mapParts (fun q p =>
        if needPart slots q ∨ (needMain slots ∧ (q = 0 ∨ p.partActive k)) then
          p.poolAfter k seg cur
        else
          p) := by
  unfold Engine.slotSegment
  dsimp only
  rw [Engine.foldParts SlotOut.e _ (fun q p =>
    if needPart slots q ∨ (needMain slots ∧ (q = 0 ∨ p.partActive k)) then
      p.poolAfter k seg cur
    else
      p) _ _ (List.nodup_finRange nParts)]
  . simp
  . intro s q
    unfold SlotOut.part
    dsimp only
    split
    next h =>
      rw [if_neg, Engine.setPart_self]
      simp_all
    next h =>
      have hneed : needPart slots q ∨
          (needMain slots ∧ (q = 0 ∨ (s.e.parts q).partActive k)) := by
        by_contra hno
        simp_all
      rw [Part.renderPartVoices_fst, if_pos hneed]

end Bodies

section Loop

variable {O : Type} {body : Nat → Nat → Engine D → Engine D × O} {append : O → O → O} {pos n : Nat}

theorem Block.loop_inv {I : Block D O → Prop} {b : Block D O} (hinit : I b)
    (hstep : ∀ b, b.done < n → I b → I (b.turn k body append pos n)) (fuel : Nat)
    : I (Block.loop k body append pos n fuel b) := by
  induction fuel generalizing b with
  | zero => exact hinit
  | succ fuel ih =>
    unfold Block.loop
    split
    next hlt => exact ih (hstep b hlt hinit)
    next => exact hinit

theorem Block.turn_progress {b : Block D O} (h : b.done < n)
    : b.done < (b.turn k body append pos n).done ∧ (b.turn k body append pos n).done ≤ n := by
  have hseg := segLen_progress (b.e.segStart k (u64 (pos + b.done)) (u64 (pos + n))).2
    (u64 (pos + b.done)) h
  unfold Block.turn
  dsimp only
  omega

-- As every turn makes progress, `n` turns are enough.
theorem Block.loop_done {b : Block D O} (fuel : Nat) (hfuel : n ≤ b.done + fuel) (hle : b.done ≤ n)
    : (Block.loop k body append pos n fuel b).done = n := by
  induction fuel generalizing b with
  | zero => unfold Block.loop; omega
  | succ fuel ih =>
    unfold Block.loop
    split
    next hlt =>
      have hprog : b.done < (b.turn k body append pos n).done ∧
          (b.turn k body append pos n).done ≤ n := Block.turn_progress hlt
      apply ih
      . omega
      . exact hprog.2
    next => omega

/--
Where the segments of the main mix start: the states before the due events, with their positions.
-/
def Block.starts (k : Kernel D X) (pos n : Nat) : Nat → Block D (List (X × X)) → List (Engine D × Nat)
  | 0, _ => []
  | fuel + 1, b =>
    if b.done < n then
      (b.e, u64 (pos + b.done)) ::
        Block.starts k pos n fuel (b.turn k (Engine.mixSegment k) (· ++ ·) pos n)
    else
      []

def Engine.starts (k : Kernel D X) (e : Engine D) (n pos : Nat) : List (Engine D × Nat) :=
  Block.starts k pos n n ⟨e, 0, []⟩

/--
An invariant of the main mix, under a condition on the state where each segment starts.
-/
theorem Engine.renderWithEvents_inv {I : Engine D → Prop} {G : Engine D → Nat → Prop} {e : Engine D}
    (hinit : I e) (hguard : ∀ s ∈ e.starts k n pos, G s.1 s.2)
    (hstep : ∀ e cur limit seg, I e → G e cur →
      I (Engine.mixSegment k seg cur (e.segStart k cur limit).1).1)
    : I (e.renderWithEvents k n pos).1 := by
  have hloop : ∀ (fuel : Nat) (b : Block D (List (X × X))), I b.e →
      (∀ s ∈ Block.starts k pos n fuel b, G s.1 s.2) →
      I (Block.loop k (Engine.mixSegment k) (· ++ ·) pos n fuel b).e := by
    intro fuel
    induction fuel with
    | zero => exact fun b hb _ => hb
    | succ fuel ih =>
      intro b hb hg
      unfold Block.loop
      unfold Block.starts at hg
      split
      next hlt =>
        rw [if_pos hlt, List.forall_mem_cons] at hg
        apply ih _ _ hg.2
        unfold Block.turn
        dsimp only
        exact hstep b.e _ _ _ hb hg.1
      next => exact hb
  exact hloop n ⟨e, 0, []⟩ hinit hguard

end Loop

section ArpFrame

-- The arp as a step or a gate leaves it: transport and latch are the same.
structure SameTransport (a a' : ArpState) : Prop where
  playing : a'.playing = a.playing
  anchorValid : a'.anchorValid = a.anchorValid
  tempo : a'.tempo = a.tempo
  latch : a'.latch = a.latch

theorem Part.arpVoiceOff_arp (p : Part D)
    : p.arpVoiceOff.arp = { p.arp with sounding := -1, gateOff := 0 } := by
  unfold Part.arpVoiceOff
  dsimp only
  split <;> rfl

theorem Part.arpVoiceOff_pval (p : Part D) : p.arpVoiceOff.pval = p.pval := by
  unfold Part.arpVoiceOff
  dsimp only
  split <;> rfl

theorem Part.arpVoiceOff_ramps (p : Part D) : p.arpVoiceOff.ramps = p.ramps := by
  unfold Part.arpVoiceOff
  dsimp only
  split <;> rfl

theorem Part.arpGate_sameTransport (p : Part D) (pos : Nat)
    : SameTransport p.arp (p.arpGate pos).arp := by
  unfold Part.arpGate
  split
  next => rw [Part.arpVoiceOff_arp]; exact ⟨rfl, rfl, rfl, rfl⟩
  next => exact ⟨rfl, rfl, rfl, rfl⟩

theorem Part.arpStep_sameTransport (p : Part D) (pos : Nat)
    : SameTransport p.arp (p.arpStep k pos).arp := by
  unfold Part.arpStep
  split
  next => exact ⟨rfl, rfl, rfl, rfl⟩
  next =>
    split
    next => exact ⟨rfl, rfl, rfl, rfl⟩
    next => exact ⟨rfl, rfl, rfl, rfl⟩

theorem SameTransport.trans {a a' a'' : ArpState} (h : SameTransport a a') (h' : SameTransport a' a'')
    : SameTransport a a'' :=
  ⟨h'.playing.trans h.playing, h'.anchorValid.trans h.anchorValid, h'.tempo.trans h.tempo,
    h'.latch.trans h.latch⟩

theorem Part.arpFireDue_sameTransport (p : Part D) (pos : Nat)
    : SameTransport p.arp (p.arpFireDue k pos).arp := by
  unfold Part.arpFireDue
  split
  next => exact ⟨rfl, rfl, rfl, rfl⟩
  next => exact (Part.arpGate_sameTransport p pos).trans (Part.arpStep_sameTransport _ pos)

/--
A transport event stops the clock, starts it, or moves it on.
-/
theorem Part.transport_cases (pos : Nat) (p : Part D) (ev : DevEvent)
    : (ev.a.testBit 0 = false ∧ p.arp.playing = true ∧
        p.transport pos ev = (p.anchored pos ev).arpVoiceOff) ∨
      (ev.a.testBit 0 = true ∧ p.arp.playing = false ∧
        p.transport pos ev = (p.anchored pos ev).restart) ∨
      (ev.a.testBit 0 = p.arp.playing ∧ p.transport pos ev = p.anchored pos ev) := by
  have hplaying : (p.anchored pos ev).arp.playing = ev.a.testBit 0 := rfl
  unfold Part.transport
  dsimp only
  rw [hplaying]
  cases h0 : ev.a.testBit 0 <;> cases hp : p.arp.playing <;>
    simp [hplaying, h0, Part.arpVoiceOff_arp]

theorem Part.panicService_arp (p : Part D) : p.panicService.arp = p.arp := by
  unfold Part.panicService
  split <;> rfl

/--
What a set, a ramp or a modulation leaves of a part: the notes, the pool, the arp and what the
kernel keeps.
-/
structure NotesKept (p p' : Part D) : Prop where
  arp : p'.arp = p.arp
  panicNote : p'.panicNote = p.panicNote
  allocClock : p'.allocClock = p.allocClock
  note : ∀ i, (p'.voices i).note = (p.voices i).note
  active : ∀ i, (p'.voices i).active = (p.voices i).active
  voiceId : ∀ i, (p'.voices i).voiceId = (p.voices i).voiceId
  allocSeq : ∀ i, (p'.voices i).allocSeq = (p.voices i).allocSeq
  dsp : ∀ i, (p'.voices i).dsp = (p.voices i).dsp

namespace NotesKept

theorem refl (p : Part D) : NotesKept p p :=
  ⟨rfl, rfl, rfl, fun _ => rfl, fun _ => rfl, fun _ => rfl, fun _ => rfl, fun _ => rfl⟩

theorem paramSet (p : Part D) (ev : DevEvent) : NotesKept p (p.paramSet k ev) := by
  unfold Part.paramSet
  split
  next => exact refl p
  next =>
    split
    next =>
      constructor <;> try rfl
      all_goals intro i; dsimp only [Part.mapVoices]; split <;> rfl
    next => constructor <;> intros <;> rfl

theorem rampTo (p : Part D) (ev : DevEvent) (pos : Nat) : NotesKept p (p.rampTo k pos ev) := by
  unfold Part.rampTo
  split
  next => exact refl p
  next =>
    split
    next =>
      constructor <;> try rfl
      all_goals intro i; dsimp only [Part.mapVoices]; split <;> rfl
    next => constructor <;> intros <;> rfl

theorem modulate (p : Part D) (ev : DevEvent) : NotesKept p (p.modulate ev) := by
  constructor <;> try rfl
  all_goals
    intro i
    dsimp only [Part.modulate, Part.mapVoices]
    split
    next => cases harpModTarget ev.a <;> rfl
    next => rfl

end NotesKept

-- Only a transport event starts or stops the arp clock.
theorem Part.applyEvent_playing {ev : DevEvent} (h : ev.kind ≠ .transport) (pos : Nat) (routed : Bool)
    (p : Part D) : (p.applyEvent k pos ev routed).arp.playing = p.arp.playing := by
  unfold Part.applyEvent
  split
  case h_1 =>
    unfold Part.noteOn Part.voiceNoteOn Part.arpLatchAdd Part.setVoice
    dsimp only
    split_ifs <;> rfl
  case h_2 =>
    unfold Part.noteOff Part.arpLatchRemove
    dsimp only
    split_ifs <;> simp [Part.voiceNoteOff, Part.mapVoices, Part.arpVoiceOff_arp]
  case h_3 => simp [Part.allOff, Part.freeVoices, Part.mapVoices, Part.arpReset, Part.arpVoiceOff_arp]
  case h_4 hkind => exact absurd hkind h
  case h_5 =>
    split
    next => rw [(NotesKept.paramSet p ev).arp]
    next => rfl
  case h_6 =>
    split
    next => rw [(NotesKept.rampTo p ev pos).arp]
    next => rfl
  case h_7 =>
    split
    next => rw [(NotesKept.modulate p ev).arp]
    next => rfl

theorem Engine.applyEvents_playing {e : Engine D} {evs : List DevEvent} (pos : Nat) (q : Fin nParts)
    (h : ∀ ev ∈ evs, ev.kind ≠ .transport)
    : ((evs.foldl (Engine.applyEvent k pos) e).parts q).arp.playing = (e.parts q).arp.playing := by
  induction evs generalizing e with
  | nil => rfl
  | cons ev evs ih =>
    rw [List.forall_mem_cons] at h
    rw [List.foldl_cons, ih h.2]
    exact Part.applyEvent_playing h.1 pos _ _

theorem Engine.segStart_playing {e : Engine D} {cur : Nat} (limit : Nat) (q : Fin nParts)
    (h : ∀ ev ∈ dueAt e.evt.evq cur, ev.kind ≠ .transport)
    : ((e.segStart k cur limit).1.parts q).arp.playing = (e.parts q).arp.playing := by
  rw [Engine.segStart_parts, (Part.arpFireDue_sameTransport _ _).playing, Part.panicService_arp]
  exact Engine.applyEvents_playing cur q h

theorem Part.arpVoiceOff_panicNote (p : Part D) : p.arpVoiceOff.panicNote = p.panicNote := by
  unfold Part.arpVoiceOff
  dsimp only
  split <;> rfl

theorem Part.applyEvent_panicNote (pos : Nat) (ev : DevEvent) (routed : Bool) (p : Part D)
    : (p.applyEvent k pos ev routed).panicNote = p.panicNote := by
  unfold Part.applyEvent
  cases ev.kind with
  | noteOn =>
    dsimp only [Part.noteOn]
    split_ifs <;> rfl
  | noteOff =>
    dsimp only [Part.noteOff]
    split_ifs <;> first | exact Part.arpVoiceOff_panicNote _ | rfl
  | allOff => exact Part.arpVoiceOff_panicNote _
  | transport =>
    obtain ⟨_, _, heq⟩ | ⟨_, _, heq⟩ | ⟨_, heq⟩ := Part.transport_cases pos p ev
    . simp only [heq, Part.arpVoiceOff_panicNote]
      rfl
    . simp only [heq]
      rfl
    . simp only [heq]
      rfl
  | paramSet | ramp | mod =>
    dsimp only
    split
    next =>
      first
        | exact (NotesKept.paramSet p ev).panicNote
        | exact (NotesKept.rampTo p ev pos).panicNote
        | exact (NotesKept.modulate p ev).panicNote
    next => rfl

theorem Engine.applyEvents_panicNote {pos : Nat} (e : Engine D) (evs : List DevEvent) (q : Fin nParts)
    : ((evs.foldl (Engine.applyEvent k pos) e).parts q).panicNote = (e.parts q).panicNote := by
  induction evs generalizing e with
  | nil => rfl
  | cons ev evs ih =>
    rw [List.foldl_cons, ih]
    apply Part.applyEvent_panicNote

theorem Part.panicService_panicNote (p : Part D) : p.panicService.panicNote = .none := by
  unfold Part.panicService
  split
  next h => exact h
  next => rfl
  next => rfl

theorem Part.arpFireDue_panicNote (p : Part D) (pos : Nat)
    : (p.arpFireDue k pos).panicNote = p.panicNote := by
  have hgate : (p.arpGate pos).panicNote = p.panicNote := by
    unfold Part.arpGate
    split
    next => exact p.arpVoiceOff_panicNote
    next => rfl
  unfold Part.arpFireDue Part.arpStep
  split_ifs <;> first | rfl | exact hgate

theorem Part.arpNextDeadline_stopped {p : Part D} (h : p.arp.playing = false) (pos : Nat)
    : p.arpNextDeadline k pos = 0 := by
  unfold Part.arpNextDeadline
  rw [if_pos]
  simp [h]

end ArpFrame

-- A kernel whose voices count their sub-blocks and never decay.
def countKernel : Kernel Nat Nat where
  nextStepSsi _ _ _ _ after := after + 1
  lt_nextStepSsi := by
    intros
    omega
  gateLen _ _ _ := 1
  zeroed := 0
  env _ := half
  land v _ := v.dsp
  subBlock v _ _ := (v.dsp + 1, fun _ => (1, 1))
  add x y := x + y
  zero := 0
  sub x _ := x
  line r _ := r.target

end Harp
