import Harp.Device.PartRun
import Harp.Device.StuckNotes
import Harp.Device.StepClock
import Harp.Lib.IeeeArith

/-!
This module contains the arpeggiator of a part under a clock that computes exactly: at which samples
its steps fire and its gates end, for every way of cutting the stream into segments.
-/

namespace Ieee.Fp

variable {eb w : ℕ}

-- What a finite value stands for.
def val (x : Fp eb w) : ℚ :=
  x.num / unit eb w

theorem unit_pos : 0 < unit eb w := by
  unfold unit
  positivity

theorem val_pos {x : Fp eb w} (h : 0 < x.key) : 0 < x.val := by
  unfold val
  apply div_pos _ unit_pos
  unfold num
  rw [bitsNum_of_nonneg h.le]
  have hpos : 0 < mag w x.key.toNat := by
    unfold mag
    split
    . omega
    . have hw := Nat.two_pow_pos w
      positivity
  exact Nat.cast_pos.mpr hpos

end Ieee.Fp

namespace Harp

open Runs Ieee

variable {D X : Type} {k : Kernel D X}

section Clock

theorem val_pos_of_tempo {tempo : F64} (hfin : tempo.Finite) (h : tempoStopped tempo = false)
    : 0 < tempo.val := by
  apply Fp.val_pos
  unfold tempoStopped Fp.le at h
  rw [decide_eq_false_iff_not, hfin.isNaN] at h
  have hzero : (Fp.ofBits 0 : F64).isNaN = false := by decide
  have hkey : (Fp.ofBits 0 : F64).key = 0 := by decide
  rw [hzero, hkey] at h
  simp only [Bool.false_eq_true, not_false_eq_true, true_and, not_le] at h
  exact h

def stepClock (rate : ℚ) (hrate : 0 < rate) (tempo anchorPpq : F64) (anchorSsi division : Nat)
    (htempo : 0 < tempo.val) : StepClock :=
  ⟨rate, tempo.val, arpDivPpq division, anchorPpq.val, anchorSsi, hrate, htempo,
    arpDivPpq_pos division⟩

-- The engine with a step clock that computes exactly.
def Kernel.exact (k : Kernel D X) (rate : ℚ) (hrate : 0 < rate) : Kernel D X :=
  { k with
    nextStepSsi := fun tempo ppq ssi division after =>
      if h : 0 < tempo.val then (stepClock rate hrate tempo ppq ssi division h).next after
      else after + 1,
    lt_nextStepSsi := by
      intro tempo ppq ssi division after
      split
      . apply StepClock.next_gt
      . exact Nat.lt_succ_self after }

-- The arp is on, under an anchor and a tempo, with keys to play.
structure Part.ArpRuns (p : Part D) : Prop where
  active : p.arpActive = true
  playing : p.arp.playing = true
  anchorValid : p.arp.anchorValid = true
  finite : p.arp.tempo.Finite
  tempo : tempoStopped p.arp.tempo = false
  held : p.arp.latch.keys ≠ []

def Part.clock (p : Part D) (rate : ℚ) (hrate : 0 < rate) (h : p.ArpRuns) : StepClock :=
  stepClock rate hrate p.arp.tempo p.arp.anchorPpq p.arp.anchorSsi (p.paramStepIndex 9).toNat
    (val_pos_of_tempo h.finite h.tempo)

-- What the clock reads is the same.
structure SameClock (p p' : Part D) : Prop where
  active : p'.arpActive = p.arpActive
  playing : p'.arp.playing = p.arp.playing
  anchorValid : p'.arp.anchorValid = p.arp.anchorValid
  tempo : p'.arp.tempo = p.arp.tempo
  anchorPpq : p'.arp.anchorPpq = p.arp.anchorPpq
  anchorSsi : p'.arp.anchorSsi = p.arp.anchorSsi
  latch : p'.arp.latch = p.arp.latch
  division : p'.paramStepIndex 9 = p.paramStepIndex 9

namespace SameClock

variable {p p' p'' : Part D} {rate : ℚ} {hrate : 0 < rate}

theorem refl (p : Part D) : SameClock p p :=
  ⟨rfl, rfl, rfl, rfl, rfl, rfl, rfl, rfl⟩

theorem trans (h : SameClock p p') (h' : SameClock p' p'') : SameClock p p'' where
  active := h'.active.trans h.active
  playing := h'.playing.trans h.playing
  anchorValid := h'.anchorValid.trans h.anchorValid
  tempo := h'.tempo.trans h.tempo
  anchorPpq := h'.anchorPpq.trans h.anchorPpq
  anchorSsi := h'.anchorSsi.trans h.anchorSsi
  latch := h'.latch.trans h.latch
  division := h'.division.trans h.division

theorem runs (h : SameClock p p') (hp : p.ArpRuns) : p'.ArpRuns := by
  constructor
  . rw [h.active]
    exact hp.active
  . rw [h.playing]
    exact hp.playing
  . rw [h.anchorValid]
    exact hp.anchorValid
  . rw [h.tempo]
    exact hp.finite
  . rw [h.tempo]
    exact hp.tempo
  . rw [h.latch]
    exact hp.held

theorem clock (h : SameClock p p') (hp : p.ArpRuns)
    : p'.clock rate hrate (h.runs hp) = p.clock rate hrate hp := by
  unfold Part.clock stepClock
  simp only [h.tempo, h.anchorPpq, h.anchorSsi, h.division]

end SameClock

variable {p : Part D} {rate : ℚ} {hrate : 0 < rate}

theorem Part.arpNextStepSsi_exact (h : p.ArpRuns) (after : Nat)
    : p.arpNextStepSsi (k.exact rate hrate) after = (p.clock rate hrate h).next after :=
  dif_pos (val_pos_of_tempo h.finite h.tempo)

theorem Part.arpFires_iff (h : p.ArpRuns) (pos : Nat)
    : p.arpFires (k.exact rate hrate) pos = true
        ↔ pos ≠ 0 ∧ (p.clock rate hrate h).next (pos - 1) = pos := by
  unfold Part.arpFires
  rw [decide_eq_true_eq, Part.arpNextStepSsi_exact h]
  constructor
  . intro hfires
    exact hfires.2.2.2.2.2
  . intro hpos
    exact ⟨h.active, h.playing, h.anchorValid, h.tempo, h.held, hpos⟩

end Clock

section Due

variable {p : Part D} {pos : Nat}

theorem SameClock.arpVoiceOff (p : Part D) : SameClock p p.arpVoiceOff := by
  have hstep : ∀ id, p.arpVoiceOff.paramStepIndex id = p.paramStepIndex id := by
    intro id
    unfold Part.paramStepIndex
    rw [Part.arpVoiceOff_pval]
  constructor
  . unfold Part.arpActive
    rw [hstep]
  all_goals
    first
      | exact hstep 9
      | rw [Part.arpVoiceOff_arp]

theorem SameClock.arpGate (p : Part D) (pos : Nat) : SameClock p (p.arpGate pos) := by
  unfold Part.arpGate
  split
  . apply SameClock.arpVoiceOff
  . apply SameClock.refl

theorem SameClock.arpFireDue (p : Part D) (pos : Nat) : SameClock p (p.arpFireDue k pos) := by
  unfold Part.arpFireDue
  split
  . apply SameClock.refl
  . apply (SameClock.arpGate p pos).trans
    unfold Part.arpStep
    split
    . apply SameClock.refl
    . split
      . apply SameClock.refl
      . exact ⟨rfl, rfl, rfl, rfl, rfl, rfl, rfl, rfl⟩

-- A gate that is due is served; a step sets the next one ahead.
theorem Part.arpGate_gateOff (p : Part D) (pos : Nat)
    : (p.arpGate pos).arp.gateOff
        = if p.arp.gateOff ≠ 0 ∧ pos ≥ p.arp.gateOff then 0 else p.arp.gateOff := by
  unfold Part.arpGate
  split
  . rw [Part.arpVoiceOff_arp]
  . rfl

theorem Part.arpFireDue_of_fires (hpos : pos < 2 ^ 64) (h : p.arpFires k pos = true)
    : (p.arpFireDue k pos).arp.gateOff = 0 ∨ pos < (p.arpFireDue k pos).arp.gateOff := by
  have hactive : p.arpActive = true := by
    unfold Part.arpFires at h
    simp only [decide_eq_true_eq] at h
    exact h.1
  unfold Part.arpFireDue
  rw [if_neg (by simp [hactive]), Part.arpStep_of_fires (by rw [Part.arpGate_fires]; exact h)]
  unfold Part.arpFire
  dsimp only
  split
  . unfold u64
    omega
  . omega

theorem Part.arpFireDue_of_not (hactive : p.arpActive = true) (h : p.arpFires k pos = false)
    : p.arpFireDue k pos = p.arpGate pos := by
  unfold Part.arpFireDue
  rw [if_neg (by simp [hactive])]
  apply Part.arpStep_of_not
  . rw [(SameClock.arpGate p pos).active]
    exact hactive
  . rw [Part.arpGate_fires]
    exact h

end Due

section Cut

/--
A part at the start of a segment, with where its steps fired, where its gates are pending from and
end, and which gate was served where.
-/
structure ArpCut (D : Type) where
  p : Part D
  pos : Nat
  fired : List Nat
  gates : List (Nat × Nat)
  served : List (Nat × Nat)

-- A segment, and the part when the next one starts.
structure ArpSegment (D : Type) where
  len : Nat
  p : Part D

def ArpCut.next (k : Kernel D X) (s : ArpCut D) (seg : ArpSegment D) : ArpCut D where
  p := seg.p
  pos := s.pos + seg.len
  fired := if s.p.arpFires k s.pos then s.fired ++ [s.pos] else s.fired
  gates :=
    if s.p.arpFires k s.pos then s.gates ++ [(s.pos + 1, (s.p.arpFireDue k s.pos).arp.gateOff)]
    else s.gates
  served :=
    if s.p.arp.gateOff ≠ 0 ∧ s.pos ≥ s.p.arp.gateOff then s.served ++ [(s.p.arp.gateOff, s.pos)]
    else s.served

def ArpCut.start (p : Part D) (a : Nat) : ArpCut D :=
  ⟨p, a, [], [(a, p.arp.gateOff)], []⟩

-- A segment ends at the deadline of the arp or before it, and nothing else touches the arp.
structure ArpCut.Cuts (k : Kernel D X) (s : ArpCut D) (seg : ArpSegment D) : Prop where
  pos : s.pos < 2 ^ 64
  len : 0 < seg.len
  deadline : (s.p.arpFireDue k s.pos).arpNextDeadline k s.pos ≠ 0 →
    s.pos + seg.len ≤ (s.p.arpFireDue k s.pos).arpNextDeadline k s.pos
  clock : SameClock (s.p.arpFireDue k s.pos) seg.p
  gate : seg.p.arp.gateOff = (s.p.arpFireDue k s.pos).arp.gateOff

-- Of a range from `a` on, cut anywhere.
structure CutLaw (c : StepClock) (a : Nat) (s : ArpCut D) : Prop where
  once : s.fired.Pairwise (· < ·)
  fired : ∀ b, b ∈ s.fired ↔ a ≤ b ∧ b < s.pos ∧ 0 < b ∧ c.Boundary b
  exact : ∀ gate pos, (gate, pos) ∈ s.served → a ≤ gate → pos = gate
  served : ∀ since gate, (since, gate) ∈ s.gates → gate ≠ 0 → a ≤ gate → gate < s.pos →
    (gate, gate) ∈ s.served ∨ ∃ b ∈ s.fired, since ≤ b ∧ b < gate

variable {p : Part D} {rate : ℚ} {hrate : 0 < rate} {s : ArpCut D} {seg : ArpSegment D} {a : Nat}

-- What the deadline allows.
theorem ArpCut.Cuts.reach (h : s.Cuts (k.exact rate hrate) seg) (hp : s.p.ArpRuns)
    : s.pos + seg.len ≤ (s.p.clock rate hrate hp).next s.pos
        ∧ ((s.p.arpFireDue (k.exact rate hrate) s.pos).arp.gateOff ≤ s.pos
          ∨ s.pos + seg.len ≤ (s.p.arpFireDue (k.exact rate hrate) s.pos).arp.gateOff) := by
  have hdeadline := h.deadline
  have hsame := SameClock.arpFireDue (k := k.exact rate hrate) s.p s.pos
  generalize s.p.arpFireDue (k.exact rate hrate) s.pos = p' at hsame hdeadline ⊢
  have hp' := hsame.runs hp
  have hlen : p'.arp.latch.keys.length > 0 := List.length_pos_of_ne_nil hp'.held
  have hgt := (s.p.clock rate hrate hp).next_gt s.pos
  unfold Part.arpNextDeadline at hdeadline
  rw [if_neg (by simp [hp'.active, hp'.playing, hp'.anchorValid, hp'.tempo]), if_pos hlen,
    Part.arpNextStepSsi_exact hp', hsame.clock hp] at hdeadline
  dsimp only at hdeadline
  split at hdeadline
  . have hle := hdeadline (by omega)
    omega
  . have hle := hdeadline (by omega)
    omega

structure CutInv (c : StepClock) (p : Part D) (a : Nat) (s : ArpCut D) : Prop where
  same : SameClock p s.p
  le : a ≤ s.pos
  once : s.fired.Pairwise (· < ·)
  fired : ∀ b, b ∈ s.fired ↔ a ≤ b ∧ b < s.pos ∧ 0 < b ∧ c.Boundary b
  exact : ∀ gate pos, (gate, pos) ∈ s.served → a ≤ gate → pos = gate
  ahead : s.p.arp.gateOff ≠ 0 → a ≤ s.p.arp.gateOff → s.pos ≤ s.p.arp.gateOff
  since : ∀ since gate, (since, gate) ∈ s.gates → since ≤ s.pos
  gates : ∀ since gate, (since, gate) ∈ s.gates → gate ≠ 0 → a ≤ gate →
    (gate, gate) ∈ s.served ∨ (∃ b ∈ s.fired, since ≤ b ∧ b < gate) ∨ s.p.arp.gateOff = gate

theorem CutInv.start (c : StepClock) (p : Part D) (a : Nat) : CutInv c p a (ArpCut.start p a) := by
  unfold ArpCut.start
  constructor
  all_goals dsimp only
  . exact SameClock.refl p
  . exact Nat.le_refl a
  . exact List.Pairwise.nil
  . intro b
    constructor
    . intro h
      contradiction
    . intro h
      omega
  . intro gate pos h
    contradiction
  . intro _ h
    exact h
  . intro since gate h
    rw [List.mem_singleton, Prod.mk.injEq] at h
    rw [h.1]
  . intro since gate h _ _
    rw [List.mem_singleton, Prod.mk.injEq] at h
    rw [h.2]
    exact .inr (.inr rfl)

theorem ArpCut.mem_fired_next {b : Nat}
    : b ∈ (s.next k seg).fired ↔ b ∈ s.fired ∨ s.p.arpFires k s.pos = true ∧ b = s.pos := by
  unfold ArpCut.next
  dsimp only
  split
  next h => simp [h]
  next h => simp [h]

theorem ArpCut.mem_gates_next {x : Nat × Nat}
    : x ∈ (s.next k seg).gates ↔ x ∈ s.gates ∨ s.p.arpFires k s.pos = true
        ∧ x = (s.pos + 1, (s.p.arpFireDue k s.pos).arp.gateOff) := by
  unfold ArpCut.next
  dsimp only
  split
  next h => simp [h]
  next h => simp [h]

theorem ArpCut.mem_served_next {x : Nat × Nat}
    : x ∈ (s.next k seg).served ↔ x ∈ s.served
        ∨ (s.p.arp.gateOff ≠ 0 ∧ s.pos ≥ s.p.arp.gateOff) ∧ x = (s.p.arp.gateOff, s.pos) := by
  unfold ArpCut.next
  dsimp only
  split
  next h => simp [h]
  next h => simp [h]

section Step

variable {c : StepClock} {hp : p.ArpRuns}

-- A step fires at a boundary.
theorem CutInv.fires_iff (h : CutInv c p a s) (hc : c = p.clock rate hrate hp)
    (hfine : ∀ after, c.Fine after)
    : s.p.arpFires (k.exact rate hrate) s.pos = true ↔ s.pos ≠ 0 ∧ c.Boundary s.pos := by
  rw [Part.arpFires_iff (h.same.runs hp), h.same.clock hp, ← hc]
  constructor
  . rintro ⟨hpos, hnext⟩
    exact ⟨hpos, (StepClock.next_pred_iff (hfine _) hpos).mp hnext⟩
  . rintro ⟨hpos, hboundary⟩
    exact ⟨hpos, (StepClock.next_pred_iff (hfine _) hpos).mpr hboundary⟩

theorem CutInv.fired_next (h : CutInv c p a s) (hc : c = p.clock rate hrate hp)
    (hfine : ∀ after, c.Fine after) (hcut : s.Cuts (k.exact rate hrate) seg) (b : Nat)
    : b ∈ (s.next (k.exact rate hrate) seg).fired
        ↔ a ≤ b ∧ b < s.pos + seg.len ∧ 0 < b ∧ c.Boundary b := by
  have hlen := hcut.len
  have hle := h.le
  have hreach := (hcut.reach (h.same.runs hp)).1
  rw [h.same.clock hp, ← hc] at hreach
  rw [ArpCut.mem_fired_next, h.fired, h.fires_iff hc hfine]
  constructor
  . intro hb
    rcases hb with hb | ⟨⟨hpos, hboundary⟩, rfl⟩
    . exact ⟨hb.1, by omega, hb.2.2⟩
    . exact ⟨hle, by omega, Nat.pos_of_ne_zero hpos, hboundary⟩
  . rintro ⟨hab, hlt, hpos, hboundary⟩
    rcases Nat.lt_trichotomy b s.pos with hbefore | rfl | hafter
    . exact .inl ⟨hab, hbefore, hpos, hboundary⟩
    . exact .inr ⟨⟨by omega, hboundary⟩, rfl⟩
    . -- the deadline is not behind a boundary
      have hnext := StepClock.next_le (hfine s.pos) hboundary hafter
      omega

-- The pending gate after a segment.
theorem CutInv.gate_next (h : CutInv c p a s) (hp : p.ArpRuns) (hcut : s.Cuts (k.exact rate hrate) seg)
    (hstill : s.p.arpFires (k.exact rate hrate) s.pos = false)
    : seg.p.arp.gateOff
        = if s.p.arp.gateOff ≠ 0 ∧ s.pos ≥ s.p.arp.gateOff then 0 else s.p.arp.gateOff := by
  rw [hcut.gate, Part.arpFireDue_of_not _ hstill, Part.arpGate_gateOff]
  rw [h.same.active]
  exact hp.active

theorem CutInv.ahead_next (h : CutInv c p a s) (hp : p.ArpRuns) (hcut : s.Cuts (k.exact rate hrate) seg)
    (hne : seg.p.arp.gateOff ≠ 0) : s.pos + seg.len ≤ seg.p.arp.gateOff := by
  have hreach := (hcut.reach (h.same.runs hp)).2
  rw [← hcut.gate] at hreach
  cases hfires : s.p.arpFires (k.exact rate hrate) s.pos with
  | true =>
    have hgate := Part.arpFireDue_of_fires hcut.pos hfires
    rw [← hcut.gate] at hgate
    omega
  | false =>
    have hgate := h.gate_next hp hcut hfires
    split at hgate
    . omega
    . omega

theorem CutInv.next (h : CutInv c p a s) (hc : c = p.clock rate hrate hp)
    (hfine : ∀ after, c.Fine after) (hcut : s.Cuts (k.exact rate hrate) seg)
    : CutInv c p a (s.next (k.exact rate hrate) seg) := by
  have hpos : (s.next (k.exact rate hrate) seg).pos = s.pos + seg.len := rfl
  have hp' : (s.next (k.exact rate hrate) seg).p = seg.p := rfl
  constructor
  . exact (h.same.trans (SameClock.arpFireDue s.p s.pos)).trans hcut.clock
  . have hle := h.le
    omega
  . unfold ArpCut.next
    dsimp only
    split
    . rw [List.pairwise_append]
      refine ⟨h.once, List.pairwise_singleton _ _, ?_⟩
      intro b hb b' hb'
      rw [List.mem_singleton] at hb'
      rw [hb']
      exact ((h.fired b).mp hb).2.1
    . exact h.once
  . exact h.fired_next hc hfine hcut
  . intro gate pos hmem hle
    rw [ArpCut.mem_served_next] at hmem
    rcases hmem with hmem | ⟨⟨hne, hdue⟩, heq⟩
    . exact h.exact gate pos hmem hle
    . cases heq
      have hahead := h.ahead hne hle
      omega
  . intro hne _
    exact h.ahead_next hp hcut hne
  . intro since gate hmem
    have hlen := hcut.len
    rw [ArpCut.mem_gates_next] at hmem
    rcases hmem with hmem | ⟨_, heq⟩
    . have hsince := h.since since gate hmem
      omega
    . cases heq
      omega
  . intro since gate hmem hne hle
    rw [ArpCut.mem_gates_next] at hmem
    rcases hmem with hmem | ⟨_, heq⟩
    . rcases h.gates since gate hmem hne hle with hserved | ⟨b, hb, hsince⟩ | hpending
      . exact .inl (ArpCut.mem_served_next.mpr (.inl hserved))
      . exact .inr (.inl ⟨b, ArpCut.mem_fired_next.mpr (.inl hb), hsince⟩)
      . have hahead := h.ahead (by omega) (by omega)
        rw [hpending] at hahead
        rcases Nat.lt_or_eq_of_le hahead with hlt | heq
        . cases hfires : s.p.arpFires (k.exact rate hrate) s.pos with
          | true =>
            -- the step that fires first takes the gate over
            refine .inr (.inl ⟨s.pos, ArpCut.mem_fired_next.mpr (.inr ⟨hfires, rfl⟩), ?_, hlt⟩)
            exact h.since since gate hmem
          | false =>
            have hgate := h.gate_next hp hcut hfires
            rw [hpending, if_neg (by omega)] at hgate
            exact .inr (.inr hgate)
        . apply Or.inl
          rw [ArpCut.mem_served_next, hpending, heq]
          exact .inr ⟨⟨hne, Nat.le_refl _⟩, rfl⟩
    . cases heq
      exact .inr (.inr hcut.gate)

end Step

theorem CutInv.law {c : StepClock} (h : CutInv c p a s) : CutLaw c a s := by
  refine ⟨h.once, h.fired, h.exact, ?_⟩
  intro since gate hgate hne hle hlt
  rcases h.gates since gate hgate hne hle with hserved | hfired | hpending
  . exact .inl hserved
  . exact .inr hfired
  . have hahead := h.ahead (by omega) (by omega)
    omega

/--
The law of the step clock: the search ends at the least boundary, and the steps and gates of any cut
of a range are where they belong.
-/
structure ArpClockLaw (k : Kernel D X) (rate : ℚ) (hrate : 0 < rate) (p : Part D) (c : StepClock)
    : Prop where
  ends : ∀ after, ∃ b, ∀ fuel, c.turns < fuel → c.arpNextStepSsi fuel after = some b
  least : ∀ fuel after b, c.arpNextStepSsi fuel after = some b →
    IsLeast {b | c.Boundary b ∧ after < b} b
  cuts : ∀ a s, Run (ArpCut.next (k.exact rate hrate)) (ArpCut.Cuts (k.exact rate hrate))
    (ArpCut.start p a) s → CutLaw c a s

theorem arpClockLaw_iff (k : Kernel D X) (hrate : 0 < rate) (hp : p.ArpRuns)
    : ArpClockLaw k rate hrate p (p.clock rate hrate hp)
        ↔ ∀ after, (p.clock rate hrate hp).Fine after := by
  constructor
  . intro hlaw after
    have hnext := (p.clock rate hrate hp).arpNextStepSsi_next after
    exact (StepClock.arpNextStepSsi_isLeast_iff hnext).mp (hlaw.least _ _ _ hnext)
  . intro hfine
    constructor
    . exact StepClock.arpNextStepSsi_terminates _
    . intro fuel after b h
      exact (StepClock.arpNextStepSsi_isLeast_iff h).mpr (hfine after)
    . intro a s hrun
      have hinv : CutInv (p.clock rate hrate hp) p a s :=
        Run.inv (CutInv.start _ p a) (fun _ _ hs hcut => hs.next rfl hfine hcut) hrun
      exact hinv.law

-- A part that plays a held key at a tempo.
def arpAtTempo (tempo : F32) : Part Nat :=
  [PartOp.event 0 setMode true, .event 0 (eventNow .transport 41 tempo) true,
    .event 0 keyOn true].foldl (Part.next countKernel) (Part.boot countKernel)

instance (x : F64) : Decidable x.Finite :=
  inferInstanceAs (Decidable (_ < _))

theorem arpRuns_120 : (arpAtTempo (Fp.ofBits 0x42f00000)).ArpRuns :=
  ⟨by decide +kernel, by decide +kernel, by decide +kernel, by decide +kernel, by decide +kernel,
    by decide +kernel⟩

theorem arpClockLaw_120
    : ArpClockLaw countKernel 48000 (by norm_num) (arpAtTempo (Fp.ofBits 0x42f00000))
        (Part.clock _ 48000 (by norm_num) arpRuns_120) :=
  (arpClockLaw_iff countKernel (by norm_num) arpRuns_120).mpr
    (StepClock.fine_of_stepSamples (by decide +kernel))

-- A tempo of one beat in 34 minutes.
theorem arpRuns_slow : (arpAtTempo (Fp.ofBits 0x3a000000)).ArpRuns :=
  ⟨by decide +kernel, by decide +kernel, by decide +kernel, by decide +kernel, by decide +kernel,
    by decide +kernel⟩

-- The step at the sample 1474560000 is not seen from the sample before it.
theorem not_arpClockLaw_slow
    : ¬ ∀ (p : Part Nat) (hp : p.ArpRuns),
        ArpClockLaw countKernel 48000 (by norm_num) p (p.clock 48000 (by norm_num) hp) := by
  intro h
  have hlaw := h (arpAtTempo (Fp.ofBits 0x3a000000)) arpRuns_slow
  have hnext := StepClock.arpNextStepSsi_next (Part.clock _ 48000 (by norm_num) arpRuns_slow) 1474559999
  have hfine := (StepClock.arpNextStepSsi_isLeast_iff hnext).mp (hlaw.least _ _ _ hnext)
  exact absurd (hfine 1 (by decide +kernel)) (by decide +kernel)

end Cut

section Turns

variable {e : Engine D} {q : Fin nParts} {cur limit pos done n : Nat}

theorem deadlines_le {d : Fin nParts → Nat} (hq : d q ≠ 0) (qs : List (Fin nParts)) (next : Nat)
    (hmem : q ∈ qs ∨ next ≠ 0 ∧ next ≤ d q)
    : let next' := qs.foldl (fun next q => if d q ≠ 0 ∧ (next = 0 ∨ d q < next) then d q else next) next
      next' ≠ 0 ∧ next' ≤ d q := by
  induction qs generalizing next with
  | nil =>
    cases hmem with
    | inl hmem => contradiction
    | inr hnext => exact hnext
  | cons q' qs ih =>
    rw [List.foldl_cons]
    apply ih
    rw [List.mem_cons] at hmem
    rcases hmem with (rfl | hmem) | hnext
    . apply Or.inr
      split
      next => omega
      next hle =>
        rw [not_and_or] at hle
        omega
    . exact .inl hmem
    . apply Or.inr
      split
      next => omega
      next => exact hnext

-- The next segment does not start after the deadline of a part.
theorem Engine.segStart_deadline
    (h : ((e.segStart k cur limit).1.parts q).arpNextDeadline k cur ≠ 0)
    : (e.segStart k cur limit).2 ≠ 0
        ∧ (e.segStart k cur limit).2 ≤ ((e.segStart k cur limit).1.parts q).arpNextDeadline k cur :=
  deadlines_le (d := fun q => ((e.segStart k cur limit).1.parts q).arpNextDeadline k cur) h
    (List.finRange nParts) _ (.inl (List.mem_finRange q))

-- A turn of the render loop is a cut for each part whose clock it leaves as it is.
theorem Engine.turn_cuts {s : ArpCut D} {p' : Part D} (hdone : done < n) (hwrap : pos + n < 2 ^ 64)
    (hpos : s.pos = pos + done)
    (hs : s.p = (((dueAt e.evt.evq s.pos).foldl (Engine.applyEvent k s.pos) e).parts q).panicService)
    (hclock : SameClock (s.p.arpFireDue k s.pos) p')
    (hgate : p'.arp.gateOff = (s.p.arpFireDue k s.pos).arp.gateOff)
    : s.Cuts k ⟨segLen (e.segStart k s.pos (pos + n)).2 s.pos done n, p'⟩ := by
  have hprogress := segLen_progress (e.segStart k s.pos (pos + n)).2 s.pos hdone
  refine ⟨by omega, hprogress.1, ?_, hclock, hgate⟩
  intro hdeadline
  have hpart : s.p.arpFireDue k s.pos = (e.segStart k s.pos (pos + n)).1.parts q := by
    rw [Engine.segStart_parts, hs]
  rw [hpart] at hdeadline ⊢
  have hle := Engine.segStart_deadline hdeadline
  have hahead : s.pos < (e.segStart k s.pos (pos + n)).2 := by
    have hok := (Engine.segStart_nextOk (k := k) e s.pos (pos + n)).1
    omega
  have hlen := segLen_le hahead done n
  dsimp only
  omega

end Turns

end Harp
