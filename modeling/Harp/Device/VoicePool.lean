import Harp.Device.PartRun
import Harp.Device.StuckNotes

/-!
This module contains the order of a voice pool over whole runs. The pool steals by `allocSeq`, which
follows the order in which the notes of its voices started as long as the arpeggiator only takes up
voice 0 while that voice is the youngest.
-/

namespace Harp

open Runs

variable {D X : Type} {k : Kernel D X}

/--
A part with the time at which the current note of each voice started.
-/
structure Pool (D : Type) where
  p : Part D
  started : Fin nVoices → Nat
  now : Nat

def Pool.next (k : Kernel D X) (s : Pool D) (op : PartOp) : Pool D where
  p := s.p.next k op
  started i := if s.p.startsAt k op = some i then s.now else s.started i
  now := s.now + 1

-- The pool of a stream that begins.
def Pool.start (k : Kernel D X) (p : Part D) : Pool D :=
  ⟨p.voicesCold k, fun _ => 0, 0⟩

structure PoolLaw (s : Pool D) : Prop where
  distinct : ∀ i j, (s.p.voices i).active = true → (s.p.voices j).active = true →
    (s.p.voices i).allocSeq = (s.p.voices j).allocSeq → i = j
  below : ∀ i, (s.p.voices i).active = true → (s.p.voices i).allocSeq < s.p.allocClock
  -- what a note-on takes
  free : (∃ i, (s.p.voices i).active = false) → (s.p.voices s.p.voiceAlloc).active = false
  oldest : (∀ i, (s.p.voices i).active = true) → ∀ i, s.started s.p.voiceAlloc ≤ s.started i

/--
An arp step takes up voice 0 only while that voice was allocated after all the active ones, and the
clock of the allocations does not wrap.
-/
def Pool.Orderly (k : Kernel D X) (s : Pool D) (op : PartOp) : Prop :=
  match op with
  | .event _ ev routed =>
    routed = true ∧ ev.kind = .noteOn ∧ s.p.arpEngaged = false → s.p.allocClock + 1 < 2 ^ 64
  | .fire pos => s.p.arpFires k pos = true →
    (s.p.voices 0).allocSeq < s.p.allocClock ∧ ∀ i, i ≠ 0 → (s.p.voices i).active = true →
      (s.p.voices i).allocSeq < (s.p.voices 0).allocSeq
  | _ => True

section Pick

variable {active : Fin nVoices → Bool} {allocSeq : Fin nVoices → Nat}

theorem harpVoicePick_free (h : ∃ i, active i = false) : active (harpVoicePick active allocSeq) = false := by
  unfold harpVoicePick
  split
  next i hfind => simpa using List.find?_some hfind
  next hnone =>
    rcases h with ⟨i, hi⟩
    rw [List.find?_eq_none] at hnone
    have hnot := hnone i (List.mem_finRange i)
    rw [hi] at hnot
    contradiction

-- The scan ends at an index that no scanned one is older than.
theorem foldl_oldest (is : List (Fin nVoices)) (i₀ : Fin nVoices)
    : let oldest := is.foldl (fun oldest i => if allocSeq i < allocSeq oldest then i else oldest) i₀
      allocSeq oldest ≤ allocSeq i₀ ∧ ∀ i ∈ is, allocSeq oldest ≤ allocSeq i := by
  induction is generalizing i₀ with
  | nil => simp
  | cons i is ih =>
    rw [List.foldl_cons]
    split
    next hlt =>
      have hi := ih i
      constructor
      . exact Nat.le_trans hi.1 (Nat.le_of_lt hlt)
      . intro j hj
        cases List.mem_cons.mp hj with
        | inl heq =>
          rw [heq]
          exact hi.1
        | inr hj => exact hi.2 j hj
    next hle =>
      have hi := ih i₀
      constructor
      . exact hi.1
      . intro j hj
        cases List.mem_cons.mp hj with
        | inl heq =>
          rw [heq]
          exact Nat.le_trans hi.1 (Nat.not_lt.mp hle)
        | inr hj => exact hi.2 j hj

theorem harpVoicePick_oldest (h : ∀ i, active i = true) (i : Fin nVoices)
    : allocSeq (harpVoicePick active allocSeq) ≤ allocSeq i := by
  unfold harpVoicePick
  split
  next j hfind =>
    have hj := List.find?_some hfind
    rw [h j] at hj
    contradiction
  next => exact (foldl_oldest (List.finRange nVoices) 0).2 i (List.mem_finRange i)

end Pick

section Ordered

-- The ages of the active voices are in the order of the notes.
structure Ordered (s : Pool D) : Prop where
  distinct : ∀ i j, (s.p.voices i).active = true → (s.p.voices j).active = true →
    (s.p.voices i).allocSeq = (s.p.voices j).allocSeq → i = j
  below : ∀ i, (s.p.voices i).active = true → (s.p.voices i).allocSeq < s.p.allocClock
  since : ∀ i, (s.p.voices i).active = true → s.started i < s.now
  age : ∀ i j, (s.p.voices i).active = true → (s.p.voices j).active = true →
    s.started i < s.started j → (s.p.voices i).allocSeq < (s.p.voices j).allocSeq

variable {s : Pool D} {op : PartOp}

theorem Ordered.of_idle (h : ∀ i, (s.p.voices i).active = false) : Ordered s := by
  constructor
  all_goals
    intro i
    have hi := h i
    simp_all

theorem Ordered.start (k : Kernel D X) (p : Part D) : Ordered (Pool.start k p) :=
  Ordered.of_idle fun _ => rfl

theorem Ordered.law (h : Ordered s) : PoolLaw s := by
  constructor
  . exact h.distinct
  . exact h.below
  . exact harpVoicePick_free
  . intro hall i
    apply Nat.le_of_not_lt
    intro hlt
    have hage := h.age i s.p.voiceAlloc (hall i) (hall _) hlt
    have hpick := @harpVoicePick_oldest (fun i => (s.p.voices i).active)
      (fun i => (s.p.voices i).allocSeq) hall i
    exact Nat.not_le.mpr hage hpick

theorem Ordered.silent (h : Ordered s) (hstart : s.p.startsAt k op = none)
    (hsilent : Silent s.p (s.p.next k op)) : Ordered (s.next k op) := by
  have hstarted : (s.next k op).started = s.started := by
    unfold Pool.next
    dsimp only
    rw [hstart]
    funext i
    simp
  have hseq : ∀ i, ((s.next k op).p.voices i).allocSeq = (s.p.voices i).allocSeq := hsilent.allocSeq
  have hactive : ∀ i, ((s.next k op).p.voices i).active = true → (s.p.voices i).active = true :=
    hsilent.active
  constructor
  . intro i j hi hj heq
    rw [hseq, hseq] at heq
    exact h.distinct i j (hactive i hi) (hactive j hj) heq
  . intro i hi
    have hclock : (s.next k op).p.allocClock = s.p.allocClock := hsilent.allocClock
    rw [hseq, hclock]
    exact h.below i (hactive i hi)
  . intro i hi
    rw [hstarted]
    exact Nat.lt_succ_of_lt (h.since i (hactive i hi))
  . intro i j hi hj hlt
    rw [hstarted] at hlt
    rw [hseq, hseq]
    exact h.age i j (hactive i hi) (hactive j hj) hlt

-- The voice that is taken becomes the youngest of all.
theorem Ordered.youngest {v : Fin nVoices} (h : Ordered s) (hstart : s.p.startsAt k op = some v)
    (hbelow : ((s.p.next k op).voices v).allocSeq < (s.p.next k op).allocClock)
    (hclock : s.p.allocClock ≤ (s.p.next k op).allocClock)
    (hother : ∀ i, i ≠ v → ((s.p.next k op).voices i).active = true →
      (s.p.voices i).active = true ∧ ((s.p.next k op).voices i).allocSeq = (s.p.voices i).allocSeq
        ∧ (s.p.voices i).allocSeq < ((s.p.next k op).voices v).allocSeq)
    : Ordered (s.next k op) := by
  have hself : (s.next k op).started v = s.now := by
    unfold Pool.next
    dsimp only
    rw [if_pos hstart]
  have hstarted : ∀ i, i ≠ v → (s.next k op).started i = s.started i := by
    intro i hi
    unfold Pool.next
    dsimp only
    rw [hstart, if_neg]
    intro heq
    exact hi (Option.some.inj heq).symm
  have hnow : (s.next k op).now = s.now + 1 := rfl
  have hp : (s.next k op).p = s.p.next k op := rfl
  constructor
  . intro i j hi hj heq
    rw [hp] at hi hj heq
    by_cases hvi : i = v
    . by_cases hvj : j = v
      . rw [hvi, hvj]
      . have hj' := hother j hvj hj
        rw [hvi] at heq
        omega
    . have hi' := hother i hvi hi
      by_cases hvj : j = v
      . rw [hvj] at heq
        omega
      . have hj' := hother j hvj hj
        apply h.distinct i j hi'.1 hj'.1
        omega
  . intro i hi
    rw [hp] at hi ⊢
    by_cases hvi : i = v
    . rw [hvi]
      exact hbelow
    . have hi' := hother i hvi hi
      have hlt := Nat.lt_of_lt_of_le (h.below i hi'.1) hclock
      omega
  . intro i hi
    rw [hnow]
    by_cases hvi : i = v
    . rw [hvi, hself]
      omega
    . rw [hstarted i hvi]
      exact Nat.lt_succ_of_lt (h.since i (hother i hvi hi).1)
  . intro i j hi hj hlt
    rw [hp] at hi hj ⊢
    by_cases hvi : i = v
    . -- nothing started later
      rw [hvi, hself] at hlt
      by_cases hvj : j = v
      . rw [hvj, hself] at hlt
        omega
      . rw [hstarted j hvj] at hlt
        have hsince := h.since j (hother j hvj hj).1
        omega
    . have hi' := hother i hvi hi
      by_cases hvj : j = v
      . rw [hvj]
        omega
      . have hj' := hother j hvj hj
        rw [hstarted i hvi, hstarted j hvj] at hlt
        have hage := h.age i j hi'.1 hj'.1 hlt
        omega

theorem Ordered.took {pos : Nat} {ev : DevEvent} (h : Ordered s) (hop : op = .event pos ev true)
    (hkind : ev.kind = .noteOn) (heng : s.p.arpEngaged = false)
    (htook : Took s.p.voiceAlloc ev.voiceKey s.p (s.p.next k op)) (hg : s.Orderly k op)
    : Ordered (s.next k op) := by
  have hroom : s.p.allocClock + 1 < 2 ^ 64 := by
    rw [hop] at hg
    exact hg ⟨rfl, hkind, heng⟩
  have hclock := htook.allocClock
  unfold u64 at hclock
  rw [Nat.mod_eq_of_lt hroom] at hclock
  apply h.youngest (v := s.p.voiceAlloc)
  . rw [hop]
    unfold Part.startsAt
    dsimp only
    rw [if_pos ⟨rfl, hkind, heng⟩]
  . rw [htook.allocSeq, hclock]
    omega
  . omega
  . intro i hi hactive
    rw [htook.other i hi] at hactive ⊢
    refine ⟨hactive, rfl, ?_⟩
    rw [htook.allocSeq]
    exact h.below i hactive

theorem Ordered.fired {pos : Nat} (h : Ordered s) (hop : op = .fire pos)
    (hfires : s.p.arpFires k pos = true) (hfired : Fired s.p (s.p.next k op)) (hg : s.Orderly k op)
    : Ordered (s.next k op) := by
  have hyoungest : (s.p.voices 0).allocSeq < s.p.allocClock ∧ ∀ i, i ≠ 0 →
      (s.p.voices i).active = true → (s.p.voices i).allocSeq < (s.p.voices 0).allocSeq := by
    rw [hop] at hg
    exact hg hfires
  apply h.youngest (v := 0)
  . rw [hop]
    unfold Part.startsAt
    dsimp only
    rw [if_pos hfires]
  . rw [hfired.allocSeq, hfired.allocClock]
    exact hyoungest.1
  . rw [hfired.allocClock]
  . intro i hi hactive
    have hbefore := (hfired.active i hi).symm.trans hactive
    rw [hfired.allocSeq, hfired.allocSeq]
    exact ⟨hbefore, rfl, hyoungest.2 i hi hbefore⟩

theorem Ordered.next (h : Ordered s) (hg : s.Orderly k op) : Ordered (s.next k op) := by
  cases s.p.poolStep (k := k) op with
  | silent hstart hsilent => exact h.silent hstart hsilent
  | took pos ev hop hkind heng htook => exact h.took hop hkind heng htook hg
  | fired pos hop hfires hfired => exact h.fired hop hfires hfired hg
  | cold hop =>
    rw [hop]
    exact Ordered.of_idle fun _ => rfl

-- Exactly the orderly operations keep the order.
theorem Ordered.orderly (h : Ordered s) (hnext : Ordered (s.next k op)) : s.Orderly k op := by
  unfold Pool.Orderly
  cases op with
  | event pos ev routed =>
    rintro ⟨rfl, hkind, heng⟩
    have htook : Took s.p.voiceAlloc ev.voiceKey s.p (s.p.next k (.event pos ev true)) := by
      cases s.p.poolStep (k := k) (.event pos ev true) with
      | silent hstart _ =>
        unfold Part.startsAt at hstart
        dsimp only at hstart
        rw [if_pos ⟨rfl, hkind, heng⟩] at hstart
        contradiction
      | took _ _ hop _ _ htook =>
        cases hop
        exact htook
      | fired _ hop => contradiction
      | cold hop => contradiction
    have hbelow := hnext.below s.p.voiceAlloc htook.active
    have hp : (s.next k (.event pos ev true)).p = s.p.next k (.event pos ev true) := rfl
    rw [hp, htook.allocSeq, htook.allocClock] at hbelow
    unfold u64 at hbelow
    have hlt := Nat.mod_lt (s.p.allocClock + 1) (show 0 < 2 ^ 64 by decide)
    have hle := Nat.mod_le (s.p.allocClock + 1) (2 ^ 64)
    omega
  | fire pos =>
    intro hfires
    have hfired := Part.arpFireDue_fired hfires
    have hp : (s.next k (.fire pos)).p = s.p.arpFireDue k pos := rfl
    have hbelow := hnext.below 0 hfired.started
    rw [hp, hfired.allocSeq, hfired.allocClock] at hbelow
    refine ⟨hbelow, ?_⟩
    intro i hi hactive
    have hactive' := (hfired.active i hi).trans hactive
    have hage := hnext.age i 0 hactive' hfired.started
    rw [hp, hfired.allocSeq, hfired.allocSeq] at hage
    apply hage
    have hstart : s.p.startsAt k (.fire pos) = some 0 := by
      unfold Part.startsAt
      dsimp only
      rw [if_pos hfires]
    unfold Pool.next
    dsimp only
    rw [hstart, if_neg (by simpa using Ne.symm hi), if_pos rfl]
    exact h.since i hactive
  | post | panic | render | load | reset | cold => trivial

theorem Ordered.next_iff (h : Ordered s) : Ordered (s.next k op) ↔ s.Orderly k op :=
  ⟨h.orderly, h.next⟩

theorem Pool.foldl_p (ops : List PartOp) (s : Pool D)
    : (ops.foldl (Pool.next k) s).p = ops.foldl (Part.next k) s.p := by
  induction ops generalizing s with
  | nil => rfl
  | cons op ops ih => exact ih (s.next k op)

-- Whatever a device plays, each of its parts goes through the operations of a pool.
theorem pool_of_synth {init t : Synth D} {q : Fin nParts} {p : Part D}
    (hinit : init.e.parts q = p.voicesCold k) (h : Run (Synth.next k) free init t)
    : ∃ s, Run (Pool.next k) free (Pool.start k p) s ∧ s.p = t.e.parts q := by
  induction h with
  | start => exact ⟨Pool.start k p, .start, hinit.symm⟩
  | @step t op _ _ ih =>
    rcases ih with ⟨s, hrun, hs⟩
    cases op with
    | evt buf readable io =>
      rcases t.consumeEvt_part (k := k) buf readable io q with ⟨note, hpart⟩
      refine ⟨s.next k (.post note), .step _ hrun trivial, ?_⟩
      unfold Synth.next
      dsimp only
      rw [hpart, ← hs]
      rfl
    | segment slots n pos done =>
      rcases t.e.segment_part (k := k) slots n pos done q with ⟨rendered, seg, hpart⟩
      refine ⟨_, hrun.foldl (startOps q (dueAt t.e.evt.evq (u64 (pos + done))) (u64 (pos + done))
        ++ renderOps rendered seg (u64 (pos + done))), ?_⟩
      unfold Synth.next
      dsimp only
      rw [Pool.foldl_p, hpart, hs]

theorem poolLaw_of_orderly (p : Part D)
    (h : Run (Pool.next k) (Pool.Orderly k) (Pool.start k p) s) : PoolLaw s := by
  have hordered : Ordered s := Run.inv (Ordered.start k p) (fun s op hs hg => hs.next hg) h
  exact hordered.law

instance (k : Kernel D X) (s : Pool D) : (op : PartOp) → Decidable (s.Orderly k op)
  | .event _ ev routed => inferInstanceAs (Decidable
      (routed = true ∧ ev.kind = .noteOn ∧ s.p.arpEngaged = false → s.p.allocClock + 1 < 2 ^ 64))
  | .fire pos => inferInstanceAs (Decidable (s.p.arpFires k pos = true →
      (s.p.voices 0).allocSeq < s.p.allocClock ∧ ∀ i, i ≠ 0 → (s.p.voices i).active = true →
        (s.p.voices i).allocSeq < (s.p.voices 0).allocSeq))
  | .post _ | .panic | .render _ _ | .load _ | .reset | .cold => .isTrue trivial

-- The arp takes up the voice of the only note, and a chord follows.
def arpOnYoungest : List PartOp :=
  [.event 0 keyOn true, .event 0 setMode true, .event 0 play true, .event 0 (eventNow .noteOn 64 half) true,
    .fire 1, .event 2 (eventNow .transport 0 half) true, .event 2 keyOn true]

theorem poolLaw_arpOnYoungest
    : PoolLaw (arpOnYoungest.foldl (Pool.next countKernel) (Pool.start countKernel (Part.boot countKernel))) :=
  poolLaw_of_orderly (Part.boot countKernel) (Run.of_guarded arpOnYoungest .start (by decide +kernel))

-- The arp starts voice 0 of a cold pool; when it stops, the first note gets the same age.
def arpOnCold : List PartOp :=
  [.event 0 setMode true, .event 0 play true, .event 0 keyOn true, .fire 1,
    .event 2 (eventNow .transport 0 half) true, .event 2 (eventNow .noteOn 64 half) true]

theorem not_poolLaw_arpOnCold
    : ¬ ∀ s, Run (Pool.next countKernel) free (Pool.start countKernel (Part.boot countKernel)) s →
        PoolLaw s := by
  intro h
  have hlaw := h _ (Run.foldl arpOnCold .start)
  have hsame := hlaw.distinct 0 1 (by decide +kernel) (by decide +kernel) (by decide +kernel)
  contradiction

end Ordered

end Harp
