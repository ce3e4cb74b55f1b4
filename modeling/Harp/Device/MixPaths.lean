import Harp.Device.SlotState
import Harp.Lib.Magma

/-!
This module contains the order in which the two render paths add up the main mix. The main mix adds
every voice to the sum so far, the part outputs add up each part for itself first; as sample addition
need not be associative, the two agree only where no part but the first that sounds has more than one
voice.
-/

namespace Harp

open Magma

section Frames

variable {D X : Type} {k : Kernel D X} {n pos : Nat}

-- What one voice renders, wherever it is written.
def Part.voiceFrames (k : Kernel D X) (p : Part D) (vi : Fin nVoices) (n pos : Nat)
    : List (X × X) :=
  (p.engineRender k vi [] n pos false).2

def Part.poolVoice (k : Kernel D X) (n pos : Nat) (s : Part D × List (List (X × X)))
    (vi : Fin nVoices) : Part D × List (List (X × X)) :=
  if (s.1.voices vi).active then
    (s.1.voiceAfter k n pos vi, s.2 ++ [s.1.voiceFrames k vi n pos])
  else
    s

-- What the voices of a part render, one after the other.
def Part.poolFrames (k : Kernel D X) (p : Part D) (n pos : Nat) : List (List (X × X)) :=
  ((List.finRange nVoices).foldl (Part.poolVoice k n pos) (p, [])).2

def Kernel.addFrames (k : Kernel D X) : List (X × X) → List (X × X) → List (X × X) :=
  List.zipWith k.addFrame

-- The buffer after some voices: the first one writes it unless it is added to what is there.
def Kernel.written (k : Kernel D X) (out : List (X × X)) (accumulate : Bool)
    : List (List (X × X)) → List (X × X)
  | [] => out
  | x :: xs => xs.foldl k.addFrames (if accumulate then k.addFrames out x else x)

theorem Kernel.written_snoc (out : List (X × X)) (accumulate : Bool) (xs : List (List (X × X)))
    (x : List (X × X))
    : k.written out accumulate (xs ++ [x]) =
        if accumulate ∨ xs ≠ [] then k.addFrames (k.written out accumulate xs) x else x := by
  cases xs with
  | nil => simp [Kernel.written]
  | cons y ys => simp [Kernel.written]

theorem Part.engineRender_snd (p : Part D) (vi : Fin nVoices) (out : List (X × X))
    (accumulate : Bool)
    : (p.engineRender k vi out n pos accumulate).2 =
        if accumulate then k.addFrames out (p.voiceFrames k vi n pos)
        else p.voiceFrames k vi n pos := by
  rfl

-- The buffer as a function of the voices' frames.
theorem Part.renderPartVoices_snd (p : Part D) (out : List (X × X)) (accumulate : Bool)
    : (p.renderPartVoices k out n pos accumulate).2 =
        if p.poolFrames k n pos = [] ∧ accumulate = false then List.replicate n (k.zero, k.zero)
        else k.written out accumulate (p.poolFrames k n pos) := by
  have hfold : ∀ (vis : List (Fin nVoices)) (s : PoolOut D X) (t : Part D × List (List (X × X))),
      s.p = t.1 → s.wrote = !t.2.isEmpty → s.out = k.written out accumulate t.2 →
        (vis.foldl (PoolOut.voice k n pos accumulate) s).wrote
            = !(vis.foldl (Part.poolVoice k n pos) t).2.isEmpty ∧
          (vis.foldl (PoolOut.voice k n pos accumulate) s).out
            = k.written out accumulate (vis.foldl (Part.poolVoice k n pos) t).2 := by
    intro vis
    induction vis with
    | nil => exact fun s t _ hwrote hout => ⟨hwrote, hout⟩
    | cons vi vis ih =>
      intro s t hp hwrote hout
      rw [List.foldl_cons, List.foldl_cons]
      unfold PoolOut.voice Part.poolVoice
      rw [hp]
      by_cases hact : (t.1.voices vi).active
      . rw [if_pos hact, if_pos hact]
        apply ih
        . simp [Part.voiceAfter, hact, Part.voiceSubBlocks, Part.engineRender]
        . simp
        . dsimp only
          rw [Part.engineRender_snd, Kernel.written_snoc, hout, hwrote]
          cases t.2 <;> cases accumulate <;> simp
      . rw [if_neg hact, if_neg hact]
        exact ih s t hp hwrote hout
  have h := hfold (List.finRange nVoices) ⟨p, out, false⟩ (p, []) rfl rfl rfl
  unfold Part.renderPartVoices
  dsimp only
  rw [h.1, h.2]
  unfold Part.poolFrames
  cases accumulate <;> simp

theorem Part.subBlocks_length (vi : Fin nVoices) (s : Part D × List (X × X)) (m : Nat)
    : (((List.range m).map (smoothSubblock * ·)).foldl (Part.subBlock k vi n pos) s).2.length =
        s.2.length + min n (smoothSubblock * m) := by
  induction m with
  | zero => simp
  | succ m ih =>
    rw [List.range_succ, List.map_append, List.foldl_append, List.map_singleton, List.foldl_cons,
      List.foldl_nil]
    unfold Part.subBlock at ih ⊢
    dsimp only at ih ⊢
    rw [List.length_append, ih, List.length_map, List.length_range]
    unfold smoothSubblock
    omega

theorem Part.voiceFrames_length (p : Part D) (vi : Fin nVoices)
    : (p.voiceFrames k vi n pos).length = n := by
  unfold Part.voiceFrames Part.engineRender
  dsimp only
  rw [if_neg (by decide), Part.subBlocks_length]
  unfold smoothSubblock
  simp only [List.length_nil]
  omega

def Part.sounding (p : Part D) : List (Fin nVoices) :=
  (List.finRange nVoices).filter (fun vi => (p.voices vi).active)

-- Rendering a voice does not change whether a later one sounds.
theorem Part.poolFrames_length (p : Part D) : (p.poolFrames k n pos).length = p.sounding.length := by
  have hfold : ∀ (vis : List (Fin nVoices)) (t : Part D × List (List (X × X))), vis.Nodup →
      (vis.foldl (Part.poolVoice k n pos) t).2.length =
        t.2.length + (vis.filter (fun vi => (t.1.voices vi).active)).length := by
    intro vis
    induction vis with
    | nil => exact fun t _ => rfl
    | cons vi vis ih =>
      intro t hvis
      rw [List.nodup_cons] at hvis
      rw [List.foldl_cons, ih _ hvis.2, List.filter_cons]
      unfold Part.poolVoice
      by_cases hact : (t.1.voices vi).active
      . have hsame : vis.filter (fun i => ((t.1.voiceAfter k n pos vi).voices i).active)
            = vis.filter (fun i => (t.1.voices i).active) := by
          apply List.filter_congr
          intro i hi
          have hne : i ≠ vi := fun heq => hvis.1 (heq ▸ hi)
          rw [(Part.voiceAfter_other hne t.1).1]
        rw [if_pos hact, if_pos hact, hsame]
        simp
        omega
      . rw [if_neg hact, if_neg hact]
  unfold Part.poolFrames Part.sounding
  rw [hfold _ _ (List.nodup_finRange nVoices)]
  simp

theorem Part.poolFrames_of_not_partActive {p : Part D} (h : p.partActive k = false)
    : p.poolFrames k n pos = [] := by
  rw [← List.length_eq_zero_iff, Part.poolFrames_length, List.length_eq_zero_iff]
  unfold Part.sounding
  rw [List.filter_eq_nil_iff]
  intro vi _
  simp [Part.idle_of_not_partActive h vi]

theorem Part.mem_poolFrames_length (p : Part D) {l : List (X × X)} (h : l ∈ p.poolFrames k n pos)
    : l.length = n := by
  have hfold : ∀ (vis : List (Fin nVoices)) (t : Part D × List (List (X × X))),
      (∀ l ∈ t.2, l.length = n) →
        ∀ l ∈ (vis.foldl (Part.poolVoice k n pos) t).2, l.length = n := by
    intro vis
    induction vis with
    | nil => exact fun t ht => ht
    | cons vi vis ih =>
      intro t ht
      apply ih
      unfold Part.poolVoice
      split
      next =>
        intro l hl
        rw [List.mem_append, List.mem_singleton] at hl
        cases hl with
        | inl hl => exact ht l hl
        | inr hl => rw [hl, Part.voiceFrames_length]
      next => exact ht
  exact hfold _ _ (by simp) l h

end Frames

section Sums

variable {D X : Type} {k : Kernel D X}

def Kernel.frameAt (k : Kernel D X) (i : Nat) (l : List (X × X)) : X × X :=
  l.getD i (k.zero, k.zero)

theorem Kernel.addFrames_length {n : Nat} {l l' : List (X × X)} (h : l.length = n)
    (h' : l'.length = n) : (k.addFrames l l').length = n := by
  simp [Kernel.addFrames, h, h']

theorem Kernel.frameAt_addFrames {n i : Nat} (hi : i < n) {l l' : List (X × X)} (h : l.length = n)
    (h' : l'.length = n)
    : k.frameAt i (k.addFrames l l') = k.addFrame (k.frameAt i l) (k.frameAt i l') := by
  have hl : i < l.length := by omega
  have hl' : i < l'.length := by omega
  simp [Kernel.frameAt, Kernel.addFrames, hl, hl']

-- Adding up buffers adds up their frames.
theorem Kernel.frameAt_foldl {n : Nat} {ls : List (List (X × X))} (hls : ∀ l ∈ ls, l.length = n)
    {acc : List (X × X)} (hacc : acc.length = n)
    : (ls.foldl k.addFrames acc).length = n ∧
      ∀ i < n, k.frameAt i (ls.foldl k.addFrames acc) =
        (ls.map (k.frameAt i)).foldl k.addFrame (k.frameAt i acc) := by
  induction ls generalizing acc with
  | nil => exact ⟨hacc, fun _ _ => rfl⟩
  | cons l ls ih =>
    rw [List.forall_mem_cons] at hls
    rcases ih hls.2 (Kernel.addFrames_length hacc hls.1) with ⟨hlen, hframe⟩
    refine ⟨hlen, ?_⟩
    intro i hi
    rw [List.foldl_cons, hframe i hi, Kernel.frameAt_addFrames hi hacc hls.1]
    rfl

theorem Kernel.unital_addFrame (h : Unital k.add k.zero) : Unital k.addFrame (k.zero, k.zero) := by
  constructor
  . intro x
    unfold Kernel.addFrame
    rw [h.zero_add, h.zero_add]
  . intro x
    unfold Kernel.addFrame
    rw [h.add_zero, h.add_zero]

-- The samples of the voices of a part, at one place of the segment.
def Part.samplesAt (k : Kernel D X) (n pos i : Nat) (p : Part D) : List (X × X) :=
  (p.poolFrames k n pos).map (k.frameAt i)

variable {n pos : Nat}

theorem Part.renderPartVoices_alone (h : Unital k.add k.zero) (p : Part D) (out : List (X × X))
    (n pos : Nat)
    : (p.renderPartVoices k out n pos false).2.length = n ∧
      ∀ i < n, k.frameAt i (p.renderPartVoices k out n pos false).2 =
        (p.samplesAt k n pos i).foldl k.addFrame (k.zero, k.zero) := by
  rw [Part.renderPartVoices_snd]
  unfold Part.samplesAt
  have hlen : ∀ l ∈ p.poolFrames k n pos, l.length = n := fun l => p.mem_poolFrames_length
  cases hframes : p.poolFrames k n pos with
  | nil =>
    refine ⟨by simp, ?_⟩
    intro i hi
    simp [Kernel.frameAt, hi]
  | cons l ls =>
    rw [hframes, List.forall_mem_cons] at hlen
    rcases Kernel.frameAt_foldl (k := k) hlen.2 hlen.1 with ⟨hsum, hframe⟩
    refine ⟨by simpa [Kernel.written] using hsum, ?_⟩
    intro i hi
    rw [List.map_cons, List.foldl_cons, (Kernel.unital_addFrame h).zero_add, ← hframe i hi]
    simp [Kernel.written]

theorem Part.renderPartVoices_onto (p : Part D) {out : List (X × X)} (hout : out.length = n)
    (pos : Nat)
    : (p.renderPartVoices k out n pos true).2.length = n ∧
      ∀ i < n, k.frameAt i (p.renderPartVoices k out n pos true).2 =
        (p.samplesAt k n pos i).foldl k.addFrame (k.frameAt i out) := by
  have hwritten : (p.renderPartVoices k out n pos true).2 =
      (p.poolFrames k n pos).foldl k.addFrames out := by
    rw [Part.renderPartVoices_snd]
    cases p.poolFrames k n pos <;> simp [Kernel.written]
  rw [hwritten]
  exact Kernel.frameAt_foldl (fun l => p.mem_poolFrames_length) hout

theorem Engine.setPart_ne {e : Engine D} {q i : Fin nParts} (hi : i ≠ q) (p : Part D)
    : (e.setPart q p).parts i = e.parts i := by
  simp [Engine.setPart, hi]

-- A loop over parts that changes no part but the one it is at sees each as it was at the start.
theorem Engine.foldParts_inv {S : Type} (proj : S → Engine D) {f : S → Fin nParts → S}
    (e : Engine D) (I : List (Fin nParts) → S → Prop)
    (hkeep : ∀ s q i, i ≠ q → (proj (f s q)).parts i = (proj s).parts i)
    (hstep : ∀ done q s, (proj s).parts q = e.parts q → I done s → I (done ++ [q]) (f s q))
    {qs : List (Fin nParts)} (hqs : qs.Nodup) (done : List (Fin nParts)) {s : S}
    (hsame : ∀ q ∈ qs, (proj s).parts q = e.parts q) (h : I done s)
    : I (done ++ qs) (qs.foldl f s) := by
  induction qs generalizing done s with
  | nil => simpa using h
  | cons q qs ih =>
    rw [List.nodup_cons] at hqs
    rw [List.forall_mem_cons] at hsame
    have hrest := ih hqs.2 (done ++ [q]) ?_ (hstep done q s hsame.1 h)
    . simpa using hrest
    . intro i hi
      rw [hkeep s q i (fun heq => hqs.1 (heq ▸ hi)), hsame.2 i hi]

-- The samples of a segment, part by part.
def Engine.samplesAt (k : Kernel D X) (e : Engine D) (qs : List (Fin nParts)) (n pos i : Nat)
    : List (List (X × X)) :=
  qs.map (fun q => (e.parts q).samplesAt k n pos i)

theorem Engine.samplesAt_snoc (e : Engine D) (qs : List (Fin nParts)) (q : Fin nParts) (i : Nat)
    : e.samplesAt k (qs ++ [q]) n pos i =
        e.samplesAt k qs n pos i ++ [(e.parts q).samplesAt k n pos i] := by
  simp [Engine.samplesAt]

theorem Part.samplesAt_idle {p : Part D} (h : p.partActive k = false) (i : Nat)
    : p.samplesAt k n pos i = [] := by
  unfold Part.samplesAt
  rw [Part.poolFrames_of_not_partActive h, List.map_nil]

theorem finRange_parts
    : List.finRange nParts = [0] ++ (List.finRange nParts).filter (· ≠ 0) := by
  decide

theorem nodup_otherParts : ((List.finRange nParts).filter (· ≠ 0)).Nodup :=
  (List.nodup_finRange nParts).filter _

theorem Engine.mixSegment_snd (h : Unital k.add k.zero) (e : Engine D) (n pos : Nat)
    : (e.mixSegment k n pos).2.length = n ∧
      ∀ i < n, k.frameAt i (e.mixSegment k n pos).2 =
        flat k.addFrame (k.zero, k.zero) (e.samplesAt k (List.finRange nParts) n pos i) := by
  rcases (e.parts 0).renderPartVoices_alone h [] n pos with ⟨hlen, hframe⟩
  unfold Engine.mixSegment
  rw [finRange_parts]
  refine Engine.foldParts_inv Prod.fst e
    (fun done s => s.2.length = n ∧ ∀ i < n, k.frameAt i s.2 =
      flat k.addFrame (k.zero, k.zero) (e.samplesAt k done n pos i))
    ?_ ?_ nodup_otherParts [0] ?_ ?_
  . intro s q i hi
    dsimp only
    split
    . apply Engine.setPart_ne hi
    . rfl
  . intro done q s hsame hinv
    dsimp only
    split
    . rcases (s.1.parts q).renderPartVoices_onto (k := k) hinv.1 pos with ⟨hlen', hframe'⟩
      refine ⟨hlen', ?_⟩
      intro i hi
      rw [hframe' i hi, hinv.2 i hi, Engine.samplesAt_snoc, flat_snoc, hsame]
    next hact =>
      have hidle : (e.parts q).partActive k = false := by
        rw [← hsame]
        simpa using hact
      refine ⟨hinv.1, ?_⟩
      intro i hi
      rw [hinv.2 i hi, Engine.samplesAt_snoc, flat_snoc, Part.samplesAt_idle hidle, List.foldl_nil]
  . intro q hq
    apply Engine.setPart_ne
    simpa using (List.mem_filter.mp hq).2
  . refine ⟨hlen, ?_⟩
    intro i hi
    rw [hframe i hi]
    simp [Engine.samplesAt, flat]

theorem Engine.slotSegment_mix (h : Unital k.add k.zero) (e : Engine D) {slots : List OutSlot}
    (hmain : needMain slots) (n pos : Nat)
    : ∃ mix, ((List.finRange nParts).foldl (SlotOut.part k slots n pos)
          ⟨e, none, fun _ => []⟩).mix = some mix ∧ mix.length = n ∧
      ∀ i < n, k.frameAt i mix =
        nested k.addFrame (k.zero, k.zero) (k.zero, k.zero)
          (e.samplesAt k (List.finRange nParts) n pos i) := by
  have hunit := Kernel.unital_addFrame h
  rcases (e.parts 0).renderPartVoices_alone h [] n pos with ⟨hlen, hframe⟩
  rw [finRange_parts, List.foldl_append, List.foldl_cons, List.foldl_nil]
  refine Engine.foldParts_inv SlotOut.e e
    (fun done s => ∃ mix, s.mix = some mix ∧ mix.length = n ∧ ∀ i < n, k.frameAt i mix =
      nested k.addFrame (k.zero, k.zero) (k.zero, k.zero) (e.samplesAt k done n pos i))
    ?_ ?_ nodup_otherParts [0] ?_ ?_
  . intro s q i hi
    unfold SlotOut.part
    dsimp only
    split
    . rfl
    . apply Engine.setPart_ne hi
  . intro done q s hsame hinv
    rcases hinv with ⟨mix, hmix, hlen', hframe'⟩
    by_cases hact : q = 0 ∨ (s.e.parts q).partActive k
    . rcases (s.e.parts q).renderPartVoices_alone h [] n pos with ⟨hlen₁, hframe₁⟩
      have hpart : (SlotOut.part k slots n pos s q).mix =
          some (k.addFrames mix ((s.e.parts q).renderPartVoices k [] n pos false).2) := by
        simp [SlotOut.part, hmain, hact, hmix, Kernel.addFrames]
      refine ⟨_, hpart, Kernel.addFrames_length hlen' hlen₁, ?_⟩
      intro i hi
      rw [Kernel.frameAt_addFrames hi hlen' hlen₁, hframe' i hi, hframe₁ i hi,
        Engine.samplesAt_snoc, nested_snoc, hsame]
    . have hidle : (e.parts q).partActive k = false := by
        rw [← hsame]
        simpa using fun ha => hact (.inr ha)
      have hpart : (SlotOut.part k slots n pos s q).mix = some mix := by
        unfold SlotOut.part
        dsimp only
        split
        . exact hmix
        . simpa [hact] using hmix
      refine ⟨_, hpart, hlen', ?_⟩
      intro i hi
      rw [hframe' i hi, Engine.samplesAt_snoc, nested_snoc, Part.samplesAt_idle hidle,
        List.foldl_nil, hunit.add_zero]
  . intro q hq
    have hne : q ≠ 0 := by simpa using (List.mem_filter.mp hq).2
    unfold SlotOut.part
    dsimp only
    split
    . rfl
    . apply Engine.setPart_ne hne
  . refine ⟨_, by simp [SlotOut.part, hmain], hlen, ?_⟩
    intro i hi
    rw [hframe i hi]
    simp [Engine.samplesAt, nested, hunit.zero_add]

end Sums

section Paths

variable {D X : Type} {k : Kernel D X} {n pos : Nat}

-- Of the parts that sound, only the first has more than one voice.
def Engine.Solo (e : Engine D) : Prop :=
  ∀ p q : Fin nParts, p < q → (e.parts p).sounding = [] ∨ (e.parts q).sounding.length ≤ 1

instance decidableSolo (e : Engine D) : Decidable e.Solo :=
  inferInstanceAs (Decidable (∀ p q : Fin nParts, p < q →
    (e.parts p).sounding = [] ∨ (e.parts q).sounding.length ≤ 1))

theorem Engine.oneEach_samplesAt (e : Engine D) (i : Nat)
    : OneEach (e.samplesAt k (List.finRange nParts) n pos i) ↔ e.Solo := by
  have hlen : ∀ q, ((e.parts q).samplesAt k n pos i).length = (e.parts q).sounding.length := by
    intro q
    unfold Part.samplesAt
    rw [List.length_map, Part.poolFrames_length]
  unfold OneEach Engine.samplesAt Engine.Solo
  rw [List.pairwise_map, ← List.ofFn_id, List.pairwise_ofFn]
  simp only [id, ← List.length_eq_zero_iff, hlen]

-- One side of a stereo frame; the main mix is slots 0 and 1.
def OutSlot.side (slot : OutSlot) (x : X × X) : X :=
  if slot.val % 2 = 1 then x.2 else x.1

theorem OutSlot.side_addFrame (slot : OutSlot) (x y : X × X)
    : slot.side (k.addFrame x y) = k.add (slot.side x) (slot.side y) := by
  unfold OutSlot.side
  split <;> rfl

-- The samples of one requested slot.
def column (k : Kernel D X) (c : Nat) (rows : List (List X)) : List X :=
  rows.map (fun row => row.getD c k.zero)

variable {slots : List OutSlot} {c : Nat} {slot : OutSlot}

theorem Engine.slotSegment_column (h : Unital k.add k.zero) (e : Engine D)
    (hmain : needMain slots) (hc : slots[c]? = some slot) (hslot : slot.val < 2)
    : column k c (e.slotSegment k slots n pos).2 = (List.range n).map (fun i =>
        slot.side (nested k.addFrame (k.zero, k.zero) (k.zero, k.zero)
          (e.samplesAt k (List.finRange nParts) n pos i))) := by
  rcases e.slotSegment_mix h hmain n pos with ⟨mix, hmix, hlen, hframe⟩
  unfold Engine.slotSegment column
  dsimp only
  rw [List.map_map]
  apply List.map_congr_left
  intro i hi
  rw [List.mem_range] at hi
  rw [← hframe i hi]
  simp [SlotOut.sample, hc, hslot, hmix, Kernel.frameAt, OutSlot.side]

theorem Engine.mixSegment_side (h : Unital k.add k.zero) (e : Engine D)
    : (e.mixSegment k n pos).2.map slot.side = (List.range n).map (fun i =>
        slot.side (flat k.addFrame (k.zero, k.zero)
          (e.samplesAt k (List.finRange nParts) n pos i))) := by
  rcases e.mixSegment_snd h n pos with ⟨hlen, hframe⟩
  apply List.ext_getElem
  . simp [hlen]
  . intro i hi _
    rw [List.length_map, hlen] at hi
    have hi' : i < (e.mixSegment k n pos).2.length := by omega
    simp only [List.getElem_map, List.getElem_range]
    rw [← hframe i hi]
    simp [Kernel.frameAt, hi']

-- A segment of which the two paths make the same column.
def SegSame (k : Kernel D X) (slots : List OutSlot) (c : Nat) (slot : OutSlot) (seg cur : Nat)
    (e : Engine D) : Prop :=
  column k c (e.slotSegment k slots seg cur).2 = (e.mixSegment k seg cur).2.map slot.side

theorem SegSame.of_solo (h : Unital k.add k.zero) {e : Engine D} (hmain : needMain slots)
    (hc : slots[c]? = some slot) (hslot : slot.val < 2) (hsolo : e.Solo)
    : SegSame k slots c slot n pos e := by
  unfold SegSame
  rw [e.slotSegment_column h hmain hc hslot, e.mixSegment_side h]
  apply List.map_congr_left
  intro i _
  rw [nested_eq_flat (Kernel.unital_addFrame h) ((e.oneEach_samplesAt i).mpr hsolo)]

end Paths

section Sampled

variable {D A X : Type}

/--
The kernel with its samples read in another number system.
-/
def Kernel.sampled (k : Kernel D A) (add : X → X → X) (zero : X) (f : A → X) : Kernel D X where
  toArpClock := k.toArpClock
  zeroed := k.zeroed
  env := k.env
  land := k.land
  subBlock v pval len :=
    let r := k.subBlock v pval len
    (r.1, fun i => (f (r.2 i).1, f (r.2 i).2))
  add := add
  zero := zero
  sub := k.sub
  line := k.line

variable {k : Kernel D A} {add : X → X → X} {zero : X} {f : A → X} {n pos : Nat}

theorem Part.subBlocks_sampled (vi : Fin nVoices) (starts : List Nat) (p : Part D)
    (out : List (A × A)) (out' : List (X × X))
    : (starts.foldl (Part.subBlock (k.sampled add zero f) vi n pos) (p, out')).1 =
        (starts.foldl (Part.subBlock k vi n pos) (p, out)).1 := by
  induction starts generalizing p out out' with
  | nil => rfl
  | cons i starts ih =>
    rw [List.foldl_cons, List.foldl_cons]
    exact ih _ _ _

theorem Part.poolAfter_sampled (p : Part D)
    : p.poolAfter (k.sampled add zero f) n pos = p.poolAfter k n pos := by
  have hvoice : Part.voiceAfter (k.sampled add zero f) n pos = Part.voiceAfter k n pos := by
    funext p vi
    unfold Part.voiceAfter Part.voiceSubBlocks Part.engineRender
    dsimp only
    rw [Part.subBlocks_sampled vi _ _ []]
    rfl
  unfold Part.poolAfter
  rw [hvoice]

theorem Engine.segStart_sampled (e : Engine D) (cur limit : Nat)
    : e.segStart (k.sampled add zero f) cur limit = e.segStart k cur limit := by
  rfl

theorem Engine.mixSegment_sampled (e : Engine D)
    : (e.mixSegment (k.sampled add zero f) n pos).1 = (e.mixSegment k n pos).1 := by
  rw [Engine.mixSegment_fst, Engine.mixSegment_fst]
  simp only [Part.poolAfter_sampled]
  rfl

theorem Block.segments_sampled (fuel : Nat) {b : Block D (List (A × A))}
    {b' : Block D (List (X × X))} (he : b'.e = b.e) (hdone : b'.done = b.done)
    : Block.segments (k.sampled add zero f) pos n fuel b' = Block.segments k pos n fuel b := by
  induction fuel generalizing b b' with
  | zero => rfl
  | succ fuel ih =>
    rw [Block.segments_succ, Block.segments_succ, he, hdone, Engine.segStart_sampled]
    split
    . congr 1
      apply ih
      . unfold Block.turn
        dsimp only
        rw [he, hdone, Engine.segStart_sampled, Engine.mixSegment_sampled]
      . unfold Block.turn
        dsimp only
        rw [he, hdone, Engine.segStart_sampled]
    . rfl

theorem Engine.segments_sampled (e : Engine D)
    : e.segments (k.sampled add zero f) n pos = e.segments k n pos :=
  Block.segments_sampled n rfl rfl

theorem Part.mem_voiceFrames_sampled {a : X} (p : Part D) (vi : Fin nVoices) {x : X × X}
    (h : x ∈ p.voiceFrames (k.sampled add zero (fun _ => a)) vi n pos) : x = (a, a) := by
  have hfold : ∀ (starts : List Nat) (s : Part D × List (X × X)), (∀ x ∈ s.2, x = (a, a)) →
      ∀ x ∈ (starts.foldl (Part.subBlock (k.sampled add zero (fun _ => a)) vi n pos) s).2,
        x = (a, a) := by
    intro starts
    induction starts with
    | nil => exact fun s hs => hs
    | cons i starts ih =>
      intro s hs
      apply ih
      unfold Part.subBlock
      dsimp only
      intro x hx
      rw [List.mem_append, List.mem_map] at hx
      cases hx with
      | inl hx => exact hs x hx
      | inr hx =>
        rcases hx with ⟨j, _, hj⟩
        exact hj.symm
  exact hfold _ _ (by simp) x h

theorem Part.samplesAt_sampled {a : X} {i : Nat} (hi : i < n) (p : Part D) {x : X × X}
    (h : x ∈ p.samplesAt (k.sampled add zero (fun _ => a)) n pos i) : x = (a, a) := by
  have hfold : ∀ (vis : List (Fin nVoices)) (t : Part D × List (List (X × X))),
      (∀ l ∈ t.2, ∀ x ∈ l, x = (a, a)) →
        ∀ l ∈ (vis.foldl (Part.poolVoice (k.sampled add zero (fun _ => a)) n pos) t).2,
          ∀ x ∈ l, x = (a, a) := by
    intro vis
    induction vis with
    | nil => exact fun t ht => ht
    | cons vi vis ih =>
      intro t ht
      apply ih
      unfold Part.poolVoice
      split
      next =>
        intro l hl
        rw [List.mem_append, List.mem_singleton] at hl
        cases hl with
        | inl hl => exact ht l hl
        | inr hl =>
          rw [hl]
          exact fun x => t.1.mem_voiceFrames_sampled vi
      next => exact ht
  unfold Part.samplesAt at h
  rw [List.mem_map] at h
  rcases h with ⟨l, hl, hx⟩
  have hlen : l.length = n := p.mem_poolFrames_length hl
  have hil : i < l.length := by omega
  apply hfold _ (p, []) (by simp) l hl
  rw [← hx]
  simp [Kernel.frameAt, hil]

variable {slots : List OutSlot} {c : Nat} {slot : OutSlot}

-- The kernel whose samples are all one term of the magma that tells the sums apart.
def Kernel.tallied (k : Kernel D A) : Kernel D Tally :=
  k.sampled Tally.add Tally.none (fun _ => Tally.one)

theorem SegSame.solo {e : Engine D} (hmain : needMain slots) (hc : slots[c]? = some slot)
    (hslot : slot.val < 2) (hn : 0 < n) (h : SegSame k.tallied slots c slot n pos e)
    : e.Solo := by
  have hunit : Unital k.tallied.add k.tallied.zero := Tally.unital
  unfold SegSame at h
  rw [e.slotSegment_column hunit hmain hc hslot, e.mixSegment_side hunit] at h
  have hfirst := List.map_inj_left.mp h 0 (List.mem_range.mpr hn)
  rw [nested_map slot.side_addFrame, flat_map slot.side_addFrame] at hfirst
  have hones : ∀ xs ∈ (e.samplesAt k.tallied (List.finRange nParts) n pos 0).map
      (List.map slot.side), ∀ x ∈ xs, x = Tally.one := by
    intro xs hxs x hx
    unfold Engine.samplesAt at hxs
    rw [List.map_map, List.mem_map] at hxs
    rcases hxs with ⟨q, _, rfl⟩
    rw [Function.comp_apply, List.mem_map] at hx
    rcases hx with ⟨y, hy, rfl⟩
    rw [Part.samplesAt_sampled hn _ hy]
    unfold OutSlot.side
    split <;> rfl
  have hzero : slot.side (k.tallied.zero, k.tallied.zero) = Tally.none := by
    unfold OutSlot.side
    split <;> rfl
  rw [hzero] at hfirst
  have hone := Tally.oneEach_of_nested_eq_flat hones hfirst
  exact (e.oneEach_samplesAt 0).mp ((oneEach_map _).mp hone)

end Sampled

section Blocks

variable {D A X : Type} {k : Kernel D X} {n pos : Nat} {slots : List OutSlot} {c : Nat}
  {slot : OutSlot}

theorem Block.turn_agree {b : Block D (List (X × X))} {b' : Block D (List (List X))}
    (hmain : needMain slots) (he : b'.e = b.e) (hdone : b'.done = b.done) (n pos : Nat)
    : (b'.turn k (Engine.slotSegment k slots) (· ++ ·) pos n).e =
          (b.turn k (Engine.mixSegment k) (· ++ ·) pos n).e ∧
        (b'.turn k (Engine.slotSegment k slots) (· ++ ·) pos n).done =
          (b.turn k (Engine.mixSegment k) (· ++ ·) pos n).done := by
  unfold Block.turn
  dsimp only
  rw [he, hdone]
  exact ⟨Engine.slotSegment_eq (.inl hmain) _ _, rfl⟩

-- The states after a turn and the segment it has rendered.
theorem Block.turn_column {b : Block D (List (X × X))} {b' : Block D (List (List X))}
    (h : Unital k.add k.zero) (hmain : needMain slots) (hc : slots[c]? = some slot)
    (hslot : slot.val < 2) (he : b'.e = b.e) (hdone : b'.done = b.done) (hlt : b.done < n)
    (hlen : (column k c b'.out).length = (b.out.map slot.side).length) (pos : Nat)
    : ∃ seg cur, 0 < seg ∧
        (column k c (b'.turn k (Engine.slotSegment k slots) (· ++ ·) pos n).out).length =
          ((b.turn k (Engine.mixSegment k) (· ++ ·) pos n).out.map slot.side).length ∧
        (column k c (b'.turn k (Engine.slotSegment k slots) (· ++ ·) pos n).out =
            (b.turn k (Engine.mixSegment k) (· ++ ·) pos n).out.map slot.side ↔
          column k c b'.out = b.out.map slot.side ∧
            SegSame k slots c slot seg cur
              (b.e.segStart k (u64 (pos + b.done)) (u64 (pos + n))).1) := by
  have hprog := segLen_progress
    (b.e.segStart k (u64 (pos + b.done)) (u64 (pos + n))).2 (u64 (pos + b.done)) hlt
  refine ⟨_, u64 (pos + b.done), hprog.1, ?_⟩
  unfold Block.turn
  dsimp only
  rw [he, hdone]
  generalize (b.e.segStart k (u64 (pos + b.done)) (u64 (pos + n))).1 = e
  generalize segLen _ (u64 (pos + b.done)) b.done n = seg
  have hcol : ∀ xs ys : List (List X), column k c (xs ++ ys) = column k c xs ++ column k c ys := by
    intro xs ys
    unfold column
    rw [List.map_append]
  have hseg : (column k c (e.slotSegment k slots seg (u64 (pos + b.done))).2).length = seg := by
    rw [e.slotSegment_column h hmain hc hslot, List.length_map, List.length_range]
  have hmix : ((e.mixSegment k seg (u64 (pos + b.done))).2.map slot.side).length = seg := by
    rw [e.mixSegment_side h, List.length_map, List.length_range]
  rw [hcol, List.map_append, List.length_append, List.length_append, hseg, hmix, hlen]
  refine ⟨rfl, ?_, ?_⟩
  . intro heq
    exact List.append_inj heq hlen
  . rintro ⟨hout, hsame⟩
    unfold SegSame at hsame
    rw [hout, hsame]

-- Segments without a second chord make the same columns.
theorem Block.loop_column (h : Unital k.add k.zero) (hmain : needMain slots)
    (hc : slots[c]? = some slot) (hslot : slot.val < 2) (fuel : Nat)
    {b : Block D (List (X × X))} {b' : Block D (List (List X))} (he : b'.e = b.e)
    (hdone : b'.done = b.done) (hout : column k c b'.out = b.out.map slot.side)
    (hsolo : ∀ e ∈ Block.segments k pos n fuel b, e.Solo)
    : column k c (Block.loop k (Engine.slotSegment k slots) (· ++ ·) pos n fuel b').out =
        (Block.loop k (Engine.mixSegment k) (· ++ ·) pos n fuel b).out.map slot.side := by
  induction fuel generalizing b b' with
  | zero => exact hout
  | succ fuel ih =>
    rw [Block.segments_succ] at hsolo
    unfold Block.loop
    rw [hdone]
    by_cases hlt : b.done < n
    . rw [if_pos hlt, List.forall_mem_cons] at hsolo
      rw [if_pos hlt, if_pos hlt]
      rcases Block.turn_agree (k := k) hmain he hdone n pos with ⟨he', hdone'⟩
      rcases Block.turn_column h hmain hc hslot he hdone hlt (by rw [hout]) pos
        with ⟨seg, cur, _, _, hturn⟩
      apply ih he' hdone' _ hsolo.2
      rw [hturn]
      exact ⟨hout, SegSame.of_solo h hmain hc hslot hsolo.1⟩
    . rw [if_neg hlt, if_neg hlt]
      exact hout

end Blocks

section Tallied

variable {D A : Type} {k : Kernel D A} {n pos : Nat} {slots : List OutSlot} {c : Nat}
  {slot : OutSlot}

-- With the samples tallied, the same columns mean segments without a second chord.
theorem Block.solo_of_column (hmain : needMain slots) (hc : slots[c]? = some slot)
    (hslot : slot.val < 2) (fuel : Nat) {b : Block D (List (Tally × Tally))}
    {b' : Block D (List (List Tally))} (he : b'.e = b.e) (hdone : b'.done = b.done)
    (hlen : (column k.tallied c b'.out).length = (b.out.map slot.side).length)
    (h : column k.tallied c
          (Block.loop k.tallied (Engine.slotSegment k.tallied slots) (· ++ ·) pos n fuel b').out =
        (Block.loop k.tallied (Engine.mixSegment k.tallied) (· ++ ·) pos n fuel b).out.map
          slot.side)
    : column k.tallied c b'.out = b.out.map slot.side ∧
      ∀ e ∈ Block.segments k.tallied pos n fuel b, e.Solo := by
  induction fuel generalizing b b' with
  | zero => exact ⟨h, by simp [Block.segments, Block.starts]⟩
  | succ fuel ih =>
    rw [Block.segments_succ]
    unfold Block.loop at h
    rw [hdone] at h
    by_cases hlt : b.done < n
    . rw [if_pos hlt, if_pos hlt] at h
      rw [if_pos hlt, List.forall_mem_cons]
      rcases Block.turn_agree (k := k.tallied) hmain he hdone n pos
        with ⟨he', hdone'⟩
      rcases Block.turn_column (k := k.tallied) Tally.unital hmain hc hslot he hdone hlt hlen pos
        with ⟨seg, cur, hseg, hlen', hturn⟩
      rcases ih he' hdone' hlen' h with ⟨hout, hrest⟩
      rcases hturn.mp hout with ⟨hfirst, hsame⟩
      exact ⟨hfirst, SegSame.solo hmain hc hslot hseg hsame, hrest⟩
    . rw [if_neg hlt, if_neg hlt] at h
      rw [if_neg hlt]
      exact ⟨h, by simp⟩

/--
The columns of slots 0 and 1 are the main mix, as the same additions: in every number system with a
unit for its addition, whatever the samples are in it.
-/
def MixSame (k : Kernel D A) (e : Engine D) (slots : List OutSlot) (n pos : Nat) : Prop :=
  ∀ (X : Type) (add : X → X → X) (zero : X) (f : A → X), Unital add zero →
    ∀ (c : Nat) (slot : OutSlot), slots[c]? = some slot → slot.val < 2 →
      let k' := k.sampled add zero f
      column k' c (e.renderPartSlots k' slots n pos).2 =
        (e.renderWithEvents k' n pos).2.map slot.side

theorem mixSame_iff_solo (k : Kernel D A) (e : Engine D) {slots : List OutSlot}
    (hmain : needMain slots) (n pos : Nat)
    : MixSame k e slots n pos ↔ ∀ e' ∈ e.segments k n pos, e'.Solo := by
  constructor
  . intro h
    have hmem := hmain
    unfold needMain at hmem
    rw [List.any_eq_true] at hmem
    rcases hmem with ⟨slot, hmem, hslot⟩
    rw [decide_eq_true_eq] at hslot
    rcases List.mem_iff_getElem?.mp hmem with ⟨c, hc⟩
    have hsame := h Tally Tally.add Tally.none (fun _ => Tally.one) Tally.unital c slot hc hslot
    have hsegs : ∀ e' ∈ e.segments k.tallied n pos, e'.Solo :=
      (Block.solo_of_column (k := k) hmain hc hslot n rfl rfl rfl hsame).2
    unfold Kernel.tallied at hsegs
    rw [e.segments_sampled] at hsegs
    exact hsegs
  . intro h X add zero f hunit c slot hc hslot
    have hsegs : ∀ e' ∈ e.segments (k.sampled add zero f) n pos, e'.Solo := by
      rw [e.segments_sampled]
      exact h
    exact Block.loop_column (k := k.sampled add zero f) hunit hmain hc hslot n rfl rfl rfl hsegs

theorem mixSame_oneVoice
    : needMain [0, 1, 4, 5] ∧ MixSame countKernel noteQueued [0, 1, 4, 5] 32 0 := by
  refine ⟨by decide, ?_⟩
  rw [mixSame_iff_solo countKernel noteQueued (by decide)]
  decide +kernel

-- A note for part 0 and a chord of two for part 1, due at once.
def chordQueued : Engine Nat :=
  { Engine.boot countKernel with
    evt := { EvtState.fresh with evq := [
      ⟨0, .noteOn, 48, half, 0, Ieee.Fp.ofBits 0, 0, 0⟩,
      ⟨0, .noteOn, 60, half, 0, Ieee.Fp.ofBits 0, 1, 0⟩,
      ⟨0, .noteOn, 64, half, 0, Ieee.Fp.ofBits 0, 1, 0⟩] } }

theorem not_mixSame_chord
    : needMain [0, 1, 4, 5] ∧ ¬ MixSame countKernel chordQueued [0, 1, 4, 5] 32 0 := by
  refine ⟨by decide, ?_⟩
  intro h
  have hsame := h Tally Tally.add Tally.none (fun _ => Tally.one) Tally.unital 0 0 rfl (by decide)
  revert hsame
  decide +kernel

end Tallied

end Harp
