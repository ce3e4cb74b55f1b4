import Harp.Host.FxStream

/-!
This module contains the proof that the effect's wet stays aligned with its dry: what one turn of the
pull and one act of any party preserve, and from it what every run preserves.
-/

namespace Harp

open Runs StreamRings

section Gaps

-- The frames of the gaps that show at or before wet position `x`.
def gapSum : List FxGap → Nat → Nat
  | [], _ => 0
  | g :: gaps, x => (if g.ssi ≤ x then g.frames else 0) + gapSum gaps x

theorem gapSum_append (gaps gaps' : List FxGap) (x : Nat)
    : gapSum (gaps ++ gaps') x = gapSum gaps x + gapSum gaps' x := by
  induction gaps with
  | nil => simp [gapSum]
  | cons g gaps ih =>
    rw [List.cons_append, gapSum, gapSum, ih, Nat.add_assoc]

theorem gapSum_eq_zero {gaps : List FxGap} {x : Nat} (h : ∀ g ∈ gaps, x < g.ssi)
    : gapSum gaps x = 0 := by
  induction gaps with
  | nil => rfl
  | cons g gaps ih =>
    have hg := h g List.mem_cons_self
    have hgaps := ih (fun g' hg' => h g' (List.mem_cons_of_mem _ hg'))
    rw [gapSum, hgaps, if_neg (by omega)]

theorem wetWanted_zero (pos : Nat) (gaps : List FxGap) : wetWanted pos gaps 0 = 0 := by
  cases gaps with
  | nil => rfl
  | cons g gaps => rw [wetWanted, if_pos (Nat.zero_le _)]

theorem wetWanted_at {pos n : Nat} {g : FxGap} {gaps : List FxGap} (hssi : g.ssi = pos)
    : wetWanted pos (g :: gaps) n = wetWanted pos gaps (n - g.frames) := by
  rw [wetWanted, hssi, Nat.sub_self, Nat.sub_zero, Nat.zero_add]
  split
  next hle =>
    have hzero : n = 0 := by omega
    rw [hzero, Nat.zero_sub, wetWanted_zero]
  next => rfl

theorem wetWanted_playGap {pos n m : Nat} {g : FxGap} {gaps : List FxGap} (hssi : g.ssi = pos)
    (hm : m = min g.frames n)
    : wetWanted pos (if g.frames - m = 0 then gaps else ⟨g.ssi, g.frames - m⟩ :: gaps) (n - m)
        = wetWanted pos (g :: gaps) n := by
  rw [wetWanted_at hssi]
  split
  next hall =>
    have hframes : m = g.frames := by omega
    rw [hframes]
  next hrest =>
    have hzero : n - m = 0 := by omega
    have hzero' : n - g.frames = 0 := by omega
    rw [hzero, hzero', wetWanted_zero, wetWanted_zero]

theorem wetWanted_readWet {pos n m : Nat} {g : FxGap} {gaps : List FxGap} (hssi : pos < g.ssi)
    (hm : m = min n (g.ssi - pos))
    : m + wetWanted (pos + m) (g :: gaps) (n - m) = wetWanted pos (g :: gaps) n := by
  rw [wetWanted.eq_2 pos]
  split
  next hle =>
    have hmn : m = n := by omega
    rw [hmn, Nat.sub_self, wetWanted_zero, Nat.add_zero]
  next hlt =>
    have hms : m = g.ssi - pos := by omega
    have hpos : g.ssi = pos + m := by omega
    rw [wetWanted_at hpos, hms, hpos]
    congr 2
    omega

end Gaps

variable {inCap wetCap : Nat}

theorem settleLoop_eq (fuel : Nat) (s : FxState inCap wetCap) (h : s.padDebt ≤ fuel)
    : s.settleLoop fuel
        = { s with
            audioRing := (s.audioRing.read s.padDebt).2
            padDebt := s.padDebt - (s.audioRing.read s.padDebt).1.length } := by
  induction fuel generalizing s with
  | zero =>
    have hzero : s.padDebt = 0 := by omega
    have hnone : (s.audioRing.read s.padDebt).1.length = 0 := by
      rw [StreamRing.length_read, hzero, Nat.zero_min]
    rw [StreamRing.read_of_none hnone, hnone]
    rfl
  | succ fuel ih =>
    unfold FxState.settleLoop
    dsimp only
    have hgot := StreamRing.length_read s.audioRing (min s.padDebt 512)
    have hall := StreamRing.length_read s.audioRing s.padDebt
    split
    next hdone =>
      have hnone : (s.audioRing.read s.padDebt).1.length = 0 := by omega
      rw [StreamRing.read_of_none hnone, hnone]
      rfl
    next hmore =>
      rw [ih _ (by dsimp only; omega)]
      dsimp only
      have hread := StreamRing.read_read (r := s.audioRing) (Nat.min_le_left s.padDebt 512)
      have hrest := StreamRing.length_read (s.audioRing.read (min s.padDebt 512)).2
        (s.padDebt - (s.audioRing.read (min s.padDebt 512)).1.length)
      have havail : (s.audioRing.read (min s.padDebt 512)).2.readAvailable
          = s.audioRing.readAvailable - (s.audioRing.read (min s.padDebt 512)).1.length := by
        unfold StreamRing.readAvailable
        rw [StreamRing.read_tail, StreamRing.read_head]
        omega
      have hdebt : s.padDebt - (s.audioRing.read (min s.padDebt 512)).1.length
          - ((s.audioRing.read (min s.padDebt 512)).2.read
            (s.padDebt - (s.audioRing.read (min s.padDebt 512)).1.length)).1.length
          = s.padDebt - (s.audioRing.read s.padDebt).1.length := by
        omega
      rw [hread, hdebt]

theorem settlePadDebt_eq (s : FxState inCap wetCap)
    : s.settlePadDebt
        = { s with
            audioRing := (s.audioRing.read s.padDebt).2
            padDebt := s.padDebt - (s.audioRing.read s.padDebt).1.length } :=
  settleLoop_eq s.padDebt s (Nat.le_refl _)

-- Every input frame of the session that was not dropped.
def FxState.inputs (s : FxState inCap wetCap) : List Nat :=
  s.fed ++ s.fxInRing.items.drop (s.fxInBase - s.fxInRing.tail)

-- The gaps as the pull meets them from `ssiRead` on. `lost x` is the number of input frames that were
-- dropped before the one whose wet is at `x`, and `played` the silence played for them.
structure FxTrack (lost : Nat → Nat) (played t : Nat) (s : FxState inCap wetCap) : Prop where
  place : t + s.fxPreroll = s.fxArmedDelay + s.ssiRead + played
  preroll : s.fxPreroll ≤ s.fxArmedDelay ∧ (s.fxPreroll ≠ 0 → s.ssiRead = 0)
  ring : s.audioRing.tail + s.padDebt + s.fxExtraDelay = s.ssiRead
  pending : ∀ g ∈ s.fxGaps, s.ssiRead ≤ g.ssi ∧ g.ssi ≤ s.lastGap ∧ 0 < g.frames
  sorted : s.fxGaps.Pairwise (·.ssi < ·.ssi)
  last : ∀ g, s.fxGaps.getLast? = some g → g.ssi = s.lastGap
  lost_eq : ∀ x, s.ssiRead ≤ x → lost x = played + gapSum s.fxGaps x
  anchored : s.fxExtraDelay ≠ 0 → s.fxGaps = [] ∧ ∀ x, s.audioRing.tail ≤ x → lost x = played

-- The wet in the ring and the input it was made from.
structure FxWet (lost : Nat → Nat) (s : FxState inCap wetCap) : Prop where
  base : s.fxInBase ≤ s.fxInRing.head
  fed : s.fed.length + s.fxInBase = max s.fxInBase s.fxInRing.tail
  inputs : ∀ k τ, s.inputs[k]? = some τ → τ = k + lost (k + s.fxPipe)
  returned : s.returned = s.audioRing.head ∧ s.returned ≤ s.fed.length
  items : ∀ i x, s.audioRing.items[i]? = some x
    → x = FxState.wetFrame s.fed s.fxPipe (s.audioRing.tail + i)

structure FxInv (lost : Nat → Nat) (played : Nat) (s : FxState inCap wetCap) : Prop where
  aligned : FxAligned s
  track : FxTrack lost played s.out.length s
  wet : FxWet lost s
  time : s.inputs.length + lost s.lastGap = s.out.length + s.block.getD 0
  lost_last : ∀ x, s.lastGap ≤ x → lost x = lost s.lastGap
  last_le : s.lastGap ≤ s.inputs.length + s.fxPipe

section Turns

variable {lost : Nat → Nat} {played t n : Nat} {s : FxState inCap wetCap} {p : FxPull inCap wetCap}
  {g : FxGap} {gaps : List FxGap} {conn : Bool}

theorem FxTrack.takeFxPreroll (h : FxTrack lost played t p.st) (hn : n ≤ p.st.fxPreroll)
    : FxTrack lost played (t + n) (p.takeFxPreroll n).st := by
  have hplace := h.place
  have hpre := h.preroll
  constructor
  . dsimp only [FxPull.takeFxPreroll]
    omega
  . constructor
    . dsimp only [FxPull.takeFxPreroll]
      omega
    . intro hne
      apply hpre.2
      dsimp only [FxPull.takeFxPreroll] at hne
      omega
  . exact h.ring
  . exact h.pending
  . exact h.sorted
  . exact h.last
  . exact h.lost_eq
  . exact h.anchored

theorem FxTrack.playGap (h : FxTrack lost played t p.st) (hgaps : p.st.fxGaps = g :: gaps)
    (hssi : g.ssi ≤ p.st.ssiRead) (hn : n ≤ g.frames)
    : FxTrack lost (played + n) (t + n) (p.playGap g gaps n).st := by
  have hplace := h.place
  have hpending := h.pending
  have hsorted := h.sorted
  have hlast := h.last
  rw [hgaps] at hpending hsorted hlast
  have hg := hpending g List.mem_cons_self
  rw [List.pairwise_cons] at hsorted
  have hextra : p.st.fxExtraDelay = 0 := by
    by_contra hne
    have hnil := (h.anchored hne).1
    rw [hgaps] at hnil
    exact List.cons_ne_nil _ _ hnil
  constructor
  . dsimp only [FxPull.playGap]
    omega
  . exact h.preroll
  . exact h.ring
  . dsimp only [FxPull.playGap]
    split
    next =>
      intro g' hg'
      exact hpending g' (List.mem_cons_of_mem _ hg')
    next hrest =>
      intro g' hg'
      rcases List.mem_cons.mp hg' with heq | hmem
      . rw [heq]
        exact ⟨hg.1, hg.2.1, Nat.pos_of_ne_zero hrest⟩
      . exact hpending g' (List.mem_cons_of_mem _ hmem)
  . dsimp only [FxPull.playGap]
    split
    next => exact hsorted.2
    next => exact List.pairwise_cons.mpr ⟨hsorted.1, hsorted.2⟩
  . dsimp only [FxPull.playGap]
    intro g' hg'
    split at hg'
    next =>
      apply hlast g'
      cases gaps with
      | nil => simp at hg'
      | cons g'' gaps =>
        rw [List.getLast?_cons_cons]
        exact hg'
    next =>
      cases gaps with
      | nil =>
        simp only [List.getLast?_singleton, Option.some.injEq] at hg' hlast
        rw [← hg']
        exact hlast g rfl
      | cons g'' gaps =>
        rw [List.getLast?_cons_cons] at hg' hlast
        exact hlast g' hg'
  . intro x hx
    have hxle : p.st.ssiRead ≤ x := hx
    have hlost := h.lost_eq x hxle
    rw [hgaps, gapSum, if_pos (Nat.le_trans hssi hxle)] at hlost
    dsimp only [FxPull.playGap]
    split
    next => omega
    next =>
      rw [gapSum, if_pos (Nat.le_trans hssi hxle)]
      dsimp only
      omega
  . intro hne
    exact absurd hextra hne

theorem FxTrack.readWet (h : FxTrack lost played t p.st) (hpre : p.st.fxPreroll = 0)
    (hn : ∀ g ∈ p.st.fxGaps, p.st.ssiRead + n ≤ g.ssi)
    : FxTrack lost played (t + n) (p.readWet n conn).st := by
  have hplace := h.place
  have hring := h.ring
  have hgot := StreamRing.length_read p.st.audioRing n
  constructor
  . dsimp only [FxPull.readWet]
    omega
  . constructor
    . exact h.preroll.1
    . intro hne
      exact absurd hpre hne
  . dsimp only [FxPull.readWet]
    rw [StreamRing.read_tail]
    omega
  . intro g hg
    exact ⟨hn g hg, (h.pending g hg).2⟩
  . exact h.sorted
  . exact h.last
  . intro x hx
    apply h.lost_eq
    dsimp only [FxPull.readWet] at hx
    omega
  . intro hne
    constructor
    . exact (h.anchored hne).1
    . intro x hx
      apply (h.anchored hne).2
      dsimp only [FxPull.readWet] at hx
      rw [StreamRing.read_tail] at hx
      omega

-- A wet frame that is read comes `fxWetDelay` after its input.
theorem FxTrack.wet_time (h : FxTrack lost played t s) (hwet : FxWet lost s)
    (hpre : s.fxPreroll = 0) (hpaid : s.padDebt = 0) {i τ : Nat}
    (hi : ∀ g ∈ s.fxGaps, s.ssiRead + i < g.ssi) (hτ : s.audioRing.items[i]? = some (some τ))
    : t + i = τ + s.fxWetDelay := by
  have hplace := h.place
  have hring := h.ring
  have hframe := hwet.items i _ hτ
  unfold FxState.wetFrame at hframe
  split at hframe
  next => simp at hframe
  next hpipe =>
    have hin : s.inputs[s.audioRing.tail + i - s.fxPipe]? = some τ := by
      unfold FxState.inputs
      rw [List.getElem?_append_left]
      . exact hframe.symm
      . exact (List.getElem?_eq_some_iff.mp hframe.symm).1
    have htime := hwet.inputs _ _ hin
    have hx : s.audioRing.tail + i - s.fxPipe + s.fxPipe = s.audioRing.tail + i := by omega
    have hlost : lost (s.audioRing.tail + i) = played := by
      by_cases hextra : s.fxExtraDelay = 0
      . have heq : s.audioRing.tail + i = s.ssiRead + i := by omega
        rw [heq, h.lost_eq _ (Nat.le_add_right _ _), gapSum_eq_zero hi, Nat.add_zero]
      . exact (h.anchored hextra).2 _ (Nat.le_add_right _ _)
    rw [hx, hlost] at htime
    unfold FxState.fxWetDelay
    omega

end Turns

section Loop

variable {lost : Nat → Nat} {played n : Nat} {s s₀ : FxState inCap wetCap}
  {p : FxPull inCap wetCap} {conn : Bool}

-- What a pull leaves alone.
structure FxFrame (s₀ s : FxState inCap wetCap) : Prop where
  fxInRing : s.fxInRing = s₀.fxInRing
  fxInBase : s.fxInBase = s₀.fxInBase
  fed : s.fed = s₀.fed
  returned : s.returned = s₀.returned
  head : s.audioRing.head = s₀.audioRing.head
  fxArmedDelay : s.fxArmedDelay = s₀.fxArmedDelay
  fxPipe : s.fxPipe = s₀.fxPipe
  fxExtraDelay : s.fxExtraDelay = s₀.fxExtraDelay
  fxLateRunFrames : s.fxLateRunFrames = s₀.fxLateRunFrames
  block : s.block = s₀.block
  lastGap : s.lastGap = s₀.lastGap
  out : s.out = s₀.out

theorem FxFrame.fxWetDelay (h : FxFrame s₀ s) : s.fxWetDelay = s₀.fxWetDelay := by
  unfold FxState.fxWetDelay
  rw [h.fxArmedDelay, h.fxExtraDelay, h.fxPipe]

theorem FxFrame.inputs (h : FxFrame s₀ s) : s.inputs = s₀.inputs := by
  unfold FxState.inputs
  rw [h.fed, h.fxInRing, h.fxInBase]

structure FxLoop (lost : Nat → Nat) (played : Nat) (s₀ : FxState inCap wetCap)
    (p : FxPull inCap wetCap) : Prop where
  frame : FxFrame s₀ p.st
  track : FxTrack lost played (s₀.out.length + p.dst.length) p.st
  wet : FxWet lost p.st
  paid : p.st.padDebt = 0 ∨ p.st.audioRing.items = []
  cells : ∀ i τ, p.dst[i]? = some (some τ) → s₀.out.length + i = τ + s₀.fxWetDelay

-- Reading moves along what the ring holds.
theorem FxWet.read (h : FxWet lost s) (n debt : Nat)
    : FxWet lost { s with audioRing := (s.audioRing.read n).2, padDebt := debt } := by
  constructor
  . exact h.base
  . exact h.fed
  . exact h.inputs
  . exact h.returned
  . intro i x hx
    dsimp only at hx ⊢
    rw [StreamRing.items_read, List.getElem?_drop] at hx
    have hlt : n + i < s.audioRing.items.length := (List.getElem?_eq_some_iff.mp hx).1
    have hlen := StreamRing.length_read s.audioRing n
    rw [← StreamRing.length_items] at hlen
    have htail : (s.audioRing.read n).2.tail + i = s.audioRing.tail + (n + i) := by
      rw [StreamRing.read_tail]
      omega
    rw [htail]
    exact h.items _ x hx

theorem cells_append_none {T d : Nat} {dst : List (Option Nat)}
    (h : ∀ i τ : Nat, dst[i]? = some (some τ) → T + i = τ + d) (m : Nat)
    : ∀ i τ : Nat, (dst ++ List.replicate m none)[i]? = some (some τ) → T + i = τ + d := by
  intro i τ hi
  rw [List.getElem?_append] at hi
  split at hi
  next => exact h i τ hi
  next =>
    rw [List.getElem?_replicate] at hi
    split at hi
    next => simp at hi
    next => simp at hi

theorem FxLoop.takeFxPreroll (h : FxLoop lost played s₀ p) (hn : n ≤ p.st.fxPreroll)
    : FxLoop lost played s₀ (p.takeFxPreroll n) := by
  constructor
  . exact ⟨h.frame.fxInRing, h.frame.fxInBase, h.frame.fed, h.frame.returned, h.frame.head,
      h.frame.fxArmedDelay, h.frame.fxPipe, h.frame.fxExtraDelay, h.frame.fxLateRunFrames,
      h.frame.block, h.frame.lastGap, h.frame.out⟩
  . have hlen : s₀.out.length + (p.takeFxPreroll n).dst.length
        = s₀.out.length + p.dst.length + n := by
      dsimp only [FxPull.takeFxPreroll]
      rw [List.length_append, List.length_replicate, Nat.add_assoc]
    rw [hlen]
    exact h.track.takeFxPreroll hn
  . exact ⟨h.wet.base, h.wet.fed, h.wet.inputs, h.wet.returned, h.wet.items⟩
  . exact h.paid
  . exact cells_append_none h.cells n

theorem FxLoop.playGap (h : FxLoop lost played s₀ p) {g : FxGap} {gaps : List FxGap}
    (hgaps : p.st.fxGaps = g :: gaps) (hssi : g.ssi ≤ p.st.ssiRead) (hn : n ≤ g.frames)
    : FxLoop lost (played + n) s₀ (p.playGap g gaps n) := by
  constructor
  . exact ⟨h.frame.fxInRing, h.frame.fxInBase, h.frame.fed, h.frame.returned, h.frame.head,
      h.frame.fxArmedDelay, h.frame.fxPipe, h.frame.fxExtraDelay, h.frame.fxLateRunFrames,
      h.frame.block, h.frame.lastGap, h.frame.out⟩
  . have hlen : s₀.out.length + (p.playGap g gaps n).dst.length
        = s₀.out.length + p.dst.length + n := by
      dsimp only [FxPull.playGap]
      rw [List.length_append, List.length_replicate, Nat.add_assoc]
    rw [hlen]
    exact h.track.playGap hgaps hssi hn
  . exact ⟨h.wet.base, h.wet.fed, h.wet.inputs, h.wet.returned, h.wet.items⟩
  . exact h.paid
  . exact cells_append_none h.cells n

theorem FxLoop.readWet (h : FxLoop lost played s₀ p) (hpre : p.st.fxPreroll = 0)
    (hn : ∀ g ∈ p.st.fxGaps, p.st.ssiRead + n ≤ g.ssi)
    : FxLoop lost played s₀ (p.readWet n conn) := by
  have hgot := StreamRing.length_read p.st.audioRing n
  rw [← StreamRing.length_items] at hgot
  have hfst := StreamRing.read_fst p.st.audioRing n
  constructor
  . exact ⟨h.frame.fxInRing, h.frame.fxInBase, h.frame.fed, h.frame.returned, h.frame.head,
      h.frame.fxArmedDelay, h.frame.fxPipe, h.frame.fxExtraDelay, h.frame.fxLateRunFrames,
      h.frame.block, h.frame.lastGap, h.frame.out⟩
  . have hlen : s₀.out.length + (p.readWet n conn).dst.length
        = s₀.out.length + p.dst.length + n := by
      dsimp only [FxPull.readWet]
      rw [List.length_append, List.length_append, List.length_replicate]
      omega
    rw [hlen]
    exact h.track.readWet hpre hn
  . have hread := h.wet.read n (p.st.padDebt + (n - (p.st.audioRing.read n).1.length))
    exact ⟨hread.base, hread.fed, hread.inputs, hread.returned, hread.items⟩
  . -- A short read has emptied the ring.
    dsimp only [FxPull.readWet]
    rw [StreamRing.items_read]
    by_cases hshort : n ≤ p.st.audioRing.items.length
    . rcases h.paid with hzero | hnil
      . left
        omega
      . right
        rw [hnil, List.drop_nil]
    . right
      exact List.drop_eq_nil_of_le (by omega)
  . dsimp only [FxPull.readWet]
    rw [← List.append_assoc]
    apply cells_append_none
    intro i τ hi
    rw [List.getElem?_append] at hi
    split at hi
    next => exact h.cells i τ hi
    next hge =>
      rw [hfst] at hi
      have hlt : i - p.dst.length < (p.st.audioRing.items.take n).length :=
        (List.getElem?_eq_some_iff.mp hi).1
      rw [List.length_take] at hlt
      have hpaid : p.st.padDebt = 0 := by
        rcases h.paid with hzero | hnil
        . exact hzero
        . rw [hnil, List.length_nil] at hlt
          omega
      rw [List.getElem?_take_of_lt (by omega)] at hi
      have htime := h.track.wet_time h.wet hpre hpaid
        (fun g hg => Nat.lt_of_lt_of_le (by omega) (hn g hg)) hi
      rw [h.frame.fxWetDelay] at htime
      omega

theorem FxTrack.head_lt {t : Nat} (h : FxTrack lost played t s) {g : FxGap} {gaps : List FxGap}
    (hgaps : s.fxGaps = g :: gaps) : ∀ g' ∈ s.fxGaps, g.ssi ≤ g'.ssi := by
  have hsorted := h.sorted
  rw [hgaps, List.pairwise_cons] at hsorted
  intro g' hg'
  rw [hgaps] at hg'
  rcases List.mem_cons.mp hg' with heq | hmem
  . rw [heq]
  . exact Nat.le_of_lt (hsorted.1 g' hmem)

-- What one turn does, with the wet that is still wanted.
theorem FxLoop.turn (h : FxLoop lost played s₀ p) {m : Nat} (hm : 0 < m) (conn : Bool)
    : ∃ played' k, FxLoop lost played' s₀ (p.turn m conn)
      ∧ (p.turn m conn).dst.length = p.dst.length + k ∧ 0 < k ∧ k ≤ m
      ∧ (p.st.fxPreroll ≠ 0 → (p.turn m conn).preroll = true)
      ∧ (p.st.fxPreroll = 0 → (p.turn m conn).preroll = p.preroll
        ∧ (p.turn m conn).st.fxPreroll = 0
        ∧ (p.turn m conn).st.ssiRead
            + wetWanted (p.turn m conn).st.ssiRead (p.turn m conn).st.fxGaps (m - k)
          = p.st.ssiRead + wetWanted p.st.ssiRead p.st.fxGaps m) := by
  unfold FxPull.turn
  split
  next hpre =>
    refine ⟨played, min p.st.fxPreroll m, h.takeFxPreroll (Nat.min_le_left _ _), ?_, ?_, ?_, ?_, ?_⟩
    . simp [FxPull.takeFxPreroll]
    . omega
    . omega
    . intro _
      rfl
    . intro hzero
      omega
  next hpre =>
    have hzero : p.st.fxPreroll = 0 := by omega
    have hread : ∀ n, (p.readWet n conn).dst.length = p.dst.length + n := by
      intro n
      have hgot := StreamRing.length_read p.st.audioRing n
      dsimp only [FxPull.readWet]
      rw [List.length_append, List.length_append, List.length_replicate]
      omega
    split
    next hgaps =>
      refine ⟨played, m, h.readWet hzero ?_, hread m, hm, Nat.le_refl m, fun hne => absurd hzero hne,
        fun _ => ⟨rfl, hzero, ?_⟩⟩
      . intro g hg
        rw [hgaps] at hg
        exact absurd hg List.not_mem_nil
      . dsimp only [FxPull.readWet]
        rw [hgaps, Nat.sub_self, wetWanted_zero]
        rfl
    next g gaps hgaps =>
      have hg := h.track.pending g (by rw [hgaps]; exact List.mem_cons_self)
      split
      next hssi =>
        have heq : g.ssi = p.st.ssiRead := by omega
        refine ⟨played + min g.frames m, min g.frames m, h.playGap hgaps hssi (Nat.min_le_left _ _),
          ?_, ?_, ?_, fun hne => absurd hzero hne, fun _ => ⟨rfl, hzero, ?_⟩⟩
        . simp [FxPull.playGap]
        . omega
        . omega
        . dsimp only [FxPull.playGap]
          rw [wetWanted_playGap heq rfl, hgaps]
      next hssi =>
        refine ⟨played, min m (g.ssi - p.st.ssiRead), h.readWet hzero ?_, hread _, ?_, ?_,
          fun hne => absurd hzero hne, fun _ => ⟨rfl, hzero, ?_⟩⟩
        . intro g' hg'
          have hle := h.track.head_lt hgaps g' hg'
          omega
        . omega
        . omega
        . dsimp only [FxPull.readWet]
          rw [hgaps, Nat.add_assoc, wetWanted_readWet (by omega) rfl]

theorem FxLoop.loop (conn : Bool) {fuel : Nat} (h : FxLoop lost played s₀ p) (hle : p.dst.length ≤ n)
    (hfuel : n ≤ p.dst.length + fuel)
    : ∃ played', FxLoop lost played' s₀ (FxPull.loop conn n fuel p)
      ∧ (FxPull.loop conn n fuel p).dst.length = n
      ∧ (p.preroll = true → (FxPull.loop conn n fuel p).preroll = true)
      ∧ (p.st.fxPreroll ≠ 0 → p.dst.length < n → (FxPull.loop conn n fuel p).preroll = true)
      ∧ (p.st.fxPreroll = 0 → (FxPull.loop conn n fuel p).st.ssiRead
          = p.st.ssiRead + wetWanted p.st.ssiRead p.st.fxGaps (n - p.dst.length)) := by
  induction fuel generalizing p played with
  | zero =>
    have heq : p.dst.length = n := by omega
    refine ⟨played, h, heq, fun ht => ht, fun _ hlt => absurd heq (by omega), fun _ => ?_⟩
    rw [heq, Nat.sub_self, wetWanted_zero]
    rfl
  | succ fuel ih =>
    unfold FxPull.loop
    split
    next hlt =>
      rcases h.turn (m := n - p.dst.length) (by omega) conn with
        ⟨played', k, hturn, hlen, hk, hkm, hset, hkeep⟩
      rcases ih hturn (by omega) (by omega) with ⟨played'', hloop, hn, htrue, _, hwanted⟩
      refine ⟨played'', hloop, hn, ?_, ?_, ?_⟩
      . intro ht
        apply htrue
        by_cases hpre : p.st.fxPreroll = 0
        . rw [(hkeep hpre).1, ht]
        . exact hset hpre
      . intro hpre _
        exact htrue (hset hpre)
      . intro hpre
        have hrest : n - (p.turn (n - p.dst.length) conn).dst.length = n - p.dst.length - k := by
          omega
        rw [hwanted (hkeep hpre).2.1, hrest, (hkeep hpre).2.2]
    next hge =>
      have heq : p.dst.length = n := by omega
      refine ⟨played, h, heq, fun ht => ht, fun _ hlt => absurd heq (by omega), fun _ => ?_⟩
      rw [heq, Nat.sub_self, wetWanted_zero]
      rfl

-- An empty ring gives nothing but silence.
theorem loop_silent {fuel : Nat} (hitems : p.st.audioRing.items = [])
    (hdst : ∀ x ∈ p.dst, x = none) : ∀ x ∈ (FxPull.loop conn n fuel p).dst, x = none := by
  induction fuel generalizing p with
  | zero => exact hdst
  | succ fuel ih =>
    have hpad : ∀ m, ∀ x ∈ p.dst ++ List.replicate m none, x = none := by
      intro m x hx
      rcases List.mem_append.mp hx with hx | hx
      . exact hdst x hx
      . exact List.eq_of_mem_replicate hx
    have hread : ∀ m, (p.readWet m conn).st.audioRing.items = []
        ∧ ∀ x ∈ (p.readWet m conn).dst, x = none := by
      intro m
      dsimp only [FxPull.readWet]
      rw [StreamRing.items_read, StreamRing.read_fst, hitems, List.drop_nil, List.take_nil,
        List.nil_append]
      exact ⟨rfl, hpad _⟩
    unfold FxPull.loop
    split
    next =>
      unfold FxPull.turn
      split
      next => exact ih hitems (hpad _)
      next =>
        split
        next => exact ih (hread _).1 (hread _).2
        next =>
          split
          next => exact ih hitems (hpad _)
          next => exact ih (hread _).1 (hread _).2
    next => exact hdst

end Loop

section Acts

variable {lost : Nat → Nat} {played played' n window : Nat} {s s' : FxState inCap wetCap}
  {p : FxPull inCap wetCap} {conn : Bool}

-- A pull begins with what it owes paid as far as the ring goes.
theorem FxInv.settlePadDebt (h : FxInv lost played s)
    : FxLoop lost played s ⟨s.settlePadDebt, [], false, 0⟩ := by
  rw [settlePadDebt_eq]
  have hring := h.track.ring
  have hgot := StreamRing.length_read s.audioRing s.padDebt
  rw [← StreamRing.length_items] at hgot
  constructor
  . exact ⟨rfl, rfl, rfl, rfl, rfl, rfl, rfl, rfl, rfl, rfl, rfl, rfl⟩
  . constructor
    . exact h.track.place
    . exact h.track.preroll
    . dsimp only
      rw [StreamRing.read_tail]
      omega
    . exact h.track.pending
    . exact h.track.sorted
    . exact h.track.last
    . exact h.track.lost_eq
    . intro hne
      constructor
      . exact (h.track.anchored hne).1
      . intro x hx
        apply (h.track.anchored hne).2
        dsimp only at hx
        rw [StreamRing.read_tail] at hx
        omega
  . exact h.wet.read _ _
  . dsimp only
    rw [StreamRing.items_read]
    by_cases hle : s.audioRing.items.length ≤ s.padDebt
    . right
      exact List.drop_eq_nil_of_le hle
    . left
      omega
  . intro i τ hi
    simp at hi

theorem FxLoop.owed (h : FxLoop lost played' s p) (htrack : FxTrack lost played s.out.length s)
    (hwanted : p.st.ssiRead = s.ssiRead + wetWanted s.ssiRead s.fxGaps n)
    : p.st.padDebt = s.owedAfter n := by
  have hring := h.track.ring
  have hring₀ := htrack.ring
  have hextra := h.frame.fxExtraDelay
  have hhead := h.frame.head
  have htail := s.audioRing.tail_le_head
  have hitems := p.st.audioRing.head_eq
  unfold FxState.owedAfter StreamRing.readAvailable
  rcases h.paid with hzero | hnil
  . omega
  . rw [hnil, List.length_nil] at hitems
    omega

theorem fxLateStep_fires {run nFrames window : Nat} {owed connected : Bool}
    (h : (fxLateStep run owed connected nFrames window).1 = true)
    : owed = true ∧ connected = true ∧ window ≤ run + nFrames := by
  unfold fxLateStep at h
  split at h
  next => simp at h
  next hgo =>
    split at h
    next => simp at h
    next hge =>
      simp only [Bool.or_eq_true, Bool.not_eq_true', not_or, Bool.not_eq_false] at hgo
      exact ⟨hgo.1, hgo.2, by omega⟩

-- The block is over: its frames go out with the delay that holds now.
theorem FxInv.finish (h : FxInv lost played s) (hblock : s.block = some n)
    (hlen : p.dst.length = n) (hout : s'.out = s.out) (hlast : s'.lastGap = s.lastGap)
    (hin : s'.inputs = s.inputs) (hpipe : s'.fxPipe = s.fxPipe) (hwet : FxWet lost s')
    (htrack : FxTrack lost played' (s.out.length + n) s')
    (hcells : ∀ i τ : Nat, p.dst[i]? = some (some τ) → s.out.length + i = τ + s'.fxWetDelay)
    : FxInv lost played'
        { s' with block := none, out := s'.out ++ p.dst.map (fun x => (s'.fxWetDelay, x)) } := by
  have hlength : (s'.out ++ p.dst.map (fun x => (s'.fxWetDelay, x))).length = s.out.length + n := by
    rw [List.length_append, List.length_map, hout, hlen]
  constructor
  . intro t d τ ht
    dsimp only at ht
    rw [hout, List.getElem?_append] at ht
    split at ht
    next => exact h.aligned t d τ ht
    next hge =>
      rw [List.getElem?_map, Option.map_eq_some_iff] at ht
      rcases ht with ⟨x, hx, heq⟩
      rw [Prod.mk.injEq] at heq
      rw [heq.2] at hx
      have hcell := hcells _ _ hx
      omega
  . dsimp only
    rw [hlength]
    exact ⟨htrack.place, htrack.preroll, htrack.ring, htrack.pending, htrack.sorted, htrack.last,
      htrack.lost_eq, htrack.anchored⟩
  . exact ⟨hwet.base, hwet.fed, hwet.inputs, hwet.returned, hwet.items⟩
  . have htime := h.time
    rw [hblock, Option.getD_some] at htime
    dsimp only
    rw [hlength, Option.getD_none, Nat.add_zero, hlast, ← htime]
    exact congrArg (fun xs => xs.length + lost s.lastGap) hin
  . dsimp only
    rw [hlast]
    exact h.lost_last
  . have hle := h.last_le
    rw [← hlast, ← hin, ← hpipe] at hle
    exact hle

-- The late guard can only fire past the pre-roll.
theorem FxInv.fires_of_late (h : FxInv lost played s) (hloop : FxLoop lost played' s p)
    (hp : FxPull.loop conn n n ⟨s.settlePadDebt, [], false, 0⟩ = p)
    (hpreroll : s.fxPreroll ≠ 0 → 0 < n → p.preroll = true)
    (hwanted : s.fxPreroll = 0
      → p.st.ssiRead = s.ssiRead + wetWanted s.ssiRead s.fxGaps n)
    (hnopre : ¬p.preroll = true)
    (hlate : (fxLateStep p.st.fxLateRunFrames (p.st.padDebt ≠ 0) conn n window).1 = true)
    : s.fires window n conn ∧ p.st.padDebt = s.owedAfter n ∧ p.st.padDebt ≠ 0 := by
  rcases fxLateStep_fires hlate with ⟨howed, hconn, hrun⟩
  have hdebt : p.st.padDebt ≠ 0 := of_decide_eq_true howed
  have hring := hloop.track.ring
  have hzero : s.fxPreroll = 0 := by
    by_contra hne
    cases n with
    | zero =>
      have hst : p.st.fxPreroll = s.fxPreroll := by
        rw [← hp, FxPull.loop, settlePadDebt_eq]
      have hread := hloop.track.preroll.2 (by rw [hst]; exact hne)
      omega
    | succ n => exact hnopre (hpreroll hne (Nat.succ_pos n))
  have howe := hloop.owed h.track (hwanted hzero)
  rw [hloop.frame.fxLateRunFrames] at hrun
  exact ⟨⟨hzero, hconn, hrun, by omega⟩, howe, hdebt⟩

-- Once the guard has forgiven the debt, the positions before the gaps are all behind.
theorem FxLoop.anchored (hloop : FxLoop lost played' s p) (h : FxInv lost played s)
    (hdebt : p.st.padDebt ≠ 0) (hlast : s.lastGap ≤ s.audioRing.head)
    : p.st.fxGaps = [] ∧ ∀ x, p.st.audioRing.tail ≤ x → lost x = played' := by
  have hring := hloop.track.ring
  have hhead := hloop.frame.head
  have hitems := p.st.audioRing.head_eq
  rcases hloop.paid with hzero | hnil
  . exact absurd hzero hdebt
  . rw [hnil, List.length_nil] at hitems
    have hgaps : p.st.fxGaps = [] := by
      apply List.eq_nil_iff_forall_not_mem.mpr
      intro g hg
      have hpending := hloop.track.pending g hg
      have hsame := hloop.frame.lastGap
      omega
    constructor
    . exact hgaps
    . intro x hx
      have hhere := hloop.track.lost_eq p.st.ssiRead (Nat.le_refl _)
      rw [hgaps, h.lost_last _ (by omega)] at hhere
      rw [h.lost_last x (by omega)]
      exact hhere

theorem FxInv.pullFxLive (h : FxInv lost played s) (hblock : s.block = some n)
    (hgiven : s.fires window n conn → s.fxWetDelay + s.owedAfter n ≤ kFxMaxWetDelay)
    (hclean : s.cleanAnchor window n conn)
    : ∃ played', FxInv lost played' (s.pullFxLive window n conn) := by
  have hstart := h.settlePadDebt
  rcases hstart.loop (n := n) conn (Nat.zero_le n) (Nat.le_of_eq (Nat.zero_add n).symm)
    with ⟨played', hloop, hlen, _, hpreroll, hwanted⟩
  refine ⟨played', ?_⟩
  unfold FxState.pullFxLive
  generalize hp : FxPull.loop conn n n ⟨s.settlePadDebt, [], false, 0⟩ = p at *
  rw [settlePadDebt_eq] at hpreroll hwanted
  dsimp only at hpreroll hwanted ⊢
  have hframe := hloop.frame
  have htrack := hloop.track
  rw [hlen] at htrack
  have hsame : ∀ i τ : Nat, p.dst[i]? = some (some τ) → s.out.length + i = τ + p.st.fxWetDelay := by
    rw [hframe.fxWetDelay]
    exact hloop.cells
  split
  next =>
    exact h.finish hblock hlen hframe.out hframe.lastGap hframe.inputs hframe.fxPipe hloop.wet htrack
      hsame
  next hnopre =>
    unfold FxState.fxLateGuard
    dsimp only
    split
    next hlate =>
      rcases h.fires_of_late hloop hp hpreroll hwanted hnopre hlate with ⟨hfires, howe, hdebt⟩
      have hbelow := hgiven hfires
      rcases hclean hfires with ⟨hspent, hlast⟩
      have hanchored := hloop.anchored h hdebt hlast
      have hdelay := hframe.fxWetDelay
      have hcap : ¬kFxMaxWetDelay
          < p.st.fxArmedDelay + p.st.fxPipe + p.st.fxExtraDelay + p.st.padDebt := by
        unfold FxState.fxWetDelay at hdelay hbelow
        omega
      rw [if_neg hcap]
      have hsilent : ∀ x ∈ p.dst, x = none := by
        rw [← hp]
        apply loop_silent
        . rw [settlePadDebt_eq, StreamRing.items_read]
          apply List.drop_eq_nil_of_le
          rw [StreamRing.length_items]
          exact hspent
        . intro x hx
          exact absurd hx List.not_mem_nil
      apply h.finish hblock hlen
      . exact hframe.out
      . exact hframe.lastGap
      . exact hframe.inputs
      . exact hframe.fxPipe
      . exact ⟨hloop.wet.base, hloop.wet.fed, hloop.wet.inputs, hloop.wet.returned, hloop.wet.items⟩
      . constructor
        . exact htrack.place
        . exact htrack.preroll
        . have hring := htrack.ring
          dsimp only
          omega
        . exact htrack.pending
        . exact htrack.sorted
        . exact htrack.last
        . exact htrack.lost_eq
        . exact fun _ => hanchored
      . intro i τ hi
        have hnone := hsilent _ (List.mem_of_getElem? hi)
        simp at hnone
    next =>
      exact h.finish hblock hlen hframe.out hframe.lastGap hframe.inputs hframe.fxPipe
        ⟨hloop.wet.base, hloop.wet.fed, hloop.wet.inputs, hloop.wet.returned, hloop.wet.items⟩
        ⟨htrack.place, htrack.preroll, htrack.ring, htrack.pending, htrack.sorted, htrack.last,
          htrack.lost_eq, htrack.anchored⟩ hsame

theorem FxWet.length_inputs (h : FxWet lost s)
    : s.inputs.length + s.fxInBase = s.fxInRing.head := by
  have hbase := h.base
  have hfed := h.fed
  have hhead := s.fxInRing.head_eq
  unfold FxState.inputs
  rw [List.length_append, List.length_drop]
  omega

theorem recordGap_cases (dropped : Nat) {gaps : List FxGap} {lastGap ssi : Nat}
    (hlast : ∀ g, gaps.getLast? = some g → g.ssi = lastGap) (hroom : gaps.length < 8 ∨ lastGap = ssi)
    : (FxState.recordGap gaps ssi dropped = gaps ++ [⟨ssi, dropped⟩] ∧ (gaps ≠ [] → lastGap ≠ ssi))
      ∨ ∃ front frames, gaps = front ++ [⟨ssi, frames⟩]
        ∧ FxState.recordGap gaps ssi dropped = front ++ [⟨ssi, frames + dropped⟩] := by
  unfold FxState.recordGap
  cases hcase : gaps.getLast? with
  | none =>
    rw [List.getLast?_eq_none_iff] at hcase
    left
    rw [hcase]
    exact ⟨rfl, fun hne => absurd rfl hne⟩
  | some g =>
    have hg := hlast g hcase
    have hsplit := List.dropLast_append_getLast? g hcase
    dsimp only
    split
    next heq =>
      right
      refine ⟨gaps.dropLast, g.frames, ?_, ?_⟩
      . rw [← heq]
        exact hsplit.symm
      . rw [heq]
    next hne =>
      left
      rw [if_pos (by omega)]
      exact ⟨rfl, fun _ => by omega⟩

-- The gaps of a block whose tail did not fit.
theorem FxTrack.recordGap {t ssi dropped : Nat} (h : FxTrack lost played t s)
    (hextra : s.fxExtraDelay = 0) (hdropped : 0 < dropped) (hpos : s.ssiRead ≤ ssi)
    (hle : s.lastGap ≤ ssi) (hroom : s.fxGaps.length < 8 ∨ s.lastGap = ssi)
    {ring : StreamRing Nat inCap} {block : Option Nat} {total : Nat}
    : FxTrack (fun x => lost x + if ssi ≤ x then dropped else 0) played t
        { s with
          fxInRing := ring
          block := block
          fxGaps := FxState.recordGap s.fxGaps ssi dropped
          lastGap := ssi
          fxInDropped := total } := by
  have hsorted := h.sorted
  have hpending := h.pending
  have hlost := h.lost_eq
  refine ⟨h.place, h.preroll, h.ring, ?_, ?_, ?_, ?_, fun hne => absurd hextra hne⟩
  all_goals
    dsimp only
    rcases recordGap_cases dropped h.last hroom with ⟨heq, hne⟩ | ⟨front, frames, hgaps, heq⟩
    all_goals rw [heq]
  . intro g hg
    rcases List.mem_append.mp hg with hg | hg
    . have hold := hpending g hg
      omega
    . rw [List.mem_singleton.mp hg]
      exact ⟨hpos, Nat.le_refl _, hdropped⟩
  . rw [hgaps] at hpending
    intro g hg
    rcases List.mem_append.mp hg with hg | hg
    . have hold := hpending g (List.mem_append_left _ hg)
      omega
    . rw [List.mem_singleton.mp hg]
      exact ⟨hpos, Nat.le_refl _, by dsimp only; omega⟩
  . rw [List.pairwise_append]
    refine ⟨hsorted, List.pairwise_singleton _ _, ?_⟩
    intro g hg g' hg'
    have hold := hpending g hg
    have hlt := hne (List.ne_nil_of_mem hg)
    rw [List.mem_singleton.mp hg']
    dsimp only
    omega
  . rw [hgaps, List.pairwise_append] at hsorted
    rw [List.pairwise_append]
    refine ⟨hsorted.1, List.pairwise_singleton _ _, ?_⟩
    intro g hg g' hg'
    rw [List.mem_singleton.mp hg']
    exact hsorted.2.2 g hg ⟨ssi, frames⟩ (List.mem_singleton.mpr rfl)
  . intro g hg
    rw [List.getLast?_append, List.getLast?_singleton, Option.some_or, Option.some.injEq] at hg
    rw [← hg]
  . intro g hg
    rw [List.getLast?_append, List.getLast?_singleton, Option.some_or, Option.some.injEq] at hg
    rw [← hg]
  . intro x hx
    rw [gapSum_append, hlost x hx]
    simp only [gapSum]
    omega
  . intro x hx
    rw [gapSum_append, hlost x hx, hgaps, gapSum_append]
    simp only [gapSum]
    split
    next => omega
    next => omega

-- The times of a block's frames.
def blockTimes (start n : Nat) : List Nat :=
  (List.range n).map (start + ·)

theorem FxWet.write (h : FxWet lost s) (xs : List Nat)
    : s.fed ++ (s.fxInRing.write xs).items.drop (s.fxInBase - (s.fxInRing.write xs).tail)
        = s.inputs ++ xs.take s.fxInRing.writeAvailable := by
  have hbase := h.base
  have hhead := s.fxInRing.head_eq
  have htail := s.fxInRing.tail_le_head
  unfold FxState.inputs
  rw [StreamRing.items_write, StreamRing.write_tail, List.drop_append_of_le_length,
    List.append_assoc]
  omega

-- A frame that fits is counted right behind the others.
theorem FxInv.inputs_write (h : FxInv lost played s) (hblock : s.block = none) {n k τ : Nat}
    {lost' : Nat → Nat} (hlost : ∀ x, x < s.inputs.length + min n s.fxInRing.writeAvailable + s.fxPipe
      → lost' x = lost x)
    (hk : (s.inputs ++ (blockTimes s.out.length n).take s.fxInRing.writeAvailable)[k]? = some τ)
    : τ = k + lost' (k + s.fxPipe) := by
  have htime := h.time
  rw [hblock, Option.getD_none, Nat.add_zero] at htime
  have hbound := (List.getElem?_eq_some_iff.mp hk).1
  rw [List.length_append, List.length_take, blockTimes, List.length_map, List.length_range] at hbound
  rw [hlost _ (by omega)]
  rw [List.getElem?_append] at hk
  split at hk
  next => exact h.wet.inputs k τ hk
  next hge =>
    rw [List.getElem?_take_of_lt (by omega), blockTimes, List.getElem?_map,
      List.getElem?_range (by omega), Option.map_some, Option.some.injEq] at hk
    have hle := h.last_le
    rw [h.lost_last (k + s.fxPipe) (by omega)]
    omega

theorem FxInv.ssiRead_le (h : FxInv lost played s) (hblock : s.block = none)
    : s.ssiRead ≤ s.inputs.length + s.fxPipe := by
  have hle := h.last_le
  cases hgaps : s.fxGaps with
  | nil =>
    have hplace := h.track.place
    have hpre := h.track.preroll.1
    have htime := h.time
    rw [hblock, Option.getD_none, Nat.add_zero] at htime
    have hlost := h.track.lost_eq (max s.ssiRead s.lastGap) (Nat.le_max_left _ _)
    rw [hgaps, gapSum, h.lost_last _ (Nat.le_max_right _ _)] at hlost
    omega
  | cons g gaps =>
    have hg := h.track.pending g (by rw [hgaps]; exact List.mem_cons_self)
    omega

theorem FxInv.writeFxInput (h : FxInv lost played s) (hblock : s.block = none)
    (hkept : s.gapKept n) : ∃ lost', FxInv lost' played (s.writeFxInput n) := by
  have hlength := h.wet.length_inputs
  have htime := h.time
  rw [hblock, Option.getD_none, Nat.add_zero] at htime
  have hhead := StreamRing.write_head s.fxInRing (blockTimes s.out.length n)
  have hlen : (blockTimes s.out.length n).length = n := by
    simp [blockTimes]
  rw [hlen] at hhead
  have hbase := h.wet.base
  have hle := h.last_le
  have hwrite := h.wet.write (blockTimes s.out.length n)
  have hinputs : (s.inputs ++ (blockTimes s.out.length n).take s.fxInRing.writeAvailable).length
      = s.inputs.length + min n s.fxInRing.writeAvailable := by
    rw [List.length_append, List.length_take, hlen, Nat.min_comm]
  unfold FxState.writeFxInput
  rw [← blockTimes]
  dsimp only
  split
  next hfit =>
    refine ⟨lost, h.aligned, ?_, ?_, ?_, h.lost_last, ?_⟩
    . exact ⟨h.track.place, h.track.preroll, h.track.ring, h.track.pending, h.track.sorted,
        h.track.last, h.track.lost_eq, h.track.anchored⟩
    . refine ⟨?_, h.wet.fed, ?_, h.wet.returned, h.wet.items⟩
      . dsimp only
        omega
      . intro k τ hk
        unfold FxState.inputs at hk
        rw [hwrite] at hk
        exact h.inputs_write hblock (fun _ _ => rfl) hk
    . unfold FxState.inputs
      rw [hwrite, hinputs, Option.getD_some]
      dsimp only
      omega
    . unfold FxState.inputs
      rw [hwrite, hinputs]
      dsimp only
      omega
  next hdrop =>
    rcases hkept (by omega) with ⟨hextra, hroom⟩
    generalize hat : (s.fxInRing.write (blockTimes s.out.length n)).head - s.fxInBase + s.fxPipe
      = ssi
    have hssi : ssi = s.inputs.length + min n s.fxInRing.writeAvailable + s.fxPipe := by
      omega
    have hpos := h.ssiRead_le hblock
    have hroom' : s.fxGaps.length < 8 ∨ s.lastGap = ssi := by
      unfold FxState.fxInputPos at hroom
      omega
    have hlast := h.lost_last ssi (by omega)
    refine ⟨_, h.aligned, h.track.recordGap hextra (Nat.pos_of_ne_zero hdrop) (by omega) (by omega)
      hroom', ?_, ?_, ?_, ?_⟩
    . refine ⟨?_, h.wet.fed, ?_, h.wet.returned, h.wet.items⟩
      . dsimp only
        omega
      . intro k τ hk
        unfold FxState.inputs at hk
        rw [hwrite] at hk
        have hold := h.inputs_write hblock (fun _ _ => rfl) hk
        have hbound := (List.getElem?_eq_some_iff.mp hk).1
        dsimp only
        rw [if_neg (by omega), Nat.add_zero]
        exact hold
    . have hnew := congrArg List.length hwrite
      rw [hinputs] at hnew
      have hnow : ∀ x, s.inputs.length + min n s.fxInRing.writeAvailable + (lost s.lastGap + x)
          = s.out.length + min n s.fxInRing.writeAvailable + x := by
        omega
      dsimp only [FxState.inputs]
      rw [hnew, Option.getD_some, if_pos (Nat.le_refl _), hlast, hnow]
      omega
    . intro x hx
      dsimp only at hx ⊢
      rw [if_pos hx, if_pos (Nat.le_refl _), hlast, h.lost_last x (by omega)]
    . have hnew := congrArg List.length hwrite
      rw [hinputs] at hnew
      dsimp only [FxState.inputs]
      rw [hnew, hssi]

-- The feeder only moves frames from the ring to what it has sent.
theorem FxWet.inputs_feed (h : FxWet lost s) (n : Nat) : (s.feed n).inputs = s.inputs := by
  have hbase := h.base
  have hhead := s.fxInRing.head_eq
  have hstale := StreamRing.length_read s.fxInRing (s.fxInBase - s.fxInRing.tail)
  rw [← StreamRing.length_items] at hstale
  have hzero : s.fxInBase - ((s.fxInRing.read (s.fxInBase - s.fxInRing.tail)).2.read n).2.tail = 0 := by
    rw [StreamRing.read_tail, StreamRing.read_tail]
    omega
  unfold FxState.feed FxState.inputs
  dsimp only
  rw [hzero, List.drop_zero, StreamRing.items_read, StreamRing.read_fst, List.append_assoc,
    List.take_append_drop, StreamRing.items_read]

theorem wetFrame_append {fed more : List Nat} {pipe ssi : Nat} (h : ssi < fed.length)
    : FxState.wetFrame (fed ++ more) pipe ssi = FxState.wetFrame fed pipe ssi := by
  unfold FxState.wetFrame
  rw [List.getElem?_append_left (by omega)]

theorem FxInv.feed (h : FxInv lost played s) (n : Nat) : FxInv lost played (s.feed n) := by
  have hinputs := h.wet.inputs_feed n
  have hreturned := h.wet.returned
  have hring := s.audioRing.head_eq
  refine ⟨h.aligned, ?_, ?_, ?_, h.lost_last, ?_⟩
  . exact ⟨h.track.place, h.track.preroll, h.track.ring, h.track.pending, h.track.sorted,
      h.track.last, h.track.lost_eq, h.track.anchored⟩
  . refine ⟨h.wet.base, ?_, ?_, ?_, ?_⟩
    . have hbase := h.wet.base
      have hfed := h.wet.fed
      have hhead := s.fxInRing.head_eq
      have hstale := StreamRing.length_read s.fxInRing (s.fxInBase - s.fxInRing.tail)
      rw [← StreamRing.length_items] at hstale
      dsimp only [FxState.feed]
      rw [List.length_append, StreamRing.read_tail, StreamRing.read_tail]
      omega
    . rw [hinputs]
      exact h.wet.inputs
    . dsimp only [FxState.feed]
      rw [List.length_append]
      omega
    . intro i x hx
      have hx' : s.audioRing.items[i]? = some x := hx
      have hlt := (List.getElem?_eq_some_iff.mp hx').1
      dsimp only [FxState.feed]
      rw [wetFrame_append (by omega)]
      exact h.wet.items i x hx'
  . rw [hinputs]
    exact h.time
  . rw [hinputs]
    exact h.last_le

theorem FxInv.wetArrives (h : FxInv lost played s) (hsent : s.returned + n ≤ s.fed.length)
    (hroom : n ≤ s.audioRing.writeAvailable) : FxInv lost played (s.wet n) := by
  have hreturned := h.wet.returned
  have hring := s.audioRing.head_eq
  have hfits : ((List.range n).map
        (fun i => FxState.wetFrame s.fed s.fxPipe (s.returned + i))).length
      ≤ s.audioRing.writeAvailable := by
    rw [List.length_map, List.length_range]
    exact hroom
  refine ⟨h.aligned, ?_, ?_, h.time, h.lost_last, h.last_le⟩
  . exact ⟨h.track.place, h.track.preroll, h.track.ring, h.track.pending, h.track.sorted,
      h.track.last, h.track.lost_eq, h.track.anchored⟩
  . refine ⟨h.wet.base, h.wet.fed, h.wet.inputs, ?_, ?_⟩
    . dsimp only [FxState.wet]
      rw [StreamRing.write_head_of_le hfits, List.length_map, List.length_range]
      omega
    . intro i x hx
      dsimp only [FxState.wet] at hx ⊢
      rw [StreamRing.items_write_of_le hfits, List.getElem?_append] at hx
      rw [StreamRing.write_tail]
      split at hx
      next => exact h.wet.items i x hx
      next hge =>
        rw [List.getElem?_map, Option.map_eq_some_iff] at hx
        rcases hx with ⟨j, hj, heq⟩
        have hlt := (List.getElem?_eq_some_iff.mp hj).1
        rw [List.length_range] at hlt
        rw [List.getElem?_range hlt, Option.some.injEq] at hj
        rw [← heq, ← hj]
        congr 1
        omega

theorem FxInv.next (h : FxInv lost played s) (a : FxAct) (hkept : s.kept window a)
    : ∃ lost' played', FxInv lost' played' (s.next window a) := by
  rcases hkept with ⟨hgiven, hkept⟩
  unfold FxState.given at hgiven
  unfold FxState.next
  cases a with
  | writeFxInput n =>
    cases hblock : s.block with
    | none =>
      rw [hblock] at hkept
      rcases h.writeFxInput hblock hkept with ⟨lost', hwrite⟩
      exact ⟨lost', played, hwrite⟩
    | some m => exact ⟨lost, played, h⟩
  | pullFxLive conn =>
    cases hblock : s.block with
    | none => exact ⟨lost, played, h⟩
    | some n =>
      rw [hblock] at hkept hgiven
      rcases h.pullFxLive hblock hgiven hkept with ⟨played', hpull⟩
      exact ⟨lost, played', hpull⟩
  | feed n => exact ⟨lost, played, h.feed n⟩
  | wet n => exact ⟨lost, played, h.wetArrives hgiven hkept⟩

end Acts

theorem fxInv_begin (ring : StreamRing Nat inCap) (base latchedPipe pipe : Nat)
    : FxInv (fun _ => 0) 0 (fxBeginBlock ring base latchedPipe pipe : FxState inCap wetCap) := by
  have hinputs : (fxBeginBlock ring base latchedPipe pipe : FxState inCap wetCap).inputs = [] := by
    unfold FxState.inputs fxBeginBlock
    dsimp only
    rw [List.nil_append]
    apply List.drop_eq_nil_of_le
    have hhead := ring.head_eq
    omega
  have htail := ring.tail_le_head
  refine ⟨?_, ?_, ?_, ?_, fun _ _ => rfl, Nat.zero_le _⟩
  . intro t d τ ht
    simp [fxBeginBlock] at ht
  . refine ⟨?_, ⟨Nat.le_refl _, fun _ => rfl⟩, rfl, ?_, List.Pairwise.nil, ?_, fun _ _ => rfl, ?_⟩
    . simp [fxBeginBlock]
    . intro g hg
      exact absurd hg List.not_mem_nil
    . intro g hg
      simp [fxBeginBlock] at hg
    . intro hne
      exact absurd rfl hne
  . refine ⟨Nat.le_refl _, ?_, ?_, ⟨rfl, Nat.zero_le _⟩, ?_⟩
    . dsimp only [fxBeginBlock]
      rw [List.length_nil, Nat.zero_add, Nat.max_eq_left htail]
    . intro k τ hk
      rw [hinputs] at hk
      simp at hk
    . intro i x hx
      have hnil : (fxBeginBlock ring base latchedPipe pipe : FxState inCap wetCap).audioRing.items
          = [] := StreamRing.items_empty _
      rw [hnil] at hx
      simp at hx
  . rw [hinputs]
    rfl

-- Overflows with a gap of their own before any re-anchor, no wet lost, and re-anchors in blocks that
-- play no wet and with every gap behind.
theorem fxAligned_of_kept {window base latchedPipe pipe : Nat} {ring : StreamRing Nat inCap}
    {s : FxState inCap wetCap}
    (h : Run (FxState.next window) (FxState.kept window) (fxBeginBlock ring base latchedPipe pipe) s)
    : FxAligned s := by
  have hinv : ∃ lost played, FxInv lost played s := by
    apply h.inv (I := fun s => ∃ lost played, FxInv lost played s)
    . exact ⟨_, _, fxInv_begin ring base latchedPipe pipe⟩
    . rintro s a ⟨lost, played, hs⟩ ha
      exact hs.next a ha
  rcases hinv with ⟨_, _, hs⟩
  exact hs.aligned

-- A small session: a ring of 16 frames with room for four beside older input, and nine frames of
-- latency.
def shortRing : StreamRing Nat 16 where
  buf := fun _ => 0
  head := 12
  tail := 0
  tail_le := Nat.zero_le _
  fill_le := by decide

def shortStart : FxState 16 16 :=
  fxBeginBlock shortRing 9 0 0

-- The frame that does not fit comes out as silence in its place. Then a block of 12 frames finds no
-- wet, and what comes after it is that much later.
def gapInPlace : List FxAct :=
  [.writeFxInput 4, .pullFxLive true, .writeFxInput 1, .pullFxLive true, .feed 4, .wet 4,
    .writeFxInput 9, .pullFxLive true, .feed 9, .writeFxInput 12, .pullFxLive true, .wet 1,
    .writeFxInput 1, .pullFxLive true]

theorem fxAligned_gapInPlace
    : (gapInPlace.foldl (FxState.next 12) shortStart).out[12]? = some (9, some 3)
      ∧ (gapInPlace.foldl (FxState.next 12) shortStart).fxReanchors = 1
      ∧ (gapInPlace.foldl (FxState.next 12) shortStart).out[26]? = some (21, some 5)
      ∧ FxAligned (gapInPlace.foldl (FxState.next 12) shortStart) := by
  have haligned : FxAligned (gapInPlace.foldl (FxState.next 12) shortStart) :=
    fxAligned_of_kept (Run.of_guarded gapInPlace .start (by decide +kernel))
  exact ⟨by decide +kernel, by decide +kernel, by decide +kernel, haligned⟩

-- A ring of 32768 floats for two columns, with room for one pacing frame beside older input.
def staleRing : StreamRing Nat 16384 where
  buf := fun _ => 0
  head := 16128
  tail := 0
  tail_le := Nat.zero_le _
  fill_le := by decide

-- The session at 48 kHz and blocks of 256: the live latency is 512 + 256 + 255.
def fxStart : FxState 16384 16384 :=
  fxBeginBlock staleRing 1023 0 0

-- A pacing frame is sent, one frame does not fit, and the wet is a quarter of a second late.
def gapWhileLate : List FxAct :=
  [.writeFxInput 256, .pullFxLive true, .writeFxInput 1, .pullFxLive true, .feed 256,
    .writeFxInput 766, .pullFxLive true, .writeFxInput 12000, .pullFxLive true, .wet 256,
    .writeFxInput 1, .pullFxLive true]

-- The run with the cell that is wrong in it.
def lateRun : { acts : List FxAct //
    Run.Guarded (FxState.next 12000) (FxState.given 12000) fxStart acts
      ∧ (acts.foldl (FxState.next 12000) fxStart).out[13023]? = some (13022, some 0) } :=
  ⟨gapWhileLate, by decide +kernel, by decide +kernel⟩

-- The silence of the gap has been played before the wet that it follows.
theorem not_fxAligned_gapWhileLate
    : ∃ s, Run (FxState.next 12000) (FxState.given 12000) fxStart s ∧ ¬FxAligned s := by
  refine ⟨gapWhileLate.foldl (FxState.next 12000) fxStart,
    Run.of_guarded gapWhileLate .start lateRun.2.1, ?_⟩
  intro h
  have hcell : (gapWhileLate.foldl (FxState.next 12000) fxStart).out[13023]?
      = some (13022, some 0) :=
    lateRun.2.2
  have hwrong := h 13023 13022 0 hcell
  omega

end Harp
