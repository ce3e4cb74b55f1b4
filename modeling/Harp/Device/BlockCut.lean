import Harp.Device.EngineLemmas

/-!
This module contains the timing of the event queue: whatever blocks a range of the stream is rendered
in, its events are applied at the same positions and in the same order.

Positions are 64 bits wide. A block that ends at the very last one has the limit 0.
-/

namespace Harp

open Timeline

variable {D X : Type} {k : Kernel D X}

section Block

variable {O : Type} {body : Nat → Nat → Engine D → Engine D × O} {append : O → O → O} {pos n : Nat}

-- Rendering voices touches neither the queue nor what was applied.
def KeepsQueue (body : Nat → Nat → Engine D → Engine D × O) : Prop :=
  ∀ seg cur e, (body seg cur e).1.applied = e.applied ∧ (body seg cur e).1.evt = e.evt

theorem mixSegment_keepsQueue : KeepsQueue (Engine.mixSegment (D := D) k) := by
  intro seg cur e
  rw [Engine.mixSegment_fst]
  exact ⟨rfl, rfl⟩

theorem Block.turn_applied (hbody : KeepsQueue body) (b : Block D O)
    : (b.turn k body append pos n).e.applied =
        b.e.applied ++ (dueAt b.e.evt.evq (u64 (pos + b.done))).map (Prod.mk (u64 (pos + b.done))) := by
  unfold Block.turn
  dsimp only
  rw [(hbody _ _ _).1, Engine.segStart_applied]

theorem Block.turn_evq (hbody : KeepsQueue body) (b : Block D O)
    : (b.turn k body append pos n).e.evt.evq =
        evqRemaining b.e.evt.evq (u64 (pos + b.done)) := by
  unfold Block.turn
  dsimp only
  rw [(hbody _ _ _).2, Engine.segStart_evt]

-- A block whose limit is a position, or that has no inside.
def WholeBlock (pos n : Nat) : Prop :=
  pos + n ≤ 2 ^ 64 ∧ (pos + n = 2 ^ 64 → n ≤ 1)

/--
No event falls inside a segment.
-/
theorem Block.turn_gap {b : Block D O} (hw : WholeBlock pos n) (hlt : b.done < n)
    : ∀ ev ∈ b.e.evt.evq, pos + b.done < ev.ts →
        pos + (b.turn k body append pos n).done ≤ ev.ts := by
  intro ev hev hts
  have hcur : u64 (pos + b.done) = pos + b.done := by
    have := hw.1
    exact Nat.mod_eq_of_lt (by omega)
  have hprog : b.done < (b.turn k body append pos n).done ∧
      (b.turn k body append pos n).done ≤ n := Block.turn_progress hlt
  by_cases hend : pos + n = 2 ^ 64
  . have := hw.2 hend
    omega
  . have hlimit : u64 (pos + n) = pos + n := by
      have := hw.1
      exact Nat.mod_eq_of_lt (by omega)
    by_cases hlim : ev.ts < pos + n
    . have hkept : ev ∈ evqRemaining b.e.evt.evq (pos + b.done) := by
        simp [evqRemaining, hev, hts]
      obtain ⟨hgt, hmin⟩ := Engine.segStart_nextOk (k := k) b.e (pos + b.done) (pos + n)
      have hnext := hmin ev hkept hlim
      have hseg : (b.turn k body append pos n).done = b.done +
          segLen (b.e.segStart k (pos + b.done) (pos + n)).2 (pos + b.done) b.done n := by
        unfold Block.turn
        simp only [hcur, hlimit]
      have hahead : pos + b.done < (b.e.segStart k (pos + b.done) (pos + n)).2 := by omega
      have hle := segLen_le hahead b.done n
      omega
    . omega

-- The queue and what was applied after the first `done` samples of a block.
structure Scheduled (e : Engine D) (pos done : Nat) (e' : Engine D) : Prop where
  applied : e'.applied = e.applied ++ schedule DevEvent.ts e.evt.evq pos done
  queue : e'.evt.evq = rest DevEvent.ts e.evt.evq pos done

theorem Scheduled.start (e : Engine D) (pos : Nat) : Scheduled e pos 0 e :=
  ⟨by simp, by simp⟩

theorem Scheduled.trans {e e' e'' : Engine D} {m n : Nat} (h : Scheduled e pos m e')
    (h' : Scheduled e' (pos + m) n e'') : Scheduled e pos (m + n) e'' := by
  constructor
  . rw [h'.applied, h.applied, h.queue, List.append_assoc, schedule_add]
  . rw [h'.queue, h.queue, rest_add]

theorem Block.turn_scheduled {b : Block D O} (hbody : KeepsQueue body) (hw : WholeBlock pos n)
    (hlt : b.done < n)
    : ∃ m, (b.turn k body append pos n).done = b.done + m ∧
        Scheduled b.e (pos + b.done) m (b.turn k body append pos n).e := by
  have hprog : b.done < (b.turn k body append pos n).done ∧
      (b.turn k body append pos n).done ≤ n := Block.turn_progress hlt
  have hgap : ∀ ev ∈ b.e.evt.evq, pos + b.done < ev.ts →
      pos + (b.turn k body append pos n).done ≤ ev.ts := Block.turn_gap hw hlt
  obtain ⟨m, hm⟩ := Nat.exists_eq_add_of_lt hprog.1
  rw [hm] at hgap
  have hcur : u64 (pos + b.done) = pos + b.done := by
    have := hw.1
    exact Nat.mod_eq_of_lt (by omega)
  have hgap' : ∀ ev ∈ b.e.evt.evq, pos + b.done < ev.ts → pos + b.done + (m + 1) ≤ ev.ts := by
    intro ev hev hts
    have := hgap ev hev hts
    omega
  refine ⟨m + 1, by omega, ?_, ?_⟩
  . rw [Block.turn_applied hbody, hcur, schedule_of_gap (by omega) hgap', dueAt]
  . rw [Block.turn_evq hbody, hcur, rest_of_gap (by omega) hgap', evqRemaining]

theorem Block.loop_scheduled (hbody : KeepsQueue body) (hw : WholeBlock pos n) (e : Engine D) (out : O)
    : Scheduled e pos n (Block.loop k body append pos n n ⟨e, 0, out⟩).e := by
  have hdone : (Block.loop k body append pos n n ⟨e, 0, out⟩).done = n :=
    Block.loop_done n (by simp) (by simp)
  have hinv : Scheduled e pos (Block.loop k body append pos n n ⟨e, 0, out⟩).done
      (Block.loop k body append pos n n ⟨e, 0, out⟩).e := by
    apply Block.loop_inv (I := fun b => Scheduled e pos b.done b.e)
    . exact Scheduled.start e pos
    . intro b hlt hb
      have hturn : ∃ m, (b.turn k body append pos n).done = b.done + m ∧
          Scheduled b.e (pos + b.done) m (b.turn k body append pos n).e :=
        Block.turn_scheduled hbody hw hlt
      obtain ⟨m, hm, hturn⟩ := hturn
      rw [hm]
      exact hb.trans hturn
  rw [hdone] at hinv
  exact hinv

end Block

section Cut

/--
Consecutive calls of `render_with_events` from `p` on.
-/
def Engine.renderCut (k : Kernel D X) (e : Engine D) (p : Nat) : List Nat → Engine D
  | [] => e
  | n :: ns => ((e.renderWithEvents k n p).1).renderCut k (u64 (p + n)) ns

/--
Every event that is due in the range is applied once, at its own position or, when that has passed,
at the first one; events of one position keep their order; the others stay queued in order; and
every turn of a render loop makes progress.
-/
structure OnTime (k : Kernel D X) (p : Nat) (ns : List Nat) : Prop where
  applied : ∀ e : Engine D, (e.renderCut k p ns).applied =
    e.applied ++ schedule DevEvent.ts e.evt.evq p ns.sum
  queued : ∀ e : Engine D, (e.renderCut k p ns).evt.evq = rest DevEvent.ts e.evt.evq p ns.sum
  progress : ∀ n ∈ ns, ∀ (pos : Nat) (b : Block D (List (X × X))), b.done < n →
    b.done < (b.turn k (Engine.mixSegment k) (· ++ ·) pos n).done ∧
      (b.turn k (Engine.mixSegment k) (· ++ ·) pos n).done ≤ n

-- No block of two samples or more ends where positions wrap.
def EndsInside (p : Nat) (ns : List Nat) : Prop :=
  ∀ pre n post, ns = pre ++ n :: post → p + pre.sum + n = 2 ^ 64 → n ≤ 1

theorem EndsInside.tail {p n : Nat} {ns : List Nat} (h : EndsInside p (n :: ns))
    : EndsInside (p + n) ns := by
  intro pre m post hns hend
  apply h (n :: pre) m post
  . rw [hns]
    rfl
  . rw [List.sum_cons]
    omega

theorem Engine.renderWithEvents_scheduled {n pos : Nat} (hw : WholeBlock pos n) (e : Engine D)
    : Scheduled e pos n (e.renderWithEvents k n pos).1 :=
  Block.loop_scheduled mixSegment_keepsQueue hw e []

theorem Engine.renderCut_zeros (e : Engine D) {p : Nat} {ns : List Nat} (h : ns.sum = 0)
    : e.renderCut k p ns = e := by
  induction ns generalizing e p with
  | nil => rfl
  | cons n ns ih =>
    rw [List.sum_cons] at h
    have hn : n = 0 := by omega
    subst hn
    unfold Engine.renderCut
    rw [ih _ (by omega)]
    rfl

theorem Engine.renderCut_append (e : Engine D) {p : Nat} (ms ns : List Nat)
    (h : p + ms.sum < 2 ^ 64)
    : e.renderCut k p (ms ++ ns) = (e.renderCut k p ms).renderCut k (p + ms.sum) ns := by
  induction ms generalizing e p with
  | nil => rfl
  | cons m ms ih =>
    rw [List.sum_cons] at h
    have hp : u64 (p + m) = p + m := Nat.mod_eq_of_lt (by omega)
    simp only [List.cons_append, Engine.renderCut, List.sum_cons, hp]
    rw [ih _ (by omega), Nat.add_assoc]

theorem Engine.renderCut_scheduled (e : Engine D) {p : Nat} {ns : List Nat}
    (hsum : p + ns.sum ≤ 2 ^ 64) (h : EndsInside p ns)
    : Scheduled e p ns.sum (e.renderCut k p ns) := by
  induction ns generalizing e p with
  | nil => exact Scheduled.start e p
  | cons n ns ih =>
    rw [List.sum_cons] at hsum ⊢
    have hw : WholeBlock p n := ⟨by omega, h [] n ns rfl⟩
    have hfirst := Engine.renderWithEvents_scheduled (k := k) hw e
    unfold Engine.renderCut
    by_cases hend : p + n = 2 ^ 64
    . have hzero : ns.sum = 0 := by omega
      rw [Engine.renderCut_zeros _ hzero, hzero]
      exact hfirst
    . have hp : u64 (p + n) = p + n := Nat.mod_eq_of_lt (by omega)
      rw [hp]
      exact hfirst.trans (ih _ (by omega) h.tail)

end Cut

section Wrap

-- No part plays and nothing queued will start one.
structure Stopped (e : Engine D) : Prop where
  playing : ∀ q, (e.parts q).arp.playing = false
  queue : ∀ ev ∈ e.evt.evq, ev.kind ≠ .transport

theorem Stopped.segStart {e : Engine D} (h : Stopped e) (cur limit : Nat)
    : Stopped (e.segStart k cur limit).1 := by
  constructor
  . intro q
    rw [Engine.segStart_playing limit q]
    . exact h.playing q
    . exact fun ev hev => h.queue ev (List.mem_of_mem_filter hev)
  . intro ev hev
    rw [Engine.segStart_evt] at hev
    exact h.queue ev (List.mem_of_mem_filter hev)

theorem Stopped.renderWithEvents {e : Engine D} (h : Stopped e) (n pos : Nat)
    : Stopped (e.renderWithEvents k n pos).1 := by
  apply Block.loop_inv (I := fun b => Stopped b.e) h
  intro b _ hb
  have hseg := hb.segStart (k := k) (u64 (pos + b.done)) (u64 (pos + n))
  unfold Block.turn
  dsimp only
  rw [Engine.mixSegment_fst]
  constructor
  . intro q
    unfold Engine.mapParts
    dsimp only
    split
    next => rw [(Aged.poolAfter _).arp]; exact hseg.playing q
    next => exact hseg.playing q
  . exact hseg.queue

theorem Stopped.renderCut {e : Engine D} (h : Stopped e) (p : Nat) (ns : List Nat)
    : Stopped (e.renderCut k p ns) := by
  induction ns generalizing e p with
  | nil => exact h
  | cons n ns ih => exact ih (h.renderWithEvents n p) _

-- Without an event below the limit and without an arp there is nothing to stop for.
theorem Stopped.segStart_next {e : Engine D} (h : Stopped e) (cur : Nat)
    : (e.segStart k cur 0).2 = 0 := by
  have hdeadlines : ∀ (e' : Engine D) (qs : List (Fin nParts)), Stopped e' →
      qs.foldl (fun next q =>
        if (e'.parts q).arpNextDeadline k cur ≠ 0 ∧
            (next = 0 ∨ (e'.parts q).arpNextDeadline k cur < next) then
          (e'.parts q).arpNextDeadline k cur else next) 0 = 0 := by
    intro e' qs he'
    induction qs with
    | nil => rfl
    | cons q qs ih =>
      rw [List.foldl_cons, Part.arpNextDeadline_stopped (he'.playing q)]
      exact ih
  have hscan : ∀ (q : List DevEvent) (s : Scan D), s.next = 0 →
      (q.foldl (Scan.event k cur 0) s).next = 0 := by
    intro q
    induction q with
    | nil => exact fun s hs => hs
    | cons ev q ih =>
      intro s hs
      apply ih
      unfold Scan.event
      split <;> simp [hs]
  have hdue : (e.evqApplyDue k cur 0).2 = 0 := hscan e.evt.evq ⟨e, [], 0⟩ rfl
  have hseg := hdeadlines _ (List.finRange nParts) (h.segStart (k := k) cur 0)
  unfold Engine.segStart at hseg ⊢
  dsimp only at hseg ⊢
  rw [hdue]
  exact hseg

/--
A block that ends where positions wrap is one segment and leaves the events inside it queued.
-/
theorem Stopped.renderWithEvents_wrap {e : Engine D} (h : Stopped e) {n pos : Nat} (hn : n ≠ 0)
    (hend : pos + n = 2 ^ 64) : (e.renderWithEvents k n pos).1.evt.evq = evqRemaining e.evt.evq pos := by
  have hlimit : u64 (pos + n) = 0 := by rw [hend]; rfl
  have hcur : u64 (pos + 0) = pos := Nat.mod_eq_of_lt (by omega)
  obtain ⟨m, rfl⟩ := Nat.exists_eq_succ_of_ne_zero hn
  have hdone : (Block.turn k (Engine.mixSegment k) (· ++ ·) pos (m + 1) ⟨e, 0, []⟩).done = m + 1 := by
    unfold Block.turn
    simp only [hlimit, hcur, h.segStart_next]
    simp [segLen]
  have hloop : (e.renderWithEvents k (m + 1) pos).1 =
      (Block.turn k (Engine.mixSegment k) (· ++ ·) pos (m + 1) ⟨e, 0, []⟩).e := by
    unfold Engine.renderWithEvents Block.loop
    dsimp only
    rw [if_pos (by omega)]
    cases m with
    | zero => rfl
    | succ m =>
      unfold Block.loop
      rw [if_neg (by omega)]
  rw [hloop, Block.turn_evq mixSegment_keepsQueue, hcur]

-- An event at the last position, which no part hears.
def lastEvent : DevEvent :=
  ⟨2 ^ 64 - 1, .mod, 0, Ieee.Fp.ofBits 0, 0, Ieee.Fp.ofBits 0, 0, 0⟩

def lastQueued (k : Kernel D X) : Engine D :=
  { Engine.boot k with evt := { EvtState.fresh with evq := [lastEvent] } }

theorem lastQueued_stopped : Stopped (lastQueued k) := by
  constructor
  . intro q
    rfl
  . simp [lastQueued, lastEvent]

theorem EndsInside.of_lt {p : Nat} {ns : List Nat} (h : p + ns.sum < 2 ^ 64) : EndsInside p ns := by
  intro pre n post hns hend
  rw [hns, List.sum_append, List.sum_cons] at h
  omega

theorem OnTime.endsInside {p : Nat} {ns : List Nat} (hsum : p + ns.sum ≤ 2 ^ 64) (h : OnTime k p ns)
    : EndsInside p ns := by
  intro pre n post hns hend
  by_contra hn
  have hlen : ns.sum = pre.sum + (n + post.sum) := by
    rw [hns, List.sum_append, List.sum_cons]
  have hrun : (lastQueued k).renderCut k p ns =
      (((lastQueued k).renderCut k p pre).renderWithEvents k n (p + pre.sum)).1 := by
    rw [hns, Engine.renderCut_append _ _ _ (by omega), Engine.renderCut,
      Engine.renderCut_zeros _ (by omega)]
  -- up to the last block the event waits, and that block does not look at it
  have hwait : ((lastQueued k).renderCut k p pre).evt.evq = [lastEvent] := by
    have hpre : EndsInside p pre := EndsInside.of_lt (by omega)
    rw [(Engine.renderCut_scheduled _ (by omega) hpre).queue, rest]
    split
    next => rfl
    next =>
      apply List.filter_eq_self.mpr
      intro ev hev
      rw [List.mem_singleton.mp hev, decide_eq_true_eq]
      show p + pre.sum ≤ 2 ^ 64 - 1
      omega
  have hkept : ((lastQueued k).renderCut k p ns).evt.evq = [lastEvent] := by
    have hstop : Stopped ((lastQueued k).renderCut k p pre) := lastQueued_stopped.renderCut p pre
    rw [hrun, hstop.renderWithEvents_wrap (by omega) hend, hwait]
    apply List.filter_eq_self.mpr
    intro ev hev
    rw [List.mem_singleton.mp hev, decide_eq_true_eq]
    show p + pre.sum < 2 ^ 64 - 1
    omega
  have hgone : rest DevEvent.ts [lastEvent] p ns.sum = [] := by
    rw [rest, if_neg (by omega), List.filter_eq_nil_iff]
    intro ev hev
    rw [List.mem_singleton.mp hev, decide_eq_true_eq]
    show ¬ p + ns.sum ≤ 2 ^ 64 - 1
    omega
  have hqueue := h.queued (lastQueued k)
  rw [hkept] at hqueue
  exact absurd (hqueue.trans hgone) (by simp)

/--
A range of 64-bit positions is rendered on time by a cut if and only if no block of two samples or
more of it ends at the last position.
-/
theorem onTime_iff (k : Kernel D X) (p : Nat) (ns : List Nat) (hsum : p + ns.sum ≤ 2 ^ 64)
    : OnTime k p ns ↔ EndsInside p ns := by
  constructor
  . exact OnTime.endsInside hsum
  . intro h
    constructor
    . exact fun e => (Engine.renderCut_scheduled e hsum h).applied
    . exact fun e => (Engine.renderCut_scheduled e hsum h).queue
    . exact fun n _ pos b hlt => Block.turn_progress hlt

theorem onTime_threeBlocks : 100 + [64, 1, 7].sum ≤ 2 ^ 64 ∧ OnTime countKernel 100 [64, 1, 7] := by
  have hsum : 100 + [64, 1, 7].sum < 2 ^ 64 := by decide
  exact ⟨hsum.le, (onTime_iff countKernel 100 [64, 1, 7] hsum.le).mpr (EndsInside.of_lt hsum)⟩

-- The limit of the block is 0, so the event at its last sample is not a place to stop.
theorem not_onTime_lastBlock : 2 ^ 64 - 4 + [4].sum ≤ 2 ^ 64 ∧ ¬ OnTime countKernel (2 ^ 64 - 4) [4] := by
  have hsum : 2 ^ 64 - 4 + [4].sum ≤ 2 ^ 64 := by decide
  refine ⟨hsum, fun h => ?_⟩
  have hle := h.endsInside hsum [] 4 [] rfl (by decide)
  omega

end Wrap

end Harp
