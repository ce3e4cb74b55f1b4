import Harp.Device.EventLemmas
import Harp.Host.FenceQueue

/-!
This module contains the soundness of the event fence: how the host's count and the device's count
of one stream are related, what a frame that passes its fence knows of the events before it, and
when the fence asks for more events than will ever come.
-/

namespace Harp

section Count

theorem next_published (s : Session) {a : SessAct} (h : a.inStream = true)
    : Published (s.next a).evt s.evt := by
  cases a with
  | evt buf readable io => cases h
  | ctl req touch =>
    cases req with
    | refs io => exact evtStageFlush_published
    | snapshot shed msg time io =>
      unfold Session.next handleCtlReq
      dsimp only
      split
      . exact evtStageFlush_published
      . exact evtStageFlush_published
    | refset body io => exact evtStageFlush_published
    | hello => cases h
    | audioStart newEpoch => cases h
    | audioStop => cases h
    | other => exact evtStageFlush_published
  | obj enc io => exact evtStageFlush_published
  | panel part id v io => exact Published.refl
  | revert refname io => exact Published.refl
  | due pos => exact Published.of_eq rfl rfl
  | advance p pos line => exact Published.refl

theorem next_audioStop_published (s : Session) (touch : WriteIo)
    : Published (s.next (.ctl .audioStop touch)).evt s.evt :=
  evtStageFlush_published.congr rfl rfl

-- A new stream counts from zero.
theorem next_audioStart_arrived (s : Session) (newEpoch : Bool) (touch : WriteIo)
    : (s.next (.ctl (.audioStart newEpoch) touch)).evt.arrived = 0
        ∧ (s.next (.ctl (.audioStart newEpoch) touch)).evt.evtStage = [] := by
  have hstage : (s.next (.ctl (.audioStart newEpoch) touch)).evt.evtStage
      = (evtStageFlush s.evt).evtStage := rfl
  rw [evtStageFlush_stage] at hstage
  constructor
  . unfold EvtState.arrived
    rw [hstage]
    rfl
  . exact hstage

end Count

section Operations

open FenceRun

-- The numbers of operations whose events are on one way, in the order of that way.
structure Numbered (n : Nat) (ops : List Nat) : Prop where
  ordered : ops.Pairwise (· < ·)
  below : ∀ op ∈ ops, op < n

variable {n : Nat} {ops : List Nat}

theorem Numbered.nil : Numbered n [] := by
  constructor
  . apply List.Pairwise.nil
  . simp

theorem Numbered.sublist {ops' : List Nat} (h : Numbered n ops) (hsub : ops'.Sublist ops)
    : Numbered n ops' := by
  constructor
  . apply List.Pairwise.sublist hsub h.ordered
  . intro op hop
    apply h.below
    apply hsub.subset hop

theorem Numbered.mono {m : Nat} (h : Numbered n ops) (hle : n ≤ m) : Numbered m ops := by
  constructor
  . exact h.ordered
  . intro op hop
    have := h.below op hop
    omega

theorem Numbered.push (h : Numbered n ops) : Numbered (n + 1) (ops ++ [n]) := by
  constructor
  . rw [List.pairwise_append]
    refine ⟨h.ordered, List.pairwise_singleton _ _, ?_⟩
    intro op hop x hx
    rw [List.mem_singleton] at hx
    rw [hx]
    apply h.below op hop
  . intro op hop
    rw [List.mem_append, List.mem_singleton] at hop
    rcases hop with hop | hop
    . have := h.below op hop
      omega
    . omega

-- The unfinished operation is the last one.
theorem finished_append_unfinished {audio : Option Nat} (h : Numbered n ops)
    (haudio : ∀ op, audio = some op → op + 1 = n)
    : finished audio ops ++ unfinished audio ops = ops := by
  unfold finished unfinished
  induction ops with
  | nil => rfl
  | cons op ops ih =>
    have htail := h.sublist (List.sublist_cons_self op ops)
    by_cases heq : some op = audio
    . have hnil : ops = [] := by
        rw [List.eq_nil_iff_forall_not_mem]
        intro x hx
        have hlt := (List.pairwise_cons.mp h.ordered).1 x hx
        have hbelow := htail.below x hx
        have := haudio op heq.symm
        omega
      rw [hnil]
      simp [heq]
    . simp only [List.filter_cons, heq, ne_eq, not_false_eq_true, decide_true, if_true,
        decide_false, Bool.false_eq_true, if_false, List.cons_append]
      rw [ih htail]

theorem unfinished_length_le (audio : Option Nat) (h : Numbered n ops)
    : (unfinished audio ops).length ≤ 1 := by
  unfold unfinished
  cases audio with
  | none => simp
  | some op =>
    have hcount : (ops.filter (fun x => some x = some op)).length = ops.count op := by
      rw [List.count_eq_length_filter]
      congr 2
      funext x
      rw [Bool.eq_iff_iff]
      simp
    rw [hcount]
    apply List.nodup_iff_count_le_one.mp
    apply List.Pairwise.imp _ h.ordered
    intro a b hlt
    omega

theorem unfinished_of_mem {op : Nat} (h : Numbered n ops) (hop : op ∈ ops)
    : (unfinished (some op) ops).length = 1 := by
  have hle := unfinished_length_le (some op) h
  have hpos : 0 < (unfinished (some op) ops).length := by
    apply List.length_pos_of_mem (a := op)
    unfold unfinished
    rw [List.mem_filter]
    exact ⟨hop, by simp⟩
  omega

theorem unfinished_of_not_mem {op : Nat} (hop : op ∉ ops) : unfinished (some op) ops = [] := by
  unfold unfinished
  rw [List.filter_eq_nil_iff]
  intro x hx heq
  simp only [Option.some.injEq, decide_eq_true_eq] at heq
  rw [heq] at hx
  exact hop hx

theorem unfinished_none : unfinished none ops = [] := by
  unfold unfinished
  rw [List.filter_eq_nil_iff]
  simp

theorem unfinished_unfinished (audio : Option Nat)
    : unfinished audio (unfinished audio ops) = unfinished audio ops := by
  unfold unfinished
  simp

end Operations

section Invariant

open FenceRun

-- The phases in which the fence of the running stream counts.
def SupPhase.streaming (p : SupPhase) : Bool :=
  p = .zeroed ∨ p = .up ∨ p = .stopping ∨ p = .stopped

def SupPhase.starting (p : SupPhase) : Bool :=
  p = .started ∨ p = .drained ∨ p = .zeroed

def FenceRun.origin (w : FenceRun) : UInt32 :=
  if w.sup = .zeroed then 0 else w.em.evtEpochBase

-- The host has counted the finished operations of the stream and at most `k` whose event is lost.
def Counted (k : Nat) (w : FenceRun) : Prop :=
  ∃ cnt late, w.em.evtQueuedSeq = w.origin + UInt32.ofNat cnt
    ∧ cnt + (unfinished w.audio w.mine).length = w.mine.length + late
    ∧ late ≤ k ∧ ∀ op, w.audio = some op → op ∉ w.mine → late < k

structure FenceInv (k : Nat) (w : FenceRun) : Prop where
  unsent : Numbered w.nextOp w.unsent
  mine : Numbered w.nextOp w.mine
  last : ∀ op, w.audio = some op → op + 1 = w.nextOp
  arrived : w.dev.evt.arrived = UInt32.ofNat w.handled.length
  stage : w.dev.evt.evtStage.length ≤ w.handled.length
  link : w.sup ≠ .up → w.sup ≠ .down → w.link = []
  pump : w.pumping = false → w.pump = []
  begun : w.sup.starting = true → w.handled = []
  stream : w.sup.streaming = true → w.sent ++ w.unsent = w.old ++ w.mine
  based : w.sup = .based → w.unsent = w.old ++ w.mine
  count : w.sup.streaming = true ∨ w.sup = .based → Counted k w

variable {k : Nat} {w : FenceRun}

theorem FenceInv.boot (dev : Device) (epoch : Nat) : FenceInv k (FenceRun.boot dev epoch) where
  unsent := Numbered.nil
  mine := Numbered.nil
  last := by
    intro op hop
    cases hop
  arrived := rfl
  stage := Nat.le_refl _
  link := by
    intro _ hdown
    exact absurd rfl hdown
  pump := by
    intro _
    rfl
  begun := by
    intro hstarting
    cases hstarting
  stream := by
    intro hstreaming
    cases hstreaming
  based := by
    intro hbased
    cases hbased
  count := by
    intro hcount
    rcases hcount with hcount | hcount
    . cases hcount
    . cases hcount

theorem unsent_push (ev : TimedEv)
    : ({ w with em := { w.em with ring := w.em.ring ++ [⟨w.nextOp, ev⟩] } } : FenceRun).unsent
        = w.unsent ++ [w.nextOp] := by
  unfold FenceRun.unsent
  simp

theorem FenceInv.pushed (h : FenceInv k w) (haudio : w.audio = none) (ev : TimedEv)
    : FenceInv k { w with
        em := { w.em with ring := w.em.ring ++ [⟨w.nextOp, ev⟩] }, nextOp := w.nextOp + 1,
        audio := some w.nextOp, mine := w.mine ++ [w.nextOp] } where
  unsent := by
    have hpush := h.unsent.push
    rw [← unsent_push ev] at hpush
    exact hpush
  mine := h.mine.push
  last := by
    intro op hop
    cases hop
    rfl
  arrived := h.arrived
  stage := h.stage
  link := h.link
  pump := h.pump
  begun := h.begun
  stream := by
    intro hstreaming
    have heq := h.stream hstreaming
    calc w.sent ++ ({ w with em := { w.em with ring := w.em.ring ++ [⟨w.nextOp, ev⟩] } } : FenceRun).unsent
        = (w.sent ++ w.unsent) ++ [w.nextOp] := by rw [unsent_push, List.append_assoc]
      _ = w.old ++ (w.mine ++ [w.nextOp]) := by rw [heq, List.append_assoc]
  based := by
    intro hbased
    have heq := h.based hbased
    calc ({ w with em := { w.em with ring := w.em.ring ++ [⟨w.nextOp, ev⟩] } } : FenceRun).unsent
        = w.unsent ++ [w.nextOp] := unsent_push ev
      _ = w.old ++ (w.mine ++ [w.nextOp]) := by rw [heq, List.append_assoc]
  count := by
    intro hphase
    rcases h.count hphase with ⟨cnt, late, hseq, hcnt, hlate, _⟩
    refine ⟨cnt, late, hseq, ?_, hlate, ?_⟩
    . rw [haudio, unfinished_none] at hcnt
      have hone : (unfinished (some w.nextOp) (w.mine ++ [w.nextOp])).length = 1 := by
        apply unfinished_of_mem h.mine.push
        simp
      dsimp only
      rw [hone, List.length_append, List.length_singleton]
      rw [List.length_nil] at hcnt
      omega
    . intro op hop hnot
      cases hop
      simp at hnot

theorem FenceInv.queue (h : FenceInv k w) (ev : TimedEv) : FenceInv k (w.next (.queue ev)) := by
  unfold FenceRun.next
  dsimp only
  split
  next => exact h
  next haudio =>
    rw [Option.not_isSome_iff_eq_none] at haudio
    unfold EventManager.push
    split
    next hpushed =>
      rw [if_pos rfl]
      exact h.pushed haudio ev
    next =>
      rw [if_neg (by simp)]
      refine { h with unsent := ?_, mine := ?_, last := ?_ }
      . exact h.unsent.mono (Nat.le_succ _)
      . exact h.mine.mono (Nat.le_succ _)
      . intro op hop
        rw [haudio] at hop
        cases hop

theorem FenceInv.counted (h : FenceInv k w) : FenceInv k (w.next .count) := by
  unfold FenceRun.next
  dsimp only
  split
  next haudio =>
    rw [Option.isSome_iff_exists] at haudio
    rcases haudio with ⟨op, hop⟩
    refine { h with last := ?_, count := ?_ }
    . intro x hx
      cases hx
    . intro hphase
      rcases h.count hphase with ⟨cnt, late, hseq, hcnt, hlate, hlost⟩
      have hseq' : w.em.evtQueuedSeq + 1 = w.origin + UInt32.ofNat (cnt + 1) := by
        rw [hseq, UInt32.ofNat_add, UInt32.add_assoc]
        rfl
      rw [hop] at hcnt
      by_cases hmem : op ∈ w.mine
      . rw [unfinished_of_mem h.mine hmem] at hcnt
        refine ⟨cnt + 1, late, hseq', ?_, hlate, ?_⟩
        . dsimp only
          rw [unfinished_none, List.length_nil]
          omega
        . intro x hx
          cases hx
      . rw [unfinished_of_not_mem hmem] at hcnt
        refine ⟨cnt + 1, late + 1, hseq', ?_, hlost op hop hmem, ?_⟩
        . dsimp only
          rw [unfinished_none]
          simp only [List.length_nil] at hcnt ⊢
          omega
        . intro x hx
          cases hx
  next => exact h

theorem unsent_drain (hpump : w.pump = [])
    : ({ w with pump := w.em.drainOwner.1, em := w.em.drainOwner.2 } : FenceRun).unsent
        = w.unsent := by
  unfold FenceRun.unsent EventManager.drainOwner
  simp only [hpump, List.map_nil, List.nil_append, List.map_map]
  have hop : (Prod.fst ∘ fun q : Queued => (q.op, (q.ev.restamp w.em.expectedTag).encode))
      = Queued.op := rfl
  rw [hop, ← List.map_append, List.take_append_drop]

theorem FenceInv.drain (h : FenceInv k w) : FenceInv k (w.next .drain) := by
  unfold FenceRun.next
  dsimp only
  split
  next hpump =>
    have heq := unsent_drain hpump.2
    refine { h with unsent := ?_, pump := ?_, stream := ?_, based := ?_ }
    . rw [heq]
      exact h.unsent
    . intro hnot
      have hpumping : w.pumping = false := hnot
      rw [hpumping] at hpump
      cases hpump.1
    . intro hstreaming
      rw [heq]
      exact h.stream hstreaming
    . intro hbased
      rw [heq]
      exact h.based hbased
  next => exact h

theorem FenceInv.write (h : FenceInv k w) : FenceInv k (w.next .write) := by
  unfold FenceRun.next
  dsimp only
  split
  next hup =>
    have hsent : ({ w with
        link := w.link ++ w.pump.map (fun m => (some m.1, m.2)), pump := [] } : FenceRun).sent
          = w.sent ++ w.pump.map Prod.fst := by
      unfold FenceRun.sent
      simp only [List.filterMap_append, List.append_assoc, List.append_cancel_left_eq]
      rw [List.filterMap_map, ← List.filterMap_eq_map]
      rfl
    refine { h with unsent := ?_, link := ?_, pump := ?_, stream := ?_, based := ?_ }
    . apply h.unsent.sublist
      apply List.sublist_append_right
    . intro hnot
      exact absurd hup hnot
    . intro _
      rfl
    . intro hstreaming
      rw [hsent, ← h.stream hstreaming]
      unfold FenceRun.unsent
      simp
    . intro hbased
      rw [hup] at hbased
      cases hbased
  next => exact h

theorem FenceInv.panic (h : FenceInv k w) : FenceInv k (w.next .panic) := by
  unfold FenceRun.next
  dsimp only
  split
  next hup =>
    have hsent : ({ w with
        link := w.link ++ [(none, panicBytes)],
        em := { w.em with panicPending := false } } : FenceRun).sent = w.sent := by
      unfold FenceRun.sent
      simp
    refine { h with link := ?_, stream := ?_ }
    . intro hnot
      exact absurd hup.1 hnot
    . intro hstreaming
      rw [hsent]
      exact h.stream hstreaming
  next => exact h

theorem sent_recv {m : Option Nat × Bytes} {link : List (Option Nat × Bytes)}
    (hlink : w.link = m :: link) (dev : Session)
    : ({ w with link, dev, handled := w.handled ++ [m.1] } : FenceRun).sent = w.sent := by
  unfold FenceRun.sent
  rw [hlink]
  rcases m with ⟨op, buf⟩
  cases op with
  | none => simp
  | some op => simp

theorem FenceInv.recv (h : FenceInv k w) (readable : Bool) (io : WriteIo)
    : FenceInv k (w.next (.recv readable io)) := by
  unfold FenceRun.next
  dsimp only
  split
  next => exact h
  next m link hlink =>
    have harrived := consumeEvt_arrived w.dev m.2 readable io
    have hbusy : w.sup = .up ∨ w.sup = .down := by
      by_contra hnot
      rw [not_or] at hnot
      rw [h.link hnot.1 hnot.2] at hlink
      cases hlink
    refine { h with arrived := ?_, stage := ?_, link := ?_, begun := ?_, stream := ?_ }
    . rw [harrived.arrived, h.arrived, List.length_append, List.length_singleton, UInt32.ofNat_add]
      rfl
    . have := harrived.stage
      have := h.stage
      dsimp only
      rw [List.length_append, List.length_singleton]
      omega
    . intro hup hdown
      rcases hbusy with hbusy | hbusy
      . exact absurd hbusy hup
      . exact absurd hbusy hdown
    . intro hstarting
      dsimp only at hstarting
      rcases hbusy with hbusy | hbusy
      . rw [hbusy] at hstarting
        cases hstarting
      . rw [hbusy] at hstarting
        cases hstarting
    . intro hstreaming
      rw [sent_recv hlink]
      exact h.stream hstreaming

theorem FenceInv.of_published (h : FenceInv k w) {dev : Session}
    (hdev : Published dev.evt w.dev.evt) : FenceInv k { w with dev } := by
  refine { h with arrived := ?_, stage := ?_ }
  . rw [hdev.arrived]
    exact h.arrived
  . apply Nat.le_trans hdev.stage h.stage

theorem FenceInv.device (h : FenceInv k w) (a : SessAct) : FenceInv k (w.next (.device a)) := by
  unfold FenceRun.next
  dsimp only
  split
  next hin => exact h.of_published (next_published w.dev hin)
  next => exact h

theorem FenceInv.stamp (h : FenceInv k w) : FenceInv k (w.next .stamp) := by
  unfold FenceRun.next
  dsimp only
  split
  next => exact { h with }
  next => exact h

theorem FenceInv.render (h : FenceInv k w) (now deadline : Nat)
    : FenceInv k (w.next (.render now deadline)) := by
  unfold FenceRun.next
  dsimp only
  split
  next => exact h
  next =>
    split
    next => exact h
    next => exact { h with }

theorem streaming_of_up (h : w.sup = .up) : w.sup.streaming = true := by
  rw [h]
  rfl

theorem FenceInv.audioStop (h : FenceInv k w) (touch : WriteIo)
    : FenceInv k (w.next (.audioStop touch)) := by
  unfold FenceRun.next
  dsimp only
  split
  next hup =>
    have hstop := h.of_published (next_audioStop_published w.dev touch)
    have hstreaming := streaming_of_up hup.1
    refine { hstop with link := ?_, pump := ?_, begun := ?_, stream := ?_, based := ?_, count := ?_ }
    . intro _ _
      exact hup.2
    . intro hnot
      cases hnot
    . intro hstarting
      cases hstarting
    . intro _
      exact h.stream hstreaming
    . intro hbased
      cases hbased
    . intro _
      rcases h.count (.inl hstreaming) with ⟨cnt, late, hseq, hrest⟩
      unfold FenceRun.origin at hseq
      rw [hup.1, if_neg (by simp)] at hseq
      exact ⟨cnt, late, hseq, hrest⟩
  next => exact h

theorem FenceInv.joined (h : FenceInv k w) : FenceInv k (w.next .joined) := by
  unfold FenceRun.next
  dsimp only
  split
  next hstopping =>
    have hstreaming : w.sup.streaming = true := by
      rw [hstopping]
      rfl
    refine { h with link := ?_, pump := ?_, begun := ?_, stream := ?_, based := ?_, count := ?_ }
    . intro _ _
      apply h.link
      . simp [hstopping]
      . simp [hstopping]
    . intro hnot
      cases hnot
    . intro hstarting
      cases hstarting
    . intro _
      exact h.stream hstreaming
    . intro hbased
      cases hbased
    . intro _
      rcases h.count (.inl hstreaming) with ⟨cnt, late, hseq, hrest⟩
      unfold FenceRun.origin at hseq
      rw [hstopping, if_neg (by simp)] at hseq
      exact ⟨cnt, late, hseq, hrest⟩
  next => exact h

-- An unfinished operation whose event is lost would be counted in the new stream.
def FenceRun.Settled (w : FenceRun) : Prop :=
  ∀ op, w.audio = some op → op ∈ w.unsent

theorem FenceInv.unsent_eq (h : FenceInv k w)
    : finished w.audio w.unsent ++ unfinished w.audio w.unsent = w.unsent :=
  finished_append_unfinished h.unsent h.last

theorem FenceInv.counted_rebase (hsettled : k = 0 → w.Settled)
    {em : EventManager} {sup : SupPhase}
    (hseq : em.evtQueuedSeq = ({ w.rebase with em, sup } : FenceRun).origin)
    : Counted k { w.rebase with em, sup } := by
  refine ⟨0, 0, ?_, ?_, Nat.zero_le k, ?_⟩
  . rw [← hseq]
    exact (UInt32.add_zero _).symm
  . unfold FenceRun.rebase
    dsimp only
    rw [unfinished_unfinished]
    omega
  . intro op hop hnot
    apply Nat.pos_of_ne_zero
    intro hk
    apply hnot
    unfold FenceRun.rebase unfinished
    rw [List.mem_filter]
    exact ⟨hsettled hk op hop, decide_eq_true hop.symm⟩

theorem FenceInv.advanceEpoch (h : FenceInv k w) (hsettled : k = 0 → w.sup = .stopped → w.Settled)
    : FenceInv k (w.next .advanceEpoch) := by
  unfold FenceRun.next
  dsimp only
  split
  next hstopped =>
    refine { h with mine := ?_, link := ?_, pump := ?_, begun := ?_, stream := ?_, based := ?_, count := ?_ }
    . apply h.unsent.sublist
      apply List.filter_sublist
    . intro _ _
      apply h.link
      . simp [hstopped]
      . simp [hstopped]
    . intro hnot
      cases hnot
    . intro hstarting
      cases hstarting
    . intro hstreaming
      cases hstreaming
    . intro _
      exact h.unsent_eq.symm
    . intro _
      apply FenceInv.counted_rebase
      . intro hk
        exact hsettled hk hstopped
      . rfl
  next => exact h

theorem FenceInv.audioStart (h : FenceInv k w) (newEpoch : Bool) (touch : WriteIo)
    : FenceInv k (w.next (.audioStart newEpoch touch)) := by
  unfold FenceRun.next
  dsimp only
  split
  next hbased =>
    have hlink : w.link = [] := by
      apply h.link
      . simp [hbased]
      . simp [hbased]
    rcases next_audioStart_arrived w.dev newEpoch touch with ⟨harrived, hstage⟩
    refine { h with arrived := ?_, stage := ?_, link := ?_, pump := ?_, begun := ?_, stream := ?_,
                    based := ?_, count := ?_ }
    . exact harrived
    . dsimp only
      rw [hstage]
      apply Nat.le_refl
    . intro hnot
      exact absurd rfl hnot
    . intro hnot
      cases hnot
    . intro hstarting
      cases hstarting
    . intro _
      rw [show ({ w with dev := w.dev.next (.ctl (.audioStart newEpoch) touch), running := true,
                         handled := [], sup := .up } : FenceRun).sent = [] by
        unfold FenceRun.sent
        simp [hlink]]
      exact h.based hbased
    . intro hnot
      cases hnot
    . intro _
      rcases h.count (.inr hbased) with ⟨cnt, late, hseq, hrest⟩
      unfold FenceRun.origin at hseq
      rw [hbased, if_neg (by simp)] at hseq
      exact ⟨cnt, late, hseq, hrest⟩
  next => exact h

theorem FenceInv.down (h : FenceInv k w) : FenceInv k (w.next .down) := by
  unfold FenceRun.next
  refine { h with unsent := ?_, link := ?_, pump := ?_, begun := ?_, stream := ?_, based := ?_, count := ?_ }
  . apply h.unsent.sublist
    apply List.sublist_append_right
  . intro _ hnot
    exact absurd rfl hnot
  . intro _
    rfl
  . intro hstarting
    cases hstarting
  . intro hstreaming
    cases hstreaming
  . intro hbased
    cases hbased
  . intro hphase
    rcases hphase with hphase | hphase
    . cases hphase
    . cases hphase

theorem FenceInv.connect (h : FenceInv k w) (newEpoch : Bool) (tag : UInt32)
    (flush touch touch' : WriteIo)
    : FenceInv k (w.next (.connect newEpoch tag flush touch touch')) := by
  unfold FenceRun.next
  dsimp only
  split
  next hdown =>
    rcases next_audioStart_arrived ((w.dev.reopen flush).next (.ctl .hello touch)) newEpoch touch'
      with ⟨harrived, hstage⟩
    refine { h with arrived := ?_, stage := ?_, link := ?_, pump := ?_, begun := ?_, stream := ?_,
                    based := ?_, count := ?_ }
    . exact harrived
    . dsimp only
      rw [hstage]
      apply Nat.le_refl
    . intro _ _
      rfl
    . intro _
      apply h.pump
      unfold FenceRun.pumping
      simp [hdown]
    . intro _
      rfl
    . intro hstreaming
      cases hstreaming
    . intro hbased
      cases hbased
    . intro hphase
      rcases hphase with hphase | hphase
      . cases hphase
      . cases hphase
  next => exact h

theorem FenceInv.drainStale (h : FenceInv k w) : FenceInv k (w.next .drainStale) := by
  unfold FenceRun.next
  dsimp only
  split
  next hstarted =>
    refine { h with unsent := ?_, stream := ?_, based := ?_, count := ?_ }
    . apply h.unsent.sublist
      unfold FenceRun.unsent
      apply List.Sublist.append (List.Sublist.refl _)
      apply List.Sublist.map
      apply List.tail_sublist
    . intro hstreaming
      have hcase : w.sup.streaming = true := hstreaming
      rw [hstarted] at hcase
      cases hcase
    . intro hbased
      have hcase : w.sup = .based := hbased
      rw [hstarted] at hcase
      cases hcase
    . intro hphase
      have hcase : w.sup.streaming = true ∨ w.sup = .based := hphase
      rw [hstarted] at hcase
      rcases hcase with hcase | hcase
      . cases hcase
      . cases hcase
  next => exact h

theorem FenceInv.drainedStale (h : FenceInv k w) : FenceInv k (w.next .drainedStale) := by
  unfold FenceRun.next
  dsimp only
  split
  next hstarted =>
    have hpump : w.pump = [] := by
      apply h.pump
      unfold FenceRun.pumping
      simp [hstarted.1]
    refine { h with link := ?_, pump := ?_, begun := ?_, stream := ?_, based := ?_, count := ?_ }
    . intro _ _
      apply h.link
      . simp [hstarted.1]
      . simp [hstarted.1]
    . intro _
      exact hpump
    . intro _
      apply h.begun
      rw [hstarted.1]
      rfl
    . intro hstreaming
      cases hstreaming
    . intro hbased
      cases hbased
    . intro hphase
      rcases hphase with hphase | hphase
      . cases hphase
      . cases hphase
  next => exact h

theorem FenceInv.zeroSeq (h : FenceInv k w) (hsettled : k = 0 → w.sup = .drained → w.Settled)
    : FenceInv k (w.next .zeroSeq) := by
  unfold FenceRun.next
  dsimp only
  split
  next hdrained =>
    have hlink : w.link = [] := by
      apply h.link
      . simp [hdrained]
      . simp [hdrained]
    have hpump : w.pump = [] := by
      apply h.pump
      unfold FenceRun.pumping
      simp [hdrained]
    have hhandled : w.handled = [] := by
      apply h.begun
      rw [hdrained]
      rfl
    refine { h with mine := ?_, link := ?_, pump := ?_, begun := ?_, stream := ?_, based := ?_, count := ?_ }
    . apply h.unsent.sublist
      apply List.filter_sublist
    . intro _ _
      exact hlink
    . intro _
      exact hpump
    . intro _
      exact hhandled
    . intro _
      have hsent : w.sent = [] := by
        unfold FenceRun.sent
        rw [hhandled, hlink]
        rfl
      calc w.sent ++ w.unsent
          = w.unsent := by rw [hsent, List.nil_append]
        _ = finished w.audio w.unsent ++ unfinished w.audio w.unsent := h.unsent_eq.symm
    . intro hbased
      cases hbased
    . intro _
      apply FenceInv.counted_rebase
      . intro hk
        exact hsettled hk hdrained
      . rfl
  next => exact h

theorem FenceInv.zeroBase (h : FenceInv k w) : FenceInv k (w.next .zeroBase) := by
  unfold FenceRun.next
  dsimp only
  split
  next hzeroed =>
    have hstreaming : w.sup.streaming = true := by
      rw [hzeroed]
      rfl
    refine { h with link := ?_, pump := ?_, begun := ?_, stream := ?_, based := ?_, count := ?_ }
    . intro hnot
      exact absurd rfl hnot
    . intro hnot
      cases hnot
    . intro hstarting
      cases hstarting
    . intro _
      exact h.stream hstreaming
    . intro hbased
      cases hbased
    . intro _
      rcases h.count (.inl hstreaming) with ⟨cnt, late, hseq, hrest⟩
      unfold FenceRun.origin at hseq
      rw [hzeroed, if_pos rfl] at hseq
      exact ⟨cnt, late, hseq, hrest⟩
  next => exact h

-- The steps that put the fence to zero find no unfinished operation whose event is lost.
def SettledStep (w : FenceRun) : FenceAct → Prop
  | .advanceEpoch => w.sup = .stopped → w.Settled
  | .zeroSeq => w.sup = .drained → w.Settled
  | _ => True

theorem FenceInv.next (h : FenceInv k w) (a : FenceAct) (hsettled : k = 0 → SettledStep w a)
    : FenceInv k (w.next a) := by
  cases a with
  | queue ev => exact h.queue ev
  | count => exact h.counted
  | drain => exact h.drain
  | write => exact h.write
  | panic => exact h.panic
  | recv readable io => exact h.recv readable io
  | device a => exact h.device a
  | stamp => exact h.stamp
  | render now deadline => exact h.render now deadline
  | audioStop touch => exact h.audioStop touch
  | joined => exact h.joined
  | advanceEpoch => exact h.advanceEpoch hsettled
  | audioStart newEpoch touch => exact h.audioStart newEpoch touch
  | down => exact h.down
  | connect newEpoch tag flush touch touch' => exact h.connect newEpoch tag flush touch touch'
  | drainStale => exact h.drainStale
  | drainedStale => exact h.drainedStale
  | zeroSeq => exact h.zeroSeq hsettled
  | zeroBase => exact h.zeroBase

end Invariant

section Overcount

open FenceRun Runs

-- The fence asks for no more events than were sent in the stream or are on their way.
def NoOvercount (w : FenceRun) : Prop :=
  w.sup = .up →
    w.em.fenceStamp.toNat ≤ (w.mine.filter (fun op => op ∈ w.sent ++ w.unsent)).length

theorem fenceStamp_le {w : FenceRun} {cnt : Nat}
    (hseq : w.em.evtQueuedSeq = w.em.evtEpochBase + UInt32.ofNat cnt)
    : w.em.fenceStamp.toNat ≤ cnt := by
  unfold EventManager.fenceStamp
  split
  . rw [hseq, UInt32.add_comm, UInt32.add_sub_cancel, UInt32.toNat_ofNat']
    apply Nat.mod_le
  . apply Nat.zero_le

theorem FenceInv.noOvercount {w : FenceRun} (h : FenceInv 0 w) : NoOvercount w := by
  intro hup
  have hstreaming := streaming_of_up hup
  rcases h.count (.inl hstreaming) with ⟨cnt, late, hseq, hcnt, hlate, _⟩
  unfold FenceRun.origin at hseq
  rw [hup, if_neg (by simp)] at hseq
  have hall : w.mine.filter (fun op => op ∈ w.sent ++ w.unsent) = w.mine := by
    rw [List.filter_eq_self]
    intro op hop
    rw [decide_eq_true_eq, h.stream hstreaming]
    exact List.mem_append_right _ hop
  rw [hall]
  have := fenceStamp_le hseq
  omega

theorem noOvercount_of_settled (dev : Device) (epoch : Nat) {w : FenceRun}
    (h : Run FenceRun.next SettledStep (FenceRun.boot dev epoch) w) : NoOvercount w := by
  apply FenceInv.noOvercount
  apply Run.inv (FenceInv.boot dev epoch) _ h
  intro w a hinv hsettled
  exact hinv.next a (fun _ => hsettled)

def bringUp : List FenceAct :=
  [.connect false 0 .ok .ok .ok, .drainedStale, .zeroSeq, .zeroBase]

def zeroSet : TimedEv :=
  ⟨.param, 1, Ieee.Fp.ofBits 0, 0, 0, 0, 0⟩

-- An event queued, counted and fenced in a stream.
def queuedOnce : List FenceAct :=
  bringUp ++ [.queue zeroSet, .count, .stamp]

theorem noOvercount_queuedOnce
    : NoOvercount (queuedOnce.foldl FenceRun.next (FenceRun.boot blankDevice 1)) := by
  apply noOvercount_of_settled blankDevice 1
  apply Run.of_guarded _ .start
  refine ⟨trivial, trivial, ?_, trivial, trivial, trivial, trivial, trivial⟩
  intro _ op hop
  cases hop

-- The event is drained as stale between its push and its count.
def drainedUncounted : List FenceAct :=
  [.queue zeroSet, .connect false 0 .ok .ok .ok, .drainStale, .drainedStale, .zeroSeq, .count, .zeroBase]

theorem not_noOvercount_drainedUncounted
    : ¬ NoOvercount (drainedUncounted.foldl FenceRun.next (FenceRun.boot blankDevice 1)) := by
  intro h
  have hle := h (by decide)
  revert hle
  decide

end Overcount

section Fence

open FenceRun Runs

variable {w : FenceRun}

-- How many of the handled messages the device has put into its queue and counted.
def FenceRun.pushedCount (w : FenceRun) : Nat :=
  w.handled.length - w.dev.evt.evtStage.length

structure FrameOk (w : FenceRun) (f : Frame) : Prop where
  order : f.after <+: w.mine
  fence : ∃ n, f.fence = UInt32.ofNat n ∧ f.after.length ≤ n ∧ n < w.pushedCount + 2 ^ 31

structure FramesInv (w : FenceRun) : Prop where
  frame : ∀ f ∈ w.frames, FrameOk w f
  order : w.frames = [] ∨ w.sent <+: w.old ++ w.mine
  phase : w.sup ≠ .up → w.sup ≠ .stopping → w.sup ≠ .down → w.frames = []

theorem FramesInv.of_nil (h : w.frames = []) : FramesInv w := by
  constructor
  . intro f hf
    rw [h] at hf
    cases hf
  . exact .inl h
  . intro _ _ _
    exact h

theorem FrameOk.mono {w' : FenceRun} {f : Frame} (h : FrameOk w f) (hmine : w.mine <+: w'.mine)
    (hcount : w.pushedCount ≤ w'.pushedCount) : FrameOk w' f := by
  rcases h.fence with ⟨n, hfence, hafter, hn⟩
  constructor
  . exact h.order.trans hmine
  . exact ⟨n, hfence, hafter, by omega⟩

theorem FramesInv.mono {w' : FenceRun} (h : FramesInv w) (hframes : w'.frames ⊆ w.frames)
    (hmine : w.mine <+: w'.mine) (hcount : w.pushedCount ≤ w'.pushedCount)
    (horder : w'.frames ≠ [] → w'.sent <+: w'.old ++ w'.mine)
    (hphase : w'.sup ≠ .up → w'.sup ≠ .stopping → w'.sup ≠ .down → w'.frames = [])
    : FramesInv w' := by
  constructor
  . intro f hf
    exact (h.frame f (hframes hf)).mono hmine hcount
  . by_cases hnil : w'.frames = []
    . exact .inl hnil
    . exact .inr (horder hnil)
  . exact hphase

theorem FenceInv.order {k : Nat} (h : FenceInv k w) (hstreaming : w.sup.streaming = true)
    : w.sent <+: w.old ++ w.mine := by
  rw [← h.stream hstreaming]
  apply List.prefix_append

theorem FramesInv.order_of_ne (h : FramesInv w) (hne : w.frames ≠ []) : w.sent <+: w.old ++ w.mine := by
  rcases h.order with hnil | horder
  . exact absurd hnil hne
  . exact horder

-- The 32-bit counter has not run past the fence's origin from behind, and fewer than `2 ^ 31`
-- messages are on their way.
def UnwrappedStep (w : FenceRun) : FenceAct → Prop
  | .stamp => w.em.evtEpochBase ≤ w.em.evtQueuedSeq ∧ w.underway + 1 < 2 ^ 31
  | _ => True

theorem finished_length {n : Nat} {audio : Option Nat} {ops : List Nat} (h : Numbered n ops)
    (haudio : ∀ op, audio = some op → op + 1 = n)
    : (finished audio ops).length + (unfinished audio ops).length = ops.length := by
  rw [← List.length_append, finished_append_unfinished h haudio]

theorem fenceStamp_eq {cnt : Nat}
    (hseq : w.em.evtQueuedSeq = w.em.evtEpochBase + UInt32.ofNat cnt)
    (hle : w.em.evtEpochBase ≤ w.em.evtQueuedSeq) : w.em.fenceStamp = UInt32.ofNat cnt := by
  have hsub : w.em.evtQueuedSeq - w.em.evtEpochBase = UInt32.ofNat cnt := by
    rw [hseq, UInt32.add_comm, UInt32.add_sub_cancel]
  unfold EventManager.fenceStamp
  split
  . exact hsub
  next hnot =>
    have heq : w.em.evtEpochBase = w.em.evtQueuedSeq := by
      apply UInt32.le_antisymm hle
      exact UInt32.not_lt.mp hnot
    rw [← hsub, heq, UInt32.sub_self]

theorem sent_length_le : w.sent.length ≤ w.handled.length + w.link.length := by
  unfold FenceRun.sent
  rw [List.length_append]
  have := List.length_filterMap_le id w.handled
  have := List.length_filterMap_le Prod.fst w.link
  omega

theorem FrameOk.stamp (h : FenceInv 1 w) (hup : w.sup = .up) (hguard : UnwrappedStep w .stamp)
    : FrameOk w ⟨w.em.fenceStamp, finished w.audio w.mine⟩ := by
  have hstreaming := streaming_of_up hup
  rcases h.count (.inl hstreaming) with ⟨cnt, late, hseq, hcnt, hlate, _⟩
  unfold FenceRun.origin at hseq
  rw [hup, if_neg (by simp)] at hseq
  have hlen := finished_length h.mine h.last
  constructor
  . have hsplit := finished_append_unfinished h.mine h.last
    exact ⟨_, hsplit⟩
  . refine ⟨cnt, fenceStamp_eq hseq hguard.1, ?_, ?_⟩
    . dsimp only
      omega
    . have hwhole := congrArg List.length (h.stream hstreaming)
      rw [List.length_append, List.length_append] at hwhole
      have hsent := sent_length_le (w := w)
      have hstage := h.stage
      have hunder := hguard.2
      unfold FenceRun.underway at hunder
      unfold FenceRun.pushedCount
      omega

theorem FramesInv.queue (h : FramesInv w) (ev : TimedEv) : FramesInv (w.next (.queue ev)) := by
  have hpush : ∀ em n, FramesInv { w with em, nextOp := n } := by
    intro em n
    exact ⟨fun f hf => ⟨(h.frame f hf).order, (h.frame f hf).fence⟩, h.order, h.phase⟩
  unfold FenceRun.next
  dsimp only
  split
  next => exact h
  next =>
    split
    next =>
      apply h.mono
      . apply List.Subset.refl
      . apply List.prefix_append
      . apply Nat.le_refl
      . intro hne
        have hmine := List.prefix_append w.mine [w.nextOp]
        exact (h.order_of_ne hne).trans ((List.prefix_append_right_inj _).mpr hmine)
      . exact h.phase
    next => apply hpush

theorem FramesInv.recv (h : FramesInv w) (hinv : FenceInv 1 w) (readable : Bool) (io : WriteIo)
    : FramesInv (w.next (.recv readable io)) := by
  unfold FenceRun.next
  dsimp only
  split
  next => exact h
  next m link hlink =>
    apply h.mono
    . apply List.Subset.refl
    . apply List.prefix_rfl
    . have hstage := (consumeEvt_arrived w.dev m.2 readable io).stage
      have hle := hinv.stage
      unfold FenceRun.pushedCount
      dsimp only
      rw [List.length_append, List.length_singleton]
      omega
    . intro hne
      rw [sent_recv hlink]
      exact h.order_of_ne hne
    . exact h.phase

theorem FramesInv.of_published (h : FramesInv w) {dev : Session}
    (hdev : Published dev.evt w.dev.evt) : FramesInv { w with dev } := by
  apply h.mono
  . apply List.Subset.refl
  . apply List.prefix_rfl
  . have := hdev.stage
    unfold FenceRun.pushedCount
    dsimp only
    omega
  . exact h.order_of_ne
  . exact h.phase

theorem FramesInv.stamp (h : FramesInv w) (hinv : FenceInv 1 w) (hguard : UnwrappedStep w .stamp)
    : FramesInv (w.next .stamp) := by
  unfold FenceRun.next
  dsimp only
  split
  next hup =>
    constructor
    . intro f hf
      rw [List.mem_append, List.mem_singleton] at hf
      rcases hf with hf | hf
      . exact ⟨(h.frame f hf).order, (h.frame f hf).fence⟩
      . have hstamp := FrameOk.stamp hinv hup hguard
        rw [hf]
        exact ⟨hstamp.order, hstamp.fence⟩
    . exact .inr (hinv.order (streaming_of_up hup))
    . intro hnot
      exact absurd hup hnot
  next => exact h

theorem FramesInv.render (h : FramesInv w) (now deadline : Nat)
    : FramesInv (w.next (.render now deadline)) := by
  unfold FenceRun.next
  dsimp only
  split
  next => exact h
  next f frames hframes =>
    split
    next => exact h
    next =>
      apply h.mono
      . rw [hframes]
        apply List.subset_cons_self
      . apply List.prefix_rfl
      . apply Nat.le_refl
      . intro _
        apply h.order_of_ne
        rw [hframes]
        simp
      . intro hup hstopping hdown
        have hnil := h.phase hup hstopping hdown
        rw [hframes] at hnil
        cases hnil

theorem FramesInv.audioStop (h : FramesInv w) (touch : WriteIo)
    : FramesInv (w.next (.audioStop touch)) := by
  unfold FenceRun.next
  dsimp only
  split
  next hup =>
    have hstop := h.of_published (next_audioStop_published w.dev touch)
    refine ⟨fun f hf => ⟨(hstop.frame f hf).order, (hstop.frame f hf).fence⟩, hstop.order, ?_⟩
    intro _ hnot
    exact absurd rfl hnot
  next => exact h

theorem FramesInv.next (h : FramesInv w) (hinv : FenceInv 1 w) (a : FenceAct)
    (hguard : UnwrappedStep w a) : FramesInv (w.next a) := by
  have hinv' := hinv.next a (by simp)
  -- a step that leaves frames, operations and device as they are
  have hkeep : ∀ w' : FenceRun, w'.frames = w.frames → w'.mine = w.mine → w'.dev = w.dev →
      w'.handled = w.handled → (w'.frames ≠ [] → w'.sent <+: w'.old ++ w'.mine) →
      (w'.sup ≠ .up → w'.sup ≠ .stopping → w'.sup ≠ .down → w'.frames = []) → FramesInv w' := by
    intro w' hframes hmine hdev hhandled horder hphase
    apply h.mono
    . rw [hframes]
      apply List.Subset.refl
    . rw [hmine]
    . unfold FenceRun.pushedCount
      rw [hdev, hhandled]
    . exact horder
    . exact hphase
  -- outside a stream no frame is on its way
  have hnone : ∀ p, w.sup = p → p ≠ .up → p ≠ .stopping → p ≠ .down → w.frames = [] := by
    intro p hp hup hstopping hdown
    rw [← hp] at hup hstopping hdown
    exact h.phase hup hstopping hdown
  cases a with
  | queue ev => exact h.queue ev
  | count =>
    unfold FenceRun.next
    dsimp only
    split
    next => exact hkeep _ rfl rfl rfl rfl h.order_of_ne h.phase
    next => exact h
  | drain =>
    unfold FenceRun.next
    dsimp only
    split
    next => exact hkeep _ rfl rfl rfl rfl h.order_of_ne h.phase
    next => exact h
  | write =>
    unfold FenceRun.next at hinv' ⊢
    dsimp only at hinv' ⊢
    split at hinv'
    next hup =>
      rw [if_pos hup]
      refine hkeep _ rfl rfl rfl rfl ?_ h.phase
      intro _
      exact hinv'.order (streaming_of_up hup)
    next hup =>
      rw [if_neg hup]
      exact h
  | panic =>
    unfold FenceRun.next at hinv' ⊢
    dsimp only at hinv' ⊢
    split at hinv'
    next hup =>
      rw [if_pos hup]
      refine hkeep _ rfl rfl rfl rfl ?_ h.phase
      intro _
      exact hinv'.order (streaming_of_up hup.1)
    next hup =>
      rw [if_neg hup]
      exact h
  | recv readable io => exact h.recv hinv readable io
  | device a =>
    unfold FenceRun.next
    dsimp only
    split
    next hin => exact h.of_published (next_published w.dev hin)
    next => exact h
  | stamp => exact h.stamp hinv hguard
  | render now deadline => exact h.render now deadline
  | audioStop touch => exact h.audioStop touch
  | joined =>
    unfold FenceRun.next
    dsimp only
    split
    next => exact FramesInv.of_nil rfl
    next => exact h
  | advanceEpoch =>
    unfold FenceRun.next
    dsimp only
    split
    next hstopped =>
      exact FramesInv.of_nil (hnone _ hstopped (by simp) (by simp) (by simp))
    next => exact h
  | audioStart newEpoch touch =>
    unfold FenceRun.next
    dsimp only
    split
    next hbased => exact FramesInv.of_nil (hnone _ hbased (by simp) (by simp) (by simp))
    next => exact h
  | down =>
    refine hkeep _ rfl rfl rfl rfl h.order_of_ne ?_
    intro _ _ hnot
    exact absurd rfl hnot
  | connect newEpoch tag flush touch touch' =>
    unfold FenceRun.next
    dsimp only
    split
    next => exact FramesInv.of_nil rfl
    next => exact h
  | drainStale =>
    unfold FenceRun.next
    dsimp only
    split
    next hstarted => exact FramesInv.of_nil (hnone _ hstarted (by simp) (by simp) (by simp))
    next => exact h
  | drainedStale =>
    unfold FenceRun.next
    dsimp only
    split
    next hstarted => exact FramesInv.of_nil (hnone _ hstarted.1 (by simp) (by simp) (by simp))
    next => exact h
  | zeroSeq =>
    unfold FenceRun.next
    dsimp only
    split
    next hdrained => exact FramesInv.of_nil (hnone _ hdrained (by simp) (by simp) (by simp))
    next => exact h
  | zeroBase =>
    unfold FenceRun.next
    dsimp only
    split
    next hzeroed => exact FramesInv.of_nil (hnone _ hzeroed (by simp) (by simp) (by simp))
    next => exact h

-- A frame that passes its fence while the stream runs.
theorem le_of_not_waits {n c : Nat} {f : Frame} {now deadline : Nat} (hfence : f.fence = UInt32.ofNat n)
    (hconsumed : w.dev.evt.evtConsumed = UInt32.ofNat c) (hlt : n < c + 2 ^ 31)
    (hrunning : w.running = true) (hpass : w.waits f now deadline = false) : n ≤ c := by
  have hpending : w.pending f ≤ 0 := by
    unfold FenceRun.waits fenceKeepWaiting at hpass
    by_contra hnot
    rw [if_neg (by simp [hnot, hrunning])] at hpass
    cases hpass
  by_contra hgt
  have hsub : f.fence - w.dev.evt.evtConsumed = UInt32.ofNat (n - c) := by
    rw [hfence, hconsumed, UInt32.ofNat_sub (by omega)]
  have hnat : (f.fence - w.dev.evt.evtConsumed).toBitVec.toNat = n - c := by
    rw [hsub]
    exact UInt32.toNat_ofNat_of_lt' (by show n - c < 2 ^ 32; omega)
  unfold FenceRun.pending at hpending
  rw [BitVec.toInt_eq_toNat_of_lt (by omega), hnat] at hpending
  omega

theorem FenceInv.evtConsumed_eq {k : Nat} (h : FenceInv k w)
    : w.dev.evt.evtConsumed = UInt32.ofNat w.pushedCount := by
  have harrived := h.arrived
  unfold EvtState.arrived at harrived
  unfold FenceRun.pushedCount
  rw [UInt32.ofNat_sub h.stage, ← harrived, UInt32.add_sub_cancel]

-- At most as many events are still to be handled, or staged, as were to be sent when the stream's
-- fence began.
theorem FramesInv.settled (h : FramesInv w) (hinv : FenceInv 1 w)
    (hpanic : ∀ m ∈ w.handled, m.isSome = true) {f : Frame} {frames : List Frame}
    {now deadline : Nat} (hframes : w.frames = f :: frames) (hrunning : w.running = true)
    (hpass : w.waits f now deadline = false) {op : Nat}
    (hop : op ∈ f.after.take (f.after.length - w.old.length))
    : some op ∈ w.handled.take w.pushedCount := by
  have hmem : f ∈ w.frames := by simp [hframes]
  rcases (h.frame f hmem).fence with ⟨n, hfence, hafter, hlt⟩
  have hle := le_of_not_waits hfence hinv.evtConsumed_eq hlt hrunning hpass
  have horder := h.order_of_ne (by simp [hframes])
  -- the first messages handled are the first operations of the stream
  generalize hc : w.pushedCount = c at hle
  have hcle : c ≤ w.handled.length := by
    rw [← hc]
    apply Nat.sub_le
  have hlen : ((w.handled.take c).filterMap id).length = c := by
    have hall : ∀ m ∈ w.handled.take c, (id m).isSome = true := by
      intro m hm
      exact hpanic m (List.mem_of_mem_take hm)
    rw [List.length_filterMap_eq_countP, List.countP_eq_length.mpr hall, List.length_take]
    omega
  have hprefix : (w.handled.take c).filterMap id <+: w.old ++ w.mine := by
    apply List.IsPrefix.trans _ horder
    apply List.IsPrefix.trans _ (List.prefix_append _ _)
    apply List.IsPrefix.filterMap
    apply List.take_prefix
  have htake : (w.handled.take c).filterMap id = (w.old ++ w.mine).take c := by
    rw [List.prefix_iff_eq_take, hlen] at hprefix
    exact hprefix
  have hstream : op ∈ (w.old ++ w.mine).take c := by
    have hmine : op ∈ w.mine.take (c - w.old.length) := by
      rcases (h.frame f hmem).order with ⟨rest, hrest⟩
      rw [← hrest]
      apply List.mem_of_mem_take (i := f.after.length - w.old.length)
      rw [List.take_take, Nat.min_eq_left (by omega), List.take_append_of_le_length (by omega)]
      exact hop
    rw [List.take_append]
    exact List.mem_append_right _ hmine
  rw [← htake, List.mem_filterMap] at hstream
  rcases hstream with ⟨m, hm, hsome⟩
  rw [← show m = some op from hsome]
  exact hm

-- The pump writes an event of the old stream after the re-negotiation.
def straddled : List FenceAct :=
  bringUp ++ [.queue zeroSet, .count, .drain, .audioStop .ok, .joined, .advanceEpoch,
    .audioStart false .ok, .queue zeroSet, .count, .stamp, .write, .recv false .ok]

end Fence

end Harp
