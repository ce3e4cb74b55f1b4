import Harp.Device.Events

/-!
This module contains the closed form of a flush of the staged run, and the count of the messages
the device has handled: every EVT message counts once, now or when its run is published.
-/

namespace Harp

section Flush

variable (e : EvtState)

theorem evqPushRun_form (evs : List DevEvent)
    : evqPushRun e evs = { e with
        evq := e.evq ++ evs.take (devEvqCap - e.evq.length),
        counters := { e.counters with
          evqDrops := e.counters.evqDrops + (evs.length - (devEvqCap - e.evq.length)) } } := by
  unfold evqPushRun
  induction evs generalizing e with
  | nil => simp
  | cons ev evs ih =>
    rw [List.foldl_cons, ih, evqPush]
    split
    next hlt =>
      have hroom : devEvqCap - e.evq.length = (devEvqCap - (e.evq.length + 1)) + 1 := by omega
      simp [hroom]
    next hfull =>
      have hroom : devEvqCap - e.evq.length = 0 := by omega
      simp [hroom]
      omega

theorem evtStageFlush_form
    : evtStageFlush e = { e with
        evq := e.evq ++ e.evtStage.take (devEvqCap - e.evq.length),
        counters := { e.counters with
          evqDrops := e.counters.evqDrops + (e.evtStage.length - (devEvqCap - e.evq.length)) },
        evtConsumed := e.evtConsumed + UInt32.ofNat e.evtStage.length,
        evtStage := [] } := by
  unfold evtStageFlush
  split
  next hempty =>
    rw [List.isEmpty_iff] at hempty
    cases e
    simp_all
  next => rw [evqPushRun_form]

variable {e}

theorem evtStageFlush_of_nil (h : e.evtStage = []) : evtStageFlush e = e := by
  simp [evtStageFlush, h]

@[simp]
theorem evtStageFlush_stage : (evtStageFlush e).evtStage = [] := by
  rw [evtStageFlush_form]

@[simp]
theorem evtStageFlush_flush : evtStageFlush (evtStageFlush e) = evtStageFlush e := by
  apply evtStageFlush_of_nil
  apply evtStageFlush_stage

@[simp]
theorem evtStageFlush_staged : (evtStageFlush e).evtStaged = e.evtStaged := by
  rw [evtStageFlush_form]

@[simp]
theorem evqPush_stage (ev : DevEvent) : (evqPush e ev).evtStage = e.evtStage := by
  unfold evqPush
  split <;> rfl

@[simp]
theorem evqPush_staged (ev : DevEvent) : (evqPush e ev).evtStaged = e.evtStaged := by
  unfold evqPush
  split <;> rfl

end Flush

section Count

-- The messages the device has handled: those it has published and those of the staged run.
def EvtState.arrived (e : EvtState) : UInt32 :=
  e.evtConsumed + UInt32.ofNat e.evtStage.length

-- No message was handled; the staged run may have been published.
structure Published (e' e : EvtState) : Prop where
  arrived : e'.arrived = e.arrived
  stage : e'.evtStage.length ≤ e.evtStage.length

variable {e : EvtState}

theorem Published.refl : Published e e := by
  constructor
  . rfl
  . apply Nat.le_refl

theorem Published.of_eq {e' : EvtState} (hconsumed : e'.evtConsumed = e.evtConsumed)
    (hstage : e'.evtStage = e.evtStage) : Published e' e := by
  constructor
  . unfold EvtState.arrived
    rw [hconsumed, hstage]
  . rw [hstage]

theorem Published.trans {e' e'' : EvtState} (h : Published e'' e') (h' : Published e' e)
    : Published e'' e := by
  constructor
  . rw [h.arrived, h'.arrived]
  . apply Nat.le_trans h.stage h'.stage

theorem Published.congr {e' e'' : EvtState} (h : Published e' e)
    (hconsumed : e''.evtConsumed = e'.evtConsumed) (hstage : e''.evtStage = e'.evtStage)
    : Published e'' e :=
  (Published.of_eq hconsumed hstage).trans h

theorem evqPush_published (ev : DevEvent) : Published (evqPush e ev) e := by
  unfold evqPush
  split
  . apply Published.of_eq <;> rfl
  . apply Published.of_eq <;> rfl

theorem evtStageFlush_published : Published (evtStageFlush e) e := by
  constructor
  . simp [EvtState.arrived, evtStageFlush_form]
  . rw [evtStageFlush_stage]
    apply Nat.zero_le

-- One more message was handled.
structure Arrived (e' e : EvtState) : Prop where
  arrived : e'.arrived = e.arrived + 1
  stage : e'.evtStage.length ≤ e.evtStage.length + 1

theorem Arrived.of_published {e' e'' : EvtState} (h : Published e'' e') (h' : Arrived e' e)
    : Arrived e'' e := by
  constructor
  . rw [h.arrived, h'.arrived]
  . have := h.stage
    have := h'.stage
    omega

theorem evtStageAdd_arrived (ev : DevEvent) : Arrived (evtStageAdd e ev) e := by
  have hflush : Published (if e.evtStage.length ≥ evtStageCap then evtStageFlush e else e) e := by
    split
    . apply evtStageFlush_published
    . apply Published.refl
  unfold evtStageAdd
  dsimp only
  generalize (if e.evtStage.length ≥ evtStageCap then evtStageFlush e else e) = e' at hflush
  constructor
  . rw [← hflush.arrived]
    unfold EvtState.arrived
    rw [List.length_append, List.length_singleton, UInt32.ofNat_add, ← UInt32.add_assoc]
    rfl
  . have := hflush.stage
    rw [List.length_append, List.length_singleton]
    omega

theorem txnSubmit_arrived (txnId : Nat) (ev : DevEvent) (hstaged : e.evtStaged = false)
    : (Arrived (txnSubmit e txnId ev) e ∧ (txnSubmit e txnId ev).evtStaged = true)
        ∨ (Published (txnSubmit e txnId ev) e ∧ (txnSubmit e txnId ev).evtStaged = false) := by
  unfold txnSubmit
  split
  . exact .inl ⟨evtStageAdd_arrived ev, rfl⟩
  . apply Or.inr
    split
    . exact ⟨Published.of_eq rfl rfl, hstaged⟩
    . split
      . exact ⟨Published.of_eq rfl rfl, hstaged⟩
      . exact ⟨Published.of_eq rfl rfl, hstaged⟩

theorem txnBegin_published (id : Nat)
    : Published (txnBegin e id) e ∧ (txnBegin e id).evtStaged = e.evtStaged := by
  unfold txnBegin
  split
  . exact ⟨Published.of_eq rfl rfl, rfl⟩
  . split
    . exact ⟨Published.of_eq rfl rfl, rfl⟩
    . split
      . exact ⟨Published.of_eq rfl rfl, rfl⟩
      . exact ⟨Published.of_eq rfl rfl, rfl⟩

theorem txnAbort_published (id : Nat)
    : Published (txnAbort e id) e ∧ (txnAbort e id).evtStaged = e.evtStaged := by
  unfold txnAbort
  split
  . exact ⟨Published.of_eq rfl rfl, rfl⟩
  . exact ⟨Published.of_eq rfl rfl, rfl⟩

theorem txnCommit_published (id commitMsc : Nat)
    : Published (txnCommit e id commitMsc).2 e
        ∧ (txnCommit e id commitMsc).2.evtStaged = e.evtStaged := by
  unfold txnCommit
  split
  . exact ⟨Published.of_eq rfl rfl, rfl⟩
  next i t _ =>
    dsimp only
    split
    . exact ⟨evtStageFlush_published.congr rfl rfl, evtStageFlush_staged⟩
    . unfold evqPushBatch
      split
      . exact ⟨evtStageFlush_published.congr rfl rfl, evtStageFlush_staged⟩
      . exact ⟨evtStageFlush_published.congr rfl rfl, evtStageFlush_staged⟩

theorem noteEvt_published (ev : DevEvent)
    : Published (noteEvt e ev) e ∧ (noteEvt e ev).evtStaged = e.evtStaged := by
  unfold noteEvt
  dsimp only
  split
  . exact ⟨evtStageFlush_published, evtStageFlush_staged⟩
  . rw [evqPush_staged]
    exact ⟨(evqPush_published ev).trans evtStageFlush_published, evtStageFlush_staged⟩

theorem applyEvtMsg_arrived {s : Session} (hstaged : s.evt.evtStaged = false) (msg : EvtMsg)
    (io : WriteIo)
    : (Arrived (applyEvtMsg s msg io).evt s.evt ∧ (applyEvtMsg s msg io).evt.evtStaged = true)
        ∨ (Published (applyEvtMsg s msg io).evt s.evt
          ∧ (applyEvtMsg s msg io).evt.evtStaged = false) := by
  cases msg with
  | frameError => exact .inr ⟨Published.of_eq rfl rfl, hstaged⟩
  | stale => exact .inr ⟨Published.of_eq rfl rfl, hstaged⟩
  | ignored => exact .inr ⟨Published.refl, hstaged⟩
  | otherVoice =>
    exact .inr ⟨evtStageFlush_published, evtStageFlush_staged.trans hstaged⟩
  | note ev =>
    rcases noteEvt_published (e := s.evt) ev with ⟨hpublished, hsame⟩
    exact .inr ⟨hpublished, hsame.trans hstaged⟩
  | transport ev =>
    apply Or.inr
    constructor
    . exact (evqPush_published ev).trans evtStageFlush_published
    . exact ((evqPush_staged ev).trans evtStageFlush_staged).trans hstaged
  | submit txnId ev touches => exact txnSubmit_arrived txnId ev hstaged
  | begin_ id =>
    rcases txnBegin_published (e := s.evt) id with ⟨hpublished, hsame⟩
    exact .inr ⟨hpublished, hsame.trans hstaged⟩
  | commit id commitMsc =>
    rcases txnCommit_published (e := s.evt) id commitMsc with ⟨hpublished, hsame⟩
    exact .inr ⟨hpublished, hsame.trans hstaged⟩
  | commitStale id =>
    rcases txnAbort_published (e := s.evt) id with ⟨hpublished, hsame⟩
    exact .inr ⟨hpublished.congr rfl rfl, hsame.trans hstaged⟩
  | abort id =>
    rcases txnAbort_published (e := s.evt) id with ⟨hpublished, hsame⟩
    exact .inr ⟨hpublished, hsame.trans hstaged⟩

-- Every EVT message counts once, now or when its run is published.
theorem consumeEvt_arrived (s : Session) (buf : Bytes) (readable : Bool) (io : WriteIo)
    : Arrived (consumeEvt s buf readable io).evt s.evt := by
  have hmsg := applyEvtMsg_arrived (s := { s with evt := { s.evt with evtStaged := false } }) rfl
    (evtDecode s.audioEpoch buf) io
  unfold consumeEvt handleEvtMsg
  dsimp only
  generalize (applyEvtMsg { s with evt := { s.evt with evtStaged := false } }
    (evtDecode s.audioEpoch buf) io).evt = e' at hmsg ⊢
  have hlast : ∀ e'' : EvtState, Arrived e'' s.evt →
      Arrived (if ¬ e''.evtStage.isEmpty = true ∧ ¬ readable = true then evtStageFlush e'' else e'')
        s.evt := by
    intro e'' he''
    split
    . exact he''.of_published evtStageFlush_published
    . exact he''
  apply hlast
  rcases hmsg with ⟨hmsg, hstaged⟩ | ⟨hmsg, hstaged⟩
  . rw [if_neg (by simp [hstaged])]
    exact ⟨hmsg.arrived, hmsg.stage⟩
  . rw [if_pos (by simp [hstaged])]
    have hflush := (evtStageFlush_published (e := e')).trans hmsg
    constructor
    . have harrived : (evtStageFlush e').arrived = s.evt.arrived := hflush.arrived
      rw [← harrived]
      unfold EvtState.arrived
      rw [UInt32.add_assoc, UInt32.add_comm 1, ← UInt32.add_assoc]
    . have hstage : (evtStageFlush e').evtStage.length ≤ s.evt.evtStage.length := hflush.stage
      dsimp only
      omega

end Count

end Harp
