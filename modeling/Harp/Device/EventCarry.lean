import Harp.Device.TxnAtomic

/-!
This module contains what holds of every event that waits in the event plane: an EVT frame brings
the events it decodes to, and no other, to the queue, the staged run and the transactions.
-/

namespace Harp

section Carry

variable {P : DevEvent → Prop} {e e' : EvtState}

structure EvtState.Holding (P : DevEvent → Prop) (e : EvtState) : Prop where
  stage : ∀ ev ∈ e.evtStage, P ev
  txn : ∀ t ∈ e.txn.slots, ∀ ev ∈ t.ev, P ev

structure Brings (P : DevEvent → Prop) (e e' : EvtState) : Prop where
  holding : e'.Holding P
  evq : ∃ new, e'.evq = e.evq ++ new ∧ ∀ ev ∈ new, P ev

-- The events of a message.
def EvtMsg.Of (P : DevEvent → Prop) : EvtMsg → Prop
  | .note ev => P ev
  | .transport ev => P ev
  | .submit _ ev _ => P ev
  | _ => True

namespace Brings

theorem of_same (h : e.Holding P) (hevq : e'.evq = e.evq) (hstage : e'.evtStage = e.evtStage)
    (htxn : e'.txn = e.txn) : Brings P e e' := by
  refine ⟨⟨?_, ?_⟩, [], by simp [hevq], by simp⟩
  . rw [hstage]
    exact h.stage
  . rw [htxn]
    exact h.txn

theorem trans {e'' : EvtState} (h : Brings P e e') (h' : Brings P e' e'') : Brings P e e'' := by
  rcases h.evq with ⟨new, hnew, hall⟩
  rcases h'.evq with ⟨new', hnew', hall'⟩
  refine ⟨h'.holding, new ++ new', by rw [hnew', hnew, List.append_assoc], ?_⟩
  intro ev hev
  rw [List.mem_append] at hev
  cases hev with
  | inl hev => exact hall ev hev
  | inr hev => exact hall' ev hev

theorem flush (h : e.Holding P) : Brings P e (evtStageFlush e) := by
  rcases evtStageFlush_eq e with ⟨hevq, htxn, hstage⟩
  refine ⟨⟨?_, ?_⟩, _, hevq, fun ev hev => h.stage ev (List.mem_of_mem_take hev)⟩
  . rw [hstage]
    intro ev hev
    cases hev
  . rw [htxn]
    exact h.txn

theorem push (h : e.Holding P) {ev : DevEvent} (hev : P ev) : Brings P e (evqPush e ev) := by
  rcases evqPush_frame e ev with ⟨htxn, hstage, hevq⟩
  apply Brings.mk
  . apply EvtState.Holding.mk
    . rw [hstage]
      exact h.stage
    . rw [htxn]
      exact h.txn
  . cases hevq with
    | inl hevq => exact ⟨[ev], hevq, by simpa using hev⟩
    | inr hevq => exact ⟨[], by simp [hevq], by simp⟩

theorem note (h : e.Holding P) {ev : DevEvent} (hev : P ev) : Brings P e (noteEvt e ev) := by
  have hflush := flush h
  unfold noteEvt
  dsimp only
  split
  . exact hflush
  . exact hflush.trans (push hflush.holding hev)

theorem stageAdd (h : e.Holding P) {ev : DevEvent} (hev : P ev) : Brings P e (evtStageAdd e ev) := by
  have hroom : Brings P e (if e.evtStage.length ≥ evtStageCap then evtStageFlush e else e) := by
    split
    . exact flush h
    . exact of_same h rfl rfl rfl
  unfold evtStageAdd
  generalize (if e.evtStage.length ≥ evtStageCap then evtStageFlush e else e) = e' at hroom
  refine ⟨⟨?_, hroom.holding.txn⟩, hroom.evq⟩
  intro x hx
  rw [List.mem_append, List.mem_singleton] at hx
  cases hx with
  | inl hx => exact hroom.holding.stage x hx
  | inr hx =>
    rw [hx]
    exact hev

theorem set (h : e.Holding P) {i : Nat} {t : DevTxn} (ht : ∀ ev ∈ t.ev, P ev)
    : Brings P e { e with txn := e.txn.set i t } := by
  refine ⟨⟨h.stage, ?_⟩, [], by simp, by simp⟩
  intro x hx
  cases List.mem_or_eq_of_mem_set hx with
  | inl hx => exact h.txn x hx
  | inr hx =>
    rw [hx]
    exact ht

theorem of_txnFind (h : e.Holding P) {id i : Nat} {t : DevTxn}
    (hfound : txnFind e id = some (i, t)) : ∀ ev ∈ t.ev, P ev := by
  apply h.txn
  unfold txnFind at hfound
  rw [Option.map_eq_some_iff] at hfound
  rcases hfound with ⟨x, hx, heq⟩
  have hmem := List.mem_of_find?_eq_some hx
  rw [← Prod.swap_swap x, heq] at hmem
  exact List.fst_mem_of_mem_zipIdx hmem

theorem submit (h : e.Holding P) (txnId : Nat) {ev : DevEvent} (hev : P ev)
    : Brings P e (txnSubmit e txnId ev) := by
  unfold txnSubmit
  split
  . exact stageAdd h hev
  . split
    . exact of_same h rfl rfl rfl
    next i t hfound =>
      split
      next t' hpush =>
        apply set h
        unfold DevTxn.push at hpush
        split at hpush
        . cases hpush
          intro x hx
          rw [List.mem_append, List.mem_singleton] at hx
          cases hx with
          | inl hx => exact of_txnFind h hfound x hx
          | inr hx =>
            rw [hx]
            exact hev
        . cases hpush
      . exact of_same h rfl rfl rfl

theorem begin_ (h : e.Holding P) (id : Nat) : Brings P e (txnBegin e id) := by
  unfold txnBegin
  split
  . exact of_same h rfl rfl rfl
  . split
    . exact of_same h rfl rfl rfl
    . split
      . exact set h (by simp)
      . exact of_same h rfl rfl rfl

theorem abort (h : e.Holding P) (id : Nat) : Brings P e (txnAbort e id) := by
  unfold txnAbort
  split
  . exact of_same h rfl rfl rfl
  next i t hfound =>
    have hall := of_txnFind h hfound
    exact set (t := t.shut) h hall

theorem commit (hstamp : ∀ msc ev, P ev → P (ev.stamp msc)) (h : e.Holding P) (id commitMsc : Nat)
    : Brings P e (txnCommit e id commitMsc).2 := by
  cases hfound : txnFind e id with
  | none =>
    unfold txnCommit
    rw [hfound]
    exact of_same h rfl rfl rfl
  | some x =>
    rcases x with ⟨i, t⟩
    have hall := of_txnFind h hfound
    rcases txnCommit_eq hfound commitMsc with ⟨htxn, hstage, hevq⟩
    rcases (flush h).evq with ⟨new, hnew, hnewAll⟩
    apply Brings.mk
    . apply EvtState.Holding.mk
      . rw [hstage]
        intro ev hev
        cases hev
      . rw [htxn]
        exact (set (t := t.shut) h hall).holding.txn
    . split at hevq
      next =>
        refine ⟨new ++ t.ev.map (DevEvent.stamp commitMsc), ?_, ?_⟩
        . rw [hevq, hnew, List.append_assoc]
        . intro ev hev
          rw [List.mem_append, List.mem_map] at hev
          rcases hev with hev | ⟨ev', hev', rfl⟩
          . exact hnewAll ev hev
          . exact hstamp commitMsc ev' (hall ev' hev')
      next => exact ⟨new, hevq.trans hnew, hnewAll⟩

theorem message (hstamp : ∀ msc ev, P ev → P (ev.stamp msc)) {s : Session} (h : s.evt.Holding P)
    {msg : EvtMsg} (hmsg : msg.Of P) (io : WriteIo) : Brings P s.evt (applyEvtMsg s msg io).evt := by
  cases msg with
  | frameError => exact of_same h rfl rfl rfl
  | stale => exact of_same h rfl rfl rfl
  | ignored => exact of_same h rfl rfl rfl
  | otherVoice => exact flush h
  | note ev => exact note h hmsg
  | transport ev => exact (flush h).trans (push (flush h).holding hmsg)
  | submit txnId ev touches => exact submit h txnId hmsg
  | begin_ id => exact begin_ h id
  | commit id commitMsc => exact commit hstamp h id commitMsc
  | commitStale id =>
    have habort := abort h id
    exact habort.trans (of_same habort.holding rfl rfl rfl)
  | abort id => exact abort h id

theorem frame (hstamp : ∀ msc ev, P ev → P (ev.stamp msc)) {s : Session} (h : s.evt.Holding P)
    {buf : Bytes} (hmsg : (evtDecode s.audioEpoch buf).Of P) (readable : Bool) (io : WriteIo)
    : Brings P s.evt (consumeEvt s buf readable io).evt := by
  have hstart : Brings P s.evt { s.evt with evtStaged := false } := of_same h rfl rfl rfl
  have hstep := message (s := { s with evt := { s.evt with evtStaged := false } }) hstamp
    hstart.holding hmsg io
  unfold consumeEvt handleEvtMsg
  dsimp only
  generalize (applyEvtMsg { s with evt := { s.evt with evtStaged := false } }
    (evtDecode s.audioEpoch buf) io).evt = e at hstep
  have hlast : ∀ e₁ : EvtState, e₁.Holding P → Brings P e₁
      (if ¬ e₁.evtStage.isEmpty = true ∧ ¬ readable = true then evtStageFlush e₁ else e₁) := by
    intro e₁ h₁
    split
    . exact flush h₁
    . exact of_same h₁ rfl rfl rfl
  apply hstart.trans
  apply hstep.trans
  split
  . have hflush := flush hstep.holding
    have hcount : Brings P (evtStageFlush e)
        { evtStageFlush e with evtConsumed := (evtStageFlush e).evtConsumed + 1 } :=
      of_same hflush.holding rfl rfl rfl
    exact (hflush.trans hcount).trans (hlast _ hcount.holding)
  . exact hlast e hstep.holding

end Brings

end Carry

end Harp
