import Harp.Device.EventLemmas
import Harp.Device.SessionRun
import Harp.Lib.SlotMap

/-!
This module contains the contract of the event transactions: the table of the device tracks a map
from open ids to the events submitted under them, and a commit queues all it has kept of them or
nothing.
-/

namespace Harp

section Spec

-- The open transactions with everything submitted under them.
abbrev TxnSpec := List (Nat × List DevEvent)

def TxnSpec.begin_ (a : TxnSpec) (id : Nat) : TxnSpec :=
  if id = 0 ∨ (a.lookup id).isSome ∨ devTxnMax ≤ a.length then a else (id, []) :: a

def TxnSpec.submit (a : TxnSpec) (id : Nat) (ev : DevEvent) : TxnSpec :=
  a.map (fun x => if x.1 = id then (x.1, x.2 ++ [ev]) else x)

def TxnSpec.close (a : TxnSpec) (id : Nat) : TxnSpec :=
  a.filter (fun x => x.1 ≠ id)

def TxnSpec.step (a : TxnSpec) : EvtMsg → TxnSpec
  | .begin_ id => a.begin_ id
  | .submit txnId ev _ => a.submit txnId ev
  | .commit id _ | .commitStale id | .abort id => a.close id
  | _ => a

-- The event of a message that belongs to no transaction.
def EvtMsg.direct : EvtMsg → List DevEvent
  | .note ev | .transport ev => [ev]
  | .submit txnId ev _ => if txnId = 0 then [ev] else []
  | _ => []

def TxnSpec.batch (a : TxnSpec) : EvtMsg → List (List DevEvent)
  | .commit id commitMsc => (a.lookup id).toList.map (List.map (DevEvent.stamp commitMsc))
  | _ => []

-- A session with the history the contract speaks about.
structure Traced where
  s : Session
  spec : TxnSpec
  direct : List DevEvent
  batches : List (List DevEvent)

def CtlReq.clears : CtlReq → Bool
  | .hello | .audioStart _ | .audioStop => true
  | _ => false

def Traced.next (t : Traced) (a : SessAct) : Traced :=
  match a with
  | .evt buf _ _ =>
    let msg := evtDecode t.s.audioEpoch buf
    ⟨t.s.next a, t.spec.step msg, t.direct ++ msg.direct, t.batches ++ t.spec.batch msg⟩
  | .ctl req _ => { t with s := t.s.next a, spec := if req.clears then [] else t.spec }
  | _ => { t with s := t.s.next a }

def Traced.start (dev : Device) (epoch : Nat) : Traced :=
  ⟨⟨dev, EvtState.fresh, epoch⟩, [], [], []⟩

abbrev keptEvents : List DevEvent → List DevEvent :=
  List.take devTxnEventsMax

-- `kept` is what a transaction keeps of the events submitted under it.
structure TxnAtomic (kept : List DevEvent → List DevEvent) (t : Traced) : Prop where
  bounded : t.spec.length ≤ devTxnMax ∧ (t.spec.map Prod.fst).Nodup
  tracked : ∀ id, (txnFind t.s.evt id).map (fun x => x.2.ev) = (t.spec.lookup id).map kept
  sources : ∀ ev ∈ t.s.evt.evq ++ t.s.evt.evtStage,
    ev ∈ t.direct ∨ ∃ batch ∈ t.batches, ev ∈ kept batch
  commit : ∀ buf readable io id commitMsc evs,
    evtDecode t.s.audioEpoch buf = .commit id commitMsc → t.spec.lookup id = some evs →
      let before := (evtStageFlush t.s.evt).evq
      let after := (t.next (.evt buf readable io)).s.evt
      (after.evq = before ++ (kept evs).map (DevEvent.stamp commitMsc) ∨ after.evq = before)
        ∧ txnFind after id = none ∧ ∀ id', id' ≠ id → txnFind after id' = txnFind t.s.evt id'

-- With what decides between all and nothing, and what becomes of the rest.
structure TxnLaw (t : Traced) : Prop extends TxnAtomic keptEvents t where
  fits : ∀ buf readable io id commitMsc evs,
    evtDecode t.s.audioEpoch buf = .commit id commitMsc → t.spec.lookup id = some evs →
      let before := (evtStageFlush t.s.evt).evq
      (t.next (.evt buf readable io)).s.evt.evq
        = if before.length + (keptEvents evs).length ≤ devEvqCap then
            before ++ (keptEvents evs).map (DevEvent.stamp commitMsc)
          else
            before
  -- a commit for an instant of a past epoch throws the transaction away
  stale : ∀ buf readable io id, evtDecode t.s.audioEpoch buf = .commitStale id →
    let after := (t.next (.evt buf readable io)).s.evt
    after.evq = (evtStageFlush t.s.evt).evq ∧ after.counters.staleEpoch = t.s.evt.counters.staleEpoch + 1
      ∧ txnFind after id = none ∧ ∀ id', id' ≠ id → txnFind after id' = txnFind t.s.evt id'
  -- an event for a full transaction is dropped and counted
  dropped : ∀ buf readable io id ev touches evs,
    evtDecode t.s.audioEpoch buf = .submit id ev touches → t.spec.lookup id = some evs →
      devTxnEventsMax ≤ evs.length →
      let after := (t.next (.evt buf readable io)).s.evt
      after.evq = (evtStageFlush t.s.evt).evq
        ∧ after.counters.txnOverflow = t.s.evt.counters.txnOverflow + 1
        ∧ ∀ id', txnFind after id' = txnFind t.s.evt id'

end Spec

section Queue

variable (e : EvtState)

theorem evtStageFlush_eq
    : (evtStageFlush e).evq = e.evq ++ e.evtStage.take (devEvqCap - e.evq.length)
        ∧ (evtStageFlush e).txn = e.txn ∧ (evtStageFlush e).evtStage = [] := by
  rw [evtStageFlush_form]
  exact ⟨rfl, rfl, rfl⟩

theorem evqPush_frame (ev : DevEvent)
    : (evqPush e ev).txn = e.txn ∧ (evqPush e ev).evtStage = e.evtStage
        ∧ ((evqPush e ev).evq = e.evq ++ [ev] ∨ (evqPush e ev).evq = e.evq) := by
  unfold evqPush
  split
  . exact ⟨rfl, rfl, .inl rfl⟩
  . exact ⟨rfl, rfl, .inr rfl⟩

-- Staged events may have moved on to the queue or been dropped; nothing else has happened.
structure Flushed (e' e : EvtState) : Prop where
  txn : e'.txn = e.txn
  mem : ∀ ev ∈ e'.evq ++ e'.evtStage, ev ∈ e.evq ++ e.evtStage
  rest : e.evtStage = [] → e'.evq = e.evq ∧ e'.evtStage = []

theorem Flushed.refl : Flushed e e :=
  ⟨rfl, fun _ h => h, fun h => ⟨rfl, h⟩⟩

theorem flushed_flush : Flushed (evtStageFlush e) e := by
  rcases evtStageFlush_eq e with ⟨hevq, htxn, hstage⟩
  refine ⟨htxn, ?_, ?_⟩
  . intro ev hev
    rw [hevq, hstage, List.append_nil, List.mem_append] at hev
    rw [List.mem_append]
    rcases hev with hev | hev
    . exact .inl hev
    . exact .inr (List.mem_of_mem_take hev)
  . intro hnil
    rw [hevq, hnil]
    exact ⟨by simp, hstage⟩

theorem Flushed.trans {e e' e'' : EvtState} (h : Flushed e'' e') (h' : Flushed e' e) : Flushed e'' e := by
  refine ⟨h.txn.trans h'.txn, fun ev hev => h'.mem ev (h.mem ev hev), ?_⟩
  intro hnil
  rcases h'.rest hnil with ⟨hevq, hstage⟩
  rcases h.rest hstage with ⟨hevq', hstage'⟩
  exact ⟨hevq'.trans hevq, hstage'⟩

theorem consumeEvt_flushed (s : Session) (buf : Bytes) (readable : Bool) (io : WriteIo)
    : Flushed (consumeEvt s buf readable io).evt
        (applyEvtMsg { s with evt := { s.evt with evtStaged := false } }
          (evtDecode s.audioEpoch buf) io).evt := by
  unfold consumeEvt handleEvtMsg
  dsimp only
  generalize (applyEvtMsg { s with evt := { s.evt with evtStaged := false } }
    (evtDecode s.audioEpoch buf) io).evt = e
  have hlast : ∀ e₁ : EvtState, Flushed
      (if ¬ e₁.evtStage.isEmpty = true ∧ ¬ readable = true then evtStageFlush e₁ else e₁) e₁ := by
    intro e₁
    split
    . exact flushed_flush e₁
    . exact Flushed.refl e₁
  split
  . have hflush := flushed_flush e
    exact (hlast _).trans ⟨hflush.txn, hflush.mem, hflush.rest⟩
  . exact hlast e

end Queue

section Lookup

variable (a : TxnSpec) (id : Nat)

theorem lookup_cons (x : Nat × List DevEvent) (k : Nat)
    : List.lookup k (x :: a) = if k = x.1 then some x.2 else List.lookup k a := by
  rw [List.lookup]
  by_cases h : k = x.1
  . have : (k == x.1) = true := beq_iff_eq.mpr h
    simp only [this, if_pos h]
  . have : (k == x.1) = false := beq_false_of_ne h
    simp only [this, if_neg h]

theorem lookup_submit (ev : DevEvent) (k : Nat)
    : (a.submit id ev).lookup k
        = (a.lookup k).map (fun evs => if k = id then evs ++ [ev] else evs) := by
  unfold TxnSpec.submit
  induction a with
  | nil => rfl
  | cons x a ih =>
    rw [List.map_cons, lookup_cons, lookup_cons, ih]
    by_cases hx : x.1 = id
    . rw [if_pos hx]
      by_cases hk : k = x.1
      . rw [if_pos hk, if_pos hk, Option.map_some, if_pos (hk.trans hx)]
      . rw [if_neg hk, if_neg hk]
    . rw [if_neg hx]
      by_cases hk : k = x.1
      . rw [if_pos hk, if_pos hk, Option.map_some, if_neg]
        rw [hk]
        exact hx
      . rw [if_neg hk, if_neg hk]

theorem lookup_close (k : Nat)
    : (a.close id).lookup k = if k = id then none else a.lookup k := by
  unfold TxnSpec.close
  induction a with
  | nil => simp
  | cons x a ih =>
    rw [List.filter_cons, lookup_cons]
    by_cases hx : x.1 = id
    . rw [if_neg (by simp [hx]), ih]
      by_cases hk : k = id
      . rw [if_pos hk, if_pos hk]
      . rw [if_neg hk, if_neg hk, if_neg (by rw [hx]; exact hk)]
    . rw [if_pos (by simp [hx]), lookup_cons, ih]
      by_cases hk : k = x.1
      . rw [if_pos hk, if_pos hk, if_neg]
        rw [hk]
        exact hx
      . rw [if_neg hk, if_neg hk]

theorem lookup_eq_none_iff (k : Nat) : a.lookup k = none ↔ k ∉ a.map Prod.fst := by
  induction a with
  | nil => simp
  | cons x a ih =>
    rw [lookup_cons, List.map_cons, List.mem_cons]
    by_cases hk : k = x.1
    . simp [hk]
    . simp [hk, ih]

theorem close_of_lookup_none {k : Nat} (h : a.lookup k = none) : a.close k = a := by
  rw [lookup_eq_none_iff] at h
  unfold TxnSpec.close
  rw [List.filter_eq_self]
  intro x hx
  rw [decide_eq_true_eq]
  rintro rfl
  exact h (List.mem_map_of_mem hx)

theorem length_close {k : Nat} (hnodup : (a.map Prod.fst).Nodup) (h : a.lookup k ≠ none)
    : (a.close k).length + 1 = a.length := by
  induction a with
  | nil => simp at h
  | cons x a ih =>
    rw [List.map_cons, List.nodup_cons] at hnodup
    unfold TxnSpec.close
    rw [List.filter_cons]
    by_cases hx : x.1 = k
    . rw [if_neg (by simp [hx])]
      have hnone : List.lookup k a = none := by
        rw [lookup_eq_none_iff, ← hx]
        exact hnodup.1
      have := close_of_lookup_none a hnone
      unfold TxnSpec.close at this
      rw [this, List.length_cons]
    . rw [if_pos (by simp [hx]), List.length_cons, List.length_cons]
      rw [lookup_cons, if_neg (fun heq => hx heq.symm)] at h
      have := ih hnodup.2 h
      unfold TxnSpec.close at this
      omega

theorem fst_submit (ev : DevEvent) : (a.submit id ev).map Prod.fst = a.map Prod.fst := by
  unfold TxnSpec.submit
  rw [List.map_map]
  apply List.map_congr_left
  intro x _
  dsimp only [Function.comp]
  split <;> rfl

theorem nodup_close (h : (a.map Prod.fst).Nodup) : ((a.close id).map Prod.fst).Nodup :=
  h.sublist (List.filter_sublist.map _)

end Lookup

section Tracks

def DevTxn.key (t : DevTxn) : Option Nat :=
  if t.open_ then some t.id else none

theorem txnFind_eq (e : EvtState) (id : Nat)
    : txnFind e id = SlotMap.find DevTxn.key e.txn.slots id := by
  unfold txnFind SlotMap.find DevTxn.key
  congr 2
  funext x
  cases x.1.open_ <;> simp

structure Tracks (e : EvtState) (a : TxnSpec) : Prop where
  unique : SlotMap.Unique DevTxn.key e.txn.slots
  used : SlotMap.used DevTxn.key e.txn.slots = a.length
  nodup : (a.map Prod.fst).Nodup
  nonzero : a.lookup 0 = none
  find : ∀ id, (txnFind e id).map (fun x => x.2.ev) = (a.lookup id).map (List.take devTxnEventsMax)

variable {e : EvtState} {a : TxnSpec}

theorem Tracks.of_txn {e' : EvtState} (h : Tracks e a) (htxn : e'.txn = e.txn) : Tracks e' a := by
  refine ⟨?_, ?_, h.nodup, h.nonzero, ?_⟩
  . rw [htxn]
    exact h.unique
  . rw [htxn]
    exact h.used
  . intro id
    rw [← h.find id, txnFind_eq, txnFind_eq, htxn]

theorem Tracks.length_le (h : Tracks e a) : a.length ≤ devTxnMax := by
  rw [← h.used, ← e.txn.len]
  exact List.countP_le_length

theorem tracks_clear {e : EvtState} (h : e.txn = TxnTable.clear) : Tracks e [] := by
  have hfind : ∀ id, txnFind e id = none := by
    intro id
    rw [txnFind_eq, h]
    rfl
  refine ⟨?_, ?_, List.nodup_nil, rfl, ?_⟩
  . intro i j x y k hx _ hk _
    rw [h] at hx
    have := List.eq_of_mem_replicate (List.mem_of_getElem? hx)
    subst this
    cases hk
  . rw [h]
    rfl
  . intro id
    rw [hfind]
    rfl

-- A slot that was found or is free is written, and the table follows the map.
theorem txnFind_set (h : Tracks e a) {i : Nat} {x y : DevTxn} (hx : e.txn.slots[i]? = some x)
    (hfresh : ∀ k j x, y.key = some k → e.txn.slots[j]? = some x → x.key = some k → j = i) (id : Nat)
    : txnFind { e with txn := e.txn.set i y } id
        = if y.key = some id then some (i, y) else if x.key = some id then none else txnFind e id := by
  rw [txnFind_eq, txnFind_eq]
  exact SlotMap.find_set h.unique hx hfresh id

theorem Tracks.free (h : Tracks e a) : (txnFree e).isSome = true ↔ a.length < devTxnMax := by
  have hlen := e.txn.len
  rw [← h.used]
  unfold txnFree SlotMap.used
  constructor
  . intro hsome
    rw [List.findIdx?_isSome, List.any_eq_true] at hsome
    rcases hsome with ⟨x, hx, hopen⟩
    apply Nat.lt_of_le_of_ne
    . rw [← hlen]
      exact List.countP_le_length
    . rw [← hlen]
      intro hall
      rw [List.countP_eq_length] at hall
      have := hall x hx
      unfold DevTxn.key at this
      cases hx' : x.open_ <;> simp [hx'] at hopen this
  . intro hlt
    rw [List.findIdx?_isSome, List.any_eq_true]
    by_contra hnone
    push Not at hnone
    have hall : e.txn.slots.countP (fun x => (x.key).isSome) = e.txn.slots.length := by
      rw [List.countP_eq_length]
      intro x hx
      have := hnone x hx
      unfold DevTxn.key
      cases hx' : x.open_ <;> simp [hx'] at this ⊢
    omega

theorem Tracks.set (h : Tracks e a) {a' : TxnSpec} {i : Nat} {x y : DevTxn}
    (hx : e.txn.slots[i]? = some x)
    (hfresh : ∀ k j x, y.key = some k → e.txn.slots[j]? = some x → x.key = some k → j = i)
    (hlen : a'.length + x.key.isSome.toNat = a.length + y.key.isSome.toNat)
    (hnodup : (a'.map Prod.fst).Nodup) (hnonzero : a'.lookup 0 = none)
    (hfind : ∀ id, (a'.lookup id).map (List.take devTxnEventsMax)
      = if y.key = some id then some y.ev
        else if x.key = some id then none else (a.lookup id).map (List.take devTxnEventsMax))
    : Tracks { e with txn := e.txn.set i y } a' := by
  refine ⟨h.unique.set hfresh, ?_, hnodup, hnonzero, ?_⟩
  . have hused : SlotMap.used DevTxn.key (e.txn.slots.set i y) + x.key.isSome.toNat
        = SlotMap.used DevTxn.key e.txn.slots + y.key.isSome.toNat := SlotMap.used_set hx
    rw [h.used] at hused
    unfold TxnTable.set
    dsimp only
    omega
  . intro id
    rw [txnFind_set h hx hfresh, hfind id, ← h.find id]
    split
    . rfl
    . split
      . rfl
      . rfl

-- Under an id nothing is found for, nothing is open.
theorem Tracks.lookup_none (h : Tracks e a) {id : Nat} (hfound : txnFind e id = none)
    : a.lookup id = none := by
  have hfind := h.find id
  rw [hfound, Option.map_none] at hfind
  exact Option.map_eq_none_iff.mp hfind.symm

theorem Tracks.lookup_some (h : Tracks e a) {id i : Nat} {t : DevTxn}
    (hfound : txnFind e id = some (i, t))
    : ∃ evs, a.lookup id = some evs ∧ t.ev = evs.take devTxnEventsMax := by
  have hfind := h.find id
  rw [hfound, Option.map_some] at hfind
  rcases Option.map_eq_some_iff.mp hfind.symm with ⟨evs, hevs, htake⟩
  exact ⟨evs, hevs, htake.symm⟩

theorem Tracks.begin_ (h : Tracks e a) (id : Nat) : Tracks (txnBegin e id) (a.begin_ id) := by
  have hfree := h.free
  have hreject : Tracks e.reject a := h.of_txn rfl
  unfold txnBegin TxnSpec.begin_
  by_cases hzero : id = 0
  . rw [if_pos hzero, if_pos (.inl hzero)]
    exact hreject
  . rw [if_neg hzero]
    cases hfound : txnFind e id with
    | some x =>
      rcases h.lookup_some (i := x.1) (t := x.2) hfound with ⟨evs, hevs, _⟩
      rw [if_pos (.inr (.inl (by rw [hevs]; rfl)))]
      exact hreject
    | none =>
      have hnone := h.lookup_none hfound
      dsimp only
      cases hslot : txnFree e with
      | none =>
        rw [hslot] at hfree
        have hfull : devTxnMax ≤ a.length := by
          by_contra hlt
          have := hfree.mpr (by omega)
          contradiction
        rw [if_pos (.inr (.inr hfull))]
        exact hreject
      | some i =>
        rw [hslot] at hfree
        have hlt := hfree.mp rfl
        rw [if_neg]
        . rcases List.findIdx?_eq_some_iff_getElem.mp hslot with ⟨hi, hopen, _⟩
          have hx : e.txn.slots[i]? = some e.txn.slots[i] := List.getElem?_eq_getElem hi
          have hkey : e.txn.slots[i].key = none := by
            unfold DevTxn.key
            rw [Bool.not_eq_true'] at hopen
            rw [hopen]
            rfl
          apply h.set hx
          . intro k j x hk hj hkx
            cases hk
            rw [txnFind_eq] at hfound
            exact absurd hkx (SlotMap.find_none hfound hj)
          . rw [hkey]
            rfl
          . rw [List.map_cons, List.nodup_cons]
            exact ⟨(lookup_eq_none_iff a id).mp hnone, h.nodup⟩
          . rw [lookup_cons, if_neg (fun heq => hzero heq.symm)]
            exact h.nonzero
          . intro id'
            rw [lookup_cons, hkey]
            dsimp only [DevTxn.key]
            by_cases hid : id' = id
            . subst hid
              simp
            . have hid' : ¬ id = id' := fun heq => hid heq.symm
              simp [hid, hid']
        . rintro (h0 | h1 | h2)
          . exact hzero h0
          . rw [hnone] at h1
            contradiction
          . omega

theorem submit_of_lookup_none {k : Nat} (h : a.lookup k = none) (ev : DevEvent)
    : a.submit k ev = a := by
  rw [lookup_eq_none_iff] at h
  unfold TxnSpec.submit
  rw [List.map_congr_left (g := id), List.map_id]
  intro x hx
  rw [if_neg]
  . rfl
  . rintro rfl
    exact h (List.mem_map_of_mem hx)

theorem Tracks.submit (h : Tracks e a) {id : Nat} (hid : id ≠ 0) (ev : DevEvent)
    : Tracks (txnSubmit e id ev) (a.submit id ev) := by
  unfold txnSubmit
  rw [if_neg hid]
  cases hfound : txnFind e id with
  | none =>
    rw [submit_of_lookup_none (h.lookup_none hfound)]
    exact h.of_txn rfl
  | some p =>
    rcases p with ⟨i, t⟩
    rcases h.lookup_some hfound with ⟨evs, hevs, htake⟩
    rw [txnFind_eq] at hfound
    rcases SlotMap.find_some hfound with ⟨hx, hkey⟩
    have hnonzero : (a.submit id ev).lookup 0 = none := by
      rw [lookup_submit, h.nonzero]
      rfl
    have hnodup : ((a.submit id ev).map Prod.fst).Nodup := by
      rw [fst_submit]
      exact h.nodup
    have hlength : (a.submit id ev).length = a.length := List.length_map ..
    dsimp only
    unfold DevTxn.push
    split
    next t' hpush =>
      split at hpush
      next hroom =>
        cases hpush
        have hkey' : DevTxn.key ⟨t.open_, t.id, t.ev ++ [ev], by rw [List.length_append]; exact hroom⟩
            = some id := hkey
        apply h.set hx
        . intro k j x hk hj hkx
          rw [hkey'] at hk
          cases hk
          exact h.unique j i x t id hj hx hkx hkey
        . rw [hkey, hkey', hlength]
        . exact hnodup
        . exact hnonzero
        . intro id'
          rw [hkey, hkey', lookup_submit]
          by_cases hsame : id' = id
          . subst hsame
            rw [if_pos rfl, hevs]
            dsimp only [Option.map_some]
            rw [if_pos rfl, htake]
            rw [htake, List.length_take] at hroom
            have hfits : evs.length + 1 ≤ devTxnEventsMax := by omega
            rw [List.take_of_length_le (l := evs) (by omega), List.take_of_length_le]
            rw [List.length_append]
            exact hfits
          . have hsame' : ¬ some id = some id' := by
              intro heq
              cases heq
              exact hsame rfl
            rw [if_neg hsame', if_neg hsame']
            simp [hsame]
      next => cases hpush
    next hpush =>
      split at hpush
      . cases hpush
      next hfull =>
        refine ⟨h.unique, ?_, hnodup, hnonzero, ?_⟩
        . rw [hlength]
          exact h.used
        . intro id'
          have hfind := h.find id'
          rw [txnFind_eq] at hfind ⊢
          rw [hfind, lookup_submit]
          by_cases hsame : id' = id
          . subst hsame
            rw [hevs]
            dsimp only [Option.map_some]
            rw [if_pos rfl]
            rw [htake, List.length_take] at hfull
            rw [List.take_append_of_le_length (by omega)]
          . simp [hsame]

theorem Tracks.shut (h : Tracks e a) {id i : Nat} {t : DevTxn} (hfound : txnFind e id = some (i, t))
    : Tracks { e with txn := e.txn.set i t.shut } (a.close id) := by
  rcases h.lookup_some hfound with ⟨evs, hevs, _⟩
  rw [txnFind_eq] at hfound
  rcases SlotMap.find_some hfound with ⟨hx, hkey⟩
  have hkey' : t.shut.key = none := rfl
  have hlength := length_close a h.nodup (k := id) (by rw [hevs]; simp)
  apply h.set hx
  . intro k j x hk
    rw [hkey'] at hk
    cases hk
  . rw [hkey, hkey']
    exact hlength
  . exact nodup_close a id h.nodup
  . rw [lookup_close, h.nonzero]
    split <;> rfl
  . intro id'
    rw [hkey, hkey', lookup_close]
    by_cases hsame : id' = id
    . simp [hsame]
    . have hsame' : ¬ id = id' := fun heq => hsame heq.symm
      simp [hsame, hsame']

theorem Tracks.abort (h : Tracks e a) (id : Nat) : Tracks (txnAbort e id) (a.close id) := by
  unfold txnAbort
  cases hfound : txnFind e id with
  | none =>
    rw [close_of_lookup_none a (h.lookup_none hfound)]
    exact h.of_txn rfl
  | some p => exact h.shut hfound

theorem txnCommit_eq {id i : Nat} {t : DevTxn} (hfound : txnFind e id = some (i, t)) (commitMsc : Nat)
    : (txnCommit e id commitMsc).2.txn = e.txn.set i t.shut
        ∧ (txnCommit e id commitMsc).2.evtStage = []
        ∧ (txnCommit e id commitMsc).2.evq
          = if (evtStageFlush e).evq.length + t.ev.length ≤ devEvqCap then
              (evtStageFlush e).evq ++ t.ev.map (DevEvent.stamp commitMsc)
            else
              (evtStageFlush e).evq := by
  rcases evtStageFlush_eq e with ⟨_, htxn, hstage⟩
  unfold txnCommit evqPushBatch
  rw [hfound]
  dsimp only
  split
  next hzero =>
    refine ⟨by rw [htxn], hstage, ?_⟩
    rw [List.length_eq_zero_iff] at hzero
    rw [hzero, List.append_nil, ite_self]
  next =>
    rw [List.length_map]
    split
    . exact ⟨by rw [htxn], hstage, rfl⟩
    . exact ⟨by rw [htxn], hstage, rfl⟩

theorem Tracks.commit (h : Tracks e a) (id commitMsc : Nat)
    : Tracks (txnCommit e id commitMsc).2 (a.close id) := by
  cases hfound : txnFind e id with
  | none =>
    have hunknown : (txnCommit e id commitMsc).2 = e.unknown := by
      unfold txnCommit
      rw [hfound]
    rw [hunknown, close_of_lookup_none a (h.lookup_none hfound)]
    exact h.of_txn rfl
  | some p =>
    exact (h.shut (i := p.1) (t := p.2) hfound).of_txn (txnCommit_eq hfound commitMsc).1

end Tracks

section Step

variable {e : EvtState} {a : TxnSpec}

-- Where the events of the queue and of the staged run come from when a message is applied.
def Comes (e : EvtState) (a : TxnSpec) (msg : EvtMsg) (ev : DevEvent) : Prop :=
  ev ∈ e.evq ++ e.evtStage ∨ ev ∈ msg.direct ∨ ∃ batch ∈ a.batch msg, ev ∈ keptEvents batch

theorem comes_evqPush {e' : EvtState} (h : Flushed e' e) {msg : EvtMsg} {ev : DevEvent}
    (hdirect : msg.direct = [ev])
    : ∀ x ∈ (evqPush e' ev).evq ++ (evqPush e' ev).evtStage, Comes e a msg x := by
  intro x hx
  rcases evqPush_frame e' ev with ⟨_, hstage, hevq⟩
  rw [hstage, List.mem_append] at hx
  rcases hx with hx | hx
  . rcases hevq with hevq | hevq
    . rw [hevq, List.mem_append, List.mem_singleton] at hx
      rcases hx with hx | rfl
      . exact .inl (h.mem x (List.mem_append_left _ hx))
      . apply Or.inr (Or.inl _)
        rw [hdirect]
        exact List.mem_singleton.mpr rfl
    . rw [hevq] at hx
      exact .inl (h.mem x (List.mem_append_left _ hx))
  . exact .inl (h.mem x (List.mem_append_right _ hx))

theorem comes_stageAdd {txnId : Nat} (ev : DevEvent) (touches : Bool) (hzero : txnId = 0)
    : (evtStageAdd e ev).txn = e.txn
        ∧ ∀ x ∈ (evtStageAdd e ev).evq ++ (evtStageAdd e ev).evtStage,
          Comes e a (.submit txnId ev touches) x := by
  have hflushed : Flushed (if e.evtStage.length ≥ evtStageCap then evtStageFlush e else e) e := by
    split
    . exact flushed_flush e
    . exact Flushed.refl e
  unfold evtStageAdd
  generalize (if e.evtStage.length ≥ evtStageCap then evtStageFlush e else e) = e' at hflushed
  refine ⟨hflushed.txn, ?_⟩
  intro x hx
  dsimp only at hx
  rw [← List.append_assoc, List.mem_append, List.mem_singleton] at hx
  rcases hx with hx | rfl
  . exact .inl (hflushed.mem x hx)
  . apply Or.inr (Or.inl _)
    simp [EvtMsg.direct, hzero]

theorem txnBegin_evq (id : Nat)
    : (txnBegin e id).evq = e.evq ∧ (txnBegin e id).evtStage = e.evtStage := by
  unfold txnBegin
  split
  . exact ⟨rfl, rfl⟩
  . split
    . exact ⟨rfl, rfl⟩
    . split
      . exact ⟨rfl, rfl⟩
      . exact ⟨rfl, rfl⟩

theorem txnAbort_evq (id : Nat)
    : (txnAbort e id).evq = e.evq ∧ (txnAbort e id).evtStage = e.evtStage := by
  unfold txnAbort
  split
  . exact ⟨rfl, rfl⟩
  . exact ⟨rfl, rfl⟩

theorem txnSubmit_evq {txnId : Nat} (hid : txnId ≠ 0) (ev : DevEvent)
    : (txnSubmit e txnId ev).evq = e.evq ∧ (txnSubmit e txnId ev).evtStage = e.evtStage := by
  unfold txnSubmit
  rw [if_neg hid]
  split
  . exact ⟨rfl, rfl⟩
  . split
    . exact ⟨rfl, rfl⟩
    . exact ⟨rfl, rfl⟩

theorem comes_of_eq {e' : EvtState} (h : e'.evq = e.evq ∧ e'.evtStage = e.evtStage) (msg : EvtMsg)
    : ∀ x ∈ e'.evq ++ e'.evtStage, Comes e a msg x := by
  intro x hx
  rw [h.1, h.2] at hx
  exact .inl hx

theorem comes_commit (h : Tracks e a) (id commitMsc : Nat)
    : ∀ x ∈ (txnCommit e id commitMsc).2.evq ++ (txnCommit e id commitMsc).2.evtStage,
        Comes e a (.commit id commitMsc) x := by
  cases hfound : txnFind e id with
  | none =>
    have hunknown : (txnCommit e id commitMsc).2 = e.unknown := by
      unfold txnCommit
      rw [hfound]
    rw [hunknown]
    exact comes_of_eq ⟨rfl, rfl⟩ _
  | some p =>
    rcases h.lookup_some (i := p.1) (t := p.2) hfound with ⟨evs, hevs, htake⟩
    rcases txnCommit_eq (i := p.1) (t := p.2) hfound commitMsc with ⟨_, hstage, hevq⟩
    have hflush := flushed_flush e
    intro x hx
    rw [hstage, List.append_nil] at hx
    have hbefore : x ∈ (evtStageFlush e).evq → Comes e a (.commit id commitMsc) x := by
      intro hmem
      exact .inl (hflush.mem x (List.mem_append_left _ hmem))
    rw [hevq] at hx
    split at hx
    . rw [List.mem_append] at hx
      rcases hx with hx | hx
      . exact hbefore hx
      . apply Or.inr (Or.inr _)
        refine ⟨evs.map (DevEvent.stamp commitMsc), ?_, ?_⟩
        . simp [TxnSpec.batch, hevs]
        . rw [htake, List.map_take] at hx
          exact hx
    . exact hbefore hx

-- What one message does to the table, the queue and the staged run.
theorem applyEvtMsg_step {s : Session} (h : Tracks s.evt a) (msg : EvtMsg) (io : WriteIo)
    : Tracks (applyEvtMsg s msg io).evt (a.step msg)
        ∧ ∀ x ∈ (applyEvtMsg s msg io).evt.evq ++ (applyEvtMsg s msg io).evt.evtStage,
          Comes s.evt a msg x := by
  have hflush := flushed_flush s.evt
  cases msg with
  | frameError => exact ⟨h.of_txn rfl, comes_of_eq ⟨rfl, rfl⟩ _⟩
  | stale => exact ⟨h.of_txn rfl, comes_of_eq ⟨rfl, rfl⟩ _⟩
  | ignored => exact ⟨h, comes_of_eq ⟨rfl, rfl⟩ _⟩
  | otherVoice => exact ⟨h.of_txn hflush.txn, fun x hx => .inl (hflush.mem x hx)⟩
  | note ev =>
    unfold applyEvtMsg noteEvt
    dsimp only
    split
    . exact ⟨h.of_txn hflush.txn, fun x hx => .inl (hflush.mem x hx)⟩
    . exact ⟨h.of_txn ((evqPush_frame _ ev).1.trans hflush.txn), comes_evqPush hflush rfl⟩
  | transport ev =>
    exact ⟨h.of_txn ((evqPush_frame _ ev).1.trans hflush.txn), comes_evqPush hflush rfl⟩
  | submit txnId ev touches =>
    unfold applyEvtMsg
    dsimp only
    by_cases hid : txnId = 0
    . rcases comes_stageAdd (e := s.evt) (a := a) ev touches hid with
        ⟨htxn, hcomes⟩
      have hsubmit : txnSubmit s.evt txnId ev = evtStageAdd s.evt ev := by
        unfold txnSubmit
        rw [if_pos hid]
      have hspec : a.step (.submit txnId ev touches) = a :=
        submit_of_lookup_none (by rw [hid]; exact h.nonzero) ev
      rw [hsubmit, hspec]
      exact ⟨h.of_txn htxn, hcomes⟩
    . exact ⟨h.submit hid ev, comes_of_eq (txnSubmit_evq hid ev) _⟩
  | begin_ id => exact ⟨h.begin_ id, comes_of_eq (txnBegin_evq id) _⟩
  | commit id commitMsc => exact ⟨h.commit id commitMsc, comes_commit h id commitMsc⟩
  | commitStale id =>
    exact ⟨(h.abort id).of_txn rfl, comes_of_eq (txnAbort_evq id) _⟩
  | abort id => exact ⟨h.abort id, comes_of_eq (txnAbort_evq id) _⟩

end Step

section Run

structure TraceInv (t : Traced) : Prop where
  tracks : Tracks t.s.evt t.spec
  sources : ∀ ev ∈ t.s.evt.evq ++ t.s.evt.evtStage,
    ev ∈ t.direct ∨ ∃ batch ∈ t.batches, ev ∈ keptEvents batch

variable {t : Traced}

-- A step that neither opens nor closes a transaction and brings no event.
theorem TraceInv.flushed {s : Session} (h : TraceInv t) (hflushed : Flushed s.evt t.s.evt)
    : TraceInv { t with s } :=
  ⟨h.tracks.of_txn hflushed.txn, fun ev hev => h.sources ev (hflushed.mem ev hev)⟩

theorem TraceInv.evt (h : TraceInv t) (buf : Bytes) (readable : Bool) (io : WriteIo)
    : TraceInv (t.next (.evt buf readable io)) := by
  have hflushed := consumeEvt_flushed t.s buf readable io
  have htracks : Tracks { t.s.evt with evtStaged := false } t.spec := h.tracks.of_txn rfl
  rcases applyEvtMsg_step (s := { t.s with evt := { t.s.evt with evtStaged := false } }) htracks
    (evtDecode t.s.audioEpoch buf) io with ⟨hstep, hcomes⟩
  refine ⟨hstep.of_txn hflushed.txn, ?_⟩
  intro ev hev
  unfold Traced.next
  dsimp only
  rcases hcomes ev (hflushed.mem ev hev) with hold | hdirect | ⟨batch, hbatch, hmem⟩
  . rcases h.sources ev hold with hdirect | ⟨batch, hbatch, hmem⟩
    . exact .inl (List.mem_append_left _ hdirect)
    . exact .inr ⟨batch, List.mem_append_left _ hbatch, hmem⟩
  . exact .inl (List.mem_append_right _ hdirect)
  . exact .inr ⟨batch, List.mem_append_right _ hbatch, hmem⟩

theorem TraceInv.ctl (h : TraceInv t) (req : CtlReq) (touch : WriteIo)
    : TraceInv (t.next (.ctl req touch)) := by
  have hflush := flushed_flush t.s.evt
  have hkeep := h.flushed (s := { t.s with evt := evtStageFlush t.s.evt }) hflush
  cases req with
  | refs io => exact ⟨hkeep.tracks, hkeep.sources⟩
  | snapshot shed msg time io =>
    cases shed with
    | true => exact ⟨hkeep.tracks, hkeep.sources⟩
    | false => exact ⟨hkeep.tracks, hkeep.sources⟩
  | refset body io => exact ⟨hkeep.tracks, hkeep.sources⟩
  | hello => exact ⟨tracks_clear rfl, hkeep.sources⟩
  | audioStart newEpoch =>
    refine ⟨tracks_clear rfl, ?_⟩
    intro ev hev
    apply hkeep.sources ev
    exact List.mem_append_right _ hev
  | audioStop => exact ⟨tracks_clear rfl, hkeep.sources⟩
  | other => exact ⟨hkeep.tracks, hkeep.sources⟩

theorem TraceInv.next (h : TraceInv t) (a : SessAct) : TraceInv (t.next a) := by
  cases a with
  | evt buf readable io => exact h.evt buf readable io
  | ctl req touch => exact h.ctl req touch
  | obj enc io => exact h.flushed (flushed_flush t.s.evt)
  | panel part id v io => exact h.flushed (Flushed.refl t.s.evt)
  | revert refname io => exact h.flushed (Flushed.refl t.s.evt)
  | due pos =>
    refine ⟨h.tracks.of_txn rfl, ?_⟩
    intro ev hev
    apply h.sources ev
    rw [List.mem_append] at hev ⊢
    rcases hev with hev | hev
    . exact .inl (List.mem_of_mem_filter hev)
    . exact .inr hev
  | advance p pos line => exact h.flushed (Flushed.refl t.s.evt)

theorem TraceInv.start (dev : Device) (epoch : Nat) : TraceInv (Traced.start dev epoch) := by
  refine ⟨tracks_clear rfl, ?_⟩
  intro ev hev
  contradiction

theorem TraceInv.commit (h : TraceInv t) {buf : Bytes} {id commitMsc : Nat} {evs : List DevEvent}
    (hmsg : evtDecode t.s.audioEpoch buf = .commit id commitMsc) (hopen : t.spec.lookup id = some evs)
    (readable : Bool) (io : WriteIo)
    : (consumeEvt t.s buf readable io).evt.evq
          = (if (evtStageFlush t.s.evt).evq.length + (keptEvents evs).length ≤ devEvqCap then
              (evtStageFlush t.s.evt).evq ++ (keptEvents evs).map (DevEvent.stamp commitMsc)
            else
              (evtStageFlush t.s.evt).evq)
        ∧ txnFind (consumeEvt t.s buf readable io).evt id = none
        ∧ ∀ id', id' ≠ id → txnFind (consumeEvt t.s buf readable io).evt id' = txnFind t.s.evt id' := by
  have hflushed := consumeEvt_flushed t.s buf readable io
  rw [hmsg] at hflushed
  generalize consumeEvt t.s buf readable io = s' at hflushed ⊢
  have htracks : Tracks { t.s.evt with evtStaged := false } t.spec := h.tracks.of_txn rfl
  generalize he : ({ t.s.evt with evtStaged := false } : EvtState) = e at hflushed htracks
  have hqueue : (evtStageFlush e).evq = (evtStageFlush t.s.evt).evq := by
    rw [(evtStageFlush_eq e).1, (evtStageFlush_eq t.s.evt).1, ← he]
  have hsame : ∀ id, txnFind t.s.evt id = txnFind e id := by
    intro id
    rw [← he]
    rfl
  cases hfound : txnFind e id with
  | none =>
    rw [htracks.lookup_none hfound] at hopen
    contradiction
  | some p =>
    rcases p with ⟨i, x⟩
    rcases htracks.lookup_some hfound with ⟨evs', hevs', htake⟩
    rw [hopen] at hevs'
    cases hevs'
    rcases txnCommit_eq hfound commitMsc with ⟨htxn, hstage, hevq⟩
    have hrest := (hflushed.rest hstage).1
    rcases SlotMap.find_some ((txnFind_eq e id).symm.trans hfound) with ⟨hx, hkey⟩
    have hfind : ∀ id', txnFind s'.evt id' = if x.key = some id' then none else txnFind e id' := by
      intro id'
      have hset := txnFind_set (y := x.shut) htracks hx (fun k j x hk => by cases hk) id'
      have hshut : x.shut.key = none := rfl
      rw [hshut, if_neg (by simp)] at hset
      rw [← hset, txnFind_eq, txnFind_eq, hflushed.txn]
      exact congrArg (fun t : TxnTable => SlotMap.find DevTxn.key t.slots id') htxn
    refine ⟨?_, ?_, ?_⟩
    . rw [← hqueue, hrest]
      rw [htake] at hevq
      exact hevq
    . rw [hfind, if_pos hkey]
    . intro id' hne
      rw [hfind, hsame, if_neg]
      rw [hkey]
      intro heq
      cases heq
      exact hne rfl

-- A message that leaves the queue and the staged run alone has the run flushed behind it.
theorem consumeEvt_untouched {s : Session} {buf : Bytes} {msg : EvtMsg}
    (hmsg : evtDecode s.audioEpoch buf = msg) (readable : Bool) (io : WriteIo)
    (hkeep : let e := (applyEvtMsg { s with evt := { s.evt with evtStaged := false } } msg io).evt
      e.evq = s.evt.evq ∧ e.evtStage = s.evt.evtStage ∧ e.evtStaged = false)
    : (consumeEvt s buf readable io).evt.evq = (evtStageFlush s.evt).evq := by
  rcases hkeep with ⟨hevq, hstage, hstaged⟩
  unfold consumeEvt handleEvtMsg
  dsimp only
  rw [hmsg, hstaged]
  have hflush := evtStageFlush_eq (applyEvtMsg { s with evt := { s.evt with evtStaged := false } } msg
    io).evt
  have hnil := hflush.2.2
  simp only [Bool.false_eq_true, not_false_eq_true, if_true, hnil, List.isEmpty_nil, not_true_eq_false,
    false_and, if_false]
  rw [hflush.1, hevq, hstage, (evtStageFlush_eq s.evt).1]

theorem evtStageFlush_counters (e : EvtState)
    : (evtStageFlush e).counters.txnOverflow = e.counters.txnOverflow
        ∧ (evtStageFlush e).counters.staleEpoch = e.counters.staleEpoch := by
  rw [evtStageFlush_form]
  exact ⟨rfl, rfl⟩

theorem consumeEvt_counters (s : Session) (buf : Bytes) (readable : Bool) (io : WriteIo)
    : let e := (applyEvtMsg { s with evt := { s.evt with evtStaged := false } }
        (evtDecode s.audioEpoch buf) io).evt
      (consumeEvt s buf readable io).evt.counters.txnOverflow = e.counters.txnOverflow
        ∧ (consumeEvt s buf readable io).evt.counters.staleEpoch = e.counters.staleEpoch := by
  unfold consumeEvt handleEvtMsg
  dsimp only
  generalize (applyEvtMsg { s with evt := { s.evt with evtStaged := false } }
    (evtDecode s.audioEpoch buf) io).evt = e
  have hlast : ∀ e₁ : EvtState,
      e₁.counters.txnOverflow = e.counters.txnOverflow ∧ e₁.counters.staleEpoch = e.counters.staleEpoch →
      let e₂ := if ¬ e₁.evtStage.isEmpty = true ∧ ¬ readable = true then evtStageFlush e₁ else e₁
      e₂.counters.txnOverflow = e.counters.txnOverflow
        ∧ e₂.counters.staleEpoch = e.counters.staleEpoch := by
    intro e₁ h
    dsimp only
    split
    . rw [(evtStageFlush_counters e₁).1, (evtStageFlush_counters e₁).2]
      exact h
    . exact h
  apply hlast
  split
  . exact evtStageFlush_counters e
  . exact ⟨rfl, rfl⟩

theorem txnFind_congr {e' e : EvtState} (h : e'.txn = e.txn) (id : Nat)
    : txnFind e' id = txnFind e id := by
  rw [txnFind_eq, txnFind_eq, h]

theorem TraceInv.stale (h : TraceInv t) {buf : Bytes} {id : Nat}
    (hmsg : evtDecode t.s.audioEpoch buf = .commitStale id) (readable : Bool) (io : WriteIo)
    : let after := (consumeEvt t.s buf readable io).evt
      after.evq = (evtStageFlush t.s.evt).evq
        ∧ after.counters.staleEpoch = t.s.evt.counters.staleEpoch + 1
        ∧ txnFind after id = none ∧ ∀ id', id' ≠ id → txnFind after id' = txnFind t.s.evt id' := by
  have hflushed := consumeEvt_flushed t.s buf readable io
  have hcounters := (consumeEvt_counters t.s buf readable io).2
  rw [hmsg] at hflushed hcounters
  have hevq := consumeEvt_untouched hmsg readable io (by
    unfold applyEvtMsg txnAbort
    dsimp only
    split <;> exact ⟨rfl, rfl, rfl⟩)
  have htracks : Tracks { t.s.evt with evtStaged := false } t.spec := h.tracks.of_txn rfl
  have habort := (htracks.abort id).find
  refine ⟨hevq, ?_, ?_, ?_⟩
  . rw [hcounters]
    unfold applyEvtMsg txnAbort
    dsimp only
    split <;> rfl
  . have hfind := habort id
    rw [lookup_close, if_pos rfl, Option.map_none, Option.map_eq_none_iff] at hfind
    rw [txnFind_congr hflushed.txn]
    exact hfind
  . intro id' hne
    rw [txnFind_congr hflushed.txn]
    unfold applyEvtMsg txnAbort
    dsimp only
    cases hfound : txnFind { t.s.evt with evtStaged := false } id with
    | none => rfl
    | some p =>
      rcases p with ⟨i, x⟩
      rcases SlotMap.find_some ((txnFind_eq _ id).symm.trans hfound) with ⟨hx, hkey⟩
      have hset := txnFind_set (y := x.shut) htracks hx (fun k j x hk => by cases hk) id'
      have hshut : x.shut.key = none := rfl
      rw [hshut, if_neg (by simp), hkey, if_neg (by
        intro heq
        cases heq
        exact hne rfl)] at hset
      exact hset

theorem TraceInv.dropped (h : TraceInv t) {buf : Bytes} {id : Nat} {ev : DevEvent} {touches : Bool}
    {evs : List DevEvent} (hmsg : evtDecode t.s.audioEpoch buf = .submit id ev touches)
    (hopen : t.spec.lookup id = some evs) (hfull : devTxnEventsMax ≤ evs.length) (readable : Bool)
    (io : WriteIo)
    : let after := (consumeEvt t.s buf readable io).evt
      after.evq = (evtStageFlush t.s.evt).evq
        ∧ after.counters.txnOverflow = t.s.evt.counters.txnOverflow + 1
        ∧ ∀ id', txnFind after id' = txnFind t.s.evt id' := by
  have hid : id ≠ 0 := by
    rintro rfl
    rw [h.tracks.nonzero] at hopen
    contradiction
  -- the slot is found under its id and has no room
  have hover : (applyEvtMsg { t.s with evt := { t.s.evt with evtStaged := false } }
        (.submit id ev touches) io).evt
      = { t.s.evt with evtStaged := false, counters :=
          { t.s.evt.counters with txnOverflow := t.s.evt.counters.txnOverflow + 1 } } := by
    have htracks : Tracks { t.s.evt with evtStaged := false } t.spec := h.tracks.of_txn rfl
    unfold applyEvtMsg txnSubmit
    dsimp only
    rw [if_neg hid]
    cases hfound : txnFind { t.s.evt with evtStaged := false } id with
    | none =>
      rw [htracks.lookup_none hfound] at hopen
      contradiction
    | some p =>
      rcases htracks.lookup_some (i := p.1) (t := p.2) hfound with ⟨evs', hevs', htake⟩
      rw [hopen] at hevs'
      cases hevs'
      have hpush : p.2.push ev = none := by
        unfold DevTxn.push
        rw [dif_neg]
        rw [htake, List.length_take]
        omega
      dsimp only
      rw [hpush]
  have hflushed := consumeEvt_flushed t.s buf readable io
  have hcounters := (consumeEvt_counters t.s buf readable io).1
  rw [hmsg, hover] at hflushed hcounters
  refine ⟨?_, hcounters, fun id' => txnFind_congr hflushed.txn id'⟩
  apply consumeEvt_untouched hmsg
  rw [hover]
  exact ⟨rfl, rfl, rfl⟩

theorem TraceInv.txnLaw (h : TraceInv t) : TxnLaw t where
  bounded := ⟨h.tracks.length_le, h.tracks.nodup⟩
  tracked := h.tracks.find
  sources := h.sources
  commit := by
    intro buf readable io id commitMsc evs hmsg hopen
    rcases h.commit hmsg hopen readable io with ⟨hevq, hfind⟩
    refine ⟨?_, hfind⟩
    split at hevq
    . exact .inl hevq
    . exact .inr hevq
  fits := fun buf readable io id commitMsc evs hmsg hopen => (h.commit hmsg hopen readable io).1
  stale := fun buf readable io id hmsg => h.stale hmsg readable io
  dropped := fun buf readable io id ev touches evs hmsg hopen hfull =>
    h.dropped hmsg hopen hfull readable io

end Run

theorem traceInv_run (dev : Device) (epoch : Nat) (acts : List SessAct)
    : TraceInv (acts.foldl Traced.next (Traced.start dev epoch)) := by
  have hrun : Runs.Run Traced.next Runs.free (Traced.start dev epoch)
      (acts.foldl Traced.next (Traced.start dev epoch)) := .foldl acts .start
  exact hrun.inv (.start dev epoch) (fun _ a h _ => h.next a)

theorem txnAtomic_run (dev : Device) (epoch : Nat) (acts : List SessAct)
    : TxnLaw (acts.foldl Traced.next (Traced.start dev epoch)) :=
  (traceInv_run dev epoch acts).txnLaw

section Overflow

open Ieee

def evtFrame (msc etype : Nat) (body : Bytes) : Bytes :=
  cborArray 3 ++ cborArray 2 ++ cborUint 0 ++ cborUint msc ++ cborUint etype ++ body

def beginFrame (id : Nat) : Bytes :=
  evtFrame 0 2 (cborMap 1 ++ cborUint 0 ++ cborUint id)

def commitFrame (id : Nat) : Bytes :=
  evtFrame 0 3 (cborMap 1 ++ cborUint 0 ++ cborUint id)

def setFrame (id param : Nat) : Bytes :=
  evtFrame 0 1 (cborMap 3 ++ cborUint 0 ++ cborUint param ++ cborUint 1 ++ cborFloat (Fp.ofBits 0)
    ++ cborUint 4 ++ cborUint id)

def setEvent : DevEvent :=
  ⟨0, .paramSet, 1, Fp.ofBits 0, 0, Fp.ofBits 0, 0, 0⟩

def filling (n : Nat) : List SessAct :=
  .evt (beginFrame 1) false .ok :: List.replicate n (.evt (setFrame 1 1) false .ok)

def filled (n : Nat) : Traced :=
  (filling n).foldl Traced.next (Traced.start blankDevice 1)

theorem setFrame_decode : evtDecode 1 (setFrame 1 1) = .submit 1 setEvent false := by
  decide +kernel

theorem commitFrame_decode : evtDecode 1 (commitFrame 1) = .commit 1 0 := by
  decide +kernel

theorem beginFrame_decode : evtDecode 1 (beginFrame 1) = .begin_ 1 := by
  decide +kernel

theorem next_evt_epoch (t : Traced) (buf : Bytes) (readable : Bool) (io : WriteIo)
    : (t.next (.evt buf readable io)).s.audioEpoch = t.s.audioEpoch := by
  unfold Traced.next Session.next consumeEvt handleEvtMsg
  dsimp only
  generalize evtDecode t.s.audioEpoch buf = msg
  cases msg <;> rfl

theorem filled_eq (n : Nat)
    : (filled n).spec = [(1, List.replicate n setEvent)] ∧ (filled n).direct = []
        ∧ (filled n).batches = [] ∧ (filled n).s.audioEpoch = 1 := by
  induction n with
  | zero =>
    have hmsg : evtDecode (Traced.start blankDevice 1).s.audioEpoch (beginFrame 1) = .begin_ 1 :=
      beginFrame_decode
    unfold filled filling
    rw [List.replicate_zero, List.foldl_cons, List.foldl_nil]
    refine ⟨?_, ?_, ?_, next_evt_epoch _ _ _ _⟩ <;> unfold Traced.next <;> dsimp only <;> rw [hmsg]
      <;> rfl
  | succ n ih =>
    rcases ih with ⟨hspec, hdirect, hbatches, hepoch⟩
    have hstep : filled (n + 1) = (filled n).next (.evt (setFrame 1 1) false .ok) := by
      unfold filled filling
      rw [List.replicate_succ', ← List.cons_append, List.foldl_append]
      rfl
    have hmsg : evtDecode (filled n).s.audioEpoch (setFrame 1 1) = .submit 1 setEvent false := by
      rw [hepoch]
      exact setFrame_decode
    rw [hstep]
    refine ⟨?_, ?_, ?_, (next_evt_epoch _ _ _ _).trans hepoch⟩ <;> unfold Traced.next <;> dsimp only
      <;> rw [hmsg]
    . rw [hspec, List.replicate_succ']
      rfl
    . rw [hdirect]
      rfl
    . rw [hbatches]
      rfl

theorem not_txnAtomic_overfull
    : ¬ ∀ (dev : Device) (epoch : Nat) (acts : List SessAct),
        TxnAtomic id (acts.foldl Traced.next (Traced.start dev epoch)) := by
  intro h
  rcases filled_eq 257 with ⟨hspec, hdirect, hbatches, hepoch⟩
  have hinv : TraceInv (filled 257) := traceInv_run blankDevice 1 (filling 257)
  have hevq : (filled 257).s.evt.evq ++ (filled 257).s.evt.evtStage = [] := by
    rw [List.eq_nil_iff_forall_not_mem]
    intro ev hev
    have := hinv.sources ev hev
    simp [hdirect, hbatches] at this
  rw [List.append_eq_nil_iff] at hevq
  have hbefore : (evtStageFlush (filled 257).s.evt).evq = [] := by
    rw [(evtStageFlush_eq _).1, hevq.1, hevq.2]
    rfl
  have hmsg : evtDecode (filled 257).s.audioEpoch (commitFrame 1) = .commit 1 0 := by
    rw [hepoch]
    exact commitFrame_decode
  have hopen : (filled 257).spec.lookup 1 = some (List.replicate 257 setEvent) := by
    rw [hspec]
    rfl
  -- 257 events were submitted, 256 of them are queued
  have hatomic : TxnAtomic id (filled 257) := h blankDevice 1 (filling 257)
  have hall := (hatomic.commit _ false .ok 1 0 _ hmsg hopen).1
  have hcode := hinv.txnLaw.fits _ false .ok 1 0 _ hmsg hopen
  have hkept : (keptEvents (List.replicate 257 setEvent)).length = 256 := by
    unfold keptEvents
    rw [List.take_replicate, List.length_replicate]
    rfl
  dsimp only at hcode
  rw [hbefore, hkept, if_pos (by decide), List.nil_append] at hcode
  rw [hbefore, hcode, List.nil_append] at hall
  rcases hall with hall | hnone
  . have hlength := congrArg List.length hall
    rw [List.length_map, List.length_map, hkept, id_eq, List.length_replicate] at hlength
    exact absurd hlength (by decide)
  . have hlength := congrArg List.length hnone
    rw [List.length_map, hkept] at hlength
    exact absurd hlength (by decide)

end Overflow

end Harp
