import Harp.Device.Staging
import Harp.Host.EventWire
import Harp.Host.FenceRun

/-!
This module contains what becomes of the events of the fence's stream on the device: the event queue
and the staged run, with the queue operation that each event is of, and the events that were rendered
or refused since audio.start.
-/

namespace Harp

section Offers

-- The first of the events on offer went to the queue as far as there was room, the rest is staged.
def Offered (offers : List DevEvent) (e e' : EvtState) : Prop :=
  ∃ flushed, offers = flushed ++ e'.evtStage
    ∧ e'.evq = e.evq ++ flushed.take (devEvqCap - e.evq.length)

variable {e e' e'' : EvtState} {offers : List DevEvent}

theorem Offered.of_same (hevq : e'.evq = e.evq) (hstage : e'.evtStage = e.evtStage)
    : Offered e.evtStage e e' := by
  refine ⟨[], hstage.symm, ?_⟩
  rw [hevq, List.take_nil, List.append_nil]

theorem Offered.congr (h : Offered offers e e') (hevq : e''.evq = e'.evq)
    (hstage : e''.evtStage = e'.evtStage) : Offered offers e e'' := by
  obtain ⟨flushed, hoffers, hqueue⟩ := h
  exact ⟨flushed, hoffers.trans (by rw [hstage]), hevq.trans hqueue⟩

theorem take_split (xs ys : List DevEvent) (room : Nat)
    : (xs ++ ys).take room = xs.take room ++ ys.take (room - (xs.take room).length) := by
  rw [List.take_append, List.length_take]
  congr 2
  omega

theorem Offered.flush (h : Offered offers e e') : Offered offers e (evtStageFlush e') := by
  obtain ⟨flushed, hoffers, hqueue⟩ := h
  refine ⟨offers, ?_, ?_⟩
  . rw [evtStageFlush_stage, List.append_nil]
  . rw [(evtStageFlush_eq e').1, hqueue, hoffers, take_split, List.append_assoc, List.length_append,
      Nat.sub_add_eq]

theorem evqPush_evq (e : EvtState) (ev : DevEvent)
    : (evqPush e ev).evq = e.evq ++ [ev].take (devEvqCap - e.evq.length) := by
  unfold evqPush
  split
  next hroom => rw [List.take_of_length_le (by rw [List.length_singleton]; omega)]
  next hfull =>
    have hnone : devEvqCap - e.evq.length = 0 := by omega
    rw [hnone, List.take_zero, List.append_nil]

-- One more event, which comes after all that was on offer.
theorem Offered.push (h : Offered offers e e') (hstage : e'.evtStage = []) {ev : DevEvent}
    (hevq : e''.evq = e'.evq ++ [ev].take (devEvqCap - e'.evq.length)) (hstage' : e''.evtStage = [])
    : Offered (offers ++ [ev]) e e'' := by
  obtain ⟨flushed, hoffers, hqueue⟩ := h
  rw [hstage, List.append_nil] at hoffers
  subst hoffers
  refine ⟨offers ++ [ev], ?_, ?_⟩
  . rw [hstage', List.append_nil]
  . rw [hevq, hqueue, take_split, List.append_assoc, List.length_append, Nat.sub_add_eq]

theorem noteEvt_evq_of_nil (hstage : e.evtStage = []) (ev : DevEvent)
    : (noteEvt e ev).evq = e.evq ++ [ev].take (devEvqCap - e.evq.length) := by
  unfold noteEvt
  dsimp only
  rw [evtStageFlush_of_nil hstage]
  split
  next hfull =>
    have hcap := hfull.2
    unfold evqFull at hcap
    rw [decide_eq_true_eq] at hcap
    rw [Nat.sub_eq_zero_of_le hcap, List.take_zero, List.append_nil]
  next => exact evqPush_evq e ev

theorem noteEvt_stage_of_nil (hstage : e.evtStage = []) (ev : DevEvent) : (noteEvt e ev).evtStage = [] := by
  unfold noteEvt
  dsimp only
  rw [evtStageFlush_of_nil hstage]
  split
  . exact hstage
  . rw [evqPush_stage, hstage]

theorem offered_evtStageAdd (e : EvtState) (ev : DevEvent)
    : Offered (e.evtStage ++ [ev]) e (evtStageAdd e ev) := by
  unfold evtStageAdd
  dsimp only
  split
  . refine ⟨e.evtStage, ?_, ?_⟩
    . rw [evtStageFlush_stage]
      rfl
    . exact (evtStageFlush_eq e).1
  . refine ⟨[], rfl, ?_⟩
    rw [List.take_nil, List.append_nil]

variable {s : Session} {msg : EvtMsg}

theorem offered_consumeOne (hplain : msg.plain = true) (io : WriteIo)
    : Offered (s.evt.evtStage ++ msg.event.toList) s.evt (consumeOne s msg io).evt := by
  have hsettle : Offered s.evt.evtStage s.evt s.settle.evt :=
    (Offered.of_same rfl rfl).flush.congr rfl evtStageFlush_stage.symm
  have hnil : s.settle.evt.evtStage = [] := rfl
  cases htag : msg.untagged with
  | some ev =>
    obtain ⟨touches, rfl⟩ := untagged_eq_some htag
    rw [consumeOne_submit]
    exact (offered_evtStageAdd { s.evt with evtStaged := false } ev)
  | none =>
    rw [consumeOne_of_tagged io htag]
    cases msg with
    | note ev =>
      exact hsettle.push hnil (noteEvt_evq_of_nil hnil ev) (noteEvt_stage_of_nil hnil ev)
    | transport ev =>
      have hflush : evtStageFlush s.settle.evt = s.settle.evt := evtStageFlush_of_nil hnil
      have hevq : (evqPush (evtStageFlush s.settle.evt) ev).evq
          = s.settle.evt.evq ++ [ev].take (devEvqCap - s.settle.evt.evq.length) := by
        rw [hflush, evqPush_evq]
      have hstage : (evqPush (evtStageFlush s.settle.evt) ev).evtStage = [] := by
        rw [hflush, evqPush_stage, hnil]
      exact hsettle.push hnil hevq hstage
    | ignored =>
      have hnone : EvtMsg.ignored.event.toList = [] := rfl
      rw [hnone, List.append_nil]
      exact hsettle.congr rfl rfl
    | otherVoice =>
      have hnone : EvtMsg.otherVoice.event.toList = [] := rfl
      rw [hnone, List.append_nil]
      exact hsettle.flush.congr rfl rfl
    | submit id ev touches =>
      have hid : id = 0 := by simpa [EvtMsg.plain] using hplain
      subst hid
      cases htag
    | _ => cases hplain

theorem offered_consumeEvt {buf : Bytes} (hplain : (evtDecode s.audioEpoch buf).plain = true)
    (readable : Bool) (io : WriteIo)
    : Offered (s.evt.evtStage ++ (evtDecode s.audioEpoch buf).event.toList) s.evt
        (consumeEvt s buf readable io).evt := by
  have hone := offered_consumeOne (s := s) hplain io
  rw [consumeEvt_eq]
  split
  . exact hone.flush
  . exact hone

-- A message that brings no event is not staged.
theorem consumeEvt_stage_of_bare {buf : Bytes} (h : (evtDecode s.audioEpoch buf).event = none)
    (readable : Bool) (io : WriteIo) : (consumeEvt s buf readable io).evt.evtStage = [] := by
  have htag : (evtDecode s.audioEpoch buf).untagged = none := by
    cases htag : (evtDecode s.audioEpoch buf).untagged with
    | none => rfl
    | some ev =>
      obtain ⟨touches, heq⟩ := untagged_eq_some htag
      rw [heq] at h
      cases h
  rw [consumeEvt_eq]
  split
  . exact evtStageFlush_stage
  . rw [consumeOne_of_tagged io htag]
    exact (applyEvtMsg_settle io htag).1

theorem offered_next (s : Session) {a : SessAct} (h : a.inStream = true)
    (hdue : ∀ pos, a ≠ .due pos) : Offered s.evt.evtStage s.evt (s.next a).evt := by
  have hflush : Offered s.evt.evtStage s.evt (evtStageFlush s.evt) := (Offered.of_same rfl rfl).flush
  cases a with
  | evt buf readable io => cases h
  | ctl req touch =>
    cases req with
    | snapshot shed msg time io =>
      unfold Session.next handleCtlReq
      dsimp only
      split <;> exact hflush
    | hello => cases h
    | audioStart newEpoch => cases h
    | audioStop => cases h
    | _ => exact hflush
  | obj enc io => exact hflush
  | due pos => exact absurd rfl (hdue pos)
  | _ => exact Offered.of_same rfl rfl

theorem offered_audioStop (s : Session) (touch : WriteIo)
    : Offered s.evt.evtStage s.evt (s.next (.ctl .audioStop touch)).evt :=
  (Offered.of_same rfl rfl).flush.congr rfl rfl

end Offers

/--
The device's queue and staged run with the operation each event is of, and what has become of the
other messages since audio.start. It is history, which nothing reads.
-/
structure QueueLog where
  queue : List (Option Nat × DevEvent)
  stage : List (Option Nat × DevEvent)
  -- taken from the queue by the render thread
  played : List (Option Nat)
  -- with how many events there were in the queue then
  refused : List (Option Nat × Nat)
  -- the messages that bring no event
  bare : List (Option Nat × EvtMsg)

namespace QueueLog

def empty : QueueLog :=
  ⟨[], [], [], [], []⟩

-- The events on offer, when the device has gone from `e` to `e'`.
def offer (g : QueueLog) (offers : List (Option Nat × DevEvent)) (e e' : EvtState) : QueueLog :=
  let taken := e'.evq.length - e.evq.length
  let flushed := offers.length - e'.evtStage.length
  { g with
    queue := g.queue ++ offers.take taken
    stage := offers.drop flushed
    refused := g.refused ++ ((offers.take flushed).drop taken).map fun o => (o.1, e'.evq.length) }

def recv (g : QueueLog) (s s' : Session) (m : Option Nat × Bytes) : QueueLog :=
  let msg := evtDecode s.audioEpoch m.2
  match msg.event with
  | some ev => g.offer (g.stage ++ [(m.1, ev)]) s.evt s'.evt
  | none => { g.offer g.stage s.evt s'.evt with bare := g.bare ++ [(m.1, msg)] }

def due (g : QueueLog) (pos : Nat) : QueueLog :=
  { g with
    queue := g.queue.filter fun x => pos < x.2.ts
    played := g.played ++ (g.queue.filter fun x => ¬ pos < x.2.ts).map Prod.fst }

def next (g : QueueLog) (w : FenceRun) (a : FenceAct) : QueueLog :=
  match a with
  | .recv _ _ =>
    match w.link with
    | [] => g
    | m :: _ => g.recv w.dev (w.next a).dev m
  | .device (.due pos) => g.due pos
  | .audioStart _ _ => if w.sup = .based then empty else g
  | .connect _ _ _ _ _ => if w.sup = .down then empty else g
  | _ => g.offer g.stage w.dev.evt (w.next a).dev.evt

-- What a handled message has come to that is not staged.
def Met (g : QueueLog) (m : Option Nat) : Prop :=
  m ∈ g.queue.map Prod.fst ∨ m ∈ g.played ∨ m ∈ g.refused.map Prod.fst ∨ m ∈ g.bare.map Prod.fst

instance decidableMet (g : QueueLog) (m : Option Nat) : Decidable (g.Met m) :=
  inferInstanceAs (Decidable (_ ∨ _ ∨ _ ∨ _))

/--
The log is that of the device: what it has in the queue is what is there, what was refused has found
all slots taken, and what has brought no event is no note.
-/
structure Agrees (g : QueueLog) (e : EvtState) : Prop where
  queue : g.queue.map Prod.snd = e.evq
  stage : g.stage.map Prod.snd = e.evtStage
  refused : ∀ r ∈ g.refused, r.2 = devEvqCap
  bare : ∀ b ∈ g.bare, b.2 = .ignored ∨ b.2 = .otherVoice

end QueueLog

section Log

open QueueLog

variable {g : QueueLog} {e e' : EvtState} {offers : List (Option Nat × DevEvent)}

theorem met_offer {m : Option Nat} (h : g.Met m) : (g.offer offers e e').Met m := by
  unfold QueueLog.Met QueueLog.offer at *
  dsimp only
  rw [List.map_append, List.map_append, List.mem_append, List.mem_append]
  rcases h with h | h | h | h
  . exact .inl (.inl h)
  . exact .inr (.inl h)
  . exact .inr (.inr (.inl (.inl h)))
  . exact .inr (.inr (.inr h))

-- How many of the offers are not staged, and how many of these went to the queue.
theorem Offered.counts (h : Offered (offers.map Prod.snd) e e') (hroom : e.evq.length ≤ devEvqCap)
    : e'.evq = e.evq ++ (offers.map Prod.snd).take (e'.evq.length - e.evq.length)
      ∧ e'.evtStage = (offers.map Prod.snd).drop (offers.length - e'.evtStage.length)
      ∧ e'.evq.length ≤ devEvqCap
      ∧ (e'.evq.length - e.evq.length < offers.length - e'.evtStage.length →
        e'.evq.length = devEvqCap) := by
  obtain ⟨flushed, hoffers, hqueue⟩ := h
  have hlen := congrArg List.length hoffers
  rw [List.length_map, List.length_append] at hlen
  have hover : offers.length - e'.evtStage.length = flushed.length := by omega
  have hlen' := congrArg List.length hqueue
  rw [List.length_append, List.length_take] at hlen'
  have htaken : e'.evq.length - e.evq.length = min (devEvqCap - e.evq.length) flushed.length := by
    omega
  refine ⟨?_, ?_, by omega, by omega⟩
  . rw [htaken, hoffers, List.take_append_of_le_length (by omega), ← List.take_eq_take_min]
    exact hqueue
  . rw [hover, hoffers, List.drop_left]

theorem QueueLog.Agrees.offer (h : g.Agrees e) (hroom : e.evq.length ≤ devEvqCap)
    (hoffered : Offered (offers.map Prod.snd) e e') : (g.offer offers e e').Agrees e' := by
  obtain ⟨hqueue, hstage, _, hfull⟩ := hoffered.counts hroom
  constructor
  . unfold QueueLog.offer
    dsimp only
    rw [List.map_append, h.queue, List.map_take]
    exact hqueue.symm
  . unfold QueueLog.offer
    dsimp only
    rw [List.map_drop]
    exact hstage.symm
  . intro r hr
    unfold QueueLog.offer at hr
    dsimp only at hr
    rw [List.mem_append, List.mem_map] at hr
    rcases hr with hr | ⟨o, ho, rfl⟩
    . exact h.refused r hr
    . apply hfull
      have hpos := List.length_pos_of_mem ho
      rw [List.length_drop, List.length_take] at hpos
      omega
  . exact h.bare

-- Every offer is staged or has been met.
theorem met_of_offer (g : QueueLog) (offers : List (Option Nat × DevEvent)) (e e' : EvtState)
    : ∃ settled, offers.map Prod.fst = settled ++ (g.offer offers e e').stage.map Prod.fst
        ∧ ∀ m ∈ settled, (g.offer offers e e').Met m := by
  refine ⟨(offers.take (offers.length - e'.evtStage.length)).map Prod.fst, ?_, ?_⟩
  . unfold QueueLog.offer
    dsimp only
    rw [← List.map_append, List.take_append_drop]
  . intro m hm
    obtain ⟨o, ho, rfl⟩ := List.mem_map.mp hm
    rw [← List.take_append_drop (e'.evq.length - e.evq.length)
      (offers.take (offers.length - e'.evtStage.length)), List.mem_append] at ho
    unfold QueueLog.Met QueueLog.offer
    dsimp only
    rw [List.map_append, List.map_append, List.mem_append, List.mem_append]
    rcases ho with ho | ho
    . rw [List.take_take] at ho
      have htaken := List.take_subset_take_left offers
        (Nat.min_le_left (e'.evq.length - e.evq.length) (offers.length - e'.evtStage.length)) ho
      exact .inl (.inr (List.mem_map_of_mem htaken))
    . refine .inr (.inr (.inl (.inr ?_)))
      rw [List.map_map]
      exact List.mem_map_of_mem (f := Prod.fst) ho

end Log

structure FenceTrace where
  run : FenceRun
  log : QueueLog

def FenceTrace.boot (dev : Device) (epoch : Nat) : FenceTrace :=
  ⟨FenceRun.boot dev epoch, QueueLog.empty⟩

def FenceTrace.next (x : FenceTrace) (a : FenceAct) : FenceTrace :=
  ⟨x.run.next a, x.log.next x.run a⟩

section Run

-- All that the pump sends is an event of a queue operation or a panic.
def FenceRun.Plain (w : FenceRun) : Prop :=
  ∀ buf ∈ w.pump.map Prod.snd ++ w.link.map Prod.snd, ∀ epoch, (evtDecode epoch buf).plain = true

structure LogInv (w : FenceRun) (g : QueueLog) : Prop where
  agrees : g.Agrees w.dev.evt
  room : w.dev.evt.evq.length ≤ devEvqCap
  handled : ∃ settled, w.handled = settled ++ g.stage.map Prod.fst ∧ ∀ m ∈ settled, g.Met m
  plain : w.Plain

variable {w w' : FenceRun} {g : QueueLog}

theorem FenceRun.Plain.mono (h : w.Plain)
    (hsub : w'.pump.map Prod.snd ++ w'.link.map Prod.snd
      ⊆ w.pump.map Prod.snd ++ w.link.map Prod.snd) : w'.Plain :=
  fun buf hbuf => h buf (hsub hbuf)

theorem plain_panicBytes (epoch : Nat) : (evtDecode epoch panicBytes).plain = true := by
  unfold panicBytes
  rw [evtDecode_encodeUmp]
  exact plain_umpMsg _ _

theorem FenceRun.Plain.next (h : w.Plain) (a : FenceAct) : (w.next a).Plain := by
  have hlink : ∀ m ∈ w.link, ∀ epoch, (evtDecode epoch m.2).plain = true := fun m hm =>
    h m.2 (List.mem_append_right _ (List.mem_map_of_mem hm))
  have hpump : ∀ m ∈ w.pump, ∀ epoch, (evtDecode epoch m.2).plain = true := fun m hm =>
    h m.2 (List.mem_append_left _ (List.mem_map_of_mem hm))
  have hclear : ∀ w' : FenceRun, w'.pump = [] → w'.link = w.link → w'.Plain := by
    intro w' hp hl
    apply h.mono
    rw [hp, hl]
    exact List.subset_append_right _ _
  unfold FenceRun.next
  cases a with
  | queue ev =>
    dsimp only
    split
    . exact h
    . split <;> exact h
  | drain =>
    dsimp only
    split
    . intro buf hbuf
      rw [List.mem_append] at hbuf
      rcases hbuf with hbuf | hbuf
      . obtain ⟨m, hm, rfl⟩ := List.mem_map.mp hbuf
        unfold EventManager.drainOwner at hm
        obtain ⟨q, _, rfl⟩ := List.mem_map.mp hm
        exact fun epoch => plain_encode epoch _
      . obtain ⟨m, hm, rfl⟩ := List.mem_map.mp hbuf
        exact hlink m hm
    . exact h
  | write =>
    dsimp only
    split
    . intro buf hbuf
      rw [List.map_nil, List.nil_append, List.map_append, List.mem_append] at hbuf
      rcases hbuf with hbuf | hbuf
      . obtain ⟨m, hm, rfl⟩ := List.mem_map.mp hbuf
        exact hlink m hm
      . rw [List.map_map] at hbuf
        obtain ⟨m, hm, rfl⟩ := List.mem_map.mp hbuf
        exact hpump m hm
    . exact h
  | panic =>
    dsimp only
    split
    . intro buf hbuf
      rw [List.map_append, ← List.append_assoc, List.mem_append] at hbuf
      rcases hbuf with hbuf | hbuf
      . exact h buf hbuf
      . rw [List.map_singleton, List.mem_singleton] at hbuf
        rw [hbuf]
        exact plain_panicBytes
    . exact h
  | recv readable io =>
    dsimp only
    split
    . exact h
    next m link heq =>
      apply h.mono
      rw [heq, List.map_cons]
      apply List.append_subset.mpr
      exact ⟨List.subset_append_left _ _,
        List.Subset.trans (List.subset_cons_self _ _) (List.subset_append_right _ _)⟩
  | down => exact hclear _ rfl rfl
  | connect newEpoch tag flush touch touch' =>
    dsimp only
    split
    . apply h.mono
      rw [List.map_nil, List.append_nil]
      exact List.subset_append_left _ _
    . exact h
  | render now deadline =>
    dsimp only
    split
    . exact h
    . split <;> exact h
  | _ =>
    dsimp only
    split <;> exact h

-- The steps of the host leave the device as it is.
def FenceAct.hostOnly : FenceAct → Bool
  | .recv _ _ | .device _ | .audioStop _ | .audioStart _ _ | .connect _ _ _ _ _ => false
  | _ => true

theorem next_hostOnly {a : FenceAct} (h : a.hostOnly = true)
    : (w.next a).dev = w.dev ∧ (w.next a).handled = w.handled := by
  unfold FenceRun.next
  cases a with
  | queue ev =>
    dsimp only
    split
    . exact ⟨rfl, rfl⟩
    . split <;> exact ⟨rfl, rfl⟩
  | recv readable io => cases h
  | device a => cases h
  | audioStop touch => cases h
  | audioStart newEpoch touch => cases h
  | connect newEpoch tag flush touch touch' => cases h
  | render now deadline =>
    dsimp only
    split
    . exact ⟨rfl, rfl⟩
    . split <;> exact ⟨rfl, rfl⟩
  | down => exact ⟨rfl, rfl⟩
  | _ =>
    dsimp only
    split <;> exact ⟨rfl, rfl⟩

-- The device goes on to `dev`, and `offers` are what is staged and what has come.
theorem LogInv.offer (h : LogInv w g) (hplain : w'.Plain)
    {offers : List (Option Nat × DevEvent)}
    (hoffered : Offered (offers.map Prod.snd) w.dev.evt w'.dev.evt)
    (hhandled : ∃ settled, w'.handled = settled ++ offers.map Prod.fst ∧ ∀ m ∈ settled, g.Met m)
    : LogInv w' (g.offer offers w.dev.evt w'.dev.evt) := by
  obtain ⟨settled, hold, hmet⟩ := hhandled
  obtain ⟨settled', hnew, hmet'⟩ := met_of_offer g offers w.dev.evt w'.dev.evt
  refine ⟨h.agrees.offer h.room hoffered, (hoffered.counts h.room).2.2.1, ?_, hplain⟩
  refine ⟨settled ++ settled', by rw [hold, hnew, List.append_assoc], ?_⟩
  intro m hm
  rcases List.mem_append.mp hm with hm | hm
  . exact met_offer (hmet m hm)
  . exact hmet' m hm

theorem LogInv.quiet (h : LogInv w g) (hplain : w'.Plain)
    (hoffered : Offered w.dev.evt.evtStage w.dev.evt w'.dev.evt) (hhandled : w'.handled = w.handled)
    : LogInv w' (g.offer g.stage w.dev.evt w'.dev.evt) := by
  apply h.offer hplain
  . rw [h.agrees.stage]
    exact hoffered
  . rw [hhandled]
    exact h.handled

theorem LogInv.reset (hevq : w'.dev.evt.evq = []) (hstage : w'.dev.evt.evtStage = [])
    (hhandled : w'.handled = []) (hplain : w'.Plain) : LogInv w' QueueLog.empty := by
  refine ⟨⟨hevq.symm, hstage.symm, nofun, nofun⟩, ?_, ⟨[], hhandled, nofun⟩, hplain⟩
  rw [hevq]
  exact Nat.zero_le _

theorem LogInv.due (h : LogInv w g) (pos : Nat) (hevt : w'.dev.evt = (evqApplyDue w.dev pos).evt)
    (hhandled : w'.handled = w.handled) (hplain : w'.Plain) : LogInv w' (g.due pos) := by
  have hevq : w'.dev.evt.evq = w.dev.evt.evq.filter (fun ev => pos < ev.ts) := by
    rw [hevt]
    rfl
  have hstage : w'.dev.evt.evtStage = w.dev.evt.evtStage := by
    rw [hevt]
    rfl
  constructor
  . refine ⟨?_, ?_, h.agrees.refused, h.agrees.bare⟩
    . rw [hevq, ← h.agrees.queue, List.filter_map]
      rfl
    . rw [hstage]
      exact h.agrees.stage
  . rw [hevq]
    exact Nat.le_trans (List.length_filter_le _ _) h.room
  . obtain ⟨settled, hold, hmet⟩ := h.handled
    refine ⟨settled, hhandled.trans hold, fun m hm => ?_⟩
    rcases hmet m hm with hqueue | hrest
    . obtain ⟨x, hx, rfl⟩ := List.mem_map.mp hqueue
      unfold QueueLog.Met QueueLog.due
      dsimp only
      by_cases hlater : pos < x.2.ts
      . exact .inl (List.mem_map_of_mem (List.mem_filter.mpr ⟨hx, by simpa using hlater⟩))
      . refine .inr (.inl (List.mem_append_right _ ?_))
        exact List.mem_map_of_mem (List.mem_filter.mpr ⟨hx, by simpa using hlater⟩)
    . unfold QueueLog.Met QueueLog.due
      dsimp only
      rw [List.mem_append]
      rcases hrest with hrest | hrest
      . exact .inr (.inl (.inl hrest))
      . exact .inr (.inr hrest)
  . exact hplain

theorem LogInv.recv (h : LogInv w g) {m : Option Nat × Bytes} {readable : Bool} {io : WriteIo}
    (hm : (evtDecode w.dev.audioEpoch m.2).plain = true)
    (hdev : w'.dev = consumeEvt w.dev m.2 readable io) (hhandled : w'.handled = w.handled ++ [m.1])
    (hplain : w'.Plain) : LogInv w' (g.recv w.dev w'.dev m) := by
  have hoffered := offered_consumeEvt hm readable io
  rw [← hdev] at hoffered
  obtain ⟨settled, hold, hmet⟩ := h.handled
  unfold QueueLog.recv
  dsimp only
  split
  next ev hev =>
    rw [hev] at hoffered
    apply h.offer hplain
    . rw [List.map_append, h.agrees.stage]
      exact hoffered
    . refine ⟨settled, ?_, hmet⟩
      rw [hhandled, hold, List.map_append, List.append_assoc]
      rfl
  next hev =>
    rw [hev, Option.toList_none, List.append_nil] at hoffered
    have hstage := consumeEvt_stage_of_bare hev readable io
    rw [← hdev] at hstage
    have hquiet : LogInv { w' with handled := w.handled }
        (g.offer g.stage w.dev.evt w'.dev.evt) := h.quiet hplain hoffered rfl
    obtain ⟨settled', hold', hmet'⟩ := hquiet.handled
    have hnil : (g.offer g.stage w.dev.evt w'.dev.evt).stage = [] := by
      rw [← List.map_eq_nil_iff, hquiet.agrees.stage]
      exact hstage
    rw [hnil, List.map_nil, List.append_nil] at hold'
    constructor
    . refine ⟨hquiet.agrees.queue, hquiet.agrees.stage, hquiet.agrees.refused, ?_⟩
      intro b hb
      rcases List.mem_append.mp hb with hb | hb
      . exact h.agrees.bare b hb
      . rw [List.mem_singleton.mp hb]
        dsimp only
        generalize evtDecode w.dev.audioEpoch m.2 = msg at hm hev
        cases msg with
        | ignored => exact .inl rfl
        | otherVoice => exact .inr rfl
        | note ev => cases hev
        | transport ev => cases hev
        | submit id ev touches => cases hev
        | _ => cases hm
    . exact hquiet.room
    . refine ⟨settled' ++ [m.1], ?_, ?_⟩
      . dsimp only at hold' ⊢
        rw [hhandled, hold', hnil, List.map_nil, List.append_nil]
      . intro x hx
        unfold QueueLog.Met
        dsimp only
        rw [List.map_append, List.mem_append]
        rcases List.mem_append.mp hx with hx | hx
        . rcases hmet' x hx with hmet' | hmet' | hmet' | hmet'
          . exact .inl hmet'
          . exact .inr (.inl hmet')
          . exact .inr (.inr (.inl hmet'))
          . exact .inr (.inr (.inr (.inl hmet')))
        . rw [List.mem_singleton.mp hx]
          exact .inr (.inr (.inr (.inr (by simp))))
    . exact hplain

theorem LogInv.same (h : LogInv w g) {a : FenceAct} (hsame : w.next a = w)
    : LogInv (w.next a) (g.offer g.stage w.dev.evt (w.next a).dev.evt) := by
  apply h.quiet (h.plain.next a)
  . rw [hsame]
    exact Offered.of_same rfl rfl
  . rw [hsame]

theorem LogInv.device (h : LogInv w g) (act : SessAct)
    : LogInv (w.next (.device act)) (g.next w (.device act)) := by
  have hplain := h.plain.next (.device act)
  have hhandled : (w.next (.device act)).handled = w.handled := by
    unfold FenceRun.next
    dsimp only
    split <;> rfl
  by_cases hdue : ∃ pos, act = .due pos
  . obtain ⟨pos, rfl⟩ := hdue
    exact h.due pos rfl hhandled hplain
  . have hnext : g.next w (.device act)
        = g.offer g.stage w.dev.evt (w.next (.device act)).dev.evt := by
      unfold QueueLog.next
      split
      next heq => cases heq
      next heq =>
        cases heq
        exact absurd ⟨_, rfl⟩ hdue
      next heq => cases heq
      next heq => cases heq
      next => rfl
    rw [hnext]
    cases hin : act.inStream with
    | true =>
      have hdev : (w.next (.device act)).dev = w.dev.next act := by
        unfold FenceRun.next
        dsimp only
        rw [if_pos hin]
      apply h.quiet hplain _ hhandled
      rw [hdev]
      exact offered_next w.dev hin fun pos heq => hdue ⟨pos, heq⟩
    | false =>
      apply h.same
      unfold FenceRun.next
      dsimp only
      rw [hin, if_neg Bool.false_ne_true]

theorem LogInv.next (h : LogInv w g) (a : FenceAct) : LogInv (w.next a) (g.next w a) := by
  have hplain := h.plain.next a
  have hhost : a.hostOnly = true →
      LogInv (w.next a) (g.offer g.stage w.dev.evt (w.next a).dev.evt) := by
    intro hhost
    obtain ⟨hdev, hhandled⟩ := next_hostOnly (w := w) hhost
    apply h.quiet hplain _ hhandled
    rw [hdev]
    exact Offered.of_same rfl rfl
  cases a with
  | recv readable io =>
    unfold QueueLog.next
    dsimp only
    split
    next hlink =>
      have hsame : w.next (.recv readable io) = w := by
        unfold FenceRun.next
        dsimp only
        rw [hlink]
      rw [hsame]
      exact h
    next m link hlink =>
      have hm : (evtDecode w.dev.audioEpoch m.2).plain = true := by
        apply h.plain
        rw [hlink]
        simp
      have hnext : (w.next (.recv readable io)).dev = consumeEvt w.dev m.2 readable io
          ∧ (w.next (.recv readable io)).handled = w.handled ++ [m.1] := by
        unfold FenceRun.next
        dsimp only
        rw [hlink]
        exact ⟨rfl, rfl⟩
      exact h.recv hm hnext.1 hnext.2 hplain
  | device act => exact h.device act
  | audioStop touch =>
    by_cases hup : w.sup = .up ∧ w.link = []
    . have hnext : (w.next (.audioStop touch)).dev = w.dev.next (.ctl .audioStop touch)
          ∧ (w.next (.audioStop touch)).handled = w.handled := by
        unfold FenceRun.next
        dsimp only
        rw [if_pos hup]
        exact ⟨rfl, rfl⟩
      apply h.quiet hplain _ hnext.2
      rw [hnext.1]
      exact offered_audioStop w.dev touch
    . apply h.same
      exact if_neg hup
  | audioStart newEpoch touch =>
    unfold QueueLog.next
    dsimp only
    split
    next hbased =>
      have hnext : w.next (.audioStart newEpoch touch)
          = { w with
              dev := w.dev.next (.ctl (.audioStart newEpoch) touch),
              running := true, handled := [], sup := .up } := if_pos hbased
      rw [hnext] at hplain ⊢
      exact .reset rfl evtStageFlush_stage rfl hplain
    next hnot =>
      have hsame : w.next (.audioStart newEpoch touch) = w := if_neg hnot
      rw [hsame]
      exact h
  | connect newEpoch tag flush touch touch' =>
    unfold QueueLog.next
    dsimp only
    split
    next hdown =>
      unfold FenceRun.next at hplain ⊢
      dsimp only at hplain ⊢
      rw [if_pos hdown] at hplain ⊢
      exact .reset rfl evtStageFlush_stage rfl hplain
    next hnot =>
      have hsame : w.next (.connect newEpoch tag flush touch touch') = w := if_neg hnot
      rw [hsame]
      exact h
  | _ => exact hhost rfl

theorem LogInv.boot (dev : Device) (epoch : Nat)
    : LogInv (FenceRun.boot dev epoch) QueueLog.empty :=
  .reset rfl rfl rfl nofun

end Run

end Harp
