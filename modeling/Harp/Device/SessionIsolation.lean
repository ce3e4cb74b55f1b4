import Harp.Device.EventCarry
import Harp.Device.LiveNames
import Harp.Device.NoteQueue
import Harp.Device.SessionLoop
import Harp.Host.PushStateLemmas

/-!
This module contains what one session of `harp_deviced_run_session` leaves for the next one: nothing
of its credit, its queued objects, its transactions and its stage, and events in the queue that are
never applied. It also contains what a device does for a peer that has not said hello.
-/

namespace Harp.Daemon

open Ieee Rings Runs

variable {D X : Type}

section Law

-- What a session works with besides the device itself.
structure Leftover where
  peerCredit : Nat
  granted : Nat
  sendq : Ring Hash sendqCap
  txn : TxnTable
  evtStage : List DevEvent
  evtStaged : Bool
  helloDone : Bool
  closing : Bool

def left (c : Daemon D) (l : Leftover) : Daemon D :=
  { c with
    send := { c.send with peerCredit := l.peerCredit, sendq := l.sendq }
    granted := l.granted
    helloDone := l.helloDone
    closing := l.closing
    e := { c.e with evt := { c.e.evt with
      txn := l.txn, evtStage := l.evtStage, evtStaged := l.evtStaged } } }

def withQueue (c : Daemon D) (q : Ring Hash sendqCap) : Daemon D :=
  { c with send := { c.send with sendq := q } }

-- Objects, the hash of every ref but those `spared`, event queue and engine are the same.
structure Untouched (spared : List Comp → Prop) (c c' : Daemon D) : Prop where
  objects : c'.store.objects = c.store.objects
  refs : ∀ p, ¬ spared p → (currentAt c'.dev p).bind Ref.hash = (currentAt c.dev p).bind Ref.hash
  evq : c'.e.evt.evq = c.e.evt.evq
  engine : c'.e = { c.e with evt := c'.e.evt, touchPending := c'.e.touchPending }

-- Whatever the session fields hold between two sessions is of no consequence.
def Forgets (k : Kernel D X) (c : Daemon D) : Prop :=
  c.up = false → ∀ l (acts : List Act),
    ∃ l', acts.foldl (next k) (c.left l) = (acts.foldl (next k) c).left l'

def Gated (k : Kernel D X) (spared : List Comp → Prop) (c : Daemon D) : Prop :=
  c.up = true → c.helloDone = false → ∀ m, Untouched spared c (c.next k (.message m))

-- The staged run of a session makes no difference to the store and the live ref of a later one.
def StageDropped (k : Kernel D X) (c : Daemon D) : Prop :=
  ∀ msc io (acts : List Act),
    (acts.foldl (next k) ((c.setEvt { c.e.evt with evtStage := [] }).next k (.disconnect msc io))).dev
      = (acts.foldl (next k) (c.next k (.disconnect msc io))).dev

structure SessionLaw (k : Kernel D X) (c : Daemon D) : Prop where
  forgets : Forgets k c
  dropped : StageDropped k c
  gated : Gated k (fun _ => False) c

-- The device takes an `audio.start` that passes its checks.
def Starts (c : Daemon D) (a : Act) : Prop :=
  c.up = true ∧ c.closing = false ∧ c.helloDone = true
    ∧ ∃ buf io e, a = .message (.ctl buf io) ∧ envParse buf = some e ∧ e.msgtype = .request
      ∧ e.method = ascii "audio.start" ∧ startRefused c.audio (startParse e.body) io.start = none

-- No stream runs, and what `c` has in its queue stays in front.
structure Holds (c c' : Daemon D) : Prop where
  idle : c'.audio.threadLive = false
  front : c.e.evt.evq <+: c'.e.evt.evq

/--
What is in the queue between two sessions, in whatever sessions come after: either it is still in
front and there has been no stream, or the first start has emptied the queue.
-/
def Waits (k : Kernel D X) (c : Daemon D) : Prop :=
  c.up = false → ∀ acts : List Act,
    Holds c (acts.foldl (next k) c)
      ∨ ∃ before a after, acts = before ++ a :: after ∧ Holds c (before.foldl (next k) c)
        ∧ Starts (before.foldl (next k) c) a ∧ ((before.foldl (next k) c).next k a).e.evt.evq = []

/--
The staged run goes into the event queue when its session ends, and what is in the queue then is
never applied by a stream of a later session.
-/
structure IsolationLaw (k : Kernel D X) (c : Daemon D) : Prop where
  forgets : Forgets k c
  published : ∀ msc io, c.up = true →
    (c.next k (.disconnect msc io)).e.evt.evq
      = c.e.evt.evq ++ c.e.evt.evtStage.take (devEvqCap - c.e.evt.evq.length)
  waits : Waits k c
  unplayed : c.audio.threadLive = false → ∀ slots n pos done, c.next k (.segment slots n pos done) = c
  gated : Gated k (fun p => p = tmpPath c.store.pid livePath) c

-- A device before its first session.
structure Booted (c : Daemon D) : Prop where
  named : WellNamed c.store
  cache : c.liveCache = none
  thread : c.audio.threadLive = false
  down : c.up = false

end Law

section Steps

variable {k : Kernel D X} {c : Daemon D}

theorem next_connect (hup : c.up = false) : c.next k .connect = c.connect :=
  if_neg (by simp [hup])

theorem next_connect_up (hup : c.up = true) : c.next k .connect = c :=
  if_pos hup

theorem next_message {m : StreamMsg} (hup : c.up = true) (hopen : c.closing = false)
    : c.next k (.message m) = c.message k m :=
  if_pos ⟨hup, by simp [hopen]⟩

theorem next_message_down {m : StreamMsg} (hup : c.up = false) : c.next k (.message m) = c :=
  if_neg (by simp [hup])

theorem next_message_closing {m : StreamMsg} (h : c.closing = true) : c.next k (.message m) = c :=
  if_neg (by simp [h])

theorem next_disconnect {msc : UInt64} {io : WriteIo} (hup : c.up = true)
    : c.next k (.disconnect msc io) = c.disconnect msc io :=
  if_pos hup

theorem next_disconnect_down {msc : UInt64} {io : WriteIo} (hup : c.up = false)
    : c.next k (.disconnect msc io) = c :=
  if_neg (by simp [hup])

theorem next_segment {slots : List OutSlot} {n pos done : Nat} (h : c.audio.threadLive = true)
    : c.next k (.segment slots n pos done) = { c with e := c.e.segment k slots n pos done } :=
  if_pos h

theorem next_segment_idle {slots : List OutSlot} {n pos done : Nat}
    (h : c.audio.threadLive = false) : c.next k (.segment slots n pos done) = c :=
  if_neg (by simp [h])

theorem dispatch_up (k : Kernel D X) (body : Option Bytes) (io : CtlIo) (h : Handler)
    : (c.dispatch k body io h).up = c.up := by
  cases h with
  | hello =>
    unfold dispatch handleHello
    dsimp only
    split <;> rfl
  | audioStart =>
    unfold dispatch handleAudioStart
    dsimp only
    split <;> rfl
  | knob =>
    unfold dispatch handleKnob
    dsimp only
    split <;> rfl
  | _ => rfl

theorem handleCtl_up (k : Kernel D X) (buf : Bytes) (io : CtlIo)
    : (c.handleCtl k buf io).up = c.up := by
  unfold handleCtl
  dsimp only
  split
  . rfl
  . split
    . split
      . split <;> rfl
      . rfl
    . split
      . rfl
      . split
        . exact dispatch_up k _ io _
        . rfl
    . rfl

theorem message_up (k : Kernel D X) (m : StreamMsg) : (c.message k m).up = c.up := by
  cases m with
  | ctl buf io => exact handleCtl_up k buf io
  | obj enc io =>
    unfold message
    dsimp only
    split
    . rfl
    . unfold handleObj
      dsimp only
      split <;> rfl
  | evt buf readable io =>
    unfold message
    dsimp only
    split <;> rfl

end Steps

section Queue

-- Two queues of the same entries send the same.
structure SameSend (d' d : ObjSend) : Prop where
  peerCredit : d'.peerCredit = d.peerCredit
  objDrops : d'.objDrops = d.objDrops
  items : d'.sendq.items = d.sendq.items

variable {d d' : ObjSend}

theorem SameSend.count (h : SameSend d' d) : d'.sendq.count = d.sendq.count := by
  rw [← Ring.length_items, h.items, Ring.length_items]

theorem sameSend_flushLoop (s : Store) (n : Nat) (h : SameSend d' d)
    : SameSend (ObjSend.flushLoop s n d').1 (ObjSend.flushLoop s n d).1
        ∧ (ObjSend.flushLoop s n d').2 = (ObjSend.flushLoop s n d).2 := by
  induction n generalizing d' d with
  | zero => exact ⟨h, rfl⟩
  | succ n ih =>
    unfold ObjSend.flushLoop
    rw [h.count]
    split
    . exact ⟨h, rfl⟩
    next hsome =>
      have hpop := Ring.items_pop hsome
      have hpop' := Ring.items_pop (r := d'.sendq) (by rw [h.count]; exact hsome)
      rw [h.items, hpop, List.cons.injEq] at hpop'
      rcases hpop' with ⟨hhead, htail⟩
      rw [← hhead]
      dsimp only
      split
      next hget =>
        have hsame : SameSend { d' with sendq := d'.sendq.pop, objDrops := d'.objDrops + 1 }
            { d with sendq := d.sendq.pop, objDrops := d.objDrops + 1 } :=
          ⟨h.peerCredit, by rw [h.objDrops], htail.symm⟩
        have hrest := ih hsame
        exact ⟨hrest.1, by rw [hrest.2]⟩
      next enc hget =>
        rw [h.peerCredit]
        split
        . exact ⟨h, rfl⟩
        . have hsame : SameSend
                { d' with peerCredit := d.peerCredit - enc.length, sendq := d'.sendq.pop }
                { d with peerCredit := d.peerCredit - enc.length, sendq := d.sendq.pop } :=
            ⟨rfl, h.objDrops, htail.symm⟩
          have hrest := ih hsame
          exact ⟨hrest.1, by rw [hrest.2]⟩

theorem sameSend_sendqFlush (s : Store) (h : SameSend d' d)
    : SameSend (ObjSend.sendqFlush s d').1 (ObjSend.sendqFlush s d).1
        ∧ (ObjSend.sendqFlush s d').2 = (ObjSend.sendqFlush s d).2 := by
  unfold ObjSend.sendqFlush
  rw [h.count]
  exact sameSend_flushLoop s _ h

theorem sameSend_push (x : Hash) (h : SameSend d' d)
    : SameSend (d'.sendqPush x) (d.sendqPush x) := by
  have hitems := ObjSend.sendqPush_items d x
  have hitems' := ObjSend.sendqPush_items d' x
  rw [h.items, ← hitems] at hitems'
  refine ⟨?_, ?_, hitems'⟩
  . unfold ObjSend.sendqPush
    rw [h.count]
    split <;> exact h.peerCredit
  . unfold ObjSend.sendqPush
    rw [h.count, h.objDrops]
    split <;> rfl

theorem sameSend_pushes (xs : List Hash) (h : SameSend d' d)
    : SameSend (xs.foldl ObjSend.sendqPush d') (xs.foldl ObjSend.sendqPush d) := by
  induction xs generalizing d' d with
  | nil => exact h
  | cons x xs ih => exact ih (sameSend_push x h)

theorem sameSend_coreCredit (s : Store) (body : Bytes) (h : SameSend d' d)
    : SameSend (ObjSend.coreCredit s d' body).1 (ObjSend.coreCredit s d body).1
        ∧ (ObjSend.coreCredit s d' body).2 = (ObjSend.coreCredit s d body).2 := by
  unfold ObjSend.coreCredit
  split
  . exact ⟨h, rfl⟩
  next v _ =>
    apply sameSend_sendqFlush
    exact ⟨by rw [h.peerCredit], h.objDrops, h.items⟩

theorem sameSend_stateWant (s : Store) (body : Option Bytes) (h : SameSend d' d)
    : SameSend (ObjSend.stateWant s d' body).1 (ObjSend.stateWant s d body).1
        ∧ (ObjSend.stateWant s d' body).2 = (ObjSend.stateWant s d body).2 :=
  sameSend_sendqFlush s (sameSend_pushes _ h)

end Queue

section Forget

-- Two sessions that differ in no more than where their queue stands in its buffer.
def SameQueue (c' c : Daemon D) : Prop :=
  ∃ q : Ring Hash sendqCap, q.items = c.send.sendq.items ∧ c' = c.withQueue q

-- Down, the session fields do not count.
def Agree (c' c : Daemon D) : Prop :=
  (c.up = false ∧ ∃ l, c' = c.left l) ∨ (c.up = true ∧ SameQueue c' c)

variable {c c' : Daemon D}

theorem SameQueue.lift {f : Daemon D → Daemon D} (hf : ∀ q, f (c.withQueue q) = (f c).withQueue q)
    (hsend : (f c).send = c.send) (h : SameQueue c' c) : SameQueue (f c') (f c) := by
  rcases h with ⟨q, hq, rfl⟩
  refine ⟨q, ?_, hf q⟩
  rw [hsend]
  exact hq

-- An operation on the send side that looks at the entries only.
theorem SameQueue.sends {f : ObjSend → ObjSend × SendLog}
    (hf : ∀ d' d, SameSend d' d → SameSend (f d').1 (f d).1 ∧ (f d').2 = (f d).2)
    (h : SameQueue c' c)
    : SameQueue { c' with send := (f c'.send).1, log := c'.log ++ sentMsgs (f c'.send).2 }
        { c with send := (f c.send).1, log := c.log ++ sentMsgs (f c.send).2 } := by
  rcases h with ⟨q, hq, rfl⟩
  rcases hf { c.send with sendq := q } c.send ⟨rfl, rfl, hq⟩ with ⟨hsame, hlog⟩
  refine ⟨(f { c.send with sendq := q }).1.sendq, hsame.items, ?_⟩
  have hsend : (f { c.send with sendq := q }).1
      = { (f c.send).1 with sendq := (f { c.send with sendq := q }).1.sendq } := by
    rcases hsame with ⟨hcredit, hdrops, _⟩
    cases hout : (f { c.send with sendq := q }).1
    rw [hout] at hcredit hdrops
    dsimp only at hcredit hdrops ⊢
    rw [hcredit, hdrops]
  unfold withQueue
  dsimp only
  rw [hlog, ← hsend]

theorem SameQueue.clear (h : SameQueue c' c) : SameQueue c'.dropBacklog c.dropBacklog := by
  rcases h with ⟨q, _, rfl⟩
  exact ⟨q.clear, rfl, rfl⟩

theorem SameQueue.refl (c : Daemon D) : SameQueue c c :=
  ⟨c.send.sendq, rfl, rfl⟩

theorem SameQueue.helloDone (h : SameQueue c' c) : c'.helloDone = c.helloDone := by
  rcases h with ⟨q, _, rfl⟩
  rfl

theorem SameQueue.up (h : SameQueue c' c) : c'.up = c.up := by
  rcases h with ⟨q, _, rfl⟩
  rfl

theorem SameQueue.closing (h : SameQueue c' c) : c'.closing = c.closing := by
  rcases h with ⟨q, _, rfl⟩
  rfl

theorem SameQueue.threadLive (h : SameQueue c' c) : c'.audio.threadLive = c.audio.threadLive := by
  rcases h with ⟨q, _, rfl⟩
  rfl

theorem SameQueue.hello (h : SameQueue c' c) (body : Option Bytes) (io : CtlIo)
    : SameQueue (c'.handleHello body io) (c.handleHello body io) := by
  unfold handleHello
  split
  . exact h
  . have hstop : SameQueue { c'.audioStop io.msc with helloDone := true }
        { c.audioStop io.msc with helloDone := true } :=
      h.lift (f := fun c => { c.audioStop io.msc with helloDone := true }) (fun _ => rfl) rfl
    exact hstop.clear.lift (f := fun c => c.clearTxn.grantCredit) (fun _ => rfl) rfl

theorem SameQueue.dispatch (k : Kernel D X) (h : SameQueue c' c) (body : Option Bytes) (io : CtlIo)
    (handler : Handler) : SameQueue (c'.dispatch k body io handler) (c.dispatch k body io handler) := by
  cases handler with
  | hello => exact h.hello body io
  | bye => exact h.lift (f := fun c => { c with closing := true }) (fun _ => rfl) rfl
  | stateRefs =>
    exact h.lift (f := fun c => c.setDev (stateRefs c.dev body io.refs).2) (fun _ => rfl) rfl
  | stateSnapshot =>
    exact h.lift (f := fun c => c.setDev (stateSnapshot c.dev io.shed body io.time io.snap).2)
      (fun _ => rfl) rfl
  | stateWant =>
    rcases h with ⟨q, hq, rfl⟩
    exact SameQueue.sends (f := fun d => ObjSend.stateWant c.store d body)
      (fun _ _ hsame => sameSend_stateWant c.store body hsame) ⟨q, hq, rfl⟩
  | stateRefset =>
    exact h.lift (f := fun c => c.setDev (handleStateRefset c.dev body io.refset).2)
      (fun _ => rfl) rfl
  | audioStart =>
    apply h.lift (f := fun c => c.handleAudioStart k body io)
    . intro q
      unfold handleAudioStart withQueue
      dsimp only
      split <;> rfl
    . unfold handleAudioStart
      split <;> rfl
  | audioStop => exact h.lift (f := fun c => c.handleAudioStop io) (fun _ => rfl) rfl
  | knob =>
    apply h.lift (f := fun c => c.handleKnob body io)
    . intro q
      unfold handleKnob
      split <;> rfl
    . unfold handleKnob
      split <;> rfl
  | devGc => exact h.lift (f := handleDevGc) (fun _ => rfl) rfl
  | reply => exact h

theorem SameQueue.handleCtl (k : Kernel D X) (h : SameQueue c' c) (buf : Bytes) (io : CtlIo)
    : SameQueue (c'.handleCtl k buf io) (c.handleCtl k buf io) := by
  have htouch : SameQueue (c'.setDev (ctlTouch c'.dev io.touch))
      (c.setDev (ctlTouch c.dev io.touch)) :=
    h.lift (f := fun c => c.setDev (ctlTouch c.dev io.touch)) (fun _ => rfl) rfl
  unfold Daemon.handleCtl
  dsimp only
  generalize c'.setDev (ctlTouch c'.dev io.touch) = c₁' at htouch ⊢
  generalize c.setDev (ctlTouch c.dev io.touch) = c₁ at htouch ⊢
  rw [htouch.helloDone]
  split
  . exact htouch.lift (f := frameError) (fun _ => rfl) rfl
  . split
    . split
      next body _ =>
        split
        . rcases htouch with ⟨q, hq, rfl⟩
          exact SameQueue.sends (f := fun d => ObjSend.coreCredit c₁.store d body)
            (fun _ _ hsame => sameSend_coreCredit c₁.store body hsame) ⟨q, hq, rfl⟩
        . exact htouch
      . exact htouch
    . split
      . exact htouch
      . split
        . exact htouch.dispatch k _ io _
        . exact htouch
    . exact htouch

theorem SameQueue.message (k : Kernel D X) (h : SameQueue c' c) (m : StreamMsg)
    : SameQueue (c'.message k m) (c.message k m) := by
  have hflush : SameQueue c'.evtStageFlush c.evtStageFlush :=
    h.lift (f := evtStageFlush) (fun _ => rfl) rfl
  have herror : SameQueue c'.frameError c.frameError := h.lift (f := frameError) (fun _ => rfl) rfl
  cases m with
  | ctl buf io => exact hflush.handleCtl k buf io
  | obj enc io =>
    unfold Daemon.message
    dsimp only
    rw [h.helloDone]
    split
    . exact herror
    . apply hflush.lift (f := fun c => c.handleObj enc io)
      . intro q
        unfold handleObj
        dsimp only
        split <;> split <;> first | rfl | contradiction
      . unfold handleObj
        dsimp only
        split <;> rfl
  | evt buf readable io =>
    unfold Daemon.message
    dsimp only
    rw [h.helloDone]
    split
    . exact herror
    . exact h.lift (f := fun c => c.handleEvt buf readable io) (fun _ => rfl) rfl

-- Down, no stream is there, so no segment reads the event plane.
theorem Agree.next (k : Kernel D X) (hquiet : c.up = false → c.audio.threadLive = false)
    (h : Agree c' c) (a : Act) : Agree (c'.next k a) (c.next k a) := by
  rcases h with ⟨hup, l, rfl⟩ | ⟨hup, h⟩
  . have hup' : (c.left l).up = false := hup
    have hidle := hquiet hup
    have hidle' : (c.left l).audio.threadLive = false := hidle
    cases a with
    | connect =>
      rw [next_connect hup, next_connect hup']
      exact .inr ⟨rfl, l.sendq.clear, rfl, rfl⟩
    | message m =>
      rw [next_message_down hup, next_message_down hup']
      exact .inl ⟨hup, l, rfl⟩
    | disconnect msc io =>
      rw [next_disconnect_down hup, next_disconnect_down hup']
      exact .inl ⟨hup, l, rfl⟩
    | panel part id v io => exact .inl ⟨hup, l, rfl⟩
    | revert refname io => exact .inl ⟨hup, l, rfl⟩
    | segment slots n pos done =>
      rw [next_segment_idle hidle, next_segment_idle hidle']
      exact .inl ⟨hup, l, rfl⟩
  . have hup' := h.up.trans hup
    cases a with
    | connect =>
      rw [next_connect_up hup, next_connect_up hup']
      exact .inr ⟨hup, h⟩
    | message m =>
      by_cases hclosing : c.closing = true
      . rw [next_message_closing hclosing, next_message_closing (h.closing.trans hclosing)]
        exact .inr ⟨hup, h⟩
      . rw [Bool.not_eq_true] at hclosing
        rw [next_message hup hclosing, next_message hup' (h.closing.trans hclosing)]
        exact .inr ⟨(message_up k m).trans hup, h.message k m⟩
    | disconnect msc io =>
      rw [next_disconnect hup, next_disconnect hup']
      rcases h with ⟨q, hq, rfl⟩
      exact .inl ⟨rfl, ⟨(c.disconnect msc io).send.peerCredit, (c.disconnect msc io).granted, q,
        (c.disconnect msc io).e.evt.txn, (c.disconnect msc io).e.evt.evtStage,
        (c.disconnect msc io).e.evt.evtStaged, (c.disconnect msc io).helloDone,
        (c.disconnect msc io).closing⟩, rfl⟩
    | panel part id v io =>
      exact .inr ⟨hup, h.lift (f := fun c => c.next k (.panel part id v io)) (fun _ => rfl) rfl⟩
    | revert refname io =>
      exact .inr ⟨hup, h.lift (f := fun c => c.next k (.revert refname io)) (fun _ => rfl) rfl⟩
    | segment slots n pos done =>
      cases hlive : c.audio.threadLive with
      | false =>
        rw [next_segment_idle hlive, next_segment_idle (h.threadLive.trans hlive)]
        exact .inr ⟨hup, h⟩
      | true =>
        rw [next_segment hlive, next_segment (h.threadLive.trans hlive)]
        exact .inr ⟨hup, h.lift (f := fun c => { c with e := c.e.segment k slots n pos done })
          (fun _ => rfl) rfl⟩

end Forget

section Invariant

/--
Outside of a session that has said hello no stream runs; before hello nothing is staged.
-/
structure SessInv (c : Daemon D) : Prop where
  named : Named c.dev
  quiet : (c.up && c.helloDone) = false → c.audio.threadLive = false
  unstaged : c.up = true → c.helloDone = false → c.e.evt.evtStage = []

namespace SessInv

variable {k : Kernel D X} {c : Daemon D}

theorem of_booted (h : Booted c) : SessInv c := by
  constructor
  . exact Named.of_uncached h.named h.cache
  . intro _
    exact h.thread
  . intro hup
    rw [h.down] at hup
    cases hup

theorem of_done (hdone : (c.up && c.helloDone) = true) (hnamed : Named c.dev) : SessInv c := by
  rw [Bool.and_eq_true] at hdone
  constructor
  . exact hnamed
  . intro hnot
    rw [hdone.1, hdone.2] at hnot
    cases hnot
  . intro _ hnot
    rw [hdone.2] at hnot
    cases hnot

theorem setDev (h : SessInv c) {d : Device} (hnamed : Named d) : SessInv (c.setDev d) :=
  ⟨hnamed, h.quiet, h.unstaged⟩

theorem setEvt (h : SessInv c) {evt : EvtState}
    (hstage : c.e.evt.evtStage = [] → evt.evtStage = []) : SessInv (c.setEvt evt) := by
  refine ⟨h.named, h.quiet, ?_⟩
  intro hup hdone
  exact hstage (h.unstaged hup hdone)

theorem frameError (h : SessInv c) : SessInv c.frameError :=
  h.setEvt fun hstage => hstage

theorem evtStageFlush (h : SessInv c) : SessInv c.evtStageFlush := by
  rcases evtStageFlush_eq c.e.evt with ⟨_, _, hstage⟩
  exact h.setEvt fun _ => hstage

theorem clearTxn (h : SessInv c) : SessInv c.clearTxn :=
  h.setEvt fun hstage => hstage

theorem audioStop_idle (a : AudioState) (msc : UInt64) : (Harp.audioStop a msc).threadLive = false := by
  unfold Harp.audioStop
  cases hlive : a.threadLive with
  | false =>
    rw [if_neg Bool.false_ne_true]
    exact hlive
  | true => rfl

-- Freed voices keep the parameters and the event plane.
theorem audioStop_frame (c : Daemon D) (msc : UInt64)
    : (c.audioStop msc).dev = c.dev ∧ (c.audioStop msc).e.evt = c.e.evt := by
  unfold Daemon.audioStop
  split
  . exact ⟨rfl, rfl⟩
  . exact ⟨rfl, rfl⟩

theorem audioStop (h : SessInv c) (msc : UInt64) : SessInv (c.audioStop msc) := by
  rcases audioStop_frame c msc with ⟨hdev, hevt⟩
  have hidle := audioStop_idle c.audio msc
  constructor
  . rw [hdev]
    exact h.named
  . intro _
    exact hidle
  . rw [hevt]
    exact h.unstaged

theorem handleHello (h : SessInv c) (hup : c.up = true) (body : Option Bytes) (io : CtlIo)
    : SessInv (c.handleHello body io) := by
  unfold Daemon.handleHello
  split
  . exact h
  . have hstop := h.audioStop io.msc
    apply of_done
    . have hdone : ((c.audioStop io.msc).up && true) = true := by
        rw [Bool.and_true]
        exact hup
      exact hdone
    . exact hstop.named

theorem handleAudioStart (h : SessInv c) (hdone : (c.up && c.helloDone) = true)
    (body : Option Bytes) (io : CtlIo) : SessInv (c.handleAudioStart k body io) := by
  unfold Daemon.handleAudioStart
  split
  . exact h
  . apply of_done
    . exact hdone
    . dsimp only
      split
      . exact h.named.of_refs rfl rfl
      . exact h.named.of_refs rfl rfl

theorem handleDevGc (h : SessInv c) (hdone : (c.up && c.helloDone) = true)
    : SessInv c.handleDevGc := by
  have harchive := h.named.prune (.inl rfl)
  have hduplicate := harchive.prune (.inr rfl)
  apply of_done
  . exact hdone
  . unfold Daemon.handleDevGc
    dsimp only
    split
    next out hgc => exact hduplicate.of_refs rfl (storeGc_frame storeObjDelete_refs hgc)
    next => exact hduplicate.of_refs rfl rfl

-- What is dispatched is a hello or comes after one.
theorem dispatch (h : SessInv c) (hup : c.up = true) (body : Option Bytes) (io : CtlIo)
    {handler : Handler} (hgate : handler = .hello ∨ c.helloDone = true)
    : SessInv (c.dispatch k body io handler) := by
  rcases hgate with rfl | hdone
  . exact h.handleHello hup body io
  . have hboth : (c.up && c.helloDone) = true := by
      rw [hup, hdone]
      rfl
    cases handler with
    | hello => exact h.handleHello hup body io
    | bye => exact of_done hboth h.named
    | stateRefs =>
      have hnamed : Named (stateRefs c.dev body io.refs).2 := by
        unfold stateRefs
        dsimp only
        split
        . exact h.named.flush io.refs
        . unfold handleStateRefs
          dsimp only
          split
          . split
            . exact h.named.flush io.refs
            . exact h.named.flush io.refs
          . exact h.named.flush io.refs
      exact of_done hboth hnamed
    | stateSnapshot =>
      have hnamed : Named (stateSnapshot c.dev io.shed body io.time io.snap).2 := by
        have hsnap := h.named.snapshot
          (if (snapshotParse body).msg.isEmpty then none else some (snapshotParse body).msg)
          io.time io.snap
        unfold stateSnapshot
        dsimp only
        split
        . exact h.named
        . split
          . exact h.named
          . split
            next heq =>
              rw [heq] at hsnap
              exact hsnap
            next heq =>
              rw [heq] at hsnap
              exact hsnap
      exact of_done hboth hnamed
    | stateWant => exact of_done hboth (h.named.of_refs rfl rfl)
    | stateRefset => exact of_done hboth (h.named.refset body io.refset)
    | audioStart => exact h.handleAudioStart hboth body io
    | audioStop => exact (h.audioStop io.msc).clearTxn
    | knob =>
      unfold Daemon.dispatch Daemon.handleKnob
      dsimp only
      split
      . exact h
      next id v _ =>
        exact of_done hboth (h.named.panelSet 0 (id % 2 ^ 32) v io.panel)
    | devGc => exact h.handleDevGc hboth
    | reply => exact h

theorem ctlTouched (h : SessInv c) (io : WriteIo) : SessInv (c.setDev (ctlTouch c.dev io)) :=
  h.setDev (h.named.ctl io)

-- The gate of the control stream lets nothing through but a hello.
theorem gate {method : Bytes} {handler : Handler} (hfind : handlerOf method = some handler)
    (hgate : ¬ (¬ c.helloDone = true ∧ method ≠ ascii "core.hello"))
    : handler = .hello ∨ c.helloDone = true := by
  by_cases hdone : c.helloDone = true
  . exact .inr hdone
  . have hmethod : method = ascii "core.hello" := by
      by_contra hne
      exact hgate ⟨hdone, hne⟩
    have hhello : handlerOf (ascii "core.hello") = some .hello := by decide
    rw [hmethod, hhello, Option.some.injEq] at hfind
    exact .inl hfind.symm

theorem handleCtl (h : SessInv c) (hup : c.up = true) (buf : Bytes) (io : CtlIo)
    : SessInv (c.handleCtl k buf io) := by
  have htouch := h.ctlTouched io.touch
  have hup' : (c.setDev (ctlTouch c.dev io.touch)).up = true := hup
  unfold Daemon.handleCtl
  dsimp only
  generalize c.setDev (ctlTouch c.dev io.touch) = c₁ at htouch hup' ⊢
  split
  . exact htouch.frameError
  . split
    . split
      . split
        . exact ⟨htouch.named, htouch.quiet, htouch.unstaged⟩
        . exact htouch
      . exact htouch
    . split
      . exact htouch
      next hgate =>
        split
        next handler hfind => exact htouch.dispatch hup' _ io (gate hfind hgate)
        next => exact htouch
    . exact htouch

theorem handleObj (h : SessInv c) (hdone : (c.up && c.helloDone) = true) (enc : Bytes) (io : WriteIo)
    : SessInv (c.handleObj enc io) := by
  unfold Daemon.handleObj
  dsimp only
  split
  . apply of_done
    . exact hdone
    . exact h.named.of_refs rfl (handleObj_refs _ enc io)
  . apply of_done
    . exact hdone
    . exact h.named.of_refs rfl (handleObj_refs _ enc io)

theorem handleEvt (h : SessInv c) (hdone : (c.up && c.helloDone) = true) (buf : Bytes)
    (readable : Bool) (io : WriteIo) : SessInv (c.handleEvt buf readable io) := by
  let s : Session := ⟨c.dev, c.e.evt, c.audio.epoch.toNat⟩
  have hdev : Named (consumeEvt s buf readable io).dev := by
    rcases consumeEvt_touches s buf readable io with hsame | htouch
    . rw [hsame]
      exact h.named
    . rw [htouch]
      exact h.named.touch true io
  exact of_done hdone hdev

theorem message (h : SessInv c) (hup : c.up = true) (m : StreamMsg) : SessInv (c.message k m) := by
  cases m with
  | ctl buf io => exact h.evtStageFlush.handleCtl hup buf io
  | obj enc io =>
    unfold Daemon.message
    dsimp only
    split
    . exact h.frameError
    next hdone =>
      rw [Classical.not_not] at hdone
      apply h.evtStageFlush.handleObj
      have hboth : (c.up && c.helloDone) = true := by
        rw [hup, hdone]
        rfl
      exact hboth
  | evt buf readable io =>
    unfold Daemon.message
    dsimp only
    split
    . exact h.frameError
    next hdone =>
      rw [Classical.not_not] at hdone
      apply h.handleEvt
      rw [hup, hdone]
      rfl

theorem connect (h : SessInv c) (hup : c.up = false) : SessInv c.connect := by
  have hquiet := h.quiet (by rw [hup]; rfl)
  constructor
  . exact h.named
  . intro _
    exact hquiet
  . intro _ _
    rfl

theorem disconnect (h : SessInv c) (msc : UInt64) (io : WriteIo) : SessInv (c.disconnect msc io) := by
  have hstop := h.evtStageFlush.audioStop msc
  have hidle := audioStop_idle c.evtStageFlush.audio msc
  constructor
  . exact hstop.named.flush io
  . intro _
    exact hidle
  . intro hup
    cases hup

theorem next (h : SessInv c) (a : Act) : SessInv (c.next k a) := by
  cases a with
  | connect =>
    cases hup : c.up with
    | false =>
      rw [next_connect hup]
      exact h.connect hup
    | true =>
      rw [next_connect_up hup]
      exact h
  | message m =>
    cases hup : c.up with
    | false =>
      rw [next_message_down hup]
      exact h
    | true =>
      cases hclosing : c.closing with
      | true =>
        rw [next_message_closing hclosing]
        exact h
      | false =>
        rw [next_message hup hclosing]
        exact h.message hup m
  | disconnect msc io =>
    cases hup : c.up with
    | false =>
      rw [next_disconnect_down hup]
      exact h
    | true =>
      rw [next_disconnect hup]
      exact h.disconnect msc io
  | panel part id v io =>
    exact h.setDev (h.named.panelSet part id v io)
  | revert refname io =>
    exact h.setDev (h.named.panelRevert refname io)
  | segment slots n pos done =>
    cases hlive : c.audio.threadLive with
    | false =>
      rw [next_segment_idle hlive]
      exact h
    | true =>
      rw [next_segment hlive]
      have hdone : (c.up && c.helloDone) = true := by
        by_contra hnot
        rw [Bool.not_eq_true] at hnot
        have hidle := h.quiet hnot
        rw [hlive] at hidle
        cases hidle
      apply of_done
      . exact hdone
      . exact h.named.of_refs rfl rfl

end SessInv

end Invariant

section Gate

variable {d : Device}

theorem storedAt_liveWrite {s : Store} {r : Ref} (hname : comps r.name = livePath)
    (io : WriteIo) {p : List Comp} (hlive : p ≠ livePath)
    (htmp : p ≠ tmpPath s.pid livePath) : storedAt (storeRefWrite s r io).2 p = storedAt s p := by
  rw [← hname] at hlive htmp
  cases hw : (storeRefWrite s r io).1 with
  | true => rw [storedAt_storeRefWrite hw, if_neg hlive, if_neg htmp]
  | false => exact storedAt_storeRefWrite_false hw p htmp

-- What a touch of the live ref leaves as it was.
structure Touched (d d' : Device) : Prop where
  objects : d'.store.objects = d.store.objects
  refs : ∀ p, p ≠ tmpPath d.store.pid livePath →
    (currentAt d' p).bind Ref.hash = (currentAt d p).bind Ref.hash
  pval : d'.pval = d.pval
  ramps : d'.ramps = d.ramps

theorem touched_refl (d : Device) : Touched d d :=
  ⟨rfl, fun _ _ => rfl, rfl, rfl⟩

-- The cache goes on with the head, also where the write has lost it.
theorem touched_liveRefTouch (h : Named d) (dirty : Bool) (io : WriteIo)
    : Touched d (liveRefTouch d dirty io) := by
  constructor
  . exact liveRefTouch_objects d dirty io
  . intro p htmp
    unfold liveRefTouch
    split
    . rfl
    next r hbase =>
      have hr : comps r.name = livePath ∧ r.hash = (currentAt d livePath).bind Ref.hash := by
        cases hcache : d.liveCache with
        | none =>
          rw [hcache] at hbase
          rcases h.store.read_live hbase with ⟨hname, _, hhash⟩
          rw [currentAt_of_none hcache]
          exact ⟨hname, hhash⟩
        | some c =>
          rw [hcache] at hbase
          cases hbase
          rw [currentAt_live_of_some hcache]
          exact ⟨(h.cache r hcache).1, rfl⟩
      by_cases hlive : p = livePath
      . rw [hlive, currentAt_live_of_some rfl]
        exact hr.2
      . rw [currentAt_of_ne hlive, currentAt_of_ne hlive]
        dsimp only
        split
        . rw [storedAt_liveWrite (r := { r with generation := r.generation + 1, dirty }) hr.1 io hlive
            htmp]
        . rfl
  . unfold liveRefTouch
    split <;> rfl
  . unfold liveRefTouch
    split <;> rfl

theorem touched_ctlTouch (h : Named d) (io : WriteIo) : Touched d (ctlTouch d io) := by
  unfold ctlTouch
  split
  . have hflag : Named { d with touchPending := false } := h.of_refs rfl rfl
    have htouch := touched_liveRefTouch hflag true io
    exact ⟨htouch.objects, htouch.refs, htouch.pval, htouch.ramps⟩
  . exact touched_refl d

variable {k : Kernel D X} {c c' : Daemon D}

-- The path of the temporary that a write of the live ref goes through.
abbrev liveTemp (c : Daemon D) (p : List Comp) : Prop :=
  p = tmpPath c.store.pid livePath

theorem untouched_setDev {d : Device} (h : Touched c.dev d)
    : Untouched (liveTemp c) c (c.setDev d) := by
  rcases h with ⟨hobjects, hrefs, hpval, hramps⟩
  refine ⟨hobjects, hrefs, rfl, ?_⟩
  unfold setDev
  dsimp only
  rw [hpval, hramps]
  rfl

theorem Untouched.congr {c'' : Daemon D} {spared : List Comp → Prop} (h : Untouched spared c c')
    (hdev : c''.dev = c'.dev) (hevq : c''.e.evt.evq = c'.e.evt.evq)
    (he : c''.e = { c'.e with evt := c''.e.evt }) : Untouched spared c c'' := by
  have hstore : c''.store = c'.store := congrArg Device.store hdev
  constructor
  . rw [hstore]
    exact h.objects
  . intro p hp
    rw [hdev]
    exact h.refs p hp
  . rw [hevq]
    exact h.evq
  . rw [he, h.engine]

theorem Untouched.refl (spared : List Comp → Prop) (c : Daemon D) : Untouched spared c c :=
  ⟨rfl, fun _ _ => rfl, rfl, rfl⟩

theorem untouched_handleHello (hidle : c'.audio.threadLive = false)
    (h : Untouched (liveTemp c) c c') (body : Option Bytes) (io : CtlIo)
    : Untouched (liveTemp c) c (c'.handleHello body io) := by
  unfold handleHello
  split
  . exact h
  . have he : (c'.audioStop io.msc).e = c'.e := by
      unfold audioStop
      rw [hidle]
      rfl
    have hdev : (c'.audioStop io.msc).dev = c'.dev := (SessInv.audioStop_frame c' io.msc).1
    apply h.congr
    . exact hdev
    . have hevq : (c'.audioStop io.msc).e.evt.evq = c'.e.evt.evq := by
        rw [he]
      exact hevq
    . dsimp only [clearTxn, setEvt, grantCredit, dropBacklog]
      rw [he]

theorem untouched_handleCtl (h : SessInv c) (hdone : c.helloDone = false)
    (buf : Bytes) (io : CtlIo) : Untouched (liveTemp c) c (c.handleCtl k buf io) := by
  have hidle := h.quiet (by rw [hdone, Bool.and_false])
  have htouch : Untouched (liveTemp c) c (c.setDev (ctlTouch c.dev io.touch)) :=
    untouched_setDev (touched_ctlTouch h.named io.touch)
  have hdone' : (c.setDev (ctlTouch c.dev io.touch)).helloDone = false := hdone
  have hidle' : (c.setDev (ctlTouch c.dev io.touch)).audio.threadLive = false := hidle
  unfold handleCtl
  dsimp only
  generalize c.setDev (ctlTouch c.dev io.touch) = c₁ at htouch hdone' hidle' ⊢
  split
  . exact htouch.congr rfl rfl rfl
  . split
    . split
      . split
        . exact htouch.congr rfl rfl rfl
        . exact htouch
      . exact htouch
    . split
      . exact htouch
      next hgate =>
        split
        next handler hfind =>
          have hhello : handler = .hello := by
            rcases SessInv.gate hfind hgate with hhello | hnot
            . exact hhello
            . rw [hdone'] at hnot
              cases hnot
          rw [hhello]
          exact untouched_handleHello hidle' htouch _ io
        next => exact htouch
    . exact htouch

theorem SessInv.gated (h : SessInv c) : Gated k (liveTemp c) c := by
  intro hup hdone m
  cases hclosing : c.closing with
  | true =>
    rw [next_message_closing hclosing]
    exact Untouched.refl _ c
  | false =>
    rw [next_message hup hclosing]
    have herror : Untouched (liveTemp c) c c.frameError :=
      (Untouched.refl _ c).congr rfl rfl rfl
    have hshut : ¬ c.helloDone = true := by
      rw [hdone]
      exact Bool.false_ne_true
    cases m with
    | ctl buf io =>
      have hflush : c.evtStageFlush = c := by
        unfold Daemon.evtStageFlush
        rw [evtStageFlush_of_nil (h.unstaged hup hdone)]
        rfl
      unfold Daemon.message
      dsimp only
      rw [hflush]
      exact untouched_handleCtl h hdone buf io
    | obj enc io =>
      unfold Daemon.message
      dsimp only
      rw [if_pos hshut]
      exact herror
    | evt buf readable io =>
      unfold Daemon.message
      dsimp only
      rw [if_pos hshut]
      exact herror

end Gate

section Wait

variable {k : Kernel D X} {c₀ c c' : Daemon D}

theorem Holds.of_same (h : Holds c₀ c) (haudio : c'.audio.threadLive = false)
    (hevq : c.e.evt.evq <+: c'.e.evt.evq) : Holds c₀ c' :=
  ⟨haudio, h.front.trans hevq⟩

theorem Holds.setDev (h : Holds c₀ c) (d : Device) : Holds c₀ (c.setDev d) :=
  h.of_same h.idle (List.prefix_refl _)

theorem Holds.frameError (h : Holds c₀ c) : Holds c₀ c.frameError :=
  h.of_same h.idle (List.prefix_refl _)

theorem Holds.clearTxn (h : Holds c₀ c) : Holds c₀ c.clearTxn :=
  h.of_same h.idle (List.prefix_refl _)

theorem Holds.evtStageFlush (h : Holds c₀ c) : Holds c₀ c.evtStageFlush := by
  have hflush : c.e.evt.evq <+: (Harp.evtStageFlush c.e.evt).evq := by
    rw [(evtStageFlush_eq c.e.evt).1]
    exact List.prefix_append _ _
  exact h.of_same h.idle hflush

theorem Holds.audioStop (h : Holds c₀ c) (msc : UInt64) : Holds c₀ (c.audioStop msc) := by
  apply h.of_same (SessInv.audioStop_idle c.audio msc)
  rw [(SessInv.audioStop_frame c msc).2]

theorem Holds.handleHello (h : Holds c₀ c) (body : Option Bytes) (io : CtlIo)
    : Holds c₀ (c.handleHello body io) := by
  unfold Daemon.handleHello
  split
  . exact h
  . have hstop := h.audioStop io.msc
    exact hstop.of_same hstop.idle (List.prefix_refl _)

-- A start that passes its checks takes what waits with it.
theorem Holds.handleAudioStart (h : Holds c₀ c) (body : Option Bytes) (io : CtlIo)
    : Holds c₀ (c.handleAudioStart k body io)
        ∨ startRefused c.audio (startParse body) io.start = none
          ∧ (c.handleAudioStart k body io).e.evt.evq = [] := by
  unfold Daemon.handleAudioStart
  split
  next => exact .inl h
  next hpasses =>
    refine .inr ⟨hpasses, ?_⟩
    dsimp only
    split <;> rfl

theorem Holds.dispatch (h : Holds c₀ c) (body : Option Bytes) (io : CtlIo) {handler : Handler}
    (hne : handler ≠ .audioStart) : Holds c₀ (c.dispatch k body io handler) := by
  cases handler with
  | hello => exact h.handleHello body io
  | stateRefs => exact h.setDev _
  | stateSnapshot => exact h.setDev _
  | stateRefset => exact h.setDev _
  | audioStart => contradiction
  | audioStop => exact (h.audioStop io.msc).clearTxn
  | knob =>
    unfold Daemon.dispatch Daemon.handleKnob
    dsimp only
    split
    . exact h
    . exact h.setDev _
  | _ => exact h.of_same h.idle (List.prefix_refl _)

theorem handlerOf_audioStart {method : Bytes} (h : handlerOf method = some .audioStart)
    : method = ascii "audio.start" := by
  have hall : ∀ row ∈ ctlHandlers, row.2 = .audioStart → row.1 = ascii "audio.start" := by
    decide
  unfold handlerOf at h
  rw [Option.map_eq_some_iff] at h
  obtain ⟨row, hfind, hrow⟩ := h
  have hmethod := List.find?_some hfind
  rw [decide_eq_true_eq] at hmethod
  rw [← hmethod]
  exact hall row (List.mem_of_find?_eq_some hfind) hrow

theorem Holds.handleCtl (h : Holds c₀ c) (buf : Bytes) (io : CtlIo)
    : Holds c₀ (c.handleCtl k buf io)
        ∨ c.helloDone = true
          ∧ (∃ e, envParse buf = some e ∧ e.msgtype = .request ∧ e.method = ascii "audio.start"
            ∧ startRefused c.audio (startParse e.body) io.start = none)
          ∧ (c.handleCtl k buf io).e.evt.evq = [] := by
  have htouch := h.setDev (ctlTouch c.dev io.touch)
  have hdone : (c.setDev (ctlTouch c.dev io.touch)).helloDone = c.helloDone := rfl
  have haudio : (c.setDev (ctlTouch c.dev io.touch)).audio = c.audio := rfl
  unfold Daemon.handleCtl
  dsimp only
  rw [← hdone, ← haudio]
  generalize c.setDev (ctlTouch c.dev io.touch) = c₁ at htouch ⊢
  split
  next => exact .inl htouch.frameError
  next e hparse =>
    split
    next =>
      split
      . split
        . exact .inl (htouch.of_same htouch.idle (List.prefix_refl _))
        . exact .inl htouch
      . exact .inl htouch
    next htype =>
      split
      next => exact .inl htouch
      next hgate =>
        split
        next handler hfind =>
          by_cases hstart : handler = .audioStart
          . subst hstart
            have hmethod := handlerOf_audioStart hfind
            cases htouch.handleAudioStart (k := k) e.body io with
            | inl hheld => exact .inl hheld
            | inr hstarted =>
              have hhello : c₁.helloDone = true := by
                rcases SessInv.gate hfind hgate with hhello | hhello
                . cases hhello
                . exact hhello
              exact .inr ⟨hhello, ⟨e, hparse, htype, hmethod, hstarted.1⟩, hstarted.2⟩
          . exact .inl (htouch.dispatch e.body io hstart)
        next => exact .inl htouch
    next => exact .inl htouch

theorem evtMsg_of_true (msg : EvtMsg) : msg.Of (fun _ => True) := by
  cases msg <;> exact trivial

theorem Holds.handleEvt (h : Holds c₀ c) (buf : Bytes) (readable : Bool) (io : WriteIo)
    : Holds c₀ (c.handleEvt buf readable io) := by
  let s : Session := ⟨c.dev, c.e.evt, c.audio.epoch.toNat⟩
  have hholding : s.evt.Holding (fun _ => True) :=
    ⟨fun _ _ => trivial, fun _ _ _ _ => trivial⟩
  have hbrings := Brings.frame (fun _ _ _ => trivial) hholding
    (evtMsg_of_true (evtDecode s.audioEpoch buf)) readable io
  rcases hbrings.evq with ⟨new, hevq, _⟩
  have hprefix : c.e.evt.evq <+: (consumeEvt s buf readable io).evt.evq := by
    rw [hevq]
    exact List.prefix_append _ _
  exact h.of_same h.idle hprefix

theorem Holds.next (h : Holds c₀ c) (a : Act)
    : Holds c₀ (c.next k a) ∨ Starts c a ∧ (c.next k a).e.evt.evq = [] := by
  cases a with
  | connect =>
    unfold Daemon.next
    dsimp only
    split
    . exact .inl h
    . exact .inl (h.of_same h.idle (List.prefix_refl _))
  | message m =>
    by_cases hopen : c.up = true ∧ ¬ c.closing = true
    . have hnext : c.next k (.message m) = c.message k m := if_pos hopen
      rw [hnext]
      cases m with
      | ctl buf io =>
        cases h.evtStageFlush.handleCtl (k := k) buf io with
        | inl hheld => exact .inl hheld
        | inr hstarted =>
          obtain ⟨hdone, ⟨e, hparse, htype, hmethod, hpasses⟩, hevq⟩ := hstarted
          exact .inr ⟨⟨hopen.1, Bool.eq_false_iff.mpr hopen.2, hdone, buf, io, e, rfl, hparse, htype,
            hmethod, hpasses⟩, hevq⟩
      | obj enc io =>
        unfold Daemon.message
        dsimp only
        split
        . exact .inl h.frameError
        . have hflush := h.evtStageFlush
          refine .inl (hflush.of_same ?_ ?_)
          . unfold Daemon.handleObj
            dsimp only
            split <;> exact hflush.idle
          . unfold Daemon.handleObj
            dsimp only
            split <;> exact List.prefix_refl _
      | evt buf readable io =>
        unfold Daemon.message
        dsimp only
        split
        . exact .inl h.frameError
        . exact .inl (h.handleEvt buf readable io)
    . have hnext : c.next k (.message m) = c := if_neg hopen
      rw [hnext]
      exact .inl h
  | disconnect msc io =>
    unfold Daemon.next
    dsimp only
    split
    . have hstop := h.evtStageFlush.audioStop msc
      exact .inl (hstop.of_same hstop.idle (List.prefix_refl _))
    . exact .inl h
  | panel part id v io => exact .inl (h.setDev _)
  | revert refname io => exact .inl (h.setDev _)
  | segment slots n pos done =>
    rw [next_segment_idle h.idle]
    exact .inl h

theorem waits_of_idle (hidle : c.audio.threadLive = false) : Waits k c := by
  intro _ acts
  induction acts using List.reverseRecOn with
  | nil => exact .inl ⟨hidle, List.prefix_refl _⟩
  | append_singleton acts a ih =>
    cases ih with
    | inl hheld =>
      cases hheld.next (k := k) a with
      | inl hheld' =>
        rw [List.foldl_append]
        exact .inl hheld'
      | inr hstarted => exact .inr ⟨acts, a, [], rfl, hheld, hstarted⟩
    | inr hstarted =>
      obtain ⟨before, b, after, rfl, hrest⟩ := hstarted
      refine .inr ⟨before, b, after ++ [a], ?_, hrest⟩
      rw [List.append_assoc, List.cons_append]

end Wait

section Main

variable {k : Kernel D X} {c₀ c : Daemon D}

theorem SessInv.forgets (h : SessInv c) : Forgets k c := by
  intro hup l acts
  have hstart : Agree (c.left l) c := .inl ⟨hup, l, rfl⟩
  have hquiet : ∀ x : Daemon D, SessInv x → x.up = false → x.audio.threadLive = false := by
    intro x hx hdown
    exact hx.quiet (by rw [hdown]; rfl)
  have hinv : ∀ (x : Daemon D) a, SessInv x → SessInv (Daemon.next k x a) := fun _ a hx => hx.next a
  have hstep : ∀ (x' x : Daemon D) a, SessInv x → Agree x' x →
      Agree (Daemon.next k x' a) (Daemon.next k x a) :=
    fun _ x a hx hagree => hagree.next k (hquiet x hx) a
  have hend := foldl_related hinv hstep acts h hstart
  rcases hend with ⟨_, hleft⟩ | ⟨_, q, _, heq⟩
  . exact hleft
  . generalize acts.foldl (Daemon.next k) c = x at heq ⊢
    exact ⟨⟨x.send.peerCredit, x.granted, q, x.e.evt.txn, x.e.evt.evtStage, x.e.evt.evtStaged,
      x.helloDone, x.closing⟩, heq⟩

theorem isolationLaw_of_booted (hboot : Booted c₀) (h : Run (Daemon.next k) free c₀ c)
    : IsolationLaw k c := by
  have hinv : SessInv c := h.inv (SessInv.of_booted hboot) (fun _ a hs _ => hs.next a)
  constructor
  . exact hinv.forgets
  . intro msc io hup
    rw [next_disconnect hup]
    have hevt := (SessInv.audioStop_frame c.evtStageFlush msc).2
    have hevq := (evtStageFlush_eq c.e.evt).1
    calc (c.disconnect msc io).e.evt.evq = (c.evtStageFlush.audioStop msc).e.evt.evq := rfl
      _ = (Harp.evtStageFlush c.e.evt).evq := by
        rw [hevt]
        rfl
      _ = _ := hevq
  . intro hup
    have hquiet := hinv.quiet (by rw [hup]; rfl)
    exact waits_of_idle hquiet hup
  . intro hidle slots n pos done
    exact next_segment_idle hidle
  . exact hinv.gated

end Main

section Blank

def emptySend : ObjSend :=
  ⟨0, Ring.empty (fun _ => ⟨List.replicate 33 0, rfl⟩) sendqCap_pos, 0⟩

-- A device that was never used, before its first session.
def blankDaemon : Daemon Nat where
  store := blankDevice.store
  liveCache := none
  archivesSinceGc := 0
  engineVer := none
  e := Engine.boot countKernel
  audio := AudioState.boot 0
  send := emptySend
  granted := 0
  helloDone := false
  closing := false
  up := false
  log := []

theorem booted_blank : Booted blankDaemon := by
  refine ⟨?_, rfl, rfl, rfl⟩
  intro p r hr
  have hnone : storedAt blankDaemon.store p = none := by cases p <;> rfl
  rw [hnone] at hr
  cases hr

end Blank

section Crowded

def okStart : StartIo :=
  ⟨0, 0, 0, true⟩

def okCtl : CtlIo where
  touch := .ok
  refs := .ok
  shed := false
  time := 0
  snap := ⟨.ok, .ok, .ok, .ok, .ok⟩
  refset := ⟨.ok, .ok⟩
  panel := .ok
  start := okStart
  msc := 0

def helloBody : Bytes :=
  cborMap 1 ++ cborUint 0 ++ cborArray 2 ++ cborUint 1 ++ cborUint 0

def helloFrame : Bytes :=
  envHead .request 1 (ascii "core.hello") true ++ helloBody

theorem helloFrame_parse
    : envParse helloFrame = some ⟨.request, 1, ascii "core.hello", some helloBody⟩ := by
  decide +kernel

theorem helloBody_major : helloMajor (some helloBody) = protoMajor := by
  decide +kernel

def greeted : Daemon Nat :=
  { blankDaemon with
    up := true, helloDone := true, granted := creditGrant
    log := [.credit (creditBody creditGrant)] }

theorem greet
    : [.connect, .message (.ctl helloFrame okCtl)].foldl (Daemon.next countKernel) blankDaemon
        = greeted := by
  rw [List.foldl_cons, next_connect rfl, List.foldl_cons, List.foldl_nil, next_message rfl rfl]
  unfold Daemon.message Daemon.handleCtl
  dsimp only
  rw [helloFrame_parse]
  dsimp only
  rw [if_neg (by simp)]
  have hfind : handlerOf (ascii "core.hello") = some .hello := by decide
  rw [hfind]
  dsimp only [dispatch]
  unfold Daemon.handleHello
  rw [helloBody_major, if_neg (fun h => h rfl)]
  rfl

-- So many notes of part 5 for much later are in the queue.
def crowdedDaemon (n : Nat) : Daemon Nat :=
  greeted.setEvt { EvtState.fresh with
    evq := List.replicate n laterOn, evtConsumed := UInt32.ofNat n }

def laterOnFrame : Act :=
  .message (.evt (umpFrame (2 ^ 40) 9 5 1 100) false .ok)

theorem laterOnFrame_decode : evtDecode 1 (umpFrame (2 ^ 40) 9 5 1 100) = .note laterOn := by
  decide +kernel

theorem crowdedDaemon_next {n : Nat} (h : n < devEvqCap)
    : (crowdedDaemon n).next countKernel laterOnFrame = crowdedDaemon (n + 1) := by
  have hdecode : evtDecode (crowdedDaemon n).audio.epoch.toNat (umpFrame (2 ^ 40) 9 5 1 100)
      = .note laterOn := laterOnFrame_decode
  have hkind : laterOn.kind = .noteOn := rfl
  unfold laterOnFrame
  rw [next_message rfl rfl]
  unfold Daemon.message
  dsimp only
  rw [if_neg (by simp [crowdedDaemon, greeted, setEvt])]
  unfold Daemon.handleEvt Synth.consumeEvt consumeEvt handleEvtMsg Synth.session
  dsimp only
  rw [hdecode]
  simp [applyEvtMsg, noteEvt, Harp.evtStageFlush, evqPush, Engine.noteMsg, hkind, crowdedDaemon,
    EvtState.fresh, h, List.replicate_succ', UInt32.ofNat_add, setEvt, setDev, dev]

theorem crowdedDaemon_eq {n : Nat} (h : n ≤ devEvqCap)
    : (List.replicate n laterOnFrame).foldl (Daemon.next countKernel) greeted
        = crowdedDaemon n := by
  induction n with
  | zero => rfl
  | succ n ih =>
    rw [List.replicate_succ', List.foldl_append, ih (by omega), List.foldl_cons, List.foldl_nil]
    exact crowdedDaemon_next h

-- A modulation that is still staged when its session ends.
def modFrame : Bytes :=
  evtFrame 0 6 (cborMap 2 ++ cborUint 0 ++ cborUint 1 ++ cborUint 1 ++ cborFloat (Fp.ofBits 0))

-- A modulation is staged when the session ends, and the next session is greeted.
def stagedThenGreeted : List Act :=
  [ .connect, .message (.ctl helloFrame okCtl), .message (.evt modFrame true .ok), .disconnect 0 .ok,
    .connect, .message (.ctl helloFrame okCtl) ]

theorem isolationLaw_stagedThenGreeted
    : (stagedThenGreeted.foldl (Daemon.next countKernel) blankDaemon).e.evt.evq.length = 1
      ∧ IsolationLaw countKernel (stagedThenGreeted.foldl (Daemon.next countKernel) blankDaemon) :=
  ⟨by decide +kernel, isolationLaw_of_booted booted_blank (Run.foldl _ .start)⟩

def stagedDaemon : Daemon Nat :=
  (crowdedDaemon 511).next countKernel (.message (.evt modFrame true .ok))

-- The session after it commits one set of a parameter.
def secondSession : List Act :=
  [ .connect,
    .message (.ctl helloFrame okCtl),
    .message (.evt (beginFrame 1) false .ok),
    .message (.evt (setFrame 1 1) false .ok),
    .message (.evt (commitFrame 1) false .ok) ]

def ended (c : Daemon Nat) : Daemon Nat :=
  secondSession.foldl (Daemon.next countKernel) (c.next countKernel (.disconnect 0 .ok))

theorem ended_staged : (ended stagedDaemon).dev.liveCache.isSome = false := by
  decide +kernel

theorem ended_dropped
    : (ended (stagedDaemon.setEvt { stagedDaemon.e.evt with evtStage := [] })).dev.liveCache.isSome
        = true := by
  decide +kernel

theorem not_sessionLaw_staged
    : ¬ ∀ (c₀ c : Daemon Nat), Booted c₀ → Run (Daemon.next countKernel) free c₀ c →
        SessionLaw countKernel c := by
  intro h
  have hgreet : Run (Daemon.next countKernel) free blankDaemon greeted := by
    rw [← greet]
    exact Run.foldl _ .start
  have hcrowd : Run (Daemon.next countKernel) free blankDaemon (crowdedDaemon 511) := by
    rw [← crowdedDaemon_eq (by decide)]
    exact Run.foldl _ hgreet
  have hrun : Run (Daemon.next countKernel) free blankDaemon stagedDaemon :=
    .step _ hcrowd trivial
  have hlaw := h blankDaemon stagedDaemon booted_blank hrun
  have hsame : (ended (stagedDaemon.setEvt { stagedDaemon.e.evt with evtStage := [] })).dev
      = (ended stagedDaemon).dev := hlaw.dropped 0 .ok secondSession
  have hdropped := ended_dropped
  rw [hsame, ended_staged] at hdropped
  cases hdropped

end Crowded

end Harp.Daemon
