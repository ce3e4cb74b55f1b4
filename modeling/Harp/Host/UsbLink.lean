import Harp.Host.ObjTransfer
import Harp.Lib.StreamRing

/-!
This module contains the framed link over USB: completed reads of an endpoint push into a queue of a
fixed size that drops its oldest bytes, and the link reads pop from it.
-/

namespace Harp

open Runs StreamRings

def usbReadChunk : Nat := 16384
def linkFifoSz : Nat := 2 ^ 16
def audioFifoSz : Nat := 2 ^ 18

inductive XferStatus where
  | completed
  | timedOut
  | cancelled
  | failed
deriving DecidableEq

-- The source's `tail` is where a ring is written, its `head` where it is read.
structure UsbIo where
  linkFifo : StreamRing UInt8 linkFifoSz
  audioFifo : StreamRing UInt8 audioFifoSz
  fifoDrops : Nat
  dead : Bool
  closing : Bool

def UsbIo.open_ : UsbIo :=
  ⟨.empty fun _ => 0, .empty fun _ => 0, 0, false, false⟩

-- A push, with the bytes that it has not added.
def fifoPush {cap : Nat} (f : StreamRing UInt8 cap) (data : Bytes) : StreamRing UInt8 cap × Nat :=
  let before := f.readAvailable
  let f := f.overwrite data
  (f, if f.readAvailable - before < data.length then data.length - (f.readAvailable - before) else 0)

-- A read that ended. `resubmit` says whether the next one could be submitted.
def UsbIo.inCb (u : UsbIo) (isAudio : Bool) (status : XferStatus) (data : Bytes) (resubmit : Bool)
    : UsbIo :=
  if status = .completed ∨ status = .timedOut then
    let u :=
      if isAudio then
        let f := fifoPush u.audioFifo data
        { u with audioFifo := f.1, fifoDrops := u.fifoDrops + f.2 }
      else
        let f := fifoPush u.linkFifo data
        { u with linkFifo := f.1, fifoDrops := u.fifoDrops + f.2 }
    if ¬ u.closing ∧ ¬ u.dead ∧ ¬ resubmit then { u with dead := true } else u
  else if status ≠ .cancelled then
    { u with dead := true }
  else
    u

-- How a turn of `usb_read_exact` goes on.
inductive ReadTurn where
  | done
  | failed
  | waits (n : Nat)
deriving DecidableEq

-- One turn of `usb_read_exact`, with `n` bytes that are still wanted.
def UsbIo.readTurn (u : UsbIo) (n : Nat) : Bytes × ReadTurn × UsbIo :=
  let r := u.linkFifo.read n
  let left := n - r.1.length
  (r.1, if left = 0 then .done else if u.dead ∨ u.closing then .failed else .waits left,
    { u with linkFifo := r.2 })

def UsbIo.audioRead (u : UsbIo) (len : Nat) : Bytes × UsbIo :=
  let r := u.audioFifo.read len
  (r.1, { u with audioFifo := r.2 })

inductive UsbAct where
  | inCb (isAudio : Bool) (status : XferStatus) (data : Bytes) (resubmit : Bool)
  | readTurn (n : Nat)
  | audioRead (len : Nat)
  | close

/--
A link with the bytes that came in and the bytes that were delivered, of either endpoint.
-/
structure UsbRun where
  u : UsbIo
  linkIn : Bytes
  linkOut : Bytes
  audioIn : Bytes
  audioOut : Bytes

def XferStatus.brings (status : XferStatus) (data : Bytes) : Bytes :=
  if status = .completed ∨ status = .timedOut then data else []

namespace UsbRun

def start : UsbRun :=
  ⟨.open_, [], [], [], []⟩

def next (s : UsbRun) : UsbAct → UsbRun
  | .inCb isAudio status data resubmit =>
    { s with
      u := s.u.inCb isAudio status data resubmit,
      linkIn := if isAudio then s.linkIn else s.linkIn ++ status.brings data,
      audioIn := if isAudio then s.audioIn ++ status.brings data else s.audioIn }
  | .readTurn n =>
    { s with u := (s.u.readTurn n).2.2, linkOut := s.linkOut ++ (s.u.readTurn n).1 }
  | .audioRead len =>
    { s with u := (s.u.audioRead len).2, audioOut := s.audioOut ++ (s.u.audioRead len).1 }
  | .close => { s with u := { s.u with closing := true } }

-- The bytes that are neither delivered nor queued.
def dropped (s : UsbRun) : Nat :=
  s.linkIn.length - (s.linkOut.length + s.u.linkFifo.items.length)
    + (s.audioIn.length - (s.audioOut.length + s.u.audioFifo.items.length))

-- The device keeps to the credit: no more than `window` bytes of the link are not read.
def InWindow (window : Nat) (s : UsbRun) : UsbAct → Prop
  | .inCb false status data _ =>
    s.linkIn.length + (status.brings data).length ≤ s.linkOut.length + window
  | _ => True

-- What a completed read of the link brings has room in the queue.
def Fits (s : UsbRun) : UsbAct → Prop
  | .inCb false status data _ =>
    s.u.linkFifo.readAvailable + (status.brings data).length ≤ linkFifoSz
  | _ => True

end UsbRun

structure LinkLaw (s : UsbRun) : Prop where
  lossless : s.linkOut ++ s.u.linkFifo.items = s.linkIn
  counted : s.u.fifoDrops = s.dropped

section Push

theorem fifoPush_nil {cap : Nat} (f : StreamRing UInt8 cap) : fifoPush f [] = (f, 0) := by
  unfold fifoPush
  simp only [StreamRing.overwrite_nil, List.length_nil, Nat.not_lt_zero, if_false]

-- What a push brings is in the queue, or it is counted for what it drives out.
theorem fifoPush_counted {cap : Nat} (f : StreamRing UInt8 cap) (data : Bytes)
    : (fifoPush f data).1.items.length + (fifoPush f data).2 = f.items.length + data.length := by
  have hfill := f.fill_le
  have hcap : f.readAvailable ≤ cap := by
    unfold StreamRing.readAvailable
    omega
  unfold fifoPush
  dsimp only
  rw [StreamRing.length_items, StreamRing.length_items, StreamRing.length_overwrite]
  split <;> omega

theorem fifoPush_fits {cap : Nat} {f : StreamRing UInt8 cap} {data : Bytes}
    (h : f.readAvailable + data.length ≤ cap) : (fifoPush f data).1.items = f.items ++ data := by
  unfold fifoPush
  dsimp only
  rw [StreamRing.items_overwrite, StreamRing.length_items, Nat.sub_eq_zero_of_le h, List.drop_zero]

variable (u : UsbIo) (status : XferStatus) (data : Bytes) (resubmit : Bool)

theorem inCb_link
    : (u.inCb false status data resubmit).linkFifo = (fifoPush u.linkFifo (status.brings data)).1
        ∧ (u.inCb false status data resubmit).audioFifo = u.audioFifo
        ∧ (u.inCb false status data resubmit).fifoDrops
          = u.fifoDrops + (fifoPush u.linkFifo (status.brings data)).2 := by
  unfold UsbIo.inCb XferStatus.brings
  split
  . simp only [Bool.false_eq_true, if_false]
    split
    . simp only [and_self]
    . simp only [and_self]
  . rw [fifoPush_nil]
    split
    . simp only [Nat.add_zero, and_self]
    . simp only [Nat.add_zero, and_self]

theorem inCb_audio
    : (u.inCb true status data resubmit).audioFifo = (fifoPush u.audioFifo (status.brings data)).1
        ∧ (u.inCb true status data resubmit).linkFifo = u.linkFifo
        ∧ (u.inCb true status data resubmit).fifoDrops
          = u.fifoDrops + (fifoPush u.audioFifo (status.brings data)).2 := by
  unfold UsbIo.inCb XferStatus.brings
  split
  . simp only [if_true]
    split
    . simp only [and_self]
    . simp only [and_self]
  . rw [fifoPush_nil]
    split
    . simp only [Nat.add_zero, and_self]
    . simp only [Nat.add_zero, and_self]

end Push

section Law

variable {s : UsbRun} {a : UsbAct}

namespace UsbRun

def Lossless (s : UsbRun) : Prop :=
  s.linkOut ++ s.u.linkFifo.items = s.linkIn

structure Counted (s : UsbRun) : Prop where
  link : s.linkOut.length + s.u.linkFifo.items.length ≤ s.linkIn.length
  audio : s.audioOut.length + s.u.audioFifo.items.length ≤ s.audioIn.length
  drops : s.u.fifoDrops + (s.linkOut.length + s.u.linkFifo.items.length)
    + (s.audioOut.length + s.u.audioFifo.items.length) = s.linkIn.length + s.audioIn.length

-- A read moves bytes from the queue to the reader.
theorem read_append_items {cap : Nat} (f : StreamRing UInt8 cap) (n : Nat)
    : (f.read n).1 ++ (f.read n).2.items = f.items := by
  rw [StreamRing.read_fst, StreamRing.items_read, List.take_append_drop]

theorem length_read_items {cap : Nat} (f : StreamRing UInt8 cap) (n : Nat)
    : (f.read n).1.length + (f.read n).2.items.length = f.items.length := by
  rw [← List.length_append, read_append_items]

theorem Counted.next (h : s.Counted) (a : UsbAct) : (s.next a).Counted := by
  have hlink := h.link
  have haudio := h.audio
  have hdrops := h.drops
  cases a with
  | inCb isAudio status data resubmit =>
    cases isAudio with
    | false =>
      rcases inCb_link s.u status data resubmit with ⟨hfifo, hsame, hcount⟩
      have hpush := fifoPush_counted s.u.linkFifo (status.brings data)
      constructor
      all_goals
        simp only [UsbRun.next, Bool.false_eq_true, if_false, List.length_append, hfifo, hsame, hcount]
        omega
    | true =>
      rcases inCb_audio s.u status data resubmit with ⟨hfifo, hsame, hcount⟩
      have hpush := fifoPush_counted s.u.audioFifo (status.brings data)
      constructor
      all_goals
        simp only [UsbRun.next, if_true, List.length_append, hfifo, hsame, hcount]
        omega
  | readTurn n =>
    have hread := length_read_items s.u.linkFifo n
    constructor
    all_goals
      simp only [UsbRun.next, UsbIo.readTurn, List.length_append]
      omega
  | audioRead len =>
    have hread := length_read_items s.u.audioFifo len
    constructor
    all_goals
      simp only [UsbRun.next, UsbIo.audioRead, List.length_append]
      omega
  | close => exact ⟨hlink, haudio, hdrops⟩

theorem Counted.start : UsbRun.start.Counted :=
  ⟨Nat.le_refl 0, Nat.le_refl 0, rfl⟩

theorem Counted.dropped (h : s.Counted) : s.u.fifoDrops = s.dropped := by
  have hlink := h.link
  have haudio := h.audio
  have hdrops := h.drops
  unfold UsbRun.dropped
  omega

theorem Lossless.next (h : s.Lossless) (hfits : s.Fits a) : (s.next a).Lossless := by
  unfold Lossless at h ⊢
  cases a with
  | inCb isAudio status data resubmit =>
    cases isAudio with
    | false =>
      rcases inCb_link s.u status data resubmit with ⟨hfifo, _⟩
      simp only [UsbRun.next, Bool.false_eq_true, if_false, hfifo]
      rw [fifoPush_fits hfits, ← List.append_assoc, h]
    | true =>
      rcases inCb_audio s.u status data resubmit with ⟨_, hsame, _⟩
      simp only [UsbRun.next, if_true, hsame]
      exact h
  | readTurn n =>
    simp only [UsbRun.next, UsbIo.readTurn]
    rw [List.append_assoc, read_append_items, h]
  | audioRead len => exact h
  | close => exact h

-- What was dropped once is missing for good.
theorem Lossless.of_next (hcounted : s.Counted) (h : (s.next a).Lossless)
    : s.Lossless ∧ s.Fits a := by
  have hle := hcounted.link
  unfold Lossless at h ⊢
  cases a with
  | inCb isAudio status data resubmit =>
    cases isAudio with
    | false =>
      rcases inCb_link s.u status data resubmit with ⟨hfifo, _⟩
      simp only [UsbRun.next, Bool.false_eq_true, if_false, hfifo] at h
      have hlen := congrArg List.length h
      have hpush := fifoPush_counted s.u.linkFifo (status.brings data)
      have hfill := StreamRing.length_overwrite s.u.linkFifo (status.brings data)
      have hfits : s.u.linkFifo.readAvailable + (status.brings data).length ≤ linkFifoSz := by
        unfold fifoPush at hlen hpush
        simp only [List.length_append, StreamRing.length_items] at hlen hpush hle
        omega
      refine ⟨?_, hfits⟩
      rw [fifoPush_fits hfits, ← List.append_assoc] at h
      exact List.append_cancel_right h
    | true =>
      rcases inCb_audio s.u status data resubmit with ⟨_, hsame, _⟩
      simp only [UsbRun.next, if_true, hsame] at h
      exact ⟨h, trivial⟩
  | readTurn n =>
    simp only [UsbRun.next, UsbIo.readTurn] at h
    rw [List.append_assoc, read_append_items] at h
    exact ⟨h, trivial⟩
  | audioRead len => exact ⟨h, trivial⟩
  | close => exact ⟨h, trivial⟩

theorem counted_foldl (h : s.Counted) (acts : List UsbAct) : (acts.foldl UsbRun.next s).Counted := by
  induction acts generalizing s with
  | nil => exact h
  | cons a acts ih => exact ih (h.next a)

theorem lossless_foldl_iff (h : s.Counted) (acts : List UsbAct)
    : (acts.foldl UsbRun.next s).Lossless
        ↔ s.Lossless ∧ Run.Guarded UsbRun.next Fits s acts := by
  induction acts generalizing s with
  | nil => exact ⟨fun hs => ⟨hs, trivial⟩, fun hs => hs.1⟩
  | cons a acts ih =>
    rw [List.foldl_cons, ih (h.next a)]
    constructor
    . rintro ⟨hnext, hrest⟩
      have hprev := Lossless.of_next h hnext
      exact ⟨hprev.1, hprev.2, hrest⟩
    . rintro ⟨hs, hfits, hrest⟩
      exact ⟨hs.next hfits, hrest⟩

end UsbRun

-- Of every schedule.
theorem linkLaw_iff (acts : List UsbAct)
    : LinkLaw (acts.foldl UsbRun.next UsbRun.start)
        ↔ Run.Guarded UsbRun.next UsbRun.Fits UsbRun.start acts := by
  have hcounted := UsbRun.counted_foldl UsbRun.Counted.start acts
  have hiff := UsbRun.lossless_foldl_iff UsbRun.Counted.start acts
  constructor
  . intro hlaw
    exact (hiff.mp hlaw.lossless).2
  . intro hfits
    exact ⟨hiff.mpr ⟨rfl, hfits⟩, hcounted.dropped⟩

-- Five full reads that complete before the link is read once.
def unreadChunks : List UsbAct :=
  List.replicate 5 (.inCb false .completed (List.replicate usbReadChunk 0) true)

theorem next_completed (s : UsbRun) (data : Bytes)
    : (s.next (.inCb false .completed data true)).u.linkFifo.readAvailable
          = min (s.u.linkFifo.readAvailable + data.length) linkFifoSz
        ∧ (s.next (.inCb false .completed data true)).linkIn = s.linkIn ++ data
        ∧ (s.next (.inCb false .completed data true)).linkOut = s.linkOut := by
  refine ⟨?_, rfl, rfl⟩
  have hfifo := (inCb_link s.u .completed data true).1
  simp only [UsbRun.next, hfifo]
  exact StreamRing.length_overwrite s.u.linkFifo data

theorem not_linkLaw_unreadChunks
    : ¬ ∀ acts, Run.Guarded UsbRun.next (UsbRun.InWindow creditGrant) UsbRun.start acts →
        LinkLaw (acts.foldl UsbRun.next UsbRun.start) := by
  intro h
  have hlen : (List.replicate usbReadChunk (0 : UInt8)).length = 16384 := List.length_replicate
  have hlaw := h unreadChunks
  have hlossless := UsbRun.lossless_foldl_iff UsbRun.Counted.start unreadChunks
  unfold unreadChunks at hlaw hlossless
  generalize List.replicate usbReadChunk (0 : UInt8) = chunk at hlen hlaw hlossless
  have hgrant : creditGrant = 16777216 := by decide
  have hsize : linkFifoSz = 65536 := by decide
  have hstart : UsbRun.start.u.linkFifo.readAvailable = 0 ∧ UsbRun.start.linkIn = []
      ∧ UsbRun.start.linkOut = [] := ⟨rfl, rfl, rfl⟩
  have hbrings : XferStatus.brings .completed chunk = chunk := rfl
  simp only [List.replicate, Run.Guarded, UsbRun.InWindow, UsbRun.Fits, next_completed, hstart, hbrings,
    List.length_append, List.length_nil, hlen, hgrant, hsize] at hlaw hlossless
  have hfits := (hlossless.mp (hlaw (by simp)).lossless).2
  omega

-- A window of the size of the queue would do.
theorem fits_of_window {acts : List UsbAct} (hcounted : s.Counted) (hs : s.Lossless)
    (h : Run.Guarded UsbRun.next (UsbRun.InWindow linkFifoSz) s acts)
    : Run.Guarded UsbRun.next UsbRun.Fits s acts := by
  induction acts generalizing s with
  | nil => trivial
  | cons a acts ih =>
    have hfits : s.Fits a := by
      have hlen := congrArg List.length hs
      rw [List.length_append, StreamRing.length_items] at hlen
      cases a with
      | inCb isAudio status data resubmit =>
        cases isAudio with
        | false =>
          have hwindow : s.linkIn.length + (status.brings data).length
              ≤ s.linkOut.length + linkFifoSz := h.1
          show s.u.linkFifo.readAvailable + (status.brings data).length ≤ linkFifoSz
          omega
        | true => trivial
      | readTurn n => trivial
      | audioRead len => trivial
      | close => trivial
    exact ⟨hfits, ih (hcounted.next a) (hs.next hfits) h.2⟩

end Law

end Harp
