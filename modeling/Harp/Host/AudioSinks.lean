import Harp.Lib.Run
import Mathlib.Data.List.Nodup

/-!
This module contains the union of the subscribed output slots, the sinks that come and go, and the
demux of the frames the device streams for it.
-/

namespace Harp

open Runs

section Columns

variable {σ : Type} [DecidableEq σ]

def addSlot (union : List σ) (s : σ) : List σ :=
  if s ∈ union then union else union ++ [s]

def addSlots (union slots : List σ) : List σ :=
  slots.foldl addSlot union

theorem prefix_addSlot (union : List σ) (s : σ) : union <+: addSlot union s := by
  unfold addSlot
  split
  . exact List.prefix_rfl
  . apply List.prefix_append

theorem mem_addSlot {union : List σ} {s x : σ} : x ∈ addSlot union s ↔ x ∈ union ∨ x = s := by
  unfold addSlot
  split
  next h =>
    constructor
    . exact .inl
    . rintro (hx | rfl)
      . exact hx
      . exact h
  next => simp

theorem nodup_addSlot {union : List σ} (s : σ) (h : union.Nodup) : (addSlot union s).Nodup := by
  unfold addSlot
  split
  . exact h
  next hs =>
    apply List.nodup_append.mpr
    refine ⟨h, by simp, ?_⟩
    intro x hx y hy hxy
    simp only [List.mem_singleton] at hy
    apply hs
    rw [← hy, ← hxy]
    exact hx

theorem prefix_addSlots (union slots : List σ) : union <+: addSlots union slots := by
  induction slots generalizing union with
  | nil => exact List.prefix_rfl
  | cons s slots ih =>
    apply (prefix_addSlot union s).trans
    apply ih

theorem nodup_addSlots {union : List σ} (slots : List σ) (h : union.Nodup)
    : (addSlots union slots).Nodup := by
  induction slots generalizing union with
  | nil => exact h
  | cons s slots ih =>
    apply ih
    apply nodup_addSlot s h

theorem mem_addSlots {union slots : List σ} {x : σ}
    : x ∈ addSlots union slots ↔ x ∈ union ∨ x ∈ slots := by
  induction slots generalizing union with
  | nil => simp [addSlots]
  | cons s slots ih =>
    have hrest : x ∈ addSlots (addSlot union s) slots ↔ x ∈ addSlot union s ∨ x ∈ slots := ih
    rw [mem_addSlot] at hrest
    rw [List.mem_cons, ← or_assoc, ← hrest]
    rfl

-- A slot has one column in two unions of which one begins the other.
theorem idxOf_of_comparable {l l' : List σ} {s : σ} (h : l <+: l' ∨ l' <+: l) (hs : s ∈ l')
    (hlt : l'.idxOf s < l.length) : s ∈ l ∧ l.idxOf s = l'.idxOf s := by
  rcases h with ⟨t, rfl⟩ | ⟨t, rfl⟩
  . by_cases hmem : s ∈ l
    . exact ⟨hmem, (List.idxOf_append_of_mem hmem).symm⟩
    . rw [List.idxOf_append_of_notMem hmem] at hlt
      omega
  . exact ⟨List.mem_append_left t hs, List.idxOf_append_of_mem hs⟩

end Columns

structure AudioSink where
  id : Nat
  slots : List UInt32
  cols : Nat × Nat := (0, 1)
  epoch : UInt32 := 0
  deriving DecidableEq

-- The two slots a listener with these slots hears, the single one on both channels.
def stereoPair : List UInt32 → Option (UInt32 × UInt32)
  | [] => none
  | [s] => some (s, s)
  | s :: s' :: _ => some (s, s')

-- A frame with the slots of its columns. `pl` is interleaved by slot and `ns` rows long.
structure UnionFrame (α : Type) where
  slots : List UInt32
  ns : Nat
  pl : Nat → α

-- Row `r` of the two columns that carry the slots.
def UnionFrame.row {α : Type} (f : UnionFrame α) (slots : UInt32 × UInt32) (r : Nat) : α × α :=
  (f.pl (r * f.slots.length + f.slots.idxOf slots.1),
    f.pl (r * f.slots.length + f.slots.idxOf slots.2))

def UnionFrame.rows {α : Type} (f : UnionFrame α) (slots : UInt32 × UInt32) : List (α × α) :=
  (List.range f.ns).map (f.row slots)

def kMaxSinks : Nat := 16

-- What one frame put into the ring of one sink.
structure SinkWrite (α : Type) where
  slots : List UInt32
  frame : UnionFrame α
  pairs : List (α × α)

-- `streamed` has every union an `audio.start` has asked for, `received` the frames in order,
-- `audioRing` and `sinkRings` what the demux has handed to the rings.
structure UnionState (α : Type) where
  outSlots : List UInt32
  outSlots_ne : outSlots ≠ []
  loopbackOut : Option UInt32
  sinks : List AudioSink
  haveSinks : Bool
  nextSink : Nat
  unionSlots : List UInt32
  unionWidth : Nat
  running : Bool
  audioRenegPending : Bool
  streamed : List (List UInt32)
  received : List (UnionFrame α)
  audioRing : List (α × α)
  sinkRings : List (SinkWrite α)

namespace UnionState

variable {α : Type}

def sinkSlots (s : UnionState α) : List UInt32 :=
  addSlots (addSlots [] s.outSlots) (s.sinks.flatMap (·.slots))

def loopbackSlots (s : UnionState α) : List UInt32 :=
  s.loopbackOut.toList

-- The position of a slot in the union, as `uint16_t`, and 0 for a slot that is not there.
def column (union : List UInt32) (s : UInt32) : Nat :=
  if s ∈ union then union.idxOf s % 65536 else 0

def resolveCols (union : List UInt32) (sk : AudioSink) : AudioSink :=
  let cols :=
    match sk.slots with
    | [] => sk.cols
    | [s] => (column union s, column union s)
    | s :: s' :: _ => (column union s, column union s')
  { sk with cols, epoch := sk.epoch + 1 }

def computeUnionSlotsLocked (s : UnionState α) : UnionState α :=
  let union := addSlots s.sinkSlots s.loopbackSlots
  { s with unionSlots := union, sinks := s.sinks.map (resolveCols union) }

def unionWouldChangeLocked (s : UnionState α) : Bool :=
  s.sinkSlots != s.unionSlots

def raiseReneg (s : UnionState α) : UnionState α :=
  if s.running && s.unionWouldChangeLocked then { s with audioRenegPending := true } else s

def registerAudioSink (s : UnionState α) (slots : List UInt32) : UnionState α :=
  if slots.isEmpty then
    s
  else if kMaxSinks ≤ s.sinks.length then
    s
  else
    raiseReneg
      { s with
        sinks := s.sinks ++ [⟨s.nextSink, slots, (0, 1), 0⟩]
        nextSink := s.nextSink + 1
        haveSinks := true }

-- The last sink fills the hole.
def dropSink (sinks : List AudioSink) (i : Nat) : List AudioSink :=
  match sinks.getLast? with
  | none => sinks
  | some last => (sinks.set i last).dropLast

def unregisterAudioSink (s : UnionState α) (id : Nat) : UnionState α :=
  match s.sinks.findIdx? (·.id == id) with
  | none => s
  | some i =>
    let sinks := dropSink s.sinks i
    raiseReneg { s with sinks, haveSinks := if sinks.isEmpty then false else s.haveSinks }

-- The width is published and the union is asked for on the wire.
def audioStart (s : UnionState α) : UnionState α :=
  let s := s.computeUnionSlotsLocked
  { s with unionWidth := s.unionSlots.length % 65536, streamed := s.unionSlots :: s.streamed }

-- The feeder takes the flag at a safe boundary.
def renegotiate (s : UnionState α) : UnionState α :=
  if s.audioRenegPending then audioStart { s with audioRenegPending := false } else s

-- The copy loop of the demux, 1024 rows a turn.
def gather (row : Nat → α × α) (ns i : Nat) : List (α × α) :=
  if i < ns then
    let chunk := if ns - i < 1024 then ns - i else 1024
    (List.range chunk).map (fun j => row (i + j)) ++ gather row ns (i + chunk)
  else
    []
termination_by ns - i
decreasing_by
  split <;> omega

def mainPairs (pl : Nat → α) (ns S : Nat) : List (α × α) :=
  if S = 2 then
    (List.range ns).map fun i => (pl (2 * i), pl (2 * i + 1))
  else if S > 2 then
    gather (fun i => (pl (i * S + 0), pl (i * S + 1))) ns 0
  else if S = 1 then
    gather (fun i => (pl i, pl i)) ns 0
  else
    []

def sinkPairs (pl : Nat → α) (ns S : Nat) (sk : AudioSink) : List (α × α) :=
  if S ≤ sk.cols.1 ∨ S ≤ sk.cols.2 then
    []
  else
    gather (fun i => (pl (i * S + sk.cols.1), pl (i * S + sk.cols.2))) ns 0

def sinkWrite (f : UnionFrame α) (ns S : Nat) (sk : AudioSink) : SinkWrite α :=
  ⟨sk.slots, f, sinkPairs f.pl ns S sk⟩

def demuxUnionFrame (s : UnionState α) (f : UnionFrame α) (ns S : Nat) : UnionState α :=
  { s with
    received := s.received ++ [f]
    audioRing := s.audioRing ++ mainPairs f.pl ns S
    sinkRings :=
      if s.haveSinks then s.sinkRings ++ s.sinks.map (sinkWrite f ns S) else s.sinkRings }

-- Before the first `audio.start`.
def init (outSlots : List UInt32) (h : outSlots ≠ []) (loopbackOut : Option UInt32)
    : UnionState α where
  outSlots
  outSlots_ne := h
  loopbackOut
  sinks := []
  haveSinks := false
  nextSink := 0
  unionSlots := []
  unionWidth := 2
  running := false
  audioRenegPending := false
  streamed := []
  received := []
  audioRing := []
  sinkRings := []

end UnionState

inductive UnionAct (α : Type) where
  | registerAudioSink (slots : List UInt32)
  | unregisterAudioSink (id : Nat)
  | run (on : Bool)
  | audioStart
  | renegotiate
  | usbFrame (f : UnionFrame α)
  | rtpFrame (f : UnionFrame α)

namespace UnionState

variable {α : Type}

-- A USB frame says how wide it is; an RTP frame is cut at the published width.
def next (s : UnionState α) : UnionAct α → UnionState α
  | .registerAudioSink slots => s.registerAudioSink slots
  | .unregisterAudioSink id => s.unregisterAudioSink id
  | .run on => { s with running := on }
  | .audioStart => s.audioStart
  | .renegotiate => s.renegotiate
  | .usbFrame f => s.demuxUnionFrame f f.ns f.slots.length
  | .rtpFrame f =>
    let floats := f.ns * f.slots.length
    let width := if s.unionWidth = 0 then 2 else s.unionWidth
    if floats ≥ width then
      s.demuxUnionFrame f (floats / width) width
    else
      { s with received := s.received ++ [f] }

-- The device streams unions it was asked for, and the header has 16 bits for their width.
def asked (s : UnionState α) : UnionAct α → Prop
  | .usbFrame f => f.slots ∈ s.streamed ∧ f.slots.length < 65536
  | .rtpFrame f => f.slots ∈ s.streamed ∧ f.slots.length < 65536
  | _ => True

-- What a sink hears comes from the columns of its slots.
def SinkLaw (w : SinkWrite α) : Prop :=
  w.pairs ≠ [] → ∃ slots, stereoPair w.slots = some slots ∧ slots.1 ∈ w.frame.slots
    ∧ slots.2 ∈ w.frame.slots ∧ w.pairs = w.frame.rows slots

-- The main ring has the owner's columns of every frame received.
def OwnerLaw (s : UnionState α) : Prop :=
  ∃ slots, stereoPair s.outSlots = some slots
    ∧ (∀ f ∈ s.received, slots.1 ∈ f.slots ∧ slots.2 ∈ f.slots)
    ∧ s.audioRing = s.received.flatMap (·.rows slots)

def HearsOwnSlots (s : UnionState α) : Prop :=
  s.OwnerLaw ∧ ∀ w ∈ s.sinkRings, SinkLaw w

-- The frame's columns and those the sinks were resolved against do not contradict each other, every
-- sink is resolved or takes nothing or just columns 0 and 1, and so does the owner.
def FrameKept (s : UnionState α) (f : UnionFrame α) : Prop :=
  (f.slots <+: s.unionSlots ∨ s.unionSlots <+: f.slots)
    ∧ s.unionSlots.length ≤ 65536
    ∧ (∀ sk ∈ s.sinks, sk.epoch ≠ 0 ∨ f.slots.length < 2
        ∨ stereoPair sk.slots = stereoPair f.slots)
    ∧ (f.slots.length = 1 ∨ ∃ slots ∈ stereoPair s.outSlots, slots.1 ≠ slots.2)

instance decidableFrameKept (s : UnionState α) (f : UnionFrame α) : Decidable (s.FrameKept f) :=
  inferInstanceAs (Decidable (_ ∧ _ ∧ _ ∧ _))

def kept (s : UnionState α) (a : UnionAct α) : Prop :=
  s.asked a ∧
    match a with
    | .usbFrame f => s.FrameKept f
    | .rtpFrame f => s.FrameKept f ∧ f.slots.length = s.unionWidth
    | _ => True

instance decidableAsked (s : UnionState α) (a : UnionAct α) : Decidable (s.asked a) :=
  match a with
  | .usbFrame _ => inferInstanceAs (Decidable (_ ∧ _))
  | .rtpFrame _ => inferInstanceAs (Decidable (_ ∧ _))
  | .registerAudioSink _ => .isTrue trivial
  | .unregisterAudioSink _ => .isTrue trivial
  | .run _ => .isTrue trivial
  | .audioStart => .isTrue trivial
  | .renegotiate => .isTrue trivial

instance decidableKept (s : UnionState α) (a : UnionAct α) : Decidable (s.kept a) :=
  match a with
  | .usbFrame _ => inferInstanceAs (Decidable (_ ∧ _))
  | .rtpFrame _ => inferInstanceAs (Decidable (_ ∧ _ ∧ _))
  | .registerAudioSink _ => .isTrue ⟨trivial, trivial⟩
  | .unregisterAudioSink _ => .isTrue ⟨trivial, trivial⟩
  | .run _ => .isTrue ⟨trivial, trivial⟩
  | .audioStart => .isTrue ⟨trivial, trivial⟩
  | .renegotiate => .isTrue ⟨trivial, trivial⟩

theorem gather_eq (row : Nat → α × α) (ns i : Nat)
    : gather row ns i = (List.range' i (ns - i)).map row := by
  fun_induction gather row ns i with
  | case1 i hlt chunk ih =>
    have hle : chunk ≤ ns - i := by
      show (if ns - i < 1024 then ns - i else 1024) ≤ ns - i
      split <;> omega
    have hsplit : ns - i = chunk + (ns - (i + chunk)) := by omega
    have hfirst : (List.range chunk).map (fun j => row (i + j)) = (List.range' i chunk).map row := by
      rw [List.range'_eq_map_range, List.map_map]
      rfl
    rw [ih, hfirst, hsplit, ← List.range'_append_1, List.map_append]
  | case2 i hge =>
    have hzero : ns - i = 0 := by omega
    rw [hzero]
    rfl

theorem gather_zero (row : Nat → α × α) (ns : Nat)
    : gather row ns 0 = (List.range ns).map row := by
  rw [gather_eq, Nat.sub_zero, List.range_eq_range']

-- Columns 0 and 1 of a frame of two columns or more, or column 0 of a frame of one.
theorem mainPairs_eq_rows {f : UnionFrame α} {slots : UInt32 × UInt32}
    (hl : f.slots.idxOf slots.1 = 0)
    (hr : (f.slots.length = 1 ∧ f.slots.idxOf slots.2 = 0)
      ∨ (2 ≤ f.slots.length ∧ f.slots.idxOf slots.2 = 1))
    : mainPairs f.pl f.ns f.slots.length = f.rows slots := by
  unfold mainPairs UnionFrame.rows UnionFrame.row
  rw [hl]
  rcases hr with ⟨hone, hr⟩ | ⟨htwo, hr⟩
  . rw [hr, hone, if_neg (by omega), if_neg (by omega), if_pos rfl, gather_zero]
    simp
  . rw [hr]
    split
    next heq =>
      rw [heq]
      simp [Nat.mul_comm]
    next hne =>
      rw [if_pos (by omega), gather_zero]

theorem sinkPairs_eq_rows {f : UnionFrame α} {sk : AudioSink} {slots : UInt32 × UInt32}
    (hl : f.slots.idxOf slots.1 = sk.cols.1) (hr : f.slots.idxOf slots.2 = sk.cols.2)
    (h : sinkPairs f.pl f.ns f.slots.length sk ≠ [])
    : sinkPairs f.pl f.ns f.slots.length sk = f.rows slots := by
  unfold sinkPairs at h ⊢
  split at h
  . contradiction
  next hin =>
    rw [if_neg hin, gather_zero]
    unfold UnionFrame.rows UnionFrame.row
    rw [hl, hr]

-- The owner's two slots open every union.
theorem stereoPair_opens {slots : List UInt32} {p : UInt32 × UInt32}
    (h : stereoPair slots = some p) : addSlot [p.1] p.2 <+: addSlots [] slots := by
  match slots, h with
  | [s], rfl =>
    simp [addSlots, addSlot]
  | s :: s' :: rest, rfl =>
    apply prefix_addSlots (addSlot [s] s') rest

theorem stereoPair_ne_none {slots : List UInt32} (h : slots ≠ [])
    : ∃ p, stereoPair slots = some p := by
  match slots with
  | [] => contradiction
  | [s] => exact ⟨(s, s), rfl⟩
  | s :: s' :: _ => exact ⟨(s, s'), rfl⟩

theorem mem_of_stereoPair {slots : List UInt32} {p : UInt32 × UInt32}
    (h : stereoPair slots = some p) : p.1 ∈ slots ∧ p.2 ∈ slots := by
  match slots, h with
  | [s], rfl => simp
  | s :: s' :: _, rfl => simp

-- Where the owner's two slots are in a frame.
theorem ownerCols {outSlots u : List UInt32} {p : UInt32 × UInt32}
    (hp : stereoPair outSlots = some p) (hu : addSlots [] outSlots <+: u)
    (hkept : u.length = 1 ∨ p.1 ≠ p.2)
    : u.idxOf p.1 = 0
        ∧ ((u.length = 1 ∧ u.idxOf p.2 = 0) ∨ (2 ≤ u.length ∧ u.idxOf p.2 = 1)) := by
  rcases (stereoPair_opens hp).trans hu with ⟨t, rfl⟩
  by_cases heq : p.2 = p.1
  . have hset : addSlot [p.1] p.2 = [p.1] := by simp [addSlot, heq]
    have hone := hkept.resolve_right (by simp [heq])
    rw [hset] at hone ⊢
    rw [heq]
    exact ⟨by simp, .inl ⟨hone, by simp⟩⟩
  . have hset : addSlot [p.1] p.2 = [p.1, p.2] := by simp [addSlot, heq]
    rw [hset]
    refine ⟨by simp, .inr ⟨by simp, ?_⟩⟩
    rw [List.cons_append, List.idxOf_cons_ne _ (fun h => heq h.symm), List.cons_append,
      List.idxOf_cons_self]

theorem column_of_mem {union : List UInt32} {x : UInt32} (h : x ∈ union)
    (hwide : union.length ≤ 65536) : column union x = union.idxOf x := by
  have hlt := List.idxOf_lt_length_of_mem h
  rw [column, if_pos h, Nat.mod_eq_of_lt (by omega)]

-- The slots of columns 0 and 1.
theorem pair_of_two {u : List UInt32} (hnd : u.Nodup) (htwo : 2 ≤ u.length)
    : ∃ p, stereoPair u = some p ∧ u.idxOf p.1 = 0 ∧ u.idxOf p.2 = 1 := by
  match u, hnd with
  | x :: y :: rest, hnd =>
    have hne : x ≠ y := by
      intro heq
      simp [heq] at hnd
    refine ⟨(x, y), rfl, List.idxOf_cons_self, ?_⟩
    rw [List.idxOf_cons_ne _ hne, List.idxOf_cons_self]

-- A sink that the last recomputation has seen.
def Resolved (union : List UInt32) (sk : AudioSink) : Prop :=
  ∃ slots, stereoPair sk.slots = some slots ∧ slots.1 ∈ union ∧ slots.2 ∈ union
    ∧ sk.cols = (column union slots.1, column union slots.2)

structure Inv (s : UnionState α) : Prop where
  streamed : ∀ u ∈ s.streamed, u.Nodup ∧ addSlots [] s.outSlots <+: u
  received : ∀ f ∈ s.received, f.slots ∈ s.streamed
  sinks : ∀ sk ∈ s.sinks, sk.slots ≠ []
    ∧ ((sk.cols = (0, 1) ∧ sk.epoch = 0) ∨ Resolved s.unionSlots sk)
  law : s.HearsOwnSlots

theorem mem_dropSink {sinks : List AudioSink} {i : Nat} {sk : AudioSink}
    (h : sk ∈ dropSink sinks i) : sk ∈ sinks := by
  unfold dropSink at h
  split at h
  . exact h
  next last hlast =>
    rcases List.mem_or_eq_of_mem_set (List.dropLast_subset _ h) with hmem | rfl
    . exact hmem
    . exact List.mem_of_getLast? hlast

theorem stereoPair_resolve {union slots : List UInt32} {p : UInt32 × UInt32}
    (hp : stereoPair slots = some p) (hsub : ∀ x ∈ slots, x ∈ union) (id : Nat) (cols : Nat × Nat)
    (epoch : UInt32) : Resolved union (resolveCols union ⟨id, slots, cols, epoch⟩) := by
  have hmem := mem_of_stereoPair hp
  match slots, hp with
  | [s], rfl => exact ⟨_, rfl, hsub _ hmem.1, hsub _ hmem.2, rfl⟩
  | s :: s' :: _, rfl => exact ⟨_, rfl, hsub _ hmem.1, hsub _ hmem.2, rfl⟩

theorem slots_subset_union (s : UnionState α) {sk : AudioSink} (h : sk ∈ s.sinks)
    : ∀ x ∈ sk.slots, x ∈ s.computeUnionSlotsLocked.unionSlots := by
  intro x hx
  apply mem_addSlots.mpr
  refine .inl (mem_addSlots.mpr (.inr ?_))
  exact List.mem_flatMap.mpr ⟨sk, h, hx⟩

namespace Inv

variable {s : UnionState α}

theorem raiseReneg (h : s.Inv) : s.raiseReneg.Inv := by
  unfold UnionState.raiseReneg
  split
  . exact ⟨h.streamed, h.received, h.sinks, h.law⟩
  . exact h

theorem registerAudioSink (h : s.Inv) (slots : List UInt32) : (s.registerAudioSink slots).Inv := by
  unfold UnionState.registerAudioSink
  split
  . exact h
  next hne =>
    split
    . exact h
    . apply raiseReneg
      refine ⟨h.streamed, h.received, ?_, h.law⟩
      intro sk hsk
      rcases List.mem_append.mp hsk with hold | hnew
      . exact h.sinks sk hold
      . simp only [List.mem_singleton] at hnew
        rw [hnew]
        exact ⟨by simpa using hne, .inl ⟨rfl, rfl⟩⟩

theorem unregisterAudioSink (h : s.Inv) (id : Nat) : (s.unregisterAudioSink id).Inv := by
  unfold UnionState.unregisterAudioSink
  split
  . exact h
  . apply raiseReneg
    refine ⟨h.streamed, h.received, ?_, h.law⟩
    intro sk hsk
    apply h.sinks sk (mem_dropSink hsk)

theorem audioStart (h : s.Inv) : s.audioStart.Inv := by
  refine ⟨?_, ?_, ?_, h.law⟩
  . intro u hu
    rcases List.mem_cons.mp hu with rfl | hold
    . constructor
      . apply nodup_addSlots
        apply nodup_addSlots
        apply nodup_addSlots _ List.nodup_nil
      . apply List.IsPrefix.trans (prefix_addSlots _ (s.sinks.flatMap (·.slots)))
        apply prefix_addSlots
    . exact h.streamed u hold
  . intro f hf
    exact List.mem_cons_of_mem _ (h.received f hf)
  . intro sk hsk
    rcases List.mem_map.mp hsk with ⟨old, hold, rfl⟩
    have hslots := (h.sinks old hold).1
    rcases stereoPair_ne_none hslots with ⟨p, hp⟩
    exact ⟨hslots, .inr (stereoPair_resolve hp (s.slots_subset_union hold) _ _ _)⟩

theorem renegotiate (h : s.Inv) : s.renegotiate.Inv := by
  unfold UnionState.renegotiate
  split
  . apply audioStart
    exact ⟨h.streamed, h.received, h.sinks, h.law⟩
  . exact h

-- A sink takes nothing of a frame, or the columns of its slots.
theorem sinkLaw (h : s.Inv) {f : UnionFrame α} (hkept : s.FrameKept f) {sk : AudioSink}
    (hsk : sk ∈ s.sinks) (hnd : f.slots.Nodup)
    : SinkLaw (sinkWrite f f.ns f.slots.length sk) := by
  intro hne
  have hin : sk.cols.1 < f.slots.length ∧ sk.cols.2 < f.slots.length := by
    unfold sinkWrite sinkPairs at hne
    split at hne
    . contradiction
    . omega
  rcases hkept with ⟨hcomp, hwide, hseen, _⟩
  rcases (h.sinks sk hsk).2 with ⟨hcols, hepoch⟩ | ⟨p, hp, hl, hr, hcols⟩
  . rw [hcols] at hin
    have htwo : stereoPair sk.slots = stereoPair f.slots := by
      rcases hseen sk hsk with hresolved | hnarrow | htwo
      . contradiction
      . omega
      . exact htwo
    rcases pair_of_two hnd (by omega) with ⟨p, hp, hl, hr⟩
    have hmem := mem_of_stereoPair hp
    refine ⟨p, htwo.trans hp, hmem.1, hmem.2, ?_⟩
    apply sinkPairs_eq_rows
    . rw [hl, hcols]
    . rw [hr, hcols]
    . exact hne
  . have hcolL : sk.cols.1 = s.unionSlots.idxOf p.1 := by
      rw [hcols, column_of_mem hl hwide]
    have hcolR : sk.cols.2 = s.unionSlots.idxOf p.2 := by
      rw [hcols, column_of_mem hr hwide]
    have hL := idxOf_of_comparable hcomp hl (by omega)
    have hR := idxOf_of_comparable hcomp hr (by omega)
    refine ⟨p, hp, hL.1, hR.1, ?_⟩
    apply sinkPairs_eq_rows
    . rw [hL.2, hcolL]
    . rw [hR.2, hcolR]
    . exact hne

-- A frame whose rows for the owner go to the main ring.
theorem receive (h : s.Inv) {f : UnionFrame α} (hf : f.slots ∈ s.streamed) {pairs : List (α × α)}
    (hpairs : ∀ p, stereoPair s.outSlots = some p → pairs = f.rows p) {rings : List (SinkWrite α)}
    (hrings : ∀ w ∈ rings, SinkLaw w)
    : Inv { s with
        received := s.received ++ [f]
        audioRing := s.audioRing ++ pairs
        sinkRings := rings } := by
  rcases h.law.1 with ⟨p, hp, hmem, hring⟩
  have hopens := (h.streamed _ hf).2
  have hslots := mem_of_stereoPair hp
  refine ⟨h.streamed, ?_, h.sinks, ⟨p, hp, ?_, ?_⟩, hrings⟩
  . intro g hg
    rcases List.mem_append.mp hg with hold | hnew
    . exact h.received g hold
    . rw [List.mem_singleton.mp hnew]
      exact hf
  . intro g hg
    rcases List.mem_append.mp hg with hold | hnew
    . exact hmem g hold
    . rw [List.mem_singleton.mp hnew]
      exact ⟨hopens.subset (mem_addSlots.mpr (.inr hslots.1)),
        hopens.subset (mem_addSlots.mpr (.inr hslots.2))⟩
  . show s.audioRing ++ pairs = (s.received ++ [f]).flatMap (·.rows p)
    rw [hring, hpairs p hp, List.flatMap_append, List.flatMap_singleton]

theorem mainPairs_kept (h : s.Inv) {f : UnionFrame α} (hkept : s.FrameKept f)
    (hf : f.slots ∈ s.streamed) (p : UInt32 × UInt32) (hp : stereoPair s.outSlots = some p)
    : mainPairs f.pl f.ns f.slots.length = f.rows p := by
  have hone : f.slots.length = 1 ∨ p.1 ≠ p.2 := by
    rcases hkept.2.2.2 with hone | ⟨q, hq, hne⟩
    . exact .inl hone
    . have hsame : q = p := Option.some.inj (hq.symm.trans hp)
      rw [hsame] at hne
      exact .inr hne
  have hcols := ownerCols hp (h.streamed _ hf).2 hone
  apply mainPairs_eq_rows hcols.1 hcols.2

theorem demuxUnionFrame (h : s.Inv) {f : UnionFrame α} (hkept : s.FrameKept f)
    (hf : f.slots ∈ s.streamed) : (s.demuxUnionFrame f f.ns f.slots.length).Inv := by
  apply h.receive hf (h.mainPairs_kept hkept hf)
  intro w hw
  split at hw
  . rcases List.mem_append.mp hw with hold | hnew
    . exact h.law.2 w hold
    . rcases List.mem_map.mp hnew with ⟨sk, hsk, rfl⟩
      exact h.sinkLaw hkept hsk (h.streamed _ hf).1
  . exact h.law.2 w hw

theorem emptyFrame (h : s.Inv) {f : UnionFrame α} (hf : f.slots ∈ s.streamed) (hempty : f.ns = 0)
    : Inv { s with received := s.received ++ [f] } := by
  have hrows : ∀ p, stereoPair s.outSlots = some p → [] = f.rows p := by
    intro p _
    rw [UnionFrame.rows, hempty]
    rfl
  have hnext := h.receive hf hrows h.law.2
  rw [List.append_nil] at hnext
  exact hnext

theorem slots_ne_nil (h : s.Inv) {u : List UInt32} (hu : u ∈ s.streamed) : 0 < u.length := by
  rcases stereoPair_ne_none s.outSlots_ne with ⟨p, hp⟩
  have hmem : p.1 ∈ u :=
    (h.streamed u hu).2.subset (mem_addSlots.mpr (.inr (mem_of_stereoPair hp).1))
  exact List.length_pos_of_mem hmem

theorem next (h : s.Inv) {a : UnionAct α} (ha : s.kept a) : (s.next a).Inv := by
  cases a with
  | registerAudioSink slots => exact h.registerAudioSink slots
  | unregisterAudioSink id => exact h.unregisterAudioSink id
  | run on => exact ⟨h.streamed, h.received, h.sinks, h.law⟩
  | audioStart => exact h.audioStart
  | renegotiate => exact h.renegotiate
  | usbFrame f => exact h.demuxUnionFrame ha.2 ha.1.1
  | rtpFrame f =>
    rcases ha with ⟨⟨hf, _⟩, hkept, hwidth⟩
    have hpos := h.slots_ne_nil hf
    have hcut : (if s.unionWidth = 0 then 2 else s.unionWidth) = f.slots.length := by
      rw [if_neg (by omega), hwidth]
    simp only [UnionState.next]
    rw [hcut]
    split
    . rw [Nat.mul_div_cancel _ hpos]
      exact h.demuxUnionFrame hkept hf
    next hshort =>
      have hempty : f.ns = 0 := by
        apply Nat.eq_zero_of_not_pos
        intro hns
        have hle := Nat.le_mul_of_pos_left f.slots.length hns
        omega
      exact h.emptyFrame hf hempty

end Inv

theorem inv_init (outSlots : List UInt32) (hne : outSlots ≠ []) (loopbackOut : Option UInt32)
    : (init outSlots hne loopbackOut : UnionState α).Inv := by
  rcases stereoPair_ne_none hne with ⟨p, hp⟩
  refine ⟨by simp [init], by simp [init], by simp [init], ⟨p, hp, by simp [init], rfl⟩, by simp [init]⟩

end UnionState

open UnionState in
theorem hearsOwnSlots_of_kept {α : Type} {outSlots : List UInt32} {hne : outSlots ≠ []}
    {loopbackOut : Option UInt32} {s : UnionState α}
    (h : Run UnionState.next UnionState.kept (init outSlots hne loopbackOut) s)
    : s.HearsOwnSlots := by
  have hinv : s.Inv := by
    apply h.inv (inv_init outSlots hne loopbackOut)
    intro s a hs ha
    exact hs.next ha
  exact hinv.law

-- The owner's main mix, with one column number a sample.
def mainMix : UnionState Nat :=
  .init [0, 1] (by decide) none

def numbered (slots : List UInt32) : UnionFrame Nat :=
  ⟨slots, 1, id⟩

-- A part joins before the start, the owner streams, and the part leaves.
def partAtStart : List (UnionAct Nat) :=
  [.registerAudioSink [2, 3], .run true, .audioStart, .usbFrame (numbered [0, 1, 2, 3]),
    .unregisterAudioSink 0, .renegotiate, .usbFrame (numbered [0, 1])]

theorem hearsOwnSlots_partAtStart
    : ((partAtStart.foldl UnionState.next mainMix).sinkRings.map (·.pairs) = [[(2, 3)]])
      ∧ (partAtStart.foldl UnionState.next mainMix).HearsOwnSlots :=
  ⟨by decide +kernel, hearsOwnSlots_of_kept (Run.of_guarded partAtStart .start (by decide +kernel))⟩

-- A part joins the stream of the main mix, and a frame comes before the new union is negotiated.
def lateJoin : List (UnionAct Nat) :=
  [.run true, .audioStart, .registerAudioSink [2, 3], .usbFrame (numbered [0, 1])]

theorem not_hearsOwnSlots_lateJoin
    : ∃ s, Run UnionState.next UnionState.asked mainMix s ∧ ¬s.HearsOwnSlots := by
  refine ⟨lateJoin.foldl UnionState.next mainMix,
    Run.of_guarded lateJoin .start (by decide +kernel), ?_⟩
  rintro ⟨_, h⟩
  have hwrite : ∃ w ∈ (lateJoin.foldl UnionState.next mainMix).sinkRings,
      w.slots = [2, 3] ∧ w.frame.slots = [0, 1] ∧ w.pairs = [(0, 1)] := by
    decide +kernel
  rcases hwrite with ⟨w, hw, hslots, hframe, hpairs⟩
  rcases h w hw (by simp [hpairs]) with ⟨p, hp, hleft, _⟩
  rw [hslots] at hp
  have hpair : (2, 3) = p := Option.some.inj hp
  rw [hframe, ← hpair] at hleft
  revert hleft
  decide

namespace UnionState

section RenegTest

variable {α : Type} (s : UnionState α)

-- What the renegotiation test is for.
def TestExact : Prop :=
  (s.unionWouldChangeLocked = true ↔ s.computeUnionSlotsLocked.unionSlots ≠ s.unionSlots)
    ∧ s.computeUnionSlotsLocked.unionWouldChangeLocked = false

-- The slot of an armed loopback is one the owner or a sink has anyway.
def LoopbackCovered : Prop :=
  ∀ slot, s.loopbackOut = some slot → slot ∈ s.outSlots ∨ ∃ sk ∈ s.sinks, slot ∈ sk.slots

theorem mem_sinkSlots {slot : UInt32}
    : slot ∈ s.sinkSlots ↔ slot ∈ s.outSlots ∨ ∃ sk ∈ s.sinks, slot ∈ sk.slots := by
  unfold sinkSlots
  rw [mem_addSlots, mem_addSlots, List.mem_flatMap]
  constructor
  . rintro ((h | h) | h)
    . cases h
    . exact .inl h
    . exact .inr h
  . rintro (h | h)
    . exact .inl (.inr h)
    . exact .inr h

theorem sinkSlots_resolve (union : List UInt32)
    : { s with unionSlots := union, sinks := s.sinks.map (resolveCols union) }.sinkSlots
        = s.sinkSlots := by
  unfold sinkSlots
  rw [List.flatMap_map]
  rfl

theorem unionSlots_compute
    : s.computeUnionSlotsLocked.unionSlots = addSlots s.sinkSlots s.loopbackSlots := rfl

theorem wouldChange_compute
    : s.computeUnionSlotsLocked.unionWouldChangeLocked
        = (s.sinkSlots != addSlots s.sinkSlots s.loopbackSlots) := by
  unfold unionWouldChangeLocked
  rw [unionSlots_compute]
  unfold computeUnionSlotsLocked
  rw [sinkSlots_resolve]

-- The loopback adds no column just when its slot has one.
theorem loopback_adds_nothing
    : addSlots s.sinkSlots s.loopbackSlots = s.sinkSlots ↔ s.LoopbackCovered := by
  unfold loopbackSlots LoopbackCovered
  cases s.loopbackOut with
  | none =>
    constructor
    . intro _ slot h
      cases h
    . intro _
      rfl
  | some slot =>
    have hone : addSlots s.sinkSlots (some slot).toList = addSlot s.sinkSlots slot := rfl
    rw [hone]
    unfold addSlot
    constructor
    . intro h other heq
      cases heq
      split at h
      next hmem => exact s.mem_sinkSlots.mp hmem
      next =>
        have hlength := congrArg List.length h
        rw [List.length_append, List.length_singleton] at hlength
        omega
    . intro h
      rw [if_pos (s.mem_sinkSlots.mpr (h slot rfl))]

theorem testExact_iff_covered : s.TestExact ↔ s.LoopbackCovered := by
  rw [← loopback_adds_nothing]
  unfold TestExact
  rw [wouldChange_compute, unionSlots_compute, bne_eq_false_iff_eq]
  constructor
  . rintro ⟨_, hsame⟩
    exact hsame.symm
  . intro hsame
    rw [hsame]
    refine ⟨?_, rfl⟩
    unfold unionWouldChangeLocked
    rw [bne_iff_ne]

-- A renegotiation leaves nothing to renegotiate.
theorem renegotiate_settles (hpending : s.audioRenegPending = true) (hcov : s.LoopbackCovered)
    : s.renegotiate.unionWouldChangeLocked = false := by
  have hexact := (testExact_iff_covered { s with audioRenegPending := false }).mpr hcov
  unfold renegotiate
  rw [if_pos hpending]
  exact hexact.2

end RenegTest

-- Slot 5 is armed, which neither the owner nor a sink has, and the union is streamed.
theorem not_testExact_armed
    : ¬ ∀ s, Run UnionState.next free (init [0, 1] (by decide) (some 5) : UnionState Nat) s →
        s.TestExact := by
  intro h
  have hexact := h _ (Run.foldl [.audioStart, .run true] .start)
  exact absurd hexact.2 (by decide +kernel)

end UnionState

end Harp
