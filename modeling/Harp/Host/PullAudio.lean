import Harp.Lib.Run
import Harp.Lib.StreamRing

/-!
This module contains the shell's pulls from its audio ring, one ring access at a time: the reader
thread writes the stream into the ring between any two of them.
-/

namespace Harp

open Runs StreamRings

section Pulls

variable {α : Type} {cap : Nat}

-- A call in progress. `timeoutMs` is there for the blocking form only.
structure PullCall (α : Type) where
  nFrames : Nat
  timeoutMs : Option Nat
  settled : Bool
  waited : Nat
  data : List α
  deriving DecidableEq

-- `top` is the head of the blocking pull's loop.
inductive PullPc (α : Type) where
  | idle
  | top (c : PullCall α)
  | settle (c : PullCall α)
  | read (c : PullCall α)
  deriving DecidableEq

-- `out` holds every float the calls have delivered, `none` for one that `padUnderrun` zeroed, and
-- `asked` the frames of all calls.
structure PullState (α : Type) (cap : Nat) where
  audioRing : StreamRing α cap
  written : Nat
  padDebtFloats : Nat
  ssiRead : Nat
  underruns : Nat
  padSamples : Nat
  pc : PullPc α
  out : List (Option α)
  asked : Nat

def PullState.init (buf : Nat → α) : PullState α cap where
  audioRing := .empty buf
  written := 0
  padDebtFloats := 0
  ssiRead := 0
  underruns := 0
  padSamples := 0
  pc := .idle
  out := []
  asked := 0

def PullCall.want (c : PullCall α) : Nat :=
  c.nFrames * 2

def PullState.finish (s : PullState α cap) (c : PullCall α) : PullState α cap :=
  { s with pc := .idle, out := s.out ++ c.data.map some }

-- The cells of a call that was cut short.
def PullCall.padded (c : PullCall α) : List (Option α) :=
  c.data.map some ++ List.replicate (c.want - c.data.length) none

def PullState.padUnderrun (s : PullState α cap) (c : PullCall α) (count : Bool) : PullState α cap :=
  { s with
    pc := .idle
    out := s.out ++ c.padded
    padDebtFloats := s.padDebtFloats + (c.want - c.data.length)
    underruns := if count then s.underruns + 1 else s.underruns
    padSamples := if count then s.padSamples + (c.want - c.data.length) / 2 else s.padSamples }

-- The end of an iteration of the blocking loop that has not got everything.
def PullState.pollAgain (s : PullState α cap) (c : PullCall α) (timeoutMs : Nat) (giveUp : Bool)
    : PullState α cap :=
  if giveUp ∨ timeoutMs ≤ c.waited then
    { s with ssiRead := if c.settled then s.ssiRead else s.ssiRead + c.nFrames }.padUnderrun c true
  else
    { s with pc := .top { c with waited := c.waited + 1 } }

-- A pass over `while (got < want)` up to its first ring access.
def PullState.loopTop (s : PullState α cap) (c : PullCall α) (timeoutMs : Nat) (flipping : Bool)
    : PullState α cap :=
  if c.want ≤ c.data.length then
    s.finish c
  else if flipping then
    s.pollAgain c timeoutMs false
  else if c.settled then
    { s with pc := .read c }
  else
    { s with pc := .settle c }

-- One turn of `settlePadDebt`. The blocking pull moves `ssiRead_` once it has settled.
def PullState.settlePadDebt (s : PullState α cap) (c : PullCall α) : PullState α cap :=
  let got := (s.audioRing.read (min s.padDebtFloats 1024)).1.length
  if s.padDebtFloats = 0 ∨ got = 0 then
    match c.timeoutMs with
    | none => { s with pc := .read c }
    | some _ => { s with pc := .read { c with settled := true }, ssiRead := s.ssiRead + c.nFrames }
  else
    { s with
      audioRing := (s.audioRing.read (min s.padDebtFloats 1024)).2
      padDebtFloats := s.padDebtFloats - got }

def PullState.readRing (s : PullState α cap) (c : PullCall α) (connected : Bool)
    : PullState α cap :=
  let got := s.audioRing.read (c.want - c.data.length)
  let c' := { c with data := c.data ++ got.1 }
  let s' := { s with audioRing := got.2 }
  match c.timeoutMs with
  | none =>
    let s'' := { s' with ssiRead := s'.ssiRead + c.nFrames }
    if c'.data.length < c.want then s''.padUnderrun c' connected else s''.finish c'
  | some timeoutMs =>
    if c.want ≤ c'.data.length then s'.finish c' else s'.pollAgain c' timeoutMs (!connected)

-- The flags are what the audio thread finds in its next step.
inductive PullAct where
  | write (nFrames : Nat)
  | pullAudio (nFrames : Nat)
  | pullAudioBlocking (nFrames timeoutMs : Nat)
  | step (flipping connected : Bool)
  deriving DecidableEq

def streamFloats (stream : Nat → α) (start n : Nat) : List α :=
  (List.range n).map (fun i => stream (start + i))

-- The pulls come from one thread: a call begins when none is in progress.
def PullState.enter (s : PullState α cap) (nFrames : Nat) (timeoutMs : Option Nat)
    : PullState α cap :=
  match s.pc with
  | .idle =>
    let c : PullCall α := ⟨nFrames, timeoutMs, false, 0, []⟩
    { s with
      asked := s.asked + nFrames
      pc := if timeoutMs = none then .settle c else .top c }
  | _ => s

def PullState.next (stream : Nat → α) (s : PullState α cap) : PullAct → PullState α cap
  | .write nFrames =>
    { s with
      audioRing := s.audioRing.write (streamFloats stream s.written (nFrames * 2))
      written := s.written + nFrames * 2 }
  | .pullAudio nFrames => s.enter nFrames none
  | .pullAudioBlocking nFrames timeoutMs => s.enter nFrames (some timeoutMs)
  | .step flipping connected =>
    match s.pc with
    | .idle => s
    | .top c =>
      match c.timeoutMs with
      | none => s
      | some timeoutMs => s.loopTop c timeoutMs flipping
    | .settle c => s.settlePadDebt c
    | .read c => s.readRing c connected

-- What the ring is promised: the reader never overruns it.
def PullState.fits (s : PullState α cap) : PullAct → Prop
  | .write nFrames => nFrames * 2 ≤ s.audioRing.writeAvailable
  | _ => True

-- A pull has settled and still owes, so that it takes what comes next for its own positions.
def PullState.owing (s : PullState α cap) : Prop :=
  match s.pc with
  | .idle => False
  | .settle _ => False
  | .top c => c.settled = true ∧ s.padDebtFloats ≠ 0
  | .read _ => s.padDebtFloats ≠ 0

def PullState.quiet (s : PullState α cap) : PullAct → Prop
  | .write nFrames => nFrames * 2 ≤ s.audioRing.writeAvailable ∧ ¬s.owing
  | _ => True

instance PullState.decidableFits (s : PullState α cap) (a : PullAct) : Decidable (s.fits a) :=
  match a with
  | .write _ => inferInstanceAs (Decidable (_ ≤ _))
  | .pullAudio _ => .isTrue trivial
  | .pullAudioBlocking _ _ => .isTrue trivial
  | .step _ _ => .isTrue trivial

instance PullState.decidableOwing (s : PullState α cap) : Decidable s.owing :=
  match h : s.pc with
  | .idle => .isFalse (by simp [PullState.owing, h])
  | .settle _ => .isFalse (by simp [PullState.owing, h])
  | .top c =>
    decidable_of_iff (c.settled = true ∧ s.padDebtFloats ≠ 0) (by simp [PullState.owing, h])
  | .read _ => decidable_of_iff (s.padDebtFloats ≠ 0) (by simp [PullState.owing, h])

instance PullState.decidableQuiet (s : PullState α cap) (a : PullAct) : Decidable (s.quiet a) :=
  match a with
  | .write _ => inferInstanceAs (Decidable (_ ∧ _))
  | .pullAudio _ => .isTrue trivial
  | .pullAudioBlocking _ _ => .isTrue trivial
  | .step _ _ => .isTrue trivial

structure PullLaw (stream : Nat → α) (s : PullState α cap) : Prop where
  aligned : ∀ p x, s.out[p]? = some (some x) → x = stream p
  notReplayed : Function.Injective stream → ∀ p, s.out[p]? = some none → some (stream p) ∉ s.out
  counted : s.pc = .idle → s.ssiRead = s.asked ∧ s.out.length = s.asked * 2

end Pulls

section Invariant

variable {α : Type} {cap : Nat} {stream : Nat → α} {s : PullState α cap} {c : PullCall α}

theorem streamFloats_append (stream : Nat → α) (start m n : Nat)
    : streamFloats stream start (m + n)
        = streamFloats stream start m ++ streamFloats stream (start + m) n := by
  unfold streamFloats
  rw [List.range_add, List.map_append, List.map_map]
  congr 1
  apply List.map_congr_left
  intro i _
  rw [Function.comp_apply, Nat.add_assoc]

theorem length_streamFloats (stream : Nat → α) (start n : Nat)
    : (streamFloats stream start n).length = n := by
  simp [streamFloats]

theorem take_streamFloats (stream : Nat → α) (start m n : Nat)
    : (streamFloats stream start n).take m = streamFloats stream start (min m n) := by
  unfold streamFloats
  rw [← List.map_take, List.take_range]

theorem drop_streamFloats (stream : Nat → α) (start m n : Nat)
    : (streamFloats stream start n).drop m = streamFloats stream (start + m) (n - m) := by
  unfold streamFloats
  apply List.ext_getElem
  . simp
  . intro i _ _
    simp [Nat.add_assoc]

-- The ring holds the stream from `tail` on, and nothing was lost on the way in.
structure Streamed (stream : Nat → α) (r : StreamRing α cap) (written : Nat) : Prop where
  items : r.items = streamFloats stream r.tail r.items.length
  written : written = r.head

theorem Streamed.write {r : StreamRing α cap} {written n : Nat} (h : Streamed stream r written)
    (hfits : n ≤ r.writeAvailable)
    : Streamed stream (r.write (streamFloats stream written n)) (written + n) := by
  have hlen := length_streamFloats stream written n
  have hroom : (streamFloats stream written n).length ≤ r.writeAvailable := by
    rw [hlen]
    exact hfits
  constructor
  . rw [StreamRing.items_write_of_le hroom, List.length_append, hlen, streamFloats_append,
      StreamRing.write_tail, ← h.items, ← StreamRing.head_eq, h.written]
  . rw [StreamRing.write_head_of_le hroom, hlen, h.written]

theorem Streamed.read {r : StreamRing α cap} {written : Nat} (h : Streamed stream r written)
    (n : Nat) : Streamed stream (r.read n).2 written := by
  constructor
  . rw [StreamRing.items_read, List.length_drop, h.items, drop_streamFloats, length_streamFloats,
      StreamRing.read_tail, StreamRing.read_fst, h.items, List.length_take, length_streamFloats]
    by_cases hle : n ≤ r.items.length
    . rw [Nat.min_eq_left hle]
    . have hzero : r.items.length - n = 0 := by omega
      rw [hzero]
      rfl
  . exact h.written

theorem Streamed.read_fst {r : StreamRing α cap} {written : Nat} (h : Streamed stream r written)
    (n : Nat) : (r.read n).1 = streamFloats stream r.tail (r.read n).1.length := by
  rw [StreamRing.read_fst, List.length_take, h.items, take_streamFloats, length_streamFloats]

def Aligned (stream : Nat → α) (out : List (Option α)) : Prop :=
  ∀ p x, out[p]? = some (some x) → x = stream p

theorem Aligned.append {out : List (Option α)} {data : List α} (h : Aligned stream out)
    (hdata : data = streamFloats stream out.length data.length) (n : Nat)
    : Aligned stream (out ++ (data.map some ++ List.replicate n none)) := by
  intro p x hx
  rw [List.getElem?_append] at hx
  split at hx
  next hlt => exact h p x hx
  next hge =>
    rw [List.getElem?_append] at hx
    split at hx
    next hlt =>
      rw [List.length_map] at hlt
      rw [List.getElem?_map, List.getElem?_eq_getElem hlt, Option.map_some, Option.some.injEq,
        Option.some.injEq] at hx
      rw [← hx, List.getElem_of_eq hdata]
      simp only [streamFloats, List.getElem_map, List.getElem_range]
      congr 1
      omega
    next =>
      rw [List.getElem?_replicate] at hx
      split at hx
      next => simp at hx
      next => simp at hx

-- A call that has not read yet.
structure PullState.Fresh (s : PullState α cap) (c : PullCall α) : Prop where
  data : c.data = []
  settled : c.settled = false
  place : s.audioRing.tail + s.padDebtFloats = s.out.length
  length : s.out.length = s.ssiRead * 2
  asked : s.asked = s.ssiRead + c.nFrames

-- A call that has settled. What it owes then can only be paid by what has not arrived.
structure PullState.Reading (stream : Nat → α) (s : PullState α cap) (c : PullCall α)
    : Prop where
  settled : c.settled = c.timeoutMs.isSome
  place : s.audioRing.tail + s.padDebtFloats = s.out.length + c.data.length
  data : c.data = streamFloats stream s.out.length c.data.length
  owed : s.padDebtFloats ≠ 0 → s.audioRing.items = []
  room : c.data.length ≤ c.want
  asked : s.asked = if c.timeoutMs.isSome then s.ssiRead else s.ssiRead + c.nFrames
  length : s.out.length + c.want = s.asked * 2

structure PullState.Idle (s : PullState α cap) : Prop where
  place : s.audioRing.tail + s.padDebtFloats = s.out.length
  length : s.out.length = s.asked * 2
  asked : s.ssiRead = s.asked

def PullState.Placed (stream : Nat → α) (s : PullState α cap) : Prop :=
  match s.pc with
  | .idle => s.Idle
  | .settle c => s.Fresh c
  | .top c => c.timeoutMs.isSome = true ∧ if c.settled then s.Reading stream c else s.Fresh c
  | .read c => s.Reading stream c

structure PullBase (stream : Nat → α) (s : PullState α cap) : Prop where
  streamed : Streamed stream s.audioRing s.written
  aligned : Aligned stream s.out

structure PullInv (stream : Nat → α) (s : PullState α cap) : Prop where
  base : PullBase stream s
  placed : s.Placed stream

theorem pullInv_init (buf : Nat → α) : PullInv stream (PullState.init buf : PullState α cap) := by
  constructor
  . constructor
    . exact ⟨rfl, rfl⟩
    . intro p x hx
      simp [PullState.init] at hx
  . exact ⟨rfl, rfl, rfl⟩

theorem PullState.Reading.idle_finish (h : s.Reading stream c) (hfull : c.want ≤ c.data.length)
    (hasked : s.ssiRead = s.asked) : (s.finish c).Idle := by
  have hroom := h.room
  have hplace := h.place
  have hlength := h.length
  constructor
  . simp only [finish, List.length_append, List.length_map]
    omega
  . simp only [finish, List.length_append, List.length_map]
    omega
  . exact hasked

theorem PullCall.length_padded (h : c.data.length ≤ c.want) : c.padded.length = c.want := by
  unfold padded
  rw [List.length_append, List.length_map, List.length_replicate]
  omega

theorem PullState.idle_padUnderrun (count : Bool) (hroom : c.data.length ≤ c.want)
    (hplace : s.audioRing.tail + s.padDebtFloats = s.out.length + c.data.length)
    (hlength : s.out.length + c.want = s.asked * 2) (hasked : s.ssiRead = s.asked)
    : (s.padUnderrun c count).Idle := by
  constructor
  . simp only [padUnderrun, List.length_append, PullCall.length_padded hroom]
    omega
  . simp only [padUnderrun, List.length_append, PullCall.length_padded hroom]
    exact hlength
  . exact hasked

theorem PullBase.finish (h : PullBase stream s) (hdata : c.data
      = streamFloats stream s.out.length c.data.length) (hidle : (s.finish c).Idle)
    : PullInv stream (s.finish c) := by
  have happend := h.aligned.append hdata 0
  rw [List.replicate_zero, List.append_nil] at happend
  exact ⟨⟨h.streamed, happend⟩, hidle⟩

theorem PullBase.padUnderrun (h : PullBase stream s) (hdata : c.data
      = streamFloats stream s.out.length c.data.length) {count : Bool}
    (hidle : (s.padUnderrun c count).Idle) : PullInv stream (s.padUnderrun c count) :=
  ⟨⟨h.streamed, h.aligned.append hdata _⟩, hidle⟩

theorem PullInv.enter (h : PullInv stream s) (nFrames : Nat) (timeoutMs : Option Nat)
    : PullInv stream (s.enter nFrames timeoutMs) := by
  unfold PullState.enter
  have hplaced := h.placed
  unfold PullState.Placed at hplaced
  split
  next hpc =>
    rw [hpc] at hplaced
    have hfresh : { s with
        asked := s.asked + nFrames
        pc := if timeoutMs = none then .settle ⟨nFrames, timeoutMs, false, 0, []⟩
          else .top ⟨nFrames, timeoutMs, false, 0, []⟩ }.Fresh
        ⟨nFrames, timeoutMs, false, 0, []⟩ := by
      constructor
      . rfl
      . rfl
      . exact hplaced.place
      . exact hplaced.asked ▸ hplaced.length
      . exact congrArg (· + nFrames) hplaced.asked.symm
    constructor
    . exact ⟨h.base.streamed, h.base.aligned⟩
    . cases timeoutMs with
      | none => exact hfresh
      | some ms => exact ⟨rfl, hfresh⟩
  next => exact h

theorem PullInv.write (h : PullInv stream s) {nFrames : Nat} (hquiet : s.quiet (.write nFrames))
    : PullInv stream (s.next stream (.write nFrames)) := by
  rcases hquiet with ⟨hfits, howing⟩
  have hread : ∀ c, s.Reading stream c → s.padDebtFloats = 0
      → (s.next stream (.write nFrames)).Reading stream c := by
    intro c hc hdebt
    constructor
    . exact hc.settled
    . exact hc.place
    . exact hc.data
    . exact fun howes => absurd hdebt howes
    . exact hc.room
    . exact hc.asked
    . exact hc.length
  have hfresh : ∀ c, s.Fresh c → (s.next stream (.write nFrames)).Fresh c :=
    fun c hc => ⟨hc.data, hc.settled, hc.place, hc.length, hc.asked⟩
  constructor
  . exact ⟨h.base.streamed.write hfits, h.base.aligned⟩
  . have hplaced := h.placed
    unfold PullState.Placed at hplaced ⊢
    unfold PullState.owing at howing
    have hpc : (s.next stream (.write nFrames)).pc = s.pc := rfl
    rw [hpc]
    cases hcase : s.pc with
    | idle =>
      rw [hcase] at hplaced
      exact ⟨hplaced.place, hplaced.length, hplaced.asked⟩
    | settle c =>
      rw [hcase] at hplaced
      exact hfresh c hplaced
    | top c =>
      rw [hcase] at hplaced howing
      refine ⟨hplaced.1, ?_⟩
      cases hsettled : c.settled with
      | false =>
        have hc := hplaced.2
        rw [hsettled] at hc
        exact hfresh c hc
      | true =>
        have hc := hplaced.2
        rw [hsettled] at hc
        exact hread c hc (not_not.mp fun hdebt => howing ⟨hsettled, hdebt⟩)
    | read c =>
      rw [hcase] at hplaced howing
      exact hread c hplaced (not_not.mp howing)

theorem PullInv.settlePadDebt (h : PullInv stream s) (hpc : s.pc = .settle c)
    : PullInv stream (s.settlePadDebt c) := by
  have hfresh := h.placed
  unfold PullState.Placed at hfresh
  rw [hpc] at hfresh
  have hplace := hfresh.place
  unfold PullState.settlePadDebt
  dsimp only
  split
  next hdone =>
    -- The loop ends with the debt paid or with the ring found empty.
    have howed : s.padDebtFloats ≠ 0 → s.audioRing.items = [] := by
      intro hdebt
      rcases hdone with hzero | hgot
      . exact absurd hzero hdebt
      . rw [← List.length_eq_zero_iff, StreamRing.length_items]
        rw [StreamRing.length_read] at hgot
        omega
    have hlength := hfresh.length
    have hasked := hfresh.asked
    cases htimeout : c.timeoutMs with
    | none =>
      refine ⟨⟨h.base.streamed, h.base.aligned⟩, ?_⟩
      constructor
      . rw [hfresh.settled, htimeout]
        rfl
      . rw [hfresh.data]
        exact hplace
      . rw [hfresh.data]
        rfl
      . exact howed
      . rw [hfresh.data]
        exact Nat.zero_le _
      . rw [htimeout]
        exact hasked
      . dsimp only [PullCall.want]
        omega
    | some timeoutMs =>
      refine ⟨⟨h.base.streamed, h.base.aligned⟩, ?_⟩
      constructor
      . rfl
      . dsimp only
        rw [hfresh.data]
        exact hplace
      . dsimp only
        rw [hfresh.data]
        rfl
      . exact howed
      . dsimp only
        rw [hfresh.data]
        exact Nat.zero_le _
      . exact hasked
      . dsimp only [PullCall.want]
        omega
  next hmore =>
    have hgot := StreamRing.length_read s.audioRing (min s.padDebtFloats 1024)
    refine ⟨⟨h.base.streamed.read _, h.base.aligned⟩, ?_⟩
    unfold PullState.Placed
    rw [hpc]
    refine ⟨hfresh.data, hfresh.settled, ?_, hfresh.length, hfresh.asked⟩
    rw [StreamRing.read_tail]
    dsimp only
    omega

theorem PullBase.pollAgain (h : PullBase stream s) (hc : s.Reading stream c) {timeoutMs : Nat}
    (htimeout : c.timeoutMs = some timeoutMs) (giveUp : Bool)
    : PullInv stream (s.pollAgain c timeoutMs giveUp) := by
  have hsettled := hc.settled
  have hasked := hc.asked
  rw [htimeout, Option.isSome_some] at hsettled
  rw [htimeout, Option.isSome_some, if_pos rfl] at hasked
  unfold PullState.pollAgain
  rw [hsettled, if_pos rfl]
  split
  next =>
    exact h.padUnderrun hc.data
      (PullState.idle_padUnderrun true hc.room hc.place hc.length hasked.symm)
  next =>
    refine ⟨⟨h.streamed, h.aligned⟩, ?_, ?_⟩
    . rw [htimeout]
      rfl
    . exact ⟨hsettled ▸ hc.settled, hc.place, hc.data, hc.owed, hc.room, hc.asked, hc.length⟩

theorem PullBase.pollAgain_of_fresh (h : PullBase stream s) (hc : s.Fresh c) {timeoutMs : Nat}
    (htimeout : c.timeoutMs = some timeoutMs) (giveUp : Bool)
    : PullInv stream (s.pollAgain c timeoutMs giveUp) := by
  have hlength := hc.length
  have hasked := hc.asked
  have hdata : c.data = streamFloats stream s.out.length c.data.length := by
    rw [hc.data]
    rfl
  unfold PullState.pollAgain
  rw [hc.settled]
  split
  next =>
    have hbase : PullBase stream { s with ssiRead := s.ssiRead + c.nFrames } :=
      ⟨h.streamed, h.aligned⟩
    apply hbase.padUnderrun hdata
    apply PullState.idle_padUnderrun
    . rw [hc.data]
      exact Nat.zero_le _
    . rw [hc.data]
      exact hc.place
    . dsimp only [PullCall.want]
      omega
    . exact hasked.symm
  next =>
    refine ⟨⟨h.streamed, h.aligned⟩, ?_, ?_⟩
    . rw [htimeout]
      rfl
    . exact ⟨hc.data, rfl, hc.place, hc.length, hc.asked⟩

theorem PullInv.loopTop (h : PullInv stream s) (hpc : s.pc = .top c) {timeoutMs : Nat}
    (htimeout : c.timeoutMs = some timeoutMs) (flipping : Bool)
    : PullInv stream (s.loopTop c timeoutMs flipping) := by
  have hplaced := h.placed
  unfold PullState.Placed at hplaced
  rw [hpc] at hplaced
  unfold PullState.loopTop
  cases hsettled : c.settled with
  | false =>
    have hc := hplaced.2
    rw [hsettled, if_neg Bool.false_ne_true] at hc
    have hlength := hc.length
    have hasked := hc.asked
    split
    next hfull =>
      have hzero : c.nFrames = 0 := by
        rw [hc.data, PullCall.want, List.length_nil] at hfull
        omega
      apply h.base.finish
      . rw [hc.data]
        rfl
      . refine ⟨?_, ?_, ?_⟩
        . simp only [PullState.finish, hc.data, List.map_nil, List.append_nil]
          exact hc.place
        . simp only [PullState.finish, hc.data, List.map_nil, List.append_nil]
          omega
        . simp only [PullState.finish]
          omega
    next =>
      split
      next => exact h.base.pollAgain_of_fresh hc htimeout false
      next =>
        rw [if_neg Bool.false_ne_true]
        exact ⟨⟨h.base.streamed, h.base.aligned⟩, hc.data, hc.settled, hc.place, hc.length,
          hc.asked⟩
  | true =>
    have hc := hplaced.2
    rw [hsettled, if_pos rfl] at hc
    have hasked := hc.asked
    rw [htimeout, Option.isSome_some, if_pos rfl] at hasked
    split
    next hfull => exact h.base.finish hc.data (hc.idle_finish hfull hasked.symm)
    next =>
      split
      next => exact h.base.pollAgain hc htimeout false
      next =>
        rw [if_pos rfl]
        exact ⟨⟨h.base.streamed, h.base.aligned⟩, hc.settled, hc.place, hc.data, hc.owed, hc.room,
          hc.asked, hc.length⟩

-- A read finds the floats of the very positions the call is at.
theorem PullState.Reading.read (h : s.Reading stream c)
    (hstreamed : Streamed stream s.audioRing s.written)
    : { s with audioRing := (s.audioRing.read (c.want - c.data.length)).2 }.Reading stream
        { c with data := c.data ++ (s.audioRing.read (c.want - c.data.length)).1 } := by
  have hplace := h.place
  have hroom := h.room
  have hgot := StreamRing.length_read s.audioRing (c.want - c.data.length)
  constructor
  . exact h.settled
  . dsimp only
    rw [StreamRing.read_tail, List.length_append]
    omega
  . dsimp only
    rw [List.length_append, streamFloats_append, ← h.data]
    congr 1
    by_cases hdebt : s.padDebtFloats = 0
    . rw [hdebt, Nat.add_zero] at hplace
      rw [← hplace]
      exact hstreamed.read_fst _
    . have hnone : (s.audioRing.read (c.want - c.data.length)).1 = [] := by
        rw [StreamRing.read_fst, h.owed hdebt, List.take_nil]
      rw [hnone]
      rfl
  . intro hdebt
    dsimp only
    rw [StreamRing.items_read, h.owed hdebt, List.drop_nil]
  . simp only [PullCall.want, List.length_append] at *
    omega
  . exact h.asked
  . exact h.length

theorem PullInv.readRing (h : PullInv stream s) (hpc : s.pc = .read c) (connected : Bool)
    : PullInv stream (s.readRing c connected) := by
  have hc := h.placed
  unfold PullState.Placed at hc
  rw [hpc] at hc
  have hread := hc.read h.base.streamed
  have hbase : PullBase stream
      { s with audioRing := (s.audioRing.read (c.want - c.data.length)).2 } :=
    ⟨h.base.streamed.read _, h.base.aligned⟩
  have hasked := hc.asked
  unfold PullState.readRing
  dsimp only
  split
  next htimeout =>
    rw [htimeout] at hasked
    have hbase' : PullBase stream { s with
        audioRing := (s.audioRing.read (c.want - c.data.length)).2
        ssiRead := s.ssiRead + c.nFrames } :=
      ⟨hbase.streamed, hbase.aligned⟩
    split
    next =>
      apply hbase'.padUnderrun hread.data
      exact PullState.idle_padUnderrun connected hread.room hread.place hread.length hasked.symm
    next hfull =>
      have hplace := hread.place
      have hroom
          : (c.data ++ (s.audioRing.read (c.want - c.data.length)).1).length ≤ c.want := hread.room
      have hlength : s.out.length + c.want = s.asked * 2 := hread.length
      dsimp only at hplace
      apply hbase'.finish hread.data
      refine ⟨?_, ?_, hasked.symm⟩
      . dsimp only [PullState.finish]
        rw [List.length_append, List.length_map]
        omega
      . dsimp only [PullState.finish]
        rw [List.length_append, List.length_map]
        omega
  next timeoutMs htimeout =>
    rw [htimeout, Option.isSome_some, if_pos rfl] at hasked
    split
    next hfull =>
      exact hbase.finish hread.data (hread.idle_finish hfull hasked.symm)
    next => exact hbase.pollAgain hread htimeout _

theorem PullInv.next (h : PullInv stream s) (a : PullAct) (hquiet : s.quiet a)
    : PullInv stream (s.next stream a) := by
  cases a with
  | write nFrames => exact h.write hquiet
  | pullAudio nFrames => exact h.enter nFrames none
  | pullAudioBlocking nFrames timeoutMs => exact h.enter nFrames (some timeoutMs)
  | step flipping connected =>
    unfold PullState.next
    dsimp only
    split
    next => exact h
    next c hpc =>
      split
      next => exact h
      next timeoutMs htimeout => exact h.loopTop hpc htimeout flipping
    next c hpc => exact h.settlePadDebt hpc
    next c hpc => exact h.readRing hpc connected

theorem PullInv.law (h : PullInv stream s) : PullLaw stream s := by
  constructor
  . exact h.base.aligned
  . intro hinj p hp hmem
    rcases List.getElem?_of_mem hmem with ⟨q, hq⟩
    have hpq := hinj (h.base.aligned q _ hq)
    rw [hpq, hq] at hp
    simp at hp
  . intro hpc
    have hplaced := h.placed
    unfold PullState.Placed at hplaced
    rw [hpc] at hplaced
    exact ⟨hplaced.asked, hplaced.length⟩

end Invariant

-- One frame is asked for too early and padded; it arrives while the next one is waited for.
def lateInPull : List PullAct :=
  [.pullAudio 1, .step false true, .step false true, .pullAudioBlocking 1 5, .step false true,
    .step false true, .step false true, .write 2, .step false true, .step false true]

-- The same, with the late frame arriving before the second pull.
def lateBetweenPulls : List PullAct :=
  [.pullAudio 1, .step false true, .step false true, .write 2, .pullAudioBlocking 1 5,
    .step false true, .step false true, .step false true, .step false true]

def pullStart : PullState Nat 32768 :=
  PullState.init (fun _ => 0)

-- The reader may write at any time but between a settlement that leaves a debt and the end of that
-- pull.
theorem pullLaw_of_quiet {α : Type} {cap : Nat} {stream : Nat → α} {buf : Nat → α}
    {s : PullState α cap} (h : Run (PullState.next stream) PullState.quiet (PullState.init buf) s)
    : PullLaw stream s := by
  apply PullInv.law
  apply h.inv
  . exact pullInv_init buf
  . intro s a hs ha
    exact hs.next a ha

theorem pullLaw_lateBetweenPulls
    : (lateBetweenPulls.foldl (PullState.next id) pullStart).out = [none, none, some 2, some 3]
      ∧ PullLaw id (lateBetweenPulls.foldl (PullState.next id) pullStart) :=
  ⟨by decide, pullLaw_of_quiet (Run.of_guarded lateBetweenPulls .start (by decide))⟩

-- The padded frame is played in place of the next one.
theorem not_pullLaw_lateInPull
    : ∃ s, Run (PullState.next id) PullState.fits pullStart s ∧ ¬PullLaw id s := by
  refine ⟨lateInPull.foldl (PullState.next id) pullStart,
    Run.of_guarded lateInPull .start (by decide), ?_⟩
  intro h
  have hcell : (lateInPull.foldl (PullState.next id) pullStart).out[2]? = some (some 0) := by
    decide
  have hwrong := h.aligned 2 0 hcell
  exact absurd hwrong (by decide)

end Harp
