import Harp.Core.CborLemmas
import Harp.Device.AudioStart
import Harp.Lib.Chunked

/-!
This module contains `host_paced_loop` of `device/audio_loop.c`: pacing frames are read from a byte
stream that arrives in runs, their input columns are picked out byte by byte, and each frame that is
not behind the cursor is rendered.

What `render_output` makes of its input is not part of it; a rendered frame is the header, the fence
and the input columns as the engine finds them. The wait for the fence does not touch the stream.
What other threads and the link decide in a pass (the stream runs, the loopback is armed, the frame
could be sent) is looked up by the number of the pass.
-/

namespace Harp

open Chunks

def audioHdrLen : Nat := 20
def audioFver : UInt8 := 1
def audioDirH2d : UInt8 := 1
def audioFence : UInt8 := 4
def audioFenceLen : Nat := 4
def audioFmtF32 : UInt16 := 1

structure AudioHdr where
  fver : UInt8
  dirflags : UInt8
  slots : UInt16
  epoch : UInt32
  ts : UInt64
  nsamples : UInt16
  fmt : UInt16
deriving DecidableEq, Repr

def audioHdrEncode (h : AudioHdr) : Bytes :=
  [h.fver, h.dirflags] ++ leBytes h.slots.toNat 2 ++ leBytes h.epoch.toNat 4 ++ leBytes h.ts.toNat 8
    ++ leBytes h.nsamples.toNat 2 ++ leBytes h.fmt.toNat 2

def audioHdrDecode (b : Bytes) : Option AudioHdr :=
  let h : AudioHdr := ⟨UInt8.ofNat (leField b 0 1), UInt8.ofNat (leField b 1 1),
    UInt16.ofNat (leField b 2 2), UInt32.ofNat (leField b 4 4), UInt64.ofNat (leField b 8 8),
    UInt16.ofNat (leField b 16 2), UInt16.ofNat (leField b 18 2)⟩
  if h.fver ≠ audioFver then
    none
  else if h.fmt ≠ audioFmtF32 then
    none
  -- no slots are legal, no samples are not
  else if h.nsamples = 0 then
    none
  else
    some h

def AudioHdr.payloadLen (h : AudioHdr) : Nat :=
  h.slots.toNat * h.nsamples.toNat * 4

def AudioHdr.h2d (h : AudioHdr) : Bool :=
  h.dirflags &&& audioDirH2d ≠ 0

def AudioHdr.fenced (h : AudioHdr) : Bool :=
  h.dirflags &&& audioFence ≠ 0

structure PacedEnv where
  isFx : Bool
  inSlots : List UInt8
  running : Nat → Bool
  -- the input slot that is looped, when the loopback is armed
  loopback : Nat → Option UInt8
  sent : Nat → Bool

def PacedEnv.nIn (env : PacedEnv) : Nat :=
  env.inSlots.length

-- The columns that come from the payload: the looped one, and how many for an effect.
def PacedEnv.keep (env : PacedEnv) (pass : Nat) (h : AudioHdr) : Option Nat :=
  ((env.loopback pass).bind (fun slot => env.inSlots.idxOf? slot)).filter
    (fun col => col < h.slots.toNat ∧ h.nsamples.toNat ≤ audioMaxNsamples)

def PacedEnv.fxmode (env : PacedEnv) (h : AudioHdr) : Bool :=
  env.isFx ∧ 0 < env.nIn ∧ 0 < h.slots.toNat ∧ h.nsamples.toNat ≤ audioMaxNsamples

def PacedEnv.fxcols (env : PacedEnv) (h : AudioHdr) : Nat :=
  if env.fxmode h then min env.nIn h.slots.toNat else 0

-- `fx_in` and `lpb_col` as bytes; `fx_in` is cleared when it is allocated.
structure Columns where
  fxIn : Nat → Nat → UInt8
  lpbCol : Nat → UInt8

def Columns.blank : Columns :=
  ⟨fun _ _ => 0, fun _ => 0⟩

def demuxByte (keep : Option Nat) (fxcols stride : Nat) (cols : Columns) (off : Nat) (b : UInt8)
    : Columns :=
  let inrow := off % stride
  let smp := off / stride
  { lpbCol :=
      match keep with
      | some col =>
        if col * 4 ≤ inrow ∧ inrow < col * 4 + 4 then
          fun j => if j = smp * 4 + (inrow - col * 4) then b else cols.lpbCol j
        else
          cols.lpbCol
      | none => cols.lpbCol
    fxIn :=
      if inrow / 4 < fxcols then
        fun c j => if c = inrow / 4 ∧ j = smp * 4 + inrow % 4 then b else cols.fxIn c j
      else
        cols.fxIn }

structure Rendered where
  hdr : AudioHdr
  fence : Option UInt32
  fxIn : List Bytes
  lpb : Option Bytes
deriving DecidableEq, Repr

structure Paced where
  reader : Reader UInt8
  expectSsi : UInt64
  cols : Columns
  out : List Rendered
  lateFrames : Nat
  frameErrors : Nat

def Paced.start (runs : List Bytes) : Paced :=
  ⟨⟨[], runs⟩, 0, Columns.blank, [], 0, 0⟩

-- `fx_in_n` samples of every column, and the looped column.
def Paced.render (st : Paced) (env : PacedEnv) (pass : Nat) (h : AudioHdr) (fence : Option UInt32)
    : Rendered :=
  let fxInN := if env.fxmode h then h.nsamples.toNat else 0
  { hdr := h
    fence
    fxIn := if env.isFx then
        (List.range env.nIn).map (fun c => (List.range (fxInN * 4)).map (st.cols.fxIn c))
      else
        []
    lpb := (env.keep pass h).map (fun _ =>
      (List.range (h.nsamples.toNat * 4)).map st.cols.lpbCol) }

def readFence (h : AudioHdr) (r : Reader UInt8) : Option (Option UInt32 × Reader UInt8) :=
  if h.fenced then
    (r.refill copy audioFenceLen []).map (fun fb => (some (UInt32.ofNat (leNat fb.1)), fb.2))
  else
    some (none, r)

-- A whole frame has been read. `false` leaves the loop.
def pacedJudge (env : PacedEnv) (pass : Nat) (h : AudioHdr) (fence : Option UInt32) (st : Paced)
    : Bool × Paced :=
  if h.nsamples.toNat > audioMaxNsamples then
    (false, { st with frameErrors := st.frameErrors + 1 })
  else if h.ts < st.expectSsi then
    (true, { st with lateFrames := st.lateFrames + 1 })
  else
    let st := { st with out := st.out ++ [st.render env pass h fence] }
    if env.sent pass then
      (true, { st with expectSsi := h.ts + h.nsamples.toUInt64 })
    else
      (false, st)

def pacedPayload (env : PacedEnv) (pass : Nat) (h : AudioHdr) (fence : Option UInt32) (st : Paced)
    : Bool × Paced :=
  match st.reader.refill (demuxByte (env.keep pass h) (env.fxcols h) (h.slots.toNat * 4))
      h.payloadLen st.cols with
  | none => (false, st)
  | some (cols, reader) => pacedJudge env pass h fence { st with reader, cols }

def pacedPass (env : PacedEnv) (pass : Nat) (st : Paced) : Bool × Paced :=
  match st.reader.refill copy audioHdrLen [] with
  | none => (false, st)
  | some (hdr, reader) =>
    let st := { st with reader }
    match audioHdrDecode hdr with
    | none => (false, { st with frameErrors := st.frameErrors + 1 })
    | some h =>
      if h.h2d then
        match readFence h reader with
        | none => (false, st)
        | some (fence, reader) => pacedPayload env pass h fence { st with reader }
      else
        (false, { st with frameErrors := st.frameErrors + 1 })

def pacedRun (env : PacedEnv) : Nat → Nat → Paced → Paced
  | 0, _, st => st
  | left + 1, pass, st =>
    if env.running pass then
      match pacedPass env pass st with
      | (true, st) => pacedRun env left (pass + 1) st
      | (false, st) => st
    else
      st

-- Every pass that does not leave the loop has read a header, so there are fewer than bytes.
def hostPacedLoop (env : PacedEnv) (runs : List Bytes) : Paced :=
  pacedRun env ((Reader.alive runs).length + 1) 0 (Paced.start runs)

end Harp
