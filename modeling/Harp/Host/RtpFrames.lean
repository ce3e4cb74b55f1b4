import Harp.Core.CborLemmas
import Harp.Device.PacedLoop
import Harp.Lib.Interleave

/-!
This module contains the audio of the network transport: the RTP header, the split of a wide frame
into packets of at most eight slots, and the receiver that puts the groups of one timestamp together.
-/

namespace Harp

open Interleaved

def rtpHdrBytes : Nat := 12
def rtpPtAudio : UInt8 := 96
def rtpPtGroup : UInt8 := 97
def rtpMaxGroupSlots : Nat := 8
def rtpGroupHdrBytes : Nat := 4

structure RtpHdr where
  pt : UInt8
  marker : Bool
  seq : UInt16
  timestamp : UInt32
  ssrc : UInt32
  deriving DecidableEq

def rtpPack (cap : Nat) (h : RtpHdr) (payload : Bytes) : Option Bytes :=
  if cap < rtpHdrBytes + payload.length then
    none
  else
    some ([0x80, (if h.marker then 0x80 else 0) ||| (h.pt &&& 0x7f)] ++ beBytes h.seq.toNat 2
      ++ beBytes h.timestamp.toNat 4 ++ beBytes h.ssrc.toNat 4 ++ payload)

def beField (b : Bytes) (pos len : Nat) : Nat :=
  beNat ((b.drop pos).take len)

def rtpFields (pkt : Bytes) : RtpHdr where
  marker := (pkt.getD 1 0 >>> 7) &&& 1 ≠ 0
  pt := pkt.getD 1 0 &&& 0x7f
  seq := UInt16.ofNat (beField pkt 2 2)
  timestamp := UInt32.ofNat (beField pkt 4 4)
  ssrc := UInt32.ofNat (beField pkt 8 4)

def rtpUnpack (pkt : Bytes) : Option (RtpHdr × Bytes) :=
  if pkt.length < rtpHdrBytes then
    none
  else
    let b := pkt.getD 0 0
    let off := rtpHdrBytes + (b &&& 0x0f).toNat * 4
    if b >>> 6 ≠ 2 then
      none
    else if pkt.length < off then
      none
    else if (b >>> 4) &&& 1 ≠ 0 then
      let extEnd := off + 4 + beField pkt (off + 2) 2 * 4
      if pkt.length < off + 4 then
        none
      else if pkt.length < extEnd then
        none
      else
        some (rtpFields pkt, pkt.drop extEnd)
    else
      some (rtpFields pkt, pkt.drop off)

-- How many packets a jump of the sequence number has lost, and whether it goes forward.
def rtpLossGap (lastSeq seq : UInt16) : UInt16 × Bool :=
  let gap := seq - lastSeq - 1
  if gap < 0x8000 then (gap, true) else (0, false)

-- A sample is copied as the bytes it has in memory.
def floatBytes (v : UInt32) : Bytes :=
  leBytes v.toNat 4

def floatAt (b : Bytes) (k : Nat) : UInt32 :=
  UInt32.ofNat (leField b (4 * k) 4)

structure AudioRtp where
  rtpOpen : Bool
  nOutSlots : UInt8
  rtpSeq : UInt16
  rtpSsrc : UInt32

-- The header and the samples are gathered into one datagram.
def rtpSendOne (h : RtpHdr) (payload : Bytes) : Bytes :=
  (rtpPack rtpHdrBytes h []).getD [] ++ payload

def groupPayload (samples : List UInt32) (S ns off cnt : Nat) : Bytes :=
  [UInt8.ofNat off, UInt8.ofNat cnt, UInt8.ofNat S, 0]
    ++ (gather ns cnt fun s c => samples.getD (s * S + off + c) 0).flatMap floatBytes

def emitGroups (a : AudioRtp) (samples : List UInt32) (S ns : Nat) (msc : UInt64) (off : Nat)
    : AudioRtp × List Bytes :=
  if off < S then
    let cnt := if S - off > rtpMaxGroupSlots then rtpMaxGroupSlots else S - off
    let gh : RtpHdr := ⟨rtpPtGroup, false, a.rtpSeq, msc.toUInt32, a.rtpSsrc⟩
    let rest := emitGroups { a with rtpSeq := a.rtpSeq + 1 } samples S ns msc
      (off + rtpMaxGroupSlots)
    (rest.1, rtpSendOne gh (groupPayload samples S ns off cnt) :: rest.2)
  else
    (a, [])
termination_by S - off
decreasing_by
  unfold rtpMaxGroupSlots
  omega

def audioRtpEmit (a : AudioRtp) (samples : List UInt32) (payloadBytes : Nat) (msc : UInt64)
    : AudioRtp × List Bytes :=
  if a.rtpOpen then
    let S := if a.nOutSlots ≠ 0 then a.nOutSlots.toNat else 2
    if S > rtpMaxGroupSlots then
      emitGroups a samples S (payloadBytes / (S * 4)) msc 0
    else
      let h : RtpHdr := ⟨rtpPtAudio, false, a.rtpSeq, msc.toUInt32, a.rtpSsrc⟩
      ({ a with rtpSeq := a.rtpSeq + 1 },
        [rtpSendOne h ((samples.flatMap floatBytes).take payloadBytes)])
  else
    (a, [])

def kReasmSlots : Nat := 34
def kReasmNs : Nat := 256

structure RtpRx where
  seqValid : Bool
  lastSeq : UInt16
  rtpLost : UInt64
  reasm : Nat → UInt32
  reasmTs : UInt32
  reasmTotal : Nat
  reasmNs : Nat
  reasmValid : Bool

-- `floats` is empty when nothing is returned, `devTs` none when the timestamp is left alone.
structure AudioIn where
  floats : List UInt32
  devTs : Option UInt32
  deriving DecidableEq

namespace RtpRx

def fresh : RtpRx where
  seqValid := false
  lastSeq := 0
  rtpLost := 0
  reasm := fun _ => 0
  reasmTs := 0
  reasmTotal := 0
  reasmNs := 0
  reasmValid := false

def countLoss (s : RtpRx) (seq : UInt16) : RtpRx :=
  if s.seqValid then
    let gap := rtpLossGap s.lastSeq seq
    { s with
      rtpLost := s.rtpLost + gap.1.toUInt64
      lastSeq := if gap.2 then seq else s.lastSeq }
  else
    { s with lastSeq := seq, seqValid := true }

-- The frame of the timestamp before goes out when a group has a new one.
def flush (s : RtpRx) (timestamp : UInt32) (maxFloats : Nat) : RtpRx × AudioIn :=
  if s.reasmValid && timestamp != s.reasmTs then
    let fr := s.reasmNs * s.reasmTotal
    let fr := if fr > maxFloats then maxFloats else fr
    ({ s with reasmValid := false }, ⟨(List.range fr).map s.reasm, some s.reasmTs⟩)
  else
    (s, ⟨[], none⟩)

-- A group of no frame in hand opens its own, all silent.
def openFrame (s : RtpRx) (timestamp : UInt32) (total ns : Nat) : RtpRx :=
  if s.reasmValid then
    s
  else
    { s with
      reasm := fun _ => 0
      reasmTs := timestamp
      reasmTotal := total
      reasmNs := ns
      reasmValid := true }

def putGroup (s : RtpRx) (body : Bytes) (off cnt total ns : Nat) : RtpRx :=
  if total = s.reasmTotal ∧ ns = s.reasmNs then
    { s with reasm := scatter ns cnt total off (fun r c => floatAt body (r * cnt + c)) s.reasm }
  else
    s

def reassembleGroup (s : RtpRx) (h : RtpHdr) (pl : Bytes) (maxFloats : Nat) : RtpRx × AudioIn :=
  if pl.length < rtpGroupHdrBytes then
    (s, ⟨[], none⟩)
  else
    let off := (pl.getD 0 0).toNat
    let cnt := (pl.getD 1 0).toNat
    let total := (pl.getD 2 0).toNat
    let body := pl.drop rtpGroupHdrBytes
    if cnt = 0 ∨ total = 0 ∨ total > kReasmSlots ∨ off + cnt > total ∨ body.length % 4 ≠ 0 then
      (s, ⟨[], none⟩)
    else
      let ns := body.length / 4 / cnt
      if ns = 0 ∨ ns > kReasmNs then
        (s, ⟨[], none⟩)
      else
        let r := s.flush h.timestamp maxFloats
        ((r.1.openFrame h.timestamp total ns).putGroup body off cnt total ns, r.2)

def recvAudio (s : RtpRx) (maxFloats : Nat) (pkt : Bytes) : RtpRx × AudioIn :=
  match rtpUnpack pkt with
  | none => (s, ⟨[], none⟩)
  | some (h, pl) =>
    let s := s.countLoss h.seq
    if h.pt = rtpPtGroup then
      s.reassembleGroup h pl maxFloats
    else if pl.length % 4 ≠ 0 then
      (s, ⟨[], some h.timestamp⟩)
    else
      let f := if pl.length / 4 > maxFloats then maxFloats else pl.length / 4
      (s, ⟨(List.range f).map (floatAt pl), some h.timestamp⟩)

-- What the reader gets of the packets that arrive, a packet a call.
def returned (s : RtpRx) (maxFloats : Nat) : List Bytes → List AudioIn
  | [] => []
  | pkt :: pkts =>
    let r := s.recvAudio maxFloats pkt
    if r.2.floats.isEmpty then
      returned r.1 maxFloats pkts
    else
      r.2 :: returned r.1 maxFloats pkts

end RtpRx

-- The buffer of the reader.
def kRtpBufFloats : Nat := 256 * 34

structure WideFrame where
  slots : Nat
  ns : Nat
  msc : UInt64
  samples : List UInt32
  slots_range : 9 ≤ slots ∧ slots ≤ 34
  ns_range : 0 < ns ∧ ns ≤ 256
  length_samples : samples.length = ns * slots

-- The packets of each frame, on one running sequence number.
def emitFrames (seq : UInt16) (ssrc : UInt32) : List WideFrame → List (List Bytes)
  | [] => []
  | f :: fs =>
    let r := audioRtpEmit ⟨true, UInt8.ofNat f.slots, seq, ssrc⟩ f.samples (f.ns * f.slots * 4) f.msc
    r.2 :: emitFrames r.1.rtpSeq ssrc fs

-- A frame, the packets it was sent as and those of them that arrive, in the order they do.
structure Delivery where
  frame : WideFrame
  sent : List Bytes
  arrived : List Bytes

namespace Delivery

def timestamp (d : Delivery) : UInt32 :=
  d.frame.msc.toUInt32

-- The samples of the groups that arrive, in place, and silence for the others.
def heard (d : Delivery) : List UInt32 :=
  (List.range (d.frame.ns * d.frame.slots)).map fun i =>
    if d.sent.getD (i % d.frame.slots / rtpMaxGroupSlots) [] ∈ d.arrived then
      d.frame.samples.getD i 0
    else
      0

def audio (d : Delivery) : AudioIn :=
  ⟨d.heard, some d.timestamp⟩

def isHeard (d : Delivery) : Bool :=
  !d.arrived.isEmpty

end Delivery

end Harp
