import Harp.Core.CborLemmas

/-!
This module contains the framed link of `core/src/link.c` and `core/src/frame.c`: messages are cut
into frames of at most 65536 bytes and put together again per stream.

The transport is the list of bytes that are still to be read; a read past its end fails as at the end
of a connection. Writes and allocations succeed. `recvTurn` is one turn of the loop of
`harp_link_recv`.
-/

namespace Harp

def frameFver : UInt8 := 0x01

def frameHdrLen : Nat := 8

def frameMaxPayload : Nat := 65536

def flagFin : Nat := 0x0001

def ctlMaxPayload : Nat := 65536

def evtMaxPayload : Nat := 65536

def logMaxPayload : Nat := 65536

def objMaxPayload : Nat := 16 * 1024 * 1024

structure FrameHdr where
  fver : UInt8
  stream : UInt8
  flags : Nat
  length : Nat
deriving DecidableEq, Repr

def frameHdrEncode (h : FrameHdr) : Bytes :=
  [h.fver, h.stream, UInt8.ofNat h.flags, UInt8.ofNat (h.flags >>> 8), UInt8.ofNat h.length,
    UInt8.ofNat (h.length >>> 8), UInt8.ofNat (h.length >>> 16), UInt8.ofNat (h.length >>> 24)]

def frameHdrDecode : Bytes → Option FrameHdr
  | [fver, stream, f₀, f₁, l₀, l₁, l₂, l₃] =>
    let flags := f₀.toNat + f₁.toNat <<< 8
    let length := l₀.toNat + l₁.toNat <<< 8 + l₂.toNat <<< 16 + l₃.toNat <<< 24
    if fver ≠ frameFver then
      none
    -- the reserved flags are 0
    else if flags &&& 0xfffe ≠ 0 then
      none
    else if length > frameMaxPayload then
      none
    else
      some ⟨fver, stream, flags, length⟩
  | _ => none

inductive LinkStream where
  | ctl
  | evt
  | obj
  | log
deriving DecidableEq, Repr

def LinkStream.byte : LinkStream → UInt8
  | .ctl => 0
  | .evt => 1
  | .obj => 2
  | .log => 3

def LinkStream.ofByte (b : UInt8) : Option LinkStream :=
  if b = 0 then some .ctl
  else if b = 1 then some .evt
  else if b = 2 then some .obj
  else if b = 3 then some .log
  else none

def streamMsgCap : LinkStream → Nat
  | .ctl => ctlMaxPayload
  | .evt => evtMaxPayload
  | .log => logMaxPayload
  | .obj => objMaxPayload

structure HarpLink where
  acc : LinkStream → Bytes

namespace HarpLink

def init : HarpLink where
  acc _ := []

def put (l : HarpLink) (s : LinkStream) (payload : Bytes) : HarpLink where
  acc s' := if s' = s then l.acc s ++ payload else l.acc s'

def reset (l : HarpLink) (s : LinkStream) : HarpLink where
  acc s' := if s' = s then [] else l.acc s'

end HarpLink

def readExact (n : Nat) (io : Bytes) : Option (Bytes × Bytes) :=
  if io.length < n then none else some (io.take n, io.drop n)

-- What stands at the start of the transport. The header of a frame is checked before its payload.
inductive FrameRead where
  | eof
  | bad (io : Bytes)
  | frame (h : FrameHdr) (payload io : Bytes)

def readFrame (io : Bytes) : FrameRead :=
  match readExact frameHdrLen io with
  | none => .eof
  | some (hdr, io) =>
    match frameHdrDecode hdr with
    | none => .bad io
    | some h =>
      match readExact h.length io with
      | none => .eof
      | some (payload, io) => .frame h payload io

-- How a turn of the receive loop ends: `eof` is -1, `fatal` is -2.
inductive Turn where
  | eof
  | fatal (l : HarpLink) (io : Bytes)
  | again (l : HarpLink) (io : Bytes)
  | message (l : HarpLink) (io : Bytes) (stream : LinkStream) (msg : Bytes)

def HarpLink.takeFrame (l : HarpLink) (h : FrameHdr) (payload io : Bytes) : Turn :=
  match LinkStream.ofByte h.stream with
  -- vendor-experimental
  | none => .again l io
  | some s =>
    let l := l.put s payload
    if streamMsgCap s < (l.acc s).length then
      .fatal l io
    else if h.flags &&& flagFin ≠ 0 then
      .message (l.reset s) io s (l.acc s)
    else
      .again l io

def recvTurn (l : HarpLink) (io : Bytes) : Turn :=
  match readFrame io with
  | .eof => .eof
  | .bad io => .fatal l io
  | .frame h payload io => l.takeFrame h payload io

theorem readExact_inv {n : Nat} {io bs rest : Bytes} (h : readExact n io = some (bs, rest))
    : io = bs ++ rest ∧ bs.length = n := by
  unfold readExact at h
  split at h
  . cases h
  next hlen =>
    cases h
    rw [Nat.not_lt] at hlen
    rw [List.take_append_drop, List.length_take, Nat.min_eq_left hlen]
    exact ⟨rfl, rfl⟩

theorem frameHdrDecode_length {hdr : Bytes} {h : FrameHdr} (hdecode : frameHdrDecode hdr = some h)
    : h.length ≤ frameMaxPayload := by
  unfold frameHdrDecode at hdecode
  split at hdecode
  . dsimp only at hdecode
    repeat' split at hdecode
    any_goals cases hdecode
    dsimp only
    omega
  . cases hdecode

theorem readFrame_inv {io payload rest : Bytes} {h : FrameHdr}
    (hread : readFrame io = .frame h payload rest)
    : payload.length ≤ frameMaxPayload ∧ rest.length < io.length := by
  unfold readFrame at hread
  cases hhdr : readExact frameHdrLen io with
  | none =>
    rw [hhdr] at hread
    cases hread
  | some p =>
    rcases p with ⟨hdr, io₁⟩
    rcases readExact_inv hhdr with ⟨rfl, hlen⟩
    simp only [hhdr] at hread
    cases hdecode : frameHdrDecode hdr with
    | none =>
      rw [hdecode] at hread
      cases hread
    | some h' =>
      simp only [hdecode] at hread
      cases hpayload : readExact h'.length io₁ with
      | none =>
        rw [hpayload] at hread
        cases hread
      | some q =>
        rcases q with ⟨payload', rest'⟩
        rcases readExact_inv hpayload with ⟨rfl, hplen⟩
        rw [hpayload] at hread
        cases hread
        have hmax := frameHdrDecode_length hdecode
        have h8 : frameHdrLen = 8 := rfl
        simp only [List.length_append]
        omega

theorem HarpLink.takeFrame_again {l l' : HarpLink} {h : FrameHdr} {payload io io' : Bytes}
    (hturn : l.takeFrame h payload io = .again l' io') : io' = io := by
  unfold HarpLink.takeFrame at hturn
  dsimp only at hturn
  repeat' split at hturn
  all_goals cases hturn
  all_goals rfl

theorem recvTurn_again_lt {l l' : HarpLink} {io io' : Bytes} (h : recvTurn l io = .again l' io')
    : io'.length < io.length := by
  unfold recvTurn at h
  split at h
  . cases h
  . cases h
  next hread =>
    have hlt := (readFrame_inv hread).2
    rw [HarpLink.takeFrame_again h]
    exact hlt

-- `eof` is -1, `fatal` is -2; otherwise the stream and the message.
inductive Recv where
  | eof
  | fatal (l : HarpLink)
  | ok (l : HarpLink) (io : Bytes) (stream : LinkStream) (msg : Bytes)

def linkRecv (l : HarpLink) (io : Bytes) : Recv :=
  match h : recvTurn l io with
  | .eof => .eof
  | .fatal l _ => .fatal l
  | .message l io stream msg => .ok l io stream msg
  | .again l' io' =>
    have := recvTurn_again_lt h
    linkRecv l' io'
termination_by io.length

/-- The messages of at most `n` calls, and how the connection ended where it did. -/
def recvTimes (n : Nat) (l : HarpLink) (io : Bytes) : List (LinkStream × Bytes) × Option Recv :=
  match n with
  | 0 => ([], none)
  | n + 1 =>
    match linkRecv l io with
    | .ok l io stream msg =>
      let rest := recvTimes n l io
      ((stream, msg) :: rest.1, rest.2)
    | stop => ([], some stop)

-- Fault injection: which frames are hit, by the number of the frame.
def corrupts (corruptPct : Int) (fn : Nat) : Bool :=
  0 < corruptPct ∧ corruptPct ≤ 100
    ∧ (((fn + 1) % 2 ^ 32 * 2654435761 % 2 ^ 32 % 100 : Nat) : Int) < corruptPct

def sentPayload (corruptPct : Int) (fn : Nat) (p : Bytes) : Bytes :=
  if corrupts corruptPct fn then p.modify (fn % p.length) (· ^^^ 0xff) else p

def sendChunk (len : Nat) : Nat :=
  if frameMaxPayload < len then frameMaxPayload else len

theorem sendChunk_lt {len : Nat} (h : len - sendChunk len ≠ 0) : len - sendChunk len < len := by
  unfold sendChunk at *
  by_cases hlong : frameMaxPayload < len
  . rw [if_pos hlong]
    have hmax : frameMaxPayload = 65536 := rfl
    omega
  . rw [if_neg hlong, Nat.sub_self] at h
    exact absurd rfl h

/-- The bytes written, and the frame counter behind them. -/
def linkSend (corruptPct : Int) (cf : Nat) (stream : UInt8) (data : Bytes) : Bytes × Nat :=
  let chunk := sendChunk data.length
  let hdr := frameHdrEncode
    ⟨frameFver, stream, if chunk = data.length then flagFin else 0, chunk⟩
  let sent := if chunk = 0 then [] else sentPayload corruptPct cf (data.take chunk)
  let cf' := if chunk = 0 then cf else (cf + 1) % 2 ^ 32
  if data.length - chunk = 0 then
    (hdr ++ sent, cf')
  else
    let rest := linkSend corruptPct cf' stream (data.drop chunk)
    (hdr ++ sent ++ rest.1, rest.2)
termination_by data.length
decreasing_by
  rw [List.length_drop]
  exact sendChunk_lt (by assumption)

end Harp
