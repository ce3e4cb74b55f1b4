import Harp.Core.Link

/-!
This module contains the reassembly of messages: whatever order the frames of the streams arrive in,
every message comes out as it was sent, and no accumulator outgrows its stream.
-/

namespace Harp

structure LinkFrame where
  stream : UInt8
  fin : Bool
  payload : Bytes
  length_le : payload.length ≤ frameMaxPayload

namespace LinkFrame

def hdr (f : LinkFrame) : FrameHdr :=
  ⟨frameFver, f.stream, if f.fin then flagFin else 0, f.payload.length⟩

def encode (f : LinkFrame) : Bytes :=
  frameHdrEncode f.hdr ++ f.payload

-- The stream whose message a frame ends.
def completes (f : LinkFrame) : Option LinkStream :=
  if f.fin then LinkStream.ofByte f.stream else none

end LinkFrame

def wire (fs : List LinkFrame) : Bytes :=
  fs.flatMap LinkFrame.encode

section Turns

theorem frameHdrDecode_hdr (f : LinkFrame) : frameHdrDecode (frameHdrEncode f.hdr) = some f.hdr := by
  have hlen := f.length_le
  have hmax : frameMaxPayload = 65536 := rfl
  have hlength : (UInt8.ofNat f.payload.length).toNat
      + (UInt8.ofNat (f.payload.length >>> 8)).toNat <<< 8
      + (UInt8.ofNat (f.payload.length >>> 16)).toNat <<< 16
      + (UInt8.ofNat (f.payload.length >>> 24)).toNat <<< 24 = f.payload.length := by
    simp only [UInt8.toNat_ofNat', Nat.shiftRight_eq_div_pow, Nat.shiftLeft_eq]
    omega
  have hflags : ∀ fin : Bool, (UInt8.ofNat (if fin then flagFin else 0)).toNat
      + (UInt8.ofNat ((if fin then flagFin else 0) >>> 8)).toNat <<< 8
        = if fin then flagFin else 0 := by
    decide
  have hreserved : ∀ fin : Bool, (if fin then flagFin else 0) &&& 0xfffe = 0 := by
    decide
  unfold frameHdrEncode frameHdrDecode LinkFrame.hdr
  dsimp only
  rw [hlength, hflags, hreserved, if_neg (by simp), if_neg (by simp), if_neg (by omega)]

theorem readExact_append (bs rest : Bytes)
    : readExact bs.length (bs ++ rest) = some (bs, rest) := by
  unfold readExact
  rw [if_neg (by simp), List.take_left, List.drop_left]

theorem readFrame_encode (f : LinkFrame) (rest : Bytes)
    : readFrame (f.encode ++ rest) = .frame f.hdr f.payload rest := by
  have hhdr := readExact_append (frameHdrEncode f.hdr) (f.payload ++ rest)
  have hlen : (frameHdrEncode f.hdr).length = frameHdrLen := rfl
  have hpayload : readExact f.hdr.length (f.payload ++ rest) = some (f.payload, rest) :=
    readExact_append f.payload rest
  rw [hlen] at hhdr
  unfold readFrame LinkFrame.encode
  rw [List.append_assoc, hhdr]
  dsimp only
  rw [frameHdrDecode_hdr]
  dsimp only
  rw [hpayload]

theorem recvTurn_encode (l : HarpLink) (f : LinkFrame) (rest : Bytes)
    : recvTurn l (f.encode ++ rest) = l.takeFrame f.hdr f.payload rest := by
  unfold recvTurn
  rw [readFrame_encode]

theorem LinkFrame.fin_iff (f : LinkFrame) : f.hdr.flags &&& flagFin ≠ 0 ↔ f.fin = true := by
  have h : ∀ fin : Bool, (if fin then flagFin else 0) &&& flagFin ≠ 0 ↔ fin = true := by
    decide
  exact h f.fin

end Turns

-- The frames of one stream.
def onStream (s : LinkStream) (fs : List LinkFrame) : List LinkFrame :=
  fs.filter (fun f => f.stream = s.byte)

-- The messages that the frames of a stream end, behind what the accumulator holds.
def assemble (acc : Bytes) : List LinkFrame → List Bytes
  | [] => []
  | f :: fs =>
    if f.fin then (acc ++ f.payload) :: assemble [] fs else assemble (acc ++ f.payload) fs

-- The message that is open behind the frames of a stream.
def pending (acc : Bytes) : List LinkFrame → Bytes
  | [] => acc
  | f :: fs => pending (if f.fin then [] else acc ++ f.payload) fs

def FitsCap (cap : Nat) (acc : Bytes) : List LinkFrame → Prop
  | [] => True
  | f :: fs => (acc ++ f.payload).length ≤ cap ∧ FitsCap cap (if f.fin then [] else acc ++ f.payload) fs

section Receive

variable {l l' : HarpLink} {io io' : Bytes}

theorem linkRecv_again (h : recvTurn l io = .again l' io') : linkRecv l io = linkRecv l' io' := by
  rw [linkRecv]
  split
  all_goals simp_all

theorem linkRecv_message {s : LinkStream} {m : Bytes} (h : recvTurn l io = .message l' io' s m)
    : linkRecv l io = .ok l' io' s m := by
  rw [linkRecv]
  split
  all_goals simp_all

theorem linkRecv_fatal (h : recvTurn l io = .fatal l' io') : linkRecv l io = .fatal l' := by
  rw [linkRecv]
  split
  all_goals simp_all

theorem linkRecv_eof (h : recvTurn l io = .eof) : linkRecv l io = .eof := by
  rw [linkRecv]
  split
  all_goals simp_all

theorem recvTimes_again (h : recvTurn l io = .again l' io') (n : Nat)
    : recvTimes n l io = recvTimes n l' io' := by
  cases n with
  | zero => rfl
  | succ n =>
    unfold recvTimes
    rw [linkRecv_again h]

theorem recvTimes_message {s : LinkStream} {m : Bytes} (h : recvTurn l io = .message l' io' s m)
    (n : Nat) : recvTimes (n + 1) l io
        = ((s, m) :: (recvTimes n l' io').1, (recvTimes n l' io').2) := by
  rw [recvTimes, linkRecv_message h]

theorem recvTimes_fatal (h : recvTurn l io = .fatal l' io') (n : Nat)
    : recvTimes (n + 1) l io = ([], some (.fatal l')) := by
  rw [recvTimes, linkRecv_fatal h]

end Receive

section Streams

theorem LinkStream.ofByte_eq_some {b : UInt8} {s : LinkStream}
    : LinkStream.ofByte b = some s ↔ b = s.byte := by
  cases s <;> simp only [LinkStream.ofByte, LinkStream.byte] <;> grind

theorem onStream_cons_of_eq {s : LinkStream} {f : LinkFrame} (h : f.stream = s.byte) (fs : List LinkFrame)
    : onStream s (f :: fs) = f :: onStream s fs := by
  simp [onStream, h]

theorem onStream_cons_of_ne {s : LinkStream} {f : LinkFrame} (h : f.stream ≠ s.byte) (fs : List LinkFrame)
    : onStream s (f :: fs) = onStream s fs := by
  simp [onStream, h]

theorem LinkStream.byte_inj {s s' : LinkStream} (h : s.byte = s'.byte) : s = s' := by
  have hs : LinkStream.ofByte s.byte = some s := LinkStream.ofByte_eq_some.mpr rfl
  rw [h, LinkStream.ofByte_eq_some.mpr rfl] at hs
  exact (Option.some.inj hs).symm

-- A frame changes its own stream only.
def HarpLink.after (l : HarpLink) (f : LinkFrame) : HarpLink where
  acc s := if f.stream = s.byte then if f.fin then [] else l.acc s ++ f.payload else l.acc s

theorem HarpLink.takeFrame_vendor (l : HarpLink) (f : LinkFrame) (rest : Bytes)
    (h : LinkStream.ofByte f.stream = none) : l.takeFrame f.hdr f.payload rest = .again l rest := by
  unfold HarpLink.takeFrame
  have hstream : f.hdr.stream = f.stream := rfl
  rw [hstream, h]

theorem HarpLink.takeFrame_stream (l : HarpLink) (f : LinkFrame) (rest : Bytes) {s : LinkStream}
    (h : f.stream = s.byte)
    : l.takeFrame f.hdr f.payload rest
        = if streamMsgCap s < (l.acc s ++ f.payload).length then
            .fatal (l.put s f.payload) rest
          else if f.fin then
            .message (l.after f) rest s (l.acc s ++ f.payload)
          else
            .again (l.after f) rest := by
  have hput : (l.put s f.payload).acc s = l.acc s ++ f.payload := by simp [HarpLink.put]
  have hsame : ∀ s', f.stream = s'.byte ↔ s' = s := by
    intro s'
    constructor
    . intro h'
      exact LinkStream.byte_inj (h'.symm.trans h)
    . rintro rfl
      exact h
  unfold HarpLink.takeFrame
  have hstream : f.hdr.stream = f.stream := rfl
  rw [hstream, LinkStream.ofByte_eq_some.mpr h]
  dsimp only
  rw [hput]
  split
  . rfl
  . cases hfin : f.fin with
    | true =>
      rw [if_pos (f.fin_iff.mpr hfin), if_pos rfl]
      congr 1
      simp only [HarpLink.reset, HarpLink.after, HarpLink.put, HarpLink.mk.injEq, hsame, hfin, if_true]
      funext s'
      split
      . rfl
      . rfl
    | false =>
      rw [if_neg (by rw [f.fin_iff, hfin]; simp), if_neg (by simp)]
      congr 1
      simp only [HarpLink.after, HarpLink.put, HarpLink.mk.injEq, hsame, hfin]
      funext s'
      split
      next heq =>
        rw [heq]
        rfl
      . rfl

end Streams

section Reassembly

theorem recvTurn_nil (l : HarpLink) : recvTurn l [] = .eof := by
  rfl

theorem wire_cons (f : LinkFrame) (fs : List LinkFrame) : wire (f :: fs) = f.encode ++ wire fs := rfl

theorem fitsCap_after {f : LinkFrame} {fs : List LinkFrame} {l : HarpLink}
    (h : ∀ s, FitsCap (streamMsgCap s) (l.acc s) (onStream s (f :: fs)))
    : ∀ s, FitsCap (streamMsgCap s) ((l.after f).acc s) (onStream s fs) := by
  intro s
  have hs := h s
  by_cases heq : f.stream = s.byte
  . rw [onStream_cons_of_eq heq] at hs
    simp only [HarpLink.after, if_pos heq]
    exact hs.2
  . rw [onStream_cons_of_ne heq] at hs
    simp only [HarpLink.after, if_neg heq]
    exact hs

theorem assemble_after {f : LinkFrame} (hfin : f.fin = false) (fs : List LinkFrame) (l : HarpLink)
    (s : LinkStream)
    : assemble (l.acc s) (onStream s (f :: fs)) = assemble ((l.after f).acc s) (onStream s fs) := by
  by_cases heq : f.stream = s.byte
  . rw [onStream_cons_of_eq heq]
    simp [HarpLink.after, assemble, heq, hfin]
  . rw [onStream_cons_of_ne heq]
    simp [HarpLink.after, heq]

-- By induction on the frames; the link is the state of every stream at that point.
theorem recvTimes_wire (fs : List LinkFrame) (l : HarpLink)
    (h : ∀ s, FitsCap (streamMsgCap s) (l.acc s) (onStream s fs))
    : ∃ ms, recvTimes (ms.length + 1) l (wire fs) = (ms, some .eof)
        ∧ (∀ s, (ms.filter (·.1 = s)).map (·.2) = assemble (l.acc s) (onStream s fs))
        ∧ ms.map (·.1) = fs.filterMap LinkFrame.completes := by
  induction fs generalizing l with
  | nil =>
    refine ⟨[], ?_, fun s => rfl, rfl⟩
    rw [List.length_nil, recvTimes]
    have heof : linkRecv l (wire []) = .eof := linkRecv_eof (recvTurn_nil l)
    rw [heof]
  | cons f fs ih =>
    rcases hs : LinkStream.ofByte f.stream with _ | s
    . -- a vendor frame
      have hother : ∀ s : LinkStream, f.stream ≠ s.byte := by
        intro s heq
        rw [LinkStream.ofByte_eq_some.mpr heq] at hs
        cases hs
      have hon : ∀ s, onStream s (f :: fs) = onStream s fs :=
        fun s => onStream_cons_of_ne (hother s) fs
      simp only [hon] at h ⊢
      rcases ih l h with ⟨ms, hrecv, hmsgs, horder⟩
      refine ⟨ms, ?_, hmsgs, ?_⟩
      . rw [wire_cons, recvTimes_again]
        . exact hrecv
        . rw [recvTurn_encode, l.takeFrame_vendor f _ hs]
      . rw [horder, List.filterMap_cons_none]
        simp [LinkFrame.completes, hs]
    . have heq := LinkStream.ofByte_eq_some.mp hs
      have hcap := h s
      rw [onStream_cons_of_eq heq] at hcap
      have hturn := l.takeFrame_stream f (wire fs) heq
      rw [if_neg (Nat.not_lt.mpr hcap.1), ← recvTurn_encode, ← wire_cons] at hturn
      rcases ih (l.after f) (fitsCap_after h) with ⟨ms, hrecv, hmsgs, horder⟩
      cases hfin : f.fin with
      | false =>
        rw [hfin, if_neg (by simp)] at hturn
        refine ⟨ms, ?_, ?_, ?_⟩
        . rw [recvTimes_again hturn]
          exact hrecv
        . intro s'
          rw [hmsgs, assemble_after hfin]
        . rw [horder, List.filterMap_cons_none]
          simp [LinkFrame.completes, hfin]
      | true =>
        rw [hfin, if_pos rfl] at hturn
        refine ⟨(s, l.acc s ++ f.payload) :: ms, ?_, ?_, ?_⟩
        . rw [List.length_cons, recvTimes_message hturn, hrecv]
        . intro s'
          by_cases hsame : s' = s
          . subst hsame
            rw [onStream_cons_of_eq heq]
            simp only [decide_true, List.filter_cons_of_pos, List.map_cons, assemble, hfin, if_true]
            rw [hmsgs]
            simp [HarpLink.after, heq, hfin]
          . have hne : f.stream ≠ s'.byte := by
              intro heq'
              exact hsame (LinkStream.byte_inj (heq'.symm.trans heq))
            rw [onStream_cons_of_ne hne, List.filter_cons_of_neg (by simp [Ne.symm hsame]), hmsgs]
            simp [HarpLink.after, hne]
        . rw [List.map_cons, horder]
          simp [LinkFrame.completes, hfin, hs]

-- The first frame that makes the open message too long ends the connection, if nothing did before.
theorem recvTimes_over (fs : List LinkFrame) (l : HarpLink) (f : LinkFrame) (rest : Bytes) {s : LinkStream}
    (heq : f.stream = s.byte)
    (hover : streamMsgCap s < (pending (l.acc s) (onStream s fs) ++ f.payload).length)
    : ∃ n ms l', recvTimes n l (wire fs ++ (f.encode ++ rest)) = (ms, some (.fatal l')) := by
  induction fs generalizing l with
  | nil =>
    have hlong : streamMsgCap s < (l.acc s ++ f.payload).length := hover
    have hturn := l.takeFrame_stream f rest heq
    rw [if_pos hlong, ← recvTurn_encode] at hturn
    exact ⟨1, [], _, recvTimes_fatal hturn 0⟩
  | cons g fs ih =>
    rw [wire_cons, List.append_assoc]
    rcases hs : LinkStream.ofByte g.stream with _ | s'
    . have hne : g.stream ≠ s.byte := by
        intro heq'
        rw [LinkStream.ofByte_eq_some.mpr heq'] at hs
        cases hs
      rw [onStream_cons_of_ne hne] at hover
      rcases ih l hover with ⟨n, ms, l', hrecv⟩
      refine ⟨n, ms, l', ?_⟩
      rw [recvTimes_again]
      . exact hrecv
      . rw [recvTurn_encode, l.takeFrame_vendor g _ hs]
    . have heq' := LinkStream.ofByte_eq_some.mp hs
      have hturn := l.takeFrame_stream g (wire fs ++ (f.encode ++ rest)) heq'
      rw [← recvTurn_encode] at hturn
      have hover' : streamMsgCap s
          < (pending ((l.after g).acc s) (onStream s fs) ++ f.payload).length := by
        by_cases hsame : g.stream = s.byte
        . rw [onStream_cons_of_eq hsame] at hover
          simp only [HarpLink.after, if_pos hsame]
          exact hover
        . rw [onStream_cons_of_ne hsame] at hover
          simp only [HarpLink.after, if_neg hsame]
          exact hover
      rcases ih (l.after g) hover' with ⟨n, ms, l', hrecv⟩
      split at hturn
      . exact ⟨1, [], _, recvTimes_fatal hturn 0⟩
      . split at hturn
        . refine ⟨n + 1, (s', l.acc s' ++ g.payload) :: ms, l', ?_⟩
          rw [recvTimes_message hturn, hrecv]
        . refine ⟨n, ms, l', ?_⟩
          rw [recvTimes_again hturn]
          exact hrecv

end Reassembly

section Send

theorem length_take_max (data : Bytes) : (data.take frameMaxPayload).length ≤ frameMaxPayload :=
  List.length_take_le frameMaxPayload data

/-- The frames of one message. -/
def sendFrames (stream : UInt8) (data : Bytes) : List LinkFrame :=
  if h : frameMaxPayload < data.length then
    ⟨stream, false, data.take frameMaxPayload, length_take_max data⟩
      :: sendFrames stream (data.drop frameMaxPayload)
  else
    [⟨stream, true, data, Nat.le_of_not_lt h⟩]
termination_by data.length
decreasing_by
  have hmax : frameMaxPayload = 65536 := rfl
  rw [List.length_drop]
  omega

theorem sentPayload_off (fn : Nat) (p : Bytes) : sentPayload 0 fn p = p := by
  simp [sentPayload, corrupts]

-- With fault injection off the bytes on the transport are the frames.
theorem linkSend_off (cf : Nat) (stream : UInt8) (data : Bytes)
    : (linkSend 0 cf stream data).1 = wire (sendFrames stream data) := by
  induction hlen : data.length using Nat.strongRecOn generalizing data cf with
  | ind len ih =>
    subst hlen
    have hmax : frameMaxPayload = 65536 := rfl
    rw [linkSend, sendFrames]
    simp only [sentPayload_off, sendChunk]
    by_cases hlong : frameMaxPayload < data.length
    . have hdrop : (data.drop frameMaxPayload).length < data.length := by
        rw [List.length_drop]
        omega
      have htail := ih _ hdrop ((cf + 1) % 2 ^ 32) (data.drop frameMaxPayload) rfl
      simp only [hlong, if_true, dif_pos]
      rw [if_neg (by omega), if_neg (by omega), if_neg (by omega), if_neg (by omega), htail,
        wire_cons]
      simp [LinkFrame.encode, LinkFrame.hdr, Nat.min_eq_left hlong.le]
    . simp only [hlong, if_false, dif_neg, not_false_eq_true, List.take_length, Nat.sub_self,
        if_true]
      rw [wire_cons]
      by_cases hzero : data.length = 0
      . rw [List.length_eq_zero_iff] at hzero
        subst hzero
        rfl
      . rw [if_neg hzero]
        simp [LinkFrame.encode, LinkFrame.hdr, wire]

theorem assemble_sendFrames (acc : Bytes) (stream : UInt8) (data : Bytes) (fs : List LinkFrame)
    : assemble acc (sendFrames stream data ++ fs) = (acc ++ data) :: assemble [] fs := by
  induction hlen : data.length using Nat.strongRecOn generalizing data acc with
  | ind len ih =>
    subst hlen
    have hmax : frameMaxPayload = 65536 := rfl
    rw [sendFrames]
    by_cases hlong : frameMaxPayload < data.length
    . have hdrop : (data.drop frameMaxPayload).length < data.length := by
        rw [List.length_drop]
        omega
      rw [dif_pos hlong, List.cons_append, assemble, if_neg (by simp), ih _ hdrop _ _ rfl,
        List.append_assoc, List.take_append_drop]
    . rw [dif_neg hlong, List.singleton_append, assemble, if_pos rfl]

theorem fitsCap_sendFrames {cap : Nat} (acc : Bytes) (stream : UInt8) (data : Bytes)
    {fs : List LinkFrame} (hcap : (acc ++ data).length ≤ cap) (hfs : FitsCap cap [] fs)
    : FitsCap cap acc (sendFrames stream data ++ fs) := by
  induction hlen : data.length using Nat.strongRecOn generalizing data acc with
  | ind len ih =>
    subst hlen
    have hmax : frameMaxPayload = 65536 := rfl
    rw [sendFrames]
    by_cases hlong : frameMaxPayload < data.length
    . have hdrop : (data.drop frameMaxPayload).length < data.length := by
        rw [List.length_drop]
        omega
      rw [dif_pos hlong, List.cons_append, FitsCap, if_neg (by simp)]
      constructor
      . rw [List.length_append] at hcap ⊢
        have := List.length_take_le frameMaxPayload data
        dsimp only
        omega
      . apply ih _ hdrop _ _ _ rfl
        rw [List.append_assoc, List.take_append_drop]
        exact hcap
    . rw [dif_neg hlong, List.singleton_append, FitsCap, if_pos rfl]
      exact ⟨hcap, hfs⟩

theorem assemble_messages (stream : UInt8) (ms : List Bytes)
    : assemble [] (ms.flatMap (sendFrames stream)) = ms := by
  induction ms with
  | nil => rfl
  | cons m ms ih => rw [List.flatMap_cons, assemble_sendFrames, ih, List.nil_append]

theorem fitsCap_messages {cap : Nat} (stream : UInt8) {ms : List Bytes}
    (h : ∀ m ∈ ms, m.length ≤ cap) : FitsCap cap [] (ms.flatMap (sendFrames stream)) := by
  induction ms with
  | nil => trivial
  | cons m ms ih =>
    rw [List.flatMap_cons]
    apply fitsCap_sendFrames
    . exact h m List.mem_cons_self
    . apply ih
      intro m' hm'
      exact h m' (List.mem_cons_of_mem m hm')

end Send

section Bounds

-- The accumulators at the start of every turn of repeated calls, until one of them fails.
inductive HarpLink.Seen (io : Bytes) : HarpLink → Bytes → Prop where
  | start : HarpLink.Seen io HarpLink.init io
  | again {l l' : HarpLink} {w w' : Bytes} (hseen : HarpLink.Seen io l w)
      (hturn : recvTurn l w = .again l' w') : HarpLink.Seen io l' w'
  | message {l l' : HarpLink} {w w' : Bytes} {s : LinkStream} {m : Bytes} (hseen : HarpLink.Seen io l w)
      (hturn : recvTurn l w = .message l' w' s m) : HarpLink.Seen io l' w'

theorem HarpLink.length_put (l : HarpLink) (s s' : LinkStream) (payload : Bytes)
    : ((l.put s payload).acc s').length ≤ (l.acc s').length + payload.length := by
  unfold HarpLink.put
  dsimp only
  split
  next heq => rw [heq, List.length_append]
  . omega

theorem HarpLink.takeFrame_within {l l' : HarpLink} {h : FrameHdr} {payload w w' : Bytes}
    (hcap : ∀ s, (l.acc s).length ≤ streamMsgCap s)
    (hturn : l.takeFrame h payload w = .again l' w'
      ∨ ∃ s m, l.takeFrame h payload w = .message l' w' s m)
    : ∀ s, (l'.acc s).length ≤ streamMsgCap s := by
  have hput : ∀ s s', ¬ streamMsgCap s < ((l.put s payload).acc s).length →
      ((l.put s payload).acc s').length ≤ streamMsgCap s' := by
    intro s s' hok
    by_cases hsame : s' = s
    . rw [hsame]
      omega
    . have hother : (l.put s payload).acc s' = l.acc s' := by simp [HarpLink.put, hsame]
      rw [hother]
      exact hcap s'
  unfold HarpLink.takeFrame at hturn
  cases hs : LinkStream.ofByte h.stream with
  | none =>
    simp only [hs] at hturn
    rcases hturn with hturn | ⟨s, m, hturn⟩
    . cases hturn
      exact hcap
    . cases hturn
  | some s =>
    simp only [hs] at hturn
    intro s'
    split at hturn
    . rcases hturn with hturn | ⟨_, _, hturn⟩ <;> cases hturn
    next hok =>
      split at hturn
      . rcases hturn with hturn | ⟨_, _, hturn⟩
        . cases hturn
        . cases hturn
          unfold HarpLink.reset
          dsimp only
          split
          . simp
          . exact hput s s' hok
      . rcases hturn with hturn | ⟨_, _, hturn⟩
        . cases hturn
          exact hput s s' hok
        . cases hturn

theorem recvTurn_within {l l' : HarpLink} {w w' : Bytes}
    (hcap : ∀ s, (l.acc s).length ≤ streamMsgCap s)
    (hturn : recvTurn l w = .again l' w' ∨ ∃ s m, recvTurn l w = .message l' w' s m)
    : ∀ s, (l'.acc s).length ≤ streamMsgCap s := by
  unfold recvTurn at hturn
  split at hturn
  . rcases hturn with hturn | ⟨_, _, hturn⟩ <;> cases hturn
  . rcases hturn with hturn | ⟨_, _, hturn⟩ <;> cases hturn
  . exact HarpLink.takeFrame_within hcap hturn

theorem HarpLink.Seen.within {io w : Bytes} {l : HarpLink} (h : HarpLink.Seen io l w)
    : ∀ s, (l.acc s).length ≤ streamMsgCap s := by
  induction h with
  | start => simp [HarpLink.init]
  | again _ hturn ih => exact recvTurn_within ih (.inl hturn)
  | message _ hturn ih => exact recvTurn_within ih (.inr ⟨_, _, hturn⟩)

end Bounds

/--
What `harp_link_recv` gives for the frames `harp_link_send` makes, in every order that keeps the
frames of each stream in order, and what it does on bytes of any kind.
-/
structure LinkReassembly : Prop where
  sends : ∀ (cf : Nat) (stream : UInt8) (data : Bytes),
    (linkSend 0 cf stream data).1 = wire (sendFrames stream data)
  reassembles : ∀ (msgs : LinkStream → List Bytes) (fs : List LinkFrame),
    (∀ s, ∀ m ∈ msgs s, m.length ≤ streamMsgCap s) →
    (∀ s, onStream s fs = (msgs s).flatMap (sendFrames s.byte)) →
    ∃ ms, recvTimes (ms.length + 1) HarpLink.init (wire fs) = (ms, some .eof)
      ∧ (∀ s, (ms.filter (·.1 = s)).map (·.2) = msgs s)
      ∧ ms.map (·.1) = fs.filterMap LinkFrame.completes
  bounded : ∀ (io w : Bytes) (l : HarpLink), HarpLink.Seen io l w →
    (∀ s, (l.acc s).length ≤ streamMsgCap s)
      ∧ ∀ h payload w' s, readFrame w = .frame h payload w' →
        ∀ s', ((l.put s payload).acc s').length ≤ streamMsgCap s' + frameMaxPayload
  overCap : ∀ (fs : List LinkFrame) (f : LinkFrame) (s : LinkStream) (rest : Bytes), f.stream = s.byte →
    streamMsgCap s < (pending [] (onStream s fs) ++ f.payload).length →
    ∃ n ms l, recvTimes n HarpLink.init (wire fs ++ (f.encode ++ rest)) = (ms, some (.fatal l))

theorem linkReassembly : LinkReassembly where
  sends := linkSend_off
  reassembles msgs fs hcap hfs := by
    have hfits : ∀ s, FitsCap (streamMsgCap s) (HarpLink.init.acc s) (onStream s fs) := by
      intro s
      rw [hfs]
      exact fitsCap_messages s.byte (hcap s)
    rcases recvTimes_wire fs HarpLink.init hfits with ⟨ms, hrecv, hmsgs, horder⟩
    refine ⟨ms, hrecv, ?_, horder⟩
    intro s
    rw [hmsgs, hfs]
    exact assemble_messages s.byte (msgs s)
  bounded io w l hseen := by
    refine ⟨hseen.within, ?_⟩
    intro h payload w' s hread s'
    have hput := l.length_put s s' payload
    have hwithin := hseen.within s'
    have hpayload := (readFrame_inv hread).1
    omega
  overCap fs f s rest heq hover := recvTimes_over fs HarpLink.init f rest heq hover

end Harp
