import Harp.Host.RtpFrames
import Mathlib.Data.List.Chain

/-!
This module contains the proof that wide frames survive the wire: the bytes of a packet give back its
group, a group lands in its columns, and a run over the packets of one frame after another returns
each frame when the next one begins.
-/

namespace Harp

open Interleaved

section Bytes

theorem length_floatBytes (v : UInt32) : (floatBytes v).length = 4 :=
  length_leBytes v.toNat 4

theorem length_flatMap_floatBytes (fs : List UInt32)
    : (fs.flatMap floatBytes).length = 4 * fs.length := by
  induction fs with
  | nil => rfl
  | cons f fs ih =>
    rw [List.flatMap_cons, List.length_append, ih, length_floatBytes, List.length_cons]
    omega

theorem floatAt_floatBytes (f : UInt32) (rest : Bytes) : floatAt (floatBytes f ++ rest) 0 = f := by
  have hlen := length_floatBytes f
  have hlt := f.toNat_lt
  unfold floatAt leField
  rw [Nat.mul_zero, List.drop_zero, List.take_left' hlen, floatBytes, leNat_leBytes,
    Nat.mod_eq_of_lt (by omega), UInt32.ofNat_toNat]

theorem floatAt_succ (f : UInt32) (rest : Bytes) (k : Nat)
    : floatAt (floatBytes f ++ rest) (k + 1) = floatAt rest k := by
  have hlen := length_floatBytes f
  have hpos : 4 * (k + 1) = 4 + 4 * k := by omega
  unfold floatAt leField
  rw [hpos, ← List.drop_drop, List.drop_left' hlen]

theorem floatAt_flatMap {fs : List UInt32} {k : Nat} {f : UInt32} (h : fs[k]? = some f)
    : floatAt (fs.flatMap floatBytes) k = f := by
  induction fs generalizing k with
  | nil => simp at h
  | cons x fs ih =>
    rw [List.flatMap_cons]
    cases k with
    | zero =>
      rw [floatAt_floatBytes]
      exact Option.some.inj h
    | succ k =>
      rw [floatAt_succ]
      exact ih h

end Bytes

-- The packet byte by byte.
theorem rtpSendOne_eq (h : RtpHdr) (payload : Bytes)
    : rtpSendOne h payload
        = 0x80 :: ((if h.marker then 0x80 else 0) ||| (h.pt &&& 0x7f))
          :: (beBytes h.seq.toNat 2 ++ (beBytes h.timestamp.toNat 4
            ++ (beBytes h.ssrc.toNat 4 ++ payload))) := by
  unfold rtpSendOne rtpPack
  rw [if_neg (by simp [rtpHdrBytes])]
  simp only [Option.getD_some, List.append_assoc, List.cons_append, List.nil_append]

-- The second byte has the payload type below the marker.
theorem pt_marker : ∀ (pt : Fin 128) (marker : Bool),
    ((if marker then 0x80 else 0) ||| (UInt8.ofNat pt &&& 0x7f)) &&& 0x7f = UInt8.ofNat pt
      ∧ decide (((if marker then 0x80 else 0) ||| (UInt8.ofNat pt &&& 0x7f)) >>> 7 &&& 1
        ≠ (0 : UInt8)) = marker := by
  decide +kernel

theorem rtpFields_rtpSendOne {h : RtpHdr} (hpt : h.pt < 0x80) (payload : Bytes)
    : rtpFields (rtpSendOne h payload) = h := by
  have hbits := pt_marker ⟨h.pt.toNat, hpt⟩ h.marker
  have hseq := h.seq.toNat_lt
  have hts := h.timestamp.toNat_lt
  have hssrc := h.ssrc.toNat_lt
  rw [UInt8.ofNat_toNat] at hbits
  have hseqAt : ∀ rest, (beBytes h.seq.toNat 2 ++ rest).take 2 = beBytes h.seq.toNat 2 :=
    fun rest => List.take_left' (length_beBytes _ _)
  have htsAt : ∀ rest, (beBytes h.timestamp.toNat 4 ++ rest).take 4 = beBytes h.timestamp.toNat 4 :=
    fun rest => List.take_left' (length_beBytes _ _)
  have hssrcAt : ∀ rest, (beBytes h.ssrc.toNat 4 ++ rest).take 4 = beBytes h.ssrc.toNat 4 :=
    fun rest => List.take_left' (length_beBytes _ _)
  have hpastSeq : ∀ rest, (beBytes h.seq.toNat 2 ++ rest).drop 2 = rest :=
    fun rest => List.drop_left' (length_beBytes _ _)
  have hpastTs : ∀ rest,
      (beBytes h.seq.toNat 2 ++ (beBytes h.timestamp.toNat 4 ++ rest)).drop 6 = rest := by
    intro rest
    rw [← List.append_assoc]
    apply List.drop_left'
    rw [List.length_append, length_beBytes, length_beBytes]
  rw [rtpSendOne_eq]
  unfold rtpFields beField
  simp only [List.getD_cons_succ, List.getD_cons_zero, List.drop_succ_cons, List.drop_zero]
  rw [hseqAt, hpastSeq, htsAt, hpastTs, hssrcAt, beNat_beBytes, beNat_beBytes, beNat_beBytes,
    Nat.mod_eq_of_lt (by omega), Nat.mod_eq_of_lt (by omega), Nat.mod_eq_of_lt (by omega),
    UInt16.ofNat_toNat, UInt32.ofNat_toNat, UInt32.ofNat_toNat, hbits.1, hbits.2]

-- Every packet that is sent is taken apart again.
theorem rtpUnpack_rtpSendOne {h : RtpHdr} (hpt : h.pt < 0x80) (payload : Bytes)
    : rtpUnpack (rtpSendOne h payload) = some (h, payload) := by
  have hfields := rtpFields_rtpSendOne hpt payload
  have hbytes := rtpSendOne_eq h payload
  have hlen : (rtpSendOne h payload).length = 12 + payload.length := by
    rw [hbytes]
    simp only [List.length_cons, List.length_append, length_beBytes]
    omega
  have hfirst : (rtpSendOne h payload).getD 0 0 = 0x80 := by
    rw [hbytes]
    rfl
  have hoff : rtpHdrBytes + ((0x80 : UInt8) &&& 0x0f).toNat * 4 = 12 := by decide
  have hdrop : (rtpSendOne h payload).drop 12 = payload := by
    have hsplit : ∀ m, rtpSendOne h m = rtpSendOne h [] ++ m := by
      intro m
      simp [rtpSendOne]
    rw [hsplit]
    apply List.drop_left'
    rw [rtpSendOne_eq]
    simp only [List.length_cons, List.length_append, length_beBytes, List.length_nil]
  unfold rtpUnpack
  simp only [hfirst, hfields, hoff, hdrop, hlen]
  rw [if_neg (by simp [rtpHdrBytes]), if_neg (by decide), if_neg (by omega), if_neg (by decide)]

-- The columns of group `g`, from column `8 * g` on.
def groupCnt (S g : Nat) : Nat :=
  if S - rtpMaxGroupSlots * g > rtpMaxGroupSlots then rtpMaxGroupSlots else S - rtpMaxGroupSlots * g

def groupCount (S : Nat) : Nat :=
  (S + rtpMaxGroupSlots - 1) / rtpMaxGroupSlots

theorem lt_groupCount {S g : Nat} : g < groupCount S ↔ rtpMaxGroupSlots * g < S := by
  unfold groupCount rtpMaxGroupSlots
  omega

theorem groupCnt_fits {S g : Nat} (hg : rtpMaxGroupSlots * g < S)
    : 0 < groupCnt S g ∧ rtpMaxGroupSlots * g + groupCnt S g ≤ S := by
  unfold groupCnt
  split <;> unfold rtpMaxGroupSlots at * <;> omega

-- A column is in the group of its number over eight.
theorem mem_group {S g x : Nat} (hx : x < S)
    : (rtpMaxGroupSlots * g ≤ x ∧ x < rtpMaxGroupSlots * g + groupCnt S g)
        ↔ x / rtpMaxGroupSlots = g := by
  unfold groupCnt
  split <;> unfold rtpMaxGroupSlots at * <;> omega

namespace WideFrame

variable (f : WideFrame) (seq : UInt16) (ssrc : UInt32)

def timestamp : UInt32 :=
  f.msc.toUInt32

def groupHdr (g : Nat) : RtpHdr :=
  ⟨rtpPtGroup, false, seq + UInt16.ofNat g, f.timestamp, ssrc⟩

def groupBody (g : Nat) : Bytes :=
  (gather f.ns (groupCnt f.slots g) fun s c =>
    f.samples.getD (s * f.slots + rtpMaxGroupSlots * g + c) 0).flatMap floatBytes

def groupPacket (g : Nat) : Bytes :=
  rtpSendOne (f.groupHdr seq ssrc g)
    (groupPayload f.samples f.slots f.ns (rtpMaxGroupSlots * g) (groupCnt f.slots g))

def packets : List Bytes :=
  (List.range (groupCount f.slots)).map (f.groupPacket seq ssrc)

end WideFrame

theorem emitGroups_from (f : WideFrame) (seq : UInt16) (ssrc : UInt32) (slots : UInt8) (n g : Nat)
    (hn : groupCount f.slots = g + n)
    : (emitGroups ⟨true, slots, seq + UInt16.ofNat g, ssrc⟩ f.samples f.slots f.ns f.msc
          (rtpMaxGroupSlots * g)).2
        = (List.range' g n).map (f.groupPacket seq ssrc) := by
  induction n generalizing g with
  | zero =>
    have hend : ¬rtpMaxGroupSlots * g < f.slots := by
      rw [← lt_groupCount]
      omega
    unfold emitGroups
    rw [if_neg hend]
    rfl
  | succ n ih =>
    have hin : rtpMaxGroupSlots * g < f.slots := by
      rw [← lt_groupCount]
      omega
    have hnext := ih (g + 1) (by omega)
    have hseq : seq + UInt16.ofNat g + 1 = seq + UInt16.ofNat (g + 1) := by
      rw [UInt16.ofNat_add, UInt16.add_assoc]
      rfl
    have hoff : rtpMaxGroupSlots * g + rtpMaxGroupSlots = rtpMaxGroupSlots * (g + 1) := rfl
    unfold emitGroups
    rw [if_pos hin]
    simp only [hseq, hoff, hnext]
    rw [List.range'_succ, List.map_cons]
    rfl

theorem audioRtpEmit_packets (f : WideFrame) (seq : UInt16) (ssrc : UInt32)
    : (audioRtpEmit ⟨true, UInt8.ofNat f.slots, seq, ssrc⟩ f.samples (f.ns * f.slots * 4) f.msc).2
        = f.packets seq ssrc := by
  have hslots := f.slots_range
  have hwide : (UInt8.ofNat f.slots).toNat = f.slots := by
    rw [UInt8.toNat_ofNat']
    omega
  have hne : UInt8.ofNat f.slots ≠ 0 := by
    intro hzero
    rw [hzero] at hwide
    simp at hwide
    omega
  have hns : f.ns * f.slots * 4 / (f.slots * 4) = f.ns := by
    rw [Nat.mul_assoc]
    apply Nat.mul_div_cancel
    omega
  have hall := emitGroups_from f seq ssrc (UInt8.ofNat f.slots) (groupCount f.slots) 0 (by omega)
  unfold audioRtpEmit
  simp only [if_true, if_pos hne, hwide, hns]
  rw [if_pos (by unfold rtpMaxGroupSlots; omega)]
  have hzero : seq + UInt16.ofNat 0 = seq := UInt16.add_zero seq
  rw [hzero] at hall
  rw [WideFrame.packets, List.range_eq_range']
  exact hall

section Group

variable {f : WideFrame} {g : Nat}

theorem length_groupBody (f : WideFrame) (g : Nat)
    : (f.groupBody g).length = 4 * (f.ns * groupCnt f.slots g) := by
  rw [WideFrame.groupBody, length_flatMap_floatBytes, length_gather]

-- A cell of the group is the sample of its place in the frame.
theorem floatAt_groupBody {s c : Nat} (hs : s < f.ns) (hc : c < groupCnt f.slots g)
    : floatAt (f.groupBody g) (s * groupCnt f.slots g + c)
        = f.samples.getD (s * f.slots + rtpMaxGroupSlots * g + c) 0 := by
  apply floatAt_flatMap
  apply getElem?_gather _ hs hc

theorem groupPacket_inj {seq : UInt16} {ssrc : UInt32} {g' : Nat}
    (hg : rtpMaxGroupSlots * g < f.slots) (hg' : rtpMaxGroupSlots * g' < f.slots)
    (h : f.groupPacket seq ssrc g = f.groupPacket seq ssrc g') : g = g' := by
  have hslots := f.slots_range
  have hpt : ∀ g, (f.groupHdr seq ssrc g).pt < 0x80 := fun _ => by
    show rtpPtGroup < 0x80
    decide
  have hsame := congrArg rtpUnpack h
  unfold WideFrame.groupPacket at hsame
  rw [rtpUnpack_rtpSendOne (hpt g), rtpUnpack_rtpSendOne (hpt g'), Option.some.injEq,
    Prod.mk.injEq] at hsame
  have hoff : UInt8.ofNat (rtpMaxGroupSlots * g) = UInt8.ofNat (rtpMaxGroupSlots * g') :=
    (List.cons.inj hsame.2).1
  have hnat := congrArg UInt8.toNat hoff
  rw [UInt8.toNat_ofNat', UInt8.toNat_ofNat'] at hnat
  unfold rtpMaxGroupSlots at *
  omega

namespace RtpRx

-- What the receiver makes of one packet of a wide frame.
theorem recvAudio_groupPacket (s : RtpRx) (seq : UInt16) (ssrc : UInt32) (maxFloats : Nat)
    (hg : rtpMaxGroupSlots * g < f.slots)
    : s.recvAudio maxFloats (f.groupPacket seq ssrc g)
        = (let r := (s.countLoss (seq + UInt16.ofNat g)).flush f.timestamp maxFloats
          ((r.1.openFrame f.timestamp f.slots f.ns).putGroup (f.groupBody g) (rtpMaxGroupSlots * g)
            (groupCnt f.slots g) f.slots f.ns, r.2)) := by
  have hslots := f.slots_range
  have hns := f.ns_range
  have hcnt := groupCnt_fits hg
  have hlen := length_groupBody f g
  have hpt : (f.groupHdr seq ssrc g).pt < 0x80 := by
    show rtpPtGroup < 0x80
    decide
  have hoff8 : (UInt8.ofNat (rtpMaxGroupSlots * g)).toNat = rtpMaxGroupSlots * g := by
    rw [UInt8.toNat_ofNat']
    omega
  have hcnt8 : (UInt8.ofNat (groupCnt f.slots g)).toNat = groupCnt f.slots g := by
    rw [UInt8.toNat_ofNat']
    omega
  have hslots8 : (UInt8.ofNat f.slots).toNat = f.slots := by
    rw [UInt8.toNat_ofNat']
    omega
  have hrows : 4 * (f.ns * groupCnt f.slots g) / 4 / groupCnt f.slots g = f.ns := by
    rw [Nat.mul_div_cancel_left _ (by omega), Nat.mul_div_cancel _ hcnt.1]
  have hpayload : groupPayload f.samples f.slots f.ns (rtpMaxGroupSlots * g) (groupCnt f.slots g)
      = UInt8.ofNat (rtpMaxGroupSlots * g) :: UInt8.ofNat (groupCnt f.slots g)
        :: UInt8.ofNat f.slots :: 0 :: f.groupBody g := rfl
  unfold recvAudio WideFrame.groupPacket
  rw [rtpUnpack_rtpSendOne hpt, hpayload]
  simp only [WideFrame.groupHdr, if_true]
  unfold reassembleGroup
  rw [if_neg (by simp [rtpGroupHdrBytes])]
  simp only [List.getD_cons_zero, List.getD_cons_succ, rtpGroupHdrBytes, List.drop_succ_cons,
    List.drop_zero, hoff8, hcnt8, hslots8, hlen, hrows]
  rw [if_neg (by unfold kReasmSlots; omega), if_neg (by unfold kReasmNs; omega)]

end RtpRx

end Group

-- The samples of the groups in `gs`.
def WideFrame.audio (f : WideFrame) (gs : List Nat) : AudioIn :=
  ⟨(List.range (f.ns * f.slots)).map fun i =>
    if i % f.slots / rtpMaxGroupSlots ∈ gs then f.samples.getD i 0 else 0, some f.timestamp⟩

namespace RtpRx

-- The receiver has the groups `gs` of the frame in hand.
structure Holds (s : RtpRx) (f : WideFrame) (gs : List Nat) : Prop where
  valid : s.reasmValid = true
  ts : s.reasmTs = f.timestamp
  total : s.reasmTotal = f.slots
  ns : s.reasmNs = f.ns
  cells : ∀ i < f.ns * f.slots,
    s.reasm i = if i % f.slots / rtpMaxGroupSlots ∈ gs then f.samples.getD i 0 else 0

theorem reasmValid_countLoss (s : RtpRx) (seq : UInt16)
    : (s.countLoss seq).reasmValid = s.reasmValid := by
  unfold countLoss
  split <;> rfl

theorem holds_openFrame {s : RtpRx} (h : s.reasmValid = false) (f : WideFrame)
    : (s.openFrame f.timestamp f.slots f.ns).Holds f [] := by
  unfold openFrame
  rw [if_neg (by simp [h])]
  refine ⟨rfl, rfl, rfl, rfl, ?_⟩
  intro i _
  simp

namespace Holds

variable {s : RtpRx} {f : WideFrame} {gs : List Nat}

theorem countLoss (h : s.Holds f gs) (seq : UInt16) : (s.countLoss seq).Holds f gs := by
  unfold RtpRx.countLoss
  split <;> exact ⟨h.valid, h.ts, h.total, h.ns, h.cells⟩

theorem openFrame (h : s.Holds f gs) (timestamp : UInt32) (total ns : Nat)
    : s.openFrame timestamp total ns = s := by
  unfold RtpRx.openFrame
  rw [if_pos h.valid]

theorem putGroup (h : s.Holds f gs) {g : Nat} (hg : rtpMaxGroupSlots * g < f.slots)
    : (s.putGroup (f.groupBody g) (rtpMaxGroupSlots * g) (groupCnt f.slots g) f.slots f.ns).Holds f
        (g :: gs) := by
  have hslots := f.slots_range
  have hcnt := groupCnt_fits hg
  unfold RtpRx.putGroup
  rw [if_pos ⟨h.total.symm, h.ns.symm⟩]
  refine ⟨h.valid, h.ts, h.total, h.ns, ?_⟩
  intro i hi
  have hmod : i % f.slots < f.slots := Nat.mod_lt _ (by omega)
  have hdiv : i / f.slots < f.ns := Nat.div_lt_of_lt_mul (by rw [Nat.mul_comm]; exact hi)
  have hpos := Nat.div_add_mod i f.slots
  have hgroup := mem_group (g := g) hmod
  show scatter f.ns (groupCnt f.slots g) f.slots (rtpMaxGroupSlots * g) _ s.reasm i = _
  rw [scatter_apply hcnt.2]
  split
  next hin =>
    have hat := hgroup.mp hin.2
    rw [if_pos (by rw [hat]; apply List.mem_cons_self), floatAt_groupBody hdiv (by omega)]
    congr 1
    rw [Nat.mul_comm] at hpos
    omega
  next hout =>
    have hne : i % f.slots / rtpMaxGroupSlots ≠ g := by
      intro hat
      exact hout ⟨hdiv, hgroup.mpr hat⟩
    rw [h.cells i hi]
    simp only [List.mem_cons, hne, false_or]

theorem flush_same (h : s.Holds f gs) (maxFloats : Nat)
    : s.flush f.timestamp maxFloats = (s, ⟨[], none⟩) := by
  unfold RtpRx.flush
  rw [if_neg (by simp [h.ts])]

-- A group of another frame takes the frame out.
theorem flush_other (h : s.Holds f gs) {timestamp : UInt32} (hts : f.timestamp ≠ timestamp)
    : s.flush timestamp kRtpBufFloats = ({ s with reasmValid := false }, f.audio gs) := by
  have hfits : f.ns * f.slots ≤ kRtpBufFloats :=
    Nat.mul_le_mul f.ns_range.2 f.slots_range.2
  have hne : timestamp ≠ f.timestamp := fun heq => hts heq.symm
  have hcells : (List.range (f.ns * f.slots)).map s.reasm = (f.audio gs).floats := by
    apply List.map_congr_left
    intro i hi
    exact h.cells i (List.mem_range.mp hi)
  unfold RtpRx.flush
  rw [if_pos (by simp [h.valid, h.ts, hne]), h.ns, h.total]
  simp only [if_neg (Nat.not_lt.mpr hfits), hcells, h.ts]
  rfl

end Holds

theorem flush_invalid {s : RtpRx} (h : s.reasmValid = false) (timestamp : UInt32) (maxFloats : Nat)
    : s.flush timestamp maxFloats = (s, ⟨[], none⟩) := by
  unfold flush
  rw [if_neg (by simp [h])]

section Steps

variable {s : RtpRx} {f : WideFrame} {g : Nat} (seq : UInt16) (ssrc : UInt32)
  (hg : rtpMaxGroupSlots * g < f.slots)

include hg

theorem recvAudio_same {gs : List Nat} (h : s.Holds f gs)
    : ∃ s', s.recvAudio kRtpBufFloats (f.groupPacket seq ssrc g) = (s', ⟨[], none⟩)
        ∧ s'.Holds f (g :: gs) := by
  have hloss := h.countLoss (seq + UInt16.ofNat g)
  refine ⟨_, ?_, hloss.putGroup hg⟩
  rw [recvAudio_groupPacket s seq ssrc _ hg, hloss.flush_same]
  simp only [hloss.openFrame]

theorem recvAudio_first (h : s.reasmValid = false)
    : ∃ s', s.recvAudio kRtpBufFloats (f.groupPacket seq ssrc g) = (s', ⟨[], none⟩)
        ∧ s'.Holds f [g] := by
  have hloss : (s.countLoss (seq + UInt16.ofNat g)).reasmValid = false := by
    rw [reasmValid_countLoss, h]
  refine ⟨_, ?_, (holds_openFrame hloss f).putGroup hg⟩
  rw [recvAudio_groupPacket s seq ssrc _ hg, flush_invalid hloss]

theorem recvAudio_next {f' : WideFrame} {gs : List Nat} (h : s.Holds f' gs)
    (hts : f'.timestamp ≠ f.timestamp)
    : ∃ s', s.recvAudio kRtpBufFloats (f.groupPacket seq ssrc g) = (s', f'.audio gs)
        ∧ s'.Holds f [g] := by
  have hloss := h.countLoss (seq + UInt16.ofNat g)
  have hclosed : ({ s.countLoss (seq + UInt16.ofNat g) with reasmValid := false } : RtpRx).reasmValid
      = false := rfl
  refine ⟨_, ?_, (holds_openFrame hclosed f).putGroup hg⟩
  rw [recvAudio_groupPacket s seq ssrc _ hg, hloss.flush_other hts]

end Steps

theorem returned_silent {s s' : RtpRx} {pkt : Bytes} {pkts : List Bytes}
    (h : s.recvAudio kRtpBufFloats pkt = (s', ⟨[], none⟩))
    : s.returned kRtpBufFloats (pkt :: pkts) = s'.returned kRtpBufFloats pkts := by
  rw [returned, h]
  rfl

theorem returned_audio {s s' : RtpRx} {pkt : Bytes} {pkts : List Bytes} {f : WideFrame}
    {gs : List Nat} (h : s.recvAudio kRtpBufFloats pkt = (s', f.audio gs))
    : s.returned kRtpBufFloats (pkt :: pkts)
        = f.audio gs :: s'.returned kRtpBufFloats pkts := by
  have hslots := f.slots_range
  have hpos : 0 < f.ns * f.slots := Nat.mul_pos f.ns_range.1 (by omega)
  have hne : (f.audio gs).floats.isEmpty = false := by
    rw [WideFrame.audio, List.isEmpty_map, List.isEmpty_eq_false_iff]
    intro hnil
    rw [List.range_eq_nil] at hnil
    omega
  rw [returned, h]
  simp only [hne]
  rfl

-- The rest of a frame's packets only fill in its groups.
theorem returned_groups {f : WideFrame} (seq : UInt16) (ssrc : UInt32) (rest : List Bytes)
    (gs : List Nat) (hgs : ∀ g ∈ gs, rtpMaxGroupSlots * g < f.slots) {s : RtpRx} {gs' : List Nat}
    (h : s.Holds f gs')
    : ∃ (s' : RtpRx) (held : List Nat), s'.Holds f held ∧ (∀ g, g ∈ held ↔ g ∈ gs ∨ g ∈ gs')
        ∧ s.returned kRtpBufFloats (gs.map (f.groupPacket seq ssrc) ++ rest)
          = s'.returned kRtpBufFloats rest := by
  induction gs generalizing s gs' with
  | nil => exact ⟨s, gs', h, by simp, rfl⟩
  | cons g gs ih =>
    rcases recvAudio_same seq ssrc (hgs g List.mem_cons_self) h with ⟨s₁, hrecv, hs₁⟩
    rcases ih (fun g' hg' => hgs g' (List.mem_cons_of_mem g hg')) hs₁ with
      ⟨s', held, hs', hheld, hreturned⟩
    refine ⟨s', held, hs', ?_, ?_⟩
    . intro x
      rw [hheld x, List.mem_cons, List.mem_cons]
      tauto
    . rw [List.map_cons, List.cons_append, returned_silent hrecv, hreturned]

-- The frame in hand is the one delivered last, if any has been.
def Waiting (s : RtpRx) : Option Delivery → Prop
  | none => s.reasmValid = false
  | some d => ∃ gs, s.Holds d.frame gs ∧ d.frame.audio gs = d.audio

theorem returned_frame {f : WideFrame} (seq : UInt16) (ssrc : UInt32) (rest : List Bytes) {g : Nat}
    {gs : List Nat} (hgs : ∀ x ∈ g :: gs, rtpMaxGroupSlots * x < f.slots) {s : RtpRx}
    {before : Option Delivery} (h : s.Waiting before)
    (hts : ∀ d ∈ before, d.timestamp ≠ f.timestamp)
    : ∃ (s' : RtpRx) (held : List Nat), s'.Holds f held ∧ (∀ x, x ∈ held ↔ x ∈ g :: gs)
        ∧ s.returned kRtpBufFloats ((g :: gs).map (f.groupPacket seq ssrc) ++ rest)
          = before.toList.map (·.audio) ++ s'.returned kRtpBufFloats rest := by
  have hg := hgs g List.mem_cons_self
  have hfirst : ∃ s₁ : RtpRx, s₁.Holds f [g] ∧ ∀ pkts,
      s.returned kRtpBufFloats (f.groupPacket seq ssrc g :: pkts)
        = before.toList.map (·.audio) ++ s₁.returned kRtpBufFloats pkts := by
    cases before with
    | none =>
      rcases recvAudio_first seq ssrc hg h with ⟨s₁, hrecv, hs₁⟩
      exact ⟨s₁, hs₁, fun pkts => returned_silent hrecv⟩
    | some d =>
      rcases h with ⟨heldBefore, hs, haudio⟩
      rcases recvAudio_next seq ssrc hg hs (hts d rfl) with ⟨s₁, hrecv, hs₁⟩
      refine ⟨s₁, hs₁, fun pkts => ?_⟩
      rw [returned_audio hrecv, haudio]
      rfl
  rcases hfirst with ⟨s₁, hs₁, hreturned₁⟩
  rcases returned_groups seq ssrc rest gs (fun x hx => hgs x (List.mem_cons_of_mem g hx)) hs₁ with
    ⟨s', held, hs', hheld, hreturned⟩
  refine ⟨s', held, hs', ?_, ?_⟩
  . intro x
    rw [hheld x, List.mem_singleton, List.mem_cons, or_comm]
  . rw [List.map_cons, List.cons_append, hreturned₁, hreturned]

end RtpRx

-- Packets of the frame are packets of some of its groups.
theorem exists_groups {f : WideFrame} {seq : UInt16} {ssrc : UInt32} {pkts : List Bytes}
    (h : pkts ⊆ f.packets seq ssrc)
    : ∃ gs : List Nat, pkts = gs.map (f.groupPacket seq ssrc)
        ∧ ∀ g ∈ gs, rtpMaxGroupSlots * g < f.slots := by
  induction pkts with
  | nil => exact ⟨[], rfl, by simp⟩
  | cons pkt pkts ih =>
    rcases ih (fun x hx => h (List.mem_cons_of_mem pkt hx)) with ⟨gs, rfl, hgs⟩
    rcases List.mem_map.mp (h List.mem_cons_self) with ⟨g, hg, rfl⟩
    refine ⟨g :: gs, rfl, ?_⟩
    intro x hx
    rcases List.mem_cons.mp hx with rfl | hx
    . exact lt_groupCount.mp (List.mem_range.mp hg)
    . exact hgs x hx

-- The groups that are there are those whose packets arrived.
theorem audio_of_groups {d : Delivery} {seq : UInt16} {ssrc : UInt32} {gs held : List Nat}
    (hsent : d.sent = d.frame.packets seq ssrc)
    (harrived : d.arrived = gs.map (d.frame.groupPacket seq ssrc))
    (hgs : ∀ g ∈ gs, rtpMaxGroupSlots * g < d.frame.slots) (hheld : ∀ g, g ∈ held ↔ g ∈ gs)
    : d.frame.audio held = d.audio := by
  have hslots := d.frame.slots_range
  unfold WideFrame.audio Delivery.audio Delivery.heard
  congr 1
  apply List.map_congr_left
  intro i _
  have hmod : i % d.frame.slots < d.frame.slots := Nat.mod_lt _ (by omega)
  have hgroup : rtpMaxGroupSlots * (i % d.frame.slots / rtpMaxGroupSlots) < d.frame.slots := by
    unfold rtpMaxGroupSlots
    omega
  generalize i % d.frame.slots / rtpMaxGroupSlots = g at hgroup
  have hpkt : d.sent.getD g [] = d.frame.groupPacket seq ssrc g := by
    rw [hsent, WideFrame.packets, List.getD_eq_getElem?_getD, List.getElem?_map,
      List.getElem?_range (lt_groupCount.mpr hgroup)]
    rfl
  have hmem : d.sent.getD g [] ∈ d.arrived ↔ g ∈ held := by
    rw [hpkt, harrived, hheld, List.mem_map]
    constructor
    . rintro ⟨x, hx, hsame⟩
      rw [← groupPacket_inj (hgs x hx) hgroup hsame]
      exact hx
    . intro hg
      exact ⟨g, hg, rfl⟩
  simp only [hmem]

namespace RtpRx

theorem returned_deliveries {ssrc : UInt32} (ds : List Delivery) {seq : UInt16} {s : RtpRx}
    {before : Option Delivery} (hs : s.Waiting before)
    (hsent : ds.map (·.sent) = emitFrames seq ssrc (ds.map (·.frame)))
    (harrived : ∀ d ∈ ds, d.arrived ⊆ d.sent)
    (hts : (before.toList ++ ds.filter (·.isHeard)).IsChain fun d d' => d.timestamp ≠ d'.timestamp)
    : s.returned kRtpBufFloats (ds.flatMap (·.arrived))
        = (before.toList ++ ds.filter (·.isHeard)).dropLast.map (·.audio) := by
  induction ds generalizing seq s before with
  | nil =>
    cases before with
    | none => rfl
    | some d => rfl
  | cons d ds ih =>
    rw [List.map_cons, List.map_cons, emitFrames, List.cons.injEq, audioRtpEmit_packets] at hsent
    have hrest : ∀ d' ∈ ds, d'.arrived ⊆ d'.sent :=
      fun d' hd' => harrived d' (List.mem_cons_of_mem d hd')
    have hmine := harrived d List.mem_cons_self
    rw [hsent.1] at hmine
    rcases exists_groups hmine with ⟨gs, hpkts, hgs⟩
    rw [List.flatMap_cons]
    cases gs with
    | nil =>
      have hlost : d.isHeard = false := by simp [Delivery.isHeard, hpkts]
      rw [List.filter_cons_of_neg (by simp [hlost])] at hts ⊢
      rw [hpkts]
      exact ih hs hsent.2 hrest hts
    | cons g gs =>
      have hheard : d.isHeard = true := by simp [Delivery.isHeard, hpkts]
      rw [List.filter_cons_of_pos hheard] at hts ⊢
      have hbefore : ∀ d' ∈ before, d'.timestamp ≠ d.frame.timestamp := by
        intro d' hd'
        rw [Option.mem_def.mp hd'] at hts
        exact (List.isChain_cons_cons.mp hts).1
      have hchain : (d :: ds.filter (·.isHeard)).IsChain fun d d' => d.timestamp ≠ d'.timestamp := by
        cases before with
        | none => exact hts
        | some d' => exact (List.isChain_cons_cons.mp hts).2
      rcases returned_frame seq ssrc (ds.flatMap (·.arrived)) hgs hs hbefore with
        ⟨s', held, hs', hheld, hreturned⟩
      have hnext : s'.Waiting (some d) := ⟨held, hs', audio_of_groups hsent.1 hpkts hgs hheld⟩
      have htail := ih hnext hsent.2 hrest hchain
      rw [hpkts, hreturned, htail, List.dropLast_append_cons, List.map_append]
      rfl

end RtpRx

-- Some of the packets of each frame arrive, before those of the next frame, in any order.
theorem wideFrames_returned {seq : UInt16} {ssrc : UInt32} {ds : List Delivery}
    (hsent : ds.map (·.sent) = emitFrames seq ssrc (ds.map (·.frame)))
    (harrived : ∀ d ∈ ds, d.arrived ⊆ d.sent)
    (hts : (ds.filter (·.isHeard)).IsChain fun d d' => d.timestamp ≠ d'.timestamp)
    : RtpRx.fresh.returned kRtpBufFloats (ds.flatMap (·.arrived))
        = (ds.filter (·.isHeard)).dropLast.map (·.audio) := by
  have hfresh : RtpRx.fresh.Waiting none := rfl
  exact RtpRx.returned_deliveries ds hfresh hsent harrived hts

-- One row of nine slots: a group of eight and a group of one.
def nineSlots (msc : UInt64) : WideFrame where
  slots := 9
  ns := 1
  msc
  samples := [10, 11, 12, 13, 14, 15, 16, 17, 18]
  slots_range := by decide
  ns_range := by decide
  length_samples := rfl

-- The first frame loses its first group, the second both, and those of the third change places.
def lossyDeliveries : List Delivery :=
  let frames := [nineSlots 0, nineSlots 1, nineSlots 2]
  let sent := emitFrames 65535 7 frames
  [⟨nineSlots 0, sent.getD 0 [], (sent.getD 0 []).drop 1⟩, ⟨nineSlots 1, sent.getD 1 [], []⟩,
    ⟨nineSlots 2, sent.getD 2 [], (sent.getD 2 []).reverse⟩]

theorem wideFrames_returned_lossy
    : RtpRx.fresh.returned kRtpBufFloats (lossyDeliveries.flatMap (·.arrived))
        = [⟨[0, 0, 0, 0, 0, 0, 0, 0, 18], some 0⟩] := by
  have hsent : lossyDeliveries.map (·.sent)
      = emitFrames 65535 7 (lossyDeliveries.map (·.frame)) := by
    decide +kernel
  have hreturned := wideFrames_returned hsent (by decide +kernel) (by decide +kernel)
  rw [hreturned]
  decide +kernel

end Harp
