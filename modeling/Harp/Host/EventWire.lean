import Harp.Core.CborValue
import Harp.Device.ParamsCodec
import Harp.Device.UnitRange
import Harp.Host.EventManager

/-!
This module contains what the device of `device/session.c` reads in the messages that
`shell/runtime_events.cpp` writes: every event the shell queues comes out as the same event.
-/

namespace Harp

open Ieee

section Host

-- The words of `shell/ump.h`.
def umpNoteOn (note vel channel : UInt32) : UInt32 :=
  (0x20900000 : UInt32) ||| ((channel &&& 0xf) <<< 16) ||| ((note &&& 0x7f) <<< 8) ||| (vel &&& 0x7f)

def umpNoteOff (note channel : UInt32) : UInt32 :=
  (0x20800000 : UInt32) ||| ((channel &&& 0xf) <<< 16) ||| ((note &&& 0x7f) <<< 8) ||| 0x40

inductive HostEvent where
  | noteOn (note vel channel : UInt32) (ts : UInt64)
  | noteOff (note channel : UInt32) (ts : UInt64)
  | allNotesOff (ts : UInt64)
  | paramSet (id : UInt32) (v : F32) (ts : UInt64) (channel : Fin 16)
  | ramp (id : UInt32) (target : F32) (start end_ : UInt64) (channel : Fin 16)
  | mod (id : UInt32) (offset : F32) (voice : UInt32) (ts : UInt64) (srcChan : Fin 16)
  | transport (flags : UInt32) (tempo ppq : F64) (ts : UInt64)
deriving DecidableEq, Repr

-- What the queue functions push.
def HostEvent.timed (tag : UInt32) : HostEvent → TimedEv
  | .noteOn note vel channel ts => ⟨.ump, umpNoteOn note vel channel, Fp.of false 0 0, ts, 0, 0, tag⟩
  | .noteOff note channel ts => ⟨.ump, umpNoteOff note channel, Fp.of false 0 0, ts, 0, 0, tag⟩
  | .allNotesOff ts => ⟨.ump, umpAllNotesOff, Fp.of false 0 0, ts, 0, 0, tag⟩
  | .paramSet id v ts channel => ⟨.param, id, v, ts, 0, channel, tag⟩
  | .ramp id target start end_ channel => ⟨.ramp, id, target, start, end_, channel, tag⟩
  | .mod id offset voice ts srcChan => ⟨.mod, id, offset, ts, voice.toUInt64, srcChan, tag⟩
  | .transport flags tempo ppq ts =>
    ⟨.transport, flags, narrow tempo, ts, UInt64.ofNat ppq.toBits, 0, tag⟩

-- The values that are numbers; the transport's tempo goes through a single.
def HostEvent.Numeric : HostEvent → Prop
  | .paramSet _ v _ _ => v.isNaN = false
  | .ramp _ target _ _ _ => target.isNaN = false
  | .mod _ offset _ _ _ => offset.isNaN = false
  | .transport _ tempo ppq _ => tempo.isNaN = false ∧ ppq.isNaN = false
  | _ => True

-- The part of a mod: the channel its voice was minted under, the source's own for all voices.
def modPart (voice : UInt32) (srcChan : Fin 16) : Nat :=
  if voice = 0 then srcChan else voice.toNat / 2 ^ 8 % 16

-- The event as the device should have it; a note-on without velocity is a note-off.
def HostEvent.event : HostEvent → DevEvent
  | .noteOn note vel channel ts =>
    if vel.toNat % 128 = 0 then
      ⟨ts.toNat, .noteOff, note.toNat % 128, Fp.of false 0 0, 0, Fp.of false 0 0,
        channel.toNat % 16, 0⟩
    else
      ⟨ts.toNat, .noteOn, note.toNat % 128, velocity (vel.toNat % 128), 0, Fp.of false 0 0,
        channel.toNat % 16, 0⟩
  | .noteOff note channel ts =>
    ⟨ts.toNat, .noteOff, note.toNat % 128, Fp.of false 0 0, 0, Fp.of false 0 0,
      channel.toNat % 16, 0⟩
  | .allNotesOff ts => ⟨ts.toNat, .allOff, 123, Fp.of false 0 0, 0, Fp.of false 0 0, 0, 0⟩
  | .paramSet id v ts channel =>
    ⟨ts.toNat, .paramSet, id.toNat, clampUnit v, 0, Fp.of false 0 0, channel, 0⟩
  | .ramp id target start end_ channel =>
    ⟨start.toNat, .ramp, id.toNat, clampUnit target, end_.toNat, Fp.of false 0 0, channel, 0⟩
  | .mod id offset voice ts srcChan =>
    ⟨ts.toNat, .mod, id.toNat, offset, 0, Fp.of false 0 0, modPart voice srcChan, voice.toNat⟩
  | .transport flags tempo ppq ts =>
    ⟨ts.toNat, .transport, flags.toNat, narrow tempo, 0, ppq, 0, 0⟩

-- How the device takes it; no event of the shell is in a transaction.
def HostEvent.msg (e : HostEvent) : EvtMsg :=
  match e with
  | .noteOn .. | .noteOff .. | .allNotesOff .. => .note e.event
  | .transport .. => .transport e.event
  | .paramSet .. | .ramp .. => .submit 0 e.event true
  | .mod .. => .submit 0 e.event false

end Host

section Fields

variable {b : EvtBody} {hasEnd : Bool} {n : Nat} {v : F64} {v' : F32} {rest : Bytes}

theorem canon64_of_number (h : v.isNaN = false) : canon64 v = v := by
  unfold canon64
  rw [h, if_neg Bool.false_ne_true]

theorem tstamp_bytes (hn : n < 2 ^ 64) (rest : Bytes)
    : tstamp ⟨cborArray 2 ++ (cborUint 0 ++ (cborUint n ++ rest)), false⟩
        = (some (0, n), ⟨rest, false⟩) := by
  have hlen : 2 ≤ (cborUint 0 ++ (cborUint n ++ rest)).length := by
    have := length_cborUint_pos 0
    have := length_cborUint_pos n
    simp only [List.length_append]
    omega
  unfold tstamp
  rw [Dec.bind_eq, Dec.bind_of_some (cdecArray_cborArray _ (by omega) hlen)]
  simp only [ne_eq, not_true_eq_false, if_false]
  rw [Dec.bind_eq, Dec.bind_of_some (cdecUint_cborUint _ (by omega))]
  rw [Dec.bind_eq, Dec.bind_of_some (cdecUint_cborUint _ hn)]
  rfl

theorem evtHead_bytes (ts : UInt64) {etype : Nat} (hetype : etype < 2 ^ 64) (rest : Bytes)
    : evtHead ⟨evtHeadBytes ts etype ++ rest, false⟩
        = (some (0, ts.toNat, etype), ⟨rest, false⟩) := by
  have hts := ts.toNat_lt
  have hlen : 3 ≤ (cborArray 2 ++ (cborUint 0 ++ (cborUint ts.toNat ++ (cborUint etype ++ rest)))).length := by
    have := length_cborUint_pos 0
    have := length_cborUint_pos ts.toNat
    have := length_cborUint_pos etype
    simp only [List.length_append]
    omega
  unfold evtHead evtHeadBytes
  simp only [List.append_assoc]
  rw [Dec.bind_eq, Dec.bind_of_some (cdecArray_cborArray _ (by omega) hlen)]
  simp only [Nat.lt_irrefl, if_false]
  rw [Dec.bind_eq, Dec.bind_of_some (tstamp_bytes (by omega) _)]
  dsimp only
  rw [Dec.bind_eq, Dec.bind_of_some (cdecUint_cborUint _ hetype)]
  rfl

theorem evtField_id (hn : n < 2 ^ 64)
    : evtField hasEnd b ⟨cborUint 0 ++ (cborUint n ++ rest), false⟩
        = (some { b with id := some n }, ⟨rest, false⟩) := by
  unfold evtField
  rw [Dec.bind_eq, Dec.bind_of_some (cdecUint_cborUint _ (by omega)), if_pos rfl]
  rw [Dec.bind_eq, Dec.bind_of_some (cdecUint_cborUint _ hn)]
  rfl

theorem evtField_val
    : evtField hasEnd b ⟨cborUint 1 ++ (cborFloat v ++ rest), false⟩
        = (some { b with val := some (canon64 v) }, ⟨rest, false⟩) := by
  have hread := cdecFloat_cborFloat64 v rest
  unfold evtField
  rw [Dec.bind_eq, Dec.bind_of_some (cdecUint_cborUint _ (by omega)), if_neg (by omega), if_pos rfl]
  rw [Dec.bind_eq, Dec.bind_of_some hread]
  rfl

theorem evtField_end (hn : n < 2 ^ 64)
    : evtField true b ⟨cborUint 2 ++ (cborArray 2 ++ (cborUint 0 ++ (cborUint n ++ rest))), false⟩
        = (some { b with end_ := some (0, n) }, ⟨rest, false⟩) := by
  unfold evtField
  rw [Dec.bind_eq, Dec.bind_of_some (cdecUint_cborUint _ (by omega)), if_neg (by omega),
    if_neg (by omega), if_pos ⟨rfl, rfl⟩]
  rw [Dec.bind_eq, Dec.bind_of_some (tstamp_bytes hn _)]
  rfl

theorem evtField_voice (hn : n < 2 ^ 64)
    : evtField hasEnd b ⟨cborUint 3 ++ (cborUint n ++ rest), false⟩
        = (some { b with voice := n }, ⟨rest, false⟩) := by
  unfold evtField
  rw [Dec.bind_eq, Dec.bind_of_some (cdecUint_cborUint _ (by omega)), if_neg (by omega),
    if_neg (by omega), if_neg (by omega), if_pos rfl]
  rw [Dec.bind_eq, Dec.bind_of_some (cdecUint_cborUint _ hn)]
  rfl

theorem evtField_channel (hn : n < 2 ^ 64)
    : evtField hasEnd b ⟨cborUint 5 ++ (cborUint n ++ rest), false⟩
        = (some { b with channel := n }, ⟨rest, false⟩) := by
  unfold evtField
  rw [Dec.bind_eq, Dec.bind_of_some (cdecUint_cborUint _ (by omega)), if_neg (by omega),
    if_neg (by omega), if_neg (by omega), if_neg (by omega), if_neg (by omega), if_pos rfl]
  rw [Dec.bind_eq, Dec.bind_of_some (cdecUint_cborUint _ hn)]
  rfl

theorem paramBytes_append (id : UInt32) (v : F32) (rest : Bytes)
    : paramBytes id v ++ rest
        = cborUint 0 ++ (cborUint id.toNat ++ (cborUint 1 ++ (cborFloat (widen v) ++ rest))) := by
  simp only [paramBytes, List.append_assoc]

theorem length_paramBytes (id : UInt32) (v : F32) : 4 ≤ (paramBytes id v).length := by
  have := length_cborUint_pos 0
  have := length_cborUint_pos id.toNat
  have := length_cborUint_pos 1
  have := length_cborFloat_pos (widen v)
  simp only [paramBytes, List.length_append]
  omega

-- The two fields every set, ramp and mod starts with.
theorem loop_paramBytes (id : UInt32) (v : F32) (k : Nat) (rest : Bytes)
    : Dec.loop (k + 2) (evtField hasEnd) b ⟨paramBytes id v ++ rest, false⟩
        = Dec.loop k (evtField hasEnd) { b with id := some id.toNat, val := some (canon64 (widen v)) }
          ⟨rest, false⟩ := by
  have hid := id.toNat_lt
  rw [paramBytes_append, Dec.loop_succ_of_some (evtField_id (by omega)),
    Dec.loop_succ_of_some evtField_val]

theorem canon64_widen (h : v'.isNaN = false) : canon64 (widen v') = widen v' :=
  canon64_of_number ((isNaN_widen v').trans h)

def channelFields (channel : Nat) : Nat :=
  if channel ≠ 0 then 1 else 0

theorem length_channelBytes (channel : Nat)
    : channelFields channel * 2 ≤ (channelBytes channel).length := by
  have := length_cborUint_pos 5
  have := length_cborUint_pos channel
  unfold channelFields channelBytes
  split
  . simp only [List.length_append]
    omega
  . exact Nat.zero_le _

theorem loop_channelBytes {channel : Nat} (h : channel < 2 ^ 64) (hb : b.channel = 0)
    : Dec.loop (channelFields channel) (evtField hasEnd) b ⟨channelBytes channel, false⟩
        = (some { b with channel }, ⟨[], false⟩) := by
  unfold channelFields channelBytes
  split
  . have hfield : evtField hasEnd b ⟨cborUint 5 ++ cborUint channel, false⟩
        = (some { b with channel }, ⟨[], false⟩) := by
      have : evtField hasEnd b ⟨cborUint 5 ++ (cborUint channel ++ []), false⟩
          = (some { b with channel }, ⟨[], false⟩) := evtField_channel h
      rwa [List.append_nil] at this
    rw [Dec.loop_succ_of_some hfield]
    rfl
  next hzero =>
    have hzero := not_not.mp hzero
    subst hzero
    cases b
    cases hb
    rfl

theorem mapBody_eq {σ : Type} {field : σ → Dec σ} {init s : σ} {done : σ → EvtMsg} {k : Nat}
    {d : Cdec} (hk : k < 2 ^ 63) (hlen : k * 2 ≤ rest.length)
    (hloop : Dec.loop k field init ⟨rest, false⟩ = (some s, d))
    : mapBody field init done ⟨cborMap k ++ rest, false⟩ = done s := by
  unfold mapBody
  rw [cdecMap_cborMap rest hk hlen]
  dsimp only
  rw [hloop]

end Fields

section Decode

variable {epoch : Nat}

theorem evtEpochStale_zero : evtEpochStale 0 epoch = false := by
  unfold evtEpochStale
  simp

theorem evtDecode_body (ts : UInt64) {etype : Nat} (h : etype = 5 ∨ etype = 6 ∨ etype = 1)
    (hasEnd : Bool) (hend : decide (etype = 5) = hasEnd) (rest : Bytes)
    : evtDecode epoch (evtHeadBytes ts etype ++ rest)
        = mapBody (evtField hasEnd) ⟨none, none, none, 0, none, 0⟩
          (bodyMsg epoch ts.toNat etype) ⟨rest, false⟩ := by
  unfold evtDecode Cdec.init
  rw [evtHead_bytes ts (by omega) rest]
  dsimp only
  rw [evtEpochStale_zero, if_neg Bool.false_ne_true, if_neg (by omega), if_neg (by omega), if_pos h,
    hend]

theorem evtDecode_transport (ts : UInt64) (rest : Bytes)
    : evtDecode epoch (evtHeadBytes ts 7 ++ rest)
        = mapBody transportField ⟨0, Fp.of false 0 0, Fp.of false 0 0⟩ (fun b => .transport
          ⟨ts.toNat, .transport, b.flags % 2 ^ 32, narrow b.tempo, 0, b.ppq, 0, 0⟩)
          ⟨rest, false⟩ := by
  unfold evtDecode Cdec.init
  rw [evtHead_bytes ts (by omega) rest]
  dsimp only
  rw [evtEpochStale_zero, if_neg Bool.false_ne_true, if_neg (by omega), if_pos rfl]

theorem evtDecode_ump (ts : UInt64) {p : Bytes} (hlo : 4 ≤ p.length) (hhi : p.length < 2 ^ 64)
    : evtDecode epoch (evtHeadBytes ts 0 ++ cborBytes p) = umpMsg ts.toNat p := by
  have hread := cdecBytes_cborBytes p [] hhi
  rw [List.append_nil] at hread
  unfold evtDecode Cdec.init
  rw [evtHead_bytes ts (by omega)]
  dsimp only
  rw [evtEpochStale_zero, if_neg Bool.false_ne_true, if_pos rfl, hread]
  dsimp only
  rw [if_neg (by omega)]

theorem evtDecode_param (id : UInt32) (v : F32) (ts : UInt64) (channel : Fin 16)
    : evtDecode epoch (encodeParamEvent id v ts channel)
        = bodyMsg epoch ts.toNat 1
          ⟨some id.toNat, some (canon64 (widen v)), none, 0, none, channel⟩ := by
  have hch := channel.isLt
  have hlen := length_paramBytes id v
  have hlen' := length_channelBytes channel
  have hbytes : encodeParamEvent id v ts channel
      = evtHeadBytes ts 1 ++ (cborMap (channelFields channel + 2)
        ++ (paramBytes id v ++ channelBytes channel)) := by
    unfold encodeParamEvent channelFields
    split <;> simp only [List.append_assoc]
  have hloop : Dec.loop (channelFields channel + 2) (evtField false) ⟨none, none, none, 0, none, 0⟩
      ⟨paramBytes id v ++ channelBytes channel, false⟩
      = (some ⟨some id.toNat, some (canon64 (widen v)), none, 0, none, channel⟩, ⟨[], false⟩) := by
    rw [loop_paramBytes id v, loop_channelBytes (by omega) rfl]
  rw [hbytes, evtDecode_body ts (by omega) false rfl, mapBody_eq _ _ hloop]
  . unfold channelFields
    split <;> omega
  . rw [List.length_append]
    omega

theorem evtDecode_paramSet (id : UInt32) {v : F32} (hv : v.isNaN = false) (ts : UInt64)
    (channel : Fin 16)
    : evtDecode epoch (encodeParamEvent id v ts channel)
        = .submit 0 (HostEvent.paramSet id v ts channel).event true := by
  have hid := id.toNat_lt
  have hch := channel.isLt
  rw [evtDecode_param, canon64_widen hv]
  simp only [bodyMsg, Nat.reduceEqDiff, if_false, DevEvent.ofBody, narrow_clamp01_widen hv,
    HostEvent.event, evtDirtiesLive]
  rw [Nat.mod_eq_of_lt hid, Nat.mod_eq_of_lt hch]
  rfl

theorem evtDecode_rampBody (id : UInt32) (v : F32) (start end_ : UInt64) (channel : Fin 16)
    : evtDecode epoch (encodeRampEvent id v start end_ channel)
        = bodyMsg epoch start.toNat 5
          ⟨some id.toNat, some (canon64 (widen v)), some (0, end_.toNat), 0, none, channel⟩ := by
  have hch := channel.isLt
  have hend := end_.toNat_lt
  have hlen := length_paramBytes id v
  have hlen' := length_channelBytes channel
  have hpos := length_cborUint_pos 2
  have hpos' := length_cborUint_pos end_.toNat
  have hbytes : encodeRampEvent id v start end_ channel
      = evtHeadBytes start 5 ++ (cborMap (channelFields channel + 3) ++ (paramBytes id v
        ++ (cborUint 2 ++ (cborArray 2 ++ (cborUint 0 ++ (cborUint end_.toNat
          ++ channelBytes channel)))))) := by
    unfold encodeRampEvent channelFields
    split <;> simp only [List.append_assoc]
  have hloop : Dec.loop (channelFields channel + 3) (evtField true) ⟨none, none, none, 0, none, 0⟩
      ⟨paramBytes id v ++ (cborUint 2 ++ (cborArray 2 ++ (cborUint 0 ++ (cborUint end_.toNat
        ++ channelBytes channel)))), false⟩
      = (some ⟨some id.toNat, some (canon64 (widen v)), some (0, end_.toNat), 0, none, channel⟩,
        ⟨[], false⟩) := by
    rw [loop_paramBytes id v, Dec.loop_succ_of_some (evtField_end (by omega)),
      loop_channelBytes (by omega) rfl]
  rw [hbytes, evtDecode_body start (by omega) true rfl, mapBody_eq _ _ hloop]
  . unfold channelFields
    split <;> omega
  . simp only [List.length_append]
    omega

theorem evtDecode_ramp (id : UInt32) {v : F32} (hv : v.isNaN = false) (start end_ : UInt64)
    (channel : Fin 16)
    : evtDecode epoch (encodeRampEvent id v start end_ channel)
        = .submit 0 (HostEvent.ramp id v start end_ channel).event true := by
  have hid := id.toNat_lt
  have hch := channel.isLt
  rw [evtDecode_rampBody, canon64_widen hv]
  simp only [bodyMsg, if_true, evtEpochStale_zero, DevEvent.ofBody, narrow_clamp01_widen hv,
    HostEvent.event, evtDirtiesLive]
  rw [Nat.mod_eq_of_lt hid, Nat.mod_eq_of_lt hch]
  rfl

def voiceFields (voice : UInt32) : Nat :=
  if voice ≠ 0 then 1 else 0

def voiceBytes (voice : UInt32) : Bytes :=
  if voice ≠ 0 then cborUint 3 ++ cborUint voice.toNat else []

theorem loop_voiceBytes {b : EvtBody} {hasEnd : Bool} (voice : UInt32) (hb : b.voice = 0) (k : Nat)
    (rest : Bytes)
    : Dec.loop (k + voiceFields voice) (evtField hasEnd) b ⟨voiceBytes voice ++ rest, false⟩
        = Dec.loop k (evtField hasEnd) { b with voice := voice.toNat } ⟨rest, false⟩ := by
  have hvoice := voice.toNat_lt
  unfold voiceFields voiceBytes
  split
  . rw [List.append_assoc, Dec.loop_succ_of_some (evtField_voice (by omega))]
  next hzero =>
    have hzero := not_not.mp hzero
    subst hzero
    cases b
    cases hb
    rfl

theorem length_voiceBytes (voice : UInt32) : voiceFields voice * 2 ≤ (voiceBytes voice).length := by
  have := length_cborUint_pos 3
  have := length_cborUint_pos voice.toNat
  unfold voiceFields voiceBytes
  split
  . simp only [List.length_append]
    omega
  . exact Nat.zero_le _

theorem modPart_lt (voice : UInt32) (srcChan : Fin 16) : modPart voice srcChan < 16 := by
  unfold modPart
  split
  . exact srcChan.isLt
  . exact Nat.mod_lt _ (by omega)

theorem encodeModEvent_eq (id : UInt32) (offset : F32) (ts : UInt64) (voice : UInt32)
    (srcChan : Fin 16)
    : encodeModEvent id offset ts voice srcChan
        = evtHeadBytes ts 6
          ++ (cborMap (channelFields (modPart voice srcChan) + voiceFields voice + 2)
            ++ (paramBytes id offset ++ (voiceBytes voice
              ++ channelBytes (modPart voice srcChan)))) := by
  have hpart : (if voice ≠ 0 then voice.toNat / 2 ^ 8 % 16 else srcChan.val % 16)
      = modPart voice srcChan := by
    unfold modPart
    by_cases h : voice = 0
    . rw [if_neg (not_not.mpr h), if_pos h, Nat.mod_eq_of_lt srcChan.isLt]
    . rw [if_pos h, if_neg h]
  have hn : 2 + (if voice ≠ 0 then 1 else 0) + (if modPart voice srcChan ≠ 0 then 1 else 0)
      = channelFields (modPart voice srcChan) + voiceFields voice + 2 := by
    unfold channelFields voiceFields
    omega
  unfold encodeModEvent
  dsimp only
  rw [hpart, hn]
  simp only [List.append_assoc]
  rfl

theorem evtDecode_modBody (id : UInt32) (offset : F32) (ts : UInt64) (voice : UInt32)
    (srcChan : Fin 16)
    : evtDecode epoch (encodeModEvent id offset ts voice srcChan)
        = bodyMsg epoch ts.toNat 6 ⟨some id.toNat, some (canon64 (widen offset)), none, voice.toNat,
          none, modPart voice srcChan⟩ := by
  have hvoice := voice.toNat_lt
  have hpart := modPart_lt voice srcChan
  have hlen := length_paramBytes id offset
  have hlen' := length_channelBytes (modPart voice srcChan)
  have hlen'' := length_voiceBytes voice
  have hloop : Dec.loop (channelFields (modPart voice srcChan) + voiceFields voice + 2)
      (evtField false) ⟨none, none, none, 0, none, 0⟩
      ⟨paramBytes id offset ++ (voiceBytes voice ++ channelBytes (modPart voice srcChan)), false⟩
      = (some ⟨some id.toNat, some (canon64 (widen offset)), none, voice.toNat, none,
        modPart voice srcChan⟩, ⟨[], false⟩) := by
    rw [loop_paramBytes id offset, loop_voiceBytes voice rfl, loop_channelBytes (by omega) rfl]
  rw [encodeModEvent_eq, evtDecode_body ts (by omega) false rfl, mapBody_eq _ _ hloop]
  . unfold channelFields voiceFields
    split <;> split <;> omega
  . simp only [List.length_append]
    omega

theorem evtDecode_mod (id : UInt32) {offset : F32} (hv : offset.isNaN = false) (ts : UInt64)
    (voice : UInt32) (srcChan : Fin 16)
    : evtDecode epoch (encodeModEvent id offset ts voice srcChan)
        = .submit 0 (HostEvent.mod id offset voice ts srcChan).event false := by
  have hid := id.toNat_lt
  have hvoice := voice.toNat_lt
  have hpart := modPart_lt voice srcChan
  rw [evtDecode_modBody, canon64_widen hv]
  simp only [bodyMsg, Nat.reduceEqDiff, if_false, if_true, DevEvent.ofBody, narrow_widen _ hv,
    HostEvent.event]
  rw [Nat.mod_eq_of_lt hid, Nat.mod_eq_of_lt hpart, Nat.mod_eq_of_lt hvoice]
  simp [evtDirtiesLive]

theorem transportField_flags {b : TransportBody} {n : Nat} (hn : n < 2 ^ 64) (rest : Bytes)
    : transportField b ⟨cborUint 0 ++ (cborUint n ++ rest), false⟩
        = (some { b with flags := n }, ⟨rest, false⟩) := by
  unfold transportField
  rw [Dec.bind_eq, Dec.bind_of_some (cdecUint_cborUint _ (by omega)), if_pos rfl]
  rw [Dec.bind_eq, Dec.bind_of_some (cdecUint_cborUint _ hn)]
  rfl

theorem transportField_tempo {b : TransportBody} (v : F64) (rest : Bytes)
    : transportField b ⟨cborUint 1 ++ (cborFloat v ++ rest), false⟩
        = (some { b with tempo := canon64 v }, ⟨rest, false⟩) := by
  have hread := cdecFloat_cborFloat64 v rest
  unfold transportField
  rw [Dec.bind_eq, Dec.bind_of_some (cdecUint_cborUint _ (by omega)), if_neg (by omega), if_pos rfl]
  rw [Dec.bind_eq, Dec.bind_of_some hread]
  rfl

theorem transportField_ppq {b : TransportBody} (v : F64) (rest : Bytes)
    : transportField b ⟨cborUint 4 ++ (cborFloat v ++ rest), false⟩
        = (some { b with ppq := canon64 v }, ⟨rest, false⟩) := by
  have hread := cdecFloat_cborFloat64 v rest
  unfold transportField
  rw [Dec.bind_eq, Dec.bind_of_some (cdecUint_cborUint _ (by omega)), if_neg (by omega),
    if_neg (by omega), if_pos rfl]
  rw [Dec.bind_eq, Dec.bind_of_some hread]
  rfl

theorem evtDecode_transportBody (flags : UInt32) (tempo ppq : F64) (ts : UInt64)
    : evtDecode epoch (encodeTransportEvent flags tempo ppq ts)
        = .transport
          ⟨ts.toNat, .transport, flags.toNat, narrow (canon64 tempo), 0, canon64 ppq, 0, 0⟩ := by
  have hflags := flags.toNat_lt
  have hlen := length_cborUint_pos flags.toNat
  have hlen' := length_cborFloat_pos tempo
  have hlen'' := length_cborFloat_pos ppq
  have hkey := length_cborUint_pos 0
  have hkey' := length_cborUint_pos 1
  have hkey'' := length_cborUint_pos 4
  have hbytes : encodeTransportEvent flags tempo ppq ts
      = evtHeadBytes ts 7 ++ (cborMap 3 ++ (cborUint 0 ++ (cborUint flags.toNat ++ (cborUint 1
        ++ (cborFloat tempo ++ (cborUint 4 ++ (cborFloat ppq ++ []))))))) := by
    unfold encodeTransportEvent
    simp only [List.append_assoc, List.append_nil]
  have hloop : Dec.loop 3 transportField ⟨0, Fp.of false 0 0, Fp.of false 0 0⟩
      ⟨cborUint 0 ++ (cborUint flags.toNat ++ (cborUint 1 ++ (cborFloat tempo
        ++ (cborUint 4 ++ (cborFloat ppq ++ []))))), false⟩
      = (some ⟨flags.toNat, canon64 tempo, canon64 ppq⟩, ⟨[], false⟩) := by
    rw [Dec.loop_succ_of_some (transportField_flags (by omega) _),
      Dec.loop_succ_of_some (transportField_tempo tempo _),
      Dec.loop_succ_of_some (transportField_ppq ppq _)]
    rfl
  rw [hbytes, evtDecode_transport, mapBody_eq (by omega) _ hloop]
  . rw [Nat.mod_eq_of_lt hflags]
  . simp only [List.length_append]
    omega

theorem evtDecode_encodeTransport (flags : UInt32) {tempo : F32} (htempo : tempo.isNaN = false)
    {ppq : F64} (hppq : ppq.isNaN = false) (ts : UInt64)
    : evtDecode epoch (encodeTransportEvent flags (widen tempo) ppq ts)
        = .transport ⟨ts.toNat, .transport, flags.toNat, tempo, 0, ppq, 0, 0⟩ := by
  rw [evtDecode_transportBody, canon64_widen htempo, canon64_of_number hppq, narrow_widen tempo htempo]

end Decode

section Ump

variable {epoch : Nat}

theorem evtDecode_encodeUmp (word : UInt32) (ts : UInt64)
    : evtDecode epoch (encodeUmpEvent word ts) = umpMsg ts.toNat (beBytes word.toNat 4) := by
  have hlen := length_beBytes word.toNat 4
  exact evtDecode_ump ts (by omega) (by omega)

theorem beNat_word (word : UInt32) : beNat ((beBytes word.toNat 4).take 4) = word.toNat := by
  rw [List.take_of_length_le (by rw [length_beBytes]), beNat_beBytes]
  exact Nat.mod_eq_of_lt word.toNat_lt

-- The fields of a channel voice word do not overlap.
theorem voiceWord_or (top : Nat) {c n low : Nat} (hc : c < 2 ^ 4) (hn : n < 2 ^ 8)
    (hlow : low < 2 ^ 8)
    : top <<< 20 ||| c <<< 16 ||| n <<< 8 ||| low
        = ((top * 2 ^ 4 + c) * 2 ^ 8 + n) * 2 ^ 8 + low := by
  have hchannel : top <<< 20 ||| c <<< 16 = (top * 2 ^ 4 + c) <<< 16 := by
    have hlt : c <<< 16 < 2 ^ 20 := by
      rw [Nat.shiftLeft_eq]
      omega
    rw [← Nat.shiftLeft_add_eq_or_of_lt hlt]
    simp only [Nat.shiftLeft_eq]
    omega
  have hnote : (top * 2 ^ 4 + c) <<< 16 ||| n <<< 8
      = ((top * 2 ^ 4 + c) * 2 ^ 8 + n) <<< 8 := by
    have hlt : n <<< 8 < 2 ^ 16 := by
      rw [Nat.shiftLeft_eq]
      omega
    rw [← Nat.shiftLeft_add_eq_or_of_lt hlt]
    simp only [Nat.shiftLeft_eq]
    omega
  rw [hchannel, hnote, ← Nat.shiftLeft_add_eq_or_of_lt hlow, Nat.shiftLeft_eq]

theorem toNat_channelBits (channel : UInt32)
    : ((channel &&& 0xf) <<< 16).toNat = (channel.toNat % 16) <<< 16 := by
  have hand : (channel &&& 0xf).toNat = channel.toNat % 16 :=
    (UInt32.toNat_and channel 0xf).trans (Nat.and_two_pow_sub_one_eq_mod channel.toNat 4)
  have hshift : (16 : UInt32).toNat % 32 = 16 := rfl
  rw [UInt32.toNat_shiftLeft, hand, hshift, Nat.mod_eq_of_lt]
  rw [Nat.shiftLeft_eq]
  omega

theorem toNat_noteBits (note : UInt32)
    : ((note &&& 0x7f) <<< 8).toNat = (note.toNat % 128) <<< 8 := by
  have hand : (note &&& 0x7f).toNat = note.toNat % 128 :=
    (UInt32.toNat_and note 0x7f).trans (Nat.and_two_pow_sub_one_eq_mod note.toNat 7)
  have hshift : (8 : UInt32).toNat % 32 = 8 := rfl
  rw [UInt32.toNat_shiftLeft, hand, hshift, Nat.mod_eq_of_lt]
  rw [Nat.shiftLeft_eq]
  omega

theorem toNat_umpNoteOn (note vel channel : UInt32)
    : (umpNoteOn note vel channel).toNat
        = ((0x209 * 2 ^ 4 + channel.toNat % 16) * 2 ^ 8 + note.toNat % 128) * 2 ^ 8
          + vel.toNat % 128 := by
  have hvel : (vel &&& 0x7f).toNat = vel.toNat % 128 :=
    (UInt32.toNat_and vel 0x7f).trans (Nat.and_two_pow_sub_one_eq_mod vel.toNat 7)
  have htop : (0x20900000 : UInt32).toNat = 0x209 <<< 20 := rfl
  unfold umpNoteOn
  rw [UInt32.toNat_or, UInt32.toNat_or, UInt32.toNat_or, toNat_channelBits, toNat_noteBits, hvel,
    htop]
  exact voiceWord_or 0x209 (by omega) (by omega) (by omega)

theorem toNat_umpNoteOff (note channel : UInt32)
    : (umpNoteOff note channel).toNat
        = ((0x208 * 2 ^ 4 + channel.toNat % 16) * 2 ^ 8 + note.toNat % 128) * 2 ^ 8 + 0x40 := by
  have htop : (0x20800000 : UInt32).toNat = 0x208 <<< 20 := rfl
  have hlow : (0x40 : UInt32).toNat = 0x40 := rfl
  unfold umpNoteOff
  rw [UInt32.toNat_or, UInt32.toNat_or, UInt32.toNat_or, toNat_channelBits, toNat_noteBits, htop,
    hlow]
  exact voiceWord_or 0x208 (by omega) (by omega) (by omega)

-- A word as the device takes it apart.
theorem umpMsg_word {word : UInt32} {top c n low : Nat} (hc : c < 16) (hn : n < 128)
    (hlow : low < 128) (hword : word.toNat = ((top * 2 ^ 4 + c) * 2 ^ 8 + n) * 2 ^ 8 + low)
    (htop : top = 0x208 ∨ top = 0x209) (ts : Nat)
    : umpMsg ts (beBytes word.toNat 4) =
        if top = 0x209 ∧ 0 < low then
          .note ⟨ts, .noteOn, n, velocity low, 0, Fp.of false 0 0, c, 0⟩
        else
          .note ⟨ts, .noteOff, n, Fp.of false 0 0, 0, Fp.of false 0 0, c, 0⟩ := by
  have hmt : word.toNat >>> 28 = 2 := by
    rw [Nat.shiftRight_eq_div_pow]
    omega
  have hstatus : (word.toNat >>> 20) % 16 = top % 16 := by
    rw [Nat.shiftRight_eq_div_pow]
    omega
  have hnote : (word.toNat >>> 8) % 128 = n := by
    rw [Nat.shiftRight_eq_div_pow]
    omega
  have hvel : word.toNat % 128 = low := by
    omega
  have hchan : (word.toNat >>> 16) % 16 = c := by
    rw [Nat.shiftRight_eq_div_pow]
    omega
  unfold umpMsg
  simp only [beNat_word, hmt, hstatus, hnote, hvel, hchan, ne_eq, not_true_eq_false, if_false]
  rcases htop with rfl | rfl
  . rw [if_neg (by omega), if_pos (by omega), if_neg (by omega)]
  . by_cases hpos : 0 < low
    . rw [if_pos ⟨rfl, hpos⟩, if_pos ⟨rfl, hpos⟩]
    . rw [if_neg (by omega), if_pos (by omega), if_neg (by omega)]

theorem evtDecode_noteOn (note vel channel : UInt32) (ts : UInt64)
    : evtDecode epoch (encodeUmpEvent (umpNoteOn note vel channel) ts)
        = .note (HostEvent.noteOn note vel channel ts).event := by
  rw [evtDecode_encodeUmp, umpMsg_word (by omega) (by omega) (by omega)
    (toNat_umpNoteOn note vel channel) (by omega)]
  unfold HostEvent.event
  dsimp only
  by_cases hpos : vel.toNat % 128 = 0
  . rw [if_pos hpos, if_neg (by omega)]
  . rw [if_neg hpos, if_pos (by omega)]

theorem evtDecode_noteOff (note channel : UInt32) (ts : UInt64)
    : evtDecode epoch (encodeUmpEvent (umpNoteOff note channel) ts)
        = .note (HostEvent.noteOff note channel ts).event := by
  rw [evtDecode_encodeUmp, umpMsg_word (by omega) (by omega) (by omega)
    (toNat_umpNoteOff note channel) (by omega), if_neg (by omega)]
  rfl

theorem evtDecode_allNotesOff (ts : UInt64)
    : evtDecode epoch (encodeUmpEvent umpAllNotesOff ts)
        = .note (HostEvent.allNotesOff ts).event := by
  rw [evtDecode_encodeUmp]
  rfl

end Ump

theorem toBits_timed {ppq : F64} : (Fp.ofBits (UInt64.ofNat ppq.toBits).toNat : F64) = ppq := by
  have hlt := Fp.toBits_lt ppq
  rw [UInt64.toNat_ofNat_of_lt' hlt, Fp.ofBits_toBits]

theorem evtDecode_timed (epoch : Nat) (tag : UInt32) {e : HostEvent} (h : e.Numeric)
    : evtDecode epoch (e.timed tag).encode = e.msg := by
  cases e with
  | noteOn note vel channel ts => exact evtDecode_noteOn note vel channel ts
  | noteOff note channel ts => exact evtDecode_noteOff note channel ts
  | allNotesOff ts => exact evtDecode_allNotesOff ts
  | paramSet id v ts channel => exact evtDecode_paramSet id h ts channel
  | ramp id target start end_ channel => exact evtDecode_ramp id h start end_ channel
  | mod id offset voice ts srcChan =>
    have hvoice : voice.toUInt64.toUInt32 = voice := UInt32.toUInt32_toUInt64 voice
    unfold HostEvent.timed TimedEv.encode
    dsimp only
    rw [hvoice]
    exact evtDecode_mod id h ts voice srcChan
  | transport flags tempo ppq ts =>
    unfold HostEvent.timed TimedEv.encode
    dsimp only
    rw [toBits_timed]
    exact evtDecode_encodeTransport flags (isNaN_narrow_of_number h.1) h.2 ts

-- What a message of the shell can be: an event outside of any transaction, or nothing for the queue.
def EvtMsg.plain : EvtMsg → Bool
  | .submit id _ _ => id = 0
  | .note _ | .transport _ | .ignored | .otherVoice => true
  | _ => false

theorem plain_umpMsg (msc : Nat) (p : Bytes) : (umpMsg msc p).plain = true := by
  unfold umpMsg
  dsimp only
  split
  . rfl
  . split
    . rfl
    . split
      . rfl
      . split <;> rfl

-- The values may be no numbers.
theorem plain_encode (epoch : Nat) (te : TimedEv) : (evtDecode epoch te.encode).plain = true := by
  unfold TimedEv.encode
  split
  . rw [evtDecode_param]
    rfl
  . rw [evtDecode_rampBody]
    simp only [bodyMsg, if_true, evtEpochStale_zero]
    rfl
  . rw [evtDecode_transportBody]
    rfl
  . rw [evtDecode_modBody]
    rfl
  . rw [evtDecode_encodeUmp]
    exact plain_umpMsg _ _

theorem eventWire (s : Session) (tag : UInt32) {e : HostEvent} (h : e.Numeric) (io : WriteIo)
    : evtDecode s.audioEpoch (e.timed tag).encode = e.msg
        ∧ handleEvtMsg s (e.timed tag).encode io = applyEvtMsg s e.msg io := by
  have hdecode := evtDecode_timed s.audioEpoch tag h
  refine ⟨hdecode, ?_⟩
  unfold handleEvtMsg
  rw [hdecode]

-- A ramp of part 5 to a half, from sample 100 to sample 200.
def halfRamp : HostEvent :=
  .ramp 3 (Fp.of false 126 0) 100 200 5

theorem numeric_halfRamp : halfRamp.Numeric := by
  unfold halfRamp
  exact rfl

theorem eventWire_halfRamp
    : halfRamp.Numeric
        ∧ halfRamp.msg
          = .submit 0 ⟨100, .ramp, 3, Fp.of false 126 0, 200, Fp.of false 0 0, 5, 0⟩ true
        ∧ evtDecode 3 (halfRamp.timed 0).encode = halfRamp.msg :=
  ⟨numeric_halfRamp, by decide,
    (eventWire ⟨blankDevice, EvtState.fresh, 3⟩ 0 numeric_halfRamp .ok).1⟩

end Harp
