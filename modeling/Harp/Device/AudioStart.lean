import Harp.Core.Cbor
import Harp.Lib.Run
import Mathlib.Tactic.ByContra

/-!
This module contains `handle_audio_start` and `handle_audio_stop` of `device/session.c` with the
clock epoch they keep, over any sequence of starts and stops.

What a start does to the event plane is in `Harp.Device.SessionRun`.
-/

namespace Harp

open Runs

def audioMaxNsamples : Nat := 1024
def audioSlotMax : Nat := 34

section Request

structure StartReq where
  rate : Nat
  nsamples : Nat
  mode : Nat
  rtpPort : Nat
  prebuf : Nat
  hpPort : Nat
  outSlots : List Nat
  inSlots : List Nat
deriving DecidableEq, Repr

-- A slot that cannot be read ends the list, the fields behind it are then unreadable as well.
def startSlots (b : Cdec) (slots : List Nat) : Nat → Cdec × List Nat
  | 0 => (b, slots)
  | n + 1 =>
    match cdecUint b with
    | (none, b) => (b, slots)
    | (some slot, b) =>
      startSlots b (if slots.length < audioSlotMax then slots ++ [min slot 33] else slots) n

-- `harp_cdec_uint` has stored the argument when it finds the wrong major type.
def startUint (b : Cdec) (q : StartReq) (put : Nat → StartReq) : Bool × Cdec × StartReq :=
  match readHead b with
  | (some h, b) => (h.major = 0, b, put h.val)
  | (none, b) => (false, b, q)

def startField (key : Nat) (b : Cdec) (q : StartReq) : Bool × Cdec × StartReq :=
  match key with
  | 0 => startUint b q (fun rate => { q with rate })
  | 1 => startUint b q (fun nsamples => { q with nsamples })
  | 2 => startUint b q (fun prebuf => { q with prebuf })
  | 3 =>
    match cdecArray b with
    | (none, b) => (false, b, q)
    | (some alen, b) =>
      let (b, inSlots) := startSlots b q.inSlots alen
      (true, b, { q with inSlots })
  | 4 =>
    match cdecArray b with
    | (none, b) => (false, b, q)
    | (some alen, b) =>
      let (b, outSlots) := startSlots b q.outSlots alen
      (true, b, { q with outSlots })
  | 5 => startUint b q (fun mode => { q with mode })
  | 6 => startUint b q (fun rtpPort => { q with rtpPort })
  | 7 => startUint b q (fun hpPort => { q with hpPort })
  | _ =>
    match cdecSkip b with
    | (some _, b) => (true, b, q)
    | (none, b) => (false, b, q)

def startFields (b : Cdec) (q : StartReq) : Nat → StartReq
  | 0 => q
  | n + 1 =>
    match cdecUint b with
    | (none, _) => q
    | (some key, b) =>
      match startField key b q with
      | (true, b, q) => startFields b q n
      | (false, _, q) => q

def startParse (body : Option Bytes) : StartReq :=
  let q : StartReq := ⟨48000, 256, 0, 0, 0, 0, [], []⟩
  let q :=
    match body with
    | none => q
    | some body =>
      match cdecMap (Cdec.init body) with
      | (some n, b) => startFields b q n
      | (none, _) => q
  if q.outSlots = [] then { q with outSlots := [0, 1] } else q

end Request

section State

structure AudioState where
  fd : Int
  outFd : Int
  rtpFd : Int
  rtpSsrc : Nat
  rtpSeq : Nat
  rtpPrebuffer : UInt32
  hostPacedPort : Nat
  offline : Bool
  mode : Nat
  rate : Nat
  nsamples : Nat
  epoch : UInt32
  reanchors : Nat
  mscFinal : UInt64
  pipeline : Nat
  outSlots : List Nat
  inSlots : List Nat
  loopbackOn : Bool
  running : Bool
  threadLive : Bool
deriving DecidableEq, Repr

-- The device as `main` leaves it, with the content pipeline it was started with.
def AudioState.boot (pipeline : Nat) : AudioState :=
  ⟨0, 0, 0, 0, 0, 0, 0, false, 0, 0, 0, 1, 0, 0, pipeline, [], [], false, false, false⟩

-- What the environment answers: the USB endpoints, the RTP socket and the thread.
structure StartIo where
  ffsIn : Int
  ffsOut : Int
  rtpDest : Int
  created : Bool
deriving DecidableEq, Repr

inductive StartRsp where
  | error (code msg : Bytes)
  | ok (mode pipeline : Nat)
deriving DecidableEq, Repr

structure EpochNtf where
  newEpoch : UInt32
  newRate : Nat
  oldEpoch : UInt32
  oldMscFinal : UInt64
deriving DecidableEq, Repr

def unsupported (msg : String) : StartRsp :=
  .error (ascii "unsupported") (ascii msg)

def StartIo.fds (io : StartIo) (q : StartReq) : Int × Int :=
  if q.rtpPort = 0 ∧ q.hpPort = 0 then (io.ffsIn, io.ffsOut) else (-1, -1)

-- The checks of a start, in the order of the source; none lets it through.
def startRefused (a : AudioState) (q : StartReq) (io : StartIo) : Option StartRsp :=
  let (fd, outFd) := io.fds q
  if q.mode > 1 then
    some (unsupported "unknown clock mode")
  else if q.rate ≠ 44100 ∧ q.rate ≠ 48000 ∧ q.rate ≠ 96000 then
    some (unsupported "rate")
  else if q.nsamples < 32 ∨ q.nsamples > audioMaxNsamples then
    some (unsupported "nsamples")
  else if q.rtpPort ≠ 0 ∧ q.mode ≠ 0 then
    some (unsupported "RTP audio is free-running only")
  else if q.hpPort ≠ 0 ∧ (q.mode ≠ 1 ∨ q.rtpPort ≠ 0) then
    some (unsupported "host-paced TCP audio requires clock mode 1 and no RTP port")
  else if q.rtpPort = 0 ∧ q.hpPort = 0 ∧ (fd < 0 ∨ (q.mode = 1 ∧ outFd < 0)) then
    some (unsupported "HARP stream requires the USB transport")
  else if a.threadLive then
    some (.error (ascii "busy") (ascii "stream already running"))
  else if q.rtpPort ≠ 0 ∧ io.rtpDest < 0 then
    some (unsupported "cannot open RTP destination")
  else
    none

def opensEpoch (a : AudioState) (q : StartReq) : Bool :=
  q.mode = 0 ∧ a.rate ≠ 0 ∧ q.rate ≠ a.rate

-- The state the audio thread is created in.
def startState (a : AudioState) (q : StartReq) (io : StartIo) : AudioState :=
  let (fd, outFd) := io.fds q
  let rtpFd := if q.rtpPort ≠ 0 then io.rtpDest else -1
  { a with
    fd,
    outFd,
    rtpFd,
    rtpSsrc := if rtpFd ≥ 0 then 0x48415250 else a.rtpSsrc,
    rtpSeq := if rtpFd ≥ 0 then 0 else a.rtpSeq,
    rtpPrebuffer := if rtpFd ≥ 0 then UInt32.ofNat q.prebuf else 0,
    hostPacedPort := q.hpPort % 2 ^ 32,
    offline := 0 < q.hpPort,
    mode := q.mode,
    rate := q.rate,
    nsamples := q.nsamples,
    epoch := if opensEpoch a q then a.epoch + 1 else a.epoch,
    reanchors := 0,
    outSlots := q.outSlots,
    inSlots := q.inSlots,
    loopbackOn := false,
    running := true }

def handleAudioStart (a : AudioState) (body : Option Bytes) (io : StartIo)
    : StartRsp × Option EpochNtf × AudioState :=
  let q := startParse body
  match startRefused a q io with
  | some rsp => (rsp, none, a)
  | none =>
    let a' := startState a q io
    let ntf := if opensEpoch a q then some ⟨a'.epoch, q.rate, a.epoch, a.mscFinal⟩ else none
    if io.created then
      (.ok q.mode (if q.mode ≠ 0 then a'.pipeline else a'.nsamples), ntf,
        { a' with threadLive := true })
    else
      let a' := { a' with running := false, rtpFd := -1 }
      let a' := if opensEpoch a q then { a' with epoch := a.epoch, rate := a.rate } else a'
      (.error (ascii "internal") (ascii "thread"), ntf, a')

-- `msc` is where a free-running stream has got to when its thread is joined.
def audioStop (a : AudioState) (msc : UInt64) : AudioState :=
  if a.threadLive then
    { a with
      running := false,
      threadLive := false,
      rtpFd := -1,
      hostPacedPort := 0,
      mscFinal := if a.mode = 0 then msc else a.mscFinal }
  else
    a

end State

section Run

structure AudioStream where
  mode : Nat
  rate : Nat
  epoch : UInt32
deriving DecidableEq, Repr

-- The streams are not part of the source: every stream that has run, the last one first.
structure AudioClock where
  audio : AudioState
  streams : List AudioStream

def AudioClock.boot (pipeline : Nat) : AudioClock :=
  ⟨AudioState.boot pipeline, []⟩

inductive AudioReq where
  | start (body : Option Bytes) (io : StartIo)
  | stop (msc : UInt64)

def StartRsp.isOk : StartRsp → Bool
  | .ok _ _ => true
  | .error _ _ => false

def AudioClock.next (c : AudioClock) : AudioReq → AudioClock
  | .start body io =>
    match handleAudioStart c.audio body io with
    | (rsp, _, audio) =>
      ⟨audio,
        if rsp.isOk then ⟨audio.mode, audio.rate, audio.epoch⟩ :: c.streams else c.streams⟩
  | .stop msc => { c with audio := audioStop c.audio msc }

def AudioClock.fails (c : AudioClock) : AudioReq → Bool
  | .start body io => !(handleAudioStart c.audio body io).1.isOk
  | .stop _ => false

-- Free-running streams of different rates are in different epochs.
def EpochsApart (streams : List AudioStream) : Prop :=
  ∀ x ∈ streams, ∀ y ∈ streams, x.mode = 0 → y.mode = 0 → x.rate ≠ y.rate → x.epoch ≠ y.epoch

structure StepLaw (c : AudioClock) (r : AudioReq) : Prop where
  mono : c.audio.epoch ≤ (c.next r).audio.epoch
  failed : c.fails r = true →
    (c.next r).audio.epoch = c.audio.epoch ∧ (c.next r).audio.rate = c.audio.rate

structure EpochLaw (c : AudioClock) (r : AudioReq) : Prop extends StepLaw c r where
  apart : EpochsApart (c.next r).streams

def lastFreeRate (streams : List AudioStream) : Option Nat :=
  (streams.find? (·.mode = 0)).map AudioStream.rate

-- A start that opens an epoch has a number left for it, one that opens none comes at the rate of
-- the last free-running stream, and a thread is refused only where the rate does not change.
def AudioClock.Keeps (c : AudioClock) : AudioReq → Prop
  | .stop _ => True
  | .start body io =>
    let q := startParse body
    startRefused c.audio q io = none →
      if io.created then
        if opensEpoch c.audio q then
          c.audio.epoch.toNat + 1 < 2 ^ 32
        else
          q.mode = 0 → lastFreeRate c.streams = none ∨ lastFreeRate c.streams = some q.rate
      else
        opensEpoch c.audio q = true ∨ q.rate = c.audio.rate

variable {c : AudioClock} {body : Option Bytes} {io : StartIo}

theorem next_refused (h : startRefused c.audio (startParse body) io ≠ none)
    : c.next (.start body io) = c ∧ c.fails (.start body io) = true := by
  have hok : ∀ rsp, startRefused c.audio (startParse body) io = some rsp → rsp.isOk = false := by
    intro rsp hrsp
    unfold startRefused unsupported at hrsp
    dsimp only at hrsp
    repeat' split at hrsp
    all_goals cases hrsp
    all_goals rfl
  unfold AudioClock.next AudioClock.fails handleAudioStart
  dsimp only
  cases href : startRefused c.audio (startParse body) io with
  | none => contradiction
  | some rsp =>
    have hrsp := hok rsp href
    simp [hrsp]

theorem next_created (h : startRefused c.audio (startParse body) io = none)
    (hcreated : io.created = true)
    : c.next (.start body io)
          = ⟨{ startState c.audio (startParse body) io with threadLive := true },
            ⟨(startParse body).mode, (startParse body).rate,
              (startState c.audio (startParse body) io).epoch⟩ :: c.streams⟩
        ∧ c.fails (.start body io) = false := by
  unfold AudioClock.next AudioClock.fails handleAudioStart
  simp only [h, hcreated, if_true, StartRsp.isOk, startState, Bool.not_true, and_self]

theorem next_not_created (h : startRefused c.audio (startParse body) io = none)
    (hcreated : io.created = false)
    : (c.next (.start body io)).streams = c.streams
        ∧ (c.next (.start body io)).audio.epoch = c.audio.epoch
        ∧ (c.next (.start body io)).audio.rate
          = (if opensEpoch c.audio (startParse body) then c.audio.rate else (startParse body).rate)
        ∧ c.fails (.start body io) = true := by
  unfold AudioClock.next AudioClock.fails handleAudioStart
  simp only [h, hcreated, if_false, Bool.false_eq_true, StartRsp.isOk, Bool.not_false, true_and,
    and_true]
  cases hopens : opensEpoch c.audio (startParse body) <;> simp [startState, hopens]

theorem audioStop_epoch (a : AudioState) (msc : UInt64)
    : (audioStop a msc).epoch = a.epoch ∧ (audioStop a msc).rate = a.rate := by
  unfold audioStop
  split <;> exact ⟨rfl, rfl⟩

-- The epoch of the device is the one of the last free-running stream, and no stream was ahead of it.
structure ClockInv (c : AudioClock) : Prop where
  apart : EpochsApart c.streams
  le : ∀ x ∈ c.streams, x.mode = 0 → x.epoch ≤ c.audio.epoch
  same : ∀ x ∈ c.streams, x.mode = 0 → x.epoch = c.audio.epoch →
    lastFreeRate c.streams = some x.rate
  last : ∀ rate, lastFreeRate c.streams = some rate →
    ∃ x ∈ c.streams, x.mode = 0 ∧ x.rate = rate ∧ x.epoch = c.audio.epoch

theorem ClockInv.boot (pipeline : Nat) : ClockInv (.boot pipeline) := by
  apply ClockInv.mk
  . intro x hx
    cases hx
  . intro x hx
    cases hx
  . intro x hx
    cases hx
  . intro rate hrate
    cases hrate

theorem ClockInv.congr {c' : AudioClock} (h : ClockInv c) (hstreams : c'.streams = c.streams)
    (hepoch : c'.audio.epoch = c.audio.epoch) : ClockInv c' := by
  apply ClockInv.mk
  . rw [hstreams]
    exact h.apart
  . rw [hstreams, hepoch]
    exact h.le
  . rw [hstreams, hepoch]
    exact h.same
  . rw [hstreams, hepoch]
    exact h.last

theorem lastFreeRate_cons (x : AudioStream) (l : List AudioStream)
    : lastFreeRate (x :: l) = if x.mode = 0 then some x.rate else lastFreeRate l := by
  unfold lastFreeRate
  rw [List.find?_cons]
  by_cases h : x.mode = 0 <;> simp [h]

theorem epochsApart_cons {x : AudioStream} {l : List AudioStream} (h : EpochsApart l)
    (hx : x.mode = 0 → ∀ y ∈ l, y.mode = 0 → y.rate ≠ x.rate → y.epoch ≠ x.epoch)
    : EpochsApart (x :: l) := by
  intro y hy z hz hymode hzmode hrate
  rcases List.mem_cons.mp hy with rfl | hyl
  . rcases List.mem_cons.mp hz with rfl | hzl
    . exact absurd rfl hrate
    . exact (hx hymode z hzl hzmode hrate.symm).symm
  . rcases List.mem_cons.mp hz with rfl | hzl
    . exact hx hzmode y hyl hymode hrate
    . exact h y hyl z hzl hymode hzmode hrate

theorem toNat_epoch_succ {e : UInt32} (h : e.toNat + 1 < 2 ^ 32) : (e + 1).toNat = e.toNat + 1 := by
  rw [UInt32.toNat_add]
  exact Nat.mod_eq_of_lt h

-- A stream that starts in an epoch of its own.
theorem ClockInv.opened (h : ClockInv c) (hmax : c.audio.epoch.toNat + 1 < 2 ^ 32) {a : AudioState}
    {x : AudioStream} (hmode : x.mode = 0) (hx : x.epoch = c.audio.epoch + 1)
    (ha : a.epoch = c.audio.epoch + 1) : ClockInv ⟨a, x :: c.streams⟩ := by
  have hsucc := toNat_epoch_succ hmax
  have hlt : ∀ y ∈ c.streams, y.mode = 0 → y.epoch < c.audio.epoch + 1 := by
    intro y hy hymode
    have hle := UInt32.le_iff_toNat_le.mp (h.le y hy hymode)
    rw [UInt32.lt_iff_toNat_lt]
    omega
  apply ClockInv.mk
  . apply epochsApart_cons h.apart
    intro _ y hy hymode _
    rw [hx]
    exact UInt32.ne_of_lt (hlt y hy hymode)
  . intro y hy hymode
    rw [ha]
    rcases List.mem_cons.mp hy with rfl | hy
    . rw [hx]
      exact UInt32.le_refl _
    . exact UInt32.le_of_lt (hlt y hy hymode)
  . intro y hy hymode hepoch
    rw [lastFreeRate_cons, if_pos hmode]
    rcases List.mem_cons.mp hy with rfl | hy
    . rfl
    . rw [ha] at hepoch
      exact absurd hepoch (UInt32.ne_of_lt (hlt y hy hymode))
  . intro rate hrate
    rw [lastFreeRate_cons, if_pos hmode] at hrate
    cases hrate
    exact ⟨x, List.mem_cons_self, hmode, rfl, hx.trans ha.symm⟩

-- A stream that starts in the epoch the device is in.
theorem ClockInv.joined (h : ClockInv c) {a : AudioState} {x : AudioStream}
    (hrate : x.mode = 0 → lastFreeRate c.streams = none ∨ lastFreeRate c.streams = some x.rate)
    (hx : x.epoch = c.audio.epoch) (ha : a.epoch = c.audio.epoch) : ClockInv ⟨a, x :: c.streams⟩ := by
  have heq : ∀ y ∈ c.streams, x.mode = 0 → y.mode = 0 → y.epoch = c.audio.epoch →
      y.rate = x.rate := by
    intro y hy hmode hymode hepoch
    have hsome := h.same y hy hymode hepoch
    rcases hrate hmode with hnone | hlast
    . rw [hnone] at hsome
      cases hsome
    . rw [hlast] at hsome
      exact (Option.some.inj hsome).symm
  apply ClockInv.mk
  . apply epochsApart_cons h.apart
    intro hmode y hy hymode hne hepoch
    exact hne (heq y hy hmode hymode (hepoch.trans hx))
  . intro y hy hymode
    rw [ha]
    rcases List.mem_cons.mp hy with rfl | hy
    . rw [hx]
      exact UInt32.le_refl _
    . exact h.le y hy hymode
  . intro y hy hymode hepoch
    rw [lastFreeRate_cons]
    rw [ha] at hepoch
    rcases List.mem_cons.mp hy with rfl | hy
    . rw [if_pos hymode]
    . by_cases hmode : x.mode = 0
      . rw [if_pos hmode, heq y hy hmode hymode hepoch]
      . rw [if_neg hmode]
        exact h.same y hy hymode hepoch
  . intro rate hlast
    rw [lastFreeRate_cons] at hlast
    by_cases hmode : x.mode = 0
    . rw [if_pos hmode] at hlast
      cases hlast
      exact ⟨x, List.mem_cons_self, hmode, rfl, hx.trans ha.symm⟩
    . rw [if_neg hmode] at hlast
      rcases h.last rate hlast with ⟨y, hy, hymode, hyrate, hepoch⟩
      exact ⟨y, List.mem_cons_of_mem _ hy, hymode, hyrate, hepoch.trans ha.symm⟩

theorem startState_epoch (a : AudioState) (q : StartReq) (io : StartIo)
    : (startState a q io).epoch = if opensEpoch a q then a.epoch + 1 else a.epoch := by
  rfl

theorem opensEpoch_mode {a : AudioState} {q : StartReq} (h : opensEpoch a q = true)
    : q.mode = 0 := by
  unfold opensEpoch at h
  rw [decide_eq_true_eq] at h
  exact h.1

theorem ClockInv.next (h : ClockInv c) (r : AudioReq) (hk : c.Keeps r) : ClockInv (c.next r) := by
  cases r with
  | stop msc => exact h.congr rfl (audioStop_epoch c.audio msc).1
  | start body io =>
    by_cases href : startRefused c.audio (startParse body) io = none
    . have hk := hk href
      cases hcreated : io.created with
      | false =>
        rcases next_not_created href hcreated with ⟨hstreams, hepoch, _⟩
        exact h.congr hstreams hepoch
      | true =>
        rw [hcreated, if_pos rfl] at hk
        rw [(next_created href hcreated).1]
        have hstate := startState_epoch c.audio (startParse body) io
        cases hopens : opensEpoch c.audio (startParse body) with
        | true =>
          rw [hopens, if_pos rfl] at hk hstate
          exact h.opened hk (opensEpoch_mode hopens) hstate hstate
        | false =>
          rw [hopens, if_neg Bool.false_ne_true] at hk hstate
          exact h.joined hk hstate hstate
    . rw [(next_refused href).1]
      exact h

theorem ClockInv.law (h : ClockInv c) (r : AudioReq) (hk : c.Keeps r) : EpochLaw c r := by
  have happart := (h.next r hk).apart
  cases r with
  | stop msc =>
    rcases audioStop_epoch c.audio msc with ⟨hepoch, _⟩
    refine ⟨⟨?_, fun hfails => Bool.noConfusion hfails⟩, happart⟩
    unfold AudioClock.next
    dsimp only
    rw [hepoch]
    exact UInt32.le_refl _
  | start body io =>
    refine ⟨?_, happart⟩
    by_cases href : startRefused c.audio (startParse body) io = none
    . have hk := hk href
      cases hcreated : io.created with
      | false =>
        rw [hcreated, if_neg Bool.false_ne_true] at hk
        rcases next_not_created href hcreated with ⟨_, hepoch, hrate, _⟩
        refine ⟨?_, fun _ => ⟨hepoch, ?_⟩⟩
        . rw [hepoch]
          exact UInt32.le_refl _
        . rw [hrate]
          rcases hk with hopens | hsame
          . rw [hopens, if_pos rfl]
          . rw [hsame, ite_self]
      | true =>
        rw [hcreated, if_pos rfl] at hk
        rcases next_created href hcreated with ⟨hnext, hfails⟩
        refine ⟨?_, fun h => absurd h (by rw [hfails]; exact Bool.false_ne_true)⟩
        rw [hnext]
        dsimp only
        rw [startState_epoch]
        cases hopens : opensEpoch c.audio (startParse body) with
        | true =>
          rw [hopens, if_pos rfl] at hk
          rw [if_pos rfl, UInt32.le_iff_toNat_le, toNat_epoch_succ hk]
          omega
        | false =>
          rw [if_neg Bool.false_ne_true]
          exact UInt32.le_refl _
    . rcases next_refused href with ⟨hnext, _⟩
      apply StepLaw.mk
      . rw [hnext]
        exact UInt32.le_refl _
      . intro _
        rw [hnext]
        exact ⟨rfl, rfl⟩

theorem ClockInv.keeps_of_law (h : ClockInv c) (r : AudioReq) (hlaw : EpochLaw c r)
    : c.Keeps r := by
  cases r with
  | stop msc => trivial
  | start body io =>
    intro href
    cases hcreated : io.created with
    | false =>
      rw [if_neg Bool.false_ne_true]
      rcases next_not_created href hcreated with ⟨_, _, hrate, hfails⟩
      have hkept := (hlaw.failed hfails).2
      rw [hrate] at hkept
      cases hopens : opensEpoch c.audio (startParse body) with
      | true => exact .inl rfl
      | false =>
        rw [hopens, if_neg Bool.false_ne_true] at hkept
        exact .inr hkept
    | true =>
      rw [if_pos rfl]
      have hmono := hlaw.mono
      have happart := hlaw.apart
      rw [(next_created href hcreated).1] at hmono happart
      dsimp only at hmono happart
      rw [startState_epoch] at hmono happart
      cases hopens : opensEpoch c.audio (startParse body) with
      | true =>
        rw [if_pos rfl]
        rw [hopens, if_pos rfl, UInt32.le_iff_toNat_le, UInt32.toNat_add] at hmono
        have hone : (1 : UInt32).toNat = 1 := rfl
        have hlt := c.audio.epoch.toNat_lt
        rw [hone] at hmono
        omega
      | false =>
        rw [if_neg Bool.false_ne_true]
        rw [hopens, if_neg Bool.false_ne_true] at happart
        intro hmode
        cases hlast : lastFreeRate c.streams with
        | none => exact .inl rfl
        | some rate =>
          rcases h.last rate hlast with ⟨x, hx, hxmode, rfl, hepoch⟩
          -- the new stream and the last one are in the same epoch
          have hnot := happart _ List.mem_cons_self x (List.mem_cons_of_mem _ hx) hmode hxmode
          right
          apply congrArg some
          by_contra hne
          exact hnot (fun heq => hne heq.symm) hepoch.symm

theorem epochLaw_iff {pipeline : Nat}
    (h : Run AudioClock.next AudioClock.Keeps (.boot pipeline) c)
    : EpochsApart c.streams ∧ ∀ r, EpochLaw c r ↔ c.Keeps r := by
  have hinv : ClockInv c := h.inv (ClockInv.boot pipeline) (fun _ r h hk => h.next r hk)
  refine ⟨hinv.apart, fun r => ⟨?_, ?_⟩⟩
  . intro hlaw
    exact hinv.keeps_of_law r hlaw
  . intro hk
    exact hinv.law r hk

instance decidableKeeps (c : AudioClock) : (r : AudioReq) → Decidable (c.Keeps r)
  | .stop _ => .isTrue trivial
  | .start body io =>
    inferInstanceAs (Decidable (startRefused c.audio (startParse body) io = none → ite _ (ite _ _ _) _))

def startBody (rate mode : Nat) : Option Bytes :=
  some (cborMap 2 ++ cborUint 0 ++ cborUint rate ++ cborUint 5 ++ cborUint mode)

def usbStart (rate mode : Nat) : AudioReq :=
  .start (startBody rate mode) ⟨3, 4, -1, true⟩

-- A free-running stream at each of two rates.
def twoRates : AudioClock :=
  [usbStart 48000 0, .stop 4800, usbStart 44100 0].foldl AudioClock.next (.boot 0)

theorem epochLaw_twoRates
    : twoRates.streams = [⟨0, 44100, 2⟩, ⟨0, 48000, 1⟩]
        ∧ EpochsApart twoRates.streams ∧ ∀ r, EpochLaw twoRates r ↔ twoRates.Keeps r :=
  ⟨by decide, epochLaw_iff (Run.of_guarded _ .start (by decide))⟩

-- A host-paced stream at the other rate comes between the two.
def pacedBetween : AudioClock :=
  [usbStart 48000 0, .stop 4800, usbStart 96000 1, .stop 0].foldl AudioClock.next (.boot 0)

theorem next_pacedBetween
    : (pacedBetween.next (usbStart 96000 0)).streams
        = [⟨0, 96000, 1⟩, ⟨1, 96000, 1⟩, ⟨0, 48000, 1⟩] := by
  decide

theorem not_epochLaw_pacedBetween
    : ¬ ∀ pipeline c r, Run AudioClock.next free (.boot pipeline) c → EpochLaw c r := by
  intro h
  have happart := (h 0 pacedBetween (usbStart 96000 0) (Run.foldl _ .start)).apart
  rw [next_pacedBetween] at happart
  exact happart ⟨0, 96000, 1⟩ (by decide) ⟨0, 48000, 1⟩ (by decide) rfl rfl (by decide) rfl

end Run

end Harp
