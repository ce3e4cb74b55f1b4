import Harp.Device.Events

/-!
This module contains one part of the synthesizer of `device/engine.c`: its voice pool, its
arpeggiator, its ramps and the panic mailbox, with the pure helpers of `device/voice_alloc.h`,
`device/arp_select.h` and `device/evq_mod.h`.

The floating-point arithmetic of the voices and of the step clock is an argument.
-/

namespace Harp

open Ieee

abbrev nVoices : Nat := 8

instance neZeroVoices : NeZero nVoices := ⟨by decide⟩

def arpLatchMax : Nat := 8

def u64 (x : Nat) : Nat :=
  x % 2 ^ 64

section Data

-- `dsp` is what the voice kernel keeps from block to block; `note` is -1 when released.
structure Voice (D : Type) where
  note : Int
  noteVel : F32
  noteSeq : Nat
  voiceId : Nat
  allocSeq : Nat
  active : Bool
  mod : Fin nParams → F32
  hasMod : Bool
  bendSemis : F32
  zGain : F32
  vramp : Ramp
  vrampIdx : Fin nParams
  dsp : D

/--
The held keys with their velocities, in press order; no key is held twice.
-/
structure Latch where
  keys : List (Nat × F32)
  bound : keys.length ≤ arpLatchMax
  nodup : (keys.map Prod.fst).Nodup

def Latch.empty : Latch :=
  ⟨[], Nat.zero_le _, List.nodup_nil⟩

structure ArpState where
  playing : Bool
  anchorValid : Bool
  tempo : F64
  anchorPpq : F64
  anchorSsi : Nat
  latch : Latch
  step : Nat
  sounding : Int
  gateOff : Nat

-- `PANIC_NONE`, `PANIC_ALL`, or a note to release.
inductive PanicNote where
  | none
  | all
  | note (n : Nat)
deriving DecidableEq, Repr

structure Part (D : Type) where
  voices : Fin nVoices → Voice D
  allocClock : Nat
  panicNote : PanicNote
  arp : ArpState
  pval : Fin nParams → F32
  ramps : Fin nParams → Ramp

/--
The step clock of the arpeggiator: `arp_next_step_ssi` from the tempo, the anchor, the division and
a position, and the length of the gate from the tempo, the division and the gate value.
-/
structure ArpClock where
  nextStepSsi : (tempo anchorPpq : F64) → (anchorSsi division after : Nat) → Nat
  -- the exit of the loop that looks for the boundary
  lt_nextStepSsi : ∀ tempo ppq ssi division after, after < nextStepSsi tempo ppq ssi division after
  gateLen : (tempo : F64) → (division : Nat) → (gate : F32) → Nat

/--
The floating-point side of the engine. `land` is the first block of a voice, `subBlock` one sub-block
of the control rate with its samples, `line` the point of a ramp at a position.
-/
structure Kernel (D X : Type) extends ArpClock where
  zeroed : D
  env : D → F32
  land : Voice D → (Fin nParams → F32) → D
  subBlock : Voice D → (Fin nParams → F32) → (len : Nat) → D × (Nat → X × X)
  add : X → X → X
  zero : X
  sub : F32 → F32 → F32
  line : Ramp → Nat → F32

end Data

variable {D X : Type}

section Params

def gParamSteps (i : Fin nParams) : Nat :=
  [0, 0, 0, 0, 0, 0, 0, 5, 6, 0, 4, 0].getD i.val 0

def stepOf (n : Nat) (v : F32) : Int :=
  if n ≤ 1 then
    0
  else
    let si := mulTrunc v n
    if si ≥ n then n - 1 else si

def Part.paramStepIndex (p : Part D) (id : Nat) : Int :=
  match paramIndex id with
  | none => 0
  | some i => stepOf (gParamSteps i) (p.pval i)

def Part.paramValue (p : Part D) (id : Nat) : F32 :=
  match paramIndex id with
  | none => Fp.ofBits 0
  | some i => p.pval i

end Params

section Voices

def Part.setVoice (p : Part D) (vi : Fin nVoices) (v : Voice D) : Part D :=
  { p with voices := fun i => if i = vi then v else p.voices i }

def Part.mapVoices (p : Part D) (f : Voice D → Voice D) : Part D :=
  { p with voices := fun i => f (p.voices i) }

def harpVoicePick (active : Fin nVoices → Bool) (allocSeq : Fin nVoices → Nat) : Fin nVoices :=
  match (List.finRange nVoices).find? (fun i => !active i) with
  | some i => i
  | none =>
    (List.finRange nVoices).foldl (fun oldest i =>
      if allocSeq i < allocSeq oldest then i else oldest) 0

def Part.voiceAlloc (p : Part D) : Fin nVoices :=
  harpVoicePick (fun i => (p.voices i).active) (fun i => (p.voices i).allocSeq)

-- A steal keeps the DSP state.
def Part.voiceNoteOn (p : Part D) (note : Int) (vel : F32) (voiceId : Nat) : Part D :=
  let vi := p.voiceAlloc
  let v := p.voices vi
  let p := p.setVoice vi
    { v with
      note,
      noteVel := vel,
      voiceId,
      allocSeq := p.allocClock,
      active := true,
      noteSeq := (v.noteSeq + 1) % 2 ^ 32,
      hasMod := false,
      mod := fun _ => Fp.ofBits 0,
      bendSemis := Fp.ofBits 0,
      zGain := Fp.ofBits 0,
      vramp := { v.vramp with active := false } }
  { p with allocClock := u64 (p.allocClock + 1) }

def Part.voiceNoteOff (p : Part D) (note : Int) : Part D :=
  p.mapVoices (fun v => if v.active ∧ v.note = note then { v with note := -1 } else v)

-- Released and freed, as every hard panic does it; the DSP state stays.
def Part.freeVoices (p : Part D) : Part D :=
  p.mapVoices (fun v => { v with note := -1, active := false })

def Voice.cold (k : Kernel D X) : Voice D :=
  ⟨-1, Fp.ofBits 0, 0, 0, 0, false, fun _ => Fp.ofBits 0, false, Fp.ofBits 0, Fp.ofBits 0, Ramp.none,
    0, k.zeroed⟩

def Part.voicesCold (k : Kernel D X) (p : Part D) : Part D :=
  { p with voices := fun _ => Voice.cold k, allocClock := 0 }

def Part.panicService (p : Part D) : Part D :=
  match p.panicNote with
  | .none => p
  | .all => { p.freeVoices with panicNote := .none }
  | .note n => { p.voiceNoteOff n with panicNote := .none }

end Voices

section Arp

def Part.arpActive (p : Part D) : Bool :=
  p.paramStepIndex 8 ≠ 0

-- The step clock owns the notes of the part.
def Part.arpEngaged (p : Part D) : Bool :=
  p.arpActive ∧ p.arp.playing ∧ p.arp.anchorValid

def Part.arpVoiceOff (p : Part D) : Part D :=
  let v0 := p.voices 0
  let p := if p.arp.sounding ≥ 0 ∧ v0.note = p.arp.sounding then
    p.setVoice 0 { v0 with note := -1 } else p
  { p with arp := { p.arp with sounding := -1, gateOff := 0 } }

def Part.arpVoiceOn (p : Part D) (note : Int) (vel : F32) : Part D :=
  let v0 := p.voices 0
  p.setVoice 0
    { v0 with noteVel := vel, note, noteSeq := (v0.noteSeq + 1) % 2 ^ 32, active := true }

def Latch.add (l : Latch) (note : Nat) (vel : F32) : Latch :=
  if h : note ∈ l.keys.map Prod.fst then
    { keys := l.keys.map (fun x => if x.1 = note then (note, vel) else x),
      bound := by
        rw [List.length_map]
        exact l.bound,
      nodup := by
        have hkeys : (l.keys.map (fun x => if x.1 = note then (note, vel) else x)).map Prod.fst =
            l.keys.map Prod.fst := by
          rw [List.map_map]
          apply List.map_congr_left
          intro x _
          dsimp only [Function.comp]
          split
          next hx => exact hx.symm
          next => rfl
        rw [hkeys]
        exact l.nodup }
  else if hroom : l.keys.length < arpLatchMax then
    { keys := l.keys ++ [(note, vel)],
      bound := by
        rw [List.length_append]
        exact hroom,
      nodup := by
        rw [List.map_append, List.nodup_append]
        refine ⟨l.nodup, by simp, ?_⟩
        intro a ha b hb heq
        rw [heq, List.mem_singleton.mp hb] at ha
        exact h ha }
  else
    l

def Latch.remove (l : Latch) (note : Nat) : Latch where
  keys := l.keys.eraseP (·.1 = note)
  bound := Nat.le_trans List.length_eraseP_le l.bound
  nodup := (List.eraseP_sublist.map Prod.fst).nodup l.nodup

def Part.arpLatchAdd (p : Part D) (note : Nat) (vel : F32) : Part D :=
  { p with arp := { p.arp with latch := p.arp.latch.add note vel } }

def Part.arpLatchRemove (p : Part D) (note : Nat) : Part D :=
  { p with arp := { p.arp with latch := p.arp.latch.remove note } }

def Part.arpReset (p : Part D) : Part D :=
  { p with arp := { p.arp with latch := Latch.empty, step := 0 } }.arpVoiceOff

def Part.arpStreamReset (p : Part D) : Part D :=
  let p := p.arpReset
  { p with arp := { p.arp with anchorValid := false, playing := false, tempo := Fp.ofBits 0 } }

structure ArpPick where
  note : Int
  sel : Nat
deriving DecidableEq, Repr

-- The in-place sort of the indices by pitch.
def arpOrder (latch : List Nat) : List Nat :=
  let n := latch.length
  (List.range n).foldl (fun order i =>
    (List.range' (i + 1) (n - (i + 1))).foldl (fun order j =>
      let oi := order.getD i 0
      let oj := order.getD j 0
      if latch.getD oj 0 < latch.getD oi 0 then (order.set i oj).set j oi else order) order)
    (List.range n)

def harpArpSelect (mode : Int) (step : Nat) (latch : List Nat) (octaves : Nat) : ArpPick :=
  let nlatch := latch.length
  let span := nlatch * (octaves + 1)
  let s := step % span
  let t :=
    if mode = 2 then
      span - 1 - s
    else if mode = 3 then
      let cycle := if span > 1 then 2 * span - 2 else 1
      let t := step % cycle
      if t ≥ span then cycle - t else t
    else
      s
  let idx := t % nlatch
  let oct := t / nlatch
  let order := if mode ≠ 4 then arpOrder latch else List.range nlatch
  let sel := order.getD idx 0
  let note := latch.getD sel 0 + 12 * oct
  ⟨(if note > 127 then latch.getD sel 0 else note : Nat), sel⟩

-- `tempo <= 0`, false of a NaN.
def tempoStopped (tempo : F64) : Bool :=
  tempo.le (Fp.ofBits 0)

def Part.arpNextStepSsi (k : Kernel D X) (p : Part D) (after : Nat) : Nat :=
  k.nextStepSsi p.arp.tempo p.arp.anchorPpq p.arp.anchorSsi (p.paramStepIndex 9).toNat after

def Part.arpNextDeadline (k : Kernel D X) (p : Part D) (pos : Nat) : Nat :=
  if ¬ p.arpActive ∨ ¬ p.arp.playing ∨ ¬ p.arp.anchorValid ∨ tempoStopped p.arp.tempo then
    0
  else
    let next := if p.arp.latch.keys.length > 0 then p.arpNextStepSsi k pos else 0
    let gateOff := p.arp.gateOff
    if gateOff ≠ 0 ∧ gateOff > pos ∧ (next = 0 ∨ gateOff < next) then gateOff else next

def Part.arpFire (k : Kernel D X) (p : Part D) (pos : Nat) : Part D :=
  let keys := p.arp.latch.keys
  let pick := harpArpSelect (p.paramStepIndex 8) p.arp.step (keys.map Prod.fst)
    (p.paramStepIndex 11).toNat
  let vel := (keys.map Prod.snd).getD pick.sel (Fp.ofBits 0)
  let len := k.gateLen p.arp.tempo (p.paramStepIndex 9).toNat (p.paramValue 10)
  let gateOff := u64 (pos + len)
  let p := p.arpVoiceOn pick.note vel
  { p with arp := { p.arp with
      sounding := pick.note,
      gateOff := if gateOff ≤ pos then u64 (pos + 1) else gateOff,
      step := p.arp.step + 1 } }

-- The pending gate, served at its position or later.
def Part.arpGate (p : Part D) (pos : Nat) : Part D :=
  if p.arp.gateOff ≠ 0 ∧ pos ≥ p.arp.gateOff then p.arpVoiceOff else p

-- A step, where `pos` is the boundary seen from the position before it.
def Part.arpStep (k : Kernel D X) (p : Part D) (pos : Nat) : Part D :=
  if ¬ p.arp.playing ∨ ¬ p.arp.anchorValid ∨ tempoStopped p.arp.tempo ∨ p.arp.latch.keys = [] ∨
      pos = 0 then
    p
  else if p.arpNextStepSsi k (pos - 1) ≠ pos then
    p
  else
    p.arpFire k pos

def Part.arpFireDue (k : Kernel D X) (p : Part D) (pos : Nat) : Part D :=
  if ¬ p.arpActive then p else (p.arpGate pos).arpStep k pos

end Arp

section Ramps

-- The tick of one ramp into the value it drives.
def Ramp.tick (line : Ramp → Nat → F32) (r : Ramp) (pos : Nat) (v : F32) : F32 :=
  if ¬ r.active then
    v
  else if pos ≥ r.stop ∨ r.stop ≤ r.start then
    r.target
  else if pos > r.start then
    line r pos
  else
    v

def Ramp.settle (r : Ramp) (pos : Nat) : Ramp :=
  if r.active ∧ (pos ≥ r.stop ∨ r.stop ≤ r.start) then { r with active := false } else r

def Voice.rampAdvance (line : Ramp → Nat → F32) (v : Voice D) (pos : Nat) : Voice D :=
  { v with
    mod := fun i => if i = v.vrampIdx then v.vramp.tick line pos (v.mod i) else v.mod i,
    vramp := v.vramp.settle pos }

def Part.rampsAdvance (k : Kernel D X) (p : Part D) (pos : Nat) : Part D :=
  { p with
    pval := fun i => (p.ramps i).tick k.line pos (p.pval i),
    ramps := fun i => (p.ramps i).settle pos,
    voices := fun i => (p.voices i).rampAdvance k.line pos }

end Ramps

end Harp
