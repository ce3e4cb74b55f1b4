import Harp.Device.Voices

/-!
This module contains the synthesizer of `device/engine.c`: what a due event does to a part, the
render loop with its segments, the main mix and the part outputs, and the note messages of
`handle_evt_msg` in `device/session.c`.

The meters of the render, which nothing here reads, are not modelled.
-/

namespace Harp

open Ieee

variable {D X : Type}

/--
The state of the engine. `applied` is not part of the source: it records what `evq_apply_due` has
applied and at which position.
-/
structure Engine (D : Type) where
  parts : Fin nParts → Part D
  evt : EvtState
  touchPending : Bool
  evtLate : Nat
  rampLate : Nat
  applied : List (Nat × DevEvent)

section Apply

def harpEvtPart (channel : Nat) : Fin nParts :=
  ⟨channel % nParts, Nat.mod_lt _ (by decide)⟩

def harpModTargetsVoice (evVoice : Nat) (active : Bool) (voiceId : Nat) : Bool :=
  active ∧ (evVoice = 0 ∨ voiceId = evVoice)

inductive ModTarget where
  | ignore
  | bend
  | pressure
  | param (i : Fin nParams)
deriving DecidableEq, Repr

def harpModPitchBend : Nat := 0x2001
def harpModPressure : Nat := 0x2002

def harpModTarget (a : Nat) : ModTarget :=
  if a = harpModPitchBend then
    .bend
  else if a = harpModPressure then
    .pressure
  else
    match paramIndex a with
    | some i => .param i
    | none => .ignore

def Part.noteOn (p : Part D) (ev : DevEvent) : Part D :=
  let p := p.arpLatchAdd (ev.a % 256) ev.v
  if ¬ p.arpEngaged then
    let vid := if ev.voice ≠ 0 then ev.voice else ev.channel * 256 + ev.a % 128
    p.voiceNoteOn ev.a ev.v vid
  else
    p

def Part.noteOff (p : Part D) (ev : DevEvent) : Part D :=
  let p := p.arpLatchRemove (ev.a % 256)
  if ¬ p.arpEngaged then
    p.voiceNoteOff ev.a
  else if p.arp.latch.keys = [] then
    p.arpVoiceOff
  else
    p

def Part.allOff (p : Part D) : Part D :=
  p.arpReset.freeVoices

-- The timeline of a transport event: flag 0 plays, flag 3 has a tempo and flag 5 a song position.
def Part.anchored (pos : Nat) (p : Part D) (ev : DevEvent) : Part D :=
  { p with arp := { p.arp with
      playing := ev.a.testBit 0,
      tempo := if ev.a.testBit 3 then widen ev.v else p.arp.tempo,
      anchorPpq := if ev.a.testBit 5 then ev.ppq else p.arp.anchorPpq,
      anchorSsi := if ev.a.testBit 5 then (if ev.ts ≠ 0 then ev.ts else pos) else p.arp.anchorSsi,
      anchorValid := p.arp.anchorValid || ev.a.testBit 5 } }

def Part.restart (p : Part D) : Part D :=
  { p with arp := { p.arp with step := 0 } }

def Part.transport (pos : Nat) (p : Part D) (ev : DevEvent) : Part D :=
  let was := p.arp.playing
  let p := p.anchored pos ev
  let p := if ¬ p.arp.playing ∧ was then p.arpVoiceOff else p
  if p.arp.playing ∧ ¬ was then p.restart else p

def Part.setRamp (p : Part D) (i : Fin nParams) (r : Ramp) : Part D :=
  { p with ramps := fun j => if j = i then r else p.ramps j }

def Part.paramSet (k : Kernel D X) (p : Part D) (ev : DevEvent) : Part D :=
  match paramIndex ev.a with
  | none => p
  | some j =>
    if ev.voice ≠ 0 then
      p.mapVoices (fun v =>
        if harpModTargetsVoice ev.voice v.active v.voiceId then
          { v with
            mod := fun i => if i = j then k.sub ev.v (p.pval j) else v.mod i,
            vramp := { v.vramp with active := false },
            hasMod := true }
        else v)
    else
      { p with pval := fun i => if i = j then ev.v else p.pval i }.setRamp j
        { p.ramps j with active := false }

def Part.rampTo (k : Kernel D X) (pos : Nat) (p : Part D) (ev : DevEvent) : Part D :=
  match paramIndex ev.a with
  | none => p
  | some j =>
    if ev.voice ≠ 0 then
      p.mapVoices (fun v =>
        if harpModTargetsVoice ev.voice v.active v.voiceId then
          { v with
            vramp := ⟨true, pos, ev.end_, v.mod j, k.sub ev.v (p.pval j)⟩,
            vrampIdx := j,
            hasMod := true }
        else v)
    else
      p.setRamp j ⟨true, pos, ev.end_, p.pval j, ev.v⟩

def Voice.modulate (v : Voice D) (x : F32) : ModTarget → Voice D
  | .ignore => v
  | .bend => { v with bendSemis := x }
  | .pressure => { v with zGain := x }
  | .param j => { v with mod := fun i => if i = j then x else v.mod i, hasMod := true }

def Part.modulate (p : Part D) (ev : DevEvent) : Part D :=
  p.mapVoices (fun v =>
    if harpModTargetsVoice ev.voice v.active v.voiceId then
      v.modulate ev.v (harpModTarget ev.a)
    else v)

/--
What an event does to a part; `routed` says whether the channel of the event is the part's. A panic
and a transport anchor go to every part.
-/
def Part.applyEvent (k : Kernel D X) (pos : Nat) (ev : DevEvent) (routed : Bool) (p : Part D)
    : Part D :=
  match ev.kind with
  | .noteOn => if routed then p.noteOn ev else p
  | .noteOff => if routed then p.noteOff ev else p
  | .allOff => p.allOff
  | .transport => p.transport pos ev
  | .paramSet => if routed then p.paramSet k ev else p
  | .ramp => if routed then p.rampTo k pos ev else p
  | .mod => if routed then p.modulate ev else p

def DevEvent.rampLate (ev : DevEvent) (pos : Nat) : Bool :=
  ev.kind = .ramp ∧ ev.end_ ≠ 0 ∧ ev.end_ < pos

def DevEvent.evtLate (ev : DevEvent) (pos : Nat) : Bool :=
  ev.kind ≠ .ramp ∧ ev.ts ≠ 0 ∧ ev.ts < pos

def Engine.applyEvent (k : Kernel D X) (pos : Nat) (e : Engine D) (ev : DevEvent) : Engine D :=
  { e with
    parts := fun q => (e.parts q).applyEvent k pos ev (q = harpEvtPart ev.channel),
    touchPending := e.touchPending || ev.dirties,
    evtLate := e.evtLate + (ev.evtLate pos).toNat,
    rampLate := e.rampLate + (ev.rampLate pos).toNat,
    applied := e.applied ++ [(pos, ev)] }

structure Scan (D : Type) where
  e : Engine D
  kept : List DevEvent
  next : Nat

-- One event of the queue: consumed when due, else kept and looked at for the next segment.
def Scan.event (k : Kernel D X) (pos limit : Nat) (s : Scan D) (ev : DevEvent) : Scan D :=
  if ev.ts ≤ pos then
    { s with e := s.e.applyEvent k pos ev }
  else
    { s with
      kept := s.kept ++ [ev],
      next := if ev.ts < limit ∧ (s.next = 0 ∨ ev.ts < s.next) then ev.ts else s.next }

def Engine.evqApplyDue (k : Kernel D X) (e : Engine D) (pos limit : Nat) : Engine D × Nat :=
  let s := e.evt.evq.foldl (Scan.event k pos limit) ⟨e, [], 0⟩
  ({ s.e with evt := { s.e.evt with evq := s.kept } }, s.next)

end Apply

section Voices

def smoothSubblock : Nat := 32

def voiceIdleThresh : F32 := Fp.ofBits 0x38d1b717

def Kernel.addFrame (k : Kernel D X) (x y : X × X) : X × X :=
  (k.add x.1 y.1, k.add x.2 y.2)

-- One sub-block of a voice, at the offset `i` of the segment.
def Part.subBlock (k : Kernel D X) (vi : Fin nVoices) (n pos : Nat) (s : Part D × List (X × X))
    (i : Nat) : Part D × List (X × X) :=
  let len := min smoothSubblock (n - i)
  let p := s.1.rampsAdvance k (u64 (pos + i))
  let v := p.voices vi
  let r := k.subBlock v p.pval len
  (p.setVoice vi { v with dsp := r.1 }, s.2 ++ (List.range len).map r.2)

def Part.engineRender (k : Kernel D X) (p : Part D) (vi : Fin nVoices) (out : List (X × X))
    (n pos : Nat) (accumulate : Bool) : Part D × List (X × X) :=
  let v := p.voices vi
  let p := p.setVoice vi { v with dsp := k.land v p.pval }
  let starts := (List.range ((n + smoothSubblock - 1) / smoothSubblock)).map (smoothSubblock * ·)
  let s := starts.foldl (Part.subBlock k vi n pos) (p, [])
  (s.1, if accumulate then List.zipWith k.addFrame out s.2 else s.2)

-- A released voice whose tail has decayed is free again.
def Part.reclaim (k : Kernel D X) (p : Part D) (vi : Fin nVoices) : Part D :=
  let v := p.voices vi
  if v.active ∧ v.note < 0 ∧ (k.env v.dsp).le voiceIdleThresh then
    p.setVoice vi { v with active := false }
  else
    p

structure PoolOut (D X : Type) where
  p : Part D
  out : List (X × X)
  wrote : Bool

def PoolOut.voice (k : Kernel D X) (n pos : Nat) (accumulate : Bool) (s : PoolOut D X)
    (vi : Fin nVoices) : PoolOut D X :=
  if (s.p.voices vi).active then
    let r := s.p.engineRender k vi s.out n pos (if s.wrote then true else accumulate)
    ⟨r.1.reclaim k vi, r.2, true⟩
  else
    s

def Part.renderPartVoices (k : Kernel D X) (p : Part D) (out : List (X × X)) (n pos : Nat)
    (accumulate : Bool) : Part D × List (X × X) :=
  let s := (List.finRange nVoices).foldl (PoolOut.voice k n pos accumulate) ⟨p, out, false⟩
  (s.p, if ¬ s.wrote ∧ ¬ accumulate then List.replicate n (k.zero, k.zero) else s.out)

def Part.partActive (k : Kernel D X) (p : Part D) : Bool :=
  p.arp.latch.keys.length > 0 ∨ p.arp.sounding ≥ 0 ∨ p.panicNote ≠ .none ∨
    (List.finRange nVoices).any (fun vi =>
      (p.voices vi).active || voiceIdleThresh.lt (k.env (p.voices vi).dsp))

end Voices

section Render

def Engine.setPart (e : Engine D) (q : Fin nParts) (p : Part D) : Engine D :=
  { e with parts := fun i => if i = q then p else e.parts i }

-- The length of the next segment, truncated to 32 bits as the source does.
def segLen (next cur done n : Nat) : Nat :=
  let seg := if next ≠ 0 then (next - cur) % 2 ^ 32 else n - done
  let seg := if seg = 0 then 1 else seg
  if seg > n - done then n - done else seg

/--
The start of a segment, the same on both render paths: due events, panics, arp steps, and the next
deadline over all parts.
-/
def Engine.segStart (k : Kernel D X) (e : Engine D) (cur limit : Nat) : Engine D × Nat :=
  let (e, next) := e.evqApplyDue k cur limit
  let e := { e with parts := fun q => (e.parts q).panicService.arpFireDue k cur }
  (e, (List.finRange nParts).foldl (fun next q =>
    let anext := (e.parts q).arpNextDeadline k cur
    if anext ≠ 0 ∧ (next = 0 ∨ anext < next) then anext else next) next)

structure Block (D O : Type) where
  e : Engine D
  done : Nat
  out : O

/--
One turn of the render loop of a block of `n` samples at `pos`. What the segment renders is `body`,
from its length and its position.
-/
def Block.turn {O : Type} (k : Kernel D X) (body : Nat → Nat → Engine D → Engine D × O)
    (append : O → O → O) (pos n : Nat) (b : Block D O) : Block D O :=
  let cur := u64 (pos + b.done)
  let (e, next) := b.e.segStart k cur (u64 (pos + n))
  let seg := segLen next cur b.done n
  let r := body seg cur e
  ⟨r.1, b.done + seg, append b.out r.2⟩

def Block.loop {O : Type} (k : Kernel D X) (body : Nat → Nat → Engine D → Engine D × O)
    (append : O → O → O) (pos n : Nat) : Nat → Block D O → Block D O
  | 0, b => b
  | fuel + 1, b =>
    if b.done < n then
      Block.loop k body append pos n fuel (b.turn k body append pos n)
    else
      b

-- Part 0 writes the segment, the other parts are added while they are active.
def Engine.mixSegment (k : Kernel D X) (seg cur : Nat) (e : Engine D) : Engine D × List (X × X) :=
  let r := (e.parts 0).renderPartVoices k [] seg cur false
  ((List.finRange nParts).filter (· ≠ 0)).foldl (fun s q =>
    if (s.1.parts q).partActive k then
      let r := (s.1.parts q).renderPartVoices k s.2 seg cur true
      (s.1.setPart q r.1, r.2)
    else
      s) (e.setPart 0 r.1, r.2)

def Engine.renderWithEvents (k : Kernel D X) (e : Engine D) (n pos : Nat)
    : Engine D × List (X × X) :=
  let b := Block.loop k (Engine.mixSegment k) (· ++ ·) pos n n ⟨e, 0, []⟩
  (b.e, b.out)

abbrev OutSlot := Fin 34

instance neZeroSlots : NeZero 34 := ⟨by decide⟩

def needMain (slots : List OutSlot) : Bool :=
  slots.any (·.val < 2)

def needPart (slots : List OutSlot) (q : Fin nParts) : Bool :=
  slots.any (fun s => 2 ≤ s.val ∧ (s.val - 2) / 2 = q.val)

structure SlotOut (D X : Type) where
  e : Engine D
  mix : Option (List (X × X))
  cols : Fin nParts → List (X × X)

def SlotOut.part (k : Kernel D X) (slots : List OutSlot) (seg cur : Nat) (s : SlotOut D X)
    (q : Fin nParts) : SlotOut D X :=
  let inMix : Bool := needMain slots ∧ (q = 0 ∨ (s.e.parts q).partActive k)
  if ¬ inMix ∧ ¬ needPart slots q then
    s
  else
    let r := (s.e.parts q).renderPartVoices k [] seg cur false
    { e := s.e.setPart q r.1,
      mix :=
        if inMix then
          match s.mix with
          | none => some r.2
          | some mix => some (List.zipWith k.addFrame mix r.2)
        else
          s.mix,
      cols := fun i => if i = q ∧ needPart slots q then r.2 else s.cols i }

-- The sample a requested slot gives: the main mix for slots 0 and 1, else one side of a part.
def SlotOut.sample (k : Kernel D X) (s : SlotOut D X) (i : Nat) (slot : OutSlot) : X :=
  let frames :=
    if slot.val < 2 then
      s.mix.getD []
    else
      s.cols (harpEvtPart ((slot.val - 2) / 2))
  let frame := frames.getD i (k.zero, k.zero)
  if slot.val % 2 = 1 then frame.2 else frame.1

def Engine.slotSegment (k : Kernel D X) (slots : List OutSlot) (seg cur : Nat) (e : Engine D)
    : Engine D × List (List X) :=
  let s := (List.finRange nParts).foldl (SlotOut.part k slots seg cur) ⟨e, none, fun _ => []⟩
  (s.e, (List.range seg).map (fun i => slots.map (s.sample k i)))

def Engine.renderPartSlots (k : Kernel D X) (e : Engine D) (slots : List OutSlot) (n pos : Nat)
    : Engine D × List (List X) :=
  let b := Block.loop k (Engine.slotSegment k slots) (· ++ ·) pos n n ⟨e, 0, []⟩
  (b.e, b.out)

def Engine.renderOutput (k : Kernel D X) (e : Engine D) (slots : List OutSlot) (n pos : Nat)
    : Engine D × List (List X) :=
  if slots = [0, 1] then
    let r := e.renderWithEvents k n pos
    (r.1, r.2.map (fun x => [x.1, x.2]))
  else
    e.renderPartSlots k slots n pos

end Render

section Boot

def ArpState.boot : ArpState :=
  ⟨false, false, Fp.ofBits 0, Fp.ofBits 0, 0, Latch.empty, 0, -1, 0⟩

def Part.boot (k : Kernel D X) : Part D :=
  ⟨fun _ => Voice.cold k, 0, .none, ArpState.boot, fun i => pvalDefaults.getD i.val half,
    fun _ => Ramp.none⟩

def Engine.boot (k : Kernel D X) : Engine D :=
  ⟨fun _ => Part.boot k, EvtState.fresh, false, 0, 0, []⟩

end Boot

section Messages

def Engine.engineAllNotesOff (e : Engine D) : Engine D :=
  { e with parts := fun q => { e.parts q with panicNote := .all } }

def Engine.engineNoteOffIf (e : Engine D) (note : Nat) : Engine D :=
  { e with parts := fun q => { e.parts q with panicNote := .note note } }

-- A new stream is a new timeline, for `applied` as well.
def Engine.evqResetForNewStream (e : Engine D) : Engine D :=
  { e with
    parts := fun q =>
      let p := (e.parts q).freeVoices
      { p with panicNote := .none, ramps := fun _ => Ramp.none }.arpStreamReset,
    evt := { e.evt with evq := [], evtConsumed := 0 },
    applied := [] }

def Engine.engineVoicesCold (k : Kernel D X) (e : Engine D) : Engine D :=
  { e with parts := fun q => (e.parts q).voicesCold k }

/--
A note-on, a note-off or a panic of `handle_evt_msg`.
-/
def Engine.noteMsg (e : Engine D) (ev : DevEvent) : Engine D :=
  let e := { e with evt := evtStageFlush e.evt }
  let e := if ev.kind = .allOff then e.engineAllNotesOff else e
  if ev.kind ≠ .noteOn ∧ evqFull e.evt then
    if ev.kind = .allOff then e.engineAllNotesOff else e.engineNoteOffIf ev.a
  else
    { e with evt := evqPush e.evt ev }

theorem Engine.noteMsg_evt (e : Engine D) (ev : DevEvent) : (e.noteMsg ev).evt = noteEvt e.evt ev := by
  unfold Engine.noteMsg noteEvt
  by_cases hoff : ev.kind = .allOff
  . simp only [hoff, if_true]
    split <;> rename_i h <;> simp_all [Engine.engineAllNotesOff]
  . simp only [hoff, if_false]
    split <;> simp_all [Engine.engineNoteOffIf]

end Messages

end Harp
