import Harp.Host.FxFeeder

/-!
This module contains the parameter automation of `shell/param_automation.h`: points of the host become
sets and ramps, close points are folded, and edits of an absent device are replayed when it is back.
-/

namespace Harp

open Ieee

variable {n : Nat}

-- What the automation sees of the runtime. `fxHorizon` is that of an armed effect.
structure AutoRt where
  connected : Bool
  sessionGen : UInt64
  held : Bool
  fxHorizon : Option UInt64
  channel : Fin 16
  tag : UInt32

def AutoRt.clampTs (rt : AutoRt) (ts : UInt64) : UInt64 :=
  match rt.fxHorizon with
  | none => ts
  | some h => fxClampTs h ts

/--
The state of the automation, by the slot of a parameter; no two slots have one parameter.
-/
structure ParamAutomation (n : Nat) where
  ids : Fin n → UInt32
  ids_inj : Function.Injective ids
  curVal : Fin n → F32
  lastTs : Fin n → UInt64
  pendTs : Fin n → UInt64
  pendVal : Fin n → F32
  hasLast : Fin n → Bool
  pendHas : Fin n → Bool
  dirtyOffline : Fin n → Bool
  gen : UInt64
  connected : Bool
  wasConnected : Bool
  everConnected : Bool

def kThinSamples : UInt64 := 256
def kJumpSamples : UInt64 := 4800

namespace ParamAutomation

def init (ids : Fin n → UInt32) (ids_inj : Function.Injective ids) (defaults : Fin n → F32)
    : ParamAutomation n where
  ids
  ids_inj
  curVal := defaults
  lastTs _ := 0
  pendTs _ := 0
  pendVal _ := Fp.ofBits 0
  hasLast _ := false
  pendHas _ := false
  dirtyOffline _ := false
  gen := 0
  connected := false
  wasConnected := false
  everConnected := false

-- The current value of a point, which is replayed when it comes while the device is absent.
def track (pa : ParamAutomation n) (i : Fin n) (v : F32) : ParamAutomation n :=
  { pa with
    curVal := Function.update pa.curVal i v,
    dirtyOffline :=
      if pa.everConnected ∧ ¬ pa.connected then Function.update pa.dirtyOffline i true
      else pa.dirtyOffline }

-- Too soon after the last point.
def folds (pa : ParamAutomation n) (i : Fin n) (ts : UInt64) : Bool :=
  pa.hasLast i ∧ ts > pa.lastTs i ∧ ts - pa.lastTs i < kThinSamples

def ramps (pa : ParamAutomation n) (i : Fin n) (ts : UInt64) : Bool :=
  pa.hasLast i ∧ ts > pa.lastTs i ∧ ts - pa.lastTs i ≤ kJumpSamples

-- The gesture of a pending fold is over.
def due (pa : ParamAutomation n) (base : UInt64) (i : Fin n) : Bool :=
  pa.pendHas i ∧ base ≥ pa.pendTs i + kThinSamples

end ParamAutomation

-- The automation with the events it has queued; the ring is never full.
structure AutoShell (n : Nat) where
  pa : ParamAutomation n
  queued : List TimedEv
  roWrDrops : Nat

namespace AutoShell

def queueParamSet (rt : AutoRt) (id : UInt32) (v : F32) (ts : UInt64) (s : AutoShell n)
    : AutoShell n :=
  if rt.held then
    { s with roWrDrops := s.roWrDrops + 1 }
  else
    { s with queued := s.queued ++ [⟨.param, id, v, rt.clampTs ts, 0, rt.channel, rt.tag⟩] }

def queueRamp (rt : AutoRt) (id : UInt32) (target : F32) (start end_ : UInt64) (s : AutoShell n)
    : AutoShell n :=
  if rt.held then
    { s with roWrDrops := s.roWrDrops + 1 }
  else
    let end_ := if rt.fxHorizon.isSome ∧ end_ < rt.clampTs start then rt.clampTs start else end_
    { s with
      queued := s.queued ++ [⟨.ramp, id, target, rt.clampTs start, end_, rt.channel, rt.tag⟩] }

-- A new session forgets what carries positions of the old one.
def adopt (rt : AutoRt) (s : AutoShell n) : AutoShell n :=
  if rt.sessionGen ≠ s.pa.gen then
    { s with pa := { s.pa with
        gen := rt.sessionGen,
        hasLast := fun _ => false,
        pendHas := fun _ => false } }
  else
    s

def replay (rt : AutoRt) (s : AutoShell n) (i : Fin n) : AutoShell n :=
  if s.pa.dirtyOffline i then
    let s := s.queueParamSet rt (s.pa.ids i) (s.pa.curVal i) 0
    { s with pa := { s.pa with dirtyOffline := Function.update s.pa.dirtyOffline i false } }
  else
    s

-- The first connect replays nothing.
def reconnect (rt : AutoRt) (s : AutoShell n) : AutoShell n :=
  let s := { s with pa := { s.pa with connected := rt.connected } }
  let s :=
    if s.pa.connected ∧ ¬ s.pa.wasConnected then
      let s := if s.pa.everConnected then (List.finRange n).foldl (replay rt) s else s
      { s with pa := { s.pa with everConnected := true } }
    else
      s
  { s with pa := { s.pa with wasConnected := s.pa.connected } }

def flush (rt : AutoRt) (base : UInt64) (s : AutoShell n) (i : Fin n) : AutoShell n :=
  if s.pa.due base i then
    let s := s.queueParamSet rt (s.pa.ids i) (s.pa.pendVal i) 0
    { s with pa := { s.pa with
        lastTs := Function.update s.pa.lastTs i (s.pa.pendTs i),
        pendHas := Function.update s.pa.pendHas i false } }
  else
    s

def beginBlock (rt : AutoRt) (base : UInt64) (s : AutoShell n) : AutoShell n :=
  (List.finRange n).foldl (flush rt base) ((s.adopt rt).reconnect rt)

-- The write of a point that is not folded.
def emit (rt : AutoRt) (i : Fin n) (v : F32) (ts : UInt64) (s : AutoShell n) : AutoShell n :=
  if s.pa.ramps i ts then s.queueRamp rt (s.pa.ids i) v (s.pa.lastTs i) ts
  else s.queueParamSet rt (s.pa.ids i) v ts

def point (rt : AutoRt) (i : Fin n) (v : F32) (ts : UInt64) (s : AutoShell n) : AutoShell n :=
  let s := { s with pa := s.pa.track i v }
  if s.pa.folds i ts then
    { s with pa := { s.pa with
        pendHas := Function.update s.pa.pendHas i true,
        pendTs := Function.update s.pa.pendTs i ts,
        pendVal := Function.update s.pa.pendVal i v } }
  else
    let s := s.emit rt i v ts
    { s with pa := { s.pa with
        lastTs := Function.update s.pa.lastTs i ts,
        hasLast := Function.update s.pa.hasLast i true,
        pendHas := Function.update s.pa.pendHas i false } }

-- The value of the last event of a parameter.
def lastValue (s : AutoShell n) (i : Fin n) : Option F32 :=
  ((s.queued.filter (·.a = s.pa.ids i)).getLast?).map (·.v)

end AutoShell

end Harp
