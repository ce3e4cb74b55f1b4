import Harp.Core.Store
import Harp.Lib.LinearProbe

/-!
This module contains the garbage collector of `core/src/store.c`: it marks what is reachable from
the refs it lists and sweeps the rest.

A probe that never ends and a recursion deeper than `fuel` set `stuck`, after which nothing happens
any more; a collection that gets stuck does not return (`none`).
-/

namespace Harp

open LinearProbe

def objName (name : Bytes) : Option Hash :=
  if name.head? = some dot then
    none
  else if strstr name (ascii ".tmp.") then
    none
  else
    hashFromHex name

def objNames (s : Store) : List Hash :=
  s.objects.filterMap (fun e => objName e.1)

def storeObjForeach (s : Store) (cb : HashCb σ) (ud : σ) : σ :=
  go (objNames s) ud
where
  go : List Hash → σ → σ
    | [], ud => ud
    | h :: hs, ud =>
      match cb h ud with
      | (true, ud) => go hs ud
      | (false, ud) => ud

def storeObjCount (s : Store) : Nat :=
  storeObjForeach s (fun _ n => (true, n + 1)) 0

def storeObjDelete (s : Store) (h : Hash) : Bool × Store :=
  match objFile s h with
  | none => (true, s)
  | some f =>
    if f.removable then
      (true, { s with objects := eraseObj (hashHex h) s.objects })
    else
      (!f.readable, s)

-- The first eight bytes as a little-endian word; the table reduces it modulo its capacity.
def hsSlot (h : Hash) : Nat :=
  (h.b.take 8).foldr (fun b v => b.toNat + 256 * v) 0

abbrev Hashset := Table hsSlot

structure MarkCtx where
  set : Hashset
  aborted : Bool
  stuck : Bool

def markObj (s : Store) (fuel : Nat) (m : MarkCtx) (h : Hash) : MarkCtx :=
  if m.stuck ∨ m.aborted then
    m
  else
    match fuel with
    | 0 => { m with stuck := true }
    | fuel + 1 =>
      match m.set.add h with
      | none => { m with stuck := true }
      | some (false, _) => m
      | some (true, set) =>
        let m := { m with set }
        match storeGet s h with
        | none => { m with aborted := true }
        | some enc =>
          let markChildCb : HashCb MarkCtx := fun h m =>
            let m := markObj s fuel m h
            (!m.aborted, m)
          let (ok, m) := objForeachChild enc false markChildCb m
          if ok then m else { m with aborted := true }

def markRefCb (s : Store) (fuel : Nat) (r : Ref) (m : MarkCtx) : MarkCtx :=
  match r.hash with
  | none => m
  | some h => markObj s fuel m h

structure SweepCtx where
  s : Store
  deleted : Nat
  stuck : Bool

def sweepCb (set : Hashset) (max : Nat) : HashCb SweepCtx := fun h w =>
  match set.has h with
  | none => (false, { w with stuck := true })
  | some true => (true, w)
  | some false =>
    if max ≠ 0 ∧ w.deleted ≥ max then
      (false, w)
    else
      let (ok, s) := storeObjDelete w.s h
      (true, { w with s, deleted := if ok then w.deleted + 1 else w.deleted })

def gcCap (need fuel cap : Nat) : Nat :=
  match fuel with
  | 0 => cap
  | fuel + 1 => if cap < need then gcCap need fuel (cap * 2) else cap

theorem gcCap_pos (need fuel cap : Nat) (h : 0 < cap) : 0 < gcCap need fuel cap := by
  induction fuel generalizing cap with
  | zero => exact h
  | succ fuel ih =>
    unfold gcCap
    split
    . apply ih
      omega
    . exact h

structure GcOut where
  ret : Int
  store : Store
  reclaimed : Nat

def storeGc (s : Store) (maxSweep : Nat) : Option GcOut :=
  let nobj := storeObjCount s
  let need := (nobj + 1) * 2
  let cap := gcCap need need 16
  let m : MarkCtx := ⟨Table.empty hsSlot cap (gcCap_pos need need 16 (by omega)), false, false⟩
  let (_, m) := storeRefList s (markRefCb s (nobj + 2)) m
  if m.stuck then
    none
  else if m.aborted then
    some ⟨-1, s, 0⟩
  else
    let w := storeObjForeach s (sweepCb m.set maxSweep) ⟨s, 0, false⟩
    if w.stuck then
      none
    else
      some ⟨0, w.s, w.deleted⟩

end Harp
