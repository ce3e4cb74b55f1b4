import Harp.Core.CborFloat
import Harp.Core.Store

/-!
This module contains the parameter values of the engine and their codec, from `device/engine.c` and
`device/state.c`: 16 parts with 12 parameters each, and the params blob of a snapshot.
-/

namespace Harp

open Ieee

abbrev nParts : Nat := 16

abbrev nParams : Nat := 12

instance neZeroParts : NeZero nParts := ⟨by decide⟩

instance neZeroParams : NeZero nParams := ⟨by decide⟩

abbrev Grid := Fin nParts → Fin nParams → F32

-- The ids of `g_params`, in table order.
def gParamIds : List Nat :=
  [1, 2, 3, 4, 5, 6, 7, 8, 9, 10, 11, 12]

def gParamId (i : Fin nParams) : Nat :=
  gParamIds.getD i.val 0

def half : F32 := Fp.ofBits 0x3f000000

def pvalDefaults : List F32 :=
  [half, half, half, half, half, half, half, Fp.ofBits 0, Fp.ofBits 0x3f19999a, half, Fp.ofBits 0,
    Fp.ofBits 0]

def factoryGrid : Grid := fun _ i =>
  pvalDefaults.getD i.val half

def paramIndex (id : Nat) : Option (Fin nParams) :=
  (List.finRange nParams).find? (fun i => gParamId i = id)

def paramsMedia : Bytes :=
  ascii "application/x.harp-refdev.params"

def refdevEncodeParamsBlob (v : Grid) : Bytes :=
  cborMap nParts ++ (List.finRange nParts).flatMap (fun pi =>
    cborUint pi.val ++ (cborMap nParams ++ (List.finRange nParams).flatMap (fun i =>
      cborUint (gParamId i) ++ cborFloat (widen (v pi i)))))

-- The scratch grid together with its presence mask.
abbrev Cells := Fin nParts → Fin nParams → Option F32

def Cells.empty : Cells := fun _ _ => none

def gridSet (pi : Fin nParts) (id : Nat) (val : F64) (v : Cells) : Cells :=
  match paramIndex id with
  | some j => fun p i => if p = pi ∧ i = j then some (narrow val) else v p i
  | none => v

def readPair : Dec (Nat × F64) := do
  let id ← cdecUint
  let val ← cdecFloat
  return (id, val)

-- `none` is the part index `-1`: the pairs are consumed and discarded.
def partCell (pi : Option (Fin nParts)) (pair : Nat × F64) (v : Cells) : Cells :=
  match pi with
  | some pi => gridSet pi pair.1 pair.2 v
  | none => v

def parsePartMap (pi : Option (Fin nParts)) (v : Cells) : Dec Cells := do
  let n ← cdecMap
  Dec.loop n (fun v => do let pair ← readPair; return partCell pi pair v) v

def partOf (key : Nat) : Option (Fin nParts) :=
  if h : key < nParts then some ⟨key, h⟩ else none

def cdecPeek (d : Cdec) : Option Nat :=
  if d.err then none else d.p.head?.map (fun b => b.toNat >>> 5)

def parsePartEntry (v : Cells) : Dec Cells := do
  let pidx ← cdecUint
  parsePartMap (partOf pidx) v

def parseFlatEntry (v : Cells) : Dec Cells := do
  let pair ← readPair
  return gridSet 0 pair.1 pair.2 v

def parseParams : Dec Cells := do
  let n ← cdecMap
  if n = 0 then
    return Cells.empty
  else
    let firstKey ← cdecUint
    fun d =>
      match cdecPeek d with
      | some 5 =>
        (do
          let v ← parsePartMap (partOf firstKey) Cells.empty
          Dec.loop (n - 1) parsePartEntry v : Dec Cells) d
      | some 7 =>
        -- the old flat map goes to part 0
        (do
          let val ← cdecFloat
          Dec.loop (n - 1) parseFlatEntry (gridSet 0 firstKey val Cells.empty) : Dec Cells) d
      | _ => (none, d)

def refdevParseParamsBlob (payload : Bytes) : Option Cells :=
  (parseParams (Cdec.init payload)).1

def engineEncodeParamsBlob (v : Grid) : Bytes :=
  objEncodeBlob paramsMedia (refdevEncodeParamsBlob v)

def overlay (v : Cells) (g : Grid) : Grid := fun p i =>
  (v p i).getD (g p i)

end Harp
