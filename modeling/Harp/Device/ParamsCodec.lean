import Harp.Core.CborLemmas
import Harp.Device.Params

/-!
This module contains the round trip of the params blob: what `refdev_parse_params_blob` reads back of
the values `refdev_encode_params_blob` has written.
-/

namespace Harp

open Ieee

variable (g : Grid)

def encodeParam (p : Fin nParts) (i : Fin nParams) : Bytes :=
  cborUint (gParamId i) ++ cborFloat (widen (g p i))

def encodePart (p : Fin nParts) : Bytes :=
  cborUint p.val ++ (cborMap nParams ++ (List.finRange nParams).flatMap (encodeParam g p))

theorem refdevEncodeParamsBlob_eq
    : refdevEncodeParamsBlob g = cborMap nParts ++ (List.finRange nParts).flatMap (encodePart g) :=
  rfl

theorem paramIndex_gParamId (i : Fin nParams) : paramIndex (gParamId i) = some i := by
  revert i
  decide

theorem gParamId_lt (i : Fin nParams) : gParamId i < 2 ^ 64 := by
  revert i
  decide

theorem partOf_val (p : Fin nParts) : partOf p.val = some p := by
  simp [partOf]

theorem length_cborUint_pos (v : Nat) : 0 < (cborUint v).length :=
  List.length_pos_iff.mpr (putHead_ne_nil 0 v)

theorem length_cborFloat_pos (v : F64) : 0 < (cborFloat v).length := by
  unfold cborFloat
  dsimp only
  split
  . split <;> simp
  . simp

theorem two_le_encodeParam (p : Fin nParts) (i : Fin nParams)
    : 2 ≤ (encodeParam g p i).length := by
  have hid := length_cborUint_pos (gParamId i)
  have hval := length_cborFloat_pos (widen (g p i))
  unfold encodeParam
  rw [List.length_append]
  omega

theorem two_le_encodePart (p : Fin nParts) : 2 ≤ (encodePart g p).length := by
  have hid := length_cborUint_pos p.val
  have hmap : 0 < (cborMap nParams).length := List.length_pos_iff.mpr (putHead_ne_nil 5 _)
  unfold encodePart
  rw [List.length_append, List.length_append]
  omega

theorem parsePart_param (p : Fin nParts) (i : Fin nParams) (v : Cells) (rest : Bytes)
    : (do let pair ← readPair; return partCell (some p) pair v : Dec Cells)
          ⟨encodeParam g p i ++ rest, false⟩
        = (some (fun p' i' => if p' = p ∧ i' = i then some (canon (g p i)) else v p' i'),
            ⟨rest, false⟩) := by
  rcases cdecFloat_cborFloat (g p i) rest with ⟨x, hx, hcanon⟩
  have hid := cdecUint_cborUint (cborFloat (widen (g p i)) ++ rest) (gParamId_lt i)
  have hpair : readPair ⟨encodeParam g p i ++ rest, false⟩
      = (some (gParamId i, x), ⟨rest, false⟩) := by
    unfold readPair encodeParam
    rw [Dec.bind_eq, List.append_assoc, Dec.bind_of_some hid, Dec.bind_eq, Dec.bind_of_some hx]
    rfl
  rw [Dec.bind_eq, Dec.bind_of_some hpair]
  simp only [partCell, gridSet, paramIndex_gParamId, hcanon]
  rfl

-- Over any list of parameters: those read are set, the others as before.
theorem parsePart_params (p : Fin nParts) (is : List (Fin nParams)) (v : Cells) (rest : Bytes)
    : Dec.loop is.length (fun v => do let pair ← readPair; return partCell (some p) pair v) v
          ⟨is.flatMap (encodeParam g p) ++ rest, false⟩
        = (some (fun p' i' => if p' = p ∧ i' ∈ is then some (canon (g p' i')) else v p' i'),
            ⟨rest, false⟩) := by
  induction is generalizing v with
  | nil => simp
  | cons i is ih =>
    rw [List.length_cons, List.flatMap_cons, List.append_assoc,
      Dec.loop_succ_of_some (parsePart_param g p i v _), ih]
    congr 2
    funext p' i'
    by_cases hp : p' = p
    . subst hp
      by_cases hi : i' = i
      . subst hi
        simp
      . simp [hi]
    . simp [hp]

theorem parsePartMap_encode (p : Fin nParts) (v : Cells) (rest : Bytes)
    : parsePartMap (some p) v
          ⟨cborMap nParams ++ (List.finRange nParams).flatMap (encodeParam g p) ++ rest, false⟩
        = (some (fun p' i' => if p' = p then some (canon (g p' i')) else v p' i'),
            ⟨rest, false⟩) := by
  have hlen := mul_length_le_flatMap (List.finRange nParams)
    (fun i _ => two_le_encodeParam g p i)
  rw [List.length_finRange] at hlen
  have hmap := cdecMap_cborMap (n := nParams)
    ((List.finRange nParams).flatMap (encodeParam g p) ++ rest) (by decide)
    (by rw [List.length_append]; omega)
  have hloop := parsePart_params g p (List.finRange nParams) v rest
  rw [List.length_finRange] at hloop
  unfold parsePartMap
  rw [Dec.bind_eq, List.append_assoc, Dec.bind_of_some hmap, hloop]
  simp

theorem parsePartEntry_encode (p : Fin nParts) (v : Cells) (rest : Bytes)
    : parsePartEntry v ⟨encodePart g p ++ rest, false⟩
        = (some (fun p' i' => if p' = p then some (canon (g p' i')) else v p' i'),
            ⟨rest, false⟩) := by
  have hkey := cdecUint_cborUint (v := p.val)
    (cborMap nParams ++ (List.finRange nParams).flatMap (encodeParam g p) ++ rest)
    (Nat.lt_trans p.isLt (by decide))
  unfold parsePartEntry encodePart
  rw [Dec.bind_eq, List.append_assoc, Dec.bind_of_some hkey, partOf_val, parsePartMap_encode]

theorem parsePartEntries_encode (ps : List (Fin nParts)) (v : Cells) (rest : Bytes)
    : Dec.loop ps.length parsePartEntry v ⟨ps.flatMap (encodePart g) ++ rest, false⟩
        = (some (fun p' i' => if p' ∈ ps then some (canon (g p' i')) else v p' i'),
            ⟨rest, false⟩) := by
  induction ps generalizing v with
  | nil => simp
  | cons p ps ih =>
    rw [List.length_cons, List.flatMap_cons, List.append_assoc,
      Dec.loop_succ_of_some (parsePartEntry_encode g p v _), ih]
    congr 2
    funext p' i'
    by_cases hp : p' = p
    . subst hp
      simp
    . simp [hp]

/--
Every value is read back, a NaN as the quiet one.
-/
theorem refdevParseParamsBlob_encode
    : refdevParseParamsBlob (refdevEncodeParamsBlob g)
        = some (fun p i => some (canon (g p i))) := by
  obtain ⟨p, ps, hparts⟩ : ∃ p ps, List.finRange nParts = p :: ps := ⟨_, _, rfl⟩
  have hcount : nParts - 1 = ps.length := by
    have hlen := congrArg List.length hparts
    rw [List.length_finRange, List.length_cons] at hlen
    omega
  have hmem : ∀ p', p' = p ∨ p' ∈ ps := by
    intro p'
    rw [← List.mem_cons, ← hparts]
    apply List.mem_finRange
  have hlen := mul_length_le_flatMap (List.finRange nParts) (fun p _ => two_le_encodePart g p)
  rw [List.length_finRange] at hlen
  have hmap := cdecMap_cborMap (n := nParts) ((List.finRange nParts).flatMap (encodePart g))
    (by decide) (by omega)
  rw [hparts, List.flatMap_cons] at hmap
  have hkey := cdecUint_cborUint (v := p.val)
    (cborMap nParams ++ (List.finRange nParams).flatMap (encodeParam g p)
      ++ ps.flatMap (encodePart g))
    (Nat.lt_trans p.isLt (by decide))
  have hpeek : ∀ bs : Bytes, cdecPeek ⟨cborMap nParams ++ bs, false⟩ = some 5 := fun _ => rfl
  have hfirst := parsePartMap_encode g p Cells.empty (ps.flatMap (encodePart g))
  have hrest := fun v => parsePartEntries_encode g ps v []
  unfold refdevParseParamsBlob parseParams Cdec.init
  rw [refdevEncodeParamsBlob_eq, hparts, List.flatMap_cons, Dec.bind_eq, Dec.bind_of_some hmap,
    if_neg (by decide), Dec.bind_eq]
  have hsplit : encodePart g p ++ ps.flatMap (encodePart g)
      = cborUint p.val ++ (cborMap nParams ++ (List.finRange nParams).flatMap (encodeParam g p)
          ++ ps.flatMap (encodePart g)) := List.append_assoc ..
  rw [hsplit, Dec.bind_of_some hkey, List.append_assoc]
  rw [hpeek, partOf_val, ← List.append_assoc, Dec.bind_eq, Dec.bind_of_some hfirst, hcount]
  have hloop := hrest (fun p' i' => if p' = p then some (canon (g p' i')) else Cells.empty p' i')
  rw [List.append_nil] at hloop
  rw [hloop]
  apply congrArg some
  funext p' i'
  rcases hmem p' with hp | hp
  . simp [hp]
  . simp [hp]

end Harp
