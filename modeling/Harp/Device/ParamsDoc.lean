import Harp.Core.CborItem
import Harp.Device.ParamsCodec

/-!
This module contains what a params blob says: a flat map of ids and values, or a map of parts with
such a map each. `refdev_parse_params_blob` accepts exactly the byte strings that are one of the two,
and the cells it gives are the last assignment the blob makes to each of them.
-/

namespace Harp

open Ieee

namespace Dec

def many (n : Nat) (x : Dec α) : Dec (List α) :=
  match n with
  | 0 => Dec.pure []
  | n + 1 => Dec.bind x (fun a => Dec.bind (many n x) (fun as => Dec.pure (a :: as)))

theorem many_succ_inv {x : Dec α} {n : Nat} {as : List α} {d d' : Cdec}
    (h : many (n + 1) x d = (some as, d'))
    : ∃ a as' d₁, x d = (some a, d₁) ∧ many n x d₁ = (some as', d') ∧ as = a :: as' := by
  rcases bind_inv h with ⟨a, d₁, hx, hrest⟩
  rcases bind_inv hrest with ⟨as', d₂, hmany, hpure⟩
  cases hpure
  exact ⟨a, as', d₁, hx, hmany, rfl⟩

theorem many_succ_of_some {x : Dec α} {n : Nat} {a : α} {as : List α} {d d₁ d' : Cdec}
    (hx : x d = (some a, d₁)) (h : many n x d₁ = (some as, d'))
    : many (n + 1) x d = (some (a :: as), d') := by
  unfold many
  rw [bind_of_some hx, bind_of_some h]
  rfl

theorem length_many {x : Dec α} {n : Nat} {as : List α} {d d' : Cdec}
    (h : many n x d = (some as, d')) : as.length = n := by
  induction n generalizing as d with
  | zero =>
    cases h
    rfl
  | succ n ih =>
    rcases many_succ_inv h with ⟨a, as', d₁, _, hmany, rfl⟩
    rw [List.length_cons, ih hmany]

-- A loop that folds what it reads gives the fold of all it reads.
theorem loop_iff_many {x : Dec α} {f : σ → α → σ} {body : σ → Dec σ}
    (hbody : ∀ s s' d d', body s d = (some s', d') ↔ ∃ a, x d = (some a, d') ∧ f s a = s')
    (n : Nat) (s s' : σ) (d d' : Cdec)
    : loop n body s d = (some s', d')
        ↔ ∃ as, many n x d = (some as, d') ∧ as.foldl f s = s' := by
  induction n generalizing s d with
  | zero =>
    constructor
    . intro h
      cases h
      exact ⟨[], rfl, rfl⟩
    . rintro ⟨as, hmany, hfold⟩
      cases hmany
      rw [← hfold]
      rfl
  | succ n ih =>
    constructor
    . intro h
      rw [loop_succ] at h
      rcases bind_inv h with ⟨s₁, d₁, hfirst, hrest⟩
      rcases (hbody _ _ _ _).mp hfirst with ⟨a, hx, rfl⟩
      rcases (ih _ _).mp hrest with ⟨as, hmany, hfold⟩
      exact ⟨a :: as, many_succ_of_some hx hmany, hfold⟩
    . rintro ⟨as, hmany, hfold⟩
      rcases many_succ_inv hmany with ⟨a, as', d₁, hx, hmany', rfl⟩
      rw [loop_succ_of_some ((hbody _ _ _ _).mpr ⟨a, hx, rfl⟩)]
      exact (ih _ _).mpr ⟨as', hmany', hfold⟩

end Dec

inductive ParamsDoc where
  | flat (pairs : List (Nat × F64))
  | parts (maps : List (Nat × List (Nat × F64)))

namespace ParamsDoc

-- Every assignment of the blob in its order: a part, an id and a value.
def assigns : ParamsDoc → List (Nat × Nat × F64)
  | flat pairs => pairs.map (fun pair => (0, pair))
  | parts maps => maps.flatMap (fun m => m.2.map (fun pair => (m.1, pair)))

-- The last assignment to a cell counts.
def cells (doc : ParamsDoc) : Cells := fun p i =>
  (doc.assigns.filter (fun a => a.1 = p.val ∧ a.2.1 = gParamId i)).getLast?.map
    (fun a => narrow a.2.2)

end ParamsDoc

def readMap : Dec (List (Nat × F64)) := do
  let n ← cdecMap
  Dec.many n readPair

def readPart : Dec (Nat × List (Nat × F64)) := do
  let key ← cdecUint
  let pairs ← readMap
  return (key, pairs)

def readParts : Dec (List (Nat × List (Nat × F64))) := do
  let n ← cdecMap
  Dec.many n readPart

-- The byte string starts with that document.
def Says (payload : Bytes) : ParamsDoc → Prop
  | .flat pairs => pairs ≠ [] ∧ ∃ d, readMap (Cdec.init payload) = (some pairs, d)
  | .parts maps => ∃ d, readParts (Cdec.init payload) = (some maps, d)

section Cells

theorem gParamId_of_paramIndex {id : Nat} {i : Fin nParams} (h : paramIndex id = some i)
    : gParamId i = id := by
  unfold paramIndex at h
  simpa using List.find?_some h

theorem gridSet_apply (p q : Fin nParts) (id : Nat) (val : F64) (v : Cells) (i : Fin nParams)
    : gridSet p id val v q i = if q = p ∧ id = gParamId i then some (narrow val) else v q i := by
  unfold gridSet
  cases hindex : paramIndex id with
  | none =>
    have hne : id ≠ gParamId i := by
      rintro rfl
      rw [paramIndex_gParamId] at hindex
      cases hindex
    simp [hne]
  | some j =>
    have hid := gParamId_of_paramIndex hindex
    have hiff : i = j ↔ id = gParamId i := by
      constructor
      . rintro rfl
        exact hid.symm
      . rintro rfl
        rw [paramIndex_gParamId] at hindex
        exact Option.some.inj hindex
    simp [hiff]

def assign (v : Cells) (a : Nat × Nat × F64) : Cells :=
  partCell (partOf a.1) a.2 v

theorem assign_apply (v : Cells) (a : Nat × Nat × F64) (p : Fin nParts) (i : Fin nParams)
    : assign v a p i = if a.1 = p.val ∧ a.2.1 = gParamId i then some (narrow a.2.2) else v p i := by
  unfold assign partOf
  by_cases hlt : a.1 < nParts
  . have hiff : p = ⟨a.1, hlt⟩ ↔ a.1 = p.val := by
      rw [Fin.ext_iff]
      exact eq_comm
    rw [dif_pos hlt, partCell, gridSet_apply]
    simp only [hiff]
  . have hne : a.1 ≠ p.val := by
      have := p.isLt
      omega
    rw [dif_neg hlt, if_neg (fun h => hne h.1)]
    rfl

-- What the parser holds after any assignments, from any cells.
theorem foldl_assign (as : List (Nat × Nat × F64)) (v : Cells) (p : Fin nParts) (i : Fin nParams)
    : as.foldl assign v p i
        = ((as.filter (fun a => a.1 = p.val ∧ a.2.1 = gParamId i)).getLast?.map
          (fun a => narrow a.2.2)).or (v p i) := by
  induction as generalizing v with
  | nil => rfl
  | cons a as ih =>
    rw [List.foldl_cons, ih, assign_apply]
    by_cases ha : a.1 = p.val ∧ a.2.1 = gParamId i
    . rw [if_pos ha, List.filter_cons_of_pos (by simpa using ha), List.getLast?_cons]
      cases (as.filter (fun a => a.1 = p.val ∧ a.2.1 = gParamId i)).getLast? <;> rfl
    . rw [if_neg ha, List.filter_cons_of_neg (by simpa using ha)]

theorem ParamsDoc.cells_eq (doc : ParamsDoc) : doc.cells = doc.assigns.foldl assign Cells.empty := by
  funext p i
  rw [foldl_assign]
  exact (Option.or_none).symm

end Cells

section Parse

variable {d d' : Cdec} {v v' : Cells}

theorem cdecPeek_of_readHead {h : Head} (hread : readHead d = (some h, d'))
    : cdecPeek d = some h.major := by
  rcases readHead_inv hread with ⟨hb, hp, ⟨arg, rfl, hmajor, hai⟩, herr, _⟩
  have hlt : h.ai < 32 := by omega
  have hbyte : (UInt8.ofNat (h.major <<< 5 + h.ai)).toNat >>> 5 = h.major := by
    rw [UInt8.toNat_ofNat', Nat.shiftLeft_eq, Nat.shiftRight_eq_div_pow]
    omega
  unfold cdecPeek
  rw [if_neg (by simp [herr]), hp, List.cons_append, List.head?_cons, Option.map_some, hbyte]

theorem cdecFloat_inv {x : F64} (h : cdecFloat d = (some x, d'))
    : ∃ hd, readHead d = (some hd, d') ∧ hd.major = 7 := by
  unfold cdecFloat at h
  rw [Dec.bind_eq] at h
  rcases Dec.bind_inv h with ⟨hd, d₁, hread, hbody⟩
  split at hbody
  . cases hbody
  next hmajor =>
    refine ⟨hd, ?_, not_not.mp hmajor⟩
    rw [hread]
    repeat' split at hbody
    all_goals cases hbody
    all_goals rfl

theorem cdecMap_inv {n : Nat} (h : cdecMap d = (some n, d'))
    : ∃ hd, readHead d = (some hd, d') ∧ hd.major = 5 ∧ hd.val = n := by
  unfold cdecMap readCount at h
  rw [Dec.bind_eq] at h
  rcases Dec.bind_inv h with ⟨hd, d₁, hread, hbody⟩
  split at hbody
  . cases hbody
  next hmajor =>
    rw [if_pos rfl] at hbody
    dsimp only at hbody
    by_cases hcost : d₁.p.length < hd.val * 2 % 2 ^ 64
    . rw [if_pos hcost] at hbody
      cases hbody
    . rw [if_neg hcost] at hbody
      cases hbody
      exact ⟨hd, hread, not_not.mp hmajor, rfl⟩

theorem readPair_inv {pair : Nat × F64} (h : readPair d = (some pair, d'))
    : ∃ d₁, cdecUint d = (some pair.1, d₁) ∧ cdecFloat d₁ = (some pair.2, d') := by
  unfold readPair at h
  rw [Dec.bind_eq] at h
  rcases Dec.bind_inv h with ⟨id, d₁, hid, hrest⟩
  rw [Dec.bind_eq] at hrest
  rcases Dec.bind_inv hrest with ⟨x, d₂, hx, hpure⟩
  cases hpure
  exact ⟨d₁, hid, hx⟩

theorem readMap_inv {pairs : List (Nat × F64)} (h : readMap d = (some pairs, d'))
    : ∃ d₁, cdecMap d = (some pairs.length, d₁)
        ∧ Dec.many pairs.length readPair d₁ = (some pairs, d') := by
  unfold readMap at h
  rw [Dec.bind_eq] at h
  rcases Dec.bind_inv h with ⟨n, d₁, hmap, hmany⟩
  have hlen := Dec.length_many hmany
  subst hlen
  exact ⟨d₁, hmap, hmany⟩

theorem cdecPeek_of_readMap {pairs : List (Nat × F64)} (h : readMap d = (some pairs, d'))
    : cdecPeek d = some 5 := by
  rcases readMap_inv h with ⟨d₁, hmap, _⟩
  rcases cdecMap_inv hmap with ⟨hd, hread, hmajor, _⟩
  rw [cdecPeek_of_readHead hread, hmajor]

theorem readPart_inv {m : Nat × List (Nat × F64)} (h : readPart d = (some m, d'))
    : ∃ d₁, cdecUint d = (some m.1, d₁) ∧ readMap d₁ = (some m.2, d') := by
  unfold readPart at h
  rw [Dec.bind_eq] at h
  rcases Dec.bind_inv h with ⟨key, d₁, hkey, hrest⟩
  rw [Dec.bind_eq] at hrest
  rcases Dec.bind_inv hrest with ⟨pairs, d₂, hmap, hpure⟩
  cases hpure
  exact ⟨d₁, hkey, hmap⟩

theorem readPart_of {key : Nat} {pairs : List (Nat × F64)} {d₁ : Cdec}
    (hkey : cdecUint d = (some key, d₁)) (hmap : readMap d₁ = (some pairs, d'))
    : readPart d = (some (key, pairs), d') := by
  unfold readPart
  rw [Dec.bind_eq, Dec.bind_of_some hkey, Dec.bind_eq, Dec.bind_of_some hmap]
  rfl

-- The body of both inner loops of the parser.
theorem pairBody_iff (f : Cells → Nat × F64 → Cells) (v v' : Cells) (d d' : Cdec)
    : (do let pair ← readPair; return f v pair : Dec Cells) d = (some v', d')
        ↔ ∃ pair, readPair d = (some pair, d') ∧ f v pair = v' := by
  rw [Dec.bind_eq]
  constructor
  . intro h
    rcases Dec.bind_inv h with ⟨pair, d₁, hpair, hpure⟩
    cases hpure
    exact ⟨pair, hpair, rfl⟩
  . rintro ⟨pair, hpair, rfl⟩
    rw [Dec.bind_of_some hpair]
    rfl

theorem parsePartMap_iff {key : Nat}
    : parsePartMap (partOf key) v d = (some v', d')
        ↔ ∃ pairs, readMap d = (some pairs, d')
          ∧ (pairs.map (fun pair => (key, pair))).foldl assign v = v' := by
  have hloop : ∀ n d₁, Dec.loop n (fun v => do let pair ← readPair; return partCell (partOf key) pair v)
      v d₁ = (some v', d') ↔ _ :=
    fun n d₁ => Dec.loop_iff_many (f := fun v pair => partCell (partOf key) pair v)
      (pairBody_iff _) n v v' d₁ d'
  unfold parsePartMap readMap
  rw [Dec.bind_eq, Dec.bind_eq]
  simp only [List.foldl_map]
  constructor
  . intro h
    rcases Dec.bind_inv h with ⟨n, d₁, hmap, hrest⟩
    rcases (hloop n d₁).mp hrest with ⟨pairs, hmany, hfold⟩
    refine ⟨pairs, ?_, hfold⟩
    rw [Dec.bind_of_some hmap, hmany]
  . rintro ⟨pairs, hread, hfold⟩
    rcases Dec.bind_inv hread with ⟨n, d₁, hmap, hmany⟩
    rw [Dec.bind_of_some hmap]
    exact (hloop n d₁).mpr ⟨pairs, hmany, hfold⟩

theorem parsePartEntry_iff (v v' : Cells) (d d' : Cdec)
    : parsePartEntry v d = (some v', d')
        ↔ ∃ m, readPart d = (some m, d')
          ∧ (m.2.map (fun pair => (m.1, pair))).foldl assign v = v' := by
  constructor
  . intro h
    unfold parsePartEntry at h
    rw [Dec.bind_eq] at h
    rcases Dec.bind_inv h with ⟨key, d₁, hkey, hrest⟩
    rcases parsePartMap_iff.mp hrest with ⟨pairs, hmap, hfold⟩
    exact ⟨(key, pairs), readPart_of hkey hmap, hfold⟩
  . rintro ⟨m, hread, hfold⟩
    rcases readPart_inv hread with ⟨d₁, hkey, hmap⟩
    unfold parsePartEntry
    rw [Dec.bind_eq, Dec.bind_of_some hkey]
    exact parsePartMap_iff.mpr ⟨m.2, hmap, hfold⟩

theorem parseFlatEntry_iff (v v' : Cells) (d d' : Cdec)
    : parseFlatEntry v d = (some v', d')
        ↔ ∃ pair, readPair d = (some pair, d') ∧ assign v (0, pair) = v' :=
  pairBody_iff (fun v pair => gridSet 0 pair.1 pair.2 v) v v' d d'

-- The first key is read ahead of the loop; with the rest it is one loop over all entries.
theorem parseParams_parts {m key : Nat} {d₁ d₂ : Cdec} (hmap : cdecMap d = (some (m + 1), d₁))
    (hkey : cdecUint d₁ = (some key, d₂)) (hpeek : cdecPeek d₂ = some 5)
    : parseParams d = Dec.loop (m + 1) parsePartEntry Cells.empty d₁ := by
  have hentry : parsePartEntry Cells.empty d₁ = parsePartMap (partOf key) Cells.empty d₂ := by
    unfold parsePartEntry
    rw [Dec.bind_eq, Dec.bind_of_some hkey]
  unfold parseParams
  rw [Dec.bind_eq, Dec.bind_of_some hmap, if_neg (by omega), Dec.bind_eq, Dec.bind_of_some hkey]
  rw [hpeek, Dec.loop_succ]
  rw [Dec.bind_eq]
  unfold Dec.bind
  rw [hentry]
  rfl

theorem parseParams_flat {m key : Nat} {d₁ d₂ : Cdec} (hmap : cdecMap d = (some (m + 1), d₁))
    (hkey : cdecUint d₁ = (some key, d₂)) (hpeek : cdecPeek d₂ = some 7)
    : parseParams d = Dec.loop (m + 1) parseFlatEntry Cells.empty d₁ := by
  unfold parseParams
  rw [Dec.bind_eq, Dec.bind_of_some hmap, if_neg (by omega), Dec.bind_eq, Dec.bind_of_some hkey]
  rw [hpeek, Dec.loop_succ]
  rw [Dec.bind_eq]
  unfold parseFlatEntry readPair
  simp only [Dec.bind_eq, Dec.pure_eq]
  unfold Dec.bind
  rw [hkey]
  dsimp only
  cases hval : cdecFloat d₂ with
  | mk o d₃ => cases o <;> rfl

theorem parseParams_other {m key : Nat} {d₁ d₂ : Cdec} (hmap : cdecMap d = (some (m + 1), d₁))
    (hkey : cdecUint d₁ = (some key, d₂)) (h5 : cdecPeek d₂ ≠ some 5) (h7 : cdecPeek d₂ ≠ some 7)
    : (parseParams d).1 = none := by
  unfold parseParams
  rw [Dec.bind_eq, Dec.bind_of_some hmap, if_neg (by omega), Dec.bind_eq, Dec.bind_of_some hkey]
  split
  . contradiction
  . contradiction
  . rfl

theorem foldl_assign_parts (maps : List (Nat × List (Nat × F64))) (v : Cells)
    : maps.foldl (fun v m => (m.2.map (fun pair => (m.1, pair))).foldl assign v) v
        = (ParamsDoc.parts maps).assigns.foldl assign v := by
  unfold ParamsDoc.assigns
  dsimp only
  rw [List.foldl_flatMap]

theorem foldl_assign_flat (pairs : List (Nat × F64)) (v : Cells)
    : pairs.foldl (fun v pair => assign v (0, pair)) v
        = (ParamsDoc.flat pairs).assigns.foldl assign v := by
  unfold ParamsDoc.assigns
  dsimp only
  rw [List.foldl_map]

theorem says_of_parse {payload : Bytes} {cells : Cells} {d' : Cdec}
    (h : parseParams (Cdec.init payload) = (some cells, d'))
    : ∃ doc, Says payload doc ∧ doc.cells = cells := by
  have hinv := h
  unfold parseParams at hinv
  rw [Dec.bind_eq] at hinv
  rcases Dec.bind_inv hinv with ⟨n, d₁, hmap, hrest⟩
  cases n with
  | zero =>
    rw [if_pos rfl] at hrest
    cases hrest
    refine ⟨.parts [], ⟨d', ?_⟩, rfl⟩
    unfold readParts
    rw [Dec.bind_eq, Dec.bind_of_some hmap]
    rfl
  | succ m =>
    rw [if_neg (by omega), Dec.bind_eq] at hrest
    rcases Dec.bind_inv hrest with ⟨key, d₂, hkey, _⟩
    by_cases h5 : cdecPeek d₂ = some 5
    . rw [parseParams_parts hmap hkey h5] at h
      rcases (Dec.loop_iff_many parsePartEntry_iff _ _ _ _ _).mp h with ⟨maps, hmany, hfold⟩
      refine ⟨.parts maps, ⟨d', ?_⟩, ?_⟩
      . unfold readParts
        rw [Dec.bind_eq, Dec.bind_of_some hmap, hmany]
      . rw [ParamsDoc.cells_eq, ← foldl_assign_parts]
        exact hfold
    . by_cases h7 : cdecPeek d₂ = some 7
      . rw [parseParams_flat hmap hkey h7] at h
        rcases (Dec.loop_iff_many parseFlatEntry_iff _ _ _ _ _).mp h with ⟨pairs, hmany, hfold⟩
        have hlen := Dec.length_many hmany
        refine ⟨.flat pairs, ⟨?_, d', ?_⟩, ?_⟩
        . rintro rfl
          cases hlen
        . unfold readMap
          rw [Dec.bind_eq, Dec.bind_of_some hmap, hmany]
        . rw [ParamsDoc.cells_eq, ← foldl_assign_flat]
          exact hfold
      . have hnone := parseParams_other hmap hkey h5 h7
        rw [h] at hnone
        cases hnone

theorem parse_of_doc {payload : Bytes} {doc : ParamsDoc} (h : Says payload doc)
    : refdevParseParamsBlob payload = some doc.cells := by
  unfold refdevParseParamsBlob
  cases doc with
  | flat pairs =>
    rcases h with ⟨hne, d, hread⟩
    rcases readMap_inv hread with ⟨d₁, hmap, hmany⟩
    cases pairs with
    | nil => exact absurd rfl hne
    | cons pair pairs =>
      rw [List.length_cons] at hmap hmany
      rcases Dec.many_succ_inv hmany with ⟨_, _, d₂, hpair, _, _⟩
      rcases readPair_inv hpair with ⟨d₃, hkey, hval⟩
      rcases cdecFloat_inv hval with ⟨hd, hhead, hmajor⟩
      have hpeek := cdecPeek_of_readHead hhead
      rw [hmajor] at hpeek
      rw [parseParams_flat hmap hkey hpeek, (Dec.loop_iff_many parseFlatEntry_iff _ _ _ _ _).mpr
        ⟨_, hmany, rfl⟩, foldl_assign_flat, ParamsDoc.cells_eq]
  | parts maps =>
    rcases h with ⟨d, hread⟩
    unfold readParts at hread
    rw [Dec.bind_eq] at hread
    rcases Dec.bind_inv hread with ⟨n, d₁, hmap, hmany⟩
    cases n with
    | zero =>
      cases hmany
      unfold parseParams
      rw [Dec.bind_eq, Dec.bind_of_some hmap, if_pos rfl]
      rfl
    | succ m =>
      rcases Dec.many_succ_inv hmany with ⟨_, _, d₂, hpart, _, _⟩
      rcases readPart_inv hpart with ⟨d₃, hkey, hinner⟩
      rw [parseParams_parts hmap hkey (cdecPeek_of_readMap hinner),
        (Dec.loop_iff_many parsePartEntry_iff _ _ _ _ _).mpr ⟨_, hmany, rfl⟩, foldl_assign_parts, ParamsDoc.cells_eq]

theorem refdevParseParamsBlob_iff {payload : Bytes} {cells : Cells}
    : refdevParseParamsBlob payload = some cells ↔ ∃ doc, Says payload doc ∧ doc.cells = cells := by
  constructor
  . intro h
    unfold refdevParseParamsBlob at h
    rcases hparse : parseParams (Cdec.init payload) with ⟨o, d'⟩
    rw [hparse] at h
    dsimp only at h
    rw [h] at hparse
    exact says_of_parse hparse
  . rintro ⟨doc, hsays, rfl⟩
    exact parse_of_doc hsays

end Parse

end Harp
