import Harp.Device.ParamsDoc

/-!
This module contains the decoder of the shell for a params blob, from `shell/runtime_recall.cpp`, and
how what it shows for part 0 relates to what the device plays.
-/

namespace Harp

open Ieee

abbrev ParamPairs := List (UInt32 × F32)

def pushPair (out : ParamPairs) (pair : Nat × F64) : ParamPairs :=
  out ++ [(UInt32.ofNat pair.1, narrow pair.2)]

-- A pair that cannot be read ends the loop, with what was pushed before it.
def pushPairs (n : Nat) (pd : Cdec) (out : ParamPairs) : Cdec × ParamPairs :=
  match n with
  | 0 => (pd, out)
  | n + 1 =>
    match readPair pd with
    | (some pair, pd) => pushPairs n pd (pushPair out pair)
    | (none, pd) => (pd, out)

def decodeParamMap (pd : Cdec) (out : ParamPairs) : Cdec × ParamPairs :=
  match cdecMap pd with
  | (some pn, pd) => pushPairs pn pd out
  | (none, pd) => (pd, out)

-- The parts behind the first one.
def scanParts (n : Nat) (pd : Cdec) (out : ParamPairs) : ParamPairs :=
  match n with
  | 0 => out
  | n + 1 =>
    if pd.err then
      out
    else
      match cdecUint pd with
      | (none, _) => out
      | (some part, pd) =>
        if part = 0 then
          let (pd, out) := decodeParamMap pd out
          scanParts n pd out
        else
          match cdecSkip pd with
          | (none, _) => out
          | (some _, pd) => scanParts n pd out

def decodeParamsPayload (pl : Bytes) : ParamPairs :=
  match cdecMap (Cdec.init pl) with
  | (none, _) => []
  | (some pn, pd) =>
    if pn = 0 then
      []
    else
      match cdecUint pd with
      | (none, _) => []
      | (some firstKey, pd) =>
        if cdecPeek pd = some 5 then
          let (pd, out) := if firstKey = 0 then decodeParamMap pd [] else ((cdecSkip pd).2, [])
          scanParts (pn - 1) pd out
        else
          match cdecFloat pd with
          | (none, _) => []
          | (some v, pd) => (pushPairs (pn - 1) pd [(UInt32.ofNat firstKey, narrow v)]).2

-- The pairs are applied in their order, so that the last of an id stays.
def lastWins (out : ParamPairs) (id : Nat) : Option F32 :=
  (out.filter (fun e => e.1.toNat = id)).getLast?.map Prod.snd

section Skips

variable {d d' : Cdec}

theorem readHead_err {h : Head} (hread : readHead d = (some h, d')) : d'.err = false := by
  rcases readHead_inv hread with ⟨_, _, _, _, herr⟩
  exact herr

theorem readHead_length {h : Head} (hread : readHead d = (some h, d'))
    : d'.p.length + 1 ≤ d.p.length := by
  rcases readHead_inv hread with ⟨hb, hp, hspells, _, _⟩
  have hpos := hspells.length_pos
  rw [hp, List.length_append]
  omega

theorem cdecUint_inv {n : Nat} (h : cdecUint d = (some n, d'))
    : ∃ hd, readHead d = (some hd, d') ∧ hd.major = 0 := by
  unfold cdecUint at h
  rw [Dec.bind_eq] at h
  rcases Dec.bind_inv h with ⟨hd, d₁, hread, hbody⟩
  split at hbody
  . cases hbody
  next hmajor =>
    cases hbody
    exact ⟨hd, hread, not_not.mp hmajor⟩

theorem skipItem_of_uint {levels n : Nat} (h : cdecUint d = (some n, d'))
    : skipItem (levels + 1) d = (some (), d') := by
  rcases cdecUint_inv h with ⟨hd, hread, hmajor⟩
  unfold skipItem
  rw [Dec.bind_eq, Dec.bind_of_some hread, if_pos (.inl hmajor)]
  rfl

theorem skipItem_of_float {levels : Nat} {v : F64} (h : cdecFloat d = (some v, d'))
    : skipItem (levels + 1) d = (some (), d') := by
  rcases cdecFloat_inv h with ⟨hd, hread, hmajor⟩
  unfold skipItem
  rw [Dec.bind_eq, Dec.bind_of_some hread, if_neg (by omega), if_neg (by omega), if_neg (by omega),
    if_neg (by omega), if_neg (by omega)]
  rfl

theorem readPair_length {pair : Nat × F64} (h : readPair d = (some pair, d'))
    : d'.p.length + 2 ≤ d.p.length ∧ d'.err = false := by
  rcases readPair_inv h with ⟨d₁, hid, hval⟩
  rcases cdecUint_inv hid with ⟨_, hread, _⟩
  rcases cdecFloat_inv hval with ⟨_, hread', _⟩
  have hlen := readHead_length hread
  have hlen' := readHead_length hread'
  exact ⟨by omega, readHead_err hread'⟩

theorem many_readPair_length {n : Nat} {pairs : List (Nat × F64)} (herr : d.err = false)
    (h : Dec.many n readPair d = (some pairs, d'))
    : d'.p.length + n * 2 ≤ d.p.length ∧ d'.err = false := by
  induction n generalizing d pairs with
  | zero =>
    cases h
    exact ⟨by omega, herr⟩
  | succ n ih =>
    rcases Dec.many_succ_inv h with ⟨pair, pairs', d₁, hpair, hmany, rfl⟩
    have hfirst := readPair_length hpair
    have hrest := ih hfirst.2 hmany
    exact ⟨by omega, hrest.2⟩

theorem loop_skip_of_pairs {levels n : Nat} {pairs : List (Nat × F64)}
    (h : Dec.many n readPair d = (some pairs, d'))
    : Dec.loop (n * 2) (fun _ => skipItem (levels + 1)) () d = (some (), d') := by
  induction n generalizing d pairs with
  | zero =>
    cases h
    rfl
  | succ n ih =>
    rcases Dec.many_succ_inv h with ⟨pair, pairs', d₁, hpair, hmany, rfl⟩
    rcases readPair_inv hpair with ⟨d₂, hid, hval⟩
    rw [Nat.succ_mul, Dec.loop_succ_of_some (skipItem_of_uint hid),
      Dec.loop_succ_of_some (skipItem_of_float hval)]
    exact ih hmany

theorem readMap_length {pairs : List (Nat × F64)} (h : readMap d = (some pairs, d'))
    : d'.p.length + pairs.length * 2 ≤ d.p.length ∧ d'.err = false := by
  rcases readMap_inv h with ⟨d₁, hmap, hmany⟩
  rcases cdecMap_inv hmap with ⟨_, hread, _⟩
  have hhead := readHead_length hread
  have hrest := many_readPair_length (readHead_err hread) hmany
  exact ⟨by omega, hrest.2⟩

-- What the device reads as the map of a part, the shell can step over.
theorem cdecSkip_of_readMap {pairs : List (Nat × F64)} (hlen : d.p.length < 2 ^ 64)
    (h : readMap d = (some pairs, d')) : cdecSkip d = (some (), d') := by
  have hbound := (readMap_length h).1
  rcases readMap_inv h with ⟨d₁, hmap, hmany⟩
  rcases cdecMap_inv hmap with ⟨hd, hread, hmajor, hval⟩
  unfold cdecSkip skipItem
  rw [Dec.bind_eq, Dec.bind_of_some hread, if_neg (by omega), if_neg (by omega), if_neg (by omega),
    if_pos hmajor, hval, Nat.mod_eq_of_lt (by omega)]
  exact loop_skip_of_pairs hmany

end Skips

section Shown

variable {d d' : Cdec}

-- The casts of `push_back`.
def castPair (pair : Nat × F64) : UInt32 × F32 :=
  (UInt32.ofNat pair.1, narrow pair.2)

-- The pairs of part 0 in their order.
def ParamsDoc.part0 (doc : ParamsDoc) : List (Nat × F64) :=
  (doc.assigns.filter (fun a => a.1 = 0)).map Prod.snd

theorem part0_flat (pairs : List (Nat × F64)) : (ParamsDoc.flat pairs).part0 = pairs := by
  unfold ParamsDoc.part0 ParamsDoc.assigns
  dsimp only
  rw [List.filter_map, List.map_map]
  simp [Function.comp_def]

theorem part0_parts (maps : List (Nat × List (Nat × F64)))
    : (ParamsDoc.parts maps).part0 = maps.flatMap (fun m => if m.1 = 0 then m.2 else []) := by
  unfold ParamsDoc.part0 ParamsDoc.assigns
  dsimp only
  induction maps with
  | nil => rfl
  | cons m maps ih =>
    rw [List.flatMap_cons, List.filter_append, List.map_append, ih, List.flatMap_cons]
    congr 1
    rw [List.filter_map, List.map_map]
    by_cases hm : m.1 = 0
    . simp [hm, Function.comp_def]
    . simp [hm, Function.comp_def]

theorem pushPairs_of_many {n : Nat} {pairs : List (Nat × F64)} {out : ParamPairs}
    (h : Dec.many n readPair d = (some pairs, d'))
    : pushPairs n d out = (d', out ++ pairs.map castPair) := by
  induction n generalizing d pairs out with
  | zero =>
    cases h
    simp [pushPairs]
  | succ n ih =>
    rcases Dec.many_succ_inv h with ⟨pair, pairs', d₁, hpair, hmany, rfl⟩
    unfold pushPairs
    rw [hpair]
    dsimp only
    rw [ih hmany]
    simp [pushPair, castPair]

theorem decodeParamMap_of_readMap {pairs : List (Nat × F64)} {out : ParamPairs}
    (h : readMap d = (some pairs, d')) : decodeParamMap d out = (d', out ++ pairs.map castPair) := by
  rcases readMap_inv h with ⟨d₁, hmap, hmany⟩
  unfold decodeParamMap
  rw [hmap]
  dsimp only
  exact pushPairs_of_many hmany

theorem scanParts_of_many {n : Nat} {maps : List (Nat × List (Nat × F64))} (out : ParamPairs)
    (hlen : d.p.length < 2 ^ 64) (herr : d.err = false)
    (h : Dec.many n readPart d = (some maps, d'))
    : scanParts n d out = out ++ (ParamsDoc.parts maps).part0.map castPair := by
  rw [part0_parts]
  induction n generalizing d maps out with
  | zero =>
    cases h
    simp [scanParts]
  | succ n ih =>
    rcases Dec.many_succ_inv h with ⟨m, maps', d₁, hpart, hmany, rfl⟩
    rcases readPart_inv hpart with ⟨d₂, hkey, hmap⟩
    rcases cdecUint_inv hkey with ⟨_, hread, _⟩
    have hkeyLen := readHead_length hread
    have hmapLen := readMap_length hmap
    unfold scanParts
    rw [if_neg (by simp [herr]), hkey]
    dsimp only
    by_cases hm : m.1 = 0
    . rw [if_pos hm, decodeParamMap_of_readMap hmap]
      dsimp only
      rw [ih _ (by omega) hmapLen.2 hmany]
      simp [hm]
    . rw [if_neg hm, cdecSkip_of_readMap (by omega) hmap]
      dsimp only
      rw [ih _ (by omega) hmapLen.2 hmany]
      simp [hm]

theorem decodeParamsPayload_of_doc {pl : Bytes} {doc : ParamsDoc} (hlen : pl.length < 2 ^ 64)
    (h : Says pl doc) : decodeParamsPayload pl = doc.part0.map castPair := by
  unfold decodeParamsPayload
  cases doc with
  | flat pairs =>
    rcases h with ⟨hne, d, hread⟩
    rcases readMap_inv hread with ⟨d₁, hmap, hmany⟩
    cases pairs with
    | nil => exact absurd rfl hne
    | cons pair pairs =>
      rw [List.length_cons] at hmap hmany
      rcases Dec.many_succ_inv hmany with ⟨_, _, d₂, hpair, hrest, heq⟩
      cases heq
      rcases readPair_inv hpair with ⟨d₃, hkey, hval⟩
      rcases cdecFloat_inv hval with ⟨hd, hhead, hmajor⟩
      have hpeek := cdecPeek_of_readHead hhead
      rw [hmajor] at hpeek
      rw [hmap]
      dsimp only
      rw [if_neg (by omega), hkey]
      dsimp only
      rw [if_neg (by simp [hpeek]), hval]
      dsimp only
      rw [Nat.add_sub_cancel, pushPairs_of_many hrest, part0_flat]
      rfl
  | parts maps =>
    rcases h with ⟨d, hread⟩
    unfold readParts at hread
    rw [Dec.bind_eq] at hread
    rcases Dec.bind_inv hread with ⟨n, d₁, hmap, hmany⟩
    rcases cdecMap_inv hmap with ⟨_, hhead, _⟩
    have hmapLen := readHead_length hhead
    have hlen' : d₁.p.length < 2 ^ 64 := by
      dsimp only [Cdec.init] at hmapLen
      omega
    rw [hmap]
    dsimp only
    cases n with
    | zero =>
      cases hmany
      rfl
    | succ n =>
      rcases Dec.many_succ_inv hmany with ⟨m, maps', d₂, hpart, hrest, rfl⟩
      rcases readPart_inv hpart with ⟨d₃, hkey, hinner⟩
      have hpeek := cdecPeek_of_readMap hinner
      have hall := scanParts_of_many [] hlen' (readHead_err hhead) hmany
      have hkeyHead := cdecUint_inv hkey
      rcases hkeyHead with ⟨_, hkeyHead, _⟩
      have hkeyLen := readHead_length hkeyHead
      unfold scanParts at hall
      rw [if_neg (by simp [readHead_err hhead]), hkey] at hall
      rw [if_neg (by omega), hkey]
      dsimp only at hall ⊢
      rw [if_pos hpeek, Nat.add_sub_cancel]
      rw [cdecSkip_of_readMap (by omega) hinner] at hall ⊢
      dsimp only at hall ⊢
      split
      next hzero =>
        rw [if_pos hzero] at hall
        exact hall
      next hother =>
        rw [if_neg hother] at hall
        exact hall

end Shown

section Agree

-- The pairs whose id the shell takes for that of the parameter, and those the device takes for it.
def shellPairs (pairs : List (Nat × F64)) (i : Fin nParams) : List (Nat × F64) :=
  pairs.filter (fun pair => pair.1 % 2 ^ 32 = gParamId i)

def devicePairs (pairs : List (Nat × F64)) (i : Fin nParams) : List (Nat × F64) :=
  pairs.filter (fun pair => pair.1 = gParamId i)

-- The last pair for the parameter has an id above 32 bits and a value the device does not have.
def Aliased (pairs : List (Nat × F64)) (i : Fin nParams) : Prop :=
  ∃ pair, (shellPairs pairs i).getLast? = some pair ∧ pair.1 ≠ gParamId i
    ∧ (devicePairs pairs i).getLast?.map (fun pair => narrow pair.2) ≠ some (narrow pair.2)

theorem gParamId_lt32 (i : Fin nParams) : gParamId i < 2 ^ 32 := by
  revert i
  decide

theorem devicePairs_eq (pairs : List (Nat × F64)) (i : Fin nParams)
    : devicePairs pairs i = (shellPairs pairs i).filter (fun pair => pair.1 = gParamId i) := by
  unfold devicePairs shellPairs
  rw [List.filter_filter]
  congr 1
  funext pair
  by_cases hid : pair.1 = gParamId i
  . have hlt := gParamId_lt32 i
    simpa [hid] using hlt
  . simp [hid]

theorem getLast?_filter_of_pos {α : Type} {p : α → Bool} {xs : List α} {x : α}
    (h : xs.getLast? = some x) (hx : p x = true) : (xs.filter p).getLast? = some x := by
  rw [List.getLast?_eq_some_iff] at h
  rcases h with ⟨ys, rfl⟩
  simp [List.filter_append, hx]

theorem agree_iff (pairs : List (Nat × F64)) (i : Fin nParams)
    : (shellPairs pairs i).getLast?.map (fun pair => narrow pair.2)
          = (devicePairs pairs i).getLast?.map (fun pair => narrow pair.2)
        ↔ ¬ Aliased pairs i := by
  unfold Aliased
  cases hlast : (shellPairs pairs i).getLast? with
  | none =>
    rw [List.getLast?_eq_none_iff] at hlast
    simp [devicePairs_eq, hlast]
  | some pair =>
    by_cases hid : pair.1 = gParamId i
    . have hdevice : (devicePairs pairs i).getLast? = some pair := by
        rw [devicePairs_eq]
        exact getLast?_filter_of_pos hlast (by simpa using hid)
      simp [hdevice, hid]
    . constructor
      . rintro hagree ⟨pair', heq, _, hne⟩
        cases heq
        exact hne hagree.symm
      . intro hnot
        by_contra hne
        exact hnot ⟨pair, rfl, hid, Ne.symm hne⟩

theorem lastWins_castPair (pairs : List (Nat × F64)) (i : Fin nParams)
    : lastWins (pairs.map castPair) (gParamId i)
        = (shellPairs pairs i).getLast?.map (fun pair => narrow pair.2) := by
  unfold lastWins shellPairs
  rw [List.filter_map, List.getLast?_map, Option.map_map]
  have hfilter : ((fun e : UInt32 × F32 => decide (e.1.toNat = gParamId i)) ∘ castPair)
      = fun pair => decide (pair.1 % 2 ^ 32 = gParamId i) := by
    funext pair
    simp [castPair]
  rw [hfilter]
  rfl

theorem cells_part0 (doc : ParamsDoc) (i : Fin nParams)
    : doc.cells 0 i = (devicePairs doc.part0 i).getLast?.map (fun pair => narrow pair.2) := by
  unfold ParamsDoc.cells devicePairs ParamsDoc.part0
  rw [List.filter_map, List.getLast?_map, Option.map_map, List.filter_filter]
  have hfilter : (fun a : Nat × Nat × F64 => decide (a.1 = (0 : Fin nParts).val ∧ a.2.1 = gParamId i))
      = fun a => ((fun pair : Nat × F64 => decide (pair.1 = gParamId i)) ∘ Prod.snd) a
        && decide (a.1 = 0) := by
    funext a
    simp [Bool.and_comm]
  rw [hfilter]
  rfl

theorem says_unique {pl : Bytes} {doc doc' : ParamsDoc} (h : Says pl doc) (h' : Says pl doc')
    : doc = doc' := by
  have hmixed : ∀ pairs maps, Says pl (.flat pairs) → Says pl (.parts maps) → False := by
    rintro pairs maps ⟨hne, d, hread⟩ ⟨d', hread'⟩
    rcases readMap_inv hread with ⟨d₁, hmap, hmany⟩
    unfold readParts at hread'
    rw [Dec.bind_eq, Dec.bind_of_some hmap] at hread'
    cases pairs with
    | nil => exact hne rfl
    | cons pair pairs =>
      rw [List.length_cons] at hmany hread'
      rcases Dec.many_succ_inv hmany with ⟨_, _, d₂, hpair, _, _⟩
      rcases Dec.many_succ_inv hread' with ⟨_, _, d₃, hpart, _, _⟩
      rcases readPair_inv hpair with ⟨d₄, hkey, hval⟩
      rcases readPart_inv hpart with ⟨d₅, hkey', hinner⟩
      rw [hkey] at hkey'
      have hsame := (Prod.mk.inj hkey').2
      subst hsame
      rcases cdecFloat_inv hval with ⟨hd, hhead, hmajor⟩
      have hseven := cdecPeek_of_readHead hhead
      have hfive := cdecPeek_of_readMap hinner
      rw [hfive, hmajor] at hseven
      cases hseven
  cases doc with
  | flat pairs =>
    cases doc' with
    | flat pairs' =>
      rcases h with ⟨_, d, hread⟩
      rcases h' with ⟨_, d', hread'⟩
      rw [hread] at hread'
      cases hread'
      rfl
    | parts maps => exact (hmixed pairs maps h h').elim
  | parts maps =>
    cases doc' with
    | flat pairs => exact (hmixed pairs maps h' h).elim
    | parts maps' =>
      rcases h with ⟨d, hread⟩
      rcases h' with ⟨d', hread'⟩
      rw [hread] at hread'
      cases hread'
      rfl

-- What the two decoders make of a blob that the device accepts.
structure BlobRead (pl : Bytes) (doc : ParamsDoc) (cells : Cells) : Prop where
  named : ∀ p i, cells p i ≠ none → ∃ a ∈ doc.assigns, a.1 = p.val ∧ a.2.1 = gParamId i
  flat : ∀ pairs, doc = .flat pairs →
    ∀ p i, cells p i ≠ none ↔ p = 0 ∧ ∃ pair ∈ pairs, pair.1 = gParamId i
  shown : ∀ i, lastWins (decodeParamsPayload pl) (gParamId i) = cells 0 i

def BlobLaw (pl : Bytes) : Prop :=
  ∀ cells, refdevParseParamsBlob pl = some cells → ∃ doc, Says pl doc ∧ BlobRead pl doc cells

-- No parameter is named in part 0 by an id that is its own only in 32 bits.
def Unaliased (pl : Bytes) : Prop :=
  ∀ doc, Says pl doc → ∀ i, ¬ Aliased doc.part0 i

theorem cells_ne_none_iff (doc : ParamsDoc) (p : Fin nParts) (i : Fin nParams)
    : doc.cells p i ≠ none ↔ ∃ a ∈ doc.assigns, a.1 = p.val ∧ a.2.1 = gParamId i := by
  unfold ParamsDoc.cells
  rw [Ne, Option.map_eq_none_iff, List.getLast?_eq_none_iff, List.filter_eq_nil_iff]
  simp

theorem shown_iff {pl : Bytes} {doc : ParamsDoc} (hlen : pl.length < 2 ^ 64) (h : Says pl doc)
    (i : Fin nParams)
    : lastWins (decodeParamsPayload pl) (gParamId i) = doc.cells 0 i ↔ ¬ Aliased doc.part0 i := by
  rw [decodeParamsPayload_of_doc hlen h, lastWins_castPair, cells_part0]
  exact agree_iff doc.part0 i

theorem blobRead_of_doc {pl : Bytes} {doc : ParamsDoc} (hlen : pl.length < 2 ^ 64) (h : Says pl doc)
    (hplain : ∀ i, ¬ Aliased doc.part0 i) : BlobRead pl doc doc.cells := by
  constructor
  . intro p i hset
    exact (cells_ne_none_iff doc p i).mp hset
  . rintro pairs rfl p i
    rw [cells_ne_none_iff, Fin.ext_iff]
    simp only [ParamsDoc.assigns, List.mem_map]
    constructor
    . rintro ⟨a, ⟨pair, hpair, rfl⟩, hp, hid⟩
      exact ⟨hp.symm, pair, hpair, hid⟩
    . rintro ⟨hp, pair, hpair, hid⟩
      exact ⟨(0, pair), ⟨pair, hpair, rfl⟩, hp.symm, hid⟩
  . intro i
    exact (shown_iff hlen h i).mpr (hplain i)

theorem blobLaw_iff {pl : Bytes} (hlen : pl.length < 2 ^ 64) : BlobLaw pl ↔ Unaliased pl := by
  constructor
  . intro hlaw doc hsays i
    rcases hlaw doc.cells (parse_of_doc hsays) with ⟨doc', hsays', hread⟩
    have hsame := says_unique hsays hsays'
    subst hsame
    exact (shown_iff hlen hsays i).mp (hread.shown i)
  . intro hplain cells hparse
    rcases refdevParseParamsBlob_iff.mp hparse with ⟨doc, hsays, rfl⟩
    exact ⟨doc, hsays, blobRead_of_doc hlen hsays (hplain doc hsays)⟩

theorem paramsBlob_law_iff (g : Grid) (pl : Bytes) (hlen : pl.length < 2 ^ 64)
    : refdevParseParamsBlob (refdevEncodeParamsBlob g) = some (fun p i => some (canon (g p i)))
        ∧ (BlobLaw pl ↔ Unaliased pl) := by
  constructor
  . exact refdevParseParamsBlob_encode g
  . exact blobLaw_iff hlen

-- A flat map of parameter 3 at a quarter and parameter 7 at a half.
def legacyBlob : Bytes :=
  cborMap 2 ++ cborUint 3 ++ cborFloat (widen (Fp.ofBits 0x3e800000)) ++ cborUint 7
    ++ cborFloat (widen half)

theorem says_legacyBlob
    : Says legacyBlob (.flat [(3, widen (Fp.ofBits 0x3e800000)), (7, widen half)]) := by
  refine ⟨by simp, ⟨[], false⟩, ?_⟩
  decide +kernel

theorem paramsBlob_law_legacy : legacyBlob.length < 2 ^ 64 ∧ BlobLaw legacyBlob := by
  have hlen : legacyBlob.length < 2 ^ 64 := by decide
  refine ⟨hlen, (paramsBlob_law_iff factoryGrid legacyBlob hlen).2.mpr ?_⟩
  intro doc hsays i
  have hdoc := says_unique says_legacyBlob hsays
  subst hdoc
  rw [← agree_iff, part0_flat]
  revert i
  decide +kernel

-- Part 0 with one pair, whose id is 1 in its low 32 bits.
def wideBlob : Bytes :=
  cborMap 1 ++ cborUint 0 ++ cborMap 1 ++ cborUint (2 ^ 32 + 1) ++ cborFloat (widen half)

theorem says_wideBlob : Says wideBlob (.parts [(0, [(2 ^ 32 + 1, widen half)])]) := by
  refine ⟨⟨[], false⟩, ?_⟩
  decide +kernel

-- The device leaves parameter 1 alone, the shell shows it at a half.
theorem not_blobLaw_wide : ¬ BlobLaw wideBlob := by
  intro hlaw
  rcases hlaw _ (parse_of_doc says_wideBlob) with ⟨doc, _, hread⟩
  have hshown := hread.shown 0
  revert hshown
  decide +kernel

end Agree

end Harp
