import Harp.Core.ObjectFields
import Harp.Core.StoreLemmas

/-!
This module contains the round trips of the object codec: what the encoders of `core/src/object.c`
write, its parsers read back, and the bytes of a tree do not depend on the order of its entries.
-/

namespace Harp

-- A complete value: the decoder gets over it, whatever comes behind.
def Skippable (val : Bytes) : Prop :=
  ∀ rest, cdecSkip ⟨val ++ rest, false⟩ = (some (), ⟨rest, false⟩)

section Values

theorem putHead_spells {major v : Nat} (hm : major < 8) (hv : v < 2 ^ 64)
    : ∃ ai, Head.Spells ⟨major, ai, v⟩ (putHead major v) := by
  rcases readHead_putHead [] hm hv with ⟨ai, hread⟩
  rcases readHead_inv hread with ⟨hb, hp, hspells, _, _⟩
  dsimp only at hp
  rw [List.append_nil, List.append_nil] at hp
  rw [hp]
  exact ⟨ai, hspells⟩

theorem item_cborUint {v : Nat} (hv : v < 2 ^ 64) (levels : Nat)
    : Item (fun _ => True) (levels + 1) (cborUint v) := by
  rcases putHead_spells (show 0 < 8 by omega) hv with ⟨ai, hspells⟩
  exact .int hspells trivial (.inl rfl)

theorem item_cborText {s : Bytes} (hs : s.length < 2 ^ 64) (levels : Nat)
    : Item (fun _ => True) (levels + 1) (cborText s) := by
  rcases putHead_spells (show 3 < 8 by omega) hs with ⟨ai, hspells⟩
  exact .string hspells trivial (.inr rfl) rfl

theorem item_cborBytes {s : Bytes} (hs : s.length < 2 ^ 64) (levels : Nat)
    : Item (fun _ => True) (levels + 1) (cborBytes s) := by
  rcases putHead_spells (show 2 < 8 by omega) hs with ⟨ai, hspells⟩
  exact .string hspells trivial (.inl rfl) rfl

theorem item_cborArray (items : List Bytes) (levels : Nat) (hlen : items.length < 2 ^ 64)
    (hitems : ∀ x ∈ items, Item (fun _ => True) levels x)
    : Item (fun _ => True) (levels + 1) (cborArray items.length ++ items.flatten) := by
  rcases putHead_spells (show 4 < 8 by omega) hlen with ⟨ai, hspells⟩
  exact .array hspells trivial rfl rfl hitems

theorem skippable_of_item {val : Bytes} (h : Item (fun _ => True) 33 val) : Skippable val :=
  cdecSkip_of_item h

theorem hash_lt (h : Hash) : h.b.length < 2 ^ 64 := by
  rw [h.len]
  omega

theorem skippable_cborUint {v : Nat} (hv : v < 2 ^ 64) : Skippable (cborUint v) :=
  skippable_of_item (item_cborUint hv 32)

theorem skippable_cborText {s : Bytes} (hs : s.length < 2 ^ 64) : Skippable (cborText s) :=
  skippable_of_item (item_cborText hs 32)

theorem skippable_cborBytes {s : Bytes} (hs : s.length < 2 ^ 64) : Skippable (cborBytes s) :=
  skippable_of_item (item_cborBytes hs 32)

def encHashes (hs : List Hash) : Bytes :=
  cborArray hs.length ++ hs.flatMap (fun h => cborBytes h.b)

theorem skippable_encHashes {hs : List Hash} (hlen : hs.length < 2 ^ 64)
    : Skippable (encHashes hs) := by
  apply skippable_of_item
  have hitem := item_cborArray (hs.map (fun h => cborBytes h.b)) 32
    (by rw [List.length_map]; exact hlen) (by
      intro x hx
      rw [List.mem_map] at hx
      rcases hx with ⟨h, _, rfl⟩
      exact item_cborBytes (hash_lt h) 31)
  rw [List.length_map, ← List.flatMap_def] at hitem
  exact hitem

theorem hashRead_of_alg {h : Hash} (halg : h.b.head? = some 0x01) (rest : Bytes)
    : hashRead ⟨cborBytes h.b ++ rest, false⟩ = (some h, ⟨rest, false⟩) := by
  rw [hashRead_cborBytes, if_pos halg]

theorem length_cborBytes_pos (s : Bytes) : 0 < (cborBytes s).length := by
  have := length_putHead_pos 2 s.length
  rw [cborBytes, List.length_append]
  omega

-- A container whose values are written one by one is read back one by one.
theorem eachItem_go_flatMap {x : Dec α} {enc : β → Bytes} (val : β → α) {f : σ → α → σ}
    (items : List β)
    (hx : ∀ b ∈ items, ∀ rest, x ⟨enc b ++ rest, false⟩ = (some (val b), ⟨rest, false⟩))
    (rest : Bytes) (s : σ)
    : eachItem.go x f items.length ⟨items.flatMap enc ++ rest, false⟩ s
        = (true, ⟨rest, false⟩, (items.map val).foldl f s) := by
  induction items generalizing s with
  | nil => rfl
  | cons b items ih =>
    rw [List.length_cons, List.flatMap_cons, List.append_assoc]
    unfold eachItem.go
    rw [hx b List.mem_cons_self]
    dsimp only
    rw [ih (fun b' hb' => hx b' (List.mem_cons_of_mem b hb'))]
    rfl

theorem childHashes_encHashes (cb : HashCb σ) {hs : List Hash} (hlen : hs.length < 2 ^ 64)
    (halg : ∀ h ∈ hs, h.b.head? = some 0x01) (rest : Bytes) (s : σ)
    : childHashes cb ⟨encHashes hs ++ rest, false⟩ s
        = (true, ⟨rest, false⟩, hs.foldl (fun ud h => (cb h ud).2) s) := by
  have hle : hs.length ≤ (hs.flatMap (fun h => cborBytes h.b) ++ rest).length := by
    have := mul_length_le_flatMap (n := 1) hs (fun h _ => length_cborBytes_pos h.b)
    rw [List.length_append]
    omega
  unfold childHashes eachItem encHashes
  rw [List.append_assoc, cdecArray_cborArray _ hlen hle]
  dsimp only
  rw [eachItem_go_flatMap id hs (fun h hh rest => hashRead_of_alg (halg h hh) rest),
    List.map_id]

end Values

section EncFields

def encFields (kvs : List (Nat × Bytes)) : Bytes :=
  cborMap kvs.length ++ kvs.flatMap (fun kv => cborUint kv.1 ++ kv.2)

theorem objFields_go_flatMap {v : FieldCb σ} {f : σ → Nat × Bytes → σ} (kvs : List (Nat × Bytes))
    (hkeys : ∀ kv ∈ kvs, kv.1 < 2 ^ 64)
    (hv : ∀ kv ∈ kvs, ∀ s rest, v kv.1 ⟨kv.2 ++ rest, false⟩ s = (true, ⟨rest, false⟩, f s kv))
    (s : σ)
    : objFields.go v kvs.length ⟨kvs.flatMap (fun kv => cborUint kv.1 ++ kv.2), false⟩ s
        = (true, kvs.foldl f s) := by
  induction kvs generalizing s with
  | nil => rfl
  | cons kv kvs ih =>
    rw [List.length_cons, List.flatMap_cons, List.append_assoc]
    unfold objFields.go
    rw [cdecUint_cborUint _ (hkeys kv List.mem_cons_self)]
    dsimp only
    rw [hv kv List.mem_cons_self]
    dsimp only
    rw [ih (fun kv' h => hkeys kv' (List.mem_cons_of_mem kv h))
      (fun kv' h => hv kv' (List.mem_cons_of_mem kv h))]
    rfl

theorem length_encFields_le {kvs : List (Nat × Bytes)} (hkvs : ∀ kv ∈ kvs, kv.2 ≠ [])
    : kvs.length * 2 ≤ (kvs.flatMap (fun kv => cborUint kv.1 ++ kv.2)).length := by
  rw [Nat.mul_comm]
  apply mul_length_le_flatMap
  intro kv hkv
  have hval := List.length_pos_iff.mpr (hkvs kv hkv)
  have hkey := length_putHead_pos 0 kv.1
  rw [List.length_append, cborUint]
  omega

-- The walk over an encoded map hands every value to the callback.
theorem objFields_encFields {v : FieldCb σ} {f : σ → Nat × Bytes → σ} (kvs : List (Nat × Bytes))
    (hlen : kvs.length < 8) (hkeys : ∀ kv ∈ kvs, kv.1 < 8 ∧ kv.2 ≠ [])
    (hv : ∀ kv ∈ kvs, ∀ s rest, v kv.1 ⟨kv.2 ++ rest, false⟩ s = (true, ⟨rest, false⟩, f s kv))
    (s : σ) : objFields (encFields kvs) v s = (true, kvs.foldl f s) := by
  have hle := length_encFields_le fun kv hkv => (hkeys kv hkv).2
  unfold objFields encFields Cdec.init
  rw [cdecMap_cborMap _ (by omega) hle]
  dsimp only
  apply objFields_go_flatMap kvs _ hv
  intro kv hkv
  have := (hkeys kv hkv).1
  omega

theorem kindCb_skippable {key : Nat} {val : Bytes} (hkey : key ≠ 0) (hval : Skippable val)
    (k : Option Nat) (rest : Bytes)
    : kindCb key ⟨val ++ rest, false⟩ k = (true, ⟨rest, false⟩, k) := by
  unfold kindCb
  rw [if_neg hkey, skipField_of_skips (hval rest)]

theorem kindCb_zero {k : Nat} (hk : k ≤ 3) (o : Option Nat) (rest : Bytes)
    : kindCb 0 ⟨cborUint k ++ rest, false⟩ o = (true, ⟨rest, false⟩, some k) := by
  unfold kindCb
  rw [if_pos rfl, readField_of_some (a := k)]
  rw [Dec.bind_eq, Dec.bind_of_some (cdecUint_cborUint rest (by omega)), if_neg (by omega)]
  rfl

theorem cborUint_ne_nil (v : Nat) : cborUint v ≠ [] :=
  List.length_pos_iff.mp (length_putHead_pos 0 v)

theorem objKind_encFields {k : Nat} (hk : k ≤ 3) {kvs : List (Nat × Bytes)} (hlen : kvs.length < 7)
    (hkvs : ∀ kv ∈ kvs, kv.1 ≠ 0 ∧ kv.1 < 8 ∧ kv.2 ≠ [] ∧ Skippable kv.2)
    : objKind (encFields ((0, cborUint k) :: kvs)) = some k := by
  have hfields := objFields_encFields (v := kindCb)
    (f := fun o kv => if kv.1 = 0 then some k else o) ((0, cborUint k) :: kvs)
    (by rw [List.length_cons]; omega) (by
      intro kv hkv
      rw [List.mem_cons] at hkv
      rcases hkv with rfl | hkv
      . exact ⟨by omega, cborUint_ne_nil k⟩
      . exact ⟨(hkvs kv hkv).2.1, (hkvs kv hkv).2.2.1⟩) (by
      intro kv hkv s rest
      rw [List.mem_cons] at hkv
      rcases hkv with rfl | hkv
      . exact kindCb_zero hk s rest
      . rw [if_neg (hkvs kv hkv).1]
        exact kindCb_skippable (hkvs kv hkv).1 (hkvs kv hkv).2.2.2 s rest) none
  have hfold : ∀ o : Option Nat,
      kvs.foldl (fun o kv => if kv.1 = 0 then some k else o) o = o := by
    intro o
    rw [List.foldl_ext _ (fun o _ => o)]
    . simp
    . intro o kv hkv
      rw [if_neg (hkvs kv hkv).1]
  unfold objKind
  rw [hfields, List.foldl_cons, if_pos rfl, hfold]

section Cut

-- The walk over the pairs of a map, with the position it ends at.
def pairs : Dec Unit := do
  let n ← cdecMap
  Dec.loop n (fun _ => do
    let _ ← cdecUint
    cdecSkip) ()

theorem pairs_extends : Dec.Extends pairs := by
  refine .bind (readCount_extends 5) fun n => .loop (fun _ => ?_) n ()
  exact .bind cdecUint_extends fun _ => skipItem_extends 33

theorem pairs_of_objMap {enc : Bytes} {fs : Fields} (h : objMap enc = some fs)
    : ∃ d', pairs (Cdec.init enc) = (some (), d') := by
  unfold objMap objFields at h
  unfold pairs
  rw [Dec.bind_eq]
  rcases hcount : cdecMap (Cdec.init enc) with ⟨_ | n, d⟩
  . rw [hcount] at h
    cases h
  . rw [hcount] at h
    rw [Dec.bind_of_some hcount]
    dsimp only at h
    clear hcount
    generalize ([] : Fields) = acc at h
    induction n generalizing d acc with
    | zero => exact ⟨d, rfl⟩
    | succ n ih =>
      unfold objFields.go at h
      rw [Dec.loop_succ]
      rcases hkey : cdecUint d with ⟨_ | key, d₁⟩
      . rw [hkey] at h
        cases h
      . rw [hkey] at h
        dsimp only at h
        unfold fieldCb readField at h
        rcases hskip : cdecSkip d₁ with ⟨_ | _, d₂⟩
        . rw [hskip] at h
          cases h
        . rw [hskip] at h
          have hpair : (Dec.bind cdecUint fun _ => cdecSkip) d = (some (), d₂) := by
            rw [Dec.bind_of_some hkey, hskip]
          obtain ⟨d', hrest⟩ := ih d₂ _ h
          exact ⟨d', (Dec.bind_of_some hpair).trans hrest⟩

theorem pairs_encFields {kvs : List (Nat × Bytes)} (hlen : kvs.length < 8)
    (hkvs : ∀ kv ∈ kvs, kv.1 < 8 ∧ kv.2 ≠ [] ∧ Skippable kv.2)
    : pairs (Cdec.init (encFields kvs)) = (some (), ⟨[], false⟩) := by
  have hle := length_encFields_le fun kv hkv => (hkvs kv hkv).2.1
  unfold pairs encFields Cdec.init
  rw [Dec.bind_eq, Dec.bind_of_some (cdecMap_cborMap _ (by omega) hle)]
  clear hlen hle
  induction kvs with
  | nil => rfl
  | cons kv kvs ih =>
    obtain ⟨hkey, _, hskip⟩ := hkvs kv List.mem_cons_self
    rw [List.length_cons, List.flatMap_cons, List.append_assoc, Dec.loop_succ]
    have hbound : kv.1 < 2 ^ 64 := by omega
    have hpair : (Dec.bind cdecUint fun _ => cdecSkip) _ = _ :=
      (Dec.bind_of_some (cdecUint_cborUint _ hbound)).trans
        (hskip (kvs.flatMap fun kv => cborUint kv.1 ++ kv.2))
    exact (Dec.bind_of_some hpair).trans (ih fun kv' hkv' => hkvs kv' (List.mem_cons_of_mem kv hkv'))

-- The front part of an encoded map cannot be walked over.
theorem objMap_cut {kvs : List (Nat × Bytes)} (hlen : kvs.length < 8)
    (hkvs : ∀ kv ∈ kvs, kv.1 < 8 ∧ kv.2 ≠ [] ∧ Skippable kv.2) {data : Bytes}
    (hcut : data <+: encFields kvs) (hne : data ≠ encFields kvs) : objMap data = none := by
  obtain ⟨rest, hrest⟩ := hcut
  cases hmap : objMap data with
  | none => rfl
  | some fs =>
    obtain ⟨d', hpairs⟩ := pairs_of_objMap hmap
    have hlong := pairs_extends data rest false () d' hpairs
    have hwhole := pairs_encFields hlen hkvs
    unfold Cdec.init at hwhole
    rw [hrest, hwhole] at hlong
    have hnil : d'.p ++ rest = [] := congrArg (fun r => r.2.p) hlong.symm
    rw [List.append_eq_nil_iff] at hnil
    rw [hnil.2, List.append_nil] at hrest
    exact absurd hrest hne

end Cut

end EncFields

section Blob

variable {media payload : Bytes}

def blobFields (media payload : Bytes) : List (Nat × Bytes) :=
  [(1, cborText media), (2, cborBytes payload)]

theorem objEncodeBlob_eq (media payload : Bytes)
    : objEncodeBlob media payload = encFields ((0, cborUint objBlob) :: blobFields media payload) := by
  simp [objEncodeBlob, encFields, blobFields]

theorem cborText_ne_nil (s : Bytes) : cborText s ≠ [] := by
  have := length_putHead_pos 3 s.length
  rw [← List.length_pos_iff, cborText, List.length_append]
  omega

theorem cborBytes_ne_nil (s : Bytes) : cborBytes s ≠ [] :=
  List.length_pos_iff.mp (length_cborBytes_pos s)

theorem objKind_objEncodeBlob (hmedia : media.length < 2 ^ 64) (hpayload : payload.length < 2 ^ 64)
    : objKind (objEncodeBlob media payload) = some objBlob := by
  rw [objEncodeBlob_eq]
  apply objKind_encFields (by decide) (by simp [blobFields])
  intro kv hkv
  simp only [blobFields, List.mem_cons, List.not_mem_nil, or_false] at hkv
  rcases hkv with rfl | rfl
  . exact ⟨by simp, by simp, cborText_ne_nil media, skippable_cborText hmedia⟩
  . exact ⟨by simp, by simp, cborBytes_ne_nil payload, skippable_cborBytes hpayload⟩

theorem objParseBlob_objEncodeBlob (hmedia : media.length < 2 ^ 64)
    (hpayload : payload.length < 2 ^ 64)
    : objParseBlob (objEncodeBlob media payload) = some (media, payload) := by
  have hfields := objFields_encFields (v := blobCb)
    (f := fun o kv =>
      if kv.1 = 0 then { o with kind := objBlob }
      else if kv.1 = 1 then { o with media }
      else { o with payload := some payload })
    ((0, cborUint objBlob) :: blobFields media payload) (by simp [blobFields]) (by
      intro kv hkv
      simp only [blobFields, List.mem_cons, List.not_mem_nil, or_false] at hkv
      rcases hkv with rfl | rfl | rfl
      . exact ⟨by simp, cborUint_ne_nil objBlob⟩
      . exact ⟨by simp, cborText_ne_nil _⟩
      . exact ⟨by simp, cborBytes_ne_nil _⟩) (by
      intro kv hkv o rest
      simp only [blobFields, List.mem_cons, List.not_mem_nil, or_false] at hkv
      rcases hkv with rfl | rfl | rfl
      . simp only [blobCb]
        rw [readField_of_some (cdecUint_cborUint rest (show objBlob < 2 ^ 64 by decide))]
        rfl
      . simp only [blobCb]
        rw [readField_of_some (cdecText_cborText media rest hmedia)]
        rfl
      . simp only [blobCb]
        rw [readField_of_some (cdecBytes_cborBytes payload rest hpayload)]
        rfl)
    ⟨[], none, 2 ^ 32 - 1⟩
  unfold objParseBlob
  rw [objEncodeBlob_eq, hfields]
  rfl

theorem objChildren_of_blob {enc : Bytes} (h : objKind enc = some objBlob) (ip : Bool)
    : objChildren enc ip = (true, []) := by
  unfold objChildren objForeachChild
  rw [h]
  rfl

end Blob

section Lists

variable {media : Bytes} {chunks : List Hash}

def listFields (media : Bytes) (chunks : List Hash) : List (Nat × Bytes) :=
  [(1, cborText media), (2, encHashes chunks)]

theorem objEncodeList_eq (media : Bytes) (chunks : List Hash)
    : objEncodeList media chunks = encFields ((0, cborUint objList) :: listFields media chunks) := by
  simp [objEncodeList, encFields, listFields, encHashes]

theorem encHashes_ne_nil (hs : List Hash) : encHashes hs ≠ [] := by
  have := length_putHead_pos 4 hs.length
  rw [← List.length_pos_iff, encHashes, cborArray, List.length_append]
  omega

theorem objKind_objEncodeList (hmedia : media.length < 2 ^ 64) (hchunks : chunks.length < 2 ^ 64)
    : objKind (objEncodeList media chunks) = some objList := by
  rw [objEncodeList_eq]
  apply objKind_encFields (by decide) (by simp [listFields])
  intro kv hkv
  simp only [listFields, List.mem_cons, List.not_mem_nil, or_false] at hkv
  rcases hkv with rfl | rfl
  . exact ⟨by simp, by simp, cborText_ne_nil media, skippable_cborText hmedia⟩
  . exact ⟨by simp, by simp, encHashes_ne_nil chunks, skippable_encHashes hchunks⟩

theorem foldl_collectHashes (hs acc : List Hash)
    : hs.foldl (fun ud h => (collectHash h ud).2) acc = acc ++ hs :=
  foldl_childStep_collect hs acc

theorem objChildren_objEncodeList (hmedia : media.length < 2 ^ 64)
    (hchunks : chunks.length < 2 ^ 64) (halg : ∀ h ∈ chunks, h.b.head? = some 0x01) (ip : Bool)
    : objChildren (objEncodeList media chunks) ip = (true, chunks) := by
  have hfields := objFields_encFields (v := childCb objList ip collectHash)
    (f := fun hs kv => if kv.1 = 2 then hs ++ chunks else hs)
    ((0, cborUint objList) :: listFields media chunks) (by simp [listFields]) (by
      intro kv hkv
      simp only [listFields, List.mem_cons, List.not_mem_nil, or_false] at hkv
      rcases hkv with rfl | rfl | rfl
      . exact ⟨by simp, cborUint_ne_nil objList⟩
      . exact ⟨by simp, cborText_ne_nil _⟩
      . exact ⟨by simp, encHashes_ne_nil _⟩) (by
      intro kv hkv hs rest
      simp only [listFields, List.mem_cons, List.not_mem_nil, or_false] at hkv
      rcases hkv with rfl | rfl | rfl
      . exact skipField_of_skips (skippable_cborUint (show objList < 2 ^ 64 by decide) rest) hs
      . exact skipField_of_skips (skippable_cborText hmedia rest) hs
      . have hread := childHashes_encHashes collectHash hchunks halg rest hs
        rw [foldl_collectHashes] at hread
        exact hread) []
  have hchildren : objChildren (objEncodeList media chunks) ip
      = objFields (objEncodeList media chunks) (childCb objList ip collectHash) [] := by
    unfold objChildren objForeachChild
    rw [objKind_objEncodeList hmedia hchunks]
    rfl
  rw [hchildren, objEncodeList_eq, hfields]
  simp [listFields]

end Lists

section Snapshots

-- The arguments of `harp_obj_encode_snapshot`.
structure SnapArgs where
  root : Hash
  parents : List Hash
  time : Nat
  author : Bytes
  engine : Bytes
  message : Option Bytes

def SnapArgs.encode (a : SnapArgs) : Bytes :=
  objEncodeSnapshot a.root a.parents a.time a.author a.engine a.message

-- The hashes are of the one algorithm there is, and everything is as large as its C type.
structure SnapArgs.Fits (a : SnapArgs) : Prop where
  root : a.root.b.head? = some 0x01
  parents : ∀ h ∈ a.parents, h.b.head? = some 0x01
  count : a.parents.length < 2 ^ 64
  time : a.time < 2 ^ 64
  author : a.author.length < 2 ^ 64
  engine : a.engine.length < 2 ^ 64
  message : ∀ m, a.message = some m → m.length < 2 ^ 64

-- What the fields need to be framed right; no hash but the root is looked at for that.
structure SnapArgs.Framed (a : SnapArgs) : Prop where
  root : a.root.b.head? = some 0x01
  count : a.parents.length < 2 ^ 64
  time : a.time < 2 ^ 64
  author : a.author.length < 2 ^ 64
  engine : a.engine.length < 2 ^ 64
  message : ∀ m, a.message = some m → m.length < 2 ^ 64

theorem SnapArgs.Fits.framed {a : SnapArgs} (h : a.Fits) : a.Framed :=
  ⟨h.root, h.count, h.time, h.author, h.engine, h.message⟩

def SnapArgs.fields (a : SnapArgs) : List (Nat × Bytes) :=
  [(1, cborBytes a.root.b), (2, encHashes a.parents), (3, cborUint a.time), (4, cborText a.author),
    (5, cborText a.engine)] ++ a.message.toList.map (fun m => (6, cborText m))

variable {a : SnapArgs}

theorem SnapArgs.encode_eq (a : SnapArgs)
    : a.encode = encFields ((0, cborUint objSnapshot) :: a.fields) := by
  rcases hmsg : a.message with _ | m <;>
    simp [SnapArgs.encode, objEncodeSnapshot, encFields, SnapArgs.fields, encHashes, hmsg]

theorem SnapArgs.length_fields (a : SnapArgs) : a.fields.length < 7 := by
  cases hmsg : a.message <;> simp [SnapArgs.fields, hmsg]

theorem SnapArgs.mem_fields {kv : Nat × Bytes} (h : kv ∈ a.fields)
    : kv = (1, cborBytes a.root.b) ∨ kv = (2, encHashes a.parents) ∨ kv = (3, cborUint a.time)
        ∨ kv = (4, cborText a.author) ∨ kv = (5, cborText a.engine)
        ∨ ∃ m, a.message = some m ∧ kv = (6, cborText m) := by
  simp only [SnapArgs.fields, List.mem_append, List.mem_cons, List.not_mem_nil, or_false,
    List.mem_map, Option.mem_toList] at h
  rcases h with (h | h | h | h | h) | ⟨m, hm, rfl⟩
  . exact .inl h
  . exact .inr (.inl h)
  . exact .inr (.inr (.inl h))
  . exact .inr (.inr (.inr (.inl h)))
  . exact .inr (.inr (.inr (.inr (.inl h))))
  . exact .inr (.inr (.inr (.inr (.inr ⟨m, hm, rfl⟩))))

theorem SnapArgs.fields_ok (h : a.Framed) {kv : Nat × Bytes} (hkv : kv ∈ a.fields)
    : kv.1 ≠ 0 ∧ kv.1 < 8 ∧ kv.2 ≠ [] ∧ Skippable kv.2 := by
  rcases SnapArgs.mem_fields hkv with rfl | rfl | rfl | rfl | rfl | ⟨m, hm, rfl⟩
  . exact ⟨by simp, by simp, cborBytes_ne_nil _, skippable_cborBytes (hash_lt _)⟩
  . exact ⟨by simp, by simp, encHashes_ne_nil _, skippable_encHashes h.count⟩
  . exact ⟨by simp, by simp, cborUint_ne_nil _, skippable_cborUint h.time⟩
  . exact ⟨by simp, by simp, cborText_ne_nil _, skippable_cborText h.author⟩
  . exact ⟨by simp, by simp, cborText_ne_nil _, skippable_cborText h.engine⟩
  . exact ⟨by simp, by simp, cborText_ne_nil _, skippable_cborText (h.message m hm)⟩

theorem objKind_snapshot (h : a.Framed) : objKind a.encode = some objSnapshot := by
  rw [SnapArgs.encode_eq]
  apply objKind_encFields (by decide) a.length_fields
  intro kv hkv
  exact SnapArgs.fields_ok h hkv

theorem SnapArgs.objFields_encode (h : a.Framed) {v : FieldCb σ} {f : σ → Nat × Bytes → σ}
    (hzero : ∀ s rest, v 0 ⟨cborUint objSnapshot ++ rest, false⟩ s
      = (true, ⟨rest, false⟩, f s (0, cborUint objSnapshot)))
    (hv : ∀ kv ∈ a.fields, ∀ s rest, v kv.1 ⟨kv.2 ++ rest, false⟩ s = (true, ⟨rest, false⟩, f s kv))
    (s : σ)
    : objFields a.encode v s = (true, a.fields.foldl f (f s (0, cborUint objSnapshot))) := by
  rw [SnapArgs.encode_eq]
  rw [objFields_encFields (f := f)]
  . rfl
  . have := a.length_fields
    rw [List.length_cons]
    omega
  . intro kv hkv
    rw [List.mem_cons] at hkv
    rcases hkv with rfl | hkv
    . exact ⟨by simp, cborUint_ne_nil objSnapshot⟩
    . have hok := SnapArgs.fields_ok h hkv
      exact ⟨hok.2.1, hok.2.2.1⟩
  . intro kv hkv
    rw [List.mem_cons] at hkv
    rcases hkv with rfl | hkv
    . exact hzero
    . exact hv kv hkv

def SnapArgs.read (a : SnapArgs) (o : SnapOut) (kv : Nat × Bytes) : SnapOut :=
  if kv.1 = 0 then { o with kind := objSnapshot }
  else if kv.1 = 1 then { o with root := some a.root }
  else if kv.1 = 5 then { o with engine := some (a.engine.take 23) }
  else o

theorem SnapArgs.objFields_snapCb (h : a.Framed)
    : objFields a.encode snapCb ⟨none, 2 ^ 32 - 1, none⟩
        = (true, ⟨some a.root, objSnapshot, some (a.engine.take 23)⟩) := by
  rw [SnapArgs.objFields_encode h (f := a.read)]
  . cases hmsg : a.message <;> simp [SnapArgs.fields, SnapArgs.read, hmsg]
  . intro o rest
    simp only [snapCb]
    rw [readField_of_some (cdecUint_cborUint rest (show objSnapshot < 2 ^ 64 by decide))]
    rfl
  . intro kv hkv o rest
    have hok := SnapArgs.fields_ok h hkv
    rcases SnapArgs.mem_fields hkv with rfl | rfl | rfl | rfl | rfl | ⟨m, hm, rfl⟩
    . simp only [snapCb]
      rw [readField_of_some (hashRead_of_alg h.root rest)]
      rfl
    . exact skipField_of_skips (hok.2.2.2 rest) o
    . exact skipField_of_skips (hok.2.2.2 rest) o
    . exact skipField_of_skips (hok.2.2.2 rest) o
    . simp only [snapCb]
      rw [readField_of_some (cdecText_cborText a.engine rest h.engine)]
      rfl
    . exact skipField_of_skips (hok.2.2.2 rest) o

theorem objParseSnapshotRoot_snapshot (h : a.Framed)
    : objParseSnapshotRoot a.encode = some a.root := by
  unfold objParseSnapshotRoot
  rw [SnapArgs.objFields_snapCb h]
  rfl

theorem objParseSnapshotEngine_snapshot (h : a.Framed) (hlen : a.engine.length ≤ 23)
    (hnul : 0 ∉ a.engine) {outsz : Nat} (hout : a.engine.length < outsz)
    : objParseSnapshotEngine a.encode outsz = some a.engine := by
  unfold objParseSnapshotEngine
  rw [SnapArgs.objFields_snapCb h]
  dsimp only
  rw [List.take_of_length_le hlen, cstr_of_not_mem hnul, if_neg]
  rw [not_or]
  exact ⟨by simp, by omega⟩

theorem objChildren_snapshotArgs (h : a.Fits) (ip : Bool)
    : objChildren a.encode ip = (true, a.root :: (if ip then a.parents else [])) := by
  rw [objChildren_snapshot (objKind_snapshot h.framed),
    SnapArgs.objFields_encode h.framed (f := fun hs kv =>
      if kv.1 = 1 then hs ++ [a.root] else if kv.1 = 2 ∧ ip then hs ++ a.parents else hs)]
  . cases hmsg : a.message <;> cases ip <;> simp [SnapArgs.fields, hmsg]
  . intro hs rest
    exact skipField_of_skips (skippable_cborUint (show objSnapshot < 2 ^ 64 by decide) rest) hs
  . intro kv hkv hs rest
    have hok := SnapArgs.fields_ok h.framed hkv
    rcases SnapArgs.mem_fields hkv with rfl | rfl | rfl | rfl | rfl | ⟨m, hm, rfl⟩
    . unfold childCb
      rw [if_neg (by simp [objSnapshot, objList]), if_pos ⟨rfl, rfl⟩,
        readField_of_some (hashRead_of_alg h.root rest)]
      rfl
    . cases ip with
      | false => exact skipField_of_skips (hok.2.2.2 rest) hs
      | true =>
        have hread := childHashes_encHashes collectHash h.count h.parents rest hs
        rw [foldl_collectHashes] at hread
        exact hread
    . exact skipField_of_skips (hok.2.2.2 rest) hs
    . exact skipField_of_skips (hok.2.2.2 rest) hs
    . exact skipField_of_skips (hok.2.2.2 rest) hs
    . exact skipField_of_skips (hok.2.2.2 rest) hs

end Snapshots

section Order

theorem beBytes_lt {v w : Nat} (n : Nat) (h : v % 256 ^ n < w % 256 ^ n) (x y : Bytes)
    : beBytes v n ++ x < beBytes w n ++ y := by
  induction n with
  | zero =>
    rw [Nat.pow_zero, Nat.mod_one, Nat.mod_one] at h
    omega
  | succ n ih =>
    have hbyte : ∀ u : Nat, (UInt8.ofNat (u >>> (8 * n))).toNat = u / 256 ^ n % 256 := by
      intro u
      rw [UInt8.toNat_ofNat', Nat.shiftRight_eq_div_pow, Nat.pow_mul]
    have hsplit : ∀ u : Nat, u % 256 ^ (n + 1) = u % 256 ^ n + 256 ^ n * (u / 256 ^ n % 256) := by
      intro u
      rw [Nat.pow_succ, Nat.mod_mul]
    rw [hsplit v, hsplit w] at h
    rw [beBytes, beBytes, List.cons_append, List.cons_append, List.cons_lt_cons_iff,
      UInt8.lt_iff_toNat_lt, ← UInt8.toNat_inj, hbyte, hbyte]
    have hv := Nat.mod_lt v (Nat.pow_pos (n := n) (show 0 < 256 by omega))
    have hw := Nat.mod_lt w (Nat.pow_pos (n := n) (show 0 < 256 by omega))
    rcases Nat.lt_trichotomy (v / 256 ^ n % 256) (w / 256 ^ n % 256) with hlt | heq | hgt
    . exact .inl hlt
    . rw [heq] at h
      exact .inr ⟨heq, ih (by omega)⟩
    . have hmul : 256 ^ n * (w / 256 ^ n % 256 + 1) ≤ 256 ^ n * (v / 256 ^ n % 256) :=
        Nat.mul_le_mul_left _ hgt
      rw [Nat.mul_succ] at hmul
      omega

theorem cons_beBytes_lt (b : UInt8) {v w n : Nat} (h : v < w) (hw : w < 256 ^ n) (x y : Bytes)
    : b :: (beBytes v n ++ x) < b :: (beBytes w n ++ y) := by
  rw [List.cons_lt_cons_iff]
  refine .inr ⟨rfl, ?_⟩
  apply beBytes_lt
  rw [Nat.mod_eq_of_lt hw, Nat.mod_eq_of_lt (by omega)]
  exact h

-- A larger argument gives a larger head, as RFC 8949 compares encoded keys.
theorem putHead_lt {v w : Nat} (h : v < w) (hw : w < 2 ^ 64) (x y : Bytes)
    : putHead 3 v ++ x < putHead 3 w ++ y := by
  have hfirst : ∀ {b c : UInt8} {s t : Bytes}, b < c → b :: s < c :: t := by
    intro b c s t hlt
    rw [List.cons_lt_cons_iff]
    exact .inl hlt
  have hsmall : ∀ u, u < 24 → ∀ ai, 24 ≤ ai → ai < 28 →
      UInt8.ofNat (3 <<< 5 + u) < UInt8.ofNat (3 <<< 5 + ai) := by
    intro u hu ai hge hlt
    rw [UInt8.lt_iff_toNat_lt, UInt8.toNat_ofNat', UInt8.toNat_ofNat', Nat.shiftLeft_eq]
    omega
  unfold putHead
  by_cases h1 : w < 24
  . rw [if_pos h1, if_pos (by omega)]
    apply hfirst
    rw [UInt8.lt_iff_toNat_lt, UInt8.toNat_ofNat', UInt8.toNat_ofNat', Nat.shiftLeft_eq]
    omega
  . rw [if_neg h1]
    by_cases h2 : w ≤ 0xff
    . rw [if_pos h2]
      by_cases h1' : v < 24
      . rw [if_pos h1']
        exact hfirst (hsmall v h1' 24 (by omega) (by omega))
      . rw [if_neg h1', if_pos (by omega)]
        exact cons_beBytes_lt _ h (by omega) x y
    . rw [if_neg h2]
      by_cases h3 : w ≤ 0xffff
      . rw [if_pos h3]
        by_cases h1' : v < 24
        . rw [if_pos h1']
          exact hfirst (hsmall v h1' 25 (by omega) (by omega))
        . rw [if_neg h1']
          by_cases h2' : v ≤ 0xff
          . rw [if_pos h2']
            exact hfirst (by decide)
          . rw [if_neg h2', if_pos (by omega)]
            exact cons_beBytes_lt _ h (by omega) x y
      . rw [if_neg h3]
        by_cases h4 : w ≤ 0xffffffff
        . rw [if_pos h4]
          by_cases h1' : v < 24
          . rw [if_pos h1']
            exact hfirst (hsmall v h1' 26 (by omega) (by omega))
          . rw [if_neg h1']
            by_cases h2' : v ≤ 0xff
            . rw [if_pos h2']
              exact hfirst (by decide)
            . rw [if_neg h2']
              by_cases h3' : v ≤ 0xffff
              . rw [if_pos h3']
                exact hfirst (by decide)
              . rw [if_neg h3', if_pos (by omega)]
                exact cons_beBytes_lt _ h (by omega) x y
        . rw [if_neg h4]
          by_cases h1' : v < 24
          . rw [if_pos h1']
            exact hfirst (hsmall v h1' 27 (by omega) (by omega))
          . rw [if_neg h1']
            by_cases h2' : v ≤ 0xff
            . rw [if_pos h2']
              exact hfirst (by decide)
            . rw [if_neg h2']
              by_cases h3' : v ≤ 0xffff
              . rw [if_pos h3']
                exact hfirst (by decide)
              . rw [if_neg h3']
                by_cases h4' : v ≤ 0xffffffff
                . rw [if_pos h4']
                  exact hfirst (by decide)
                . rw [if_neg h4']
                  exact cons_beBytes_lt _ h (by omega) x y

variable {a b c : TreeEntry}

theorem cborText_lt_of_entryLe (hlen : b.name.length < 2 ^ 64) (hle : entryLe a b = true)
    (hne : a.name ≠ b.name) : cborText a.name < cborText b.name := by
  unfold entryLe at hle
  unfold cborText
  split at hle
  next hdiff =>
    rw [decide_eq_true_eq] at hle
    exact putHead_lt hle hlen _ _
  next hsame =>
    rw [decide_eq_true_eq] at hle
    rw [not_not.mp hsame]
    apply List.append_left_lt
    rcases List.le_iff_lt_or_eq.mp hle with hlt | heq
    . exact hlt
    . contradiction

theorem entryLe_total (a b : TreeEntry) : (entryLe a b || entryLe b a) = true := by
  unfold entryLe
  by_cases h : a.name.length = b.name.length
  . simp only [h, ne_eq, not_true_eq_false, if_false, Bool.or_eq_true, decide_eq_true_eq]
    exact List.le_total _ _
  . simp only [h, Ne.symm h, ne_eq, not_false_eq_true, if_true, Bool.or_eq_true, decide_eq_true_eq]
    omega

theorem entryLe_trans (a b c : TreeEntry) (hab : entryLe a b = true) (hbc : entryLe b c = true)
    : entryLe a c = true := by
  unfold entryLe at hab hbc ⊢
  split at hab <;> split at hbc <;> rw [decide_eq_true_eq] at hab hbc <;> split <;>
    rw [decide_eq_true_eq] <;> first | omega | exact List.le_trans hab hbc

theorem name_eq_of_entryLe (hab : entryLe a b = true) (hba : entryLe b a = true)
    : a.name = b.name := by
  unfold entryLe at hab hba
  split at hab <;> split at hba <;> rw [decide_eq_true_eq] at hab hba
  . omega
  . omega
  . omega
  . exact List.le_antisymm hab hba

end Order

section Trees

-- Everything is as large as its C type.
structure TreeEntry.Sized (e : TreeEntry) : Prop where
  name : e.name.length < 2 ^ 64
  kind : e.kind < 2 ^ 32

def Hash.Known (h : Hash) : Prop :=
  h.b.head? = some 0x01

variable {entries : List TreeEntry}

def sortEntries (entries : List TreeEntry) : List TreeEntry :=
  entries.mergeSort entryLe

theorem sortEntries_perm (entries : List TreeEntry) : (sortEntries entries).Perm entries :=
  List.mergeSort_perm entries entryLe

theorem sortEntries_pairwise (entries : List TreeEntry)
    : (sortEntries entries).Pairwise (fun a b => entryLe a b = true) :=
  List.pairwise_mergeSort entryLe_trans entryLe_total entries

-- With distinct names there is one order only.
theorem sortEntries_eq {entries' : List TreeEntry} (hperm : entries'.Perm entries)
    (hnames : (entries.map TreeEntry.name).Nodup) : sortEntries entries' = sortEntries entries := by
  have hsorted : (sortEntries entries').Perm (sortEntries entries) :=
    (sortEntries_perm entries').trans (hperm.trans (sortEntries_perm entries).symm)
  apply List.Perm.eq_of_pairwise _ (sortEntries_pairwise entries') (sortEntries_pairwise entries)
    hsorted
  intro a b ha hb hab hba
  have ha' : a ∈ entries := hperm.mem_iff.mp ((sortEntries_perm entries').mem_iff.mp ha)
  have hb' : b ∈ entries := (sortEntries_perm entries).mem_iff.mp hb
  exact List.inj_on_of_nodup_map hnames ha' hb' (name_eq_of_entryLe hab hba)

def treeValue (sorted : List TreeEntry) : Bytes :=
  cborMap sorted.length ++ sorted.flatMap encodeEntry

theorem objEncodeTree_eq (hlen : entries.length ≤ 256)
    : objEncodeTree entries
        = some (encFields [(0, cborUint objTree), (1, treeValue (sortEntries entries))]) := by
  unfold objEncodeTree
  rw [if_neg (by omega)]
  have hsort := (sortEntries_perm entries).length_eq
  unfold sortEntries at hsort
  simp [encFields, treeValue, sortEntries, hsort]

theorem length_encodeEntry (e : TreeEntry) : 4 ≤ (encodeEntry e).length := by
  have htext := length_putHead_pos 3 e.name.length
  have harray := length_putHead_pos 4 2
  have hbytes := length_cborBytes_pos e.hash.b
  have hkind := length_putHead_pos 0 e.kind
  simp only [encodeEntry, cborText, cborArray, cborUint, List.length_append]
  omega

theorem treeEntry_encodeEntry {e : TreeEntry} (hsized : e.Sized) (hknown : e.hash.Known)
    (rest : Bytes)
    : treeEntry ⟨encodeEntry e ++ rest, false⟩ = (some (e.name, e.hash, e.kind), ⟨rest, false⟩) := by
  have hkind : e.kind < 2 ^ 64 := by
    have := hsized.kind
    omega
  have hpair : 2 ≤ (cborBytes e.hash.b ++ (cborUint e.kind ++ rest)).length := by
    have hbytes := length_cborBytes_pos e.hash.b
    have hkind := length_putHead_pos 0 e.kind
    simp only [cborUint, List.length_append]
    omega
  unfold treeEntry encodeEntry
  simp only [List.append_assoc]
  rw [Dec.bind_eq, Dec.bind_of_some (cdecText_cborText e.name _ hsized.name), Dec.bind_eq,
    Dec.bind_of_some (cdecArray_cborArray _ (by omega) hpair), if_neg (by simp), Dec.bind_eq,
    Dec.bind_of_some (hashRead_of_alg hknown _), Dec.bind_eq,
    Dec.bind_of_some (cdecUint_cborUint rest hkind)]
  rfl

theorem skippable_treeValue {sorted : List TreeEntry} (hlen : sorted.length ≤ 256)
    (hsized : ∀ e ∈ sorted, e.Sized) : Skippable (treeValue sorted) := by
  apply skippable_of_item
  have hpair : ∀ e ∈ sorted, Item (fun _ => True) 32
      (cborArray 2 ++ (cborBytes e.hash.b ++ cborUint e.kind)) := by
    intro e he
    have hkind : e.kind < 2 ^ 64 := by
      have := (hsized e he).kind
      omega
    have hitem := item_cborArray [cborBytes e.hash.b, cborUint e.kind] 31
      (by simp) (by
        intro x hx
        simp only [List.mem_cons, List.not_mem_nil, or_false] at hx
        rcases hx with rfl | rfl
        . exact item_cborBytes (hash_lt e.hash) 30
        . exact item_cborUint hkind 30)
    simpa using hitem
  rcases putHead_spells (show 5 < 8 by omega) (show sorted.length < 2 ^ 64 by omega) with
    ⟨ai, hspells⟩
  have hitem := @Item.map (fun _ => True) 32 _ _
    (sorted.flatMap (fun e => [cborText e.name,
      cborArray 2 ++ (cborBytes e.hash.b ++ cborUint e.kind)])) hspells trivial rfl (by
      have hcount : (sorted.flatMap (fun e => [cborText e.name,
          cborArray 2 ++ (cborBytes e.hash.b ++ cborUint e.kind)])).length = sorted.length * 2 := by
        simp [List.length_flatMap]
      rw [hcount]
      dsimp only
      omega) (by
      intro x hx
      rw [List.mem_flatMap] at hx
      rcases hx with ⟨e, he, hx⟩
      simp only [List.mem_cons, List.not_mem_nil, or_false] at hx
      rcases hx with rfl | rfl
      . exact item_cborText (hsized e he).name 31
      . exact hpair e he)
  have hflat : (sorted.flatMap (fun e => [cborText e.name,
      cborArray 2 ++ (cborBytes e.hash.b ++ cborUint e.kind)])).flatten
      = sorted.flatMap encodeEntry := by
    rw [List.flatten_eq_flatMap, List.flatMap_assoc]
    congr 1
    funext e
    simp [encodeEntry]
  rw [hflat] at hitem
  exact hitem

theorem treeValue_ne_nil (sorted : List TreeEntry) : treeValue sorted ≠ [] := by
  have := length_putHead_pos 5 sorted.length
  rw [← List.length_pos_iff, treeValue, cborMap, List.length_append]
  omega

def treeBytes (sorted : List TreeEntry) : Bytes :=
  encFields [(0, cborUint objTree), (1, treeValue sorted)]

theorem objKind_treeBytes {sorted : List TreeEntry} (hlen : sorted.length ≤ 256)
    (hsized : ∀ e ∈ sorted, e.Sized) : objKind (treeBytes sorted) = some objTree := by
  apply objKind_encFields (by decide) (by simp)
  intro kv hkv
  rw [List.mem_singleton] at hkv
  subst hkv
  exact ⟨by simp, by simp, treeValue_ne_nil sorted, skippable_treeValue hlen hsized⟩

theorem treeEntries_treeBytes {sorted : List TreeEntry} (hlen : sorted.length ≤ 256)
    (hsized : ∀ e ∈ sorted, e.Sized) (hknown : ∀ e ∈ sorted, e.hash.Known)
    : treeEntries (treeBytes sorted) = (true, sorted.map (fun e => (e.name, e.hash, e.kind))) := by
  unfold treeEntries treeBytes
  rw [objFields_encFields (f := fun es kv =>
    if kv.1 = 1 then es ++ sorted.map (fun e => (e.name, e.hash, e.kind)) else es)]
  . simp
  . simp
  . intro kv hkv
    simp only [List.mem_cons, List.not_mem_nil, or_false] at hkv
    rcases hkv with rfl | rfl
    . exact ⟨by simp, cborUint_ne_nil objTree⟩
    . exact ⟨by simp, treeValue_ne_nil sorted⟩
  . intro kv hkv es rest
    simp only [List.mem_cons, List.not_mem_nil, or_false] at hkv
    rcases hkv with rfl | rfl
    . exact skipField_of_skips (skippable_cborUint (show objTree < 2 ^ 64 by decide) rest) es
    . have hle : sorted.length * 2 ≤ (sorted.flatMap encodeEntry ++ rest).length := by
        have := mul_length_le_flatMap (n := 4) sorted (fun e _ => length_encodeEntry e)
        rw [List.length_append]
        omega
      have hread := eachItem_go_flatMap (f := fun es e => es ++ [e])
        (fun e => (e.name, e.hash, e.kind)) sorted
        (fun e he rest => treeEntry_encodeEntry (hsized e he) (hknown e he) rest) rest es
      have hfold : ∀ (xs acc : List (Bytes × Hash × Nat)),
          xs.foldl (fun es e => es ++ [e]) acc = acc ++ xs := by
        intro xs
        induction xs with
        | nil => simp
        | cons x xs ih =>
          intro acc
          rw [List.foldl_cons, ih]
          simp
      rw [hfold] at hread
      dsimp only [collectEntry, treeValue, eachItem]
      rw [if_neg (by simp), if_pos rfl, List.append_assoc, cdecMap_cborMap _ (by omega) hle]
      exact hread

end Trees

section Codec

def visitAll : TreeCb (List TreeEntry) := fun name h kind es =>
  (true, es ++ [⟨name, h, kind⟩])

-- One encoding for every order of the entries, its keys in order, and the entries come back.
structure TreeCodec (entries : List TreeEntry) : Prop where
  stable : ∀ entries', entries'.Perm entries → objEncodeTree entries' = objEncodeTree entries
  coded : ∃ sorted tree, sorted.Perm entries ∧ objEncodeTree entries = some tree
    ∧ tree = cborMap 2 ++ cborUint 0 ++ cborUint objTree ++ cborUint 1 ++ cborMap sorted.length
      ++ sorted.flatMap encodeEntry
    ∧ (sorted.map (fun e => cborText e.name)).Pairwise (· < ·)
    ∧ objTreeForeach tree visitAll [] = (true, sorted)
    ∧ ∀ ip, objChildren tree ip = (true, sorted.map TreeEntry.hash)

structure BlobCodec (media payload : Bytes) : Prop where
  kind : objKind (objEncodeBlob media payload) = some objBlob
  parsed : objParseBlob (objEncodeBlob media payload) = some (media, payload)
  children : ∀ ip, objChildren (objEncodeBlob media payload) ip = (true, [])

structure ListCodec (media : Bytes) (chunks : List Hash) : Prop where
  kind : objKind (objEncodeList media chunks) = some objList
  children : ∀ ip, objChildren (objEncodeList media chunks) ip = (true, chunks)

structure SnapCodec (a : SnapArgs) : Prop where
  kind : objKind a.encode = some objSnapshot
  root : objParseSnapshotRoot a.encode = some a.root
  engine : a.engine.length ≤ 23 → 0 ∉ a.engine → ∀ outsz, a.engine.length < outsz →
    objParseSnapshotEngine a.encode outsz = some a.engine
  children : ∀ ip, objChildren a.encode ip = (true, a.root :: (if ip then a.parents else []))

theorem foldl_visitAll (es : List TreeEntry) (hsized : ∀ e ∈ es, e.Sized) (acc : List TreeEntry)
    : (es.map (fun e => (e.name, e.hash, e.kind))).foldl (TreeIter.step visitAll) ⟨false, acc⟩
        = ⟨false, acc ++ es⟩ := by
  induction es generalizing acc with
  | nil => simp
  | cons e es ih =>
    have hkind : toInt32 e.kind = e.kind := Nat.mod_eq_of_lt (hsized e List.mem_cons_self).kind
    have hstep : TreeIter.step visitAll ⟨false, acc⟩ (e.name, e.hash, e.kind)
        = ⟨false, acc ++ [e]⟩ := by
      unfold TreeIter.step visitAll
      dsimp only
      rw [hkind]
      rfl
    rw [List.map_cons, List.foldl_cons, hstep, ih (fun e' he' => hsized e' (List.mem_cons_of_mem e he'))]
    simp

theorem treeCodec {entries : List TreeEntry} (hlen : entries.length ≤ 256)
    (hnames : (entries.map TreeEntry.name).Nodup) (hsized : ∀ e ∈ entries, e.Sized)
    (hknown : ∀ e ∈ entries, e.hash.Known) : TreeCodec entries := by
  have hperm := sortEntries_perm entries
  have hlen' : (sortEntries entries).length ≤ 256 := by
    rw [hperm.length_eq]
    exact hlen
  have hsized' : ∀ e ∈ sortEntries entries, e.Sized := fun e he => hsized e (hperm.mem_iff.mp he)
  have hknown' : ∀ e ∈ sortEntries entries, e.hash.Known :=
    fun e he => hknown e (hperm.mem_iff.mp he)
  have hkind := objKind_treeBytes hlen' hsized'
  have hentries := treeEntries_treeBytes hlen' hsized' hknown'
  constructor
  . intro entries' hperm'
    rw [objEncodeTree_eq hlen, objEncodeTree_eq (by rw [hperm'.length_eq]; exact hlen),
      sortEntries_eq hperm' hnames]
  . refine ⟨sortEntries entries, treeBytes (sortEntries entries), hperm, objEncodeTree_eq hlen,
      ?_, ?_, ?_, ?_⟩
    . simp [treeBytes, encFields, treeValue]
    . rw [List.pairwise_map]
      have hnodup : (sortEntries entries).Pairwise (fun a b => a.name ≠ b.name) := by
        rw [← List.pairwise_map (f := TreeEntry.name) (R := (· ≠ ·))]
        exact (hperm.map TreeEntry.name).nodup_iff.mpr hnames
      have hboth := (sortEntries_pairwise entries).and hnodup
      apply List.Pairwise.imp_of_mem _ hboth
      intro a b _ hb h
      exact cborText_lt_of_entryLe (hsized' b hb).name h.1 h.2
    . rw [objTreeForeach_eq hkind, hentries]
      dsimp only
      rw [foldl_visitAll _ hsized', List.nil_append]
    . intro ip
      rw [objChildren_tree hkind, hentries]
      dsimp only
      rw [List.map_map]
      rfl

theorem objCodec
    : (∀ entries : List TreeEntry, entries.length ≤ 256 → (entries.map TreeEntry.name).Nodup →
        (∀ e ∈ entries, e.Sized) → (∀ e ∈ entries, e.hash.Known) → TreeCodec entries)
      ∧ (∀ media payload : Bytes, media.length < 2 ^ 64 → payload.length < 2 ^ 64 →
        BlobCodec media payload)
      ∧ (∀ (media : Bytes) (chunks : List Hash), media.length < 2 ^ 64 → chunks.length < 2 ^ 64 →
        (∀ h ∈ chunks, h.Known) → ListCodec media chunks)
      ∧ ∀ a : SnapArgs, a.Fits → SnapCodec a := by
  refine ⟨?_, ?_, ?_, ?_⟩
  . intro entries hlen hnames hsized hknown
    exact treeCodec hlen hnames hsized hknown
  . intro media payload hmedia hpayload
    have hkind := objKind_objEncodeBlob hmedia hpayload
    exact ⟨hkind, objParseBlob_objEncodeBlob hmedia hpayload, objChildren_of_blob hkind⟩
  . intro media chunks hmedia hchunks hknown
    exact ⟨objKind_objEncodeList hmedia hchunks, objChildren_objEncodeList hmedia hchunks hknown⟩
  . intro a ha
    refine ⟨objKind_snapshot ha.framed, objParseSnapshotRoot_snapshot ha.framed, ?_,
      objChildren_snapshotArgs ha⟩
    intro hlen hnul outsz hout
    exact objParseSnapshotEngine_snapshot ha.framed hlen hnul hout

-- An entry whose hash is of no known algorithm.
def strangeEntry : TreeEntry :=
  ⟨ascii "a", ⟨List.replicate 33 0, List.length_replicate⟩, objBlob⟩

theorem not_treeCodec_strange
    : ¬ ∀ entries : List TreeEntry, entries.length ≤ 256 → (entries.map TreeEntry.name).Nodup →
        (∀ e ∈ entries, e.Sized) → TreeCodec entries := by
  intro h
  have hcodec := h [strangeEntry] (by simp) (by simp) (by
    intro e he
    rw [List.mem_singleton] at he
    subst he
    exact ⟨by decide, by decide⟩)
  rcases hcodec.coded with ⟨sorted, tree, hperm, htree, hbytes, _, hvisited, _⟩
  rw [List.perm_singleton] at hperm
  subst hperm
  subst hbytes
  have hnone : (objTreeForeach (cborMap 2 ++ cborUint 0 ++ cborUint objTree ++ cborUint 1
      ++ cborMap [strangeEntry].length ++ [strangeEntry].flatMap encodeEntry) visitAll []).1
      = false := by
    decide +kernel
  rw [hvisited] at hnone
  cases hnone

theorem objCodec_params
    : TreeCodec [⟨ascii "params", hashCompute [], objBlob⟩, ⟨ascii "aux", hashCompute [1], objBlob⟩] := by
  apply objCodec.1
  . simp
  . decide
  . intro e he
    simp only [List.mem_cons, List.not_mem_nil, or_false] at he
    rcases he with rfl | rfl
    . exact ⟨by decide, by simp [objBlob]⟩
    . exact ⟨by decide, by simp [objBlob]⟩
  . intro e he
    simp only [List.mem_cons, List.not_mem_nil, or_false] at he
    rcases he with rfl | rfl
    . rfl
    . rfl

end Codec

end Harp
