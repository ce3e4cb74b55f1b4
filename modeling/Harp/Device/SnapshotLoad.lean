import Harp.Core.ObjectCodec
import Harp.Device.ParamsCodec
import Harp.Device.Retention

/-!
This module contains what loading a snapshot gives: the cells of its params blobs, laid over the
values of the engine. It says which objects that depends on, and that the objects of a snapshot give
the values it was taken of.
-/

namespace Harp

open Ieee

section Plan

-- An entry of a root tree that a load reads.
def isParams (e : Bytes × Hash × Nat) : Bool :=
  e.1 = ascii "params" ∧ toInt32 e.2.2 = objBlob

def blobCells (s : Store) (h : Hash) : Option Cells :=
  ((storeGet s h).bind objParseBlob).bind (fun blob => refdevParseParamsBlob blob.2)

def entryCells (s : Store) : List (Bytes × Hash × Nat) → Option (List Cells)
  | [] => some []
  | e :: es =>
    if isParams e then
      (blobCells s e.2.1).bind (fun c => (entryCells s es).map (c :: ·))
    else
      entryCells s es

def treeCells (s : Store) (treeEnc : Bytes) : Option (List Cells) :=
  if objKind treeEnc = some objTree ∧ (treeEntries treeEnc).1 = true then
    entryCells s (treeEntries treeEnc).2
  else
    none

-- What a load lays over the values, in order; the values themselves do not decide it.
def loadPlan (s : Store) (snap : Hash) : Option (List Cells) :=
  (storeGet s snap).bind (fun enc =>
    (objParseSnapshotRoot enc).bind (fun root => (storeGet s root).bind (treeCells s)))

def overlayAll (cs : List Cells) (g : Grid) : Grid :=
  cs.foldl (fun g c => overlay c g) g

variable {s : Store}

theorem step_of_stopped (cb : TreeCb σ) (es : List (Bytes × Hash × Nat)) (ud : σ)
    : es.foldl (TreeIter.step cb) ⟨true, ud⟩ = ⟨true, ud⟩ := by
  induction es with
  | nil => rfl
  | cons e es ih => exact ih

theorem loadTreeEntry_of_not {e : Bytes × Hash × Nat} (h : isParams e = false) (ctx : LoadCtx)
    : loadTreeEntry s e.1 e.2.1 (toInt32 e.2.2) ctx = (true, ctx) := by
  unfold isParams at h
  rw [decide_eq_false_iff_not, not_and_or] at h
  unfold loadTreeEntry
  rw [if_pos h]

theorem loadTreeEntry_of_params {e : Bytes × Hash × Nat} (h : isParams e = true) (ctx : LoadCtx)
    : loadTreeEntry s e.1 e.2.1 (toInt32 e.2.2) ctx =
        match blobCells s e.2.1 with
        | none => (false, { ctx with ok := false })
        | some c => (true, { ctx with staged := overlay c ctx.staged }) := by
  unfold isParams at h
  rw [decide_eq_true_eq] at h
  unfold loadTreeEntry blobCells
  rw [if_neg (by simp [h])]
  cases storeGet s e.2.1 with
  | none => rfl
  | some enc =>
    dsimp only [Option.bind_some]
    cases objParseBlob enc with
    | none => rfl
    | some blob =>
      cases hcells : refdevParseParamsBlob blob.2 <;> simp only [Option.bind_some, hcells]

theorem foldl_loadTreeEntry (es : List (Bytes × Hash × Nat)) (v : Grid)
    : (let ctx := (es.foldl (TreeIter.step (loadTreeEntry s)) ⟨false, ⟨v, true⟩⟩).ud
      if ctx.ok then some ctx.staged else none)
        = (entryCells s es).map (fun cs => overlayAll cs v) := by
  induction es generalizing v with
  | nil => rfl
  | cons e es ih =>
    rw [List.foldl_cons]
    cases hparams : isParams e with
    | false =>
      have hstep : TreeIter.step (loadTreeEntry s) ⟨false, ⟨v, true⟩⟩ e = ⟨false, ⟨v, true⟩⟩ := by
        unfold TreeIter.step
        rw [if_neg (by simp), loadTreeEntry_of_not hparams]
        rfl
      rw [hstep, ih]
      simp [entryCells, hparams]
    | true =>
      have hload := loadTreeEntry_of_params (s := s) hparams ⟨v, true⟩
      cases hcells : blobCells s e.2.1 with
      | none =>
        have hstep : TreeIter.step (loadTreeEntry s) ⟨false, ⟨v, true⟩⟩ e
            = ⟨true, ⟨v, false⟩⟩ := by
          unfold TreeIter.step
          rw [if_neg (by simp), hload, hcells]
          rfl
        rw [hstep, step_of_stopped]
        simp [entryCells, hparams, hcells]
      | some c =>
        have hstep : TreeIter.step (loadTreeEntry s) ⟨false, ⟨v, true⟩⟩ e
            = ⟨false, ⟨overlay c v, true⟩⟩ := by
          unfold TreeIter.step
          rw [if_neg (by simp), hload, hcells]
          rfl
        rw [hstep, ih]
        simp only [entryCells, hparams, hcells, if_true, Option.bind_some, Option.map_map]
        rfl

theorem engineLoadSnapshot_eq (s : Store) (v : Grid) (snap : Hash)
    : engineLoadSnapshot s v snap = (loadPlan s snap).map (fun cs => overlayAll cs v) := by
  unfold engineLoadSnapshot loadPlan
  cases storeGet s snap with
  | none => rfl
  | some enc =>
    dsimp only [Option.bind_some]
    cases objParseSnapshotRoot enc with
    | none => rfl
    | some root =>
      dsimp only [Option.bind_some]
      cases storeGet s root with
      | none => rfl
      | some treeEnc =>
        dsimp only [Option.bind_some]
        unfold treeCells
        by_cases hkind : objKind treeEnc = some objTree
        . have hfold := foldl_loadTreeEntry (s := s) (treeEntries treeEnc).2 v
          rw [objTreeForeach_eq hkind]
          dsimp only at hfold ⊢
          cases hwalk : (treeEntries treeEnc).1 with
          | false => simp
          | true =>
            simp only [true_and, hkind, and_self, if_true]
            exact hfold
        . have hnone : objTreeForeach treeEnc (loadTreeEntry s) ⟨v, true⟩ = (false, ⟨v, true⟩) := by
            unfold objTreeForeach
            rw [if_pos hkind]
          simp [hnone, hkind]

theorem overlayAll_apply (cs : List Cells) (g : Grid) (p : Fin nParts) (i : Fin nParams)
    : overlayAll cs g p i = ((cs.filterMap (fun c => c p i)).getLast?).getD (g p i) := by
  unfold overlayAll
  induction cs generalizing g with
  | nil => rfl
  | cons c cs ih =>
    rw [List.foldl_cons, ih, List.filterMap_cons]
    unfold overlay
    cases hc : c p i with
    | none => rfl
    | some x =>
      dsimp only [Option.getD_some]
      rw [List.getLast?_cons]
      cases (cs.filterMap (fun c => c p i)).getLast? <;> rfl

-- A second load changes nothing any more.
theorem overlayAll_overlayAll (cs : List Cells) (g : Grid)
    : overlayAll cs (overlayAll cs g) = overlayAll cs g := by
  funext p i
  rw [overlayAll_apply, overlayAll_apply]
  cases (cs.filterMap (fun c => c p i)).getLast? <;> rfl

end Plan

section Reads

variable {s s' : Store} {snap : Hash} {cs : List Cells}

theorem entryCells_keep {es : List (Bytes × Hash × Nat)}
    (hkeep : ∀ e ∈ es, ∀ enc, storeGet s e.2.1 = some enc → storeGet s' e.2.1 = some enc)
    (h : entryCells s es = some cs) : entryCells s' es = some cs := by
  induction es generalizing cs with
  | nil => exact h
  | cons e es ih =>
    rw [List.forall_mem_cons] at hkeep
    unfold entryCells at h ⊢
    split at h
    next hparams =>
      rw [if_pos hparams]
      rw [Option.bind_eq_some_iff] at h
      rcases h with ⟨c, hcells, hrest⟩
      rw [Option.map_eq_some_iff] at hrest
      rcases hrest with ⟨cs', hrest, rfl⟩
      have hcells' : blobCells s' e.2.1 = some c := by
        unfold blobCells at hcells ⊢
        cases hget : storeGet s e.2.1 with
        | none =>
          rw [hget] at hcells
          cases hcells
        | some enc =>
          rw [hkeep.1 enc hget, ← hget]
          exact hcells
      rw [hcells', ih hkeep.2 hrest]
      rfl
    next hparams =>
      rw [if_neg hparams]
      exact ih hkeep.2 h

-- A load reads the snapshot, its root and the entries of the root.
theorem loadPlan_keep {P : Hash → Prop}
    (hkeep : ∀ x, P x → ∀ enc, storeGet s x = some enc → storeGet s' x = some enc) (hsnap : P snap)
    (hroot : ∀ enc root, storeGet s snap = some enc → objParseSnapshotRoot enc = some root → P root)
    (hentry : ∀ enc root treeEnc, storeGet s snap = some enc →
      objParseSnapshotRoot enc = some root → storeGet s root = some treeEnc →
        objKind treeEnc = some objTree → ∀ e ∈ (treeEntries treeEnc).2, P e.2.1)
    (h : loadPlan s snap = some cs) : loadPlan s' snap = some cs := by
  unfold loadPlan at h ⊢
  rw [Option.bind_eq_some_iff] at h
  rcases h with ⟨enc, hget, h⟩
  rw [Option.bind_eq_some_iff] at h
  rcases h with ⟨root, hparse, h⟩
  rw [Option.bind_eq_some_iff] at h
  rcases h with ⟨treeEnc, htree, h⟩
  unfold treeCells at h
  split at h
  next hcond =>
    rw [hkeep snap hsnap enc hget, Option.bind_some, hparse, Option.bind_some,
      hkeep root (hroot enc root hget hparse) treeEnc htree, Option.bind_some]
    unfold treeCells
    rw [if_pos hcond]
    apply entryCells_keep _ h
    intro e he
    exact hkeep e.2.1 (hentry enc root treeEnc hget hparse htree hcond.1 e he)
  next => cases h

theorem loadPlan_mono (hkeep : ∀ x enc, storeGet s x = some enc → storeGet s' x = some enc)
    (h : loadPlan s snap = some cs) : loadPlan s' snap = some cs := by
  apply loadPlan_keep (P := fun _ => True) _ trivial _ _ h
  . intro x _
    exact hkeep x
  . intros
    trivial
  . intros
    trivial

end Reads

section Puts

variable {s : Store}

-- What can be read is found.
def Readable (s : Store) : Prop :=
  ∀ x enc, storeGet s x = some enc → storeHave s x = true

theorem storeGet_storePut (h : Readable s) (enc : Bytes) (io : WriteIo) (x : Hash) (data : Bytes)
    (hget : storeGet s x = some data) : storeGet (storePut s enc io).2 x = some data := by
  unfold storeGet
  rw [objFile_storePut, if_neg]
  . exact hget
  . rintro ⟨hnot, _⟩
    rw [h x data hget] at hnot
    cases hnot

theorem storeGet_storePut_of_ne {enc : Bytes} {io : WriteIo} {x : Hash} (h : x ≠ hashCompute enc)
    : storeGet (storePut s enc io).2 x = storeGet s x := by
  unfold storeGet
  rw [objFile_storePut, if_neg (fun hput => h hput.2.2)]

theorem readable_storePut (h : Readable s) (enc : Bytes) (io : WriteIo)
    : Readable (storePut s enc io).2 := by
  intro x data hget
  unfold storeGet at hget
  unfold storeHave
  rw [objFile_storePut] at hget ⊢
  by_cases hput : storeHave s x = false ∧ io.unchecked = true ∧ x = hashCompute enc
  . rw [if_pos hput]
  . rw [if_neg hput] at hget ⊢
    exact h x data hget

-- No file of other bytes has the name of the object.
def Uncontested (s : Store) (enc : Bytes) : Prop :=
  storeHave s (hashCompute enc) = true → storeGet s (hashCompute enc) = some enc

-- What is read under the name of an object once it has been put.
def putBytes (s : Store) (enc : Bytes) (io : WriteIo) : Bytes :=
  if storeHave s (hashCompute enc) then enc else io.onDisk enc

theorem storePut_ok_iff (s : Store) (enc : Bytes) (io : WriteIo)
    : (storePut s enc io).1 = true ↔ storeHave s (hashCompute enc) = true ∨ io.unchecked = true := by
  unfold storePut
  dsimp only
  split
  next hhave => simp [hhave]
  next hhave =>
    split
    next hio => simp [hio]
    next hio => simp [hhave, hio]

theorem storeGet_put_self (enc : Bytes) {io : WriteIo} (hun : Uncontested s enc)
    (h : (storePut s enc io).1 = true)
    : storeGet (storePut s enc io).2 (hashCompute enc) = some (putBytes s enc io) := by
  unfold storePut at h ⊢
  unfold putBytes
  dsimp only at h ⊢
  split
  next hhave => exact hun hhave
  next hhave =>
    rw [if_neg hhave] at h
    split
    next => simp [storeGet, objFile, lookupObj]
    next hio =>
      rw [if_neg hio] at h
      cases h

theorem storeHave_storePut_of_ne {enc : Bytes} {io : WriteIo} {x : Hash} (h : x ≠ hashCompute enc)
    : storeHave (storePut s enc io).2 x = storeHave s x := by
  unfold storeHave
  rw [objFile_storePut, if_neg (fun hput => h hput.2.2)]

theorem putBytes_storePut {enc enc' : Bytes} (hne : hashCompute enc' ≠ hashCompute enc)
    (io io' : WriteIo) : putBytes (storePut s enc io).2 enc' io' = putBytes s enc' io' := by
  unfold putBytes
  rw [storeHave_storePut_of_ne hne]

theorem Uncontested.storePut {enc enc' : Bytes} (h : Uncontested s enc')
    (hne : hashCompute enc' ≠ hashCompute enc) (io : WriteIo)
    : Uncontested (storePut s enc io).2 enc' := by
  intro hhave
  unfold storeHave at hhave
  unfold storeGet
  rw [objFile_storePut, if_neg (fun hput => hne hput.2.2)] at hhave ⊢
  exact h hhave

end Puts

section Taken

variable {s : Store} {v : Grid}

theorem length_cborUint_le (n : Nat) : (cborUint n).length ≤ 9 :=
  length_putHead_le 0 n

theorem length_flatMap_le {α : Type} {f : α → Bytes} {n : Nat} (xs : List α)
    (h : ∀ x, (f x).length ≤ n) : (xs.flatMap f).length ≤ xs.length * n := by
  induction xs with
  | nil => simp
  | cons x xs ih =>
    have hx := h x
    rw [List.flatMap_cons, List.length_append, List.length_cons, Nat.succ_mul]
    omega

theorem length_refdevEncodeParamsBlob_lt (v : Grid)
    : (refdevEncodeParamsBlob v).length < 2 ^ 64 := by
  have hparam : ∀ p i, (encodeParam v p i).length ≤ 18 := by
    intro p i
    have hid := length_cborUint_le (gParamId i)
    have hval := length_cborFloat_le (widen (v p i))
    unfold encodeParam
    rw [List.length_append]
    omega
  have hpart : ∀ p, (encodePart v p).length ≤ 300 := by
    intro p
    have hid := length_cborUint_le p.val
    have hmap := length_putHead_le 5 nParams
    have hcount : nParams * 18 = 216 := rfl
    have hparams := length_flatMap_le (List.finRange nParams) (hparam p)
    rw [List.length_finRange] at hparams
    unfold encodePart cborMap
    rw [List.length_append, List.length_append]
    omega
  have hmap := length_putHead_le 5 nParts
  have hcount : nParts * 300 = 4800 := rfl
  have hparts := length_flatMap_le (List.finRange nParts) hpart
  rw [List.length_finRange] at hparts
  rw [refdevEncodeParamsBlob_eq, List.length_append, cborMap]
  omega

-- The tree of a snapshot, with its one entry.
def paramsTree (v : Grid) : Bytes :=
  treeBytes [⟨ascii "params", hashCompute (engineEncodeParamsBlob v), objBlob⟩]

theorem objEncodeTree_params (v : Grid)
    : objEncodeTree [⟨ascii "params", hashCompute (engineEncodeParamsBlob v), objBlob⟩]
        = some (paramsTree v) := by
  rw [objEncodeTree_eq (by simp)]
  unfold paramsTree treeBytes sortEntries
  rw [List.mergeSort_singleton]

def snapArgs (v : Grid) (parent : Option Hash) (msg : Option Bytes) (time : Nat) : SnapArgs :=
  ⟨hashCompute (paramsTree v), parent.toList, time, ascii "device", engineVersion, msg⟩

-- The three objects of a snapshot, in the order they are put.
def snapshotObjects (v : Grid) (parent : Option Hash) (msg : Option Bytes) (time : Nat)
    : List Bytes :=
  [engineEncodeParamsBlob v, paramsTree v, (snapArgs v parent msg time).encode]

-- The same with how the write of each ends.
def snapshotPuts (v : Grid) (parent : Option Hash) (msg : Option Bytes) (time : Nat) (io : SnapIo)
    : List (Bytes × WriteIo) :=
  [(engineEncodeParamsBlob v, io.blob), (paramsTree v, io.tree),
    ((snapArgs v parent msg time).encode, io.snap)]

theorem mem_snapshotObjects {parent : Option Hash} {msg : Option Bytes} {time : Nat} {io : SnapIo}
    {x : Bytes × WriteIo} (h : x ∈ snapshotPuts v parent msg time io)
    : x.1 ∈ snapshotObjects v parent msg time := by
  simp only [snapshotPuts, List.mem_cons, List.not_mem_nil, or_false] at h
  rcases h with rfl | rfl | rfl <;> simp [snapshotObjects]

theorem blobCells_params (h : storeGet s (hashCompute (engineEncodeParamsBlob v))
      = some (engineEncodeParamsBlob v))
    : blobCells s (hashCompute (engineEncodeParamsBlob v))
        = some (fun p i => some (canon (v p i))) := by
  unfold blobCells
  rw [h, Option.bind_some]
  unfold engineEncodeParamsBlob
  rw [objParseBlob_objEncodeBlob (by decide) (length_refdevEncodeParamsBlob_lt v),
    Option.bind_some]
  exact refdevParseParamsBlob_encode v

theorem paramsEntry_sized (v : Grid)
    : ∀ e ∈ [(⟨ascii "params", hashCompute (engineEncodeParamsBlob v), objBlob⟩ : TreeEntry)],
        e.Sized := by
  intro e he
  rw [List.mem_singleton] at he
  subst he
  exact ⟨show (ascii "params").length < 2 ^ 64 by decide, show objBlob < 2 ^ 32 by decide⟩

-- The tree gives what its one blob gives, whatever file that is.
theorem treeCells_params (s : Store) (v : Grid)
    : treeCells s (paramsTree v)
        = (blobCells s (hashCompute (engineEncodeParamsBlob v))).map (fun c => [c]) := by
  have hsized := paramsEntry_sized v
  have hknown : ∀ e ∈ [(⟨ascii "params", hashCompute (engineEncodeParamsBlob v), objBlob⟩
      : TreeEntry)], e.hash.Known := by
    intro e he
    rw [List.mem_singleton] at he
    subst he
    rfl
  have hkind := objKind_treeBytes (by simp) hsized
  have hentries := treeEntries_treeBytes (by simp) hsized hknown
  unfold treeCells paramsTree
  rw [hentries, if_pos ⟨hkind, rfl⟩, List.map_singleton]
  have hparams : isParams (ascii "params", hashCompute (engineEncodeParamsBlob v), objBlob)
      = true := by
    simp [isParams, toInt32, objBlob]
  cases hcells : blobCells s (hashCompute (engineEncodeParamsBlob v)) <;>
    simp [entryCells, hparams, hcells]

-- Everything is as large as its C type.
structure SnapSized (msg : Option Bytes) (time : Nat) : Prop where
  msg : ∀ m, msg = some m → m.length < 2 ^ 64
  time : time < 2 ^ 64

theorem snapArgs_framed {parent : Option Hash} {msg : Option Bytes} {time : Nat}
    (h : SnapSized msg time) : (snapArgs v parent msg time).Framed := by
  constructor
  . rfl
  . cases parent <;> simp [snapArgs]
  . exact h.time
  . exact show (ascii "device").length < 2 ^ 64 by decide
  . exact show engineVersion.length < 2 ^ 64 by decide
  . exact h.msg

theorem loadPlan_snapshot_eq {parent : Option Hash} {msg : Option Bytes} {time : Nat}
    (hsized : SnapSized msg time)
    (htree : storeGet s (hashCompute (paramsTree v)) = some (paramsTree v))
    (hsnap : storeGet s (hashCompute (snapArgs v parent msg time).encode)
      = some (snapArgs v parent msg time).encode)
    : loadPlan s (hashCompute (snapArgs v parent msg time).encode)
        = (blobCells s (hashCompute (engineEncodeParamsBlob v))).map (fun c => [c]) := by
  unfold loadPlan
  rw [hsnap, Option.bind_some, objParseSnapshotRoot_snapshot (snapArgs_framed hsized),
    Option.bind_some]
  have hroot : (snapArgs v parent msg time).root = hashCompute (paramsTree v) := rfl
  rw [hroot, htree, Option.bind_some]
  exact treeCells_params s v

theorem loadPlan_snapshot {parent : Option Hash} {msg : Option Bytes} {time : Nat}
    (hsized : SnapSized msg time)
    (h : ∀ enc ∈ snapshotObjects v parent msg time, storeGet s (hashCompute enc) = some enc)
    : loadPlan s (hashCompute (snapArgs v parent msg time).encode)
        = some [fun p i => some (canon (v p i))] := by
  have hblob := h (engineEncodeParamsBlob v) (by simp [snapshotObjects])
  have htree := h (paramsTree v) (by simp [snapshotObjects])
  have hsnap := h (snapArgs v parent msg time).encode (by simp [snapshotObjects])
  rw [loadPlan_snapshot_eq hsized htree hsnap, blobCells_params hblob]
  rfl

-- The store goes on with every object it had.
structure StoreGrown (s s' : Store) : Prop where
  readable : Readable s'
  keep : ∀ x enc, storeGet s x = some enc → storeGet s' x = some enc

theorem StoreGrown.refl (h : Readable s) : StoreGrown s s :=
  ⟨h, fun _ _ hget => hget⟩

theorem StoreGrown.trans {s' s'' : Store} (h : StoreGrown s s') (h' : StoreGrown s' s'') : StoreGrown s s'' :=
  ⟨h'.readable, fun x enc hget => h'.keep x enc (h.keep x enc hget)⟩

theorem StoreGrown.of_objects {s' : Store} (h : Readable s) (hobj : s'.objects = s.objects)
    : StoreGrown s s' := by
  have hfile : ∀ x, objFile s' x = objFile s x := by
    intro x
    unfold objFile
    rw [hobj]
  constructor
  . intro x enc hget
    unfold storeGet at hget
    unfold storeHave
    rw [hfile] at hget ⊢
    exact h x enc hget
  . intro x enc hget
    unfold storeGet
    rw [hfile]
    exact hget

theorem storePut_grown (h : Readable s) (enc : Bytes) (io : WriteIo)
    : StoreGrown s (storePut s enc io).2 :=
  ⟨readable_storePut h enc io, storeGet_storePut h enc io⟩

theorem engineSnapshotObjects_eq (s : Store) (v : Grid) (parent : Option Hash)
    (msg : Option Bytes) (time : Nat) (io : SnapIo)
    : engineSnapshotObjects s v parent msg time io =
        let blob := storePut s (engineEncodeParamsBlob v) io.blob
        let tree := storePut blob.2 (paramsTree v) io.tree
        let snap := storePut tree.2 (snapArgs v parent msg time).encode io.snap
        if blob.1 = false then (none, blob.2)
        else if tree.1 = false then (none, tree.2)
        else if snap.1 = false then (none, snap.2)
        else (some (hashCompute (snapArgs v parent msg time).encode), snap.2) := by
  unfold engineSnapshotObjects
  dsimp only
  rw [objEncodeTree_params]
  rcases storePut s (engineEncodeParamsBlob v) io.blob with ⟨ok₁, s₁⟩
  cases ok₁ with
  | false => rfl
  | true =>
    dsimp only
    rcases storePut s₁ (paramsTree v) io.tree with ⟨ok₂, s₂⟩
    cases ok₂ with
    | false => rfl
    | true =>
      have henc : (snapArgs v parent msg time).encode
          = objEncodeSnapshot (hashCompute (paramsTree v)) parent.toList time (ascii "device")
            engineVersion msg := rfl
      rw [henc]
      dsimp only
      rcases storePut s₂ _ io.snap with ⟨ok₃, s₃⟩
      cases ok₃ <;> rfl

theorem engineSnapshotObjects_grown (h : Readable s) (v : Grid) (parent : Option Hash)
    (msg : Option Bytes) (time : Nat) (io : SnapIo)
    : StoreGrown s (engineSnapshotObjects s v parent msg time io).2 := by
  have hblob := storePut_grown h (engineEncodeParamsBlob v) io.blob
  have htree := storePut_grown hblob.readable (paramsTree v) io.tree
  have hsnap := storePut_grown htree.readable (snapArgs v parent msg time).encode io.snap
  rw [engineSnapshotObjects_eq]
  dsimp only
  split
  . exact hblob
  . split
    . exact hblob.trans htree
    . split
      . exact hblob.trans (htree.trans hsnap)
      . exact hblob.trans (htree.trans hsnap)

-- No file of other bytes has the name of one of the objects, and they have different names.
structure SnapFresh (s : Store) (v : Grid) (parent : Option Hash) (msg : Option Bytes)
    (time : Nat) : Prop where
  uncontested : ∀ enc ∈ snapshotObjects v parent msg time, Uncontested s enc
  distinct : ((snapshotObjects v parent msg time).map hashCompute).Nodup

-- Each object on its own: what is read of it if no other file stood in its place.
theorem engineSnapshotObjects_reads {parent : Option Hash} {msg : Option Bytes} {time : Nat}
    {io : SnapIo} {snap : Hash} {s' : Store}
    (hnodup : ((snapshotObjects v parent msg time).map hashCompute).Nodup)
    (h : engineSnapshotObjects s v parent msg time io = (some snap, s'))
    : snap = hashCompute (snapArgs v parent msg time).encode
        ∧ ∀ x ∈ snapshotPuts v parent msg time io, Uncontested s x.1 →
          storeGet s' (hashCompute x.1) = some (putBytes s x.1 x.2) := by
  simp only [snapshotObjects, List.map_cons, List.map_nil, List.nodup_cons, List.mem_cons,
    List.not_mem_nil, or_false, not_or] at hnodup
  rcases hnodup with ⟨⟨hne₁, hne₂⟩, hne₃, _⟩
  rw [engineSnapshotObjects_eq] at h
  dsimp only at h
  split at h
  . cases h
  next hok₁ =>
    split at h
    . cases h
    next hok₂ =>
      split at h
      . cases h
      next hok₃ =>
        cases h
        rw [Bool.not_eq_false] at hok₁ hok₂ hok₃
        refine ⟨rfl, ?_⟩
        intro x hx hun
        simp only [snapshotPuts, List.mem_cons, List.not_mem_nil, or_false] at hx
        rcases hx with rfl | rfl | rfl
        . rw [storeGet_storePut_of_ne hne₂, storeGet_storePut_of_ne hne₁]
          exact storeGet_put_self _ hun hok₁
        . rw [storeGet_storePut_of_ne hne₃, ← putBytes_storePut (Ne.symm hne₁) io.blob]
          exact storeGet_put_self _ (hun.storePut (Ne.symm hne₁) io.blob) hok₂
        . rw [← putBytes_storePut (Ne.symm hne₂) io.blob, ← putBytes_storePut (Ne.symm hne₃) io.tree]
          have hun₃ := (hun.storePut (Ne.symm hne₂) io.blob).storePut (Ne.symm hne₃) io.tree
          exact storeGet_put_self _ hun₃ hok₃

-- It succeeds when and only when every object is there or is written by calls that do not fail.
theorem engineSnapshotObjects_isSome {parent : Option Hash} {msg : Option Bytes} {time : Nat}
    {io : SnapIo} (hnodup : ((snapshotObjects v parent msg time).map hashCompute).Nodup)
    : (engineSnapshotObjects s v parent msg time io).1.isSome = true
        ↔ ∀ x ∈ snapshotPuts v parent msg time io,
          storeHave s (hashCompute x.1) = true ∨ x.2.unchecked = true := by
  simp only [snapshotObjects, List.map_cons, List.map_nil, List.nodup_cons, List.mem_cons,
    List.not_mem_nil, or_false, not_or] at hnodup
  rcases hnodup with ⟨⟨hne₁, hne₂⟩, hne₃, _⟩
  have hput : ∀ (s : Store) {enc enc'} (io io' : WriteIo), hashCompute enc' ≠ hashCompute enc →
      (storePut (storePut s enc io).2 enc' io').1 = (storePut s enc' io').1 := by
    intro s enc enc' io io' hne
    rw [Bool.eq_iff_iff, storePut_ok_iff, storePut_ok_iff, storeHave_storePut_of_ne hne]
  simp only [snapshotPuts, List.forall_mem_cons, List.not_mem_nil, false_implies, implies_true,
    and_true]
  rw [← storePut_ok_iff, ← storePut_ok_iff, ← storePut_ok_iff,
    ← hput s io.blob io.tree (Ne.symm hne₁), ← hput s io.blob io.snap (Ne.symm hne₂),
    ← hput _ io.tree io.snap (Ne.symm hne₃), engineSnapshotObjects_eq]
  dsimp only
  split
  next hblob => simp [hblob]
  next hblob =>
    rw [Bool.not_eq_false] at hblob
    split
    next htree => simp [hblob, htree]
    next htree =>
      rw [Bool.not_eq_false] at htree
      split
      next hsnap => simp [hsnap]
      next hsnap =>
        rw [Bool.not_eq_false] at hsnap
        simp [hblob, htree, hsnap]

-- Nothing is lost of an object that is written.
def PutsKept (s : Store) (puts : List (Bytes × WriteIo)) : Prop :=
  ∀ x ∈ puts, storeHave s (hashCompute x.1) = true ∨ x.2.keeps x.1 = true

-- No write of a snapshot loses bytes unnoticed.
def SnapIo.Lossless (io : SnapIo) : Prop :=
  ∀ w ∈ [io.blob, io.tree, io.snap, io.ref], w.lossless = true
deriving Decidable

theorem SnapIo.Lossless.putsKept {io : SnapIo} (h : io.Lossless) (s : Store) (v : Grid)
    (parent : Option Hash) (msg : Option Bytes) (time : Nat)
    : PutsKept s (snapshotPuts v parent msg time io) := by
  intro x hx
  right
  apply WriteIo.keeps_of_lossless
  apply h
  simp only [snapshotPuts, List.mem_cons, List.not_mem_nil, or_false] at hx
  rcases hx with rfl | rfl | rfl <;> simp

theorem putBytes_eq_iff {enc : Bytes} {io : WriteIo}
    : putBytes s enc io = enc ↔ storeHave s (hashCompute enc) = true ∨ io.keeps enc = true := by
  unfold putBytes WriteIo.keeps
  cases storeHave s (hashCompute enc) <;> simp

theorem putBytes_front (s : Store) (enc : Bytes) (io : WriteIo) : putBytes s enc io <+: enc := by
  unfold putBytes
  split
  . exact List.prefix_refl enc
  . exact io.onDisk_prefix enc

theorem engineSnapshotObjects_whole {parent : Option Hash} {msg : Option Bytes} {time : Nat}
    {io : SnapIo} {snap : Hash} {s' : Store} (hfresh : SnapFresh s v parent msg time)
    (hkept : PutsKept s (snapshotPuts v parent msg time io))
    (h : engineSnapshotObjects s v parent msg time io = (some snap, s'))
    : snap = hashCompute (snapArgs v parent msg time).encode
        ∧ ∀ enc ∈ snapshotObjects v parent msg time, storeGet s' (hashCompute enc) = some enc := by
  obtain ⟨hsnap, hreads⟩ := engineSnapshotObjects_reads hfresh.distinct h
  refine ⟨hsnap, ?_⟩
  intro enc henc
  have hput : ∃ io', (enc, io') ∈ snapshotPuts v parent msg time io := by
    simp only [snapshotObjects, List.mem_cons, List.not_mem_nil, or_false] at henc
    rcases henc with rfl | rfl | rfl
    . exact ⟨io.blob, by simp [snapshotPuts]⟩
    . exact ⟨io.tree, by simp [snapshotPuts]⟩
    . exact ⟨io.snap, by simp [snapshotPuts]⟩
  obtain ⟨io', hput⟩ := hput
  rw [hreads _ hput (hfresh.uncontested enc henc), putBytes_eq_iff.mpr (hkept _ hput)]

theorem engineSnapshotObjects_loads {parent : Option Hash} {msg : Option Bytes} {time : Nat}
    {io : SnapIo} {snap : Hash} {s' : Store} (hsized : SnapSized msg time)
    (hfresh : SnapFresh s v parent msg time)
    (hkept : PutsKept s (snapshotPuts v parent msg time io))
    (h : engineSnapshotObjects s v parent msg time io = (some snap, s'))
    : loadPlan s' snap = some [fun p i => some (canon (v p i))] := by
  obtain ⟨hsnap, hreads⟩ := engineSnapshotObjects_whole hfresh hkept h
  rw [hsnap]
  exact loadPlan_snapshot hsized hreads

end Taken

section Collected

variable {s : Store} {r : Ref} {h : Hash} {cs : List Cells}

-- An object that a load takes for a snapshot and the collector can walk has its root for a child.
theorem root_child {enc : Bytes} {root : Hash} (hroot : objParseSnapshotRoot enc = some root)
    (hok : (objChildren enc false).1 = true) : root ∈ (objChildren enc false).2 := by
  have hkind : objKind enc = some objSnapshot := by
    cases hk : objKind enc with
    | none => simp [objChildren, objForeachChild, hk] at hok
    | some k =>
      rcases objKind_eq_some.mp hk with ⟨fs, hmap, _, hrange, hlast⟩
      rcases objParseSnapshotRoot_eq_some.mp hroot with ⟨fs', hmap', hsnap⟩
      rw [hmap] at hmap'
      cases hmap'
      rw [← hlast]
      exact lastKind_of_toInt32 hrange hsnap.2.1
  exact (snapshot_children hroot hkind).2 false hok

theorem live_child {x y : Hash} {enc : Bytes} (hx : Live s x) (hget : storeGet s x = some enc)
    (hy : y ∈ (objChildren enc false).2) : Live s y := by
  rcases hx with ⟨r, h, hvisit, hhash, hreach⟩
  exact ⟨r, h, hvisit, hhash, hreach.tail ⟨enc, hget, hy⟩⟩

theorem not_badObj {x : Hash} {enc : Bytes} (h : ¬ BadObj s x) (hget : storeGet s x = some enc)
    : (objChildren enc false).1 = true := by
  unfold BadObj at h
  rw [not_forall] at h
  rcases h with ⟨enc', h⟩
  rw [Classical.not_imp] at h
  rw [hget] at h
  cases h.1
  simpa using h.2

-- A collection keeps what a load of a visited ref reads.
theorem storeGc_loads {max : Nat} {out : GcOut} (hgc : storeGc s max = some out)
    (hvisit : Visits s r) (hhash : r.hash = some h) (hplan : loadPlan s h = some cs)
    : loadPlan out.store h = some cs := by
  by_cases hbad : ∃ x, Live s x ∧ BadObj s x
  . rw [storeGc_of_bad s max hbad] at hgc
    cases hgc
    exact hplan
  . rcases storeGc_of_good s max hbad with ⟨out', hgc', _, hkeep, _, _⟩
    rw [hgc] at hgc'
    cases hgc'
    have hlive : Live s h := ⟨r, h, hvisit, hhash, Relation.ReflTransGen.refl⟩
    have hgood : ∀ x enc, Live s x → storeGet s x = some enc →
        (objChildren enc false).1 = true := by
      intro x enc hx hget
      exact not_badObj (fun hx' => hbad ⟨x, hx, hx'⟩) hget
    have hroot : ∀ enc root, storeGet s h = some enc → objParseSnapshotRoot enc = some root →
        Live s root := by
      intro enc root hget hparse
      exact live_child hlive hget (root_child hparse (hgood h enc hlive hget))
    apply loadPlan_keep (P := Live s) _ hlive hroot _ hplan
    . intro x hx enc hget
      unfold storeGet at hget ⊢
      rw [hkeep x hx]
      exact hget
    . intro enc root treeEnc hget hparse htree hkind e he
      apply live_child (hroot enc root hget hparse) htree
      rw [objChildren_tree hkind]
      exact List.mem_map_of_mem he

theorem readable_storeObjDelete (h : Readable s) (x : Hash) : Readable (storeObjDelete s x).2 := by
  intro y enc hget
  unfold storeGet at hget
  unfold storeHave
  rw [objFile_storeObjDelete] at hget ⊢
  split at hget
  . cases hget
  next hnot =>
    rw [if_neg hnot]
    exact h y enc hget

theorem pruneNamespace_objects (s : Store) (pre : Bytes)
    : (pruneNamespace s pre).store.objects = s.objects := by
  have hdelete : ∀ (s : Store) name, (storeRefDelete s name).2.objects = s.objects := by
    intro s name
    unfold storeRefDelete
    split
    . split
      . rfl
      . split <;> rfl
    . rfl
  unfold pruneNamespace
  dsimp only
  split
  . rfl
  . unfold refListView
    apply walkRefs_inv (I := fun (p : PruneDel) => p.store.objects = s.objects)
    . intro crel r p _ _ h
      unfold pruneDelCb
      split
      . exact h
      . split
        . rw [← h]
          apply hdelete
        . exact h
    . rfl

-- The live ref can be found: its file and the directories above it are readable.
def LiveListed (s : Store) : Prop :=
  PathListed s livePath

theorem visits_live (hlisted : LiveListed s) (h : storedAt s livePath = some r) : Visits s r := by
  have hread := storeRefRead_liveRef h
  unfold storedAt at h
  split at h
  next data hfile =>
    refine ⟨livePath, ?_, hlisted, isFile_of_fileAt hfile, ?_⟩
    . exact ⟨by decide, by decide, by decide⟩
    . have hjoin : joinPath livePath = liveRef := by decide
      rw [hjoin]
      exact hread
  next => cases h

theorem LiveListed.of_look {s' : Store} (h : LiveListed s)
    (hlook : ∀ q, q <+: livePath → q ≠ livePath → s.refs.look q = some (.dir true) →
      s'.refs.look q = some (.dir true)) : LiveListed s' := by
  intro q hq hne
  exact hlook q hq hne (h q hq hne)

theorem LiveListed.storeRefWrite (h : LiveListed s) (r : Ref) (io : WriteIo)
    : LiveListed (storeRefWrite s r io).2 := by
  apply h.of_look
  intro q _ _ hdir
  exact storeRefWrite_dir hdir r io

theorem outsideRetention_above {q : List Comp} (h : q <+: livePath) : OutsideRetention q := by
  cases q with
  | nil => exact ⟨by simp, by simp⟩
  | cons c q =>
    have hhead : (c :: q).head? = livePath.head? := by
      rcases h with ⟨rest, hrest⟩
      rw [← hrest]
      rfl
    unfold OutsideRetention
    rw [hhead]
    exact outsideRetention_livePath

theorem LiveListed.pruneNamespace (h : LiveListed s) {pre : Bytes}
    (hpre : pre = archivePrefix ∨ pre = duplicatePrefix)
    : LiveListed (pruneNamespace s pre).store := by
  apply h.of_look
  intro q hq _ hdir
  rw [look_pruneNamespace hpre (outsideRetention_above hq)]
  exact hdir

end Collected

end Harp
