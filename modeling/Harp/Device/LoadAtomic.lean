import Harp.Core.Sha256Nat
import Harp.Device.SnapshotLoad

/-!
This module contains `engine_load_snapshot` as it acts on the values of the engine: it stages over a
copy of them and writes every cell back at the end, or leaves them as they are. Together with
`engine_snapshot_objects` it gives back the values a snapshot was taken of.
-/

namespace Harp

open Ieee

section Commit

def enginePartParamPut (g : Grid) (p : Fin nParts) (id : Nat) (v : F32) : Grid :=
  match paramIndex id with
  | some i => gridPut g p i v
  | none => g

def commitPart (staged g : Grid) (p : Fin nParts) : Grid :=
  (List.finRange nParams).foldl (fun g i => enginePartParamPut g p (gParamId i) (staged p i)) g

def commitStaged (staged g : Grid) : Grid :=
  (List.finRange nParts).foldl (commitPart staged) g

-- The result of `engine_load_snapshot` and the values of the engine after it.
def loadCommit (s : Store) (g : Grid) (snap : Hash) : Bool × Grid :=
  match engineLoadSnapshot s g snap with
  | none => (false, g)
  | some staged => (true, commitStaged staged g)

theorem foldl_commitPart (staged : Grid) (p : Fin nParts) (is : List (Fin nParams)) (g : Grid)
    (q : Fin nParts) (i : Fin nParams)
    : is.foldl (fun g i => enginePartParamPut g p (gParamId i) (staged p i)) g q i
        = if q = p ∧ i ∈ is then staged p i else g q i := by
  induction is generalizing g with
  | nil => simp
  | cons j is ih =>
    rw [List.foldl_cons, ih]
    unfold enginePartParamPut
    rw [paramIndex_gParamId]
    by_cases hq : q = p
    . by_cases hi : i = j
      . subst hi
        simp [hq, gridPut]
      . simp [hq, hi, gridPut]
    . simp [hq, gridPut]

theorem commitPart_apply (staged g : Grid) (p q : Fin nParts) (i : Fin nParams)
    : commitPart staged g p q i = if q = p then staged q i else g q i := by
  unfold commitPart
  rw [foldl_commitPart]
  by_cases hq : q = p
  . simp [hq]
  . simp [hq]

theorem foldl_commitParts (staged : Grid) (ps : List (Fin nParts)) (g : Grid) (q : Fin nParts)
    (i : Fin nParams)
    : ps.foldl (commitPart staged) g q i = if q ∈ ps then staged q i else g q i := by
  induction ps generalizing g with
  | nil => simp
  | cons p ps ih =>
    rw [List.foldl_cons, ih, commitPart_apply]
    by_cases hq : q = p
    . simp [hq]
    . simp [hq]

-- Every cell is written, so nothing of the old values is left.
theorem commitStaged_eq (staged g : Grid) : commitStaged staged g = staged := by
  funext q i
  unfold commitStaged
  rw [foldl_commitParts, if_pos (List.mem_finRange q)]

theorem loadCommit_eq (s : Store) (g : Grid) (snap : Hash)
    : loadCommit s g snap
        = ((loadPlan s snap).isSome, overlayAll ((loadPlan s snap).getD []) g) := by
  unfold loadCommit
  rw [engineLoadSnapshot_eq]
  cases loadPlan s snap with
  | none => rfl
  | some cs =>
    dsimp only [Option.map_some]
    rw [commitStaged_eq]
    rfl

theorem loadCommit_of_false {s : Store} {g : Grid} {snap : Hash} (h : (loadCommit s g snap).1 = false)
    : (loadCommit s g snap).2 = g := by
  rw [loadCommit_eq] at h ⊢
  rw [Option.isSome_eq_false_iff, Option.isNone_iff_eq_none] at h
  rw [h]
  rfl

theorem loadCommit_loadCommit (s : Store) (g : Grid) (snap : Hash)
    : loadCommit s (loadCommit s g snap).2 snap = loadCommit s g snap := by
  simp only [loadCommit_eq, overlayAll_overlayAll]

end Commit

section Cut

variable {s : Store} {v : Grid} {x : Hash} {data : Bytes}

theorem blobCells_of_cut (hget : storeGet s x = some data)
    (hcut : data <+: engineEncodeParamsBlob v) (hne : data ≠ engineEncodeParamsBlob v)
    : blobCells s x = none := by
  have hmap : objMap data = none := by
    unfold engineEncodeParamsBlob at hcut hne
    rw [objEncodeBlob_eq] at hcut hne
    apply objMap_cut (by simp [blobFields]) _ hcut hne
    intro kv hkv
    simp only [blobFields, List.mem_cons, List.not_mem_nil, or_false] at hkv
    rcases hkv with rfl | rfl | rfl
    . exact ⟨by simp, cborUint_ne_nil objBlob, skippable_cborUint (v := objBlob) (by decide)⟩
    . exact ⟨by simp, cborText_ne_nil _, skippable_cborText (by decide)⟩
    . exact ⟨by simp, cborBytes_ne_nil _, skippable_cborBytes (length_refdevEncodeParamsBlob_lt v)⟩
  have hparse : objParseBlob data = none := by
    rw [← Option.not_isSome_iff_eq_none, objParseBlob_isSome]
    rintro ⟨fs, hfs, _⟩
    rw [hmap] at hfs
    cases hfs
  unfold blobCells
  rw [hget, Option.bind_some, hparse]
  rfl

theorem treeCells_of_cut (s : Store) (hcut : data <+: paramsTree v) (hne : data ≠ paramsTree v)
    : treeCells s data = none := by
  have hmap : objMap data = none := by
    apply objMap_cut (by simp) _ hcut hne
    intro kv hkv
    simp only [List.mem_cons, List.not_mem_nil, or_false] at hkv
    rcases hkv with rfl | rfl
    . exact ⟨by simp, cborUint_ne_nil objTree, skippable_cborUint (v := objTree) (by decide)⟩
    . exact ⟨by simp, treeValue_ne_nil _, skippable_treeValue (by simp) (paramsEntry_sized v)⟩
  unfold treeCells
  rw [if_neg]
  rintro ⟨hkind, _⟩
  rw [objKind_eq_some] at hkind
  rcases hkind with ⟨fs, hfs, _⟩
  rw [hmap] at hfs
  cases hfs

theorem objParseSnapshotRoot_of_cut {a : SnapArgs} (ha : a.Framed) (hcut : data <+: a.encode)
    (hne : data ≠ a.encode) : objParseSnapshotRoot data = none := by
  have hmap : objMap data = none := by
    rw [SnapArgs.encode_eq] at hcut hne
    have hlen := a.length_fields
    apply objMap_cut (by rw [List.length_cons]; omega) _ hcut hne
    intro kv hkv
    rw [List.mem_cons] at hkv
    rcases hkv with rfl | hkv
    . exact ⟨by simp, cborUint_ne_nil objSnapshot, skippable_cborUint (v := objSnapshot) (by decide)⟩
    . exact (SnapArgs.fields_ok ha hkv).2
  cases hroot : objParseSnapshotRoot data with
  | none => rfl
  | some root =>
    rcases objParseSnapshotRoot_eq_some.mp hroot with ⟨fs, hfs, _⟩
    rw [hmap] at hfs
    cases hfs

end Cut

section Restored

-- A snapshot that was taken comes back whole from every later store that still has its objects.
def SnapRestores (s : Store) (v : Grid) (parent : Option Hash) (msg : Option Bytes) (time : Nat)
    (io : SnapIo) : Prop :=
  ∀ snap s', engineSnapshotObjects s v parent msg time io = (some snap, s') →
    ∀ s'' g, (∀ x enc, storeGet s' x = some enc → storeGet s'' x = some enc) →
      loadCommit s'' g snap = (true, fun p i => canon (v p i))

-- Where no put fails, nothing is lost of an object that is written.
def SnapKept (s : Store) (v : Grid) (parent : Option Hash) (msg : Option Bytes) (time : Nat)
    (io : SnapIo) : Prop :=
  (∀ x ∈ snapshotPuts v parent msg time io,
    storeHave s (hashCompute x.1) = true ∨ x.2.unchecked = true) →
      PutsKept s (snapshotPuts v parent msg time io)

-- A load that fails changes nothing, and a second load adds nothing to the first.
structure LoadsWhole (s : Store) (g : Grid) (snap : Hash) : Prop where
  failed : (loadCommit s g snap).1 = false → (loadCommit s g snap).2 = g
  again : loadCommit s (loadCommit s g snap).2 snap = loadCommit s g snap

variable {s : Store} {v : Grid} {parent : Option Hash} {msg : Option Bytes} {time : Nat}
  {io : SnapIo}

theorem snapRestores_of_kept (hsized : SnapSized msg time) (hfresh : SnapFresh s v parent msg time)
    (hkept : SnapKept s v parent msg time io) : SnapRestores s v parent msg time io := by
  intro snap s' htaken s'' g hkeep
  have hput := (engineSnapshotObjects_isSome hfresh.distinct).mp (by rw [htaken]; rfl)
  have hloads := engineSnapshotObjects_loads hsized hfresh (hkept hput) htaken
  rw [loadCommit_eq, loadPlan_mono hkeep hloads]
  rfl

-- A load that goes through has found each object whole: the snapshot, then its tree, then the blob.
theorem putsKept_of_loads (hsized : SnapSized msg time) (hfresh : SnapFresh s v parent msg time)
    {snap : Hash} {s' : Store} (htaken : engineSnapshotObjects s v parent msg time io = (some snap, s'))
    (hplan : loadPlan s' snap ≠ none) : PutsKept s (snapshotPuts v parent msg time io) := by
  obtain ⟨hname, hreads⟩ := engineSnapshotObjects_reads hfresh.distinct htaken
  have hread : ∀ x ∈ snapshotPuts v parent msg time io,
      storeGet s' (hashCompute x.1) = some (putBytes s x.1 x.2) := by
    intro x hx
    exact hreads x hx (hfresh.uncontested x.1 (mem_snapshotObjects hx))
  simp only [snapshotPuts, List.forall_mem_cons, List.not_mem_nil, false_implies, implies_true,
    and_true] at hread
  obtain ⟨hblob, htree, hsnap⟩ := hread
  have hsnap_whole : putBytes s (snapArgs v parent msg time).encode io.snap
      = (snapArgs v parent msg time).encode := by
    by_contra hne
    apply hplan
    unfold loadPlan
    rw [hname, hsnap, Option.bind_some,
      objParseSnapshotRoot_of_cut (snapArgs_framed hsized) (putBytes_front s _ _) hne]
    rfl
  rw [hsnap_whole] at hsnap
  have htree_whole : putBytes s (paramsTree v) io.tree = paramsTree v := by
    by_contra hne
    apply hplan
    unfold loadPlan
    have hroot : (snapArgs v parent msg time).root = hashCompute (paramsTree v) := rfl
    rw [hname, hsnap, Option.bind_some, objParseSnapshotRoot_snapshot (snapArgs_framed hsized),
      Option.bind_some, hroot, htree, Option.bind_some]
    exact treeCells_of_cut s' (putBytes_front s _ _) hne
  rw [htree_whole] at htree
  have hblob_whole : putBytes s (engineEncodeParamsBlob v) io.blob = engineEncodeParamsBlob v := by
    by_contra hne
    apply hplan
    rw [hname, loadPlan_snapshot_eq hsized htree hsnap,
      blobCells_of_cut hblob (putBytes_front s _ _) hne]
    rfl
  intro x hx
  simp only [snapshotPuts, List.mem_cons, List.not_mem_nil, or_false] at hx
  rcases hx with rfl | rfl | rfl
  . exact putBytes_eq_iff.mp hblob_whole
  . exact putBytes_eq_iff.mp htree_whole
  . exact putBytes_eq_iff.mp hsnap_whole

theorem snapKept_of_restores (hsized : SnapSized msg time) (hfresh : SnapFresh s v parent msg time)
    (h : SnapRestores s v parent msg time io) : SnapKept s v parent msg time io := by
  intro hput
  have hsome := (engineSnapshotObjects_isSome hfresh.distinct).mpr hput
  rcases htaken : engineSnapshotObjects s v parent msg time io with ⟨_ | snap, s'⟩
  . rw [htaken] at hsome
    cases hsome
  apply putsKept_of_loads hsized hfresh htaken
  intro hnone
  have hload := h _ s' htaken s' v (fun _ _ hget => hget)
  rw [loadCommit_eq, hnone] at hload
  cases hload

theorem snapshot_restored_iff (hsized : SnapSized msg time) (hfresh : SnapFresh s v parent msg time)
    : (SnapRestores s v parent msg time io ↔ SnapKept s v parent msg time io)
      ∧ ∀ s' g snap, LoadsWhole s' g snap := by
  constructor
  . exact ⟨snapKept_of_restores hsized hfresh, snapRestores_of_kept hsized hfresh⟩
  . intro s' g snap
    exact ⟨loadCommit_of_false, loadCommit_loadCommit s' g snap⟩

-- The names of the first two objects of the factory values.
def factoryBlob : Hash :=
  ⟨[1, 22, 92, 75, 168, 124, 186, 239, 242, 182, 241, 230, 80, 146, 187, 244, 162, 45, 187, 22,
    121, 250, 57, 95, 226, 15, 240, 193, 254, 192, 58, 37, 252], rfl⟩

def factoryTree : Hash :=
  ⟨[1, 246, 52, 55, 165, 237, 65, 123, 138, 14, 69, 109, 188, 159, 198, 254, 150, 99, 80, 2, 52,
    200, 19, 253, 155, 100, 222, 169, 72, 202, 167, 132, 215], rfl⟩

theorem hashCompute_factoryBlob
    : hashCompute (engineEncodeParamsBlob factoryGrid) = factoryBlob := by
  apply hashCompute_of_nat
  . decide +kernel
  . decide +kernel

-- The hash of the blob is put in first, so that it is not computed again.
theorem hashCompute_factoryTree : hashCompute (paramsTree factoryGrid) = factoryTree := by
  unfold paramsTree
  rw [hashCompute_factoryBlob]
  decide +kernel

theorem hashCompute_factorySnap
    : hashCompute (snapArgs factoryGrid none none 0).encode ∉ [factoryBlob, factoryTree] := by
  unfold snapArgs
  rw [hashCompute_factoryTree]
  decide +kernel

theorem nodup_factory
    : ((snapshotObjects factoryGrid none none 0).map hashCompute).Nodup := by
  have hsnap := hashCompute_factorySnap
  simp only [List.mem_cons, List.not_mem_nil, or_false, not_or] at hsnap
  have hne : factoryBlob ≠ factoryTree := by decide
  simp [snapshotObjects, hashCompute_factoryBlob, hashCompute_factoryTree, hne, Ne.symm hsnap.1,
    Ne.symm hsnap.2]

theorem snapFresh_factory : SnapFresh ⟨[7], [], .dir true []⟩ factoryGrid none none 0 := by
  constructor
  . intro enc _ hhave
    cases hhave
  . exact nodup_factory

theorem snapSized_factory : SnapSized none 0 := by
  constructor
  . intro m hm
    cases hm
  . omega

theorem snapshot_restored_factory
    : SnapRestores ⟨[7], [], .dir true []⟩ factoryGrid none none 0 ⟨.ok, .ok, .ok, .ok, .ok⟩ := by
  apply (snapshot_restored_iff snapSized_factory snapFresh_factory).1.mpr
  intro _ x hx
  simp only [snapshotPuts, List.mem_cons, List.not_mem_nil, or_false] at hx
  right
  rcases hx with rfl | rfl | rfl <;> exact WriteIo.ok_keeps _

-- The disk is full when the blob is flushed: the call answers with a snapshot that cannot be loaded.
theorem not_snapRestores_fullDisk
    : ¬ SnapRestores ⟨[7], [], .dir true []⟩ factoryGrid none none 0
        ⟨.ok, .flushFails 0, .ok, .ok, .ok⟩ := by
  intro hrestores
  have hkept := snapKept_of_restores snapSized_factory snapFresh_factory hrestores (by
    intro x hx
    simp only [snapshotPuts, List.mem_cons, List.not_mem_nil, or_false] at hx
    right
    rcases hx with rfl | rfl | rfl <;> rfl)
  rcases hkept (engineEncodeParamsBlob factoryGrid, .flushFails 0) (by simp [snapshotPuts]) with
    hhave | hkeeps
  . cases hhave
  . rw [WriteIo.keeps, decide_eq_true_eq] at hkeeps
    exact absurd hkeeps (by simp [WriteIo.onDisk, engineEncodeParamsBlob, objEncodeBlob, cborMap,
      putHead])

end Restored

end Harp
