import Harp.Core.Sha256Nat
import Harp.Device.RefsetLemmas

/-!
This module contains the contract of a refset at the moment it is answered: an error leaves every
ref and every parameter as they were, a success moves the named ref and nothing else.
-/

namespace Harp

-- `d₁` is the device the handler reads the ref from, `d'` the one it leaves.
structure Replaced (d d₁ d' : Device) (refname : Bytes) (newh : Hash) : Prop where
  read : storedAt d₁.store (comps refname) = currentAt d (comps refname)
  named : currentAt d' (comps refname)
    = some (((currentAt d (comps refname)).getD (Ref.unborn refname)).moved newh)
  others : ∀ p, p ≠ comps refname → currentAt d' p = currentAt d p
  engine : if comps refname = livePath then engineLoadSnapshot d.store d.pval newh = some d'.pval
    else d'.pval = d.pval

section Flush

variable {d : Device} {q : RefsetReq} {io : WriteIo}

theorem refsetFlush_of_ne (h : q.refname ≠ liveRef) : refsetFlush d q io = d := by
  unfold refsetFlush
  rw [if_neg h]

theorem refsetFlush_of_eq (h : q.refname = liveRef) : refsetFlush d q io = liveCacheFlush d io := by
  unfold refsetFlush
  rw [if_pos h]

theorem refsetFlush_liveCache_none (d : Device) (io : WriteIo) (h : q.refname = liveRef)
    : (refsetFlush d q io).liveCache = none := by
  rw [refsetFlush_of_eq h]
  apply liveCacheFlush_liveCache

theorem refsetFlush_objects : (refsetFlush d q io).store.objects = d.store.objects := by
  unfold refsetFlush
  split
  . apply liveCacheFlush_objects
  . rfl

theorem refsetFlush_load
    : engineLoadSnapshot (refsetFlush d q io).store = engineLoadSnapshot d.store :=
  engineLoadSnapshot_congr refsetFlush_objects

theorem liveCacheFlush_pid : (liveCacheFlush d io).store.pid = d.store.pid := by
  unfold liveCacheFlush
  split
  . rfl
  . apply storeRefWrite_pid

end Flush

section Exits

variable {d : Device} {q : RefsetReq} {io : RefsetIo} {newh : Hash} {guards : List Guard} {r : Ref}
  {pval : Grid}

theorem endsInDot_refname (h : Passed (refsetFlush d q io.flush) q newh guards r pval)
    (hw : (storeRefWrite (refsetFlush d q io.flush).store (r.moved newh) io.write).1 = true)
    : endsInDot q.refname = false := by
  cases hdot : endsInDot q.refname with
  | false => rfl
  | true =>
    have hr := storeRefRead_of_endsInDot h.read hdot
    subst hr
    have hname : endsInDot q.refname = false := endsInDot_of_write hw
    rw [hdot] at hname
    contradiction

theorem currentAt_commit_of_storedAt {d : Device} {r : Ref} {pval : Grid} {io : WriteIo} {p : List Comp}
    (h : storedAt (storeRefWrite d.store r io).2 p = storedAt d.store p)
    : currentAt (d.commit r pval io) p = currentAt d p := by
  unfold currentAt Device.commit
  dsimp only
  rw [h]

theorem currentAt_of_live_none {d : Device} {p : List Comp} (h : p = livePath → d.liveCache = none)
    : currentAt d p = storedAt d.store p := by
  by_cases hp : p = livePath
  . exact currentAt_of_none (h hp) p
  . exact currentAt_of_ne hp

-- A value still in the cache would hide the ref just written.
theorem Replaced.liveCache_none {d' : Device}
    (h : Replaced d (refsetFlush d q io.flush) d' q.refname newh)
    (hd' : d'.liveCache = (refsetFlush d q io.flush).liveCache) (hlive : comps q.refname = livePath)
    : (refsetFlush d q io.flush).liveCache = none := by
  by_cases hlit : q.refname = liveRef
  . exact refsetFlush_liveCache_none d io.flush hlit
  . rw [refsetFlush_of_ne hlit] at hd' ⊢
    cases hcache : d.liveCache with
    | none => rfl
    | some c =>
      have hnamed := h.named
      rw [hlive, currentAt_live_of_some hcache, currentAt_live_of_some (hd'.trans hcache)] at hnamed
      exact absurd (Option.some.inj hnamed).symm (c.moved_ne newh)

theorem Replaced.name_eq
    (hw : (storeRefWrite (refsetFlush d q io.flush).store (r.moved newh) io.write).1 = true)
    (hrep : Replaced d (refsetFlush d q io.flush)
      ((refsetFlush d q io.flush).commit (r.moved newh) pval io.write) q.refname newh)
    : comps r.name = comps q.refname := by
  by_contra hne
  have hnone := hrep.liveCache_none rfl
  have hnamed := hrep.named
  rw [currentAt_of_live_none (d := Device.commit _ _ _ _) hnone] at hnamed
  have hread : storedAt ((refsetFlush d q io.flush).commit (r.moved newh) pval io.write).store
      (comps q.refname) = _ := storedAt_storeRefWrite hw (comps q.refname)
  have hname : (r.moved newh).name = r.name := rfl
  rw [hnamed, hname, if_neg (fun heq => hne heq.symm)] at hread
  split at hread
  . cases hread
  . rw [hrep.read] at hread
    rw [← hread] at hread
    exact absurd (Option.some.inj hread) (Ref.moved_ne _ _)

theorem Replaced.keeps
    (hw : (storeRefWrite (refsetFlush d q io.flush).store (r.moved newh) io.write).1 = true)
    (hrep : Replaced d (refsetFlush d q io.flush)
      ((refsetFlush d q io.flush).commit (r.moved newh) pval io.write) q.refname newh)
    : io.write.keeps (refEncode (r.moved newh)) = true := by
  have hnamed := hrep.named
  rw [currentAt_of_live_none (d := Device.commit _ _ _ _) (hrep.liveCache_none rfl)] at hnamed
  have hread : storedAt ((refsetFlush d q io.flush).commit (r.moved newh) pval io.write).store
      (comps q.refname) = _ := storedAt_storeRefWrite hw (comps q.refname)
  have hname : (r.moved newh).name = r.name := rfl
  rw [hnamed, hname, if_pos (hrep.name_eq hw).symm] at hread
  split at hread
  next hwhole => exact hwhole.2
  next => cases hread

end Exits

section FailedWrite

open Ieee

-- A snapshot in the old flat form that sets parameter 1 of part 0 to zero.
def zeroParams : Bytes :=
  objEncodeBlob paramsMedia (cborMap 1 ++ cborUint 1 ++ cborFloat (Fp.ofBits 0))

def zeroTree : Bytes :=
  (objEncodeTree [⟨ascii "params", hashCompute zeroParams, objBlob⟩]).getD []

def zeroSnapshot : Bytes :=
  objEncodeSnapshot (hashCompute zeroTree) [] 0 (ascii "device") engineVersion none

def zeroStore : Store :=
  [zeroParams, zeroTree, zeroSnapshot].foldl (fun s enc => (storePut s enc .ok).2)
    ⟨[7], [], .dir true []⟩

def zeroParamsHash : Hash :=
  ⟨beBytes 0x01e972ae0db0afe4d5fb06583e47d44f73774a073e773e2e6156563074defb3cff 33,
    length_beBytes _ _⟩

def zeroTreeHash : Hash :=
  ⟨beBytes 0x01d6637105a5099d7a12b32b5005ace6454984a8e65b6c49cfea861e36f03bc80f 33,
    length_beBytes _ _⟩

def zeroSnapshotHash : Hash :=
  ⟨beBytes 0x0176a41118004206e010b00f0f9671aa26c5af2b5d3f7cbece8c944eb1141f38f8 33,
    length_beBytes _ _⟩

def hashedParams : {h : Hash // hashCompute zeroParams = h} where
  val := zeroParamsHash
  property := by
    apply hashCompute_of_nat
    . decide +kernel
    . decide +kernel

theorem hashCompute_zeroParams : hashCompute zeroParams = zeroParamsHash :=
  hashedParams.2

theorem zeroTree_eq
    : zeroTree = (objEncodeTree [⟨ascii "params", zeroParamsHash, objBlob⟩]).getD [] := by
  unfold zeroTree
  rw [hashCompute_zeroParams]

def hashedTree : {h : Hash // hashCompute zeroTree = h} where
  val := zeroTreeHash
  property := by
    rw [zeroTree_eq]
    apply hashCompute_of_nat
    . decide +kernel
    . decide +kernel

theorem hashCompute_zeroTree : hashCompute zeroTree = zeroTreeHash :=
  hashedTree.2

theorem zeroSnapshot_eq
    : zeroSnapshot = objEncodeSnapshot zeroTreeHash [] 0 (ascii "device") engineVersion none := by
  unfold zeroSnapshot
  rw [hashCompute_zeroTree]

def hashedSnapshot : {h : Hash // hashCompute zeroSnapshot = h} where
  val := zeroSnapshotHash
  property := by
    rw [zeroSnapshot_eq]
    apply hashCompute_of_nat
    . decide +kernel
    . decide +kernel

theorem hashCompute_zeroSnapshot : hashCompute zeroSnapshot = zeroSnapshotHash :=
  hashedSnapshot.2

theorem storePut_new {s : Store} {enc : Bytes} {h : Hash} (hhash : hashCompute enc = h)
    (hnew : storeHave s h = false)
    : (storePut s enc .ok).2 = { s with
        objects := (hashHex h, ⟨true, some enc, true⟩) :: eraseObj (hashHex h) s.objects } := by
  unfold storePut
  dsimp only
  rw [hhash, hnew]
  rfl

-- The same store, with no hash left in it to compute.
def namedStore : Store where
  pid := [7]
  objects := [
    (hashHex zeroSnapshotHash,
      ⟨true, some (objEncodeSnapshot zeroTreeHash [] 0 (ascii "device") engineVersion none), true⟩),
    (hashHex zeroTreeHash,
      ⟨true, some ((objEncodeTree [⟨ascii "params", zeroParamsHash, objBlob⟩]).getD []), true⟩),
    (hashHex zeroParamsHash, ⟨true, some zeroParams, true⟩)]
  refs := .dir true []

theorem zeroStore_eq : zeroStore = namedStore := by
  have hparams : hashHex zeroParamsHash ≠ hashHex zeroTreeHash := by decide +kernel
  have hparams' : hashHex zeroParamsHash ≠ hashHex zeroSnapshotHash := by decide +kernel
  have htree : hashHex zeroTreeHash ≠ hashHex zeroSnapshotHash := by decide +kernel
  unfold zeroStore
  rw [List.foldl_cons, List.foldl_cons, List.foldl_cons, List.foldl_nil,
    storePut_new hashCompute_zeroParams (by decide +kernel),
    storePut_new hashCompute_zeroTree (by decide +kernel),
    storePut_new hashCompute_zeroSnapshot (by decide +kernel), zeroSnapshot_eq, zeroTree_eq]
  simp [namedStore, eraseObj, hparams, hparams', htree]

end FailedWrite

end Harp
