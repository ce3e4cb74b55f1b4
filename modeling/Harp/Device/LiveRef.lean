import Harp.Core.GcSafety
import Harp.Device.State

/-!
This module contains what a reader sees of the refs of a device, the write-back cache of the live
ref included, and how the store operations change it.
-/

namespace Harp

def livePath : List Comp :=
  comps liveRef

-- The ref that is stored at the path: a missing file and a directory store none, nor does a file that
-- cannot be opened or decoded.
def storedAt (s : Store) (p : List Comp) : Option Ref :=
  match fileAt s.refs p with
  | some (true, data) => (refDecode (Cdec.init (data.take 1024))).1
  | _ => none

-- The ref that the device has at the path: the stored one, unless the cache of the live ref is ahead
-- of it.
def currentAt (d : Device) (p : List Comp) : Option Ref :=
  if p = livePath then
    match d.liveCache with
    | some r => some r
    | none => storedAt d.store p
  else
    storedAt d.store p

def liveHash (d : Device) : Option Hash :=
  (currentAt d livePath).bind Ref.hash

theorem currentAt_of_none {d : Device} (h : d.liveCache = none) (p : List Comp)
    : currentAt d p = storedAt d.store p := by
  unfold currentAt
  rw [h]
  split <;> rfl

theorem currentAt_of_ne {d : Device} {p : List Comp} (h : p ≠ livePath)
    : currentAt d p = storedAt d.store p := by
  unfold currentAt
  rw [if_neg h]

theorem currentAt_live_of_some {d : Device} {r : Ref} (h : d.liveCache = some r)
    : currentAt d livePath = some r := by
  unfold currentAt
  rw [if_pos rfl, h]

theorem storedAt_congr {s s' : Store} {p : List Comp} (h : fileAt s'.refs p = fileAt s.refs p)
    : storedAt s' p = storedAt s p := by
  unfold storedAt
  rw [h]

theorem storedAt_algOk {s : Store} {p : List Comp} {r : Ref} (h : storedAt s p = some r)
    : r.algOk = true := by
  unfold storedAt at h
  split at h
  next data _ =>
    rcases hdec : refDecode (Cdec.init (data.take 1024)) with ⟨o, d'⟩
    rw [hdec] at h
    dsimp only at h
    rw [h] at hdec
    exact refDecode_algOk hdec
  next => contradiction

section Paths

theorem tmpPath_ne {pid : List (Fin 10)} {p : List Comp} (h : p ≠ []) : tmpPath pid p ≠ p := by
  cases hlast : p.getLast? with
  | none =>
    rw [List.getLast?_eq_none_iff] at hlast
    contradiction
  | some c =>
    rw [tmpPath_of_getLast? hlast]
    intro heq
    rw [← dropLast_append_getLast? hlast] at heq
    simp only [List.dropLast_concat] at heq
    have := List.append_cancel_left heq
    injection this with hc
    exact tmp_ne pid c hc

-- The name of a temporary has a dot in it.
theorem ne_tmpPath {q : List Comp} (h : q.getLast?.any (fun c => dot ∉ c.b) = true)
    (pid : List (Fin 10)) (p : List Comp) : q ≠ tmpPath pid p := by
  intro heq
  rw [heq] at h
  unfold tmpPath at h
  cases hlast : p.getLast? with
  | none => simp [hlast] at h
  | some c =>
    rw [hlast, List.getLast?_concat, Option.any_some, decide_eq_true_eq] at h
    apply h
    simp [Comp.tmp, tmpSuffix, ascii, dot]

theorem tmpPath_ne_livePath (pid : List (Fin 10)) (p : List Comp) : tmpPath pid p ≠ livePath := by
  apply Ne.symm
  apply ne_tmpPath
  decide

theorem comps_ne_nil_of_write {s : Store} {r : Ref} {io : WriteIo}
    (h : (storeRefWrite s r io).1 = true) : comps r.name ≠ [] := by
  intro hnil
  unfold storeRefWrite at h
  rw [hnil] at h
  split at h
  . contradiction
  . split at h
    . contradiction
    . simp at h

end Paths

section Write

-- What a write that returned 0 has left: of a ref that was cut off there is nothing to read.
theorem storedAt_storeRefWrite {s : Store} {r : Ref} {io : WriteIo}
    (h : (storeRefWrite s r io).1 = true) (p : List Comp)
    : storedAt (storeRefWrite s r io).2 p
        = if p = comps r.name then
            if r.algOk ∧ io.keeps (refEncode r) then some r else none
          else if p = tmpPath s.pid (comps r.name) then none else storedAt s p := by
  rcases storeRefWrite_cases s r io with ⟨_, hok, _, hfile⟩ | ⟨hfalse, _⟩
  . unfold storedAt
    rw [hfile]
    by_cases hp : p = comps r.name
    . have hlen := (io.onDisk_prefix (refEncode r)).length_le
      have hcap := length_refEncode_le hok
      simp only [if_pos hp]
      rw [List.take_of_length_le (by omega)]
      exact refDecode_onDisk hok io
    . simp only [if_neg hp]
      by_cases htmp : p = tmpPath s.pid (comps r.name)
      . simp only [if_pos htmp]
      . simp only [if_neg htmp]
  . rw [h] at hfalse
    contradiction

theorem storedAt_storeRefWrite_true {s : Store} {r : Ref} {io : WriteIo}
    (h : (storeRefWrite s r io).1 = true) (halg : r.algOk = true)
    (hkeeps : io.keeps (refEncode r) = true) (p : List Comp)
    : storedAt (storeRefWrite s r io).2 p
        = if p = comps r.name then some r
          else if p = tmpPath s.pid (comps r.name) then none else storedAt s p := by
  rw [storedAt_storeRefWrite h]
  simp only [halg, hkeeps, and_self, if_true]

theorem storedAt_storeRefWrite_false {s : Store} {r : Ref} {io : WriteIo}
    (h : (storeRefWrite s r io).1 = false) (p : List Comp)
    (hp : p ≠ tmpPath s.pid (comps r.name))
    : storedAt (storeRefWrite s r io).2 p = storedAt s p := by
  rcases storeRefWrite_cases s r io with ⟨htrue, _⟩ | ⟨_, hfile⟩
  . rw [h] at htrue
    contradiction
  . apply storedAt_congr
    rcases hfile p with hsame | ⟨heq, _⟩
    . exact hsame
    . contradiction

-- Whatever happens, the write creates no ref at the path of its temporary.
theorem storedAt_storeRefWrite_tmp (s : Store) (r : Ref) (io : WriteIo)
    : storedAt (storeRefWrite s r io).2 (tmpPath s.pid (comps r.name))
          = storedAt s (tmpPath s.pid (comps r.name))
        ∨ storedAt (storeRefWrite s r io).2 (tmpPath s.pid (comps r.name)) = none := by
  rcases storeRefWrite_cases s r io with ⟨htrue, _, _, hfile⟩ | ⟨_, hfile⟩
  . apply Or.inr
    unfold storedAt
    rw [hfile, if_neg (tmpPath_ne (comps_ne_nil_of_write htrue)), if_pos rfl]
  . rcases hfile (tmpPath s.pid (comps r.name)) with hsame | ⟨_, hnone⟩
    . exact .inl (storedAt_congr hsame)
    . apply Or.inr
      unfold storedAt
      rw [hnone]

theorem endsInDot_of_write {s : Store} {r : Ref} {io : WriteIo}
    (h : (storeRefWrite s r io).1 = true) : endsInDot r.name = false := by
  rcases storeRefWrite_cases s r io with ⟨_, _, hdot, _⟩ | ⟨hfalse, _⟩
  . exact hdot
  . rw [h] at hfalse
    contradiction

theorem storeRefRead_eq_storedAt {s : Store} {name : Bytes} {r : Ref}
    (h : storeRefRead s name = some r) (hdot : endsInDot name = false)
    : r = (storedAt s (comps name)).getD (Ref.unborn name) := by
  unfold storeRefRead at h
  unfold storedAt fileAt
  split at h
  . split at h
    next hlook =>
      cases h
      rw [hlook]
      rfl
    next readable data hlook =>
      rw [hlook]
      cases readable with
      | false =>
        simp only [hdot, Bool.false_eq_true, not_false_eq_true, or_true, if_true] at h
        cases h
        rfl
      | true =>
        simp only [hdot, Bool.false_eq_true, not_true_eq_false, or_self, if_false] at h
        dsimp only
        rw [h]
        rfl
    next => contradiction
  . contradiction

theorem storeRefRead_of_endsInDot {s : Store} {name : Bytes} {r : Ref}
    (h : storeRefRead s name = some r) (hdot : endsInDot name = true) : r = Ref.unborn name := by
  unfold storeRefRead at h
  split at h
  . split at h
    . cases h
      rfl
    . rw [hdot, if_pos (.inl rfl)] at h
      cases h
      rfl
    . contradiction
  . contradiction

theorem storeRefRead_liveRef {s : Store} {r : Ref} (h : storedAt s livePath = some r)
    : storeRefRead s liveRef = some r := by
  unfold storedAt at h
  split at h
  next data hfile =>
    unfold storeRefRead
    rw [if_pos (by decide), ← livePath, fileAt_eq_some.mp hfile]
    have hdot : endsInDot liveRef = false := by decide
    simp only [hdot, Bool.false_eq_true, not_true_eq_false, or_self, if_false]
    exact h
  next => contradiction

theorem storeRefRead_algOk {s : Store} {name : Bytes} {r : Ref} (h : storeRefRead s name = some r)
    : r.algOk = true := by
  unfold storeRefRead at h
  split at h
  . split at h
    . cases h
      rfl
    next data _ =>
      split at h
      . cases h
        rfl
      . rcases hdec : refDecode (Cdec.init (data.take 1024)) with ⟨o, d'⟩
        rw [hdec] at h
        dsimp only at h
        rw [h] at hdec
        exact refDecode_algOk hdec
    . contradiction
  . contradiction

theorem storedAt_write_other {s : Store} {r : Ref} {io : WriteIo}
    (h : (storeRefWrite s r io).1 = false ∨ comps r.name ≠ livePath)
    : storedAt (storeRefWrite s r io).2 livePath = storedAt s livePath := by
  have htmp := (tmpPath_ne_livePath s.pid (comps r.name)).symm
  cases hw : (storeRefWrite s r io).1 with
  | false => exact storedAt_storeRefWrite_false hw livePath htmp
  | true =>
    rw [hw] at h
    rcases h with h | h
    . contradiction
    . rw [storedAt_storeRefWrite hw, if_neg (fun heq => h heq.symm), if_neg htmp]

theorem storedAt_write_live {s : Store} {r : Ref} {io : WriteIo} (halg : r.algOk = true)
    (hw : (storeRefWrite s r io).1 = true) (hkeeps : io.keeps (refEncode r) = true)
    (hname : comps r.name = livePath) : storedAt (storeRefWrite s r io).2 livePath = some r := by
  rw [storedAt_storeRefWrite_true hw halg hkeeps, if_pos hname.symm]

end Write

section Objects

theorem storeGet_congr {s s' : Store} (h : s'.objects = s.objects) : storeGet s' = storeGet s := by
  funext x
  unfold storeGet objFile
  rw [h]

theorem engineLoadSnapshot_congr {s s' : Store} (h : s'.objects = s.objects)
    : engineLoadSnapshot s' = engineLoadSnapshot s := by
  funext v x
  unfold engineLoadSnapshot loadTreeEntry
  rw [storeGet_congr h]

theorem storePut_refs (s : Store) (enc : Bytes) (io : WriteIo)
    : (storePut s enc io).2.refs = s.refs := by
  unfold storePut
  dsimp only
  split
  . rfl
  . split <;> rfl

theorem storePut_pid (s : Store) (enc : Bytes) (io : WriteIo)
    : (storePut s enc io).2.pid = s.pid := by
  unfold storePut
  dsimp only
  split
  . rfl
  . split <;> rfl

-- What no put changes is not changed by the three puts of a snapshot.
theorem engineSnapshotObjects_frame {f : Store → α}
    (hframe : ∀ s enc io, f (storePut s enc io).2 = f s) (s : Store) (v : Grid)
    (parent : Option Hash) (msg : Option Bytes) (time : Nat) (io : SnapIo)
    : f (engineSnapshotObjects s v parent msg time io).2 = f s := by
  unfold engineSnapshotObjects
  dsimp only
  split
  next s₁ hput =>
    have hblob := hframe s (engineEncodeParamsBlob v) io.blob
    rw [hput] at hblob
    exact hblob
  next s₁ hput =>
    have hblob := hframe s (engineEncodeParamsBlob v) io.blob
    rw [hput] at hblob
    split
    . exact hblob
    next tree _ =>
      have htree := hframe s₁ tree io.tree
      split
      next hput₂ =>
        rw [hput₂] at htree
        exact htree.trans hblob
      next s₂ hput₂ =>
        rw [hput₂] at htree
        split
        next hput₃ =>
          have hsnap := congrArg (fun p => f p.2) hput₃
          rw [hframe] at hsnap
          exact hsnap.symm.trans (htree.trans hblob)
        next hput₃ =>
          have hsnap := congrArg (fun p => f p.2) hput₃
          rw [hframe] at hsnap
          exact hsnap.symm.trans (htree.trans hblob)

theorem engineSnapshotObjects_refs (s : Store) (v : Grid) (parent : Option Hash)
    (msg : Option Bytes) (time : Nat) (io : SnapIo)
    : (engineSnapshotObjects s v parent msg time io).2.refs = s.refs :=
  engineSnapshotObjects_frame storePut_refs s v parent msg time io

theorem engineSnapshotObjects_pid (s : Store) (v : Grid) (parent : Option Hash)
    (msg : Option Bytes) (time : Nat) (io : SnapIo)
    : (engineSnapshotObjects s v parent msg time io).2.pid = s.pid :=
  engineSnapshotObjects_frame storePut_pid s v parent msg time io

theorem engineSnapshotObjects_alg {s : Store} {v : Grid} {parent : Option Hash}
    {msg : Option Bytes} {time : Nat} {io : SnapIo} {snap : Hash} {s' : Store}
    (h : engineSnapshotObjects s v parent msg time io = (some snap, s'))
    : snap.b.head? = some 0x01 := by
  unfold engineSnapshotObjects at h
  dsimp only at h
  split at h
  . cases h
  . split at h
    . cases h
    . split at h
      . cases h
      . split at h
        . cases h
        . cases h
          rfl

end Objects

section Flush

theorem liveCacheFlush_liveCache (d : Device) (io : WriteIo)
    : (liveCacheFlush d io).liveCache = none := by
  unfold liveCacheFlush
  split
  next hcache => exact hcache
  next => rfl

theorem liveCacheFlush_pval (d : Device) (io : WriteIo) : (liveCacheFlush d io).pval = d.pval := by
  unfold liveCacheFlush
  split <;> rfl

theorem liveCacheFlush_objects (d : Device) (io : WriteIo)
    : (liveCacheFlush d io).store.objects = d.store.objects := by
  unfold liveCacheFlush
  split
  . rfl
  . apply storeRefWrite_objects

-- The write-back of the cache succeeds, and nothing of it is lost.
def FlushOk (d : Device) (io : WriteIo) : Prop :=
  ∀ c, d.liveCache = some c →
    (storeRefWrite d.store c io).1 = true ∧ io.keeps (refEncode c) = true

-- The write-back of the cache changes the value of no ref.
def FlushKeeps (d : Device) (io : WriteIo) : Prop :=
  ∀ p, currentAt (liveCacheFlush d io) p = currentAt d p

-- It is enough that the write succeeds onto the live path and that no ref has the temporary's name.
theorem flushKeeps_of_write {d : Device} {r : Ref} {io : WriteIo} (hcache : d.liveCache = some r)
    (hw : (storeRefWrite d.store r io).1 = true) (hkeeps : io.keeps (refEncode r) = true)
    (halg : r.algOk = true) (hname : comps r.name = livePath)
    (htmp : storedAt d.store (tmpPath d.store.pid livePath) = none)
    : FlushKeeps d io := by
  intro p
  rw [currentAt_of_none (liveCacheFlush_liveCache d io)]
  have hstore : (liveCacheFlush d io).store = (storeRefWrite d.store r io).2 := by
    unfold liveCacheFlush
    rw [hcache]
  rw [hstore, storedAt_storeRefWrite_true hw halg hkeeps, hname]
  split
  next hp =>
    subst hp
    rw [currentAt_live_of_some hcache]
  next hp =>
    rw [currentAt_of_ne hp]
    split
    next heq =>
      rw [heq, htmp]
    next => rfl

theorem flushKeeps_of_none {d : Device} (h : d.liveCache = none) (io : WriteIo)
    : FlushKeeps d io := by
  intro p
  unfold liveCacheFlush
  rw [h]

end Flush

end Harp
