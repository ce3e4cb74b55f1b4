import Harp.Device.NewestKept
import Harp.Device.RefsetLemmas
import Harp.Device.StoreThreads

/-!
This module contains when every ref of the device keeps pointing at objects that are there, whatever
the panel thread and the session thread do in between each other's steps.

Objects only go in a sweep, which is a step of the session thread. What the other thread holds on to
at that moment, and what no listed ref names, is what a sweep can take away too early.
-/

namespace Harp

open AskProg Runs

-- Every ref file can be decoded, and every ref, the cached live ref included, has its closure in the
-- object store.
structure NoDangling (d : Device) : Prop where
  decodes : ∀ p data, PathVisible p → fileAt d.store.refs p = some (true, data) →
    storedAt d.store p ≠ none
  closed : ∀ r h, (∃ p, storedAt d.store p = some r) ∨ d.liveCache = some r → r.hash = some h →
    closureComplete d.store h = true

-- The refs as writes leave them: each file under the name of its ref, and cached what can be written.
structure WrittenRefs (d : Device) : Prop where
  keyed : d.store.refs.Keyed
  named : ∀ p r, storedAt d.store p = some r → NamedAt p r
  cached : ∀ r, d.liveCache = some r → r.algOk = true

section Kept

variable {s s' s'' : Store}

-- Nothing that can be opened is replaced or removed.
def StoreKept (s s' : Store) : Prop :=
  ∀ x, storeHave s x = true → objFile s' x = objFile s x

theorem StoreKept.refl (s : Store) : StoreKept s s := by
  intro _ _
  rfl

theorem storeHave_of_objFile {x : Hash} (h : objFile s' x = objFile s x)
    : storeHave s' x = storeHave s x := by
  unfold storeHave
  rw [h]

theorem storeGet_of_objFile {x : Hash} (h : objFile s' x = objFile s x)
    : storeGet s' x = storeGet s x := by
  unfold storeGet
  rw [h]

theorem StoreKept.trans (h : StoreKept s s') (h' : StoreKept s' s'') : StoreKept s s'' := by
  intro x hx
  have hx' : storeHave s' x = true := by
    rw [storeHave_of_objFile (h x hx)]
    exact hx
  rw [h' x hx', h x hx]

theorem StoreKept.of_objects (h : s'.objects = s.objects) : StoreKept s s' := by
  intro x _
  unfold objFile
  rw [h]

theorem keeps_storePut (s : Store) (enc : Bytes) (io : WriteIo) : StoreKept s (storePut s enc io).2 := by
  intro x hx
  rw [objFile_storePut, if_neg]
  rintro ⟨hnot, _⟩
  rw [hx] at hnot
  contradiction

theorem keeps_engineSnapshotObjects (s : Store) (v : Grid) (parent : Option Hash)
    (msg : Option Bytes) (time : Nat) (io : SnapIo)
    : StoreKept s (engineSnapshotObjects s v parent msg time io).2 := by
  have hblob := keeps_storePut s (engineEncodeParamsBlob v) io.blob
  have htree := hblob.trans (keeps_storePut _ (paramsTree v) io.tree)
  have hsnap := htree.trans (keeps_storePut _ (snapArgs v parent msg time).encode io.snap)
  rw [engineSnapshotObjects_eq]
  dsimp only
  split
  . exact hblob
  . split
    . exact htree
    . split <;> exact hsnap

theorem keeps_snapshotLocked (d : Device) (msg : Option Bytes) (time : Nat) (io : SnapIo)
    : StoreKept d.store (snapshotLocked d msg time io).2.store := by
  unfold snapshotLocked
  split
  . exact StoreKept.refl _
  next r _ =>
    have hkept := keeps_engineSnapshotObjects d.store d.pval r.hash msg time io
    split
    next store hobj =>
      rw [hobj] at hkept
      exact hkept
    next snap store hobj =>
      rw [hobj] at hkept
      have hwrite := storeRefWrite_objects store (r.moved snap) io.ref
      unfold Ref.moved at hwrite
      dsimp only
      split <;> next hw =>
        rw [hw] at hwrite
        exact hkept.trans (StoreKept.of_objects hwrite)

-- A closure whose files are all as they were is as complete as it was.
theorem closureWalk_keep {n : Nat} {h : Hash}
    (hkeep : ∀ x, Below s n h x → objFile s' x = objFile s x)
    (hwalk : closureWalk s (n + 1) true h = true) : closureWalk s' (n + 1) true h = true := by
  induction n generalizing h with
  | zero =>
    have hfile := hkeep h rfl
    rw [closureWalk_succ] at hwalk ⊢
    rw [storeHave_of_objFile hfile, storeGet_of_objFile hfile]
    rcases hwalk with ⟨hhave, enc, hget, hok, _⟩
    exact ⟨hhave, enc, hget, hok, fun y _ => rfl⟩
  | succ n ih =>
    have hfile := hkeep h (Below.self (n + 1) h)
    rw [closureWalk_succ] at hwalk ⊢
    rw [storeHave_of_objFile hfile, storeGet_of_objFile hfile]
    rcases hwalk with ⟨hhave, enc, hget, hok, hkids⟩
    refine ⟨hhave, enc, hget, hok, ?_⟩
    intro y hy
    apply ih _ (hkids y hy)
    intro x hx
    exact hkeep x (.inr ⟨y, ⟨enc, hget, hy⟩, hx⟩)

theorem closureComplete_keep {h : Hash} (hkeep : ∀ x, Below s 16 h x → objFile s' x = objFile s x)
    (hcomplete : closureComplete s h = true) : closureComplete s' h = true :=
  closureWalk_keep hkeep hcomplete

theorem StoreKept.closureComplete (hkept : StoreKept s s') {h : Hash}
    (hcomplete : closureComplete s h = true) : Harp.closureComplete s' h = true := by
  apply closureComplete_keep _ hcomplete
  intro x hx
  exact hkept x ((closureComplete_iff h).mp hcomplete x hx).1

theorem StoreKept.closureWalk (hkept : StoreKept s s') {n : Nat} {h : Hash}
    (hwalk : closureWalk s n true h = true) : Harp.closureWalk s' n true h = true := by
  cases n with
  | zero => rfl
  | succ n =>
    apply closureWalk_keep _ hwalk
    intro x hx
    exact hkept x ((closureWalk_iff n h).mp hwalk x hx).1

end Kept

section Check

abbrev DevFinishes (d : Device) (p : Reading α) (a : α) (d' : Device) : Prop :=
  Finishes Device.answer (fun d d' => StoreKept d.store d'.store) d p a d'

theorem keeps_refl (d : Device) : StoreKept d.store d.store :=
  StoreKept.refl _

theorem keeps_trans (d d' d'' : Device) (h : StoreKept d.store d'.store)
    (h' : StoreKept d'.store d''.store)
    : StoreKept d.store d''.store :=
  h.trans h'

variable {d d' : Device}

theorem keeps_of_finishes {p : Reading α} {a : α} (hprog : DevFinishes d p a d')
    : StoreKept d.store d'.store := by
  have hle := hprog.reaches keeps_trans
  exact hle

theorem finishes_readHave {h : Hash} {k : Bool → Reading α} {a : α}
    (hprog : DevFinishes d (readHave h k) a d')
    : ∃ d₁, StoreKept d.store d₁.store ∧ DevFinishes d₁ (k (storeHave d₁.store h)) a d' := by
  cases hprog with
  | ask hle hrest => exact ⟨_, hle, hrest⟩

theorem finishes_readGet {h : Hash} {k : Option Bytes → Reading α} {a : α}
    (hprog : DevFinishes d (readGet h k) a d')
    : ∃ d₁, StoreKept d.store d₁.store ∧ DevFinishes d₁ (k (storeGet d₁.store h)) a d' := by
  cases hprog with
  | ask hle hrest => exact ⟨_, hle, hrest⟩

-- A check that starts from an incomplete closure never ends with a complete one.
theorem closureProg_false (n : Nat) (h : Hash) : closureProg n false h = .ret false := by
  cases n <;> rfl

theorem visitChildren_finishes {n : Nat} (ih : ∀ {d d' : Device} {h : Hash},
      DevFinishes d (closureProg n true h) true d' → closureWalk d'.store n true h = true)
    (hs : List Hash) {complete : Bool}
    (hvisit : DevFinishes d (visitChildren (closureProg n) hs complete) true d')
    : complete = true ∧ ∀ y ∈ hs, closureWalk d'.store n true y = true := by
  induction hs generalizing d complete with
  | nil =>
    cases hvisit with
    | ret _ => exact ⟨rfl, by simp⟩
  | cons y hs ihs =>
    unfold visitChildren at hvisit
    rcases hvisit.of_bind keeps_refl with ⟨complete', d₁, hfirst, hrest⟩
    rcases ihs hrest with ⟨rfl, hkids⟩
    cases complete with
    | false =>
      rw [closureProg_false] at hfirst
      cases hfirst
    | true =>
      refine ⟨rfl, ?_⟩
      intro x hx
      rw [List.mem_cons] at hx
      rcases hx with rfl | hx
      . have hkept := keeps_of_finishes hrest
        exact StoreKept.closureWalk hkept (ih hfirst)
      . exact hkids x hx

-- Whatever was put in between, a check that passes has seen objects that are still there.
theorem closureProg_finishes {n : Nat} {h : Hash}
    (hprog : DevFinishes d (closureProg n true h) true d')
    : closureWalk d'.store n true h = true := by
  induction n generalizing d d' h with
  | zero => rfl
  | succ n ih =>
    unfold closureProg at hprog
    rw [if_neg (by simp)] at hprog
    rcases finishes_readHave hprog with ⟨d₁, _, hprog⟩
    cases hfound : storeHave d₁.store h with
    | false =>
      rw [hfound] at hprog
      cases hprog
    | true =>
      rw [hfound] at hprog
      rcases finishes_readGet hprog with ⟨d₂, hle, hprog⟩
      have hkept := keeps_of_finishes hprog
      have hfound₂ : storeHave d₂.store h = true := by
        rw [storeHave_of_objFile (hle h hfound), hfound]
      have hfile := hkept h hfound₂
      rw [closureWalk_succ, storeHave_of_objFile hfile, storeGet_of_objFile hfile]
      cases henc : storeGet d₂.store h with
      | none =>
        rw [henc] at hprog
        cases hprog
      | some enc =>
        rw [henc] at hprog
        rcases hprog.of_bind keeps_refl with ⟨complete, d₃, hvisit, hlast⟩
        generalize hok : ((objChildren enc false).1 && complete) = ok at hlast
        cases hlast with
        | ret hle₃ =>
          rw [Bool.and_eq_true] at hok
          rcases hok with ⟨hok, rfl⟩
          rcases visitChildren_finishes ih _ hvisit with ⟨_, hkids⟩
          refine ⟨hfound₂, enc, rfl, hok, ?_⟩
          intro y hy
          exact StoreKept.closureWalk hle₃ (hkids y hy)

theorem refsetProg_finishes {devEngine : Bytes} {q : RefsetReq} {newh : Hash} {r : Ref}
    {pval : Option Grid} (hprog : DevFinishes d (refsetProg devEngine q newh r) (.ok pval) d')
    : closureComplete d'.store newh = true := by
  unfold refsetProg at hprog
  split at hprog
  . cases hprog
  . rcases hprog.of_bind keeps_refl with ⟨complete, d₁, hclosure, hrest⟩
    cases complete with
    | false =>
      rw [if_pos (by simp)] at hrest
      cases hrest
    | true =>
      have hkept := keeps_of_finishes hrest
      have hcomplete : closureComplete d₁.store newh = true := closureProg_finishes hclosure
      exact hkept.closureComplete hcomplete

end Check

section Taken

variable {s s' : Store} {v : Grid} {parent : Option Hash} {msg : Option Bytes} {time : Nat}

theorem storeHave_storePut {enc : Bytes} {io : WriteIo} (h : (storePut s enc io).1 = true)
    : storeHave (storePut s enc io).2 (hashCompute enc) = true := by
  unfold storePut at h ⊢
  dsimp only at h ⊢
  split
  next hhave => exact hhave
  next hhave =>
    rw [if_neg hhave] at h
    split
    next => simp [storeHave, objFile, lookupObj]
    next hio =>
      rw [if_neg hio] at h
      cases h

-- The objects of a snapshot that was taken can all be opened.
theorem engineSnapshotObjects_have {io : SnapIo} {snap : Hash}
    (h : engineSnapshotObjects s v parent msg time io = (some snap, s'))
    : ∀ enc ∈ snapshotObjects v parent msg time, storeHave s' (hashCompute enc) = true := by
  have hkeep : ∀ {s s' : Store} {x : Hash}, StoreKept s s' → storeHave s x = true →
      storeHave s' x = true := by
    intro s s' x hkept hx
    rw [storeHave_of_objFile (hkept x hx)]
    exact hx
  rw [engineSnapshotObjects_eq] at h
  dsimp only at h
  split at h
  . cases h
  next hok₁ =>
    split at h
    . cases h
    next hok₂ =>
      split at h
      . cases h
      next hok₃ =>
        cases h
        rw [Bool.not_eq_false] at hok₁ hok₂ hok₃
        intro enc henc
        simp only [snapshotObjects, List.mem_cons, List.not_mem_nil, or_false] at henc
        rcases henc with henc | henc | henc
        . rw [henc]
          apply hkeep (keeps_storePut _ _ _)
          apply hkeep (keeps_storePut _ _ _)
          exact storeHave_storePut hok₁
        . rw [henc]
          apply hkeep (keeps_storePut _ _ _)
          exact storeHave_storePut hok₂
        . rw [henc]
          exact storeHave_storePut hok₃

theorem objChildren_paramsTree (v : Grid)
    : objChildren (paramsTree v) false = (true, [hashCompute (engineEncodeParamsBlob v)]) := by
  have hsized : ∀ e ∈ [(⟨ascii "params", hashCompute (engineEncodeParamsBlob v), objBlob⟩
      : TreeEntry)], e.Sized := by
    intro e he
    rw [List.mem_singleton] at he
    subst he
    exact ⟨show (ascii "params").length < 2 ^ 64 by decide, show objBlob < 2 ^ 32 by decide⟩
  have hknown : ∀ e ∈ [(⟨ascii "params", hashCompute (engineEncodeParamsBlob v), objBlob⟩
      : TreeEntry)], e.hash.Known := by
    intro e he
    rw [List.mem_singleton] at he
    subst he
    rfl
  unfold paramsTree
  rw [objChildren_tree (objKind_treeBytes (by simp) hsized),
    treeEntries_treeBytes (by simp) hsized hknown]
  rfl

-- Snapshot, tree and blob: the closure of a snapshot that can be read back is complete.
theorem closureComplete_snapshot (hfits : (snapArgs v parent msg time).Fits)
    (hhave : ∀ enc ∈ snapshotObjects v parent msg time, storeHave s (hashCompute enc) = true)
    (hget : ∀ enc ∈ snapshotObjects v parent msg time, storeGet s (hashCompute enc) = some enc)
    : closureComplete s (hashCompute (snapArgs v parent msg time).encode) = true := by
  have hblob : objKind (engineEncodeParamsBlob v) = some objBlob :=
    objKind_objEncodeBlob (by decide) (length_refdevEncodeParamsBlob_lt v)
  unfold closureComplete
  rw [closureWalk_succ]
  refine ⟨hhave _ (by simp [snapshotObjects]), _, hget _ (by simp [snapshotObjects]), ?_⟩
  rw [objChildren_snapshotArgs hfits]
  refine ⟨rfl, ?_⟩
  intro root hroot
  simp only [Bool.false_eq_true, if_false, List.mem_singleton] at hroot
  rw [hroot, closureWalk_succ]
  refine ⟨hhave (paramsTree v) (by simp [snapshotObjects]), paramsTree v,
    hget (paramsTree v) (by simp [snapshotObjects]), ?_⟩
  rw [objChildren_paramsTree]
  refine ⟨rfl, ?_⟩
  intro blob hblob'
  rw [List.mem_singleton] at hblob'
  rw [hblob', closureWalk_succ]
  refine ⟨hhave (engineEncodeParamsBlob v) (by simp [snapshotObjects]), _,
    hget (engineEncodeParamsBlob v) (by simp [snapshotObjects]), ?_⟩
  rw [objChildren_of_blob hblob]
  simp

end Taken

section Refs

variable {s : Store} {r r' : Ref} {io : WriteIo} {p : List Comp}

-- A write adds the ref it writes, under its name, and no other.
theorem storedAt_written (h : storedAt (storeRefWrite s r io).2 p = some r')
    : r' = r ∧ NamedAt p r ∨ storedAt s p = some r' := by
  rcases storeRefWrite_cases s r io with ⟨hok, hname, hdot, _⟩ | ⟨_, hfile⟩
  . rw [storedAt_storeRefWrite hok] at h
    split_ifs at h with hp hwhole
    . cases h
      exact .inl ⟨rfl, hname, hdot, hp.symm⟩
    . exact .inr h
  . rcases hfile p with hsame | ⟨_, hnone⟩
    . rw [storedAt_congr hsame] at h
      exact .inr h
    . unfold storedAt at h
      rw [hnone] at h
      cases h

theorem decodes_storeRefWrite (halg : r.algOk = true) (hio : io.keeps (refEncode r) = true)
    (h : ∀ data, fileAt s.refs p = some (true, data) → storedAt s p ≠ none) {data : Bytes}
    (hdata : fileAt (storeRefWrite s r io).2.refs p = some (true, data))
    : storedAt (storeRefWrite s r io).2 p ≠ none := by
  rcases storeRefWrite_cases s r io with ⟨hok, _, _, hfile⟩ | ⟨_, hfile⟩
  . rw [storedAt_storeRefWrite_true hok halg hio]
    rw [hfile] at hdata
    split_ifs at hdata ⊢
    . simp
    . exact h data hdata
  . rcases hfile p with hsame | ⟨_, hnone⟩
    . rw [storedAt_congr hsame]
      rw [hsame] at hdata
      exact h data hdata
    . rw [hnone] at hdata
      cases hdata

structure DeviceInv (d : Device) : Prop extends NoDangling d, WrittenRefs d

variable {d : Device} {h : Hash}

theorem DeviceInv.storeRefWrite (hd : DeviceInv d) (halg : r.algOk = true)
    (hio : io.keeps (refEncode r) = true)
    (hclosed : ∀ h, r.hash = some h → closureComplete d.store h = true)
    : DeviceInv { d with store := (storeRefWrite d.store r io).2 } := by
  have hkept := StoreKept.of_objects (storeRefWrite_objects d.store r io)
  refine ⟨⟨?_, ?_⟩, ⟨?_, ?_, hd.cached⟩⟩
  . intro p data hvis hdata
    exact decodes_storeRefWrite halg hio (fun data => hd.decodes p data hvis) hdata
  . intro r' h hr' hhash
    apply hkept.closureComplete
    rcases hr' with ⟨p, hread⟩ | hcache
    . rcases storedAt_written hread with ⟨rfl, _⟩ | hold
      . exact hclosed h hhash
      . exact hd.closed r' h (.inl ⟨p, hold⟩) hhash
    . exact hd.closed r' h (.inr hcache) hhash
  . exact RefDir.keyed_storeRefWrite r io hd.keyed
  . intro p r' hread
    rcases storedAt_written hread with ⟨rfl, hnamed⟩ | hold
    . exact hnamed
    . exact hd.named p r' hold

theorem DeviceInv.of_kept {d' : Device} (hd : DeviceInv d) (hkept : StoreKept d.store d'.store)
    (hrefs : d'.store.refs = d.store.refs) (hcache : d'.liveCache = d.liveCache) : DeviceInv d' := by
  have hsame : ∀ p, storedAt d'.store p = storedAt d.store p := by
    intro p
    apply storedAt_congr
    rw [hrefs]
  refine ⟨⟨?_, ?_⟩, ⟨?_, ?_, ?_⟩⟩
  . rw [hrefs]
    simp only [hsame]
    exact hd.decodes
  . intro r h hr hhash
    simp only [hsame, hcache] at hr
    exact hkept.closureComplete (hd.closed r h hr hhash)
  . rw [hrefs]
    exact hd.keyed
  . simp only [hsame]
    exact hd.named
  . rw [hcache]
    exact hd.cached

-- A ref that a read returns is a ref of the device, unless it is unborn.
theorem NoDangling.read (hd : NoDangling d) {name : Bytes} (hread : storeRefRead d.store name = some r)
    (hhash : r.hash = some h) : closureComplete d.store h = true := by
  cases hdot : endsInDot name with
  | true =>
    rw [storeRefRead_of_endsInDot hread hdot] at hhash
    cases hhash
  | false =>
    have heq := storeRefRead_eq_storedAt hread hdot
    cases hat : storedAt d.store (comps name) with
    | none =>
      rw [hat] at heq
      subst heq
      cases hhash
    | some r' =>
      rw [hat] at heq
      subst heq
      exact hd.closed _ h (.inl ⟨_, hat⟩) hhash

theorem DeviceInv.cache (hd : DeviceInv d) (halg : r.algOk = true)
    (hclosed : ∀ h, r.hash = some h → closureComplete d.store h = true)
    : DeviceInv { d with liveCache := some r } := by
  refine ⟨⟨hd.decodes, ?_⟩, ⟨hd.keyed, hd.named, ?_⟩⟩
  . intro r' h hr' hhash
    rcases hr' with hr' | hr'
    . exact hd.closed r' h (.inl hr') hhash
    . cases hr'
      exact hclosed h hhash
  . rintro r' ⟨⟩
    exact halg

theorem DeviceInv.liveCacheFlush (hd : DeviceInv d) (hio : io.lossless = true)
    : DeviceInv (liveCacheFlush d io) := by
  unfold Harp.liveCacheFlush
  split
  . exact hd
  next c hcache =>
    have hwrite : DeviceInv { d with store := (Harp.storeRefWrite d.store c io).2 } :=
      hd.storeRefWrite (hd.cached c hcache) (WriteIo.keeps_of_lossless hio _)
        (fun h hhash => hd.closed c h (.inr hcache) hhash)
    refine ⟨⟨hwrite.decodes, ?_⟩, ⟨hwrite.keyed, hwrite.named, ?_⟩⟩
    . rintro r h (hr | ⟨⟨⟩⟩) hhash
      exact hwrite.closed r h (.inl hr) hhash
    . rintro r ⟨⟩

theorem DeviceInv.liveRefTouch (hd : DeviceInv d) (dirty : Bool) (hio : io.lossless = true)
    : DeviceInv (liveRefTouch d dirty io) := by
  unfold Harp.liveRefTouch
  split
  . exact hd
  next r hr =>
    have hbase : r.algOk = true ∧ ∀ h, r.hash = some h → closureComplete d.store h = true := by
      cases hcache : d.liveCache with
      | none =>
        rw [hcache] at hr
        have hread : storeRefRead d.store liveRef = some r := hr
        exact ⟨storeRefRead_algOk hread, fun h hhash => hd.read hread hhash⟩
      | some c =>
        rw [hcache] at hr
        cases hr
        exact ⟨hd.cached _ hcache, fun h hhash => hd.closed _ h (.inr hcache) hhash⟩
    obtain ⟨halg, hclosed⟩ := hbase
    generalize htouched : ({ r with generation := r.generation + 1, dirty } : Ref) = r'
    have halg' : r'.algOk = true := by
      rw [← htouched]
      exact halg
    have hclosed' : ∀ h, r'.hash = some h → closureComplete d.store h = true := by
      rw [← htouched]
      exact hclosed
    cases transition : (dirty && !r.dirty) with
    | false =>
      have hcache : DeviceInv { d with liveCache := some r' } := hd.cache halg' hclosed'
      exact hcache
    | true =>
      have hwrite : DeviceInv { d with store := (Harp.storeRefWrite d.store r' io).2 } :=
        hd.storeRefWrite halg' (WriteIo.keeps_of_lossless hio _) hclosed'
      apply hwrite.cache halg'
      intro h hhash
      have hkept := StoreKept.of_objects (storeRefWrite_objects d.store r' io)
      exact hkept.closureComplete (hclosed' h hhash)

end Refs

section Sections

variable {d : Device}

-- The store has no other bytes under the name of an object that the snapshot is going to put.
def SnapClear (d : Device) (msg : Option Bytes) (time : Nat) : Prop :=
  ∀ r, storeRefRead d.store liveRef = some r →
    SnapSized msg time ∧ SnapFresh d.store d.pval r.hash msg time

theorem DeviceInv.snapshotLocked (hd : DeviceInv d) {msg : Option Bytes} {time : Nat}
    (hclear : SnapClear d msg time) {io : SnapIo} (hio : io.Lossless)
    : DeviceInv (snapshotLocked d msg time io).2 := by
  unfold Harp.snapshotLocked
  split
  . exact hd
  next r hread =>
    rcases hclear r hread with ⟨hsized, hfresh⟩
    have hkept := keeps_engineSnapshotObjects d.store d.pval r.hash msg time io
    have hrefs := engineSnapshotObjects_refs d.store d.pval r.hash msg time io
    split
    next store hobj =>
      rw [hobj] at hkept hrefs
      exact hd.of_kept hkept hrefs rfl
    next snap store hobj =>
      rw [hobj] at hkept hrefs
      have hput : DeviceInv { d with store } := hd.of_kept hkept hrefs rfl
      have hparent : ∀ h ∈ r.hash.toList, h.b.head? = some 0x01 := by
        intro h hh
        rw [Option.mem_toList] at hh
        have halg := storeRefRead_algOk hread
        unfold Ref.algOk at halg
        rw [hh] at halg
        simpa using halg
      have hframed : (snapArgs d.pval r.hash msg time).Framed := snapArgs_framed hsized
      have hfits : (snapArgs d.pval r.hash msg time).Fits :=
        ⟨hframed.root, hparent, hframed.count, hframed.time, hframed.author, hframed.engine,
          hframed.message⟩
      have hputs := hio.putsKept d.store d.pval r.hash msg time
      rcases engineSnapshotObjects_whole hfresh hputs hobj with ⟨hsnap, hreads⟩
      have hclosed : closureComplete store snap = true := by
        rw [hsnap]
        exact closureComplete_snapshot hfits (engineSnapshotObjects_have hobj) hreads
      have hwrite : DeviceInv
          { d with store := (Harp.storeRefWrite store (r.moved snap) io.ref).2 } := by
        apply hput.storeRefWrite
        . exact Ref.moved_algOk_of_alg (engineSnapshotObjects_alg hobj) r
        . exact WriteIo.keeps_of_lossless (hio io.ref (by simp)) _
        . rintro h ⟨⟩
          exact hclosed
      unfold Ref.moved at hwrite
      dsimp only
      split <;> next hw =>
        rw [hw] at hwrite
        exact hwrite

-- What the walk reads at a path is the ref that is stored there, or an unborn one.
theorem namedAt_of_refAt {s : Store} {p : List Comp} {r : Ref}
    (hnamed : ∀ r, storedAt s p = some r → NamedAt p r) (h : refAt s p = some r) : NamedAt p r := by
  rw [refAt_eq_some_iff] at h
  rcases h with ⟨⟨readable, data, hlook⟩, hread⟩
  have hfile : fileAt s.refs p = some (readable, data) := fileAt_eq_some.mpr hlook
  unfold storeRefRead at hread
  split at hread
  next hok =>
    have hp : p ≠ [] := by
      rintro rfl
      cases hok
    rw [comps_joinPath, hlook, getLast?_splitOn_joinPath hp] at hread
    cases readable with
    | true =>
      apply hnamed r
      unfold storedAt
      rw [hfile]
      exact hread
    | false =>
      cases hread
      exact ⟨hok, getLast?_splitOn_joinPath hp, comps_joinPath p⟩
  next => cases hread

theorem NamedAt.refAt {s : Store} {p : List Comp} {r : Ref} (hnamed : NamedAt p r)
    (h : storedAt s p = some r) : refAt s p = some r := by
  unfold storedAt at h
  split at h
  next data hfile =>
    have hlook := fileAt_eq_some.mp hfile
    have hok : refNameOk (joinPath p) = true := by
      rw [← hnamed.path]
      exact refNameOk_joinPath_comps hnamed.ok (comps_ne_nil_of_noDot hnamed.ok hnamed.noDot)
    rw [refAt_eq_some_iff]
    refine ⟨⟨true, data, hlook⟩, ?_⟩
    unfold storeRefRead
    rw [if_pos hok, comps_joinPath, hlook, getLast?_splitOn_joinPath hnamed.ne_nil]
    exact h
  next => cases h

def WrittenRefs.dir (h : WrittenRefs d) : RefDir where
  store := d.store
  keyed := h.keyed
  named := fun p _ hr => namedAt_of_refAt (h.named p) hr

/--
The hashes that are still wanted when the pruning is done: by the refs it leaves, by the cached live
ref, and by a revert of the other thread.
-/
def Wanted (d : Device) (src : Option Ref) (pre : Bytes) (h : Hash) : Prop :=
  ∃ r, ((∃ p, storedAt d.store p = some r) ∧ ¬ Surplus d.store pre r ∨ d.liveCache = some r
    ∨ src = some r) ∧ r.hash = some h

-- A ref that is listed after the pruning leads to the object.
def LiveAfter (s : Store) (pre : Bytes) (x : Hash) : Prop :=
  ∃ r h, Visits s r ∧ ¬ Surplus s pre r ∧ r.hash = some h ∧ Reach s h x

-- A sweep that is due and goes ahead finds everything that is wanted under a listed ref.
def SweepSpares (d : Device) (src : Option Ref) (refname : Bytes) : Prop :=
  ∀ pre, retentionPrefix refname = some pre → gcInterval ≤ d.archivesSinceGc + 1 →
    (∃ x, LiveAfter d.store pre x ∧ BadObj d.store x)
      ∨ ∀ h, Wanted d src pre h → ∀ x, Below d.store 16 h x → Removable d.store x →
        LiveAfter d.store pre x

theorem closureComplete_objects {s s' : Store} (hobj : s'.objects = s.objects) {h : Hash}
    (hclosed : closureComplete s h = true) : closureComplete s' h = true :=
  (StoreKept.of_objects hobj).closureComplete hclosed

section Objects

variable {s s' : Store} (hobj : s'.objects = s.objects)

include hobj

theorem child_objects : Child s' = Child s := by
  funext h y
  unfold Child
  rw [storeGet_congr hobj]

theorem below_objects (n : Nat) (h x : Hash) : Below s' n h x ↔ Below s n h x := by
  induction n generalizing h with
  | zero => rfl
  | succ n ih =>
    unfold Below
    simp only [child_objects hobj, ih]

theorem removable_objects (x : Hash) : Removable s' x ↔ Removable s x := by
  unfold Removable objFile
  rw [hobj]

theorem badObj_objects (x : Hash) : BadObj s' x ↔ BadObj s x := by
  unfold BadObj
  rw [storeGet_congr hobj]

end Objects

theorem live_pruneNamespace (hd : WrittenRefs d) (pre : Bytes) (x : Hash)
    : Live (pruneNamespace d.store pre).store x ↔ LiveAfter d.store pre x := by
  have hvisits : ∀ r, Visits (pruneNamespace d.store pre).store r
      ↔ Visits d.store r ∧ ¬ Surplus d.store pre r := visits_pruneNamespace hd.dir pre
  unfold Live LiveAfter Reach
  simp only [child_objects (pruneNamespace_objects d.store pre), hvisits, and_assoc]

-- A ref that is left was there before, and is not one that the pruning removes.
theorem storedAt_pruned (hd : WrittenRefs d) {pre : Bytes}
    (hpre : pre = archivePrefix ∨ pre = duplicatePrefix) {p : List Comp} {r : Ref}
    (h : storedAt (pruneNamespace d.store pre).store p = some r)
    : storedAt d.store p = some r ∧ ¬ Surplus d.store pre r := by
  have hfile : fileAt (pruneNamespace d.store pre).store.refs p = fileAt d.store.refs p := by
    rcases fileAt_pruneNamespace_sub hpre d.store p with hsame | hnone
    . exact hsame
    . unfold storedAt at h
      rw [hnone] at h
      cases h
  have hold : storedAt d.store p = some r := by
    rw [← storedAt_congr hfile]
    exact h
  refine ⟨hold, ?_⟩
  have hleft := (passSpec_pruneNamespace hd.dir pre).kept p r
  have hread : refAt (pruneNamespace d.store pre).store p = some r := (hd.named p r hold).refAt h
  exact fun hsurplus => (hleft.mp hread).2 ((falls_iff_surplus hd.dir pre r).mpr hsurplus)

theorem maybeGc_swept {refname pre : Bytes} (hpre : retentionPrefix refname = some pre)
    : (maybeGc d refname).store = (pruneNamespace d.store pre).store
        ∨ gcInterval ≤ d.archivesSinceGc + 1
          ∧ (maybeGc d refname).store
            = match storeGc (pruneNamespace d.store pre).store gcMaxSweep with
              | some out => out.store
              | none => (pruneNamespace d.store pre).store := by
  unfold maybeGc
  rw [hpre]
  dsimp only
  split
  next hdue => exact .inr ⟨hdue, rfl⟩
  next => exact .inl rfl

-- What is wanted when the pruning is done comes through the sweep.
theorem maybeGc_keeps (hd : WrittenRefs d) {src : Option Ref} {refname pre : Bytes}
    (hpre : retentionPrefix refname = some pre) (hspares : SweepSpares d src refname) {h : Hash}
    (hwanted : Wanted d src pre h) (hclosed : closureComplete d.store h = true)
    : closureComplete (maybeGc d refname).store h = true := by
  have hobj := pruneNamespace_objects d.store pre
  have hpruned : closureComplete (pruneNamespace d.store pre).store h = true :=
    closureComplete_objects hobj hclosed
  rcases maybeGc_swept hpre with hstore | ⟨hdue, hstore⟩
  . rw [hstore]
    exact hpruned
  . rw [hstore]
    have hlive := live_pruneNamespace hd pre
    by_cases hbad : ∃ x, Live (pruneNamespace d.store pre).store x
        ∧ BadObj (pruneNamespace d.store pre).store x
    . rw [storeGc_of_bad _ gcMaxSweep hbad]
      exact hpruned
    . rcases storeGc_of_good _ gcMaxSweep hbad with ⟨out, hout, _, hkept, hstuck, _⟩
      rw [hout]
      apply closureComplete_keep _ hpruned
      intro x hx
      by_cases hrem : Removable (pruneNamespace d.store pre).store x
      . apply hkept
        rw [hlive]
        simp only [hlive, badObj_objects hobj] at hbad
        rcases hspares pre hpre hdue with hab | hall
        . contradiction
        . exact hall h hwanted x ((below_objects hobj 16 h x).mp hx)
            ((removable_objects hobj x).mp hrem)
      . exact hstuck x hrem

theorem storedAt_maybeGc {refname pre : Bytes} (hpre : retentionPrefix refname = some pre)
    (p : List Comp)
    : storedAt (maybeGc d refname).store p = storedAt (pruneNamespace d.store pre).store p := by
  apply storedAt_congr
  rw [maybeGc_refs hpre]

theorem DeviceInv.maybeGc (hd : DeviceInv d) {src : Option Ref} {refname : Bytes}
    (hspares : SweepSpares d src refname) : DeviceInv (maybeGc d refname) := by
  cases hpre : retentionPrefix refname with
  | none =>
    rw [maybeGc_of_none hpre]
    exact hd
  | some pre =>
    have hpre' := retentionPrefix_some hpre
    have hleft : ∀ p r, storedAt (Harp.maybeGc d refname).store p = some r →
        storedAt d.store p = some r ∧ ¬ Surplus d.store pre r := by
      intro p r hr
      rw [storedAt_maybeGc hpre] at hr
      exact storedAt_pruned hd.toWrittenRefs hpre' hr
    refine ⟨⟨?_, ?_⟩, ⟨?_, ?_, ?_⟩⟩
    . intro p data hvis hdata
      rw [maybeGc_refs hpre] at hdata
      rw [storedAt_maybeGc hpre]
      rcases fileAt_pruneNamespace_sub hpre' d.store p with hsame | hnone
      . rw [hsame] at hdata
        rw [storedAt_congr hsame]
        exact hd.decodes p data hvis hdata
      . rw [hnone] at hdata
        cases hdata
    . intro r h hr hhash
      rw [maybeGc_liveCache] at hr
      apply maybeGc_keeps hd.toWrittenRefs hpre hspares
      . refine ⟨r, ?_, hhash⟩
        rcases hr with ⟨p, hr⟩ | hr
        . exact .inl ⟨⟨p, (hleft p r hr).1⟩, (hleft p r hr).2⟩
        . exact .inr (.inl hr)
      . apply hd.closed r h _ hhash
        rcases hr with ⟨p, hr⟩ | hr
        . exact .inl ⟨p, (hleft p r hr).1⟩
        . exact .inr hr
    . rw [maybeGc_refs hpre]
      exact (passSpec_pruneNamespace hd.dir pre).keyed
    . intro p r hr
      exact hd.named p r (hleft p r hr).1
    . rw [maybeGc_liveCache]
      exact hd.cached

end Sections

section Machine

def SessionPc.Ok (d : Device) : SessionPc → Prop
  | .refsetRead _ newh => newh.b.head? = some 0x01
  | .refsetChecks _ newh _ p => newh.b.head? = some 0x01
      ∧ ∀ pval d', DevFinishes d p (.ok pval) d' → closureComplete d'.store newh = true
  | .refsetWrite _ newh _ => newh.b.head? = some 0x01 ∧ closureComplete d.store newh = true
  | _ => True

def PanelPc.Ok (d : Device) (pc : PanelPc) : Prop :=
  ∀ src, pc.src = some src → src.algOk = true
    ∧ ∀ h, src.hash = some h → closureComplete d.store h = true

structure ThreadsInv (m : StoreThreads) : Prop where
  refs : DeviceInv m.dev
  session : m.session.Ok m.dev
  panel : m.panel.Ok m.dev

def SessionPc.Spares (d : Device) (src : Option Ref) (io : CallIo) : SessionPc → Prop
  | .refsetWrite _ _ _ => io.write.lossless = true
  | .refsetGc refname => SweepSpares d src refname
  | _ => True

def PanelPc.Spares (d : Device) (io : CallIo) : PanelPc → Prop
  | .snapLocked msg _ => SnapClear d msg io.time ∧ io.snap.Lossless
  | .revertFlush _ | .revertSnap _ | .revertFlush2 _ | .revertWrite _ _ => io.write.lossless = true
  | _ => True

-- No write of a ref or of a snapshot's object loses bytes unnoticed, and no sweep takes what is wanted.
def StepSpares (m : StoreThreads) : StoreAct → Prop
  | .touch io | .refset _ io | .snapshot _ io => io.lossless = true
  | .session io => m.session.Spares m.dev m.panel.src io
  | .panel io => m.panel.Spares m.dev io
  | _ => True

variable {d d' : Device}

theorem SessionPc.Ok.kept {pc : SessionPc} (h : pc.Ok d) (hkept : StoreKept d.store d'.store)
    : pc.Ok d' := by
  cases pc with
  | refsetRead q newh => exact h
  | refsetChecks q newh r p =>
    refine ⟨h.1, ?_⟩
    intro pval d'' hfinish
    exact h.2 pval d'' (hfinish.of_le keeps_trans hkept)
  | refsetWrite q newh r => exact ⟨h.1, hkept.closureComplete h.2⟩
  | _ => trivial

theorem PanelPc.Ok.kept {pc : PanelPc} (h : pc.Ok d) (hkept : StoreKept d.store d'.store)
    : pc.Ok d' := by
  intro src hsrc
  refine ⟨(h src hsrc).1, ?_⟩
  intro x hhash
  exact hkept.closureComplete ((h src hsrc).2 x hhash)

theorem keeps_liveCacheFlush (d : Device) (io : WriteIo)
    : StoreKept d.store (liveCacheFlush d io).store :=
  StoreKept.of_objects (liveCacheFlush_objects d io)

theorem keeps_liveRefTouch (d : Device) (dirty : Bool) (io : WriteIo)
    : StoreKept d.store (liveRefTouch d dirty io).store := by
  unfold liveRefTouch
  split
  . exact StoreKept.refl _
  . dsimp only
    split
    . exact StoreKept.of_objects (storeRefWrite_objects _ _ _)
    . exact StoreKept.refl _

theorem keeps_refsetFlush (d : Device) (q : RefsetReq) (io : WriteIo)
    : StoreKept d.store (refsetFlush d q io).store := by
  unfold refsetFlush
  split
  . exact keeps_liveCacheFlush d io
  . exact StoreKept.refl _

theorem startRefset_ok (hd : DeviceInv d) (body : Option Bytes) {io : WriteIo}
    (hio : io.lossless = true)
    : DeviceInv (startRefset d body io).1 ∧ (startRefset d body io).2.Ok (startRefset d body io).1
        ∧ StoreKept d.store (startRefset d body io).1.store := by
  unfold startRefset
  dsimp only
  split
  . exact ⟨hd, trivial, StoreKept.refl _⟩
  next newh hnewh =>
    split
    . exact ⟨hd, trivial, StoreKept.refl _⟩
    . refine ⟨?_, refsetParse_newhOk body newh hnewh, keeps_refsetFlush d _ io⟩
      dsimp only
      unfold refsetFlush
      split
      . exact hd.liveCacheFlush hio
      . exact hd

-- Outside the sweep the session thread only adds to the store.
theorem sessionStep_ok (hd : DeviceInv d) {pc : SessionPc} (hpc : pc.Ok d) {io : CallIo}
    {src : Option Ref} (hspares : pc.Spares d src io) (hnot : ∀ refname, pc ≠ .refsetGc refname)
    : DeviceInv (sessionStep d pc io).1 ∧ (sessionStep d pc io).2.Ok (sessionStep d pc io).1
        ∧ StoreKept d.store (sessionStep d pc io).1.store := by
  cases pc with
  | idle => exact ⟨hd, trivial, StoreKept.refl _⟩
  | refsetRead q newh =>
    unfold sessionStep
    dsimp only
    split
    . exact ⟨hd, trivial, StoreKept.refl _⟩
    . refine ⟨hd, ⟨hpc, ?_⟩, StoreKept.refl _⟩
      intro pval d' hfinish
      exact refsetProg_finishes hfinish
  | refsetChecks q newh r p =>
    cases p with
    | ask c k =>
      refine ⟨hd, ⟨hpc.1, ?_⟩, StoreKept.refl _⟩
      intro pval d' hfinish
      exact hpc.2 pval d' (.ask (StoreKept.refl _) hfinish)
    | ret res =>
      cases res with
      | error rsp => exact ⟨hd, trivial, StoreKept.refl _⟩
      | ok pval =>
        refine ⟨hd.of_kept (StoreKept.refl _) rfl rfl, ⟨hpc.1, ?_⟩, StoreKept.refl _⟩
        exact hpc.2 pval d (.ret (StoreKept.refl _))
  | refsetWrite q newh r =>
    have hkept := StoreKept.of_objects (storeRefWrite_objects d.store (r.moved newh) io.write)
    refine ⟨?_, ?_, hkept⟩
    . apply hd.storeRefWrite (Ref.moved_algOk_of_alg hpc.1 r) (WriteIo.keeps_of_lossless hspares _)
      rintro h ⟨⟩
      exact hpc.2
    . unfold sessionStep
      dsimp only
      split <;> trivial
  | refsetGc refname => exact absurd rfl (hnot refname)

theorem idle_ok (d : Device) : PanelPc.idle.Ok d := by
  intro src hsrc
  cases hsrc

theorem startRevert_ok (hd : NoDangling d) (refname : Bytes) : (startRevert d refname).Ok d := by
  unfold startRevert
  split
  . exact idle_ok d
  next src hread =>
    split
    . exact idle_ok d
    . rintro src' ⟨⟩
      exact ⟨storeRefRead_algOk hread, fun h hhash => hd.read hread hhash⟩

theorem PanelPc.Ok.of_src {pc pc' : PanelPc} (h : pc.Ok d) (hsrc : pc'.src = pc.src) : pc'.Ok d := by
  intro src hsrc'
  rw [hsrc] at hsrc'
  exact h src hsrc'

theorem loadSrc_ok {pc : PanelPc} {src : Ref} (h : pc.Ok d) (hsrc : pc.src = some src)
    : (loadSrc src).Ok d := by
  unfold loadSrc
  split
  . exact idle_ok d
  . exact h.of_src hsrc.symm

theorem panelStep_ok (hd : DeviceInv d) {pc : PanelPc} (hpc : pc.Ok d) {io : CallIo}
    (hspares : pc.Spares d io)
    : DeviceInv (panelStep d pc io).1 ∧ (panelStep d pc io).2.Ok (panelStep d pc io).1
        ∧ StoreKept d.store (panelStep d pc io).1.store := by
  cases pc with
  | idle => exact ⟨hd, hpc, StoreKept.refl _⟩
  | snapLocked msg revert =>
    have hsnap := hd.snapshotLocked hspares.1 hspares.2
    have hkept := keeps_snapshotLocked d msg io.time io.snap
    have hpc' := hpc.kept hkept
    unfold panelStep
    rcases hlocked : snapshotLocked d msg io.time io.snap with ⟨res, d'⟩
    rw [hlocked] at hsnap hkept hpc'
    simp only [hlocked]
    cases res with
    | none => exact ⟨hsnap, idle_ok _, hkept⟩
    | some gen =>
      cases revert with
      | none => exact ⟨hsnap, idle_ok _, hkept⟩
      | some src => exact ⟨hsnap, loadSrc_ok hpc' rfl, hkept⟩
  | revertFlush src =>
    have hkept := keeps_liveCacheFlush d io.write
    exact ⟨hd.liveCacheFlush hspares, (hpc.of_src rfl).kept hkept, hkept⟩
  | revertRead src =>
    unfold panelStep
    dsimp only
    split
    . exact ⟨hd, idle_ok d, StoreKept.refl _⟩
    . refine ⟨hd, ?_, StoreKept.refl _⟩
      dsimp only
      split
      . exact hpc.of_src rfl
      . exact loadSrc_ok hpc rfl
  | revertSnap src =>
    have hkept := keeps_liveCacheFlush d io.write
    exact ⟨hd.liveCacheFlush hspares, (hpc.of_src rfl).kept hkept, hkept⟩
  | revertLoad src p =>
    cases p with
    | ask c k => exact ⟨hd, hpc.of_src rfl, StoreKept.refl _⟩
    | ret res =>
      cases res with
      | none => exact ⟨hd, idle_ok d, StoreKept.refl _⟩
      | some pval =>
        have hpc' : PanelPc.Ok d (.revertFlush2 src) := hpc.of_src rfl
        exact ⟨hd.of_kept (StoreKept.refl _) rfl rfl, hpc'.kept (StoreKept.refl _), StoreKept.refl _⟩
  | revertFlush2 src =>
    have hkept := keeps_liveCacheFlush d io.write
    exact ⟨hd.liveCacheFlush hspares, (hpc.of_src rfl).kept hkept, hkept⟩
  | revertRead2 src => exact ⟨hd, hpc.of_src rfl, StoreKept.refl _⟩
  | revertWrite src live =>
    have hkept := StoreKept.of_objects (storeRefWrite_objects d.store (revertRef src live) io.write)
    obtain ⟨halg, hclosed⟩ := hpc src rfl
    refine ⟨?_, idle_ok _, hkept⟩
    exact hd.storeRefWrite (r := revertRef src live) halg (WriteIo.keeps_of_lossless hspares _) hclosed

theorem ThreadsInv.next {m : StoreThreads} (h : ThreadsInv m) {a : StoreAct} (hspares : StepSpares m a)
    : ThreadsInv (m.next a) := by
  cases a with
  | touch io =>
    have hkept := keeps_liveRefTouch m.dev true io
    exact ⟨h.refs.liveRefTouch true hspares, h.session.kept hkept, h.panel.kept hkept⟩
  | refset body io =>
    unfold StoreThreads.next
    dsimp only
    split
    . rcases startRefset_ok h.refs body hspares with ⟨hrefs, hsession, hkept⟩
      exact ⟨hrefs, hsession, h.panel.kept hkept⟩
    . exact h
  | obj enc io =>
    unfold StoreThreads.next
    dsimp only
    split
    next hidle =>
      have hkept : StoreKept m.dev.store (handleObj m.dev.store enc io) := by
        unfold handleObj
        split
        . exact StoreKept.refl _
        . exact keeps_storePut _ _ _
      have hrefs : (handleObj m.dev.store enc io).refs = m.dev.store.refs := by
        unfold handleObj
        split
        . rfl
        . exact storePut_refs _ _ _
      exact ⟨h.refs.of_kept hkept hrefs rfl, h.session.kept hkept, h.panel.kept hkept⟩
    next => exact h
  | session io =>
    unfold StoreThreads.next
    dsimp only
    by_cases hgc : ∃ refname, m.session = .refsetGc refname
    . rcases hgc with ⟨refname, hpc⟩
      unfold StepSpares at hspares
      rw [hpc] at hspares ⊢
      refine ⟨h.refs.maybeGc hspares, trivial, ?_⟩
      intro src hsrc
      obtain ⟨halg, hclosed⟩ := h.panel src hsrc
      refine ⟨halg, ?_⟩
      intro x hhash
      cases hpre : retentionPrefix refname with
      | none =>
        have hsame : (maybeGc m.dev refname).store = m.dev.store := by
          rw [maybeGc_of_none hpre]
        exact closureComplete_objects (congrArg Store.objects hsame) (hclosed x hhash)
      | some pre =>
        exact maybeGc_keeps h.refs.toWrittenRefs hpre hspares ⟨src, .inr (.inr hsrc), hhash⟩
          (hclosed x hhash)
    . have hnot : ∀ refname, m.session ≠ .refsetGc refname := by
        intro refname hpc
        exact hgc ⟨refname, hpc⟩
      rcases sessionStep_ok h.refs h.session hspares hnot with ⟨hrefs, hsession, hkept⟩
      exact ⟨hrefs, hsession, h.panel.kept hkept⟩
  | snapshot msg io =>
    unfold StoreThreads.next
    dsimp only
    split
    . have hkept := keeps_liveCacheFlush m.dev io
      refine ⟨h.refs.liveCacheFlush hspares, h.session.kept hkept, ?_⟩
      intro src hsrc
      cases hsrc
    . exact h
  | revert refname =>
    unfold StoreThreads.next
    dsimp only
    split
    . exact ⟨h.refs, h.session, startRevert_ok h.refs.toNoDangling refname⟩
    . exact h
  | panel io =>
    rcases panelStep_ok h.refs h.panel hspares with ⟨hrefs, hpanel, hkept⟩
    exact ⟨hrefs, h.session.kept hkept, hpanel⟩

end Machine

-- Both threads are between two operations.
structure StoreThreads.Idle (m : StoreThreads) : Prop where
  session : m.session = .idle
  panel : m.panel = .idle

theorem noDangling_of_spares {m m' : StoreThreads} (hidle : m.Idle) (hwritten : WrittenRefs m.dev)
    (hd : NoDangling m.dev) (hrun : Run StoreThreads.next StepSpares m m') : NoDangling m'.dev := by
  have hinit : ThreadsInv m := by
    refine ⟨⟨hd, hwritten⟩, ?_, ?_⟩
    . rw [hidle.session]
      trivial
    . rw [hidle.panel]
      exact idle_ok _
  have hinv : ThreadsInv m' := hrun.inv hinit (fun _ _ h hspares => h.next hspares)
  exact hinv.refs.toNoDangling

section Swept

open Ieee

def oneParam : Bytes :=
  objEncodeBlob paramsMedia (cborMap 1 ++ cborUint 1 ++ cborFloat (Fp.ofBits 0))

def oneParamHash : Hash :=
  keyHash 0x01e972ae0db0afe4d5fb06583e47d44f73774a073e773e2e6156563074defb3cff

def oneTree : Bytes :=
  (objEncodeTree [⟨ascii "params", oneParamHash, objBlob⟩]).getD []

def oneTreeHash : Hash :=
  keyHash 0x01d6637105a5099d7a12b32b5005ace6454984a8e65b6c49cfea861e36f03bc80f

-- Two snapshots of one tree, taken at different times.
def oneSnap (time : Nat) : Bytes :=
  objEncodeSnapshot oneTreeHash [] time (ascii "device") engineVersion none

def oldSnapHash : Hash :=
  keyHash 0x0176a41118004206e010b00f0f9671aa26c5af2b5d3f7cbece8c944eb1141f38f8

def newSnapHash : Hash :=
  keyHash 0x01fbaa9ceb84345b9a73997b9d3aa1852d093b608f0dc4e09331cd461b6378b4ed

def archiveRef : Bytes :=
  ascii "archive/a"

def emptyRefs : Store :=
  ⟨[7], [objEntry oldSnapHash (oneSnap 0), objEntry newSnapHash (oneSnap 1),
    objEntry oneTreeHash oneTree, objEntry oneParamHash oneParam], .dir true []⟩

-- The live ref is at the new snapshot, the archived one at the old.
def archivedDevice (archives : Nat) : Device where
  store := (storeRefWrite
    (storeRefWrite emptyRefs ⟨liveRef, some newSnapHash, 2, false⟩ .ok).2
    ⟨archiveRef, some oldSnapHash, 1, false⟩ .ok).2
  liveCache := none
  pval := factoryGrid
  ramps := fun _ _ => Ramp.none
  touchPending := false
  archivesSinceGc := archives
  engineVer := none

def archivedThreads (archives : Nat) : StoreThreads :=
  ⟨archivedDevice archives, .idle, .idle⟩

theorem idle_archived (archives : Nat) : (archivedThreads archives).Idle :=
  ⟨rfl, rfl⟩

theorem deviceInv_archived (archives : Nat) : DeviceInv (archivedDevice archives) := by
  have hnone : ∀ p, fileAt emptyRefs.refs p = none := by
    intro p
    cases p <;> rfl
  have hempty : DeviceInv { archivedDevice archives with store := emptyRefs } := by
    have hstored : ∀ p, storedAt emptyRefs p = none := by
      intro p
      unfold storedAt
      rw [hnone]
    refine ⟨⟨?_, ?_⟩, ⟨FileTree.Node.keyed_empty_dir true, ?_, ?_⟩⟩
    . intro p data _ hdata
      rw [hnone] at hdata
      cases hdata
    . rintro r h (⟨p, hread⟩ | ⟨⟨⟩⟩)
      rw [hstored] at hread
      cases hread
    . intro p r hread
      rw [hstored] at hread
      cases hread
    . rintro r ⟨⟩
  have hlive : DeviceInv { archivedDevice archives with
      store := (storeRefWrite emptyRefs ⟨liveRef, some newSnapHash, 2, false⟩ .ok).2 } := by
    apply hempty.storeRefWrite rfl (WriteIo.ok_keeps _)
    rintro h ⟨⟩
    change closureComplete emptyRefs newSnapHash = true
    decide +kernel
  apply hlive.storeRefWrite rfl (WriteIo.ok_keeps _)
  rintro h ⟨⟩
  change closureComplete (storeRefWrite emptyRefs ⟨liveRef, some newSnapHash, 2, false⟩ .ok).2
    oldSnapHash = true
  decide +kernel

def goodCall : CallIo :=
  ⟨.ok, ⟨.ok, .ok, .ok, .ok, .ok⟩, 0⟩

-- The panel has read the archived ref and loaded it when the session thread moves that ref to the
-- other snapshot, and collects.
def revertThenMove : List StoreAct :=
  .revert archiveRef :: List.replicate 9 (.panel goodCall)
    ++ .refset (some (clientRefset archiveRef (some oldSnapHash) newSnapHash false false false)) .ok
    :: List.replicate 10 (.session goodCall)
    ++ [.panel goodCall]

-- No sweep is due, no snapshot is being taken, and the write of the step loses nothing.
def StoreThreads.Early (m : StoreThreads) (a : StoreAct) : Prop :=
  m.dev.archivesSinceGc + 1 < gcInterval ∧ (m.panel matches .snapLocked _ _) = false
    ∧ match a with
      | .touch io | .refset _ io | .snapshot _ io => io.lossless = true
      | .session io | .panel io => io.write.lossless = true
      | _ => True

instance decidableEarly (m : StoreThreads) (a : StoreAct) : Decidable (m.Early a) := by
  unfold StoreThreads.Early
  cases a <;> dsimp only <;> infer_instance

theorem spares_of_early {m : StoreThreads} {a : StoreAct} (h : m.Early a) : StepSpares m a := by
  obtain ⟨hearly, hpanel, hio⟩ := h
  cases a with
  | touch io => exact hio
  | refset body io => exact hio
  | snapshot msg io => exact hio
  | session io =>
    unfold StepSpares
    cases m.session with
    | refsetWrite q newh r => exact hio
    | refsetGc refname =>
      intro pre _ hdue
      omega
    | _ => trivial
  | panel io =>
    unfold StepSpares
    cases hpc : m.panel with
    | snapLocked msg revert =>
      rw [hpc] at hpanel
      cases hpanel
    | idle => trivial
    | revertRead src => trivial
    | revertLoad src p => trivial
    | revertRead2 src => trivial
    | _ => exact hio
  | _ => trivial

theorem noDangling_revertThenMove
    : (archivedThreads 0).Idle ∧ NoDangling (archivedThreads 0).dev
        ∧ NoDangling (revertThenMove.foldl StoreThreads.next (archivedThreads 0)).dev := by
  have hearly : Run StoreThreads.next StoreThreads.Early (archivedThreads 0)
      (revertThenMove.foldl StoreThreads.next (archivedThreads 0)) := by
    apply Run.of_guarded _ .start
    decide +kernel
  have hrun := hearly.imp (fun _ _ h => spares_of_early h)
  have hinv := deviceInv_archived 0
  refine ⟨idle_archived 0, hinv.toNoDangling, ?_⟩
  exact noDangling_of_spares (idle_archived 0) hinv.toWrittenRefs hinv.toNoDangling hrun

theorem revertThenMove_live
    : ((storedAt (revertThenMove.foldl StoreThreads.next (archivedThreads 31)).dev.store livePath).bind
          Ref.hash) = some oldSnapHash := by
  decide +kernel

theorem revertThenMove_swept
    : closureComplete (revertThenMove.foldl StoreThreads.next (archivedThreads 31)).dev.store
        oldSnapHash = false := by
  decide +kernel

theorem not_noDangling_revertThenMove
    : ¬ ∀ m m', m.Idle → WrittenRefs m.dev → NoDangling m.dev → Run StoreThreads.next free m m' →
        NoDangling m'.dev := by
  intro h
  have hrun : Run StoreThreads.next free (archivedThreads 31)
      (revertThenMove.foldl StoreThreads.next (archivedThreads 31)) := .foldl revertThenMove .start
  have hinv := deviceInv_archived 31
  have hd := h _ _ (idle_archived 31) hinv.toWrittenRefs hinv.toNoDangling hrun
  have hlive := revertThenMove_live
  rw [Option.bind_eq_some_iff] at hlive
  rcases hlive with ⟨r, hread, hhash⟩
  have hclosed := hd.closed r oldSnapHash (.inl ⟨livePath, hread⟩) hhash
  rw [revertThenMove_swept] at hclosed
  cases hclosed

end Swept

end Harp
