import Harp.Core.GcLemmas

/-!
This module contains the completeness of the collector: one unbounded collection leaves exactly what
is reachable, and bounded collections, repeated, come to the same objects.
-/

namespace Harp

open LinearProbe

-- An object directory as `harp_store_put` leaves it: every object under the name of its hash.
structure ObjStore where
  s : Store
  nodup : (s.objects.map Prod.fst).Nodup
  named : ∀ e ∈ s.objects, ∀ h, objName e.1 = some h → e.1 = hashHex h

section Directory

variable {objects : List (Bytes × ObjFile)}

theorem named_eraseObj (name : Bytes)
    (h : ∀ e ∈ objects, ∀ h, objName e.1 = some h → e.1 = hashHex h)
    : ∀ e ∈ eraseObj name objects, ∀ h, objName e.1 = some h → e.1 = hashHex h := by
  intro e he
  apply h
  apply List.mem_of_mem_filter he

theorem nodup_eraseObj (name : Bytes) (h : (objects.map Prod.fst).Nodup)
    : ((eraseObj name objects).map Prod.fst).Nodup := by
  apply List.Nodup.sublist _ h
  apply List.Sublist.map
  apply List.filter_sublist

def ObjStore.put (o : ObjStore) (enc : Bytes) (io : WriteIo) : ObjStore where
  s := (storePut o.s enc io).2
  nodup := by
    unfold storePut
    dsimp only
    split
    . exact o.nodup
    . split
      . dsimp only
        rw [List.map_cons, List.nodup_cons]
        constructor
        . intro hmem
          rcases List.mem_map.mp hmem with ⟨e, he, hname⟩
          unfold eraseObj at he
          rw [List.mem_filter] at he
          simp [hname] at he
        . exact nodup_eraseObj _ o.nodup
      . exact o.nodup
  named := by
    unfold storePut
    dsimp only
    split
    . exact o.named
    . split
      . intro e he h hname
        rw [List.mem_cons] at he
        rcases he with rfl | he
        . rw [objName_hashHex] at hname
          cases hname
          rfl
        . exact named_eraseObj _ o.named e he h hname
      . exact o.named

theorem storeObjDelete_eq (s : Store) (h : Hash)
    : (storeObjDelete s h).2 = s
        ∨ (storeObjDelete s h).2 = { s with objects := eraseObj (hashHex h) s.objects } := by
  unfold storeObjDelete
  split
  . exact .inl rfl
  . split
    . exact .inr rfl
    . exact .inl rfl

def ObjStore.delete (o : ObjStore) (h : Hash) : ObjStore where
  s := (storeObjDelete o.s h).2
  nodup := by
    rcases storeObjDelete_eq o.s h with heq | heq
    . rw [heq]
      exact o.nodup
    . rw [heq]
      exact nodup_eraseObj _ o.nodup
  named := by
    rcases storeObjDelete_eq o.s h with heq | heq
    . rw [heq]
      exact o.named
    . rw [heq]
      exact named_eraseObj _ o.named

theorem ObjStore.nodup_objNames (o : ObjStore) : (objNames o.s).Nodup := by
  have hnames : (objNames o.s).map hashHex
      = (o.s.objects.filter (fun e => (objName e.1).isSome)).map Prod.fst := by
    unfold objNames
    have hnamed := o.named
    generalize o.s.objects = objects at hnamed
    induction objects with
    | nil => rfl
    | cons e objects ih =>
      have ih := ih (fun e he => hnamed e (List.mem_cons_of_mem _ he))
      cases hname : objName e.1 with
      | none =>
        rw [List.filter_cons_of_neg (by simp [hname])]
        simp only [List.filterMap_cons, hname]
        exact ih
      | some h =>
        rw [List.filter_cons_of_pos (by simp [hname])]
        simp only [List.filterMap_cons, hname, List.map_cons]
        rw [ih, hnamed e (by simp) h hname]
  apply List.Nodup.of_map hashHex
  rw [hnames]
  apply List.Nodup.sublist _ o.nodup
  apply List.Sublist.map
  apply List.filter_sublist

theorem ObjStore.objNames_delete (o : ObjStore) {h : Hash} (hrem : Removable o.s h)
    : objNames (o.delete h).s = (objNames o.s).filter (fun x => x ≠ h) := by
  rcases hrem with ⟨f, hf, hrem⟩
  have hdelete : (o.delete h).s = { o.s with objects := eraseObj (hashHex h) o.s.objects } := by
    unfold ObjStore.delete storeObjDelete
    simp [hf, hrem]
  rw [hdelete]
  unfold objNames eraseObj
  dsimp only
  have hnamed := o.named
  generalize o.s.objects = objects at hnamed
  induction objects with
  | nil => rfl
  | cons e objects ih =>
    have ih := ih (fun e he => hnamed e (List.mem_cons_of_mem _ he))
    by_cases he : e.1 = hashHex h
    . have hname : objName e.1 = some h := by
        rw [he, objName_hashHex]
      rw [List.filter_cons_of_neg (by simpa using he), ih]
      simp only [List.filterMap_cons, hname]
      rw [List.filter_cons_of_neg (by simp)]
    . rw [List.filter_cons_of_pos (by simpa using he)]
      cases hname : objName e.1 with
      | none =>
        simp only [List.filterMap_cons, hname]
        exact ih
      | some x =>
        have hne : x ≠ h := by
          intro heq
          rw [heq] at hname
          exact he (hnamed e (by simp) h hname)
        simp only [List.filterMap_cons, hname]
        rw [List.filter_cons_of_pos (by simpa using hne), ih]

end Directory

section Sweep

variable {set : Hashset}

def sweepQuota (max deleted garbage : Nat) : Nat :=
  if max = 0 then garbage else min (max - deleted) garbage

def unmarked (set : Hashset) (hs : List Hash) : List Hash :=
  hs.filter (fun x => x ∉ set.keys)

def deleteAll (s : Store) (hs : List Hash) : Store :=
  hs.foldl (fun s h => (storeObjDelete s h).2) s

theorem removable_delete {s : Store} {h x : Hash} (hne : x ≠ h) (hrem : Removable s x)
    : Removable (storeObjDelete s h).2 x := by
  rcases hrem with ⟨f, hf, hrem⟩
  refine ⟨f, ?_, hrem⟩
  rw [objFile_storeObjDelete, if_neg (by simp [hne]), hf]

theorem storeObjDelete_ok {s : Store} {h : Hash} (hrem : Removable s h)
    : (storeObjDelete s h).1 = true := by
  rcases hrem with ⟨f, hf, hrem⟩
  unfold storeObjDelete
  simp [hf, hrem]

-- The sweep removes the first of the unmarked objects, as many as it may.
theorem sweep_eq (hroom : set.keys.length < set.capacity) (max : Nat) (hs : List Hash)
    (hnodup : hs.Nodup) (w : SweepCtx) (hrem : ∀ x ∈ hs, x ∉ set.keys → Removable w.s x)
    : storeObjForeach.go (sweepCb set max) hs w
        = { w with
            s := deleteAll w.s
              ((unmarked set hs).take (sweepQuota max w.deleted (unmarked set hs).length)),
            deleted := w.deleted + sweepQuota max w.deleted (unmarked set hs).length } := by
  induction hs generalizing w with
  | nil =>
    simp [storeObjForeach.go, unmarked, sweepQuota, deleteAll]
  | cons h hs ih =>
    have hnodup' := List.nodup_cons.mp hnodup
    unfold storeObjForeach.go
    by_cases hmem : h ∈ set.keys
    . have hskip : unmarked set (h :: hs) = unmarked set hs := by
        unfold unmarked
        rw [List.filter_cons_of_neg (by simpa using hmem)]
      rw [sweepCb_of_mem hroom w hmem, hskip]
      apply ih hnodup'.2
      intro x hx
      exact hrem x (List.mem_cons_of_mem _ hx)
    . have htake : unmarked set (h :: hs) = h :: unmarked set hs := by
        unfold unmarked
        rw [List.filter_cons_of_pos (by simpa using hmem)]
      have hok := storeObjDelete_ok (hrem h (by simp) hmem)
      have hcb : sweepCb set max h w
          = if max ≠ 0 ∧ w.deleted ≥ max then (false, w)
            else (true, { w with s := (storeObjDelete w.s h).2, deleted := w.deleted + 1 }) := by
        unfold sweepCb
        rw [Table.has_eq set h hroom, decide_eq_false hmem]
        dsimp only
        rw [hok, if_pos rfl]
      rw [htake, List.length_cons, hcb]
      by_cases hcap : max ≠ 0 ∧ w.deleted ≥ max
      . rw [if_pos hcap]
        have hquota : sweepQuota max w.deleted ((unmarked set hs).length + 1) = 0 := by
          unfold sweepQuota
          rw [if_neg hcap.1]
          omega
        rw [hquota]
        simp [deleteAll]
      . rw [if_neg hcap]
        have hquota : sweepQuota max w.deleted ((unmarked set hs).length + 1)
            = sweepQuota max (w.deleted + 1) (unmarked set hs).length + 1 := by
          unfold sweepQuota
          by_cases hmax : max = 0
          . simp [hmax]
          . rw [if_neg hmax, if_neg hmax]
            omega
        rw [hquota]
        dsimp only
        rw [ih hnodup'.2]
        . dsimp only
          rw [List.take_succ_cons]
          unfold deleteAll
          rw [List.foldl_cons, Nat.add_assoc, Nat.add_comm 1]
        . intro x hx hnot
          dsimp only
          apply removable_delete
          . intro heq
            rw [heq] at hx
            exact hnodup'.1 hx
          . exact hrem x (List.mem_cons_of_mem _ hx) hnot

theorem objFile_deleteAll (s : Store) (hs : List Hash) (x : Hash)
    (hrem : ∀ x ∈ hs, Removable s x) (hnodup : hs.Nodup)
    : objFile (deleteAll s hs) x = if x ∈ hs then none else objFile s x := by
  unfold deleteAll
  induction hs generalizing s with
  | nil => simp
  | cons h hs ih =>
    have hnodup' := List.nodup_cons.mp hnodup
    rw [List.foldl_cons, ih]
    . rw [objFile_storeObjDelete]
      by_cases hx : x ∈ hs
      . simp [hx]
      . by_cases hxh : x = h
        . have hdel : ∃ f, objFile s h = some f ∧ f.removable = true := hrem h (by simp)
          simp [hxh, hdel]
        . simp [hx, hxh]
    . intro y hy
      apply removable_delete
      . intro heq
        rw [heq] at hy
        exact hnodup'.1 hy
      . exact hrem y (List.mem_cons_of_mem _ hy)
    . exact hnodup'.2

theorem deleteAll_refs (s : Store) (hs : List Hash)
    : ∃ objects, deleteAll s hs = { s with objects } := by
  unfold deleteAll
  induction hs generalizing s with
  | nil => exact ⟨s.objects, rfl⟩
  | cons h hs ih =>
    rw [List.foldl_cons]
    rcases ih (storeObjDelete s h).2 with ⟨objects, heq⟩
    rw [heq]
    rcases storeObjDelete_eq s h with hdel | hdel
    . rw [hdel]
      exact ⟨objects, rfl⟩
    . rw [hdel]
      exact ⟨objects, rfl⟩

def ObjStore.deleteAll (o : ObjStore) (hs : List Hash) : ObjStore :=
  hs.foldl ObjStore.delete o

theorem ObjStore.deleteAll_s (o : ObjStore) (hs : List Hash)
    : (o.deleteAll hs).s = Harp.deleteAll o.s hs := by
  unfold ObjStore.deleteAll Harp.deleteAll
  induction hs generalizing o with
  | nil => rfl
  | cons h hs ih =>
    rw [List.foldl_cons, List.foldl_cons]
    apply ih (o.delete h)

theorem ObjStore.objNames_deleteAll (o : ObjStore) (hs : List Hash)
    (hrem : ∀ x ∈ hs, Removable o.s x) (hnodup : hs.Nodup)
    : objNames (o.deleteAll hs).s = (objNames o.s).filter (fun x => x ∉ hs) := by
  unfold ObjStore.deleteAll
  induction hs generalizing o with
  | nil => simp
  | cons h hs ih =>
    have hnodup' := List.nodup_cons.mp hnodup
    rw [List.foldl_cons, ih]
    . rw [ObjStore.objNames_delete o (hrem h (by simp)), List.filter_filter]
      congr 1
      funext x
      by_cases hx : x ∈ hs
      . simp [hx]
      . simp [hx]
    . intro x hx
      apply removable_delete
      . intro heq
        rw [heq] at hx
        exact hnodup'.1 hx
      . exact hrem x (List.mem_cons_of_mem _ hx)
    . exact hnodup'.2

end Sweep

section Collect

theorem filter_not_mem_take {α : Type} [DecidableEq α] {l : List α} (h : l.Nodup) (k : Nat)
    : l.filter (fun x => x ∉ l.take k) = l.drop k := by
  have hsplit := List.take_append_drop k l
  have hdisjoint : ∀ x ∈ l.drop k, x ∉ l.take k := by
    rw [← hsplit, List.nodup_append] at h
    intro x hx hx'
    exact h.2.2 x hx' x hx rfl
  have htake : (l.take k).filter (fun x => x ∉ l.take k) = [] := by
    rw [List.filter_eq_nil_iff]
    intro x hx
    simpa using hx
  have hdrop : (l.drop k).filter (fun x => x ∉ l.take k) = l.drop k := by
    rw [List.filter_eq_self]
    intro x hx
    simpa using hdisjoint x hx
  calc l.filter (fun x => x ∉ l.take k)
      = (l.take k ++ l.drop k).filter (fun x => x ∉ l.take k) := by rw [hsplit]
    _ = l.drop k := by rw [List.filter_append, htake, hdrop, List.nil_append]

open Classical in
-- The objects no listed ref reaches.
noncomputable def garbage (s : Store) : List Hash :=
  (objNames s).filter (fun x => ¬ Live s x)

theorem mem_garbage {s : Store} {x : Hash} : x ∈ garbage s ↔ x ∈ objNames s ∧ ¬ Live s x := by
  unfold garbage
  simp

theorem ObjStore.nodup_garbage (o : ObjStore) : (garbage o.s).Nodup := by
  apply List.Nodup.sublist _ o.nodup_objNames
  apply List.filter_sublist

theorem ObjStore.objFile_of_mem (o : ObjStore) {x : Hash} (hx : x ∈ objNames o.s)
    : ∃ f, objFile o.s x = some f := by
  unfold objNames at hx
  rw [List.mem_filterMap] at hx
  rcases hx with ⟨e, he, hname⟩
  have hkey := o.named e he x hname
  have hlookup : ∀ objects : List (Bytes × ObjFile), e ∈ objects →
      (lookupObj (hashHex x) objects).isSome = true := by
    intro objects hmem
    induction objects with
    | nil => cases hmem
    | cons e' objects ih =>
      unfold lookupObj
      split
      . rfl
      next hne =>
        rw [List.mem_cons] at hmem
        rcases hmem with rfl | hmem
        . exact absurd hkey hne
        . exact ih hmem
  exact Option.isSome_iff_exists.mp (hlookup o.s.objects he)

-- Every object reachable from a listed ref can be walked, and every other can be removed.
structure Whole (s : Store) : Prop where
  live : ∀ x, Live s x → ¬ BadObj s x
  removable : ∀ x f, objFile s x = some f → ¬ Live s x → f.removable = true

theorem Whole.removable_garbage {o : ObjStore} (h : Whole o.s) {x : Hash} (hx : x ∈ garbage o.s)
    : Removable o.s x := by
  rw [mem_garbage] at hx
  rcases o.objFile_of_mem hx.1 with ⟨f, hf⟩
  exact ⟨f, hf, h.removable x f hf hx.2⟩

theorem Whole.not_aborted {s : Store} (h : Whole s) : (gcMark s).aborted = false := by
  rw [← Bool.not_eq_true, aborted_gcMark]
  rintro ⟨x, hlive, hbad⟩
  exact h.live x hlive hbad

theorem unmarked_eq_garbage {s : Store} (h : Whole s)
    : unmarked (gcMark s).set (objNames s) = garbage s := by
  unfold unmarked garbage
  congr 1
  funext x
  rw [decide_eq_decide, keys_gcMark s h.not_aborted]

-- What one collection takes away.
noncomputable def sweptBy (max : Nat) (s : Store) : List Hash :=
  (garbage s).take (sweepQuota max 0 (garbage s).length)

theorem storeGc_of_whole {o : ObjStore} (h : Whole o.s) (max : Nat)
    : storeGc o.s max
        = some ⟨0, (o.deleteAll (sweptBy max o.s)).s, sweepQuota max 0 (garbage o.s).length⟩ := by
  rcases marks_gcMark o.s with ⟨_, _, _, _, _, hmarks⟩
  have hab := h.not_aborted
  have hgarbage := unmarked_eq_garbage h
  rw [storeGc_eq]
  simp only [hmarks.stuck, hab, Bool.false_eq_true, if_false]
  unfold storeObjForeach
  rw [sweep_eq (room_gcMark o.s hab) max (objNames o.s) o.nodup_objNames, hgarbage]
  . rw [ObjStore.deleteAll_s]
    simp [sweptBy]
  . intro x hx hnot
    apply h.removable_garbage
    rw [mem_garbage]
    exact ⟨hx, fun hlive => hnot ((keys_gcMark o.s hab x).mpr hlive)⟩

theorem reach_congr {s s' : Store} {h x : Hash} (hlive : ∀ y, Reach s h y → objFile s' y = objFile s y)
    : Reach s' h x ↔ Reach s h x := by
  have hget : ∀ y, Reach s h y → storeGet s' y = storeGet s y := by
    intro y hy
    unfold storeGet
    rw [hlive y hy]
  constructor
  . intro hreach
    induction hreach with
    | refl => apply Relation.ReflTransGen.refl
    | tail _ hchild ih =>
      rcases hchild with ⟨enc, henc, hmem⟩
      apply Relation.ReflTransGen.tail ih
      exact ⟨enc, (hget _ ih).symm.trans henc, hmem⟩
  . intro hreach
    induction hreach with
    | refl => apply Relation.ReflTransGen.refl
    | tail hto hchild ih =>
      rcases hchild with ⟨enc, henc, hmem⟩
      apply Relation.ReflTransGen.tail ih
      exact ⟨enc, (hget _ hto).trans henc, hmem⟩

theorem live_congr {s s' : Store} (hrefs : ∃ objects, s' = { s with objects })
    (hsame : ∀ y, Live s y → objFile s' y = objFile s y) (x : Hash) : Live s' x ↔ Live s x := by
  rcases hrefs with ⟨objects, rfl⟩
  constructor
  . rintro ⟨r, h, hr, hhash, hreach⟩
    refine ⟨r, h, hr, hhash, ?_⟩
    rwa [reach_congr (fun y hy => hsame y ⟨r, h, hr, hhash, hy⟩)] at hreach
  . rintro ⟨r, h, hr, hhash, hreach⟩
    refine ⟨r, h, hr, hhash, ?_⟩
    rwa [reach_congr (fun y hy => hsame y ⟨r, h, hr, hhash, hy⟩)]

theorem garbage_deleteAll {o : ObjStore} {gone : List Hash} (hrem : ∀ x ∈ gone, Removable o.s x)
    (hnodup : gone.Nodup) (hlive : ∀ x, Live (o.deleteAll gone).s x ↔ Live o.s x)
    : garbage (o.deleteAll gone).s = (garbage o.s).filter (fun x => x ∉ gone) := by
  unfold garbage
  rw [ObjStore.objNames_deleteAll o _ hrem hnodup, List.filter_filter, List.filter_filter]
  congr 1
  funext x
  rw [Bool.and_comm]
  congr 1
  rw [decide_eq_decide, hlive]

-- A store after some of its garbage is gone.
structure Swept (o o' : ObjStore) (k : Nat) : Prop where
  whole : Whole o'.s
  live : ∀ x, Live o'.s x ↔ Live o.s x
  garbage : garbage o'.s = (garbage o.s).drop k
  file : ∀ x, objFile o'.s x = if x ∈ (Harp.garbage o.s).take k then none else objFile o.s x

theorem Swept.refl {o : ObjStore} (h : Whole o.s) : Swept o o 0 where
  whole := h
  live := fun _ => Iff.rfl
  garbage := rfl
  file := by simp

theorem Swept.step {o o' : ObjStore} {k : Nat} (h : Swept o o' k) (j : Nat)
    : Swept o (o'.deleteAll ((Harp.garbage o'.s).take j)) (k + j) := by
  have hrem : ∀ x ∈ (Harp.garbage o'.s).take j, Removable o'.s x := by
    intro x hx
    exact h.whole.removable_garbage (List.mem_of_mem_take hx)
  have hnodup : ((Harp.garbage o'.s).take j).Nodup := o'.nodup_garbage.sublist (List.take_sublist _ _)
  have hfile : ∀ x, objFile (o'.deleteAll ((Harp.garbage o'.s).take j)).s x
      = if x ∈ (Harp.garbage o'.s).take j then none else objFile o'.s x := by
    intro x
    rw [ObjStore.deleteAll_s]
    exact objFile_deleteAll o'.s _ x hrem hnodup
  have hkept : ∀ x, Live o'.s x →
      objFile (o'.deleteAll ((Harp.garbage o'.s).take j)).s x = objFile o'.s x := by
    intro x hlive
    rw [hfile, if_neg]
    intro hmem
    exact (mem_garbage.mp (List.mem_of_mem_take hmem)).2 hlive
  have hlive := live_congr (by rw [ObjStore.deleteAll_s]; exact deleteAll_refs o'.s _) hkept
  refine ⟨⟨?_, ?_⟩, ?_, ?_, ?_⟩
  . intro x hx hbad
    have hx' := (hlive x).mp hx
    apply h.whole.live x hx'
    intro enc henc
    apply hbad enc
    unfold storeGet
    rw [hkept x hx']
    exact henc
  . intro x f hf hnot
    rw [hfile] at hf
    split at hf
    . cases hf
    . exact h.whole.removable x f hf (fun hx => hnot ((hlive x).mpr hx))
  . intro x
    rw [hlive, h.live]
  . calc Harp.garbage (o'.deleteAll ((Harp.garbage o'.s).take j)).s
        = (Harp.garbage o'.s).filter (fun x => x ∉ (Harp.garbage o'.s).take j) :=
          garbage_deleteAll hrem hnodup hlive
      _ = (Harp.garbage o'.s).drop j := filter_not_mem_take o'.nodup_garbage j
      _ = (Harp.garbage o.s).drop (k + j) := by rw [h.garbage, List.drop_drop]
  . intro x
    rw [hfile, h.file, h.garbage]
    simp only [List.take_add, List.mem_append]
    by_cases hfirst : x ∈ (Harp.garbage o.s).take k
    . simp [hfirst]
    . simp [hfirst]

-- What is left is what the listed refs reach.
def Collected (s s' : Store) : Prop :=
  (∀ x, Live s x → (objFile s x).isSome = true ∧ objFile s' x = objFile s x)
    ∧ ∀ x, ¬ Live s x → objFile s' x = none

theorem Swept.collected {o o' : ObjStore} {k : Nat} (h : Swept o o' k) (hwhole : Whole o.s)
    (hk : (Harp.garbage o.s).length ≤ k) : Collected o.s o'.s := by
  have hfile := h.file
  rw [List.take_of_length_le hk] at hfile
  constructor
  . intro x hlive
    constructor
    . have hgood := hwhole.live x hlive
      unfold BadObj storeGet at hgood
      cases hf : objFile o.s x with
      | some f => rfl
      | none => simp [hf] at hgood
    . rw [hfile, if_neg]
      intro hmem
      exact (mem_garbage.mp hmem).2 hlive
  . intro x hnot
    rw [hfile]
    split
    . rfl
    next hmem =>
      cases hf : objFile o.s x with
      | none => rfl
      | some f => exact absurd (mem_garbage.mpr ⟨mem_objNames hf, hnot⟩) hmem

def gcRepeat (max : Nat) (s : Store) : Nat → Store
  | 0 => s
  | n + 1 =>
    match storeGc (gcRepeat max s n) max with
    | some out => out.store
    | none => gcRepeat max s n

theorem take_sweepQuota {l : List Hash} {max : Nat} (hmax : max ≠ 0)
    : l.take (sweepQuota max 0 l.length) = l.take max := by
  unfold sweepQuota
  rw [if_neg hmax, Nat.sub_zero, ← List.take_take, List.take_length]

theorem gcRepeat_swept {o : ObjStore} (h : Whole o.s) {max : Nat} (hmax : max ≠ 0) (n : Nat)
    : ∃ o' : ObjStore, o'.s = gcRepeat max o.s n ∧ Swept o o' (n * max) := by
  induction n with
  | zero =>
    refine ⟨o, rfl, ?_⟩
    rw [Nat.zero_mul]
    exact Swept.refl h
  | succ n ih =>
    rcases ih with ⟨o', hs, hswept⟩
    refine ⟨o'.deleteAll (sweptBy max o'.s), ?_, ?_⟩
    . unfold gcRepeat
      rw [← hs, storeGc_of_whole hswept.whole max]
    . unfold sweptBy
      rw [take_sweepQuota hmax, Nat.succ_mul]
      exact hswept.step max

theorem storeGc_complete (o : ObjStore) (h : Whole o.s)
    : (∃ out, storeGc o.s 0 = some out ∧ out.ret = 0 ∧ Collected o.s out.store)
        ∧ (∀ max, 1 ≤ max →
          (∀ n, ∃ out, storeGc (gcRepeat max o.s n) max = some out ∧ out.ret = 0
            ∧ out.reclaimed = min max (garbage (gcRepeat max o.s n)).length
            ∧ (garbage (gcRepeat max o.s (n + 1))).length
              = (garbage (gcRepeat max o.s n)).length - out.reclaimed)
          ∧ ∃ n, ∀ m, n ≤ m → Collected o.s (gcRepeat max o.s m))
        ∧ (gcMark o.s).stuck = false
        ∧ (gcMark o.s).set.keys.length ≤ storeObjCount o.s + 1
        ∧ 2 * (storeObjCount o.s + 1) ≤ (gcMark o.s).set.capacity := by
  refine ⟨?_, ?_, ?_, ?_, ?_⟩
  . refine ⟨_, storeGc_of_whole h 0, rfl, ?_⟩
    have hstep := (Swept.refl h).step (sweepQuota 0 0 (garbage o.s).length)
    apply hstep.collected h
    simp [sweepQuota]
  . intro max hpos
    have hmax : max ≠ 0 := by omega
    constructor
    . intro n
      rcases gcRepeat_swept h hmax n with ⟨o', hs, hswept⟩
      rcases gcRepeat_swept h hmax (n + 1) with ⟨o'', hs', hswept'⟩
      rw [← hs, ← hs']
      refine ⟨_, storeGc_of_whole hswept.whole max, rfl, ?_, ?_⟩
      . dsimp only
        unfold sweepQuota
        rw [if_neg hmax, Nat.sub_zero]
      . dsimp only
        unfold sweepQuota
        rw [if_neg hmax, hswept'.garbage, hswept.garbage, List.length_drop, List.length_drop,
          Nat.succ_mul]
        omega
    . refine ⟨(garbage o.s).length, ?_⟩
      intro m hm
      rcases gcRepeat_swept h hmax m with ⟨o', hs, hswept⟩
      rw [← hs]
      apply hswept.collected h
      calc (garbage o.s).length
          ≤ m := hm
        _ = m * 1 := (Nat.mul_one m).symm
        _ ≤ m * max := Nat.mul_le_mul_left m hpos
  . rcases marks_gcMark o.s with ⟨_, _, _, _, _, hmarks⟩
    exact hmarks.stuck
  . have hlen := length_keys_gcMark o.s h.not_aborted
    have hcount := storeObjCount_eq o.s
    omega
  . rw [Nat.mul_comm]
    exact capacity_gcMark o.s

def strayHash : Hash :=
  ⟨beBytes 0x01ead7d0ef7f4199c2fb1d959b9df142ea7c468fdabb7a0663dd60acdb64e2b442 33, length_beBytes _ _⟩

def keptBlobHash : Hash :=
  ⟨beBytes 0x01d4f18a362cce85ae43bb07e156b7beaeedd8e8bf363ceb61ee86ca139b06cde0 33, length_beBytes _ _⟩

def keptTreeHash : Hash :=
  ⟨beBytes 0x01ab4d49990dcbed86162658cec5fb50a6d6f5b9d3d31ef6ccc3691d3389668cfe 33, length_beBytes _ _⟩

def keptSnapshotHash : Hash :=
  ⟨beBytes 0x0123c7f221a9d8ca1c115e58817fdd2e218a284125ef817feaa4a4ab8ffdc1bae3 33, length_beBytes _ _⟩

-- A snapshot, its tree and its only blob, and an empty blob beside them.
def keptObjects : List (Hash × Bytes) :=
  [ (strayHash, objEncodeBlob (ascii "a/b") []),
    (keptBlobHash, objEncodeBlob (ascii "a/b") [1]),
    (keptTreeHash, cborMap 2 ++ cborUint 0 ++ cborUint objTree ++ cborUint 1 ++ cborMap 1
      ++ encodeEntry ⟨ascii "params", keptBlobHash, objBlob⟩),
    (keptSnapshotHash, objEncodeSnapshot keptTreeHash [] 0 (ascii "a") (ascii "1.0") none) ]

-- The live ref names the snapshot, and nothing the empty blob.
def snapshotStore : ObjStore where
  s := (storeRefWrite
    ⟨[7], keptObjects.map fun o => (hashHex o.1, ⟨true, some o.2, true⟩), .dir true []⟩
    ⟨ascii "live/project", some keptSnapshotHash, 1, false⟩ .ok).2
  nodup := by decide +kernel
  named := by
    intro e he h hname
    rw [storeRefWrite_objects, List.mem_map] at he
    obtain ⟨o, _, rfl⟩ := he
    rw [objName_hashHex] at hname
    cases hname
    rfl

theorem snapshotStore_complete
    : objNames snapshotStore.s = [strayHash, keptBlobHash, keptTreeHash, keptSnapshotHash]
      ∧ Whole snapshotStore.s
      ∧ ∃ out, storeGc snapshotStore.s 0 = some out ∧ out.ret = 0
        ∧ Collected snapshotStore.s out.store
        ∧ objNames out.store = [keptBlobHash, keptTreeHash, keptSnapshotHash] := by
  have hmarked : (gcMark snapshotStore.s).aborted = false := by
    decide +kernel
  have hwhole : Whole snapshotStore.s := by
    constructor
    . intro x hlive hbad
      rw [(aborted_gcMark _).mpr ⟨x, hlive, hbad⟩] at hmarked
      cases hmarked
    . intro x f hf _
      have hmem := mem_of_lookupObj hf
      unfold snapshotStore at hmem
      rw [storeRefWrite_objects, List.mem_map] at hmem
      obtain ⟨o, _, ho⟩ := hmem
      rw [Prod.mk.injEq] at ho
      rw [← ho.2]
  have hleft : (storeGc snapshotStore.s 0).map (fun out => objNames out.store)
      = some [keptBlobHash, keptTreeHash, keptSnapshotHash] := by
    decide +kernel
  obtain ⟨out, hgc, hret, hcollected⟩ := (storeGc_complete snapshotStore hwhole).1
  rw [hgc, Option.map_some, Option.some.injEq] at hleft
  exact ⟨by decide +kernel, hwhole, out, hgc, hret, hcollected, hleft⟩

end Collect

end Harp
