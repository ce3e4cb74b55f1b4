import Harp.Host.PushClosure
import Harp.Core.GcLemmas
import Harp.Device.Refset
import Harp.Lib.Levels

/-!
This module contains the facts about `pushClosure`: the list is the first part of the closure, level
by level, the have exchange tells the host what the device lacks, and when the push returns 0 the
device has been sent that.
-/

namespace Harp

open Levels

section Put

-- The bytes arrive, are taken for an object and a file is written.
def Accepted (enc : Bytes) (io : WriteIo) : Prop :=
  (objKind enc).isSome = true ∧ io.unchecked = true

theorem objFile_handleObj (s : Store) (enc : Bytes) (io : WriteIo) (x : Hash)
    : (storeHave s x = false ∧ Accepted enc io ∧ x = hashCompute enc
          ∧ objFile (handleObj s enc io) x = some ⟨true, some (io.onDisk enc), true⟩)
        ∨ (¬ (storeHave s x = false ∧ Accepted enc io ∧ x = hashCompute enc)
          ∧ objFile (handleObj s enc io) x = objFile s x) := by
  unfold handleObj Accepted
  split
  next hkind =>
    apply Or.inr
    rw [Option.isNone_iff_eq_none] at hkind
    refine ⟨?_, rfl⟩
    rintro ⟨_, ⟨hsome, _⟩, _⟩
    rw [hkind] at hsome
    contradiction
  next hkind =>
    rw [Bool.not_eq_true, ← Bool.not_eq_true', Option.not_isNone] at hkind
    rw [objFile_storePut]
    split
    next h => exact .inl ⟨h.1, ⟨hkind, h.2.1⟩, h.2.2, rfl⟩
    next h =>
      apply Or.inr
      refine ⟨?_, rfl⟩
      rintro ⟨hnot, ⟨_, hio⟩, hx⟩
      exact h ⟨hnot, hio, hx⟩

theorem storeHave_congr {s s' : Store} {x : Hash} (h : objFile s' x = objFile s x)
    : storeHave s' x = storeHave s x := by
  unfold storeHave
  rw [h]

-- What the receiver makes of the objects sent for `hs`.
def receive (src : Store) (put : Hash → WriteIo) (dst : Store) (hs : List Hash) : Store :=
  hs.foldl (fun dst h => handleObj dst ((storeGet src h).getD []) (put h)) dst

-- The bytes stored as `x` are an object that goes to the file of `y`.
def delivers (src : Store) (put : Hash → WriteIo) (y x : Hash) : Bool :=
  match storeGet src x with
  | some enc => (objKind enc).isSome && (put x).unchecked && decide (y = hashCompute enc)
  | none => false

theorem delivers_iff {src : Store} {put : Hash → WriteIo} {x y : Hash}
    : delivers src put y x = true
        ↔ ∃ enc, storeGet src x = some enc ∧ Accepted enc (put x) ∧ y = hashCompute enc := by
  unfold delivers Accepted
  cases storeGet src x with
  | none => simp
  | some enc => simp [and_assoc]

-- The first object that is delivered makes the file.
theorem objFile_receive (src : Store) (put : Hash → WriteIo) (dst : Store) (hs : List Hash) (y : Hash)
    : objFile (receive src put dst hs) y
        = if storeHave dst y then objFile dst y
          else match hs.find? (delivers src put y) with
            | some x => some ⟨true, (storeGet src x).map (put x).onDisk, true⟩
            | none => objFile dst y := by
  induction hs generalizing dst with
  | nil =>
    rw [List.find?_nil]
    split <;> rfl
  | cons h hs ih =>
    have hfold : receive src put dst (h :: hs)
        = receive src put (handleObj dst ((storeGet src h).getD []) (put h)) hs := rfl
    rw [hfold, ih, List.find?_cons]
    rcases objFile_handleObj dst ((storeGet src h).getD []) (put h) y
      with ⟨hnot, hacc, hy, hobj⟩ | ⟨hskip, hobj⟩
    . have hhave : storeHave (handleObj dst ((storeGet src h).getD []) (put h)) y = true := by
        unfold storeHave
        rw [hobj]
      rw [if_pos hhave, hobj, hnot, if_neg Bool.false_ne_true]
      cases hget : storeGet src h with
      | none =>
        rw [hget] at hacc
        cases hacc.1
      | some enc =>
        rw [hget] at hacc hy
        rw [delivers_iff.mpr ⟨enc, hget, hacc, hy⟩]
        dsimp only
        rw [hget]
        rfl
    . rw [storeHave_congr hobj, hobj]
      cases hhave : storeHave dst y with
      | true => rfl
      | false =>
        have hno : delivers src put y h = false := by
          rw [Bool.eq_false_iff]
          intro hdelivers
          obtain ⟨enc, henc, hacc, hy⟩ := delivers_iff.mp hdelivers
          rw [henc] at hskip
          exact hskip ⟨hhave, hacc, hy⟩
        rw [hno]

end Put

-- Every object that can be read has the bytes its name is the hash of.
def Store.Sound (s : Store) : Prop :=
  ∀ h enc, storeGet s h = some enc → hashCompute enc = h

theorem Store.Sound.put {s : Store} (h : s.Sound) {enc : Bytes} {io : WriteIo}
    (hkeeps : io.keeps enc = true) : (storePut s enc io).2.Sound := by
  intro x enc' hget
  unfold storeGet at hget
  rw [objFile_storePut] at hget
  split at hget
  next hput =>
    rw [WriteIo.onDisk_eq hkeeps] at hget
    cases hget
    exact hput.2.2.symm
  next => exact h x enc' hget

-- A hash of the only algorithm that `harp_hash_read` knows.
def Hash.isSha256 (h : Hash) : Bool :=
  h.b.head? = some 0x01

section Exchange

theorem firstArray_eq {n : Nat} (rest : Bytes) (hn : n < 2 ^ 64) (hlen : n ≤ rest.length)
    : firstArray (Cdec.init (cborMap 1 ++ cborUint 0 ++ cborArray n ++ rest))
        = (some n, ⟨rest, false⟩) := by
  have hmap : 1 * 2 ≤ (cborUint 0 ++ (cborArray n ++ rest)).length := by
    have h0 := length_putHead_pos 0 0
    have h4 := length_putHead_pos 4 n
    simp only [cborUint, cborArray, List.length_append]
    omega
  unfold firstArray Cdec.init
  rw [List.append_assoc, List.append_assoc, Dec.bind_eq,
    Dec.bind_of_some (cdecMap_cborMap _ (by omega) hmap)]
  rw [if_neg (by omega), Dec.bind_eq, Dec.bind_of_some (cdecUint_cborUint _ (by omega))]
  rw [if_neg (by simp)]
  exact cdecArray_cborArray rest hn hlen

-- The answer ends at the first hash that cannot be read.
theorem haveBools_eq (s : Store) (clo : List Hash)
    : haveBools s clo.length ⟨clo.flatMap (fun h => cborBytes h.b), false⟩
        = (clo.takeWhile Hash.isSha256).map (storeHave s) := by
  induction clo with
  | nil => rfl
  | cons x clo ih =>
    rw [List.length_cons, List.flatMap_cons]
    unfold haveBools
    rw [hashRead_cborBytes]
    by_cases hx : x.b.head? = some 0x01
    . rw [if_pos hx, List.takeWhile_cons_of_pos (by simpa [Hash.isSha256] using hx)]
      dsimp only
      rw [ih]
      rfl
    . rw [if_neg hx, List.takeWhile_cons_of_neg (by simpa [Hash.isSha256] using hx)]
      rfl

theorem readMissing_eq (bools : List Bool)
    : readMissing bools.length ⟨bools.flatMap cborBool, false⟩ = bools.map not := by
  induction bools with
  | nil => rfl
  | cons b bools ih =>
    rw [List.length_cons, List.flatMap_cons]
    unfold readMissing
    rw [cdecBool_cborBool]
    dsimp only
    rw [ih]
    rfl

theorem length_le_flatMap {α : Type} (l : List α) (f : α → Bytes) (h : ∀ a, 0 < (f a).length)
    : l.length ≤ (l.flatMap f).length := by
  induction l with
  | nil => simp
  | cons a l ih =>
    have ha := h a
    simp only [List.length_cons, List.flatMap_cons, List.length_append]
    omega

theorem length_takeWhile_eq {p : Hash → Bool} {clo : List Hash}
    : (clo.takeWhile p).length = clo.length ↔ clo.all p = true := by
  rw [List.all_eq_true, ← List.takeWhile_eq_self_iff]
  constructor
  . exact (List.takeWhile_prefix p).eq_of_length
  . intro h
    rw [h]

theorem missingFlags_eq (s : Store) {clo : List Hash} (hlen : clo.length ≤ clientMaxClosure)
    : missingFlags clo.length (handleStateHave s (some (haveRequest clo)))
        = if clo.all Hash.isSha256 then clo.map (fun x => !storeHave s x)
          else List.replicate clo.length false := by
  unfold clientMaxClosure at hlen
  have hbytes : ∀ x : Hash, 0 < (cborBytes x.b).length := by
    intro x
    have := length_putHead_pos 2 x.b.length
    simp only [cborBytes, List.length_append]
    omega
  have hprefix := (List.takeWhile_prefix (p := Hash.isSha256) (l := clo)).length_le
  have hrsp : handleStateHave s (some (haveRequest clo))
      = cborMap 1 ++ cborUint 0 ++ cborArray (clo.takeWhile Hash.isSha256).length
        ++ ((clo.takeWhile Hash.isSha256).map (storeHave s)).flatMap cborBool := by
    unfold handleStateHave haveRequest
    dsimp only
    rw [firstArray_eq _ (by omega) (length_le_flatMap clo _ hbytes)]
    dsimp only
    rw [haveBools_eq s clo, List.length_map]
  have hbool := length_le_flatMap ((clo.takeWhile Hash.isSha256).map (storeHave s)) cborBool
    (by intro b; simp [cborBool])
  rw [List.length_map] at hbool
  unfold missingFlags
  rw [hrsp, firstArray_eq _ (by omega) hbool]
  dsimp only
  by_cases hall : clo.all Hash.isSha256 = true
  . have hsame := length_takeWhile_eq.mpr hall
    have hself := (List.takeWhile_prefix (p := Hash.isSha256) (l := clo)).eq_of_length hsame
    have hread := readMissing_eq (clo.map (storeHave s))
    rw [List.length_map] at hread
    rw [if_pos hall, if_pos hsame, hself, hread, List.map_map]
    rfl
  . rw [if_neg hall, if_neg (fun hsame => hall (length_takeWhile_eq.mp hsame))]

theorem zip_filter_map (clo : List Hash) (f : Hash → Bool)
    : ((clo.zip (clo.map f)).filter Prod.snd).map Prod.fst = clo.filter f := by
  induction clo with
  | nil => rfl
  | cons x clo ih =>
    rw [List.map_cons, List.zip_cons_cons, List.filter_cons, List.filter_cons]
    cases f x with
    | true =>
      rw [if_pos rfl, if_pos rfl, List.map_cons, ih]
    | false =>
      rw [if_neg (by simp), if_neg (by simp), ih]

theorem zip_filter_replicate (clo : List Hash)
    : ((clo.zip (List.replicate clo.length false)).filter Prod.snd).map Prod.fst = [] := by
  induction clo with
  | nil => rfl
  | cons x clo ih =>
    rw [List.length_cons, List.replicate_succ, List.zip_cons_cons, List.filter_cons,
      if_neg (by simp), ih]

end Exchange

section Collect

theorem foldl_treeStep_of_true {cb : HashCb σ} (h : ∀ x ud, (cb x ud).1 = true) (hs : List Hash)
    (ud : σ) : (hs.foldl (treeStep cb) ⟨false, ud⟩).ud = hs.foldl (childStep cb) ud := by
  induction hs generalizing ud with
  | nil => rfl
  | cons x hs ih =>
    have hstep : treeStep cb ⟨false, ud⟩ x = ⟨false, childStep cb ud x⟩ := by
      unfold treeStep TreeIter.step childStep
      simp [h]
    rw [List.foldl_cons, List.foldl_cons, hstep, ih]

-- A callback that never asks to stop is called for every child.
theorem foldChildren_of_true {cb : HashCb σ} (h : ∀ x ud, (cb x ud).1 = true) (kind : Option Nat)
    (hs : List Hash) (ud : σ) : foldChildren kind cb hs ud = hs.foldl (childStep cb) ud := by
  unfold foldChildren
  split
  . exact foldl_treeStep_of_true h hs ud
  . rfl

theorem objForeachChild_listCollect (enc : Bytes) (clo : List Hash)
    : (objForeachChild enc false listCollect clo).2
        = (objChildren enc false).2.foldl (childStep listCollect) clo := by
  rw [objForeachChild_eq]
  exact foldChildren_of_true (fun _ _ => rfl) _ _ _

theorem childStep_listCollect (clo : List Hash) (x : Hash)
    : childStep listCollect clo x = clo
        ∨ x ∉ clo ∧ clo.length < clientMaxClosure ∧ childStep listCollect clo x = clo ++ [x] := by
  unfold childStep listCollect
  dsimp only
  split
  next h => exact .inr ⟨h.1, h.2, rfl⟩
  next => exact .inl rfl

def storeChildren (s : Store) (x : Hash) : List Hash :=
  match storeGet s x with
  | none => []
  | some enc => (objChildren enc false).2

theorem child_iff (s : Store) (x y : Hash) : Child s x y ↔ y ∈ storeChildren s x := by
  unfold Child storeChildren
  cases storeGet s x <;> simp

theorem foldl_childStep (clo hs : List Hash)
    : hs.foldl (childStep listCollect) clo = offer clientMaxClosure clo hs := rfl

-- The first objects of the closure, level by level.
def closureFront (s : Store) (root : Hash) : List Hash :=
  (levels clientMaxClosure (storeChildren s) root).flatten

theorem collectFrom_walk {s : Store} {passes cur : Nat} {clo clo' : List Hash}
    (h : collectFrom s passes cur clo = some clo')
    : clo' = walk clientMaxClosure (storeChildren s) passes cur clo := by
  induction passes generalizing cur clo with
  | zero =>
    cases h
    rfl
  | succ passes ih =>
    unfold collectFrom at h
    rw [walk]
    split at h
    next hnone =>
      cases h
      rw [hnone]
    next x hx =>
      rw [hx]
      split at h
      . cases h
      next enc henc =>
        have hchildren : storeChildren s x = (objChildren enc false).2 := by
          unfold storeChildren
          rw [henc]
        rw [objForeachChild_listCollect, foldl_childStep] at h
        dsimp only
        rw [hchildren]
        exact ih h

theorem collectClosure_eq_front {s : Store} {root : Hash} {clo : List Hash}
    (h : collectClosure s root = some clo) : clo = closureFront s root :=
  (collectFrom_walk h).trans (walk_levels root)

theorem reach_of_mem_front {s : Store} {root x : Hash} (hx : x ∈ closureFront s root)
    : Reach s root x := by
  have hreaches := reaches_of_mem_levels hx
  unfold Reaches at hreaches
  simp only [← child_iff] at hreaches
  exact hreaches

variable {s : Store} {root : Hash}

-- The list while it is walked: `cur` entries have been read and their children offered.
structure Collects (s : Store) (root : Hash) (cur : Nat) (clo : List Hash) : Prop where
  start : root ∈ clo
  nodup : clo.Nodup
  bound : clo.length ≤ clientMaxClosure
  reach : ∀ x ∈ clo, Reach s root x
  read : ∀ x ∈ clo.take cur, ∃ enc, storeGet s x = some enc
  offered : ∀ x ∈ clo.take cur, ∀ y, Child s x y → y ∈ clo ∨ clo.length = clientMaxClosure

theorem Collects.grow {cur : Nat} {clo : List Hash} {x y : Hash} (h : Collects s root cur clo)
    (hcur : cur ≤ clo.length) (hx : x ∈ clo) (hchild : Child s x y)
    : Collects s root cur (childStep listCollect clo y) := by
  rcases childStep_listCollect clo y with heq | ⟨hnot, hlt, heq⟩
  . rw [heq]
    exact h
  . rw [heq]
    have htake : (clo ++ [y]).take cur = clo.take cur := List.take_append_of_le_length hcur
    refine ⟨by simp [h.start], ?_, ?_, ?_, ?_, ?_⟩
    . rw [List.nodup_append]
      refine ⟨h.nodup, by simp, ?_⟩
      intro a ha b hb
      rw [List.mem_singleton] at hb
      rintro rfl
      subst hb
      contradiction
    . rw [List.length_append, List.length_singleton]
      exact hlt
    . intro z hz
      rw [List.mem_append, List.mem_singleton] at hz
      rcases hz with hz | rfl
      . exact h.reach z hz
      . exact (h.reach x hx).tail hchild
    . rw [htake]
      exact h.read
    . rw [htake]
      intro z hz w hw
      rcases h.offered z hz w hw with hmem | hfull
      . exact .inl (by simp [hmem])
      . omega

theorem prefix_childStep_listCollect (clo : List Hash) (x : Hash)
    : clo <+: childStep listCollect clo x := by
  rcases childStep_listCollect clo x with heq | ⟨_, _, heq⟩
  . rw [heq]
  . rw [heq]
    exact List.prefix_append clo [x]

theorem foldl_listCollect {cur : Nat} {x : Hash} (hs : List Hash) (clo : List Hash)
    (h : Collects s root cur clo) (hcur : cur ≤ clo.length) (hx : x ∈ clo)
    (hchild : ∀ y ∈ hs, Child s x y)
    : Collects s root cur (hs.foldl (childStep listCollect) clo)
        ∧ clo <+: hs.foldl (childStep listCollect) clo
        ∧ ∀ y ∈ hs, y ∈ hs.foldl (childStep listCollect) clo
          ∨ (hs.foldl (childStep listCollect) clo).length = clientMaxClosure := by
  induction hs generalizing clo with
  | nil => exact ⟨h, List.prefix_rfl, by simp⟩
  | cons y hs ih =>
    rw [List.foldl_cons]
    have hgrow := h.grow hcur hx (hchild y (by simp))
    have hfront := prefix_childStep_listCollect clo y
    rcases ih (childStep listCollect clo y) hgrow (hcur.trans hfront.length_le)
      (hfront.subset hx) (fun z hz => hchild z (by simp [hz])) with ⟨hall, hpre, hmem⟩
    refine ⟨hall, hfront.trans hpre, ?_⟩
    intro z hz
    rw [List.mem_cons] at hz
    rcases hz with rfl | hz
    . by_cases hin : z ∈ childStep listCollect clo z
      . exact .inl (hpre.subset hin)
      . apply Or.inr
        have hfull : clo.length = clientMaxClosure := by
          have hb := h.bound
          unfold childStep listCollect at hin
          dsimp only at hin
          split at hin
          . simp at hin
          next hcond =>
            rw [not_and_or, not_not] at hcond
            rcases hcond with hcond | hcond
            . contradiction
            . omega
        have hle := (hfront.trans hpre).length_le
        have hb := hall.bound
        omega
    . exact hmem z hz

theorem collectFrom_collects (passes cur : Nat) (clo clo' : List Hash)
    (h : Collects s root cur clo) (hcur : cur ≤ clo.length)
    (hpasses : clientMaxClosure ≤ passes + cur) (heq : collectFrom s passes cur clo = some clo')
    : Collects s root clo'.length clo' := by
  induction passes generalizing cur clo with
  | zero =>
    have hb := h.bound
    have hend : clo.length = cur := by omega
    cases heq
    rw [hend]
    exact h
  | succ passes ih =>
    unfold collectFrom at heq
    split at heq
    next hnone =>
      rw [List.getElem?_eq_none_iff] at hnone
      have hend : clo.length = cur := by omega
      cases heq
      rw [hend]
      exact h
    next x hx =>
      split at heq
      . cases heq
      next enc henc =>
        rw [objForeachChild_listCollect] at heq
        have hmem := List.mem_of_getElem? hx
        rw [List.getElem?_eq_some_iff] at hx
        rcases hx with ⟨hlt, hget⟩
        rcases foldl_listCollect (objChildren enc false).2 clo h hcur hmem
          (fun y hy => ⟨enc, henc, hy⟩) with ⟨hall, hpre, hoffer⟩
        have htake : ((objChildren enc false).2.foldl (childStep listCollect) clo).take (cur + 1)
            = clo.take cur ++ [x] := by
          rcases hpre with ⟨rest, hrest⟩
          rw [← hrest, List.take_append_of_le_length (by omega), ← hget]
          exact (List.take_append_getElem hlt).symm
        have htake' : ((objChildren enc false).2.foldl (childStep listCollect) clo).take cur
            = clo.take cur := by
          rcases hpre with ⟨rest, hrest⟩
          rw [← hrest, List.take_append_of_le_length hcur]
        apply ih (cur + 1) _ _ (Nat.le_trans hlt hpre.length_le) (by omega) heq
        refine ⟨hall.start, hall.nodup, hall.bound, hall.reach, ?_, ?_⟩
        . rw [htake]
          intro z hz
          rw [List.mem_append, List.mem_singleton] at hz
          rcases hz with hz | rfl
          . exact h.read z hz
          . exact ⟨enc, henc⟩
        . rw [htake]
          intro z hz w hw
          rw [List.mem_append, List.mem_singleton] at hz
          rcases hz with hz | rfl
          . rw [← htake'] at hz
            exact hall.offered z hz w hw
          . rcases hw with ⟨enc', henc', hw⟩
            rw [henc] at henc'
            cases henc'
            exact hoffer w hw

theorem collectClosure_collects {clo : List Hash} (h : collectClosure s root = some clo)
    : Collects s root clo.length clo := by
  unfold collectClosure at h
  apply collectFrom_collects clientMaxClosure 0 _ clo _ (by omega) (by omega) h
  have hone : (listCollect root []).2 = [root] := rfl
  rw [hone]
  refine ⟨by simp, by simp, by simp [clientMaxClosure], ?_, by simp, by simp⟩
  intro x hx
  rw [List.mem_singleton] at hx
  rw [hx]
  exact Relation.ReflTransGen.refl

-- A closure that fits is listed completely.
theorem mem_collectClosure {clo : List Hash} (h : collectClosure s root = some clo)
    (hfits : ∀ l : List Hash, l.Nodup → (∀ x ∈ l, Reach s root x) → l.length ≤ clientMaxClosure)
    {x : Hash} (hx : Reach s root x) : x ∈ clo := by
  have hclo := collectClosure_collects h
  have hoffered := hclo.offered
  rw [List.take_length] at hoffered
  induction hx with
  | refl => exact hclo.start
  | @tail y z hy hchild ih =>
    rcases hoffered y ih z hchild with hmem | hfull
    . exact hmem
    . by_contra hnot
      have hlong := hfits (z :: clo) (List.nodup_cons.mpr ⟨hnot, hclo.nodup⟩) (by
        intro w hw
        rw [List.mem_cons] at hw
        rcases hw with rfl | hw
        . exact hy.tail hchild
        . exact hclo.reach w hw)
      rw [List.length_cons, hfull] at hlong
      omega

end Collect

section Flush

theorem foldl_csendqPush (hs q : List Hash) (h : q.length + hs.length ≤ clientSendqCap)
    : hs.foldl csendqPush q = q ++ hs := by
  induction hs generalizing q with
  | nil => simp
  | cons x hs ih =>
    rw [List.length_cons] at h
    have hpush : csendqPush q x = q ++ [x] := by
      unfold csendqPush
      rw [if_neg (by omega)]
    rw [List.foldl_cons, hpush, ih]
    . simp
    . rw [List.length_append, List.length_singleton]
      omega

theorem csendqFlush_true {local_ dev dev' : Store} {io : PushIo} {q : List Hash} {credit : Credit}
    (h : csendqFlush local_ io q credit dev = (true, dev')) : dev' = receive local_ io.put dev q := by
  induction q generalizing credit dev with
  | nil =>
    cases h
    rfl
  | cons x q ih =>
    unfold csendqFlush at h
    split at h
    . cases h
    next enc henc =>
      split at h
      . cases h
      . split at h
        . cases h
        . rw [ih h]
          unfold receive
          rw [List.foldl_cons, henc]
          rfl

-- What the host sends: nothing at all when it has listed a hash of another algorithm.
def asked (src dev : Store) (root : Hash) : List Hash :=
  if (closureFront src root).all Hash.isSha256 then
    (closureFront src root).filter (fun x => !storeHave dev x)
  else
    []

theorem asked_length_le {clo : List Hash} (hlen : clo.length ≤ clientMaxClosure)
    (p : Hash → Bool) : ([] : List Hash).length + (clo.filter p).length ≤ clientSendqCap := by
  have hle := List.length_filter_le p clo
  unfold clientMaxClosure at hlen
  unfold clientSendqCap
  rw [List.length_nil]
  omega

theorem pushClosure_true {src dev : Store} {root : Hash} {io : PushIo}
    (h : (pushClosure src dev root io).1 = true)
    : collectClosure src root = some (closureFront src root)
        ∧ (pushClosure src dev root io).2 = receive src io.put dev (asked src dev root) := by
  unfold pushClosure at h ⊢
  cases hclo : collectClosure src root with
  | none =>
    rw [hclo] at h
    contradiction
  | some clo =>
    have hcol := collectClosure_collects hclo
    have hfront := collectClosure_eq_front hclo
    rw [← hfront]
    refine ⟨rfl, ?_⟩
    unfold asked
    rw [← hfront]
    rw [hclo] at h
    dsimp only at h ⊢
    rw [missingFlags_eq dev hcol.bound] at h ⊢
    split at h
    . contradiction
    next hhave =>
      rw [if_neg hhave]
      by_cases hall : clo.all Hash.isSha256 = true
      . rw [if_pos hall, zip_filter_map] at h ⊢
        rw [if_pos hall]
        split at h
        next hempty =>
          rw [if_pos hempty]
          rw [List.isEmpty_iff] at hempty
          rw [hempty]
          rfl
        next hempty =>
          rw [if_neg hempty]
          split at h
          . contradiction
          next hsend =>
            rw [if_neg hsend]
            rw [foldl_csendqPush _ _ (asked_length_le hcol.bound _)] at h ⊢
            rw [List.nil_append] at h ⊢
            exact csendqFlush_true (Prod.ext h rfl)
      . rw [if_neg hall, zip_filter_replicate] at h ⊢
        rw [if_neg hall]
        rfl

end Flush

end Harp
