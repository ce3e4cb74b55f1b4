import Harp.Host.PushLemmas
import Harp.Device.RefsetAtomic
import Harp.Device.ClosureCheck

/-!
This module contains the contract of a push: when it returns 0 the device holds the closure of the
root, so that a refset to it finds the closure complete.
-/

namespace Harp

section Contract

variable (src dev : Store) (root : Hash) (put : Hash → WriteIo)

-- `x` was there before, or its bytes are now.
def Held (before after : Store) (x : Hash) : Prop :=
  storeHave after x = true
    ∧ (storeHave before x = false → ∃ enc, storeGet after x = some enc ∧ hashCompute enc = x)

structure PushComplete (io : PushIo) : Prop where
  held : ∀ x, Reach src root x → Held dev (pushClosure src dev root io).2 x
  closure : closureComplete (pushClosure src dev root io).2 root = true

-- What the file of `x` ends with: the device's own bytes if it has some, else those on disk of the
-- first object that is sent, taken for an object and written for that hash.
def content (x : Hash) : Option Bytes :=
  if storeHave dev x then
    storeGet dev x
  else
    ((asked src dev root).find? (delivers src put x)).bind
      fun y => (storeGet src y).map (put y).onDisk

-- `x` is at most `n` steps below `h`.
def Within (n : Nat) (h x : Hash) : Prop :=
  match n with
  | 0 => x = h
  | n + 1 => x = h ∨ ∃ enc y, content src dev root put h = some enc ∧ y ∈ (objChildren enc false).2
      ∧ Within n y x

structure PushSafe : Prop where
  lands : ∀ x, Reach src root x → storeHave dev x = true
    ∨ ∃ enc, content src dev root put x = some enc ∧ hashCompute enc = x
  walks : ∀ x, Within src dev root put 16 root x →
    ∃ enc, content src dev root put x = some enc ∧ (objChildren enc false).1 = true

variable {src dev root} {io : PushIo}

-- What there is on the device after the push, and what it holds.
theorem storeHave_pushClosure (h : (pushClosure src dev root io).1 = true) (x : Hash)
    : storeHave (pushClosure src dev root io).2 x = true
        ↔ storeHave dev x = true ∨ (content src dev root io.put x).isSome = true := by
  have hobj := objFile_receive src io.put dev (asked src dev root) x
  rw [← (pushClosure_true h).2] at hobj
  unfold content
  cases hdev : storeHave dev x with
  | true =>
    rw [hdev, if_pos rfl] at hobj
    rw [storeHave_congr hobj, hdev]
    simp
  | false =>
    rw [hdev, if_neg Bool.false_ne_true] at hobj
    rw [if_neg Bool.false_ne_true]
    cases hfind : (asked src dev root).find? (delivers src io.put x) with
    | none =>
      rw [hfind] at hobj
      rw [storeHave_congr hobj, hdev]
      simp
    | some y =>
      rw [hfind] at hobj
      obtain ⟨enc, henc, _⟩ := delivers_iff.mp (List.find?_some hfind)
      unfold storeHave
      rw [hobj, Option.bind_some, henc]
      simp

theorem storeGet_pushClosure (h : (pushClosure src dev root io).1 = true) {x : Hash}
    (hhave : storeHave (pushClosure src dev root io).2 x = true)
    : storeGet (pushClosure src dev root io).2 x = content src dev root io.put x := by
  have hobj := objFile_receive src io.put dev (asked src dev root) x
  rw [← (pushClosure_true h).2] at hobj
  rw [storeHave_pushClosure h] at hhave
  unfold storeGet
  rw [hobj]
  unfold content at hhave ⊢
  cases hdev : storeHave dev x with
  | true => rfl
  | false =>
    rw [hdev] at hhave
    rw [if_neg Bool.false_ne_true, if_neg Bool.false_ne_true]
    simp only [Bool.false_eq_true, if_false, false_or] at hhave
    cases hfind : (asked src dev root).find? (delivers src io.put x) with
    | none =>
      rw [hfind] at hhave
      cases hhave
    | some y => rfl

theorem closureWalk_pushClosure (h : (pushClosure src dev root io).1 = true) (n : Nat) (x : Hash)
    : closureWalk (pushClosure src dev root io).2 (n + 1) true x = true
        ↔ ∀ y, Within src dev root io.put n x y →
          ∃ enc, content src dev root io.put y = some enc ∧ (objChildren enc false).1 = true := by
  have hstep : ∀ x enc, content src dev root io.put x = some enc →
      storeHave (pushClosure src dev root io).2 x = true := by
    intro x enc henc
    rw [storeHave_pushClosure h, henc]
    exact .inr rfl
  induction n generalizing x with
  | zero =>
    rw [closureWalk_succ]
    constructor
    . rintro ⟨hhave, enc, hget, hok, _⟩ y hy
      have hxy : y = x := hy
      subst hxy
      rw [storeGet_pushClosure h hhave] at hget
      exact ⟨enc, hget, hok⟩
    . intro hall
      obtain ⟨enc, hget, hok⟩ := hall x rfl
      have hhave := hstep x enc hget
      refine ⟨hhave, enc, ?_, hok, ?_⟩
      . rw [storeGet_pushClosure h hhave]
        exact hget
      . intro y _
        rfl
  | succ n ih =>
    rw [closureWalk_succ]
    constructor
    . rintro ⟨hhave, enc, hget, hok, hchildren⟩ y hy
      rw [storeGet_pushClosure h hhave] at hget
      rcases hy with rfl | ⟨enc', z, henc', hz, hy⟩
      . exact ⟨enc, hget, hok⟩
      . rw [hget] at henc'
        cases henc'
        exact (ih z).mp (hchildren z hz) y hy
    . intro hall
      obtain ⟨enc, hget, hok⟩ := hall x (.inl rfl)
      have hhave := hstep x enc hget
      refine ⟨hhave, enc, ?_, hok, ?_⟩
      . rw [storeGet_pushClosure h hhave]
        exact hget
      . intro z hz
        refine (ih z).mpr ?_
        intro y hy
        exact hall y (.inr ⟨enc, z, hget, hz, hy⟩)

end Contract

theorem pushClosure_complete_iff {src dev : Store} {root : Hash} {io : PushIo}
    (hret : (pushClosure src dev root io).1 = true)
    : PushComplete src dev root io ↔ PushSafe src dev root io.put := by
  have hwalk := closureWalk_pushClosure hret 16 root
  constructor
  . intro h
    refine ⟨?_, hwalk.mp h.closure⟩
    intro x hx
    obtain ⟨hhave, hbytes⟩ := h.held x hx
    cases hdev : storeHave dev x with
    | true => exact .inl rfl
    | false =>
      obtain ⟨enc, hget, hhash⟩ := hbytes hdev
      rw [storeGet_pushClosure hret hhave] at hget
      exact .inr ⟨enc, hget, hhash⟩
  . intro h
    refine ⟨?_, hwalk.mpr h.walks⟩
    intro x hx
    rcases h.lands x hx with hdev | ⟨enc, hget, hhash⟩
    . refine ⟨(storeHave_pushClosure hret x).mpr (.inl hdev), fun hnot => ?_⟩
      rw [hdev] at hnot
      cases hnot
    . have hhave : storeHave (pushClosure src dev root io).2 x = true := by
        rw [storeHave_pushClosure hret, hget]
        exact .inr rfl
      refine ⟨hhave, fun _ => ⟨enc, ?_, hhash⟩⟩
      rw [storeGet_pushClosure hret hhave]
      exact hget

section Fits

variable {src dev : Store} {root : Hash} {put : Hash → WriteIo}

theorem objKind_of_children {enc : Bytes} (h : (objChildren enc false).1 = true)
    : (objKind enc).isSome = true := by
  unfold objChildren objForeachChild at h
  split at h
  . contradiction
  next hkind =>
    rw [hkind]
    rfl

-- The ordinary case: a closure within the bound, sound on both sides, and storage that works.
theorem pushSafe_of_fits (hfront : ∀ x, Reach src root x → x ∈ closureFront src root)
    (hgood : ∀ x, Reach src root x → ∃ enc, storeGet src x = some enc ∧ hashCompute enc = x
      ∧ (objChildren enc false).1 = true)
    (hsame : ∀ x, Reach src root x → storeHave dev x = true → storeGet dev x = storeGet src x)
    (hput : ∀ x, put x = .ok) : PushSafe src dev root put := by
  have hall : (closureFront src root).all Hash.isSha256 = true := by
    rw [List.all_eq_true]
    intro x hx
    obtain ⟨enc, _, hhash, _⟩ := hgood x (reach_of_mem_front hx)
    rw [← hhash]
    rfl
  have hcontent : ∀ x, Reach src root x → content src dev root put x = storeGet src x := by
    intro x hx
    unfold content
    cases hdev : storeHave dev x with
    | true =>
      rw [if_pos rfl]
      exact hsame x hx hdev
    | false =>
      rw [if_neg Bool.false_ne_true]
      obtain ⟨enc, henc, hhash, hok⟩ := hgood x hx
      have hmem : x ∈ asked src dev root := by
        unfold asked
        rw [if_pos hall, List.mem_filter, hdev]
        exact ⟨hfront x hx, rfl⟩
      have hsent : delivers src put x x = true := by
        rw [delivers_iff]
        refine ⟨enc, henc, ⟨objKind_of_children hok, ?_⟩, hhash.symm⟩
        rw [hput]
        rfl
      cases hfind : (asked src dev root).find? (delivers src put x) with
      | none => exact absurd hsent (List.find?_eq_none.mp hfind x hmem)
      | some y =>
        have hy := List.mem_of_find?_eq_some hfind
        obtain ⟨enc', henc', _, hhash'⟩ := delivers_iff.mp (List.find?_some hfind)
        -- what goes to the file of `x` is stored as `x`
        have hreach : Reach src root y := by
          unfold asked at hy
          rw [if_pos hall, List.mem_filter] at hy
          exact reach_of_mem_front hy.1
        obtain ⟨enc'', henc'', hhash'', _⟩ := hgood y hreach
        rw [henc'] at henc''
        cases henc''
        have hsame' : y = x := hhash''.symm.trans hhash'.symm
        rw [Option.bind_some, hsame', henc, hput]
        rfl
  have hwithin : ∀ n h x, Reach src root h → Within src dev root put n h x → Reach src root x := by
    intro n
    induction n with
    | zero =>
      intro h x hh hx
      have heq : x = h := hx
      rw [heq]
      exact hh
    | succ n ih =>
      rintro h x hh (rfl | ⟨enc, y, henc, hy, hx⟩)
      . exact hh
      . rw [hcontent h hh] at henc
        exact ih y x (hh.tail ⟨enc, henc, hy⟩) hx
  constructor
  . intro x hx
    obtain ⟨enc, henc, hhash, _⟩ := hgood x hx
    exact .inr ⟨enc, (hcontent x hx).trans henc, hhash⟩
  . intro x hx
    have hreach := hwithin 16 root x Relation.ReflTransGen.refl hx
    obtain ⟨enc, henc, _, hok⟩ := hgood x hreach
    exact ⟨enc, (hcontent x hreach).trans henc, hok⟩

end Fits

section NotFound

theorem closureWalk_congr {s s' : Store} (h : s'.objects = s.objects) (n : Nat) (x : Hash)
    : closureWalk s' n true x = closureWalk s n true x := by
  have hhave : storeHave s' = storeHave s := by
    funext y
    apply storeHave_congr
    unfold objFile
    rw [h]
  induction n generalizing x with
  | zero => rfl
  | succ n ih =>
    rw [Bool.eq_iff_iff, closureWalk_succ, closureWalk_succ, hhave, storeGet_congr h]
    simp only [ih]

theorem refsetCheck_notFound {d : Device} {q : RefsetReq} {newh : Hash} {guards : List Guard}
    {msg : Bytes} (h : refsetCheck d q newh = (guards, .error (.notFound msg)))
    : closureComplete d.store newh = false := by
  unfold refsetCheck at h
  split at h
  . cases h
  . unfold refsetChecks at h
    split at h
    . cases h
    . split at h
      next hclosure =>
        rw [Bool.not_eq_true] at hclosure
        exact hclosure
      next =>
        split at h
        . cases h
        . split at h
          next rsp hgate =>
            cases h
            split at hgate
            . cases hgate
            . unfold engineGate at hgate
              split at hgate
              . cases hgate
              . split at hgate <;> cases hgate
          next => split at h <;> cases h

-- A complete closure is never answered `not-found`, whatever else the request asks for.
theorem refsetRespond_ne_notFound {d : Device} {body : Option Bytes} {io : RefsetIo} {newh : Hash}
    (hnewh : (refsetParse body).newh = some newh) (h : closureComplete d.store newh = true)
    (msg : Bytes) : (refsetRespond d body io).rsp ≠ .notFound msg := by
  have hexit := refsetRespond_exit d body io
  generalize refsetRespond d body io = out at hexit ⊢
  cases hexit with
  | malformed => simp
  | @refused newh' guards rsp hq hcheck =>
    rintro rfl
    have hclosure := refsetCheck_notFound hcheck
    have hsame := Option.some.inj (hnewh.symm.trans hq.1)
    subst hsame
    unfold closureComplete at h hclosure
    rw [closureWalk_congr refsetFlush_objects, h] at hclosure
    contradiction
  | stored => simp
  | failed => simp

end NotFound

section Scrap

def emptyStore : Store :=
  ⟨[7], [], .dir true []⟩

-- One byte that is no object, stored under its own hash.
def scrapStore : Store :=
  (storePut emptyStore [0] .ok).2

def goodIo : PushIo :=
  ⟨true, true, none, ⟨2 ^ 24, 0, []⟩, fun _ => true, fun _ => .ok⟩

theorem pushClosure_scrap
    : (pushClosure scrapStore emptyStore (hashCompute [0]) goodIo).1 = true
        ∧ storeHave (pushClosure scrapStore emptyStore (hashCompute [0]) goodIo).2 (hashCompute [0])
          = false := by
  decide +kernel

theorem not_pushComplete_scrap
    : ¬ ∀ src dev root io, (pushClosure src dev root io).1 = true → PushComplete src dev root io := by
  intro h
  have hhave := ((h scrapStore emptyStore (hashCompute [0]) goodIo pushClosure_scrap.1).held
    (hashCompute [0]) Relation.ReflTransGen.refl).1
  rw [pushClosure_scrap.2] at hhave
  contradiction

end Scrap

section Pair

def leafBytes : Bytes :=
  objEncodeBlob (ascii "a/b") []

def leafHash : Hash :=
  hashCompute leafBytes

def pairBytes : Bytes :=
  objEncodeList (ascii "a/b") [leafHash]

def pairHash : Hash :=
  hashCompute pairBytes

-- A list with one chunk, both stored under their hashes.
def pairStore : Store :=
  (storePut (storePut emptyStore leafBytes .ok).2 pairBytes .ok).2

def leafDigest : Hash :=
  ⟨[1, 234, 215, 208, 239, 127, 65, 153, 194, 251, 29, 149, 155, 157, 241, 66, 234, 124, 70, 143,
    218, 187, 122, 6, 99, 221, 96, 172, 219, 100, 226, 180, 66], rfl⟩

def pairDigest : Hash :=
  ⟨[1, 16, 104, 161, 186, 134, 227, 181, 8, 103, 163, 228, 26, 156, 116, 56, 158, 61, 193, 142, 137,
    235, 189, 185, 67, 218, 172, 198, 245, 179, 134, 174, 242], rfl⟩

def hashedLeaf : {h : Hash // leafHash = h} where
  val := leafDigest
  property := by
    apply hashCompute_of_nat
    . decide +kernel
    . decide +kernel

theorem leafHash_eq : leafHash = leafDigest :=
  hashedLeaf.2

theorem pairBytes_eq : pairBytes = objEncodeList (ascii "a/b") [leafDigest] := by
  unfold pairBytes
  rw [leafHash_eq]

def hashedPair : {h : Hash // pairHash = h} where
  val := pairDigest
  property := by
    unfold pairHash
    rw [pairBytes_eq]
    apply hashCompute_of_nat
    . decide +kernel
    . decide +kernel

theorem pairHash_eq : pairHash = pairDigest :=
  hashedPair.2

-- The same store, with no hash left in it to compute.
def namedPair : Store :=
  ⟨[7], [(hashHex pairDigest, ⟨true, some (objEncodeList (ascii "a/b") [leafDigest]), true⟩),
    (hashHex leafDigest, ⟨true, some leafBytes, true⟩)], .dir true []⟩

theorem pairStore_eq : pairStore = namedPair := by
  have hne : hashHex leafDigest ≠ hashHex pairDigest := by decide +kernel
  unfold pairStore
  rw [storePut_new leafHash_eq (by decide +kernel), storePut_new pairHash_eq (by decide +kernel),
    pairBytes_eq]
  unfold namedPair
  generalize hashHex leafDigest = leafName at hne ⊢
  generalize hashHex pairDigest = pairName at hne ⊢
  simp [emptyStore, eraseObj, hne]

theorem storeGet_pairStore
    : storeGet pairStore pairHash = some pairBytes ∧ storeGet pairStore leafHash = some leafBytes := by
  rw [pairBytes_eq, pairStore_eq, pairHash_eq, leafHash_eq]
  decide +kernel

theorem objChildren_pair
    : objChildren pairBytes false = (true, [leafHash]) ∧ objChildren leafBytes false = (true, []) := by
  rw [pairBytes_eq, leafHash_eq]
  decide +kernel

theorem storeChildren_pairStore
    : storeChildren pairStore pairHash = [leafHash] ∧ storeChildren pairStore leafHash = [] := by
  unfold storeChildren
  rw [storeGet_pairStore.1, storeGet_pairStore.2]
  dsimp only
  rw [objChildren_pair.1, objChildren_pair.2]
  exact ⟨rfl, rfl⟩

theorem reach_pairStore (x : Hash)
    : Reach pairStore pairHash x ↔ x = pairHash ∨ x = leafHash := by
  constructor
  . intro h
    induction h with
    | refl => exact .inl rfl
    | tail _ hchild ih =>
      rw [child_iff] at hchild
      rcases ih with rfl | rfl
      . rw [storeChildren_pairStore.1, List.mem_singleton] at hchild
        exact .inr hchild
      . rw [storeChildren_pairStore.2] at hchild
        apply absurd hchild
        apply List.not_mem_nil
  . rintro (rfl | rfl)
    . exact Relation.ReflTransGen.refl
    . apply Relation.ReflTransGen.single
      rw [child_iff, storeChildren_pairStore.1]
      exact List.mem_singleton_self _

theorem sound_pairStore {x : Hash} (hx : Reach pairStore pairHash x)
    : ∃ enc, storeGet pairStore x = some enc ∧ hashCompute enc = x
        ∧ (objChildren enc false).1 = true := by
  rw [reach_pairStore] at hx
  rcases hx with rfl | rfl
  . exact ⟨pairBytes, storeGet_pairStore.1, rfl, by rw [objChildren_pair.1]⟩
  . exact ⟨leafBytes, storeGet_pairStore.2, rfl, by rw [objChildren_pair.2]⟩

theorem closureFront_pairStore : closureFront pairStore pairHash = [pairHash, leafHash] := by
  rw [pairStore_eq, pairHash_eq, leafHash_eq]
  decide +kernel

theorem pushClosure_pair : (pushClosure pairStore emptyStore pairHash goodIo).1 = true := by
  rw [pairStore_eq, pairHash_eq]
  decide +kernel

theorem pushClosure_complete_pair : PushComplete pairStore emptyStore pairHash goodIo := by
  rw [pushClosure_complete_iff pushClosure_pair]
  apply pushSafe_of_fits
  . intro x hx
    rw [closureFront_pairStore]
    rw [reach_pairStore] at hx
    simpa using hx
  . exact fun x hx => sound_pairStore hx
  . intro x _ hhave
    cases hhave
  . exact fun x => rfl

end Pair

end Harp
