import Harp.Core.GcLemmas
import Harp.Device.State

/-!
This module contains the closure check of a refset: how far it looks, and how it agrees with the
marking of the garbage collector.
-/

namespace Harp

section Walk

variable (s : Store)

theorem closureWalk_false (n : Nat) (h : Hash) : closureWalk s n false h = false := by
  cases n <;> rfl

def closureVisit (n : Nat) : HashCb Bool := fun h complete =>
  (closureWalk s n complete h, closureWalk s n complete h)

theorem foldl_closureVisit (n : Nat) (hs : List Hash) (complete : Bool)
    : hs.foldl (childStep (closureVisit s n)) complete = true
        ↔ complete = true ∧ ∀ y ∈ hs, closureWalk s n true y = true := by
  induction hs generalizing complete with
  | nil => simp
  | cons y hs ih =>
    have hstep : childStep (closureVisit s n) complete y = closureWalk s n complete y := rfl
    rw [List.foldl_cons, hstep, ih]
    cases complete with
    | true => simp
    | false => simp [closureWalk_false]

-- The tree walk stops calling once a child is incomplete; the answer is the same.
theorem foldl_treeStep_closureVisit (n : Nat) (hs : List Hash) (complete : Bool)
    : (hs.foldl (treeStep (closureVisit s n)) ⟨!complete, complete⟩).ud
        = hs.foldl (childStep (closureVisit s n)) complete := by
  induction hs generalizing complete with
  | nil => rfl
  | cons y hs ih =>
    have hstep : treeStep (closureVisit s n) ⟨!complete, complete⟩ y
        = ⟨!(childStep (closureVisit s n) complete y), childStep (closureVisit s n) complete y⟩ := by
      unfold treeStep TreeIter.step childStep closureVisit
      cases complete with
      | true => rfl
      | false => simp [closureWalk_false]
    rw [List.foldl_cons, List.foldl_cons, hstep, ih]

theorem foldChildren_closureVisit (n : Nat) (kind : Option Nat) (hs : List Hash)
    : foldChildren kind (closureVisit s n) hs true = true
        ↔ ∀ y ∈ hs, closureWalk s n true y = true := by
  unfold foldChildren
  split
  . have htree := foldl_treeStep_closureVisit s n hs true
    rw [Bool.not_true] at htree
    rw [htree, foldl_closureVisit]
    simp
  . rw [foldl_closureVisit]
    simp

theorem closureWalk_succ (n : Nat) (h : Hash)
    : closureWalk s (n + 1) true h = true
        ↔ storeHave s h = true ∧ ∃ enc, storeGet s h = some enc ∧ (objChildren enc false).1 = true
          ∧ ∀ y ∈ (objChildren enc false).2, closureWalk s n true y = true := by
  rw [closureWalk]
  simp only [not_true_eq_false, if_false]
  cases hhave : storeHave s h with
  | false => simp
  | true =>
    cases hget : storeGet s h with
    | none => simp
    | some enc =>
      have hfold := foldChildren_closureVisit s n (objKind enc) (objChildren enc false).2
      unfold closureVisit at hfold
      simp only [not_true_eq_false, if_false, objForeachChild_eq, Bool.and_eq_true, hfold]
      simp

-- `x` is at most `n` child edges below `h`.
def Below (n : Nat) (h x : Hash) : Prop :=
  match n with
  | 0 => x = h
  | n + 1 => x = h ∨ ∃ y, Child s h y ∧ Below n y x

variable {s}

theorem Below.self (n : Nat) (h : Hash) : Below s n h h := by
  cases n with
  | zero => rfl
  | succ n => exact .inl rfl

-- What an object that can be opened and walked through has.
def Walks (s : Store) (h : Hash) : Prop :=
  storeHave s h = true ∧ ¬ BadObj s h

theorem walks_iff {h : Hash}
    : Walks s h ↔ storeHave s h = true ∧ ∃ enc, storeGet s h = some enc
        ∧ (objChildren enc false).1 = true := by
  unfold Walks BadObj
  simp only [not_forall, Bool.not_eq_false, exists_prop]

theorem closureWalk_iff (n : Nat) (h : Hash)
    : closureWalk s (n + 1) true h = true ↔ ∀ x, Below s n h x → Walks s x := by
  induction n generalizing h with
  | zero =>
    rw [closureWalk_succ]
    constructor
    . rintro ⟨hhave, enc, hget, hok, _⟩ x hx
      have heq : x = h := hx
      rw [heq, walks_iff]
      exact ⟨hhave, enc, hget, hok⟩
    . intro hall
      rcases walks_iff.mp (hall h rfl) with ⟨hhave, enc, hget, hok⟩
      refine ⟨hhave, enc, hget, hok, ?_⟩
      intro y _
      rfl
  | succ n ih =>
    rw [closureWalk_succ]
    constructor
    . rintro ⟨hhave, enc, hget, hok, hchildren⟩ x hx
      rcases hx with rfl | ⟨y, ⟨enc', henc', hy⟩, hx⟩
      . rw [walks_iff]
        exact ⟨hhave, enc, hget, hok⟩
      . rw [hget] at henc'
        cases henc'
        exact (ih y).mp (hchildren y hy) x hx
    . intro hall
      rcases walks_iff.mp (hall h (Below.self (n + 1) h)) with ⟨hhave, enc, hget, hok⟩
      refine ⟨hhave, enc, hget, hok, ?_⟩
      intro y hy
      rw [ih]
      intro x hx
      exact hall x (.inr ⟨y, ⟨enc, hget, hy⟩, hx⟩)

theorem closureComplete_iff (h : Hash)
    : closureComplete s h = true ↔ ∀ x, Below s 16 h x → Walks s x :=
  closureWalk_iff 16 h

end Walk

section Agreement

-- A collection whose other roots have whole closures does not abort because of a ref on `h`.
def GcPasses (s : Store) (h : Hash) : Prop :=
  ∀ refs maxSweep,
    (∀ r h', Visits { s with refs } r → r.hash = some h' →
      h' = h ∨ ∀ x, Reach s h' x → ¬ BadObj s x) →
    ∃ out, storeGc { s with refs } maxSweep = some out ∧ out.ret = 0

def ClosureAgrees (s : Store) (h : Hash) : Prop :=
  (closureComplete s h = true → (∀ x, Reach s h x → ¬ BadObj s x) ∧ GcPasses s h)
    ∧ ((∃ x, Reach s h x ∧ BadObj s x) → closureComplete s h = false)

theorem gcPasses_of_whole {s : Store} {h : Hash} (hwhole : ∀ x, Reach s h x → ¬ BadObj s x)
    : GcPasses s h := by
  intro refs maxSweep hroots
  have hgood : ¬ ∃ x, Live { s with refs } x ∧ BadObj { s with refs } x := by
    rintro ⟨x, ⟨r, h', hvisits, hhash, hreach⟩, hbad⟩
    rcases hroots r h' hvisits hhash with rfl | hother
    . exact hwhole x hreach hbad
    . exact hother x hreach hbad
  rcases storeGc_of_good { s with refs } maxSweep hgood with ⟨out, hout, hret, _⟩
  exact ⟨out, hout, hret⟩

-- The check looks 16 edges deep and takes what is below for whole.
theorem closureAgrees_iff (s : Store) (h : Hash)
    : ClosureAgrees s h
        ↔ ((∀ x, Below s 16 h x → Walks s x) → ∀ x, Reach s h x → ¬ BadObj s x) := by
  unfold ClosureAgrees
  rw [← closureComplete_iff]
  constructor
  . intro hagrees hcomplete
    exact (hagrees.1 hcomplete).1
  . intro hdeep
    constructor
    . intro hcomplete
      exact ⟨hdeep hcomplete, gcPasses_of_whole (hdeep hcomplete)⟩
    . rintro ⟨x, hreach, hbad⟩
      rw [← Bool.not_eq_true]
      intro hcomplete
      exact hdeep hcomplete x hreach hbad

-- Seventeen list objects, each with the next as its only chunk, and an empty blob.
def chainHashes : List Nat :=
  [
    0x0183837105bc8d4fefea8d162463035718a1356c8ed7ea2c9e410d532b79dea2b0,
    0x0111aa0772855167a8b092b2b8e989415da07f9396e9a6de77624ec7a3ad9972c6,
    0x01361cbb3e0b692e8ae65fa50963aa7c690ee4def8721a820ccb35460705c47675,
    0x014a3e5806173b6243af7c79174f3adee42ee5cb4bef1d575d1897cadff0039be9,
    0x01642585750516142b42d498f1d93f2c4fd7eef8b89279653554992e47b7296669,
    0x01ce5732a52976198fcb11a547337f0f7906f5e61eacb9e378b8ba4098f5322eca,
    0x0143e180492846b670771fcfeee58341f639f84f5e77cc61afd11aa9884b89fbf6,
    0x018ab0bd4a7a24c0d01a85cc428807c3b0c584cd3b27163d1b6e6f2080429bb75d,
    0x01b415d08a98ec9524057ba9b4fbb2ec70bf677875da5391efac42a5155eee1a50,
    0x0162a3a71d0e94c3e94b046f607a2359bbcca348bb45079c31c1d0cfe03af5556c,
    0x013739ae07a1d9e759243cf587b9fee2e2f0300ef74de195be20e490a2209ac7b1,
    0x019ff8a1c20f417501b1440449fe65de538bbdca7538cf8b028ca77fdc753c0258,
    0x016b5ab39d47c59223abec706891e387f4dac4f8b2f1797580a98dbd49e9375924,
    0x014492ac6d490ef4f4b9ce17f124d19fbd55944b63b7a6488761649055b9e6bee2,
    0x014ef88d5c869ee18fc548e6fe8d7ac1f66ba54eb93fd2e5469cc0804e284d3ca8,
    0x010561a636ac505138cb9b73f5ba466a31ba22a339d4dc77cefef89a1247062165,
    0x011068a1ba86e3b50867a3e41a9c74389e3dc18e89ebbdb943daacc6f5b386aef2,
    0x01ead7d0ef7f4199c2fb1d959b9df142ea7c468fdabb7a0663dd60acdb64e2b442]

def chainHash (i : Nat) : Hash :=
  ⟨beBytes (chainHashes.getD i 0) 33, length_beBytes _ _⟩

def chainList (i : Nat) : Bytes × ObjFile :=
  (hashHex (chainHash i), ⟨true, some (objEncodeList (ascii "a/b") [chainHash (i + 1)]), true⟩)

-- The blob at the end of the chain is missing.
def chainStore : Store :=
  ⟨[7], (List.range 17).map chainList, .dir true []⟩

theorem child_chainStore (i : Fin 17) : Child chainStore (chainHash i) (chainHash (i + 1)) := by
  refine ⟨objEncodeList (ascii "a/b") [chainHash (i + 1)], ?_, ?_⟩
  . revert i
    decide +kernel
  . revert i
    decide +kernel

theorem reach_chainStore (i : Nat) (h : i ≤ 17) : Reach chainStore (chainHash 0) (chainHash i) := by
  induction i with
  | zero => apply Relation.ReflTransGen.refl
  | succ i ih =>
    apply Relation.ReflTransGen.tail (ih (by omega))
    exact child_chainStore ⟨i, by omega⟩

theorem not_closureAgrees_chainStore : ¬ ClosureAgrees chainStore (chainHash 0) := by
  intro hagrees
  have hcomplete : closureComplete chainStore (chainHash 0) = true := by decide +kernel
  have hmissing : storeGet chainStore (chainHash 17) = none := by decide +kernel
  apply (hagrees.1 hcomplete).1 (chainHash 17) (reach_chainStore 17 (by omega))
  intro enc henc
  rw [hmissing] at henc
  cases henc

end Agreement

end Harp
