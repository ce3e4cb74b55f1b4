import Harp.Core.AnonymizeLaw

/-!
This module contains what the encoders of `core/src/cbor.c` write, as items, and how such items are
taken apart again.
-/

namespace Harp

section Written

-- Asks nothing of a head that the encoders do not see to.
def Usual (ok : Head → Prop) : Prop :=
  ∀ h : Head, (h.major = 5 → h.val < 2 ^ 63) → (h.major = 7 → h.ai ≠ 24) → ok h

theorem usual_true : Usual (fun _ => True) :=
  fun _ _ _ => trivial

theorem usual_sound : Usual Head.Sound := by
  intro h hmap hsimple
  refine ⟨hmap, ?_⟩
  intro hmajor hai
  exact absurd hai (hsimple hmajor)

variable {ok : Head → Prop}

theorem Usual.plain (hok : Usual ok) {major ai n : Nat} (hmajor : major < 5) : ok ⟨major, ai, n⟩ := by
  apply hok
  . dsimp only
    omega
  . dsimp only
    omega

theorem item_uint (hok : Usual ok) {v : Nat} (hv : v < 2 ^ 64) (levels : Nat)
    : Item ok (levels + 1) (cborUint v) := by
  rcases putHead_spells (show 0 < 8 by omega) hv with ⟨ai, hspells⟩
  exact .int hspells (hok.plain (by omega)) (.inl rfl)

theorem item_bytes (hok : Usual ok) {s : Bytes} (hs : s.length < 2 ^ 64) (levels : Nat)
    : Item ok (levels + 1) (cborBytes s) := by
  rcases putHead_spells (show 2 < 8 by omega) hs with ⟨ai, hspells⟩
  exact .string hspells (hok.plain (by omega)) (.inl rfl) rfl

theorem item_text (hok : Usual ok) {s : Bytes} (hs : s.length < 2 ^ 64) (levels : Nat)
    : Item ok (levels + 1) (cborText s) := by
  rcases putHead_spells (show 3 < 8 by omega) hs with ⟨ai, hspells⟩
  exact .string hspells (hok.plain (by omega)) (.inr rfl) rfl

theorem item_bool (hok : Usual ok) (v : Bool) (levels : Nat)
    : Item ok (levels + 1) (cborBool v) := by
  cases v with
  | false =>
    have hspells : Head.Spells ⟨7, 20, 20⟩ (cborBool false) :=
      ⟨[], rfl, by decide, .inl ⟨by decide, rfl, rfl⟩⟩
    exact .simple hspells (hok _ (by dsimp only; omega) (by dsimp only; omega)) rfl
  | true =>
    have hspells : Head.Spells ⟨7, 21, 21⟩ (cborBool true) :=
      ⟨[], rfl, by decide, .inl ⟨by decide, rfl, rfl⟩⟩
    exact .simple hspells (hok _ (by dsimp only; omega) (by dsimp only; omega)) rfl

theorem item_array (hok : Usual ok) {items : List Bytes} {levels : Nat} (hlen : items.length < 2 ^ 64)
    (hitems : ∀ x ∈ items, Item ok levels x)
    : Item ok (levels + 1) (cborArray items.length ++ items.flatten) := by
  rcases putHead_spells (show 4 < 8 by omega) hlen with ⟨ai, hspells⟩
  exact .array hspells (hok.plain (by omega)) rfl rfl hitems

-- The entries of a map, one behind the other.
def entryItems (kvs : List (Nat × Bytes)) : List Bytes :=
  kvs.flatMap fun kv => [cborUint kv.1, kv.2]

theorem length_entryItems (kvs : List (Nat × Bytes)) : (entryItems kvs).length = kvs.length * 2 := by
  unfold entryItems
  induction kvs with
  | nil => rfl
  | cons kv kvs ih =>
    simp only [List.flatMap_cons, List.length_append, List.length_cons, List.length_nil, ih]
    omega

theorem encFields_eq (kvs : List (Nat × Bytes))
    : encFields kvs = cborMap kvs.length ++ (entryItems kvs).flatten := by
  unfold encFields entryItems
  congr 1
  induction kvs with
  | nil => rfl
  | cons kv kvs ih =>
    rw [List.flatMap_cons, List.flatMap_cons, List.flatten_append, ih]
    simp

theorem mem_entryItems {kvs : List (Nat × Bytes)} {x : Bytes}
    : x ∈ entryItems kvs ↔ ∃ kv ∈ kvs, x = cborUint kv.1 ∨ x = kv.2 := by
  unfold entryItems
  rw [List.mem_flatMap]
  simp

theorem item_encFields (hok : Usual ok) {kvs : List (Nat × Bytes)} {levels : Nat}
    (hlen : kvs.length < 2 ^ 63) (hkeys : ∀ kv ∈ kvs, kv.1 < 2 ^ 64)
    (hvals : ∀ kv ∈ kvs, Item ok (levels + 1) kv.2) : Item ok (levels + 2) (encFields kvs) := by
  rcases putHead_spells (show 5 < 8 by omega) (show kvs.length < 2 ^ 64 by omega) with ⟨ai, hspells⟩
  rw [encFields_eq]
  apply Item.map hspells
  . apply hok
    . intro _
      exact hlen
    . dsimp only
      omega
  . rfl
  . rw [length_entryItems]
    dsimp only
    omega
  . intro x hx
    rcases mem_entryItems.mp hx with ⟨kv, hkv, rfl | rfl⟩
    . exact item_uint hok (hkeys kv hkv) levels
    . exact hvals kv hkv

end Written

section Apart

variable {ok ok' : Head → Prop}

theorem items_unique {items items' : List Bytes} {a b : Bytes} (hlen : items.length = items'.length)
    (h : ∀ x ∈ items, ∃ levels, Item ok levels x) (h' : ∀ x ∈ items', ∃ levels, Item ok' levels x)
    (heq : items.flatten ++ a = items'.flatten ++ b) : items = items' := by
  induction items generalizing items' with
  | nil =>
    symm
    rw [← List.length_eq_zero_iff, ← hlen]
    rfl
  | cons x items ih =>
    cases items' with
    | nil => cases hlen
    | cons x' items' =>
      rw [List.flatten_cons, List.flatten_cons, List.append_assoc, List.append_assoc] at heq
      rcases h x List.mem_cons_self with ⟨levels, hx⟩
      rcases h' x' List.mem_cons_self with ⟨levels', hx'⟩
      rcases item_unique hx hx' heq with ⟨rfl, hrest⟩
      have htail := ih (Nat.succ.inj hlen) (fun y hy => h y (List.mem_cons_of_mem _ hy))
        (fun y hy => h' y (List.mem_cons_of_mem _ hy)) hrest
      rw [htail]

-- The parts of a well-formed container are well formed, where they are items at all.
theorem wellFormed_of_array {items : List Bytes} (hlen : items.length < 2 ^ 64)
    (hitems : ∀ x ∈ items, ∃ levels, Item ok levels x)
    (h : WellFormed (cborArray items.length ++ items.flatten)) : ∀ x ∈ items, WellFormed x := by
  rcases putHead_spells (show 4 < 8 by omega) hlen with ⟨ai, hspells⟩
  rcases h.parts hspells (List.append_nil _).symm with ⟨_, _, hparts, _⟩
  rcases hparts rfl with ⟨items', hflat, hcount, hformed⟩
  have heq : items.flatten ++ [] = items'.flatten ++ [] := by
    rw [List.append_nil]
    exact hflat
  rw [items_unique hcount.symm hitems hformed heq]
  exact hformed

theorem wellFormed_of_encFields {kvs : List (Nat × Bytes)} (hlen : kvs.length < 2 ^ 63)
    (hkeys : ∀ kv ∈ kvs, kv.1 < 2 ^ 64) (hvals : ∀ kv ∈ kvs, ∃ levels, Item ok levels kv.2)
    (h : WellFormed (encFields kvs)) : ∀ kv ∈ kvs, WellFormed kv.2 := by
  rcases putHead_spells (show 5 < 8 by omega) (show kvs.length < 2 ^ 64 by omega) with ⟨ai, hspells⟩
  rw [encFields_eq] at h
  rcases h.parts hspells (List.append_nil _).symm with ⟨_, _, _, hparts⟩
  rcases hparts rfl with ⟨items', hflat, hcount, hformed⟩
  have heq : (entryItems kvs).flatten ++ [] = items'.flatten ++ [] := by
    rw [List.append_nil]
    exact hflat
  have hitems : ∀ x ∈ entryItems kvs, ∃ levels, Item (fun _ => True) levels x := by
    intro x hx
    rcases mem_entryItems.mp hx with ⟨kv, hkv, rfl | rfl⟩
    . exact ⟨1, item_uint usual_true (hkeys kv hkv) 0⟩
    . rcases hvals kv hkv with ⟨levels, hitem⟩
      exact ⟨levels, hitem.mono (fun _ _ => trivial)⟩
  have hlength : (entryItems kvs).length = items'.length := by
    rw [length_entryItems, hcount]
    dsimp only
    omega
  rw [← items_unique hlength hitems hformed heq] at hformed
  intro kv hkv
  exact hformed _ (mem_entryItems.mpr ⟨kv, hkv, .inr rfl⟩)

end Apart

end Harp
