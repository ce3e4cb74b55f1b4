import Harp.Core.Object
import Harp.Core.CborLemmas

/-!
This module contains what the walks over an object do with a callback: the decoder takes the same
way whatever the callback does, so a walk is a fold of the callback over the reported hashes.
-/

namespace Harp

section Reports

variable {σ ε : Type}

-- `v` decodes as the collecting callback `w` does and folds `step` over what `w` collects.
def Reports (v : Cdec → σ → Bool × Cdec × σ) (step : σ → ε → σ)
    (w : Cdec → List ε → Bool × Cdec × List ε) : Prop :=
  ∀ d s acc, ∃ b d' hs, w d acc = (b, d', acc ++ hs) ∧ v d s = (b, d', hs.foldl step s)

theorem Reports.readField {x : Dec α} {store : α → σ → σ} {step : σ → ε → σ}
    {store' : α → List ε → List ε}
    (h : ∀ a, ∃ hs, (∀ acc, store' a acc = acc ++ hs) ∧ ∀ s, store a s = hs.foldl step s)
    : Reports (readField x store) step (readField x store') := by
  intro d s acc
  unfold Harp.readField
  rcases x d with ⟨_ | a, d'⟩
  . exact ⟨false, d', [], by simp, by simp⟩
  . rcases h a with ⟨hs, hacc, hstep⟩
    exact ⟨true, d', hs, by simp [hacc], by simp [hstep]⟩

theorem Reports.skipField (step : σ → ε → σ) : Reports skipField step skipField := by
  apply Reports.readField
  intro a
  exact ⟨[], by simp, by simp⟩

theorem Reports.eachItem {count : Dec Nat} {x : Dec α} {f : σ → α → σ} {step : σ → ε → σ}
    {f' : List ε → α → List ε}
    (h : ∀ a, ∃ hs, (∀ acc, f' acc a = acc ++ hs) ∧ ∀ s, f s a = hs.foldl step s)
    : Reports (eachItem count x f) step (eachItem count x f') := by
  intro d s acc
  unfold Harp.eachItem
  rcases count d with ⟨_ | n, d⟩
  . exact ⟨false, d, [], by simp, by simp⟩
  . dsimp only
    induction n generalizing d s acc with
    | zero => exact ⟨true, d, [], by simp [Harp.eachItem.go], by simp [Harp.eachItem.go]⟩
    | succ n ih =>
      unfold Harp.eachItem.go
      rcases x d with ⟨_ | a, d'⟩
      . exact ⟨false, d', [], by simp, by simp⟩
      . rcases h a with ⟨hs, hacc, hstep⟩
        rcases ih (f s a) (f' acc a) d' with ⟨b, d'', hs', hw, hv⟩
        rw [hacc] at hw
        rw [hstep] at hv
        exact ⟨b, d'', hs ++ hs', by simp [hw, hacc], by simp [hv, hstep]⟩

theorem Reports.objFields {v : FieldCb σ} {step : σ → ε → σ} {w : FieldCb (List ε)}
    (h : ∀ key, Reports (v key) step (w key)) (enc : Bytes) (s : σ) (acc : List ε)
    : ∃ b hs, objFields enc w acc = (b, acc ++ hs) ∧ objFields enc v s = (b, hs.foldl step s) := by
  unfold Harp.objFields
  rcases cdecMap (Cdec.init enc) with ⟨_ | n, d⟩
  . exact ⟨false, [], by simp, by simp⟩
  . dsimp only
    induction n generalizing d s acc with
    | zero => exact ⟨!d.err, [], by simp [Harp.objFields.go], by simp [Harp.objFields.go]⟩
    | succ n ih =>
      unfold Harp.objFields.go
      rcases cdecUint d with ⟨_ | key, d'⟩
      . exact ⟨false, [], by simp, by simp⟩
      . rcases h key d' s acc with ⟨b, d'', hs, hw, hv⟩
        dsimp only
        rw [hw, hv]
        cases b with
        | false => exact ⟨false, hs, by simp, by simp⟩
        | true =>
          rcases ih (hs.foldl step s) (acc ++ hs) d'' with ⟨b, hs', hw', hv'⟩
          exact ⟨b, hs ++ hs', by simp [hw'], by simp [hv']⟩

-- How the callback's answers act on its state: a tree walk stops calling, the others do not.
def childStep (cb : HashCb σ) (ud : σ) (h : Hash) : σ :=
  (cb h ud).2

def treeStep (cb : HashCb σ) (it : TreeIter σ) (h : Hash) : TreeIter σ :=
  TreeIter.step (fun _ h _ ud => cb h ud) it ([], h, 0)

theorem Reports.childCb (kind : Nat) (includeParents : Bool) (cb : HashCb σ) (key : Nat)
    : Reports (childCb kind includeParents cb key) (childStep cb)
        (childCb kind includeParents (fun h hs => (true, hs ++ [h])) key) := by
  have hhashes : Reports (childHashes cb) (childStep cb)
      (childHashes (fun h (hs : List Hash) => (true, hs ++ [h]))) := by
    apply Reports.eachItem
    intro h
    exact ⟨[h], by simp, by simp [childStep]⟩
  intro d s acc
  unfold Harp.childCb
  split
  . apply hhashes
  . split
    . apply Reports.readField
      intro h
      exact ⟨[h], by simp, by simp [childStep]⟩
    . split
      . apply hhashes
      . apply Reports.skipField

def treeHashes : FieldCb (List Hash) := fun key d hs =>
  if key ≠ 1 then
    skipField d hs
  else
    eachItem cdecMap treeEntry (fun hs e => hs ++ [e.2.1]) d hs

theorem Reports.treeCb (cb : HashCb σ) (key : Nat)
    : Reports (treeCb (fun _ h _ ud => cb h ud) key) (treeStep cb) (treeHashes key) := by
  intro d s acc
  unfold Harp.treeCb treeHashes
  split
  . apply Reports.skipField
  . apply Reports.eachItem
    intro e
    exact ⟨[e.2.1], by simp, by simp [treeStep, TreeIter.step]⟩

theorem foldl_treeStep_collect (hs acc : List Hash)
    : hs.foldl (treeStep (fun h acc => (true, acc ++ [h]))) ⟨false, acc⟩ = ⟨false, acc ++ hs⟩ := by
  induction hs generalizing acc with
  | nil => simp
  | cons h hs ih =>
    have hstep : treeStep (fun h acc => (true, acc ++ [h])) ⟨false, acc⟩ h = ⟨false, acc ++ [h]⟩ := rfl
    rw [List.foldl_cons, hstep, ih]
    simp

theorem foldl_childStep_collect (hs acc : List Hash)
    : hs.foldl (childStep (fun h acc => (true, acc ++ [h]))) acc = acc ++ hs := by
  induction hs generalizing acc with
  | nil => simp
  | cons h hs ih =>
    rw [List.foldl_cons, ih]
    simp [childStep]

def foldChildren (kind : Option Nat) (cb : HashCb σ) (hs : List Hash) (ud : σ) : σ :=
  if kind = some objTree then
    (hs.foldl (treeStep cb) ⟨false, ud⟩).ud
  else
    hs.foldl (childStep cb) ud

theorem objForeachChild_eq (enc : Bytes) (includeParents : Bool) (cb : HashCb σ) (ud : σ)
    : objForeachChild enc includeParents cb ud
        = ((objChildren enc includeParents).1,
            foldChildren (objKind enc) cb (objChildren enc includeParents).2 ud) := by
  unfold objChildren objForeachChild
  rcases hk : objKind enc with _ | kind
  . simp [foldChildren]
  . dsimp only
    split
    next h =>
      simp [foldChildren, h, objBlob, objTree]
    next =>
      split
      next h =>
        subst h
        unfold objTreeForeach
        have hcb := Reports.objFields (Reports.treeCb cb) enc ⟨false, ud⟩ []
        have hcollect := Reports.objFields
          (Reports.treeCb (fun h (hs : List Hash) => (true, hs ++ [h]))) enc ⟨false, []⟩ []
        rcases hcb with ⟨b, hs, hw, hv⟩
        rcases hcollect with ⟨b', hs', hw', hv'⟩
        rw [hw] at hw'
        simp only [Prod.mk.injEq, List.nil_append] at hw'
        rcases hw' with ⟨rfl, rfl⟩
        simp only [hk, hv, hv', foldl_treeStep_collect, foldChildren]
        simp
      next h =>
        have hcb := Reports.objFields (Reports.childCb kind includeParents cb) enc ud []
        have hcollect := Reports.objFields (Reports.childCb kind includeParents
          (fun h (hs : List Hash) => (true, hs ++ [h]))) enc [] []
        rcases hcb with ⟨b, hs, hw, hv⟩
        rcases hcollect with ⟨b', hs', hw', hv'⟩
        rw [hw] at hw'
        simp only [Prod.mk.injEq, List.nil_append] at hw'
        rcases hw' with ⟨rfl, rfl⟩
        simp [hv, hv', foldl_childStep_collect, foldChildren, h]

end Reports

section Prolongs

variable {σ : Type} {R : σ → σ → Prop}

-- With more bytes behind them `v` goes on from where it was: what it has stored by then is below, in
-- `R`, what it stores in the end.
structure Prolongs (R : σ → σ → Prop) (v : Cdec → σ → Bool × Cdec × σ) : Prop where
  grows : ∀ d s, R s (v d s).2.2
  goes : ∀ p q err s d' s', v ⟨p, err⟩ s = (true, d', s') →
    v ⟨p ++ q, err⟩ s = (true, ⟨d'.p ++ q, d'.err⟩, s')
  cut : ∀ p q err s d' s', v ⟨p, err⟩ s = (false, d', s') → R s' (v ⟨p ++ q, err⟩ s).2.2

theorem Prolongs.readField {x : Dec α} {store : α → σ → σ} (hx : Dec.Extends x) (hrefl : ∀ s, R s s)
    (hstore : ∀ a s, R s (store a s)) : Prolongs R (readField x store) := by
  have hgrows : ∀ d s, R s (Harp.readField x store d s).2.2 := by
    intro d s
    unfold Harp.readField
    rcases x d with ⟨_ | a, d'⟩
    . exact hrefl s
    . exact hstore a s
  refine ⟨hgrows, ?_, ?_⟩
  . intro p q err s d' s' h
    unfold Harp.readField at h ⊢
    rcases hread : x ⟨p, err⟩ with ⟨_ | a, d₁⟩
    . rw [hread] at h
      cases h
    . rw [hread] at h
      rw [hx p q err a d₁ hread]
      cases h
      rfl
  . intro p q err s d' s' h
    have hs : s' = s := by
      unfold Harp.readField at h
      rcases hread : x ⟨p, err⟩ with ⟨_ | a, d₁⟩
      . rw [hread] at h
        cases h
        rfl
      . rw [hread] at h
        cases h
    rw [hs]
    exact hgrows _ _

theorem Prolongs.skipField (hrefl : ∀ s, R s s) : Prolongs R skipField :=
  Prolongs.readField (skipItem_extends 33) hrefl (fun _ s => hrefl s)

theorem Prolongs.eachItem {count : Dec Nat} {x : Dec α} {f : σ → α → σ} (hcount : Dec.Extends count)
    (hx : Dec.Extends x) (hrefl : ∀ s, R s s) (htrans : ∀ s t u, R s t → R t u → R s u)
    (hf : ∀ s a, R s (f s a)) : Prolongs R (eachItem count x f) := by
  have hgo : ∀ n d s, R s (Harp.eachItem.go x f n d s).2.2 := by
    intro n
    induction n with
    | zero => exact fun _ s => hrefl s
    | succ n ih =>
      intro d s
      unfold Harp.eachItem.go
      rcases x d with ⟨_ | a, d'⟩
      . exact hrefl s
      . exact htrans s _ _ (hf s a) (ih d' (f s a))
  have hgrows : ∀ d s, R s (Harp.eachItem count x f d s).2.2 := by
    intro d s
    unfold Harp.eachItem
    rcases count d with ⟨_ | n, d'⟩
    . exact hrefl s
    . exact hgo n d' s
  refine ⟨hgrows, ?_, ?_⟩
  . intro p q err s d' s' h
    unfold Harp.eachItem at h ⊢
    rcases hread : count ⟨p, err⟩ with ⟨_ | n, d₁⟩
    . rw [hread] at h
      cases h
    . rw [hread] at h
      rw [hcount p q err n d₁ hread]
      dsimp only at h ⊢
      clear hread
      induction n generalizing d₁ s with
      | zero =>
        cases h
        rfl
      | succ n ih =>
        unfold Harp.eachItem.go at h ⊢
        rcases hitem : x d₁ with ⟨_ | a, d₂⟩
        . rw [hitem] at h
          cases h
        . rw [hitem] at h
          rw [hx d₁.p q d₁.err a d₂ hitem]
          exact ih (f s a) d₂ h
  . intro p q err s d' s' h
    unfold Harp.eachItem at h
    rcases hread : count ⟨p, err⟩ with ⟨_ | n, d₁⟩
    . rw [hread] at h
      cases h
      exact hgrows _ _
    . rw [hread] at h
      unfold Harp.eachItem
      rw [hcount p q err n d₁ hread]
      dsimp only at h ⊢
      clear hread
      induction n generalizing d₁ s with
      | zero => cases h
      | succ n ih =>
        unfold Harp.eachItem.go at h
        rcases hitem : x d₁ with ⟨_ | a, d₂⟩
        . rw [hitem] at h
          cases h
          exact hgo (n + 1) _ _
        . rw [hitem] at h
          unfold Harp.eachItem.go
          rw [hx d₁.p q d₁.err a d₂ hitem]
          exact ih (f s a) d₂ h

theorem Prolongs.objFields {v : FieldCb σ} (h : ∀ key, Prolongs R (v key)) (hrefl : ∀ s, R s s)
    (htrans : ∀ s t u, R s t → R t u → R s u) (enc q : Bytes) (s : σ)
    : ((objFields enc v s).1 = true → objFields (enc ++ q) v s = objFields enc v s)
        ∧ R (objFields enc v s).2 (objFields (enc ++ q) v s).2 := by
  have hgo : ∀ n d s, R s (Harp.objFields.go v n d s).2 := by
    intro n
    induction n with
    | zero => exact fun _ s => hrefl s
    | succ n ih =>
      intro d s
      unfold Harp.objFields.go
      rcases cdecUint d with ⟨_ | key, d'⟩
      . exact hrefl s
      . have hkey := (h key).grows d' s
        dsimp only
        rcases hv : v key d' s with ⟨_ | _, d'', s'⟩
        . rw [hv] at hkey
          exact hkey
        . rw [hv] at hkey
          exact htrans s _ _ hkey (ih d'' s')
  unfold Harp.objFields Cdec.init
  rcases hread : cdecMap ⟨enc, false⟩ with ⟨_ | n, d⟩
  . refine ⟨fun hfalse => (by cases hfalse), ?_⟩
    rcases cdecMap ⟨enc ++ q, false⟩ with ⟨_ | n, d'⟩
    . exact hrefl s
    . exact hgo n d' s
  . have hlong : cdecMap ⟨enc ++ q, false⟩ = (some n, ⟨d.p ++ q, d.err⟩) :=
      readCount_extends 5 enc q false n d hread
    rw [hlong]
    dsimp only
    clear hread hlong
    induction n generalizing d s with
    | zero => exact ⟨fun _ => rfl, hrefl s⟩
    | succ n ih =>
      unfold Harp.objFields.go
      rcases hkey : cdecUint d with ⟨_ | key, d'⟩
      . refine ⟨fun hfalse => (by cases hfalse), ?_⟩
        exact hgo (n + 1) ⟨d.p ++ q, d.err⟩ s
      . rw [cdecUint_extends d.p q d.err key d' hkey]
        dsimp only
        rcases hv : v key d' s with ⟨_ | _, d'', s'⟩
        . have hcut := (h key).cut d'.p q d'.err s d'' s' hv
          refine ⟨fun hfalse => (by cases hfalse), ?_⟩
          rcases hlong : v key ⟨d'.p ++ q, d'.err⟩ s with ⟨_ | _, d₂, s₂⟩
          . rw [hlong] at hcut
            exact hcut
          . rw [hlong] at hcut
            exact htrans s' _ _ hcut (hgo n d₂ s₂)
        . rw [(h key).goes d'.p q d'.err s d'' s' hv]
          exact ih s' d''

end Prolongs

section Cut

theorem hashRead_extends : Dec.Extends hashRead := by
  refine Dec.Extends.bind (readString_extends 2) fun b => ?_
  split
  . exact .ite .fail (.pure _)
  . exact .fail

theorem treeEntry_extends : Dec.Extends treeEntry := by
  refine .bind (readString_extends 3) fun name => ?_
  refine .bind (readCount_extends 4) fun alen => .ite .fail ?_
  exact .bind hashRead_extends fun h => .bind cdecUint_extends fun kind => .pure _

-- An object that is read to its end has the same kind with more bytes behind it.
theorem objKind_append {enc : Bytes} {kind : Nat} (q : Bytes) (h : objKind enc = some kind)
    : objKind (enc ++ q) = some kind := by
  have hkind : ∀ key, Prolongs (fun _ _ => True) (kindCb key) := by
    intro key
    have hread : Dec.Extends (do let k ← cdecUint; if k > 3 then Dec.fail else return k : Dec Nat) :=
      .bind cdecUint_extends fun k => .ite .fail (.pure _)
    unfold kindCb
    split
    . exact Prolongs.readField hread (fun _ => trivial) (fun _ _ => trivial)
    . exact Prolongs.skipField (fun _ => trivial)
  have hfields := Prolongs.objFields hkind (fun _ => trivial) (fun _ _ _ _ _ => trivial) enc q none
  unfold objKind at h ⊢
  rcases hwalk : objFields enc kindCb none with ⟨_ | _, k⟩
  . rw [hwalk] at h
    cases h
  . rw [hfields.1 (by rw [hwalk]), hwalk]
    rw [hwalk] at h
    exact h

-- The front part of an object reports the first of its children.
theorem objChildren_append (enc q : Bytes)
    : (objChildren enc false).2 <+: (objChildren (enc ++ q) false).2 := by
  have hrefl : ∀ hs : List Hash, hs <+: hs := List.prefix_refl
  have htrans : ∀ s t u : List Hash, s <+: t → t <+: u → s <+: u := fun _ _ _ => List.IsPrefix.trans
  cases hk : objKind enc with
  | none =>
    have hnil : (objChildren enc false).2 = [] := by
      unfold objChildren objForeachChild
      rw [hk]
    rw [hnil]
    exact List.nil_prefix
  | some kind =>
    unfold objChildren objForeachChild
    rw [hk, objKind_append q hk]
    dsimp only
    split
    . exact List.prefix_refl []
    split
    next htree =>
      subst htree
      have hstep : ∀ key, Prolongs (fun it it' : TreeIter (List Hash) => it.ud <+: it'.ud)
          (treeCb (fun _ h _ hs => (true, hs ++ [h])) key) := by
        intro key
        unfold treeCb
        split
        . exact Prolongs.skipField (fun it => hrefl it.ud)
        . refine Prolongs.eachItem (readCount_extends 5) treeEntry_extends (fun it => hrefl it.ud)
            (fun _ _ _ => List.IsPrefix.trans) fun it e => ?_
          unfold TreeIter.step
          split
          . exact hrefl it.ud
          . exact List.prefix_append it.ud _
      have hfields := Prolongs.objFields hstep (fun it => hrefl it.ud)
        (fun _ _ _ => List.IsPrefix.trans) enc q ⟨false, []⟩
      unfold objTreeForeach
      rw [if_neg (by rw [hk]; simp), if_neg (by rw [objKind_append q hk]; simp)]
      exact hfields.2
    next =>
      have hhashes : Prolongs (fun hs hs' : List Hash => hs <+: hs')
          (childHashes (fun h hs => (true, hs ++ [h]))) :=
        Prolongs.eachItem (readCount_extends 4) hashRead_extends hrefl htrans
          (fun hs h => List.prefix_append hs [h])
      have hstep : ∀ key, Prolongs (fun hs hs' : List Hash => hs <+: hs')
          (childCb kind false (fun h hs => (true, hs ++ [h])) key) := by
        intro key
        unfold childCb
        split
        . exact hhashes
        split
        . exact Prolongs.readField hashRead_extends hrefl (fun h hs => List.prefix_append hs [h])
        split
        . exact hhashes
        . exact Prolongs.skipField hrefl
      exact (Prolongs.objFields hstep hrefl htrans enc q []).2

end Cut

end Harp
