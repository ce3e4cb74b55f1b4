import Harp.Core.ObjectLemmas
import Harp.Core.CborItem

/-!
This module contains the top-level map of an object as a list of fields, what the parsers of
`core/src/object.c` read from it, and where they agree with each other.

A field is its key and the decoder at its value. Every callback takes a value as a whole or fails,
so they all come past the same fields.
-/

namespace Harp

-- Where `x` succeeds it takes a value as `harp_cdec_skip` does.
def Dec.Spans (x : Dec α) : Prop :=
  ∀ d a d', x d = (some a, d') → cdecSkip d = (some (), d')

-- Where `x` succeeds it takes an item that has no others in it.
def Dec.TakesAtom (x : Dec α) : Prop :=
  ∀ d a d', x d = (some a, d') →
    ∃ s, d.p = s ++ d'.p ∧ (∀ levels, Item (fun _ => True) (levels + 1) s)
      ∧ d.err = false ∧ d'.err = false

section Spans

theorem cdecSkip_of_read {d d' : Cdec} {x : Bytes} (hp : d.p = x ++ d'.p)
    (hitem : Item (fun _ => True) 33 x) (herr : d.err = false) (herr' : d'.err = false)
    : cdecSkip d = (some (), d') := by
  rcases d with ⟨p, err⟩
  rcases d' with ⟨p', err'⟩
  dsimp only at hp herr herr'
  subst hp herr herr'
  apply cdecSkip_of_item hitem

theorem Dec.TakesAtom.spans {x : Dec α} (h : Dec.TakesAtom x) : Dec.Spans x := by
  intro d a d' hx
  rcases h d a d' hx with ⟨s, hp, hitem, herr, herr'⟩
  exact cdecSkip_of_read hp (hitem 32) herr herr'

theorem cdecUint_takesAtom : Dec.TakesAtom cdecUint := by
  intro d a d' h
  unfold cdecUint at h
  rw [Dec.bind_eq] at h
  rcases Dec.bind_inv h with ⟨hd, d₁, hread, hbody⟩
  rcases readHead_inv hread with ⟨hb, hp, hspells, herr, herr₁⟩
  split at hbody
  . cases hbody
  next hmajor =>
    cases hbody
    exact ⟨hb, hp, fun _ => .int hspells trivial (.inl (not_not.mp hmajor)), herr, herr₁⟩

theorem readString_takesAtom {major : Nat} (hmajor : major = 2 ∨ major = 3)
    : Dec.TakesAtom (readString major) := by
  intro d a d' h
  unfold readString at h
  rw [Dec.bind_eq] at h
  rcases Dec.bind_inv h with ⟨hd, d₁, hread, hbody⟩
  rcases readHead_inv hread with ⟨hb, hp, hspells, herr, herr₁⟩
  split at hbody
  . cases hbody
  next hcond =>
    rw [not_or, not_not, Nat.not_lt] at hcond
    cases hbody
    refine ⟨hb ++ d₁.p.take hd.val, ?_, ?_, herr, herr₁⟩
    . rw [hp, List.append_assoc, List.take_append_drop]
    . intro levels
      apply Item.string hspells trivial
      . rw [hcond.1]
        exact hmajor
      . rw [List.length_take]
        omega

theorem hashRead_takesAtom : Dec.TakesAtom hashRead := by
  intro d a d' h
  unfold hashRead at h
  rw [Dec.bind_eq] at h
  rcases Dec.bind_inv h with ⟨p, d₁, hread, hbody⟩
  split at hbody
  . split at hbody
    . cases hbody
    . cases hbody
      exact readString_takesAtom (.inl rfl) d p _ hread
  . cases hbody

theorem cdecUint_spans : Dec.Spans cdecUint :=
  cdecUint_takesAtom.spans

theorem cdecText_spans : Dec.Spans cdecText :=
  (readString_takesAtom (.inr rfl)).spans

theorem cdecBytes_spans : Dec.Spans cdecBytes :=
  (readString_takesAtom (.inl rfl)).spans

theorem hashRead_spans : Dec.Spans hashRead :=
  hashRead_takesAtom.spans

theorem eachItem_go_takes {x : Dec α} (hx : Dec.TakesAtom x) {f : σ → α → σ} (n : Nat)
    {d d' : Cdec} {s s' : σ} (herr : d.err = false) (h : eachItem.go x f n d s = (true, d', s'))
    : ∃ items : List Bytes, items.length = n ∧ d.p = items.flatten ++ d'.p
        ∧ (∀ y ∈ items, Item (fun _ => True) 32 y) ∧ d'.err = false := by
  induction n generalizing d s with
  | zero =>
    cases h
    exact ⟨[], rfl, rfl, by simp, herr⟩
  | succ n ih =>
    unfold eachItem.go at h
    rcases hxd : x d with ⟨_ | a, d₁⟩
    . rw [hxd] at h
      cases h
    . rw [hxd] at h
      rcases hx d a d₁ hxd with ⟨y, hy, hitem, _, herr₁⟩
      rcases ih herr₁ h with ⟨items, hlen, hp, hitems, herr'⟩
      refine ⟨y :: items, by rw [List.length_cons, hlen], ?_, ?_, herr'⟩
      . rw [hy, hp, List.flatten_cons, List.append_assoc]
      . intro z hz
        rw [List.mem_cons] at hz
        rcases hz with rfl | hz
        . exact hitem 31
        . exact hitems z hz

theorem childHashes_spans {cb : HashCb σ} {d d' : Cdec} {s s' : σ}
    (h : childHashes cb d s = (true, d', s')) : cdecSkip d = (some (), d') := by
  unfold childHashes eachItem at h
  rcases hcount : cdecArray d with ⟨_ | n, d₁⟩
  . rw [hcount] at h
    cases h
  . rw [hcount] at h
    rcases readCount_inv hcount with ⟨hd, hb, hp, hspells, hmajor, hval, _, herr, herr₁⟩
    rcases eachItem_go_takes hashRead_takesAtom n herr₁ h with ⟨items, hlen, hp₁, hitems, herr'⟩
    apply cdecSkip_of_read (x := hb ++ items.flatten) _ _ herr herr'
    . rw [hp, hp₁, List.append_assoc]
    . exact .array hspells trivial hmajor (hlen.trans hval.symm) hitems

end Spans

abbrev Fields := List (Nat × Cdec)

def fieldCb : FieldCb Fields := fun key d fs =>
  readField cdecSkip (fun _ fs => fs ++ [(key, d)]) d fs

-- The fields of the top-level map, if it can be walked over at all.
def objMap (enc : Bytes) : Option Fields :=
  match objFields enc fieldCb [] with
  | (true, fs) => some fs
  | (false, _) => none

def readFields (v : FieldCb σ) : Fields → σ → Option σ
  | [], s => some s
  | f :: fs, s =>
    match v f.1 f.2 s with
    | (true, _, s) => readFields v fs s
    | (false, _, _) => none

def FieldCb.Spans (v : FieldCb σ) : Prop :=
  ∀ key d s d' s', v key d s = (true, d', s') → cdecSkip d = (some (), d')

section Walk

variable {v : FieldCb σ}

theorem readField_spans {x : Dec α} (hx : Dec.Spans x) {store : α → σ → σ} {d d' : Cdec} {s s' : σ}
    (h : readField x store d s = (true, d', s')) : cdecSkip d = (some (), d') := by
  unfold readField at h
  rcases hxd : x d with ⟨_ | a, d₁⟩
  . rw [hxd] at h
    cases h
  . rw [hxd] at h
    cases h
    exact hx d a _ hxd

theorem skipField_spans {d d' : Cdec} {s s' : σ} (h : skipField d s = (true, d', s'))
    : cdecSkip d = (some (), d') := by
  apply readField_spans _ h
  intro d a d' hskip
  exact hskip

theorem fieldCb_of_skip {key : Nat} {d d' : Cdec} (h : cdecSkip d = (some (), d')) (fs : Fields)
    : fieldCb key d fs = (true, d', fs ++ [(key, d)]) := by
  unfold fieldCb readField
  rw [h]

theorem fieldCb_go (n : Nat) (d : Cdec)
    : ∃ b fs, ∀ acc, objFields.go fieldCb n d acc = (b, acc ++ fs) := by
  induction n generalizing d with
  | zero => exact ⟨!d.err, [], fun acc => by simp [objFields.go]⟩
  | succ n ih =>
    unfold objFields.go
    rcases cdecUint d with ⟨_ | key, d₁⟩
    . exact ⟨false, [], fun acc => by simp⟩
    . dsimp only
      rcases hskip : cdecSkip d₁ with ⟨_ | u, d₂⟩
      . refine ⟨false, [], fun acc => ?_⟩
        unfold fieldCb readField
        rw [hskip]
        simp
      . rcases ih d₂ with ⟨b, fs, hgo⟩
        refine ⟨b, (key, d₁) :: fs, fun acc => ?_⟩
        rw [fieldCb_of_skip hskip]
        dsimp only
        rw [hgo, List.append_assoc, List.singleton_append]

-- A callback that takes its values as a whole comes past the fields of the map, one by one.
theorem objFields_go_iff (hv : FieldCb.Spans v) (n : Nat) {d : Cdec} {s s' : σ} {b : Bool}
    {fs : Fields} (hgo : ∀ acc, objFields.go fieldCb n d acc = (b, acc ++ fs))
    : objFields.go v n d s = (true, s') ↔ b = true ∧ readFields v fs s = some s' := by
  induction n generalizing d s b fs with
  | zero =>
    have hnil := hgo []
    simp only [objFields.go, List.nil_append, Prod.mk.injEq] at hnil
    rcases hnil with ⟨hb, hfs⟩
    rw [← hfs, ← hb]
    simp [objFields.go, readFields]
  | succ n ih =>
    unfold objFields.go at hgo ⊢
    rcases huint : cdecUint d with ⟨_ | key, d₁⟩
    . rw [huint] at hgo
      have hnil := hgo []
      simp only [List.nil_append, Prod.mk.injEq] at hnil
      rw [← hnil.1]
      simp
    . rw [huint] at hgo
      dsimp only at hgo ⊢
      rcases hskip : cdecSkip d₁ with ⟨_ | u, d₂⟩
      . -- neither of the two gets past this value
        have hb : b = false := by
          have hnil := hgo []
          unfold fieldCb readField at hnil
          rw [hskip] at hnil
          simp only [Prod.mk.injEq] at hnil
          exact hnil.1.symm
        rcases hvd : v key d₁ s with ⟨_ | _, d₂', s₂⟩
        . simp [hb]
        . rw [hv _ _ _ _ _ hvd] at hskip
          cases hskip
      . rcases fieldCb_go n d₂ with ⟨b', fs', hgo'⟩
        have hnil := hgo []
        rw [fieldCb_of_skip hskip] at hnil
        dsimp only at hnil
        rw [hgo'] at hnil
        simp only [List.nil_append, Prod.mk.injEq] at hnil
        rcases hnil with ⟨rfl, rfl⟩
        rw [List.singleton_append]
        unfold readFields
        dsimp only
        rcases hvd : v key d₁ s with ⟨_ | _, d₂', s₂⟩
        . simp
        . have hsame := hv _ _ _ _ _ hvd
          rw [hskip] at hsame
          cases hsame
          exact ih hgo'

theorem objFields_iff (hv : FieldCb.Spans v) {enc : Bytes} {s s' : σ}
    : objFields enc v s = (true, s') ↔ ∃ fs, objMap enc = some fs ∧ readFields v fs s = some s' := by
  unfold objMap objFields
  rcases cdecMap (Cdec.init enc) with ⟨_ | n, d⟩
  . simp
  . dsimp only
    rcases fieldCb_go n d with ⟨b, fs, hgo⟩
    rw [objFields_go_iff hv n hgo, hgo []]
    cases b <;> simp

-- Every value of the map is complete.
theorem objMap_skips {enc : Bytes} {fs : Fields} (h : objMap enc = some fs)
    : ∀ f ∈ fs, ∃ d', cdecSkip f.2 = (some (), d') := by
  have hgo : ∀ n d acc r, (∀ f ∈ acc, ∃ d', cdecSkip f.2 = (some (), d')) →
      objFields.go fieldCb n d acc = (true, r) → ∀ f ∈ r, ∃ d', cdecSkip f.2 = (some (), d') := by
    intro n
    induction n with
    | zero =>
      intro d acc r hacc hgo
      simp only [objFields.go, Prod.mk.injEq] at hgo
      rw [← hgo.2]
      exact hacc
    | succ n ih =>
      intro d acc r hacc hgo
      unfold objFields.go at hgo
      rcases huint : cdecUint d with ⟨_ | key, d₁⟩
      . rw [huint] at hgo
        cases hgo
      . rw [huint] at hgo
        dsimp only at hgo
        rcases hskip : cdecSkip d₁ with ⟨_ | u, d₂⟩
        . unfold fieldCb readField at hgo
          rw [hskip] at hgo
          cases hgo
        . rw [fieldCb_of_skip hskip] at hgo
          apply ih d₂ _ r _ hgo
          intro f hf
          rw [List.mem_append, List.mem_singleton] at hf
          rcases hf with hf | rfl
          . exact hacc f hf
          . exact ⟨d₂, hskip⟩
  unfold objMap objFields at h
  rcases hmap : cdecMap (Cdec.init enc) with ⟨_ | n, d⟩
  . rw [hmap] at h
    cases h
  . rw [hmap] at h
    dsimp only at h
    rcases hfs : objFields.go fieldCb n d [] with ⟨_ | _, r⟩
    . rw [hfs] at h
      cases h
    . rw [hfs] at h
      cases h
      apply hgo n d [] fs (by simp) hfs

end Walk

section Parsers

-- The value of the last kind field, which is the one that counts.
def lastKind : Fields → Option Nat
  | [] => none
  | f :: fs => lastKind fs <|> (if f.1 = 0 then (cdecUint f.2).1 else none)

def roots (fs : Fields) : List Hash :=
  fs.filterMap (fun f => if f.1 = 1 then (hashRead f.2).1 else none)

-- Every value under `key` can be read by `x`.
def Fields.Reads (fs : Fields) (key : Nat) (x : Dec α) : Prop :=
  ∀ f ∈ fs, f.1 = key → (x f.2).1.isSome = true

def Fields.KindsInRange (fs : Fields) : Prop :=
  ∀ f ∈ fs, f.1 = 0 → ∀ k, (cdecUint f.2).1 = some k → k ≤ 3

def Fields.Skips (fs : Fields) : Prop :=
  ∀ f ∈ fs, ∃ d', cdecSkip f.2 = (some (), d')

variable {fs : Fields}

theorem Fields.Skips.tail {f : Nat × Cdec} (h : Fields.Skips (f :: fs)) : fs.Skips :=
  fun g hg => h g (List.mem_cons_of_mem f hg)

theorem Fields.reads_cons {f : Nat × Cdec} {key : Nat} {x : Dec α}
    : Fields.Reads (f :: fs) key x ↔ (f.1 = key → (x f.2).1.isSome = true) ∧ fs.Reads key x := by
  simp [Fields.Reads]

theorem Fields.kindsInRange_cons {f : Nat × Cdec}
    : Fields.KindsInRange (f :: fs)
        ↔ (f.1 = 0 → ∀ k, (cdecUint f.2).1 = some k → k ≤ 3) ∧ fs.KindsInRange := by
  simp [Fields.KindsInRange]

theorem readFields_cons_true {v : FieldCb σ} {f : Nat × Cdec} {s s' : σ} {d' : Cdec}
    (h : v f.1 f.2 s = (true, d', s')) : readFields v (f :: fs) s = readFields v fs s' := by
  simp only [readFields, h]

theorem readFields_cons_false {v : FieldCb σ} {f : Nat × Cdec} {s : σ}
    (h : (v f.1 f.2 s).1 = false) : readFields v (f :: fs) s = none := by
  rcases hv : v f.1 f.2 s with ⟨b, d', s'⟩
  rw [hv] at h
  dsimp only at h
  subst h
  simp only [readFields, hv]

theorem readField_of_some {x : Dec α} {store : α → σ → σ} {d d' : Cdec} {a : α}
    (h : x d = (some a, d')) (s : σ) : readField x store d s = (true, d', store a s) := by
  unfold readField
  rw [h]

theorem readField_of_none {x : Dec α} {store : α → σ → σ} {d : Cdec} (h : (x d).1 = none) (s : σ)
    : (readField x store d s).1 = false := by
  unfold readField
  rcases hx : x d with ⟨o, d'⟩
  rw [hx] at h
  dsimp only at h
  subst h
  rfl

theorem skipField_of_skips {d d' : Cdec} (h : cdecSkip d = (some (), d')) (s : σ)
    : skipField d s = (true, d', s) :=
  readField_of_some h s

theorem kindCb_spans : FieldCb.Spans kindCb := by
  intro key d s d' s' h
  unfold kindCb at h
  split at h
  . apply readField_spans _ h
    intro d k d' hk
    rw [Dec.bind_eq] at hk
    rcases Dec.bind_inv hk with ⟨k', d₁, huint, hbody⟩
    split at hbody
    . cases hbody
    . cases hbody
      exact cdecUint_spans d _ _ huint
  . exact skipField_spans h

theorem snapCb_spans : FieldCb.Spans snapCb := by
  intro key d s d' s' h
  unfold snapCb at h
  split at h
  . exact readField_spans cdecUint_spans h
  . exact readField_spans hashRead_spans h
  . exact readField_spans cdecText_spans h
  . exact skipField_spans h

theorem blobCb_spans : FieldCb.Spans blobCb := by
  intro key d s d' s' h
  unfold blobCb at h
  split at h
  . exact readField_spans cdecUint_spans h
  . exact readField_spans cdecText_spans h
  . exact readField_spans cdecBytes_spans h
  . exact skipField_spans h

theorem readFields_kindCb (hskip : fs.Skips) {k k' : Option Nat}
    : readFields kindCb fs k = some k'
        ↔ fs.Reads 0 cdecUint ∧ fs.KindsInRange ∧ k' = (lastKind fs <|> k) := by
  induction fs generalizing k with
  | nil =>
    simp only [readFields, Fields.Reads, Fields.KindsInRange, lastKind, List.not_mem_nil,
      false_imp_iff, implies_true, true_and, Option.some.injEq]
    exact eq_comm
  | cons f fs ih =>
    rw [Fields.reads_cons, Fields.kindsInRange_cons]
    by_cases hkey : f.1 = 0
    . rcases huint : cdecUint f.2 with ⟨_ | n, d₁⟩
      . rw [readFields_cons_false]
        . simp [hkey]
        . unfold kindCb
          rw [if_pos hkey, readField_of_none]
          rw [Dec.bind_eq, Dec.bind_of_none huint]
      . by_cases hn : n > 3
        . rw [readFields_cons_false]
          . simp [hkey, hn]
          . unfold kindCb
            rw [if_pos hkey, readField_of_none]
            rw [Dec.bind_eq, Dec.bind_of_some huint, if_pos hn]
            rfl
        . have hcb : kindCb f.1 f.2 k = (true, d₁, some n) := by
            unfold kindCb
            rw [if_pos hkey, readField_of_some (a := n)]
            rw [Dec.bind_eq, Dec.bind_of_some huint, if_neg hn]
            rfl
          rw [readFields_cons_true hcb, ih hskip.tail]
          have hle : n ≤ 3 := Nat.not_lt.mp hn
          simp only [lastKind, hkey, huint]
          cases lastKind fs <;> simp [hle]
    . rcases hskip f List.mem_cons_self with ⟨d', hd'⟩
      have hcb : kindCb f.1 f.2 k = (true, d', k) := by
        unfold kindCb
        rw [if_neg hkey, skipField_of_skips hd']
      rw [readFields_cons_true hcb, ih hskip.tail]
      simp [hkey, lastKind]

theorem objKind_eq_some {enc : Bytes} {k : Nat}
    : objKind enc = some k
        ↔ ∃ fs, objMap enc = some fs ∧ fs.Reads 0 cdecUint ∧ fs.KindsInRange ∧ lastKind fs = some k := by
  have hiff : objKind enc = some k ↔ objFields enc kindCb none = (true, some k) := by
    unfold objKind
    rcases objFields enc kindCb none with ⟨_ | _, kind⟩ <;> simp
  rw [hiff, objFields_iff kindCb_spans]
  constructor
  . intro h
    rcases h with ⟨fs, hmap, hread⟩
    rw [readFields_kindCb (objMap_skips hmap)] at hread
    rcases hread with ⟨hreads, hrange, hlast⟩
    refine ⟨fs, hmap, hreads, hrange, ?_⟩
    rw [hlast]
    cases lastKind fs <;> rfl
  . intro h
    rcases h with ⟨fs, hmap, hreads, hrange, hlast⟩
    refine ⟨fs, hmap, ?_⟩
    rw [readFields_kindCb (objMap_skips hmap)]
    refine ⟨hreads, hrange, ?_⟩
    rw [hlast]
    rfl

def SnapReads (fs : Fields) : Prop :=
  fs.Reads 0 cdecUint ∧ fs.Reads 1 hashRead ∧ fs.Reads 5 cdecText

theorem snapReads_cons {f : Nat × Cdec}
    : SnapReads (f :: fs) ↔ SnapReads [f] ∧ SnapReads fs := by
  simp only [SnapReads, Fields.reads_cons]
  simp only [Fields.Reads, List.not_mem_nil, false_imp_iff, implies_true, and_true]
  tauto

theorem snapCb_step {f : Nat × Cdec} {d' : Cdec} (hskip : cdecSkip f.2 = (some (), d')) (o : SnapOut)
    : (¬ SnapReads [f] ∧ (snapCb f.1 f.2 o).1 = false)
        ∨ (SnapReads [f] ∧ ∃ d₁ o₁, snapCb f.1 f.2 o = (true, d₁, o₁)
          ∧ o₁.kind = ((lastKind [f]).map toInt32).getD o.kind
          ∧ o₁.root = ((roots [f]).getLast? <|> o.root)) := by
  rcases f with ⟨key, d⟩
  simp only [SnapReads, Fields.reads_cons, lastKind, roots]
  simp only [Fields.Reads, List.not_mem_nil, false_imp_iff, implies_true, and_true]
  unfold snapCb
  dsimp only at hskip ⊢
  split
  . rcases hread : cdecUint d with ⟨_ | k, d₁⟩
    . exact .inl ⟨by simp, readField_of_none (by rw [hread]) o⟩
    . exact .inr ⟨by simp, d₁, _, readField_of_some hread o, by simp, by simp⟩
  . rcases hread : hashRead d with ⟨_ | h, d₁⟩
    . exact .inl ⟨by simp, readField_of_none (by rw [hread]) o⟩
    . exact .inr ⟨by simp, d₁, _, readField_of_some hread o, by simp, by simp [hread]⟩
  . rcases hread : cdecText d with ⟨_ | t, d₁⟩
    . exact .inl ⟨by simp, readField_of_none (by rw [hread]) o⟩
    . exact .inr ⟨by simp, d₁, _, readField_of_some hread o, by simp, by simp⟩
  next h0 h1 h5 =>
    replace h0 : key ≠ 0 := h0
    replace h1 : key ≠ 1 := h1
    replace h5 : key ≠ 5 := h5
    exact .inr ⟨by simp [h0, h1, h5], d', o, skipField_of_skips hskip o, by simp [h0], by simp [h1]⟩

theorem getLast?_roots_cons (f : Nat × Cdec) (fs : Fields)
    : (roots (f :: fs)).getLast? = ((roots fs).getLast? <|> (roots [f]).getLast?) := by
  have happ : roots (f :: fs) = roots [f] ++ roots fs := by
    unfold roots
    rw [← List.filterMap_append, List.singleton_append]
  rw [happ, List.getLast?_append]
  cases (roots fs).getLast? <;> rfl

theorem readFields_snapCb (hskip : fs.Skips) (o : SnapOut)
    : (¬ SnapReads fs ∧ readFields snapCb fs o = none)
        ∨ (SnapReads fs ∧ ∃ o', readFields snapCb fs o = some o'
          ∧ o'.kind = ((lastKind fs).map toInt32).getD o.kind
          ∧ o'.root = ((roots fs).getLast? <|> o.root)) := by
  induction fs generalizing o with
  | nil =>
    refine .inr ⟨?_, o, rfl, rfl, rfl⟩
    simp [SnapReads, Fields.Reads]
  | cons f fs ih =>
    rcases hskip f List.mem_cons_self with ⟨d', hd'⟩
    rw [snapReads_cons]
    rcases snapCb_step hd' o with ⟨hnot, hfalse⟩ | ⟨hreads, d₁, o₁, htrue, hkind, hroot⟩
    . rw [readFields_cons_false hfalse]
      exact .inl ⟨fun h => hnot h.1, rfl⟩
    . rw [readFields_cons_true htrue]
      rcases ih hskip.tail o₁ with ⟨hnot, hnone⟩ | ⟨hreads', o', hsome, hkind', hroot'⟩
      . exact .inl ⟨fun h => hnot h.2, hnone⟩
      . refine .inr ⟨⟨hreads, hreads'⟩, o', hsome, ?_, ?_⟩
        . rw [hkind', hkind]
          simp only [lastKind]
          cases lastKind fs <;> simp
        . rw [hroot', hroot, getLast?_roots_cons f fs]
          cases (roots fs).getLast? <;> rfl

-- The objects `harp_obj_parse_snapshot_root` accepts.
def SnapFields (fs : Fields) (root : Hash) : Prop :=
  SnapReads fs ∧ (lastKind fs).map toInt32 = some objSnapshot ∧ (roots fs).getLast? = some root

theorem objParseSnapshotRoot_eq_some {enc : Bytes} {root : Hash}
    : objParseSnapshotRoot enc = some root ↔ ∃ fs, objMap enc = some fs ∧ SnapFields fs root := by
  have hiff : objParseSnapshotRoot enc = some root
      ↔ ∃ o, objFields enc snapCb ⟨none, 2 ^ 32 - 1, none⟩ = (true, o) ∧ o.kind = objSnapshot
        ∧ o.root = some root := by
    unfold objParseSnapshotRoot
    rcases objFields enc snapCb ⟨none, 2 ^ 32 - 1, none⟩ with ⟨_ | _, o⟩ <;> simp
  rw [hiff]
  constructor
  . intro h
    rcases h with ⟨o, hfields, hkind, hroot⟩
    rw [objFields_iff snapCb_spans] at hfields
    rcases hfields with ⟨fs, hmap, hread⟩
    rcases readFields_snapCb (objMap_skips hmap) ⟨none, 2 ^ 32 - 1, none⟩ with
      ⟨_, hnone⟩ | ⟨hreads, o', hsome, hkind', hroot'⟩
    . rw [hnone] at hread
      cases hread
    . rw [hread] at hsome
      cases hsome
      refine ⟨fs, hmap, hreads, ?_, ?_⟩
      . cases hlast : lastKind fs with
        | none =>
          rw [hkind', hlast] at hkind
          cases hkind
        | some k =>
          rw [hkind', hlast] at hkind
          rw [Option.map_some]
          exact congrArg some hkind
      . rw [hroot'] at hroot
        cases hlast : (roots fs).getLast? with
        | none =>
          rw [hlast] at hroot
          cases hroot
        | some r =>
          rw [hlast] at hroot
          exact hroot
  . intro h
    rcases h with ⟨fs, hmap, hreads, hkind, hroot⟩
    rcases readFields_snapCb (objMap_skips hmap) ⟨none, 2 ^ 32 - 1, none⟩ with
      ⟨hnot, _⟩ | ⟨_, o', hsome, hkind', hroot'⟩
    . contradiction
    . refine ⟨o', ?_, ?_, ?_⟩
      . rw [objFields_iff snapCb_spans]
        exact ⟨fs, hmap, hsome⟩
      . rw [hkind', hkind]
        rfl
      . rw [hroot', hroot]
        rfl

def BlobReads (fs : Fields) : Prop :=
  fs.Reads 0 cdecUint ∧ fs.Reads 1 cdecText ∧ fs.Reads 2 cdecBytes

theorem blobReads_cons {f : Nat × Cdec}
    : BlobReads (f :: fs) ↔ BlobReads [f] ∧ BlobReads fs := by
  simp only [BlobReads, Fields.reads_cons]
  simp only [Fields.Reads, List.not_mem_nil, false_imp_iff, implies_true, and_true]
  tauto

theorem blobCb_step {f : Nat × Cdec} {d' : Cdec} (hskip : cdecSkip f.2 = (some (), d')) (o : BlobOut)
    : (¬ BlobReads [f] ∧ (blobCb f.1 f.2 o).1 = false)
        ∨ (BlobReads [f] ∧ ∃ d₁ o₁, blobCb f.1 f.2 o = (true, d₁, o₁)
          ∧ o₁.kind = ((lastKind [f]).map toInt32).getD o.kind
          ∧ (o₁.payload.isSome = true ↔ o.payload.isSome = true ∨ f.1 = 2)) := by
  rcases f with ⟨key, d⟩
  simp only [BlobReads, Fields.reads_cons, lastKind]
  simp only [Fields.Reads, List.not_mem_nil, false_imp_iff, implies_true, and_true]
  unfold blobCb
  dsimp only at hskip ⊢
  split
  . rcases hread : cdecUint d with ⟨_ | k, d₁⟩
    . exact .inl ⟨by simp, readField_of_none (by rw [hread]) o⟩
    . exact .inr ⟨by simp, d₁, _, readField_of_some hread o, by simp, by simp⟩
  . rcases hread : cdecText d with ⟨_ | h, d₁⟩
    . exact .inl ⟨by simp, readField_of_none (by rw [hread]) o⟩
    . exact .inr ⟨by simp, d₁, _, readField_of_some hread o, by simp, by simp⟩
  . rcases hread : cdecBytes d with ⟨_ | t, d₁⟩
    . exact .inl ⟨by simp, readField_of_none (by rw [hread]) o⟩
    . exact .inr ⟨by simp, d₁, _, readField_of_some hread o, by simp, by simp⟩
  next h0 h1 h2 =>
    replace h0 : key ≠ 0 := h0
    replace h1 : key ≠ 1 := h1
    replace h2 : key ≠ 2 := h2
    exact .inr ⟨by simp [h0, h1, h2], d', o, skipField_of_skips hskip o, by simp [h0], by simp [h2]⟩

theorem readFields_blobCb (hskip : fs.Skips) (o : BlobOut)
    : (¬ BlobReads fs ∧ readFields blobCb fs o = none)
        ∨ (BlobReads fs ∧ ∃ o', readFields blobCb fs o = some o'
          ∧ o'.kind = ((lastKind fs).map toInt32).getD o.kind
          ∧ (o'.payload.isSome = true ↔ o.payload.isSome = true ∨ ∃ f ∈ fs, f.1 = 2)) := by
  induction fs generalizing o with
  | nil =>
    refine .inr ⟨?_, o, rfl, rfl, ?_⟩
    . simp [BlobReads, Fields.Reads]
    . simp
  | cons f fs ih =>
    rcases hskip f List.mem_cons_self with ⟨d', hd'⟩
    rw [blobReads_cons]
    rcases blobCb_step hd' o with ⟨hnot, hfalse⟩ | ⟨hreads, d₁, o₁, htrue, hkind, hpay⟩
    . rw [readFields_cons_false hfalse]
      exact .inl ⟨fun h => hnot h.1, rfl⟩
    . rw [readFields_cons_true htrue]
      rcases ih hskip.tail o₁ with ⟨hnot, hnone⟩ | ⟨hreads', o', hsome, hkind', hpay'⟩
      . exact .inl ⟨fun h => hnot h.2, hnone⟩
      . refine .inr ⟨⟨hreads, hreads'⟩, o', hsome, ?_, ?_⟩
        . rw [hkind', hkind]
          simp only [lastKind]
          cases lastKind fs <;> simp
        . rw [hpay', hpay, List.exists_mem_cons_iff, or_assoc]

-- The objects `harp_obj_parse_blob` accepts.
def BlobFields (fs : Fields) : Prop :=
  BlobReads fs ∧ (lastKind fs).map toInt32 = some objBlob ∧ ∃ f ∈ fs, f.1 = 2

theorem objParseBlob_isSome {enc : Bytes}
    : (objParseBlob enc).isSome = true ↔ ∃ fs, objMap enc = some fs ∧ BlobFields fs := by
  have hiff : (objParseBlob enc).isSome = true
      ↔ ∃ o, objFields enc blobCb ⟨[], none, 2 ^ 32 - 1⟩ = (true, o) ∧ o.kind = objBlob
        ∧ o.payload.isSome = true := by
    unfold objParseBlob
    rcases objFields enc blobCb ⟨[], none, 2 ^ 32 - 1⟩ with ⟨_ | _, o⟩
    . simp
    . rcases hpay : o.payload with _ | payload
      . simp [hpay]
      . by_cases hkind : o.kind = objBlob <;> simp [hpay, hkind]
  rw [hiff]
  constructor
  . intro h
    rcases h with ⟨o, hfields, hkind, hpay⟩
    rw [objFields_iff blobCb_spans] at hfields
    rcases hfields with ⟨fs, hmap, hread⟩
    rcases readFields_blobCb (objMap_skips hmap) ⟨[], none, 2 ^ 32 - 1⟩ with
      ⟨_, hnone⟩ | ⟨hreads, o', hsome, hkind', hpay'⟩
    . rw [hnone] at hread
      cases hread
    . rw [hread] at hsome
      cases hsome
      refine ⟨fs, hmap, hreads, ?_, ?_⟩
      . cases hlast : lastKind fs with
        | none =>
          rw [hkind', hlast] at hkind
          cases hkind
        | some k =>
          rw [hkind', hlast] at hkind
          rw [Option.map_some]
          exact congrArg some hkind
      . rw [hpay'] at hpay
        simpa using hpay
  . intro h
    rcases h with ⟨fs, hmap, hreads, hkind, hpay⟩
    rcases readFields_blobCb (objMap_skips hmap) ⟨[], none, 2 ^ 32 - 1⟩ with
      ⟨hnot, _⟩ | ⟨_, o', hsome, hkind', hpay'⟩
    . contradiction
    . refine ⟨o', ?_, ?_, ?_⟩
      . rw [objFields_iff blobCb_spans]
        exact ⟨fs, hmap, hsome⟩
      . rw [hkind', hkind]
        rfl
      . rw [hpay']
        exact .inr hpay

end Parsers

section Children

variable {fs : Fields}

def collectHash : HashCb (List Hash) := fun h hs =>
  (true, hs ++ [h])

theorem childCb_spans (kind : Nat) (ip : Bool) (cb : HashCb σ)
    : FieldCb.Spans (childCb kind ip cb) := by
  intro key d s d' s' h
  unfold childCb at h
  split at h
  . exact childHashes_spans h
  . split at h
    . exact readField_spans hashRead_spans h
    . split at h
      . exact childHashes_spans h
      . exact skipField_spans h

theorem roots_cons (f : Nat × Cdec) (fs : Fields) : roots (f :: fs) = roots [f] ++ roots fs := by
  unfold roots
  rw [← List.filterMap_append, List.singleton_append]

-- Without the parents, the children of a snapshot are its roots.
theorem readFields_childCb (hskip : fs.Skips) (hreads : fs.Reads 1 hashRead) (hs : List Hash)
    : readFields (childCb objSnapshot false collectHash) fs hs = some (hs ++ roots fs) := by
  induction fs generalizing hs with
  | nil => simp [readFields, roots]
  | cons f fs ih =>
    rw [Fields.reads_cons] at hreads
    rw [roots_cons, ← List.append_assoc]
    by_cases hkey : f.1 = 1
    . have hsome := hreads.1 hkey
      rw [Option.isSome_iff_exists] at hsome
      rcases hsome with ⟨h, hh⟩
      have hread : hashRead f.2 = (some h, (hashRead f.2).2) := Prod.ext hh rfl
      have hcb : childCb objSnapshot false collectHash f.1 f.2 hs
          = (true, (hashRead f.2).2, hs ++ [h]) := by
        unfold childCb
        rw [if_neg (by simp [objSnapshot, objList]), if_pos ⟨rfl, hkey⟩, readField_of_some hread]
        rfl
      rw [readFields_cons_true hcb, ih hskip.tail hreads.2]
      simp [roots, hkey, hh]
    . rcases hskip f List.mem_cons_self with ⟨d', hd'⟩
      have hcb : childCb objSnapshot false collectHash f.1 f.2 hs = (true, d', hs) := by
        unfold childCb
        rw [if_neg (by simp [objSnapshot, objList]), if_neg (fun h => hkey h.2),
          if_neg (by simp), skipField_of_skips hd']
      rw [readFields_cons_true hcb, ih hskip.tail hreads.2]
      simp [roots, hkey]

-- Whatever else a walk over the children reports, the roots are among it.
theorem roots_subset_of_readFields {ip : Bool} {hs hs' : List Hash}
    (h : readFields (childCb objSnapshot ip collectHash) fs hs = some hs')
    : hs ⊆ hs' ∧ roots fs ⊆ hs' := by
  have hgrow : ∀ n d (acc : List Hash), acc ⊆
      (eachItem.go hashRead (fun ud h => (collectHash h ud).2) n d acc).2.2 := by
    intro n
    induction n with
    | zero =>
      intro d acc x hx
      exact hx
    | succ n ih =>
      intro d acc x hx
      unfold eachItem.go
      rcases hashRead d with ⟨_ | h, d₁⟩
      . exact hx
      . apply ih
        exact List.mem_append_left _ hx
  induction fs generalizing hs with
  | nil =>
    cases h
    simp [roots]
  | cons f fs ih =>
    unfold readFields at h
    rcases hcb : childCb objSnapshot ip collectHash f.1 f.2 hs with ⟨_ | _, d', hs₁⟩
    . rw [hcb] at h
      cases h
    . rw [hcb] at h
      rcases ih h with ⟨hsub, hroots⟩
      have hstep : hs ⊆ hs₁ ∧ roots [f] ⊆ hs₁ := by
        unfold childCb at hcb
        rw [if_neg (by simp [objSnapshot, objList])] at hcb
        split at hcb
        next hkey =>
          unfold readField at hcb
          rcases hread : hashRead f.2 with ⟨_ | x, d₁⟩
          . rw [hread] at hcb
            cases hcb
          . rw [hread] at hcb
            cases hcb
            simp [roots, hkey.2, hread, collectHash]
        next hkey =>
          have hne : f.1 ≠ 1 := fun h1 => hkey ⟨rfl, h1⟩
          have hnil : roots [f] = [] := by simp [roots, hne]
          rw [hnil]
          refine ⟨?_, List.nil_subset _⟩
          split at hcb
          . unfold childHashes eachItem at hcb
            rcases hcount : cdecArray f.2 with ⟨_ | n, d₁⟩
            . rw [hcount] at hcb
              cases hcb
            . rw [hcount] at hcb
              have hle := hgrow n d₁ hs
              dsimp only at hcb
              rw [hcb] at hle
              exact hle
          . unfold skipField readField at hcb
            rcases hread : cdecSkip f.2 with ⟨_ | x, d₁⟩
            . rw [hread] at hcb
              cases hcb
            . rw [hread] at hcb
              cases hcb
              exact List.Subset.refl _
      refine ⟨fun x hx => hsub (hstep.1 hx), ?_⟩
      rw [roots_cons]
      apply List.append_subset.mpr
      exact ⟨fun x hx => hsub (hstep.2 hx), hroots⟩

theorem objChildren_snapshot {enc : Bytes} (h : objKind enc = some objSnapshot) (ip : Bool)
    : objChildren enc ip = objFields enc (childCb objSnapshot ip collectHash) [] := by
  unfold objChildren objForeachChild
  rw [h]
  rfl

end Children

section Trees

variable {σ : Type}

def collectEntry : FieldCb (List (Bytes × Hash × Nat)) := fun key d es =>
  if key ≠ 1 then
    skipField d es
  else
    eachItem cdecMap treeEntry (fun es e => es ++ [e]) d es

-- What `tree_cb` decodes, and whether the walk gets to the end.
def treeEntries (enc : Bytes) : Bool × List (Bytes × Hash × Nat) :=
  objFields enc collectEntry []

theorem Reports.collectEntry (cb : TreeCb σ) (key : Nat)
    : Reports (Harp.treeCb cb key) (TreeIter.step cb) (Harp.collectEntry key) := by
  intro d s acc
  unfold Harp.treeCb Harp.collectEntry
  split
  . apply Reports.skipField
  . apply Reports.eachItem
    intro e
    exact ⟨[e], by simp, by simp⟩

theorem objTreeForeach_eq {enc : Bytes} (h : objKind enc = some objTree) (cb : TreeCb σ) (ud : σ)
    : objTreeForeach enc cb ud = ((treeEntries enc).1,
        ((treeEntries enc).2.foldl (TreeIter.step cb) ⟨false, ud⟩).ud) := by
  unfold objTreeForeach treeEntries
  rw [if_neg (not_not.mpr h)]
  rcases Reports.objFields (Reports.collectEntry cb) enc ⟨false, ud⟩ [] with ⟨b, es, hw, hv⟩
  rw [hw, hv]
  rfl

theorem foldl_collectHash (es : List (Bytes × Hash × Nat)) (acc : List Hash)
    : es.foldl (TreeIter.step (fun _ h _ hs => collectHash h hs)) ⟨false, acc⟩
        = ⟨false, acc ++ es.map (fun e => e.2.1)⟩ := by
  induction es generalizing acc with
  | nil => simp
  | cons e es ih =>
    have hstep : TreeIter.step (fun _ h _ hs => collectHash h hs) ⟨false, acc⟩ e
        = ⟨false, acc ++ [e.2.1]⟩ := rfl
    rw [List.foldl_cons, hstep, ih]
    simp

theorem objChildren_tree {enc : Bytes} (h : objKind enc = some objTree) (ip : Bool)
    : objChildren enc ip = ((treeEntries enc).1, (treeEntries enc).2.map (fun e => e.2.1)) := by
  have hforeach : objChildren enc ip
      = objTreeForeach enc (fun _ h _ hs => collectHash h hs) [] := by
    unfold objChildren objForeachChild
    rw [h]
    rfl
  rw [hforeach, objTreeForeach_eq h, foldl_collectHash]
  rfl

-- The callback together with the hashes it is called with.
def loggedCb (cb : TreeCb σ) : TreeCb (σ × List Hash) := fun name h kind s =>
  let (more, ud) := cb name h kind s.1
  (more, ud, s.2 ++ [h])

theorem foldl_loggedCb (cb : TreeCb σ) (es : List (Bytes × Hash × Nat))
    (it : TreeIter (σ × List Hash))
    : (es.foldl (TreeIter.step (loggedCb cb)) it).ud.2
        ⊆ it.ud.2 ++ es.map (fun e => e.2.1) := by
  induction es generalizing it with
  | nil => simp
  | cons e es ih =>
    rw [List.foldl_cons]
    have hstep : (TreeIter.step (loggedCb cb) it e).ud.2 ⊆ it.ud.2 ++ [e.2.1] := by
      unfold TreeIter.step
      split
      . exact List.subset_append_left _ _
      . exact List.Subset.refl _
    intro x hx
    have hmem := ih _ hx
    rw [List.mem_append] at hmem
    rw [List.map_cons, List.mem_append, List.mem_cons]
    rcases hmem with hmem | hmem
    . have := hstep hmem
      rw [List.mem_append, List.mem_singleton] at this
      tauto
    . tauto

end Trees

section Agree

-- The parsers on one byte string: what one of them gets at, the others see.
structure ParsersAgree (enc : Bytes) : Prop where
  snapshot : ∀ root, objParseSnapshotRoot enc = some root →
    objKind enc = some objSnapshot ∧ (objChildren enc false).1 = true
      ∧ ∀ ip, (objChildren enc ip).1 = true → root ∈ (objChildren enc ip).2
  blob : (objParseBlob enc).isSome = true → objKind enc = some objBlob
  tree : ∀ (σ : Type) (cb : TreeCb σ) (ud : σ) (ip : Bool),
    (objTreeForeach enc (loggedCb cb) (ud, [])).1 = true →
      (objChildren enc ip).1 = true
        ∧ (objTreeForeach enc (loggedCb cb) (ud, [])).2.2 ⊆ (objChildren enc ip).2

variable {enc : Bytes}

theorem lastKind_le {fs : Fields} (h : fs.KindsInRange) {k : Nat} (hk : lastKind fs = some k)
    : k ≤ 3 := by
  induction fs with
  | nil => cases hk
  | cons f fs ih =>
    rw [Fields.kindsInRange_cons] at h
    unfold lastKind at hk
    cases hlast : lastKind fs with
    | some k' =>
      rw [hlast] at hk
      cases hk
      exact ih h.2 hlast
    | none =>
      rw [hlast] at hk
      dsimp only [HOrElse.hOrElse, OrElse.orElse, Option.orElse] at hk
      split at hk
      next hkey => exact h.1 hkey k hk
      next => cases hk

theorem lastKind_of_toInt32 {fs : Fields} (h : fs.KindsInRange) {k : Nat}
    (hk : (lastKind fs).map toInt32 = some k) : lastKind fs = some k := by
  rw [Option.map_eq_some_iff] at hk
  rcases hk with ⟨k', hlast, hk⟩
  have hle := lastKind_le h hlast
  rw [hlast]
  unfold toInt32 at hk
  rw [← hk, Nat.mod_eq_of_lt]
  omega

-- A snapshot whose kind is in order reports its root.
theorem snapshot_children {root : Hash} (hroot : objParseSnapshotRoot enc = some root)
    (hkind : objKind enc = some objSnapshot)
    : (objChildren enc false).1 = true
        ∧ ∀ ip, (objChildren enc ip).1 = true → root ∈ (objChildren enc ip).2 := by
  rw [objParseSnapshotRoot_eq_some] at hroot
  rcases hroot with ⟨fs, hmap, hreads, _, hlast⟩
  have hmem : root ∈ roots fs := List.mem_of_getLast? hlast
  constructor
  . have hread := readFields_childCb (objMap_skips hmap) hreads.2.1 []
    have hfields : objFields enc (childCb objSnapshot false collectHash) [] = (true, [] ++ roots fs) := by
      rw [objFields_iff (childCb_spans _ _ _)]
      exact ⟨fs, hmap, hread⟩
    rw [objChildren_snapshot hkind, hfields]
  . intro ip hok
    rw [objChildren_snapshot hkind] at hok ⊢
    have hfields : objFields enc (childCb objSnapshot ip collectHash) []
        = (true, (objFields enc (childCb objSnapshot ip collectHash) []).2) := Prod.ext hok rfl
    rw [objFields_iff (childCb_spans _ _ _)] at hfields
    rcases hfields with ⟨fs', hmap', hread⟩
    rw [hmap] at hmap'
    cases hmap'
    exact (roots_subset_of_readFields hread).2 hmem

theorem objTreeForeach_kind {cb : TreeCb σ} {ud : σ} (h : (objTreeForeach enc cb ud).1 = true)
    : objKind enc = some objTree := by
  unfold objTreeForeach at h
  split at h
  . cases h
  next hkind => exact not_not.mp hkind

theorem parsersAgree_iff
    : ParsersAgree enc
        ↔ ∀ fs, objMap enc = some fs → (∃ root, SnapFields fs root) ∨ BlobFields fs →
          fs.KindsInRange := by
  constructor
  . intro h fs hmap haccepted
    have hkind : ∃ k, objKind enc = some k := by
      rcases haccepted with ⟨root, hsnap⟩ | hblob
      . exact ⟨_, (h.snapshot root (objParseSnapshotRoot_eq_some.mpr ⟨fs, hmap, hsnap⟩)).1⟩
      . exact ⟨_, h.blob (objParseBlob_isSome.mpr ⟨fs, hmap, hblob⟩)⟩
    rcases hkind with ⟨k, hk⟩
    rcases objKind_eq_some.mp hk with ⟨fs', hmap', _, hrange, _⟩
    rw [hmap] at hmap'
    cases hmap'
    exact hrange
  . intro hrange
    constructor
    . intro root hroot
      have hkind : objKind enc = some objSnapshot := by
        rcases objParseSnapshotRoot_eq_some.mp hroot with ⟨fs, hmap, hsnap⟩
        have hk := hrange fs hmap (.inl ⟨root, hsnap⟩)
        exact objKind_eq_some.mpr ⟨fs, hmap, hsnap.1.1, hk, lastKind_of_toInt32 hk hsnap.2.1⟩
      exact ⟨hkind, snapshot_children hroot hkind⟩
    . intro hsome
      rcases objParseBlob_isSome.mp hsome with ⟨fs, hmap, hblob⟩
      have hk := hrange fs hmap (.inr hblob)
      exact objKind_eq_some.mpr ⟨fs, hmap, hblob.1.1, hk, lastKind_of_toInt32 hk hblob.2.1⟩
    . intro σ cb ud ip hok
      have hkind := objTreeForeach_kind hok
      rw [objTreeForeach_eq hkind] at hok ⊢
      rw [objChildren_tree hkind]
      refine ⟨hok, ?_⟩
      have hsub := foldl_loggedCb cb (treeEntries enc).2 ⟨false, ud, []⟩
      rw [List.nil_append] at hsub
      exact hsub

-- A snapshot whose kind is 3 only in its lower 32 bits.
def tallSnapshot : Bytes :=
  cborMap 2 ++ cborUint 0 ++ cborUint (2 ^ 32 + 3) ++ cborUint 1
    ++ cborBytes (1 :: List.replicate 32 0)

theorem not_parsersAgree_tall : ¬ ParsersAgree tallSnapshot := by
  intro h
  have hroot : (objParseSnapshotRoot tallSnapshot).isSome = true := by decide +kernel
  rw [Option.isSome_iff_exists] at hroot
  rcases hroot with ⟨root, hroot⟩
  have hkind := (h.snapshot root hroot).1
  have hnone : objKind tallSnapshot = none := by decide +kernel
  rw [hnone] at hkind
  cases hkind

end Agree

end Harp
