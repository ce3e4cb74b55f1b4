import Harp.Core.Gc
import Harp.Core.RefWalk

/-!
This module contains the correctness of the collector: marking computes what is reachable from the
listed refs or finds an object it cannot walk, and the sweep removes unmarked objects only.
-/

namespace Harp

open LinearProbe

section Names

theorem hexval_hexd (n : Nat) (h : n < 16) : hexval (hexd.getD n 0) = some n := by
  have hall : ∀ n : Fin 16, hexval (hexd.getD n.val 0) = some n.val := by decide
  exact hall ⟨n, h⟩

theorem hashFromHex_go (bs : Bytes)
    : hashFromHex.go
        (bs.flatMap (fun b => [hexd.getD (b.toNat / 16) 0, hexd.getD (b.toNat % 16) 0]))
        = some bs := by
  induction bs with
  | nil => rfl
  | cons b bs ih =>
    have hb : b.toNat < 256 := b.toNat_lt
    have hbyte : UInt8.ofNat ((b.toNat / 16) <<< 4 + b.toNat % 16) = b := by
      have hsum : (b.toNat / 16) <<< 4 + b.toNat % 16 = b.toNat := by
        rw [Nat.shiftLeft_eq]
        omega
      rw [hsum, UInt8.ofNat_toNat]
    rw [List.flatMap_cons]
    simp only [List.cons_append, List.nil_append, hashFromHex.go]
    rw [hexval_hexd _ (by omega), hexval_hexd _ (by omega), ih]
    simp only [hbyte]

theorem hashFromHex_hashHex (h : Hash) : hashFromHex (hashHex h) = some h := by
  have hlen : (hashHex h).length = 66 := by
    unfold hashHex
    rw [List.length_flatMap]
    simp [h.len]
  unfold hashFromHex
  rw [if_neg (by simp [hlen])]
  unfold hashHex
  rw [hashFromHex_go]
  simp [h.len]

theorem hashHex_inj {h h' : Hash} (heq : hashHex h = hashHex h') : h = h' := by
  have := hashFromHex_hashHex h
  rw [heq, hashFromHex_hashHex] at this
  exact (Option.some.inj this).symm

theorem strstr_of_not_mem {c : UInt8} {s sub : Bytes} (h : c ∉ s) : strstr s (c :: sub) = false := by
  induction s with
  | nil => rfl
  | cons c' s ih =>
    rw [List.mem_cons, not_or] at h
    unfold strstr
    rw [ih h.2]
    simp [List.isPrefixOf, h.1]

theorem dot_not_mem_hashHex (h : Hash) : dot ∉ hashHex h := by
  have hdigit : ∀ n : Fin 16, dot ≠ hexd.getD n.val 0 := by decide
  unfold hashHex
  rw [List.mem_flatMap]
  intro hmem
  rcases hmem with ⟨b, _, hb⟩
  have hlt : b.toNat < 256 := b.toNat_lt
  simp only [List.mem_cons, List.not_mem_nil, or_false] at hb
  rcases hb with hb | hb
  . exact hdigit ⟨b.toNat / 16, by omega⟩ hb
  . exact hdigit ⟨b.toNat % 16, by omega⟩ hb

theorem objName_hashHex (h : Hash) : objName (hashHex h) = some h := by
  have hdot := dot_not_mem_hashHex h
  unfold objName
  rw [if_neg, if_neg, hashFromHex_hashHex]
  . rw [Bool.not_eq_true]
    exact strstr_of_not_mem hdot
  . intro hhead
    exact hdot (List.mem_of_head? hhead)

theorem mem_of_lookupObj {name : Bytes} {f : ObjFile} {objects : List (Bytes × ObjFile)}
    (h : lookupObj name objects = some f) : (name, f) ∈ objects := by
  induction objects with
  | nil => simp [lookupObj] at h
  | cons e objects ih =>
    unfold lookupObj at h
    split at h
    next heq =>
      cases h
      rw [← heq]
      simp
    next => exact List.mem_cons_of_mem e (ih h)

theorem mem_objNames {s : Store} {h : Hash} {f : ObjFile} (hf : objFile s h = some f)
    : h ∈ objNames s := by
  unfold objNames
  rw [List.mem_filterMap]
  exact ⟨_, mem_of_lookupObj hf, objName_hashHex h⟩

theorem mem_objNames_of_get {s : Store} {h : Hash} {enc : Bytes} (hget : storeGet s h = some enc)
    : h ∈ objNames s := by
  unfold storeGet at hget
  rw [Option.bind_eq_some_iff] at hget
  rcases hget with ⟨f, hf, _⟩
  exact mem_objNames hf

theorem lookupObj_eraseObj (name name' : Bytes) (objects : List (Bytes × ObjFile))
    : lookupObj name' (eraseObj name objects)
        = if name' = name then none else lookupObj name' objects := by
  induction objects with
  | nil => simp [eraseObj, lookupObj]
  | cons e objects ih =>
    unfold eraseObj at ih ⊢
    rw [List.filter_cons]
    by_cases he : e.1 = name
    . rw [if_neg (by simpa using he), ih]
      by_cases hn : name' = name
      . simp [hn]
      . rw [if_neg hn, if_neg hn]
        have hne : ¬ e.1 = name' := by
          rw [he]
          exact Ne.symm hn
        simp [lookupObj, hne]
    . rw [if_pos (by simpa using he)]
      simp only [lookupObj]
      rw [ih]
      by_cases hn : name' = name
      . subst hn
        simp [he]
      . simp [hn]

theorem objFile_storePut (s : Store) (enc : Bytes) (io : WriteIo) (x : Hash)
    : objFile (storePut s enc io).2 x
        = if storeHave s x = false ∧ io.unchecked = true ∧ x = hashCompute enc then
            some ⟨true, some (io.onDisk enc), true⟩
          else
            objFile s x := by
  unfold storePut
  dsimp only
  split
  next hhave =>
    rw [if_neg]
    rintro ⟨hnot, _, rfl⟩
    rw [hhave] at hnot
    contradiction
  next hhave =>
    rw [Bool.not_eq_true] at hhave
    split
    next hio =>
      unfold objFile
      dsimp only
      rw [lookupObj]
      split
      next heq =>
        have := hashHex_inj heq
        subst this
        rw [if_pos ⟨hhave, hio, rfl⟩]
      next hne =>
        rw [lookupObj_eraseObj, if_neg (fun heq => hne heq.symm), if_neg]
        rintro ⟨_, _, rfl⟩
        exact hne rfl
    next hio =>
      rw [if_neg]
      rintro ⟨_, hok, _⟩
      exact hio hok

end Names

section Mark

variable (s : Store)

def Child (h h' : Hash) : Prop :=
  ∃ enc, storeGet s h = some enc ∧ h' ∈ (objChildren enc false).2

def Reach (h h' : Hash) : Prop :=
  Relation.ReflTransGen (Child s) h h'

-- An object that is missing, unreadable or malformed.
def BadObj (h : Hash) : Prop :=
  ∀ enc, storeGet s h = some enc → (objChildren enc false).1 = false

def MarkCtx.keys (m : MarkCtx) : List Hash :=
  m.set.keys

structure Marks (target : Hash → Prop) (m m' : MarkCtx) : Prop where
  stuck : m'.stuck = false
  capacity : m'.set.capacity = m.set.capacity
  aborted : m.aborted = true → m'.aborted = true
  mono : ∀ x ∈ m.keys, x ∈ m'.keys
  sound : ∀ x ∈ m'.keys, x ∈ m.keys ∨ ∃ h, target h ∧ Reach s h x
  stored : m'.aborted = false → ∀ x ∈ m'.keys, x ∈ objNames s
  roots : m'.aborted = false → ∀ x, target x → x ∈ m'.keys
  closed : m'.aborted = false → ∀ x ∈ m'.keys, x ∉ m.keys →
    ¬ BadObj s x ∧ ∀ y, Child s x y → y ∈ m'.keys
  bad : m'.aborted = true → m.aborted = true ∨ ∃ h x, target h ∧ Reach s h x ∧ BadObj s x

-- Between two marks the table has room for one key more than there are objects.
structure MarkReady (m : MarkCtx) : Prop where
  stuck : m.stuck = false
  room : (objNames s).length + 1 < m.set.capacity
  stored : m.aborted = false → ∀ x ∈ m.keys, x ∈ objNames s

def remaining (m : MarkCtx) : Nat :=
  ((objNames s).filter (fun x => x ∉ m.keys)).length

variable {s}

theorem Marks.ready {target : Hash → Prop} {m m' : MarkCtx} (h : Marks s target m m')
    (hm : MarkReady s m) : MarkReady s m' where
  stuck := h.stuck
  room := by
    rw [h.capacity]
    exact hm.room
  stored := h.stored

theorem remaining_le {m m' : MarkCtx} (h : ∀ x ∈ m.keys, x ∈ m'.keys)
    : remaining s m' ≤ remaining s m := by
  apply List.Sublist.length_le
  apply List.monotone_filter_right
  intro x hx
  simp only [decide_eq_true_eq] at hx ⊢
  intro hmem
  exact hx (h x hmem)

theorem length_keys_le {m : MarkCtx} (h : ∀ x ∈ m.keys, x ∈ objNames s)
    : m.keys.length ≤ (objNames s).length := by
  apply List.Subperm.length_le
  apply List.Nodup.subperm
  . exact m.set.nodup
  . exact h

theorem Marks.refl {m : MarkCtx} (hm : MarkReady s m) {target : Hash → Prop}
    (htarget : m.aborted = true ∨ ∀ h, target h → h ∈ m.keys)
    : Marks s target m m where
  stuck := hm.stuck
  capacity := rfl
  aborted := id
  mono := by
    intro x hx
    exact hx
  sound := by
    intro x hx
    exact .inl hx
  stored := hm.stored
  roots := by
    intro hab x hx
    rcases htarget with h | h
    . simp [hab] at h
    . exact h x hx
  closed := by
    intro _ x hx hnot
    contradiction
  bad := by
    intro hab
    exact .inl hab

theorem Marks.trans {target target' : Hash → Prop} {m m' m'' : MarkCtx}
    (h : Marks s target m m') (h' : Marks s target' m' m'')
    : Marks s (fun x => target x ∨ target' x) m m'' where
  stuck := h'.stuck
  capacity := by
    rw [h'.capacity, h.capacity]
  aborted := by
    intro hab
    exact h'.aborted (h.aborted hab)
  mono := by
    intro x hx
    exact h'.mono x (h.mono x hx)
  sound := by
    intro x hx
    rcases h'.sound x hx with hx | ⟨y, hy, hreach⟩
    . rcases h.sound x hx with hx | ⟨y, hy, hreach⟩
      . exact .inl hx
      . exact .inr ⟨y, .inl hy, hreach⟩
    . exact .inr ⟨y, .inr hy, hreach⟩
  stored := h'.stored
  roots := by
    intro hab x hx
    have hab' : m'.aborted = false := by
      rw [← Bool.not_eq_true] at hab ⊢
      intro habm
      exact hab (h'.aborted habm)
    rcases hx with hx | hx
    . exact h'.mono x (h.roots hab' x hx)
    . exact h'.roots hab x hx
  closed := by
    intro hab x hx hnot
    have hab' : m'.aborted = false := by
      rw [← Bool.not_eq_true] at hab ⊢
      intro habm
      exact hab (h'.aborted habm)
    by_cases hmem : x ∈ m'.keys
    . rcases h.closed hab' x hmem hnot with ⟨hgood, hkids⟩
      refine ⟨hgood, ?_⟩
      intro y hy
      exact h'.mono y (hkids y hy)
    . exact h'.closed hab x hx hmem
  bad := by
    intro hab
    rcases h'.bad hab with hab' | ⟨y, x, hy, hreach, hx⟩
    . rcases h.bad hab' with hab'' | ⟨y, x, hy, hreach, hx⟩
      . exact .inl hab''
      . exact .inr ⟨y, x, .inl hy, hreach, hx⟩
    . exact .inr ⟨y, x, .inr hy, hreach, hx⟩

theorem Marks.congr {target target' : Hash → Prop} {m m' : MarkCtx} (h : Marks s target m m')
    (heq : ∀ x, target x ↔ target' x) : Marks s target' m m' := by
  have htarget : target = target' := by
    funext x
    exact propext (heq x)
  rw [← htarget]
  exact h

theorem markObj_of_aborted {fuel : Nat} {m : MarkCtx} (h : m.aborted = true) (x : Hash)
    : markObj s fuel m x = m := by
  unfold markObj
  simp [h]

def markChildCb (s : Store) (fuel : Nat) : HashCb MarkCtx := fun h m =>
  (!(markObj s fuel m h).aborted, markObj s fuel m h)

theorem foldl_treeStep_mark (fuel : Nat) (hs : List Hash) (m : MarkCtx) (stopped : Bool)
    (h : stopped = true → m.aborted = true)
    : (hs.foldl (treeStep (markChildCb s fuel)) ⟨stopped, m⟩).ud = hs.foldl (markObj s fuel) m := by
  induction hs generalizing m stopped with
  | nil => rfl
  | cons x hs ih =>
    rw [List.foldl_cons, List.foldl_cons]
    cases stopped with
    | true =>
      have hstep : treeStep (markChildCb s fuel) ⟨true, m⟩ x = ⟨true, m⟩ := rfl
      rw [hstep, markObj_of_aborted (h rfl)]
      exact ih m true h
    | false =>
      have hstep : treeStep (markChildCb s fuel) ⟨false, m⟩ x
          = ⟨!!(markObj s fuel m x).aborted, markObj s fuel m x⟩ := rfl
      rw [hstep]
      apply ih
      simp

theorem foldChildren_mark (fuel : Nat) (kind : Option Nat) (hs : List Hash) (m : MarkCtx)
    : foldChildren kind (markChildCb s fuel) hs m = hs.foldl (markObj s fuel) m := by
  unfold foldChildren
  split
  . apply foldl_treeStep_mark
    simp
  . rfl

-- Marking a list of hashes, where marking one of them is already understood.
theorem marks_foldl {f : MarkCtx → Hash → MarkCtx} {bound : Nat} (hs : List Hash)
    (hone : ∀ m h, MarkReady s m → remaining s m < bound → Marks s (· = h) m (f m h))
    (m : MarkCtx) (hm : MarkReady s m) (hbound : remaining s m < bound)
    : Marks s (· ∈ hs) m (hs.foldl f m) := by
  induction hs generalizing m with
  | nil =>
    apply Marks.refl hm
    simp
  | cons h hs ih =>
    rw [List.foldl_cons]
    have hfirst := hone m h hm hbound
    have hrest := ih (f m h) (hfirst.ready hm)
      (Nat.lt_of_le_of_lt (remaining_le hfirst.mono) hbound)
    apply (hfirst.trans hrest).congr
    simp

theorem Reach.of_child {h c x : Hash} (hc : Child s h c) (hx : Reach s c x) : Reach s h x :=
  Relation.ReflTransGen.head hc hx

theorem remaining_cons_lt {m m' : MarkCtx} {h : Hash} (hmem : h ∈ objNames s) (hnot : h ∉ m.keys)
    (hkeys : ∀ x, x ∈ m'.keys ↔ x = h ∨ x ∈ m.keys)
    : remaining s m' < remaining s m := by
  unfold remaining
  have hlt : ((objNames s).filter (fun x => x ∉ m'.keys)).length
      < ((objNames s).filter (fun x => x ∉ m.keys)).length := by
    have hsplit : (objNames s).filter (fun x => x ∉ m'.keys)
        = ((objNames s).filter (fun x => x ∉ m.keys)).filter (fun x => x ≠ h) := by
      rw [List.filter_filter]
      apply List.filter_congr
      intro x _
      simp [hkeys]
    rw [hsplit]
    apply List.length_filter_lt_length_iff_exists.mpr
    refine ⟨h, ?_, by simp⟩
    rw [List.mem_filter]
    exact ⟨hmem, by simpa using hnot⟩
  exact hlt

-- A new key whose object cannot be read ends the marking.
theorem marks_unreadable {m m' : MarkCtx} {h : Hash}
    (hstuck : m'.stuck = false) (hcap : m'.set.capacity = m.set.capacity)
    (hkeys : ∀ x, x ∈ m'.keys ↔ x = h ∨ x ∈ m.keys) (hab : m'.aborted = true)
    (hget : storeGet s h = none)
    : Marks s (· = h) m m' where
  stuck := hstuck
  capacity := hcap
  aborted := by
    intro _
    exact hab
  mono := by
    intro x hx
    rw [hkeys]
    exact .inr hx
  sound := by
    intro x hx
    rw [hkeys] at hx
    rcases hx with rfl | hx
    . exact .inr ⟨x, rfl, Relation.ReflTransGen.refl⟩
    . exact .inl hx
  stored := by simp [hab]
  roots := by simp [hab]
  closed := by simp [hab]
  bad := by
    intro _
    refine .inr ⟨h, h, rfl, Relation.ReflTransGen.refl, ?_⟩
    intro enc henc
    rw [hget] at henc
    contradiction

-- A new key whose object has been walked, once its reported children are marked.
theorem marks_walked {m m₁ m₂ m' : MarkCtx} {h : Hash} {enc : Bytes}
    (hkeys : ∀ x, x ∈ m₁.keys ↔ x = h ∨ x ∈ m.keys)
    (hcap : m₁.set.capacity = m.set.capacity) (hab₁ : m₁.aborted = m.aborted)
    (hab : m.aborted = false)
    (hget : storeGet s h = some enc) (hkids : Marks s (· ∈ (objChildren enc false).2) m₁ m₂)
    (heq : m' = if (objChildren enc false).1 then m₂ else { m₂ with aborted := true })
    : Marks s (· = h) m m' := by
  have hset : m'.set = m₂.set := by
    rw [heq]
    split <;> rfl
  have hkeys' : m'.keys = m₂.keys := by
    unfold MarkCtx.keys
    rw [hset]
  have hok : m'.aborted = false → (objChildren enc false).1 = true ∧ m₂.aborted = false := by
    intro h'
    rw [heq] at h'
    split at h'
    next hc => exact ⟨hc, h'⟩
    next => simp at h'
  have hchild : ∀ y, y ∈ (objChildren enc false).2 → Child s h y := by
    intro y hy
    exact ⟨enc, hget, hy⟩
  constructor
  case stuck =>
    rw [heq]
    split <;> exact hkids.stuck
  case capacity => rw [hset, hkids.capacity, hcap]
  case aborted => simp [hab]
  case mono =>
    intro x hx
    rw [hkeys']
    apply hkids.mono
    rw [hkeys]
    exact .inr hx
  case sound =>
    intro x hx
    rw [hkeys'] at hx
    rcases hkids.sound x hx with hx | ⟨c, hc, hreach⟩
    . rw [hkeys] at hx
      rcases hx with rfl | hx
      . exact .inr ⟨x, rfl, Relation.ReflTransGen.refl⟩
      . exact .inl hx
    . exact .inr ⟨h, rfl, Reach.of_child (hchild c hc) hreach⟩
  case stored =>
    intro h' x hx
    rw [hkeys'] at hx
    exact hkids.stored (hok h').2 x hx
  case roots =>
    intro _ x hx
    rw [hkeys']
    apply hkids.mono
    rw [hkeys]
    exact .inl hx
  case closed =>
    intro h' x hx hnot
    rw [hkeys'] at hx ⊢
    by_cases hxh : x = h
    . subst hxh
      constructor
      . intro hbad
        have := hbad enc hget
        rw [(hok h').1] at this
        contradiction
      . intro y hy
        rcases hy with ⟨enc', hget', hmem⟩
        rw [hget] at hget'
        cases hget'
        exact hkids.roots (hok h').2 y hmem
    . apply hkids.closed (hok h').2 x hx
      rw [hkeys]
      simp [hxh, hnot]
  case bad =>
    intro h'
    by_cases hc : (objChildren enc false).1 = true
    . rw [heq, if_pos hc] at h'
      rcases hkids.bad h' with hbad | ⟨c, x, hcmem, hreach, hx⟩
      . rw [hab₁, hab] at hbad
        contradiction
      . exact .inr ⟨h, x, rfl, Reach.of_child (hchild c hcmem) hreach, hx⟩
    . refine .inr ⟨h, h, rfl, Relation.ReflTransGen.refl, ?_⟩
      intro enc' henc
      rw [hget] at henc
      cases henc
      rw [← Bool.not_eq_true]
      exact hc

theorem marks_markObj (fuel : Nat) (m : MarkCtx) (h : Hash) (hm : MarkReady s m)
    (hfuel : remaining s m < fuel)
    : Marks s (· = h) m (markObj s fuel m h) := by
  induction fuel generalizing m h with
  | zero => omega
  | succ fuel ih =>
    by_cases hab : m.aborted = true
    . rw [markObj_of_aborted hab]
      exact Marks.refl hm (.inl hab)
    rw [Bool.not_eq_true] at hab
    have hlen := length_keys_le (hm.stored hab)
    have hroom := hm.room
    unfold markObj
    rw [if_neg (by simp [hm.stuck, hab])]
    dsimp only
    by_cases hmem : h ∈ m.set.keys
    . rw [Table.add_of_mem m.set h (Nat.lt_of_le_of_lt hlen (by omega)) hmem]
      apply Marks.refl hm
      apply Or.inr
      intro x hx
      rw [hx]
      exact hmem
    . rcases Table.add_of_not_mem m.set h (Nat.lt_of_le_of_lt hlen (by omega)) hmem
        with ⟨set, hadd, hperm, hcap⟩
      rw [hadd]
      dsimp only
      have hkeys : ∀ x, x ∈ MarkCtx.keys { m with set } ↔ x = h ∨ x ∈ m.keys := by
        intro x
        exact hperm.mem_iff.trans List.mem_cons
      cases hget : storeGet s h with
      | none => exact marks_unreadable hm.stuck hcap hkeys rfl hget
      | some enc =>
        dsimp only
        have hin := mem_objNames_of_get hget
        have hready : MarkReady s { m with set } := by
          constructor
          . exact hm.stuck
          . rw [hcap]
            exact hroom
          . intro _ x hx
            rcases (hkeys x).mp hx with rfl | hx
            . exact hin
            . exact hm.stored hab x hx
        have hless : remaining s { m with set } < fuel := by
          have := remaining_cons_lt hin hmem hkeys
          omega
        have hwalk := objForeachChild_eq enc false (markChildCb s fuel) { m with set }
        rw [foldChildren_mark] at hwalk
        unfold markChildCb at hwalk
        rw [hwalk]
        have hkids := marks_foldl (objChildren enc false).2 (fun m h => ih m h) { m with set }
          hready hless
        exact marks_walked hkeys hcap rfl hab hget hkids rfl

theorem foldl_markRefCb (fuel : Nat) (rs : List Ref) (m : MarkCtx)
    : rs.foldl (fun m r => markRefCb s fuel r m) m
        = (rs.filterMap Ref.hash).foldl (markObj s fuel) m := by
  induction rs generalizing m with
  | nil => rfl
  | cons r rs ih =>
    rw [List.foldl_cons, ih]
    cases hhash : r.hash with
    | none => simp [markRefCb, hhash]
    | some h => simp [markRefCb, hhash]

-- A marked set that is closed under children holds everything reachable from what it holds.
theorem mem_keys_of_reach {target : Hash → Prop} {m m' : MarkCtx} (h : Marks s target m m')
    (hab : m'.aborted = false) (hempty : m.keys = []) {r x : Hash} (hr : target r)
    (hreach : Reach s r x)
    : x ∈ m'.keys := by
  induction hreach with
  | refl => exact h.roots hab r hr
  | tail _ hchild ih => exact (h.closed hab _ ih (by simp [hempty])).2 _ hchild

end Mark

section Sweep

def Removable (s : Store) (x : Hash) : Prop :=
  ∃ f, objFile s x = some f ∧ f.removable = true

variable {set : Hashset} (hroom : set.keys.length < set.capacity)

include hroom

theorem sweepCb_of_mem {max : Nat} {h : Hash} (w : SweepCtx) (hmem : h ∈ set.keys)
    : sweepCb set max h w = (true, w) := by
  unfold sweepCb
  rw [Table.has_eq set h hroom, decide_eq_true hmem]

theorem sweepCb_of_not_mem (max : Nat) {h : Hash} (w : SweepCtx) (hmem : h ∉ set.keys)
    : ∃ more deleted s', sweepCb set max h w = (more, { w with s := s', deleted })
        ∧ (more = false → max ≠ 0 ∧ s' = w.s) ∧ (more = true → s' = (storeObjDelete w.s h).2) := by
  unfold sweepCb
  rw [Table.has_eq set h hroom, decide_eq_false hmem]
  dsimp only
  split
  next hcap =>
    refine ⟨false, w.deleted, w.s, rfl, ?_, by simp⟩
    intro _
    exact ⟨hcap.1, rfl⟩
  next => exact ⟨true, _, _, rfl, by simp, by simp⟩

omit hroom in
theorem objFile_storeObjDelete (s : Store) (h x : Hash)
    : objFile (storeObjDelete s h).2 x
        = if x = h ∧ (∃ f, objFile s h = some f ∧ f.removable = true) then none
          else objFile s x := by
  unfold storeObjDelete
  cases hf : objFile s h with
  | none => simp
  | some f =>
    dsimp only
    by_cases hrem : f.removable = true
    . rw [if_pos hrem]
      unfold objFile
      rw [lookupObj_eraseObj]
      by_cases hx : x = h
      . simp [hx, hrem]
      . rw [if_neg]
        . simp [hx]
        . intro heq
          exact hx (hashHex_inj heq)
    . rw [if_neg hrem]
      simp [hrem]

omit hroom in
theorem storeObjDelete_refs (s : Store) (h : Hash) : (storeObjDelete s h).2.refs = s.refs := by
  unfold storeObjDelete
  split
  . rfl
  . split <;> rfl

omit hroom in
theorem storeObjDelete_pid (s : Store) (h : Hash) : (storeObjDelete s h).2.pid = s.pid := by
  unfold storeObjDelete
  split
  . rfl
  . split <;> rfl

theorem sweep_spec (max : Nat) (hs : List Hash) (w : SweepCtx) (hw : w.stuck = false)
    : (storeObjForeach.go (sweepCb set max) hs w).stuck = false
      ∧ (∀ x, x ∈ set.keys →
          objFile (storeObjForeach.go (sweepCb set max) hs w).s x = objFile w.s x)
      ∧ (∀ x, objFile (storeObjForeach.go (sweepCb set max) hs w).s x = objFile w.s x
            ∨ objFile (storeObjForeach.go (sweepCb set max) hs w).s x = none ∧ Removable w.s x)
      ∧ (max = 0 → ∀ x f, x ∈ hs → x ∉ set.keys → objFile w.s x = some f → f.removable = true →
          objFile (storeObjForeach.go (sweepCb set max) hs w).s x = none) := by
  induction hs generalizing w with
  | nil => simp [storeObjForeach.go, hw]
  | cons h hs ih =>
    unfold storeObjForeach.go
    by_cases hmem : h ∈ set.keys
    . rw [sweepCb_of_mem hroom w hmem]
      dsimp only
      rcases ih w hw with ⟨hstuck, hkeep, hdrop, hall⟩
      refine ⟨hstuck, hkeep, hdrop, ?_⟩
      intro hmax x f hx hnot hf hrem
      rcases List.mem_cons.mp hx with rfl | hx
      . contradiction
      . exact hall hmax x f hx hnot hf hrem
    . rcases sweepCb_of_not_mem hroom max w hmem with ⟨more, deleted, s', hcb, hstop, hgo⟩
      rw [hcb]
      cases more with
      | false =>
        rcases hstop rfl with ⟨hmax, rfl⟩
        simp [hw, hmax]
      | true =>
        have hs' := hgo rfl
        subst hs'
        dsimp only
        rcases ih { w with s := (storeObjDelete w.s h).2, deleted } hw
          with ⟨hstuck, hkeep, hdrop, hall⟩
        refine ⟨hstuck, ?_, ?_, ?_⟩
        . intro x hx
          rw [hkeep x hx, objFile_storeObjDelete, if_neg]
          intro heq
          rw [heq.1] at hx
          contradiction
        . intro x
          rcases hdrop x with heq | ⟨hnone, f, hf, hrem⟩
          . rw [heq, objFile_storeObjDelete]
            split
            next hdel => exact .inr ⟨rfl, hdel.1 ▸ hdel.2⟩
            next => exact .inl rfl
          . rw [objFile_storeObjDelete] at hf
            split at hf
            . contradiction
            . exact .inr ⟨hnone, f, hf, hrem⟩
        . intro hmax x f hx hnot hf hrem
          by_cases hxh : x = h
          . subst hxh
            have hnone : objFile (storeObjDelete w.s x).2 x = none := by
              rw [objFile_storeObjDelete, if_pos ⟨rfl, f, hf, hrem⟩]
            rcases hdrop x with heq | heq
            . rw [heq, hnone]
            . exact heq.1
          . apply hall hmax x f _ hnot _ hrem
            . simpa [hxh] using hx
            . rw [objFile_storeObjDelete, if_neg (by simp [hxh]), hf]

end Sweep

section Collect

variable (s : Store)

-- What the collector keeps: everything reachable from a ref its walk visits.
def Live (x : Hash) : Prop :=
  ∃ r h, Visits s r ∧ r.hash = some h ∧ Reach s h x

theorem gcCap_start_pos
    : 0 < gcCap ((storeObjCount s + 1) * 2) ((storeObjCount s + 1) * 2) 16 := by
  apply gcCap_pos
  omega

def gcMark : MarkCtx :=
  ((listedRefs s).filterMap Ref.hash).foldl (markObj s (storeObjCount s + 2))
    ⟨Table.empty hsSlot (gcCap ((storeObjCount s + 1) * 2) ((storeObjCount s + 1) * 2) 16)
      (gcCap_start_pos s), false, false⟩

theorem storeGc_eq (maxSweep : Nat)
    : storeGc s maxSweep
        = if (gcMark s).stuck then
            none
          else if (gcMark s).aborted then
            some ⟨-1, s, 0⟩
          else
            let w := storeObjForeach s (sweepCb (gcMark s).set maxSweep) ⟨s, 0, false⟩
            if w.stuck then none else some ⟨0, w.s, w.deleted⟩ := by
  unfold storeGc gcMark
  dsimp only
  rw [storeRefList_eq, foldl_markRefCb]

theorem storeObjCount_eq : storeObjCount s = (objNames s).length := by
  have hgo : ∀ (hs : List Hash) (n : Nat),
      storeObjForeach.go (fun _ n => (true, n + 1)) hs n = n + hs.length := by
    intro hs
    induction hs with
    | nil => simp [storeObjForeach.go]
    | cons h hs ih =>
      intro n
      simp only [storeObjForeach.go, ih, List.length_cons]
      omega
  unfold storeObjCount storeObjForeach
  rw [hgo]
  omega

theorem le_gcCap (need fuel cap : Nat) (hcap : 0 < cap) (hfuel : need ≤ cap + fuel)
    : need ≤ gcCap need fuel cap := by
  induction fuel generalizing cap with
  | zero => exact hfuel
  | succ fuel ih =>
    unfold gcCap
    split
    . apply ih <;> omega
    . omega

theorem mem_roots (h : Hash)
    : h ∈ (listedRefs s).filterMap Ref.hash ↔ ∃ r, Visits s r ∧ r.hash = some h := by
  simp only [List.mem_filterMap, mem_listedRefs]

theorem markReady_empty {cap : Nat} (hpos : 0 < cap) (hcap : (objNames s).length + 1 < cap)
    : MarkReady s ⟨Table.empty hsSlot cap hpos, false, false⟩ := by
  constructor
  . rfl
  . have hlen : (Table.empty hsSlot cap hpos).capacity = cap := List.length_replicate
    rw [hlen]
    exact hcap
  . intro _ x hx
    unfold MarkCtx.keys at hx
    rw [Table.keys_empty] at hx
    contradiction

omit s in
theorem keys_mk_empty {cap : Nat} (hpos : 0 < cap)
    : MarkCtx.keys ⟨Table.empty hsSlot cap hpos, false, false⟩ = [] :=
  Table.keys_empty hsSlot cap hpos

theorem marks_gcMark
    : ∃ m, m.keys = [] ∧ m.aborted = false ∧ (storeObjCount s + 1) * 2 ≤ m.set.capacity
        ∧ MarkReady s m ∧ Marks s (· ∈ (listedRefs s).filterMap Ref.hash) m (gcMark s) := by
  have hle := le_gcCap ((storeObjCount s + 1) * 2) ((storeObjCount s + 1) * 2) 16
    (by omega) (by omega)
  have hcount := storeObjCount_eq s
  have hready := markReady_empty s
    (gcCap_pos ((storeObjCount s + 1) * 2) ((storeObjCount s + 1) * 2) 16 (by omega)) (by omega)
  refine ⟨_, keys_mk_empty _, rfl, ?_, hready, ?_⟩
  . unfold Table.capacity Table.empty
    dsimp only
    rw [List.length_replicate]
    exact hle
  unfold gcMark
  apply marks_foldl _ _ _ hready _
  . exact storeObjCount s + 2
  . intro m h hm hrem
    exact marks_markObj _ m h hm hrem
  . rw [hcount]
    apply Nat.lt_of_le_of_lt (List.length_filter_le _ (objNames s))
    omega

theorem aborted_gcMark : (gcMark s).aborted = true ↔ ∃ x, Live s x ∧ BadObj s x := by
  rcases marks_gcMark s with ⟨m, hkeys, hab, _, _, hmarks⟩
  constructor
  . intro h
    rcases hmarks.bad h with h | ⟨h, x, hroot, hreach, hbad⟩
    . simp [hab] at h
    . rcases (mem_roots s h).mp hroot with ⟨r, hr, hhash⟩
      exact ⟨x, ⟨r, h, hr, hhash, hreach⟩, hbad⟩
  . intro h
    rcases h with ⟨x, ⟨r, h, hr, hhash, hreach⟩, hbad⟩
    by_contra hnot
    rw [Bool.not_eq_true] at hnot
    have hroot := (mem_roots s h).mpr ⟨r, hr, hhash⟩
    have hmem := mem_keys_of_reach hmarks hnot hkeys hroot hreach
    exact (hmarks.closed hnot x hmem (by simp [hkeys])).1 hbad

theorem keys_gcMark (h : (gcMark s).aborted = false) (x : Hash)
    : x ∈ (gcMark s).set.keys ↔ Live s x := by
  rcases marks_gcMark s with ⟨m, hkeys, _, _, _, hmarks⟩
  constructor
  . intro hx
    rcases hmarks.sound x hx with hx | ⟨h, hroot, hreach⟩
    . simp [hkeys] at hx
    . rcases (mem_roots s h).mp hroot with ⟨r, hr, hhash⟩
      exact ⟨r, h, hr, hhash, hreach⟩
  . intro hx
    rcases hx with ⟨r, h', hr, hhash, hreach⟩
    exact mem_keys_of_reach hmarks h hkeys ((mem_roots s h').mpr ⟨r, hr, hhash⟩) hreach

theorem length_keys_gcMark (h : (gcMark s).aborted = false)
    : (gcMark s).set.keys.length ≤ (objNames s).length := by
  rcases marks_gcMark s with ⟨_, _, _, _, _, hmarks⟩
  exact length_keys_le (hmarks.stored h)

theorem capacity_gcMark : (storeObjCount s + 1) * 2 ≤ (gcMark s).set.capacity := by
  rcases marks_gcMark s with ⟨_, _, _, hcap, _, hmarks⟩
  rw [hmarks.capacity]
  exact hcap

theorem room_gcMark (h : (gcMark s).aborted = false)
    : (gcMark s).set.keys.length < (gcMark s).set.capacity := by
  rcases marks_gcMark s with ⟨_, _, _, _, hready, hmarks⟩
  have hlen := length_keys_gcMark s h
  have hcap := (hmarks.ready hready).room
  omega

theorem storeGc_of_bad (maxSweep : Nat) (h : ∃ x, Live s x ∧ BadObj s x)
    : storeGc s maxSweep = some ⟨-1, s, 0⟩ := by
  rcases marks_gcMark s with ⟨_, _, _, _, _, hmarks⟩
  have hab := (aborted_gcMark s).mpr h
  rw [storeGc_eq]
  simp [hmarks.stuck, hab]

theorem storeGc_of_good (maxSweep : Nat) (h : ¬ ∃ x, Live s x ∧ BadObj s x)
    : ∃ out, storeGc s maxSweep = some out ∧ out.ret = 0
        ∧ (∀ x, Live s x → objFile out.store x = objFile s x)
        ∧ (∀ x, ¬ Removable s x → objFile out.store x = objFile s x)
        ∧ (maxSweep = 0 → ∀ x f, ¬ Live s x → objFile s x = some f → f.removable = true →
            objFile out.store x = none) := by
  rcases marks_gcMark s with ⟨_, _, _, _, _, hmarks⟩
  have hab : (gcMark s).aborted = false := by
    rw [← Bool.not_eq_true, aborted_gcMark]
    exact h
  have hlive := keys_gcMark s hab
  have hroom := room_gcMark s hab
  rcases sweep_spec hroom maxSweep (objNames s) ⟨s, 0, false⟩ rfl with ⟨hstuck, hkeep, hdrop, hall⟩
  rw [storeGc_eq]
  simp only [hmarks.stuck, hab, Bool.false_eq_true, if_false]
  unfold storeObjForeach
  rw [hstuck]
  refine ⟨_, rfl, rfl, ?_, ?_, ?_⟩
  . intro x hx
    exact hkeep x ((hlive x).mpr hx)
  . intro x hx
    rcases hdrop x with heq | ⟨_, hrem⟩
    . exact heq
    . contradiction
  . intro hmax x f hx hf hrem
    exact hall hmax x f (mem_objNames hf) (fun hmem => hx ((hlive x).mp hmem)) hf hrem

end Collect

end Harp
