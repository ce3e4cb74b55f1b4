import Harp.Core.CborLemmas

/-!
This module contains the items of CBOR as RFC 8949 has them, and how `harp_cdec_skip` relates to
them: it walks over every item of definite length, but also over things that are none.

A head can be spelled in more than one width. `Item ok` are the items `skip_item` walks over as long
as every head in them is `ok`, `CborItem` are those of the format.
-/

namespace Harp

def Head.Spells (h : Head) (hb : Bytes) : Prop :=
  ∃ arg, hb = UInt8.ofNat (h.major <<< 5 + h.ai) :: arg ∧ h.major < 8
    ∧ ((h.ai < 24 ∧ arg = [] ∧ h.val = h.ai)
      ∨ (24 ≤ h.ai ∧ h.ai < 28 ∧ arg.length = 2 ^ (h.ai - 24) ∧ h.val = beNat arg))

section Heads

theorem need_inv {n : Nat} {d d' : Cdec} (h : need n d = (some (), d'))
    : d' = d ∧ d.err = false ∧ n ≤ d.p.length := by
  unfold need at h
  split at h
  . cases h
  next hneed =>
    cases h
    rw [Bool.or_eq_true, not_or] at hneed
    simp only [Bool.not_eq_true, decide_eq_true_eq, Nat.not_lt] at hneed
    exact ⟨rfl, hneed⟩

theorem advance_inv {n : Nat} {d d' : Cdec} {bs : Bytes} (h : advance n d = (some bs, d'))
    (hn : n ≤ d.p.length) : d.p = bs ++ d'.p ∧ bs.length = n ∧ d'.err = d.err := by
  cases h
  simp [hn]

theorem readHead_arg_inv {major ai n : Nat} {d d' : Cdec} {h : Head}
    (hread : readHead.arg major ai n d = (some h, d'))
    : ∃ bs, d.p = bs ++ d'.p ∧ bs.length = n ∧ h = ⟨major, ai, beNat bs⟩ ∧ d'.err = false := by
  unfold readHead.arg at hread
  rw [Dec.bind_eq] at hread
  rcases Dec.bind_inv hread with ⟨_, d₁, hneed, hread₁⟩
  rcases need_inv hneed with ⟨rfl, herr, hlen⟩
  rw [Dec.bind_eq] at hread₁
  rcases Dec.bind_inv hread₁ with ⟨bs, d₂, hadvance, hread₂⟩
  rcases advance_inv hadvance hlen with ⟨hp, hbs, herr'⟩
  cases hread₂
  exact ⟨bs, hp, hbs, rfl, herr'.trans herr⟩

-- The initial byte of a head as its two fields.
theorem ofNat_major_ai (b : UInt8) : UInt8.ofNat ((b.toNat >>> 5) <<< 5 + b.toNat % 32) = b := by
  have hsum : (b.toNat >>> 5) <<< 5 + b.toNat % 32 = b.toNat := by
    rw [Nat.shiftRight_eq_div_pow, Nat.shiftLeft_eq]
    omega
  rw [hsum, UInt8.ofNat_toNat]

theorem readHead_inv {d d' : Cdec} {h : Head} (hread : readHead d = (some h, d'))
    : ∃ hb, d.p = hb ++ d'.p ∧ h.Spells hb ∧ d.err = false ∧ d'.err = false := by
  unfold readHead at hread
  rw [Dec.bind_eq] at hread
  rcases Dec.bind_inv hread with ⟨_, d₁, hneed, hread₁⟩
  rcases need_inv hneed with ⟨rfl, herr, hlen⟩
  rw [Dec.bind_eq] at hread₁
  rcases Dec.bind_inv hread₁ with ⟨ib, d₂, hadvance, hread₂⟩
  rcases advance_inv hadvance hlen with ⟨hp, hib, herr'⟩
  rw [List.length_eq_one_iff] at hib
  rcases hib with ⟨b, rfl⟩
  have hnat : beNat [b] = b.toNat := by simp [beNat]
  have hmajor : b.toNat >>> 5 < 8 := by
    rw [Nat.shiftRight_eq_div_pow]
    have := b.toNat_lt
    omega
  rw [hnat] at hread₂
  -- a wider argument of `n` bytes
  have harg : ∀ ai n, b.toNat % 32 = ai → 24 ≤ ai → ai < 28 → n = 2 ^ (ai - 24) →
      readHead.arg (b.toNat >>> 5) ai n d₂ = (some h, d') →
      ∃ hb, d₁.p = hb ++ d'.p ∧ h.Spells hb ∧ d₁.err = false ∧ d'.err = false := by
    intro ai n hai hge hlt hn hread
    rcases readHead_arg_inv hread with ⟨bs, hbs, hlen, rfl, herr''⟩
    refine ⟨b :: bs, ?_, ⟨bs, ?_, hmajor, .inr ⟨hge, hlt, hlen.trans hn, rfl⟩⟩, herr, herr''⟩
    . rw [hp, hbs]
      rfl
    . rw [← hai, ofNat_major_ai]
  dsimp only at hread₂
  split at hread₂
  next hsmall =>
    cases hread₂
    refine ⟨[b], hp, ⟨[], ?_, hmajor, .inl ⟨hsmall, rfl, rfl⟩⟩, herr, herr'.trans herr⟩
    rw [ofNat_major_ai]
  next =>
    split at hread₂
    next hai =>
      rw [hai] at hread₂
      apply harg 24 1 hai (by omega) (by omega) rfl hread₂
    next =>
      split at hread₂
      next hai =>
        rw [hai] at hread₂
        apply harg 25 2 hai (by omega) (by omega) rfl hread₂
      next =>
        split at hread₂
        next hai =>
          rw [hai] at hread₂
          apply harg 26 4 hai (by omega) (by omega) rfl hread₂
        next =>
          split at hread₂
          next hai =>
            rw [hai] at hread₂
            apply harg 27 8 hai (by omega) (by omega) rfl hread₂
          next => cases hread₂

theorem Head.Spells.readHead {h : Head} {hb : Bytes} (hspells : h.Spells hb) (rest : Bytes)
    : readHead ⟨hb ++ rest, false⟩ = (some h, ⟨rest, false⟩) := by
  rcases h with ⟨major, ai, val⟩
  rcases hspells with ⟨arg, rfl, hmajor, ⟨hai, rfl, hval⟩ | ⟨hge, hlt, hlen, hval⟩⟩
  . dsimp only at hmajor hai hval ⊢
    rw [List.cons_append, readHead_cons _ hmajor (by omega), if_pos hai, hval]
    rfl
  . dsimp only at hmajor hge hlt hlen hval ⊢
    rw [List.cons_append, readHead_cons _ hmajor (by omega), if_neg (by omega), hval]
    have hcases : ai = 24 ∨ ai = 25 ∨ ai = 26 ∨ ai = 27 := by omega
    rcases hcases with rfl | rfl | rfl | rfl
    . rw [if_pos rfl]
      apply readHead_arg hlen
    . rw [if_neg (by omega), if_pos rfl]
      apply readHead_arg hlen
    . rw [if_neg (by omega), if_neg (by omega), if_pos rfl]
      apply readHead_arg hlen
    . rw [if_neg (by omega), if_neg (by omega), if_neg (by omega), if_pos rfl]
      apply readHead_arg hlen

end Heads

-- What `skip_item` walks over in `levels` levels; the number of map items is a 64-bit product.
inductive Item (ok : Head → Prop) : Nat → Bytes → Prop where
  | int {levels : Nat} {h : Head} {hb : Bytes} (hspells : h.Spells hb) (hok : ok h)
      (hmajor : h.major = 0 ∨ h.major = 1) : Item ok (levels + 1) hb
  | string {levels : Nat} {h : Head} {hb s : Bytes} (hspells : h.Spells hb) (hok : ok h)
      (hmajor : h.major = 2 ∨ h.major = 3) (hlen : s.length = h.val)
      : Item ok (levels + 1) (hb ++ s)
  | array {levels : Nat} {h : Head} {hb : Bytes} {items : List Bytes} (hspells : h.Spells hb)
      (hok : ok h) (hmajor : h.major = 4) (hlen : items.length = h.val)
      (hitems : ∀ x ∈ items, Item ok levels x) : Item ok (levels + 1) (hb ++ items.flatten)
  | map {levels : Nat} {h : Head} {hb : Bytes} {items : List Bytes} (hspells : h.Spells hb)
      (hok : ok h) (hmajor : h.major = 5) (hlen : items.length = h.val * 2 % 2 ^ 64)
      (hitems : ∀ x ∈ items, Item ok levels x) : Item ok (levels + 1) (hb ++ items.flatten)
  | tag {levels : Nat} {h : Head} {hb x : Bytes} (hspells : h.Spells hb) (hok : ok h)
      (hmajor : h.major = 6) (hitem : Item ok levels x) : Item ok (levels + 1) (hb ++ x)
  | simple {levels : Nat} {h : Head} {hb : Bytes} (hspells : h.Spells hb) (hok : ok h)
      (hmajor : h.major = 7) : Item ok (levels + 1) hb

-- A complete item of definite length without tags, of at most `levels` levels.
inductive CborItem : Nat → Bytes → Prop where
  | int {levels : Nat} {h : Head} {hb : Bytes} (hspells : h.Spells hb)
      (hmajor : h.major = 0 ∨ h.major = 1) : CborItem (levels + 1) hb
  | string {levels : Nat} {h : Head} {hb s : Bytes} (hspells : h.Spells hb)
      (hmajor : h.major = 2 ∨ h.major = 3) (hlen : s.length = h.val)
      : CborItem (levels + 1) (hb ++ s)
  | array {levels : Nat} {h : Head} {hb : Bytes} {items : List Bytes} (hspells : h.Spells hb)
      (hmajor : h.major = 4) (hlen : items.length = h.val)
      (hitems : ∀ x ∈ items, CborItem levels x) : CborItem (levels + 1) (hb ++ items.flatten)
  | map {levels : Nat} {h : Head} {hb : Bytes} {items : List Bytes} (hspells : h.Spells hb)
      (hmajor : h.major = 5) (hlen : items.length = 2 * h.val)
      (hitems : ∀ x ∈ items, CborItem levels x) : CborItem (levels + 1) (hb ++ items.flatten)
  | simple {levels : Nat} {h : Head} {hb : Bytes} (hspells : h.Spells hb) (hmajor : h.major = 7)
      (hval : h.ai = 24 → 32 ≤ h.val) : CborItem (levels + 1) hb

-- No tag, no map of 2^63 or more pairs, no simple value below 32 in two bytes.
def Head.Proper (h : Head) : Prop :=
  h.major ≠ 6 ∧ (h.major = 5 → h.val < 2 ^ 63) ∧ (h.major = 7 → h.ai = 24 → 32 ≤ h.val)

section Grammar

theorem Head.Spells.length_pos {h : Head} {hb : Bytes} (hspells : h.Spells hb) : 0 < hb.length := by
  rcases hspells with ⟨arg, rfl, _⟩
  simp

theorem CborItem.length_pos {levels : Nat} {x : Bytes} (h : CborItem levels x) : 0 < x.length := by
  cases h with
  | int hspells _ => exact hspells.length_pos
  | simple hspells _ _ => exact hspells.length_pos
  | string hspells _ _ =>
    have := hspells.length_pos
    rw [List.length_append]
    omega
  | array hspells _ _ _ =>
    have := hspells.length_pos
    rw [List.length_append]
    omega
  | map hspells _ _ _ =>
    have := hspells.length_pos
    rw [List.length_append]
    omega

theorem length_le_flatten {items : List Bytes} (h : ∀ x ∈ items, 0 < x.length)
    : items.length ≤ items.flatten.length := by
  induction items with
  | nil => simp
  | cons x items ih =>
    have hx := h x List.mem_cons_self
    have htail := ih (fun y hy => h y (List.mem_cons_of_mem x hy))
    rw [List.length_cons, List.flatten_cons, List.length_append]
    omega

theorem length_le_of_mem_flatten {items : List Bytes} {x : Bytes} (h : x ∈ items)
    : x.length ≤ items.flatten.length := by
  apply List.Sublist.length_le
  exact List.sublist_flatten_of_mem h

theorem Item.mono {ok ok' : Head → Prop} (hok : ∀ h, ok h → ok' h) {levels : Nat} {x : Bytes}
    (h : Item ok levels x) : Item ok' levels x := by
  induction h with
  | int hspells hh hmajor => exact .int hspells (hok _ hh) hmajor
  | string hspells hh hmajor hlen => exact .string hspells (hok _ hh) hmajor hlen
  | array hspells hh hmajor hlen _ ih => exact .array hspells (hok _ hh) hmajor hlen ih
  | map hspells hh hmajor hlen _ ih => exact .map hspells (hok _ hh) hmajor hlen ih
  | tag hspells hh hmajor _ ih => exact .tag hspells (hok _ hh) hmajor ih
  | simple hspells hh hmajor => exact .simple hspells (hok _ hh) hmajor

theorem cborItem_of_item {levels : Nat} {x : Bytes} (h : Item Head.Proper levels x)
    : CborItem levels x := by
  induction h with
  | int hspells _ hmajor => exact .int hspells hmajor
  | string hspells _ hmajor hlen => exact .string hspells hmajor hlen
  | array hspells _ hmajor hlen _ ih => exact .array hspells hmajor hlen ih
  | map hspells hproper hmajor hlen _ ih =>
    have hval := hproper.2.1 hmajor
    apply CborItem.map hspells hmajor _ ih
    omega
  | tag _ hproper hmajor _ _ => exact absurd hmajor hproper.1
  | simple hspells hproper hmajor => exact .simple hspells hmajor (hproper.2.2 hmajor)

-- In a buffer no map has so many pairs that the product wraps around.
theorem CborItem.item {levels : Nat} {x : Bytes} (h : CborItem levels x)
    (hlen : x.length < 2 ^ 64) : Item Head.Proper levels x := by
  induction h with
  | int hspells hmajor =>
    apply Item.int hspells _ hmajor
    refine ⟨by omega, by omega, by omega⟩
  | string hspells hmajor hs =>
    apply Item.string hspells _ hmajor hs
    refine ⟨by omega, by omega, by omega⟩
  | array hspells hmajor hcount _ ih =>
    rw [List.length_append] at hlen
    apply Item.array hspells _ hmajor hcount
    . intro x hx
      have hle := length_le_of_mem_flatten hx
      exact ih x hx (by omega)
    . refine ⟨by omega, by omega, by omega⟩
  | map hspells hmajor hcount hitems ih =>
    rw [List.length_append] at hlen
    have hle := length_le_flatten (fun x hx => (hitems x hx).length_pos)
    apply Item.map hspells _ hmajor
    . omega
    . intro x hx
      have hle := length_le_of_mem_flatten hx
      exact ih x hx (by omega)
    . refine ⟨by omega, by omega, by omega⟩
  | simple hspells hmajor hval =>
    apply Item.simple hspells _ hmajor
    exact ⟨by omega, by omega, fun _ => hval⟩

end Grammar

section Skip

variable {levels : Nat}

theorem loop_skip_of_items {items : List Bytes}
    (h : ∀ x ∈ items, ∀ rest, skipItem levels ⟨x ++ rest, false⟩ = (some (), ⟨rest, false⟩))
    (rest : Bytes)
    : Dec.loop items.length (fun _ => skipItem levels) () ⟨items.flatten ++ rest, false⟩
        = (some (), ⟨rest, false⟩) := by
  induction items with
  | nil => rfl
  | cons x items ih =>
    rw [List.length_cons, List.flatten_cons, List.append_assoc,
      Dec.loop_succ_of_some (h x List.mem_cons_self _)]
    apply ih
    intro y hy
    apply h y (List.mem_cons_of_mem x hy)

theorem skipItem_of_item {ok : Head → Prop} {x : Bytes} (h : Item ok levels x) (rest : Bytes)
    : skipItem levels ⟨x ++ rest, false⟩ = (some (), ⟨rest, false⟩) := by
  induction h generalizing rest with
  | int hspells _ hmajor =>
    unfold skipItem
    rw [Dec.bind_eq, Dec.bind_of_some (hspells.readHead rest), if_pos hmajor]
    rfl
  | @string _ h hb s hspells _ hmajor hlen =>
    unfold skipItem
    rw [List.append_assoc, Dec.bind_eq, Dec.bind_of_some (hspells.readHead _), if_neg (by omega),
      if_pos hmajor, if_neg]
    . simp [← hlen]
    . rw [List.length_append]
      omega
  | array hspells _ hmajor hlen _ ih =>
    unfold skipItem
    rw [List.append_assoc, Dec.bind_eq, Dec.bind_of_some (hspells.readHead _), if_neg (by omega),
      if_neg (by omega), if_pos hmajor, ← hlen]
    apply loop_skip_of_items ih
  | map hspells _ hmajor hlen _ ih =>
    unfold skipItem
    rw [List.append_assoc, Dec.bind_eq, Dec.bind_of_some (hspells.readHead _), if_neg (by omega),
      if_neg (by omega), if_neg (by omega), if_pos hmajor, ← hlen]
    apply loop_skip_of_items ih
  | tag hspells _ hmajor _ ih =>
    unfold skipItem
    rw [List.append_assoc, Dec.bind_eq, Dec.bind_of_some (hspells.readHead _), if_neg (by omega),
      if_neg (by omega), if_neg (by omega), if_neg (by omega), if_pos hmajor]
    apply ih
  | simple hspells _ hmajor =>
    unfold skipItem
    rw [Dec.bind_eq, Dec.bind_of_some (hspells.readHead rest), if_neg (by omega),
      if_neg (by omega), if_neg (by omega), if_neg (by omega), if_neg (by omega)]
    rfl

-- What a walk that succeeds has walked over.
def Walked (levels : Nat) (d d' : Cdec) : Prop :=
  ∃ x, d.p = x ++ d'.p ∧ Item (fun _ => True) levels x ∧ d.err = false ∧ d'.err = false

theorem items_of_loop_skip (hskip : ∀ d d', skipItem levels d = (some (), d') → Walked levels d d')
    (n : Nat) {d d' : Cdec} (herr : d.err = false)
    (h : Dec.loop n (fun _ => skipItem levels) () d = (some (), d'))
    : ∃ items : List Bytes, items.length = n ∧ d.p = items.flatten ++ d'.p
        ∧ (∀ x ∈ items, Item (fun _ => True) levels x) ∧ d'.err = false := by
  induction n generalizing d with
  | zero =>
    cases h
    exact ⟨[], rfl, rfl, by simp, herr⟩
  | succ n ih =>
    rw [Dec.loop_succ] at h
    rcases Dec.bind_inv h with ⟨_, d₁, hfirst, hrest⟩
    rcases hskip d d₁ hfirst with ⟨x, hx, hitem, _, herr₁⟩
    rcases ih herr₁ hrest with ⟨items, hlen, hp, hitems, herr'⟩
    refine ⟨x :: items, by rw [List.length_cons, hlen], ?_, ?_, herr'⟩
    . rw [hx, hp, List.flatten_cons, List.append_assoc]
    . intro y hy
      rw [List.mem_cons] at hy
      rcases hy with rfl | hy
      . exact hitem
      . exact hitems y hy

theorem walked_of_skipItem (levels : Nat) (d d' : Cdec) (h : skipItem levels d = (some (), d'))
    : Walked levels d d' := by
  induction levels generalizing d d' with
  | zero => cases h
  | succ levels ih =>
    unfold skipItem at h
    rw [Dec.bind_eq] at h
    rcases Dec.bind_inv h with ⟨hd, d₁, hread, hbody⟩
    rcases readHead_inv hread with ⟨hb, hp, hspells, herr, herr₁⟩
    split at hbody
    next hmajor =>
      cases hbody
      exact ⟨hb, hp, .int hspells trivial hmajor, herr, herr₁⟩
    next =>
      split at hbody
      next hmajor =>
        dsimp only at hbody
        split at hbody
        . cases hbody
        next hlen =>
          cases hbody
          refine ⟨hb ++ d₁.p.take hd.val, ?_, ?_, herr, herr₁⟩
          . rw [hp, List.append_assoc, List.take_append_drop]
          . apply Item.string hspells trivial hmajor
            rw [List.length_take]
            omega
      next =>
        split at hbody
        next hmajor =>
          rcases items_of_loop_skip ih _ herr₁ hbody with ⟨items, hlen, hp₁, hitems, herr'⟩
          refine ⟨hb ++ items.flatten, ?_, .array hspells trivial hmajor hlen hitems, herr, herr'⟩
          rw [hp, hp₁, List.append_assoc]
        next =>
          split at hbody
          next hmajor =>
            rcases items_of_loop_skip ih _ herr₁ hbody with ⟨items, hlen, hp₁, hitems, herr'⟩
            refine ⟨hb ++ items.flatten, ?_, .map hspells trivial hmajor hlen hitems, herr, herr'⟩
            rw [hp, hp₁, List.append_assoc]
          next =>
            split at hbody
            next hmajor =>
              rcases ih d₁ d' hbody with ⟨x, hp₁, hitem, _, herr'⟩
              refine ⟨hb ++ x, ?_, .tag hspells trivial hmajor hitem, herr, herr'⟩
              rw [hp, hp₁, List.append_assoc]
            next =>
              cases hbody
              have hmajor : hd.major < 8 := by
                rcases hspells with ⟨_, _, hlt, _⟩
                exact hlt
              exact ⟨hb, hp, .simple hspells trivial (by omega), herr, herr₁⟩

end Skip

section Safe

-- The cursor only moves forward, and a failure latches the error.
structure Dec.Safe (x : Dec α) : Prop where
  forward : ∀ d, ∃ used, d.p = used ++ (x d).2.p
  latched : ∀ d, (x d).1 = none → (x d).2.err = true

theorem Dec.Safe.pure (a : α) : Dec.Safe (Dec.pure a) := by
  constructor
  . intro d
    exact ⟨[], rfl⟩
  . intro d hnone
    cases hnone

theorem Dec.Safe.error : Dec.Safe (Dec.error : Dec α) := by
  constructor
  . intro d
    exact ⟨[], rfl⟩
  . intro d _
    rfl

theorem Dec.Safe.bind {x : Dec α} {f : α → Dec β} (hx : Dec.Safe x) (hf : ∀ a, Dec.Safe (f a))
    : Dec.Safe (Dec.bind x f) := by
  constructor
  . intro d
    rcases hx.forward d with ⟨used, hused⟩
    rcases hxd : x d with ⟨_ | a, d₁⟩
    . rw [hxd] at hused
      rw [Dec.bind_of_none hxd]
      exact ⟨used, hused⟩
    . rw [hxd] at hused
      rw [Dec.bind_of_some hxd]
      rcases (hf a).forward d₁ with ⟨used', hused'⟩
      refine ⟨used ++ used', ?_⟩
      rw [List.append_assoc, ← hused']
      exact hused
  . intro d hnone
    rcases hxd : x d with ⟨_ | a, d₁⟩
    . have hlatched := hx.latched d
      rw [hxd] at hlatched
      rw [Dec.bind_of_none hxd]
      exact hlatched rfl
    . rw [Dec.bind_of_some hxd] at hnone ⊢
      exact (hf a).latched d₁ hnone

theorem Dec.Safe.loop {body : σ → Dec σ} (h : ∀ s, Dec.Safe (body s)) (n : Nat) (s : σ)
    : Dec.Safe (Dec.loop n body s) := by
  induction n generalizing s with
  | zero => exact Dec.Safe.pure s
  | succ n ih =>
    rw [Dec.loop_succ]
    exact Dec.Safe.bind (h s) ih

theorem Dec.Safe.need (n : Nat) : Dec.Safe (need n) := by
  constructor
  . intro d
    unfold Harp.need
    split <;> exact ⟨[], rfl⟩
  . intro d hnone
    unfold Harp.need at hnone ⊢
    split at hnone
    next h => rw [if_pos h, Dec.error_apply]
    next => cases hnone

theorem Dec.Safe.advance (n : Nat) : Dec.Safe (advance n) := by
  constructor
  . intro d
    exact ⟨d.p.take n, (List.take_append_drop n d.p).symm⟩
  . intro d hnone
    cases hnone

theorem Dec.Safe.ite {c : Prop} [Decidable c] {x y : Dec α} (hx : Dec.Safe x) (hy : Dec.Safe y)
    : Dec.Safe (if c then x else y) := by
  split
  . exact hx
  . exact hy

theorem readHead_safe : Dec.Safe readHead := by
  have harg : ∀ major ai n, Dec.Safe (readHead.arg major ai n) := by
    intro major ai n
    apply Dec.Safe.bind (Dec.Safe.need n)
    intro _
    apply Dec.Safe.bind (Dec.Safe.advance n)
    intro bs
    apply Dec.Safe.pure
  apply Dec.Safe.bind (Dec.Safe.need 1)
  intro _
  apply Dec.Safe.bind (Dec.Safe.advance 1)
  intro ib
  apply Dec.Safe.ite (Dec.Safe.pure _)
  apply Dec.Safe.ite (harg _ _ _)
  apply Dec.Safe.ite (harg _ _ _)
  apply Dec.Safe.ite (harg _ _ _)
  apply Dec.Safe.ite (harg _ _ _)
  apply Dec.Safe.error

theorem skipItem_safe (levels : Nat) : Dec.Safe (skipItem levels) := by
  induction levels with
  | zero => exact Dec.Safe.error
  | succ levels ih =>
    have hstring : ∀ h : Head, Dec.Safe (fun d : Cdec =>
        if d.p.length < h.val then Dec.error d else (some (), { d with p := d.p.drop h.val })) := by
      intro h
      constructor
      . intro d
        split
        . exact ⟨[], rfl⟩
        . exact ⟨d.p.take h.val, (List.take_append_drop h.val d.p).symm⟩
      . intro d hnone
        split at hnone
        next hlt => rw [if_pos hlt, Dec.error_apply]
        next => cases hnone
    unfold skipItem
    apply Dec.Safe.bind readHead_safe
    intro h
    apply Dec.Safe.ite (Dec.Safe.pure ())
    apply Dec.Safe.ite (hstring h)
    apply Dec.Safe.ite (Dec.Safe.loop (fun _ => ih) _ ())
    apply Dec.Safe.ite (Dec.Safe.loop (fun _ => ih) _ ())
    apply Dec.Safe.ite ih
    apply Dec.Safe.pure

end Safe

section Exact

-- `harp_cdec_skip` and the counts at one cursor, as the format and `cbor.h` have it.
structure SkipExact (d : Cdec) : Prop where
  accepts : (cdecSkip d).1.isSome = true
    ↔ d.err = false ∧ ∃ x rest, d.p = x ++ rest ∧ CborItem 33 x
  stops : ∀ x rest, d.err = false → d.p = x ++ rest → CborItem 33 x →
    cdecSkip d = (some (), ⟨rest, false⟩) ∧ cdecSpan d = (some x, ⟨rest, false⟩)
  errs : (cdecSkip d).1 = none → (cdecSkip d).2.err = true
  bounded : ∃ used, d.p = used ++ (cdecSkip d).2.p
  arrays : ∀ n d', cdecArray d = (some n, d') → n ≤ d'.p.length
  maps : ∀ n d', cdecMap d = (some n, d') → 2 * n ≤ d'.p.length

-- Every head that is walked over is proper, and so is the head a map count is read from.
structure SkipClean (p : Bytes) : Prop where
  items : ∀ x rest, p = x ++ rest → Item (fun _ => True) 33 x → Item Head.Proper 33 x
  maps : ∀ (h : Head) hb rest, p = hb ++ rest → h.Spells hb → h.major = 5 → 2 ^ 63 ≤ h.val →
    rest.length < h.val * 2 - 2 ^ 64

theorem cdecSkip_of_item {ok : Head → Prop} {x : Bytes} (h : Item ok 33 x) (rest : Bytes)
    : cdecSkip ⟨x ++ rest, false⟩ = (some (), ⟨rest, false⟩) := by
  apply skipItem_of_item h

theorem readCount_inv {major n : Nat} {d d' : Cdec} (h : readCount major d = (some n, d'))
    : ∃ (hd : Head) (hb : Bytes), d.p = hb ++ d'.p ∧ hd.Spells hb ∧ hd.major = major ∧ hd.val = n
        ∧ (if major = 5 then n * 2 % 2 ^ 64 else n) ≤ d'.p.length
        ∧ d.err = false ∧ d'.err = false := by
  unfold readCount at h
  rw [Dec.bind_eq] at h
  rcases Dec.bind_inv h with ⟨hd, d₁, hread, hbody⟩
  rcases readHead_inv hread with ⟨hb, hp, hspells, herr, herr₁⟩
  split at hbody
  . cases hbody
  next hmajor =>
    dsimp only at hbody
    by_cases hcost : d₁.p.length < if major = 5 then hd.val * 2 % 2 ^ 64 else hd.val
    . rw [if_pos hcost] at hbody
      cases hbody
    . rw [if_neg hcost] at hbody
      cases hbody
      exact ⟨hd, hb, hp, hspells, not_not.mp hmajor, rfl, Nat.not_lt.mp hcost, herr, herr₁⟩

theorem Head.Spells.val_lt {h : Head} {hb : Bytes} (hspells : h.Spells hb) : h.val < 2 ^ 64 := by
  rcases hspells with ⟨arg, _, _, ⟨hai, _, hval⟩ | ⟨_, hlt, hlen, hval⟩⟩
  . omega
  . have hbound := beNat_lt arg
    have hpow : 256 ^ arg.length ≤ 256 ^ 8 := by
      apply Nat.pow_le_pow_right (by omega)
      rw [hlen]
      calc 2 ^ (h.ai - 24) ≤ 2 ^ 3 := Nat.pow_le_pow_right (by omega) (by omega)
        _ = 8 := by norm_num
    omega

theorem cdecSpan_of_skip {d : Cdec} {x rest : Bytes} (hp : d.p = x ++ rest)
    (h : cdecSkip d = (some (), ⟨rest, false⟩)) : cdecSpan d = (some x, ⟨rest, false⟩) := by
  unfold cdecSpan
  rw [h, hp]
  simp

theorem skipExact_of_clean {d : Cdec} (hlen : d.p.length < 2 ^ 64)
    (hclean : d.err = false → SkipClean d.p) : SkipExact d := by
  have hstops : ∀ x rest, d.err = false → d.p = x ++ rest → CborItem 33 x →
      cdecSkip d = (some (), ⟨rest, false⟩) := by
    intro x rest herr hp hitem
    rcases d with ⟨p, err⟩
    dsimp only at herr hp hlen
    subst herr hp
    rw [List.length_append] at hlen
    exact cdecSkip_of_item (hitem.item (by omega)) rest
  constructor
  . constructor
    . intro hsome
      rw [Option.isSome_iff_exists] at hsome
      rcases hsome with ⟨u, hu⟩
      rcases walked_of_skipItem 33 d (cdecSkip d).2 (Prod.ext hu rfl) with ⟨x, hp, hitem, herr, _⟩
      refine ⟨herr, x, _, hp, ?_⟩
      apply cborItem_of_item
      exact (hclean herr).items x _ hp hitem
    . intro h
      rcases h with ⟨herr, x, rest, hp, hitem⟩
      rw [hstops x rest herr hp hitem]
      rfl
  . intro x rest herr hp hitem
    have hskip := hstops x rest herr hp hitem
    exact ⟨hskip, cdecSpan_of_skip hp hskip⟩
  . exact (skipItem_safe 33).latched d
  . exact (skipItem_safe 33).forward d
  . intro n d' h
    rcases readCount_inv h with ⟨_, _, _, _, _, _, hcost, _⟩
    exact hcost
  . intro n d' h
    rcases readCount_inv h with ⟨hd, hb, hp, hspells, hmajor, hval, hcost, herr, _⟩
    rw [if_pos rfl] at hcost
    have hlt := hspells.val_lt
    by_contra hmany
    by_cases hbig : 2 ^ 63 ≤ hd.val
    . have := (hclean herr).maps hd hb d'.p hp hspells hmajor hbig
      omega
    . omega

theorem skipClean_of_exact {d : Cdec} (hlen : d.p.length < 2 ^ 64) (herr : d.err = false)
    (h : SkipExact d) : SkipClean d.p := by
  rcases d with ⟨p, err⟩
  dsimp only at hlen herr ⊢
  subst herr
  constructor
  . intro x rest hp hitem
    subst hp
    have hskip := cdecSkip_of_item hitem rest
    have hsome := h.accepts.mp (by rw [hskip]; rfl)
    rcases hsome with ⟨_, x', rest', hp', hitem'⟩
    -- the walk ends at one place only
    have hskip' := (h.stops x' rest' rfl hp' hitem').1
    rw [hskip] at hskip'
    cases hskip'
    have hx : x = x' := List.append_cancel_right hp'
    subst hx
    apply hitem'.item
    rw [List.length_append] at hlen
    omega
  . intro hd hb rest hp hspells hmajor hbig
    subst hp
    by_contra hle
    have hlt := hspells.val_lt
    have hcount : cdecMap ⟨hb ++ rest, false⟩ = (some hd.val, ⟨rest, false⟩) := by
      unfold cdecMap readCount
      rw [Dec.bind_eq, Dec.bind_of_some (hspells.readHead rest), if_neg (not_not.mpr hmajor)]
      dsimp only
      rw [if_pos rfl, if_neg (by omega)]
      rfl
    have hmaps := h.maps _ _ hcount
    dsimp only at hmaps hlen
    rw [List.length_append] at hlen
    omega

theorem skipExact_iff {d : Cdec} (hlen : d.p.length < 2 ^ 64)
    : SkipExact d ↔ (d.err = false → SkipClean d.p) := by
  constructor
  . intro h herr
    exact skipClean_of_exact hlen herr h
  . exact skipExact_of_clean hlen

-- Tag 0 on the number 0.
def taggedZero : Bytes :=
  [0xc0, 0x00]

theorem not_skipExact_tagged : ¬ SkipExact ⟨taggedZero, false⟩ := by
  intro h
  have hskip : cdecSkip ⟨taggedZero, false⟩ = (some (), ⟨[], false⟩) := by decide
  have haccepts := h.accepts.mp (by rw [hskip]; rfl)
  rcases haccepts with ⟨_, x, rest, hp, hitem⟩
  have hwhole := (h.stops x rest rfl hp hitem).1
  rw [hskip] at hwhole
  cases hwhole
  rw [List.append_nil] at hp
  dsimp only at hp
  subst hp
  -- the initial byte fixes the major type
  have hmajor : ∀ (hd : Head) hb s, taggedZero = hb ++ s → hd.Spells hb → hd.major = 6 := by
    intro hd hb s heq hspells
    have hread := hspells.readHead s
    rw [← heq] at hread
    have hread' : readHead ⟨taggedZero, false⟩ = (some ⟨6, 0, 0⟩, ⟨[0], false⟩) := by decide
    rw [hread'] at hread
    cases hread
    rfl
  generalize hx : taggedZero = x at hitem
  cases hitem with
  | int hspells hm =>
    have := hmajor _ _ [] (by rw [hx, List.append_nil]) hspells
    omega
  | string hspells hm _ =>
    have := hmajor _ _ _ hx hspells
    omega
  | array hspells hm _ _ =>
    have := hmajor _ _ _ hx hspells
    omega
  | map hspells hm _ _ =>
    have := hmajor _ _ _ hx hspells
    omega
  | simple hspells hm _ =>
    have := hmajor _ _ [] (by rw [hx, List.append_nil]) hspells
    omega

-- An empty map in front of other bytes.
theorem skipExact_emptyMap : SkipExact ⟨[0xa0, 0xff], false⟩ := by
  rw [skipExact_iff (by decide)]
  intro _
  have hread : readHead ⟨[0xa0, 0xff], false⟩ = (some ⟨5, 0, 0⟩, ⟨[0xff], false⟩) := by decide
  have hhead : ∀ (hd : Head) hb s, [0xa0, 0xff] = hb ++ s → hd.Spells hb → hd = ⟨5, 0, 0⟩ := by
    intro hd hb s heq hspells
    have hread' := hspells.readHead s
    rw [← heq, hread] at hread'
    cases hread'
    rfl
  constructor
  . intro x rest hp hitem
    have hskip := cdecSkip_of_item hitem rest
    rw [← hp] at hskip
    have hskip' : cdecSkip ⟨[0xa0, 0xff], false⟩ = (some (), ⟨[0xff], false⟩) := by decide
    rw [hskip'] at hskip
    cases hskip
    have hx : x = [0xa0] := (List.append_cancel_right hp).symm
    subst hx
    have hspells : Head.Spells ⟨5, 0, 0⟩ [0xa0] :=
      ⟨[], by decide, by decide, .inl ⟨by decide, rfl, rfl⟩⟩
    exact @Item.map _ _ _ _ [] hspells ⟨by decide, by decide, by decide⟩ rfl rfl (by simp)
  . intro hd hb rest hp hspells _ hbig
    rw [hhead hd hb rest hp hspells] at hbig
    exact absurd hbig (by decide)

end Exact

end Harp
