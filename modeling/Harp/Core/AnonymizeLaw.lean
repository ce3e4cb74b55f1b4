import Harp.Core.Anonymize

/-!
This module contains what the anonymised device section tells: nothing about the cleared leaves, the
rest as it was. What is copied is copied as `harp_cdec_skip` walks over it, which is not always an
item of CBOR.
-/

namespace Harp

section Unique

theorem head_unique {hd hd' : Head} {hb hb' a b : Bytes} (h : hd.Spells hb) (h' : hd'.Spells hb')
    (heq : hb ++ a = hb' ++ b) : hd = hd' ∧ hb = hb' ∧ a = b := by
  have hread := h.readHead a
  rw [heq, h'.readHead b] at hread
  cases hread
  exact ⟨rfl, List.append_cancel_right heq, rfl⟩

theorem Item.mono_levels {ok : Head → Prop} {levels levels' : Nat} {x : Bytes}
    (h : Item ok levels x) (hle : levels ≤ levels') : Item ok levels' x := by
  induction h generalizing levels' with
  | int hspells hok hmajor =>
    obtain ⟨m, rfl⟩ := Nat.exists_eq_add_of_le' (Nat.lt_of_lt_of_le (Nat.succ_pos _) hle)
    exact .int hspells hok hmajor
  | string hspells hok hmajor hlen =>
    obtain ⟨m, rfl⟩ := Nat.exists_eq_add_of_le' (Nat.lt_of_lt_of_le (Nat.succ_pos _) hle)
    exact .string hspells hok hmajor hlen
  | array hspells hok hmajor hlen _ ih =>
    obtain ⟨m, rfl⟩ := Nat.exists_eq_add_of_le' (Nat.lt_of_lt_of_le (Nat.succ_pos _) hle)
    exact .array hspells hok hmajor hlen (fun x hx => ih x hx (Nat.le_of_succ_le_succ hle))
  | map hspells hok hmajor hlen _ ih =>
    obtain ⟨m, rfl⟩ := Nat.exists_eq_add_of_le' (Nat.lt_of_lt_of_le (Nat.succ_pos _) hle)
    exact .map hspells hok hmajor hlen (fun x hx => ih x hx (Nat.le_of_succ_le_succ hle))
  | tag hspells hok hmajor _ ih =>
    obtain ⟨m, rfl⟩ := Nat.exists_eq_add_of_le' (Nat.lt_of_lt_of_le (Nat.succ_pos _) hle)
    exact .tag hspells hok hmajor (ih (Nat.le_of_succ_le_succ hle))
  | simple hspells hok hmajor =>
    obtain ⟨m, rfl⟩ := Nat.exists_eq_add_of_le' (Nat.lt_of_lt_of_le (Nat.succ_pos _) hle)
    exact .simple hspells hok hmajor

-- No item is the beginning of another.
theorem item_unique {ok ok' : Head → Prop} {levels levels' : Nat} {x x' a b : Bytes}
    (h : Item ok levels x) (h' : Item ok' levels' x') (heq : x ++ a = x' ++ b) : x = x' ∧ a = b := by
  have hskip := skipItem_of_item (h.mono_levels (Nat.le_max_left levels levels')) a
  have hskip' := skipItem_of_item (h'.mono_levels (Nat.le_max_right levels levels')) b
  rw [heq, hskip'] at hskip
  cases hskip
  exact ⟨List.append_cancel_right heq, rfl⟩

end Unique

section Blind

-- The two differ in the values of the leaves that are cleared. From any place on they may be the
-- same bytes, whatever these are.
inductive Alike : List Task → Bytes → Bytes → Prop where
  | same {ts : List Task} {s : Bytes} : Alike ts s s
  | copy {ts : List Task} {levels : Nat} {x s s' : Bytes} (hitem : Item (fun _ => True) levels x)
      (h : Alike ts s s') : Alike (.value .copy :: ts) (x ++ s) (x ++ s')
  | clear {ts : List Task} {x x' s s' : Bytes} (hitem : Item (fun _ => True) 33 x)
      (hitem' : Item (fun _ => True) 33 x') (h : Alike ts s s')
      : Alike (.value .clear :: ts) (x ++ s) (x' ++ s')
  | map {ts : List Task} {field : Nat → Plan} {hd : Head} {hb s s' : Bytes} (hspells : hd.Spells hb)
      (hmajor : hd.major = 5) (h : Alike (List.replicate hd.val (.pair field) ++ ts) s s')
      : Alike (.value (.map field) :: ts) (hb ++ s) (hb ++ s')
  | array {ts : List Task} {item : Plan} {hd : Head} {hb s s' : Bytes} (hspells : hd.Spells hb)
      (hmajor : hd.major = 4) (h : Alike (List.replicate hd.val (.value item) ++ ts) s s')
      : Alike (.value (.array item) :: ts) (hb ++ s) (hb ++ s')
  | pair {ts : List Task} {field : Nat → Plan} {hd : Head} {hb s s' : Bytes} (hspells : hd.Spells hb)
      (hmajor : hd.major = 0) (h : Alike (.value (field hd.val) :: ts) s s')
      : Alike (.pair field :: ts) (hb ++ s) (hb ++ s')

variable {P : Bytes → Prop} {ts : List Task} {s s' y r : Bytes}

theorem Alike.symm (h : Alike ts s s') : Alike ts s' s := by
  induction h with
  | same => exact .same
  | copy hitem _ ih => exact .copy hitem ih
  | clear hitem hitem' _ ih => exact .clear hitem' hitem ih
  | map hspells hmajor _ ih => exact .map hspells hmajor ih
  | array hspells hmajor _ ih => exact .array hspells hmajor ih
  | pair hspells hmajor _ ih => exact .pair hspells hmajor ih

theorem rewritten_of_alike (h : Alike ts s s') (hs : Rewritten P ts s y r)
    : ∃ r', Rewritten P ts s' y r' := by
  induction h generalizing y with
  | same => exact ⟨r, hs⟩
  | @copy ts levels x s s' hitem _ ih =>
    generalize hxs : x ++ s = xs at hs
    cases hs with
    | copy hitem₁ hx hrest =>
      rcases item_unique hitem hitem₁ hxs with ⟨rfl, rfl⟩
      rcases ih hrest with ⟨r', hrest'⟩
      exact ⟨r', .copy hitem₁ hx hrest'⟩
  | @clear ts x x' s s' hitem hitem' _ ih =>
    generalize hxs : x ++ s = xs at hs
    cases hs with
    | clear hitem₁ hrest =>
      rcases item_unique hitem hitem₁ hxs with ⟨_, rfl⟩
      rcases ih hrest with ⟨r', hrest'⟩
      exact ⟨r', .clear hitem' hrest'⟩
  | @map ts field hd hb s s' hspells hmajor _ ih =>
    generalize hxs : hb ++ s = xs at hs
    cases hs with
    | map hspells₁ _ hrest =>
      rcases head_unique hspells hspells₁ hxs with ⟨rfl, rfl, rfl⟩
      rcases ih hrest with ⟨r', hrest'⟩
      exact ⟨r', .map hspells hmajor hrest'⟩
  | @array ts item hd hb s s' hspells hmajor _ ih =>
    generalize hxs : hb ++ s = xs at hs
    cases hs with
    | array hspells₁ _ hrest =>
      rcases head_unique hspells hspells₁ hxs with ⟨rfl, rfl, rfl⟩
      rcases ih hrest with ⟨r', hrest'⟩
      exact ⟨r', .array hspells hmajor hrest'⟩
  | @pair ts field hd hb s s' hspells hmajor _ ih =>
    generalize hxs : hb ++ s = xs at hs
    cases hs with
    | pair hspells₁ _ hrest =>
      rcases head_unique hspells hspells₁ hxs with ⟨rfl, rfl, rfl⟩
      rcases ih hrest with ⟨r', hrest'⟩
      exact ⟨r', .pair hspells hmajor hrest'⟩

theorem anonymize_alike {sec sec' : Bytes} (hlen : sec.length < 2 ^ 64) (hlen' : sec'.length < 2 ^ 64)
    (h : Alike [.value sectionPlan] sec sec')
    : anonymizeDeviceSection sec' = anonymizeDeviceSection sec := by
  apply Option.ext
  intro out
  rw [anonymizeDeviceSection_iff hlen, anonymizeDeviceSection_iff hlen']
  constructor
  . rintro ⟨r, hout⟩
    exact rewritten_of_alike h.symm hout
  . rintro ⟨r, hout⟩
    exact rewritten_of_alike h hout

end Blind

section Again

variable {P : Bytes → Prop} {ts : List Task} {s y r : Bytes}

theorem item_emptyText : Item (fun _ => True) 33 (cborText []) :=
  item_cborText (by simp) 32

-- What was written is read the same way, and written again as it is.
theorem Rewritten.again (h : Rewritten P ts s y r) : Rewritten P ts y y [] := by
  induction h with
  | done => exact .done
  | copy hitem hx _ ih => exact .copy hitem hx ih
  | clear _ _ ih => exact .clear item_emptyText ih
  | @map ts field hd hb s y r hspells _ _ ih =>
    rcases putHead_spells (show 5 < 8 by omega) hspells.val_lt with ⟨ai, hshort⟩
    exact @Rewritten.map P ts field ⟨5, ai, hd.val⟩ _ _ _ _ hshort rfl ih
  | @array ts item hd hb s y r hspells _ _ ih =>
    rcases putHead_spells (show 4 < 8 by omega) hspells.val_lt with ⟨ai, hshort⟩
    exact @Rewritten.array P ts item ⟨4, ai, hd.val⟩ _ _ _ _ hshort rfl ih
  | @pair ts field hd hb s y r hspells _ _ ih =>
    rcases putHead_spells (show 0 < 8 by omega) hspells.val_lt with ⟨ai, hshort⟩
    exact @Rewritten.pair P ts field ⟨0, ai, hd.val⟩ _ _ _ _ hshort rfl ih

theorem Rewritten.length_le (h : Rewritten P ts s y r) : y.length + r.length ≤ s.length := by
  have hhead : ∀ {hd : Head} {hb : Bytes} {major : Nat}, hd.Spells hb → hd.major = major →
      (putHead major hd.val).length ≤ hb.length := by
    rintro hd hb major hspells rfl
    exact hspells.putHead_le
  induction h with
  | done => simp
  | copy _ _ _ ih =>
    rw [List.length_append, List.length_append]
    omega
  | clear hitem _ ih =>
    have hpos := hitem.length_pos
    have hone : (cborText []).length = 1 := rfl
    rw [List.length_append, List.length_append]
    omega
  | map hspells hmajor _ ih =>
    have := hhead hspells hmajor
    rw [List.length_append, List.length_append, cborMap]
    omega
  | array hspells hmajor _ ih =>
    have := hhead hspells hmajor
    rw [List.length_append, List.length_append, cborArray]
    omega
  | pair hspells hmajor _ ih =>
    have := hhead hspells hmajor
    rw [List.length_append, List.length_append, cborUint]
    omega

theorem anonymize_anonymize {sec out : Bytes} (hlen : sec.length < 2 ^ 64)
    (h : anonymizeDeviceSection sec = some out) : anonymizeDeviceSection out = some out := by
  rcases (anonymizeDeviceSection_iff hlen).mp h with ⟨r, hrewritten⟩
  have hle := hrewritten.length_le
  exact (anonymizeDeviceSection_iff (by omega)).mpr ⟨[], hrewritten.again⟩

end Again

section Formed

-- A map count that does not wrap around, no simple value below 32 in two bytes.
def Head.Sound (h : Head) : Prop :=
  (h.major = 5 → h.val < 2 ^ 63) ∧ (h.major = 7 → h.ai = 24 → 32 ≤ h.val)

-- An item of RFC 8949 of definite length; tags are allowed.
def WellFormed (x : Bytes) : Prop :=
  ∃ levels, Item Head.Sound levels x

theorem exists_levels {ok : Head → Prop} {items : List Bytes}
    (h : ∀ x ∈ items, ∃ levels, Item ok levels x) : ∃ levels, ∀ x ∈ items, Item ok levels x := by
  induction items with
  | nil => exact ⟨0, fun x hx => absurd hx (List.not_mem_nil)⟩
  | cons x items ih =>
    rcases h x List.mem_cons_self with ⟨l, hx⟩
    rcases ih (fun z hz => h z (List.mem_cons_of_mem x hz)) with ⟨l', hitems⟩
    refine ⟨max l l', ?_⟩
    intro z hz
    rw [List.mem_cons] at hz
    rcases hz with rfl | hz
    . exact hx.mono_levels (Nat.le_max_left l l')
    . exact (hitems z hz).mono_levels (Nat.le_max_right l l')

-- The head of an item, and what follows it where the head counts.
theorem Item.parts {ok : Head → Prop} {levels : Nat} {x : Bytes} (h : Item ok levels x)
    : ∃ (hd : Head) (hb body : Bytes), x = hb ++ body ∧ hd.Spells hb ∧ ok hd
        ∧ (hd.major = 0 → body = [])
        ∧ (hd.major = 4 → ∃ items : List Bytes, body = items.flatten ∧ items.length = hd.val
            ∧ ∀ x ∈ items, ∃ levels, Item ok levels x)
        ∧ (hd.major = 5 → ∃ items : List Bytes, body = items.flatten
            ∧ items.length = hd.val * 2 % 2 ^ 64 ∧ ∀ x ∈ items, ∃ levels, Item ok levels x) := by
  cases h with
  | @int _ hd _ hspells hok hmajor =>
    exact ⟨hd, x, [], (List.append_nil x).symm, hspells, hok, fun _ => rfl, by omega, by omega⟩
  | @string _ hd hb s hspells hok hmajor hlen =>
    exact ⟨hd, hb, s, rfl, hspells, hok, by omega, by omega, by omega⟩
  | @array _ hd hb items hspells hok hmajor hlen hitems =>
    exact ⟨hd, hb, items.flatten, rfl, hspells, hok, by omega,
      fun _ => ⟨items, rfl, hlen, fun x hx => ⟨_, hitems x hx⟩⟩, by omega⟩
  | @map _ hd hb items hspells hok hmajor hlen hitems =>
    exact ⟨hd, hb, items.flatten, rfl, hspells, hok, by omega, by omega,
      fun _ => ⟨items, rfl, hlen, fun x hx => ⟨_, hitems x hx⟩⟩⟩
  | @tag _ hd hb x hspells hok hmajor hitem =>
    exact ⟨hd, hb, x, rfl, hspells, hok, by omega, by omega, by omega⟩
  | @simple _ hd _ hspells hok hmajor =>
    exact ⟨hd, x, [], (List.append_nil x).symm, hspells, hok, fun _ => rfl, by omega, by omega⟩

-- The head of a well-formed item that stands in front.
theorem WellFormed.parts {x a rest : Bytes} {hd : Head} {hb : Bytes} (h : WellFormed x)
    (hspells : hd.Spells hb) (heq : hb ++ a = x ++ rest)
    : hd.Sound ∧ (hd.major = 0 → a = rest)
        ∧ (hd.major = 4 → ∃ items : List Bytes, a = items.flatten ++ rest ∧ items.length = hd.val
            ∧ ∀ x ∈ items, WellFormed x)
        ∧ (hd.major = 5 → ∃ items : List Bytes, a = items.flatten ++ rest
            ∧ items.length = hd.val * 2 % 2 ^ 64 ∧ ∀ x ∈ items, WellFormed x) := by
  rcases h with ⟨levels, hitem⟩
  rcases hitem.parts with ⟨hd', hb', body, rfl, hspells', hsound, hzero, harray, hmap⟩
  rw [List.append_assoc] at heq
  rcases head_unique hspells hspells' heq with ⟨rfl, rfl, rfl⟩
  refine ⟨hsound, ?_, ?_, ?_⟩
  . intro hmajor
    rw [hzero hmajor, List.nil_append]
  . intro hmajor
    rcases harray hmajor with ⟨items, rfl, hrest⟩
    exact ⟨items, rfl, hrest⟩
  . intro hmajor
    rcases hmap hmajor with ⟨items, rfl, hrest⟩
    exact ⟨items, rfl, hrest⟩

theorem head_sound {major ai n : Nat} (hmajor : major < 7) (hn : major = 5 → n < 2 ^ 63)
    : Head.Sound ⟨major, ai, n⟩ := by
  unfold Head.Sound
  dsimp only
  omega

theorem wellFormed_emptyText : WellFormed (cborText []) := by
  rcases putHead_spells (show 3 < 8 by omega) (show (0 : Nat) < 2 ^ 64 by omega) with ⟨ai, hspells⟩
  exact ⟨1, .string hspells (head_sound (by omega) (by omega)) (.inr rfl) rfl⟩

variable {ts : List Task} {s y r : Bytes}

-- What is written is as many items as there are tasks, a pair being two.
theorem items_of_rewritten (hlen : s.length < 2 ^ 64) (h : Rewritten WellFormed ts s y r)
    : ∃ items : List Bytes, y = items.flatten ∧ items.length = cost ts
        ∧ ∀ x ∈ items, WellFormed x := by
  induction h with
  | done => exact ⟨[], rfl, rfl, fun x hx => absurd hx List.not_mem_nil⟩
  | @copy ts x s y r hitem hx _ ih =>
    rw [List.length_append] at hlen
    rcases ih (by omega) with ⟨items, rfl, hcount, hitems⟩
    refine ⟨x :: items, rfl, ?_, ?_⟩
    . rw [List.length_cons, cost_cons, Task.cost]
      omega
    . exact List.forall_mem_cons.mpr ⟨hx, hitems⟩
  | @clear ts x s y r _ _ ih =>
    rw [List.length_append] at hlen
    rcases ih (by omega) with ⟨items, rfl, hcount, hitems⟩
    refine ⟨cborText [] :: items, rfl, ?_, ?_⟩
    . rw [List.length_cons, cost_cons, Task.cost]
      omega
    . exact List.forall_mem_cons.mpr ⟨wellFormed_emptyText, hitems⟩
  | @map ts field hd hb s y r hspells _ hrest ih =>
    have hcost := hrest.cost_le
    rw [List.length_append] at hlen
    rcases ih (by omega) with ⟨items, rfl, hcount, hitems⟩
    rw [cost_append, cost_replicate, Task.cost] at hcount hcost
    -- the first items are the pairs of the map
    refine ⟨(cborMap hd.val ++ (items.take (hd.val * 2)).flatten) :: items.drop (hd.val * 2), ?_, ?_, ?_⟩
    . rw [List.flatten_cons, List.append_assoc, ← List.flatten_append, List.take_append_drop]
    . rw [List.length_cons, List.length_drop, cost_cons, Task.cost]
      omega
    . rw [List.forall_mem_cons]
      refine ⟨?_, fun x hx => hitems x (List.mem_of_mem_drop hx)⟩
      rcases exists_levels (fun x hx => hitems x (List.mem_of_mem_take hx)) with ⟨levels, hpairs⟩
      rcases putHead_spells (show 5 < 8 by omega) hspells.val_lt with ⟨ai, hshort⟩
      refine ⟨levels + 1, .map hshort (head_sound (by omega) (by omega)) rfl ?_ hpairs⟩
      rw [List.length_take, Nat.mod_eq_of_lt (by dsimp only; omega)]
      dsimp only
      omega
  | @array ts item hd hb s y r hspells _ hrest ih =>
    rw [List.length_append] at hlen
    rcases ih (by omega) with ⟨items, rfl, hcount, hitems⟩
    rw [cost_append, cost_replicate, Task.cost] at hcount
    refine ⟨(cborArray hd.val ++ (items.take hd.val).flatten) :: items.drop hd.val, ?_, ?_, ?_⟩
    . rw [List.flatten_cons, List.append_assoc, ← List.flatten_append, List.take_append_drop]
    . rw [List.length_cons, List.length_drop, cost_cons, Task.cost]
      omega
    . rw [List.forall_mem_cons]
      refine ⟨?_, fun x hx => hitems x (List.mem_of_mem_drop hx)⟩
      rcases exists_levels (fun x hx => hitems x (List.mem_of_mem_take hx)) with ⟨levels, helems⟩
      rcases putHead_spells (show 4 < 8 by omega) hspells.val_lt with ⟨ai, hshort⟩
      refine ⟨levels + 1, .array hshort (head_sound (by omega) (by omega)) rfl ?_ helems⟩
      rw [List.length_take]
      dsimp only
      omega
  | @pair ts field hd hb s y r hspells _ _ ih =>
    rw [List.length_append] at hlen
    rcases ih (by omega) with ⟨items, rfl, hcount, hitems⟩
    refine ⟨cborUint hd.val :: items, rfl, ?_, ?_⟩
    . rw [cost_cons, Task.cost] at hcount
      rw [List.length_cons, cost_cons, Task.cost]
      omega
    . rw [List.forall_mem_cons]
      refine ⟨?_, hitems⟩
      rcases putHead_spells (show 0 < 8 by omega) hspells.val_lt with ⟨ai, hshort⟩
      exact ⟨1, .int hshort (head_sound (by omega) (by omega)) (.inl rfl)⟩

-- If the items written are well formed, so is each that was copied.
theorem formed_of_items {items : List Bytes} (h : Rewritten (fun _ => True) ts s y r)
    (hy : y = items.flatten) (hcount : items.length = cost ts) (hitems : ∀ x ∈ items, WellFormed x)
    : Rewritten WellFormed ts s y r := by
  induction h generalizing items with
  | done => exact .done
  | @copy ts x s y r hitem _ _ ih =>
    rw [cost_cons, Task.cost] at hcount
    cases items with
    | nil =>
      rw [List.length_nil] at hcount
      omega
    | cons i items =>
      rw [List.forall_mem_cons] at hitems
      rcases hitems.1 with ⟨levels, hi⟩
      rcases item_unique hitem hi hy with ⟨rfl, rfl⟩
      refine .copy hitem hitems.1 (ih rfl ?_ hitems.2)
      rw [List.length_cons] at hcount
      omega
  | @clear ts x s y r hitem _ ih =>
    rw [cost_cons, Task.cost] at hcount
    cases items with
    | nil =>
      rw [List.length_nil] at hcount
      omega
    | cons i items =>
      rw [List.forall_mem_cons] at hitems
      rcases hitems.1 with ⟨levels, hi⟩
      rcases item_unique item_emptyText hi hy with ⟨_, rfl⟩
      refine .clear hitem (ih rfl ?_ hitems.2)
      rw [List.length_cons] at hcount
      omega
  | @map ts field hd hb s y r hspells hmajor _ ih =>
    rw [cost_cons, Task.cost] at hcount
    cases items with
    | nil =>
      rw [List.length_nil] at hcount
      omega
    | cons i items =>
      rw [List.forall_mem_cons] at hitems
      rcases putHead_spells (show 5 < 8 by omega) hspells.val_lt with ⟨ai, hshort⟩
      rcases hitems.1.parts hshort hy with ⟨hsound, _, _, hmap⟩
      rcases hmap rfl with ⟨pairs, rfl, hpairs, hformed⟩
      have hval := hsound.1 rfl
      dsimp only at hpairs hval
      refine .map hspells hmajor (ih (List.flatten_append).symm ?_ ?_)
      . rw [List.length_cons] at hcount
        rw [List.length_append, cost_append, cost_replicate, Task.cost]
        omega
      . exact List.forall_mem_append.mpr ⟨hformed, hitems.2⟩
  | @array ts item hd hb s y r hspells hmajor _ ih =>
    rw [cost_cons, Task.cost] at hcount
    cases items with
    | nil =>
      rw [List.length_nil] at hcount
      omega
    | cons i items =>
      rw [List.forall_mem_cons] at hitems
      rcases putHead_spells (show 4 < 8 by omega) hspells.val_lt with ⟨ai, hshort⟩
      rcases hitems.1.parts hshort hy with ⟨_, _, harray, _⟩
      rcases harray rfl with ⟨elems, rfl, helems, hformed⟩
      dsimp only at helems
      refine .array hspells hmajor (ih (List.flatten_append).symm ?_ ?_)
      . rw [List.length_cons] at hcount
        rw [List.length_append, cost_append, cost_replicate, Task.cost]
        omega
      . exact List.forall_mem_append.mpr ⟨hformed, hitems.2⟩
  | @pair ts field hd hb s y r hspells hmajor _ ih =>
    rw [cost_cons, Task.cost] at hcount
    cases items with
    | nil =>
      rw [List.length_nil] at hcount
      omega
    | cons i items =>
      rw [List.forall_mem_cons] at hitems
      rcases putHead_spells (show 0 < 8 by omega) hspells.val_lt with ⟨ai, hshort⟩
      rcases hitems.1.parts hshort hy with ⟨_, hzero, _, _⟩
      refine .pair hspells hmajor (ih (hzero rfl) ?_ hitems.2)
      rw [List.length_cons] at hcount
      rw [cost_cons, Task.cost]
      omega

end Formed

section Law

theorem Rewritten.mono {P Q : Bytes → Prop} (hP : ∀ x, P x → Q x) {ts : List Task} {s y r : Bytes}
    (h : Rewritten P ts s y r) : Rewritten Q ts s y r := by
  induction h with
  | done => exact .done
  | copy hitem hx _ ih => exact .copy hitem (hP _ hx) ih
  | clear hitem _ ih => exact .clear hitem ih
  | map hspells hmajor _ ih => exact .map hspells hmajor ih
  | array hspells hmajor _ ih => exact .array hspells hmajor ih
  | pair hspells hmajor _ ih => exact .pair hspells hmajor ih

-- Following the plan `s` is read up to `r`, where every value that is left as it is is `P`.
def Reads (P : Bytes → Prop) (p : Plan) (s r : Bytes) : Prop :=
  ∃ y, Rewritten P [.value p] s y r

-- A section that is read has only well-formed items outside of the listed leaves.
def SectionFormed (sec : Bytes) : Prop :=
  ∀ rest, Reads (fun _ => True) sectionPlan sec rest → Reads WellFormed sectionPlan sec rest

structure AnonLaw (sec : Bytes) : Prop where
  blind : ∀ sec', sec'.length < 2 ^ 64 → Alike [.value sectionPlan] sec sec' →
    anonymizeDeviceSection sec' = anonymizeDeviceSection sec
  formed : ∀ out, anonymizeDeviceSection sec = some out → WellFormed out
  kept : ∀ out, anonymizeDeviceSection sec = some out →
    ∃ rest, Rewritten (fun _ => True) [.value sectionPlan] sec out rest
  again : ∀ out, anonymizeDeviceSection sec = some out → anonymizeDeviceSection out = some out

variable {sec out rest : Bytes}

theorem wellFormed_of_rewritten (hlen : sec.length < 2 ^ 64)
    (h : Rewritten WellFormed [.value sectionPlan] sec out rest) : WellFormed out := by
  rcases items_of_rewritten hlen h with ⟨items, rfl, hcount, hitems⟩
  have hone : items.length = 1 := hcount
  rw [List.length_eq_one_iff] at hone
  rcases hone with ⟨x, rfl⟩
  rw [List.flatten_singleton]
  exact hitems x List.mem_cons_self

theorem rewritten_of_wellFormed (h : Rewritten (fun _ => True) [.value sectionPlan] sec out rest)
    (hout : WellFormed out) : Rewritten WellFormed [.value sectionPlan] sec out rest := by
  apply formed_of_items h (List.flatten_singleton).symm rfl
  intro x hx
  rw [List.mem_singleton.mp hx]
  exact hout

theorem anonLaw_iff (hlen : sec.length < 2 ^ 64) : AnonLaw sec ↔ SectionFormed sec := by
  constructor
  . intro h rest hreads
    rcases hreads with ⟨out, hout⟩
    have hformed := h.formed out ((anonymizeDeviceSection_iff hlen).mpr ⟨rest, hout⟩)
    exact ⟨out, rewritten_of_wellFormed hout hformed⟩
  . intro h
    constructor
    . intro sec' hlen' halike
      exact anonymize_alike hlen hlen' halike
    . intro out hsome
      rcases (anonymizeDeviceSection_iff hlen).mp hsome with ⟨rest, hout⟩
      rcases h rest ⟨out, hout⟩ with ⟨out', hout'⟩
      have hsome' : anonymizeDeviceSection sec = some out' :=
        (anonymizeDeviceSection_iff hlen).mpr ⟨rest, hout'.mono (fun _ _ => trivial)⟩
      rw [hsome, Option.some.injEq] at hsome'
      rw [hsome']
      exact wellFormed_of_rewritten hlen hout'
    . intro out hsome
      exact (anonymizeDeviceSection_iff hlen).mp hsome
    . intro out hsome
      exact anonymize_anonymize hlen hsome

-- The serial "S1" and the counter 5 in a field that is kept: {0: {2: "S1", 3: 5}}.
def serialSection : Bytes :=
  [0xa1, 0x00, 0xa2, 0x02, 0x62, 0x53, 0x31, 0x03, 0x05]

theorem spells_small {major n : Nat} (hmajor : major < 8) (hn : n < 24)
    : Head.Spells ⟨major, n, n⟩ [UInt8.ofNat (major <<< 5 + n)] :=
  ⟨[], rfl, hmajor, .inl ⟨hn, rfl, rfl⟩⟩

theorem serialSection_rewritten
    : Rewritten WellFormed [.value sectionPlan] serialSection
        [0xa1, 0x00, 0xa2, 0x02, 0x60, 0x03, 0x05] [] := by
  have hfive : Item Head.Sound 1 [0x05] :=
    .int (spells_small (show 0 < 8 by omega) (show 5 < 24 by omega))
      (head_sound (by omega) (by omega)) (.inl rfl)
  have hfive' := (hfive.mono (fun _ _ => trivial)).mono_levels (show 1 ≤ 33 by omega)
  have hserial : Item (fun _ => True) 33 ([0x62] ++ [0x53, 0x31]) :=
    .string (spells_small (show 3 < 8 by omega) (show 2 < 24 by omega)) trivial (.inr rfl) rfl
  apply Rewritten.map (spells_small (show 5 < 8 by omega) (show 1 < 24 by omega)) rfl
  apply Rewritten.pair (spells_small (show 0 < 8 by omega) (show 0 < 24 by omega)) rfl
  apply Rewritten.map (spells_small (show 5 < 8 by omega) (show 2 < 24 by omega)) rfl
  apply Rewritten.pair (spells_small (show 0 < 8 by omega) (show 2 < 24 by omega)) rfl
  apply Rewritten.clear hserial
  apply Rewritten.pair (spells_small (show 0 < 8 by omega) (show 3 < 24 by omega)) rfl
  apply Rewritten.copy hfive' ⟨1, hfive⟩
  apply Rewritten.done

theorem anonLaw_serialSection : AnonLaw serialSection := by
  apply (anonLaw_iff (by decide)).mpr
  intro rest hreads
  rcases hreads with ⟨out, hout⟩
  have hrun := run_of_rewritten sectionPlan _ _ _ (by decide) hout
  rw [run_of_rewritten sectionPlan _ _ _ (by decide) serialSection_rewritten] at hrun
  cases hrun
  exact ⟨_, serialSection_rewritten⟩

-- A map of 2^63 pairs that has none, in the field 1.
def wideSection : Bytes :=
  [0xa1, 0x01, 0xbb, 0x80, 0, 0, 0, 0, 0, 0, 0]

theorem not_anonLaw_wideSection : ¬ AnonLaw wideSection := by
  intro h
  have hsome : anonymizeDeviceSection wideSection = some wideSection := by decide
  have hformed := h.formed wideSection hsome
  rcases hformed.parts (spells_small (show 5 < 8 by omega) (show 1 < 24 by omega))
    (List.append_nil wideSection).symm with ⟨_, _, _, hmap⟩
  rcases hmap rfl with ⟨items, hitems, hcount, hall⟩
  rw [List.append_nil] at hitems
  have htwo : items.length = 2 := hcount
  rw [List.length_eq_two] at htwo
  rcases htwo with ⟨key, val, rfl⟩
  have hkey := hall key (by simp)
  have hval := hall val (by simp)
  rw [List.flatten_cons, List.flatten_singleton] at hitems
  rcases hkey.parts (spells_small (show 0 < 8 by omega) (show 1 < 24 by omega)) hitems with
    ⟨_, hrest, _, _⟩
  have hwide : Head.Spells ⟨5, 27, 2 ^ 63⟩ [0xbb, 0x80, 0, 0, 0, 0, 0, 0, 0] :=
    ⟨[0x80, 0, 0, 0, 0, 0, 0, 0], rfl, by decide, .inr ⟨by decide, by decide, rfl, rfl⟩⟩
  have hwhole : [0xbb, 0x80, 0, 0, 0, 0, 0, 0, 0] ++ [] = val ++ [] := by
    rw [List.append_nil, List.append_nil]
    exact hrest rfl
  exact absurd ((hval.parts hwide hwhole).1.1 rfl) (Nat.lt_irrefl _)

end Law

end Harp
