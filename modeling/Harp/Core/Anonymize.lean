import Harp.Core.CborValue
import Harp.Core.ObjectCodec

/-!
This module contains `harp_anonymize_device_section` of `core/src/anonymize.c`: a device section is
decoded and encoded again, and the leaves that name somebody are written as the empty text.

The loops of the source are those of a map with uint keys and of an array, at five places. A `Plan`
says what happens to a value; `Rewritten` is the walk over the bytes that follows it.
-/

namespace Harp

def clearLeaf : Dec Bytes := do
  cdecSkip
  return cborText []

def anonPair (field : Nat → Dec Bytes) : Dec Bytes := do
  let key ← cdecUint
  let val ← field key
  return cborUint key ++ val

def anonMap (field : Nat → Dec Bytes) : Dec Bytes := do
  let n ← cdecMap
  Dec.loop n (fun out => do let pair ← anonPair field; return out ++ pair) (cborMap n)

def anonArray (item : Dec Bytes) : Dec Bytes := do
  let n ← cdecArray
  Dec.loop n (fun out => do let x ← item; return out ++ x) (cborArray n)

-- Key 3 is the text of the message.
def anonLogs : Dec Bytes :=
  anonArray (anonMap (fun fk => if fk = 3 then clearLeaf else cdecSpan))

-- Key 1 is the name of the vendor or of the product.
def anonNamed : Dec Bytes :=
  anonMap (fun sk => if sk = 1 then clearLeaf else cdecSpan)

-- Keys 2, 3 and 4 are the name, the group and the path of a channel.
def anonChannelMap : Dec Bytes :=
  anonArray (anonMap (fun ekey =>
    if ekey = 2 ∨ ekey = 3 ∨ ekey = 4 then clearLeaf else cdecSpan))

-- Keys 2 and 9 are the serial and the build id.
def anonIdentity : Dec Bytes :=
  anonMap (fun ik =>
    if ik = 0 ∨ ik = 1 then
      anonNamed
    else if ik = 2 ∨ ik = 9 then
      clearLeaf
    else if ik = 7 then
      anonChannelMap
    else
      cdecSpan)

def anonSection : Dec Bytes :=
  anonMap (fun key =>
    if key = 2 then
      anonLogs
    else if key ≠ 0 then
      cdecSpan
    else
      anonIdentity)

def anonymizeDeviceSection (sec : Bytes) : Option Bytes :=
  match anonSection (Cdec.init sec) with
  | (some out, d) => if d.err then none else some out
  | (none, _) => none

inductive Plan where
  | copy
  | clear
  | map (field : Nat → Plan)
  | array (item : Plan)

def Plan.run : Plan → Dec Bytes
  | copy => cdecSpan
  | clear => clearLeaf
  | map field => anonMap (fun key => (field key).run)
  | array item => anonArray item.run

def clearKeys (keys : List Nat) : Plan :=
  .map (fun key => if key ∈ keys then .clear else .copy)

def identityPlan : Plan :=
  .map (fun ik =>
    if ik = 0 ∨ ik = 1 then
      clearKeys [1]
    else if ik = 2 ∨ ik = 9 then
      .clear
    else if ik = 7 then
      .array (clearKeys [2, 3, 4])
    else
      .copy)

def sectionPlan : Plan :=
  .map (fun key =>
    if key = 2 then .array (clearKeys [3]) else if key ≠ 0 then .copy else identityPlan)

theorem run_ite (c : Prop) [Decidable c] (p q : Plan)
    : (if c then p else q).run = if c then p.run else q.run := by
  split <;> rfl

theorem anonSection_eq : anonSection = sectionPlan.run := by
  unfold anonSection anonLogs anonIdentity anonNamed anonChannelMap sectionPlan identityPlan clearKeys
  simp [Plan.run, run_ite]

-- A value, or a key together with its value.
inductive Task where
  | value (p : Plan)
  | pair (field : Nat → Plan)

-- `Rewritten P ts s y r`: along the tasks `s` is read up to `r` and written as `y`, where all that
-- is copied is `P`.
inductive Rewritten (P : Bytes → Prop) : List Task → Bytes → Bytes → Bytes → Prop where
  | done {s : Bytes} : Rewritten P [] s [] s
  | copy {ts : List Task} {x s y r : Bytes} (hitem : Item (fun _ => True) 33 x) (hx : P x)
      (h : Rewritten P ts s y r) : Rewritten P (.value .copy :: ts) (x ++ s) (x ++ y) r
  | clear {ts : List Task} {x s y r : Bytes} (hitem : Item (fun _ => True) 33 x)
      (h : Rewritten P ts s y r) : Rewritten P (.value .clear :: ts) (x ++ s) (cborText [] ++ y) r
  | map {ts : List Task} {field : Nat → Plan} {hd : Head} {hb s y r : Bytes}
      (hspells : hd.Spells hb) (hmajor : hd.major = 5)
      (h : Rewritten P (List.replicate hd.val (.pair field) ++ ts) s y r)
      : Rewritten P (.value (.map field) :: ts) (hb ++ s) (cborMap hd.val ++ y) r
  | array {ts : List Task} {item : Plan} {hd : Head} {hb s y r : Bytes}
      (hspells : hd.Spells hb) (hmajor : hd.major = 4)
      (h : Rewritten P (List.replicate hd.val (.value item) ++ ts) s y r)
      : Rewritten P (.value (.array item) :: ts) (hb ++ s) (cborArray hd.val ++ y) r
  | pair {ts : List Task} {field : Nat → Plan} {hd : Head} {hb s y r : Bytes}
      (hspells : hd.Spells hb) (hmajor : hd.major = 0)
      (h : Rewritten P (.value (field hd.val) :: ts) s y r)
      : Rewritten P (.pair field :: ts) (hb ++ s) (cborUint hd.val ++ y) r

section Walk

variable {P : Bytes → Prop} {ts ts' : List Task} {s y r : Bytes}

theorem Rewritten.append {y' r' : Bytes} (h : Rewritten P ts s y r) (h' : Rewritten P ts' r y' r')
    : Rewritten P (ts ++ ts') s (y ++ y') r' := by
  induction h with
  | done => exact h'
  | copy hitem hx _ ih =>
    rw [List.append_assoc]
    exact .copy hitem hx (ih h')
  | clear hitem _ ih =>
    rw [List.append_assoc]
    exact .clear hitem (ih h')
  | map hspells hmajor _ ih =>
    have ih := ih h'
    rw [List.append_assoc] at ih ⊢
    exact .map hspells hmajor ih
  | array hspells hmajor _ ih =>
    have ih := ih h'
    rw [List.append_assoc] at ih ⊢
    exact .array hspells hmajor ih
  | pair hspells hmajor _ ih =>
    rw [List.append_assoc]
    exact .pair hspells hmajor (ih h')

theorem Rewritten.split (h : Rewritten P (ts ++ ts') s y r)
    : ∃ y₁ s₁ y₂, Rewritten P ts s y₁ s₁ ∧ Rewritten P ts' s₁ y₂ r ∧ y = y₁ ++ y₂ := by
  generalize hus : ts ++ ts' = us at h
  induction h generalizing ts with
  | done =>
    rw [List.append_eq_nil_iff] at hus
    rcases hus with ⟨rfl, rfl⟩
    exact ⟨[], _, [], .done, .done, rfl⟩
  | copy hitem hx hrest ih =>
    cases ts with
    | nil =>
      cases hus
      exact ⟨[], _, _, .done, .copy hitem hx hrest, rfl⟩
    | cons t ts =>
      cases hus
      rcases ih rfl with ⟨y₁, s₁, y₂, h₁, h₂, rfl⟩
      exact ⟨_, s₁, y₂, .copy hitem hx h₁, h₂, (List.append_assoc ..).symm⟩
  | clear hitem hrest ih =>
    cases ts with
    | nil =>
      cases hus
      exact ⟨[], _, _, .done, .clear hitem hrest, rfl⟩
    | cons t ts =>
      cases hus
      rcases ih rfl with ⟨y₁, s₁, y₂, h₁, h₂, rfl⟩
      exact ⟨_, s₁, y₂, .clear hitem h₁, h₂, (List.append_assoc ..).symm⟩
  | map hspells hmajor hrest ih =>
    cases ts with
    | nil =>
      cases hus
      exact ⟨[], _, _, .done, .map hspells hmajor hrest, rfl⟩
    | cons t ts =>
      cases hus
      rcases ih (List.append_assoc ..) with ⟨y₁, s₁, y₂, h₁, h₂, rfl⟩
      exact ⟨_, s₁, y₂, .map hspells hmajor h₁, h₂, (List.append_assoc ..).symm⟩
  | array hspells hmajor hrest ih =>
    cases ts with
    | nil =>
      cases hus
      exact ⟨[], _, _, .done, .array hspells hmajor hrest, rfl⟩
    | cons t ts =>
      cases hus
      rcases ih (List.append_assoc ..) with ⟨y₁, s₁, y₂, h₁, h₂, rfl⟩
      exact ⟨_, s₁, y₂, .array hspells hmajor h₁, h₂, (List.append_assoc ..).symm⟩
  | pair hspells hmajor hrest ih =>
    cases ts with
    | nil =>
      cases hus
      exact ⟨[], _, _, .done, .pair hspells hmajor hrest, rfl⟩
    | cons t ts =>
      cases hus
      rcases @ih (_ :: ts) rfl with ⟨y₁, s₁, y₂, h₁, h₂, rfl⟩
      exact ⟨_, s₁, y₂, .pair hspells hmajor h₁, h₂, (List.append_assoc ..).symm⟩

end Walk

section Run

variable {P : Bytes → Prop} {ts : List Task} {s y r : Bytes} {d d' : Cdec}

-- Each value takes a byte at least, each pair two.
def Task.cost : Task → Nat
  | value _ => 1
  | pair _ => 2

def cost (ts : List Task) : Nat :=
  (ts.map Task.cost).sum

theorem cost_append (ts ts' : List Task) : cost (ts ++ ts') = cost ts + cost ts' := by
  unfold cost
  rw [List.map_append, List.sum_append]

theorem cost_cons (t : Task) (ts : List Task) : cost (t :: ts) = t.cost + cost ts := by
  unfold cost
  rw [List.map_cons, List.sum_cons]

theorem cost_replicate (n : Nat) (t : Task) : cost (List.replicate n t) = n * t.cost := by
  unfold cost
  rw [List.map_replicate, List.sum_replicate, smul_eq_mul]

theorem Item.length_pos {ok : Head → Prop} {levels : Nat} {x : Bytes} (h : Item ok levels x)
    : 0 < x.length := by
  cases h with
  | int hspells _ _ => exact hspells.length_pos
  | string hspells _ _ _ =>
    have := hspells.length_pos
    rw [List.length_append]
    omega
  | array hspells _ _ _ _ =>
    have := hspells.length_pos
    rw [List.length_append]
    omega
  | map hspells _ _ _ _ =>
    have := hspells.length_pos
    rw [List.length_append]
    omega
  | tag hspells _ _ _ =>
    have := hspells.length_pos
    rw [List.length_append]
    omega
  | simple hspells _ _ => exact hspells.length_pos

theorem Rewritten.cost_le (h : Rewritten P ts s y r) : r.length + cost ts ≤ s.length := by
  induction h with
  | done => exact Nat.le_refl _
  | copy hitem _ _ ih =>
    have := hitem.length_pos
    rw [cost_cons, Task.cost, List.length_append]
    omega
  | clear hitem _ ih =>
    have := hitem.length_pos
    rw [cost_cons, Task.cost, List.length_append]
    omega
  | map hspells _ _ ih =>
    have := hspells.length_pos
    rw [cost_append] at ih
    rw [cost_cons, Task.cost, List.length_append]
    omega
  | array hspells _ _ ih =>
    have := hspells.length_pos
    rw [cost_append] at ih
    rw [cost_cons, Task.cost, List.length_append]
    omega
  | pair hspells _ _ ih =>
    have := hspells.length_pos
    simp only [cost_cons, Task.cost] at ih ⊢
    rw [List.length_append]
    omega

-- A loop that appends what it reads.
theorem loop_append_inv {item : Dec Bytes} {t : Task} (hitem : ∀ d d' y, d.err = false →
      item d = (some y, d') → Rewritten P [t] d.p y d'.p ∧ d'.err = false)
    (n : Nat) {out : Bytes} (herr : d.err = false)
    (h : Dec.loop n (fun out => do let x ← item; return out ++ x) out d = (some y, d'))
    : ∃ y', y = out ++ y' ∧ Rewritten P (List.replicate n t) d.p y' d'.p ∧ d'.err = false := by
  induction n generalizing out d with
  | zero =>
    cases h
    exact ⟨[], (List.append_nil _).symm, .done, herr⟩
  | succ n ih =>
    rw [Dec.loop_succ] at h
    rcases Dec.bind_inv h with ⟨out₁, d₁, hbody, hrest⟩
    rw [Dec.bind_eq] at hbody
    rcases Dec.bind_inv hbody with ⟨x, d₂, hx, hpure⟩
    cases hpure
    rcases hitem d d₁ x herr hx with ⟨hfirst, herr₁⟩
    rcases ih herr₁ hrest with ⟨y', hy, htail, herr'⟩
    refine ⟨x ++ y', ?_, ?_, herr'⟩
    . rw [hy, List.append_assoc]
    . exact hfirst.append htail

theorem loop_append_of {item : Dec Bytes} {t : Task} (hitem : ∀ s y r, s.length < 2 ^ 64 →
      Rewritten P [t] s y r → item ⟨s, false⟩ = (some y, ⟨r, false⟩))
    (n : Nat) (out : Bytes) (hlen : s.length < 2 ^ 64)
    (h : Rewritten P (List.replicate n t) s y r)
    : Dec.loop n (fun out => do let x ← item; return out ++ x) out ⟨s, false⟩
        = (some (out ++ y), ⟨r, false⟩) := by
  induction n generalizing s y out with
  | zero =>
    cases h
    rw [List.append_nil]
    rfl
  | succ n ih =>
    rw [List.replicate_succ, ← List.singleton_append] at h
    rcases h.split with ⟨y₁, s₁, y₂, hfirst, hrest, rfl⟩
    have hle := hfirst.cost_le
    have hbody : (do let x ← item; return out ++ x : Dec Bytes) ⟨s, false⟩
        = (some (out ++ y₁), ⟨s₁, false⟩) := by
      rw [Dec.bind_eq, Dec.bind_of_some (hitem s y₁ s₁ hlen hfirst)]
      rfl
    rw [Dec.loop_succ_of_some hbody, ih _ (by omega) hrest, List.append_assoc]

theorem cdecSpan_inv {x : Bytes} (h : cdecSpan d = (some x, d'))
    : d.p = x ++ d'.p ∧ Item (fun _ => True) 33 x ∧ d'.err = false := by
  unfold cdecSpan at h
  rcases hskip : cdecSkip d with ⟨o, d₁⟩
  rw [hskip] at h
  cases o with
  | none => cases h
  | some u =>
    cases h
    rcases walked_of_skipItem 33 d d' hskip with ⟨x, hp, hitem, _, herr⟩
    have htake : d.p.take (d.p.length - d'.p.length) = x := by
      rw [hp, List.length_append, Nat.add_sub_cancel, List.take_left]
    rw [htake]
    exact ⟨hp, hitem, herr⟩

theorem anonPair_inv {field : Nat → Plan} (hfield : ∀ key d d' y, d.err = false →
      (field key).run d = (some y, d') → Rewritten P [.value (field key)] d.p y d'.p ∧ d'.err = false)
    (h : anonPair (fun key => (field key).run) d = (some y, d'))
    : Rewritten P [.pair field] d.p y d'.p ∧ d'.err = false := by
  unfold anonPair at h
  rw [Dec.bind_eq] at h
  rcases Dec.bind_inv h with ⟨key, d₁, hkey, hrest⟩
  rw [Dec.bind_eq] at hrest
  rcases Dec.bind_inv hrest with ⟨val, d₂, hval, hpure⟩
  cases hpure
  unfold cdecUint at hkey
  rw [Dec.bind_eq] at hkey
  rcases Dec.bind_inv hkey with ⟨hd, d₃, hread, hbody⟩
  split at hbody
  . cases hbody
  next hmajor =>
    cases hbody
    rcases readHead_inv hread with ⟨hb, hp, hspells, _, herr₁⟩
    rcases hfield _ _ _ _ herr₁ hval with ⟨hrewritten, herr'⟩
    rw [hp]
    exact ⟨.pair hspells (not_not.mp hmajor) hrewritten, herr'⟩

theorem rewritten_of_run (p : Plan) (d d' : Cdec) (y : Bytes) (herr : d.err = false)
    (h : p.run d = (some y, d'))
    : Rewritten (fun _ => True) [.value p] d.p y d'.p ∧ d'.err = false := by
  induction p generalizing d d' y with
  | copy =>
    rcases cdecSpan_inv h with ⟨hp, hitem, herr'⟩
    have hcopied := Rewritten.copy hitem (P := fun _ => True) trivial (.done (s := d'.p))
    rw [List.append_nil, ← hp] at hcopied
    exact ⟨hcopied, herr'⟩
  | clear =>
    unfold Plan.run clearLeaf at h
    rw [Dec.bind_eq] at h
    rcases Dec.bind_inv h with ⟨_, d₁, hskip, hpure⟩
    cases hpure
    rcases walked_of_skipItem 33 d d' hskip with ⟨x, hp, hitem, _, herr'⟩
    have hcleared := Rewritten.clear hitem (P := fun _ => True) (.done (s := d'.p))
    rw [List.append_nil, ← hp] at hcleared
    exact ⟨hcleared, herr'⟩
  | map field ih =>
    unfold Plan.run anonMap at h
    rw [Dec.bind_eq] at h
    rcases Dec.bind_inv h with ⟨n, d₁, hmap, hloop⟩
    rcases readCount_inv hmap with ⟨hd, hb, hp, hspells, hmajor, rfl, _, _, herr₁⟩
    rcases loop_append_inv (t := .pair field) (fun d d' y _ => anonPair_inv ih) _ herr₁ hloop with
      ⟨y', rfl, hpairs, herr'⟩
    rw [hp]
    refine ⟨.map hspells hmajor ?_, herr'⟩
    rw [List.append_nil]
    exact hpairs
  | array item ih =>
    unfold Plan.run anonArray at h
    rw [Dec.bind_eq] at h
    rcases Dec.bind_inv h with ⟨n, d₁, harray, hloop⟩
    rcases readCount_inv harray with ⟨hd, hb, hp, hspells, hmajor, rfl, _, _, herr₁⟩
    rcases loop_append_inv (t := .value item) ih _ herr₁ hloop with
      ⟨y', rfl, hitems, herr'⟩
    rw [hp]
    refine ⟨.array hspells hmajor ?_, herr'⟩
    rw [List.append_nil]
    exact hitems

theorem anonPair_of {field : Nat → Plan} (hfield : ∀ key s y r, s.length < 2 ^ 64 →
      Rewritten P [.value (field key)] s y r → (field key).run ⟨s, false⟩ = (some y, ⟨r, false⟩))
    (hlen : s.length < 2 ^ 64) (h : Rewritten P [.pair field] s y r)
    : anonPair (fun key => (field key).run) ⟨s, false⟩ = (some y, ⟨r, false⟩) := by
  cases h with
  | @pair _ _ hd hb s y _ hspells hmajor h =>
    rw [List.length_append] at hlen
    have hkey : cdecUint ⟨hb ++ s, false⟩ = (some hd.val, ⟨s, false⟩) := by
      unfold cdecUint
      rw [Dec.bind_eq, Dec.bind_of_some (hspells.readHead s), if_neg (not_not.mpr hmajor)]
      rfl
    unfold anonPair
    rw [Dec.bind_eq, Dec.bind_of_some hkey, Dec.bind_eq,
      Dec.bind_of_some (hfield hd.val s y r (by omega) h)]
    rfl

theorem readCount_of_spells {major : Nat} {hd : Head} {hb : Bytes} (hspells : hd.Spells hb)
    (hmajor : hd.major = major) (hcost : (if major = 5 then hd.val * 2 % 2 ^ 64 else hd.val) ≤ s.length)
    : readCount major ⟨hb ++ s, false⟩ = (some hd.val, ⟨s, false⟩) := by
  unfold readCount
  rw [Dec.bind_eq, Dec.bind_of_some (hspells.readHead s), if_neg (not_not.mpr hmajor)]
  dsimp only
  rw [if_neg (Nat.not_lt.mpr hcost)]
  rfl

theorem run_of_rewritten (p : Plan) (s y r : Bytes) (hlen : s.length < 2 ^ 64)
    (h : Rewritten P [.value p] s y r) : p.run ⟨s, false⟩ = (some y, ⟨r, false⟩) := by
  induction p generalizing s y r with
  | copy =>
    cases h with
    | copy hitem _ hrest =>
      cases hrest
      rw [List.append_nil]
      exact cdecSpan_of_skip rfl (cdecSkip_of_item hitem _)
  | clear =>
    cases h with
    | clear hitem hrest =>
      cases hrest
      unfold Plan.run clearLeaf
      rw [Dec.bind_eq, Dec.bind_of_some (cdecSkip_of_item hitem _), List.append_nil]
      rfl
  | map field ih =>
    cases h with
    | @map _ _ hd hb s y _ hspells hmajor hpairs =>
      rw [List.append_nil] at hpairs
      have hcost := hpairs.cost_le
      rw [cost_replicate, Task.cost] at hcost
      rw [List.length_append] at hlen
      have hcount : cdecMap ⟨hb ++ s, false⟩ = (some hd.val, ⟨s, false⟩) := by
        apply readCount_of_spells hspells hmajor
        rw [if_pos rfl, Nat.mod_eq_of_lt (by omega)]
        omega
      unfold Plan.run anonMap
      rw [Dec.bind_eq, Dec.bind_of_some hcount]
      exact loop_append_of (fun s y r hs => anonPair_of ih hs) hd.val _ (by omega) hpairs
  | array item ih =>
    cases h with
    | @array _ _ hd hb s y _ hspells hmajor hitems =>
      rw [List.append_nil] at hitems
      have hcost := hitems.cost_le
      rw [cost_replicate, Task.cost] at hcost
      rw [List.length_append] at hlen
      have hcount : cdecArray ⟨hb ++ s, false⟩ = (some hd.val, ⟨s, false⟩) := by
        apply readCount_of_spells hspells hmajor
        rw [if_neg (by omega)]
        omega
      unfold Plan.run anonArray
      rw [Dec.bind_eq, Dec.bind_of_some hcount]
      exact loop_append_of ih hd.val _ (by omega) hitems

theorem anonymizeDeviceSection_iff {sec out : Bytes} (hlen : sec.length < 2 ^ 64)
    : anonymizeDeviceSection sec = some out
        ↔ ∃ r, Rewritten (fun _ => True) [.value sectionPlan] sec out r := by
  unfold anonymizeDeviceSection
  rw [anonSection_eq]
  constructor
  . intro h
    rcases hrun : sectionPlan.run (Cdec.init sec) with ⟨o, d⟩
    rw [hrun] at h
    cases o with
    | none => cases h
    | some y =>
      rcases rewritten_of_run sectionPlan (Cdec.init sec) d y rfl hrun with ⟨hrewritten, herr⟩
      simp only [herr, Bool.false_eq_true, if_false, Option.some.injEq] at h
      subst h
      exact ⟨d.p, hrewritten⟩
  . rintro ⟨r, h⟩
    have hrun := run_of_rewritten sectionPlan sec out r hlen h
    unfold Cdec.init
    rw [hrun]
    rfl

end Run

end Harp
