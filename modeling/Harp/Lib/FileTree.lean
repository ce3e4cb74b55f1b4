import Mathlib.Data.List.Basic

/-!
This module contains directory trees over arbitrary component and content types. A path is looked
up component by component, so an entry can only be found below a directory. What a lookup sees of a
node (`Kind`) is all the operations above it depend on.
-/

namespace FileTree

inductive Node (ν δ : Type) where
  | file (readable : Bool) (data : δ)
  | dir (listable : Bool) (ents : List (ν × Node ν δ))

inductive Kind (δ : Type) where
  | file (readable : Bool) (data : δ)
  | dir (listable : Bool)
deriving DecidableEq, Repr

variable {ν δ : Type} [DecidableEq ν]

def Node.kind : Node ν δ → Kind δ
  | .file readable data => .file readable data
  | .dir listable _ => .dir listable

def lookupEnt (c : ν) : List (ν × Node ν δ) → Option (Node ν δ)
  | [] => none
  | e :: ents => if e.1 = c then some e.2 else lookupEnt c ents

def setEnt (c : ν) (o : Option (Node ν δ)) : List (ν × Node ν δ) → List (ν × Node ν δ)
  | [] =>
    match o with
    | some n => [(c, n)]
    | none => []
  | e :: ents =>
    if e.1 = c then
      match o with
      | some n => (c, n) :: ents
      | none => setEnt c none ents
    else
      e :: setEnt c o ents

theorem lookupEnt_setEnt_self (c : ν) (o : Option (Node ν δ)) (ents : List (ν × Node ν δ))
    : lookupEnt c (setEnt c o ents) = o := by
  induction ents with
  | nil => cases o <;> simp [setEnt, lookupEnt]
  | cons e ents ih =>
    unfold setEnt
    split
    . cases o with
      | none => exact ih
      | some n => simp [lookupEnt]
    next h =>
      simp only [lookupEnt, h, if_false]
      exact ih

theorem lookupEnt_setEnt_ne {c c' : ν} (h : c' ≠ c) (o : Option (Node ν δ))
    (ents : List (ν × Node ν δ))
    : lookupEnt c' (setEnt c o ents) = lookupEnt c' ents := by
  induction ents with
  | nil => cases o <;> simp [setEnt, lookupEnt, Ne.symm h]
  | cons e ents ih =>
    unfold setEnt
    split
    next heq =>
      have hne : ¬ e.1 = c' := by
        rw [heq]
        exact Ne.symm h
      cases o with
      | none =>
        simp only [lookupEnt, hne, if_false]
        exact ih
      | some n => simp [lookupEnt, hne, Ne.symm h]
    next =>
      unfold lookupEnt
      split
      . rfl
      . exact ih

theorem mem_map_fst_iff (c : ν) (ents : List (ν × Node ν δ))
    : c ∈ ents.map Prod.fst ↔ lookupEnt c ents ≠ none := by
  induction ents with
  | nil => simp [lookupEnt]
  | cons e ents ih =>
    unfold lookupEnt
    split
    next h => simp [h]
    next h => simp [ih, Ne.symm h]

namespace Node

def find (p : List ν) (n : Node ν δ) : Option (Node ν δ) :=
  match p, n with
  | [], n => some n
  | _ :: _, .file _ _ => none
  | c :: p, .dir _ ents => (lookupEnt c ents).bind (find p)

def look (n : Node ν δ) (p : List ν) : Option (Kind δ) :=
  (n.find p).map kind

-- Replaces what stands at a non-empty path, where its parent is a directory.
def alter (f : Option (Node ν δ) → Option (Node ν δ)) (p : List ν) (n : Node ν δ) : Node ν δ :=
  match p, n with
  | [], n => n
  | _ :: _, .file readable data => .file readable data
  | [c], .dir listable ents => .dir listable (setEnt c (f (lookupEnt c ents)) ents)
  | c :: c' :: p, .dir listable ents =>
    match lookupEnt c ents with
    | some n => .dir listable (setEnt c (some (alter f (c' :: p) n)) ents)
    | none => .dir listable ents

def put (t : Node ν δ) (p : List ν) (n : Node ν δ) : Node ν δ :=
  t.alter (fun _ => some n) p

def erase (t : Node ν δ) (p : List ν) : Node ν δ :=
  t.alter (fun _ => none) p

@[simp]
theorem find_nil (n : Node ν δ) : n.find ([] : List ν) = some n := by
  cases n <;> rfl

@[simp]
theorem find_cons_file (c : ν) (p : List ν) (readable : Bool) (data : δ)
    : (Node.file readable data : Node ν δ).find (c :: p) = none := rfl

theorem find_cons_dir (c : ν) (p : List ν) (listable : Bool) (ents : List (ν × Node ν δ))
    : (Node.dir listable ents).find (c :: p) = (lookupEnt c ents).bind (find p) := rfl

theorem find_append (p q : List ν) (n : Node ν δ)
    : n.find (p ++ q) = (n.find p).bind (find q) := by
  induction p generalizing n with
  | nil => simp
  | cons c p ih =>
    cases n with
    | file readable data => simp
    | dir listable ents =>
      rw [List.cons_append, find_cons_dir, find_cons_dir]
      cases lookupEnt c ents with
      | none => rfl
      | some n => simp [ih]

def Leaf (o : Option (Node ν δ)) : Prop :=
  ∀ c p, o.bind (find (c :: p)) = none

theorem leaf_none : Leaf (none : Option (Node ν δ)) := by
  intro c p
  rfl

theorem leaf_file (readable : Bool) (data : δ) : Leaf (some (Node.file readable data : Node ν δ)) := by
  intro c p
  rfl

theorem leaf_empty_dir (listable : Bool) : Leaf (some (Node.dir listable [] : Node ν δ)) := by
  intro c p
  rfl

theorem leaf_of_look_eq_none {t : Node ν δ} {p : List ν} (h : t.look p = none)
    : Leaf (t.find p) := by
  unfold look at h
  rw [Option.map_eq_none_iff] at h
  rw [h]
  exact leaf_none

theorem leaf_of_look_eq_file {t : Node ν δ} {p : List ν} {readable : Bool} {data : δ}
    (h : t.look p = some (.file readable data))
    : Leaf (t.find p) := by
  unfold look at h
  rw [Option.map_eq_some_iff] at h
  rcases h with ⟨n, hn, hkind⟩
  rw [hn]
  cases n with
  | file => apply leaf_file
  | dir => simp [kind] at hkind

-- Replacing a node without children by another one changes what is seen at its own path only.
theorem look_alter {f : Option (Node ν δ) → Option (Node ν δ)} {p : List ν} {c : ν}
    {t : Node ν δ} {listable : Bool} (hparent : t.look p = some (.dir listable))
    (hold : Leaf (t.find (p ++ [c]))) (hnew : Leaf (f (t.find (p ++ [c])))) (q : List ν)
    : (t.alter f (p ++ [c])).look q
        = if q = p ++ [c] then (f (t.find (p ++ [c]))).map kind else t.look q := by
  induction p generalizing t q with
  | nil =>
    cases t with
    | file => simp [look, kind] at hparent
    | dir l ents =>
      simp only [List.nil_append, find_cons_dir] at hold hnew ⊢
      have hfind : (lookupEnt c ents).bind (find []) = lookupEnt c ents := by
        cases lookupEnt c ents <;> simp
      rw [hfind] at hold hnew ⊢
      unfold look alter
      cases q with
      | nil => simp [kind]
      | cons c' q =>
        rw [find_cons_dir, find_cons_dir]
        by_cases hc : c' = c
        . subst hc
          rw [lookupEnt_setEnt_self]
          cases q with
          | nil =>
            simp only [if_true]
            cases f (lookupEnt c' ents) <;> simp
          | cons c'' q => simp [hnew c'' q, hold c'' q]
        . rw [lookupEnt_setEnt_ne hc]
          simp [hc]
  | cons c' p ih =>
    cases t with
    | file => simp [look] at hparent
    | dir l ents =>
      unfold look at hparent
      rw [find_cons_dir] at hparent
      rw [List.cons_append, find_cons_dir] at hold hnew
      rcases hcp : p ++ [c] with _ | ⟨c'', cs⟩
      . simp at hcp
      cases hlookup : lookupEnt c' ents with
      | none => simp [hlookup] at hparent
      | some n =>
        rw [hlookup] at hparent hold hnew
        rw [List.cons_append, find_cons_dir, hlookup, hcp]
        simp only [Option.bind_some] at hparent hold hnew ⊢
        specialize ih hparent hold hnew
        rw [hcp] at ih
        unfold alter
        rw [hlookup]
        dsimp only
        cases q with
        | nil => simp [look, kind]
        | cons d q =>
          unfold look
          rw [find_cons_dir, find_cons_dir]
          by_cases hd : d = c'
          . subst hd
            rw [lookupEnt_setEnt_self, hlookup]
            specialize ih q
            unfold look at ih
            simp only [Option.bind_some, ih, List.cons.injEq, true_and]
          . rw [lookupEnt_setEnt_ne hd]
            simp [hd]

theorem look_dir_of_append {t : Node ν δ} {p q : List ν} (hq : q ≠ []) (h : t.look (p ++ q) ≠ none)
    : ∃ listable, t.look p = some (.dir listable) := by
  unfold look at h ⊢
  rw [find_append] at h
  cases hfind : t.find p with
  | none => simp [hfind] at h
  | some n =>
    cases n with
    | dir listable ents => exact ⟨listable, rfl⟩
    | file readable data =>
      cases q with
      | nil => contradiction
      | cons c q => simp [hfind] at h

-- What is above a directory is a directory.
theorem look_dir_of_prefix {t : Node ν δ} {p q : List ν} {listable : Bool} (hp : p <+: q)
    (h : t.look q = some (.dir listable)) : ∃ listable, t.look p = some (.dir listable) := by
  obtain ⟨rest, rfl⟩ := hp
  cases rest with
  | nil =>
    rw [List.append_nil] at h
    exact ⟨listable, h⟩
  | cons c rest =>
    apply look_dir_of_append (List.cons_ne_nil c rest)
    rw [h]
    exact Option.some_ne_none _

theorem look_put {p : List ν} {c : ν} {t n : Node ν δ} {listable : Bool}
    (hparent : t.look p = some (.dir listable)) (hold : Leaf (t.find (p ++ [c])))
    (hnew : Leaf (some n)) (q : List ν)
    : (t.put (p ++ [c]) n).look q = if q = p ++ [c] then some n.kind else t.look q :=
  look_alter hparent hold hnew q

theorem look_erase {p : List ν} {c : ν} {t : Node ν δ} {listable : Bool}
    (hparent : t.look p = some (.dir listable)) (hold : Leaf (t.find (p ++ [c]))) (q : List ν)
    : (t.erase (p ++ [c])).look q = if q = p ++ [c] then none else t.look q :=
  look_alter hparent hold leaf_none q

theorem leaf_of_not_dir {t : Node ν δ} {p : List ν}
    (h : ∀ listable, t.look p ≠ some (.dir listable)) : Leaf (t.find p) := by
  cases hlook : t.look p with
  | none => exact leaf_of_look_eq_none hlook
  | some k =>
    cases k with
    | file readable data => exact leaf_of_look_eq_file hlook
    | dir listable => exact absurd hlook (h listable)

end Node

section Files

mutual

def Node.files : Node ν δ → List (Bool × δ)
  | .file readable data => [(readable, data)]
  | .dir _ ents => entFiles ents

def entFiles : List (ν × Node ν δ) → List (Bool × δ)
  | [] => []
  | (_, n) :: ents => n.files ++ entFiles ents

end

theorem mem_entFiles {c : ν} {n : Node ν δ} {ents : List (ν × Node ν δ)} {x : Bool × δ}
    (h : lookupEnt c ents = some n) (hx : x ∈ n.files) : x ∈ entFiles ents := by
  induction ents with
  | nil => contradiction
  | cons e ents ih =>
    unfold lookupEnt at h
    unfold entFiles
    rw [List.mem_append]
    split at h
    . cases h
      exact .inl hx
    . exact .inr (ih h)

-- A file that can be looked up is one of the files of the tree.
theorem Node.mem_files {n : Node ν δ} {p : List ν} {readable : Bool} {data : δ}
    (h : n.look p = some (.file readable data)) : (readable, data) ∈ n.files := by
  unfold Node.look at h
  induction p generalizing n with
  | nil =>
    cases n with
    | file readable' data' =>
      cases h
      simp [Node.files]
    | dir listable ents => cases h
  | cons c p ih =>
    cases n with
    | file readable' data' => cases h
    | dir listable ents =>
      rw [find_cons_dir] at h
      cases hent : lookupEnt c ents with
      | none =>
        rw [hent] at h
        cases h
      | some n =>
        rw [hent, Option.bind_some] at h
        unfold Node.files
        exact mem_entFiles hent (ih h)

end Files

section Keyed

theorem mem_keys_setEnt {c c' : ν} {o : Option (Node ν δ)} {ents : List (ν × Node ν δ)}
    (h : c' ∈ (setEnt c o ents).map Prod.fst) : c' = c ∨ c' ∈ ents.map Prod.fst := by
  rw [mem_map_fst_iff] at h ⊢
  by_cases hc : c' = c
  . apply Or.inl
    assumption
  . rw [lookupEnt_setEnt_ne hc] at h
    apply Or.inr
    assumption

theorem nodup_keys_setEnt (c : ν) (o : Option (Node ν δ)) {ents : List (ν × Node ν δ)}
    (h : (ents.map Prod.fst).Nodup) : ((setEnt c o ents).map Prod.fst).Nodup := by
  induction ents with
  | nil => cases o <;> simp [setEnt]
  | cons e ents ih =>
    rw [List.map_cons, List.nodup_cons] at h
    unfold setEnt
    split
    next heq =>
      cases o with
      | none =>
        apply ih
        apply h.2
      | some n =>
        rw [heq] at h
        rw [List.map_cons, List.nodup_cons]
        apply h
    next hne =>
      rw [List.map_cons, List.nodup_cons]
      constructor
      . intro hmem
        cases mem_keys_setEnt hmem with
        | inl heq => contradiction
        | inr hmem => apply h.1 hmem
      . apply ih
        apply h.2

-- No directory of the tree has two entries of one name.
def Node.Keyed (t : Node ν δ) : Prop :=
  ∀ p listable ents, t.find p = some (.dir listable ents) → (ents.map Prod.fst).Nodup

namespace Node

theorem keyed_file (readable : Bool) (data : δ) : (Node.file readable data : Node ν δ).Keyed := by
  intro p listable ents hfind
  cases p <;> simp at hfind

theorem keyed_dir_iff (listable : Bool) (ents : List (ν × Node ν δ))
    : (Node.dir listable ents).Keyed
        ↔ (ents.map Prod.fst).Nodup ∧ ∀ c n, lookupEnt c ents = some n → n.Keyed := by
  constructor
  . intro h
    constructor
    . apply h []
      rw [find_nil]
    . intro c n hlookup p l es hfind
      apply h (c :: p) l es
      rw [find_cons_dir, hlookup]
      exact hfind
  . intro h p l es hfind
    cases p with
    | nil =>
      rw [find_nil] at hfind
      cases hfind
      apply h.1
    | cons c p =>
      rw [find_cons_dir, Option.bind_eq_some_iff] at hfind
      rcases hfind with ⟨n, hlookup, hfind⟩
      apply h.2 c n hlookup p l es hfind

theorem keyed_empty_dir (listable : Bool) : (Node.dir listable [] : Node ν δ).Keyed := by
  rw [keyed_dir_iff]
  simp [lookupEnt]

theorem keyed_setEnt {listable : Bool} {ents : List (ν × Node ν δ)} {c : ν}
    {o : Option (Node ν δ)} (h : (Node.dir listable ents).Keyed) (ho : ∀ n, o = some n → n.Keyed)
    : (Node.dir listable (setEnt c o ents)).Keyed := by
  rw [keyed_dir_iff] at h ⊢
  constructor
  . apply nodup_keys_setEnt
    apply h.1
  . intro c' n hlookup
    by_cases hc : c' = c
    . subst hc
      rw [lookupEnt_setEnt_self] at hlookup
      apply ho n hlookup
    . rw [lookupEnt_setEnt_ne hc] at hlookup
      apply h.2 c' n hlookup

theorem keyed_alter {f : Option (Node ν δ) → Option (Node ν δ)} {t : Node ν δ} (p : List ν)
    (h : t.Keyed) (hf : ∀ o n, f o = some n → n.Keyed) : (t.alter f p).Keyed := by
  induction p generalizing t with
  | nil => cases t <;> exact h
  | cons c p ih =>
    cases t with
    | file readable data => cases p <;> apply keyed_file
    | dir listable ents =>
      cases p with
      | nil =>
        unfold alter
        apply keyed_setEnt h
        apply hf
      | cons c' p =>
        unfold alter
        cases hlookup : lookupEnt c ents with
        | none => exact h
        | some n =>
          apply keyed_setEnt h
          intro n' hn'
          cases hn'
          apply ih
          rw [keyed_dir_iff] at h
          apply h.2 c n hlookup

theorem keyed_put {t n : Node ν δ} (p : List ν) (h : t.Keyed) (hn : n.Keyed)
    : (t.put p n).Keyed := by
  apply keyed_alter p h
  intro o n' hn'
  cases hn'
  exact hn

theorem keyed_erase {t : Node ν δ} (p : List ν) (h : t.Keyed) : (t.erase p).Keyed := by
  apply keyed_alter p h
  intro o n hn
  cases hn

end Node

end Keyed

end FileTree
