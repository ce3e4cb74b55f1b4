import Harp.Lib.FileTree

/-!
This module contains the paths of all the files of a directory tree, each of them once, and what an
update of the tree at one path leaves below the paths that are neither above nor below it.
-/

namespace FileTree

variable {ν δ : Type}

mutual

def Node.filePaths : Node ν δ → List (List ν)
  | .file _ _ => [[]]
  | .dir _ ents => entFilePaths ents

def entFilePaths : List (ν × Node ν δ) → List (List ν)
  | [] => []
  | (c, n) :: ents => n.filePaths.map (c :: ·) ++ entFilePaths ents

end

theorem mem_entFilePaths (p : List ν) (ents : List (ν × Node ν δ))
    : p ∈ entFilePaths ents ↔ ∃ e ∈ ents, ∃ q ∈ e.2.filePaths, p = e.1 :: q := by
  induction ents with
  | nil => simp [entFilePaths]
  | cons e ents ih =>
    unfold entFilePaths
    rw [List.mem_append, ih, List.mem_map]
    simp [eq_comm (a := p)]

variable [DecidableEq ν]

theorem mem_iff_lookupEnt {ents : List (ν × Node ν δ)} (h : (ents.map Prod.fst).Nodup) (c : ν)
    (n : Node ν δ) : (c, n) ∈ ents ↔ lookupEnt c ents = some n := by
  induction ents with
  | nil => simp [lookupEnt]
  | cons e ents ih =>
    rw [List.map_cons, List.nodup_cons] at h
    unfold lookupEnt
    rw [List.mem_cons]
    split
    next heq =>
      rw [Option.some.injEq]
      constructor
      . intro hmem
        cases hmem with
        | inl hhead => rw [← hhead]
        | inr htail =>
          apply absurd _ h.1
          rw [heq]
          exact List.mem_map_of_mem (f := Prod.fst) htail
      . intro hn
        apply Or.inl
        rw [← heq, ← hn]
    next hne =>
      rw [← ih h.2]
      constructor
      . intro hmem
        cases hmem with
        | inl hhead =>
          rw [← hhead] at hne
          contradiction
        | inr htail => exact htail
      . exact Or.inr

theorem Node.Keyed.of_mem {listable : Bool} {ents : List (ν × Node ν δ)} {e : ν × Node ν δ}
    (h : (Node.dir listable ents).Keyed) (he : e ∈ ents) : e.2.Keyed := by
  rw [keyed_dir_iff] at h
  apply h.2 e.1 e.2
  rw [← mem_iff_lookupEnt h.1]
  exact he

-- The files of the tree are what can be looked up as one.
theorem Node.mem_filePaths {t : Node ν δ} (h : t.Keyed) (p : List ν)
    : p ∈ t.filePaths ↔ ∃ readable data, t.look p = some (.file readable data) := by
  induction p generalizing t with
  | nil =>
    cases t with
    | file readable data => simp [filePaths, look, kind]
    | dir listable ents =>
      unfold filePaths
      rw [mem_entFilePaths]
      simp [look, kind]
  | cons c p ih =>
    cases t with
    | file readable data => simp [filePaths, look]
    | dir listable ents =>
      have hkeys := ((keyed_dir_iff listable ents).mp h).1
      unfold filePaths
      rw [mem_entFilePaths]
      unfold look at ih ⊢
      rw [find_cons_dir]
      constructor
      . rintro ⟨e, he, q, hq, heq⟩
        rw [List.cons.injEq] at heq
        rw [heq.1, (mem_iff_lookupEnt hkeys e.1 e.2).mp he, Option.bind_some,
          ← ih (h.of_mem he), heq.2]
        exact hq
      . intro hlook
        cases hent : lookupEnt c ents with
        | none => simp [hent] at hlook
        | some n =>
          have he := (mem_iff_lookupEnt hkeys c n).mpr hent
          rw [hent, Option.bind_some, ← ih (h.of_mem he)] at hlook
          exact ⟨(c, n), he, p, hlook, rfl⟩

mutual

theorem Node.nodup_filePaths (t : Node ν δ) (h : t.Keyed)
    : t.filePaths.Nodup := by
  match t with
  | .file readable data => simp [Node.filePaths]
  | .dir listable ents =>
    unfold Node.filePaths
    exact nodup_entFilePaths ents ((Node.keyed_dir_iff listable ents).mp h).1 fun e he => h.of_mem he

theorem nodup_entFilePaths (ents : List (ν × Node ν δ)) (hkeys : (ents.map Prod.fst).Nodup)
    (h : ∀ e ∈ ents, e.2.Keyed) : (entFilePaths ents).Nodup := by
  match ents with
  | [] => exact List.nodup_nil
  | (c, n) :: ents =>
    rw [List.map_cons, List.nodup_cons] at hkeys
    unfold entFilePaths
    rw [List.nodup_append]
    refine ⟨?_, ?_, ?_⟩
    . apply List.Pairwise.map (c :: ·) _ (Node.nodup_filePaths n (h (c, n) List.mem_cons_self))
      intro p q hne heq
      exact hne (List.cons.inj heq).2
    . exact nodup_entFilePaths ents hkeys.2 fun e he => h e (List.mem_cons_of_mem (c, n) he)
    . intro p hp q hq heq
      rw [List.mem_map] at hp
      rw [mem_entFilePaths] at hq
      rcases hp with ⟨p', _, hp⟩
      rcases hq with ⟨e, he, q', _, hq⟩
      rw [← hp, hq, List.cons.injEq] at heq
      have hmem := List.mem_map_of_mem (f := Prod.fst) he
      rw [← heq.1] at hmem
      exact hkeys.1 hmem

end

namespace Node

-- An update at `p` is not seen at the paths that are neither above nor below it.
theorem find_alter {f : Option (Node ν δ) → Option (Node ν δ)} {t : Node ν δ} {p q : List ν}
    (hbelow : ¬ p <+: q) (habove : ¬ q <+: p) : (t.alter f p).find q = t.find q := by
  induction p generalizing t q with
  | nil => exact absurd List.nil_prefix hbelow
  | cons c p ih =>
    cases q with
    | nil => exact absurd List.nil_prefix habove
    | cons d q =>
      cases t with
      | file readable data => cases p <;> rfl
      | dir listable ents =>
        by_cases hd : d = c
        . subst hd
          rw [List.cons_prefix_cons] at hbelow habove
          have hbelow' : ¬ p <+: q := fun h => hbelow ⟨rfl, h⟩
          have habove' : ¬ q <+: p := fun h => habove ⟨rfl, h⟩
          cases p with
          | nil => exact absurd List.nil_prefix hbelow'
          | cons c' p =>
            unfold alter
            cases hent : lookupEnt d ents with
            | none => rfl
            | some n =>
              dsimp only
              rw [find_cons_dir, find_cons_dir, lookupEnt_setEnt_self, hent, Option.bind_some,
                Option.bind_some]
              exact ih hbelow' habove'
        . cases p with
          | nil =>
            unfold alter
            rw [find_cons_dir, find_cons_dir, lookupEnt_setEnt_ne hd]
          | cons c' p =>
            unfold alter
            split
            . rw [find_cons_dir, find_cons_dir, lookupEnt_setEnt_ne hd]
            . rfl

theorem find_erase {t : Node ν δ} {p q : List ν} (hbelow : ¬ p <+: q) (habove : ¬ q <+: p)
    : (t.erase p).find q = t.find q :=
  find_alter hbelow habove

end Node

end FileTree
