import Harp.Lib.FileTree

/-!
This module contains the steps a file system takes one at a time, and the replacement of a file by
writing a temporary beside it and renaming that. Wherever the replacement is cut off, every other
path of the tree shows what it showed before, and the file is the old one or the complete new one.
-/

namespace FileTree

variable {ν β : Type} [DecidableEq ν]

inductive Step (ν β : Type) where
  | mkdir (dir : List ν) (c : ν)
  | create (dir : List ν) (c : ν)
  | append (dir : List ν) (c : ν) (bytes : List β)
  | sync (dir : List ν) (c : ν)
  | rename (dir : List ν) (c c' : ν)
deriving DecidableEq

-- `none` is a step that fails; a directory that exists is no failure of `mkdir`.
def Step.exec (t : Node ν (List β)) : Step ν β → Option (Node ν (List β))
  | .mkdir dir c =>
    match t.look dir, t.look (dir ++ [c]) with
    | _, some _ => some t
    | some (.dir _), none => some (t.put (dir ++ [c]) (.dir true []))
    | _, none => none
  | .create dir c =>
    match t.look dir, t.look (dir ++ [c]) with
    | _, some (.dir _) => none
    | some (.dir _), _ => some (t.put (dir ++ [c]) (.file true []))
    | _, _ => none
  | .append dir c bytes =>
    match t.look (dir ++ [c]) with
    | some (.file readable data) => some (t.put (dir ++ [c]) (.file readable (data ++ bytes)))
    | _ => none
  | .sync _ _ => some t
  | .rename dir c c' =>
    match t.look (dir ++ [c]), t.look (dir ++ [c']) with
    | _, some (.dir _) => none
    | some (.file readable data), _ =>
      some ((t.erase (dir ++ [c])).put (dir ++ [c']) (.file readable data))
    | _, _ => none

def execAll (t : Node ν (List β)) : List (Step ν β) → Option (Node ν (List β))
  | [] => some t
  | st :: steps =>
    match st.exec t with
    | some t => execAll t steps
    | none => none

theorem execAll_cons (t : Node ν (List β)) (st : Step ν β) (steps : List (Step ν β))
    : execAll t (st :: steps) = (st.exec t).bind (fun t => execAll t steps) := by
  conv =>
    lhs
    unfold execAll
  cases st.exec t <;> rfl

theorem execAll_append (t : Node ν (List β)) (steps steps' : List (Step ν β))
    : execAll t (steps ++ steps') = (execAll t steps).bind (fun t => execAll t steps') := by
  induction steps generalizing t with
  | nil => rfl
  | cons st steps ih =>
    rw [List.cons_append, execAll_cons, execAll_cons, Option.bind_assoc]
    congr
    funext t
    apply ih

theorem execAll_singleton (t : Node ν (List β)) (st : Step ν β) : execAll t [st] = st.exec t := by
  unfold execAll
  cases st.exec t <;> rfl

section Put

variable {δ : Type}

theorem setEnt_setEnt (c : ν) (n : Node ν δ) (o : Option (Node ν δ)) (ents : List (ν × Node ν δ))
    : setEnt c o (setEnt c (some n) ents) = setEnt c o ents := by
  induction ents with
  | nil => cases o <;> simp [setEnt]
  | cons e ents ih =>
    by_cases h : e.1 = c
    . cases o <;> simp [setEnt, h]
    . simp [setEnt, h, ih]

theorem Node.alter_single (f : Option (Node ν δ) → Option (Node ν δ)) (c : ν) (listable : Bool)
    (ents : List (ν × Node ν δ))
    : (Node.dir listable ents).alter f [c] = .dir listable (setEnt c (f (lookupEnt c ents)) ents) := rfl

theorem Node.alter_below {f : Option (Node ν δ) → Option (Node ν δ)} {c c' : ν} {p : List ν}
    {listable : Bool} {ents : List (ν × Node ν δ)} {n : Node ν δ} (h : lookupEnt c ents = some n)
    : (Node.dir listable ents).alter f (c :: c' :: p)
        = .dir listable (setEnt c (some (n.alter f (c' :: p))) ents) := by
  rw [Node.alter, h]

theorem Node.alter_missing {f : Option (Node ν δ) → Option (Node ν δ)} {c c' : ν} {p : List ν}
    {listable : Bool} {ents : List (ν × Node ν δ)} (h : lookupEnt c ents = none)
    : (Node.dir listable ents).alter f (c :: c' :: p) = .dir listable ents := by
  rw [Node.alter, h]

-- What was put at a path is gone with the next change there.
theorem Node.alter_put (f : Option (Node ν δ) → Option (Node ν δ)) (p : List ν) (t n : Node ν δ)
    : (t.put p n).alter f p = t.alter (fun _ => f (some n)) p := by
  unfold Node.put
  induction p generalizing t with
  | nil => cases t <;> rfl
  | cons c p ih =>
    cases t with
    | file readable data => cases p <;> rfl
    | dir listable ents =>
      cases p with
      | nil => rw [alter_single, alter_single, alter_single, lookupEnt_setEnt_self, setEnt_setEnt]
      | cons c' p =>
        cases hlookup : lookupEnt c ents with
        | none => rw [alter_missing hlookup, alter_missing hlookup, alter_missing hlookup]
        | some m =>
          rw [alter_below hlookup, alter_below hlookup, alter_below (lookupEnt_setEnt_self ..), ih,
            setEnt_setEnt]

theorem Node.put_put (p : List ν) (t n n' : Node ν δ) : (t.put p n).put p n' = t.put p n' :=
  Node.alter_put _ p t n

theorem Node.erase_put (p : List ν) (t n : Node ν δ) : (t.put p n).erase p = t.erase p :=
  Node.alter_put _ p t n

theorem setEnt_none_setEnt {c c' : ν} (h : c' ≠ c) (n : Node ν δ) (ents : List (ν × Node ν δ))
    : setEnt c' none (setEnt c (some n) ents) = setEnt c (some n) (setEnt c' none ents) := by
  induction ents with
  | nil => simp [setEnt, Ne.symm h]
  | cons e ents ih =>
    by_cases hc : e.1 = c
    . have hc' : ¬ c = c' := Ne.symm h
      simp [setEnt, hc, hc']
    . by_cases hc' : e.1 = c'
      . simp [setEnt, hc', h, ih]
      . simp [setEnt, hc, hc', ih]

theorem setEnt_none_none (c : ν) (ents : List (ν × Node ν δ))
    : setEnt c none (setEnt c none ents) = setEnt c none ents := by
  induction ents with
  | nil => rfl
  | cons e ents ih =>
    by_cases hc : e.1 = c
    . simp [setEnt, hc, ih]
    . simp [setEnt, hc, ih]

theorem Node.erase_erase (dir : List ν) (c : ν) (t : Node ν δ)
    : (t.erase (dir ++ [c])).erase (dir ++ [c]) = t.erase (dir ++ [c]) := by
  unfold Node.erase
  induction dir generalizing t with
  | nil =>
    cases t with
    | file readable data => rfl
    | dir listable ents =>
      rw [List.nil_append, alter_single, alter_single, setEnt_none_none]
  | cons d dir ih =>
    cases t with
    | file readable data => cases dir <;> rfl
    | dir listable ents =>
      rcases hpath : dir ++ [c] with _ | ⟨c', p⟩
      . simp at hpath
      . rw [hpath] at ih
        rw [List.cons_append, hpath]
        cases hlookup : lookupEnt d ents with
        | none => rw [alter_missing hlookup, alter_missing hlookup]
        | some m =>
          rw [alter_below hlookup, alter_below (lookupEnt_setEnt_self ..), ih, setEnt_setEnt]

-- A change beside a path does not touch it.
theorem Node.erase_put_ne (dir : List ν) {c c' : ν} (h : c' ≠ c) (t n : Node ν δ)
    : (t.put (dir ++ [c]) n).erase (dir ++ [c']) = (t.erase (dir ++ [c'])).put (dir ++ [c]) n := by
  unfold Node.erase Node.put
  induction dir generalizing t with
  | nil =>
    cases t with
    | file readable data => rfl
    | dir listable ents =>
      rw [List.nil_append, List.nil_append, alter_single, alter_single, alter_single, alter_single,
        setEnt_none_setEnt h]
  | cons d dir ih =>
    cases t with
    | file readable data => cases dir <;> rfl
    | dir listable ents =>
      rcases hpath : dir ++ [c] with _ | ⟨a, p⟩
      . simp at hpath
      rcases hpath' : dir ++ [c'] with _ | ⟨a', p'⟩
      . simp at hpath'
      rw [hpath, hpath'] at ih
      rw [List.cons_append, List.cons_append, hpath, hpath']
      cases hlookup : lookupEnt d ents with
      | none =>
        rw [alter_missing hlookup, alter_missing hlookup, alter_missing hlookup]
      | some m =>
        rw [alter_below hlookup, alter_below (lookupEnt_setEnt_self ..), alter_below hlookup,
          alter_below (lookupEnt_setEnt_self ..), ih, setEnt_setEnt, setEnt_setEnt]

end Put

section Mkdirs

def mkdirSteps (done : List ν) : List ν → List (Step ν β)
  | [] => []
  | c :: path => .mkdir done c :: mkdirSteps (done ++ [c]) path

variable {t t' : Node ν (List β)}

theorem exec_mkdir_inv {dir : List ν} {c : ν} (h : (Step.mkdir dir c : Step ν β).exec t = some t')
    : t' = t ∨ (∃ l, t.look dir = some (.dir l)) ∧ t.look (dir ++ [c]) = none
        ∧ t' = t.put (dir ++ [c]) (.dir true []) := by
  unfold Step.exec at h
  dsimp only at h
  split at h
  . cases h
    exact .inl rfl
  next l hdir hnone =>
    cases h
    exact .inr ⟨⟨l, hdir⟩, hnone, rfl⟩
  . cases h

-- Only directories are added, and only along the path.
theorem look_mkdirSteps {done path : List ν} {steps : List (Step ν β)}
    (hsteps : steps <+: mkdirSteps done path) (h : execAll t steps = some t') (q : List ν)
    : t'.look q = t.look q
        ∨ t.look q = none ∧ t'.look q = some (.dir true) ∧ q <+: done ++ path := by
  induction path generalizing done t steps with
  | nil =>
    rw [mkdirSteps, List.prefix_nil] at hsteps
    subst hsteps
    cases h
    exact .inl rfl
  | cons c path ih =>
    rw [mkdirSteps, List.prefix_cons_iff] at hsteps
    rcases hsteps with rfl | ⟨steps', rfl, hsteps'⟩
    . cases h
      exact .inl rfl
    . rw [execAll_cons, Option.bind_eq_some_iff] at h
      rcases h with ⟨t₁, hfirst, hrest⟩
      have hsplit : done ++ c :: path = (done ++ [c]) ++ path := by simp
      rw [hsplit]
      have ih := ih hsteps' hrest
      rcases exec_mkdir_inv hfirst with rfl | ⟨⟨l, hdir⟩, hnone, rfl⟩
      . exact ih
      . have hempty : Node.Leaf (some (Node.dir true [] : Node ν (List β))) :=
          Node.leaf_empty_dir true
        have hput := Node.look_put hdir (Node.leaf_of_look_eq_none hnone) hempty q
        rw [hput] at ih
        by_cases hq : q = done ++ [c]
        . rw [if_pos hq] at ih
          rw [hq] at ih ⊢
          rcases ih with ih | ⟨ih, _⟩
          . exact .inr ⟨hnone, ih, List.prefix_append _ _⟩
          . cases ih
        . rw [if_neg hq] at ih
          exact ih

end Mkdirs

section Replace

variable {t t' : Node ν (List β)} {dir : List ν} {c tmp : ν} {chunks : List (List β)}

-- The data goes to the temporary in any number of pieces.
def tempSteps (dir : List ν) (tmp : ν) (chunks : List (List β)) : List (Step ν β) :=
  .create dir tmp :: (chunks.map (.append dir tmp) ++ [.sync dir tmp])

def replaceSteps (dir : List ν) (tmp c : ν) (chunks : List (List β)) : List (Step ν β) :=
  tempSteps dir tmp chunks ++ [.rename dir tmp c]

structure Vacant (t : Node ν (List β)) (dir : List ν) (c : ν) : Prop where
  below : ∃ l, t.look dir = some (.dir l)
  free : ∀ l, t.look (dir ++ [c]) ≠ some (.dir l)

theorem Vacant.look_put (h : Vacant t dir c) (readable : Bool) (data : List β) (q : List ν)
    : (t.put (dir ++ [c]) (.file readable data)).look q
        = if q = dir ++ [c] then some (.file readable data) else t.look q := by
  rcases h.below with ⟨l, hdir⟩
  exact Node.look_put hdir (Node.leaf_of_not_dir h.free) (Node.leaf_file readable data) q

theorem Vacant.look_erase (h : Vacant t dir c) (q : List ν)
    : (t.erase (dir ++ [c])).look q = if q = dir ++ [c] then none else t.look q := by
  rcases h.below with ⟨l, hdir⟩
  exact Node.look_erase hdir (Node.leaf_of_not_dir h.free) q

theorem exec_create_inv (h : (Step.create dir c : Step ν β).exec t = some t')
    : Vacant t dir c ∧ t' = t.put (dir ++ [c]) (.file true []) := by
  unfold Step.exec at h
  dsimp only at h
  split at h
  . cases h
  next l hdir hfree =>
    cases h
    exact ⟨⟨⟨l, hdir⟩, hfree⟩, rfl⟩
  . cases h

theorem exec_create (h : Vacant t dir c)
    : (Step.create dir c : Step ν β).exec t = some (t.put (dir ++ [c]) (.file true [])) := by
  rcases h.below with ⟨l, hdir⟩
  unfold Step.exec
  dsimp only
  rw [hdir]
  split
  next l' hlook => exact absurd hlook (h.free l')
  . rfl
  next hne _ => exact absurd rfl (hne l)

theorem exec_append (h : Vacant t dir c) (data bytes : List β)
    : (Step.append dir c bytes).exec (t.put (dir ++ [c]) (.file true data))
        = some (t.put (dir ++ [c]) (.file true (data ++ bytes))) := by
  unfold Step.exec
  dsimp only
  rw [h.look_put, if_pos rfl]
  dsimp only
  rw [Node.put_put]

theorem execAll_append_chunks (h : Vacant t dir c) (data : List β) (chunks : List (List β))
    : execAll (t.put (dir ++ [c]) (.file true data)) (chunks.map (.append dir c))
        = some (t.put (dir ++ [c]) (.file true (data ++ chunks.flatten))) := by
  induction chunks generalizing data with
  | nil =>
    rw [List.flatten_nil, List.append_nil]
    rfl
  | cons bytes chunks ih =>
    rw [List.map_cons, execAll_cons, exec_append h, Option.bind_some, ih, List.flatten_cons,
      List.append_assoc]

theorem exec_sync (t : Node ν (List β)) : (Step.sync dir c : Step ν β).exec t = some t := rfl

-- The rename of a temporary that holds `data`.
theorem exec_rename_iff (h : Vacant t dir tmp) (hne : c ≠ tmp) (data : List β)
    : (Step.rename dir tmp c).exec (t.put (dir ++ [tmp]) (.file true data)) = some t'
        ↔ Vacant t dir c ∧ t' = (t.erase (dir ++ [tmp])).put (dir ++ [c]) (.file true data) := by
  have hpath : dir ++ [c] ≠ dir ++ [tmp] := by
    intro heq
    rw [List.append_cancel_left_eq, List.singleton_inj] at heq
    exact hne heq
  have hroom : Vacant t dir c ↔ ∀ l, t.look (dir ++ [c]) ≠ some (.dir l) :=
    ⟨Vacant.free, fun hfree => ⟨h.below, hfree⟩⟩
  unfold Step.exec
  dsimp only
  rw [h.look_put, if_pos rfl, h.look_put, if_neg hpath, Node.erase_put, hroom]
  cases hlook : t.look (dir ++ [c]) with
  | none => simp [eq_comm]
  | some k => cases k <;> simp [eq_comm]

theorem execAll_tempSteps (h : Vacant t dir c) (chunks : List (List β))
    : execAll t (tempSteps dir c chunks) = some (t.put (dir ++ [c]) (.file true chunks.flatten)) := by
  unfold tempSteps
  rw [execAll_cons, exec_create h, Option.bind_some, execAll_append, execAll_append_chunks h,
    Option.bind_some, List.nil_append, execAll_singleton, exec_sync]

theorem vacant_of_tempSteps (h : execAll t (tempSteps dir c chunks) = some t') : Vacant t dir c := by
  unfold tempSteps at h
  rw [execAll_cons, Option.bind_eq_some_iff] at h
  rcases h with ⟨t₁, hcreate, _⟩
  exact (exec_create_inv hcreate).1

-- The whole replacement.
theorem execAll_replaceSteps_iff (hne : c ≠ tmp)
    : execAll t (replaceSteps dir tmp c chunks) = some t'
        ↔ Vacant t dir tmp ∧ Vacant t dir c
          ∧ t' = (t.erase (dir ++ [tmp])).put (dir ++ [c]) (.file true chunks.flatten) := by
  unfold replaceSteps
  rw [execAll_append, Option.bind_eq_some_iff]
  constructor
  . rintro ⟨t₁, htemp, hrename⟩
    have hroom := vacant_of_tempSteps htemp
    rw [execAll_tempSteps hroom] at htemp
    cases htemp
    rw [execAll_singleton, exec_rename_iff hroom hne] at hrename
    exact ⟨hroom, hrename⟩
  . rintro ⟨hroom, hrest⟩
    refine ⟨_, execAll_tempSteps hroom chunks, ?_⟩
    rw [execAll_singleton, exec_rename_iff hroom hne]
    exact hrest

theorem written_of_cut {steps : List (Step ν β)} (hsteps : steps <+: tempSteps dir c chunks)
    (h : execAll t steps = some t')
    : steps = [] ∧ t' = t
        ∨ Vacant t dir c ∧ ∃ part, t' = t.put (dir ++ [c]) (.file true part) := by
  unfold tempSteps at hsteps
  rw [List.prefix_cons_iff] at hsteps
  rcases hsteps with rfl | ⟨rest, rfl, hrest⟩
  . cases h
    exact .inl ⟨rfl, rfl⟩
  . rw [execAll_cons, Option.bind_eq_some_iff] at h
    rcases h with ⟨t₁, hcreate, hrun⟩
    rcases exec_create_inv hcreate with ⟨hroom, rfl⟩
    refine .inr ⟨hroom, ?_⟩
    rw [List.prefix_concat_iff] at hrest
    have hchunks := execAll_append_chunks hroom []
    rcases hrest with rfl | hrest
    . rw [execAll_append, hchunks, Option.bind_some] at hrun
      cases hrun
      exact ⟨_, rfl⟩
    . rw [List.prefix_iff_eq_take, ← List.map_take] at hrest
      rw [hrest, hchunks] at hrun
      cases hrun
      exact ⟨_, rfl⟩

-- Where a replacement is after some of its steps.
inductive Replacing (t : Node ν (List β)) (dir : List ν) (tmp c : ν) (data : List β)
    : Node ν (List β) → Prop where
  | start : Replacing t dir tmp c data t
  | written (h : Vacant t dir tmp) (part : List β)
      : Replacing t dir tmp c data (t.put (dir ++ [tmp]) (.file true part))
  | renamed (h : Vacant t dir tmp) (h' : Vacant t dir c)
      : Replacing t dir tmp c data ((t.erase (dir ++ [tmp])).put (dir ++ [c]) (.file true data))

theorem replaced_of_cut (hne : c ≠ tmp) {steps : List (Step ν β)}
    (hsteps : steps <+: replaceSteps dir tmp c chunks) (h : execAll t steps = some t')
    : Replacing t dir tmp c chunks.flatten t' := by
  have hcases : steps = replaceSteps dir tmp c chunks ∨ steps <+: tempSteps dir tmp chunks :=
    List.prefix_concat_iff.mp hsteps
  rcases hcases with rfl | htemp
  . rcases (execAll_replaceSteps_iff hne).mp h with ⟨hroom, hroom', rfl⟩
    exact .renamed hroom hroom'
  . rcases written_of_cut htemp h with ⟨_, rfl⟩ | ⟨hroom, part, rfl⟩
    . exact .start
    . exact .written hroom part

theorem Vacant.erase_tmp (hroom : Vacant t dir tmp) (hroom' : Vacant t dir c) (hne : c ≠ tmp)
    : dir ++ [c] ≠ dir ++ [tmp] ∧ Vacant (t.erase (dir ++ [tmp])) dir c := by
  have hpath : dir ++ [c] ≠ dir ++ [tmp] := by
    intro heq
    rw [List.append_cancel_left_eq, List.singleton_inj] at heq
    exact hne heq
  rcases hroom'.below with ⟨l, hl⟩
  refine ⟨hpath, ⟨l, ?_⟩, ?_⟩
  . rw [hroom.look_erase, if_neg (by simp)]
    exact hl
  . intro l
    rw [hroom.look_erase, if_neg hpath]
    exact hroom'.free l

-- What a replacement that was cut off shows.
theorem Replacing.look {data : List β} (h : Replacing t dir tmp c data t') (hne : c ≠ tmp) {q : List ν}
    (hq : q ≠ dir ++ [tmp])
    : t'.look q = t.look q ∨ q = dir ++ [c] ∧ t'.look q = some (.file true data) := by
  cases h with
  | start => exact .inl rfl
  | written hroom part =>
    rw [hroom.look_put, if_neg hq]
    exact .inl rfl
  | renamed hroom hroom' =>
    have ⟨hpath, hkept⟩ := hroom.erase_tmp hroom' hne
    rw [hkept.look_put, hroom.look_erase, if_neg hq]
    by_cases heq : q = dir ++ [c]
    . rw [if_pos heq]
      exact .inr ⟨heq, rfl⟩
    . rw [if_neg heq]
      exact .inl rfl

-- No directory comes in the place of the temporary.
theorem Replacing.look_tmp {data : List β} (h : Replacing t dir tmp c data t') (hne : c ≠ tmp)
    (hfree : ∀ l, t.look (dir ++ [tmp]) ≠ some (.dir l)) (l : Bool)
    : t'.look (dir ++ [tmp]) ≠ some (.dir l) := by
  cases h with
  | start => exact hfree l
  | written hroom part =>
    rw [hroom.look_put, if_pos rfl]
    intro hdir
    cases hdir
  | renamed hroom hroom' =>
    have ⟨hpath, hkept⟩ := hroom.erase_tmp hroom' hne
    rw [hkept.look_put, if_neg hpath.symm, hroom.look_erase, if_pos rfl]
    intro hdir
    cases hdir

end Replace

end FileTree
