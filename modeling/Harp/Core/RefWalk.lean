import Harp.Core.StoreLemmas

/-!
This module contains what the walk over the ref directory visits: the files whose whole path is
listed and whose components are neither dotfiles nor temporaries.
-/

namespace Harp

open FileTree

def joinPath (p : List Comp) : Bytes :=
  [slash].intercalate (p.map Comp.b)

theorem Comp.of?_b (c : Comp) : Comp.of? c.b = some c := by
  unfold Comp.of?
  rw [dif_pos ⟨c.ne_nil, c.no_slash, c.no_nul, c.ne_dot, c.ne_dotdot⟩]

theorem comps_joinPath (p : List Comp) : comps (joinPath p) = p := by
  unfold comps joinPath
  cases p with
  | nil => rfl
  | cons c p =>
    rw [List.splitOn_intercalate]
    . rw [List.filterMap_map]
      have hsome : Comp.of? ∘ Comp.b = some := by
        funext c
        exact c.of?_b
      rw [hsome, List.filterMap_some]
    . intro l hl
      rw [List.mem_map] at hl
      rcases hl with ⟨c, _, rfl⟩
      exact c.no_slash
    . simp

theorem joinPath_cons_cons (c c' : Comp) (p : List Comp)
    : joinPath (c :: c' :: p) = c.b ++ [slash] ++ joinPath (c' :: p) := by
  simp [joinPath, List.intercalate]

theorem joinPath_append {p q : List Comp} (hp : p ≠ []) (hq : q ≠ [])
    : joinPath (p ++ q) = joinPath p ++ [slash] ++ joinPath q := by
  induction p with
  | nil => contradiction
  | cons c p ih =>
    cases p with
    | nil =>
      cases q with
      | nil => contradiction
      | cons c' q => simp [joinPath, List.intercalate]
    | cons c' p =>
      specialize ih (by simp)
      rw [List.cons_append] at ih ⊢
      rw [List.cons_append, joinPath_cons_cons, joinPath_cons_cons, ih]
      simp

@[simp]
theorem joinPath_singleton (c : Comp) : joinPath [c] = c.b := by
  simp [joinPath, List.intercalate]

theorem joinPath_ne_nil {p : List Comp} (h : p ≠ []) : joinPath p ≠ [] := by
  cases p with
  | nil => contradiction
  | cons c p =>
    cases p with
    | nil =>
      rw [joinPath_singleton]
      exact c.ne_nil
    | cons c' p =>
      rw [joinPath_cons_cons]
      simp

-- The name `walkOne` builds for an entry of the directory at `p`.
theorem joinPath_concat (p : List Comp) (c : Comp)
    : joinPath (p ++ [c])
        = if (joinPath p).isEmpty then c.b else joinPath p ++ [slash] ++ c.b := by
  cases p with
  | nil => simp [joinPath, List.intercalate]
  | cons c' p =>
    have hne := joinPath_ne_nil (show c' :: p ≠ [] by simp)
    rw [joinPath_append (by simp) (by simp), joinPath_singleton]
    rw [if_neg]
    rw [List.isEmpty_iff]
    exact hne

theorem length_le_joinPath (p : List Comp) : p.length ≤ (joinPath p).length := by
  induction p with
  | nil => simp
  | cons c p ih =>
    have hc := List.length_pos_of_ne_nil c.ne_nil
    cases p with
    | nil =>
      rw [joinPath_singleton]
      exact hc
    | cons c' p =>
      rw [joinPath_cons_cons]
      simp only [List.length_cons, List.length_append] at ih ⊢
      omega

theorem strstr_append {s sub : Bytes} (t : Bytes) (h : strstr s sub = true)
    : strstr (s ++ t) sub = true := by
  induction s with
  | nil =>
    have hsub : sub = [] := by simpa [strstr] using h
    subst hsub
    cases t <;> simp [strstr]
  | cons c s ih =>
    unfold strstr at h
    rw [Bool.or_eq_true] at h
    rw [List.cons_append]
    unfold strstr
    rw [Bool.or_eq_true]
    rcases h with h | h
    . apply Or.inl
      rw [List.isPrefixOf_iff_prefix] at h ⊢
      exact h.trans (List.prefix_append (c :: s) t)
    . exact .inr (ih h)

theorem refNameOk_iff (name : Bytes)
    : refNameOk name = true ↔ name ≠ [] ∧ name.length < refNameMax ∧ name.head? ≠ some slash
        ∧ name.getLast? ≠ some slash ∧ strstr name [dot, dot] = false
        ∧ name.all refNameChar = true := by
  unfold refNameOk
  split
  next h =>
    rcases h with h | h
    . simp [List.length_eq_zero_iff.mp h]
    . simp only [Bool.false_eq_true, false_iff]
      intro hand
      omega
  next h =>
    rw [not_or] at h
    have hne : name ≠ [] := by
      intro heq
      subst heq
      simp at h
    split
    next hslash =>
      simp only [Bool.false_eq_true, false_iff]
      intro hand
      rcases hslash with hslash | hslash
      . exact hand.2.2.1 hslash
      . exact hand.2.2.2.1 hslash
    next hslash =>
      rw [not_or] at hslash
      split
      next hdots => simp [hdots]
      next hdots =>
        rw [Bool.not_eq_true] at hdots
        have hlen : name.length < refNameMax := by omega
        simp [hne, hlen, hslash, hdots]

theorem getLast?_joinPath_ne_slash (p : List Comp) : (joinPath p).getLast? ≠ some slash := by
  induction p with
  | nil => simp [joinPath, List.intercalate]
  | cons c p ih =>
    cases p with
    | nil =>
      rw [joinPath_singleton]
      intro h
      exact c.no_slash (List.mem_of_getLast? h)
    | cons c' p =>
      rw [joinPath_cons_cons, List.getLast?_append_of_ne_nil _ (joinPath_ne_nil (by simp))]
      exact ih

theorem refNameOk_of_joinPath_append {p q : List Comp} (hp : p ≠ [])
    (h : refNameOk (joinPath (p ++ q)) = true)
    : refNameOk (joinPath p) = true := by
  cases q with
  | nil =>
    rw [List.append_nil] at h
    exact h
  | cons c q =>
    rw [joinPath_append hp (by simp), refNameOk_iff] at h
    rcases h with ⟨_, hlen, hhead, _, hdots, hall⟩
    rw [List.append_assoc] at hlen hhead hdots hall
    rw [refNameOk_iff]
    refine ⟨joinPath_ne_nil hp, ?_, ?_, getLast?_joinPath_ne_slash p, ?_, ?_⟩
    . rw [List.length_append] at hlen
      omega
    . rw [List.head?_append_of_ne_nil _ (joinPath_ne_nil hp)] at hhead
      exact hhead
    . rw [← Bool.not_eq_true] at hdots ⊢
      intro hstr
      exact hdots (strstr_append _ hstr)
    . rw [List.all_append, Bool.and_eq_true] at hall
      exact hall.1

def oneList (s : Store) (sub : Bytes → List Ref) (rel : Bytes) (dname : Comp) : List Ref :=
  walkOne (fun _ => s) (fun r rs => rs ++ [r]) (fun rel rs => (true, rs ++ sub rel)) rel [] dname

-- The refs the walk hands to its callback, in the order of the directory entries.
def walkList (s : Store) (levels : Nat) (rel : Bytes) : List Ref :=
  match levels with
  | 0 => []
  | levels + 1 =>
    match s.refs.find (comps rel) with
    | some (.dir true ents) => (ents.map Prod.fst).flatMap (oneList s (walkList s levels) rel)
    | _ => []

def listedRefs (s : Store) : List Ref :=
  walkList s refNameMax []

theorem walkOne_eq (s : Store) (cb : Ref → σ → σ) {sub : Bytes → σ → Bool × σ}
    {subList : Bytes → List Ref}
    (hsub : ∀ rel ud, (sub rel ud).2 = (subList rel).foldl (fun ud r => cb r ud) ud)
    (rel : Bytes) (ud : σ) (dname : Comp)
    : walkOne (fun _ => s) cb sub rel ud dname
        = (oneList s subList rel dname).foldl (fun ud r => cb r ud) ud := by
  unfold oneList walkOne
  generalize (if rel.isEmpty then dname.b else rel ++ [slash] ++ dname.b) = crel
  dsimp only
  split
  . rfl
  . split
    . rfl
    . split
      . rfl
      . split
        . rfl
        . split
          . rfl
          . split
            . rfl
            . rw [hsub]
              simp
            . cases storeRefRead s _ <;> rfl

theorem foldl_walkOne (s : Store) (cb : Ref → σ → σ) {sub : Bytes → σ → Bool × σ}
    {subList : Bytes → List Ref}
    (hsub : ∀ rel ud, (sub rel ud).2 = (subList rel).foldl (fun ud r => cb r ud) ud)
    (rel : Bytes) (names : List Comp) (ud : σ)
    : names.foldl (walkOne (fun _ => s) cb sub rel) ud
        = (names.flatMap (oneList s subList rel)).foldl (fun ud r => cb r ud) ud := by
  induction names generalizing ud with
  | nil => rfl
  | cons dname names ih =>
    rw [List.foldl_cons, List.flatMap_cons, List.foldl_append, ih, walkOne_eq s cb hsub]

theorem walkRefs_eq (s : Store) (cb : Ref → σ → σ) (levels : Nat) (rel : Bytes) (ud : σ)
    : (walkRefs (fun _ => s) cb levels rel ud).2
        = (walkList s levels rel).foldl (fun ud r => cb r ud) ud := by
  induction levels generalizing rel ud with
  | zero => rfl
  | succ levels ih =>
    unfold walkRefs walkList
    cases s.refs.find (comps rel) with
    | none => rfl
    | some n =>
      cases n with
      | file => rfl
      | dir listable ents =>
        cases listable with
        | false => rfl
        | true => exact foldl_walkOne s cb ih rel _ ud

theorem storeRefList_eq (s : Store) (cb : Ref → σ → σ) (ud : σ)
    : (storeRefList s cb ud).2 = (listedRefs s).foldl (fun ud r => cb r ud) ud :=
  walkRefs_eq s cb refNameMax [] ud

def Comp.visible (c : Comp) : Bool :=
  c.b.head? ≠ some dot ∧ ¬ strstr c.b (ascii ".tmp.")

-- A path the walk does not filter out by name.
def PathVisible (p : List Comp) : Prop :=
  p ≠ [] ∧ (∀ c ∈ p, c.visible = true) ∧ refNameOk (joinPath p) = true

def IsFile (s : Store) (p : List Comp) : Prop :=
  ∃ readable data, s.refs.look p = some (.file readable data)

-- Every directory above `p` can be listed.
def PathListed (s : Store) (p : List Comp) : Prop :=
  ∀ q, q <+: p → q ≠ p → s.refs.look q = some (.dir true)

def Visits (s : Store) (r : Ref) : Prop :=
  ∃ p, PathVisible p ∧ PathListed s p ∧ IsFile s p ∧ storeRefRead s (joinPath p) = some r

theorem mem_oneList (s : Store) (sub : Bytes → List Ref) (p : List Comp) (c : Comp) (r : Ref)
    : r ∈ oneList s sub (joinPath p) c
        ↔ c.visible = true ∧ refNameOk (joinPath (p ++ [c])) = true
          ∧ ((IsFile s (p ++ [c]) ∧ storeRefRead s (joinPath (p ++ [c])) = some r)
            ∨ (∃ listable, s.refs.look (p ++ [c]) = some (.dir listable))
              ∧ r ∈ sub (joinPath (p ++ [c]))) := by
  unfold oneList walkOne
  rw [← joinPath_concat]
  dsimp only
  rw [comps_joinPath]
  by_cases hdot : c.b.head? = some dot
  . simp [hdot, Comp.visible]
  by_cases htmp : strstr c.b (ascii ".tmp.") = true
  . simp [htmp, Comp.visible]
  have hvisible : c.visible = true := by simp [Comp.visible, hdot, htmp]
  simp only [hdot, htmp, if_false, hvisible, true_and]
  by_cases hok : refNameOk (joinPath (p ++ [c])) = true
  . have hlen := refNameOk_length hok
    have hclen : c.b.length < refNameMax := by
      rw [joinPath_concat] at hlen
      split at hlen
      . exact hlen
      . simp only [List.length_append] at hlen
        omega
    rw [if_neg (Nat.not_le.mpr hclen), if_neg (Nat.not_le.mpr hlen)]
    simp only [hok, not_true_eq_false, if_false, true_and]
    unfold IsFile
    cases hlook : s.refs.look (p ++ [c]) with
    | none => simp
    | some k =>
      cases k with
      | file readable data => cases hread : storeRefRead s (joinPath (p ++ [c])) <;> simp [eq_comm]
      | dir listable => simp
  . simp [hok]

theorem mem_walkList_succ (s : Store) (levels : Nat) (p : List Comp) (r : Ref)
    : r ∈ walkList s (levels + 1) (joinPath p)
        ↔ s.refs.look p = some (.dir true)
          ∧ ∃ c, r ∈ oneList s (walkList s levels) (joinPath p) c := by
  unfold walkList
  rw [comps_joinPath]
  unfold Node.look
  cases hfind : s.refs.find p with
  | none => simp
  | some n =>
    cases n with
    | file => simp [Node.kind]
    | dir listable ents =>
      cases listable with
      | false => simp [Node.kind]
      | true =>
        simp only [List.mem_flatMap, Option.map_some, Node.kind, true_and]
        constructor
        . intro h
          rcases h with ⟨c, _, hmem⟩
          exact ⟨c, hmem⟩
        . intro h
          rcases h with ⟨c, hmem⟩
          refine ⟨c, ?_, hmem⟩
          rw [mem_map_fst_iff]
          intro hnone
          -- an entry that is not there is neither a file nor a directory
          have hlook : s.refs.look (p ++ [c]) = none := by
            unfold Node.look
            rw [Node.find_append, hfind]
            simp [Node.find_cons_dir, hnone]
          rw [mem_oneList, hlook] at hmem
          simp [IsFile, hlook] at hmem

theorem mem_walkList_of_path {s : Store} {r : Ref} {q : List Comp} (levels : Nat) (p : List Comp)
    (hne : q ≠ []) (hlevels : q.length ≤ levels) (hvisible : ∀ c ∈ q, c.visible = true)
    (hok : refNameOk (joinPath (p ++ q)) = true)
    (hlisted : ∀ q', q' <+: q → q' ≠ q → s.refs.look (p ++ q') = some (.dir true))
    (hfile : IsFile s (p ++ q)) (hread : storeRefRead s (joinPath (p ++ q)) = some r)
    : r ∈ walkList s levels (joinPath p) := by
  induction q generalizing levels p with
  | nil => contradiction
  | cons c q ih =>
    cases levels with
    | zero => simp at hlevels
    | succ levels =>
      have hsplit : p ++ c :: q = (p ++ [c]) ++ q := by simp
      rw [hsplit] at hok hfile hread
      have hdir := hlisted [] (List.nil_prefix) (by simp)
      rw [List.append_nil] at hdir
      rw [mem_walkList_succ]
      refine ⟨hdir, c, ?_⟩
      rw [mem_oneList]
      refine ⟨hvisible c (by simp), refNameOk_of_joinPath_append (by simp) hok, ?_⟩
      cases q with
      | nil =>
        rw [List.append_nil] at hfile hread
        exact .inl ⟨hfile, hread⟩
      | cons c' q =>
        have hdir' := hlisted [c] (by simp) (by simp)
        refine .inr ⟨⟨true, hdir'⟩, ?_⟩
        apply ih levels (p ++ [c]) (by simp) (by simpa using hlevels) _ hok _ hfile hread
        . intro d hd
          exact hvisible d (List.mem_cons_of_mem c hd)
        . intro q' hq' hneq
          have hlook := hlisted (c :: q') (by simpa using hq') (by simpa using hneq)
          rw [← hlook]
          simp

theorem path_of_mem_walkList {s : Store} {r : Ref} (levels : Nat) (p : List Comp)
    (h : r ∈ walkList s levels (joinPath p))
    : ∃ q, q ≠ [] ∧ (∀ c ∈ q, c.visible = true) ∧ refNameOk (joinPath (p ++ q)) = true
        ∧ (∀ q', q' <+: q → q' ≠ q → s.refs.look (p ++ q') = some (.dir true))
        ∧ IsFile s (p ++ q) ∧ storeRefRead s (joinPath (p ++ q)) = some r := by
  induction levels generalizing p with
  | zero => simp [walkList] at h
  | succ levels ih =>
    rw [mem_walkList_succ] at h
    rcases h with ⟨hdir, c, hmem⟩
    rw [mem_oneList] at hmem
    rcases hmem with ⟨hvisible, hok, ⟨hfile, hread⟩ | ⟨_, hsub⟩⟩
    . refine ⟨[c], by simp, by simpa using hvisible, hok, ?_, hfile, hread⟩
      intro q' hprefix hne
      have hnil : q' = [] := by
        rcases List.prefix_cons_iff.mp hprefix with hnil | ⟨t, rfl, ht⟩
        . exact hnil
        . rw [List.prefix_nil] at ht
          subst ht
          contradiction
      subst hnil
      simpa using hdir
    . rcases ih (p ++ [c]) hsub with ⟨q, hne, hvis, hokq, hlisted, hfile, hread⟩
      have hsplit : p ++ c :: q = (p ++ [c]) ++ q := by simp
      refine ⟨c :: q, by simp, ?_, ?_, ?_, ?_, ?_⟩
      . intro d hd
        rcases List.mem_cons.mp hd with rfl | hd
        . exact hvisible
        . exact hvis d hd
      . rw [hsplit]
        exact hokq
      . intro q' hprefix hneq
        rcases List.prefix_cons_iff.mp hprefix with rfl | ⟨t, rfl, ht⟩
        . simpa using hdir
        . have hlook := hlisted t ht (by simpa using hneq)
          rw [← hlook]
          simp
      . rw [hsplit]
        exact hfile
      . rw [hsplit]
        exact hread

theorem mem_listedRefs (s : Store) (r : Ref) : r ∈ listedRefs s ↔ Visits s r := by
  have hnil : joinPath [] = [] := rfl
  unfold listedRefs
  rw [← hnil]
  constructor
  . intro h
    rcases path_of_mem_walkList refNameMax [] h with ⟨q, hne, hvis, hok, hlisted, hfile, hread⟩
    exact ⟨q, ⟨hne, hvis, hok⟩, hlisted, hfile, hread⟩
  . intro h
    rcases h with ⟨p, ⟨hne, hvis, hok⟩, hlisted, hfile, hread⟩
    have hlen := length_le_joinPath p
    have hmax := refNameOk_length hok
    exact mem_walkList_of_path refNameMax [] hne (by omega) hvis hok hlisted hfile hread

end Harp
