import Harp.Core.StoreCrash
import Harp.Device.Retention
import Harp.Lib.FilePaths

/-!
This module contains what the retention pass leaves of a namespace: of the refs under the prefix the
newest ones, provided that the walk visits all of them.
-/

namespace Harp

open FileTree

-- What a read of the file at `p` gives, if one stands there.
def refAt (s : Store) (p : List Comp) : Option Ref :=
  match fileAt s.refs p with
  | some _ => storeRefRead s (joinPath p)
  | none => none

-- The ref is written under a name of `p`.
structure NamedAt (p : List Comp) (r : Ref) : Prop where
  ok : refNameOk r.name = true
  noDot : endsInDot r.name = false
  path : comps r.name = p

-- The ref directory as writes and deletes leave it, whichever of them fail.
structure RefDir where
  store : Store
  keyed : store.refs.Keyed
  named : ∀ p r, refAt store p = some r → NamedAt p r

section RefAt

variable {s s' : Store} {p : List Comp} {r : Ref}

theorem look_of_fileAt {x : Bool × Bytes} (h : fileAt s.refs p = some x)
    : s.refs.look p = some (.file x.1 x.2) :=
  fileAt_eq_some.mp h

theorem refAt_congr (h : fileAt s'.refs p = fileAt s.refs p)
    : refAt s' p = refAt s p := by
  unfold refAt
  rw [h]
  cases hfile : fileAt s.refs p with
  | none => rfl
  | some x =>
    rw [hfile] at h
    unfold storeRefRead
    rw [comps_joinPath, look_of_fileAt h, look_of_fileAt hfile]

theorem refAt_of_none (h : fileAt s.refs p = none)
    : refAt s p = none := by
  unfold refAt
  rw [h]

theorem refAt_eq_some_iff
    : refAt s p = some r ↔ IsFile s p ∧ storeRefRead s (joinPath p) = some r := by
  unfold refAt IsFile
  cases hfile : fileAt s.refs p with
  | none =>
    constructor
    . intro h
      contradiction
    . rintro ⟨⟨readable, data, hlook⟩, _⟩
      rw [fileAt_eq_some.mpr hlook] at hfile
      contradiction
  | some x =>
    constructor
    . intro h
      exact ⟨⟨x.1, x.2, look_of_fileAt hfile⟩, h⟩
    . intro h
      exact h.2

theorem comps_ne_nil_of_noDot {name : Bytes} (hok : refNameOk name = true)
    (hdot : endsInDot name = false) : comps name ≠ [] := by
  have htarget := refTarget_isSome hok []
  unfold refTarget at htarget
  rw [hdot] at htarget
  intro hnil
  rw [hnil] at htarget
  contradiction

theorem NamedAt.ne_nil (h : NamedAt p r) : p ≠ [] := by
  rw [← h.path]
  exact comps_ne_nil_of_noDot h.ok h.noDot

-- A file that was written holds the ref, or nothing that can be decoded.
theorem refAt_written {io : WriteIo} (hok : refNameOk r.name = true) (hne : comps r.name ≠ [])
    (hfile : fileAt s.refs (comps r.name) = some (true, io.onDisk (refEncode r)))
    : refAt s (comps r.name) = if r.algOk ∧ io.keeps (refEncode r) then some r else none := by
  have hlook := look_of_fileAt hfile
  rw [← comps_joinPath (comps r.name)] at hlook
  unfold refAt
  rw [hfile]
  exact storeRefRead_encoded (refNameOk_joinPath_comps hok hne) (getLast?_splitOn_joinPath hne) hok
    hlook

theorem NamedAt.of_written {io : WriteIo} (hok : refNameOk r.name = true)
    (hdot : endsInDot r.name = false)
    (hfile : fileAt s.refs (comps r.name) = some (true, io.onDisk (refEncode r))) {r' : Ref}
    (h : refAt s (comps r.name) = some r') : NamedAt (comps r.name) r' := by
  rw [refAt_written hok (comps_ne_nil_of_noDot hok hdot) hfile] at h
  split at h
  . cases h
    exact ⟨hok, hdot, rfl⟩
  . contradiction

end RefAt

namespace RefDir

def empty (pid : List (Fin 10)) (objects : List (Bytes × ObjFile)) : RefDir where
  store := ⟨pid, objects, .dir true []⟩
  keyed := Node.keyed_empty_dir true
  named := by
    intro p r h
    rw [refAt_eq_some_iff] at h
    rcases h.1 with ⟨readable, data, hlook⟩
    cases p <;> simp [Node.look, Node.kind, Node.find_cons_dir, lookupEnt] at hlook

theorem keyed_storeRefWrite {s : Store} (r : Ref) (io : WriteIo) (h : s.refs.Keyed)
    : (storeRefWrite s r io).2.refs.Keyed := by
  unfold storeRefWrite
  split
  . exact h
  . split
    . dsimp only
      cases hmk : mkdirs s.refs [] (comps r.name) with
      | none => exact h
      | some t => exact keyed_mkdirs hmk h
    . cases (comps r.name).getLast? with
      | none => exact h
      | some c =>
        dsimp only
        cases hmk : mkdirs s.refs [] (comps r.name).dropLast with
        | none => exact h
        | some t =>
          dsimp only
          exact keyed_writeAtomic rfl (keyed_mkdirs hmk h)

def write (d : RefDir) (r : Ref) (io : WriteIo) : RefDir where
  store := (storeRefWrite d.store r io).2
  keyed := keyed_storeRefWrite r io d.keyed
  named := by
    intro p r' h
    rcases storeRefWrite_cases d.store r io with ⟨_, hok, hdot, hfile⟩ | ⟨_, hfile⟩
    . by_cases hp : p = comps r.name
      . have hself := hfile (comps r.name)
        rw [if_pos rfl] at hself
        rw [hp] at h ⊢
        exact NamedAt.of_written hok hdot hself h
      . by_cases htmp : p = tmpPath d.store.pid (comps r.name)
        . rw [refAt_of_none] at h
          . contradiction
          . rw [hfile, if_neg hp, if_pos htmp]
        . apply d.named
          rw [← h]
          apply refAt_congr (s := (storeRefWrite d.store r io).2)
          rw [hfile, if_neg hp, if_neg htmp]
    . cases hfile p with
      | inl hsame =>
        rw [refAt_congr hsame] at h
        exact d.named p r' h
      | inr hgone =>
        rw [refAt_of_none hgone.2] at h
        contradiction

theorem fileAt_delete (s : Store) (name : Bytes) (p : List Comp)
    : fileAt (storeRefDelete s name).2.refs p = fileAt s.refs p
        ∨ p = comps name ∧ fileAt (storeRefDelete s name).2.refs p = none := by
  by_cases hne : comps name = []
  . apply Or.inl
    unfold storeRefDelete
    split
    next hok =>
      cases hdot : endsInDot name with
      | true => rfl
      | false => exact absurd hne (comps_ne_nil_of_noDot hok hdot)
    next => rfl
  . exact fileAt_storeRefDelete hne p

def delete (d : RefDir) (name : Bytes) : RefDir where
  store := (storeRefDelete d.store name).2
  keyed := keyed_storeRefDelete name d.keyed
  named := by
    intro p r h
    cases fileAt_delete d.store name p with
    | inl hsame =>
      rw [refAt_congr hsame] at h
      exact d.named p r h
    | inr hgone =>
      rw [refAt_of_none hgone.2] at h
      contradiction

end RefDir

section Walk

-- The refs below `p` have names below `p`.
theorem prefix_of_mem_walkList (d : RefDir) {levels : Nat} {p : List Comp} {r : Ref}
    (h : r ∈ walkList d.store levels (joinPath p)) : p <+: comps r.name := by
  rcases path_of_mem_walkList levels p h with ⟨q, _, _, _, _, hfile, hread⟩
  rw [(d.named (p ++ q) r (refAt_eq_some_iff.mpr ⟨hfile, hread⟩)).path]
  exact List.prefix_append p q

theorem prefix_of_mem_oneList (d : RefDir) {levels : Nat} {p : List Comp} {c : Comp} {r : Ref}
    (h : r ∈ oneList d.store (walkList d.store levels) (joinPath p) c)
    : p ++ [c] <+: comps r.name := by
  rw [mem_oneList] at h
  rcases h with ⟨_, _, ⟨hfile, hread⟩ | ⟨_, hsub⟩⟩
  . rw [(d.named (p ++ [c]) r (refAt_eq_some_iff.mpr ⟨hfile, hread⟩)).path]
  . exact prefix_of_mem_walkList d hsub

theorem pairwise_walkList (d : RefDir) (levels : Nat) (p : List Comp)
    : (walkList d.store levels (joinPath p)).Pairwise (fun r r' => comps r.name ≠ comps r'.name) := by
  induction levels generalizing p with
  | zero => exact List.Pairwise.nil
  | succ levels ih =>
    unfold walkList
    rw [comps_joinPath]
    cases hfind : d.store.refs.find p with
    | none => exact List.Pairwise.nil
    | some node =>
      cases node with
      | file => exact List.Pairwise.nil
      | dir listable ents =>
        cases listable with
        | false => exact List.Pairwise.nil
        | true =>
          dsimp only
          rw [List.pairwise_flatMap]
          constructor
          . intro c _
            apply pairwise_oneList
            apply ih
          . apply List.Pairwise.imp _ (d.keyed p true ents hfind)
            intro c c' hcc r hr r' hr' hname
            have hc := prefix_of_mem_oneList d hr
            have hc' := prefix_of_mem_oneList d hr'
            rw [hname] at hc
            have heq := List.prefix_of_prefix_length_le hc hc' (by simp)
            have hlast := heq.eq_of_length (by simp)
            rw [List.append_cancel_left_eq, List.singleton_inj] at hlast
            contradiction

variable {view : σ → Store} {cb : Ref → σ → σ}

-- What the callback does to the store is not seen away from the path of the ref it is given.
def Local (view : σ → Store) (cb : Ref → σ → σ) : Prop :=
  ∀ r x q, ¬ comps r.name <+: q → ¬ q <+: comps r.name →
    (view (cb r x)).refs.find q = (view x).refs.find q

theorem Local.foldl (h : Local view cb) {rs : List Ref} {p q : List Comp}
    (hrs : ∀ r ∈ rs, p <+: comps r.name) (hbelow : ¬ p <+: q) (habove : ¬ q <+: p) (x : σ)
    : (view (rs.foldl (fun x r => cb r x) x)).refs.find q = (view x).refs.find q := by
  induction rs generalizing x with
  | nil => rfl
  | cons r rs ih =>
    rw [List.foldl_cons, ih fun r' hr' => hrs r' (List.mem_cons_of_mem r hr')]
    have hp := hrs r List.mem_cons_self
    apply h
    . intro hq
      exact hbelow (hp.trans hq)
    . intro hq
      cases List.prefix_or_prefix_of_prefix hp hq with
      | inl hpq => exact hbelow hpq
      | inr hqp => exact habove hqp

theorem look_of_find {t t' : RefTree} {p : List Comp} (h : t'.find p = t.find p)
    : t'.look p = t.look p := by
  unfold Node.look
  rw [h]

-- One entry, in a state that shows it as the store did at the beginning.
theorem walkOne_seen {s : Store} {sub : Bytes → σ → Bool × σ} {subList : Bytes → List Ref}
    {p : List Comp} {c : Comp} {x : σ}
    (hfind : (view x).refs.find (p ++ [c]) = s.refs.find (p ++ [c]))
    (hsub : (sub (joinPath (p ++ [c])) x).2
      = (subList (joinPath (p ++ [c]))).foldl (fun x r => cb r x) x)
    : walkOne view cb sub (joinPath p) x c
        = (oneList s subList (joinPath p) c).foldl (fun x r => cb r x) x := by
  have hlook := look_of_find hfind
  have hread : storeRefRead (view x) (joinPath (p ++ [c])) = storeRefRead s (joinPath (p ++ [c])) := by
    unfold storeRefRead
    rw [comps_joinPath, hlook]
  unfold oneList walkOne
  rw [← joinPath_concat]
  dsimp only
  rw [comps_joinPath, hlook, hread]
  split
  . rfl
  . split
    . rfl
    . split
      . rfl
      . split
        . rfl
        . split
          . rfl
          . split
            . rfl
            . rw [hsub]
              simp
            . cases storeRefRead s (joinPath (p ++ [c])) <;> rfl

theorem not_prefix_concat {p : List Comp} {c c' : Comp} (h : c ≠ c')
    : ¬ p ++ [c] <+: p ++ [c'] := by
  intro hpre
  have heq := hpre.eq_of_length (by simp)
  rw [List.append_cancel_left_eq, List.singleton_inj] at heq
  contradiction

theorem foldl_walkOne_seen (d : RefDir) (hlocal : Local view cb) {levels : Nat}
    {sub : Bytes → σ → Bool × σ}
    (hsub : ∀ p x, (view x).refs.find p = d.store.refs.find p →
      (sub (joinPath p) x).2 = (walkList d.store levels (joinPath p)).foldl (fun x r => cb r x) x)
    {p : List Comp} {names : List Comp} (hnodup : names.Nodup) {x : σ}
    (hfind : ∀ c ∈ names, (view x).refs.find (p ++ [c]) = d.store.refs.find (p ++ [c]))
    : names.foldl (walkOne view cb sub (joinPath p)) x
        = (names.flatMap (oneList d.store (walkList d.store levels) (joinPath p))).foldl
            (fun x r => cb r x) x := by
  induction names generalizing x with
  | nil => rfl
  | cons c names ih =>
    rw [List.nodup_cons] at hnodup
    have hc := hfind c List.mem_cons_self
    rw [List.foldl_cons, List.flatMap_cons, List.foldl_append, walkOne_seen hc (hsub _ _ hc)]
    apply ih hnodup.2
    intro c' hc'
    -- what the callbacks below `c` do is not seen below `c'`
    have hne : c ≠ c' := by
      intro heq
      rw [heq] at hnodup
      exact hnodup.1 hc'
    rw [hlocal.foldl (fun r hr => prefix_of_mem_oneList d hr) (not_prefix_concat hne)
      (not_prefix_concat (Ne.symm hne))]
    exact hfind c' (List.mem_cons_of_mem c hc')

theorem walkRefs_seen (d : RefDir) (hlocal : Local view cb) (levels : Nat) (p : List Comp) (x : σ)
    (hfind : (view x).refs.find p = d.store.refs.find p)
    : (walkRefs view cb levels (joinPath p) x).2
        = (walkList d.store levels (joinPath p)).foldl (fun x r => cb r x) x := by
  induction levels generalizing p x with
  | zero => rfl
  | succ levels ih =>
    unfold walkRefs walkList
    rw [comps_joinPath, hfind]
    cases hdir : d.store.refs.find p with
    | none => rfl
    | some n =>
      cases n with
      | file => rfl
      | dir listable ents =>
        cases listable with
        | false => rfl
        | true =>
          apply foldl_walkOne_seen d hlocal ih (d.keyed p true ents hdir)
          intro c _
          rw [Node.find_append, Node.find_append, hfind]

-- A walk whose callback only touches the ref it is given meets what stood there at the beginning.
theorem refListView_seen (d : RefDir) (hlocal : Local view cb) {x : σ} (hx : view x = d.store)
    : (refListView view cb x).2 = (listedRefs d.store).foldl (fun x r => cb r x) x := by
  apply walkRefs_seen d hlocal refNameMax [] x
  rw [hx]

end Walk

section Delete

variable {pre threshold : Bytes}

def falls (pre threshold : Bytes) (r : Ref) : Bool :=
  pre.isPrefixOf r.name && decide (r.name < threshold)

theorem pruneDelCb_eq (r : Ref) (hok : refNameOk r.name = true) (x : PruneDel)
    : pruneDelCb pre threshold r x
        = if falls pre threshold r then ⟨(storeRefDelete x.store r.name).2, x.deleted + 1⟩ else x := by
  have hdelete : (storeRefDelete x.store r.name).1 = true := by
    unfold storeRefDelete
    rw [if_pos hok]
    split
    . rfl
    . split <;> rfl
  unfold pruneDelCb falls
  by_cases hpre : pre.isPrefixOf r.name = true
  . rw [hpre, Bool.true_and]
    simp only [not_true_eq_false, if_false, decide_eq_true_eq]
    split
    . rfl
    . rfl
  . rw [if_pos hpre]
    simp [hpre]

theorem find_storeRefDelete {s : Store} {name : Bytes} {q : List Comp}
    (hbelow : ¬ comps name <+: q) (habove : ¬ q <+: comps name)
    : (storeRefDelete s name).2.refs.find q = s.refs.find q := by
  unfold storeRefDelete
  split
  . split
    . rfl
    . split
      . exact Node.find_erase hbelow habove
      . exact Node.find_erase hbelow habove
      . rfl
  . rfl

theorem local_pruneDelCb (pre threshold : Bytes)
    : Local PruneDel.store (pruneDelCb pre threshold) := by
  intro r x q hbelow habove
  unfold pruneDelCb
  split
  . rfl
  . split
    . exact find_storeRefDelete hbelow habove
    . rfl

-- What is left of the files, and how many are counted.
structure Pruned (rs : List Ref) (pre threshold : Bytes) (x x' : PruneDel) : Prop where
  gone : ∀ r ∈ rs, falls pre threshold r = true → fileAt x'.store.refs (comps r.name) = none
  kept : ∀ q, (∀ r ∈ rs, falls pre threshold r = true → comps r.name ≠ q) →
    fileAt x'.store.refs q = fileAt x.store.refs q
  deleted : x'.deleted = x.deleted + rs.countP (falls pre threshold)
  objects : x'.store.objects = x.store.objects
  keyed : x.store.refs.Keyed → x'.store.refs.Keyed

theorem storeRefDelete_objects (s : Store) (name : Bytes)
    : (storeRefDelete s name).2.objects = s.objects := by
  unfold storeRefDelete
  split
  . split
    . rfl
    . split <;> rfl
  . rfl

theorem fileAt_storeRefDelete_self {s : Store} {name : Bytes} (hok : refNameOk name = true)
    (hdot : endsInDot name = false) : fileAt (storeRefDelete s name).2.refs (comps name) = none := by
  have hne := comps_ne_nil_of_noDot hok hdot
  by_cases hdir : ∃ l, s.refs.look (comps name) = some (.dir l)
  . -- a directory is not a file before, and nothing becomes one
    cases fileAt_storeRefDelete (s := s) hne (comps name) with
    | inl hsame =>
      rcases hdir with ⟨l, hdir⟩
      rw [hsame]
      unfold fileAt
      rw [hdir]
    | inr hgone => exact hgone.2
  . rw [not_exists] at hdir
    unfold fileAt
    rw [look_storeRefDelete hok hne hdir, if_pos ⟨rfl, hdot⟩]

theorem pruned_foldl {rs : List Ref} (hnamed : ∀ r ∈ rs, NamedAt (comps r.name) r) (x : PruneDel)
    : Pruned rs pre threshold x (rs.foldl (fun x r => pruneDelCb pre threshold r x) x) := by
  induction rs generalizing x with
  | nil =>
    constructor
    . intro r hr
      contradiction
    . intro q _
      rfl
    . rfl
    . rfl
    . exact id
  | cons r rs ih =>
    have hr := hnamed r List.mem_cons_self
    have hne := comps_ne_nil_of_noDot hr.ok hr.noDot
    have hnext := ih (fun r' hr' => hnamed r' (List.mem_cons_of_mem r hr')) (pruneDelCb pre threshold r x)
    rw [List.foldl_cons]
    rw [pruneDelCb_eq r hr.ok] at hnext ⊢
    by_cases hfalls : falls pre threshold r = true
    . rw [if_pos hfalls] at hnext ⊢
      constructor
      . intro r' hr' hfalls'
        by_cases hlater : ∃ r'' ∈ rs, falls pre threshold r'' = true ∧ comps r''.name = comps r'.name
        . rcases hlater with ⟨r'', hmem, hfalls'', heq⟩
          rw [← heq]
          exact hnext.gone r'' hmem hfalls''
        . rw [hnext.kept]
          . rw [List.mem_cons] at hr'
            cases hr' with
            | inl heq =>
              rw [heq]
              exact fileAt_storeRefDelete_self hr.ok hr.noDot
            | inr hr' => exact absurd ⟨r', hr', hfalls', rfl⟩ hlater
          . intro r'' hmem hfalls'' heq
            exact hlater ⟨r'', hmem, hfalls'', heq⟩
      . intro q hq
        rw [hnext.kept q fun r' hr' => hq r' (List.mem_cons_of_mem r hr')]
        cases fileAt_storeRefDelete (s := x.store) hne q with
        | inl hsame => exact hsame
        | inr hgone => exact absurd hgone.1.symm (hq r List.mem_cons_self hfalls)
      . rw [hnext.deleted, List.countP_cons_of_pos hfalls]
        dsimp only
        omega
      . rw [hnext.objects]
        exact storeRefDelete_objects x.store r.name
      . intro hkeyed
        apply hnext.keyed
        exact keyed_storeRefDelete r.name hkeyed
    . rw [if_neg hfalls] at hnext ⊢
      constructor
      . intro r' hr' hfalls'
        rw [List.mem_cons] at hr'
        cases hr' with
        | inl heq =>
          rw [heq] at hfalls'
          contradiction
        | inr hr' => exact hnext.gone r' hr' hfalls'
      . intro q hq
        exact hnext.kept q fun r' hr' => hq r' (List.mem_cons_of_mem r hr')
      . rw [hnext.deleted, List.countP_cons_of_neg hfalls]
      . exact hnext.objects
      . exact hnext.keyed

end Delete

-- Every ref of the store, and those of them under the prefix.
def allRefs (s : Store) : List Ref :=
  s.refs.filePaths.filterMap (refAt s)

def refsUnder (s : Store) (pre : Bytes) : List Ref :=
  (allRefs s).filter (fun r => pre.isPrefixOf r.name)

-- Fewer than `archiveKeep` refs under the prefix have a greater name.
def Newest (s : Store) (pre : Bytes) (r : Ref) : Prop :=
  (refsUnder s pre).countP (fun r' => r.name < r'.name) < archiveKeep

structure NewestKept (s : Store) (pre : Bytes) (out : PruneDel) : Prop where
  kept : ∀ p r, refAt out.store p = some r
    ↔ refAt s p = some r ∧ (pre.isPrefixOf r.name = true → Newest s pre r)
  left : (refsUnder out.store pre).length = min (refsUnder s pre).length archiveKeep
  deleted : out.deleted + (refsUnder out.store pre).length = (refsUnder s pre).length
  objects : out.store.objects = s.objects

section Refs

theorem mem_allRefs (d : RefDir) (r : Ref)
    : r ∈ allRefs d.store ↔ refAt d.store (comps r.name) = some r := by
  unfold allRefs
  rw [List.mem_filterMap]
  constructor
  . rintro ⟨p, _, hr⟩
    rw [(d.named p r hr).path]
    exact hr
  . intro hr
    refine ⟨comps r.name, ?_, hr⟩
    rw [Node.mem_filePaths d.keyed]
    exact (refAt_eq_some_iff.mp hr).1

theorem mem_refsUnder (d : RefDir) (pre : Bytes) (r : Ref)
    : r ∈ refsUnder d.store pre
        ↔ refAt d.store (comps r.name) = some r ∧ pre.isPrefixOf r.name = true := by
  unfold refsUnder
  rw [List.mem_filter, mem_allRefs]

theorem name_inj (d : RefDir) {r r' : Ref} (hr : r ∈ allRefs d.store) (hr' : r' ∈ allRefs d.store)
    (h : r.name = r'.name) : r = r' := by
  rw [mem_allRefs] at hr hr'
  rw [h, hr'] at hr
  exact (Option.some.inj hr).symm

theorem nodup_allRefs (d : RefDir) : (allRefs d.store).Nodup := by
  unfold allRefs
  apply (d.store.refs.nodup_filePaths d.keyed).filterMap
  intro p q r hp hq
  rw [← (d.named p r hp).path, ← (d.named q r hq).path]

theorem nodup_refsUnder (d : RefDir) (pre : Bytes) : (refsUnder d.store pre).Nodup :=
  (nodup_allRefs d).filter _

theorem nodup_listedRefs (d : RefDir) : (listedRefs d.store).Nodup := by
  have hpairs := pairwise_walkList d refNameMax []
  apply hpairs.imp
  intro r r' hne heq
  rw [heq] at hne
  contradiction

theorem listedRefs_subset (d : RefDir) {r : Ref} (h : r ∈ listedRefs d.store)
    : r ∈ allRefs d.store := by
  rw [mem_listedRefs] at h
  rcases h with ⟨p, _, _, hfile, hread⟩
  have hr := refAt_eq_some_iff.mpr ⟨hfile, hread⟩
  rw [mem_allRefs, (d.named p r hr).path]
  exact hr

-- The walk visits the ref.
theorem mem_listedRefs_iff (d : RefDir) {r : Ref} (h : r ∈ allRefs d.store)
    : r ∈ listedRefs d.store
        ↔ (∀ c ∈ comps r.name, c.visible = true) ∧ PathListed d.store (comps r.name) := by
  rw [mem_allRefs] at h
  have hnamed := d.named (comps r.name) r h
  rw [mem_listedRefs]
  constructor
  . rintro ⟨p, hvis, hlisted, hfile, hread⟩
    rw [(d.named p r (refAt_eq_some_iff.mpr ⟨hfile, hread⟩)).path]
    exact ⟨hvis.2.1, hlisted⟩
  . intro hseen
    have hread := refAt_eq_some_iff.mp h
    refine ⟨comps r.name, ⟨hnamed.ne_nil, hseen.1, ?_⟩, hseen.2, hread⟩
    exact refNameOk_joinPath_comps hnamed.ok hnamed.ne_nil

theorem perm_of_seen (d : RefDir) {pre : Bytes}
    (h : ∀ r ∈ refsUnder d.store pre, r ∈ listedRefs d.store)
    : ((listedRefs d.store).filter (fun r => pre.isPrefixOf r.name)).Perm (refsUnder d.store pre) := by
  rw [List.perm_ext_iff_of_nodup ((nodup_listedRefs d).filter _) (nodup_refsUnder d pre)]
  intro r
  constructor
  . intro hr
    rw [List.mem_filter] at hr
    exact List.mem_filter.mpr ⟨listedRefs_subset d hr.1, hr.2⟩
  . intro hr
    exact List.mem_filter.mpr ⟨h r hr, (List.mem_filter.mp hr).2⟩

end Refs

section Pass

variable (d : RefDir) (pre : Bytes)

-- The names the pass scans, and the refs that it deletes.
def scanned : List Bytes :=
  scannedNames pre (listedRefs d.store)

def Falls (r : Ref) : Prop :=
  r ∈ (listedRefs d.store).filter (fun r => pre.isPrefixOf r.name)
    ∧ archiveKeep ≤ TopK.above r.name (scanned d pre)
deriving Decidable

theorem mem_scanned {r : Ref} (h : r ∈ (listedRefs d.store).filter (fun r => pre.isPrefixOf r.name))
    : r.name ∈ scanned d pre :=
  List.mem_map_of_mem h

theorem nodup_scanned : (scanned d pre).Nodup := by
  apply List.Nodup.map_on
  . intro r hr r' hr' h
    exact name_inj d (listedRefs_subset d (List.mem_of_mem_filter hr))
      (listedRefs_subset d (List.mem_of_mem_filter hr')) h
  . exact (nodup_listedRefs d).filter _

theorem not_falls_of_few (hfew : (scanned d pre).length ≤ archiveKeep) (r : Ref)
    : ¬ Falls d pre r := by
  rintro ⟨hmem, habove⟩
  have hlt := TopK.above_lt_length (mem_scanned d pre hmem)
  omega

-- How many refs fall is decided by the number of names scanned.
theorem countP_falls
    : ((listedRefs d.store).filter (fun r => pre.isPrefixOf r.name)).countP
          (fun r => archiveKeep ≤ TopK.above r.name (scanned d pre))
        + min (scanned d pre).length archiveKeep = (scanned d pre).length := by
  have hcount := TopK.countP_le_above archiveKeep (nodup_scanned d pre)
  have hmap : ∀ p : Bytes → Bool, (scanned d pre).countP p
      = ((listedRefs d.store).filter (fun r => pre.isPrefixOf r.name)).countP (fun r => p r.name) := by
    intro p
    unfold scanned scannedNames
    rw [List.countP_map]
    rfl
  rw [hmap] at hcount
  exact hcount

theorem named_of_listed : ∀ r ∈ listedRefs d.store, NamedAt (comps r.name) r := by
  intro r hr
  have hmem := listedRefs_subset d hr
  rw [mem_allRefs] at hmem
  exact d.named (comps r.name) r hmem

-- What the pass leaves, whether or not it visits all the refs.
structure PassSpec (out : PruneDel) : Prop where
  kept : ∀ p r, refAt out.store p = some r ↔ refAt d.store p = some r ∧ ¬ Falls d pre r
  deleted : out.deleted + min (scanned d pre).length archiveKeep = (scanned d pre).length
  objects : out.store.objects = d.store.objects
  keyed : out.store.refs.Keyed

theorem falls_iff {threshold : Bytes}
    (hthreshold : ∀ N, N < threshold ↔ archiveKeep ≤ TopK.above N (scanned d pre)) (r : Ref)
    : Falls d pre r ↔ r ∈ listedRefs d.store ∧ falls pre threshold r = true := by
  unfold Falls falls
  rw [List.mem_filter, Bool.and_eq_true, decide_eq_true_eq, hthreshold, and_assoc]

theorem refAt_pruned {threshold : Bytes}
    (hthreshold : ∀ N, N < threshold ↔ archiveKeep ≤ TopK.above N (scanned d pre)) {out : PruneDel}
    (h : Pruned (listedRefs d.store) pre threshold ⟨d.store, 0⟩ out) (p : List Comp) (r : Ref)
    : refAt out.store p = some r ↔ refAt d.store p = some r ∧ ¬ Falls d pre r := by
  by_cases hgone : ∃ r' ∈ listedRefs d.store, falls pre threshold r' = true ∧ comps r'.name = p
  . rcases hgone with ⟨r', hmem, hfalls, hp⟩
    have hnone := h.gone r' hmem hfalls
    rw [hp] at hnone
    rw [refAt_of_none hnone]
    constructor
    . intro hread
      contradiction
    . rintro ⟨hread, hstays⟩
      have hr' := listedRefs_subset d hmem
      rw [mem_allRefs, hp, hread] at hr'
      rw [Option.some.inj hr'] at hstays
      exact absurd ((falls_iff d pre hthreshold r').mpr ⟨hmem, hfalls⟩) hstays
  . have hsame := h.kept p fun r' hmem hfalls hp => hgone ⟨r', hmem, hfalls, hp⟩
    rw [refAt_congr hsame]
    constructor
    . intro hread
      refine ⟨hread, ?_⟩
      rw [falls_iff d pre hthreshold]
      rintro ⟨hmem, hfalls⟩
      exact hgone ⟨r, hmem, hfalls, (d.named p r hread).path⟩
    . exact And.left

theorem passSpec_pruneNamespace : PassSpec d pre (pruneNamespace d.store pre) := by
  rw [pruneNamespace_eq]
  split
  next hfew =>
    constructor
    . intro p r
      rw [iff_self_and]
      intro _
      exact not_falls_of_few d pre hfew r
    . unfold scanned
      dsimp only
      omega
    . rfl
    . exact d.keyed
  next hmany =>
    have hthreshold := lt_threshold_iff (Nat.lt_of_not_le hmany)
    rw [refListView_seen d (local_pruneDelCb pre _) rfl]
    have hpruned := @pruned_foldl pre
      ((TopK.keep archiveKeep (scannedNames pre (listedRefs d.store))).headD []) _
      (named_of_listed d) ⟨d.store, 0⟩
    constructor
    . exact refAt_pruned d pre hthreshold hpruned
    . have hcount := countP_falls d pre
      rw [List.countP_filter] at hcount
      rw [hpruned.deleted, Nat.zero_add]
      -- a ref is counted by the pass exactly when it has enough greater names
      have hsame : (listedRefs d.store).countP (falls pre
            ((TopK.keep archiveKeep (scannedNames pre (listedRefs d.store))).headD []))
          = (listedRefs d.store).countP (fun r =>
              decide (archiveKeep ≤ TopK.above r.name (scanned d pre)) && pre.isPrefixOf r.name) := by
        apply List.countP_congr
        intro r _
        unfold falls
        rw [Bool.and_eq_true, Bool.and_eq_true, decide_eq_true_eq, decide_eq_true_eq, hthreshold,
          and_comm]
        rfl
      rw [hsame]
      exact hcount
    . exact hpruned.objects
    . exact hpruned.keyed d.keyed

end Pass

section Law

variable {d : RefDir} {pre : Bytes} {out : PruneDel}

def PassSpec.dir (h : PassSpec d pre out) : RefDir where
  store := out.store
  keyed := h.keyed
  named := by
    intro p r hr
    exact d.named p r ((h.kept p r).mp hr).1

theorem PassSpec.refsUnder_perm (h : PassSpec d pre out)
    : (refsUnder out.store pre).Perm ((refsUnder d.store pre).filter (fun r => ¬ Falls d pre r)) := by
  change (refsUnder h.dir.store pre).Perm _
  rw [List.perm_ext_iff_of_nodup (nodup_refsUnder h.dir pre) ((nodup_refsUnder d pre).filter _)]
  intro r
  rw [mem_refsUnder, List.mem_filter, mem_refsUnder, decide_eq_true_eq]
  have hkept := h.kept (comps r.name) r
  unfold PassSpec.dir
  rw [hkept]
  exact and_right_comm

theorem falls_perm (d : RefDir) (pre : Bytes)
    : ((refsUnder d.store pre).filter (Falls d pre)).Perm
        (((listedRefs d.store).filter (fun r => pre.isPrefixOf r.name)).filter
          (fun r => archiveKeep ≤ TopK.above r.name (scanned d pre))) := by
  rw [List.perm_ext_iff_of_nodup ((nodup_refsUnder d pre).filter _)
    (((nodup_listedRefs d).filter _).filter _)]
  intro r
  have hfalls : r ∈ ((listedRefs d.store).filter (fun r => pre.isPrefixOf r.name)).filter
      (fun r => archiveKeep ≤ TopK.above r.name (scanned d pre)) ↔ Falls d pre r := by
    rw [List.mem_filter, decide_eq_true_eq]
    rfl
  rw [hfalls, List.mem_filter, decide_eq_true_eq]
  constructor
  . exact And.right
  . intro hr
    refine ⟨?_, hr⟩
    have hmem := List.mem_filter.mp hr.1
    exact List.mem_filter.mpr ⟨listedRefs_subset d hmem.1, hmem.2⟩

theorem PassSpec.length_left (h : PassSpec d pre out)
    : (refsUnder out.store pre).length + (scanned d pre).length
        = (refsUnder d.store pre).length + min (scanned d pre).length archiveKeep := by
  have hcount := countP_falls d pre
  have hsplit := List.length_eq_countP_add_countP (Falls d pre ·) (l := refsUnder d.store pre)
  rw [h.refsUnder_perm.length_eq, ← List.countP_eq_length_filter]
  rw [List.countP_eq_length_filter, (falls_perm d pre).length_eq, ← List.countP_eq_length_filter]
    at hsplit
  have hneg : (refsUnder d.store pre).countP (fun r => ¬ decide (Falls d pre r) = true)
      = (refsUnder d.store pre).countP (fun r => ¬ Falls d pre r) := by
    apply List.countP_congr
    intro r _
    simp
  rw [hneg] at hsplit
  omega

theorem length_scanned_le (d : RefDir) (pre : Bytes)
    : (scanned d pre).length ≤ (refsUnder d.store pre).length := by
  unfold scanned scannedNames
  rw [List.length_map]
  apply ((nodup_listedRefs d).filter _).subperm _ |>.length_le
  intro r hr
  have hmem := List.mem_filter.mp hr
  exact List.mem_filter.mpr ⟨listedRefs_subset d hmem.1, hmem.2⟩

theorem newest_iff (d : RefDir) (pre : Bytes) (r : Ref)
    : Newest d.store pre r
        ↔ TopK.above r.name (scannedNames pre (allRefs d.store)) < archiveKeep := by
  unfold Newest refsUnder
  rw [above_scannedNames, List.countP_filter]
  simp only [Bool.and_comm]

-- A pass that meets every ref of the namespace, or has nothing to delete, keeps the newest ones.
theorem newestKept_of_seen (h : PassSpec d pre out)
    (hseen : ∀ r ∈ refsUnder d.store pre, r ∈ listedRefs d.store)
    : NewestKept d.store pre out := by
  have hperm := perm_of_seen d hseen
  have hlength : (scanned d pre).length = (refsUnder d.store pre).length := by
    unfold scanned scannedNames
    rw [List.length_map]
    exact hperm.length_eq
  have habove : ∀ N, TopK.above N (scanned d pre)
      = TopK.above N (scannedNames pre (allRefs d.store)) :=
    TopK.above_perm (hperm.map Ref.name)
  have hleft := h.length_left
  constructor
  . intro p r
    rw [h.kept p r, and_congr_right_iff]
    intro hread
    unfold Falls
    rw [newest_iff, ← habove]
    constructor
    . intro hstays hpre
      apply Nat.lt_of_not_le
      intro hle
      apply hstays
      refine ⟨List.mem_filter.mpr ⟨?_, hpre⟩, hle⟩
      apply hseen
      rw [mem_refsUnder, (d.named p r hread).path]
      exact ⟨hread, hpre⟩
    . rintro hnewest ⟨hmem, hle⟩
      have hlt := hnewest (List.mem_filter.mp hmem).2
      omega
  . omega
  . have hdeleted := h.deleted
    omega
  . exact h.objects

theorem newestKept_of_few (h : PassSpec d pre out)
    (hfew : (refsUnder d.store pre).length ≤ archiveKeep) : NewestKept d.store pre out := by
  have hscanned := length_scanned_le d pre
  have hleft := h.length_left
  have hdeleted := h.deleted
  constructor
  . intro p r
    rw [h.kept p r, and_congr_right_iff]
    intro hread
    constructor
    . intro _ hpre
      have hmem : r ∈ refsUnder d.store pre := by
        rw [mem_refsUnder, (d.named p r hread).path]
        exact ⟨hread, hpre⟩
      rw [newest_iff]
      have hlt := TopK.above_lt_length (List.mem_map_of_mem (f := Ref.name) hmem)
      rw [List.length_map] at hlt
      exact Nat.lt_of_lt_of_le hlt hfew
    . intro _
      exact not_falls_of_few d pre (Nat.le_trans hscanned hfew) r
  . omega
  . omega
  . exact h.objects

-- What the walk does not visit stays, on top of the refs that the pass keeps.
theorem seen_of_newestKept (h : PassSpec d pre out)
    (hmany : archiveKeep < (refsUnder d.store pre).length) (hkept : NewestKept d.store pre out)
    : ∀ r ∈ refsUnder d.store pre, r ∈ listedRefs d.store := by
  have hscanned := length_scanned_le d pre
  have hleft := h.length_left
  have hcount := hkept.left
  have hlength : (refsUnder d.store pre).length
      ≤ ((listedRefs d.store).filter (fun r => pre.isPrefixOf r.name)).length := by
    have heq : (scanned d pre).length
        = ((listedRefs d.store).filter (fun r => pre.isPrefixOf r.name)).length := List.length_map ..
    omega
  have hsub : ((listedRefs d.store).filter (fun r => pre.isPrefixOf r.name)).Subperm
      (refsUnder d.store pre) := by
    apply ((nodup_listedRefs d).filter _).subperm
    intro r hr
    have hmem := List.mem_filter.mp hr
    exact List.mem_filter.mpr ⟨listedRefs_subset d hmem.1, hmem.2⟩
  intro r hr
  rw [← (hsub.perm_of_length_le hlength).mem_iff] at hr
  exact (List.mem_filter.mp hr).1

theorem newestKept_iff (d : RefDir) (pre : Bytes)
    : NewestKept d.store pre (pruneNamespace d.store pre)
        ↔ (refsUnder d.store pre).length ≤ archiveKeep
          ∨ ∀ r ∈ refsUnder d.store pre,
            (∀ c ∈ comps r.name, c.visible = true) ∧ PathListed d.store (comps r.name) := by
  have hspec := passSpec_pruneNamespace d pre
  have hseen : (∀ r ∈ refsUnder d.store pre, r ∈ listedRefs d.store)
      ↔ ∀ r ∈ refsUnder d.store pre,
        (∀ c ∈ comps r.name, c.visible = true) ∧ PathListed d.store (comps r.name) := by
    apply forall₂_congr
    intro r hr
    exact mem_listedRefs_iff d (List.mem_filter.mp hr).1
  rw [← hseen]
  constructor
  . intro hkept
    cases Nat.lt_or_ge archiveKeep (refsUnder d.store pre).length with
    | inl hmany => exact .inr (seen_of_newestKept hspec hmany hkept)
    | inr hfew => exact .inl hfew
  . intro h
    cases h with
    | inl hfew => exact newestKept_of_few hspec hfew
    | inr hseen => exact newestKept_of_seen hspec hseen

end Law

section Visited

variable {d : RefDir} {pre : Bytes}

-- The walk visits the ref under the prefix, and finds `archiveKeep` greater names there.
def Surplus (s : Store) (pre : Bytes) (r : Ref) : Prop :=
  Visits s r ∧ pre.isPrefixOf r.name = true
    ∧ archiveKeep ≤ (listedRefs s).countP (fun r' => pre.isPrefixOf r'.name && decide (r.name < r'.name))

theorem falls_iff_surplus (d : RefDir) (pre : Bytes) (r : Ref)
    : Falls d pre r ↔ Surplus d.store pre r := by
  unfold Falls Surplus scanned
  rw [List.mem_filter, mem_listedRefs, above_scannedNames, and_assoc]

theorem look_dir_deleted {q : List Comp} {l : Bool} {threshold : Bytes} {rs : List Ref}
    (hrs : ∀ r ∈ rs, NamedAt (comps r.name) r ∧ d.store.refs.look (comps r.name) ≠ some (.dir l))
    {x : PruneDel} (hx : x.store.refs.look q = some (.dir l) ↔ d.store.refs.look q = some (.dir l))
    : (rs.foldl (fun x r => pruneDelCb pre threshold r x) x).store.refs.look q = some (.dir l)
        ↔ d.store.refs.look q = some (.dir l) := by
  induction rs generalizing x with
  | nil => exact hx
  | cons r rs ih =>
    obtain ⟨hnamed, hfile⟩ := hrs r List.mem_cons_self
    apply ih fun r' hr' => hrs r' (List.mem_cons_of_mem r hr')
    dsimp only
    rw [pruneDelCb_eq r hnamed.ok]
    split
    . dsimp only
      rcases look_storeRefDelete_cases (s := x.store) hnamed.ne_nil q with hsame | ⟨rfl, hnone⟩
      . rw [hsame]
        exact hx
      . rw [hnone]
        simp [hfile]
    . exact hx

-- The pass leaves every directory as it is.
theorem look_dir_pruneNamespace (d : RefDir) (pre : Bytes) (q : List Comp) (l : Bool)
    : (pruneNamespace d.store pre).store.refs.look q = some (.dir l)
        ↔ d.store.refs.look q = some (.dir l) := by
  rw [pruneNamespace_eq]
  split
  . rfl
  . rw [refListView_seen d (local_pruneDelCb pre _) rfl]
    apply look_dir_deleted _ Iff.rfl
    intro r hr
    have hmem := listedRefs_subset d hr
    rw [mem_allRefs] at hmem
    refine ⟨d.named _ r hmem, ?_⟩
    rcases (refAt_eq_some_iff.mp hmem).1 with ⟨readable, data, hlook⟩
    rw [hlook]
    simp

-- A walk after the pass visits what it visited before and the pass has left.
theorem visits_pruneNamespace (d : RefDir) (pre : Bytes) (r : Ref)
    : Visits (pruneNamespace d.store pre).store r
        ↔ Visits d.store r ∧ ¬ Surplus d.store pre r := by
  have hspec := passSpec_pruneNamespace d pre
  have hlisted : ∀ p, PathListed (pruneNamespace d.store pre).store p ↔ PathListed d.store p := by
    intro p
    unfold PathListed
    simp only [look_dir_pruneNamespace]
  have hread : ∀ p, (IsFile (pruneNamespace d.store pre).store p
        ∧ storeRefRead (pruneNamespace d.store pre).store (joinPath p) = some r)
      ↔ (IsFile d.store p ∧ storeRefRead d.store (joinPath p) = some r) ∧ ¬ Surplus d.store pre r := by
    intro p
    rw [← refAt_eq_some_iff, ← refAt_eq_some_iff, hspec.kept, falls_iff_surplus]
  unfold Visits
  simp only [hlisted, hread]
  constructor
  . rintro ⟨p, hvis, hdirs, hfile, hstays⟩
    exact ⟨⟨p, hvis, hdirs, hfile⟩, hstays⟩
  . rintro ⟨⟨p, hvis, hdirs, hfile⟩, hstays⟩
    exact ⟨p, hvis, hdirs, hfile, hstays⟩

end Visited

section Stamps

variable {cs : List Comp} {c : Comp}

def stampRef (c : Comp) : Ref :=
  ⟨archivePrefix ++ c.b, none, 1, false⟩

def stampEnts (cs : List Comp) : List (Comp × RefTree) :=
  cs.map fun c => (c, .file true (refEncode (stampRef c)))

def stampStore (cs : List Comp) : Store :=
  ⟨[7], [], .dir true [(archiveComp, .dir true (stampEnts cs))]⟩

theorem comps_stampRef (c : Comp) : comps (stampRef c).name = [archiveComp, c] := by
  have hname : (stampRef c).name = joinPath [archiveComp, c] := by
    rw [joinPath_cons_cons, joinPath_singleton]
    rfl
  rw [hname, comps_joinPath]

theorem keys_stampEnts (cs : List Comp) : (stampEnts cs).map Prod.fst = cs := by
  unfold stampEnts
  rw [List.map_map]
  exact List.map_id cs

theorem keyed_stampStore (h : cs.Nodup) : (stampStore cs).refs.Keyed := by
  unfold stampStore
  have hsub : (Node.dir true (stampEnts cs) : RefTree).Keyed := by
    rw [Node.keyed_dir_iff, keys_stampEnts]
    refine ⟨h, ?_⟩
    intro c n hn
    rw [← mem_iff_lookupEnt (by rw [keys_stampEnts]; exact h)] at hn
    rcases List.mem_map.mp hn with ⟨c', _, heq⟩
    cases heq
    exact Node.keyed_file true _
  rw [Node.keyed_dir_iff]
  refine ⟨List.nodup_singleton archiveComp, ?_⟩
  intro c n hn
  unfold lookupEnt at hn
  split at hn
  . cases hn
    exact hsub
  . contradiction

theorem fileAt_stampStore (h : cs.Nodup) (hc : c ∈ cs)
    : fileAt (stampStore cs).refs (comps (stampRef c).name) = some (true, refEncode (stampRef c)) := by
  have hent : lookupEnt c (stampEnts cs) = some (.file true (refEncode (stampRef c))) := by
    rw [← mem_iff_lookupEnt (by rw [keys_stampEnts]; exact h)]
    exact List.mem_map_of_mem hc
  rw [comps_stampRef, fileAt_eq_some]
  unfold Node.look stampStore
  rw [Node.find_cons_dir]
  unfold lookupEnt
  rw [if_pos rfl, Option.bind_some, Node.find_cons_dir, hent]
  rfl

theorem stamp_of_file {p : List Comp} (h : cs.Nodup) (hfile : IsFile (stampStore cs) p)
    : ∃ c ∈ cs, p = comps (stampRef c).name := by
  unfold IsFile at hfile
  rw [← Node.mem_filePaths (keyed_stampStore h)] at hfile
  unfold stampStore Node.filePaths at hfile
  rw [mem_entFilePaths] at hfile
  rcases hfile with ⟨e, he, q, hq, rfl⟩
  rw [List.mem_singleton] at he
  subst he
  unfold Node.filePaths at hq
  rw [mem_entFilePaths] at hq
  rcases hq with ⟨e, he, q, hq, rfl⟩
  rcases List.mem_map.mp he with ⟨c, hc, rfl⟩
  unfold Node.filePaths at hq
  rw [List.mem_singleton] at hq
  refine ⟨c, hc, ?_⟩
  rw [comps_stampRef, hq]

-- Archives under the given names.
def stamps (cs : List Comp) (hnodup : cs.Nodup)
    (hok : ∀ c ∈ cs, refNameOk (stampRef c).name = true ∧ endsInDot (stampRef c).name = false) : RefDir where
  store := stampStore cs
  keyed := keyed_stampStore hnodup
  named := by
    intro p r h
    rcases stamp_of_file hnodup (refAt_eq_some_iff.mp h).1 with ⟨c, hc, rfl⟩
    have hfile : fileAt (stampStore cs).refs (comps (stampRef c).name)
        = some (true, WriteIo.ok.onDisk (refEncode (stampRef c))) := fileAt_stampStore hnodup hc
    exact NamedAt.of_written (hok c hc).1 (hok c hc).2 hfile h

theorem mem_refsUnder_stamps {hnodup : cs.Nodup}
    {hok : ∀ c ∈ cs, refNameOk (stampRef c).name = true ∧ endsInDot (stampRef c).name = false}
    (hc : c ∈ cs) : stampRef c ∈ refsUnder (stamps cs hnodup hok).store archivePrefix := by
  have hne := comps_ne_nil_of_noDot (hok c hc).1 (hok c hc).2
  rw [mem_refsUnder]
  have hfile : fileAt (stampStore cs).refs (comps (stampRef c).name)
      = some (true, WriteIo.ok.onDisk (refEncode (stampRef c))) := fileAt_stampStore hnodup hc
  constructor
  . rw [stamps, refAt_written (hok c hc).1 hne hfile, if_pos ⟨rfl, WriteIo.ok_keeps _⟩]
  . rw [List.isPrefixOf_iff_prefix]
    exact List.prefix_append archivePrefix c.b

def stampComp (i : Fin 32) : Comp where
  b := [UInt8.ofNat (97 + i / 8), UInt8.ofNat (97 + i % 8)]
  ne_nil := by simp
  no_slash := by revert i; decide
  no_nul := by revert i; decide
  ne_dot := by simp
  ne_dotdot := by revert i; decide

def dotComp : Comp :=
  ⟨ascii ".x", by decide, by decide, by decide, by decide, by decide⟩

def crowd : List Comp :=
  dotComp :: (List.finRange 32).map stampComp

theorem nodup_crowd : crowd.Nodup := by
  decide

theorem ok_crowd
    : ∀ c ∈ crowd, refNameOk (stampRef c).name = true ∧ endsInDot (stampRef c).name = false := by
  decide

theorem length_refsUnder_crowd
    : archiveKeep < (refsUnder (stamps crowd nodup_crowd ok_crowd).store archivePrefix).length := by
  have hnodup : (crowd.map stampRef).Nodup := by
    apply nodup_crowd.map
    intro c c' heq
    have hcomps := comps_stampRef c
    rw [heq, comps_stampRef] at hcomps
    simpa using hcomps.symm
  have hsub : (crowd.map stampRef).Subperm
      (refsUnder (stamps crowd nodup_crowd ok_crowd).store archivePrefix) := by
    apply hnodup.subperm
    intro r hr
    rcases List.mem_map.mp hr with ⟨c, hc, rfl⟩
    exact mem_refsUnder_stamps hc
  have hlength := hsub.length_le
  have hcrowd : (crowd.map stampRef).length = 33 := rfl
  unfold archiveKeep
  omega

-- A dotted name among more refs than are kept: the walk skips it, and the pass deletes nothing.
theorem not_newestKept_crowd
    : ¬ ∀ (d : RefDir) (pre : Bytes), NewestKept d.store pre (pruneNamespace d.store pre) := by
  intro h
  have hspec := passSpec_pruneNamespace (stamps crowd nodup_crowd ok_crowd) archivePrefix
  have hmem : stampRef dotComp ∈ refsUnder (stamps crowd nodup_crowd ok_crowd).store archivePrefix :=
    mem_refsUnder_stamps List.mem_cons_self
  have hlisted := seen_of_newestKept hspec length_refsUnder_crowd (h _ _) _ hmem
  rw [mem_listedRefs_iff _ (List.mem_of_mem_filter hmem), comps_stampRef] at hlisted
  have hvisible := hlisted.1 dotComp (by simp)
  revert hvisible
  decide

end Stamps

end Harp
