import Harp.Device.LiveRef
import Harp.Device.Refset
import Harp.Lib.TopK

/-!
This module contains the facts about the retention pass of `handleStateRefset`: which refs it can
delete, and that it leaves the live ref alone.
-/

namespace Harp

open FileTree

section Walk

variable {view : σ → Store} {cb : Ref → σ → σ} {I : σ → Prop}

theorem endsInDot_child (rel : Bytes) (c : Comp)
    : endsInDot (if rel.isEmpty then c.b else rel ++ [slash] ++ c.b) = false := by
  have hc : c.b.splitOn slash = [c.b] := List.splitOn_eq_singleton c.no_slash
  unfold endsInDot
  split
  . rw [hc]
    simp [c.ne_dot]
  . rw [List.append_assoc, List.singleton_append, List.splitOn_append_cons_self, hc]
    simp [c.ne_dot]

theorem walkOne_inv {sub : Bytes → σ → Bool × σ}
    (hcb : ∀ crel r ud, endsInDot crel = false → storeRefRead (view ud) crel = some r →
      I ud → I (cb r ud))
    (hsub : ∀ crel ud, I ud → I (sub crel ud).2) (rel : Bytes) (ud : σ) (dname : Comp) (h : I ud)
    : I (walkOne view cb sub rel ud dname) := by
  have hdot := endsInDot_child rel dname
  unfold walkOne
  dsimp only
  generalize (if rel.isEmpty then dname.b else rel ++ [slash] ++ dname.b) = crel at hdot ⊢
  split
  . exact h
  . split
    . exact h
    . split
      . exact h
      . split
        . exact h
        . split
          . exact h
          . split
            . exact h
            . exact hsub crel ud h
            . split
              next r hread => exact hcb crel r ud hdot hread h
              next => exact h

-- What every callback preserves holds after the walk, although the walk reads what they change.
theorem walkRefs_inv
    (hcb : ∀ crel r ud, endsInDot crel = false → storeRefRead (view ud) crel = some r →
      I ud → I (cb r ud))
    (levels : Nat) (rel : Bytes) (ud : σ) (h : I ud) : I (walkRefs view cb levels rel ud).2 := by
  induction levels generalizing rel ud with
  | zero => exact h
  | succ levels ih =>
    unfold walkRefs
    split
    next ents _ =>
      dsimp only
      generalize ents.map Prod.fst = names
      clear * - ih h hcb
      induction names generalizing ud with
      | nil => exact h
      | cons dname names ihn =>
        rw [List.foldl_cons]
        apply ihn
        exact walkOne_inv hcb ih rel ud dname h
    next => exact h

end Walk

section Delete

theorem look_erase_leaf {t : RefTree} {p : List Comp} (hp : p ≠ []) (hleaf : Node.Leaf (t.find p))
    (hsome : t.look p ≠ none) (q : List Comp)
    : (t.erase p).look q = if q = p then none else t.look q := by
  rcases List.eq_nil_or_concat p with hnil | ⟨dir, c, hconcat⟩
  . contradiction
  . subst hconcat
    rw [List.concat_eq_append] at *
    rcases Node.look_dir_of_append (by simp) hsome with ⟨listable, hdir⟩
    exact Node.look_erase hdir hleaf q

theorem look_storeRefDelete_cases {s : Store} {name : Bytes} (hname : comps name ≠ []) (q : List Comp)
    : (storeRefDelete s name).2.refs.look q = s.refs.look q
        ∨ q = comps name ∧ (storeRefDelete s name).2.refs.look q = none := by
  have herase : Node.Leaf (s.refs.find (comps name)) → s.refs.look (comps name) ≠ none →
      (s.refs.erase (comps name)).look q = s.refs.look q
        ∨ q = comps name ∧ (s.refs.erase (comps name)).look q = none := by
    intro hleaf hsome
    rw [look_erase_leaf hname hleaf hsome]
    split
    next hq => exact .inr ⟨hq, rfl⟩
    next => exact .inl rfl
  unfold storeRefDelete
  split
  . split
    . exact .inl rfl
    . split
      next hfind =>
        apply herase
        . rw [hfind]
          apply Node.leaf_file
        . simp [Node.look, hfind]
      next hfind =>
        apply herase
        . rw [hfind]
          apply Node.leaf_empty_dir
        . simp [Node.look, hfind]
      next => exact .inl rfl
  . exact .inl rfl

theorem fileAt_storeRefDelete {s : Store} {name : Bytes} (hname : comps name ≠ []) (q : List Comp)
    : fileAt (storeRefDelete s name).2.refs q = fileAt s.refs q
        ∨ q = comps name ∧ fileAt (storeRefDelete s name).2.refs q = none := by
  rcases look_storeRefDelete_cases (s := s) hname q with hsame | ⟨hq, hnone⟩
  . exact .inl (fileAt_congr hsame)
  . exact .inr ⟨hq, by simp [fileAt, hnone]⟩

theorem comps_cons (c : Comp) (rest : Bytes)
    : comps (c.b ++ slash :: rest) = c :: comps rest := by
  unfold comps
  rw [List.splitOn_append_cons_self_of_not_mem c.no_slash]
  rw [List.filterMap_cons, c.of?_b]

def archiveComp : Comp := ⟨ascii "archive", by decide, by decide, by decide, by decide, by decide⟩

def duplicateComp : Comp :=
  ⟨ascii "duplicate", by decide, by decide, by decide, by decide, by decide⟩

theorem comps_of_retentionPrefix {name pre : Bytes}
    (hpre : pre = archivePrefix ∨ pre = duplicatePrefix) (h : pre.isPrefixOf name = true)
    : (comps name).head? = some archiveComp ∨ (comps name).head? = some duplicateComp := by
  rw [List.isPrefixOf_iff_prefix] at h
  rcases h with ⟨rest, rfl⟩
  rcases hpre with hpre | hpre
  . have : pre ++ rest = archiveComp.b ++ slash :: rest := by rw [hpre]; rfl
    rw [this, comps_cons]
    exact .inl rfl
  . have : pre ++ rest = duplicateComp.b ++ slash :: rest := by rw [hpre]; rfl
    rw [this, comps_cons]
    exact .inr rfl

end Delete

section Live

variable {pre : Bytes} {q : List Comp}

-- A path outside the two namespaces the retention pass works on.
def OutsideRetention (q : List Comp) : Prop :=
  q.head? ≠ some archiveComp ∧ q.head? ≠ some duplicateComp
deriving Decidable

theorem look_pruneDelCb (hpre : pre = archivePrefix ∨ pre = duplicatePrefix)
    (hq : OutsideRetention q) (threshold : Bytes) (r : Ref) (p : PruneDel)
    : (pruneDelCb pre threshold r p).store.refs.look q = p.store.refs.look q := by
  unfold pruneDelCb
  split
  . rfl
  next hname =>
    rw [Classical.not_not] at hname
    split
    . have hhead := comps_of_retentionPrefix hpre hname
      have hnil : comps r.name ≠ [] := by
        intro hnil
        simp [hnil] at hhead
      rcases look_storeRefDelete_cases (s := p.store) hnil q with hsame | ⟨heq, _⟩
      . exact hsame
      . subst heq
        rcases hhead with hhead | hhead
        . exact absurd hhead hq.1
        . exact absurd hhead hq.2
    . rfl

theorem look_pruneNamespace (hpre : pre = archivePrefix ∨ pre = duplicatePrefix)
    (hq : OutsideRetention q) (s : Store)
    : (pruneNamespace s pre).store.refs.look q = s.refs.look q := by
  unfold pruneNamespace
  dsimp only
  split
  . rfl
  . unfold refListView
    apply walkRefs_inv (I := fun (p : PruneDel) => p.store.refs.look q = s.refs.look q)
    . intro crel r p _ _ h
      rw [look_pruneDelCb hpre hq]
      exact h
    . rfl

theorem storeObjForeach_go_inv {cb : HashCb σ} {I : σ → Prop} (hcb : ∀ h ud, I ud → I (cb h ud).2)
    (hs : List Hash) (ud : σ) (h : I ud) : I (storeObjForeach.go cb hs ud) := by
  induction hs generalizing ud with
  | nil => exact h
  | cons x hs ih =>
    have hx := hcb x ud h
    unfold storeObjForeach.go
    split
    next heq =>
      rw [heq] at hx
      exact ih _ hx
    next heq =>
      rw [heq] at hx
      exact hx

section Frame

-- What every unlink keeps is kept by a collection.
theorem storeGc_inv {I : Store → Prop} (hdel : ∀ s h, I s → I (storeObjDelete s h).2) {s : Store}
    {maxSweep : Nat} {out : GcOut} (h : storeGc s maxSweep = some out) (hs : I s)
    : I out.store := by
  unfold storeGc at h
  dsimp only at h
  split at h
  . cases h
  . split at h
    . cases h
      exact hs
    . split at h
      . cases h
      . cases h
        unfold storeObjForeach
        apply storeObjForeach_go_inv (I := fun (w : SweepCtx) => I w.s) _ _ _ hs
        intro x w hw
        unfold sweepCb
        split
        . exact hw
        . exact hw
        . split
          . exact hw
          . exact hdel w.s x hw

theorem storeGc_frame {f : Store → α} (hframe : ∀ s h, f (storeObjDelete s h).2 = f s) {s : Store}
    {maxSweep : Nat} {out : GcOut} (h : storeGc s maxSweep = some out) : f out.store = f s := by
  apply storeGc_inv (I := fun s' => f s' = f s) _ h rfl
  intro s' x hs'
  rw [hframe]
  exact hs'

end Frame

theorem retentionPrefix_some {refname : Bytes} (h : retentionPrefix refname = some pre)
    : pre = archivePrefix ∨ pre = duplicatePrefix := by
  unfold retentionPrefix at h
  split at h
  . cases h
    exact .inl rfl
  . split at h
    . cases h
      exact .inr rfl
    . cases h

theorem maybeGc_of_none {refname : Bytes} (h : retentionPrefix refname = none) (d : Device)
    : maybeGc d refname = d := by
  unfold maybeGc
  rw [h]

-- Whether a collection follows or not, the refs are those the pruning leaves.
theorem maybeGc_refs {refname : Bytes} (h : retentionPrefix refname = some pre) (d : Device)
    : (maybeGc d refname).store.refs = (pruneNamespace d.store pre).store.refs := by
  unfold maybeGc
  rw [h]
  dsimp only
  split
  . dsimp only
    split
    next out hgc => exact storeGc_frame storeObjDelete_refs hgc
    next => rfl
  . rfl

theorem storeRefDelete_pid (s : Store) (name : Bytes) : (storeRefDelete s name).2.pid = s.pid := by
  unfold storeRefDelete
  split
  . split
    . rfl
    . split <;> rfl
  . rfl

theorem pruneNamespace_pid (s : Store) (pre : Bytes)
    : (pruneNamespace s pre).store.pid = s.pid := by
  unfold pruneNamespace
  dsimp only
  split
  . rfl
  . unfold refListView
    apply walkRefs_inv (I := fun (p : PruneDel) => p.store.pid = s.pid)
    . intro crel r p _ _ h
      unfold pruneDelCb
      split
      . exact h
      . split
        . rw [← h]
          apply storeRefDelete_pid
        . exact h
    . rfl

theorem maybeGc_pid (d : Device) (refname : Bytes)
    : (maybeGc d refname).store.pid = d.store.pid := by
  unfold maybeGc
  split
  . rfl
  next pre _ =>
    have hprune := pruneNamespace_pid d.store pre
    dsimp only
    split
    . dsimp only
      split
      next out hgc =>
        rw [← hprune]
        apply storeGc_frame storeObjDelete_pid hgc
      next => exact hprune
    . exact hprune

theorem maybeGc_liveCache (d : Device) (refname : Bytes)
    : (maybeGc d refname).liveCache = d.liveCache := by
  unfold maybeGc
  split
  . rfl
  . dsimp only
    split <;> rfl

theorem fileAt_maybeGc (hq : OutsideRetention q) (d : Device) (refname : Bytes)
    : fileAt (maybeGc d refname).store.refs q = fileAt d.store.refs q := by
  cases h : retentionPrefix refname with
  | none => rw [maybeGc_of_none h]
  | some pre =>
    rw [maybeGc_refs h]
    exact fileAt_congr (look_pruneNamespace (retentionPrefix_some h) hq d.store)

theorem outsideRetention_livePath : OutsideRetention livePath := by
  decide

theorem currentAt_maybeGc_live (d : Device) (refname : Bytes)
    : currentAt (maybeGc d refname) livePath = currentAt d livePath := by
  unfold currentAt
  rw [maybeGc_liveCache, storedAt_congr (fileAt_maybeGc outsideRetention_livePath d refname)]

end Live

section Keep

-- Every ref file carries a name of the path it stands at.
def WellNamed (s : Store) : Prop :=
  ∀ p r, storedAt s p = some r → comps r.name = p

theorem WellNamed.of_subset {s s' : Store} (h : WellNamed s)
    (hsub : ∀ p r, storedAt s' p = some r → storedAt s p = some r) : WellNamed s' := by
  intro p r hr
  exact h p r (hsub p r hr)

theorem WellNamed.storeRefWrite {s : Store} (h : WellNamed s) {r : Ref} (io : WriteIo)
    : WellNamed (storeRefWrite s r io).2 := by
  intro p r' hr'
  cases hw : (Harp.storeRefWrite s r io).1 with
  | true =>
    rw [storedAt_storeRefWrite hw] at hr'
    split at hr'
    next hp =>
      split at hr'
      . cases hr'
        exact hp.symm
      . cases hr'
    next =>
      split at hr'
      . cases hr'
      . exact h p r' hr'
  | false =>
    by_cases hp : p = tmpPath s.pid (comps r.name)
    . subst hp
      rcases storedAt_storeRefWrite_tmp s r io with hsame | hnone
      . rw [hsame] at hr'
        exact h _ r' hr'
      . rw [hnone] at hr'
        cases hr'
    . rw [storedAt_storeRefWrite_false hw p hp] at hr'
      exact h p r' hr'

theorem storedAt_storeRefDelete {s : Store} {name : Bytes} (hname : comps name ≠ []) (p : List Comp)
    : storedAt (storeRefDelete s name).2 p = storedAt s p
        ∨ p = comps name ∧ storedAt (storeRefDelete s name).2 p = none := by
  rcases fileAt_storeRefDelete (s := s) hname p with hsame | ⟨hp, hnone⟩
  . exact .inl (storedAt_congr hsame)
  . refine .inr ⟨hp, ?_⟩
    unfold storedAt
    rw [hnone]

theorem comps_ne_nil_of_retentionPrefix {name pre : Bytes}
    (hpre : pre = archivePrefix ∨ pre = duplicatePrefix) (h : pre.isPrefixOf name = true)
    : comps name ≠ [] := by
  have hhead := comps_of_retentionPrefix hpre h
  intro hnil
  simp [hnil] at hhead

section Scan

-- The names the pass keeps count of, in the order in which they are met.
def scannedNames (pre : Bytes) (rs : List Ref) : List Bytes :=
  (rs.filter (fun r => pre.isPrefixOf r.name)).map Ref.name

theorem insertName_eq (name : Bytes) (names : List Bytes)
    : insertName name names = TopK.insert name names := by
  induction names with
  | nil => rfl
  | cons n names ih =>
    unfold insertName TopK.insert
    rw [ih]

theorem pruneScanCb_eq (pre : Bytes) (r : Ref) (k : PruneKeep)
    : pruneScanCb pre r k
        = if pre.isPrefixOf r.name then ⟨TopK.push archiveKeep r.name k.names, k.total + 1⟩ else k := by
  rcases k with ⟨names, total⟩
  unfold pruneScanCb TopK.push
  by_cases hname : pre.isPrefixOf r.name = true
  . rw [if_neg (by simpa using hname), if_pos hname]
    dsimp only
    simp only [insertName_eq]
    split
    . rfl
    . cases names with
      | nil => rfl
      | cons smallest names =>
        dsimp only
        split <;> rfl
  . rw [if_pos hname, if_neg hname]

theorem scannedNames_cons (pre : Bytes) (r : Ref) (rs : List Ref)
    : scannedNames pre (r :: rs)
        = if pre.isPrefixOf r.name then r.name :: scannedNames pre rs else scannedNames pre rs := by
  unfold scannedNames
  rw [List.filter_cons]
  split <;> rfl

theorem foldl_pruneScanCb (pre : Bytes) (rs : List Ref) (k : PruneKeep)
    : rs.foldl (fun k r => pruneScanCb pre r k) k
        = ⟨(scannedNames pre rs).foldl (fun kept x => TopK.push archiveKeep x kept) k.names,
          k.total + (scannedNames pre rs).length⟩ := by
  induction rs generalizing k with
  | nil => rfl
  | cons r rs ih =>
    rw [List.foldl_cons, ih, pruneScanCb_eq, scannedNames_cons]
    split
    . rw [List.foldl_cons, List.length_cons, Nat.add_right_comm, Nat.add_assoc]
    . rfl

theorem pruneNamespace_eq (s : Store) (pre : Bytes)
    : pruneNamespace s pre
        = if (scannedNames pre (listedRefs s)).length ≤ archiveKeep then ⟨s, 0⟩ else
          (refListView PruneDel.store
            (pruneDelCb pre ((TopK.keep archiveKeep (scannedNames pre (listedRefs s))).headD []))
            ⟨s, 0⟩).2 := by
  unfold pruneNamespace
  dsimp only
  rw [storeRefList_eq, foldl_pruneScanCb, Nat.zero_add]
  rfl

theorem above_scannedNames (N pre : Bytes) (rs : List Ref)
    : TopK.above N (scannedNames pre rs)
        = rs.countP (fun r => pre.isPrefixOf r.name && decide (N < r.name)) := by
  unfold TopK.above scannedNames
  rw [List.countP_map, List.countP_filter]
  apply List.countP_congr
  intro r _
  simp [and_comm]

-- A name is below the threshold when the pass has met `archiveKeep` greater ones.
theorem lt_threshold_iff {pre : Bytes} {rs : List Ref}
    (htotal : archiveKeep < (scannedNames pre rs).length) (N : Bytes)
    : N < (TopK.keep archiveKeep (scannedNames pre rs)).headD []
        ↔ archiveKeep ≤ TopK.above N (scannedNames pre rs) := by
  have hkept := TopK.kept_keep archiveKeep (scannedNames pre rs)
  exact hkept.lt_head_iff (by decide) (Nat.le_of_lt htotal) [] N

end Scan

variable {pre : Bytes} {p : List Comp} {rN : Ref}

theorem pruneDelCb_keeps (hpre : pre = archivePrefix ∨ pre = duplicatePrefix) {threshold : Bytes}
    (hN : ¬ rN.name < threshold) {crel : Bytes} {r : Ref} {x : PruneDel}
    (hdot : endsInDot crel = false) (hcrel : storeRefRead x.store crel = some r)
    (h : WellNamed x.store ∧ storedAt x.store p = some rN)
    : WellNamed (pruneDelCb pre threshold r x).store
        ∧ storedAt (pruneDelCb pre threshold r x).store p = some rN := by
  unfold pruneDelCb
  split
  . exact h
  next hname =>
    rw [Classical.not_not] at hname
    split
    next hlt =>
      have hnil := comps_ne_nil_of_retentionPrefix hpre hname
      have hp : p ≠ comps r.name := by
        rintro rfl
        have hr := storeRefRead_eq_storedAt hcrel hdot
        cases hread : storedAt x.store (comps crel) with
        | none =>
          rw [hread] at hr
          have hpath : comps r.name = comps crel := by rw [hr]; rfl
          rw [hpath, hread] at h
          cases h.2
        | some r' =>
          rw [hread, Option.getD_some] at hr
          subst hr
          rw [h.1 _ _ hread, hread] at h
          cases h.2
          exact hN hlt
      refine ⟨?_, ?_⟩
      . apply h.1.of_subset
        intro q r' hr'
        rcases storedAt_storeRefDelete (s := x.store) hnil q with hsame | ⟨_, hnone⟩
        . rw [hsame] at hr'
          exact hr'
        . rw [hnone] at hr'
          cases hr'
      . rcases storedAt_storeRefDelete (s := x.store) hnil p with hsame | ⟨heq, _⟩
        . exact hsame.trans h.2
        . contradiction
    next => exact h

theorem storedAt_pruneNamespace (hpre : pre = archivePrefix ∨ pre = duplicatePrefix) {s : Store}
    (hwell : WellNamed s) (hread : storedAt s p = some rN)
    (hcount : (listedRefs s).countP (fun r => pre.isPrefixOf r.name && decide (rN.name < r.name))
      < archiveKeep)
    : WellNamed (pruneNamespace s pre).store ∧ storedAt (pruneNamespace s pre).store p = some rN := by
  rw [pruneNamespace_eq]
  split
  . exact ⟨hwell, hread⟩
  next htotal =>
    rw [← above_scannedNames] at hcount
    have hthreshold := (lt_threshold_iff (Nat.lt_of_not_le htotal) rN.name).not.mpr
      (Nat.not_le.mpr hcount)
    unfold refListView
    apply walkRefs_inv
      (I := fun (x : PruneDel) => WellNamed x.store ∧ storedAt x.store p = some rN)
    . intro crel r x hdot hcrel h
      exact pruneDelCb_keeps hpre hthreshold hdot hcrel h
    . exact ⟨hwell, hread⟩

-- The pruning only deletes.
theorem fileAt_pruneNamespace_sub (hpre : pre = archivePrefix ∨ pre = duplicatePrefix) (s : Store)
    (q : List Comp)
    : fileAt (pruneNamespace s pre).store.refs q = fileAt s.refs q
        ∨ fileAt (pruneNamespace s pre).store.refs q = none := by
  unfold pruneNamespace
  dsimp only
  split
  . exact .inl rfl
  . unfold refListView
    apply walkRefs_inv
      (I := fun (x : PruneDel) => fileAt x.store.refs q = fileAt s.refs q ∨ fileAt x.store.refs q = none)
    . intro crel r x _ _ h
      unfold pruneDelCb
      split
      . exact h
      next hname =>
        rw [Classical.not_not] at hname
        split
        . have hnil := comps_ne_nil_of_retentionPrefix hpre hname
          rcases fileAt_storeRefDelete (s := x.store) hnil q with hsame | ⟨_, hnone⟩
          . rw [hsame]
            exact h
          . exact .inr hnone
        . exact h
    . exact .inl rfl

theorem fileAt_maybeGc_sub (d : Device) (refname : Bytes) (q : List Comp)
    : fileAt (maybeGc d refname).store.refs q = fileAt d.store.refs q
        ∨ fileAt (maybeGc d refname).store.refs q = none := by
  cases h : retentionPrefix refname with
  | none =>
    rw [maybeGc_of_none h]
    exact .inl rfl
  | some pre =>
    rw [maybeGc_refs h]
    exact fileAt_pruneNamespace_sub (retentionPrefix_some h) d.store q

end Keep

end Harp
