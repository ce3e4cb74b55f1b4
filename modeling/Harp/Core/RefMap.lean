import Harp.Core.GcSafety

/-!
This module contains the ref directory as a finite map: for which names the files of the directory
behave as one ref for each name that was written and not deleted since.
-/

namespace Harp

open FileTree

section Names

theorem strstr_iff_isInfix (s sub : Bytes) : strstr s sub = true ↔ sub <:+: s := by
  induction s with
  | nil => simp [strstr, List.infix_nil]
  | cons c s ih =>
    unfold strstr
    rw [Bool.or_eq_true, List.isPrefixOf_iff_prefix, ih, List.infix_cons_iff]

theorem intercalate_cons_cons (p p' : Bytes) (parts : List Bytes)
    : [slash].intercalate (p :: p' :: parts)
        = p ++ ([slash] ++ [slash].intercalate (p' :: parts)) := by
  simp [List.intercalate]

theorem infix_intercalate {parts : List Bytes} {part : Bytes} (h : part ∈ parts)
    : part <:+: [slash].intercalate parts := by
  induction parts with
  | nil => contradiction
  | cons p parts ih =>
    cases parts with
    | nil =>
      rw [List.mem_singleton] at h
      simp [h, List.intercalate]
    | cons p' parts =>
      rw [intercalate_cons_cons]
      rw [List.mem_cons] at h
      cases h with
      | inl h =>
        rw [h]
        apply List.IsPrefix.isInfix
        apply List.prefix_append
      | inr h =>
        apply List.IsInfix.trans (ih h)
        apply List.IsSuffix.isInfix
        rw [← List.append_assoc]
        apply List.suffix_append

theorem sublist_intercalate {parts parts' : List Bytes} (h : parts.Sublist parts')
    : ([slash].intercalate parts).Sublist ([slash].intercalate parts') := by
  induction h with
  | slnil => simp
  | @cons l l' p _ ih =>
    apply List.Sublist.trans ih
    cases l' with
    | nil => simp [List.intercalate]
    | cons p' l' =>
      rw [intercalate_cons_cons, ← List.append_assoc]
      apply List.sublist_append_right
  | @cons_cons l l' p hsub ih =>
    cases l' with
    | nil =>
      rw [List.sublist_nil] at hsub
      rw [hsub]
    | cons p' l' =>
      cases l with
      | nil =>
        rw [intercalate_cons_cons]
        simp [List.intercalate]
      | cons q l =>
        rw [intercalate_cons_cons, intercalate_cons_cons]
        apply List.Sublist.append
        . apply List.Sublist.refl
        . apply List.Sublist.append
          . apply List.Sublist.refl
          . exact ih

theorem map_b_filterMap_sublist (parts : List Bytes)
    : ((parts.filterMap Comp.of?).map Comp.b).Sublist parts := by
  induction parts with
  | nil => simp
  | cons p parts ih =>
    rw [List.filterMap_cons]
    cases hof : Comp.of? p with
    | none =>
      apply List.Sublist.cons
      exact ih
    | some c =>
      have hb : c.b = p := by
        unfold Comp.of? at hof
        split at hof
        . cases hof
          rfl
        . contradiction
      rw [List.map_cons, hb]
      apply List.Sublist.cons_cons
      exact ih

theorem joinPath_comps_sublist (name : Bytes) : (joinPath (comps name)).Sublist name := by
  have hsub := sublist_intercalate (map_b_filterMap_sublist (name.splitOn slash))
  rw [List.intercalate_splitOn slash] at hsub
  exact hsub

theorem infix_of_mem_comps {name : Bytes} {c : Comp} (h : c ∈ comps name) : c.b <:+: name := by
  have hmem : c.b ∈ name.splitOn slash := by
    apply List.Sublist.mem _ (map_b_filterMap_sublist (name.splitOn slash))
    apply List.mem_map_of_mem
    exact h
  have hinfix := infix_intercalate hmem
  rw [List.intercalate_splitOn slash] at hinfix
  exact hinfix

theorem strstr_dots_append {a b : Bytes} (ha : strstr a [dot, dot] = false)
    (hb : strstr b [dot, dot] = false) : strstr (a ++ slash :: b) [dot, dot] = false := by
  induction a with
  | nil =>
    rw [List.nil_append]
    unfold strstr
    rw [hb]
    rfl
  | cons c a ih =>
    unfold strstr at ha
    rw [Bool.or_eq_false_iff] at ha
    rw [List.cons_append]
    unfold strstr
    rw [ih ha.2, Bool.or_false]
    cases a with
    | nil => simp [List.isPrefixOf, dot, slash]
    | cons c' a =>
      have hpre := ha.1
      simp only [List.cons_append, List.isPrefixOf] at hpre ⊢
      exact hpre

theorem strstr_dots_joinPath {p : List Comp} (h : ∀ c ∈ p, strstr c.b [dot, dot] = false)
    : strstr (joinPath p) [dot, dot] = false := by
  induction p with
  | nil => rfl
  | cons c p ih =>
    have hc := h c (by simp)
    cases p with
    | nil =>
      rw [joinPath_singleton]
      exact hc
    | cons c' p =>
      rw [joinPath_cons_cons, List.append_assoc, List.singleton_append]
      apply strstr_dots_append hc
      apply ih
      intro d hd
      apply h d
      apply List.mem_cons_of_mem
      exact hd

theorem head?_joinPath_ne_slash (p : List Comp) : (joinPath p).head? ≠ some slash := by
  cases p with
  | nil => simp [joinPath, List.intercalate]
  | cons c p =>
    have hc : c.b.head? ≠ some slash := by
      intro hhead
      apply c.no_slash
      apply List.mem_of_head? hhead
    cases p with
    | nil =>
      rw [joinPath_singleton]
      exact hc
    | cons c' p =>
      rw [joinPath_cons_cons, List.append_assoc, List.head?_append_of_ne_nil _ c.ne_nil]
      exact hc

-- The name the walk gives a file is valid if the one it was written under is.
theorem refNameOk_joinPath_comps {name : Bytes} (h : refNameOk name = true) (hne : comps name ≠ [])
    : refNameOk (joinPath (comps name)) = true := by
  have hsub := joinPath_comps_sublist name
  rw [refNameOk_iff] at h ⊢
  rcases h with ⟨_, hlen, _, _, hdots, hall⟩
  refine ⟨joinPath_ne_nil hne, ?_, head?_joinPath_ne_slash _, getLast?_joinPath_ne_slash _, ?_, ?_⟩
  . apply Nat.lt_of_le_of_lt hsub.length_le hlen
  . apply strstr_dots_joinPath
    intro c hc
    rw [← Bool.not_eq_true, strstr_iff_isInfix] at hdots ⊢
    intro hinfix
    apply hdots
    apply List.IsInfix.trans hinfix
    apply infix_of_mem_comps hc
  . rw [List.all_eq_true] at hall ⊢
    intro c hc
    apply hall c
    apply hsub.mem hc

end Names

section Tree

-- What a successful write leaves at every path of the ref directory.
structure WriteSpec (s s' : Store) (r : Ref) : Prop where
  name : refNameOk r.name = true
  noDot : endsInDot r.name = false
  ne_nil : comps r.name ≠ []
  file : s'.refs.look (comps r.name) = some (.file true (refEncode r))
  above : ∀ q, q <+: comps r.name → q ≠ comps r.name → ∃ l, s'.refs.look q = some (.dir l)
  other : ∀ q, q ≠ comps r.name → s'.refs.look q = s.refs.look q
    ∨ s'.refs.look q = none ∧ q = tmpPath s.pid (comps r.name)
    ∨ s.refs.look q = none ∧ s'.refs.look q = some (.dir true) ∧ q <+: comps r.name
  keyed : s.refs.Keyed → s'.refs.Keyed

theorem keyed_mkdirs {t t' : RefTree} {done path : List Comp} (h : mkdirs t done path = some t')
    (hkeyed : t.Keyed) : t'.Keyed := by
  induction path generalizing t done with
  | nil =>
    cases h
    exact hkeyed
  | cons c path ih =>
    unfold mkdirs at h
    split at h
    . apply ih h
      apply Node.keyed_put _ hkeyed
      apply Node.keyed_empty_dir
    . apply ih h hkeyed
    . contradiction

theorem keyed_writeAtomic {pid : List (Fin 10)} {t t' : RefTree} {dir : List Comp} {c : Comp}
    {data : Bytes} {io : WriteIo} {ok : Bool} (h : writeAtomic pid t dir c data io = (ok, t'))
    (hkeyed : t.Keyed) : t'.Keyed := by
  have herase := Node.keyed_erase (dir ++ [c.tmp pid]) hkeyed
  unfold writeAtomic at h
  dsimp only at h
  split at h
  . cases h
    exact hkeyed
  . split at h
    . cases h
      exact herase
    . split at h
      . cases h
        exact herase
      . cases h
        apply Node.keyed_put _ herase
        apply Node.keyed_file

theorem storeRefWrite_spec {s : Store} {r : Ref} {io : WriteIo}
    (h : (storeRefWrite s r io).1 = true) (hkeeps : io.keeps (refEncode r) = true)
    : WriteSpec s (storeRefWrite s r io).2 r := by
  unfold storeRefWrite at h ⊢
  split at h
  . contradiction
  next hguard =>
    rw [if_neg hguard]
    rw [not_or, not_or, not_not, not_not, isDirAt_iff] at hguard
    rcases hguard with ⟨hok, _, hroot⟩
    split at h
    . contradiction
    next hdot =>
      rw [if_neg hdot]
      rw [Bool.not_eq_true] at hdot
      cases hlast : (comps r.name).getLast? with
      | none => simp [hlast] at h
      | some c =>
        rw [hlast] at h
        dsimp only at h ⊢
        cases hmk : mkdirs s.refs [] (comps r.name).dropLast with
        | none => simp [hmk] at h
        | some t =>
          rw [hmk] at h
          dsimp only at h ⊢
          have hspec := mkdirs_spec hroot hmk
          rw [List.nil_append] at hspec
          rcases hw : writeAtomic s.pid t (comps r.name).dropLast c (refEncode r) io with ⟨ok, t'⟩
          rw [hw] at h
          dsimp only at h ⊢
          subst h
          have hlook := writeAtomic_true hspec.dir hw
          have hpath := dropLast_append_getLast? hlast
          rw [← tmpPath_of_getLast? hlast, hpath] at hlook
          have hne : comps r.name ≠ [] := by
            intro hnil
            rw [hnil] at hlast
            contradiction
          have hfile := hlook (comps r.name)
          rw [if_pos rfl, WriteIo.onDisk_eq hkeeps] at hfile
          refine ⟨hok, hdot, hne, hfile, ?_, ?_, ?_⟩
          . intro q hprefix hneq
            rcases hprefix with ⟨q', hq'⟩
            apply Node.look_dir_of_append (q := q')
            . intro hnil
              rw [hnil, List.append_nil] at hq'
              contradiction
            . rw [hq', hfile]
              simp
          . intro q hneq
            have hq := hlook q
            rw [if_neg hneq] at hq
            rw [hq]
            split
            next htmp =>
              apply Or.inr
              apply Or.inl
              constructor
              . rfl
              . exact htmp
            next =>
              cases hold : s.refs.look q with
              | some k =>
                apply Or.inl
                rw [← hold]
                apply hspec.old
                simp [hold]
              | none =>
                cases hspec.new q hold with
                | inl hnone =>
                  apply Or.inl
                  exact hnone
                | inr hnew =>
                  apply Or.inr
                  apply Or.inr
                  refine ⟨rfl, hnew.1, ?_⟩
                  apply List.IsPrefix.trans hnew.2
                  apply List.dropLast_prefix
          . intro hkeyed
            apply keyed_writeAtomic hw
            apply keyed_mkdirs hmk hkeyed

theorem keyed_storeRefDelete {s : Store} (name : Bytes) (h : s.refs.Keyed)
    : (storeRefDelete s name).2.refs.Keyed := by
  unfold storeRefDelete
  split
  . split
    . exact h
    . split
      . apply Node.keyed_erase _ h
      . apply Node.keyed_erase _ h
      . exact h
  . exact h

-- A delete removes the file the name resolves to, if there is one.
theorem look_storeRefDelete {s : Store} {name : Bytes} (hok : refNameOk name = true)
    (hne : comps name ≠ []) (hdir : ∀ l, s.refs.look (comps name) ≠ some (.dir l)) (q : List Comp)
    : (storeRefDelete s name).2.refs.look q
        = if q = comps name ∧ endsInDot name = false then none else s.refs.look q := by
  unfold storeRefDelete
  rw [if_pos hok]
  cases hdot : endsInDot name with
  | true => simp
  | false =>
    simp only [Bool.false_eq_true, if_false, and_true]
    cases hfind : s.refs.find (comps name) with
    | none =>
      have hlook : s.refs.look (comps name) = none := by
        unfold Node.look
        rw [hfind]
        rfl
      dsimp only
      split
      next heq => rw [heq, hlook]
      next => rfl
    | some n =>
      cases n with
      | dir l ents =>
        have hlook : s.refs.look (comps name) = some (.dir l) := by
          unfold Node.look
          rw [hfind]
          rfl
        apply absurd hlook
        apply hdir
      | file readable data =>
        have hlook : s.refs.look (comps name) = some (.file readable data) := by
          unfold Node.look
          rw [hfind]
          rfl
        rcases List.eq_nil_or_concat (comps name) with hnil | ⟨dir, c, hc⟩
        . contradiction
        . rw [List.concat_eq_append] at hc
          rw [hc] at hlook ⊢
          have hparent : ∃ l, s.refs.look dir = some (.dir l) := by
            apply Node.look_dir_of_append (q := [c]) (by simp)
            rw [hlook]
            simp
          rcases hparent with ⟨l, hparent⟩
          apply Node.look_erase hparent
          apply Node.leaf_of_look_eq_file hlook

end Tree

-- An operation on the refs; what a name reads as is observed between any two of them.
inductive RefOp where
  | write (r : Ref) (io : WriteIo)
  | delete (name : Bytes)

def RefOp.name : RefOp → Bytes
  | .write r _ => r.name
  | .delete name => name

def RefOp.exec (s : Store) : RefOp → Bool × Store
  | .write r io => storeRefWrite s r io
  | .delete name => storeRefDelete s name

abbrev RefMap := Bytes → Option Ref

def RefOp.apply (m : RefMap) : RefOp → RefMap
  | .write r _ => Function.update m r.name (some r)
  | .delete name => Function.update m name none

def listNames (s : Store) : List Bytes :=
  (storeRefList s (fun r names => names ++ [r.name]) []).2

-- The directory shows what the map holds, to reads of `names` and to the listing.
structure ReadsAs (names : Set Bytes) (s : Store) (m : RefMap) : Prop where
  read : ∀ n ∈ names, storeRefRead s n = some ((m n).getD (Ref.unborn n))
  list : ∀ n, n ∈ listNames s ↔ m n ≠ none
  once : (listNames s).Nodup

-- All that a write encodes is on disk.
def RefOp.keeps : RefOp → Bool
  | .write r io => io.keeps (refEncode r)
  | .delete _ => true

-- Every operation is on one of the names, and every write succeeds.
def AllWritten (names : Set Bytes) (s : Store) : List RefOp → Prop
  | [] => True
  | op :: ops =>
    op.name ∈ names ∧ (op.exec s).1 = true ∧ op.keeps = true ∧ AllWritten names (op.exec s).2 ops

def MapLaw (names : Set Bytes) (s : Store) (m : RefMap) : List RefOp → Prop
  | [] => ReadsAs names s m
  | op :: ops =>
    ReadsAs names s m
      ∧ (∀ n ∈ names, n ≠ op.name → storeRefRead (op.exec s).2 n = storeRefRead s n)
      ∧ MapLaw names (op.exec s).2 (op.apply m) ops

-- No other name resolves to the file of `r` or to a directory above it, and the walk can read it.
structure Apart (names : Set Bytes) (r : Ref) : Prop where
  alg : r.algOk = true
  visible : ∀ c ∈ comps r.name, c.visible = true
  other : ∀ n ∈ names, n ≠ r.name → comps n <+: comps r.name →
    comps n = comps r.name ∧ endsInDot n = true

-- The files are those of the map; a directory stands only above a name that was written.
structure Backed (names : Set Bytes) (s : Store) (m : RefMap) : Prop where
  root : s.refs.look [] = some (.dir true)
  dir : ∀ p l, s.refs.look p = some (.dir l) →
    l = true ∧ (p = [] ∨ ∃ r, Apart names r ∧ p <+: comps r.name ∧ p ≠ comps r.name)
  file : ∀ p readable data, s.refs.look p = some (.file readable data) →
    ∃ r, m r.name = some r ∧ comps r.name = p ∧ readable = true ∧ data = refEncode r
  held : ∀ n r, m n = some r → r.name = n ∧ n ∈ names ∧ endsInDot n = false ∧ Apart names r
    ∧ s.refs.look (comps n) = some (.file true (refEncode r))
  keyed : s.refs.Keyed

theorem tmp_not_visible (pid : List (Fin 10)) (c : Comp) : (c.tmp pid).visible = false := by
  have hstr : strstr (c.b ++ tmpSuffix pid) (ascii ".tmp.") = true := by
    rw [strstr_iff_isInfix]
    apply List.IsInfix.trans _ (List.suffix_append _ _).isInfix
    apply List.IsPrefix.isInfix
    apply List.prefix_append
  simp [Comp.visible, Comp.tmp, hstr]

theorem tmpPath_not_visible {pid : List (Fin 10)} {p : List Comp} (h : p ≠ [])
    : ∃ c ∈ tmpPath pid p, c.visible = false := by
  unfold tmpPath
  cases hlast : p.getLast? with
  | none => simp [h] at hlast
  | some c => exact ⟨c.tmp pid, by simp, tmp_not_visible pid c⟩

theorem refDecode_take {r : Ref} (hok : refNameOk r.name = true) (halg : r.algOk = true)
    : (refDecode (Cdec.init ((refEncode r).take 1024))).1 = some r := by
  have hround := refDecode_refEncode hok []
  rw [List.append_nil, halg, if_pos rfl] at hround
  rw [List.take_of_length_le (length_refEncode_le hok)]
  exact hround

section Backed

variable {names : Set Bytes} {s : Store} {m : RefMap} {r : Ref} {n : Bytes}
variable (hok : ∀ n ∈ names, refNameOk n = true) (hne : ∀ n ∈ names, comps n ≠ [])

include hne in
theorem Backed.not_dir (h : Backed names s m) (hn : n ∈ names) (l : Bool)
    : s.refs.look (comps n) ≠ some (.dir l) := by
  intro hdir
  cases (h.dir _ _ hdir).2 with
  | inl hnil => apply hne n hn hnil
  | inr hr =>
    rcases hr with ⟨r, hr, hprefix, hneq⟩
    by_cases heq : n = r.name
    . apply hneq
      rw [heq]
    . apply hneq
      apply (hr.other n hn heq hprefix).1

include hok hne in
theorem Backed.read_eq (h : Backed names s m) (hn : n ∈ names)
    : storeRefRead s n = some ((m n).getD (Ref.unborn n)) := by
  unfold storeRefRead
  rw [if_pos (hok n hn)]
  cases hlook : s.refs.look (comps n) with
  | none =>
    have hm : m n = none := by
      cases hm : m n with
      | none => rfl
      | some r =>
        have hfile := (h.held n r hm).2.2.2.2
        rw [hlook] at hfile
        contradiction
    rw [hm]
    rfl
  | some k =>
    cases k with
    | dir l => exact absurd hlook (h.not_dir hne hn l)
    | file readable data =>
      rcases h.file _ _ _ hlook with ⟨r, hr, hcomps, rfl, rfl⟩
      rcases h.held _ _ hr with ⟨_, hrn, hdot, hapart, _⟩
      by_cases heq : n = r.name
      . subst heq
        simp [hdot, hr, refDecode_take (hok _ hrn) hapart.alg]
      . have hends : endsInDot n = true := by
          have hprefix : comps n <+: comps r.name := by
            rw [hcomps]
          apply (hapart.other n hn heq hprefix).2
        have hm : m n = none := by
          cases hm : m n with
          | none => rfl
          | some r' =>
            have hfalse := (h.held n r' hm).2.2.1
            rw [hends] at hfalse
            contradiction
        simp [hends, hm]

include hok in
theorem Backed.pathVisible (h : Backed names s m) (hr : m n = some r) (hcomps : comps n ≠ [])
    : PathVisible (comps n) := by
  rcases h.held _ _ hr with ⟨rfl, hrn, _, hapart, _⟩
  refine ⟨hcomps, hapart.visible, ?_⟩
  apply refNameOk_joinPath_comps (hok _ hrn) hcomps

include hok in
theorem Backed.read_path (h : Backed names s m) (hr : m n = some r) (hvis : PathVisible (comps n))
    : storeRefRead s (joinPath (comps n)) = some r := by
  rcases h.held _ _ hr with ⟨rfl, hrn, _, hapart, hfile⟩
  rw [storeRefRead_joinPath hvis (fileAt_eq_some.mpr hfile)]
  apply refDecode_take (hok _ hrn) hapart.alg

include hok hne in
theorem Backed.mem_listedRefs_iff (h : Backed names s m) (r : Ref)
    : r ∈ listedRefs s ↔ m r.name = some r := by
  rw [mem_listedRefs]
  constructor
  . intro hvisit
    rcases hvisit with ⟨p, hvis, _, ⟨readable, data, hfile⟩, hread⟩
    rcases h.file _ _ _ hfile with ⟨r', hr', rfl, _, _⟩
    rw [h.read_path hok hr' hvis] at hread
    cases hread
    exact hr'
  . intro hr
    rcases h.held _ _ hr with ⟨_, hrn, _, _, hfile⟩
    have hvis := h.pathVisible hok hr (hne _ hrn)
    refine ⟨comps r.name, hvis, ?_, ⟨_, _, hfile⟩, h.read_path hok hr hvis⟩
    intro q hprefix hneq
    rcases hprefix with ⟨q', hq'⟩
    have hdir : ∃ l, s.refs.look q = some (.dir l) := by
      apply Node.look_dir_of_append (q := q')
      . intro hnil
        rw [hnil, List.append_nil] at hq'
        contradiction
      . rw [hq', hfile]
        simp
    rcases hdir with ⟨l, hdir⟩
    rw [hdir, (h.dir _ _ hdir).1]

include hok hne in
theorem Backed.prefix_of_mem (h : Backed names s m) {levels : Nat} {p : List Comp}
    (hr : r ∈ walkList s levels (joinPath p)) : p <+: comps r.name := by
  rcases path_of_mem_walkList levels p hr with ⟨q, _, _, _, _, ⟨readable, data, hfile⟩, hread⟩
  rcases h.file _ _ _ hfile with ⟨r', hr', hcomps, _, _⟩
  have hrn := (h.held _ _ hr').2.1
  rw [← hcomps, h.read_path hok hr' (h.pathVisible hok hr' (hne _ hrn))] at hread
  cases hread
  rw [hcomps]
  apply List.prefix_append

include hok hne in
theorem Backed.prefix_of_mem_oneList (h : Backed names s m) {levels : Nat} {p : List Comp}
    {c : Comp} (hr : r ∈ oneList s (walkList s levels) (joinPath p) c)
    : p ++ [c] <+: comps r.name := by
  rw [mem_oneList] at hr
  rcases hr with ⟨_, _, ⟨⟨readable, data, hfile⟩, hread⟩ | ⟨_, hsub⟩⟩
  . rcases h.file _ _ _ hfile with ⟨r', hr', hcomps, _, _⟩
    have hrn := (h.held _ _ hr').2.1
    rw [← hcomps, h.read_path hok hr' (h.pathVisible hok hr' (hne _ hrn))] at hread
    cases hread
    rw [hcomps]
  . apply h.prefix_of_mem hok hne hsub

theorem pairwise_oneList {R : Ref → Ref → Prop} {sub : Bytes → List Ref} {p : List Comp} {c : Comp}
    (hsub : (sub (joinPath (p ++ [c]))).Pairwise R) : (oneList s sub (joinPath p) c).Pairwise R := by
  unfold oneList walkOne
  rw [← joinPath_concat]
  dsimp only
  repeat' split
  all_goals first
    | apply List.Pairwise.nil
    | apply List.pairwise_singleton
    | apply hsub

include hok hne in
theorem Backed.pairwise_walkList (h : Backed names s m) (levels : Nat) (p : List Comp)
    : (walkList s levels (joinPath p)).Pairwise (fun r r' => r.name ≠ r'.name) := by
  induction levels generalizing p with
  | zero => apply List.Pairwise.nil
  | succ levels ih =>
    unfold walkList
    rw [comps_joinPath]
    cases hfind : s.refs.find p with
    | none => apply List.Pairwise.nil
    | some node =>
      cases node with
      | file => apply List.Pairwise.nil
      | dir listable ents =>
        cases listable with
        | false => apply List.Pairwise.nil
        | true =>
          dsimp only
          rw [List.pairwise_flatMap]
          constructor
          . intro c _
            apply pairwise_oneList
            apply ih
          . apply List.Pairwise.imp _ (h.keyed p true ents hfind)
            -- refs below two entries have paths that part ways at the entries
            intro c c' hcc r hr r' hr' hname
            have hc := h.prefix_of_mem_oneList hok hne hr
            have hc' := h.prefix_of_mem_oneList hok hne hr'
            rw [hname] at hc
            have heq := List.prefix_of_prefix_length_le hc hc' (by simp)
            have hlast := heq.eq_of_length (by simp)
            rw [List.append_cancel_left_eq, List.singleton_inj] at hlast
            contradiction

theorem listNames_eq (s : Store) : listNames s = (listedRefs s).map Ref.name := by
  unfold listNames
  rw [storeRefList_eq]
  have hfold : ∀ (rs : List Ref) (names : List Bytes),
      rs.foldl (fun names (r : Ref) => names ++ [r.name]) names = names ++ rs.map Ref.name := by
    intro rs
    induction rs with
    | nil => simp
    | cons r rs ih =>
      intro names
      rw [List.foldl_cons, ih]
      simp
  rw [hfold, List.nil_append]

include hok hne in
theorem Backed.readsAs (h : Backed names s m) : ReadsAs names s m := by
  constructor
  . intro n hn
    apply h.read_eq hok hne hn
  . intro n
    rw [listNames_eq, List.mem_map]
    constructor
    . intro hmem
      rcases hmem with ⟨r, hr, rfl⟩
      rw [h.mem_listedRefs_iff hok hne] at hr
      simp [hr]
    . intro hm
      rw [Option.ne_none_iff_exists'] at hm
      rcases hm with ⟨r, hr⟩
      have hname := (h.held n r hr).1
      refine ⟨r, ?_, hname⟩
      rw [h.mem_listedRefs_iff hok hne, hname]
      exact hr
  . rw [listNames_eq]
    apply List.pairwise_map.mpr
    apply h.pairwise_walkList hok hne refNameMax []

theorem Backed.of_empty (hempty : s.refs = .dir true []) : Backed names s (fun _ => none) := by
  have hlook : ∀ p, s.refs.look p = if p = [] then some (.dir true) else none := by
    intro p
    rw [hempty]
    cases p <;> rfl
  refine ⟨hlook [], ?_, ?_, ?_, ?_⟩
  . intro p l hp
    rw [hlook] at hp
    split at hp
    next hnil =>
      cases hp
      exact ⟨rfl, .inl hnil⟩
    next => contradiction
  . intro p readable data hp
    rw [hlook] at hp
    split at hp <;> cases hp
  . intro n r hm
    contradiction
  . rw [hempty]
    apply Node.keyed_empty_dir

theorem Backed.write {s' : Store} (h : Backed names s m) (hw : WriteSpec s s' r)
    (hr : r.name ∈ names) (hapart : Apart names r)
    : Backed names s' (Function.update m r.name (some r)) := by
  refine ⟨?_, ?_, ?_, ?_, hw.keyed h.keyed⟩
  . rcases hw.other [] (Ne.symm hw.ne_nil) with hsame | ⟨_, htmp⟩ | ⟨hnone, _⟩
    . rw [hsame]
      apply h.root
    . rcases tmpPath_not_visible hw.ne_nil with ⟨c, hc, _⟩
      rw [← htmp] at hc
      contradiction
    . rw [h.root] at hnone
      cases hnone
  . intro p l hp
    have hneq : p ≠ comps r.name := by
      intro heq
      rw [heq, hw.file] at hp
      cases hp
    rcases hw.other p hneq with hsame | ⟨hnone, _⟩ | ⟨_, hdir, hprefix⟩
    . rw [hsame] at hp
      apply h.dir p l hp
    . rw [hnone] at hp
      cases hp
    . rw [hdir] at hp
      cases hp
      exact ⟨rfl, .inr ⟨r, hapart, hprefix, hneq⟩⟩
  . intro p readable data hp
    by_cases hneq : p = comps r.name
    . rw [hneq, hw.file] at hp
      cases hp
      exact ⟨r, Function.update_self .., hneq.symm, rfl, rfl⟩
    . rcases hw.other p hneq with hsame | ⟨hnone, _⟩ | ⟨_, hdir, _⟩
      . rw [hsame] at hp
        rcases h.file p _ _ hp with ⟨r', hr', hcomps, hreadable, hdata⟩
        refine ⟨r', ?_, hcomps, hreadable, hdata⟩
        rw [Function.update_of_ne]
        . exact hr'
        . intro heq
          apply hneq
          rw [← hcomps, heq]
      . rw [hnone] at hp
        cases hp
      . rw [hdir] at hp
        cases hp
  . intro n r' hm
    by_cases hn : n = r.name
    . subst hn
      rw [Function.update_self] at hm
      cases hm
      exact ⟨rfl, hr, hw.noDot, hapart, hw.file⟩
    . rw [Function.update_of_ne hn] at hm
      rcases h.held n r' hm with ⟨hname, hmem, hdot, hapart', hfile⟩
      refine ⟨hname, hmem, hdot, hapart', ?_⟩
      have hneq : comps n ≠ comps r.name := by
        intro heq
        have hprefix : comps n <+: comps r.name := by
          rw [heq]
        rw [(hapart.other n hmem hn hprefix).2] at hdot
        contradiction
      rcases hw.other (comps n) hneq with hsame | ⟨_, htmp⟩ | ⟨hnone, _⟩
      . rw [hsame]
        exact hfile
      . rcases tmpPath_not_visible hw.ne_nil with ⟨c, hc, hvis⟩
        rw [← htmp, ← hname] at hc
        rw [hapart'.visible c hc] at hvis
        contradiction
      . rw [hfile] at hnone
        cases hnone

include hok hne in
theorem Backed.delete (h : Backed names s m) (hn : n ∈ names)
    : Backed names (storeRefDelete s n).2 (Function.update m n none) := by
  have hlook := look_storeRefDelete (hok n hn) (hne n hn) (h.not_dir hne hn)
  refine ⟨?_, ?_, ?_, ?_, keyed_storeRefDelete n h.keyed⟩
  . rw [hlook, if_neg (fun hand => hne n hn hand.1.symm)]
    apply h.root
  . intro p l hp
    rw [hlook] at hp
    split at hp
    . contradiction
    . apply h.dir p l hp
  . intro p readable data hp
    rw [hlook] at hp
    split at hp
    . contradiction
    next hkeep =>
      rcases h.file p _ _ hp with ⟨r, hr, hcomps, hreadable, hdata⟩
      refine ⟨r, ?_, hcomps, hreadable, hdata⟩
      rw [Function.update_of_ne]
      . exact hr
      . intro heq
        apply hkeep
        rw [← heq]
        exact ⟨hcomps.symm, (h.held _ _ hr).2.2.1⟩
  . intro n' r hm
    by_cases hnn : n' = n
    . rw [hnn, Function.update_self] at hm
      contradiction
    . rw [Function.update_of_ne hnn] at hm
      rcases h.held n' r hm with ⟨hname, hmem, hdot, hapart, hfile⟩
      refine ⟨hname, hmem, hdot, hapart, ?_⟩
      rw [hlook, if_neg]
      . exact hfile
      . rintro ⟨heq, hdotn⟩
        have hprefix : comps n <+: comps r.name := by
          rw [hname, heq]
        rw [(hapart.other n hn (by rw [hname]; exact Ne.symm hnn) hprefix).2] at hdotn
        contradiction

include hok in
-- If the map is still right after a write, no name got in the way of it.
theorem Backed.apart {s' : Store} (h : Backed names s m) (hw : WriteSpec s s' r)
    (hr : r.name ∈ names) (hreads : ReadsAs names s' (Function.update m r.name (some r)))
    : Apart names r := by
  have hread := hreads.read r.name hr
  unfold storeRefRead at hread
  rw [if_pos hw.name, hw.file, Function.update_self] at hread
  simp only [hw.noDot, Bool.false_eq_true, not_true_eq_false, or_self, if_false,
    Option.getD_some] at hread
  have hround := refDecode_refEncode hw.name []
  rw [List.append_nil] at hround
  rw [List.take_of_length_le (length_refEncode_le hw.name)] at hread
  unfold Cdec.init at hread
  rw [hround] at hread
  constructor
  . cases halg : r.algOk with
    | true => rfl
    | false => simp [halg] at hread
  . have hlist : r.name ∈ listNames s' := by
      rw [hreads.list, Function.update_self]
      simp
    rw [listNames_eq, List.mem_map] at hlist
    rcases hlist with ⟨r', hmem, hname⟩
    rw [mem_listedRefs] at hmem
    rcases hmem with ⟨p, hvis, _, ⟨readable, data, hfile⟩, hread'⟩
    have hp : p = comps r.name := by
      by_contra hneq
      have hsame : s'.refs.look p = s.refs.look p := by
        rcases hw.other p hneq with hsame | ⟨hnone, _⟩ | ⟨_, hdir, _⟩
        . exact hsame
        . rw [hnone] at hfile
          cases hfile
        . rw [hdir] at hfile
          cases hfile
      rw [hsame] at hfile
      rcases h.file _ _ _ hfile with ⟨r₀, hr₀, hcomps, rfl, rfl⟩
      have hheld := h.held _ _ hr₀
      have hread₀ := storeRefRead_joinPath hvis (fileAt_eq_some.mpr (hsame.trans hfile))
      rw [refDecode_take (hok _ hheld.2.1) hheld.2.2.2.1.alg, hread'] at hread₀
      cases hread₀
      apply hneq
      rw [← hcomps, hname]
    rw [← hp]
    apply hvis.2.1
  . intro n hn hne hprefix
    have hreadn := hreads.read n hn
    unfold storeRefRead at hreadn
    rw [if_pos (hok n hn), Function.update_of_ne hne] at hreadn
    by_cases heq : comps n = comps r.name
    . refine ⟨heq, ?_⟩
      rw [heq, hw.file] at hreadn
      cases hdot : endsInDot n with
      | true => rfl
      | false =>
        simp only [hdot, Bool.false_eq_true, not_true_eq_false, or_self, if_false] at hreadn
        rw [List.take_of_length_le (length_refEncode_le hw.name)] at hreadn
        unfold Cdec.init at hreadn
        rw [hround] at hreadn
        have hname : ((m n).getD (Ref.unborn n)).name = n := by
          cases hm : m n with
          | none => rfl
          | some r' => exact (h.held n r' hm).1
        split at hreadn
        . cases hreadn
          exact absurd hname.symm hne
        . contradiction
    . rcases hw.above _ hprefix heq with ⟨l, hdir⟩
      rw [hdir] at hreadn
      contradiction

end Backed

def RefOp.written : RefOp → Option Ref
  | .write r _ => some r
  | .delete _ => none

theorem ReadsAs.frame {names : Set Bytes} {s : Store} {m : RefMap} {op : RefOp}
    (h : ReadsAs names s m) (h' : ReadsAs names (op.exec s).2 (op.apply m)) {n : Bytes}
    (hn : n ∈ names) (hne : n ≠ op.name)
    : storeRefRead (op.exec s).2 n = storeRefRead s n := by
  have hm : op.apply m n = m n := by
    cases op <;> apply Function.update_of_ne hne
  rw [h.read n hn, h'.read n hn, hm]

theorem mapLaw_readsAs {names : Set Bytes} {s : Store} {m : RefMap} {ops : List RefOp}
    (h : MapLaw names s m ops) : ReadsAs names s m := by
  cases ops with
  | nil => exact h
  | cons op ops => exact h.1

theorem mapLaw_iff_of_backed {names : Set Bytes} {s : Store} {m : RefMap} {ops : List RefOp}
    (hok : ∀ n ∈ names, refNameOk n = true) (hne : ∀ n ∈ names, comps n ≠ [])
    (hacc : AllWritten names s ops) (h : Backed names s m)
    : MapLaw names s m ops ↔ ∀ op ∈ ops, ∀ r, op.written = some r → Apart names r := by
  induction ops generalizing s m with
  | nil =>
    simp only [MapLaw, List.not_mem_nil, false_implies, implies_true, iff_true]
    apply h.readsAs hok hne
  | cons op ops ih =>
    rcases hacc with ⟨hname, htrue, hkeeps, hacc⟩
    unfold MapLaw
    rw [List.forall_mem_cons]
    have hreads := h.readsAs hok hne
    cases op with
    | delete n =>
      have hnext : Backed names (RefOp.exec s (.delete n)).2 (RefOp.apply m (.delete n)) :=
        h.delete hok hne hname
      rw [ih hacc hnext]
      constructor
      . intro hlaw
        exact ⟨fun r hr => by contradiction, hlaw.2.2⟩
      . intro hops
        refine ⟨hreads, ?_, hops.2⟩
        intro n' hn' hneq
        exact hreads.frame (hnext.readsAs hok hne) hn' hneq
    | write r io =>
      have hw := storeRefWrite_spec htrue hkeeps
      constructor
      . intro hlaw
        have hapart := h.apart hok hw hname (mapLaw_readsAs hlaw.2.2)
        refine ⟨?_, (ih hacc (h.write hw hname hapart)).mp hlaw.2.2⟩
        intro r' hr'
        cases hr'
        exact hapart
      . intro hops
        have hnext : Backed names (RefOp.exec s (.write r io)).2 (RefOp.apply m (.write r io)) :=
          h.write hw hname (hops.1 r rfl)
        refine ⟨hreads, ?_, (ih hacc hnext).mpr hops.2⟩
        intro n' hn' hneq
        exact hreads.frame (hnext.readsAs hok hne) hn' hneq

-- A name that resolves to the ref directory itself cannot be read.
theorem comps_ne_nil_of_reads {names : Set Bytes} {s : Store} {m : RefMap}
    (hroot : s.refs.look [] = some (.dir true)) (h : ReadsAs names s m)
    : ∀ n ∈ names, comps n ≠ [] := by
  intro n hn hnil
  have hread := h.read n hn
  unfold storeRefRead at hread
  rw [hnil, hroot] at hread
  split at hread <;> contradiction

theorem mapLaw_iff {names : Set Bytes} {s : Store} {ops : List RefOp}
    (hok : ∀ n ∈ names, refNameOk n = true) (hempty : s.refs = .dir true [])
    (hacc : AllWritten names s ops)
    : MapLaw names s (fun _ => none) ops
        ↔ (∀ n ∈ names, comps n ≠ []) ∧ ∀ op ∈ ops, ∀ r, op.written = some r → Apart names r := by
  have hbacked : Backed names s (fun _ => none) := Backed.of_empty hempty
  constructor
  . intro hlaw
    have hne := comps_ne_nil_of_reads hbacked.root (mapLaw_readsAs hlaw)
    refine ⟨hne, ?_⟩
    rw [← mapLaw_iff_of_backed hok hne hacc hbacked]
    exact hlaw
  . rintro ⟨hne, hops⟩
    rw [mapLaw_iff_of_backed hok hne hacc hbacked]
    exact hops

section Spellings

def slashRef : Ref :=
  ⟨ascii "a/b", none, 1, false⟩

def slashesRef : Ref :=
  ⟨ascii "a//b", none, 2, false⟩

def noRefs : Store :=
  ⟨[7], [], .dir true []⟩

def spellings : Set Bytes :=
  {ascii "a/b", ascii "a//b"}

def spellingOps : List RefOp :=
  [.write slashRef .ok, .write slashesRef .ok]

theorem refNameOk_spellings : ∀ n ∈ spellings, refNameOk n = true := by
  intro n hn
  rcases hn with rfl | rfl <;> decide

theorem allWritten_spellingOps : AllWritten spellings noRefs spellingOps := by
  refine ⟨.inl rfl, ?_, ?_, .inr rfl, ?_, ?_, trivial⟩ <;> decide

theorem not_mapLaw_spellings
    : ¬ ∀ names s ops, (∀ n ∈ names, refNameOk n = true) → s.refs = .dir true [] →
        AllWritten names s ops → MapLaw names s (fun _ => none) ops := by
  intro h
  have hlaw := h spellings noRefs spellingOps refNameOk_spellings rfl allWritten_spellingOps
  have hread := hlaw.2.2.2.2.read (ascii "a/b") (.inl rfl)
  revert hread
  decide

end Spellings

section Hierarchy

def hierarchy : Set Bytes :=
  {ascii "live/project", ascii "archive/x"}

def hierarchyOps : List RefOp :=
  [.write ⟨ascii "live/project", none, 1, true⟩ .ok, .write ⟨ascii "archive/x", none, 1, false⟩ .ok,
    .delete (ascii "archive/x"), .write ⟨ascii "live/project", none, 2, true⟩ .ok]

theorem refNameOk_hierarchy : ∀ n ∈ hierarchy, refNameOk n = true := by
  intro n hn
  rcases hn with rfl | rfl <;> decide

theorem allWritten_hierarchyOps : AllWritten hierarchy noRefs hierarchyOps := by
  refine ⟨.inl rfl, ?_, ?_, .inr rfl, ?_, ?_, .inr rfl, ?_, ?_, .inl rfl, ?_, ?_, trivial⟩ <;> decide

theorem mapLaw_hierarchy : MapLaw hierarchy noRefs (fun _ => none) hierarchyOps := by
  rw [mapLaw_iff refNameOk_hierarchy rfl allWritten_hierarchyOps]
  constructor
  . intro n hn
    rcases hn with rfl | rfl <;> decide
  . intro op hop r hr
    simp only [hierarchyOps, List.mem_cons, List.not_mem_nil, or_false] at hop
    rcases hop with rfl | rfl | rfl | rfl <;> cases hr
    all_goals
      refine ⟨rfl, by decide, ?_⟩
      intro n hn
      rcases hn with rfl | rfl <;> decide

end Hierarchy

end Harp
