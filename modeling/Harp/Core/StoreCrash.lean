import Harp.Core.RefMap
import Harp.Lib.FileSteps

/-!
This module contains `write_atomic` of `core/src/store.c` one step of the file system at a time, and
what a store shows after a write that was cut off between any two of them.

The steps of a whole write are those `storeRefWrite` takes at once; how the buffered data reaches the
temporary is left open.
-/

namespace Harp

open FileTree

-- The temporary beside a path that ends in `/.`.
def dotTmp (pid : List (Fin 10)) : Comp where
  b := dot :: tmpSuffix pid
  ne_nil := by simp
  no_slash := by
    rw [List.mem_cons]
    intro h
    rcases h with h | h
    . revert h
      decide
    . exact (tmpSuffix_char pid _ h).1 rfl
  no_nul := by
    rw [List.mem_cons]
    intro h
    rcases h with h | h
    . revert h
      decide
    . exact (tmpSuffix_char pid _ h).2 rfl
  ne_dot := by simp [tmpSuffix, ascii]
  ne_dotdot := by
    intro h
    have := congrArg List.length h
    simp [tmpSuffix, ascii] at this

-- The file `last` in `dir`; nothing can be renamed onto a path that ends in `/.` (`none`).
structure Target where
  dir : List Comp
  tmp : Comp
  last : Option Comp
deriving DecidableEq

def refTarget (pid : List (Fin 10)) (name : Bytes) : Option Target :=
  if endsInDot name then
    some ⟨comps name, dotTmp pid, none⟩
  else
    (comps name).getLast?.map (fun c => ⟨(comps name).dropLast, c.tmp pid, some c⟩)

def Target.tmpPath (g : Target) : List Comp :=
  g.dir ++ [g.tmp]

def Target.open (g : Target) : Step Comp UInt8 :=
  .create g.dir g.tmp

-- `mkdirs`, then `write_atomic` up to the rename.
def Target.tempSteps (g : Target) (chunks : List Bytes) : List (Step Comp UInt8) :=
  mkdirSteps [] g.dir ++ FileTree.tempSteps g.dir g.tmp chunks

def Target.steps (g : Target) (io : WriteIo) (chunks : List Bytes) : List (Step Comp UInt8) :=
  match g.last with
  | some c =>
    if io.unchecked then
      g.tempSteps chunks ++ [.rename g.dir g.tmp c]
    else
      g.tempSteps chunks
  | none => g.tempSteps chunks

-- The ref directory after a write that went no further. Once the temporary is open it is removed on
-- every failure that is looked at.
inductive CutWrite (s : Store) (r : Ref) (io : WriteIo) : RefTree → Prop where
  | cut {g : Target} {chunks : List Bytes} {steps : List (Step Comp UInt8)} {t : RefTree}
      (htarget : refTarget s.pid r.name = some g) (hdata : chunks.flatten = io.onDisk (refEncode r))
      (hsteps : steps <+: g.steps io chunks) (hrun : execAll s.refs steps = some t)
      : CutWrite s r io t
  | removed {g : Target} {chunks : List Bytes} {steps : List (Step Comp UInt8)} {t : RefTree}
      (htarget : refTarget s.pid r.name = some g) (hdata : chunks.flatten = io.onDisk (refEncode r))
      (hsteps : steps <+: g.tempSteps chunks) (hopen : g.open ∈ steps)
      (hrun : execAll s.refs steps = some t) : CutWrite s r io (t.erase g.tmpPath)

-- Every directory of the path is there or can be made, and the file can be replaced.
structure Writable (s : Store) (name : Bytes) : Prop where
  noDot : endsInDot name = false
  above : ∀ q, q <+: comps name → q ≠ comps name → ¬ IsFile s q
  target : ¬ isDirAt s.refs (comps name) = true
  tmp : ¬ isDirAt s.refs (tmpPath s.pid (comps name)) = true

section Cut

variable {s : Store} {r : Ref} {io : WriteIo} {g : Target} {t t' : RefTree} {chunks : List Bytes}
variable {steps : List (Step Comp UInt8)}

theorem refTarget_some {pid : List (Fin 10)} {name : Bytes} (h : refTarget pid name = some g)
    : (endsInDot name = true ∧ g = ⟨comps name, dotTmp pid, none⟩)
        ∨ (endsInDot name = false
          ∧ ∃ c, (comps name).getLast? = some c ∧ g = ⟨(comps name).dropLast, c.tmp pid, some c⟩) := by
  unfold refTarget at h
  split at h
  next hdot =>
    cases h
    exact .inl ⟨hdot, rfl⟩
  next hdot =>
    rw [Option.map_eq_some_iff] at h
    rcases h with ⟨c, hlast, rfl⟩
    exact .inr ⟨by simpa using hdot, c, hlast, rfl⟩

theorem refTarget_ne {pid : List (Fin 10)} {name : Bytes} (h : refTarget pid name = some g) {c : Comp}
    (hc : g.last = some c) : c ≠ g.tmp := by
  rcases refTarget_some h with ⟨_, rfl⟩ | ⟨_, c', _, rfl⟩
  . cases hc
  . cases hc
    exact (tmp_ne pid c).symm

theorem steps_split {first rest : List (Step Comp UInt8)} (h : steps <+: first ++ rest)
    : steps <+: first ∨ ∃ k, steps = first ++ k ∧ k <+: rest := by
  have hfirst : first <+: first ++ rest := List.prefix_append first rest
  rcases Nat.le_total steps.length first.length with hle | hle
  . exact .inl (List.prefix_of_prefix_length_le h hfirst hle)
  . rcases List.prefix_of_prefix_length_le hfirst h hle with ⟨k, rfl⟩
    rw [List.prefix_append_right_inj] at h
    exact .inr ⟨k, rfl, h⟩

theorem open_not_mem_mkdirSteps (done path : List Comp) : g.open ∉ mkdirSteps done path := by
  induction path generalizing done with
  | nil => exact List.not_mem_nil
  | cons c path ih =>
    rw [mkdirSteps, List.mem_cons]
    intro h
    rcases h with h | h
    . cases h
    . exact ih _ h

-- Off the temporary a path shows what it did, or a new directory above the file, or the new file.
def CutShows (s : Store) (r : Ref) (io : WriteIo) (g : Target) (t : RefTree) : Prop :=
  ∀ q, q ≠ g.tmpPath → t.look q = s.refs.look q
    ∨ (s.refs.look q = none ∧ t.look q = some (.dir true) ∧ q <+: g.dir)
    ∨ (io.unchecked = true ∧ Writable s r.name ∧ ∃ c, g.last = some c ∧ q = g.dir ++ [c]
      ∧ t.look q = some (.file true (io.onDisk (refEncode r))))

theorem cutShows_of_mkdirs (hsteps : steps <+: mkdirSteps [] g.dir)
    (hrun : execAll s.refs steps = some t) : CutShows s r io g t := by
  intro q _
  have hlook := look_mkdirSteps hsteps hrun q
  rw [List.nil_append] at hlook
  rcases hlook with hsame | hnew
  . exact .inl hsame
  . exact .inr (.inl hnew)

-- The tree in the middle has the directories.
theorem cutShows_of_same {t₁ : RefTree} (hfirst : CutShows s r io g t₁)
    (h : ∀ q, q ≠ g.tmpPath → t.look q = t₁.look q
      ∨ (io.unchecked = true ∧ Writable s r.name ∧ ∃ c, g.last = some c ∧ q = g.dir ++ [c]
        ∧ t.look q = some (.file true (io.onDisk (refEncode r)))))
    : CutShows s r io g t := by
  intro q hq
  rcases h q hq with hsame | hnew
  . rw [hsame]
    exact hfirst q hq
  . exact .inr (.inr hnew)

-- The directories have been made, and there is room for the file and its temporary.
theorem writable_of_vacant {t₁ : RefTree} (htarget : refTarget s.pid r.name = some g)
    (hmk : execAll s.refs (mkdirSteps [] g.dir : List (Step Comp UInt8)) = some t₁) {c : Comp}
    (hlast : g.last = some c) (htmp : Vacant t₁ g.dir g.tmp) (hroom : Vacant t₁ g.dir c)
    : Writable s r.name := by
  have hlook := look_mkdirSteps (List.prefix_refl _) hmk
  have hfree : ∀ q, (∀ l, t₁.look q ≠ some (.dir l)) → ¬ isDirAt s.refs q = true := by
    intro q hq hdir
    rw [isDirAt_iff] at hdir
    rcases hdir with ⟨l, hdir⟩
    rcases hlook q with hsame | ⟨hnone, _⟩
    . exact hq l (hsame.trans hdir)
    . rw [hdir] at hnone
      cases hnone
  rcases refTarget_some htarget with ⟨_, rfl⟩ | ⟨hdot, c', hlast', rfl⟩
  . cases hlast
  . cases hlast
    have hpath := dropLast_append_getLast? hlast'
    constructor
    . exact hdot
    . intro q hq hne hfile
      have hdir : q <+: (comps r.name).dropLast := by
        rw [← hpath, List.prefix_concat_iff] at hq
        rcases hq with heq | hq
        . exact absurd (heq.trans hpath) hne
        . exact hq
      rcases hroom.below with ⟨l, hbelow⟩
      rcases Node.look_dir_of_prefix hdir hbelow with ⟨l', habove⟩
      rcases hfile with ⟨readable, data, hfile⟩
      rcases hlook q with hsame | ⟨hnone, _⟩
      . rw [habove, hfile] at hsame
        cases hsame
      . rw [hfile] at hnone
        cases hnone
    . apply hfree
      rw [← hpath]
      exact hroom.free
    . apply hfree
      rw [tmpPath_of_getLast? hlast']
      exact htmp.free

-- A run that is cut off, after the directories or before they are all there.
theorem replacing_of_cut (htarget : refTarget s.pid r.name = some g)
    (hdata : chunks.flatten = io.onDisk (refEncode r)) (hsteps : steps <+: g.steps io chunks)
    (hrun : execAll s.refs steps = some t)
    : steps <+: mkdirSteps [] g.dir
        ∨ ∃ t₁, execAll s.refs (mkdirSteps [] g.dir : List (Step Comp UInt8)) = some t₁
          ∧ (t = t₁ ∨ (∃ part, Vacant t₁ g.dir g.tmp ∧ t = t₁.put g.tmpPath (.file true part))
            ∨ ∃ c, io.unchecked = true ∧ g.last = some c ∧ Vacant t₁ g.dir g.tmp
              ∧ Vacant t₁ g.dir c
              ∧ Replacing t₁ g.dir g.tmp c (io.onDisk (refEncode r)) t) := by
  have hrest : ∃ rest, g.steps io chunks = mkdirSteps [] g.dir ++ rest
      ∧ ((io.unchecked = true ∧ ∃ c, g.last = some c ∧ rest = replaceSteps g.dir g.tmp c chunks)
        ∨ rest = FileTree.tempSteps g.dir g.tmp chunks) := by
    unfold Target.steps Target.tempSteps
    cases hlast : g.last with
    | none => exact ⟨_, rfl, .inr rfl⟩
    | some c =>
      dsimp only
      split
      next hio => exact ⟨_, List.append_assoc .., .inl ⟨hio, c, rfl, rfl⟩⟩
      next => exact ⟨_, rfl, .inr rfl⟩
  rcases hrest with ⟨rest, heq, hrest⟩
  rw [heq] at hsteps
  rcases steps_split hsteps with hmk | ⟨k, rfl, hk⟩
  . exact .inl hmk
  . rw [execAll_append, Option.bind_eq_some_iff] at hrun
    rcases hrun with ⟨t₁, hmk, hk'⟩
    refine .inr ⟨t₁, hmk, ?_⟩
    rcases hrest with ⟨hio, c, hlast, rfl⟩ | rfl
    . have hreplaced := replaced_of_cut (refTarget_ne htarget hlast) hk hk'
      rw [hdata] at hreplaced
      cases hreplaced with
      | start => exact .inl rfl
      | written hroom part => exact .inr (.inl ⟨part, hroom, rfl⟩)
      | renamed htmp hroom =>
        exact .inr (.inr ⟨c, hio, hlast, htmp, hroom, .renamed htmp hroom⟩)
    . rcases written_of_cut hk hk' with ⟨_, rfl⟩ | ⟨hroom, part, rfl⟩
      . exact .inl rfl
      . exact .inr (.inl ⟨part, hroom, rfl⟩)

theorem cutShows_cut (htarget : refTarget s.pid r.name = some g)
    (hdata : chunks.flatten = io.onDisk (refEncode r)) (hsteps : steps <+: g.steps io chunks)
    (hrun : execAll s.refs steps = some t) : CutShows s r io g t := by
  rcases replacing_of_cut htarget hdata hsteps hrun with hmk | ⟨t₁, hmk, hrest⟩
  . exact cutShows_of_mkdirs hmk hrun
  . apply cutShows_of_same (cutShows_of_mkdirs (List.prefix_refl _) hmk)
    intro q hq
    rcases hrest with rfl | ⟨part, hroom, rfl⟩ | ⟨c, hio, hlast, htmp, hroom, hreplaced⟩
    . exact .inl rfl
    . unfold Target.tmpPath at hq ⊢
      rw [hroom.look_put]
      exact .inl (if_neg hq)
    . rcases hreplaced.look (refTarget_ne htarget hlast) hq with hsame | ⟨hqc, hnew⟩
      . exact .inl hsame
      . exact .inr ⟨hio, writable_of_vacant htarget hmk hlast htmp hroom, c, hlast, hqc, hnew⟩

theorem cutShows_removed (hsteps : steps <+: g.tempSteps chunks) (hopen : g.open ∈ steps)
    (hrun : execAll s.refs steps = some t) : CutShows s r io g (t.erase g.tmpPath) := by
  rcases steps_split hsteps with hmk | ⟨k, rfl, hk⟩
  . exact absurd (hmk.mem hopen) (open_not_mem_mkdirSteps [] g.dir)
  . rw [execAll_append, Option.bind_eq_some_iff] at hrun
    rcases hrun with ⟨t₁, hmk, hk'⟩
    apply cutShows_of_same (cutShows_of_mkdirs (List.prefix_refl _) hmk)
    intro q hq
    rcases written_of_cut hk hk' with ⟨rfl, rfl⟩ | ⟨hroom, part, rfl⟩
    . rw [List.append_nil] at hopen
      exact absurd hopen (open_not_mem_mkdirSteps [] g.dir)
    . unfold Target.tmpPath at hq ⊢
      rw [Node.erase_put, hroom.look_erase, if_neg hq]
      exact .inl rfl

theorem CutWrite.shows (h : CutWrite s r io t)
    : ∃ g, refTarget s.pid r.name = some g ∧ CutShows s r io g t := by
  cases h with
  | cut htarget hdata hsteps hrun => exact ⟨_, htarget, cutShows_cut htarget hdata hsteps hrun⟩
  | removed htarget hdata hsteps hopen hrun => exact ⟨_, htarget, cutShows_removed hsteps hopen hrun⟩

-- A file in the place of the temporary is not replaced by a directory.
theorem CutWrite.look_tmp (h : CutWrite s r io t) (htarget : refTarget s.pid r.name = some g)
    (hfile : IsFile s g.tmpPath) (l : Bool) : t.look g.tmpPath ≠ some (.dir l) := by
  obtain ⟨readable, data, hfile⟩ := hfile
  have hmkdirs : ∀ {steps : List (Step Comp UInt8)} {t₁ : RefTree}, steps <+: mkdirSteps [] g.dir →
      execAll s.refs steps = some t₁ → ∀ l, t₁.look g.tmpPath ≠ some (.dir l) := by
    intro steps t₁ hsteps hrun l hdir
    rcases look_mkdirSteps hsteps hrun g.tmpPath with hsame | ⟨hnone, _⟩
    . rw [hdir, hfile] at hsame
      cases hsame
    . rw [hfile] at hnone
      cases hnone
  cases h with
  | @cut g' chunks steps _ htarget' hdata hsteps hrun =>
    cases htarget.symm.trans htarget'
    rcases replacing_of_cut htarget hdata hsteps hrun with hmk | ⟨t₁, hmk, hrest⟩
    . exact hmkdirs hmk hrun l
    . have hfree := hmkdirs (List.prefix_refl _) hmk
      rcases hrest with rfl | ⟨part, hroom, rfl⟩ | ⟨c, _, hlast, _, _, hreplaced⟩
      . exact hfree l
      . unfold Target.tmpPath
        rw [hroom.look_put, if_pos rfl]
        intro hdir
        cases hdir
      . exact hreplaced.look_tmp (refTarget_ne htarget hlast) hfree l
  | @removed g' chunks steps t' htarget' hdata hsteps hopen hrun =>
    cases htarget.symm.trans htarget'
    rcases steps_split hsteps with hmk | ⟨k, rfl, hk⟩
    . exact absurd (hmk.mem hopen) (open_not_mem_mkdirSteps [] g.dir)
    . rw [execAll_append, Option.bind_eq_some_iff] at hrun
      rcases hrun with ⟨t₁, hmk, hk'⟩
      rcases written_of_cut hk hk' with ⟨rfl, rfl⟩ | ⟨hroom, part, rfl⟩
      . rw [List.append_nil] at hopen
        exact absurd hopen (open_not_mem_mkdirSteps [] g.dir)
      . unfold Target.tmpPath
        rw [Node.erase_put, hroom.look_erase, if_pos rfl]
        intro hdir
        cases hdir

end Cut

section Whole

variable {s : Store} {r : Ref} {io : WriteIo} {t t' : RefTree}

theorem execAll_mkdirSteps {done path : List Comp} (hdone : ∃ l, t.look done = some (.dir l))
    (h : mkdirs t done path = some t')
    : execAll t (mkdirSteps done path : List (Step Comp UInt8)) = some t' := by
  induction path generalizing t done with
  | nil => exact h
  | cons c path ih =>
    rcases hdone with ⟨l, hdone⟩
    unfold mkdirs at h
    rw [mkdirSteps, execAll_cons]
    unfold Step.exec
    dsimp only
    rw [hdone]
    split at h
    next hnone =>
      rw [hnone]
      have hempty : Node.Leaf (some (Node.dir true [] : RefTree)) := Node.leaf_empty_dir true
      have hput := Node.look_put hdone (Node.leaf_of_look_eq_none hnone) hempty (done ++ [c])
      rw [if_pos rfl] at hput
      exact ih ⟨true, hput⟩ h
    next l' hdir =>
      rw [hdir]
      exact ih ⟨l', hdir⟩ h
    . cases h

theorem look_root_of_not_file (h : ¬ IsFile s []) : ∃ l, s.refs.look [] = some (.dir l) := by
  cases hroot : s.refs with
  | file readable data => exact absurd ⟨readable, data, by rw [hroot]; rfl⟩ h
  | dir listable ents => exact ⟨listable, rfl⟩

theorem mkdirs_of_no_file {done : List Comp} (path : List Comp)
    (hdone : ∃ l, t.look done = some (.dir l))
    (h : ∀ q, q <+: path → q ≠ [] → ∀ readable data,
      t.look (done ++ q) ≠ some (.file readable data))
    : ∃ t', mkdirs t done path = some t' := by
  induction path generalizing t done with
  | nil => exact ⟨t, rfl⟩
  | cons c path ih =>
    have hbelow : ∀ q, q <+: path → ∀ readable data,
        t.look ((done ++ [c]) ++ q) ≠ some (.file readable data) := by
      intro q hq readable data
      rw [List.append_assoc]
      exact h (c :: q) (List.cons_prefix_cons.mpr ⟨rfl, hq⟩) (List.cons_ne_nil c q) readable data
    unfold mkdirs
    split
    next hnone =>
      obtain ⟨l, hdir⟩ := hdone
      have hempty : Node.Leaf (some (Node.dir true [] : RefTree)) := Node.leaf_empty_dir true
      have hput := Node.look_put hdir (Node.leaf_of_look_eq_none hnone) hempty
      apply ih
      . refine ⟨true, ?_⟩
        rw [hput, if_pos rfl]
        rfl
      . intro q hq hne readable data
        have hneq : done ++ [c] ++ q ≠ done ++ [c] := by
          intro heq
          exact hne (List.append_right_eq_self.mp heq)
        rw [hput, if_neg hneq]
        exact hbelow q hq readable data
    next l hdir => exact ih ⟨l, hdir⟩ fun q hq _ => hbelow q hq
    next readable data hfile =>
      have hself := hbelow [] List.nil_prefix readable data
      rw [List.append_nil] at hself
      exact absurd hfile hself

theorem vacant_of_isDirAt {dir : List Comp} {c : Comp} (hdir : ∃ l, t.look dir = some (.dir l))
    (h : ¬ isDirAt t (dir ++ [c]) = true) : Vacant t dir c := by
  refine ⟨hdir, ?_⟩
  intro l hl
  exact h ((isDirAt_iff t _).mpr ⟨l, hl⟩)

theorem splitOn_last (name : Bytes)
    : ∃ parts part, name.splitOn slash = parts ++ [part] ∧ slash ∉ part
        ∧ (part = name ∨ ∃ pre, name = pre ++ slash :: part) := by
  by_cases hslash : slash ∈ name
  . have hrev : slash ∈ name.reverse := List.mem_reverse.mpr hslash
    rcases List.eq_append_cons_of_mem hrev with ⟨back, front, hname, hback⟩
    have hname' : name = front.reverse ++ slash :: back.reverse := by
      rw [← List.reverse_reverse name, hname]
      simp
    have hpart : slash ∉ back.reverse := by
      rw [List.mem_reverse]
      exact hback
    refine ⟨front.reverse.splitOn slash, back.reverse, ?_, hpart, .inr ⟨_, hname'⟩⟩
    rw [hname', List.splitOn_append_cons_self, List.splitOn_eq_singleton hpart]
  . exact ⟨[], name, List.splitOn_eq_singleton hslash, hslash, .inl rfl⟩

-- The last part of a valid name is a component, unless it is `.`.
theorem refTarget_isSome {name : Bytes} (hok : refNameOk name = true) (pid : List (Fin 10))
    : (refTarget pid name).isSome = true := by
  unfold refTarget
  split
  . rfl
  next hdot =>
    rw [Option.isSome_map]
    have hnul := refNameOk_no_nul hok
    rw [refNameOk_iff] at hok
    rcases hok with ⟨hne, _, _, hslash, hdots, _⟩
    rcases splitOn_last name with ⟨parts, part, hparts, hpart, hname⟩
    have hsuffix : part <:+ name := by
      rcases hname with rfl | ⟨pre, rfl⟩
      . exact List.suffix_refl _
      . exact ⟨pre ++ [slash], by simp⟩
    have hsome : Comp.of? part ≠ none := by
      unfold Comp.of?
      rw [dif_pos]
      . simp
      refine ⟨?_, hpart, ?_, ?_, ?_⟩
      . rintro rfl
        rcases hname with heq | ⟨pre, rfl⟩
        . exact hne heq.symm
        . exact hslash List.getLast?_concat
      . intro hmem
        exact hnul (hsuffix.mem hmem)
      . rintro rfl
        apply hdot
        unfold endsInDot
        rw [hparts, List.getLast?_concat]
        rfl
      . rintro rfl
        have hdotdot := (strstr_iff_isInfix name [dot, dot]).mpr hsuffix.isInfix
        rw [hdotdot] at hdots
        cases hdots
    rw [← Option.isSome_iff_ne_none, Option.isSome_iff_exists] at hsome
    rcases hsome with ⟨c, hc⟩
    unfold comps
    rw [hparts, List.filterMap_append]
    simp [hc]

theorem writeAtomic_true_iff {pid : List (Fin 10)} {dir : List Comp} {c : Comp} {data : Bytes}
    : (writeAtomic pid t dir c data io).1 = true ↔ (io ≠ .mkdirFails → io.unchecked = true)
        ∧ ¬ isDirAt t (dir ++ [c.tmp pid]) = true ∧ ¬ isDirAt t (dir ++ [c]) = true := by
  unfold writeAtomic
  dsimp only
  by_cases htmp : isDirAt t (dir ++ [c.tmp pid]) = true
  . simp [htmp]
  . by_cases htarget : isDirAt t (dir ++ [c]) = true
    . cases io <;> simp [htmp, htarget]
    . cases io <;> simp [htmp, htarget, WriteIo.unchecked]

-- A write returns 0 when it can and no call fails whose result is looked at.
theorem storeRefWrite_true_iff (hok : refNameOk r.name = true)
    : (storeRefWrite s r io).1 = true ↔ Writable s r.name ∧ io.unchecked = true := by
  have htarget := refTarget_isSome hok s.pid
  rw [Option.isSome_iff_exists] at htarget
  obtain ⟨g, htarget⟩ := htarget
  rcases refTarget_some htarget with ⟨hdot, _⟩ | ⟨hdot, c, hlast, _⟩
  . constructor
    . intro htrue
      unfold storeRefWrite at htrue
      rw [if_pos hdot] at htrue
      split at htrue <;> cases htrue
    . rintro ⟨hroom, _⟩
      rw [hroom.noDot] at hdot
      cases hdot
  . have hpath := dropLast_append_getLast? hlast
    constructor
    . intro htrue
      unfold storeRefWrite at htrue
      split at htrue
      . cases htrue
      next hguard =>
        rw [not_or, not_or, not_not, not_not, isDirAt_iff] at hguard
        rcases hguard with ⟨_, hmkdir, hroot⟩
        rw [if_neg (by simp [hdot]), hlast] at htrue
        dsimp only at htrue
        cases hmk : mkdirs s.refs [] (comps r.name).dropLast with
        | none =>
          rw [hmk] at htrue
          cases htrue
        | some t =>
          rw [hmk] at htrue
          have hdir := (mkdirs_spec hroot hmk).dir
          rw [List.nil_append] at hdir
          have hwrite := writeAtomic_true_iff.mp htrue
          have htarget' : refTarget s.pid r.name
              = some ⟨(comps r.name).dropLast, c.tmp s.pid, some c⟩ := by
            unfold refTarget
            rw [if_neg (by simp [hdot]), hlast]
            rfl
          refine ⟨?_, hwrite.1 hmkdir⟩
          exact writable_of_vacant htarget' (execAll_mkdirSteps hroot hmk) rfl
            (vacant_of_isDirAt hdir hwrite.2.1) (vacant_of_isDirAt hdir hwrite.2.2)
    . rintro ⟨hroom, hio⟩
      have hclear : ∀ q, q <+: (comps r.name).dropLast → ¬ IsFile s q := by
        intro q hq
        apply hroom.above q (hq.trans (List.dropLast_prefix _))
        rintro rfl
        have hle := hq.length_le
        rw [List.length_dropLast] at hle
        have hpos := List.length_pos_of_mem (List.mem_of_getLast? hlast)
        omega
      have hroot := look_root_of_not_file (hclear [] List.nil_prefix)
      obtain ⟨t, hmk⟩ := mkdirs_of_no_file (comps r.name).dropLast hroot
        (fun q hq _ readable data hfile => hclear q hq ⟨readable, data, hfile⟩)
      have hspec := mkdirs_spec hroot hmk
      rw [List.nil_append] at hspec
      have hfree : ∀ c', ¬ isDirAt s.refs ((comps r.name).dropLast ++ [c']) = true →
          ¬ isDirAt t ((comps r.name).dropLast ++ [c']) = true := by
        intro c' hold hnew
        rw [isDirAt_iff] at hold hnew
        obtain ⟨l, hnew⟩ := hnew
        by_cases hnone : s.refs.look ((comps r.name).dropLast ++ [c']) = none
        . rcases hspec.new _ hnone with hstill | ⟨_, hprefix⟩
          . rw [hstill] at hnew
            cases hnew
          . have hle := hprefix.length_le
            simp at hle
        . rw [hspec.old _ hnone] at hnew
          exact hold ⟨l, hnew⟩
      have htarget := hfree c (by rw [hpath]; exact hroom.target)
      have htmp := hfree (c.tmp s.pid) (by rw [← tmpPath_of_getLast? hlast]; exact hroom.tmp)
      have hmkdir : io ≠ .mkdirFails := by
        rintro rfl
        cases hio
      unfold storeRefWrite
      rw [if_neg (by simp [hok, hmkdir, (isDirAt_iff _ _).mpr hroot]), if_neg (by simp [hdot]), hlast]
      dsimp only
      rw [hmk]
      exact writeAtomic_true_iff.mpr ⟨fun _ => hio, htmp, htarget⟩

-- However a write ends, what it leaves is one of the trees it can be cut off at.
theorem cutWrite_storeRefWrite (hok : refNameOk r.name = true) (hroot : isDirAt s.refs [] = true)
    (io : WriteIo) : CutWrite s r io (storeRefWrite s r io).2.refs := by
  have htarget := refTarget_isSome hok s.pid
  rw [Option.isSome_iff_exists] at htarget
  rcases htarget with ⟨g, htarget⟩
  have hdata : [io.onDisk (refEncode r)].flatten = io.onDisk (refEncode r) := List.flatten_singleton
  have hidle : CutWrite s r io s.refs := .cut htarget hdata (List.nil_prefix) rfl
  have htemp : g.tempSteps [io.onDisk (refEncode r)] <+: g.steps io [io.onDisk (refEncode r)] := by
    unfold Target.steps
    cases g.last with
    | none => exact List.prefix_refl _
    | some c =>
      dsimp only
      split
      . exact List.prefix_append _ _
      . exact List.prefix_refl _
  have hmkdirs : mkdirSteps [] g.dir <+: g.tempSteps [io.onDisk (refEncode r)] :=
    List.prefix_append _ _
  rw [isDirAt_iff] at hroot
  unfold storeRefWrite
  split
  . exact hidle
  next hguard =>
    rcases refTarget_some htarget with ⟨hdot, rfl⟩ | ⟨hdot, c, hlast, rfl⟩
    . rw [if_pos hdot]
      dsimp only
      cases hmk : mkdirs s.refs [] (comps r.name) with
      | none => exact hidle
      | some t =>
        exact .cut htarget hdata (hmkdirs.trans htemp) (execAll_mkdirSteps hroot hmk)
    . rw [if_neg (by simp [hdot]), hlast]
      dsimp only
      cases hmk : mkdirs s.refs [] (comps r.name).dropLast with
      | none => exact hidle
      | some t =>
        dsimp only
        have hrun := execAll_mkdirSteps hroot hmk
        have hdir := (mkdirs_spec hroot hmk).dir
        rw [List.nil_append] at hdir
        unfold writeAtomic
        dsimp only
        split
        . exact .cut htarget hdata (hmkdirs.trans htemp) hrun
        next hopen =>
          rw [not_or] at hopen
          have hroom := vacant_of_isDirAt hdir hopen.2
          have hwritten : execAll s.refs (Target.tempSteps ⟨(comps r.name).dropLast, c.tmp s.pid, some c⟩
              [io.onDisk (refEncode r)])
              = some (t.put ((comps r.name).dropLast ++ [c.tmp s.pid])
                (.file true (io.onDisk (refEncode r)))) := by
            unfold Target.tempSteps
            rw [execAll_append, hrun, Option.bind_some, execAll_tempSteps hroom, hdata]
          have hremoved : CutWrite s r io (t.erase ((comps r.name).dropLast ++ [c.tmp s.pid])) := by
            rw [← Node.erase_put _ t (.file true (io.onDisk (refEncode r)))]
            apply CutWrite.removed htarget hdata (List.prefix_refl _) _ hwritten
            unfold Target.tempSteps FileTree.tempSteps
            exact List.mem_append_right _ List.mem_cons_self
          split
          . exact hremoved
          next hwrite =>
            split
            . exact hremoved
            next hrename =>
              rw [not_or] at hrename
              have hio : io.unchecked = true := by
                cases io <;> simp_all [WriteIo.unchecked]
              apply CutWrite.cut htarget hdata (List.prefix_refl _)
              unfold Target.steps
              dsimp only
              rw [if_pos hio, execAll_append, hwritten, Option.bind_some, execAll_singleton,
                exec_rename_iff hroom (tmp_ne s.pid c).symm]
              exact ⟨vacant_of_isDirAt hdir hrename.2, rfl⟩

end Whole

section Objects

def objTmp (pid : List (Fin 10)) (h : Hash) : Bytes :=
  hashHex h ++ tmpSuffix pid

def setObj (name data : Bytes) (objects : List (Bytes × ObjFile)) : List (Bytes × ObjFile) :=
  (name, ⟨true, some data, true⟩) :: eraseObj name objects

-- The store after a `harp_store_put` that went no further: of an object that is not there the first
-- `n` bytes have reached the temporary, which is removed on a failure and renamed at the end.
inductive CutPut (s : Store) (enc : Bytes) (io : WriteIo) : Store → Prop where
  | start : CutPut s enc io s
  | written (n : Nat) (h : storeHave s (hashCompute enc) = false)
      : CutPut s enc io
          { s with objects := setObj (objTmp s.pid (hashCompute enc)) (enc.take n) s.objects }
  | removed (h : storeHave s (hashCompute enc) = false)
      : CutPut s enc io { s with objects := eraseObj (objTmp s.pid (hashCompute enc)) s.objects }
  | renamed (h : storeHave s (hashCompute enc) = false)
      : CutPut s enc io
          { s with
            objects := setObj (hashHex (hashCompute enc)) (io.onDisk enc)
              (eraseObj (objTmp s.pid (hashCompute enc)) s.objects) }

def visitedObjs (s : Store) : List Hash :=
  storeObjForeach s (fun h hs => (true, hs ++ [h])) []

structure PutAtomic (s : Store) (enc : Bytes) (io : WriteIo) : Prop where
  oldOrNew : ∀ s', CutPut s enc io s' → storeGet s' (hashCompute enc) = storeGet s (hashCompute enc)
    ∨ storeGet s' (hashCompute enc) = some enc
  others : ∀ s', CutPut s enc io s' → ∀ h, h ≠ hashCompute enc → storeGet s' h = storeGet s h
  refs : ∀ s', CutPut s enc io s' → ∀ name, storeRefRead s' name = storeRefRead s name
  listed : ∀ s', CutPut s enc io s' → ∀ h ∈ visitedObjs s', h ∈ visitedObjs s
    ∨ h = hashCompute enc ∧ storeGet s' h = some enc

theorem visitedObjs_eq (s : Store) : visitedObjs s = objNames s := by
  have hgo : ∀ hs out : List Hash,
      storeObjForeach.go (fun h hs => (true, hs ++ [h])) hs out = out ++ hs := by
    intro hs
    induction hs with
    | nil => exact fun out => (List.append_nil out).symm
    | cons h hs ih =>
      intro out
      unfold storeObjForeach.go
      dsimp only
      rw [ih, List.append_assoc]
      rfl
  unfold visitedObjs storeObjForeach
  rw [hgo, List.nil_append]

theorem objName_objTmp (pid : List (Fin 10)) (h : Hash) : objName (objTmp pid h) = none := by
  have hstr : strstr (objTmp pid h) (ascii ".tmp.") = true := by
    rw [strstr_iff_isInfix]
    exact ⟨hashHex h, pid.map (fun d => UInt8.ofNat (48 + d.val)), by simp [objTmp, tmpSuffix]⟩
  unfold objName
  rw [hstr]
  simp

theorem objTmp_ne (pid : List (Fin 10)) (h h' : Hash) : hashHex h' ≠ objTmp pid h := by
  intro heq
  have hname := objName_hashHex h'
  rw [heq, objName_objTmp] at hname
  cases hname

variable {s s' : Store} {enc : Bytes} {io : WriteIo}

theorem lookupObj_setObj (name name' data : Bytes) (objects : List (Bytes × ObjFile))
    : lookupObj name' (setObj name data objects)
        = if name' = name then some ⟨true, some data, true⟩ else lookupObj name' objects := by
  unfold setObj
  rw [lookupObj]
  by_cases h : name' = name
  . rw [if_pos h.symm, if_pos h]
  . rw [if_neg (Ne.symm h), if_neg h, lookupObj_eraseObj, if_neg h]

theorem objName_mem_setObj {name data : Bytes} {objects : List (Bytes × ObjFile)} {h : Hash}
    (hmem : h ∈ (setObj name data objects).filterMap (fun e => objName e.1))
    : objName name = some h ∨ h ∈ objects.filterMap (fun e => objName e.1) := by
  unfold setObj eraseObj at hmem
  rw [List.mem_filterMap] at hmem ⊢
  rcases hmem with ⟨e, he, hname⟩
  rw [List.mem_cons] at he
  rcases he with rfl | he
  . exact .inl hname
  . exact .inr ⟨e, List.mem_of_mem_filter he, hname⟩

theorem mem_of_mem_eraseObj {name : Bytes} {objects : List (Bytes × ObjFile)} {h : Hash}
    (hmem : h ∈ (eraseObj name objects).filterMap (fun e => objName e.1))
    : h ∈ objects.filterMap (fun e => objName e.1) := by
  rw [List.mem_filterMap] at hmem ⊢
  rcases hmem with ⟨e, he, hname⟩
  exact ⟨e, List.mem_of_mem_filter he, hname⟩

-- What a cut-off put leaves at the name of an object.
theorem CutPut.objFile (h : CutPut s enc io s') (x : Hash)
    : objFile s' x = Harp.objFile s x
        ∨ x = hashCompute enc ∧ Harp.objFile s' x = some ⟨true, some (io.onDisk enc), true⟩ := by
  have htmp := objTmp_ne s.pid (hashCompute enc) x
  unfold Harp.objFile
  cases h with
  | start => exact .inl rfl
  | written n _ =>
    rw [lookupObj_setObj, if_neg htmp]
    exact .inl rfl
  | removed _ =>
    rw [lookupObj_eraseObj, if_neg htmp]
    exact .inl rfl
  | renamed _ =>
    rw [lookupObj_setObj]
    by_cases hx : hashHex x = hashHex (hashCompute enc)
    . rw [if_pos hx]
      exact .inr ⟨hashHex_inj hx, rfl⟩
    . rw [if_neg hx, lookupObj_eraseObj, if_neg htmp]
      exact .inl rfl

theorem CutPut.refs (h : CutPut s enc io s') : s'.refs = s.refs := by
  cases h <;> rfl

-- An object is not half there either, unless the flush has lost some of it.
theorem putAtomic (s : Store) {enc : Bytes} {io : WriteIo} (hkeeps : io.keeps enc = true)
    : PutAtomic s enc io := by
  constructor
  . intro s' h
    unfold storeGet
    rcases h.objFile (hashCompute enc) with hsame | ⟨_, hnew⟩
    . rw [hsame]
      exact .inl rfl
    . rw [hnew, WriteIo.onDisk_eq hkeeps]
      exact .inr rfl
  . intro s' h x hx
    unfold storeGet
    rcases h.objFile x with hsame | ⟨heq, _⟩
    . rw [hsame]
    . exact absurd heq hx
  . intro s' h name
    unfold storeRefRead
    rw [h.refs]
  . intro s' h x hx
    rw [visitedObjs_eq] at hx ⊢
    unfold objNames at hx ⊢
    cases h with
    | start => exact .inl hx
    | written n _ =>
      rcases objName_mem_setObj hx with hname | hmem
      . rw [objName_objTmp] at hname
        cases hname
      . exact .inl hmem
    | removed _ => exact .inl (mem_of_mem_eraseObj hx)
    | renamed hhave =>
      rcases objName_mem_setObj hx with hname | hmem
      . rw [objName_hashHex] at hname
        cases hname
        refine .inr ⟨rfl, ?_⟩
        unfold storeGet Harp.objFile
        rw [lookupObj_setObj, if_pos rfl, WriteIo.onDisk_eq hkeeps]
        rfl
      . exact .inl (mem_of_mem_eraseObj hmem)

end Objects

section Refs

def visitedRefs (s : Store) : List Ref :=
  (storeRefList s (fun r rs => rs ++ [r]) []).2

-- A write of `r`, whole and cut off.
structure RefAtomic (s : Store) (r : Ref) (io : WriteIo) : Prop where
  lossless : (storeRefWrite s r io).1 = true →
    storeRefRead (storeRefWrite s r io).2 r.name = some r
  oldOrNew : ∀ t, CutWrite s r io t →
    storeRefRead { s with refs := t } r.name = storeRefRead s r.name
      ∨ storeRefRead { s with refs := t } r.name = some r
  others : ∀ t, CutWrite s r io t → ∀ name, IsFile s (comps name) → comps name ≠ comps r.name →
    storeRefRead { s with refs := t } name = storeRefRead s name
  objects : ∀ t, CutWrite s r io t → ∀ h, storeGet { s with refs := t } h = storeGet s h
  skipped : ∀ g, refTarget s.pid r.name = some g → ∀ {σ : Type} (view : σ → Store) (cb : Ref → σ → σ)
    (sub : Bytes → σ → Bool × σ) (rel : Bytes) (ud : σ), walkOne view cb sub rel ud g.tmp = ud
  listed : ∀ t, CutWrite s r io t → ∀ x ∈ visitedRefs { s with refs := t }, x ∈ visitedRefs s
    ∨ x = r ∧ storeRefRead { s with refs := t } r.name = some r
  unlisted : ∀ t, CutWrite s r io t → visitedObjs { s with refs := t } = visitedObjs s

/--
All that was encoded is on disk and can be decoded; the temporary has the name of no ref; and a name
that ends in `/.` is one of a directory, or none can be made for it.
-/
structure Persists (s : Store) (r : Ref) (io : WriteIo) : Prop where
  whole : Writable s r.name → io.unchecked = true →
    io.keeps (refEncode r) = true ∧ r.algOk = true
  spared : ∀ g, refTarget s.pid r.name = some g → ∀ name, refNameOk name = true →
    endsInDot name = false → comps name = g.tmpPath → ¬ IsFile s (comps name)
  dotted : endsInDot r.name = true → (∀ q, q <+: comps r.name → ¬ IsFile s q) →
    isDirAt s.refs (comps r.name) = true

theorem visitedRefs_eq (s : Store) : visitedRefs s = listedRefs s := by
  have hfold : ∀ rs out : List Ref, rs.foldl (fun ud r => ud ++ [r]) out = out ++ rs := by
    intro rs
    induction rs with
    | nil => exact fun out => (List.append_nil out).symm
    | cons r rs ih =>
      intro out
      rw [List.foldl_cons, ih, List.append_assoc]
      rfl
  unfold visitedRefs
  rw [storeRefList_eq, hfold, List.nil_append]

variable {s : Store} {r : Ref} {io : WriteIo} {g : Target} {t : RefTree}

theorem refTarget_tmp_hidden (h : refTarget s.pid r.name = some g) : g.tmp.visible = false := by
  rcases refTarget_some h with ⟨_, rfl⟩ | ⟨_, c, _, rfl⟩
  . simp [Comp.visible, dotTmp]
  . exact tmp_not_visible s.pid c

theorem walkOne_hidden {c : Comp} (h : c.visible = false) (view : σ → Store) (cb : Ref → σ → σ)
    (sub : Bytes → σ → Bool × σ) (rel : Bytes) (ud : σ) : walkOne view cb sub rel ud c = ud := by
  unfold walkOne
  dsimp only
  by_cases hdot : c.b.head? = some dot
  . rw [if_pos hdot]
  . have htmp : strstr c.b (ascii ".tmp.") = true := by simpa [Comp.visible, hdot] using h
    rw [if_neg hdot, if_pos htmp]

theorem storeRefRead_congr {s s' : Store} {name : Bytes}
    (h : s'.refs.look (comps name) = s.refs.look (comps name))
    : storeRefRead s' name = storeRefRead s name := by
  unfold storeRefRead
  rw [h]

-- The file `write_atomic` renames to, read under any name that resolves to it.
theorem storeRefRead_encoded {s : Store} {name : Bytes} (hname : refNameOk name = true)
    (hdot : endsInDot name = false) (hok : refNameOk r.name = true)
    (h : s.refs.look (comps name) = some (.file true (io.onDisk (refEncode r))))
    : storeRefRead s name = if r.algOk ∧ io.keeps (refEncode r) then some r else none := by
  have hlen := (io.onDisk_prefix (refEncode r)).length_le
  have hcap := length_refEncode_le hok
  unfold storeRefRead
  rw [if_pos hname, h]
  dsimp only
  rw [if_neg (by simp [hdot]), List.take_of_length_le (by omega)]
  exact refDecode_onDisk hok io

theorem storeRefRead_whole {s : Store} {name : Bytes} (hname : refNameOk name = true)
    (hdot : endsInDot name = false) (hok : refNameOk r.name = true) (halg : r.algOk = true)
    (h : s.refs.look (comps name) = some (.file true (refEncode r)))
    : storeRefRead s name = some r := by
  have hdisk : s.refs.look (comps name) = some (.file true (WriteIo.ok.onDisk (refEncode r))) := h
  rw [storeRefRead_encoded hname hdot hok hdisk, if_pos ⟨halg, WriteIo.ok_keeps _⟩]

theorem refTarget_path (h : refTarget s.pid r.name = some g) {c : Comp} (hc : g.last = some c)
    : g.dir ++ [c] = comps r.name ∧ endsInDot r.name = false := by
  rcases refTarget_some h with ⟨_, rfl⟩ | ⟨hdot, c', hlast, rfl⟩
  . cases hc
  . cases hc
    exact ⟨dropLast_append_getLast? hlast, hdot⟩

theorem comps_ne_tmpPath (h : refTarget s.pid r.name = some g) (hdot : endsInDot r.name = false)
    : comps r.name ≠ g.tmpPath ∧ ¬ comps r.name <+: g.dir := by
  rcases refTarget_some h with ⟨hdot', _⟩ | ⟨_, c, hlast, rfl⟩
  . rw [hdot] at hdot'
    cases hdot'
  . have hpath := dropLast_append_getLast? hlast
    unfold Target.tmpPath
    constructor
    . intro heq
      rw [← hpath] at heq
      simp only [List.dropLast_concat, List.append_cancel_left_eq, List.singleton_inj] at heq
      exact tmp_ne s.pid c heq.symm
    . intro hprefix
      have hle := hprefix.length_le
      rw [← hpath] at hle
      simp at hle

theorem refAtomic_others (hcut : CutWrite s r io t) {name : Bytes} (hfile : IsFile s (comps name))
    (hne : comps name ≠ comps r.name)
    (htmp : ∀ g, refTarget s.pid r.name = some g → comps name ≠ g.tmpPath)
    : storeRefRead { s with refs := t } name = storeRefRead s name := by
  rcases hcut.shows with ⟨g, htarget, hshows⟩
  apply storeRefRead_congr
  rcases hfile with ⟨readable, data, hfile⟩
  rcases hshows (comps name) (htmp g htarget) with hsame | ⟨hnone, _⟩ | ⟨_, _, c, hc, hq, _⟩
  . exact hsame
  . rw [hfile] at hnone
    cases hnone
  . rw [(refTarget_path htarget hc).1] at hq
    exact absurd hq hne

-- A name that resolves to the file reads the old ref or the new one.
theorem cutWrite_read (hok : refNameOk r.name = true)
    (hwhole : Writable s r.name → io.unchecked = true →
      io.keeps (refEncode r) = true ∧ r.algOk = true)
    (hdot : endsInDot r.name = false) {name : Bytes} (hname : refNameOk name = true)
    (hdot' : endsInDot name = false) (hpath : comps name = comps r.name) (hcut : CutWrite s r io t)
    : storeRefRead { s with refs := t } name = storeRefRead s name
        ∨ storeRefRead { s with refs := t } name = some r := by
  rcases hcut.shows with ⟨g, htarget, hshows⟩
  have hne := comps_ne_tmpPath htarget hdot
  rw [← hpath] at hne
  rcases hshows (comps name) hne.1 with hsame | ⟨_, _, hprefix⟩ | ⟨hio, hroom, c, _, _, hnew⟩
  . exact .inl (storeRefRead_congr hsame)
  . exact absurd hprefix hne.2
  . apply Or.inr
    have hwhole := hwhole hroom hio
    rw [storeRefRead_encoded hname hdot' hok hnew, if_pos ⟨hwhole.2, hwhole.1⟩]

-- A visible path after the cut is the target, or was visited before.
theorem refAtomic_listed (hok : refNameOk r.name = true) (hcut : CutWrite s r io t) {x : Ref}
    (hx : x ∈ visitedRefs { s with refs := t })
    : x ∈ visitedRefs s ∨ x = r ∧ storeRefRead { s with refs := t } r.name = some r := by
  rcases hcut.shows with ⟨g, htarget, hshows⟩
  rw [visitedRefs_eq, mem_listedRefs] at hx ⊢
  rcases hx with ⟨p, hvis, hlisted, ⟨readable, data, hfile⟩, hread⟩
  have hhidden := refTarget_tmp_hidden htarget
  have hfree : ∀ q, q <+: p → q ≠ g.tmpPath := by
    rintro q hprefix rfl
    have hmem : g.tmp ∈ p := hprefix.mem (by simp [Target.tmpPath])
    rw [hvis.2.1 g.tmp hmem] at hhidden
    cases hhidden
  rcases hshows p (hfree p (List.prefix_refl p)) with hsame | ⟨_, hdir, _⟩ | ⟨_, _, c, hc, hq, hnew⟩
  . apply Or.inl
    dsimp only at hfile
    rw [hsame] at hfile
    refine ⟨p, hvis, ?_, ⟨readable, data, hfile⟩, ?_⟩
    . intro q hprefix hne
      have hafter := hlisted q hprefix hne
      dsimp only at hafter
      have hbefore : ∃ l, s.refs.look q = some (.dir l) := by
        rcases hprefix with ⟨q', rfl⟩
        apply Node.look_dir_of_append (q := q')
        . rintro rfl
          exact hne (List.append_nil q).symm
        . rw [hfile]
          simp
      rcases hbefore with ⟨l, hbefore⟩
      rcases hshows q (hfree q hprefix) with hq | ⟨hnone, _⟩ | ⟨_, _, _, _, _, hnew⟩
      . rw [← hq]
        exact hafter
      . rw [hbefore] at hnone
        cases hnone
      . rw [hafter] at hnew
        cases hnew
    . rw [← hread]
      apply Eq.symm
      apply storeRefRead_congr
      rw [comps_joinPath]
      exact hsame
  . dsimp only at hfile
    rw [hdir] at hfile
    cases hfile
  . rcases refTarget_path htarget hc with ⟨hpath, hdot⟩
    rw [hpath] at hq
    rw [hq] at hnew
    have hcomps : comps (joinPath p) = comps r.name := by rw [comps_joinPath, hq]
    have hjoin : storeRefRead { s with refs := t } (joinPath p)
        = if r.algOk ∧ io.keeps (refEncode r) then some r else none := by
      apply storeRefRead_encoded hvis.2.2 (getLast?_splitOn_joinPath hvis.1) hok
      rw [hcomps]
      exact hnew
    rw [hjoin] at hread
    split at hread
    next hwhole =>
      cases hread
      refine .inr ⟨rfl, ?_⟩
      rw [storeRefRead_encoded hok hdot hok hnew, if_pos hwhole]
    next => cases hread

-- What a write that returned 0 left behind.
theorem storeRefRead_storeRefWrite (h : (storeRefWrite s r io).1 = true)
    : storeRefRead (storeRefWrite s r io).2 r.name
        = if r.algOk ∧ io.keeps (refEncode r) then some r else none := by
  rcases storeRefWrite_cases s r io with ⟨_, hok, hdot, hfiles⟩ | ⟨hfalse, _⟩
  . have hfile := hfiles (comps r.name)
    rw [if_pos rfl, fileAt_eq_some] at hfile
    exact storeRefRead_encoded hok hdot hok hfile
  . rw [h] at hfalse
    cases hfalse

theorem refAtomic_lossless_iff (hok : refNameOk r.name = true)
    : ((storeRefWrite s r io).1 = true → storeRefRead (storeRefWrite s r io).2 r.name = some r)
        ↔ (Writable s r.name → io.unchecked = true →
          io.keeps (refEncode r) = true ∧ r.algOk = true) := by
  constructor
  . intro h hroom hio
    have htrue := (storeRefWrite_true_iff hok).mpr ⟨hroom, hio⟩
    have hread := h htrue
    rw [storeRefRead_storeRefWrite htrue] at hread
    split at hread
    next hwhole => exact ⟨hwhole.2, hwhole.1⟩
    next => cases hread
  . intro h htrue
    have hroom := (storeRefWrite_true_iff hok).mp htrue
    have hwhole := h hroom.1 hroom.2
    rw [storeRefRead_storeRefWrite htrue, if_pos ⟨hwhole.2, hwhole.1⟩]

-- The directory that stands for a name which ends in `/.` can be made.
theorem cutWrite_dotted (hdot : endsInDot r.name = true)
    (hclear : ∀ q, q <+: comps r.name → ¬ IsFile s q)
    : ∃ t, CutWrite s r io t ∧ isDirAt t (comps r.name) = true := by
  have hroot : ∃ l, s.refs.look [] = some (.dir l) :=
    look_root_of_not_file (hclear [] List.nil_prefix)
  obtain ⟨t, hmk⟩ := mkdirs_of_no_file (comps r.name) hroot
    (fun q hq _ readable data hfile => hclear q hq ⟨readable, data, hfile⟩)
  have htarget : refTarget s.pid r.name = some ⟨comps r.name, dotTmp s.pid, none⟩ := by
    unfold refTarget
    rw [if_pos hdot]
  refine ⟨t, .cut htarget List.flatten_singleton ?_ (execAll_mkdirSteps hroot hmk), ?_⟩
  . exact List.prefix_append _ _
  . rw [isDirAt_iff]
    exact (mkdirs_spec hroot hmk).dir

theorem refAtomic_dotted (hok : refNameOk r.name = true) (hdot : endsInDot r.name = true)
    (h : ∀ t, CutWrite s r io t →
      storeRefRead { s with refs := t } r.name = storeRefRead s r.name
        ∨ storeRefRead { s with refs := t } r.name = some r)
    (hclear : ∀ q, q <+: comps r.name → ¬ IsFile s q) : isDirAt s.refs (comps r.name) = true := by
  obtain ⟨t, hcut, hdir⟩ := cutWrite_dotted hdot hclear
  rw [isDirAt_iff] at hdir ⊢
  rcases hdir with ⟨l, hdir⟩
  have hnone : storeRefRead { s with refs := t } r.name = none := by
    unfold storeRefRead
    rw [if_pos hok]
    dsimp only
    rw [hdir]
  have hread := h t hcut
  rw [hnone] at hread
  rcases hread with hread | hread
  . unfold storeRefRead at hread
    rw [if_pos hok] at hread
    split at hread
    . cases hread
    . rw [if_pos (.inl hdot)] at hread
      cases hread
    next l' hlook => exact ⟨l', hlook⟩
  . cases hread

-- Whatever is made of the directories, the name reads as before.
theorem refAtomic_of_dotted (hdot : endsInDot r.name = true)
    (hdotted : (∀ q, q <+: comps r.name → ¬ IsFile s q) → isDirAt s.refs (comps r.name) = true)
    (hcut : CutWrite s r io t)
    : storeRefRead { s with refs := t } r.name = storeRefRead s r.name := by
  rcases hcut.shows with ⟨g, htarget, hshows⟩
  rcases refTarget_some htarget with ⟨_, rfl⟩ | ⟨hdot', _⟩
  . have hoff : ∀ q, q <+: comps r.name →
        q ≠ Target.tmpPath ⟨comps r.name, dotTmp s.pid, none⟩ := by
      rintro q hq rfl
      have hle := hq.length_le
      simp [Target.tmpPath] at hle
    have hself := hshows _ (hoff _ (List.prefix_refl _))
    rcases hself with hsame | ⟨hnone, hnew, _⟩ | ⟨_, _, c, hc, _⟩
    . exact storeRefRead_congr hsame
    . have hblocked : ¬ ∀ q, q <+: comps r.name → ¬ IsFile s q := by
        intro hclear
        have hdir := hdotted hclear
        rw [isDirAt_iff, hnone] at hdir
        rcases hdir with ⟨_, hdir⟩
        cases hdir
      simp only [not_forall, not_not] at hblocked
      obtain ⟨q, hq, readable, data, hfile⟩ := hblocked
      -- nothing is made below a file
      have hstill : t.look q = some (.file readable data) := by
        rcases hshows q (hoff q hq) with hsame | ⟨hnone', _⟩ | ⟨_, _, c, hc, _⟩
        . exact hsame.trans hfile
        . rw [hfile] at hnone'
          cases hnone'
        . cases hc
      rcases Node.look_dir_of_prefix hq hnew with ⟨l, hdir⟩
      rw [hstill] at hdir
      cases hdir
    . cases hc
  . rw [hdot] at hdot'
    cases hdot'

-- Under a name that is not accepted, or ends in `/.`, no file is read.
theorem refAtomic_unread (hcut : CutWrite s r io t) {name : Bytes} (hfile : IsFile s (comps name))
    (hne : comps name ≠ comps r.name) (hname : ¬ (refNameOk name = true ∧ endsInDot name = false))
    : storeRefRead { s with refs := t } name = storeRefRead s name := by
  by_cases hok : refNameOk name = true
  . have hdot : endsInDot name = true := by
      cases hdot : endsInDot name with
      | true => rfl
      | false => exact absurd ⟨hok, hdot⟩ hname
    have hunborn : ∀ s' : Store, (∀ l, s'.refs.look (comps name) ≠ some (.dir l)) →
        storeRefRead s' name = some (Ref.unborn name) := by
      intro s' hfree
      unfold storeRefRead
      rw [if_pos hok]
      split
      . rfl
      . rw [if_pos (.inl hdot)]
      next l hdir => exact absurd hdir (hfree l)
    have hfree : ∀ l, t.look (comps name) ≠ some (.dir l) := by
      intro l hdir
      rcases hcut.shows with ⟨g, htarget, hshows⟩
      by_cases htmp : comps name = g.tmpPath
      . rw [htmp] at hfile hdir
        exact hcut.look_tmp htarget hfile l hdir
      . obtain ⟨readable, data, hfile⟩ := hfile
        rcases hshows (comps name) htmp with hsame | ⟨hnone, _⟩ | ⟨_, _, c, hc, hq, _⟩
        . rw [hdir, hfile] at hsame
          cases hsame
        . rw [hfile] at hnone
          cases hnone
        . rw [(refTarget_path htarget hc).1] at hq
          exact hne hq
    obtain ⟨readable, data, hfile⟩ := hfile
    rw [hunborn _ hfree, hunborn s fun l hdir => ?_]
    rw [hfile] at hdir
    cases hdir
  . unfold storeRefRead
    rw [if_neg hok, if_neg hok]

-- A ref in the place of the temporary is emptied and removed.
-- Where a file has the name of the temporary, a write can be cut off with that file empty, and with
-- it removed.
theorem cutWrite_opened (io : WriteIo) (htarget : refTarget s.pid r.name = some g) (hfile : IsFile s g.tmpPath)
    : ∃ t, CutWrite s r io t ∧ t.look g.tmpPath = some (.file true [])
        ∧ CutWrite s r io (t.erase g.tmpPath) ∧ (t.erase g.tmpPath).look g.tmpPath = none := by
  obtain ⟨readable, data, hlook⟩ := hfile
  have habove : ∀ q, q <+: g.dir → ∃ l, s.refs.look q = some (.dir l) := by
    rintro q ⟨rest, hrest⟩
    apply Node.look_dir_of_append (q := rest ++ [g.tmp])
    . simp
    . rw [← List.append_assoc, hrest]
      unfold Target.tmpPath at hlook
      rw [hlook]
      simp
  have hroot := habove [] List.nil_prefix
  obtain ⟨t, hmk⟩ := mkdirs_of_no_file g.dir hroot (by
    intro q hq _ readable data hfile
    obtain ⟨l, hdir⟩ := habove q hq
    rw [List.nil_append, hdir] at hfile
    cases hfile)
  have hspec := mkdirs_spec hroot hmk
  rw [List.nil_append] at hspec
  have hroom : Vacant t g.dir g.tmp := by
    refine ⟨hspec.dir, fun l hl => ?_⟩
    have hold := hspec.old g.tmpPath (by rw [hlook]; simp)
    unfold Target.tmpPath at hold hlook
    rw [hl, hlook] at hold
    cases hold
  have hopened : execAll s.refs (mkdirSteps [] g.dir ++ [g.open])
      = some (t.put g.tmpPath (.file true [])) := by
    rw [execAll_append, execAll_mkdirSteps hroot hmk, Option.bind_some, execAll_singleton]
    exact exec_create hroom
  have hsteps : mkdirSteps [] g.dir ++ [g.open] <+: g.tempSteps [io.onDisk (refEncode r)] := by
    unfold Target.tempSteps FileTree.tempSteps
    rw [List.prefix_append_right_inj]
    exact ⟨_, rfl⟩
  have hall : g.tempSteps [io.onDisk (refEncode r)] <+: g.steps io [io.onDisk (refEncode r)] := by
    unfold Target.steps
    split
    . split
      . exact List.prefix_append _ _
      . exact List.prefix_refl _
    . exact List.prefix_refl _
  refine ⟨t.put g.tmpPath (.file true []), ?_, ?_, ?_, ?_⟩
  . exact .cut htarget List.flatten_singleton (hsteps.trans hall) hopened
  . unfold Target.tmpPath
    rw [hroom.look_put, if_pos rfl]
  . exact .removed htarget List.flatten_singleton hsteps (by simp) hopened
  . rw [Node.erase_put]
    unfold Target.tmpPath
    rw [hroom.look_erase, if_pos rfl]

theorem refAtomic_spared
    (h : ∀ t, CutWrite s r io t → ∀ name, IsFile s (comps name) → comps name ≠ comps r.name →
      storeRefRead { s with refs := t } name = storeRefRead s name)
    (htarget : refTarget s.pid r.name = some g) {name : Bytes} (hname : refNameOk name = true)
    (hdot : endsInDot name = false) (htmp : comps name = g.tmpPath) : ¬ IsFile s (comps name) := by
  intro hfile
  have hne : comps name ≠ comps r.name := by
    rw [htmp]
    rcases refTarget_some htarget with ⟨_, rfl⟩ | ⟨hdot', _⟩
    . intro heq
      have hlen := congrArg List.length heq
      simp [Target.tmpPath] at hlen
    . exact (comps_ne_tmpPath htarget hdot').1.symm
  obtain ⟨t, hcut, hempty, hcut', hgone⟩ := cutWrite_opened io htarget (htmp ▸ hfile)
  rw [← htmp] at hempty hgone
  -- the emptied file cannot be decoded, the removed one is an unborn ref
  have hread : storeRefRead { s with refs := t } name = none := by
    unfold storeRefRead
    rw [if_pos hname]
    dsimp only
    rw [hempty]
    dsimp only
    rw [hdot, if_neg (by simp)]
    rfl
  have hread' : storeRefRead { s with refs := t.erase g.tmpPath } name
      = some (Ref.unborn name) := by
    unfold storeRefRead
    rw [if_pos hname]
    dsimp only
    rw [htmp] at hgone ⊢
    rw [hgone]
  have hsame := (h _ hcut name hfile hne).trans (h _ hcut' name hfile hne).symm
  rw [hread, hread'] at hsame
  cases hsame

theorem refAtomic_iff (s : Store) (r : Ref) (io : WriteIo) (hok : refNameOk r.name = true)
    : RefAtomic s r io ↔ Persists s r io := by
  constructor
  . intro h
    refine ⟨(refAtomic_lossless_iff hok).mp h.lossless, ?_, ?_⟩
    . exact fun g htarget name hname hdot htmp =>
        refAtomic_spared h.others htarget hname hdot htmp
    . exact fun hdot hclear => refAtomic_dotted hok hdot h.oldOrNew hclear
  . intro h
    constructor
    . exact (refAtomic_lossless_iff hok).mpr h.whole
    . intro t hcut
      cases hdot : endsInDot r.name with
      | true => exact .inl (refAtomic_of_dotted hdot (h.dotted hdot) hcut)
      | false => exact cutWrite_read hok h.whole hdot hok hdot rfl hcut
    . intro t hcut name hfile hne
      by_cases hreadable : refNameOk name = true ∧ endsInDot name = false
      . apply refAtomic_others hcut hfile hne
        intro g htarget htmp
        exact h.spared g htarget name hreadable.1 hreadable.2 htmp hfile
      . exact refAtomic_unread hcut hfile hne hreadable
    . exact fun t hcut h => rfl
    . intro g htarget σ view cb sub rel ud
      exact walkOne_hidden (refTarget_tmp_hidden htarget) view cb sub rel ud
    . exact fun t hcut x hx => refAtomic_listed hok hcut hx
    . exact fun t hcut => rfl

-- A ref at a hash of the given algorithm.
def algRef (alg : UInt8) : Ref :=
  ⟨ascii "live/proj", some ⟨alg :: List.replicate 32 0, by simp⟩, 1, false⟩

theorem not_isFile_noRefs (p : List Comp) : ¬ IsFile noRefs p := by
  rintro ⟨readable, data, h⟩
  cases p with
  | nil => cases h
  | cons c p => cases h

theorem refAtomic_sha256 : RefAtomic noRefs (algRef 1) .ok := by
  rw [refAtomic_iff noRefs (algRef 1) .ok (by decide)]
  have hdot : ¬ endsInDot (algRef 1).name = true := by decide
  exact ⟨fun _ _ => ⟨by simp, by decide⟩, fun _ _ name _ _ _ => not_isFile_noRefs _,
    fun h => absurd h hdot⟩

-- The disk is full: the temporary is empty, takes the place of the ref, and 0 is returned.
theorem not_refAtomic_fullDisk : ¬ RefAtomic noRefs (algRef 1) (.flushFails 0) := by
  intro h
  have hread := h.lossless (by decide)
  revert hread
  decide

end Refs

end Harp
