import Mathlib.Data.List.Induction
import Mathlib.Logic.Function.Basic
import Harp.Lib.AskProg

/-!
This module contains threads that run their calls over one memory, one action at a time and in any
order, and a rely/guarantee rule for them: what is shown of each program alone, under what the other
threads may do between its actions, makes every run refine a specification of whole traces.
-/

namespace Threads

open AskProg

variable {ι Q S G : Type} {A : Q → Type} {Op : ι → Type} {Ret : (i : ι) → Op i → Type}

-- One action, with what the call returned if it was its last one.
structure Event (ι Q : Type) {Op : ι → Type} (Ret : (i : ι) → Op i → Type) where
  who : ι
  act : Q
  done : Option ((op : Op who) × Ret who op)

structure System (ι Q : Type) (A : Q → Type) (S : Type) {Op : ι → Type}
    (Ret : (i : ι) → Op i → Type) where
  exec : S → (q : Q) → S × A q
  code : (i : ι) → (op : Op i) → Prog Q A (Ret i op)

structure Config (ι Q : Type) (A : Q → Type) (S : Type) {Op : ι → Type}
    (Ret : (i : ι) → Op i → Type) where
  mem : S
  thread : (i : ι) → Option ((op : Op i) × Prog Q A (Ret i op))
  trace : List (Event ι Q Ret)

def idle (mem : S) : Config ι Q A S Ret :=
  ⟨mem, fun _ => none, []⟩

-- A call whose program has come to its end.
def ended {i : ι} {op : Op i} : Prog Q A (Ret i op) → Option ((op : Op i) × Ret i op)
  | .ret a => some ⟨op, a⟩
  | .ask _ _ => none

def rest {i : ι} {op : Op i}
    : Prog Q A (Ret i op) → Option ((op : Op i) × Prog Q A (Ret i op))
  | .ret _ => none
  | .ask q k => some ⟨op, .ask q k⟩

theorem ended_of_rest {i : ι} {op op' : Op i} {p : Prog Q A (Ret i op)} {p' : Prog Q A (Ret i op')}
    (h : rest p = some ⟨op', p'⟩) : ended p' = none := by
  cases p with
  | ret a => cases h
  | ask q k =>
    cases h
    rfl

namespace System

variable [DecidableEq ι] (sys : System ι Q A S Ret)

def act (c : Config ι Q A S Ret) (i : ι) {op : Op i} (q : Q) (k : A q → Prog Q A (Ret i op))
    : Config ι Q A S Ret :=
  let res := sys.exec c.mem q
  let p := k res.2
  ⟨res.1, Function.update c.thread i (rest p), c.trace ++ [⟨i, q, ended p⟩]⟩

-- An idle thread begins the call, another one goes on with the one it is in.
def tick (c : Config ι Q A S Ret) (s : (i : ι) × Op i) : Config ι Q A S Ret :=
  match c.thread s.1 with
  | none => { c with thread := Function.update c.thread s.1 (some ⟨s.2, sys.code s.1 s.2⟩) }
  | some ⟨_, .ret _⟩ => c
  | some ⟨_, .ask q k⟩ => sys.act c s.1 q k

def run (c : Config ι Q A S Ret) (sched : List ((i : ι) × Op i)) : Config ι Q A S Ret :=
  sched.foldl sys.tick c

-- What a tick begins, and what a run does.
def starts (c : Config ι Q A S Ret) (s : (i : ι) × Op i) : List ((i : ι) × Op i) :=
  match c.thread s.1 with
  | none => [s]
  | some _ => []

def begun (c : Config ι Q A S Ret) : List ((i : ι) × Op i) → List ((i : ι) × Op i)
  | [] => []
  | s :: sched => starts c s ++ begun (sys.tick c s) sched

end System

def Event.returned (e : Event ι Q Ret) : Option ((i : ι) × Op i) :=
  e.done.map fun d => ⟨e.who, d.1⟩

def Config.current (c : Config ι Q A S Ret) (i : ι) : Option ((i : ι) × Op i) :=
  (c.thread i).map fun p => ⟨i, p.1⟩

/--
The trace leaves no call out: of the calls that were begun, those of a thread have returned in it,
one after the other and as begun, but for the one that the thread is in, and this one is at an action.
-/
structure Logged [DecidableEq ι] (calls : List ((i : ι) × Op i)) (c : Config ι Q A S Ret)
    : Prop where
  calls : ∀ i, calls.filter (·.1 = i)
    = (c.trace.filterMap Event.returned).filter (·.1 = i) ++ (c.current i).toList
  acts : ∀ i op p, c.thread i = some ⟨op, p⟩ → ended p = none

section Logged

variable [DecidableEq ι] {sys : System ι Q A S Ret}

theorem begun_concat (c : Config ι Q A S Ret) (sched : List ((i : ι) × Op i)) (s : (i : ι) × Op i)
    : sys.begun c (sched ++ [s]) = sys.begun c sched ++ System.starts (sys.run c sched) s := by
  induction sched generalizing c with
  | nil => exact List.append_nil _
  | cons s' sched ih =>
    have hrun : sys.run c (s' :: sched) = sys.run (sys.tick c s') sched := rfl
    rw [hrun, List.cons_append, System.begun, System.begun, ih, List.append_assoc]

theorem Logged.start {calls : List ((i : ι) × Op i)} {c : Config ι Q A S Ret}
    (h : Logged calls c) {i : ι} (op : Op i) (hidle : c.thread i = none) {p : Prog Q A (Ret i op)}
    (hp : ended p = none)
    : Logged (calls ++ [⟨i, op⟩]) { c with thread := Function.update c.thread i (some ⟨op, p⟩) } := by
  constructor
  . intro j
    rw [List.filter_append, h.calls j]
    by_cases hj : j = i
    . subst hj
      simp [Config.current, hidle]
    . have hne : ¬i = j := fun heq => hj heq.symm
      simp [Config.current, Function.update_of_ne hj, hne]
  . intro j op' p' hp'
    dsimp only at hp'
    by_cases hj : j = i
    . subst hj
      rw [Function.update_self] at hp'
      cases hp'
      exact hp
    . rw [Function.update_of_ne hj] at hp'
      exact h.acts j op' p' hp'

theorem Logged.act {calls : List ((i : ι) × Op i)} {c : Config ι Q A S Ret}
    (h : Logged calls c) {i : ι} {op : Op i} {q : Q} {k : A q → Prog Q A (Ret i op)}
    (hbusy : c.thread i = some ⟨op, .ask q k⟩) : Logged calls (sys.act c i q k) := by
  unfold System.act
  dsimp only
  constructor
  . intro j
    rw [h.calls j, List.filterMap_append, List.filter_append, List.append_assoc]
    congr 1
    by_cases hj : j = i
    . subst hj
      cases hp : k (sys.exec c.mem q).2 <;>
        simp [Config.current, hbusy, Event.returned, ended, rest]
    . have hne : ¬i = j := fun heq => hj heq.symm
      cases hp : k (sys.exec c.mem q).2 <;>
        simp [Config.current, Function.update_of_ne hj, Event.returned, ended, hne]
  . intro j op' p hp
    dsimp only at hp
    by_cases hj : j = i
    . subst hj
      rw [Function.update_self] at hp
      exact ended_of_rest hp
    . rw [Function.update_of_ne hj] at hp
      exact h.acts j op' p hp

theorem Logged.tick {calls : List ((i : ι) × Op i)} {c : Config ι Q A S Ret}
    (hcode : ∀ i op, ended (sys.code i op) = none) (h : Logged calls c) (s : (i : ι) × Op i)
    : Logged (calls ++ System.starts c s) (sys.tick c s) := by
  unfold System.starts System.tick
  rcases hcur : c.thread s.1 with _ | ⟨op, a | ⟨q, k⟩⟩
  . exact h.start s.2 hcur (hcode s.1 s.2)
  . cases h.acts s.1 op _ hcur
  . rw [List.append_nil]
    exact h.act hcur

theorem logged_run (hcode : ∀ i op, ended (sys.code i op) = none) (mem : S)
    (sched : List ((i : ι) × Op i))
    : Logged (sys.begun (idle mem) sched) (sys.run (idle mem) sched) := by
  induction sched using List.reverseRecOn with
  | nil => exact ⟨fun _ => rfl, fun _ _ _ h => nomatch h⟩
  | append_singleton sched s ih =>
    have hrun : sys.run (idle mem) (sched ++ [s]) = sys.tick (sys.run (idle mem) sched) s := by
      rw [System.run, List.foldl_append]
      rfl
    rw [begun_concat, hrun]
    exact ih.tick hcode s

end Logged

inductive Replays (spec : G → Event ι Q Ret → G → Prop) (init : G)
    : List (Event ι Q Ret) → G → Prop where
  | start : Replays spec init [] init
  | step {t : List (Event ι Q Ret)} {e : Event ι Q Ret} {g g' : G} (h : Replays spec init t g)
      (hstep : spec g e g') : Replays spec init (t ++ [e]) g'

namespace Replays

variable {spec : G → Event ι Q Ret → G → Prop} {init g : G}

theorem of_concat {t : List (Event ι Q Ret)} {e : Event ι Q Ret}
    (h : Replays spec init (t ++ [e]) g) : ∃ g', Replays spec init t g' ∧ spec g' e g := by
  generalize ht : t ++ [e] = t' at h
  cases h with
  | start => simp at ht
  | step h hstep =>
    obtain ⟨rfl, hlast⟩ := List.append_inj' ht rfl
    cases hlast
    exact ⟨_, h, hstep⟩

theorem of_append {t t' : List (Event ι Q Ret)} (h : Replays spec init (t ++ t') g)
    : ∃ g', Replays spec init t g' := by
  induction t' using List.reverseRecOn generalizing g with
  | nil =>
    rw [List.append_nil] at h
    exact ⟨g, h⟩
  | append_singleton t' e ih =>
    rw [← List.append_assoc] at h
    obtain ⟨g', hg', _⟩ := h.of_concat
    exact ih hg'

end Replays

/--
The specification, the invariant that ties the memory to its state, and for each thread what the
others may do to both.
-/
structure Protocol (ι Q S G : Type) {Op : ι → Type} (Ret : (i : ι) → Op i → Type) where
  spec : G → Event ι Q Ret → G → Prop
  inv : S × G → Prop
  rely : ι → S × G → S × G → Prop
  refl : ∀ i γ, rely i γ γ
  trans : ∀ i γ γ' γ'', rely i γ γ' → rely i γ' γ'' → rely i γ γ''

namespace Protocol

variable (P : Protocol ι Q S G Ret) (sys : System ι Q A S Ret)

-- What is left of a program keeps the protocol, whatever the others do before each of its actions.
def Safe (i : ι) (op : Op i) : Prog Q A (Ret i op) → S × G → Prop
  | .ret _, _ => True
  | .ask q k, γ =>
    ∀ γ', P.rely i γ γ' → P.inv γ' →
      ∃ g, P.spec γ'.2 ⟨i, q, ended (k (sys.exec γ'.1 q).2)⟩ g
        ∧ P.inv ((sys.exec γ'.1 q).1, g)
        ∧ (∀ j, j ≠ i → P.rely j γ' ((sys.exec γ'.1 q).1, g))
        ∧ Safe i op (k (sys.exec γ'.1 q).2) ((sys.exec γ'.1 q).1, g)

variable {P sys}

theorem Safe.rely {i : ι} {op : Op i} {p : Prog Q A (Ret i op)} {γ γ' : S × G}
    (h : P.Safe sys i op p γ) (hrely : P.rely i γ γ') : P.Safe sys i op p γ' := by
  cases p with
  | ret a => trivial
  | ask q k =>
    intro γ'' hrely' hinv
    exact h γ'' (P.trans i _ _ _ hrely hrely') hinv

theorem Safe.of_rest {i : ι} {op op' : Op i} {p : Prog Q A (Ret i op)} {p' : Prog Q A (Ret i op')}
    {γ : S × G} (h : P.Safe sys i op p γ) (hrest : rest p = some ⟨op', p'⟩)
    : P.Safe sys i op' p' γ := by
  cases p with
  | ret a => cases hrest
  | ask q k =>
    cases hrest
    exact h

structure Sound (P : Protocol ι Q S G Ret) (sys : System ι Q A S Ret) (init : G)
    (c : Config ι Q A S Ret) (g : G) : Prop where
  replays : Replays P.spec init c.trace g
  inv : P.inv (c.mem, g)
  safe : ∀ i op p, c.thread i = some ⟨op, p⟩ → P.Safe sys i op p (c.mem, g)

variable [DecidableEq ι]

theorem Sound.tick {init g : G} {c : Config ι Q A S Ret}
    (hcode : ∀ i op γ, P.inv γ → P.Safe sys i op (sys.code i op) γ) (h : Sound P sys init c g)
    (s : (i : ι) × Op i)
    : ∃ g', Sound P sys init (sys.tick c s) g' := by
  obtain ⟨i, op⟩ := s
  unfold System.tick
  split
  next hidle =>
    refine ⟨g, h.replays, h.inv, fun j op' p hp => ?_⟩
    dsimp only at hp
    by_cases hj : j = i
    . subst hj
      rw [Function.update_self] at hp
      cases hp
      exact hcode j _ _ h.inv
    . rw [Function.update_of_ne hj] at hp
      exact h.safe j op' p hp
  next => exact ⟨g, h⟩
  next op q k hbusy =>
    obtain ⟨g', hspec, hinv, hothers, hsafe⟩ := h.safe i _ _ hbusy _ (P.refl i _) h.inv
    refine ⟨g', .step h.replays hspec, hinv, fun j op' p hp => ?_⟩
    unfold System.act at hp
    dsimp only at hp
    by_cases hj : j = i
    . subst hj
      rw [Function.update_self] at hp
      exact hsafe.of_rest hp
    . rw [Function.update_of_ne hj] at hp
      exact (h.safe j op' p hp).rely (hothers j hj)

theorem sound_run {init : G} {mem : S}
    (hcode : ∀ i op γ, P.inv γ → P.Safe sys i op (sys.code i op) γ) (hinit : P.inv (mem, init))
    (sched : List ((i : ι) × Op i))
    : ∃ g, Sound P sys init (sys.run (idle mem) sched) g := by
  induction sched using List.reverseRecOn with
  | nil => exact ⟨init, .start, hinit, fun _ _ _ h => nomatch h⟩
  | append_singleton sched s ih =>
    obtain ⟨g, hg⟩ := ih
    rw [System.run, List.foldl_append]
    exact hg.tick hcode s

end Protocol

end Threads
