/-!
This module contains runs of a step function whose steps meet a guard, and the rule that carries an
invariant along them.
-/

namespace Runs

variable {S A : Type}

inductive Run (next : S → A → S) (guard : S → A → Prop) (init : S) : S → Prop where
  | start : Run next guard init init
  | step {s : S} (a : A) (h : Run next guard init s) (hg : guard s a)
      : Run next guard init (next s a)

def free : S → A → Prop := fun _ _ => True

namespace Run

variable {next : S → A → S} {guard : S → A → Prop} {init s : S}

theorem inv {I : S → Prop} (hinit : I init)
    (hstep : ∀ s a, I s → guard s a → I (next s a)) (h : Run next guard init s) : I s := by
  induction h with
  | start => exact hinit
  | step a _ hg ih => exact hstep _ a ih hg

theorem imp {guard' : S → A → Prop} (himp : ∀ s a, guard s a → guard' s a)
    (h : Run next guard init s) : Run next guard' init s := by
  induction h with
  | start => exact .start
  | step a _ hg ih => exact .step a ih (himp _ a hg)

-- The guard along a list of actions.
def Guarded (next : S → A → S) (guard : S → A → Prop) (s : S) : List A → Prop
  | [] => True
  | a :: acts => guard s a ∧ Guarded next guard (next s a) acts

instance decidableGuarded [∀ s a, Decidable (guard s a)]
    : (s : S) → (acts : List A) → Decidable (Guarded next guard s acts)
  | _, [] => .isTrue trivial
  | s, a :: acts =>
    have := decidableGuarded (next s a) acts
    inferInstanceAs (Decidable (guard s a ∧ Guarded next guard (next s a) acts))

theorem of_guarded (acts : List A) (h : Run next guard init s) (hg : Guarded next guard s acts)
    : Run next guard init (acts.foldl next s) := by
  induction acts generalizing s with
  | nil => exact h
  | cons a acts ih =>
    rw [List.foldl_cons]
    apply ih
    . exact .step a h hg.1
    . exact hg.2

theorem foldl (acts : List A) (h : Run next free init s)
    : Run next free init (acts.foldl next s) := by
  apply of_guarded acts h
  clear h
  induction acts generalizing s with
  | nil => trivial
  | cons a acts ih => exact ⟨trivial, ih⟩

-- A run in one view of the states is a run in the other, if every step is.
theorem map {T B : Type} {next' : T → B → T} {guard' : T → B → Prop} (f : S → T) (g : A → B)
    (hnext : ∀ s a, guard s a → f (next s a) = next' (f s) (g a))
    (hguard : ∀ s a, guard s a → guard' (f s) (g a)) (h : Run next guard init s)
    : Run next' guard' (f init) (f s) := by
  induction h with
  | start => exact .start
  | step a _ hg ih =>
    rw [hnext _ a hg]
    exact .step (g a) ih (hguard _ a hg)

end Run

-- Two states that are related stay related along the same actions.
theorem foldl_related {next : S → A → S} {I : S → Prop} {R : S → S → Prop}
    (hinv : ∀ s a, I s → I (next s a))
    (hstep : ∀ s' s a, I s → R s' s → R (next s' a) (next s a)) (acts : List A) {s' s : S}
    (hs : I s) (h : R s' s) : R (acts.foldl next s') (acts.foldl next s) := by
  induction acts generalizing s' s with
  | nil => exact h
  | cons a acts ih => exact ih (hinv s a hs) (hstep s' s a hs h)

end Runs
