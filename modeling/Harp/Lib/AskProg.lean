/-!
This module contains programs that ask a shared state one question at a time, and what they can come
to when the state moves on between two questions.
-/

namespace AskProg

variable {Q : Type} {A : Q → Type} {α β : Type}

inductive Prog (Q : Type) (A : Q → Type) (α : Type) where
  | ret (a : α)
  | ask (q : Q) (k : A q → Prog Q A α)

namespace Prog

def bind : Prog Q A α → (α → Prog Q A β) → Prog Q A β
  | .ret a, f => f a
  | .ask q k, f => .ask q (fun x => (k x).bind f)

-- All answers come from one state.
def run (answer : (q : Q) → A q) : Prog Q A α → α
  | .ret a => a
  | .ask q k => (k (answer q)).run answer

theorem run_bind (answer : (q : Q) → A q) (p : Prog Q A α) (f : α → Prog Q A β)
    : (p.bind f).run answer = (f (p.run answer)).run answer := by
  induction p with
  | ret a => rfl
  | ask q k ih => exact ih (answer q)

end Prog

section Interleaved

variable {S : Type}

-- `le` is what others may do to the state before a question and after the last one.
inductive Finishes (answer : S → (q : Q) → A q) (le : S → S → Prop)
    : S → Prog Q A α → α → S → Prop where
  | ret {s s' : S} {a : α} (hle : le s s') : Finishes answer le s (.ret a) a s'
  | ask {s s' s'' : S} {q : Q} {k : A q → Prog Q A α} {a : α} (hle : le s s')
      (h : Finishes answer le s' (k (answer s' q)) a s'') : Finishes answer le s (.ask q k) a s''

namespace Finishes

variable {answer : S → (q : Q) → A q} {le : S → S → Prop} {s s' s'' : S} {p : Prog Q A α} {a : α}

theorem of_le (htrans : ∀ s s' s'', le s s' → le s' s'' → le s s'') (hle : le s s')
    (h : Finishes answer le s' p a s'') : Finishes answer le s p a s'' := by
  cases h with
  | ret h => exact .ret (htrans _ _ _ hle h)
  | ask h hrest => exact .ask (htrans _ _ _ hle h) hrest

theorem reaches (htrans : ∀ s s' s'', le s s' → le s' s'' → le s s'')
    (h : Finishes answer le s p a s') : le s s' := by
  induction h with
  | ret hle => exact hle
  | ask hle _ ih => exact htrans _ _ _ hle ih

-- The first part of a program is over before the second one begins.
theorem of_bind (hrefl : ∀ s, le s s) {f : α → Prog Q A β} {b : β}
    (h : Finishes answer le s (p.bind f) b s'')
    : ∃ a s', Finishes answer le s p a s' ∧ Finishes answer le s' (f a) b s'' := by
  induction p generalizing s with
  | ret a => exact ⟨a, s, .ret (hrefl s), h⟩
  | ask q k ih =>
    cases h with
    | ask hle hrest =>
      rcases ih _ hrest with ⟨a, s', hp, hf⟩
      exact ⟨a, s', .ask hle hp, hf⟩

end Finishes

end Interleaved

end AskProg
