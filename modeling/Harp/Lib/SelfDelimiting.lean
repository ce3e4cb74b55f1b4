import Mathlib.Data.List.Basic

/-!
This module contains encoders whose output tells where it ends, and of what it was made: which parts
of a value are known from its encoding, whatever follows it.
-/

namespace SelfDelimiting

variable {α β γ : Type}

/--
Of two values that are related by `ok`, what is encoded is the same if and only if they are related
by `same`, and then the same is left after it.
-/
def Delimits (ok : α → α → Prop) (enc : α → List β) (same : α → α → Prop) : Prop :=
  ∀ a a', ok a a' → ∀ rest rest', enc a ++ rest = enc a' ++ rest' ↔ same a a' ∧ rest = rest'

def any : α → α → Prop := fun _ _ => True

namespace Delimits

variable {ok ok' same same' : α → α → Prop} {enc enc' : α → List β}

theorem mono (h : Delimits ok enc same) (hok : ∀ a a', ok' a a' → ok a a')
    : Delimits ok' enc same :=
  fun a a' h' => h a a' (hok a a' h')

theorem same_iff (h : Delimits ok enc same) (hsame : ∀ a a', ok a a' → (same a a' ↔ same' a a'))
    : Delimits ok enc same' := by
  intro a a' hok rest rest'
  rw [h a a' hok, hsame a a' hok]

theorem const (ok : α → α → Prop) (w : List β) : Delimits ok (fun _ => w) any := by
  intro a a' _ rest rest'
  rw [List.append_cancel_left_eq, any, true_and]

-- What comes second may rely on what the first part has told.
theorem append (h : Delimits ok enc same)
    (h' : Delimits (fun a a' => ok a a' ∧ same a a') enc' same')
    : Delimits ok (fun a => enc a ++ enc' a) (fun a a' => same a a' ∧ same' a a') := by
  intro a a' hok rest rest'
  rw [List.append_assoc, List.append_assoc, h a a' hok]
  constructor
  . rintro ⟨hsame, heq⟩
    rcases (h' a a' ⟨hok, hsame⟩ _ _).mp heq with ⟨hsame', hrest⟩
    exact ⟨⟨hsame, hsame'⟩, hrest⟩
  . rintro ⟨⟨hsame, hsame'⟩, hrest⟩
    exact ⟨hsame, (h' a a' ⟨hok, hsame⟩ _ _).mpr ⟨hsame', hrest⟩⟩

-- A part that is there for some values only.
theorem optional {c : α → Prop} [DecidablePred c] (hc : ∀ a a', ok a a' → (c a ↔ c a'))
    (h : Delimits (fun a a' => ok a a' ∧ c a) enc same)
    : Delimits ok (fun a => if c a then enc a else []) (fun a a' => c a → same a a') := by
  intro a a' hok rest rest'
  dsimp only
  by_cases ha : c a
  . rw [if_pos ha, if_pos ((hc a a' hok).mp ha), h a a' ⟨hok, ha⟩]
    exact ⟨fun heq => ⟨fun _ => heq.1, heq.2⟩, fun heq => ⟨heq.1 ha, heq.2⟩⟩
  . rw [if_neg ha, if_neg (fun ha' => ha ((hc a a' hok).mpr ha'))]
    exact ⟨fun heq => ⟨fun ha' => absurd ha' ha, heq⟩, fun heq => heq.2⟩

theorem flatMap (h : Delimits any enc same)
    : Delimits (fun as as' => as.length = as'.length) (fun as => as.flatMap enc)
        (List.Forall₂ same) := by
  intro as
  induction as with
  | nil =>
    intro as' hlen rest rest'
    have hnil : as' = [] := List.length_eq_zero_iff.mp hlen.symm
    subst hnil
    exact ⟨fun heq => ⟨.nil, heq⟩, fun heq => heq.2⟩
  | cons a as ih =>
    intro as' hlen rest rest'
    cases as' with
    | nil => cases hlen
    | cons a' as' =>
      dsimp only
      rw [List.flatMap_cons, List.flatMap_cons, List.append_assoc, List.append_assoc,
        h a a' trivial, ih as' (Nat.succ.inj hlen), List.forall₂_cons, and_assoc]

theorem eq_iff (h : Delimits any enc same) (a a' : α) : enc a = enc a' ↔ same a a' := by
  have hnil := h a a' trivial [] []
  rw [List.append_nil, List.append_nil] at hnil
  rw [hnil]
  exact ⟨fun heq => heq.1, fun heq => ⟨heq, rfl⟩⟩

end Delimits

end SelfDelimiting
