import Mathlib.Data.List.Basic
import Mathlib.Logic.Relation

/-!
This module contains the breadth-first levels of a graph, given by the children of each node, of
which at most `cap` nodes are listed. Every node is listed once, in the first level it is met in.
-/

namespace Levels

variable {α : Type}

-- What a list of met nodes goes through while children are offered to it.
structure Grown (cap : Nat) (P : α → Prop) (l l' : List α) : Prop where
  pre : l <+: l'
  nodup : l.Nodup → l'.Nodup
  bound : l.length ≤ cap → l'.length ≤ cap
  new : ∀ x ∈ l', x ∈ l ∨ P x

theorem Grown.refl (cap : Nat) (P : α → Prop) (l : List α) : Grown cap P l l := by
  refine ⟨List.prefix_refl l, ?_, ?_, ?_⟩
  . intro h
    exact h
  . intro h
    exact h
  . intro x hx
    exact .inl hx

theorem Grown.trans {cap : Nat} {P : α → Prop} {l l' l'' : List α} (h : Grown cap P l l')
    (h' : Grown cap P l' l'') : Grown cap P l l'' := by
  refine ⟨h.pre.trans h'.pre, ?_, ?_, ?_⟩
  . intro hnodup
    apply h'.nodup
    apply h.nodup hnodup
  . intro hbound
    apply h'.bound
    apply h.bound hbound
  . intro x hx
    cases h'.new x hx with
    | inl hx => apply h.new x hx
    | inr hx => exact .inr hx

variable [DecidableEq α]

def collect (cap : Nat) (l : List α) (x : α) : List α :=
  if x ∉ l ∧ l.length < cap then l ++ [x] else l

def offer (cap : Nat) (l children : List α) : List α :=
  children.foldl (collect cap) l

def expand (cap : Nat) (f : α → List α) (seg l : List α) : List α :=
  seg.foldl (fun l x => offer cap l (f x)) l

def from_ (cap : Nat) (f : α → List α) (fuel cur : Nat) (l : List α) : List (List α) :=
  match fuel with
  | 0 => []
  | fuel + 1 =>
    if cur < l.length then
      l.drop cur :: from_ cap f fuel l.length (expand cap f (l.drop cur) l)
    else
      []

-- A level that is not empty lists a new node, so there are at most `cap` of them.
def levels (cap : Nat) (f : α → List α) (root : α) : List (List α) :=
  from_ cap f cap 0 (collect cap [] root)

-- The same list, one node at a time.
def walk (cap : Nat) (f : α → List α) (fuel cur : Nat) (l : List α) : List α :=
  match fuel with
  | 0 => l
  | fuel + 1 =>
    match l[cur]? with
    | none => l
    | some x => walk cap f fuel (cur + 1) (offer cap l (f x))

def Reaches (f : α → List α) : α → α → Prop :=
  Relation.ReflTransGen (fun x y => y ∈ f x)

theorem collect_grown (cap : Nat) {P : α → Prop} (l : List α) {x : α} (hx : P x)
    : Grown cap P l (collect cap l x) := by
  unfold collect
  split
  next h =>
    refine ⟨List.prefix_append l [x], ?_, ?_, ?_⟩
    . intro hnodup
      rw [List.nodup_append]
      refine ⟨hnodup, by simp, ?_⟩
      intro a ha b hb
      rw [List.mem_singleton] at hb
      intro heq
      apply h.1
      rw [← hb, ← heq]
      exact ha
    . intro _
      rw [List.length_append, List.length_singleton]
      omega
    . intro y hy
      rw [List.mem_append, List.mem_singleton] at hy
      cases hy with
      | inl hy => exact .inl hy
      | inr hy =>
        rw [hy]
        exact .inr hx
  next => apply Grown.refl

theorem offer_grown (cap : Nat) {P : α → Prop} (l : List α) {children : List α}
    (hP : ∀ x ∈ children, P x) : Grown cap P l (offer cap l children) := by
  unfold offer
  induction children generalizing l with
  | nil => apply Grown.refl
  | cons x children ih =>
    rw [List.foldl_cons]
    apply Grown.trans (collect_grown cap l (hP x List.mem_cons_self))
    apply ih
    intro y hy
    apply hP
    apply List.mem_cons_of_mem
    exact hy

theorem expand_grown (cap : Nat) {f : α → List α} {P : α → Prop} {seg : List α} (l : List α)
    (hP : ∀ x ∈ seg, ∀ y ∈ f x, P y) : Grown cap P l (expand cap f seg l) := by
  unfold expand
  induction seg generalizing l with
  | nil => apply Grown.refl
  | cons x seg ih =>
    rw [List.foldl_cons]
    apply Grown.trans (offer_grown cap l (hP x List.mem_cons_self))
    apply ih
    intro y hy
    apply hP
    apply List.mem_cons_of_mem
    exact hy

theorem expand_congr {cap : Nat} {f g : α → List α} {seg : List α} (l : List α)
    (h : ∀ x ∈ seg, f x = g x) : expand cap f seg l = expand cap g seg l := by
  unfold expand
  induction seg generalizing l with
  | nil => rfl
  | cons x seg ih =>
    rw [List.foldl_cons, List.foldl_cons, h x List.mem_cons_self]
    apply ih
    intro y hy
    apply h
    apply List.mem_cons_of_mem
    exact hy

section From

variable {cap : Nat} {f : α → List α} {fuel cur : Nat} {l : List α}

theorem from_of_lt (h : cur < l.length)
    : from_ cap f (fuel + 1) cur l
        = l.drop cur :: from_ cap f fuel l.length (expand cap f (l.drop cur) l) := by
  rw [from_, if_pos h]

theorem from_of_le (h : l.length ≤ cur) : from_ cap f fuel cur l = [] := by
  cases fuel with
  | zero => rfl
  | succ fuel => rw [from_, if_neg (Nat.not_lt.mpr h)]

theorem reaches_of_mem_from {root x : α} (hl : ∀ y ∈ l, Reaches f root y)
    (hx : x ∈ (from_ cap f fuel cur l).flatten) : Reaches f root x := by
  induction fuel generalizing cur l with
  | zero => simp [from_] at hx
  | succ fuel ih =>
    by_cases hcur : cur < l.length
    . rw [from_of_lt hcur, List.flatten_cons, List.mem_append] at hx
      cases hx with
      | inl hx =>
        apply hl
        apply List.mem_of_mem_drop hx
      | inr hx =>
        apply ih _ hx
        have hgrown : Grown cap (Reaches f root) l (expand cap f (l.drop cur) l) := by
          apply expand_grown
          intro y hy z hz
          exact (hl y (List.mem_of_mem_drop hy)).tail hz
        intro y hy
        cases hgrown.new y hy with
        | inl hy => exact hl y hy
        | inr hy => exact hy
    . rw [from_of_le (Nat.not_lt.mp hcur)] at hx
      contradiction

end From

section Walk

variable {cap : Nat} {f : α → List α} {cur : Nat} {l : List α}

theorem offer_pre (cap : Nat) (l children : List α) : l <+: offer cap l children :=
  (offer_grown (P := fun _ => True) cap l fun _ _ => trivial).pre

-- Some nodes of the list, each of which is where it was when the walk comes to it.
theorem walk_add (k fuel : Nat) (hk : cur + k ≤ l.length)
    : walk cap f (k + fuel) cur l
        = walk cap f fuel (cur + k) (expand cap f ((l.drop cur).take k) l) := by
  induction k generalizing cur l with
  | zero =>
    rw [Nat.zero_add, List.take_zero]
    rfl
  | succ k ih =>
    have hcur : cur < l.length := by omega
    obtain ⟨rest, hrest⟩ := offer_pre cap l (f l[cur])
    have hlen : l.length ≤ (offer cap l (f l[cur])).length := by
      rw [← hrest, List.length_append]
      omega
    have hseg : (l.drop cur).take (k + 1)
        = l[cur] :: ((offer cap l (f l[cur])).drop (cur + 1)).take k := by
      rw [List.drop_eq_getElem_cons hcur, List.take_succ_cons, ← hrest,
        List.drop_append_of_le_length (by omega),
        List.take_append_of_le_length (by rw [List.length_drop]; omega)]
    rw [hseg, show k + 1 + fuel = (k + fuel) + 1 by omega, walk, List.getElem?_eq_getElem hcur]
    dsimp only
    rw [ih (by omega), show cur + 1 + k = cur + (k + 1) by omega]
    rfl

theorem walk_eq (fuel fuel' : Nat) (hbound : l.length ≤ cap) (hcur : cur ≤ l.length)
    (hfuel : cap ≤ cur + fuel) (hfuel' : cap ≤ cur + fuel')
    : walk cap f fuel cur l = l.take cur ++ (from_ cap f fuel' cur l).flatten := by
  induction fuel' generalizing fuel cur l with
  | zero =>
    have hend : cur = l.length := by omega
    have hwalk : walk cap f fuel cur l = l := by
      cases fuel with
      | zero => rfl
      | succ fuel =>
        rw [walk, List.getElem?_eq_none (by omega)]
    rw [hwalk, hend, List.take_length, from_of_le (Nat.le_refl _), List.flatten_nil,
      List.append_nil]
  | succ fuel' ih =>
    by_cases hlt : cur < l.length
    . have hsplit : fuel = (l.length - cur) + (fuel - (l.length - cur)) := by omega
      have hgrown : Grown cap (fun _ => True) l (expand cap f (l.drop cur) l) :=
        expand_grown cap l fun _ _ _ _ => trivial
      obtain ⟨rest, hrest⟩ := hgrown.pre
      rw [from_of_lt hlt, hsplit, walk_add _ _ (by omega),
        List.take_of_length_le (Nat.le_of_eq (List.length_drop ..)),
        show cur + (l.length - cur) = l.length by omega,
        ih _ (hgrown.bound hbound) hgrown.pre.length_le (by omega) (by omega), ← hrest,
        List.take_left, List.flatten_cons, ← List.append_assoc, List.take_append_drop]
    . have hend : cur = l.length := by omega
      have hwalk : walk cap f fuel cur l = l := by
        cases fuel with
        | zero => rfl
        | succ fuel =>
          rw [walk, List.getElem?_eq_none (by omega)]
      rw [hwalk, hend, List.take_length, from_of_le (Nat.le_refl _), List.flatten_nil,
        List.append_nil]

theorem walk_levels (root : α)
    : walk cap f cap 0 (collect cap [] root) = (levels cap f root).flatten := by
  have hgrown := collect_grown cap [] (P := fun _ => True) (x := root) trivial
  have heq := walk_eq (f := f) cap cap (hgrown.bound (Nat.zero_le _))
    (Nat.zero_le (collect cap [] root).length) (by omega) (by omega)
  rw [List.take_zero, List.nil_append] at heq
  exact heq

end Walk

theorem reaches_of_mem_levels {cap : Nat} {f : α → List α} {root x : α}
    (hx : x ∈ (levels cap f root).flatten) : Reaches f root x := by
  apply reaches_of_mem_from _ hx
  intro y hy
  have hgrown : Grown cap (fun y => y = root) [] (collect cap [] root) := collect_grown cap [] rfl
  cases hgrown.new y hy with
  | inl hy => contradiction
  | inr hy =>
    rw [hy]
    exact Relation.ReflTransGen.refl

end Levels
