import Mathlib.Data.Nat.ModEq
import Harp.Lib.Threads

/-!
This module contains the memory of a ring that one producer and one consumer share without a lock:
the words of its cells and two cursors of 64 bits, each read and written by single actions. `spec` is
the bounded queue such a ring is to be, on the trace of the actions, and `protocol` what either side
may do to the other while it is in a call.
-/

namespace SharedRing

open AskProg Threads

inductive Side where
  | producer
  | consumer
deriving DecidableEq

structure Mem (K β : Type) where
  cell : UInt64 → K → β
  head : UInt64
  tail : UInt64

inductive RingAct (K β : Type) where
  | loadHead
  | loadTail
  | storeHead (v : UInt64)
  | storeTail (v : UInt64)
  | loadWord (i : UInt64) (k : K)
  | storeWord (i : UInt64) (k : K) (b : β)

def RingAct.Res {K β : Type} : RingAct K β → Type
  | .loadHead => UInt64
  | .loadTail => UInt64
  | .storeHead _ => Unit
  | .storeTail _ => Unit
  | .loadWord _ _ => β
  | .storeWord _ _ _ => Unit

def exec {K β : Type} [DecidableEq K] (m : Mem K β) : (q : RingAct K β) → Mem K β × q.Res
  | .loadHead => (m, m.head)
  | .loadTail => (m, m.tail)
  | .storeHead v => ({ m with head := v }, ())
  | .storeTail v => ({ m with tail := v }, ())
  | .loadWord i k => (m, m.cell i k)
  | .storeWord i k b =>
    ({ m with cell := fun i' k' => if i' = i ∧ k' = k then b else m.cell i' k' }, ())

section Capacity

-- A capacity is a power of two that a cursor can hold.
structure Capacity where
  log2 : Nat
  hlt : log2 < 64

namespace Capacity

def size (cap : Capacity) : Nat :=
  2 ^ cap.log2

def word (cap : Capacity) : UInt64 :=
  UInt64.ofNat cap.size

def mask (cap : Capacity) : UInt64 :=
  cap.word - 1

variable (cap : Capacity)

theorem size_pos : 0 < cap.size :=
  Nat.two_pow_pos _

theorem size_lt : cap.size < 2 ^ 64 :=
  Nat.pow_lt_pow_right (by omega) cap.hlt

theorem toNat_word : cap.word.toNat = cap.size := by
  rw [word, UInt64.toNat_ofNat', Nat.mod_eq_of_lt cap.size_lt]

theorem toNat_mask : cap.mask.toNat = cap.size - 1 := by
  have hone : (1 : UInt64) ≤ cap.word := by
    rw [UInt64.le_iff_toNat_le, cap.toNat_word]
    exact cap.size_pos
  rw [mask, UInt64.toNat_sub_of_le _ _ hone, cap.toNat_word]
  rfl

theorem toNat_ofNat_and_mask (n : Nat) : (UInt64.ofNat n &&& cap.mask).toNat = n % cap.size := by
  rw [UInt64.toNat_and, UInt64.toNat_ofNat', cap.toNat_mask, size, Nat.and_two_pow_sub_one_eq_mod,
    Nat.mod_mod_of_dvd _ (Nat.pow_dvd_pow 2 (Nat.le_of_lt cap.hlt))]

-- Two places in one turn of the ring have cells of their own.
theorem and_mask_ne {m n : Nat} (hlt : m < n) (hturn : n < m + cap.size)
    : UInt64.ofNat n &&& cap.mask ≠ UInt64.ofNat m &&& cap.mask := by
  intro h
  have hmod : n % cap.size = m % cap.size := by
    rw [← cap.toNat_ofNat_and_mask, ← cap.toNat_ofNat_and_mask, h]
  have hdvd := (Nat.modEq_iff_dvd' (Nat.le_of_lt hlt)).mp hmod.symm
  have hle := Nat.le_of_dvd (by omega) hdvd
  omega

end Capacity

-- What the cursors are apart.
theorem ofNat_add_sub (m n : Nat) : UInt64.ofNat (m + n) - UInt64.ofNat m = UInt64.ofNat n := by
  rw [Nat.add_comm, UInt64.ofNat_add, UInt64.add_sub_cancel]

end Capacity

-- How an item lies in memory.
structure Layout (T K β : Type) where
  word : T → K → β
  ofWords : (K → β) → T
  ofWords_word : ∀ x, ofWords (word x) = x

structure Queue (T : Type) where
  gone : List T
  items : List T
  -- the room for more, and the items there are, as the call of a side has found them
  room : Option Nat
  seen : Option Nat

-- What a call has done: how many of `xs` were added, what was taken when `n` were asked for.
inductive Did (T : Type) where
  | added (xs : List T) (n : Nat)
  | took (n : Nat) (ys : List T)
  | cleared (index : UInt64)

namespace Queue

variable {T K β : Type}

def empty : Queue T :=
  ⟨[], [], none, none⟩

def observe (cap : Capacity) (q : Queue T) (i : Side) (a : RingAct K β) : Queue T :=
  match i, a with
  | .producer, .loadTail => { q with room := some (cap.size - q.items.length) }
  | .consumer, .loadHead => { q with seen := some q.items.length }
  | _, _ => q

def add (q : Queue T) (xs : List T) : Queue T :=
  ⟨q.gone, q.items ++ xs, none, q.seen⟩

def remove (q : Queue T) (n : Nat) : Queue T :=
  ⟨q.gone ++ q.items.take n, q.items.drop n, q.room, none⟩

inductive Does (cap : Capacity) : Queue T → Did T → Queue T → Prop where
  | added {q : Queue T} (xs : List T) {r : Nat} (hroom : q.room = some r)
      (hfit : q.items.length + min xs.length r ≤ cap.size)
      : Does cap q (.added xs (min xs.length r)) (q.add (xs.take r))
  | took {q : Queue T} (n : Nat) {s : Nat} (hseen : q.seen = some s) (hs : s ≤ q.items.length)
      : Does cap q (.took n (q.items.take (min n s))) (q.remove (min n s))
  | cleared {q : Queue T} {s : Nat} (hseen : q.seen = some s) (hs : s ≤ q.items.length)
      : Does cap q (.cleared (UInt64.ofNat (q.gone.length + s))) (q.remove s)

end Queue

variable {T K β : Type} {Op : Side → Type} {Ret : (i : Side) → Op i → Type}

def spec (cap : Capacity) (did : (i : Side) → ((op : Op i) × Ret i op) → Did T) (q : Queue T)
    (e : Event Side (RingAct K β) Ret) (q' : Queue T) : Prop :=
  match e.done with
  | none => q' = q.observe cap e.who e.act
  | some d => Queue.Does cap (q.observe cap e.who e.act) (did e.who d) q'

structure Agrees (cap : Capacity) (lay : Layout T K β) (γ : Mem K β × Queue T) : Prop where
  head : γ.1.head = UInt64.ofNat (γ.2.gone.length + γ.2.items.length)
  tail : γ.1.tail = UInt64.ofNat γ.2.gone.length
  fill : γ.2.items.length ≤ cap.size
  cells : ∀ (i : Nat) (h : i < γ.2.items.length) (k : K),
    γ.1.cell (UInt64.ofNat (γ.2.gone.length + i) &&& cap.mask) k = lay.word γ.2.items[i] k

-- What the consumer may do while the producer is in a call, and the other way round.
structure Consumes (γ γ' : Mem K β × Queue T) : Prop where
  cell : γ'.1.cell = γ.1.cell
  all : γ'.2.gone ++ γ'.2.items = γ.2.gone ++ γ.2.items
  gone : γ.2.gone.length ≤ γ'.2.gone.length
  room : γ'.2.room = γ.2.room

structure Produces (γ γ' : Mem K β × Queue T) : Prop where
  tail : γ'.1.tail = γ.1.tail
  gone : γ'.2.gone = γ.2.gone
  items : γ.2.items <+: γ'.2.items
  seen : γ'.2.seen = γ.2.seen

def rely : Side → Mem K β × Queue T → Mem K β × Queue T → Prop
  | .producer => Consumes
  | .consumer => Produces

theorem Consumes.refl (γ : Mem K β × Queue T) : Consumes γ γ :=
  ⟨rfl, rfl, Nat.le_refl _, rfl⟩

theorem Produces.refl (γ : Mem K β × Queue T) : Produces γ γ :=
  ⟨rfl, rfl, List.prefix_rfl, rfl⟩

theorem Consumes.trans {γ γ' γ'' : Mem K β × Queue T} (h : Consumes γ γ') (h' : Consumes γ' γ'')
    : Consumes γ γ'' :=
  ⟨h'.cell.trans h.cell, h'.all.trans h.all, Nat.le_trans h.gone h'.gone, h'.room.trans h.room⟩

theorem Produces.trans {γ γ' γ'' : Mem K β × Queue T} (h : Produces γ γ') (h' : Produces γ' γ'')
    : Produces γ γ'' :=
  ⟨h'.tail.trans h.tail, h'.gone.trans h.gone, h.items.trans h'.items, h'.seen.trans h.seen⟩

theorem rely_of_produces {γ γ' : Mem K β × Queue T} (h : Produces γ γ')
    : ∀ j, j ≠ .producer → rely j γ γ'
  | .producer, hj => absurd rfl hj
  | .consumer, _ => h

theorem rely_of_consumes {γ γ' : Mem K β × Queue T} (h : Consumes γ γ')
    : ∀ j, j ≠ .consumer → rely j γ γ'
  | .producer, _ => h
  | .consumer, hj => absurd rfl hj

def protocol (cap : Capacity) (lay : Layout T K β)
    (did : (i : Side) → ((op : Op i) × Ret i op) → Did T)
    : Protocol Side (RingAct K β) (Mem K β) (Queue T) Ret where
  spec := spec cap did
  inv := Agrees cap lay
  rely := rely
  refl i γ := by
    cases i with
    | producer => exact Consumes.refl γ
    | consumer => exact Produces.refl γ
  trans i γ γ' γ'' h h' := by
    cases i with
    | producer => exact Consumes.trans h h'
    | consumer => exact Produces.trans h h'

section Actions

variable {cap : Capacity} {lay : Layout T K β} {γ γ' : Mem K β × Queue T}

theorem Agrees.observe (h : Agrees cap lay γ) (i : Side) (a : RingAct K β)
    : Agrees cap lay (γ.1, γ.2.observe cap i a) := by
  unfold Queue.observe
  split
  . exact ⟨h.head, h.tail, h.fill, h.cells⟩
  . exact ⟨h.head, h.tail, h.fill, h.cells⟩
  . exact h

theorem rely_observe (γ : Mem K β × Queue T) {i j : Side} (hj : j ≠ i) (a : RingAct K β)
    : rely j γ (γ.1, γ.2.observe cap i a) := by
  cases i with
  | producer =>
    cases j with
    | producer => exact absurd rfl hj
    | consumer => cases a <;> exact ⟨rfl, rfl, List.prefix_rfl, rfl⟩
  | consumer =>
    cases j with
    | consumer => exact absurd rfl hj
    | producer => cases a <;> exact ⟨rfl, rfl, Nat.le_refl _, rfl⟩

theorem Agrees.empty (h : γ.2 = Queue.empty) (hhead : γ.1.head = 0) (htail : γ.1.tail = 0)
    : Agrees cap lay γ := by
  constructor
  . rw [h, hhead]
    rfl
  . rw [h, htail]
    rfl
  . rw [h]
    exact Nat.zero_le _
  . rw [h]
    intro i hi
    exact absurd hi (Nat.not_lt_zero i)

-- What the producer knows in a call: where the next item goes, and how many there is room for.
structure HasRoom (cap : Capacity) (γ : Mem K β × Queue T) (place r : Nat) : Prop where
  place : place = γ.2.gone.length + γ.2.items.length
  room : γ.2.room = some r
  fits : γ.2.items.length + r ≤ cap.size

theorem HasRoom.rely {place r : Nat} (h : HasRoom cap γ place r) (hrely : Consumes γ γ')
    : HasRoom cap γ' place r := by
  have hall := congrArg List.length hrely.all
  rw [List.length_append, List.length_append] at hall
  have hgone := hrely.gone
  have hfits := h.fits
  constructor
  . rw [h.place, hall]
  . rw [hrely.room, h.room]
  . omega

-- Items that are written but not yet published.
def Filled (cap : Capacity) (lay : Layout T K β) (m : Mem K β) (place : Nat) (xs : List T) : Prop :=
  ∀ (i : Nat) (h : i < xs.length) (k : K),
    m.cell (UInt64.ofNat (place + i) &&& cap.mask) k = lay.word xs[i] k

theorem filled_nil (m : Mem K β) (place : Nat) : Filled cap lay m place [] :=
  fun _ h => absurd h (Nat.not_lt_zero _)

theorem Filled.rely {place : Nat} {xs : List T}
    (h : Filled cap lay γ.1 place xs) (hrely : Consumes γ γ') : Filled cap lay γ'.1 place xs := by
  intro i hi k
  rw [hrely.cell]
  exact h i hi k

-- What the consumer knows in a call: the items it has seen are still in front.
structure Front (γ : Mem K β × Queue T) (place : Nat) (ys : List T) : Prop where
  place : place = γ.2.gone.length
  seen : γ.2.seen = some ys.length
  front : ys <+: γ.2.items

theorem Front.rely {place : Nat} {ys : List T} (h : Front γ place ys) (hrely : Produces γ γ')
    : Front γ' place ys :=
  ⟨by rw [h.place, hrely.gone], by rw [hrely.seen, h.seen], h.front.trans hrely.items⟩

theorem Front.take {place : Nat} {ys : List T} (h : Front γ place ys)
    {n : Nat} (hn : n ≤ ys.length) : γ.2.items.take n = ys.take n := by
  obtain ⟨more, hmore⟩ := h.front
  rw [← hmore, List.take_append_of_le_length hn]

theorem Agrees.cell_front (h : Agrees cap lay γ) {place i : Nat} {ys : List T}
    (hfront : Front γ place ys) (hi : i < ys.length) (k : K)
    : γ.1.cell (UInt64.ofNat (place + i) &&& cap.mask) k = lay.word ys[i] k := by
  have hlen := hfront.front.length_le
  have hcell := h.cells i (by omega) k
  rwa [← hfront.front.getElem hi, ← hfront.place] at hcell

-- What a side finds when it looks at the other cursor.
theorem Agrees.head_sub_tail (h : Agrees cap lay γ) (h' : Agrees cap lay γ')
    (hall : γ'.2.gone ++ γ'.2.items = γ.2.gone ++ γ.2.items)
    : γ.1.head - γ'.1.tail = UInt64.ofNat γ'.2.items.length := by
  have hlen := congrArg List.length hall
  rw [List.length_append, List.length_append] at hlen
  rw [h.head, ← hlen, h'.tail, ofNat_add_sub]

theorem Agrees.toNat_length (h : Agrees cap lay γ)
    : (UInt64.ofNat γ.2.items.length).toNat = γ.2.items.length := by
  have hfill := h.fill
  have hsize := cap.size_lt
  rw [UInt64.toNat_ofNat', Nat.mod_eq_of_lt (by omega)]

theorem Agrees.tail_eq_head_iff (h : Agrees cap lay γ)
    : γ.1.tail = γ.1.head ↔ γ.2.items.length = 0 := by
  have hdiff := h.head_sub_tail h rfl
  constructor
  . intro heq
    rw [heq, UInt64.sub_self] at hdiff
    rw [← h.toNat_length, ← hdiff]
    rfl
  . intro hzero
    rw [h.tail, h.head, hzero, Nat.add_zero]

theorem Agrees.room_observe (h : Agrees cap lay γ)
    : HasRoom cap (γ.1, γ.2.observe cap .producer (.loadTail : RingAct K β))
        (γ.2.gone.length + γ.2.items.length) (cap.size - γ.2.items.length) := by
  have hfill := h.fill
  refine ⟨rfl, rfl, ?_⟩
  unfold Queue.observe
  dsimp only
  omega

theorem front_observe (cap : Capacity) (γ : Mem K β × Queue T)
    : Front (γ.1, γ.2.observe cap .consumer (.loadHead : RingAct K β)) γ.2.gone.length γ.2.items :=
  ⟨rfl, rfl, List.prefix_rfl⟩

variable [DecidableEq K]

-- A word in a cell that is not taken.
theorem Agrees.storeWord (h : Agrees cap lay γ) {place r i : Nat} (hroom : HasRoom cap γ place r)
    (hi : i < r) (k : K) (b : β)
    : Agrees cap lay
        ((exec γ.1 (.storeWord (UInt64.ofNat (place + i) &&& cap.mask) k b)).1, γ.2) := by
  refine ⟨h.head, h.tail, h.fill, fun j hj k' => ?_⟩
  have hfits := hroom.fits
  have hplace := hroom.place
  dsimp only at hj
  have hne := cap.and_mask_ne (m := γ.2.gone.length + j) (n := place + i) (by omega) (by omega)
  unfold exec
  dsimp only
  rw [if_neg (fun heq => hne heq.1.symm)]
  exact h.cells j hj k'

theorem Agrees.publish (h : Agrees cap lay γ) {place r : Nat} (hroom : HasRoom cap γ place r)
    {xs : List T} (hxs : xs.length ≤ r) (hfilled : Filled cap lay γ.1 place xs)
    : Agrees cap lay
        ((exec γ.1 (.storeHead (UInt64.ofNat (place + xs.length)))).1, γ.2.add xs) := by
  have hfits := hroom.fits
  have hplace := hroom.place
  constructor
  . unfold exec Queue.add
    dsimp only
    rw [List.length_append, hplace, Nat.add_assoc]
  . exact h.tail
  . unfold Queue.add
    dsimp only
    rw [List.length_append]
    omega
  . intro i hi k
    unfold Queue.add at *
    dsimp only at hi ⊢
    rw [List.length_append] at hi
    by_cases hold : i < γ.2.items.length
    . rw [List.getElem_append_left hold]
      exact h.cells i hold k
    . have hidx : place + (i - γ.2.items.length) = γ.2.gone.length + i := by omega
      rw [List.getElem_append_right (by omega), ← hfilled (i - γ.2.items.length) (by omega) k, hidx]
      rfl

theorem Agrees.release (h : Agrees cap lay γ) {place n : Nat} (hplace : place = γ.2.gone.length)
    (hn : n ≤ γ.2.items.length)
    : Agrees cap lay ((exec γ.1 (.storeTail (UInt64.ofNat (place + n)))).1, γ.2.remove n) := by
  have hgone : (γ.2.remove n).gone.length = γ.2.gone.length + n := by
    unfold Queue.remove
    rw [List.length_append, List.length_take]
    omega
  have hitems : (γ.2.remove n).items.length = γ.2.items.length - n := List.length_drop
  have hfill := h.fill
  constructor
  . rw [hgone, hitems, Nat.add_assoc, Nat.add_sub_of_le hn]
    exact h.head
  . rw [hgone, ← hplace]
    rfl
  . rw [hitems]
    omega
  . intro i hi k
    rw [hitems] at hi
    have hget : (γ.2.remove n).items[i] = γ.2.items[n + i] := List.getElem_drop
    rw [hget, hgone, Nat.add_assoc]
    exact h.cells (n + i) (by omega) k

theorem consumes_remove (m : Mem K β) {q : Queue T} {n : Nat} (v : UInt64)
    : Consumes (m, q) ((exec m (.storeTail v)).1, q.remove n) := by
  refine ⟨rfl, ?_, ?_, rfl⟩
  . unfold Queue.remove
    dsimp only
    rw [List.append_assoc, List.take_append_drop]
  . unfold Queue.remove
    dsimp only
    rw [List.length_append]
    exact Nat.le_add_right _ _

theorem produces_add (m : Mem K β) (q : Queue T) (xs : List T) (v : UInt64)
    : Produces (m, q) ((exec m (.storeHead v)).1, q.add xs) :=
  ⟨rfl, rfl, List.prefix_append _ _, rfl⟩

end Actions

section Rules

variable [DecidableEq K] {cap : Capacity} {lay : Layout T K β}
  {did : (i : Side) → ((op : Op i) × Ret i op) → Did T}

def system (code : (i : Side) → (op : Op i) → Prog (RingAct K β) RingAct.Res (Ret i op))
    : System Side (RingAct K β) RingAct.Res (Mem K β) Ret :=
  ⟨exec, code⟩

variable {code : (i : Side) → (op : Op i) → Prog (RingAct K β) RingAct.Res (Ret i op)}

-- A program between two of its actions, or a call that ends here without a change of the memory.
def Goes (cap : Capacity) (lay : Layout T K β)
    (did : (i : Side) → ((op : Op i) × Ret i op) → Did T)
    (code : (i : Side) → (op : Op i) → Prog (RingAct K β) RingAct.Res (Ret i op)) (i : Side)
    (op : Op i) : Prog (RingAct K β) RingAct.Res (Ret i op) → Mem K β × Queue T → Prop
  | .ret a, γ => ∃ g, Queue.Does cap γ.2 (did i ⟨op, a⟩) g ∧ Agrees cap lay (γ.1, g)
      ∧ ∀ j, j ≠ i → rely j γ (γ.1, g)
  | .ask q k, γ => (protocol cap lay did).Safe (system code) i op (.ask q k) γ

theorem goes_of_safe {i : Side} {op : Op i} {p : Prog (RingAct K β) RingAct.Res (Ret i op)}
    {γ : Mem K β × Queue T} (hp : ended p = none)
    (h : (protocol cap lay did).Safe (system code) i op p γ) : Goes cap lay did code i op p γ := by
  cases p with
  | ret a => cases hp
  | ask q k => exact h

theorem safe_load {i : Side} {op : Op i} {q : RingAct K β} (hq : ∀ m : Mem K β, (exec m q).1 = m)
    {k : q.Res → Prog (RingAct K β) RingAct.Res (Ret i op)} {γ : Mem K β × Queue T}
    (h : ∀ γ', rely i γ γ' → Agrees cap lay γ' →
      Goes cap lay did code i op (k (exec γ'.1 q).2) (γ'.1, γ'.2.observe cap i q))
    : (protocol cap lay did).Safe (system code) i op (.ask q k) γ := by
  intro γ' hrely hinv
  have hgoes := h γ' hrely hinv
  have hmem : ((system code).exec γ'.1 q).1 = γ'.1 := hq γ'.1
  have hres : ((system code).exec γ'.1 q).2 = (exec γ'.1 q).2 := rfl
  rw [hmem, hres]
  cases hp : k (exec γ'.1 q).2 with
  | ret a =>
    rw [hp] at hgoes
    obtain ⟨g, hdoes, hagrees, hothers⟩ := hgoes
    refine ⟨g, hdoes, hagrees, fun j hj => ?_, trivial⟩
    exact (protocol cap lay did).trans j _ _ _ (rely_observe γ' hj q) (hothers j hj)
  | ask q' k' =>
    rw [hp] at hgoes
    exact ⟨_, rfl, hinv.observe i q, fun j hj => rely_observe γ' hj q, hgoes⟩

theorem safe_storeWord {op : Op .producer} {p : Prog (RingAct K β) RingAct.Res (Ret .producer op)}
    {γ : Mem K β × Queue T} {place r i : Nat} (hroom : HasRoom cap γ place r) (hi : i < r) (k : K)
    (b : β) (hp : ended p = none)
    (h : ∀ γ', Consumes γ γ' → Agrees cap lay γ' →
      (protocol cap lay did).Safe (system code) .producer op p
        ((exec γ'.1 (.storeWord (UInt64.ofNat (place + i) &&& cap.mask) k b)).1, γ'.2))
    : (protocol cap lay did).Safe (system code) .producer op
        (.ask (.storeWord (UInt64.ofNat (place + i) &&& cap.mask) k b) fun _ => p) γ := by
  intro γ' hrely hinv
  have hsafe := h γ' hrely hinv
  refine ⟨γ'.2, ?_, hinv.storeWord (hroom.rely hrely) hi k b,
    rely_of_produces ⟨rfl, rfl, List.prefix_rfl, rfl⟩, hsafe⟩
  have hspec : spec cap did γ'.2 ⟨.producer, .storeWord (UInt64.ofNat (place + i) &&& cap.mask) k b,
      ended p⟩ γ'.2 := by
    rw [hp]
    rfl
  exact hspec

theorem safe_publish {op : Op .producer} {a : Ret .producer op} {γ : Mem K β × Queue T}
    {place r : Nat} {xs : List T} {v : UInt64} (hroom : HasRoom cap γ place r)
    (hfilled : Filled cap lay γ.1 place (xs.take r))
    (hv : v = UInt64.ofNat (place + min xs.length r))
    (hdid : did .producer ⟨op, a⟩ = .added xs (min xs.length r))
    : (protocol cap lay did).Safe (system code) .producer op
        (.ask (.storeHead v) fun _ => .ret a) γ := by
  intro γ' hrely hinv
  subst hv
  have hroom' := hroom.rely hrely
  have hfits := hroom'.fits
  have hlen : (xs.take r).length = min xs.length r := by
    rw [List.length_take, Nat.min_comm]
  have hdoes : Queue.Does cap γ'.2 (did .producer ⟨op, a⟩) (γ'.2.add (xs.take r)) := by
    rw [hdid]
    exact .added xs hroom'.room (by omega)
  have hagrees := hinv.publish hroom' (by omega) (hfilled.rely hrely)
  rw [hlen] at hagrees
  exact ⟨_, hdoes, hagrees, rely_of_produces (produces_add γ'.1 γ'.2 _ _), trivial⟩

theorem safe_release {op : Op .consumer} {a : Ret .consumer op} {γ : Mem K β × Queue T}
    {place n : Nat} {ys : List T} {v : UInt64} (hfront : Front γ place ys)
    (hv : v = UInt64.ofNat (place + min n ys.length))
    (hdid : did .consumer ⟨op, a⟩ = .took n (ys.take n))
    : (protocol cap lay did).Safe (system code) .consumer op
        (.ask (.storeTail v) fun _ => .ret a) γ := by
  intro γ' hrely hinv
  subst hv
  have hfront' := hfront.rely hrely
  have hlen := hfront'.front.length_le
  have htake : γ'.2.items.take (min n ys.length) = ys.take n := by
    rw [hfront'.take (Nat.min_le_right _ _), ← List.take_eq_take_min]
  have hdoes : Queue.Does cap γ'.2 (did .consumer ⟨op, a⟩)
      (γ'.2.remove (min n ys.length)) := by
    rw [hdid, ← htake]
    exact .took n hfront'.seen hlen
  exact ⟨_, hdoes, hinv.release hfront'.place (by omega), rely_of_consumes (consumes_remove γ'.1 _),
    trivial⟩

theorem safe_clear {op : Op .consumer} {a : Ret .consumer op} {γ : Mem K β × Queue T}
    {place : Nat} {ys : List T} {v : UInt64} (hfront : Front γ place ys)
    (hv : v = UInt64.ofNat (place + ys.length)) (hdid : did .consumer ⟨op, a⟩ = .cleared v)
    : (protocol cap lay did).Safe (system code) .consumer op
        (.ask (.storeTail v) fun _ => .ret a) γ := by
  intro γ' hrely hinv
  subst hv
  have hfront' := hfront.rely hrely
  have hlen := hfront'.front.length_le
  have hdoes : Queue.Does cap γ'.2 (did .consumer ⟨op, a⟩) (γ'.2.remove ys.length) := by
    rw [hdid, hfront'.place]
    exact .cleared hfront'.seen hlen
  exact ⟨_, hdoes, hinv.release hfront'.place hlen, rely_of_consumes (consumes_remove γ'.1 _),
    trivial⟩

-- A call that finds no room ends without a store, and one that finds nothing.
theorem goes_refused {op : Op .producer} {a : Ret .producer op} {γ : Mem K β × Queue T}
    {place : Nat} {xs : List T} (hinv : Agrees cap lay γ) (hroom : HasRoom cap γ place 0)
    (hdid : did .producer ⟨op, a⟩ = .added xs 0)
    : Goes cap lay did code .producer op (.ret a) γ := by
  have hfits := hroom.fits
  have hsame : γ.2.add [] = ⟨γ.2.gone, γ.2.items, none, γ.2.seen⟩ := by
    rw [Queue.add, List.append_nil]
  have hdoes : Queue.Does cap γ.2 (.added xs (min xs.length 0)) (γ.2.add (xs.take 0)) :=
    .added xs hroom.room (by omega)
  rw [Nat.min_zero, List.take_zero, hsame, ← hdid] at hdoes
  refine ⟨_, hdoes, ⟨hinv.head, hinv.tail, hinv.fill, hinv.cells⟩, ?_⟩
  exact rely_of_produces ⟨rfl, rfl, List.prefix_rfl, rfl⟩

theorem goes_nothing {op : Op .consumer} {a : Ret .consumer op} {γ : Mem K β × Queue T}
    {place n : Nat} (hinv : Agrees cap lay γ) (hfront : Front γ place [])
    (hdid : did .consumer ⟨op, a⟩ = .took n [])
    : Goes cap lay did code .consumer op (.ret a) γ := by
  have hsame : γ.2.remove 0 = ⟨γ.2.gone, γ.2.items, γ.2.room, none⟩ := by
    rw [Queue.remove, List.take_zero, List.append_nil, List.drop_zero]
  have hdoes : Queue.Does cap γ.2 (.took n (γ.2.items.take (min n 0))) (γ.2.remove (min n 0)) :=
    .took n hfront.seen (Nat.zero_le _)
  rw [Nat.min_zero, List.take_zero, hsame, ← hdid] at hdoes
  refine ⟨_, hdoes, ⟨hinv.head, hinv.tail, hinv.fill, hinv.cells⟩, ?_⟩
  exact rely_of_consumes ⟨rfl, rfl, Nat.le_refl _, rfl⟩

end Rules

section Copies

variable {α : Type}

-- An item is copied word by word, in the order of a list of all words.
def storeWords (i : UInt64) (w : K → β) : List K → Prog (RingAct K β) RingAct.Res α
    → Prog (RingAct K β) RingAct.Res α
  | [], p => p
  | k :: ks, p => .ask (.storeWord i k (w k)) fun _ => storeWords i w ks p

def loadWords [DecidableEq K] (i : UInt64) : List K → (K → β)
    → ((K → β) → Prog (RingAct K β) RingAct.Res α) → Prog (RingAct K β) RingAct.Res α
  | [], w, p => p w
  | k :: ks, w, p => .ask (.loadWord i k) fun b => loadWords i ks (Function.update w k b) p

theorem ended_storeWords {i : Side} {op : Op i} (c : UInt64) (w : K → β) (ks : List K)
    {p : Prog (RingAct K β) RingAct.Res (Ret i op)} (hp : ended p = none)
    : ended (storeWords c w ks p) = none := by
  cases ks with
  | nil => exact hp
  | cons k ks => rfl

theorem ended_loadWords [DecidableEq K] {i : Side} {op : Op i} (c : UInt64) (ks : List K)
    (w : K → β) {p : (K → β) → Prog (RingAct K β) RingAct.Res (Ret i op)}
    (hp : ∀ w, ended (p w) = none)
    : ended (loadWords c ks w p) = none := by
  cases ks with
  | nil => exact hp w
  | cons k ks => rfl

variable [DecidableEq K] {cap : Capacity} {lay : Layout T K β}
  {did : (i : Side) → ((op : Op i) × Ret i op) → Did T}
  {code : (i : Side) → (op : Op i) → Prog (RingAct K β) RingAct.Res (Ret i op)}

theorem safe_storeWords {op : Op .producer} {p : Prog (RingAct K β) RingAct.Res (Ret .producer op)}
    {γ : Mem K β × Queue T} {place r : Nat} {xs : List T} {x : T} {c : UInt64} (ks : List K)
    (hroom : HasRoom cap γ place r) (hr : xs.length < r) (hfilled : Filled cap lay γ.1 place xs)
    (hc : c = UInt64.ofNat (place + xs.length))
    (hks : ∀ k, k ∈ ks ∨ γ.1.cell (c &&& cap.mask) k = lay.word x k)
    (hp : ended p = none)
    (h : ∀ γ', HasRoom cap γ' place r → Filled cap lay γ'.1 place (xs ++ [x]) →
      (protocol cap lay did).Safe (system code) .producer op p γ')
    : (protocol cap lay did).Safe (system code) .producer op
        (storeWords (c &&& cap.mask) (lay.word x) ks p) γ := by
  subst hc
  induction ks generalizing γ with
  | nil =>
    apply h γ hroom
    intro i hi k
    rw [List.length_append, List.length_singleton] at hi
    by_cases hlast : i = xs.length
    . subst hlast
      rw [List.getElem_concat_length rfl]
      exact (hks k).resolve_left List.not_mem_nil
    . rw [List.getElem_append_left (by omega)]
      exact hfilled i (by omega) k
  | cons k ks ih =>
    apply safe_storeWord hroom hr k (lay.word x k) (ended_storeWords _ _ ks hp)
    intro γ' hrely hinv
    have hroom' := hroom.rely hrely
    apply ih
    . exact ⟨hroom'.place, hroom'.room, hroom'.fits⟩
    . intro i hi k'
      have hfits := hroom.fits
      have hne := cap.and_mask_ne (m := place + i) (n := place + xs.length) (by omega) (by omega)
      unfold exec
      dsimp only
      rw [if_neg (fun heq => hne heq.1.symm)]
      exact hfilled.rely hrely i hi k'
    . intro k'
      unfold exec
      dsimp only
      by_cases hk : k' = k
      . subst hk
        rw [if_pos ⟨rfl, rfl⟩]
        exact Or.inr rfl
      . rw [if_neg (fun heq => hk heq.2), hrely.cell]
        cases hks k' with
        | inl hmem => exact Or.inl ((List.mem_cons.mp hmem).resolve_left hk)
        | inr hcell => exact Or.inr hcell

theorem safe_loadWords {op : Op .consumer} {γ : Mem K β × Queue T} {place i : Nat} {ys : List T}
    {c : UInt64} (ks : List K) (w : K → β) (hfront : Front γ place ys) (hi : i < ys.length)
    (hc : c = UInt64.ofNat (place + i))
    {p : (K → β) → Prog (RingAct K β) RingAct.Res (Ret .consumer op)}
    (hks : ∀ k, k ∈ ks ∨ w k = lay.word ys[i] k) (hp : ∀ w, ended (p w) = none)
    (h : ∀ γ', Front γ' place ys →
      (protocol cap lay did).Safe (system code) .consumer op (p (lay.word ys[i])) γ')
    : (protocol cap lay did).Safe (system code) .consumer op
        (loadWords (c &&& cap.mask) ks w p) γ := by
  subst hc
  induction ks generalizing γ w with
  | nil =>
    have hw : w = lay.word ys[i] := by
      funext k
      exact (hks k).resolve_left List.not_mem_nil
    rw [loadWords, hw]
    exact h γ hfront
  | cons k ks ih =>
    apply safe_load (fun _ => rfl)
    intro γ' hrely hinv
    have hfront' := hfront.rely hrely
    apply goes_of_safe (ended_loadWords _ ks _ hp)
    apply ih _ hfront'
    intro k'
    change k' ∈ ks ∨ Function.update w k
      (γ'.1.cell (UInt64.ofNat (place + i) &&& cap.mask) k) k' = lay.word ys[i] k'
    by_cases hk : k' = k
    . subst hk
      rw [Function.update_self]
      exact Or.inr (hinv.cell_front hfront' hi k')
    . rw [Function.update_of_ne hk]
      cases hks k' with
      | inl hmem => exact Or.inl ((List.mem_cons.mp hmem).resolve_left hk)
      | inr hword => exact Or.inr hword

end Copies

end SharedRing
