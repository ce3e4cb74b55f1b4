import Harp.Lib.SharedRing

/-!
This module contains what a trace that replays on the bounded queue says of its calls: everything
that was added goes in order, and the result of a call is that of the queue at one action of the
call.
-/

namespace SharedRing

open Threads

variable {T K β : Type} {Op : Side → Type} {Ret : (i : Side) → Op i → Type}

abbrev Trace (K β : Type) {Op : Side → Type} (Ret : (i : Side) → Op i → Type) : Type :=
  List (Event Side (RingAct K β) Ret)

def result (did : (i : Side) → ((op : Op i) × Ret i op) → Did T) (e : Event Side (RingAct K β) Ret)
    : Option (Did T) :=
  e.done.map (did e.who)

def Did.addedItems : Did T → List T
  | .added xs n => xs.take n
  | .took _ _ => []
  | .cleared _ => []

def addedItems (did : (i : Side) → ((op : Op i) × Ret i op) → Did T) (t : Trace K β Ret)
    : List T :=
  t.flatMap fun e => ((result did e).map Did.addedItems).getD []

def Did.takenItems : Did T → List T
  | .added _ _ => []
  | .took _ ys => ys
  | .cleared _ => []

def takenItems (did : (i : Side) → ((op : Op i) × Ret i op) → Did T) (t : Trace K β Ret)
    : List T :=
  t.flatMap fun e => ((result did e).map Did.takenItems).getD []

/--
The queue `q` as it was at the action `a` of the call of side `i` that ends with the last event of
the trace.
-/
def Moment (cap : Capacity) (did : (i : Side) → ((op : Op i) × Ret i op) → Did T) (i : Side)
    (a : RingAct K β) (t : Trace K β Ret) (q : Queue T) : Prop :=
  ∃ before e after, t = before ++ e :: after ∧ e.who = i ∧ e.act = a
    ∧ Replays (spec cap did) Queue.empty before q
    ∧ ∀ e' ∈ (e :: after).dropLast, e'.who = i → e'.done = none

/--
A trace of the bounded queue. Everything that was added has gone or is still there, in order. What a
call adds is as much as there was room for at its look at the other cursor, what it takes is what it
has found there, and a clear lets all that it has found go and nothing else.
-/
structure QueueTrace (cap : Capacity) (did : (i : Side) → ((op : Op i) × Ret i op) → Did T)
    (t : Trace K β Ret) (q : Queue T) : Prop where
  replays : Replays (spec cap did) Queue.empty t q
  fill : q.items.length ≤ cap.size
  all : addedItems did t = q.gone ++ q.items
  added : ∀ before e after xs n, t = before ++ e :: after → result did e = some (.added xs n) →
    ∃ q', Moment cap did .producer .loadTail (before ++ [e]) q'
      ∧ n = min xs.length (cap.size - q'.items.length)
  took : ∀ before e after ys n, t = before ++ e :: after → result did e = some (.took n ys) →
    ∃ q', Moment cap did .consumer .loadHead (before ++ [e]) q' ∧ ys = q'.items.take n
  cleared : ∀ before e after index, t = before ++ e :: after →
    result did e = some (.cleared index) →
    ∃ q' q'', Moment cap did .consumer .loadHead (before ++ [e]) q'
      ∧ Replays (spec cap did) Queue.empty (before ++ [e]) q''
      ∧ q''.gone = q'.gone ++ q'.items ∧ index = UInt64.ofNat q''.gone.length

-- The producer adds, the consumer takes and clears.
structure Sided (did : (i : Side) → ((op : Op i) × Ret i op) → Did T) : Prop where
  producer : ∀ d, ∃ xs n, did .producer d = .added xs n
  consumer : ∀ d xs n, did .consumer d ≠ .added xs n

-- The same of a call that has not ended.
def Since (cap : Capacity) (did : (i : Side) → ((op : Op i) × Ret i op) → Did T) (i : Side)
    (a : RingAct K β) (t : Trace K β Ret) (q : Queue T) : Prop :=
  ∃ before e after, t = before ++ e :: after ∧ e.who = i ∧ e.act = a
    ∧ Replays (spec cap did) Queue.empty before q ∧ ∀ e' ∈ e :: after, e'.who = i → e'.done = none

section Since

variable {cap : Capacity} {did : (i : Side) → ((op : Op i) × Ret i op) → Did T} {i : Side}
  {a : RingAct K β} {t : Trace K β Ret} {q : Queue T}

theorem Since.concat (h : Since cap did i a t q) {e : Event Side (RingAct K β) Ret}
    (he : e.who = i → e.done = none) : Since cap did i a (t ++ [e]) q := by
  obtain ⟨before, e₀, after, rfl, hwho, hact, hreplays, hdone⟩ := h
  refine ⟨before, e₀, after ++ [e], by rw [List.append_assoc, List.cons_append], hwho, hact,
    hreplays, fun e' he' => ?_⟩
  rw [← List.cons_append, List.mem_append, List.mem_singleton] at he'
  cases he' with
  | inl hmem => exact hdone e' hmem
  | inr heq =>
    rw [heq]
    exact he

theorem Since.moment (h : Since cap did i a t q) (e : Event Side (RingAct K β) Ret)
    : Moment cap did i a (t ++ [e]) q := by
  obtain ⟨before, e₀, after, rfl, hwho, hact, hreplays, hdone⟩ := h
  refine ⟨before, e₀, after ++ [e], by rw [List.append_assoc, List.cons_append], hwho, hact,
    hreplays, fun e' he' => ?_⟩
  rw [← List.cons_append, List.dropLast_concat] at he'
  exact hdone e' he'

-- At the last event itself.
theorem moment_concat (h : Replays (spec cap did) Queue.empty t q)
    {e : Event Side (RingAct K β) Ret}
    (hwho : e.who = i) (hact : e.act = a) : Moment cap did i a (t ++ [e]) q :=
  ⟨t, e, [], rfl, hwho, hact, h, fun _ he' => absurd he' List.not_mem_nil⟩

theorem since_concat (h : Replays (spec cap did) Queue.empty t q) {e : Event Side (RingAct K β) Ret}
    (hwho : e.who = i) (hact : e.act = a) (hdone : e.done = none)
    : Since cap did i a (t ++ [e]) q := by
  refine ⟨t, e, [], rfl, hwho, hact, h, fun e' he' _ => ?_⟩
  rw [List.mem_singleton.mp he']
  exact hdone

end Since

section Replayed

variable {cap : Capacity} {did : (i : Side) → ((op : Op i) × Ret i op) → Did T}
  {t : Trace K β Ret} {g g' : Queue T}

theorem observe_gone (g : Queue T) (i : Side) (a : RingAct K β)
    : (g.observe cap i a).gone = g.gone := by
  unfold Queue.observe
  split <;> rfl

theorem observe_items (g : Queue T) (i : Side) (a : RingAct K β)
    : (g.observe cap i a).items = g.items := by
  unfold Queue.observe
  split <;> rfl

theorem observe_room {i : Side} {a : RingAct K β} {r : Nat} (h : (g.observe cap i a).room = some r)
    : i = .producer ∧ a = .loadTail ∧ r = cap.size - g.items.length ∨ g.room = some r := by
  unfold Queue.observe at h
  split at h
  next =>
    cases h
    exact Or.inl ⟨rfl, rfl, rfl⟩
  next => exact Or.inr h
  next => exact Or.inr h

theorem observe_seen {i : Side} {a : RingAct K β} {s : Nat} (h : (g.observe cap i a).seen = some s)
    : i = .consumer ∧ a = .loadHead ∧ s = g.items.length ∨ g.seen = some s := by
  unfold Queue.observe at h
  split at h
  next => exact Or.inr h
  next =>
    cases h
    exact Or.inl ⟨rfl, rfl, rfl⟩
  next => exact Or.inr h

-- The consumer's calls leave what the producer has found, and the other way round.
theorem Sided.does (hside : Sided did) {i : Side} {d : (op : Op i) × Ret i op}
    (h : Queue.Does cap g (did i d) g')
    : i = .producer ∧ g'.room = none ∧ g'.seen = g.seen ∧ g'.gone = g.gone ∧ g.items <+: g'.items
        ∨ i = .consumer ∧ g'.seen = none ∧ g'.room = g.room := by
  cases i with
  | producer =>
    obtain ⟨xs, n, hdid⟩ := hside.producer d
    rw [hdid] at h
    cases h
    exact Or.inl ⟨rfl, rfl, rfl, rfl, List.prefix_append _ _⟩
  | consumer =>
    apply Or.inr
    generalize hdid : did .consumer d = x at h
    cases h with
    | added xs hroom hfit => exact absurd hdid (hside.consumer d _ _)
    | took n hseen hs => exact ⟨rfl, rfl, rfl⟩
    | cleared hseen hs => exact ⟨rfl, rfl, rfl⟩

theorem room_since (hside : Sided did) (h : Replays (spec cap did) Queue.empty t g) {r : Nat}
    (hroom : g.room = some r)
    : ∃ q, Since cap did .producer .loadTail t q ∧ r = cap.size - q.items.length := by
  induction h with
  | start => cases hroom
  | @step t e g g' h hstep ih =>
    unfold spec at hstep
    split at hstep
    next hdone =>
      subst hstep
      cases observe_room hroom with
      | inl hlook =>
        obtain ⟨hwho, hact, hr⟩ := hlook
        exact ⟨g, since_concat h hwho hact hdone, hr⟩
      | inr hold =>
        obtain ⟨q, hsince, hr⟩ := ih hold
        exact ⟨q, hsince.concat (fun _ => hdone), hr⟩
    next d hdone =>
      cases hside.does hstep with
      | inl hadd =>
        rw [hadd.2.1] at hroom
        cases hroom
      | inr htake =>
        obtain ⟨hwho, _, hkept⟩ := htake
        rw [hkept] at hroom
        cases observe_room hroom with
        | inl hlook => cases hwho.symm.trans hlook.1
        | inr hold =>
          obtain ⟨q, hsince, hr⟩ := ih hold
          exact ⟨q, hsince.concat (fun hp => nomatch hwho.symm.trans hp), hr⟩

theorem seen_since (hside : Sided did) (h : Replays (spec cap did) Queue.empty t g) {s : Nat}
    (hseen : g.seen = some s)
    : ∃ q, Since cap did .consumer .loadHead t q ∧ s = q.items.length ∧ g.gone = q.gone
        ∧ q.items <+: g.items := by
  induction h with
  | start => cases hseen
  | @step t e g g' h hstep ih =>
    unfold spec at hstep
    split at hstep
    next hdone =>
      subst hstep
      rw [observe_gone, observe_items]
      cases observe_seen hseen with
      | inl hlook =>
        obtain ⟨hwho, hact, hs⟩ := hlook
        exact ⟨g, since_concat h hwho hact hdone, hs, rfl, List.prefix_rfl⟩
      | inr hold =>
        obtain ⟨q, hsince, hs, hgone, hitems⟩ := ih hold
        exact ⟨q, hsince.concat (fun _ => hdone), hs, hgone, hitems⟩
    next d hdone =>
      cases hside.does hstep with
      | inl hadd =>
        obtain ⟨hwho, _, hkept, hgone, hitems⟩ := hadd
        rw [hkept] at hseen
        rw [observe_gone] at hgone
        rw [observe_items] at hitems
        cases observe_seen hseen with
        | inl hlook => cases hwho.symm.trans hlook.1
        | inr hold =>
          obtain ⟨q, hsince, hs, hgone', hitems'⟩ := ih hold
          exact ⟨q, hsince.concat (fun hp => nomatch hwho.symm.trans hp), hs, hgone.trans hgone',
            hitems'.trans hitems⟩
      | inr htake =>
        rw [htake.2.1] at hseen
        cases hseen

theorem addedItems_concat (did : (i : Side) → ((op : Op i) × Ret i op) → Did T) (t : Trace K β Ret)
    (e : Event Side (RingAct K β) Ret)
    : addedItems did (t ++ [e])
        = addedItems did t ++ ((result did e).map Did.addedItems).getD [] := by
  rw [addedItems, List.flatMap_append, List.flatMap_singleton]
  rfl

theorem all_of_does {d : Did T} (h : Queue.Does cap g d g')
    : g'.gone ++ g'.items = g.gone ++ g.items ++ d.addedItems := by
  cases h with
  | @added xs r hroom hfit =>
    have htake : xs.take (min xs.length r) = xs.take r := by
      rw [Nat.min_comm, ← List.take_eq_take_min]
    rw [Did.addedItems, htake, List.append_assoc]
    rfl
  | took n hseen hs =>
    unfold Queue.remove Did.addedItems
    dsimp only
    rw [List.append_assoc, List.take_append_drop, List.append_nil]
  | cleared hseen hs =>
    unfold Queue.remove Did.addedItems
    dsimp only
    rw [List.append_assoc, List.take_append_drop, List.append_nil]

theorem fill_of_does {d : Did T} (h : Queue.Does cap g d g') (hfill : g.items.length ≤ cap.size)
    : g'.items.length ≤ cap.size := by
  cases h with
  | @added xs r hroom hfit =>
    unfold Queue.add
    dsimp only
    rw [List.length_append, List.length_take, Nat.min_comm]
    exact hfit
  | took n hseen hs => exact Nat.le_trans (List.drop_sublist _ _).length_le hfill
  | cleared hseen hs => exact Nat.le_trans (List.drop_sublist _ _).length_le hfill

theorem replays_all (h : Replays (spec cap did) Queue.empty t g)
    : addedItems did t = g.gone ++ g.items ∧ g.items.length ≤ cap.size := by
  induction h with
  | start => exact ⟨rfl, Nat.zero_le _⟩
  | @step t e g g' h hstep ih =>
    rw [addedItems_concat, ih.1, result]
    unfold spec at hstep
    split at hstep
    next hdone =>
      subst hstep
      rw [observe_gone, observe_items, hdone]
      exact ⟨List.append_nil _, ih.2⟩
    next d hdone =>
      have hall := all_of_does hstep
      have hfill := fill_of_does hstep
      rw [observe_gone, observe_items] at hall
      rw [observe_items] at hfill
      rw [hdone, hall]
      exact ⟨rfl, hfill ih.2⟩

-- Where nothing is cleared, what has gone was handed out.
theorem takenItems_of_replays (hdid : ∀ i d index, did i d ≠ .cleared index)
    (h : Replays (spec cap did) Queue.empty t g) : takenItems did t = g.gone := by
  induction h with
  | start => rfl
  | @step t e g g' h hstep ih =>
    have hsplit : takenItems did (t ++ [e])
        = takenItems did t ++ ((result did e).map Did.takenItems).getD [] := by
      rw [takenItems, List.flatMap_append, List.flatMap_singleton]
      rfl
    rw [hsplit, ih, result]
    unfold spec at hstep
    split at hstep
    next hdone =>
      subst hstep
      rw [observe_gone, hdone]
      exact List.append_nil _
    next d hdone =>
      rw [hdone, Option.map_some, Option.map_some, Option.getD_some]
      generalize hx : did e.who d = x at hstep ⊢
      cases hstep with
      | added xs hroom hfit =>
        rw [Did.takenItems, List.append_nil, Queue.add, observe_gone]
      | took n hseen hs =>
        rw [Did.takenItems, Queue.remove, observe_gone]
      | cleared hseen hs => exact absurd hx (hdid _ _ _)

theorem replays_at {before after : Trace K β Ret} {e : Event Side (RingAct K β) Ret}
    (h : Replays (spec cap did) Queue.empty (before ++ e :: after) g) {x : Did T}
    (hx : result did e = some x)
    : ∃ q q', Replays (spec cap did) Queue.empty before q
        ∧ Replays (spec cap did) Queue.empty (before ++ [e]) q'
        ∧ Queue.Does cap (q.observe cap e.who e.act) x q' := by
  rw [List.append_cons] at h
  obtain ⟨q', hq'⟩ := h.of_append
  obtain ⟨q, hq, hstep⟩ := hq'.of_concat
  refine ⟨q, q', hq, hq', ?_⟩
  unfold spec at hstep
  rw [result] at hx
  split at hstep
  next hdone =>
    rw [hdone] at hx
    cases hx
  next d hdone =>
    rw [hdone] at hx
    cases hx
    exact hstep

-- What a call has found is still in front when it ends.
theorem found_of_seen (hside : Sided did) (h : Replays (spec cap did) Queue.empty t g)
    {e : Event Side (RingAct K β) Ret} {s : Nat}
    (hseen : (g.observe cap e.who e.act).seen = some s)
    : ∃ q, Moment cap did .consumer .loadHead (t ++ [e]) q ∧ g.gone = q.gone
        ∧ g.items.take s = q.items := by
  cases observe_seen hseen with
  | inl hlook =>
    obtain ⟨hwho, hact, hs⟩ := hlook
    exact ⟨g, moment_concat h hwho hact, rfl, by rw [hs, List.take_length]⟩
  | inr hold =>
    obtain ⟨q, hsince, hs, hgone, hitems⟩ := seen_since hside h hold
    exact ⟨q, hsince.moment e, hgone, by rw [hs, ← List.prefix_iff_eq_take.mp hitems]⟩

theorem queueTrace_of_replays (hside : Sided did) (h : Replays (spec cap did) Queue.empty t g)
    : QueueTrace cap did t g := by
  refine ⟨h, (replays_all h).2, (replays_all h).1, ?_, ?_, ?_⟩
  . rintro before e after xs n rfl hresult
    obtain ⟨q, q', hq, hq', hdoes⟩ := replays_at h hresult
    cases hdoes with
    | added xs hroom hfit =>
      cases observe_room hroom with
      | inl hlook =>
        obtain ⟨hwho, hact, hr⟩ := hlook
        exact ⟨q, moment_concat hq hwho hact, by rw [hr]⟩
      | inr hold =>
        obtain ⟨q₀, hsince, hr⟩ := room_since hside hq hold
        exact ⟨q₀, hsince.moment e, by rw [hr]⟩
  . rintro before e after ys n rfl hresult
    obtain ⟨q, q', hq, hq', hdoes⟩ := replays_at h hresult
    cases hdoes with
    | took n hseen hs =>
      rw [observe_items]
      obtain ⟨q₀, hmoment, _, hfound⟩ := found_of_seen hside hq hseen
      rw [← List.take_take, hfound]
      exact ⟨q₀, hmoment, rfl⟩
  . rintro before e after index rfl hresult
    obtain ⟨q, q', hq, hq', hdoes⟩ := replays_at h hresult
    cases hdoes with
    | cleared hseen hs =>
      obtain ⟨q₀, hmoment, hgone, hfound⟩ := found_of_seen hside hq hseen
      refine ⟨q₀, _, hmoment, hq', ?_, ?_⟩
      . unfold Queue.remove
        dsimp only
        rw [observe_gone, observe_items, hgone, hfound]
      . unfold Queue.remove
        dsimp only
        rw [List.length_append, List.length_take, Nat.min_eq_left hs]

end Replayed

end SharedRing
