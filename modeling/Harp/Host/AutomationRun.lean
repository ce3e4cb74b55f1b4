import Harp.Host.Automation

/-!
This module contains what the automation has told the device over whole runs: the value that a
parameter is left with once it is quiet, and where its ramps start and end.
-/

namespace Harp

open Ieee Runs

variable {n : Nat}

inductive AutoAct (n : Nat) where
  | runtime (rt : AutoRt)
  | beginBlock (base : UInt64)
  | point (i : Fin n) (v : F32) (ts : UInt64)

/--
The automation with the last point of each parameter, the position of its last point that was emitted
or flushed in the session, whether it has been quiet for 256 samples since its last point, and whether
that point was lost: to the hold, or with its fold to a new session.
-/
structure Watched (n : Nat) where
  s : AutoShell n
  rt : AutoRt
  last : Fin n → Option (F32 × UInt64)
  emitted : Fin n → Option UInt64
  quiet : Fin n → Bool
  lost : Fin n → Bool

namespace Watched

def start (pa : ParamAutomation n) (rt : AutoRt) : Watched n :=
  ⟨⟨pa, [], 0⟩, rt, fun _ => none, fun _ => none, fun _ => false, fun _ => false⟩

def adopt (w : Watched n) : Watched n :=
  let renewed := w.rt.sessionGen ≠ w.s.pa.gen
  { w with
    s := w.s.adopt w.rt,
    emitted := if renewed then fun _ => none else w.emitted,
    lost := if renewed then fun i => w.lost i || w.s.pa.pendHas i else w.lost }

def reconnect (w : Watched n) : Watched n :=
  { w with s := w.s.reconnect w.rt }

def flush (base : UInt64) (w : Watched n) (i : Fin n) : Watched n :=
  let due := w.s.pa.due base i
  { w with
    s := w.s.flush w.rt base i,
    emitted := if due then Function.update w.emitted i (some (w.s.pa.pendTs i)) else w.emitted,
    lost := if due then Function.update w.lost i w.rt.held else w.lost }

-- The block is 256 samples behind the last point or more, on a device that takes writes.
def rests (w : Watched n) (base : UInt64) (i : Fin n) : Bool :=
  match w.last i with
  | none => false
  | some (_, ts) => ts.toNat + 256 ≤ base.toNat ∧ w.rt.connected ∧ ¬ w.rt.held

def beginBlock (base : UInt64) (w : Watched n) : Watched n :=
  let w := (List.finRange n).foldl (flush base) w.adopt.reconnect
  { w with quiet := fun i => w.quiet i || w.rests base i }

def point (i : Fin n) (v : F32) (ts : UInt64) (w : Watched n) : Watched n :=
  let folds := w.s.pa.folds i ts
  { w with
    s := w.s.point w.rt i v ts,
    last := Function.update w.last i (some (v, ts)),
    emitted := if folds then w.emitted else Function.update w.emitted i (some ts),
    quiet := Function.update w.quiet i false,
    lost := Function.update w.lost i (if folds then false else w.rt.held) }

def next (w : Watched n) : AutoAct n → Watched n
  | .runtime rt => { w with rt }
  | .beginBlock base => w.beginBlock base
  | .point i v ts => w.point i v ts

-- A ramp from the parameter's last point in the session to the point that is made.
structure Joins (w : Watched n) (i : Fin n) (v : F32) (ts : UInt64) (ev : TimedEv) : Prop where
  param : ev.a = w.s.pa.ids i ∧ ev.v = v
  joins : ∃ prev, w.emitted i = some prev ∧ prev < ts ∧ ev.ts = w.rt.clampTs prev
    ∧ ev.end_ = if ts < ev.ts then ev.ts else ts

-- What the operation queues.
def Queues (w : Watched n) (a : AutoAct n) : Prop :=
  ∃ new, (w.next a).s.queued = w.s.queued ++ new ∧ ∀ ev ∈ new, ev.kind = .ramp →
    ∃ i v ts, a = .point i v ts ∧ w.Joins i v ts ev

end Watched

structure AutomationLaw (w : Watched n) : Prop where
  converges : ∀ i v ts, w.last i = some (v, ts) → w.quiet i = true → w.lost i = false →
    w.s.lastValue i = some v
  ramps : ∀ a, w.Queues a

section Writes

variable {rt : AutoRt} {s s' s'' : AutoShell n} {i j : Fin n} {v : F32}

-- The last event of the slot `j` becomes a write of the value, where the hold lets it pass.
structure AutoWritten (rt : AutoRt) (j : Fin n) (v : F32) (s s' : AutoShell n) : Prop where
  pa : s'.pa = s.pa
  self : s'.lastValue j = if rt.held then s.lastValue j else some v
  other : ∀ i, i ≠ j → s'.lastValue i = s.lastValue i

theorem AutoShell.lastValue_push {ev : TimedEv} (h : ev.a = s.pa.ids j) (i : Fin n)
    : AutoShell.lastValue { s with queued := s.queued ++ [ev] } i
        = if i = j then some ev.v else s.lastValue i := by
  unfold AutoShell.lastValue
  dsimp only
  rw [List.filter_append]
  split
  next heq =>
    rw [heq, List.filter_cons_of_pos (by simpa using h), List.filter_nil, List.getLast?_concat]
    rfl
  next hne =>
    have hid : ev.a ≠ s.pa.ids i := by
      rw [h]
      exact fun heq => hne (s.pa.ids_inj heq).symm
    rw [List.filter_cons_of_neg (by simpa using hid), List.filter_nil, List.append_nil]

theorem AutoWritten.of_push {ev : TimedEv} (hheld : rt.held = false) (h : ev.a = s.pa.ids j)
    (hv : ev.v = v) : AutoWritten rt j v s { s with queued := s.queued ++ [ev] } := by
  constructor
  . rfl
  . rw [AutoShell.lastValue_push h, if_pos rfl, hv, hheld]
    rfl
  . intro i hi
    rw [AutoShell.lastValue_push h, if_neg hi]

theorem AutoWritten.of_held (hheld : rt.held = true)
    : AutoWritten rt j v s { s with roWrDrops := s.roWrDrops + 1 } := by
  constructor
  . rfl
  . rw [hheld]
    rfl
  . intro i hi
    rfl

theorem AutoWritten.queueParamSet (ts : UInt64)
    : AutoWritten rt j v s (s.queueParamSet rt (s.pa.ids j) v ts) := by
  unfold AutoShell.queueParamSet
  split
  next h => exact AutoWritten.of_held h
  next h => exact AutoWritten.of_push (by simpa using h) rfl rfl

theorem AutoWritten.queueRamp (start end_ : UInt64)
    : AutoWritten rt j v s (s.queueRamp rt (s.pa.ids j) v start end_) := by
  unfold AutoShell.queueRamp
  split
  next h => exact AutoWritten.of_held h
  next h => exact AutoWritten.of_push (by simpa using h) rfl rfl

-- Only sets are queued.
def AutoSets (s s' : AutoShell n) : Prop :=
  ∃ new, s'.queued = s.queued ++ new ∧ ∀ ev ∈ new, ev.kind = .param

theorem AutoSets.of_eq (h : s'.queued = s.queued) : AutoSets s s' :=
  ⟨[], by simp [h], by simp⟩

theorem AutoSets.trans (h : AutoSets s s') (h' : AutoSets s' s'') : AutoSets s s'' := by
  rcases h with ⟨new, hnew, hall⟩
  rcases h' with ⟨new', hnew', hall'⟩
  refine ⟨new ++ new', by rw [hnew', hnew, List.append_assoc], ?_⟩
  intro ev hev
  rw [List.mem_append] at hev
  cases hev with
  | inl hev => exact hall ev hev
  | inr hev => exact hall' ev hev

theorem AutoSets.queueParamSet (id : UInt32) (v : F32) (ts : UInt64)
    : AutoSets s (s.queueParamSet rt id v ts) := by
  unfold AutoShell.queueParamSet
  split
  . exact AutoSets.of_eq rfl
  . exact ⟨_, rfl, by simp⟩

theorem AutoSets.foldl {f : AutoShell n → Fin n → AutoShell n} (hf : ∀ s i, AutoSets s (f s i))
    (is : List (Fin n)) (s : AutoShell n) : AutoSets s (is.foldl f s) := by
  induction is generalizing s with
  | nil => exact AutoSets.of_eq rfl
  | cons i is ih => exact (hf s i).trans (ih (f s i))

theorem AutoSets.adopt (rt : AutoRt) (s : AutoShell n) : AutoSets s (s.adopt rt) := by
  unfold AutoShell.adopt
  split
  . exact AutoSets.of_eq rfl
  . exact AutoSets.of_eq rfl

theorem AutoSets.replay (rt : AutoRt) (s : AutoShell n) (i : Fin n) : AutoSets s (s.replay rt i) := by
  unfold AutoShell.replay
  split
  . exact (AutoSets.queueParamSet _ _ _).trans (AutoSets.of_eq rfl)
  . exact AutoSets.of_eq rfl

theorem AutoSets.reconnect (rt : AutoRt) (s : AutoShell n) : AutoSets s (s.reconnect rt) := by
  unfold AutoShell.reconnect
  dsimp only
  split
  . split
    . apply AutoSets.trans _ (AutoSets.of_eq rfl)
      apply AutoSets.trans _ (AutoSets.foldl (AutoSets.replay rt) (List.finRange n) _)
      exact AutoSets.of_eq rfl
    . exact AutoSets.of_eq rfl
  . exact AutoSets.of_eq rfl

theorem AutoSets.flush (rt : AutoRt) (base : UInt64) (s : AutoShell n) (i : Fin n)
    : AutoSets s (s.flush rt base i) := by
  unfold AutoShell.flush
  split
  . exact (AutoSets.queueParamSet _ _ _).trans (AutoSets.of_eq rfl)
  . exact AutoSets.of_eq rfl

end Writes

section Replays

variable {rt : AutoRt} {s s' s'' : AutoShell n}

-- The points are as they were, and what is queued are current values.
structure AutoReplayed (s s' : AutoShell n) : Prop where
  curVal : s'.pa.curVal = s.pa.curVal
  lastTs : s'.pa.lastTs = s.pa.lastTs
  pendTs : s'.pa.pendTs = s.pa.pendTs
  pendVal : s'.pa.pendVal = s.pa.pendVal
  hasLast : s'.pa.hasLast = s.pa.hasLast
  pendHas : s'.pa.pendHas = s.pa.pendHas
  value : ∀ i, s'.lastValue i = s.lastValue i ∨ s'.lastValue i = some (s.pa.curVal i)

theorem AutoReplayed.refl (s : AutoShell n) : AutoReplayed s s :=
  ⟨rfl, rfl, rfl, rfl, rfl, rfl, fun _ => .inl rfl⟩

theorem AutoReplayed.trans (h : AutoReplayed s s') (h' : AutoReplayed s' s'') : AutoReplayed s s'' where
  curVal := h'.curVal.trans h.curVal
  lastTs := h'.lastTs.trans h.lastTs
  pendTs := h'.pendTs.trans h.pendTs
  pendVal := h'.pendVal.trans h.pendVal
  hasLast := h'.hasLast.trans h.hasLast
  pendHas := h'.pendHas.trans h.pendHas
  value i := by
    cases h'.value i with
    | inl hsame =>
      rw [hsame]
      exact h.value i
    | inr hcur =>
      rw [hcur, h.curVal]
      exact .inr rfl

theorem AutoReplayed.replay (rt : AutoRt) (s : AutoShell n) (i : Fin n)
    : AutoReplayed s (s.replay rt i) := by
  have hwritten : AutoWritten rt i (s.pa.curVal i) s (s.queueParamSet rt (s.pa.ids i) (s.pa.curVal i) 0) :=
    AutoWritten.queueParamSet 0
  unfold AutoShell.replay
  split
  next =>
    dsimp only
    generalize s.queueParamSet rt (s.pa.ids i) (s.pa.curVal i) 0 = s' at hwritten
    have hvalue : ∀ j, AutoShell.lastValue { s' with
        pa := { s'.pa with dirtyOffline := Function.update s'.pa.dirtyOffline i false } } j
          = s'.lastValue j := fun _ => rfl
    refine ⟨?_, ?_, ?_, ?_, ?_, ?_, ?_⟩
    case refine_7 =>
      intro j
      rw [hvalue]
      by_cases hj : j = i
      . rw [hj, hwritten.self]
        split
        . exact .inl rfl
        . exact .inr rfl
      . exact .inl (hwritten.other j hj)
    all_goals
      dsimp only
      rw [hwritten.pa]
  next => exact AutoReplayed.refl s

theorem AutoReplayed.foldl {f : AutoShell n → Fin n → AutoShell n} (hf : ∀ s i, AutoReplayed s (f s i))
    (is : List (Fin n)) (s : AutoShell n) : AutoReplayed s (is.foldl f s) := by
  induction is generalizing s with
  | nil => exact AutoReplayed.refl s
  | cons i is ih => exact (hf s i).trans (ih (f s i))

theorem AutoReplayed.reconnect (rt : AutoRt) (s : AutoShell n) : AutoReplayed s (s.reconnect rt) := by
  have hsame : ∀ (s : AutoShell n) connected wasConnected everConnected,
      AutoReplayed s { s with pa := { s.pa with connected, wasConnected, everConnected } } :=
    fun _ _ _ _ => ⟨rfl, rfl, rfl, rfl, rfl, rfl, fun _ => .inl rfl⟩
  unfold AutoShell.reconnect
  dsimp only
  split
  . split
    . have hfold := AutoReplayed.foldl (AutoReplayed.replay rt) (List.finRange n)
        { s with pa := { s.pa with connected := rt.connected } }
      generalize (List.finRange n).foldl (AutoShell.replay rt) _ = s' at hfold ⊢
      exact (hsame s _ _ _).trans (hfold.trans (hsame s' _ _ _))
    . exact hsame s _ _ _
  . exact hsame s _ _ _

end Replays

section Inv

variable {w w' : Watched n} {base : UInt64} {i j : Fin n}

structure AutoSlotInv (w : Watched n) (i : Fin n) : Prop where
  pend : w.s.pa.pendHas i = true →
    w.s.pa.hasLast i = true ∧ w.last i = some (w.s.pa.pendVal i, w.s.pa.pendTs i)
  cur : ∀ v ts, w.last i = some (v, ts) → w.s.pa.curVal i = v
  settled : ∀ v ts, w.last i = some (v, ts) → w.s.pa.pendHas i = false → w.lost i = false →
    w.s.lastValue i = some v
  quiet : w.quiet i = true → w.s.pa.pendHas i = false
  emitted : w.emitted i = if w.s.pa.hasLast i then some (w.s.pa.lastTs i) else none

theorem AutoSlotInv.start (pa : ParamAutomation n) (rt : AutoRt) (i : Fin n)
    (hlast : pa.hasLast i = false) (hpend : pa.pendHas i = false)
    : AutoSlotInv (Watched.start pa rt) i := by
  constructor
  . intro h
    have hpend' : (Watched.start pa rt).s.pa.pendHas i = pa.pendHas i := rfl
    rw [hpend', hpend] at h
    contradiction
  . intro v ts h
    contradiction
  . intro v ts h
    contradiction
  . intro h
    contradiction
  . show none = if pa.hasLast i then _ else none
    rw [hlast]
    rfl

theorem Watched.adopt_of_eq (h : w.rt.sessionGen = w.s.pa.gen) : w.adopt = w := by
  unfold Watched.adopt AutoShell.adopt
  dsimp only
  simp only [h, ne_eq, not_true_eq_false, if_false]

theorem Watched.adopt_of_ne (h : w.rt.sessionGen ≠ w.s.pa.gen)
    : w.adopt = { w with
        s := { w.s with pa := { w.s.pa with
          gen := w.rt.sessionGen,
          hasLast := fun _ => false,
          pendHas := fun _ => false } },
        emitted := fun _ => none,
        lost := fun i => w.lost i || w.s.pa.pendHas i } := by
  unfold Watched.adopt AutoShell.adopt
  dsimp only
  rw [if_pos h, if_pos h, if_pos h]

theorem AutoSlotInv.adopt (h : AutoSlotInv w i) : AutoSlotInv w.adopt i := by
  by_cases hgen : w.rt.sessionGen = w.s.pa.gen
  . rw [Watched.adopt_of_eq hgen]
    exact h
  . rw [Watched.adopt_of_ne hgen]
    constructor
    . intro hpend
      contradiction
    . exact h.cur
    . intro v ts hlast _ hlost
      simp only [Bool.or_eq_false_iff] at hlost
      exact h.settled v ts hlast hlost.2 hlost.1
    . intro _
      rfl
    . rfl

-- Replays queue the values of the last points.
theorem AutoSlotInv.replayed (h : AutoSlotInv w i) {s : AutoShell n} (hs : AutoReplayed w.s s)
    : AutoSlotInv { w with s } i := by
  constructor
  . intro hpend
    dsimp only at hpend ⊢
    rw [hs.pendHas] at hpend
    rw [hs.hasLast, hs.pendVal, hs.pendTs]
    exact h.pend hpend
  . dsimp only
    rw [hs.curVal]
    exact h.cur
  . intro v ts hlast hpend hlost
    dsimp only at hpend ⊢
    rw [hs.pendHas] at hpend
    cases hs.value i with
    | inl hsame =>
      rw [hsame]
      exact h.settled v ts hlast hpend hlost
    | inr hcur => rw [hcur, h.cur v ts hlast]
  . dsimp only
    rw [hs.pendHas]
    exact h.quiet
  . dsimp only
    rw [hs.hasLast, hs.lastTs]
    exact h.emitted

theorem Watched.flush_of_due (hdue : w.s.pa.due base i = true)
    : w.flush base i = { w with
        s := w.s.flush w.rt base i,
        emitted := Function.update w.emitted i (some (w.s.pa.pendTs i)),
        lost := Function.update w.lost i w.rt.held } := by
  unfold Watched.flush
  dsimp only
  rw [if_pos hdue, if_pos hdue]

theorem Watched.flush_of_not (hdue : w.s.pa.due base i = false) : w.flush base i = w := by
  unfold Watched.flush AutoShell.flush
  dsimp only
  simp only [hdue, Bool.false_eq_true, if_false]

-- What a flush leaves of the automation.
structure AutoFlushed (rt : AutoRt) (i : Fin n) (s s' : AutoShell n) : Prop where
  curVal : s'.pa.curVal = s.pa.curVal
  pendTs : s'.pa.pendTs = s.pa.pendTs
  pendVal : s'.pa.pendVal = s.pa.pendVal
  hasLast : s'.pa.hasLast = s.pa.hasLast
  lastTs : s'.pa.lastTs = Function.update s.pa.lastTs i (s.pa.pendTs i)
  pendHas : s'.pa.pendHas = Function.update s.pa.pendHas i false
  self : s'.lastValue i = if rt.held then s.lastValue i else some (s.pa.pendVal i)
  other : ∀ j, j ≠ i → s'.lastValue j = s.lastValue j

theorem AutoFlushed.of_due (rt : AutoRt) {s : AutoShell n} (hdue : s.pa.due base i = true)
    : AutoFlushed rt i s (s.flush rt base i) := by
  have hwritten : AutoWritten rt i (s.pa.pendVal i) s
      (s.queueParamSet rt (s.pa.ids i) (s.pa.pendVal i) 0) := AutoWritten.queueParamSet 0
  unfold AutoShell.flush
  rw [if_pos hdue]
  dsimp only
  generalize s.queueParamSet rt (s.pa.ids i) (s.pa.pendVal i) 0 = s' at hwritten
  refine ⟨?_, ?_, ?_, ?_, ?_, ?_, hwritten.self, hwritten.other⟩
  all_goals
    dsimp only
    rw [hwritten.pa]

theorem AutoSlotInv.flush (h : AutoSlotInv w i) (j : Fin n) : AutoSlotInv (w.flush base j) i := by
  cases hdue : w.s.pa.due base j with
  | false =>
    rw [Watched.flush_of_not hdue]
    exact h
  | true =>
    have hs := AutoFlushed.of_due w.rt hdue
    rw [Watched.flush_of_due hdue]
    generalize w.s.flush w.rt base j = s at hs
    by_cases hij : i = j
    . subst hij
      have hpend : w.s.pa.pendHas i = true := by
        unfold ParamAutomation.due at hdue
        rw [decide_eq_true_eq] at hdue
        exact hdue.1
      have hlast := h.pend hpend
      constructor
      . dsimp only
        rw [hs.pendHas, Function.update_self]
        intro hfalse
        contradiction
      . dsimp only
        rw [hs.curVal]
        exact h.cur
      . intro v ts hlast' _ hlost
        dsimp only at hlast' hlost ⊢
        rw [Function.update_self] at hlost
        rw [hlast.2] at hlast'
        cases hlast'
        rw [hs.self, hlost]
        rfl
      . dsimp only
        rw [hs.pendHas, Function.update_self]
        exact fun _ => rfl
      . dsimp only
        rw [hs.hasLast, hs.lastTs, hlast.1, Function.update_self, Function.update_self]
        rfl
    . constructor
      . dsimp only
        rw [hs.pendHas, hs.hasLast, hs.pendVal, hs.pendTs, Function.update_of_ne hij]
        exact h.pend
      . dsimp only
        rw [hs.curVal]
        exact h.cur
      . dsimp only
        rw [hs.pendHas, hs.other i hij, Function.update_of_ne hij, Function.update_of_ne hij]
        exact h.settled
      . dsimp only
        rw [hs.pendHas, Function.update_of_ne hij]
        exact h.quiet
      . dsimp only
        rw [hs.hasLast, hs.lastTs, Function.update_of_ne hij, Function.update_of_ne hij]
        exact h.emitted

theorem not_due_flush (w : Watched n) (base : UInt64) (i : Fin n)
    : (w.flush base i).s.pa.due base i = false := by
  cases hdue : w.s.pa.due base i with
  | false =>
    rw [Watched.flush_of_not hdue]
    exact hdue
  | true =>
    have hs := AutoFlushed.of_due w.rt hdue
    rw [Watched.flush_of_due hdue]
    unfold ParamAutomation.due
    dsimp only
    rw [hs.pendHas, Function.update_self]
    rfl

theorem not_due_flush_of (h : w.s.pa.due base i = false) (j : Fin n)
    : (w.flush base j).s.pa.due base i = false := by
  by_cases hij : i = j
  . rw [hij]
    apply not_due_flush
  . cases hdue : w.s.pa.due base j with
    | false =>
      rw [Watched.flush_of_not hdue]
      exact h
    | true =>
      have hs := AutoFlushed.of_due w.rt hdue
      rw [Watched.flush_of_due hdue]
      unfold ParamAutomation.due at h ⊢
      dsimp only
      rw [hs.pendHas, hs.pendTs, Function.update_of_ne hij]
      exact h

theorem flushes_inv (base : UInt64) (is : List (Fin n)) (hw : ∀ i, AutoSlotInv w i)
    : (∀ i, AutoSlotInv (is.foldl (Watched.flush base) w) i)
        ∧ ∀ i, i ∈ is ∨ w.s.pa.due base i = false →
          (is.foldl (Watched.flush base) w).s.pa.due base i = false := by
  induction is generalizing w with
  | nil =>
    refine ⟨hw, ?_⟩
    intro i hi
    cases hi with
    | inl hi => contradiction
    | inr hi => exact hi
  | cons j is ih =>
    have hih := ih (w := w.flush base j) fun i => (hw i).flush j
    refine ⟨hih.1, ?_⟩
    intro i hi
    apply hih.2
    rw [List.mem_cons] at hi
    rcases hi with (rfl | hi) | hi
    . exact .inr (not_due_flush w base i)
    . exact .inl hi
    . exact .inr (not_due_flush_of hi j)

-- A point is behind the start of a block by a pacing block, without a wrap.
theorem thin_le {ts base : UInt64} (h : ts.toNat + 256 ≤ base.toNat) : base ≥ ts + kThinSamples := by
  have hbase := base.toNat_lt
  have hthin : kThinSamples.toNat = 256 := rfl
  rw [ge_iff_le, UInt64.le_iff_toNat_le, UInt64.toNat_add, hthin, Nat.mod_eq_of_lt (by omega)]
  exact h

theorem slotInv_beginBlock (hw : ∀ i, AutoSlotInv w i) (base : UInt64) (i : Fin n)
    : AutoSlotInv (w.beginBlock base) i := by
  have hstart : ∀ i, AutoSlotInv w.adopt.reconnect i := by
    intro i
    exact (hw i).adopt.replayed (AutoReplayed.reconnect _ _)
  rcases flushes_inv base (List.finRange n) hstart with ⟨hinv, hdue⟩
  have hi := hinv i
  have hdue' := hdue i (.inl (List.mem_finRange i))
  unfold Watched.beginBlock
  dsimp only
  generalize (List.finRange n).foldl (Watched.flush base) w.adopt.reconnect = w' at hi hdue'
  refine ⟨hi.pend, hi.cur, hi.settled, ?_, hi.emitted⟩
  intro hquiet
  dsimp only at hquiet ⊢
  rw [Bool.or_eq_true] at hquiet
  cases hquiet with
  | inl hquiet => exact hi.quiet hquiet
  | inr hrests =>
    -- a fold that were still pending would be due
    cases hpend : w'.s.pa.pendHas i with
    | false => rfl
    | true =>
      unfold Watched.rests at hrests
      rw [(hi.pend hpend).2, decide_eq_true_eq] at hrests
      unfold ParamAutomation.due at hdue'
      rw [decide_eq_false_iff_not, hpend] at hdue'
      exact absurd ⟨rfl, thin_le hrests.1⟩ hdue'

-- What a folded point leaves of the automation.
structure AutoFolded (i : Fin n) (v : F32) (ts : UInt64) (s s' : AutoShell n) : Prop where
  curVal : s'.pa.curVal = Function.update s.pa.curVal i v
  pendTs : s'.pa.pendTs = Function.update s.pa.pendTs i ts
  pendVal : s'.pa.pendVal = Function.update s.pa.pendVal i v
  pendHas : s'.pa.pendHas = Function.update s.pa.pendHas i true
  hasLast : s'.pa.hasLast = s.pa.hasLast
  lastTs : s'.pa.lastTs = s.pa.lastTs
  value : ∀ j, s'.lastValue j = s.lastValue j

-- What an emitted point leaves of it.
structure AutoEmitted (rt : AutoRt) (i : Fin n) (v : F32) (ts : UInt64) (s s' : AutoShell n)
    : Prop where
  curVal : s'.pa.curVal = Function.update s.pa.curVal i v
  pendTs : s'.pa.pendTs = s.pa.pendTs
  pendVal : s'.pa.pendVal = s.pa.pendVal
  pendHas : s'.pa.pendHas = Function.update s.pa.pendHas i false
  hasLast : s'.pa.hasLast = Function.update s.pa.hasLast i true
  lastTs : s'.pa.lastTs = Function.update s.pa.lastTs i ts
  self : s'.lastValue i = if rt.held then s.lastValue i else some v
  other : ∀ j, j ≠ i → s'.lastValue j = s.lastValue j

variable {v : F32} {ts : UInt64}

theorem AutoFolded.of_folds (rt : AutoRt) {s : AutoShell n} (v : F32) (h : s.pa.folds i ts = true)
    : AutoFolded i v ts s (s.point rt i v ts) := by
  have hfolds : (s.pa.track i v).folds i ts = s.pa.folds i ts := rfl
  unfold AutoShell.point
  dsimp only
  rw [if_pos (by rw [hfolds, h])]
  exact ⟨rfl, rfl, rfl, rfl, rfl, rfl, fun _ => rfl⟩

theorem AutoWritten.emit {rt : AutoRt} {s : AutoShell n} : AutoWritten rt i v s (s.emit rt i v ts) := by
  unfold AutoShell.emit
  split
  . apply AutoWritten.queueRamp
  . apply AutoWritten.queueParamSet

theorem AutoEmitted.of_not (rt : AutoRt) {s : AutoShell n} (v : F32) (h : s.pa.folds i ts = false)
    : AutoEmitted rt i v ts s (s.point rt i v ts) := by
  have hfolds : (s.pa.track i v).folds i ts = s.pa.folds i ts := rfl
  have hwritten : AutoWritten rt i v { s with pa := s.pa.track i v }
      (AutoShell.emit rt i v ts { s with pa := s.pa.track i v }) := AutoWritten.emit
  unfold AutoShell.point
  dsimp only
  rw [if_neg (by simp [hfolds, h])]
  generalize AutoShell.emit rt i v ts { s with pa := s.pa.track i v } = s' at hwritten
  refine ⟨?_, ?_, ?_, ?_, ?_, ?_, hwritten.self, hwritten.other⟩
  all_goals
    dsimp only
    rw [hwritten.pa]
    rfl

theorem slotInv_point (hw : ∀ i, AutoSlotInv w i) (j : Fin n) (v : F32) (ts : UInt64) (i : Fin n)
    : AutoSlotInv (w.point j v ts) i := by
  have h := hw i
  unfold Watched.point
  cases hfolds : w.s.pa.folds j ts with
  | true =>
    have hs := AutoFolded.of_folds w.rt v hfolds
    generalize w.s.point w.rt j v ts = s at hs
    simp only [if_true]
    by_cases hij : i = j
    . subst hij
      have hlast : w.s.pa.hasLast i = true := by
        unfold ParamAutomation.folds at hfolds
        rw [decide_eq_true_eq] at hfolds
        exact hfolds.1
      constructor
      all_goals dsimp only
      . rw [hs.hasLast, hs.pendVal, hs.pendTs]
        simp only [Function.update_self]
        exact fun _ => ⟨hlast, trivial⟩
      . rw [hs.curVal]
        simp only [Function.update_self, Option.some.injEq, Prod.mk.injEq]
        exact fun _ _ heq => heq.1
      . rw [hs.pendHas]
        simp only [Function.update_self]
        intro _ _ _ hfalse
        contradiction
      . rw [Function.update_self]
        intro hfalse
        contradiction
      . rw [hs.hasLast, hs.lastTs]
        exact h.emitted
    . constructor
      all_goals dsimp only
      . rw [hs.pendHas, hs.hasLast, hs.pendVal, hs.pendTs]
        simp only [Function.update_of_ne hij]
        exact h.pend
      . rw [hs.curVal]
        simp only [Function.update_of_ne hij]
        exact h.cur
      . rw [hs.pendHas, hs.value]
        simp only [Function.update_of_ne hij]
        exact h.settled
      . rw [hs.pendHas]
        simp only [Function.update_of_ne hij]
        exact h.quiet
      . rw [hs.hasLast, hs.lastTs]
        exact h.emitted
  | false =>
    have hs := AutoEmitted.of_not w.rt v hfolds
    generalize w.s.point w.rt j v ts = s at hs
    simp only [Bool.false_eq_true, if_false]
    by_cases hij : i = j
    . subst hij
      constructor
      all_goals dsimp only
      . rw [hs.pendHas, Function.update_self]
        intro hfalse
        contradiction
      . rw [hs.curVal]
        simp only [Function.update_self, Option.some.injEq, Prod.mk.injEq]
        exact fun _ _ heq => heq.1
      . rw [hs.self]
        simp only [Function.update_self, Option.some.injEq, Prod.mk.injEq]
        intro v' _ heq _ hheld
        rw [hheld, ← heq.1]
        rfl
      . rw [Function.update_self]
        intro hfalse
        contradiction
      . rw [hs.hasLast, hs.lastTs]
        simp only [Function.update_self]
        rfl
    . constructor
      all_goals dsimp only
      . rw [hs.pendHas, hs.hasLast, hs.pendVal, hs.pendTs]
        simp only [Function.update_of_ne hij]
        exact h.pend
      . rw [hs.curVal]
        simp only [Function.update_of_ne hij]
        exact h.cur
      . rw [hs.pendHas, hs.other i hij]
        simp only [Function.update_of_ne hij]
        exact h.settled
      . rw [hs.pendHas]
        simp only [Function.update_of_ne hij]
        exact h.quiet
      . rw [hs.hasLast, hs.lastTs]
        simp only [Function.update_of_ne hij]
        exact h.emitted

theorem slotInv_next (hw : ∀ i, AutoSlotInv w i) (a : AutoAct n) (i : Fin n)
    : AutoSlotInv (w.next a) i := by
  cases a with
  | runtime rt => exact ⟨(hw i).pend, (hw i).cur, (hw i).settled, (hw i).quiet, (hw i).emitted⟩
  | beginBlock base => exact slotInv_beginBlock hw base i
  | point j v ts => exact slotInv_point hw j v ts i

end Inv

section Law

variable {w : Watched n}

-- What is watched is the automation of the source.
theorem flushes_shell (base : UInt64) (is : List (Fin n)) (w : Watched n)
    : (is.foldl (Watched.flush base) w).s = is.foldl (AutoShell.flush w.rt base) w.s := by
  induction is generalizing w with
  | nil => rfl
  | cons i is ih => exact ih (w.flush base i)

theorem beginBlock_shell (base : UInt64) (w : Watched n)
    : (w.beginBlock base).s = w.s.beginBlock w.rt base :=
  flushes_shell base (List.finRange n) w.adopt.reconnect

theorem AutoSets.beginBlock (rt : AutoRt) (base : UInt64) (s : AutoShell n)
    : AutoSets s (s.beginBlock rt base) := by
  unfold AutoShell.beginBlock
  apply (AutoSets.adopt rt s).trans
  apply (AutoSets.reconnect rt _).trans
  exact AutoSets.foldl (AutoSets.flush rt base) (List.finRange n) _

-- The ramp of a point that joins on to the last one.
theorem joins_queueRamp {i : Fin n} {v : F32} {ts : UInt64} (h : AutoSlotInv w i)
    (hramps : w.s.pa.ramps i ts = true)
    : w.Joins i v ts ⟨.ramp, w.s.pa.ids i, v, w.rt.clampTs (w.s.pa.lastTs i),
        if w.rt.fxHorizon.isSome ∧ ts < w.rt.clampTs (w.s.pa.lastTs i) then
          w.rt.clampTs (w.s.pa.lastTs i) else ts, w.rt.channel, w.rt.tag⟩ := by
  unfold ParamAutomation.ramps at hramps
  rw [decide_eq_true_eq] at hramps
  refine ⟨⟨rfl, rfl⟩, w.s.pa.lastTs i, ?_, hramps.2.1, rfl, ?_⟩
  . rw [h.emitted, hramps.1]
    rfl
  . dsimp only
    cases hhorizon : w.rt.fxHorizon with
    | some _ => simp only [Option.isSome_some, true_and]
    | none =>
      have hclamp : w.rt.clampTs (w.s.pa.lastTs i) = w.s.pa.lastTs i := by
        unfold AutoRt.clampTs
        rw [hhorizon]
      have hnot : ¬ ts < w.s.pa.lastTs i := by
        have hlt := hramps.2.1
        rw [gt_iff_lt, UInt64.lt_iff_toNat_lt] at hlt
        rw [UInt64.lt_iff_toNat_lt]
        omega
      rw [hclamp, if_neg hnot]
      simp

theorem queues_point (hw : ∀ i, AutoSlotInv w i) (i : Fin n) (v : F32) (ts : UInt64)
    : w.Queues (.point i v ts) := by
  have hnext : (w.next (.point i v ts)).s = w.s.point w.rt i v ts := rfl
  have hfolds : (w.s.pa.track i v).folds i ts = w.s.pa.folds i ts := rfl
  have hramps : (w.s.pa.track i v).ramps i ts = w.s.pa.ramps i ts := rfl
  unfold Watched.Queues
  rw [hnext]
  unfold AutoShell.point AutoShell.emit
  dsimp only
  rw [hfolds, hramps]
  split
  . exact ⟨[], by simp, by simp⟩
  . split
    next hjoin =>
      unfold AutoShell.queueRamp
      split
      . exact ⟨[], by simp, by simp⟩
      . refine ⟨_, rfl, ?_⟩
        intro ev hev _
        rw [List.mem_singleton] at hev
        rw [hev]
        exact ⟨i, v, ts, rfl, joins_queueRamp (hw i) hjoin⟩
    next =>
      unfold AutoShell.queueParamSet
      split
      . exact ⟨[], by simp, by simp⟩
      . exact ⟨_, rfl, by simp⟩

theorem queues_next (hw : ∀ i, AutoSlotInv w i) (a : AutoAct n) : w.Queues a := by
  cases a with
  | runtime rt => exact ⟨[], (List.append_nil _).symm, by simp⟩
  | beginBlock base =>
    rcases AutoSets.beginBlock w.rt base w.s with ⟨new, hnew, hall⟩
    refine ⟨new, ?_, ?_⟩
    . rw [← hnew, ← beginBlock_shell]
      rfl
    . intro ev hev hramp
      rw [hall ev hev] at hramp
      contradiction
  | point i v ts => exact queues_point hw i v ts

theorem automationLaw_of_run {ids : Fin n → UInt32} {ids_inj : Function.Injective ids}
    {defaults : Fin n → F32} {rt : AutoRt}
    (h : Run Watched.next free (Watched.start (.init ids ids_inj defaults) rt) w)
    : AutomationLaw w := by
  have hw : ∀ i, AutoSlotInv w i := by
    apply Run.inv (I := fun w => ∀ i, AutoSlotInv w i) _ _ h
    . intro i
      exact AutoSlotInv.start _ rt i rfl rfl
    . intro w a hw _ i
      exact slotInv_next hw a i
  constructor
  . intro i v ts hlast hquiet hlost
    exact (hw i).settled v ts hlast ((hw i).quiet hquiet) hlost
  . exact queues_next hw

-- One parameter on a connected instrument.
def autoRt : AutoRt :=
  ⟨true, 1, false, none, 0, 0⟩

def autoStart : Watched 1 :=
  Watched.start (.init (fun _ => 7) (fun _ _ _ => Subsingleton.elim _ _) fun _ => Fp.ofBits 0) autoRt

-- Two points that are close, and the block that flushes the second.
def foldedGesture : List (AutoAct 1) :=
  [.beginBlock 0, .point 0 half 0, .point 0 (Fp.ofBits 0x3f800000) 100, .beginBlock 356]

theorem automationLaw_foldedGesture
    : AutomationLaw (foldedGesture.foldl Watched.next autoStart)
        ∧ (foldedGesture.foldl Watched.next autoStart).quiet 0 = true
        ∧ (foldedGesture.foldl Watched.next autoStart).lost 0 = false :=
  ⟨automationLaw_of_run (Run.foldl foldedGesture .start), by decide +kernel, by decide +kernel⟩

-- A point that comes under the hold is gone when the hold is.
def heldGesture : List (AutoAct 1) :=
  [.beginBlock 0, .point 0 half 0, .runtime { autoRt with held := true }, .beginBlock 5000,
    .point 0 (Fp.ofBits 0x3f800000) 5000, .runtime autoRt, .beginBlock 5256, .beginBlock 5512]

theorem not_converges_heldGesture
    : ¬ ∀ w, Run Watched.next free autoStart w → ∀ i v ts, w.last i = some (v, ts) →
        w.quiet i = true → w.s.lastValue i = some v := by
  intro h
  have hvalue := h _ (Run.foldl heldGesture .start) 0 (Fp.ofBits 0x3f800000) 5000
    (by decide +kernel) (by decide +kernel)
  revert hvalue
  decide +kernel

end Law

end Harp
