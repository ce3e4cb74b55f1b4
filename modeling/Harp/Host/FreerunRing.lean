import Harp.Lib.Run
import Harp.Lib.StreamRing

/-!
This module contains the ring of `host/freerun.c` between the thread that pushes what the device has
sent and the resampler, which asks for spans of it. The two threads take turns at the loads and
stores of the cursors and at the frames that are copied.
-/

namespace Harp.FreerunRing

open Runs StreamRings

-- A push that has loaded the cursors: the frames it still has to copy and how many it has.
structure Copying (α : Type) where
  rest : List α
  done : Nat
  tail : Nat

/--
The resampler reads the positions from `readFrom` to `tail`; `asking` is the head its callback has
loaded. `log` has every frame that was copied at its position, `asked` the positions handed out.
-/
structure Freerun (α : Type) where
  ring : Nat → α
  head : Nat
  tail : Nat
  warm : Bool
  overflow : UInt32
  copying : Option (Copying α)
  asking : Option Nat
  readFrom : Nat
  log : List α
  asked : List Nat
  refused : Nat

inductive Act (α : Type) where
  | push (frames : List α)
  | copy
  | publish
  | ask
  | hand

namespace Freerun

variable {α : Type}

def new (ring : Nat → α) : Freerun α where
  ring := ring
  head := 0
  tail := 0
  warm := false
  overflow := 0
  copying := none
  asking := none
  readFrom := 0
  log := []
  asked := []
  refused := 0

def take (cap : Nat) (fr : Freerun α) (frames : List α) : Nat :=
  min frames.length (cap - (fr.head - fr.tail))

-- What is pushed beyond the space is refused and counted.
def push (cap : Nat) (fr : Freerun α) (frames : List α) : Freerun α :=
  { fr with
    overflow := fr.overflow + UInt32.ofNat (frames.length - fr.take cap frames)
    refused := fr.refused + (frames.length - fr.take cap frames)
    copying := some ⟨frames.take (fr.take cap frames), 0, fr.tail⟩ }

-- One frame of the copy.
def copy (cap : Nat) (fr : Freerun α) (c : Copying α) (frame : α) (rest : List α) : Freerun α :=
  { fr with
    ring := fun i => if i = (fr.head + c.done) % cap then frame else fr.ring i
    log := fr.log ++ [frame]
    copying := some { c with rest, done := c.done + 1 } }

def publish (target : Nat) (fr : Freerun α) (c : Copying α) : Freerun α :=
  { fr with
    head := fr.head + c.done
    warm := fr.warm || decide (target ≤ fr.head + c.done - c.tail)
    copying := none }

-- The resampler is done with the span it had when it asks for the next one.
def ask (fr : Freerun α) : Freerun α :=
  { fr with asking := some fr.head, readFrom := fr.tail }

def contig (cap : Nat) (fr : Freerun α) (head : Nat) : Nat :=
  min (cap - fr.tail % cap) (head - fr.tail)

-- The span is freed as it is handed out.
def hand (cap : Nat) (fr : Freerun α) (head : Nat) : Freerun α :=
  { fr with
    tail := fr.tail + fr.contig cap head
    asking := none
    asked := fr.asked ++ List.range' fr.tail (fr.contig cap head) }

-- A thread that is inside a call does not begin another.
def next (cap target : Nat) (fr : Freerun α) : Act α → Freerun α
  | .push frames =>
    match fr.copying with
    | none => fr.push cap frames
    | some _ => fr
  | .copy =>
    match fr.copying with
    | some c =>
      match c.rest with
      | frame :: rest => fr.copy cap c frame rest
      | [] => fr
    | none => fr
  | .publish =>
    match fr.copying with
    | some c => if c.rest.isEmpty then fr.publish target c else fr
    | none => fr
  | .ask =>
    match fr.asking with
    | none => fr.ask
    | some _ => fr
  | .hand =>
    match fr.asking with
    | some head => fr.hand cap head
    | none => fr

def done (fr : Freerun α) : Nat :=
  match fr.copying with
  | none => 0
  | some c => c.done

def pending (fr : Freerun α) : List α :=
  match fr.copying with
  | none => []
  | some c => c.rest

-- The frames of the span are those that were pushed at its positions.
def Intact (cap : Nat) (fr : Freerun α) : Prop :=
  ∀ q, fr.readFrom ≤ q → q < fr.tail → fr.log[q]? = some (fr.ring (q % cap))

-- The frame that is copied next does not go where the resampler reads.
def Clear (cap : Nat) (fr : Freerun α) : Prop :=
  fr.pending ≠ [] → ∀ q, fr.readFrom ≤ q → q < fr.tail → (fr.head + fr.done) % cap ≠ q % cap

structure HandOff (cap : Nat) (fr : Freerun α) : Prop where
  intact : fr.Intact cap
  clear : fr.Clear cap
  asked : fr.asked = List.range fr.tail
  overflow : fr.overflow.toNat = fr.refused

-- A push goes no further than the capacity past the start of the span that is being read.
def Fits (cap : Nat) (fr : Freerun α) (frames : List α) : Prop :=
  fr.head + fr.take cap frames ≤ fr.readFrom + cap

def Meets (cap : Nat) (fr : Freerun α) : Act α → Prop
  | .push frames =>
    fr.copying.isNone = true →
      fr.Fits cap frames ∧ fr.refused + (frames.length - fr.take cap frames) < 2 ^ 32
  | _ => True

instance decidableMeets (cap : Nat) (fr : Freerun α) : (a : Act α) → Decidable (fr.Meets cap a)
  | .push frames =>
    inferInstanceAs (Decidable (_ → fr.head + fr.take cap frames ≤ fr.readFrom + cap ∧ _))
  | .copy => .isTrue trivial
  | .publish => .isTrue trivial
  | .ask => .isTrue trivial
  | .hand => .isTrue trivial

section Laws

variable {cap target : Nat} {fr : Freerun α}

structure Inv (cap : Nat) (fr : Freerun α) : Prop where
  read_le : fr.readFrom ≤ fr.tail
  tail_le : fr.tail ≤ fr.head
  window : fr.head + fr.done + fr.pending.length ≤ fr.readFrom + cap
  log : fr.log.length = fr.head + fr.done
  cells : ∀ q, fr.readFrom ≤ q → q < fr.head + fr.done →
    fr.log[q]? = some (fr.ring (q % cap))
  asking : ∀ head, fr.asking = some head → fr.tail ≤ head ∧ head ≤ fr.head
  asked : fr.asked = List.range fr.tail
  overflow : fr.overflow.toNat = fr.refused

theorem cell_ne {p q : Nat} (hlt : q < p) (hwindow : p < q + cap) : p % cap ≠ q % cap := by
  have hne : (q + 0) % cap ≠ (q + (p - q)) % cap :=
    StreamRing.mod_ne_of_lt (by omega) (by omega)
  rw [Nat.add_zero, Nat.add_sub_cancel' (Nat.le_of_lt hlt)] at hne
  exact hne.symm

theorem Inv.handOff (h : Inv cap fr) : fr.HandOff cap := by
  refine ⟨?_, ?_, h.asked, h.overflow⟩
  . intro q hfrom htail
    have hhead := h.tail_le
    exact h.cells q hfrom (by omega)
  . intro hpending q hfrom htail
    have hhead := h.tail_le
    have hwindow := h.window
    have hpos := List.length_pos_iff.mpr hpending
    exact cell_ne (by omega) (by omega)

theorem inv_new (ring : Nat → α) : Inv cap (new ring) := by
  refine ⟨Nat.le_refl 0, Nat.le_refl 0, ?_, rfl, ?_, ?_, rfl, rfl⟩
  . exact Nat.zero_le _
  . intro q _ hlt
    cases hlt
  . intro head hasking
    cases hasking

theorem Inv.push (h : Inv cap fr) {frames : List α} (hidle : fr.copying = none)
    (hfits : fr.Fits cap frames)
    (hcount : fr.refused + (frames.length - fr.take cap frames) < 2 ^ 32)
    : Inv cap (fr.push cap frames) := by
  have hdone : fr.done = 0 := by
    unfold done
    rw [hidle]
  have hlog := h.log
  have hcells := h.cells
  have hoverflow := h.overflow
  rw [hdone] at hlog hcells
  refine ⟨h.read_le, h.tail_le, ?_, hlog, hcells, h.asking, h.asked, ?_⟩
  . unfold Fits at hfits
    unfold Freerun.push done pending
    dsimp only
    rw [List.length_take]
    omega
  . unfold Freerun.push
    dsimp only
    rw [UInt32.toNat_add, UInt32.toNat_ofNat', hoverflow]
    omega

theorem Inv.copy (h : Inv cap fr) {c : Copying α} {frame : α} {rest : List α}
    (hcopying : fr.copying = some c) (hrest : c.rest = frame :: rest)
    : Inv cap (fr.copy cap c frame rest) := by
  have hdone : fr.done = c.done := by
    unfold done
    rw [hcopying]
  have hpending : fr.pending = frame :: rest := by
    unfold pending
    rw [hcopying]
    exact hrest
  have hwindow := h.window
  have hlog := h.log
  have hcells := h.cells
  rw [hdone] at hwindow hlog hcells
  rw [hpending, List.length_cons] at hwindow
  refine ⟨h.read_le, h.tail_le, ?_, ?_, ?_, h.asking, h.asked, h.overflow⟩
  . unfold Freerun.copy done pending
    dsimp only
    omega
  . unfold Freerun.copy done
    dsimp only
    rw [List.length_append, List.length_singleton, hlog]
    omega
  . intro q hfrom hlt
    have hlt' : q < fr.head + (c.done + 1) := hlt
    unfold Freerun.copy
    dsimp only
    by_cases hlast : q = fr.head + c.done
    . rw [hlast, if_pos rfl, List.getElem?_append_right (by omega), hlog, Nat.sub_self]
      rfl
    . have hfrom' : fr.readFrom ≤ q := hfrom
      rw [if_neg (Ne.symm (cell_ne (by omega) (by omega))),
        List.getElem?_append_left (by omega)]
      exact hcells q hfrom (by omega)

theorem Inv.publish (h : Inv cap fr) {c : Copying α} (hcopying : fr.copying = some c)
    (hrest : c.rest.isEmpty = true) : Inv cap (fr.publish target c) := by
  have hdone : fr.done = c.done := by
    unfold done
    rw [hcopying]
  have hpending : fr.pending = [] := by
    unfold pending
    rw [hcopying]
    exact List.isEmpty_iff.mp hrest
  have hwindow := h.window
  have hlog := h.log
  have hcells := h.cells
  rw [hdone] at hwindow hlog hcells
  rw [hpending, List.length_nil] at hwindow
  refine ⟨h.read_le, ?_, ?_, ?_, ?_, ?_, h.asked, h.overflow⟩
  . exact Nat.le_trans h.tail_le (Nat.le_add_right _ _)
  . exact hwindow
  . exact hlog
  . exact hcells
  . intro head hasking
    rcases h.asking head hasking with ⟨htail, hhead⟩
    exact ⟨htail, Nat.le_trans hhead (Nat.le_add_right _ _)⟩

theorem Inv.ask (h : Inv cap fr) : Inv cap fr.ask := by
  have hread := h.read_le
  have hwindow := h.window
  refine ⟨Nat.le_refl _, h.tail_le, ?_, h.log, ?_, ?_, h.asked, h.overflow⟩
  . exact Nat.le_trans hwindow (Nat.add_le_add_right hread cap)
  . intro q hfrom hlt
    exact h.cells q (Nat.le_trans hread hfrom) hlt
  . intro head hasking
    cases hasking
    exact ⟨h.tail_le, Nat.le_refl _⟩

theorem Inv.hand (h : Inv cap fr) {head : Nat} (hasking : fr.asking = some head)
    : Inv cap (fr.hand cap head) := by
  rcases h.asking head hasking with ⟨htail, hhead⟩
  have hcontig : fr.contig cap head ≤ head - fr.tail := Nat.min_le_right _ _
  refine ⟨?_, ?_, h.window, h.log, h.cells, ?_, ?_, h.overflow⟩
  . exact Nat.le_trans h.read_le (Nat.le_add_right _ _)
  . have hle : fr.tail + fr.contig cap head ≤ fr.head := by omega
    exact hle
  . intro head' hnone
    cases hnone
  . unfold Freerun.hand
    dsimp only
    have happend := List.range'_append_1 (s := 0) (m := fr.tail) (n := fr.contig cap head)
    rw [Nat.zero_add] at happend
    rw [h.asked, List.range_eq_range', List.range_eq_range']
    exact happend

theorem Inv.next (h : Inv cap fr) (a : Act α) (hmeets : fr.Meets cap a)
    : Inv cap (fr.next cap target a) := by
  cases a with
  | push frames =>
    unfold Freerun.next
    dsimp only
    cases hcopying : fr.copying with
    | none =>
      rcases hmeets (by rw [hcopying]; rfl) with ⟨hfits, hcount⟩
      exact h.push hcopying hfits hcount
    | some c => exact h
  | copy =>
    unfold Freerun.next
    dsimp only
    cases hcopying : fr.copying with
    | none => exact h
    | some c =>
      dsimp only
      cases hrest : c.rest with
      | nil => exact h
      | cons frame rest => exact h.copy hcopying hrest
  | publish =>
    unfold Freerun.next
    dsimp only
    cases hcopying : fr.copying with
    | none => exact h
    | some c =>
      dsimp only
      split
      next hrest => exact h.publish hcopying hrest
      next => exact h
  | ask =>
    unfold Freerun.next
    dsimp only
    cases hasking : fr.asking with
    | none => exact h.ask
    | some head => exact h
  | hand =>
    unfold Freerun.next
    dsimp only
    cases hasking : fr.asking with
    | none => exact h
    | some head => exact h.hand hasking

theorem inv_run {ring : Nat → α} (h : Run (next cap target) (Meets cap) (new ring) fr)
    : Inv cap fr :=
  h.inv (inv_new ring) (fun _ a hs hmeets => hs.next a hmeets)

-- A push that nothing comes between, after some frames of its copy.
structure Copied (fr : Freerun α) (frames : List α) (k : Nat) (fr' : Freerun α) : Prop where
  copying : fr'.copying = some ⟨frames.drop k, k, fr.tail⟩
  head : fr'.head = fr.head
  tail : fr'.tail = fr.tail
  readFrom : fr'.readFrom = fr.readFrom

variable (cap target) in
theorem copied (fr : Freerun α) (frames : List α) (k : Nat)
    : ∃ k' ≤ k, Copied fr (frames.take (fr.take cap frames)) k'
        ((fun s => s.next cap target .copy)^[k] (fr.push cap frames))
        ∧ (k < (frames.take (fr.take cap frames)).length → k' = k) := by
  induction k with
  | zero => exact ⟨0, Nat.le_refl 0, ⟨rfl, rfl, rfl, rfl⟩, fun _ => rfl⟩
  | succ k ih =>
    rcases ih with ⟨k', hle, hcopied, hsame⟩
    rw [Function.iterate_succ_apply']
    generalize (fun s : Freerun α => s.next cap target .copy)^[k] (fr.push cap frames) = fr'
      at hcopied ⊢
    have hstep : fr'.next cap target .copy = match (frames.take (fr.take cap frames)).drop k' with
        | frame :: rest => fr'.copy cap ⟨(frames.take (fr.take cap frames)).drop k', k', fr.tail⟩
            frame rest
        | [] => fr' := by
      unfold Freerun.next
      dsimp only
      rw [hcopied.copying]
    rw [hstep]
    cases hrest : (frames.take (fr.take cap frames)).drop k' with
    | nil =>
      refine ⟨k', Nat.le_succ_of_le hle, hcopied, ?_⟩
      intro hlt
      have hlength := congrArg List.length hrest
      rw [List.length_drop, List.length_nil] at hlength
      omega
    | cons frame rest =>
      have hdrop : (frames.take (fr.take cap frames)).drop (k' + 1) = rest := by
        rw [← List.tail_drop, hrest, List.tail_cons]
      refine ⟨k' + 1, Nat.succ_le_succ hle, ⟨?_, hcopied.head, hcopied.tail, hcopied.readFrom⟩, ?_⟩
      . unfold Freerun.copy
        rw [hdrop]
      . intro hlt
        rw [hsame (Nat.lt_of_succ_lt hlt)]

-- What goes further overwrites the span, unless the resampler asks for the next one in between.
theorem Inv.fits_iff_clear (h : Inv cap fr) (frames : List α)
    : fr.Fits cap frames
        ↔ ∀ k, ((fun s => s.next cap target .copy)^[k] (fr.push cap frames)).Clear cap := by
  have hread := h.read_le
  have htail := h.tail_le
  have hwindow : fr.head ≤ fr.readFrom + cap := by
    have hfull := h.window
    omega
  have hlength : (frames.take (fr.take cap frames)).length = fr.take cap frames := by
    rw [List.length_take]
    unfold take
    omega
  constructor
  . intro hfits k
    rcases copied cap target fr frames k with ⟨k', _, hcopied, _⟩
    intro hpending q hfrom hlt
    unfold pending at hpending
    unfold done
    rw [hcopied.copying] at hpending ⊢
    rw [hcopied.readFrom] at hfrom
    rw [hcopied.tail] at hlt
    rw [hcopied.head]
    have hpos := List.length_pos_iff.mpr hpending
    rw [List.length_drop, hlength] at hpos
    unfold Fits at hfits
    dsimp only
    exact cell_ne (by omega) (by omega)
  . intro hclear
    unfold Fits
    by_contra hover
    have hspace : fr.take cap frames ≤ cap - (fr.head - fr.tail) := Nat.min_le_right _ _
    rcases copied cap target fr frames (fr.readFrom + cap - fr.head) with
      ⟨k', _, hcopied, hsame⟩
    have hk := hsame (by rw [hlength]; omega)
    have hpending : ((fun s : Freerun α => s.next cap target .copy)^[fr.readFrom + cap - fr.head]
        (fr.push cap frames)).pending ≠ [] := by
      unfold pending
      rw [hcopied.copying]
      apply List.ne_nil_of_length_pos
      rw [List.length_drop, hlength]
      omega
    have hcell := hclear (fr.readFrom + cap - fr.head) hpending fr.readFrom
    rw [hcopied.readFrom, hcopied.tail, hcopied.head] at hcell
    unfold done at hcell
    rw [hcopied.copying] at hcell
    apply hcell (Nat.le_refl _) (by omega)
    dsimp only
    have hsum : fr.head + k' = fr.readFrom + cap := by omega
    rw [hsum, Nat.add_mod_right]

end Laws

/--
Over any interleaving in which no push comes round to the span that is being read, the resampler
reads what was pushed; and a push that does come round overwrites it.
-/
theorem handOff_run {cap target : Nat} {ring : Nat → α} {fr : Freerun α}
    (h : Run (next cap target) (Meets cap) (new ring) fr)
    : fr.HandOff cap ∧ ∀ frames, fr.copying = none →
        (fr.Fits cap frames
          ↔ ∀ k, ((fun s => s.next cap target .copy)^[k] (fr.push cap frames)).Clear cap) :=
  ⟨(inv_run h).handOff, fun frames _ => (inv_run h).fits_iff_clear frames⟩

-- Four frames fill the ring, and the resampler takes them all.
def filled : List (Act Nat) :=
  [.push [1, 2, 3, 4], .copy, .copy, .copy, .copy, .publish, .ask, .hand]

-- The next frame comes once the resampler has asked again.
def turned : List (Act Nat) :=
  filled ++ [.ask, .hand, .push [5], .copy]

-- The next frame comes while the resampler reads.
def overlapped : List (Act Nat) :=
  filled ++ [.push [5], .copy]

theorem handOff_run_turned : (turned.foldl (next 4 2) (new fun _ => 0)).HandOff 4 := by
  have hrun : Run (next 4 2) (Meets 4) (new fun _ => 0)
      (turned.foldl (next 4 2) (new fun _ => 0)) := by
    apply Run.of_guarded turned .start
    decide +kernel
  exact (handOff_run hrun).1

theorem not_handOff_overlapped
    : ¬ ∀ fr, Run (next 4 2) free (new fun _ => 0) fr → (fr : Freerun Nat).HandOff 4 := by
  intro h
  have hintact := (h _ (Run.foldl overlapped .start)).intact
  exact absurd (hintact 0 (by decide +kernel) (by decide +kernel)) (by decide +kernel)

end Freerun

end Harp.FreerunRing
