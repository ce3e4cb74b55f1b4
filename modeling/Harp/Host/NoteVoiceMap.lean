import Harp.Lib.Run
import Harp.Lib.SlotMap
import Mathlib.Data.Finset.Card

/-!
This module contains the map of `shell/note_voice_map.h` from the note ids of the host to the voice
keys of the device, and what it answers after any calls.
-/

namespace Harp.NoteVoice

open Runs

structure Entry where
  noteId : Int32
  voiceKey : UInt32
  active : Bool
deriving DecidableEq

structure NoteVoiceMap where
  entries : List Entry
  size : entries.length = 64

namespace NoteVoiceMap

def fresh : NoteVoiceMap :=
  ⟨List.replicate 64 ⟨0, 0, false⟩, List.length_replicate⟩

def set (m : NoteVoiceMap) (i : Nat) (e : Entry) : NoteVoiceMap :=
  ⟨m.entries.set i e, by rw [List.length_set, m.size]⟩

def map (m : NoteVoiceMap) (f : Entry → Entry) : NoteVoiceMap :=
  ⟨m.entries.map f, by rw [List.length_map, m.size]⟩

-- The entry a note-on takes: a free one, or one with the id.
def takes (noteId : Int32) (e : Entry) : Bool :=
  !e.active || e.noteId == noteId

-- The entry of a live note.
def holds (noteId : Int32) (e : Entry) : Bool :=
  e.active && e.noteId == noteId

def noteOn (m : NoteVoiceMap) (noteId : Int32) (voiceKey : UInt32) : NoteVoiceMap :=
  if noteId < 0 then
    m
  else
    match m.entries.findIdx? (takes noteId) with
    | some i => m.set i ⟨noteId, voiceKey, true⟩
    | none => m

def noteOff (m : NoteVoiceMap) (voiceKey : UInt32) : NoteVoiceMap :=
  m.map (fun e => if e.active && e.voiceKey == voiceKey then { e with active := false } else e)

def voiceFor (m : NoteVoiceMap) (noteId : Int32) : UInt32 :=
  if noteId < 0 then
    0
  else
    match m.entries.find? (holds noteId) with
    | some e => e.voiceKey
    | none => 0

def reset (m : NoteVoiceMap) : NoteVoiceMap :=
  m.map (fun e => { e with active := false })

-- How many entries show a note.
def shown (m : NoteVoiceMap) (noteId : Int32) : Nat :=
  m.entries.countP (holds noteId)

end NoteVoiceMap

inductive Act where
  | noteOn (noteId : Int32) (voiceKey : UInt32)
  | noteOff (voiceKey : UInt32)
  | reset
deriving DecidableEq

def NoteVoiceMap.apply (m : NoteVoiceMap) : Act → NoteVoiceMap
  | .noteOn noteId voiceKey => m.noteOn noteId voiceKey
  | .noteOff voiceKey => m.noteOff voiceKey
  | .reset => m.reset

/--
The key of the last note-on of an id, if neither a later note-off of the key nor a reset has removed
it. The calls stand latest first.
-/
def keyOf : List Act → Int32 → Option UInt32
  | [], _ => none
  | .noteOn noteId voiceKey :: hist, id =>
    if 0 ≤ noteId ∧ noteId = id then some voiceKey else keyOf hist id
  | .noteOff voiceKey :: hist, id => if keyOf hist id = some voiceKey then none else keyOf hist id
  | .reset :: _, _ => none

def Act.onId : Act → Option Int32
  | .noteOn noteId _ => some noteId
  | _ => none

def liveIds (hist : List Act) : Finset Int32 :=
  (hist.filterMap Act.onId).toFinset.filter (fun id => (keyOf hist id).isSome)

structure Tracker where
  map : NoteVoiceMap
  hist : List Act

namespace Tracker

def start : Tracker :=
  ⟨NoteVoiceMap.fresh, []⟩

def next (t : Tracker) (a : Act) : Tracker :=
  ⟨t.map.apply a, a :: t.hist⟩

def Fits (t : Tracker) (a : Act) : Prop :=
  (liveIds (a :: t.hist)).card ≤ 64
deriving Decidable

-- A note-on of a live id comes to the entry of the id before any free one.
def Refreshes (t : Tracker) : Act → Prop
  | .noteOn noteId _ =>
    t.map.entries.findIdx? (NoteVoiceMap.holds noteId) = none
      ∨ t.map.entries.findIdx? (NoteVoiceMap.takes noteId)
          = t.map.entries.findIdx? (NoteVoiceMap.holds noteId)
  | _ => True

instance decidableRefreshes (t : Tracker) : (a : Act) → Decidable (t.Refreshes a)
  | .noteOn _ _ => inferInstanceAs (Decidable (_ ∨ _))
  | .noteOff _ => .isTrue trivial
  | .reset => .isTrue trivial

def Meets (t : Tracker) (a : Act) : Prop :=
  t.Fits a ∧ t.Refreshes a
deriving Decidable

end Tracker

section Table

def liveKey (e : Entry) : Option Int32 :=
  if e.active then some e.noteId else none

theorem holds_eq (id : Int32)
    : NoteVoiceMap.holds id = fun e => decide (liveKey e = some id) := by
  funext e
  unfold NoteVoiceMap.holds liveKey
  cases e.active with
  | true => simp [beq_eq_decide]
  | false => rfl

variable {t : Tracker}

-- No id has two entries, and the one it has shows its key.
structure Agrees (t : Tracker) : Prop where
  unique : SlotMap.Unique liveKey t.map.entries
  key : ∀ id, (SlotMap.find liveKey t.map.entries id).map (·.2.voiceKey) = keyOf t.hist id

theorem keyOf_negative {hist : List Act} {id : Int32} (h : id < 0) : keyOf hist id = none := by
  induction hist with
  | nil => rfl
  | cons a hist ih =>
    cases a with
    | noteOn noteId voiceKey =>
      unfold keyOf
      rw [if_neg]
      . exact ih
      . rintro ⟨hpos, rfl⟩
        exact absurd h (Int32.not_lt.mpr hpos)
    | noteOff voiceKey =>
      unfold keyOf
      rw [ih]
      rfl
    | reset => rfl

theorem voiceFor_eq (h : Agrees t) (id : Int32)
    : t.map.voiceFor id = (keyOf t.hist id).getD 0 := by
  unfold NoteVoiceMap.voiceFor
  split
  next hneg =>
    rw [keyOf_negative hneg]
    rfl
  next =>
    rw [holds_eq, ← SlotMap.find_snd, ← h.key id]
    cases SlotMap.find liveKey t.map.entries id with
    | none => rfl
    | some p => rfl

theorem mem_liveIds {hist : List Act} {id : Int32} (h : (keyOf hist id).isSome = true)
    : id ∈ liveIds hist := by
  unfold liveIds
  rw [Finset.mem_filter, List.mem_toFinset]
  refine ⟨?_, h⟩
  induction hist with
  | nil => cases h
  | cons a hist ih =>
    cases a with
    | noteOn noteId voiceKey =>
      unfold keyOf at h
      have hcons : (Act.noteOn noteId voiceKey :: hist).filterMap Act.onId
          = noteId :: hist.filterMap Act.onId := rfl
      rw [hcons, List.mem_cons]
      split at h
      next heq => exact .inl heq.2.symm
      next => exact .inr (ih h)
    | noteOff voiceKey =>
      unfold keyOf at h
      have hcons : (Act.noteOff voiceKey :: hist).filterMap Act.onId
          = hist.filterMap Act.onId := rfl
      rw [hcons]
      split at h
      next => cases h
      next => exact ih h
    | reset => cases h

theorem agrees_start : Agrees Tracker.start := by
  have hfree : ∀ (i : Nat) e, Tracker.start.map.entries[i]? = some e → liveKey e = none := by
    intro i e he
    rw [List.eq_of_mem_replicate (List.mem_of_getElem? he)]
    rfl
  constructor
  . intro i j x y k hx _ hkx _
    rw [hfree i x hx] at hkx
    cases hkx
  . intro id
    cases hfind : SlotMap.find liveKey Tracker.start.map.entries id with
    | none => rfl
    | some p =>
      rcases SlotMap.find_some hfind with ⟨hp, hkp⟩
      rw [hfree p.1 p.2 hp] at hkp
      cases hkp

theorem active_of_liveKey {e : Entry} {id : Int32} (h : liveKey e = some id)
    : e.active = true ∧ e.noteId = id := by
  unfold liveKey at h
  split at h
  next hactive => exact ⟨hactive, Option.some.inj h⟩
  next => cases h

theorem Agrees.noteOff (h : Agrees t) (voiceKey : UInt32)
    : Agrees (t.next (.noteOff voiceKey)) := by
  have hf : ∀ (e : Entry) (id : Int32),
      liveKey (if e.active && e.voiceKey == voiceKey then { e with active := false } else e)
        = some id → liveKey e = some id := by
    intro e id he
    split at he
    next => cases he
    next => exact he
  constructor
  . exact h.unique.map hf
  . intro id
    have hkey := h.key id
    unfold Tracker.next NoteVoiceMap.apply NoteVoiceMap.noteOff NoteVoiceMap.map keyOf
    dsimp only
    rw [SlotMap.find_map hf h.unique, ← hkey]
    cases hfind : SlotMap.find liveKey t.map.entries id with
    | none => rfl
    | some p =>
      have hlive := (SlotMap.find_some hfind).2
      rcases active_of_liveKey hlive with ⟨hactive, _⟩
      rw [Option.bind_some, Option.map_some, hactive, Bool.true_and]
      by_cases hk : p.2.voiceKey = voiceKey
      . rw [if_pos (beq_iff_eq.mpr hk), if_neg, if_pos (congrArg some hk)]
        . rfl
        . intro hlost
          cases hlost
      . rw [if_neg (fun heq => hk (beq_iff_eq.mp heq)), if_pos hlive,
          if_neg (fun heq => hk (Option.some.inj heq))]
        rfl

theorem Agrees.reset (h : Agrees t) : Agrees (t.next .reset) := by
  have hf : ∀ (e : Entry) (id : Int32),
      liveKey { e with active := false } = some id → liveKey e = some id := by
    intro e id he
    cases he
  constructor
  . exact h.unique.map hf
  . intro id
    unfold Tracker.next NoteVoiceMap.apply NoteVoiceMap.reset NoteVoiceMap.map keyOf
    dsimp only
    rw [SlotMap.find_map hf h.unique]
    cases SlotMap.find liveKey t.map.entries id with
    | none => rfl
    | some p => rfl

section NoteOn

variable {noteId : Int32} {voiceKey : UInt32} {i : Nat} {x : Entry}

theorem slot_of_findIdx? {p : Entry → Bool} {entries : List Entry}
    (h : entries.findIdx? p = some i) : ∃ x, entries[i]? = some x ∧ p x = true := by
  rcases List.findIdx?_eq_some_iff_getElem.mp h with ⟨hi, hp, _⟩
  exact ⟨entries[i], List.getElem?_eq_getElem hi, hp⟩

theorem liveKey_of_holds (h : NoteVoiceMap.holds noteId x = true) : liveKey x = some noteId := by
  rw [holds_eq] at h
  exact of_decide_eq_true h

theorem holds_of_liveKey (h : liveKey x = some noteId) : NoteVoiceMap.holds noteId x = true := by
  rw [holds_eq]
  exact decide_eq_true h

theorem takes_cases (h : NoteVoiceMap.takes noteId x = true)
    : liveKey x = none ∨ liveKey x = some noteId := by
  unfold NoteVoiceMap.takes at h
  unfold liveKey
  cases hactive : x.active with
  | false => exact .inl rfl
  | true =>
    rw [hactive, Bool.not_true, Bool.false_or, beq_iff_eq] at h
    rw [if_pos rfl, h]
    exact .inr rfl

theorem takes_of_holds (h : NoteVoiceMap.holds noteId x = true)
    : NoteVoiceMap.takes noteId x = true := by
  unfold NoteVoiceMap.holds at h
  unfold NoteVoiceMap.takes
  rw [Bool.and_eq_true] at h
  rw [h.2, Bool.or_true]

-- The entry that is taken is the one of the id, or a free one and the id has none.
theorem fresh_of_refreshes (hu : SlotMap.Unique liveKey t.map.entries)
    (href : t.Refreshes (.noteOn noteId voiceKey))
    (hi : t.map.entries.findIdx? (NoteVoiceMap.takes noteId) = some i)
    : ∀ k j y, liveKey ⟨noteId, voiceKey, true⟩ = some k → t.map.entries[j]? = some y →
        liveKey y = some k → j = i := by
  rintro k j y hk hy hky
  cases hk
  rcases href with hnone | hsame
  . have hfalse := List.findIdx?_eq_none_iff.mp hnone y (List.mem_of_getElem? hy)
    rw [holds_of_liveKey hky] at hfalse
    cases hfalse
  . rcases slot_of_findIdx? (hsame.symm.trans hi) with ⟨x, hx, hheld⟩
    exact hu j i y x noteId hy hx hky (liveKey_of_holds hheld)

-- With every entry taken by another id there are as many live ids as entries.
theorem takes_of_fits (h : Agrees t) (hpos : ¬ noteId < 0)
    (hfits : t.Fits (.noteOn noteId voiceKey))
    : t.map.entries.findIdx? (NoteVoiceMap.takes noteId) ≠ none := by
  intro hnone
  have hother : ∀ e ∈ t.map.entries, e.active = true ∧ e.noteId ≠ noteId := by
    intro e he
    have hfalse := List.findIdx?_eq_none_iff.mp hnone e he
    unfold NoteVoiceMap.takes at hfalse
    rw [Bool.or_eq_false_iff, Bool.not_eq_false', beq_eq_false_iff_ne] at hfalse
    exact hfalse
  have hkey : ∀ e ∈ t.map.entries, liveKey e = some e.noteId := by
    intro e he
    unfold liveKey
    rw [if_pos (hother e he).1]
  have hnodup : (noteId :: t.map.entries.map Entry.noteId).Nodup := by
    rw [List.nodup_cons]
    constructor
    . intro hmem
      rcases List.mem_map.mp hmem with ⟨e, he, heq⟩
      exact (hother e he).2 heq
    . rw [List.Nodup, List.pairwise_iff_getElem]
      intro a b ha hb hab heq
      rw [List.getElem_map, List.getElem_map] at heq
      rw [List.length_map] at ha hb
      have hka := hkey _ (List.getElem_mem ha)
      have hkb := hkey _ (List.getElem_mem hb)
      rw [← heq] at hkb
      have hsame := h.unique a b _ _ _ (List.getElem?_eq_getElem ha)
        (List.getElem?_eq_getElem hb) hka hkb
      omega
  have hsub : (noteId :: t.map.entries.map Entry.noteId).toFinset
      ⊆ liveIds (.noteOn noteId voiceKey :: t.hist) := by
    intro id hid
    apply mem_liveIds
    unfold keyOf
    rw [List.mem_toFinset, List.mem_cons, List.mem_map] at hid
    rcases hid with rfl | ⟨e, he, rfl⟩
    . rw [if_pos ⟨Int32.not_lt.mp hpos, rfl⟩]
      rfl
    . rw [if_neg (fun heq => (hother e he).2 heq.2.symm), ← h.key]
      rcases List.mem_iff_getElem?.mp he with ⟨j, hj⟩
      rw [(SlotMap.find_eq_some h.unique).mpr ⟨hj, hkey e he⟩]
      rfl
  have hcard := Finset.card_le_card hsub
  rw [List.toFinset_card_of_nodup hnodup, List.length_cons, List.length_map, t.map.size] at hcard
  have hmost : (liveIds (.noteOn noteId voiceKey :: t.hist)).card ≤ 64 := hfits
  omega

theorem entries_noteOn (m : NoteVoiceMap) (hpos : ¬ noteId < 0)
    (hi : m.entries.findIdx? (NoteVoiceMap.takes noteId) = some i)
    : (m.noteOn noteId voiceKey).entries = m.entries.set i ⟨noteId, voiceKey, true⟩ := by
  unfold NoteVoiceMap.noteOn
  rw [if_neg hpos, hi]
  rfl

theorem noteOn_full (m : NoteVoiceMap)
    (hnone : m.entries.findIdx? (NoteVoiceMap.takes noteId) = none)
    : m.noteOn noteId voiceKey = m := by
  unfold NoteVoiceMap.noteOn
  rw [hnone]
  split
  . rfl
  . rfl

theorem noteOn_negative (m : NoteVoiceMap) (hneg : noteId < 0) : m.noteOn noteId voiceKey = m :=
  if_pos hneg

theorem unique_noteOn (hu : SlotMap.Unique liveKey t.map.entries)
    (href : t.Refreshes (.noteOn noteId voiceKey))
    : SlotMap.Unique liveKey (t.map.noteOn noteId voiceKey).entries := by
  by_cases hneg : noteId < 0
  . rw [noteOn_negative t.map hneg]
    exact hu
  . cases hi : t.map.entries.findIdx? (NoteVoiceMap.takes noteId) with
    | none =>
      rw [noteOn_full t.map hi]
      exact hu
    | some i =>
      rw [entries_noteOn t.map hneg hi]
      exact hu.set (fresh_of_refreshes hu href hi)

theorem Agrees.noteOn (h : Agrees t) (hmeets : t.Meets (.noteOn noteId voiceKey))
    : Agrees (t.next (.noteOn noteId voiceKey)) := by
  constructor
  . exact unique_noteOn h.unique hmeets.2
  . intro id
    have hkey := h.key id
    unfold Tracker.next NoteVoiceMap.apply keyOf
    dsimp only
    by_cases hneg : noteId < 0
    . rw [noteOn_negative t.map hneg, if_neg (fun heq => Int32.not_lt.mpr heq.1 hneg)]
      exact hkey
    . cases hi : t.map.entries.findIdx? (NoteVoiceMap.takes noteId) with
      | none => exact absurd hi (takes_of_fits h hneg hmeets.1)
      | some i =>
        rcases slot_of_findIdx? hi with ⟨x, hx, htaken⟩
        rw [entries_noteOn t.map hneg hi,
          SlotMap.find_set h.unique hx (fresh_of_refreshes h.unique hmeets.2 hi)]
        have hnew : liveKey ⟨noteId, voiceKey, true⟩ = some noteId := rfl
        rw [hnew]
        by_cases hid : noteId = id
        . rw [if_pos (congrArg some hid), if_pos ⟨Int32.not_lt.mp hneg, hid⟩]
          rfl
        . rw [if_neg (fun heq => hid (Option.some.inj heq)), if_neg, if_neg (fun heq => hid heq.2)]
          . exact hkey
          . intro hkx
            rcases takes_cases htaken with hfree | hsame
            . rw [hkx] at hfree
              cases hfree
            . rw [hkx] at hsame
              exact hid (Option.some.inj hsame).symm

-- Otherwise the entry the id has is left where it is, with the old key.
theorem second_entry (h : Agrees t) (href : ¬ t.Refreshes (.noteOn noteId voiceKey))
    : 1 < (t.map.noteOn noteId voiceKey).shown noteId := by
  unfold Tracker.Refreshes at href
  rw [not_or] at href
  rcases href with ⟨hheld, hother⟩
  rcases Option.ne_none_iff_exists'.mp hheld with ⟨j, hj⟩
  rcases slot_of_findIdx? hj with ⟨y, hy, hholds⟩
  have hpos : ¬ noteId < 0 := by
    intro hneg
    have hkey := h.key noteId
    rw [keyOf_negative hneg, (SlotMap.find_eq_some h.unique).mpr ⟨hy, liveKey_of_holds hholds⟩]
      at hkey
    cases hkey
  cases hi : t.map.entries.findIdx? (NoteVoiceMap.takes noteId) with
  | none =>
    have hfalse := List.findIdx?_eq_none_iff.mp hi y (List.mem_of_getElem? hy)
    rw [takes_of_holds hholds] at hfalse
    cases hfalse
  | some i =>
    rcases List.findIdx?_eq_some_iff_getElem.mp hi with ⟨hlt, _, hfirst⟩
    rcases List.findIdx?_eq_some_iff_getElem.mp hj with ⟨hltj, hpj, hfirstj⟩
    have hij : i < j := by
      have hle : ¬ j < i := fun hji => hfirst j hji (takes_of_holds hpj)
      have hne : i ≠ j := by
        rintro rfl
        exact hother (hi.trans hj.symm)
      omega
    have hold : 0 < t.map.entries.countP (NoteVoiceMap.holds noteId) := by
      rw [List.countP_pos_iff]
      exact ⟨y, List.mem_of_getElem? hy, hholds⟩
    have hnew : NoteVoiceMap.holds noteId ⟨noteId, voiceKey, true⟩ = true :=
      holds_of_liveKey rfl
    unfold NoteVoiceMap.shown
    rw [entries_noteOn t.map hpos hi, List.countP_set hlt, if_neg (hfirstj i hij), hnew, if_pos rfl]
    omega

end NoteOn

theorem Agrees.next (h : Agrees t) (a : Act) (hmeets : t.Meets a) : Agrees (t.next a) := by
  cases a with
  | noteOn noteId voiceKey => exact h.noteOn hmeets
  | noteOff voiceKey => exact h.noteOff voiceKey
  | reset => exact h.reset

theorem agrees_run (h : Run Tracker.next Tracker.Meets .start t) : Agrees t :=
  h.inv agrees_start (fun _ a hs hmeets => hs.next a hmeets)

/--
While every note-on of a live id comes to the entry of the id first, the map answers with the last
key; and this is when a note-on leaves no second entry.
-/
theorem voiceFor_run (h : Run Tracker.next Tracker.Meets .start t)
    : (∀ id, t.map.voiceFor id = (keyOf t.hist id).getD 0)
        ∧ ∀ id voiceKey,
            (t.map.noteOn id voiceKey).shown id ≤ 1 ↔ t.Refreshes (.noteOn id voiceKey) := by
  have hagrees := agrees_run h
  refine ⟨voiceFor_eq hagrees, ?_⟩
  intro id voiceKey
  constructor
  . intro hone
    by_contra hnot
    have htwo := second_entry hagrees hnot
    omega
  . intro href
    unfold NoteVoiceMap.shown
    rw [holds_eq]
    exact (unique_noteOn hagrees.unique href).countP_le_one id

end Table

-- A chord of two notes, of which the second is played again.
def retriggered : List Act :=
  [.noteOn 1 0x13c, .noteOn 2 0x140, .noteOn 2 0x143, .noteOff 0x143]

theorem voiceFor_run_retriggered
    : (retriggered.foldl Tracker.next .start).map.voiceFor 2 = 0 := by
  have hrun : Run Tracker.next Tracker.Meets .start (retriggered.foldl Tracker.next .start) := by
    apply Run.of_guarded retriggered .start
    decide +kernel
  exact (voiceFor_run hrun).1 2

-- The same with the first note off before.
def shadowed : List Act :=
  [.noteOn 1 0x13c, .noteOn 2 0x140, .noteOff 0x13c, .noteOn 2 0x143, .noteOff 0x143]

theorem not_voiceFor_shadowed
    : ¬ ∀ t, Run Tracker.next Tracker.Fits .start t →
        ∀ id, t.map.voiceFor id = (keyOf t.hist id).getD 0 := by
  intro h
  have hrun : Run Tracker.next Tracker.Fits .start (shadowed.foldl Tracker.next .start) := by
    apply Run.of_guarded shadowed .start
    decide +kernel
  have hkey := h _ hrun 2
  exact absurd hkey (by decide +kernel)

end Harp.NoteVoice
