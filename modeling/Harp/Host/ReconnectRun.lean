import Harp.Lib.Run
import Harp.Lib.StreamRing

/-!
This module contains the instrument's pulls and the stream reset of `sessionUp`, one load or store
at a time. The reset runs on the supervisor's thread and stores to what the audio thread owns: the
ring's read cursor, `ssiRead_` and the pad debt.
-/

namespace Harp

namespace Reconnect

open Runs StreamRings

section Threads

variable {α : Type}

def ringFloats : Nat := 32768

-- `a - b` on `size_t`.
def subSize (a b : Nat) : Nat :=
  (a % 2 ^ 64 + (2 ^ 64 - b % 2 ^ 64)) % 2 ^ 64

-- `era` is the number of resets that had completed when the sample was written.
structure Sample (α : Type) where
  val : α
  era : Nat
  deriving DecidableEq

-- `era` is the number of resets that had completed when the call began.
structure Call where
  nFrames : Nat
  era : Nat
  deriving DecidableEq

def Call.want (c : Call) : Nat :=
  c.nFrames * 2

-- The accesses of `FloatRing::read`, each with what the ones before it have found.
inductive ReadPc (α : Type) where
  | loadHead
  | loadTail (head : Nat)
  | loadStart (can : Nat)
  | copy (can start : Nat)
  | storeTail (start : Nat) (data : List (Sample α))
  deriving DecidableEq

-- `ring` is both reads of a pull, the one that settles the debt and the one that delivers.
inductive AudioPc (α : Type) where
  | idle
  | debt (c : Call)
  | ring (c : Call) (settling : Bool) (n : Nat) (r : ReadPc α)
  | loadDebt (c : Call) (got : Nat)
  | storeDebt (c : Call) (debt : Nat)
  | advance (c : Call) (got : Nat)
  | loadPad (c : Call) (got : Nat)
  | storePad (c : Call) (got debt : Nat)
  deriving DecidableEq

-- From `ssi` to `clearTail` the supervisor is about to make that store or load of the reset. The
-- reader thread lives from `connect` to the end of the session.
inductive SupervisorPc where
  | down
  | ssi
  | debt
  | clearHead
  | clearTail (head : Nat)
  | connect
  | up
  deriving DecidableEq

-- `era`, `asked` and `out` are not in the runtime: the resets completed, the frames of the pulls
-- begun since the last one, and what the pulls have delivered, each with the era its pull began in.
structure StreamState (α : Type) where
  buf : Nat → Sample α
  head : Nat
  tail : Nat
  ssiRead : Nat
  padDebtFloats : Nat
  underruns : Nat
  padSamples : Nat
  pc : AudioPc α
  supervisor : SupervisorPc
  reader : Option (List α)
  era : Nat
  asked : Nat
  out : List (Nat × Sample α)

def StreamState.init (zero : α) : StreamState α where
  buf := fun _ => ⟨zero, 0⟩
  head := 0
  tail := 0
  ssiRead := 0
  padDebtFloats := 0
  underruns := 0
  padSamples := 0
  pc := .idle
  supervisor := .down
  reader := none
  era := 0
  asked := 0
  out := []

def StreamState.copied (s : StreamState α) (start n : Nat) : List (Sample α) :=
  (List.range n).map (fun i => s.buf ((start + i) % ringFloats))

-- `FloatRing::read` up to its store.
def StreamState.readNext (s : StreamState α) (n : Nat) : ReadPc α → ReadPc α
  | .loadHead => .loadTail s.head
  | .loadTail head => .loadStart (min n (subSize head s.tail))
  | .loadStart can => .copy can s.tail
  | .copy can start => .storeTail start (s.copied start can)
  | .storeTail start data => .storeTail start data

def StreamState.storeTail (s : StreamState α) (c : Call) (settling : Bool) (start : Nat)
    (data : List (Sample α)) : StreamState α :=
  if settling then
    { s with
      tail := start + data.length
      pc := if data.length = 0 then .ring c false c.want .loadHead else .loadDebt c data.length }
  else
    { s with
      tail := start + data.length
      out := s.out ++ data.map (fun x => (c.era, x))
      pc := .advance c data.length }

-- The audio thread in `settlePadDebt` and `pullAudio`. `connected` is what it finds in
-- `connected_`.
def StreamState.audioNext (s : StreamState α) (connected : Bool) : StreamState α :=
  match s.pc with
  | .idle => s
  | .debt c =>
    if s.padDebtFloats = 0 then
      { s with pc := .ring c false c.want .loadHead }
    else
      { s with pc := .ring c true (min s.padDebtFloats 1024) .loadHead }
  | .ring c settling _ (.storeTail start data) => s.storeTail c settling start data
  | .ring c settling n r => { s with pc := .ring c settling n (s.readNext n r) }
  | .loadDebt c got => { s with pc := .storeDebt c (subSize s.padDebtFloats got) }
  | .storeDebt c debt => { s with padDebtFloats := debt, pc := .debt c }
  | .advance c got =>
    { s with
      ssiRead := (s.ssiRead + c.nFrames) % 2 ^ 64
      pc := if got < c.want then .loadPad c got else .idle }
  | .loadPad c got => { s with pc := .storePad c got s.padDebtFloats }
  | .storePad c got debt =>
    { s with
      padDebtFloats := (debt + (c.want - got)) % 2 ^ 64
      underruns := if connected then s.underruns + 1 else s.underruns
      padSamples := if connected then s.padSamples + (c.want - got) / 2 else s.padSamples
      pc := .idle }

-- The supervisor in `sessionUp`.
def StreamState.resetNext (s : StreamState α) : StreamState α :=
  match s.supervisor with
  | .ssi => { s with ssiRead := 0, supervisor := .debt }
  | .debt => { s with padDebtFloats := 0, supervisor := .clearHead }
  | .clearHead => { s with supervisor := .clearTail s.head }
  | .clearTail head =>
    { s with tail := head, supervisor := .connect, era := s.era + 1, asked := 0 }
  | .connect => { s with supervisor := .up }
  | .down => s
  | .up => s

-- `FloatRing::write` up to its store: what fits.
def StreamState.writeLoad (s : StreamState α) (src : List α) : StreamState α :=
  if s.supervisor = .up ∧ s.reader = none then
    { s with reader := some (src.take (subSize ringFloats (subSize s.head s.tail))) }
  else
    s

def StreamState.writeStore (s : StreamState α) : StreamState α :=
  match s.reader with
  | none => s
  | some src =>
    { s with
      buf := StreamRing.fill ringFloats s.buf s.head (src.map (fun x => ⟨x, s.era⟩))
      head := s.head + src.length
      reader := none }

inductive StreamAct (α : Type) where
  | pullAudio (nFrames : Nat)
  | audio (connected : Bool)
  | sessionUp
  | reset
  | writeLoad (src : List α)
  | writeStore
  | sessionDown

-- The pulls come from one thread: a call begins when none is in progress.
def StreamState.pullAudio (s : StreamState α) (nFrames : Nat) : StreamState α :=
  match s.pc with
  | .idle => { s with pc := .debt ⟨nFrames, s.era⟩, asked := s.asked + nFrames }
  | _ => s

-- `sessionDown` joins the reader thread, which finishes the write it is in.
def StreamState.next (s : StreamState α) : StreamAct α → StreamState α
  | .pullAudio nFrames => s.pullAudio nFrames
  | .audio connected => s.audioNext connected
  | .sessionUp => if s.supervisor = .down then { s with supervisor := .ssi } else s
  | .reset => s.resetNext
  | .writeLoad src => s.writeLoad src
  | .writeStore => s.writeStore
  | .sessionDown =>
    if s.supervisor = .up ∧ s.reader = none then { s with supervisor := .down } else s

-- The frames a call in progress has yet to add to `ssiRead_`.
def AudioPc.pending : AudioPc α → Nat
  | .debt c => c.nFrames
  | .ring c _ _ _ => c.nFrames
  | .loadDebt c _ => c.nFrames
  | .storeDebt c _ => c.nFrames
  | .advance c _ => c.nFrames
  | .idle => 0
  | .loadPad _ _ => 0
  | .storePad _ _ _ => 0

-- No call in progress stands before its `ssiRead_.fetch_add`.
def AudioPc.Advanced : AudioPc α → Prop
  | .idle => True
  | .loadPad _ _ => True
  | .storePad _ _ _ => True
  | _ => False

-- Between the store to `ssiRead_` and the store to the read cursor.
def SupervisorPc.Resetting : SupervisorPc → Prop
  | .debt => True
  | .clearHead => True
  | .clearTail _ => True
  | _ => False

structure ReconnectLaw (s : StreamState α) : Prop where
  isolated : ∀ e x, (e, x) ∈ s.out → e ≤ x.era
  counted : ¬s.supervisor.Resetting → s.pc.Advanced → s.ssiRead = s.asked % 2 ^ 64

-- The reset and a pull, up to the pull's `fetch_add`, keep out of each other's way.
def StreamState.Apart (s : StreamState α) : StreamAct α → Prop
  | .reset => s.supervisor = .ssi → s.pc.Advanced
  | .pullAudio _ => ¬s.supervisor.Resetting
  | _ => True

instance AudioPc.decidableAdvanced (p : AudioPc α) : Decidable p.Advanced :=
  match p with
  | .idle => .isTrue trivial
  | .debt _ => .isFalse id
  | .ring _ _ _ _ => .isFalse id
  | .loadDebt _ _ => .isFalse id
  | .storeDebt _ _ => .isFalse id
  | .advance _ _ => .isFalse id
  | .loadPad _ _ => .isTrue trivial
  | .storePad _ _ _ => .isTrue trivial

instance SupervisorPc.decidableResetting (p : SupervisorPc) : Decidable p.Resetting :=
  match p with
  | .down => .isFalse id
  | .ssi => .isFalse id
  | .debt => .isTrue trivial
  | .clearHead => .isTrue trivial
  | .clearTail _ => .isTrue trivial
  | .connect => .isFalse id
  | .up => .isFalse id

instance StreamState.decidableApart (s : StreamState α) (a : StreamAct α)
    : Decidable (s.Apart a) :=
  match a with
  | .pullAudio _ => inferInstanceAs (Decidable (¬_))
  | .audio _ => .isTrue trivial
  | .sessionUp => .isTrue trivial
  | .reset => inferInstanceAs (Decidable (_ → _))
  | .writeLoad _ => .isTrue trivial
  | .writeStore => .isTrue trivial
  | .sessionDown => .isTrue trivial

end Threads

section Invariant

variable {α : Type} {s : StreamState α} {c : Call}

theorem subSize_of_le {a b : Nat} (h : b ≤ a) (ha : a < b + 2 ^ 64) : subSize a b = a - b := by
  unfold subSize
  omega

-- The ring of one session: nothing in it is from before the last reset.
structure StreamState.Ringed (s : StreamState α) : Prop where
  tail_le : s.tail ≤ s.head
  fill_le : s.head ≤ s.tail + ringFloats
  fresh : ∀ i, s.tail ≤ i → i < s.head → s.era ≤ (s.buf (i % ringFloats)).era

def StreamState.Reading (s : StreamState α) (c : Call) : ReadPc α → Prop
  | .loadHead => True
  | .loadTail head => s.tail ≤ head ∧ head ≤ s.head
  | .loadStart can => s.tail + can ≤ s.head
  | .copy can start => start = s.tail ∧ s.tail + can ≤ s.head
  | .storeTail start data =>
    start = s.tail ∧ s.tail + data.length ≤ s.head ∧ ∀ x ∈ data, c.era ≤ x.era

theorem StreamState.Reading.of_eq {s' : StreamState α} {r : ReadPc α} (h : s.Reading c r)
    (htail : s'.tail = s.tail) (hhead : s'.head = s.head) : s'.Reading c r := by
  cases r with
  | loadHead => trivial
  | loadTail head => exact ⟨htail ▸ h.1, hhead ▸ h.2⟩
  | loadStart can =>
    unfold StreamState.Reading
    rw [htail, hhead]
    exact h
  | copy can start =>
    unfold StreamState.Reading
    rw [htail, hhead]
    exact h
  | storeTail start data =>
    unfold StreamState.Reading
    rw [htail, hhead]
    exact h

def AudioPc.call : AudioPc α → Option Call
  | .idle => none
  | .debt c => some c
  | .ring c _ _ _ => some c
  | .loadDebt c _ => some c
  | .storeDebt c _ => some c
  | .advance c _ => some c
  | .loadPad c _ => some c
  | .storePad c _ _ => some c

structure ReconnectInv (s : StreamState α) : Prop where
  ringed : s.Ringed
  began : ∀ c, s.pc.call = some c → c.era ≤ s.era
  reading : ∀ c settling n r, s.pc = .ring c settling n r → s.Reading c r
  clearing : ∀ head, s.supervisor = .clearTail head → head = s.head
  resetting : s.supervisor.Resetting → s.pc.Advanced ∧ s.ssiRead = 0
  writing : ∀ src, s.reader = some src
    → s.supervisor = .up ∧ s.head + src.length ≤ s.tail + ringFloats
  wrapped : s.ssiRead < 2 ^ 64
  counted : ¬s.supervisor.Resetting → (s.ssiRead + s.pc.pending) % 2 ^ 64 = s.asked % 2 ^ 64
  isolated : ∀ e x, (e, x) ∈ s.out → e ≤ x.era

theorem reconnectInv_init (zero : α) : ReconnectInv (StreamState.init zero) := by
  constructor
  . constructor
    . exact Nat.le_refl 0
    . exact Nat.zero_le _
    . intro i _ hi
      exact absurd hi (Nat.not_lt_zero i)
  . intro c hc
    exact nomatch hc
  . intro c settling n r hpc
    exact nomatch hpc
  . intro head hhead
    exact nomatch hhead
  . intro hreset
    exact hreset.elim
  . intro src hsrc
    exact nomatch hsrc
  . exact Nat.two_pow_pos 64
  . intro _
    rfl
  . intro e x hx
    exact nomatch hx

theorem AudioPc.pending_of_advanced {p : AudioPc α} (h : p.Advanced) : p.pending = 0 := by
  cases p with
  | idle => rfl
  | loadPad c got => rfl
  | storePad c got debt => rfl
  | _ => exact False.elim h

theorem ReconnectInv.law (h : ReconnectInv s) : ReconnectLaw s := by
  constructor
  . exact h.isolated
  . intro hreset hadvanced
    have hcounted := h.counted hreset
    rw [AudioPc.pending_of_advanced hadvanced, Nat.add_zero, Nat.mod_eq_of_lt h.wrapped]
      at hcounted
    exact hcounted

-- A call that has yet to advance `ssiRead_` keeps the reset out.
theorem ReconnectInv.not_resetting (h : ReconnectInv s) (hpc : ¬s.pc.Advanced)
    : ¬s.supervisor.Resetting := by
  intro hreset
  exact hpc (h.resetting hreset).1

-- A step of the call in progress that stores nothing.
theorem ReconnectInv.setPc (h : ReconnectInv s) {q p : AudioPc α} (hpc : s.pc = q)
    (hcall : p.call = q.call ∨ p.call = none) (hpending : p.pending = q.pending)
    (hadvanced : q.Advanced → p.Advanced)
    (hreading : ∀ c settling n r, p = .ring c settling n r → s.Reading c r)
    : ReconnectInv { s with pc := p } := by
  subst hpc
  constructor
  . exact ⟨h.ringed.tail_le, h.ringed.fill_le, h.ringed.fresh⟩
  . intro c hc
    cases hcall with
    | inl hsame =>
      apply h.began c
      rw [← hsame]
      exact hc
    | inr hnone =>
      dsimp only at hc
      rw [hnone] at hc
      exact nomatch hc
  . intro c settling n r hp
    exact (hreading c settling n r hp).of_eq rfl rfl
  . exact h.clearing
  . intro hreset
    exact ⟨hadvanced (h.resetting hreset).1, (h.resetting hreset).2⟩
  . exact h.writing
  . exact h.wrapped
  . intro hreset
    have hcounted := h.counted hreset
    rw [← hpending] at hcounted
    exact hcounted
  . exact h.isolated

theorem StreamState.Ringed.copied (h : s.Ringed) {start can : Nat} (hstart : start = s.tail)
    (hcan : s.tail + can ≤ s.head) : ∀ x ∈ s.copied start can, s.era ≤ x.era := by
  intro x hx
  unfold StreamState.copied at hx
  rw [List.mem_map] at hx
  obtain ⟨i, hi, rfl⟩ := hx
  rw [List.mem_range] at hi
  apply h.fresh
  . omega
  . omega

theorem ReconnectInv.readNext (h : ReconnectInv s) {settling : Bool} {n : Nat} {r : ReadPc α}
    (hpc : s.pc = .ring c settling n r) : s.Reading c (s.readNext n r) := by
  have hr := h.reading c settling n r hpc
  have htail := h.ringed.tail_le
  have hfill := h.ringed.fill_le
  have hera : c.era ≤ s.era := by
    apply h.began
    rw [hpc]
    rfl
  cases r with
  | loadHead => exact ⟨htail, Nat.le_refl _⟩
  | loadTail head =>
    have hsub : subSize head s.tail = head - s.tail := by
      apply subSize_of_le hr.1
      have hhead := hr.2
      unfold ringFloats at hfill
      omega
    have hhead := hr.1
    have hlast := hr.2
    have hmin := Nat.min_le_right n (head - s.tail)
    show s.tail + min n (subSize head s.tail) ≤ s.head
    rw [hsub]
    omega
  | loadStart can => exact ⟨rfl, hr⟩
  | copy can start =>
    refine ⟨hr.1, ?_, ?_⟩
    . unfold StreamState.copied
      rw [List.length_map, List.length_range]
      exact hr.2
    . intro x hx
      exact Nat.le_trans hera (h.ringed.copied hr.1 hr.2 x hx)
  | storeTail start data => exact hr

theorem StreamState.Ringed.storeTail (h : s.Ringed) {start n : Nat} (hstart : start = s.tail)
    (hn : s.tail + n ≤ s.head) {s' : StreamState α} (htail : s'.tail = start + n)
    (hbuf : s'.buf = s.buf) (hhead : s'.head = s.head) (hera : s'.era = s.era) : s'.Ringed := by
  have hfill := h.fill_le
  constructor
  . omega
  . omega
  . intro i hi hlt
    rw [hbuf, hera]
    apply h.fresh
    . omega
    . omega

theorem ReconnectInv.storeTail (h : ReconnectInv s) {settling : Bool} {n start : Nat}
    {data : List (Sample α)} (hpc : s.pc = .ring c settling n (.storeTail start data))
    : ReconnectInv (s.storeTail c settling start data) := by
  obtain ⟨hstart, hdata, hfresh⟩ := h.reading c settling n _ hpc
  have hera : c.era ≤ s.era := by
    apply h.began
    rw [hpc]
    rfl
  have hreset : ¬s.supervisor.Resetting := by
    apply h.not_resetting
    rw [hpc]
    exact id
  have hcounted := h.counted hreset
  rw [hpc] at hcounted
  have hringed : ∀ (s' : StreamState α), s'.tail = start + data.length → s'.buf = s.buf
      → s'.head = s.head → s'.era = s.era → s'.Ringed := by
    intro s' htail hbuf hhead hera
    exact h.ringed.storeTail hstart hdata htail hbuf hhead hera
  have hwriting : ∀ src, s.reader = some src
      → s.supervisor = .up ∧ s.head + src.length ≤ start + data.length + ringFloats := by
    intro src hsrc
    have hroom := h.writing src hsrc
    refine ⟨hroom.1, ?_⟩
    omega
  unfold StreamState.storeTail
  cases settling with
  | true =>
    rw [if_pos rfl]
    constructor
    . exact hringed _ rfl rfl rfl rfl
    . intro c' hc'
      dsimp only at hc'
      split at hc'
      next =>
        cases hc'
        exact hera
      next =>
        cases hc'
        exact hera
    . intro c' b' n' r' hp
      dsimp only at hp
      split at hp
      next =>
        cases hp
        trivial
      next => exact nomatch hp
    . exact h.clearing
    . intro hreset'
      exact absurd hreset' hreset
    . exact hwriting
    . exact h.wrapped
    . intro _
      dsimp only
      split
      next => exact hcounted
      next => exact hcounted
    . exact h.isolated
  | false =>
    rw [if_neg Bool.false_ne_true]
    constructor
    . exact hringed _ rfl rfl rfl rfl
    . intro c' hc'
      cases hc'
      exact hera
    . intro c' b' n' r' hp
      exact nomatch hp
    . exact h.clearing
    . intro hreset'
      exact absurd hreset' hreset
    . exact hwriting
    . exact h.wrapped
    . intro _
      exact hcounted
    . intro e x hx
      rw [List.mem_append, List.mem_map] at hx
      cases hx with
      | inl hold => exact h.isolated e x hold
      | inr hnew =>
        obtain ⟨y, hy, heq⟩ := hnew
        cases heq
        exact hfresh x hy

-- A step that leaves the ring and the count alone.
theorem ReconnectInv.frame (h : ReconnectInv s) {debt under pads : Nat}
    : ReconnectInv { s with padDebtFloats := debt, underruns := under, padSamples := pads } := by
  constructor
  . exact ⟨h.ringed.tail_le, h.ringed.fill_le, h.ringed.fresh⟩
  . exact h.began
  . intro c settling n r hp
    exact (h.reading c settling n r hp).of_eq rfl rfl
  . exact h.clearing
  . exact h.resetting
  . exact h.writing
  . exact h.wrapped
  . exact h.counted
  . exact h.isolated

theorem ReconnectInv.advance (h : ReconnectInv s) {got : Nat} (hpc : s.pc = .advance c got)
    : ReconnectInv
        { s with
          ssiRead := (s.ssiRead + c.nFrames) % 2 ^ 64
          pc := if got < c.want then .loadPad c got else .idle } := by
  have hera : c.era ≤ s.era := by
    apply h.began
    rw [hpc]
    rfl
  have hreset : ¬s.supervisor.Resetting := by
    apply h.not_resetting
    rw [hpc]
    exact id
  have hcounted := h.counted hreset
  rw [hpc] at hcounted
  constructor
  . exact ⟨h.ringed.tail_le, h.ringed.fill_le, h.ringed.fresh⟩
  . intro c' hc'
    dsimp only at hc'
    split at hc'
    next =>
      cases hc'
      exact hera
    next => exact nomatch hc'
  . intro c' b' n' r' hp
    dsimp only at hp
    split at hp
    next => exact nomatch hp
    next => exact nomatch hp
  . exact h.clearing
  . intro hreset'
    exact absurd hreset' hreset
  . exact h.writing
  . exact Nat.mod_lt _ (Nat.two_pow_pos 64)
  . intro _
    dsimp only
    have hzero : (if got < c.want then AudioPc.loadPad (α := α) c got else .idle).pending = 0 := by
      split
      next => rfl
      next => rfl
    rw [hzero, Nat.add_zero, Nat.mod_mod]
    exact hcounted
  . exact h.isolated

theorem ReconnectInv.audioNext (h : ReconnectInv s) (connected : Bool)
    : ReconnectInv (s.audioNext connected) := by
  unfold StreamState.audioNext
  cases hpc : s.pc with
  | idle => exact h
  | debt c =>
    dsimp only
    split
    next =>
      refine h.setPc hpc (.inl rfl) rfl id ?_
      intro c' b' n' r' hp
      cases hp
      trivial
    next =>
      refine h.setPc hpc (.inl rfl) rfl id ?_
      intro c' b' n' r' hp
      cases hp
      trivial
  | ring c settling n r =>
    have hnext : ReconnectInv { s with pc := .ring c settling n (s.readNext n r) } := by
      refine h.setPc hpc (.inl rfl) rfl id ?_
      intro c' b' n' r' hp
      cases hp
      exact h.readNext hpc
    cases r with
    | storeTail start data => exact h.storeTail hpc
    | _ => exact hnext
  | loadDebt c got =>
    refine h.setPc hpc (.inl rfl) rfl id ?_
    intro c' b' n' r' hp
    exact nomatch hp
  | storeDebt c debt =>
    apply ReconnectInv.frame (s := { s with pc := .debt c })
    refine h.setPc hpc (.inl rfl) rfl id ?_
    intro c' b' n' r' hp
    exact nomatch hp
  | advance c got => exact h.advance hpc
  | loadPad c got =>
    refine h.setPc hpc (.inl rfl) rfl id ?_
    intro c' b' n' r' hp
    exact nomatch hp
  | storePad c got debt =>
    apply ReconnectInv.frame (s := { s with pc := .idle })
    refine h.setPc hpc (.inr rfl) rfl id ?_
    intro c' b' n' r' hp
    exact nomatch hp

def StreamState.Ringed.toRing (h : s.Ringed) : StreamRing (Sample α) ringFloats where
  buf := s.buf
  head := s.head
  tail := s.tail
  tail_le := h.tail_le
  fill_le := h.fill_le

-- With no step of another thread between them, the accesses are one read of the ring.
theorem StreamState.Ringed.read (h : s.Ringed) {n : Nat} (hpc : s.pc = .ring c false n .loadHead)
    (connected : Bool)
    : ((fun s => s.audioNext connected)^[5] s).out
          = s.out ++ (h.toRing.read n).1.map (fun x => (c.era, x))
        ∧ ((fun s => s.audioNext connected)^[5] s).tail = (h.toRing.read n).2.tail := by
  have hfill := h.fill_le
  have havail : subSize s.head s.tail = h.toRing.readAvailable := by
    apply subSize_of_le h.tail_le
    unfold ringFloats at hfill
    omega
  constructor
  . simp [Function.iterate_succ, StreamState.audioNext, hpc, StreamState.readNext,
      StreamState.storeTail, havail, StreamState.copied, StreamRing.read, toRing]
  . simp [Function.iterate_succ, StreamState.audioNext, hpc, StreamState.readNext,
      StreamState.storeTail, havail, StreamState.copied, StreamRing.read, toRing]

theorem ReconnectInv.pullAudio (h : ReconnectInv s) {nFrames : Nat}
    (hreset : ¬s.supervisor.Resetting) : ReconnectInv (s.pullAudio nFrames) := by
  unfold StreamState.pullAudio
  cases hpc : s.pc with
  | idle =>
    have hcounted := h.counted hreset
    rw [hpc] at hcounted
    constructor
    . exact ⟨h.ringed.tail_le, h.ringed.fill_le, h.ringed.fresh⟩
    . intro c hc
      cases hc
      exact Nat.le_refl _
    . intro c b n r hp
      exact nomatch hp
    . exact h.clearing
    . intro hreset'
      exact absurd hreset' hreset
    . exact h.writing
    . exact h.wrapped
    . intro _
      show (s.ssiRead + nFrames) % 2 ^ 64 = (s.asked + nFrames) % 2 ^ 64
      have hread : s.ssiRead % 2 ^ 64 = s.asked % 2 ^ 64 := hcounted
      rw [Nat.add_mod, hread, ← Nat.add_mod]
    . exact h.isolated
  | _ => exact h

-- A step of the supervisor outside the stores and the load of the reset.
theorem ReconnectInv.setSupervisor (h : ReconnectInv s) {p : SupervisorPc}
    (hreset : ¬s.supervisor.Resetting) (hp : ¬p.Resetting) (hreader : s.reader = none)
    : ReconnectInv { s with supervisor := p } := by
  constructor
  . exact ⟨h.ringed.tail_le, h.ringed.fill_le, h.ringed.fresh⟩
  . exact h.began
  . intro c settling n r hpc
    exact (h.reading c settling n r hpc).of_eq rfl rfl
  . intro head hhead
    dsimp only at hhead
    rw [hhead] at hp
    exact absurd trivial hp
  . intro hreset'
    exact absurd hreset' hp
  . intro src hsrc
    rw [hreader] at hsrc
    exact nomatch hsrc
  . exact h.wrapped
  . intro _
    exact h.counted hreset
  . exact h.isolated

theorem ReconnectInv.reader_none (h : ReconnectInv s) (hup : s.supervisor ≠ .up)
    : s.reader = none := by
  cases hreader : s.reader with
  | none => rfl
  | some src => exact absurd (h.writing src hreader).1 hup

-- With no reader thread the head `clear` has loaded is the head it clears to.
theorem ReconnectInv.clearTail (h : ReconnectInv s) {head : Nat}
    (hpc : s.supervisor = .clearTail head)
    : ReconnectInv
        { s with tail := head, supervisor := .connect, era := s.era + 1, asked := 0 } := by
  have hhead := h.clearing head hpc
  have hreset : s.supervisor.Resetting := by
    rw [hpc]
    trivial
  obtain ⟨hadvanced, hread⟩ := h.resetting hreset
  have hreader : s.reader = none := by
    apply h.reader_none
    rw [hpc]
    exact nofun
  subst hhead
  constructor
  . constructor
    . exact Nat.le_refl _
    . exact Nat.le_add_right _ _
    . intro i hi hlt
      exact absurd hlt (Nat.not_lt_of_le hi)
  . intro c hc
    exact Nat.le_succ_of_le (h.began c hc)
  . intro c settling n r hp
    dsimp only at hp
    rw [hp] at hadvanced
    exact hadvanced.elim
  . intro head hhead
    exact nomatch hhead
  . intro hreset'
    exact hreset'.elim
  . intro src hsrc
    rw [hreader] at hsrc
    exact nomatch hsrc
  . exact h.wrapped
  . intro _
    dsimp only
    rw [hread, AudioPc.pending_of_advanced hadvanced]
  . exact h.isolated

-- A store or load of the reset before the last one.
theorem ReconnectInv.resets (h : ReconnectInv s) {p : SupervisorPc} {ssiRead debt : Nat}
    (hup : s.supervisor ≠ .up) (hadvanced : s.pc.Advanced) (hread : ssiRead = 0)
    (hp : p.Resetting) (hclear : ∀ head, p = .clearTail head → head = s.head)
    : ReconnectInv
        { s with ssiRead := ssiRead, padDebtFloats := debt, supervisor := p } := by
  constructor
  . exact ⟨h.ringed.tail_le, h.ringed.fill_le, h.ringed.fresh⟩
  . exact h.began
  . intro c settling n r hpc
    exact (h.reading c settling n r hpc).of_eq rfl rfl
  . exact hclear
  . intro _
    exact ⟨hadvanced, hread⟩
  . intro src hsrc
    dsimp only at hsrc
    rw [h.reader_none hup] at hsrc
    exact nomatch hsrc
  . dsimp only
    rw [hread]
    exact Nat.two_pow_pos 64
  . intro hreset
    exact absurd hp hreset
  . exact h.isolated

theorem ReconnectInv.resetNext (h : ReconnectInv s)
    (hapart : s.supervisor = .ssi → s.pc.Advanced) : ReconnectInv s.resetNext := by
  unfold StreamState.resetNext
  cases hpc : s.supervisor with
  | down => exact h
  | ssi =>
    apply h.resets
    . rw [hpc]
      exact nofun
    . exact hapart hpc
    . rfl
    . trivial
    . exact nofun
  | debt =>
    have hreset : s.supervisor.Resetting := by
      rw [hpc]
      trivial
    apply h.resets
    . rw [hpc]
      exact nofun
    . exact (h.resetting hreset).1
    . exact (h.resetting hreset).2
    . trivial
    . exact nofun
  | clearHead =>
    have hreset : s.supervisor.Resetting := by
      rw [hpc]
      trivial
    apply h.resets
    . rw [hpc]
      exact nofun
    . exact (h.resetting hreset).1
    . exact (h.resetting hreset).2
    . trivial
    . intro head hhead
      cases hhead
      rfl
  | clearTail head => exact h.clearTail hpc
  | connect =>
    apply h.setSupervisor
    . rw [hpc]
      exact id
    . exact id
    . apply h.reader_none
      rw [hpc]
      exact nofun
  | up => exact h

theorem ReconnectInv.writeLoad (h : ReconnectInv s) (src : List α)
    : ReconnectInv (s.writeLoad src) := by
  have htail := h.ringed.tail_le
  have hfill := h.ringed.fill_le
  have havail : subSize s.head s.tail = s.head - s.tail := by
    apply subSize_of_le htail
    unfold ringFloats at hfill
    omega
  have hroom : subSize ringFloats (s.head - s.tail) = ringFloats - (s.head - s.tail) := by
    apply subSize_of_le
    . omega
    . unfold ringFloats
      omega
  unfold StreamState.writeLoad
  split
  next hup =>
    constructor
    . exact ⟨htail, hfill, h.ringed.fresh⟩
    . exact h.began
    . intro c settling n r hpc
      exact (h.reading c settling n r hpc).of_eq rfl rfl
    . exact h.clearing
    . exact h.resetting
    . intro src' hsrc
      cases hsrc
      refine ⟨hup.1, ?_⟩
      have hlen := List.length_take_le (subSize ringFloats (subSize s.head s.tail)) src
      rw [havail, hroom] at hlen ⊢
      dsimp only
      omega
    . exact h.wrapped
    . exact h.counted
    . exact h.isolated
  next => exact h

theorem StreamState.Ringed.writeStore (h : s.Ringed) (src : List (Sample α))
    (hroom : s.head + src.length ≤ s.tail + ringFloats) (hera : ∀ x ∈ src, s.era ≤ x.era)
    {s' : StreamState α} (hbuf : s'.buf = StreamRing.fill ringFloats s.buf s.head src)
    (hhead : s'.head = s.head + src.length) (htail : s'.tail = s.tail) (he : s'.era = s.era)
    : s'.Ringed := by
  have hle := h.tail_le
  constructor
  . omega
  . omega
  . intro i hi hlt
    rw [he, hbuf]
    by_cases hold : i < s.head
    . rw [StreamRing.fill_of_ne]
      . apply h.fresh
        . omega
        . exact hold
      . intro j hj
        have hcell : s.head + j = s.tail + (s.head + j - s.tail) := by omega
        have hi' : i = s.tail + (i - s.tail) := by omega
        rw [hcell, hi']
        apply StreamRing.mod_ne_of_lt
        . omega
        . omega
    . have hcell : i = s.head + (i - s.head) := by omega
      rw [hcell, StreamRing.fill_get (by omega) (by omega)]
      apply hera
      exact List.getElem_mem _

theorem ReconnectInv.writeStore (h : ReconnectInv s) : ReconnectInv s.writeStore := by
  unfold StreamState.writeStore
  cases hreader : s.reader with
  | none => exact h
  | some src =>
    obtain ⟨hup, hroom⟩ := h.writing src hreader
    constructor
    . apply h.ringed.writeStore (src.map (fun x => ⟨x, s.era⟩))
      . rw [List.length_map]
        exact hroom
      . intro x hx
        rw [List.mem_map] at hx
        obtain ⟨y, _, rfl⟩ := hx
        exact Nat.le_refl _
      . rfl
      . rw [List.length_map]
      . rfl
      . rfl
    . exact h.began
    . intro c settling n r hpc
      have hr := h.reading c settling n r hpc
      cases r with
      | loadHead => trivial
      | loadTail head => exact ⟨hr.1, Nat.le_trans hr.2 (Nat.le_add_right _ _)⟩
      | loadStart can => exact Nat.le_trans hr (Nat.le_add_right _ _)
      | copy can start => exact ⟨hr.1, Nat.le_trans hr.2 (Nat.le_add_right _ _)⟩
      | storeTail start data =>
        exact ⟨hr.1, Nat.le_trans hr.2.1 (Nat.le_add_right _ _), hr.2.2⟩
    . intro head hhead
      dsimp only at hhead
      rw [hup] at hhead
      exact nomatch hhead
    . exact h.resetting
    . intro src' hsrc
      exact nomatch hsrc
    . exact h.wrapped
    . exact h.counted
    . exact h.isolated

theorem ReconnectInv.next (h : ReconnectInv s) (a : StreamAct α) (hapart : s.Apart a)
    : ReconnectInv (s.next a) := by
  cases a with
  | pullAudio nFrames => exact h.pullAudio hapart
  | audio connected => exact h.audioNext connected
  | sessionUp =>
    unfold StreamState.next
    dsimp only
    split
    next hdown =>
      apply h.setSupervisor
      . rw [hdown]
        exact id
      . exact id
      . apply h.reader_none
        rw [hdown]
        exact nofun
    next => exact h
  | reset => exact h.resetNext hapart
  | writeLoad src => exact h.writeLoad src
  | writeStore => exact h.writeStore
  | sessionDown =>
    unfold StreamState.next
    dsimp only
    split
    next hup =>
      apply h.setSupervisor
      . rw [hup.1]
        exact id
      . exact id
      . exact hup.2
    next => exact h

end Invariant

/--
When no pull stands between its start and its `ssiRead_.fetch_add` from the reset's first store to
its last, no pull delivers what was written before a reset it began after, and `ssiRead_` counts
the frames asked for since the last reset.
-/
theorem reconnectLaw_of_apart {α : Type} {s : StreamState α} (zero : α)
    (h : Run StreamState.next StreamState.Apart (.init zero) s) : ReconnectLaw s := by
  have hinv : ReconnectInv s := by
    apply h.inv
    . exact reconnectInv_init zero
    . intro s a hs hapart
      exact hs.next a hapart
  exact hinv.law

-- A session with four floats in the ring and a pull of one frame.
def reset : List (StreamAct Nat) :=
  .sessionUp :: List.replicate 5 .reset

def opened : List (StreamAct Nat) :=
  reset ++ [.writeLoad [10, 11, 12, 13], .writeStore, .pullAudio 1]

def pulled : List (StreamAct Nat) :=
  opened ++ List.replicate 7 (.audio true)

def reopened : List (StreamAct Nat) :=
  pulled ++ .sessionDown :: pulled

-- Each of the two pulls delivers the first two floats of its session.
theorem reconnectLaw_reopened
    : (reopened.foldl StreamState.next (.init 0)).out
          = [(1, ⟨10, 1⟩), (1, ⟨11, 1⟩), (2, ⟨10, 2⟩), (2, ⟨11, 2⟩)]
        ∧ (reopened.foldl StreamState.next (.init 0)).pc = .idle
        ∧ ReconnectLaw (reopened.foldl StreamState.next (.init 0)) := by
  have hlaw : ReconnectLaw (reopened.foldl StreamState.next (.init 0)) := by
    apply reconnectLaw_of_apart 0
    apply Run.of_guarded
    . exact .start
    . decide
  exact ⟨by decide, by rfl, hlaw⟩

-- The reset runs while the pull is about to store its read cursor.
def straddled : List (StreamAct Nat) :=
  opened ++ List.replicate 5 (.audio true) ++ .sessionDown :: reset
    ++ List.replicate 2 (.audio true) ++ .pullAudio 1 :: List.replicate 6 (.audio true)

theorem not_reconnectLaw_straddled
    : ¬∀ s, Run StreamState.next free (StreamState.init 0) s → ReconnectLaw s := by
  intro hall
  have hrun : Run StreamState.next free (StreamState.init 0)
      (straddled.foldl StreamState.next (.init 0)) := by
    apply Run.foldl
    exact .start
  have hmem : (2, ⟨12, 1⟩) ∈ (straddled.foldl StreamState.next (.init 0)).out := by
    decide
  have hle : 2 ≤ 1 := (hall _ hrun).isolated 2 ⟨12, 1⟩ hmem
  omega

end Reconnect

end Harp
