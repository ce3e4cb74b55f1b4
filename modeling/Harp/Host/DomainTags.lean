import Harp.Host.FxFeeder

/-!
This module contains the domain tags of an effect's events: the supervisor that starts and ends
sessions, the audio thread that adopts them and queues events, and the event pump, one access to what
they share at a time.

What was stamped, drained, lost and sent is history, which no step reads.
-/

namespace Harp

namespace DomainTags

open Ieee Runs

-- Tag 1 is the domain before the first session.
def tagOf (gen : Nat) : UInt32 :=
  UInt32.ofNat gen + 1

-- An event the ring has taken, and the session the audio thread was in.
structure Stamp where
  ev : TimedEv
  adopted : Nat

-- `op` numbers the stamps, and the pump's panic message has none. `ev` is what is encoded.
structure SentEv where
  op : Option Nat
  session : Nat
  ev : TimedEv

-- `adopting` and `tagged` stand before the last two stores of `fxBeginBlock`.
inductive AudioPc where
  | idle
  | adopting (gen : Nat)
  | tagged (gen : Nat)
  | pushed
  | published
  deriving DecidableEq

inductive PumpPc where
  | exited
  | top
  | loadTag
  | draining (curTag : UInt32) (batch : List SentEv)
  | write (batch : List SentEv)

-- From `drainStale` to `spawn` the supervisor is in `sessionUp`, and `joining` is in `sessionDown`.
inductive SupervisorPc where
  | down
  | drainStale
  | zeroSeq
  | zeroBase
  | connect
  | bump
  | expect (gen : Nat)
  | spawn
  | up
  | joining
  deriving DecidableEq

structure DomainRun where
  em : EventManager
  domainTag : UInt32
  sessionGen : Nat
  fxAdoptedGen : Nat
  fxInIndex : Nat
  fxInBase : Nat
  fxHorizon : UInt64
  connected : Bool
  audio : AudioPc
  pump : PumpPc
  supervisor : SupervisorPc
  stamps : List Stamp
  drained : List Nat
  lost : List Nat
  sent : List SentEv

-- `setFxInputSlots` has tagged what comes before the first session.
def DomainRun.init : DomainRun where
  em := EventManager.fresh
  domainTag := 1
  sessionGen := 0
  fxAdoptedGen := 0
  fxInIndex := 0
  fxInBase := 0
  fxHorizon := 0
  connected := false
  audio := .idle
  pump := .exited
  supervisor := .down
  stamps := []
  drained := []
  lost := []
  sent := []

namespace DomainRun

def fxInputPos (s : DomainRun) : Nat :=
  s.fxInIndex - s.fxInBase

def fxBeginBlock (s : DomainRun) : DomainRun :=
  if s.sessionGen = s.fxAdoptedGen then s else { s with audio := .adopting s.sessionGen }

-- An event that a full ring refuses is not queued.
def queue (s : DomainRun) (q : FxQueue) : DomainRun :=
  match q.timed s.fxHorizon s.domainTag with
  | none => s
  | some ev =>
    let pushed := s.em.push ⟨s.stamps.length, ev⟩
    if pushed.1 then
      { s with
        em := pushed.2
        stamps := s.stamps ++ [⟨ev, s.fxAdoptedGen⟩]
        audio := .pushed }
    else
      { s with em := pushed.2 }

-- The audio thread inside a call. `written` is what the input ring has room for.
def audioNext (s : DomainRun) (written : Nat) : DomainRun :=
  match s.audio with
  | .idle => s
  | .adopting gen =>
    { s with fxInBase := s.fxInIndex, fxHorizon := 0, domainTag := tagOf gen, audio := .tagged gen }
  | .tagged gen => { s with fxAdoptedGen := gen, audio := .idle }
  | .pushed => { s with em := s.em.count, audio := .idle }
  | .published => { s with fxInIndex := s.fxInIndex + written, audio := .idle }

-- `drainStaleOwnerRing` pops one event at a time.
def drainStale (s : DomainRun) : DomainRun :=
  match s.em.ring with
  | [] => { s with supervisor := .zeroSeq }
  | q :: ring => { s with em := { s.em with ring := ring }, drained := s.drained ++ [q.op] }

def supervisorNext (s : DomainRun) : DomainRun :=
  match s.supervisor with
  | .down => s
  | .drainStale => s.drainStale
  | .zeroSeq => { s with em := s.em.zeroSeq, supervisor := .zeroBase }
  | .zeroBase => { s with em := s.em.zeroBase, supervisor := .connect }
  | .connect => { s with connected := true, supervisor := .bump }
  | .bump => { s with sessionGen := s.sessionGen + 1, supervisor := .expect (s.sessionGen + 1) }
  | .expect gen =>
    { s with em := { s.em with expectedTag := tagOf gen }, supervisor := .spawn }
  | .spawn => { s with pump := .top, supervisor := .up }
  | .up => s
  | .joining =>
    match s.pump with
    | .exited => { s with supervisor := .down }
    | _ => s

def panicEv : TimedEv :=
  ⟨.ump, umpAllNotesOff, Fp.ofBits 0, 0, 0, 0, 0⟩

-- The top of the pump's loop and its escalated panic.
def pumpTop (s : DomainRun) (ok : Bool) : DomainRun :=
  if s.connected then
    if s.em.panicPending then
      { s with
        em := { s.em with panicPending := false }
        sent := if ok then s.sent ++ [⟨none, s.sessionGen, panicEv⟩] else s.sent
        pump := .loadTag }
    else
      { s with pump := .loadTag }
  else
    { s with pump := .exited }

-- One pass of the loop of `drainOwner`.
def pumpPop (s : DomainRun) (curTag : UInt32) (batch : List SentEv) : DomainRun :=
  match s.em.ring with
  | [] => { s with pump := if batch.isEmpty then .top else .write batch }
  | q :: ring =>
    if batch.length < EventManager.drainBudget then
      { s with
        em := { s.em with ring := ring }
        pump := .draining curTag (batch ++ [⟨some q.op, s.sessionGen, q.ev.restamp curTag⟩]) }
    else
      { s with pump := .write batch }

-- A write that fails is not made again.
def pumpWrite (s : DomainRun) (batch : List SentEv) (ok : Bool) : DomainRun :=
  if ok then
    { s with sent := s.sent ++ batch, pump := .top }
  else
    { s with lost := s.lost ++ batch.filterMap SentEv.op, connected := false, pump := .top }

def pumpNext (s : DomainRun) (ok : Bool) : DomainRun :=
  match s.pump with
  | .exited => s
  | .top => s.pumpTop ok
  | .loadTag => { s with pump := .draining s.em.expectedTag [] }
  | .draining curTag batch => s.pumpPop curTag batch
  | .write batch => s.pumpWrite batch ok

inductive DomainAct where
  | fxBeginBlock
  | queue (q : FxQueue)
  | writeFxInput
  | audio (written : Nat)
  | sessionUp
  | supervisor
  | sessionDown
  | disconnect
  | pump (ok : Bool)

-- The calls of the audio thread come one after another. `disconnect` is the reader's, or `stop`.
def next (s : DomainRun) : DomainAct → DomainRun
  | .fxBeginBlock => if s.audio = .idle then s.fxBeginBlock else s
  | .queue q => if s.audio = .idle then s.queue q else s
  | .writeFxInput =>
    if s.audio = .idle then
      { s with fxHorizon := UInt64.ofNat s.fxInputPos, audio := .published }
    else
      s
  | .audio written => s.audioNext written
  | .sessionUp => if s.supervisor = .down then { s with supervisor := .drainStale } else s
  | .supervisor => s.supervisorNext
  | .sessionDown =>
    if s.supervisor = .up then { s with connected := false, supervisor := .joining } else s
  | .disconnect => { s with connected := false }
  | .pump ok => s.pumpNext ok

-- What the pump has taken out of the ring and not written.
def inHand (s : DomainRun) : List SentEv :=
  match s.pump with
  | .draining _ batch => batch
  | .write batch => batch
  | _ => []

end DomainRun

-- The audio thread had adopted the session the event is sent in when it stamped it.
def Stamped (stamps : List Stamp) (x : SentEv) : Prop :=
  ∃ op st, x.op = some op ∧ stamps[op]? = some st ∧ st.adopted = x.session ∧ x.ev = st.ev

-- "Now", and a ramp as a set of its target.
def now (te : TimedEv) : TimedEv :=
  { te with kind := if te.kind = .ramp then .param else te.kind, ts := 0 }

def SentNow (stamps : List Stamp) (x : SentEv) : Prop :=
  x.ev.ts = 0 ∧ x.ev.kind ≠ .ramp
    ∧ ∀ op, x.op = some op → ∃ st, stamps[op]? = some st ∧ x.ev = now st.ev

-- `once` has every queued event in its place, and `delivers` is the pump left to itself.
structure DomainLaw (s : DomainRun) (lost : List Nat) : Prop where
  fresh : ∀ x ∈ s.sent, Stamped s.stamps x ∨ SentNow s.stamps x
  once : (List.range s.stamps.length).filter (fun op => op ∉ s.drained ∧ op ∉ lost)
    = s.sent.filterMap SentEv.op ++ s.inHand.filterMap SentEv.op ++ s.em.ring.map Queued.op
  delivers : s.pump ≠ .exited → s.connected = true
    → ∃ n, ((fun s => s.pumpNext true)^[n] s).inHand = []
      ∧ ((fun s => s.pumpNext true)^[n] s).em.ring = []

-- The session after this one has a tag of its own.
def DomainRun.narrow (s : DomainRun) : DomainAct → Prop
  | .supervisor => s.supervisor = .bump → s.sessionGen + 2 < 2 ^ 32
  | _ => True

instance DomainRun.decidableNarrow (s : DomainRun) (a : DomainAct) : Decidable (s.narrow a) :=
  match a with
  | .supervisor => inferInstanceAs (Decidable (_ → _))
  | .fxBeginBlock => .isTrue trivial
  | .queue _ => .isTrue trivial
  | .writeFxInput => .isTrue trivial
  | .audio _ => .isTrue trivial
  | .sessionUp => .isTrue trivial
  | .sessionDown => .isTrue trivial
  | .disconnect => .isTrue trivial
  | .pump _ => .isTrue trivial

section Tags

variable {a b : Nat}

theorem toNat_tagOf (ha : a + 1 < 2 ^ 32) : (tagOf a).toNat = a + 1 := by
  have hofNat : (UInt32.ofNat a).toNat = a := by
    apply UInt32.toNat_ofNat_of_lt
    rw [UInt32.size]
    omega
  have hone : (1 : UInt32).toNat = 1 := rfl
  unfold tagOf
  rw [UInt32.toNat_add, hofNat, hone]
  exact Nat.mod_eq_of_lt ha

theorem tagOf_ne_zero (ha : a + 1 < 2 ^ 32) : tagOf a ≠ 0 := by
  intro hzero
  have htag := toNat_tagOf ha
  rw [hzero] at htag
  have hnat : (0 : UInt32).toNat = 0 := rfl
  omega

theorem tagOf_inj (ha : a + 1 < 2 ^ 32) (hb : b + 1 < 2 ^ 32) (h : tagOf a = tagOf b)
    : a = b := by
  have htag := toNat_tagOf ha
  rw [h, toNat_tagOf hb] at htag
  omega

theorem restamp_of_eq {te : TimedEv} {curTag : UInt32} (h : te.tag = curTag)
    : te.restamp curTag = te := by
  unfold TimedEv.restamp
  rw [if_neg]
  intro hne
  exact hne.2 h

theorem restamp_of_ne {te : TimedEv} {curTag : UInt32} (hzero : te.tag ≠ 0)
    (h : te.tag ≠ curTag) : te.restamp curTag = now te := by
  unfold TimedEv.restamp now
  rw [if_pos ⟨hzero, h⟩]

theorem now_kind (te : TimedEv) : (now te).kind ≠ .ramp := by
  unfold now
  dsimp only
  split
  next => exact nofun
  next h => exact h

end Tags

section Invariant

variable {s : DomainRun}

-- The session whose tag the audio thread stamps with.
def AudioPc.domain : AudioPc → Nat → Nat
  | .tagged gen, _ => gen
  | _, adopted => adopted

-- What the audio thread knows of the sessions is behind them.
structure AudioOk (gen adopted : Nat) (pc : AudioPc) (tag : UInt32) (stamps : List Stamp)
    : Prop where
  behind : adopted ≤ gen
  adopting : ∀ g, pc = .adopting g → g ≤ gen
  tagged : ∀ g, pc = .tagged g → g ≤ gen
  tag : tag = tagOf (pc.domain adopted)
  stamps : ∀ st ∈ stamps, st.ev.tag = tagOf st.adopted ∧ st.adopted ≤ gen

-- A pump runs in a session only, and with the session's tag.
structure SupervisorOk (gen : Nat) (pc : SupervisorPc) (expectedTag : UInt32) (pump : PumpPc)
    : Prop where
  expect : ∀ g, pc = .expect g → g = gen
  expected : pc = .spawn ∨ pc = .up ∨ pc = .joining → expectedTag = tagOf gen
  live : pump ≠ .exited → pc = .up ∨ pc = .joining
  draining : ∀ curTag batch, pump = .draining curTag batch → curTag = tagOf gen

structure EventsOk (stamps : List Stamp) (ring : List Queued) (inHand sent : List SentEv)
    : Prop where
  ring : ∀ q ∈ ring, ∃ st, stamps[q.op]? = some st ∧ st.ev = q.ev
  inHand : ∀ x ∈ inHand, Stamped stamps x ∨ SentNow stamps x
  sent : ∀ x ∈ sent, Stamped stamps x ∨ SentNow stamps x

-- `placed` is where the events are that are neither drained nor lost.
structure OnceOk (n : Nat) (drained lost placed : List Nat) : Prop where
  once : (List.range n).filter (fun op => op ∉ drained ∧ op ∉ lost) = placed
  drained : ∀ op ∈ drained, op < n
  lost : ∀ op ∈ lost, op < n

structure DomainInv (s : DomainRun) : Prop where
  narrow : s.sessionGen + 1 < 2 ^ 32
  audio : AudioOk s.sessionGen s.fxAdoptedGen s.audio s.domainTag s.stamps
  supervisor : SupervisorOk s.sessionGen s.supervisor s.em.expectedTag s.pump
  events : EventsOk s.stamps s.em.ring s.inHand s.sent
  once : OnceOk s.stamps.length s.drained s.lost
    (s.sent.filterMap SentEv.op ++ s.inHand.filterMap SentEv.op ++ s.em.ring.map Queued.op)

theorem domainInv_init : DomainInv .init := by
  constructor
  . decide
  . constructor
    . exact Nat.le_refl 0
    . exact nofun
    . exact nofun
    . rfl
    . exact nofun
  . constructor
    . exact nofun
    . exact nofun
    . intro hlive
      exact absurd rfl hlive
    . exact nofun
  . constructor
    . exact nofun
    . exact nofun
    . exact nofun
  . constructor
    . rfl
    . exact nofun
    . exact nofun

theorem getElem?_stamps {stamps : List Stamp} {op : Nat} {st : Stamp}
    (h : stamps[op]? = some st) (l : List Stamp) : (stamps ++ l)[op]? = some st := by
  obtain ⟨hlt, _⟩ := List.getElem?_eq_some_iff.mp h
  rw [List.getElem?_append_left hlt]
  exact h

theorem Stamped.append {stamps : List Stamp} {x : SentEv} (h : Stamped stamps x)
    (l : List Stamp) : Stamped (stamps ++ l) x := by
  obtain ⟨op, st, hop, hst, hadopted, hev⟩ := h
  exact ⟨op, st, hop, getElem?_stamps hst l, hadopted, hev⟩

theorem SentNow.append {stamps : List Stamp} {x : SentEv} (h : SentNow stamps x)
    (l : List Stamp) : SentNow (stamps ++ l) x := by
  obtain ⟨hts, hkind, hop⟩ := h
  refine ⟨hts, hkind, ?_⟩
  intro op heq
  obtain ⟨st, hst, hev⟩ := hop op heq
  exact ⟨st, getElem?_stamps hst l, hev⟩

theorem EventsOk.push {stamps : List Stamp} {ring : List Queued} {inHand sent : List SentEv}
    (h : EventsOk stamps ring inHand sent) (ev : TimedEv) (adopted : Nat)
    : EventsOk (stamps ++ [⟨ev, adopted⟩]) (ring ++ [⟨stamps.length, ev⟩]) inHand sent := by
  have hfresh : ∀ x, Stamped stamps x ∨ SentNow stamps x
      → Stamped (stamps ++ [⟨ev, adopted⟩]) x ∨ SentNow (stamps ++ [⟨ev, adopted⟩]) x := by
    intro x hx
    cases hx with
    | inl hstamped => exact .inl (hstamped.append _)
    | inr hnow => exact .inr (hnow.append _)
  constructor
  . intro q hq
    rw [List.mem_append, List.mem_singleton] at hq
    cases hq with
    | inl hold =>
      obtain ⟨st, hst, hev⟩ := h.ring q hold
      exact ⟨st, getElem?_stamps hst _, hev⟩
    | inr hnew =>
      refine ⟨⟨ev, adopted⟩, ?_, ?_⟩
      . rw [hnew]
        exact List.getElem?_concat_length
      . rw [hnew]
  . intro x hx
    exact hfresh x (h.inHand x hx)
  . intro x hx
    exact hfresh x (h.sent x hx)

theorem OnceOk.push {n : Nat} {drained lost placed : List Nat} (h : OnceOk n drained lost placed)
    : OnceOk (n + 1) drained lost (placed ++ [n]) := by
  have hdrained : n ∉ drained := by
    intro hn
    exact Nat.lt_irrefl n (h.drained n hn)
  have hlost : n ∉ lost := by
    intro hn
    exact Nat.lt_irrefl n (h.lost n hn)
  constructor
  . rw [List.range_succ, List.filter_append, h.once, List.filter_singleton]
    simp [hdrained, hlost]
  . intro op hop
    exact Nat.lt_succ_of_lt (h.drained op hop)
  . intro op hop
    exact Nat.lt_succ_of_lt (h.lost op hop)

theorem OnceOk.nodup {n : Nat} {drained lost placed : List Nat} (h : OnceOk n drained lost placed)
    : placed.Nodup := by
  rw [← h.once]
  exact List.nodup_range.filter _

theorem OnceOk.lt {n op : Nat} {drained lost placed : List Nat} (h : OnceOk n drained lost placed)
    (hop : op ∈ placed) : op < n := by
  rw [← h.once, List.mem_filter, List.mem_range] at hop
  exact hop.1

theorem filter_middle {a b c : List Nat} (h : (a ++ b ++ c).Nodup)
    : (a ++ b ++ c).filter (fun op => op ∉ b) = a ++ c := by
  rw [List.append_assoc, List.nodup_append] at h
  obtain ⟨_, hbc, hdisjoint⟩ := h
  have hbc' := (List.nodup_append.mp hbc).2.2
  have hleft : a.filter (fun op => op ∉ b) = a := by
    rw [List.filter_eq_self]
    intro op hop
    apply decide_eq_true
    intro hb
    exact hdisjoint op hop op (List.mem_append_left c hb) rfl
  have hmiddle : b.filter (fun op => op ∉ b) = [] := by
    rw [List.filter_eq_nil_iff]
    intro op hop
    simp [hop]
  have hright : c.filter (fun op => op ∉ b) = c := by
    rw [List.filter_eq_self]
    intro op hop
    apply decide_eq_true
    intro hb
    exact hbc' op hb op hop rfl
  rw [List.filter_append, List.filter_append, hleft, hmiddle, hright, List.append_nil]

-- The queuings in the middle go, whichever way.
theorem OnceOk.filter_gone {n : Nat} {drained lost drained' lost' a b c : List Nat}
    (h : OnceOk n drained lost (a ++ b ++ c))
    (hgone : ∀ op, (op ∉ drained' ∧ op ∉ lost') ↔ op ∉ b ∧ op ∉ drained ∧ op ∉ lost)
    : (List.range n).filter (fun op => op ∉ drained' ∧ op ∉ lost') = a ++ c := by
  rw [← filter_middle h.nodup, ← h.once, List.filter_filter]
  congr 1
  funext op
  rw [← Bool.decide_and, decide_eq_decide]
  exact hgone op

theorem OnceOk.lt_append {n : Nat} {drained lost old a b c : List Nat}
    (h : OnceOk n drained lost (a ++ b ++ c)) (hold : ∀ op ∈ old, op < n)
    : ∀ op ∈ old ++ b, op < n := by
  intro op hop
  rw [List.mem_append] at hop
  cases hop with
  | inl hmem => exact hold op hmem
  | inr hmem => exact h.lt (List.mem_append_left c (List.mem_append_right a hmem))

theorem OnceOk.drain {n : Nat} {drained lost a b c : List Nat}
    (h : OnceOk n drained lost (a ++ b ++ c)) : OnceOk n (drained ++ b) lost (a ++ c) := by
  constructor
  . apply h.filter_gone
    intro op
    rw [List.mem_append]
    tauto
  . exact h.lt_append h.drained
  . exact h.lost

theorem OnceOk.lose {n : Nat} {drained lost a b c : List Nat}
    (h : OnceOk n drained lost (a ++ b ++ c)) : OnceOk n drained (lost ++ b) (a ++ c) := by
  constructor
  . apply h.filter_gone
    intro op
    rw [List.mem_append]
    tauto
  . exact h.drained
  . exact h.lt_append h.lost

theorem DomainInv.fxBeginBlock (h : DomainInv s) (hidle : s.audio = .idle)
    : DomainInv s.fxBeginBlock := by
  unfold DomainRun.fxBeginBlock
  split
  next => exact h
  next =>
    have htag := h.audio.tag
    rw [hidle] at htag
    refine ⟨h.narrow, ?_, h.supervisor, h.events, h.once⟩
    constructor
    . exact h.audio.behind
    . intro g hg
      cases hg
      exact Nat.le_refl _
    . exact nofun
    . exact htag
    . exact h.audio.stamps

theorem timed_tag {q : FxQueue} {fxHorizon : UInt64} {tag : UInt32} {ev : TimedEv}
    (h : q.timed fxHorizon tag = some ev) : ev.tag = tag := by
  cases q with
  | queueParamSet held id v ts channel =>
    unfold FxQueue.timed at h
    dsimp only at h
    split at h
    next => exact nomatch h
    next =>
      cases h
      rfl
  | queueRamp held id target start end_ channel =>
    unfold FxQueue.timed at h
    dsimp only at h
    split at h
    next => exact nomatch h
    next =>
      cases h
      rfl
  | queueNote word ts =>
    cases h
    rfl
  | queueMod id offset voice ts channel =>
    cases h
    rfl
  | queueTransport flags tempo ppqBits ts =>
    cases h
    rfl

theorem DomainInv.queue (h : DomainInv s) (hidle : s.audio = .idle) (q : FxQueue)
    : DomainInv (s.queue q) := by
  unfold DomainRun.queue
  cases htimed : q.timed s.fxHorizon s.domainTag with
  | none => exact h
  | some ev =>
    unfold EventManager.push
    dsimp only
    split
    next =>
      rw [if_pos rfl]
      have htag := h.audio.tag
      rw [hidle] at htag
      refine ⟨h.narrow, ?_, h.supervisor, h.events.push ev s.fxAdoptedGen, ?_⟩
      . constructor
        . exact h.audio.behind
        . exact nofun
        . exact nofun
        . exact htag
        . intro st hst
          rw [List.mem_append, List.mem_singleton] at hst
          cases hst with
          | inl hold => exact h.audio.stamps st hold
          | inr hnew =>
            rw [hnew]
            refine ⟨?_, h.audio.behind⟩
            rw [timed_tag htimed]
            exact htag
      . have honce := h.once.push
        dsimp only
        rw [List.length_append, List.length_singleton, List.map_append, ← List.append_assoc]
        exact honce
    next =>
      rw [if_neg Bool.false_ne_true]
      exact ⟨h.narrow, h.audio, h.supervisor, h.events, h.once⟩

theorem DomainInv.audioNext (h : DomainInv s) (written : Nat)
    : DomainInv (s.audioNext written) := by
  unfold DomainRun.audioNext
  have htag := h.audio.tag
  cases hpc : s.audio with
  | idle => exact h
  | adopting gen =>
    refine ⟨h.narrow, ?_, h.supervisor, h.events, h.once⟩
    constructor
    . exact h.audio.behind
    . exact nofun
    . intro g hg
      cases hg
      exact h.audio.adopting gen hpc
    . rfl
    . exact h.audio.stamps
  | tagged gen =>
    rw [hpc] at htag
    refine ⟨h.narrow, ?_, h.supervisor, h.events, h.once⟩
    constructor
    . exact h.audio.tagged gen hpc
    . exact nofun
    . exact nofun
    . exact htag
    . exact h.audio.stamps
  | pushed =>
    rw [hpc] at htag
    exact ⟨h.narrow, ⟨h.audio.behind, nofun, nofun, htag, h.audio.stamps⟩, h.supervisor,
      h.events, h.once⟩
  | published =>
    rw [hpc] at htag
    exact ⟨h.narrow, ⟨h.audio.behind, nofun, nofun, htag, h.audio.stamps⟩, h.supervisor,
      h.events, h.once⟩

-- No pump runs outside a session, so that nothing is in hand.
theorem DomainInv.exited (h : DomainInv s) (hup : s.supervisor ≠ .up)
    (hjoining : s.supervisor ≠ .joining) : s.pump = .exited := by
  by_contra hlive
  cases h.supervisor.live hlive with
  | inl heq => exact hup heq
  | inr heq => exact hjoining heq

theorem DomainRun.inHand_exited (h : s.pump = .exited) : s.inHand = [] := by
  unfold DomainRun.inHand
  rw [h]

theorem DomainInv.drainStale (h : DomainInv s) (hpc : s.supervisor = .drainStale)
    : DomainInv s.drainStale := by
  have hpump : s.pump = .exited := by
    apply h.exited
    . rw [hpc]
      exact nofun
    . rw [hpc]
      exact nofun
  have hhand := DomainRun.inHand_exited hpump
  have hsupervisor := h.supervisor
  have honce := h.once
  have hevents := h.events
  unfold DomainRun.drainStale
  cases hring : s.em.ring with
  | nil =>
    refine ⟨h.narrow, h.audio, ?_, h.events, h.once⟩
    constructor
    . exact nofun
    . exact nofun
    . intro hlive
      exact absurd hpump hlive
    . exact h.supervisor.draining
  | cons q ring =>
    refine ⟨h.narrow, h.audio, h.supervisor, ?_, ?_⟩
    . rw [hring] at hevents
      refine ⟨?_, h.events.inHand, h.events.sent⟩
      intro q' hq'
      exact hevents.ring q' (List.mem_cons_of_mem q hq')
    . rw [hring, List.map_cons, hhand, List.filterMap_nil, List.append_nil] at honce
      have hsplit := OnceOk.drain (b := [q.op]) (by
        rw [List.append_assoc]
        exact honce)
      show OnceOk s.stamps.length (s.drained ++ [q.op]) s.lost
        (s.sent.filterMap SentEv.op ++ s.inHand.filterMap SentEv.op ++ ring.map Queued.op)
      rw [hhand, List.filterMap_nil, List.append_nil]
      exact hsplit

-- A step of the supervisor that tells the pump nothing.
theorem DomainInv.setSupervisor (h : DomainInv s) (pc : SupervisorPc) (em : EventManager)
    (connected : Bool) (hpump : s.pump ≠ .exited → pc = .up ∨ pc = .joining)
    (hexpect : ∀ g, pc ≠ .expect g)
    (hexpected : pc = .spawn ∨ pc = .up ∨ pc = .joining → s.em.expectedTag = tagOf s.sessionGen)
    (hring : em.ring = s.em.ring) (htag : em.expectedTag = s.em.expectedTag)
    : DomainInv { s with em := em, connected := connected, supervisor := pc } := by
  have hevents := h.events
  have honce := h.once
  rw [← hring] at hevents honce
  refine ⟨h.narrow, h.audio, ?_, hevents, honce⟩
  constructor
  . intro g hg
    exact absurd hg (hexpect g)
  . intro hpc
    dsimp only
    rw [htag]
    exact hexpected hpc
  . exact hpump
  . exact h.supervisor.draining

theorem DomainInv.bump (h : DomainInv s) (hpc : s.supervisor = .bump)
    (hnarrow : s.sessionGen + 2 < 2 ^ 32)
    : DomainInv
        { s with
          sessionGen := s.sessionGen + 1, supervisor := .expect (s.sessionGen + 1) } := by
  have hpump : s.pump = .exited := by
    apply h.exited
    . rw [hpc]
      exact nofun
    . rw [hpc]
      exact nofun
  refine ⟨hnarrow, ?_, ?_, h.events, h.once⟩
  . constructor
    . exact Nat.le_succ_of_le h.audio.behind
    . intro g hg
      exact Nat.le_succ_of_le (h.audio.adopting g hg)
    . intro g hg
      exact Nat.le_succ_of_le (h.audio.tagged g hg)
    . exact h.audio.tag
    . intro st hst
      exact ⟨(h.audio.stamps st hst).1, Nat.le_succ_of_le (h.audio.stamps st hst).2⟩
  . constructor
    . intro g hg
      cases hg
      rfl
    . exact nofun
    . intro hlive
      exact absurd hpump hlive
    . intro curTag batch hdraining
      dsimp only at hdraining
      rw [hpump] at hdraining
      exact nomatch hdraining

theorem DomainInv.supervisorNext (h : DomainInv s)
    (hnarrow : s.supervisor = .bump → s.sessionGen + 2 < 2 ^ 32)
    : DomainInv s.supervisorNext := by
  have hpump : s.supervisor ≠ .up → s.supervisor ≠ .joining
      → s.pump ≠ .exited → ∀ p : Prop, p := by
    intro hup hjoining hlive
    exact absurd (h.exited hup hjoining) hlive
  unfold DomainRun.supervisorNext
  cases hpc : s.supervisor with
  | down => exact h
  | drainStale => exact h.drainStale hpc
  | zeroSeq =>
    rw [hpc] at hpump
    exact h.setSupervisor .zeroBase s.em.zeroSeq s.connected
      (fun hlive => hpump nofun nofun hlive _) nofun nofun rfl rfl
  | zeroBase =>
    rw [hpc] at hpump
    exact h.setSupervisor .connect s.em.zeroBase s.connected
      (fun hlive => hpump nofun nofun hlive _) nofun nofun rfl rfl
  | connect =>
    rw [hpc] at hpump
    exact h.setSupervisor .bump s.em true
      (fun hlive => hpump nofun nofun hlive _) nofun nofun rfl rfl
  | bump => exact h.bump hpc (hnarrow hpc)
  | expect gen =>
    rw [hpc] at hpump
    refine ⟨h.narrow, h.audio, ?_, h.events, h.once⟩
    constructor
    . exact nofun
    . intro _
      rw [h.supervisor.expect gen hpc]
    . intro hlive
      exact hpump nofun nofun hlive _
    . exact h.supervisor.draining
  | spawn =>
    rw [hpc] at hpump
    have hexited := h.exited (by rw [hpc]; exact nofun) (by rw [hpc]; exact nofun)
    have hhand := DomainRun.inHand_exited hexited
    have hevents := h.events
    have honce := h.once
    rw [hhand] at hevents honce
    refine ⟨h.narrow, h.audio, ?_, hevents, honce⟩
    constructor
    . exact nofun
    . intro _
      exact h.supervisor.expected (.inl hpc)
    . intro _
      exact .inl rfl
    . exact nofun
  | up => exact h
  | joining =>
    dsimp only
    split
    next hexit =>
      exact h.setSupervisor .down s.em s.connected
        (fun hlive => absurd hexit hlive) nofun nofun rfl rfl
    next => exact h

theorem now_panicEv (stamps : List Stamp) (gen : Nat)
    : SentNow stamps ⟨none, gen, DomainRun.panicEv⟩ := by
  refine ⟨rfl, nofun, ?_⟩
  intro op hop
  exact nomatch hop

-- The pump goes on, with the events it had.
theorem DomainInv.setPump (h : DomainInv s) {pc : PumpPc} (hlive : s.pump ≠ .exited)
    (hdraining : ∀ curTag batch, pc = .draining curTag batch → curTag = tagOf s.sessionGen)
    (hhand : { s with pump := pc }.inHand = s.inHand) : DomainInv { s with pump := pc } := by
  have hevents := h.events
  have honce := h.once
  rw [← hhand] at hevents honce
  refine ⟨h.narrow, h.audio, ?_, hevents, honce⟩
  exact ⟨h.supervisor.expect, h.supervisor.expected, fun _ => h.supervisor.live hlive, hdraining⟩

theorem DomainInv.pumpTop (h : DomainInv s) (hpc : s.pump = .top) (ok : Bool)
    : DomainInv (s.pumpTop ok) := by
  have hlive : s.pump ≠ .exited := by
    rw [hpc]
    exact nofun
  have hhand : s.inHand = [] := by
    unfold DomainRun.inHand
    rw [hpc]
  unfold DomainRun.pumpTop
  split
  next =>
    split
    next =>
      have hevents := h.events
      have honce := h.once
      rw [hhand] at hevents honce
      refine ⟨h.narrow, h.audio, ?_, ?_, ?_⟩
      . exact ⟨h.supervisor.expect, h.supervisor.expected, fun _ => h.supervisor.live hlive, nofun⟩
      . refine ⟨h.events.ring, nofun, ?_⟩
        intro x hx
        cases ok with
        | false => exact h.events.sent x hx
        | true =>
          dsimp only at hx
          rw [if_pos rfl, List.mem_append, List.mem_singleton] at hx
          cases hx with
          | inl hold => exact h.events.sent x hold
          | inr hnew =>
            rw [hnew]
            exact .inr (now_panicEv s.stamps s.sessionGen)
      . cases ok with
        | false => exact honce
        | true =>
          show OnceOk s.stamps.length s.drained s.lost
            ((s.sent ++ [SentEv.mk none s.sessionGen DomainRun.panicEv]).filterMap SentEv.op ++ []
              ++ s.em.ring.map Queued.op)
          rw [List.filterMap_append]
          simpa using honce
    next => exact h.setPump hlive nofun (by rw [hhand]; rfl)
  next =>
    have hevents := h.events
    have honce := h.once
    rw [hhand] at hevents honce
    refine ⟨h.narrow, h.audio, ?_, hevents, honce⟩
    exact ⟨h.supervisor.expect, h.supervisor.expected, fun hne => absurd rfl hne, nofun⟩

theorem fresh_restamp {stamps : List Stamp} {q : Queued} {st : Stamp} {gen : Nat}
    (hst : stamps[q.op]? = some st) (hev : st.ev = q.ev)
    (htag : st.ev.tag = tagOf st.adopted ∧ st.adopted ≤ gen) (hgen : gen + 1 < 2 ^ 32)
    : Stamped stamps ⟨some q.op, gen, q.ev.restamp (tagOf gen)⟩
      ∨ SentNow stamps ⟨some q.op, gen, q.ev.restamp (tagOf gen)⟩ := by
  obtain ⟨heq, hle⟩ := htag
  rw [hev] at heq
  by_cases hadopted : st.adopted = gen
  . apply Or.inl
    refine ⟨q.op, st, rfl, hst, hadopted, ?_⟩
    rw [hev]
    apply restamp_of_eq
    rw [heq, hadopted]
  . apply Or.inr
    have hnow : q.ev.restamp (tagOf gen) = now q.ev := by
      apply restamp_of_ne
      . rw [heq]
        apply tagOf_ne_zero
        omega
      . rw [heq]
        intro hsame
        apply hadopted
        exact tagOf_inj (by omega) hgen hsame
    rw [hnow]
    refine ⟨rfl, now_kind q.ev, ?_⟩
    intro op hop
    cases hop
    refine ⟨st, hst, ?_⟩
    rw [hev]

theorem DomainInv.pumpPop (h : DomainInv s) {curTag : UInt32} {batch : List SentEv}
    (hpc : s.pump = .draining curTag batch) : DomainInv (s.pumpPop curTag batch) := by
  have hlive : s.pump ≠ .exited := by
    rw [hpc]
    exact nofun
  have hhand : s.inHand = batch := by
    unfold DomainRun.inHand
    rw [hpc]
  have hcur := h.supervisor.draining curTag batch hpc
  unfold DomainRun.pumpPop
  cases hring : s.em.ring with
  | nil =>
    dsimp only
    apply h.setPump hlive
    . intro curTag' batch' hsame
      split at hsame
      next => exact nomatch hsame
      next => exact nomatch hsame
    . rw [hhand]
      split
      next hempty =>
        rw [List.isEmpty_iff] at hempty
        rw [hempty]
        rfl
      next => rfl
  | cons q ring =>
    dsimp only
    split
    next =>
      have hevents := h.events
      have honce := h.once
      rw [hring, hhand] at hevents honce
      refine ⟨h.narrow, h.audio, ?_, ?_, ?_⟩
      . refine ⟨h.supervisor.expect, h.supervisor.expected, fun _ => h.supervisor.live hlive, ?_⟩
        intro curTag' batch' hsame
        cases hsame
        exact hcur
      . constructor
        . intro q' hq'
          exact hevents.ring q' (List.mem_cons_of_mem q hq')
        . intro x hx
          have hx' : x ∈ batch ++ [⟨some q.op, s.sessionGen, q.ev.restamp curTag⟩] := hx
          rw [List.mem_append, List.mem_singleton] at hx'
          cases hx' with
          | inl hold => exact hevents.inHand x hold
          | inr hnew =>
            obtain ⟨st, hst, hev⟩ := hevents.ring q List.mem_cons_self
            rw [hnew, hcur]
            apply fresh_restamp hst hev
            . exact h.audio.stamps st (List.mem_of_getElem? hst)
            . exact h.narrow
        . exact h.events.sent
      . have hplaced : (batch ++ [SentEv.mk (some q.op) s.sessionGen (q.ev.restamp curTag)]).filterMap
            SentEv.op = batch.filterMap SentEv.op ++ [q.op] := by
          rw [List.filterMap_append]
          rfl
        show OnceOk s.stamps.length s.drained s.lost (s.sent.filterMap SentEv.op
          ++ (batch ++ [SentEv.mk (some q.op) s.sessionGen (q.ev.restamp curTag)]).filterMap
            SentEv.op
          ++ ring.map Queued.op)
        rw [hplaced, ← List.append_assoc, List.append_assoc _ [q.op]]
        exact honce
    next =>
      apply h.setPump hlive
      . exact nofun
      . rw [hhand]
        rfl

theorem DomainInv.pumpWrite (h : DomainInv s) {batch : List SentEv} (hpc : s.pump = .write batch)
    (ok : Bool) : DomainInv (s.pumpWrite batch ok) := by
  have hlive : s.pump ≠ .exited := by
    rw [hpc]
    exact nofun
  have hhand : s.inHand = batch := by
    unfold DomainRun.inHand
    rw [hpc]
  have hevents := h.events
  have honce := h.once
  rw [hhand] at hevents honce
  unfold DomainRun.pumpWrite
  cases ok with
  | true =>
    rw [if_pos rfl]
    refine ⟨h.narrow, h.audio, ?_, ?_, ?_⟩
    . exact ⟨h.supervisor.expect, h.supervisor.expected, fun _ => h.supervisor.live hlive, nofun⟩
    . refine ⟨h.events.ring, nofun, ?_⟩
      intro x hx
      dsimp only at hx
      rw [List.mem_append] at hx
      cases hx with
      | inl hold => exact h.events.sent x hold
      | inr hnew => exact hevents.inHand x hnew
    . show OnceOk s.stamps.length s.drained s.lost
        ((s.sent ++ batch).filterMap SentEv.op ++ [] ++ s.em.ring.map Queued.op)
      rw [List.filterMap_append, List.append_nil]
      exact honce
  | false =>
    rw [if_neg Bool.false_ne_true]
    refine ⟨h.narrow, h.audio, ?_, ?_, ?_⟩
    . exact ⟨h.supervisor.expect, h.supervisor.expected, fun _ => h.supervisor.live hlive, nofun⟩
    . exact ⟨h.events.ring, nofun, h.events.sent⟩
    . show OnceOk s.stamps.length s.drained (s.lost ++ batch.filterMap SentEv.op)
        (s.sent.filterMap SentEv.op ++ [] ++ s.em.ring.map Queued.op)
      rw [List.append_nil]
      exact honce.lose

theorem DomainInv.pumpNext (h : DomainInv s) (ok : Bool) : DomainInv (s.pumpNext ok) := by
  unfold DomainRun.pumpNext
  cases hpc : s.pump with
  | exited => exact h
  | top => exact h.pumpTop hpc ok
  | loadTag =>
    have hlive : s.pump ≠ .exited := by
      rw [hpc]
      exact nofun
    apply h.setPump hlive
    . intro curTag batch hsame
      cases hsame
      exact h.supervisor.expected (.inr (h.supervisor.live hlive))
    . unfold DomainRun.inHand
      rw [hpc]
  | draining curTag batch => exact h.pumpPop hpc
  | write batch => exact h.pumpWrite hpc ok

theorem DomainInv.next (h : DomainInv s) (a : DomainRun.DomainAct) (hnarrow : s.narrow a)
    : DomainInv (s.next a) := by
  unfold DomainRun.next
  cases a with
  | fxBeginBlock =>
    dsimp only
    split
    next hidle => exact h.fxBeginBlock hidle
    next => exact h
  | queue q =>
    dsimp only
    split
    next hidle => exact h.queue hidle q
    next => exact h
  | writeFxInput =>
    dsimp only
    split
    next hidle =>
      have htag := h.audio.tag
      rw [hidle] at htag
      exact ⟨h.narrow, ⟨h.audio.behind, nofun, nofun, htag, h.audio.stamps⟩, h.supervisor,
        h.events, h.once⟩
    next => exact h
  | audio written => exact h.audioNext written
  | sessionUp =>
    dsimp only
    split
    next hdown =>
      have hexited := h.exited (by rw [hdown]; exact nofun) (by rw [hdown]; exact nofun)
      exact h.setSupervisor .drainStale s.em s.connected
        (fun hlive => absurd hexited hlive) nofun nofun rfl rfl
    next => exact h
  | supervisor => exact h.supervisorNext hnarrow
  | sessionDown =>
    dsimp only
    split
    next hup =>
      have hexpected := h.supervisor.expected (.inr (.inl hup))
      exact h.setSupervisor .joining s.em false
        (fun _ => .inr rfl) nofun (fun _ => hexpected) rfl rfl
    next => exact h
  | disconnect => exact ⟨h.narrow, h.audio, h.supervisor, h.events, h.once⟩
  | pump ok => exact h.pumpNext ok

end Invariant

section Progress

variable {s : DomainRun}

-- How far the pump's next step in its pass is from the end.
def PumpPc.phase : PumpPc → Nat
  | .exited => 0
  | .draining _ [] => 1
  | .loadTag => 2
  | .top => 3
  | .write _ => 4
  | .draining _ (_ :: _) => 5

def DomainRun.rank (s : DomainRun) : Nat :=
  10 * s.em.ring.length + s.pump.phase

theorem PumpPc.phase_draining (curTag : UInt32) (batch : List SentEv)
    : (PumpPc.draining curTag batch).phase = if batch.isEmpty then 1 else 5 := by
  cases batch with
  | nil => rfl
  | cons x xs => rfl

-- A pass of a connected pump comes nearer to an empty ring with every step.
theorem DomainRun.pumpNext_rank (hlive : s.pump ≠ .exited) (hconnected : s.connected = true)
    (hbusy : ¬(s.inHand = [] ∧ s.em.ring = []))
    : (s.pumpNext true).pump ≠ .exited ∧ (s.pumpNext true).connected = true
      ∧ (s.pumpNext true).rank < s.rank := by
  unfold DomainRun.pumpNext
  cases hpc : s.pump with
  | exited => exact absurd hpc hlive
  | top =>
    have hphase : s.pump.phase = 3 := by
      rw [hpc]
      rfl
    dsimp only
    unfold DomainRun.pumpTop
    rw [if_pos hconnected]
    split
    next =>
      refine ⟨nofun, hconnected, ?_⟩
      show 10 * s.em.ring.length + 2 < 10 * s.em.ring.length + s.pump.phase
      omega
    next =>
      refine ⟨nofun, hconnected, ?_⟩
      show 10 * s.em.ring.length + 2 < 10 * s.em.ring.length + s.pump.phase
      omega
  | loadTag =>
    have hphase : s.pump.phase = 2 := by
      rw [hpc]
      rfl
    refine ⟨nofun, hconnected, ?_⟩
    show 10 * s.em.ring.length + 1 < 10 * s.em.ring.length + s.pump.phase
    omega
  | draining curTag batch =>
    have hphase : s.pump.phase = if batch.isEmpty then 1 else 5 := by
      rw [hpc, PumpPc.phase_draining]
    unfold DomainRun.inHand at hbusy
    rw [hpc] at hbusy
    dsimp only at hbusy ⊢
    unfold DomainRun.pumpPop
    cases hring : s.em.ring with
    | nil =>
      have hbatch : batch.isEmpty = false := by
        cases batch with
        | nil => exact absurd ⟨rfl, hring⟩ hbusy
        | cons x xs => rfl
      rw [hbatch, if_neg Bool.false_ne_true] at hphase
      dsimp only
      rw [hbatch, if_neg Bool.false_ne_true]
      refine ⟨nofun, hconnected, ?_⟩
      show 10 * s.em.ring.length + 4 < 10 * s.em.ring.length + s.pump.phase
      omega
    | cons q ring =>
      have hlen : s.em.ring.length = ring.length + 1 := by
        rw [hring]
        rfl
      dsimp only
      split
      next =>
        refine ⟨nofun, hconnected, ?_⟩
        have hleft : (PumpPc.draining curTag
            (batch ++ [SentEv.mk (some q.op) s.sessionGen (q.ev.restamp curTag)])).phase ≤ 5 := by
          rw [PumpPc.phase_draining]
          split
          next => omega
          next => omega
        have hright : 1 ≤ s.pump.phase := by
          rw [hphase]
          split
          next => omega
          next => omega
        unfold DomainRun.rank
        dsimp only
        omega
      next hfull =>
        have hbatch : batch.isEmpty = false := by
          cases batch with
          | nil => exact absurd (Nat.zero_lt_succ 63) hfull
          | cons x xs => rfl
        rw [hbatch, if_neg Bool.false_ne_true] at hphase
        refine ⟨nofun, hconnected, ?_⟩
        show 10 * s.em.ring.length + 4 < 10 * s.em.ring.length + s.pump.phase
        omega
  | write batch =>
    have hphase : s.pump.phase = 4 := by
      rw [hpc]
      rfl
    dsimp only
    unfold DomainRun.pumpWrite
    rw [if_pos rfl]
    refine ⟨nofun, hconnected, ?_⟩
    show 10 * s.em.ring.length + 3 < 10 * s.em.ring.length + s.pump.phase
    omega

theorem DomainRun.delivers (hlive : s.pump ≠ .exited) (hconnected : s.connected = true)
    : ∃ n, ((fun s => s.pumpNext true)^[n] s).inHand = []
      ∧ ((fun s => s.pumpNext true)^[n] s).em.ring = [] := by
  induction hrank : s.rank using Nat.strong_induction_on generalizing s with
  | _ k ih =>
    by_cases hbusy : s.inHand = [] ∧ s.em.ring = []
    . exact ⟨0, hbusy⟩
    . obtain ⟨hlive', hconnected', hlt⟩ := DomainRun.pumpNext_rank hlive hconnected hbusy
      rw [hrank] at hlt
      obtain ⟨n, hn⟩ := ih _ hlt hlive' hconnected' rfl
      exact ⟨n + 1, hn⟩

end Progress

/--
As long as a session's generation fits into a tag, an event that is sent either was stamped in the
session it is sent in or is sent with timestamp 0, a ramp as a set of its target. The events neither
drained at a session's start nor lost with a failed write are sent once each and in queue order.
-/
theorem domainLaw_of_narrow {s : DomainRun} (h : Run DomainRun.next DomainRun.narrow .init s)
    : DomainLaw s s.lost := by
  have hinv : DomainInv s := by
    apply h.inv
    . exact domainInv_init
    . intro s a hs hnarrow
      exact hs.next a hnarrow
  constructor
  . exact hinv.events.sent
  . exact hinv.once.once
  . intro hlive hconnected
    exact DomainRun.delivers hlive hconnected

open DomainRun (DomainAct)

def sessionUp : List DomainAct :=
  .sessionUp :: List.replicate 7 .supervisor

def queueSet : List DomainAct :=
  [.queue (.queueParamSet false 7 (Fp.ofBits 0) 4800 0), .audio 0]

-- A set is stamped before the audio thread adopts the session and another one after that.
def adoption : List DomainAct :=
  sessionUp ++ queueSet ++ [.fxBeginBlock, .audio 0, .audio 0] ++ queueSet
    ++ List.replicate 7 (.pump true)

theorem domainLaw_adoption
    : DomainLaw (adoption.foldl DomainRun.next .init) (adoption.foldl DomainRun.next .init).lost
      ∧ (adoption.foldl DomainRun.next .init).sent.map (fun x => x.ev.ts) = [0, 4800] := by
  refine ⟨?_, ?_⟩
  . apply domainLaw_of_narrow
    apply Run.of_guarded
    . exact .start
    . decide
  . rfl

-- The device is gone when the pump writes the set.
def unplugged : List DomainAct :=
  sessionUp ++ queueSet ++ List.replicate 4 (.pump true) ++ [.pump false]

theorem not_domainLaw_unplugged
    : ¬∀ s, Run DomainRun.next free .init s → DomainLaw s [] := by
  intro hall
  have hrun : Run DomainRun.next free .init (unplugged.foldl DomainRun.next .init) := by
    apply Run.foldl
    exact .start
  have honce := (hall _ hrun).once
  have hnone : [0] = ([] : List Nat) := honce
  exact nomatch hnone

section Wrap

-- After `n` sessions in which nothing was queued.
def quiet (n : Nat) (expectedTag : UInt32) : DomainRun :=
  { DomainRun.init with
    em := { EventManager.fresh with expectedTag := expectedTag }
    sessionGen := n }

def emptySession : List DomainAct :=
  sessionUp ++ [.sessionDown, .pump true, .supervisor]

theorem run_quiet (n : Nat)
    : ∃ expectedTag, Run DomainRun.next free .init (quiet n expectedTag) := by
  induction n with
  | zero => exact ⟨0, .start⟩
  | succ n ih =>
    obtain ⟨expectedTag, hrun⟩ := ih
    exact ⟨tagOf (n + 1), hrun.foldl emptySession⟩

-- A set that is stamped in session `n + 1`, after the next one has drained the ring.
def stale : List DomainAct :=
  [.fxBeginBlock, .audio 0, .audio 0] ++ sessionUp ++ queueSet ++ List.replicate 5 (.pump true)

theorem sent_stale (n : Nat) (expectedTag : UInt32)
    : (stale.foldl DomainRun.next (quiet (n + 1) expectedTag)).sent
          = [⟨some 0, n + 2, (⟨.param, 7, Fp.ofBits 0, 4800, 0, 0, tagOf (n + 1)⟩ : TimedEv).restamp
              (tagOf (n + 2))⟩]
        ∧ (stale.foldl DomainRun.next (quiet (n + 1) expectedTag)).stamps
          = [⟨⟨.param, 7, Fp.ofBits 0, 4800, 0, 0, tagOf (n + 1)⟩, n + 1⟩] := by
  simp [stale, sessionUp, queueSet, quiet, DomainRun.init, DomainRun.next, DomainRun.fxBeginBlock,
    DomainRun.audioNext, DomainRun.supervisorNext, DomainRun.drainStale, DomainRun.queue,
    DomainRun.pumpNext, DomainRun.pumpTop, DomainRun.pumpPop, DomainRun.pumpWrite, List.replicate,
    EventManager.fresh, EventManager.zeroSeq, EventManager.zeroBase, EventManager.push,
    EventManager.count, EventManager.drainBudget, timedRingCap, FxQueue.timed, fxClampTs]

-- The tag of session 2 ^ 32 - 1 is the one that says "untagged".
theorem not_domainLaw_wrapped
    : ¬∀ s, Run DomainRun.next free .init s → DomainLaw s s.lost := by
  intro hall
  obtain ⟨expectedTag, hrun⟩ := run_quiet (4294967294 + 1)
  have hfresh := (hall _ (hrun.foldl stale)).fresh
  obtain ⟨hsent, hstamps⟩ := sent_stale 4294967294 expectedTag
  rw [hsent, hstamps] at hfresh
  have hzero : tagOf (4294967294 + 1) = 0 := by decide
  rw [hzero] at hfresh
  cases hfresh _ List.mem_cons_self with
  | inl hstamped =>
    obtain ⟨op, st, hop, hst, hadopted, _⟩ := hstamped
    cases hop
    cases hst
    exact absurd hadopted (by decide)
  | inr hnow => exact absurd hnow.1 (by decide)

end Wrap

end DomainTags

end Harp
