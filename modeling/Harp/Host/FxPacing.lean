import Harp.Host.FxFeeder

/-!
This module contains what holds of an effect's pacing frames over every interleaving of the audio
thread and the feeder: which input they carry and which events their fence counts.
-/

namespace Harp

open Runs StreamRings

section Carried

variable {α : Type} {cap : Nat} {s : FxFeed α cap}

-- The feeder has taken the input up to `ssi`, as long as no write was refused.
structure FeedTrack (s : FxFeed α cap) : Prop where
  written : s.adopted = true → s.fxInBase + s.inputs.length = s.fxInRing.head
  taken : s.adopted = true → s.ssi + s.fxInBase = max s.fxInBase s.fxInRing.tail
  items : s.adopted = true
    → s.fxInRing.items.drop (s.fxInBase - s.fxInRing.tail) = s.inputs.drop s.ssi
  ssi : s.ssi = kBlock * s.sent.length
  stale : s.feeder ≠ .top → s.fxInBase ≤ s.fxInRing.tail
  ready : s.feeder ≠ .top → s.feeder ≠ .loop → kBlock ≤ s.fxInRing.readAvailable

structure FeedInv (s : FxFeed α cap) : Prop where
  law : InputCarried s
  waiting : s.adopted = false → s.sent = [] ∧ s.feeder = .top
  track : s.refused = false → FeedTrack s

theorem feedInv_sessionUp (ring : StreamRing α cap) (fxInBase : Nat) (fxHorizon : UInt64)
    (domainTag expectedTag : UInt32)
    : FeedInv (FxFeed.sessionUp ring fxInBase fxHorizon domainTag expectedTag) := by
  constructor
  . constructor
    . intro i f hf
      simp [FxFeed.sessionUp] at hf
    . intro f hf
      exact absurd hf List.not_mem_nil
  . intro _
    exact ⟨rfl, rfl⟩
  . intro _
    constructor
    . intro hadopted
      simp [FxFeed.sessionUp] at hadopted
    . intro hadopted
      simp [FxFeed.sessionUp] at hadopted
    . intro hadopted
      simp [FxFeed.sessionUp] at hadopted
    . rfl
    . intro hne
      exact absurd rfl hne
    . intro hne
      exact absurd rfl hne

theorem FeedInv.fxBeginBlock (h : FeedInv s) (tag : UInt32) : FeedInv (s.fxBeginBlock tag) := by
  unfold FxFeed.fxBeginBlock
  split
  next => exact h
  next hadopted =>
    rw [Bool.not_eq_true] at hadopted
    rcases h.waiting hadopted with ⟨hsent, hfeeder⟩
    constructor
    . constructor
      . intro i f hf
        dsimp only at hf
        rw [hsent] at hf
        simp at hf
      . intro f hf
        dsimp only at hf
        rw [hsent] at hf
        exact absurd hf List.not_mem_nil
    . intro hfalse
      simp at hfalse
    . intro hrefused
      have hssi := (h.track hrefused).ssi
      have hhead := s.fxInRing.head_eq
      have hzero : s.ssi = 0 := by
        rw [hssi, hsent]
        rfl
      constructor
      . intro _
        rfl
      . intro _
        dsimp only
        omega
      . intro _
        dsimp only
        rw [List.drop_nil]
        apply List.drop_eq_nil_of_le
        omega
      . exact hssi
      . intro hne
        exact absurd hfeeder hne
      . intro hne
        exact absurd hfeeder hne

-- What touches neither the input nor the feeder.
theorem FeedInv.of_same (h : FeedInv s) {em : EventManager} {counted : List TimedEv}
    {audio : FxAudioPc α} {fxHorizon : UInt64} {recv : Nat}
    : FeedInv { s with
        em := em
        counted := counted
        audio := audio
        fxHorizon := fxHorizon
        framesRecvAtomic := recv } := by
  constructor
  . exact ⟨h.law.consecutive, h.law.carried⟩
  . exact h.waiting
  . intro hrefused
    have htrack := h.track hrefused
    exact ⟨htrack.written, htrack.taken, htrack.items, htrack.ssi, htrack.stale, htrack.ready⟩

theorem FeedInv.inputWritten (h : FeedInv s) : FeedInv s.inputWritten := by
  unfold FxFeed.inputWritten
  split
  next block _ =>
    constructor
    . constructor
      . exact h.law.consecutive
      . intro f hf j x hx
        have hold := h.law.carried f hf j x hx
        dsimp only
        rw [List.getElem?_append_left (List.getElem?_eq_some_iff.mp hold).1]
        exact hold
    . exact h.waiting
    . intro hrefused
      have htrack := h.track hrefused
      have hhead := s.fxInRing.head_eq
      have htail := s.fxInRing.tail_le_head
      constructor
      . intro hadopted
        have hwritten := htrack.written hadopted
        dsimp only
        rw [List.length_append, List.length_take, StreamRing.write_head, Nat.min_comm]
        omega
      . exact htrack.taken
      . intro hadopted
        have hwritten := htrack.written hadopted
        have htaken := htrack.taken hadopted
        have hitems := htrack.items hadopted
        dsimp only
        rw [StreamRing.items_write, StreamRing.write_tail, List.drop_append_of_le_length (by omega),
          hitems, List.drop_append_of_le_length (by omega)]
      . exact htrack.ssi
      . exact htrack.stale
      . intro htop hloop
        have hready := htrack.ready htop hloop
        unfold StreamRing.readAvailable at hready ⊢
        dsimp only
        rw [StreamRing.write_head, StreamRing.write_tail]
        omega
  next => exact h

theorem FeedInv.feederTop (h : FeedInv s) : FeedInv s.feederTop := by
  constructor
  . exact ⟨h.law.consecutive, h.law.carried⟩
  . intro hadopted
    exact ⟨(h.waiting hadopted).1, rfl⟩
  . intro hrefused
    have htrack := h.track hrefused
    exact ⟨htrack.written, htrack.taken, htrack.items, htrack.ssi, fun hne => absurd rfl hne,
      fun hne => absurd rfl hne⟩

theorem FeedInv.feederReady (h : FeedInv s) : FeedInv s.feederReady := by
  unfold FxFeed.feederReady
  split
  next hadopted =>
    constructor
    . exact ⟨h.law.consecutive, h.law.carried⟩
    . intro hfalse
      exact absurd (hadopted.symm.trans hfalse) (by decide)
    . intro hrefused
      have htrack := h.track hrefused
      have hwritten := htrack.written hadopted
      have htaken := htrack.taken hadopted
      have hhead := s.fxInRing.head_eq
      have hstale := StreamRing.length_read s.fxInRing (s.fxInBase - s.fxInRing.tail)
      rw [← StreamRing.length_items] at hstale
      have hzero : s.fxInBase - (s.fxInRing.read (s.fxInBase - s.fxInRing.tail)).2.tail = 0 := by
        rw [StreamRing.read_tail]
        omega
      constructor
      . exact htrack.written
      . intro _
        dsimp only
        rw [StreamRing.read_tail]
        omega
      . intro _
        dsimp only
        rw [hzero, List.drop_zero, StreamRing.items_read]
        exact htrack.items hadopted
      . exact htrack.ssi
      . intro _
        exact Nat.le_of_sub_eq_zero hzero
      . intro _ hloop
        exact absurd rfl hloop
  next => exact h.feederTop

-- A frame that is sent takes the next block of input along.
theorem FeedInv.feederWrite (h : FeedInv s) {fence : UInt32} (hfeeder : s.feeder = .stamped fence)
    (io : AudioWrite) (hlast : io = .ok → s.refused = false)
    : FeedInv (s.feederWrite fence io) := by
  have hadopted : s.adopted = true := by
    by_contra hne
    have hwaiting := (h.waiting (Bool.eq_false_iff.mpr hne)).2
    rw [hfeeder] at hwaiting
    simp at hwaiting
  have hrefuse : ∀ ring : StreamRing α cap,
      FeedInv { s with fxInRing := ring, refused := true }.feederTop := by
    intro ring
    constructor
    . exact ⟨h.law.consecutive, h.law.carried⟩
    . intro hfalse
      exact absurd (hadopted.symm.trans hfalse) (by decide)
    . intro hfalse
      simp [FxFeed.feederTop] at hfalse
  unfold FxFeed.feederWrite
  cases io with
  | ok =>
    have hrefused := hlast rfl
    have htrack := h.track hrefused
    have hssi := htrack.ssi
    have hwritten := htrack.written hadopted
    have htaken := htrack.taken hadopted
    have hitems := htrack.items hadopted
    have hhead := s.fxInRing.head_eq
    have hstale := htrack.stale (by rw [hfeeder]; simp)
    have hready := htrack.ready (by rw [hfeeder]; simp) (by rw [hfeeder]; simp)
    have hgot := StreamRing.length_read s.fxInRing kBlock
    have hzero : s.fxInBase - s.fxInRing.tail = 0 := by omega
    rw [hzero, List.drop_zero] at hitems
    constructor
    . constructor
      . intro i f hf
        dsimp only at hf
        rw [List.getElem?_append] at hf
        split at hf
        next => exact h.law.consecutive i f hf
        next hge =>
          rw [List.getElem?_singleton] at hf
          split at hf
          next hi =>
            rw [Option.some.injEq] at hf
            have hlen : i = s.sent.length := by omega
            rw [← hf, hlen]
            exact ⟨hssi, by dsimp only; omega⟩
          next => simp at hf
      . intro f hf j x hx
        rcases List.mem_append.mp hf with hold | hnew
        . exact h.law.carried f hold j x hx
        . rw [List.mem_singleton.mp hnew] at hx ⊢
          dsimp only at hx ⊢
          rw [StreamRing.read_fst] at hx
          have hj := (List.getElem?_eq_some_iff.mp hx).1
          rw [List.length_take] at hj
          rw [List.getElem?_take_of_lt (by omega), hitems, List.getElem?_drop] at hx
          exact hx
    . intro hfalse
      exact absurd (hadopted.symm.trans hfalse) (by decide)
    . intro _
      constructor
      . exact htrack.written
      . intro _
        dsimp only
        rw [StreamRing.read_tail]
        omega
      . intro _
        have hpast : s.fxInBase - (s.fxInRing.read kBlock).2.tail = 0 := by
          rw [StreamRing.read_tail]
          omega
        dsimp only
        rw [hpast, List.drop_zero, StreamRing.items_read, hitems, List.drop_drop]
      . dsimp only
        rw [List.length_append, List.length_singleton, Nat.mul_succ, hssi]
      . intro _
        dsimp only
        rw [StreamRing.read_tail]
        omega
      . intro _ hloop
        exact absurd rfl hloop
  | slotTimeout => exact hrefuse _
  | failed => exact hrefuse _

theorem FeedInv.feederStep (h : FeedInv s) (io : AudioWrite) (hlast : s.refusedLast (.feeder io))
    : FeedInv (s.feederStep io) := by
  have hmove : ∀ (pc : FeederPc) (built : List (Nat × UInt32)), s.feeder ≠ .top
      → (s.refused = false → kBlock ≤ s.fxInRing.readAvailable)
      → FeedInv { s with feeder := pc, built := built } := by
    intro pc built htop hready
    constructor
    . exact ⟨h.law.consecutive, h.law.carried⟩
    . intro hadopted
      exact absurd (h.waiting hadopted).2 htop
    . intro hrefused
      have htrack := h.track hrefused
      exact ⟨htrack.written, htrack.taken, htrack.items, htrack.ssi, fun _ => htrack.stale htop,
        fun _ _ => hready hrefused⟩
  unfold FxFeed.feederStep
  unfold FxFeed.refusedLast at hlast
  cases hfeeder : s.feeder with
  | top => exact h.feederReady
  | loop =>
    dsimp only
    split
    next hgo => exact hmove .horizon s.built (by rw [hfeeder]; simp) (fun _ => hgo.2)
    next => exact h.feederTop
  | horizon =>
    dsimp only
    split
    next =>
      apply hmove .stamp s.built (by rw [hfeeder]; simp)
      intro hrefused
      exact (h.track hrefused).ready (by rw [hfeeder]; simp) (by rw [hfeeder]; simp)
    next => exact h.feederTop
  | stamp =>
    apply hmove _ _ (by rw [hfeeder]; simp)
    intro hrefused
    exact (h.track hrefused).ready (by rw [hfeeder]; simp) (by rw [hfeeder]; simp)
  | stamped fence =>
    apply h.feederWrite hfeeder io
    intro hok
    rw [hfeeder, hok] at hlast
    exact hlast

theorem FeedInv.queue (h : FeedInv s) (q : FxQueue) : FeedInv (s.queue q) := by
  unfold FxFeed.queue
  split
  next => exact h
  next => exact h.of_same

theorem FeedInv.next (h : FeedInv s) (a : FxFeedAct α) (hlast : s.refusedLast a)
    : FeedInv (s.next a) := by
  unfold FxFeed.next
  split
  next => exact h.fxBeginBlock _
  next => exact h.queue _
  next block _ =>
    unfold FxFeed.writeFxInput
    split
    next => exact h
    next => exact h.of_same
  next => exact h
  next => exact h
  next => exact h
  next =>
    unfold FxFeed.count
    split
    next => exact h.of_same
    next => exact h
  next => exact h.inputWritten
  next _ io => exact h.feederStep io hlast
  next => exact h.of_same
  next => exact h.of_same

-- As long as the transport takes nothing after a write it refused, nothing is lost or moved.
theorem inputCarried_of_refusedLast {ring : StreamRing α cap} {fxInBase : Nat} {fxHorizon : UInt64}
    {domainTag expectedTag : UInt32}
    (h : Run FxFeed.next FxFeed.refusedLast
      (FxFeed.sessionUp ring fxInBase fxHorizon domainTag expectedTag) s)
    : InputCarried s := by
  have hinv : FeedInv s := by
    apply h.inv
    . exact feedInv_sessionUp ring fxInBase fxHorizon domainTag expectedTag
    . intro s a hs ha
      exact hs.next a ha
  exact hinv.law

-- The payload of a frame is a stretch of the input.
theorem InputCarried.payload_eq (h : InputCarried s) {i : Nat} {f : InputFrame α}
    (hf : s.sent[i]? = some f) : f.payload = (s.inputs.drop f.ssi).take kBlock := by
  have hlen := (h.consecutive i f hf).2
  apply List.ext_getElem?
  intro j
  by_cases hj : j < kBlock
  . have hlt : j < f.payload.length := by omega
    have hx : f.payload[j]? = some f.payload[j] := List.getElem?_eq_getElem hlt
    have hinput := h.carried f (List.mem_of_getElem? hf) j _ hx
    rw [List.getElem?_take_of_lt hj, List.getElem?_drop, hinput, hx]
  . rw [List.getElem?_eq_none (by omega), List.getElem?_take_eq_none (by omega)]

end Carried

section Fenced

variable {α : Type} {cap : Nat} {s : FxFeed α cap}

-- What the audio thread has published is what all uncounted events are past.
structure FenceTrack (s : FxFeed α cap) : Prop where
  waiting : s.adopted = false → s.built = [] ∧ s.feeder = .top
  base : s.em.evtEpochBase = 0
  seq : s.em.evtQueuedSeq = UInt32.ofNat s.counted.length
  bound : s.evs.length < 2 ^ 32
  pushed : s.adopted = true → ∀ ev, s.audio = .pushed ev → s.fxHorizon.toNat ≤ ev.ts.toNat
  ahead : s.adopted = true → s.fxHorizon.toNat ≤ s.fxInputPos
  stamp : s.feeder = .stamp → s.ssi + kBlock ≤ s.fxHorizon.toNat
  built : ∀ f ∈ s.built, f.1 + kBlock ≤ s.fxHorizon.toNat
  law : FencedLaw s

theorem fenceTrack_sessionUp (ring : StreamRing α cap) (fxInBase : Nat) (fxHorizon : UInt64)
    (domainTag expectedTag : UInt32)
    : FenceTrack (FxFeed.sessionUp ring fxInBase fxHorizon domainTag expectedTag) := by
  constructor
  . intro _
    exact ⟨rfl, rfl⟩
  . rfl
  . rfl
  . exact Nat.two_pow_pos 32
  . intro hadopted
    simp [FxFeed.sessionUp] at hadopted
  . intro hadopted
    simp [FxFeed.sessionUp] at hadopted
  . intro hstamp
    simp [FxFeed.sessionUp] at hstamp
  . intro f hf
    exact absurd hf List.not_mem_nil
  . intro f hf
    exact absurd hf List.not_mem_nil

theorem le_fxClampTs (fxHorizon ts : UInt64) : fxHorizon ≤ fxClampTs fxHorizon ts := by
  unfold fxClampTs
  split
  next => exact UInt64.le_refl _
  next hge => exact UInt64.not_lt.mp hge

theorem timed_past_horizon {q : FxQueue} {ev : TimedEv} (hkept : s.horizonKept (.queue q))
    (h : q.timed s.fxHorizon s.domainTag = some ev) : s.fxHorizon.toNat ≤ ev.ts.toNat := by
  rw [← UInt64.le_iff_toNat_le]
  rcases hkept with ⟨_, hkept⟩
  cases q with
  | queueParamSet held id v ts channel =>
    unfold FxQueue.timed at h
    dsimp only at h
    split at h
    next => simp at h
    next =>
      rw [← Option.some.inj h]
      exact le_fxClampTs _ _
  | queueRamp held id target start end_ channel =>
    unfold FxQueue.timed at h
    dsimp only at h
    split at h
    next => simp at h
    next =>
      rw [← Option.some.inj h]
      exact le_fxClampTs _ _
  | queueNote word ts =>
    rw [← Option.some.inj h]
    exact hkept
  | queueMod id offset voice ts channel =>
    rw [← Option.some.inj h]
    exact hkept
  | queueTransport flags tempo ppqBits ts =>
    rw [← Option.some.inj h]
    exact hkept

theorem push_seq (em : EventManager) (q : Queued)
    : (em.push q).2.evtQueuedSeq = em.evtQueuedSeq ∧ (em.push q).2.evtEpochBase = em.evtEpochBase := by
  unfold EventManager.push
  split
  next => exact ⟨rfl, rfl⟩
  next => exact ⟨rfl, rfl⟩

theorem FenceTrack.built_adopted (h : FenceTrack s) {f : Nat × UInt32} (hf : f ∈ s.built)
    : s.adopted = true := by
  by_contra hne
  have hnil := (h.waiting (Bool.eq_false_iff.mpr hne)).1
  rw [hnil] at hf
  exact absurd hf List.not_mem_nil

theorem FenceTrack.queue (h : FenceTrack s) (haudio : s.audio = .idle) {q : FxQueue}
    (hkept : s.horizonKept (.queue q)) : FenceTrack (s.queue q) := by
  have hevs : s.evs = s.counted := by
    unfold FxFeed.evs
    rw [haudio]
  unfold FxFeed.queue
  cases htimed : q.timed s.fxHorizon s.domainTag with
  | none => exact h
  | some ev =>
    have hpast := timed_past_horizon hkept htimed
    have hseq := push_seq s.em ⟨s.counted.length, ev⟩
    have hbound := hkept.1
    dsimp only
    cases hpush : (s.em.push ⟨s.counted.length, ev⟩).1 with
    | false =>
      rw [if_neg Bool.false_ne_true]
      constructor
      . exact h.waiting
      . exact hseq.2.trans h.base
      . exact hseq.1.trans h.seq
      . dsimp only [FxFeed.evs]
        omega
      . intro _ ev' hev'
        simp at hev'
      . exact h.ahead
      . exact h.stamp
      . exact h.built
      . intro f hf i ev' hi hev'
        exact h.law f hf i ev' hi (hevs ▸ hev')
    | true =>
      rw [if_pos rfl]
      constructor
      . exact h.waiting
      . exact hseq.2.trans h.base
      . exact hseq.1.trans h.seq
      . dsimp only [FxFeed.evs]
        rw [List.length_append, List.length_singleton]
        exact hbound
      . intro _ ev' hev'
        rw [← FxAudioPc.pushed.inj hev']
        exact hpast
      . exact h.ahead
      . exact h.stamp
      . exact h.built
      . intro f hf i ev' hi hev' hts
        dsimp only [FxFeed.evs] at hev'
        rw [List.getElem?_append] at hev'
        split at hev'
        next => exact h.law f hf i ev' hi (hevs ▸ hev') hts
        next =>
          rw [List.getElem?_singleton] at hev'
          split at hev'
          next =>
            rw [← Option.some.inj hev'] at hts
            have hend := h.built f hf
            omega
          next => simp at hev'

theorem FenceTrack.count (h : FenceTrack s) : FenceTrack s.count := by
  unfold FxFeed.count
  split
  next ev haudio =>
    have hevs : s.evs = s.counted ++ [ev] := by
      unfold FxFeed.evs
      rw [haudio]
    have hbound := h.bound
    rw [hevs] at hbound
    constructor
    . exact h.waiting
    . exact h.base
    . dsimp only [EventManager.count]
      rw [h.seq, List.length_append, List.length_singleton, UInt32.ofNat_add]
      rfl
    . exact hbound
    . intro _ ev' hev'
      simp at hev'
    . exact h.ahead
    . exact h.stamp
    . exact h.built
    . intro f hf i ev' hi hev'
      exact h.law f hf i ev' hi (hevs ▸ hev')
  next => exact h

theorem FenceTrack.fxBeginBlock (h : FenceTrack s) (haudio : s.audio = .idle) (tag : UInt32)
    : FenceTrack (s.fxBeginBlock tag) := by
  unfold FxFeed.fxBeginBlock
  split
  next => exact h
  next hadopted =>
    rw [Bool.not_eq_true] at hadopted
    rcases h.waiting hadopted with ⟨hbuilt, hfeeder⟩
    constructor
    . intro hfalse
      simp at hfalse
    . exact h.base
    . exact h.seq
    . exact h.bound
    . intro _ ev hev
      dsimp only at hev
      rw [haudio] at hev
      simp at hev
    . intro _
      exact Nat.zero_le _
    . intro hstamp
      dsimp only at hstamp
      rw [hfeeder] at hstamp
      simp at hstamp
    . intro f hf
      dsimp only at hf
      rw [hbuilt] at hf
      exact absurd hf List.not_mem_nil
    . intro f hf
      dsimp only at hf
      rw [hbuilt] at hf
      exact absurd hf List.not_mem_nil

theorem FenceTrack.writeFxInput (h : FenceTrack s) (haudio : s.audio = .idle) (block : List α)
    (hpos : s.fxInputPos < 2 ^ 64) : FenceTrack (s.writeFxInput block) := by
  have hevs : s.evs = s.counted := by
    unfold FxFeed.evs
    rw [haudio]
  unfold FxFeed.writeFxInput
  split
  next => exact h
  next =>
    have hnow : (UInt64.ofNat s.fxInputPos).toNat = s.fxInputPos := UInt64.toNat_ofNat_of_lt' hpos
    have hgrow : ∀ n, s.adopted = true → n ≤ s.fxHorizon.toNat
        → n ≤ (UInt64.ofNat s.fxInputPos).toNat := by
      intro n hadopted hn
      have hahead := h.ahead hadopted
      omega
    constructor
    . exact h.waiting
    . exact h.base
    . exact h.seq
    . have hbound := h.bound
      rw [hevs] at hbound
      exact hbound
    . intro _ ev hev
      simp at hev
    . intro _
      exact Nat.le_of_eq hnow
    . intro hstamp
      apply hgrow _ _ (h.stamp hstamp)
      by_contra hne
      have htop := (h.waiting (Bool.eq_false_iff.mpr hne)).2
      rw [show s.feeder = .stamp from hstamp] at htop
      simp at htop
    . intro f hf
      exact hgrow _ (h.built_adopted hf) (h.built f hf)
    . intro f hf i ev hi hev
      exact h.law f hf i ev hi (hevs ▸ hev)

theorem FenceTrack.inputWritten (h : FenceTrack s) : FenceTrack s.inputWritten := by
  unfold FxFeed.inputWritten
  split
  next block haudio =>
    have hevs : s.evs = s.counted := by
      unfold FxFeed.evs
      rw [haudio]
    constructor
    . exact h.waiting
    . exact h.base
    . exact h.seq
    . have hbound := h.bound
      rw [hevs] at hbound
      exact hbound
    . intro _ ev hev
      simp at hev
    . intro hadopted
      have hahead := h.ahead hadopted
      unfold FxFeed.fxInputPos at hahead ⊢
      dsimp only
      rw [StreamRing.write_head]
      omega
    . exact h.stamp
    . exact h.built
    . intro f hf i ev hi hev
      exact h.law f hf i ev hi (hevs ▸ hev)
  next => exact h

-- What the feeder does to its own state leaves the events alone.
structure SameEvents (s s' : FxFeed α cap) : Prop where
  em : s'.em = s.em
  counted : s'.counted = s.counted
  mine : s'.mine = s.mine
  audio : s'.audio = s.audio
  adopted : s'.adopted = s.adopted
  fxHorizon : s'.fxHorizon = s.fxHorizon
  fxInputPos : s'.fxInputPos = s.fxInputPos
  built : s'.built = s.built

theorem FenceTrack.of_same {s' : FxFeed α cap} (h : FenceTrack s) (hsame : SameEvents s s')
    (hwaiting : s.adopted = false → s'.feeder = .top)
    (hstamp : s'.feeder = .stamp → s'.ssi + kBlock ≤ s.fxHorizon.toNat) : FenceTrack s' := by
  have hevs : s'.evs = s.evs := by
    unfold FxFeed.evs
    rw [hsame.audio, hsame.counted]
  constructor
  . rw [hsame.adopted, hsame.built]
    intro hadopted
    exact ⟨(h.waiting hadopted).1, hwaiting hadopted⟩
  . rw [hsame.em]
    exact h.base
  . rw [hsame.em, hsame.counted]
    exact h.seq
  . rw [hevs]
    exact h.bound
  . rw [hsame.adopted, hsame.audio, hsame.fxHorizon]
    exact h.pushed
  . rw [hsame.adopted, hsame.fxHorizon, hsame.fxInputPos]
    exact h.ahead
  . rw [hsame.fxHorizon]
    exact hstamp
  . rw [hsame.built, hsame.fxHorizon]
    exact h.built
  . unfold FencedLaw
    rw [hsame.built, hsame.mine, hevs]
    exact h.law

theorem FenceTrack.feederTop (h : FenceTrack s) : FenceTrack s.feederTop := by
  apply h.of_same
  . exact ⟨rfl, rfl, rfl, rfl, rfl, rfl, rfl, rfl⟩
  . intro _
    rfl
  . intro hstamp
    simp [FxFeed.feederTop] at hstamp

-- The fence of a frame is stamped after the horizon that lets it go.
theorem FenceTrack.stamped (h : FenceTrack s) (hfeeder : s.feeder = .stamp)
    : FenceTrack { s with
        feeder := .stamped s.em.fenceStamp
        built := s.built ++ [(s.ssi, s.em.fenceStamp)] } := by
  have hadopted : s.adopted = true := by
    by_contra hne
    have htop := (h.waiting (Bool.eq_false_iff.mpr hne)).2
    rw [hfeeder] at htop
    simp at htop
  have hend := h.stamp hfeeder
  have hbound := h.bound
  have hcounted : s.counted.length < 2 ^ 32 := by
    apply Nat.lt_of_le_of_lt _ hbound
    unfold FxFeed.evs
    split
    next =>
      rw [List.length_append]
      exact Nat.le_add_right _ _
    next => exact Nat.le_refl _
  have hfence : s.em.fenceStamp.toNat = s.counted.length := by
    have hseq : s.em.evtQueuedSeq.toNat = s.counted.length := by
      rw [h.seq]
      exact UInt32.toNat_ofNat_of_lt' hcounted
    unfold EventManager.fenceStamp
    rw [h.base, UInt32.sub_zero]
    split
    next => exact hseq
    next hzero =>
      have hle : s.em.evtQueuedSeq.toNat ≤ (0 : UInt32).toNat :=
        UInt32.le_iff_toNat_le.mp (UInt32.not_lt.mp hzero)
      rw [hseq] at hle
      exact (Nat.le_zero.mp hle).symm
  constructor
  . intro hfalse
    exact absurd (hadopted.symm.trans hfalse) (by decide)
  . exact h.base
  . exact h.seq
  . exact hbound
  . exact h.pushed
  . exact h.ahead
  . intro hstamp
    simp at hstamp
  . intro f hf
    rcases List.mem_append.mp hf with hold | hnew
    . exact h.built f hold
    . rw [List.mem_singleton.mp hnew]
      exact hend
  . intro f hf i ev hi hev hts
    rcases List.mem_append.mp hf with hold | hnew
    . exact h.law f hold i ev hi hev hts
    . rw [List.mem_singleton.mp hnew] at hts ⊢
      dsimp only at hts ⊢
      rw [hfence]
      by_contra hge
      have hlt := (List.getElem?_eq_some_iff.mp hev).1
      unfold FxFeed.evs at hev hlt
      dsimp only at hev hlt
      split at hev
      next ev' haudio =>
        rw [haudio, List.length_append, List.length_singleton] at hlt
        have hi' : i = s.counted.length := by omega
        rw [hi', List.getElem?_append_right (Nat.le_refl _), Nat.sub_self] at hev
        have hpast := h.pushed hadopted ev' haudio
        have heq : ev' = ev := by simpa using hev
        rw [heq] at hpast
        omega
      next => exact hge (List.getElem?_eq_some_iff.mp hev).1

theorem FenceTrack.feederStep (h : FenceTrack s) (io : AudioWrite)
    : FenceTrack (s.feederStep io) := by
  have hadopted : s.feeder ≠ .top → s.adopted = false → False :=
    fun htop hfalse => htop (h.waiting hfalse).2
  unfold FxFeed.feederStep
  cases hfeeder : s.feeder with
  | top =>
    dsimp only
    unfold FxFeed.feederReady
    split
    next hready =>
      apply h.of_same
      . exact ⟨rfl, rfl, rfl, rfl, rfl, rfl, rfl, rfl⟩
      . intro hfalse
        exact absurd (hready.symm.trans hfalse) (by decide)
      . intro hstamp
        simp at hstamp
    next => exact h.feederTop
  | loop =>
    dsimp only
    split
    next =>
      apply h.of_same
      . exact ⟨rfl, rfl, rfl, rfl, rfl, rfl, rfl, rfl⟩
      . intro hfalse
        exact (hadopted (by rw [hfeeder]; simp) hfalse).elim
      . intro hstamp
        simp at hstamp
    next => exact h.feederTop
  | horizon =>
    dsimp only
    split
    next hend =>
      apply h.of_same
      . exact ⟨rfl, rfl, rfl, rfl, rfl, rfl, rfl, rfl⟩
      . intro hfalse
        exact (hadopted (by rw [hfeeder]; simp) hfalse).elim
      . intro _
        exact hend
    next => exact h.feederTop
  | stamp => exact h.stamped hfeeder
  | stamped fence =>
    dsimp only
    unfold FxFeed.feederWrite
    have hrefuse : FenceTrack
        { s with fxInRing := (s.fxInRing.read kBlock).2, refused := true }.feederTop := by
      apply h.of_same
      . exact ⟨rfl, rfl, rfl, rfl, rfl, rfl, rfl, rfl⟩
      . intro _
        rfl
      . intro hstamp
        simp [FxFeed.feederTop] at hstamp
    cases io with
    | ok =>
      apply h.of_same
      . exact ⟨rfl, rfl, rfl, rfl, rfl, rfl, rfl, rfl⟩
      . intro hfalse
        exact (hadopted (by rw [hfeeder]; simp) hfalse).elim
      . intro hstamp
        simp at hstamp
    | slotTimeout => exact hrefuse
    | failed => exact hrefuse

theorem FenceTrack.next (h : FenceTrack s) (a : FxFeedAct α) (hkept : s.horizonKept a)
    : FenceTrack (s.next a) := by
  unfold FxFeed.next
  split
  next haudio => exact h.fxBeginBlock haudio _
  next haudio => exact h.queue haudio hkept
  next haudio => exact h.writeFxInput haudio _ hkept
  next => exact h
  next => exact h
  next => exact h
  next => exact h.count
  next => exact h.inputWritten
  next => exact h.feederStep _
  next =>
    apply h.of_same
    . exact ⟨rfl, rfl, rfl, rfl, rfl, rfl, rfl, rfl⟩
    . intro hfalse
      exact (h.waiting hfalse).2
    . exact h.stamp
  next => exact ⟨h.waiting, h.base, h.seq, h.bound, h.pushed, h.ahead, h.stamp, h.built, h.law⟩

-- Every unclamped event comes with a timestamp past the horizon its thread has published.
theorem fencedLaw_of_horizonKept {ring : StreamRing α cap} {fxInBase : Nat} {fxHorizon : UInt64}
    {domainTag expectedTag : UInt32}
    (h : Run FxFeed.next FxFeed.horizonKept
      (FxFeed.sessionUp ring fxInBase fxHorizon domainTag expectedTag) s)
    : FencedLaw s := by
  have hinv : FenceTrack s := by
    apply h.inv
    . exact fenceTrack_sessionUp ring fxInBase fxHorizon domainTag expectedTag
    . intro s a hs ha
      exact hs.next a ha
  exact hinv.law

end Fenced

-- Frames `start` to `start + 255` of the input.
def inputBlock (start : Nat) : List Nat :=
  (List.range kBlock).map (start + ·)

def feedStart : FxFeed Nat 16384 :=
  FxFeed.sessionUp (.empty (fun _ => 0)) 0 0 1 2

-- Three blocks: the first two are behind the horizon.
def threeBlocks : List (FxFeedAct Nat) :=
  [.fxBeginBlock 2, .writeFxInput (inputBlock 0), .inputWritten, .writeFxInput (inputBlock 256),
    .inputWritten, .writeFxInput (inputBlock 512), .inputWritten]

-- One pass of the pacing loop.
def pacingPass (io : AudioWrite) : List (FxFeedAct Nat) :=
  [.feeder .ok, .feeder .ok, .feeder .ok, .feeder .ok, .feeder io]

theorem inputCarried_pacingPass
    : ((threeBlocks ++ pacingPass .ok).foldl FxFeed.next feedStart).sent
        = [⟨0, 0, inputBlock 0⟩]
      ∧ InputCarried ((threeBlocks ++ pacingPass .ok).foldl FxFeed.next feedStart) := by
  have hrun : Run FxFeed.next FxFeed.refusedLast feedStart
      ((threeBlocks ++ pacingPass .ok).foldl FxFeed.next feedStart) :=
    Run.of_guarded _ .start (by decide +kernel)
  have hlaw := inputCarried_of_refusedLast hrun
  have hheads : ((threeBlocks ++ pacingPass .ok).foldl FxFeed.next feedStart).sent.map
      (fun f => (f.ssi, f.fence)) = [(0, 0)] := by
    decide +kernel
  have hinputs : ((threeBlocks ++ pacingPass .ok).foldl FxFeed.next feedStart).inputs.take kBlock
      = inputBlock 0 := by
    decide +kernel
  generalize (threeBlocks ++ pacingPass .ok).foldl FxFeed.next feedStart = s at *
  refine ⟨?_, hlaw⟩
  rw [List.map_eq_singleton_iff] at hheads
  rcases hheads with ⟨f, hsent, hhead⟩
  have hpayload := hlaw.payload_eq (i := 0) (f := f) (by rw [hsent]; rfl)
  rcases f with ⟨ssi, fence, payload⟩
  rw [Prod.mk.injEq] at hhead
  rcases hhead with ⟨rfl, rfl⟩
  rw [List.drop_zero, hinputs] at hpayload
  rw [hsent, ← hpayload]

-- The block of a write that timed out is gone, and the next one goes out in its place.
def refusedThenSent : List (FxFeedAct Nat) :=
  threeBlocks ++ pacingPass .slotTimeout ++ pacingPass .ok

theorem not_inputCarried_refusedThenSent
    : ∃ s, Run FxFeed.next free feedStart s ∧ ¬InputCarried s := by
  refine ⟨refusedThenSent.foldl FxFeed.next feedStart, Run.foldl refusedThenSent .start, ?_⟩
  intro h
  -- the frame at the first position begins with the second block
  have hbegins : (refusedThenSent.foldl FxFeed.next feedStart).sent[0]?.bind (fun f => f.payload[0]?)
      = some 256 := by
    decide +kernel
  rw [Option.bind_eq_some_iff] at hbegins
  rcases hbegins with ⟨f, hframe, hbegins⟩
  have hcarried := h.carried f (List.mem_of_getElem? hframe) 0 256 hbegins
  rw [(h.consecutive 0 f hframe).1] at hcarried
  have hfirst : (refusedThenSent.foldl FxFeed.next feedStart).inputs[0]? = some 0 := by
    decide +kernel
  have hsame := hfirst.symm.trans hcarried
  simp at hsame

-- A parameter set "now" and the block behind it.
def setThenPaced : List (FxFeedAct Nat) :=
  [.fxBeginBlock 2, .queue (.queueParamSet false 1 (Ieee.Fp.ofBits 0) 0 0), .count,
    .writeFxInput (inputBlock 0), .inputWritten, .writeFxInput (inputBlock 256), .inputWritten]
    ++ pacingPass .ok

theorem fencedLaw_setThenPaced
    : (setThenPaced.foldl FxFeed.next feedStart).built = [(0, 1)]
      ∧ FencedLaw (setThenPaced.foldl FxFeed.next feedStart) := by
  have hrun : Run FxFeed.next FxFeed.horizonKept feedStart
      (setThenPaced.foldl FxFeed.next feedStart) :=
    Run.of_guarded _ .start (by decide +kernel)
  exact ⟨by decide +kernel, fencedLaw_of_horizonKept hrun⟩

-- A note "now" behind the frame that covers SSI 0.
def noteBehindFrame : List (FxFeedAct Nat) :=
  threeBlocks ++ pacingPass .ok ++ [.queue (.queueNote 0x20903c40 0), .count]

theorem not_fencedLaw_noteBehindFrame
    : ∃ s, Run FxFeed.next free feedStart s ∧ ¬FencedLaw s := by
  refine ⟨noteBehindFrame.foldl FxFeed.next feedStart, Run.foldl noteBehindFrame .start, ?_⟩
  intro h
  have hframe : (0, 0) ∈ (noteBehindFrame.foldl FxFeed.next feedStart).built := by
    decide +kernel
  have hev : (noteBehindFrame.foldl FxFeed.next feedStart).evs[0]?
      = some ⟨.ump, 0x20903c40, Ieee.Fp.ofBits 0, 0, 0, 0, 2⟩ := by
    decide +kernel
  have hcounted := h (0, 0) hframe 0 _ (by decide +kernel) hev (by decide)
  exact absurd hcounted (by decide)

end Harp
