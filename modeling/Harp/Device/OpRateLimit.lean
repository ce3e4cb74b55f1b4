import Harp.Lib.TokenBucket
import Mathlib.Data.List.Chain

/-!
This module contains `harp_op_admit` of `device/op_ratelimit.h`, the limiter of the expensive control
operations, and what it lets through over any sequence of calls.
-/

namespace Harp

open TokenBucket

structure OpBucket where
  allowanceNs : UInt64
  lastNs : UInt64
deriving DecidableEq, Repr

-- As it is when a session starts.
def OpBucket.fresh : OpBucket :=
  ⟨0, 0⟩

-- The allowance that a call finds, with what has accrued since the last one.
def opAccrue (b : OpBucket) (nowNs burstNs : UInt64) : UInt64 :=
  if b.lastNs = 0 then
    burstNs
  else if nowNs > b.lastNs then
    let allowanceNs := b.allowanceNs + (nowNs - b.lastNs)
    if allowanceNs > burstNs then burstNs else allowanceNs
  else
    b.allowanceNs

-- `true` is to admit, `false` to shed.
def opAdmit (b : OpBucket) (nowNs costNs burstNs : UInt64) : Bool × OpBucket :=
  let allowanceNs := opAccrue b nowNs burstNs
  if allowanceNs ≥ costNs then
    (true, ⟨allowanceNs - costNs, nowNs⟩)
  else
    (false, ⟨allowanceNs, nowNs⟩)

-- A call, how it was decided, and the bucket that it left.
structure OpCall where
  nowNs : UInt64
  admitted : Bool
  bucket : OpBucket
deriving DecidableEq, Repr

def opCall (costNs burstNs : UInt64) (b : OpBucket) (nowNs : UInt64) : OpCall where
  nowNs
  admitted := (opAdmit b nowNs costNs burstNs).1
  bucket := (opAdmit b nowNs costNs burstNs).2

def opCalls (costNs burstNs : UInt64) (b : OpBucket) : List UInt64 → List OpCall
  | [] => []
  | t :: ts => opCall costNs burstNs b t :: opCalls costNs burstNs (opCall costNs burstNs b t).bucket ts

-- How many calls from `start` on were admitted in the next `span`, both ends included.
def admittedIn (start span : Nat) (calls : List OpCall) : Nat :=
  calls.countP fun c => c.admitted && start ≤ c.nowNs.toNat && c.nowNs.toNat ≤ start + span

section Accrue

variable {b : OpBucket} {nowNs costNs burstNs : UInt64}

-- A sum that wraps around is the smaller for it.
theorem toNat_add_le (a c : UInt64) : (a + c).toNat ≤ a.toNat + c.toNat := by
  rw [UInt64.toNat_add]
  exact Nat.mod_le _ _

theorem opAccrue_le (burstNs : UInt64) (hlast : b.lastNs ≠ 0) (hnow : b.lastNs ≤ nowNs)
    : (opAccrue b nowNs burstNs).toNat + b.lastNs.toNat ≤ b.allowanceNs.toNat + nowNs.toNat := by
  have hle := UInt64.le_iff_toNat_le.mp hnow
  have hsum := toNat_add_le b.allowanceNs (nowNs - b.lastNs)
  rw [UInt64.toNat_sub_of_le _ _ hnow] at hsum
  unfold opAccrue
  rw [if_neg hlast]
  dsimp only
  split
  . split
    next hover =>
      have hover := UInt64.lt_iff_toNat_lt.mp hover
      omega
    next => omega
  . omega

theorem opAccrue_le_burst (nowNs : UInt64) (h : b.lastNs = 0 ∨ b.allowanceNs ≤ burstNs)
    : (opAccrue b nowNs burstNs).toNat ≤ burstNs.toNat := by
  unfold opAccrue
  dsimp only
  split
  . exact Nat.le_refl _
  next hlast =>
    split
    . split
      . exact Nat.le_refl _
      next hover => exact UInt64.le_iff_toNat_le.mp (UInt64.not_lt.mp hover)
    . exact UInt64.le_iff_toNat_le.mp (h.resolve_left hlast)

-- Where nothing wraps around, the time between two calls is there in full or the bucket is.
theorem le_opAccrue {room : Nat} (hlast : b.lastNs ≠ 0) (hroom : b.allowanceNs.toNat ≤ room)
    (hnow : b.lastNs.toNat + costNs.toNat ≤ nowNs.toNat) (hcost : 0 < costNs)
    (hburst : costNs ≤ burstNs) (hfits : room + (nowNs.toNat - b.lastNs.toNat) < 2 ^ 64)
    : costNs ≤ opAccrue b nowNs burstNs := by
  have hpos := UInt64.lt_iff_toNat_lt.mp hcost
  have hzero : (0 : UInt64).toNat = 0 := rfl
  have hlt : b.lastNs < nowNs := by
    rw [UInt64.lt_iff_toNat_lt]
    omega
  have hsum : (b.allowanceNs + (nowNs - b.lastNs)).toNat
      = b.allowanceNs.toNat + (nowNs.toNat - b.lastNs.toNat) := by
    rw [UInt64.toNat_add, UInt64.toNat_sub_of_le _ _ (UInt64.le_of_lt hlt)]
    exact Nat.mod_eq_of_lt (by omega)
  unfold opAccrue
  rw [if_neg hlast, if_pos hlt]
  dsimp only
  split
  . exact hburst
  . rw [UInt64.le_iff_toNat_le, hsum]
    omega

end Accrue

section Calls

variable {b : OpBucket} {costNs burstNs : UInt64}

theorem opCall_last (costNs burstNs : UInt64) (b : OpBucket) (nowNs : UInt64)
    : (opCall costNs burstNs b nowNs).bucket.lastNs = nowNs := by
  unfold opCall opAdmit
  dsimp only
  split <;> rfl

-- What an admitted call costs, nothing for one that was shed.
def opSpent (costNs : UInt64) (admitted : Bool) : Nat :=
  if admitted then costNs.toNat else 0

theorem opCall_left (costNs burstNs : UInt64) (b : OpBucket) (nowNs : UInt64)
    : (opCall costNs burstNs b nowNs).bucket.allowanceNs.toNat
          + opSpent costNs (opCall costNs burstNs b nowNs).admitted
        = (opAccrue b nowNs burstNs).toNat := by
  unfold opCall opAdmit opSpent
  dsimp only
  split
  next henough =>
    have hle := UInt64.le_iff_toNat_le.mp henough
    rw [UInt64.toNat_sub_of_le _ _ henough]
    simp only [if_true]
    omega
  next => simp

def OpCall.withdrawal (costNs : UInt64) (c : OpCall) : Withdrawal Int where
  time := c.nowNs.toNat
  spent := opSpent costNs c.admitted
  credit := c.bucket.allowanceNs.toNat

def OpBucket.withdrawal (b : OpBucket) : Withdrawal Int where
  time := b.lastNs.toNat
  spent := 0
  credit := b.allowanceNs.toNat

theorem opCall_accrues (costNs burstNs : UInt64) (hlast : b.lastNs ≠ 0) {t : UInt64}
    (ht : b.lastNs ≤ t)
    : Accrues b.withdrawal ((opCall costNs burstNs b t).withdrawal costNs) := by
  have hle := opAccrue_le burstNs hlast ht
  have hleft := opCall_left costNs burstNs b t
  have htime : (opCall costNs burstNs b t).nowNs = t := rfl
  unfold Accrues OpBucket.withdrawal OpCall.withdrawal
  dsimp only
  rw [htime]
  omega

-- The bucket that is left has the time and the credit of the call.
theorem accrues_of_left {t : UInt64} {y : Withdrawal Int}
    (h : Accrues (opCall costNs burstNs b t).bucket.withdrawal y)
    : Accrues ((opCall costNs burstNs b t).withdrawal costNs) y := by
  have hlast := opCall_last costNs burstNs b t
  have htime : (opCall costNs burstNs b t).nowNs = t := rfl
  unfold Accrues OpBucket.withdrawal OpCall.withdrawal at *
  dsimp only at h ⊢
  rw [hlast] at h
  rw [htime]
  exact h

theorem accrues_opCalls {ts : List UInt64} (hlast : b.lastNs ≠ 0) (hpos : ∀ t ∈ ts, t ≠ 0)
    (hsorted : (b.lastNs :: ts).Pairwise (· ≤ ·))
    : (∀ c ∈ opCalls costNs burstNs b ts, Accrues b.withdrawal (c.withdrawal costNs))
        ∧ ((opCalls costNs burstNs b ts).map (OpCall.withdrawal costNs)).Pairwise Accrues := by
  induction ts generalizing b with
  | nil => exact ⟨fun c hc => absurd hc List.not_mem_nil, List.Pairwise.nil⟩
  | cons t ts ih =>
    rw [List.pairwise_cons] at hsorted
    have hfirst := opCall_accrues costNs burstNs hlast
      (hsorted.1 t List.mem_cons_self)
    have hrest := @ih (opCall costNs burstNs b t).bucket
      (by rw [opCall_last]; exact hpos t List.mem_cons_self)
      (fun t' ht' => hpos t' (List.mem_cons_of_mem t ht')) (by rw [opCall_last]; exact hsorted.2)
    unfold opCalls
    constructor
    . intro c hc
      rcases List.mem_cons.mp hc with rfl | hc
      . exact hfirst
      . exact hfirst.trans (Int.natCast_nonneg _) (accrues_of_left (hrest.1 c hc))
    . rw [List.map_cons, List.pairwise_cons]
      refine ⟨?_, hrest.2⟩
      intro y hy
      rcases List.mem_map.mp hy with ⟨c, hc, rfl⟩
      exact accrues_of_left (hrest.1 c hc)

theorem accrues_fresh {times : List UInt64} (hpos : ∀ t ∈ times, t ≠ 0)
    (hsorted : times.Pairwise (· ≤ ·))
    : ((opCalls costNs burstNs .fresh times).map (OpCall.withdrawal costNs)).Pairwise Accrues := by
  cases times with
  | nil => exact List.Pairwise.nil
  | cons t ts =>
    have hrest := @accrues_opCalls (opCall costNs burstNs .fresh t).bucket costNs burstNs ts
      (by rw [opCall_last]; exact hpos t List.mem_cons_self)
      (fun t' ht' => hpos t' (List.mem_cons_of_mem t ht')) (by rw [opCall_last]; exact hsorted)
    unfold opCalls
    rw [List.map_cons, List.pairwise_cons]
    refine ⟨?_, hrest.2⟩
    intro y hy
    rcases List.mem_map.mp hy with ⟨c, hc, rfl⟩
    exact accrues_of_left (hrest.1 c hc)

theorem within_opCalls {ts : List UInt64} (hb : b.lastNs = 0 ∨ b.allowanceNs ≤ burstNs)
    : ∀ c ∈ opCalls costNs burstNs b ts,
        WithinBurst (burstNs.toNat : Int) (c.withdrawal costNs) := by
  induction ts generalizing b with
  | nil => exact fun c hc => absurd hc List.not_mem_nil
  | cons t ts ih =>
    have hfull := opAccrue_le_burst t hb
    have hleft := opCall_left costNs burstNs b t
    intro c hc
    unfold opCalls at hc
    rcases List.mem_cons.mp hc with rfl | hc
    . refine ⟨Int.natCast_nonneg _, Int.natCast_nonneg _, ?_⟩
      unfold OpCall.withdrawal
      dsimp only
      omega
    . apply ih _ c hc
      apply Or.inr
      rw [UInt64.le_iff_toNat_le]
      omega

-- The bound for any sequence of calls on a new session.
theorem admittedIn_le {times : List UInt64} (hpos : ∀ t ∈ times, t ≠ 0)
    (hsorted : times.Pairwise (· ≤ ·)) (start span : Nat)
    : admittedIn start span (opCalls costNs burstNs .fresh times) * costNs.toNat
        ≤ burstNs.toNat + span := by
  have hchain := @accrues_fresh costNs burstNs times hpos hsorted
  have hwithin := @within_opCalls .fresh costNs burstNs times (.inl rfl)
  generalize opCalls costNs burstNs .fresh times = calls at hchain hwithin
  -- the admitted calls of the window are some of the withdrawals
  let inside := calls.filter fun c =>
    c.admitted && start ≤ c.nowNs.toNat && c.nowNs.toNat ≤ start + span
  have hinside : ∀ c ∈ inside, c ∈ calls ∧ c.admitted = true ∧ start ≤ c.nowNs.toNat
      ∧ c.nowNs.toNat ≤ start + span := by
    intro c hc
    simpa [inside, and_assoc] using hc
  have hbound := @length_mul_le Int _ _ _ (inside.map (OpCall.withdrawal costNs)) burstNs.toNat start
    span costNs.toNat (hchain.sublist (List.filter_sublist.map _)) ?_ (Int.natCast_nonneg _)
    (Int.natCast_nonneg _) ?_ ?_
  . rw [List.length_map] at hbound
    unfold admittedIn
    rw [List.countP_eq_length_filter]
    exact_mod_cast hbound
  . intro x hx
    rcases List.mem_map.mp hx with ⟨c, hc, rfl⟩
    exact hwithin c (hinside c hc).1
  . intro x hx
    rcases List.mem_map.mp hx with ⟨c, hc, rfl⟩
    have htime := (hinside c hc).2.2
    unfold OpCall.withdrawal
    dsimp only
    omega
  . intro x hx
    rcases List.mem_map.mp hx with ⟨c, hc, rfl⟩
    unfold OpCall.withdrawal opSpent
    rw [(hinside c hc).2.1]
    rfl

end Calls

section Spaced

variable {b : OpBucket} {costNs burstNs : UInt64}

-- The second call is at least the cost of an operation later.
def CostApart (costNs t t' : UInt64) : Prop :=
  t.toNat + costNs.toNat ≤ t'.toNat

-- What an admitted call can leave and the time up to the next one fit in 64 bits together.
def FitsBetween (costNs burstNs t t' : UInt64) : Prop :=
  burstNs.toNat - costNs.toNat + (t'.toNat - t.toNat) < 2 ^ 64

theorem opCall_of_le {nowNs : UInt64} (h : costNs ≤ opAccrue b nowNs burstNs)
    : opCall costNs burstNs b nowNs = ⟨nowNs, true, ⟨opAccrue b nowNs burstNs - costNs, nowNs⟩⟩ := by
  unfold opCall opAdmit
  dsimp only
  rw [if_pos h]

-- An admitted call leaves at most the burst without its cost.
theorem opCall_room {nowNs : UInt64} (h : costNs ≤ opAccrue b nowNs burstNs)
    (hb : b.lastNs = 0 ∨ b.allowanceNs ≤ burstNs)
    : (opCall costNs burstNs b nowNs).bucket.allowanceNs.toNat ≤ burstNs.toNat - costNs.toNat := by
  have hfull := opAccrue_le_burst nowNs hb
  rw [opCall_of_le h]
  dsimp only
  rw [UInt64.toNat_sub_of_le _ _ h]
  omega

theorem admitted_of_apart {ts : List UInt64} (hcost : 0 < costNs) (hburst : costNs ≤ burstNs)
    (hlast : b.lastNs ≠ 0) (hroom : b.allowanceNs.toNat ≤ burstNs.toNat - costNs.toNat)
    (hpos : ∀ t ∈ ts, t ≠ 0) (hapart : (b.lastNs :: ts).IsChain (CostApart costNs))
    (hfits : (b.lastNs :: ts).IsChain (FitsBetween costNs burstNs))
    : ∀ c ∈ opCalls costNs burstNs b ts, c.admitted = true := by
  induction ts generalizing b with
  | nil => exact fun c hc => absurd hc List.not_mem_nil
  | cons t ts ih =>
    rw [List.isChain_cons_cons] at hapart hfits
    have hpays := le_opAccrue hlast hroom hapart.1 hcost hburst hfits.1
    have hleft : b.allowanceNs ≤ burstNs := by
      rw [UInt64.le_iff_toNat_le]
      omega
    intro c hc
    unfold opCalls at hc
    rcases List.mem_cons.mp hc with rfl | hc
    . rw [opCall_of_le hpays]
    . apply ih _ (opCall_room hpays (.inr hleft)) _ _ _ c hc
      . rw [opCall_last]
        exact hpos t List.mem_cons_self
      . exact fun t' ht' => hpos t' (List.mem_cons_of_mem t ht')
      . rw [opCall_last]
        exact hapart.2
      . rw [opCall_last]
        exact hfits.2

theorem admitted_of_apart_fresh {times : List UInt64} (hcost : 0 < costNs) (hburst : costNs ≤ burstNs)
    (hpos : ∀ t ∈ times, t ≠ 0) (hapart : times.IsChain (CostApart costNs))
    (hfits : times.IsChain (FitsBetween costNs burstNs))
    : ∀ c ∈ opCalls costNs burstNs .fresh times, c.admitted = true := by
  cases times with
  | nil => exact fun c hc => absurd hc List.not_mem_nil
  | cons t ts =>
    have hpays : costNs ≤ opAccrue .fresh t burstNs := hburst
    intro c hc
    unfold opCalls at hc
    rcases List.mem_cons.mp hc with rfl | hc
    . rw [opCall_of_le hpays]
    . apply admitted_of_apart hcost hburst _ (opCall_room hpays (.inl rfl)) _ _ _ c hc
      . rw [opCall_last]
        exact hpos t List.mem_cons_self
      . exact fun t' ht' => hpos t' (List.mem_cons_of_mem t ht')
      . rw [opCall_last]
        exact hapart
      . rw [opCall_last]
        exact hfits

end Spaced

-- No window has more admitted calls than the burst and its length pay for, and calls that are far
-- enough apart are all admitted.
theorem opAdmit_rate {costNs burstNs : UInt64} {times : List UInt64} (hcost : 0 < costNs)
    (hburst : costNs ≤ burstNs) (hpos : ∀ t ∈ times, 0 < t) (hsorted : times.Pairwise (· ≤ ·))
    : (∀ start span : Nat, admittedIn start span (opCalls costNs burstNs .fresh times)
          ≤ (burstNs.toNat + span) / costNs.toNat)
        ∧ (times.IsChain (CostApart costNs) → times.IsChain (FitsBetween costNs burstNs) →
          ∀ c ∈ opCalls costNs burstNs .fresh times, c.admitted = true) := by
  have hne : ∀ t ∈ times, t ≠ 0 := by
    intro t ht hzero
    have hlt := hpos t ht
    rw [hzero] at hlt
    exact absurd hlt (by decide)
  constructor
  . intro start span
    have hnat : 0 < costNs.toNat := UInt64.lt_iff_toNat_lt.mp hcost
    rw [Nat.le_div_iff_mul_le hnat]
    exact admittedIn_le hne hsorted start span
  . intro hapart hfits
    exact admitted_of_apart_fresh hcost hburst hne hapart hfits

-- The thresholds of the session, 100 ms for each operation and five of them at once.
def rlCostNs : UInt64 := 100000000

def rlBurstNs : UInt64 := 500000000

theorem opAdmit_rate_cadence
    : (∀ start span : Nat, admittedIn start span
          (opCalls rlCostNs rlBurstNs .fresh [1000000000, 1100000000, 1350000000])
          ≤ (rlBurstNs.toNat + span) / rlCostNs.toNat)
        ∧ ∀ c ∈ opCalls rlCostNs rlBurstNs .fresh [1000000000, 1100000000, 1350000000],
          c.admitted = true := by
  have hrate := @opAdmit_rate rlCostNs rlBurstNs [1000000000, 1100000000, 1350000000] (by decide)
    (by decide) (by simp) (by decide)
  refine ⟨hrate.1, hrate.2 ?_ ?_⟩
  . simp only [List.isChain_cons_cons, List.isChain_singleton, and_true]
    unfold CostApart
    decide
  . simp only [List.isChain_cons_cons, List.isChain_singleton, and_true]
    unfold FitsBetween
    decide

example : (opCalls rlCostNs rlBurstNs .fresh (List.replicate 7 1000000000)).map OpCall.admitted
    = [true, true, true, true, true, false, false] := by
  decide

end Harp
