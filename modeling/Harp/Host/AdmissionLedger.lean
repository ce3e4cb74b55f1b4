import Harp.Lib.Run
import Harp.Lib.Tally

/-!
This module contains the admission ledger of `shell/runtime_registry.cpp`, in which the sessions of
all instances reserve the bandwidth of their paths, and the calls of `audioStart` and `sessionDown`
that keep it.
-/

namespace Harp.Admission

open Runs

structure PathLedger where
  reservations : AList (fun _ : String => UInt64)
  capacity : UInt64

abbrev Ledger :=
  AList (fun _ : String => PathLedger)

structure Verdict where
  admitted : Bool
  outReserved : UInt64
  outCapacity : UInt64
  outAvail : UInt64

namespace PathLedger

def empty : PathLedger :=
  ⟨∅, 0⟩

def usedByOthers (pl : PathLedger) (reservationKey : String) : UInt64 :=
  pl.reservations.foldl
    (fun used key bps => if key ≠ reservationKey then used + bps else used) 0

end PathLedger

namespace Ledger

def usedByOthers (t : Ledger) (pathKey reservationKey : String) : UInt64 :=
  match t.lookup pathKey with
  | none => 0
  | some pl => pl.usedByOthers reservationKey

def avail (t : Ledger) (pathKey reservationKey : String) (capacityBps : UInt64) : UInt64 :=
  let used := t.usedByOthers pathKey reservationKey
  if used < capacityBps then capacityBps - used else 0

def record (t : Ledger) (pathKey reservationKey : String) (needBps capacityBps : UInt64) : Ledger :=
  let pl := (t.lookup pathKey).getD .empty
  t.insert pathKey ⟨pl.reservations.insert reservationKey needBps, capacityBps⟩

def ledgerReserve (t : Ledger) (pathKey reservationKey : String) (needBps capacityBps : UInt64)
    : Verdict × Ledger :=
  let avail := t.avail pathKey reservationKey capacityBps
  let used := t.usedByOthers pathKey reservationKey
  if avail < needBps then
    (⟨false, used, capacityBps, avail⟩, t)
  else
    (⟨true, used, capacityBps, avail⟩, t.record pathKey reservationKey needBps capacityBps)

def ledgerRelease (t : Ledger) (pathKey reservationKey : String) : Ledger :=
  match t.lookup pathKey with
  | none => t
  | some pl => t.insert pathKey { pl with reservations := pl.reservations.erase reservationKey }

-- What the sessions have reserved on a path together, and what one of them has.
def reserved (t : Ledger) (pathKey : String) : Nat :=
  match t.lookup pathKey with
  | none => 0
  | some pl => Tally.total UInt64.toNat pl.reservations

def row (t : Ledger) (pathKey reservationKey : String) : Option UInt64 :=
  (t.lookup pathKey).bind (·.reservations.lookup reservationKey)

def amount (t : Ledger) (pathKey reservationKey : String) : UInt64 :=
  (t.row pathKey reservationKey).getD 0

inductive Call where
  | reserve (pathKey reservationKey : String) (needBps : UInt64)
  | release (pathKey reservationKey : String)

def next (cap : String → UInt64) (t : Ledger) : Call → Ledger
  | .reserve pathKey reservationKey needBps =>
    (t.ledgerReserve pathKey reservationKey needBps (cap pathKey)).2
  | .release pathKey reservationKey => t.ledgerRelease pathKey reservationKey

def Within (cap : String → UInt64) (t : Ledger) : Prop :=
  ∀ pathKey, t.reserved pathKey ≤ (cap pathKey).toNat

section Sums

variable {t : Ledger} {pathKey reservationKey : String} {needBps capacityBps : UInt64}

theorem toNat_foldl (k : String) (l : List (Sigma (fun _ : String => UInt64))) (used : UInt64)
    (hfit : used.toNat + ((l.filter (fun e => e.1 ≠ k)).map (fun e => e.2.toNat)).sum < 2 ^ 64)
    : (l.foldl (fun used e => if e.1 ≠ k then used + e.2 else used) used).toNat
        = used.toNat + ((l.filter (fun e => e.1 ≠ k)).map (fun e => e.2.toNat)).sum := by
  induction l generalizing used with
  | nil => rfl
  | cons e l ih =>
    rw [List.foldl_cons]
    by_cases hk : e.1 ≠ k
    . rw [List.filter_cons_of_pos (by simpa using hk), List.map_cons, List.sum_cons] at hfit ⊢
      have hadd : (used + e.2).toNat = used.toNat + e.2.toNat := by
        rw [UInt64.toNat_add, Nat.mod_eq_of_lt (by omega)]
      rw [if_pos hk, ih (used + e.2) (by omega)]
      omega
    . rw [List.filter_cons_of_neg (by simpa using hk)] at hfit ⊢
      rw [if_neg hk, ih used hfit]

-- With the sums in 64 bits, what the others have is what is added up.
theorem toNat_usedByOthers (pl : PathLedger) (k : String)
    (hfit : Tally.total UInt64.toNat pl.reservations < 2 ^ 64)
    : (pl.usedByOthers k).toNat = Tally.others UInt64.toNat pl.reservations k := by
  have hle := Tally.others_le UInt64.toNat pl.reservations k
  unfold Tally.others at hle ⊢
  unfold PathLedger.usedByOthers AList.foldl
  rw [toNat_foldl k _ 0 (by rw [UInt64.toNat_zero]; omega), UInt64.toNat_zero, Nat.zero_add]

theorem reserved_insert (t : Ledger) (pathKey other : String) (pl : PathLedger)
    : reserved (t.insert pathKey pl) other
        = if other = pathKey then Tally.total UInt64.toNat pl.reservations
          else t.reserved other := by
  unfold reserved
  by_cases h : other = pathKey
  . rw [if_pos h, h, AList.lookup_insert]
  . rw [if_neg h, AList.lookup_insert_ne h]

theorem row_insert (t : Ledger) (pathKey other key : String) (pl : PathLedger)
    : row (t.insert pathKey pl) other key
        = if other = pathKey then pl.reservations.lookup key else t.row other key := by
  unfold row
  by_cases h : other = pathKey
  . rw [if_pos h, h, AList.lookup_insert]
    rfl
  . rw [if_neg h, AList.lookup_insert_ne h]

-- A row that is written or erased; every other is left.
theorem row_record (t : Ledger) (pathKey reservationKey other key : String)
    (needBps capacityBps : UInt64)
    : (t.record pathKey reservationKey needBps capacityBps).row other key
        = if other = pathKey ∧ key = reservationKey then some needBps else t.row other key := by
  unfold record
  rw [row_insert]
  by_cases hpath : other = pathKey
  . rw [if_pos hpath]
    dsimp only
    by_cases hkey : key = reservationKey
    . rw [if_pos ⟨hpath, hkey⟩, hkey, AList.lookup_insert]
    . rw [if_neg (fun h => hkey h.2), AList.lookup_insert_ne hkey, hpath]
      unfold row
      cases t.lookup pathKey with
      | none => rfl
      | some pl => rfl
  . rw [if_neg hpath, if_neg (fun h => hpath h.1)]

theorem row_ledgerRelease (t : Ledger) (pathKey reservationKey other key : String)
    : (t.ledgerRelease pathKey reservationKey).row other key
        = if other = pathKey ∧ key = reservationKey then none else t.row other key := by
  unfold ledgerRelease
  cases hlookup : t.lookup pathKey with
  | none =>
    dsimp only
    split
    next h =>
      unfold row
      rw [h.1, hlookup]
      rfl
    next => rfl
  | some pl =>
    dsimp only
    rw [row_insert]
    by_cases hpath : other = pathKey
    . rw [if_pos hpath]
      dsimp only
      by_cases hkey : key = reservationKey
      . rw [if_pos ⟨hpath, hkey⟩, hkey, AList.lookup_erase]
      . rw [if_neg (fun h => hkey h.2), AList.lookup_erase_ne hkey, hpath]
        unfold row
        rw [hlookup]
        rfl
    . rw [if_neg hpath, if_neg (fun h => hpath h.1)]

variable {cap : String → UInt64}

theorem within_empty : Within cap ∅ :=
  fun pathKey => Nat.zero_le (cap pathKey).toNat

-- What a path has left is the capacity less what the others have.
theorem others_add_need (h : t.Within cap) {pathKey reservationKey : String}
    (hfits : ¬ t.avail pathKey reservationKey (cap pathKey) < needBps)
    : Tally.others UInt64.toNat ((t.lookup pathKey).getD .empty).reservations reservationKey
        + needBps.toNat ≤ (cap pathKey).toNat := by
  have hcap := (cap pathKey).toNat_lt
  have hused : (t.usedByOthers pathKey reservationKey).toNat
      = Tally.others UInt64.toNat ((t.lookup pathKey).getD .empty).reservations reservationKey
      ∧ Tally.others UInt64.toNat ((t.lookup pathKey).getD .empty).reservations reservationKey
          ≤ (cap pathKey).toNat := by
    have hwithin := h pathKey
    unfold reserved at hwithin
    unfold usedByOthers
    cases hlookup : t.lookup pathKey with
    | none => exact ⟨rfl, Nat.zero_le _⟩
    | some pl =>
      rw [hlookup] at hwithin
      have hle := Tally.others_le UInt64.toNat pl.reservations reservationKey
      exact ⟨toNat_usedByOthers pl reservationKey (Nat.lt_of_le_of_lt hwithin hcap),
        Nat.le_trans hle hwithin⟩
  rcases hused with ⟨heq, hle⟩
  unfold avail at hfits
  dsimp only at hfits
  rw [UInt64.not_lt, UInt64.le_iff_toNat_le] at hfits
  split at hfits
  next hlt =>
    rw [UInt64.toNat_sub_of_le _ _ (UInt64.le_of_lt hlt), heq] at hfits
    omega
  next =>
    rw [UInt64.toNat_zero] at hfits
    omega

theorem Within.record (h : t.Within cap) {pathKey reservationKey : String}
    (hfits : ¬ t.avail pathKey reservationKey (cap pathKey) < needBps)
    : (t.record pathKey reservationKey needBps (cap pathKey)).Within cap := by
  intro other
  unfold Ledger.record
  rw [reserved_insert]
  split
  next heq =>
    have hsum := others_add_need h hfits
    dsimp only
    rw [heq, Tally.total_insert]
    omega
  next => exact h other

theorem Within.ledgerReserve (h : t.Within cap) (pathKey reservationKey : String) (needBps : UInt64)
    : (t.ledgerReserve pathKey reservationKey needBps (cap pathKey)).2.Within cap := by
  unfold Ledger.ledgerReserve
  dsimp only
  split
  next => exact h
  next hfits => exact h.record hfits

theorem Within.ledgerRelease (h : t.Within cap) (pathKey reservationKey : String)
    : (t.ledgerRelease pathKey reservationKey).Within cap := by
  unfold Ledger.ledgerRelease
  cases hlookup : t.lookup pathKey with
  | none => exact h
  | some pl =>
    intro other
    dsimp only
    rw [reserved_insert]
    split
    next heq =>
      have hwithin := h pathKey
      unfold reserved at hwithin
      rw [hlookup] at hwithin
      rw [heq, Tally.total_erase]
      exact Nat.le_trans (Tally.others_le UInt64.toNat pl.reservations reservationKey) hwithin
    next => exact h other

theorem Within.next (h : t.Within cap) (c : Call) : (t.next cap c).Within cap := by
  cases c with
  | reserve pathKey reservationKey needBps => exact h.ledgerReserve pathKey reservationKey needBps
  | release pathKey reservationKey => exact h.ledgerRelease pathKey reservationKey

theorem within_run (h : Run (next cap) free ∅ t) : t.Within cap :=
  h.inv within_empty (fun _ c hs _ => hs.next c)

-- A call is refused and the ledger is as it was, or it is admitted and writes its row.
theorem ledgerReserve_cases (t : Ledger) (pathKey reservationKey : String)
    (needBps capacityBps : UInt64)
    : ((t.ledgerReserve pathKey reservationKey needBps capacityBps).1.admitted = false
          ∧ (t.ledgerReserve pathKey reservationKey needBps capacityBps).2 = t)
        ∨ ((t.ledgerReserve pathKey reservationKey needBps capacityBps).1.admitted = true
          ∧ (t.ledgerReserve pathKey reservationKey needBps capacityBps).2
              = t.record pathKey reservationKey needBps capacityBps) := by
  unfold ledgerReserve
  dsimp only
  split
  . exact .inl ⟨rfl, rfl⟩
  . exact .inr ⟨rfl, rfl⟩

end Sums

end Ledger

section Session

-- Where the audio of a transport goes.
inductive Topology where
  | usb (controller : Option String)
  | eth

def Topology.pathKey : Topology → String
  | .usb (some controller) => "usb:" ++ controller
  | .usb none => "usb:unknown"
  | .eth => "eth:global"

-- `wire` is whether the device answers the request of `audio.start`.
structure StartCall where
  topology : Topology
  unionSlots : UInt32
  freeRunning : Bool
  fxInSlots : UInt32
  loopbackArmed : Bool
  rate : UInt32
  wire : Bool

def StartCall.inCh (c : StartCall) : UInt32 :=
  if c.freeRunning then 0
  else if c.fxInSlots ≠ 0 then c.fxInSlots
  else if c.loopbackArmed then 1
  else 2

def StartCall.needBps (c : StartCall) : UInt64 :=
  (c.unionSlots + c.inCh).toUInt64 * 4 * c.rate.toUInt64

structure Session where
  transport : Bool
  connected : Bool
  admittedPath : String
  admittedKey : String
  admittedBps : UInt64

def Session.down : Session :=
  ⟨false, false, "", "", 0⟩

-- The ledger of the process and one session.
abbrev Seat :=
  Ledger × Session

namespace Seat

def release (x : Seat) : Seat :=
  if x.2.admittedBps ≠ 0 then
    (x.1.ledgerRelease x.2.admittedPath x.2.admittedKey, { x.2 with admittedBps := 0 })
  else
    x

-- The row of a path the session has left.
def rebind (x : Seat) (pathKey : String) : Seat :=
  if x.2.admittedBps ≠ 0 ∧ x.2.admittedPath ≠ pathKey then x.release else x

def admitStart (x : Seat) (cap : String → UInt64) (resKey : String) (c : StartCall) : Bool × Seat :=
  let pathKey := c.topology.pathKey
  let (verdict, ledger) := x.1.ledgerReserve pathKey resKey c.needBps (cap pathKey)
  if verdict.admitted then
    (true, ledger,
      { x.2 with admittedPath := pathKey, admittedKey := resKey, admittedBps := c.needBps })
  else
    (false, ledger, x.2)

def audioStart (x : Seat) (cap : String → UInt64) (resKey : String) (c : StartCall) : Bool × Seat :=
  let (admitted, x) := (x.rebind c.topology.pathKey).admitStart cap resKey c
  if admitted then
    if c.wire then (true, x) else (false, x.release)
  else
    (false, x)

inductive Event where
  -- `none`: no device, one without audio, or no answer to the hello
  | sessionUp (c : Option StartCall)
  | audioRenegotiate (c : StartCall)
  | transportLost
  | sessionDown

def sessionUp (x : Seat) (cap : String → UInt64) (resKey : String) : Option StartCall → Seat
  | none => x
  | some c =>
    let (ok, x) := x.audioStart cap resKey c
    (x.1, { x.2 with transport := ok, connected := ok })

def audioRenegotiate (x : Seat) (cap : String → UInt64) (resKey : String) (c : StartCall) : Seat :=
  if x.2.connected then
    let (ok, x) := x.audioStart cap resKey c
    (x.1, { x.2 with connected := ok })
  else
    x

def sessionDown (x : Seat) : Seat :=
  let x : Seat := (x.1, { x.2 with connected := false })
  if x.2.transport then
    let x := x.release
    (x.1, { x.2 with transport := false })
  else
    x

def next (x : Seat) (cap : String → UInt64) (resKey : String) : Event → Seat
  | .sessionUp c => x.sessionUp cap resKey c
  | .audioRenegotiate c => x.audioRenegotiate cap resKey c
  | .transportLost => (x.1, { x.2 with connected := false })
  | .sessionDown => x.sessionDown

end Seat

-- All sessions of the process, each under the key of its reservations.
structure Process where
  ledger : Ledger
  sessions : String → Session

namespace Process

def start : Process :=
  ⟨∅, fun _ => .down⟩

def next (cap : String → UInt64) (p : Process) (a : String × Seat.Event) : Process :=
  let x := Seat.next (p.ledger, p.sessions a.1) cap a.1 a.2
  ⟨x.1, Function.update p.sessions a.1 x.2⟩

-- The supervisor brings a session up after it took the one before down.
def Supervised (p : Process) (a : String × Seat.Event) : Prop :=
  match a.2 with
  | .sessionUp _ => (p.sessions a.1).transport = false
  | _ => True

def StartCall? : Seat.Event → Option StartCall
  | .sessionUp c => c
  | .audioRenegotiate c => some c
  | _ => none

-- Every stream that is asked for needs at least a byte.
def Charged (_ : Process) (a : String × Seat.Event) : Prop :=
  ∀ c, StartCall? a.2 = some c → c.needBps ≠ 0

end Process

namespace Seat

variable {cap : String → UInt64} {key : String} {x : Seat} {c : StartCall}

-- What a session has reserved is where it says.
structure Held (cap : String → UInt64) (key : String) (x : Seat) : Prop where
  within : x.1.Within cap
  rows : ∀ path bps, x.1.row path key = some bps → bps ≠ 0 →
    x.2.admittedBps ≠ 0 ∧ path = x.2.admittedPath
  key : x.2.admittedBps ≠ 0 → x.2.admittedKey = key

-- The rows of other sessions are as they were.
def Frame (key : String) (x x' : Seat) : Prop :=
  ∀ path k, k ≠ key → x'.1.row path k = x.1.row path k

theorem Frame.trans {x' x'' : Seat} (h : Frame key x x') (h' : Frame key x' x'')
    : Frame key x x'' :=
  fun path k hk => (h' path k hk).trans (h path k hk)

theorem bps_release (x : Seat) : x.release.2.admittedBps = 0 := by
  unfold release
  split
  next => rfl
  next h => exact not_not.mp h

theorem Held.release (h : Held cap key x) : Held cap key x.release := by
  unfold Seat.release
  split
  next hbps =>
    refine ⟨h.within.ledgerRelease _ _, ?_, fun hne => absurd rfl hne⟩
    intro path bps hrow hne
    dsimp only at hrow
    rw [Ledger.row_ledgerRelease] at hrow
    split at hrow
    next => cases hrow
    next hother =>
      have hpath := (h.rows path bps hrow hne).2
      exact absurd ⟨hpath, (h.key hbps).symm⟩ hother
  next => exact h

theorem Held.frame_release (h : Held cap key x) : Frame key x x.release := by
  intro path k hk
  unfold Seat.release
  split
  next hbps =>
    dsimp only
    rw [Ledger.row_ledgerRelease, if_neg]
    rintro ⟨_, hkey⟩
    exact hk (hkey.trans (h.key hbps))
  next => rfl

theorem Held.rebind (h : Held cap key x) (pathKey : String) : Held cap key (x.rebind pathKey) := by
  unfold Seat.rebind
  split
  next => exact h.release
  next => exact h

theorem Held.frame_rebind (h : Held cap key x) (pathKey : String)
    : Frame key x (x.rebind pathKey) := by
  unfold Seat.rebind
  split
  next => exact h.frame_release
  next => exact fun _ _ _ => rfl

theorem bps_rebind (x : Seat) (pathKey : String)
    : (x.rebind pathKey).2.admittedBps = 0
        ∨ ((x.rebind pathKey).2.admittedBps = x.2.admittedBps
          ∧ (x.rebind pathKey).2.admittedPath = pathKey) := by
  unfold rebind
  split
  next => exact .inl (bps_release x)
  next h =>
    by_cases hbps : x.2.admittedBps = 0
    . exact .inl hbps
    . exact .inr ⟨rfl, not_not.mp (fun hpath => h ⟨hbps, hpath⟩)⟩

-- A start that is refused leaves the seat; one that is admitted has written its row.
theorem admit_cases (x : Seat) (cap : String → UInt64) (key : String) (c : StartCall)
    : ((x.admitStart cap key c).1 = false ∧ (x.admitStart cap key c).2 = x)
        ∨ ((x.admitStart cap key c).1 = true
          ∧ ¬ x.1.avail c.topology.pathKey key (cap c.topology.pathKey) < c.needBps
          ∧ (x.admitStart cap key c).2
              = (x.1.record c.topology.pathKey key c.needBps (cap c.topology.pathKey),
                { x.2 with
                  admittedPath := c.topology.pathKey
                  admittedKey := key
                  admittedBps := c.needBps })) := by
  unfold admitStart Ledger.ledgerReserve
  dsimp only
  split
  next hrefused => exact .inl ⟨rfl, rfl⟩
  next hfits => exact .inr ⟨rfl, hfits, rfl⟩

-- The rebound seat has no other row of the session than that of the path.
theorem Held.admitStart (h : Held cap key x)
    (hbound : x.2.admittedBps = 0 ∨ x.2.admittedPath = c.topology.pathKey)
    : Held cap key (x.admitStart cap key c).2 ∧ Frame key x (x.admitStart cap key c).2 := by
  rcases admit_cases x cap key c with ⟨_, heq⟩ | ⟨_, hfits, heq⟩
  . rw [heq]
    exact ⟨h, fun _ _ _ => rfl⟩
  . rw [heq]
    constructor
    . refine ⟨h.within.record hfits, ?_, fun _ => rfl⟩
      intro path bps hrow hne
      dsimp only at hrow ⊢
      rw [Ledger.row_record] at hrow
      split at hrow
      next hself =>
        cases hrow
        exact ⟨hne, hself.1⟩
      next hother =>
        rcases h.rows path bps hrow hne with ⟨hbps, hpath⟩
        rcases hbound with hzero | hsame
        . exact absurd hzero hbps
        . exact absurd ⟨hpath.trans hsame, rfl⟩ hother
    . intro path k hk
      dsimp only
      rw [Ledger.row_record, if_neg (fun hself => hk hself.2)]

theorem Held.audioStart (h : Held cap key x) (c : StartCall)
    : Held cap key (x.audioStart cap key c).2 ∧ Frame key x (x.audioStart cap key c).2 := by
  have hbound : (x.rebind c.topology.pathKey).2.admittedBps = 0
      ∨ (x.rebind c.topology.pathKey).2.admittedPath = c.topology.pathKey := by
    rcases bps_rebind x c.topology.pathKey with hzero | ⟨_, hpath⟩
    . exact .inl hzero
    . exact .inr hpath
  rcases (h.rebind c.topology.pathKey).admitStart hbound with ⟨hheld, hframe⟩
  have hall := (h.frame_rebind c.topology.pathKey).trans hframe
  unfold Seat.audioStart
  dsimp only
  split
  next =>
    split
    next => exact ⟨hheld, hall⟩
    next => exact ⟨hheld.release, hall.trans hheld.frame_release⟩
  next => exact ⟨hheld, hall⟩

-- A start that fails on a session without a reservation leaves it without one.
theorem bps_audioStart (hzero : x.2.admittedBps = 0) (hfail : (x.audioStart cap key c).1 = false)
    : (x.audioStart cap key c).2.2.admittedBps = 0 := by
  have hrebind : x.rebind c.topology.pathKey = x := if_neg (fun h => h.1 hzero)
  unfold audioStart at hfail ⊢
  rw [hrebind] at hfail ⊢
  dsimp only at hfail ⊢
  rcases admit_cases x cap key c with ⟨hrefused, heq⟩ | ⟨hadmitted, _, _⟩
  . rw [hrefused, heq]
    exact hzero
  . rw [hadmitted] at hfail ⊢
    rw [if_pos rfl] at hfail ⊢
    split at hfail
    next => cases hfail
    next hwire =>
      rw [if_neg hwire]
      exact bps_release _

theorem transport_release (x : Seat) : x.release.2.transport = x.2.transport := by
  unfold release
  split
  . rfl
  . rfl

theorem transport_audioStart (x : Seat) (cap : String → UInt64) (key : String) (c : StartCall)
    : (x.audioStart cap key c).2.2.transport = x.2.transport := by
  have hrebind : (x.rebind c.topology.pathKey).2.transport = x.2.transport := by
    unfold rebind
    split
    . exact transport_release x
    . rfl
  have hadmit : ((x.rebind c.topology.pathKey).admitStart cap key c).2.2.transport
      = x.2.transport := by
    rcases admit_cases (x.rebind c.topology.pathKey) cap key c with ⟨_, heq⟩ | ⟨_, _, heq⟩
    . rw [heq]
      exact hrebind
    . rw [heq]
      exact hrebind
  unfold audioStart
  dsimp only
  split
  . split
    . exact hadmit
    . exact (transport_release _).trans hadmit
  . exact hadmit

-- Without a transport there is neither a stream nor a reservation.
def Down (s : Session) : Prop :=
  s.transport = false → s.connected = false ∧ s.admittedBps = 0

theorem Held.next (h : Held cap key x) (e : Event)
    : Held cap key (x.next cap key e) ∧ Frame key x (x.next cap key e) := by
  cases e with
  | sessionUp c =>
    cases c with
    | none => exact ⟨h, fun _ _ _ => rfl⟩
    | some c =>
      rcases h.audioStart c with ⟨hheld, hframe⟩
      exact ⟨⟨hheld.within, hheld.rows, hheld.key⟩, hframe⟩
  | audioRenegotiate c =>
    unfold Seat.next audioRenegotiate
    dsimp only
    split
    next =>
      rcases h.audioStart c with ⟨hheld, hframe⟩
      exact ⟨⟨hheld.within, hheld.rows, hheld.key⟩, hframe⟩
    next => exact ⟨h, fun _ _ _ => rfl⟩
  | transportLost => exact ⟨⟨h.within, h.rows, h.key⟩, fun _ _ _ => rfl⟩
  | sessionDown =>
    have hlost : Held cap key (x.1, { x.2 with connected := false }) := ⟨h.within, h.rows, h.key⟩
    unfold Seat.next Seat.sessionDown
    dsimp only
    split
    next =>
      have hheld := hlost.release
      exact ⟨⟨hheld.within, hheld.rows, hheld.key⟩, hlost.frame_release⟩
    next => exact ⟨hlost, fun _ _ _ => rfl⟩

theorem Down.next (h : Down x.2) (cap : String → UInt64) (key : String) (e : Event)
    (hsup : (∃ c, e = .sessionUp c) → x.2.transport = false) : Down (x.next cap key e).2 := by
  cases e with
  | sessionUp c =>
    cases c with
    | none => exact h
    | some c =>
      have hzero := (h (hsup ⟨_, rfl⟩)).2
      intro hfail
      exact ⟨hfail, bps_audioStart hzero hfail⟩
  | audioRenegotiate c =>
    unfold Seat.next audioRenegotiate
    dsimp only
    split
    next hup =>
      intro hdown
      have hdown' : x.2.transport = false := (transport_audioStart x cap key c).symm.trans hdown
      rw [(h hdown').1] at hup
      cases hup
    next => exact h
  | transportLost =>
    intro hdown
    exact ⟨rfl, (h hdown).2⟩
  | sessionDown =>
    unfold Seat.next Seat.sessionDown
    dsimp only
    split
    next =>
      intro _
      refine ⟨?_, bps_release _⟩
      unfold release
      split
      . rfl
      . rfl
    next hdown =>
      intro _
      exact ⟨rfl, (h (Bool.eq_false_iff.mpr hdown)).2⟩

theorem bps_sessionDown (h : Down x.2) : x.sessionDown.2.admittedBps = 0 := by
  unfold sessionDown
  dsimp only
  split
  next => exact bps_release _
  next hdown => exact (h (Bool.eq_false_iff.mpr hdown)).2

end Seat

namespace Process

variable {cap : String → UInt64} {p : Process}

structure Inv (cap : String → UInt64) (p : Process) : Prop where
  held : ∀ key, Seat.Held cap key (p.ledger, p.sessions key)
  down : ∀ key, Seat.Down (p.sessions key)

theorem inv_start (cap : String → UInt64) : Inv cap start := by
  constructor
  . intro key
    refine ⟨Ledger.within_empty, ?_, fun hne => absurd rfl hne⟩
    intro path bps hrow
    cases hrow
  . intro key _
    exact ⟨rfl, rfl⟩

theorem Inv.next (h : Inv cap p) (a : String × Seat.Event) (hsup : Supervised p a)
    : Inv cap (p.next cap a) := by
  rcases a with ⟨key, e⟩
  rcases (h.held key).next e with ⟨hheld, hframe⟩
  constructor
  . intro other
    unfold Process.next
    dsimp only
    by_cases hk : other = key
    . subst hk
      rw [Function.update_self]
      exact hheld
    . rw [Function.update_of_ne hk]
      refine ⟨hheld.within, ?_, (h.held other).key⟩
      intro path bps hrow hne
      have hold := hframe path other hk
      dsimp only at hrow hold
      rw [hold] at hrow
      exact (h.held other).rows path bps hrow hne
  . intro other
    unfold Process.next
    dsimp only
    by_cases hk : other = key
    . subst hk
      rw [Function.update_self]
      apply Seat.Down.next (h.down other)
      rintro ⟨c, rfl⟩
      exact hsup
    . rw [Function.update_of_ne hk]
      exact h.down other

theorem inv_run (h : Run (next cap) Supervised start p) : Inv cap p :=
  h.inv (inv_start cap) (fun _ a hs hsup => hs.next a hsup)

theorem row_of_amount {t : Ledger} {path key : String} (h : t.amount path key ≠ 0)
    : ∃ bps, t.row path key = some bps ∧ bps ≠ 0 := by
  unfold Ledger.amount at h
  cases hrow : t.row path key with
  | none =>
    rw [hrow] at h
    exact absurd rfl h
  | some bps =>
    rw [hrow] at h
    exact ⟨bps, rfl, h⟩

theorem Inv.path_of_amount (h : Inv cap p) {path key : String} (hne : p.ledger.amount path key ≠ 0)
    : (p.sessions key).admittedBps ≠ 0 ∧ path = (p.sessions key).admittedPath := by
  rcases row_of_amount hne with ⟨bps, hrow, hbps⟩
  exact (h.held key).rows path bps hrow hbps

theorem Inv.amount_sessionDown (h : Inv cap p) (path key : String)
    : (p.next cap (key, .sessionDown)).ledger.amount path key = 0 := by
  have hnext := h.next (key, .sessionDown) trivial
  have hzero : ((p.next cap (key, .sessionDown)).sessions key).admittedBps = 0 := by
    unfold Process.next
    dsimp only
    rw [Function.update_self]
    exact Seat.bps_sessionDown (h.down key)
  by_contra hne
  exact (hnext.path_of_amount hne).1 hzero

-- No row of the ledger is a row of nothing.
def Positive (t : Ledger) : Prop :=
  ∀ path key bps, t.row path key = some bps → bps ≠ 0

theorem amount_of_row {t : Ledger} (h : Positive t) {path key : String}
    (hrow : t.row path key ≠ none) : t.amount path key ≠ 0 := by
  rcases Option.ne_none_iff_exists'.mp hrow with ⟨bps, heq⟩
  unfold Ledger.amount
  rw [heq]
  exact h path key bps heq

theorem Positive.release {x : Seat} (h : Positive x.1) : Positive x.release.1 := by
  unfold Seat.release
  split
  next =>
    intro path key bps hrow
    dsimp only at hrow
    rw [Ledger.row_ledgerRelease] at hrow
    split at hrow
    next => cases hrow
    next => exact h path key bps hrow
  next => exact h

theorem Positive.audioStart {x : Seat} {key : String} {c : StartCall} (h : Positive x.1)
    (hneed : c.needBps ≠ 0) : Positive (x.audioStart cap key c).2.1 := by
  have hrebind : Positive (x.rebind c.topology.pathKey).1 := by
    unfold Seat.rebind
    split
    next => exact h.release
    next => exact h
  have hadmit : Positive ((x.rebind c.topology.pathKey).admitStart cap key c).2.1 := by
    rcases Seat.admit_cases (x.rebind c.topology.pathKey) cap key c with ⟨_, heq⟩ | ⟨_, _, heq⟩
    . rw [heq]
      exact hrebind
    . rw [heq]
      intro path k bps hrow
      dsimp only at hrow
      rw [Ledger.row_record] at hrow
      split at hrow
      next =>
        cases hrow
        exact hneed
      next => exact hrebind path k bps hrow
  unfold Seat.audioStart
  dsimp only
  split
  next =>
    split
    next => exact hadmit
    next => exact hadmit.release
  next => exact hadmit

theorem Positive.next (h : Positive p.ledger) (a : String × Seat.Event) (hcharged : Charged p a)
    : Positive (p.next cap a).ledger := by
  rcases a with ⟨key, e⟩
  cases e with
  | sessionUp c =>
    cases c with
    | none => exact h
    | some c => exact Positive.audioStart (x := (p.ledger, p.sessions key)) h (hcharged c rfl)
  | audioRenegotiate c =>
    unfold Process.next Seat.next Seat.audioRenegotiate
    dsimp only
    split
    next => exact Positive.audioStart (x := (p.ledger, p.sessions key)) h (hcharged c rfl)
    next => exact h
  | transportLost => exact h
  | sessionDown =>
    unfold Process.next Seat.next Seat.sessionDown
    dsimp only
    split
    next =>
      exact Positive.release (x := (p.ledger, { p.sessions key with connected := false })) h
    next => exact h

theorem positive_run (h : Run (next cap) Charged start p) : Positive p.ledger := by
  apply h.inv (I := fun p => Positive p.ledger)
  . intro path key bps hrow
    cases hrow
  . intro p a hs hcharged
    exact hs.next a hcharged

end Process

end Session

/--
The reservations of a path are within its capacity over any calls, a refused call changes nothing,
and a session has a reservation on one path at most and none once it is down. There is not even a
row left if every stream needs a byte.
-/
theorem admission (cap : String → UInt64)
    : (∀ t, Run (Ledger.next cap) free ∅ t → t.Within cap)
        ∧ (∀ (t : Ledger) pathKey key needBps capacityBps,
            (t.ledgerReserve pathKey key needBps capacityBps).1.admitted = false →
              (t.ledgerReserve pathKey key needBps capacityBps).2 = t)
        ∧ (∀ p, Run (Process.next cap) Process.Supervised .start p →
            p.ledger.Within cap ∧ ∀ key,
              (∀ path path', p.ledger.amount path key ≠ 0 → p.ledger.amount path' key ≠ 0 →
                path = path')
              ∧ ∀ path, (p.next cap (key, .sessionDown)).ledger.amount path key = 0)
        ∧ ∀ p, Run (Process.next cap) (fun p a => Process.Supervised p a ∧ Process.Charged p a)
              .start p →
            ∀ key,
              (∀ path path', p.ledger.row path key ≠ none → p.ledger.row path' key ≠ none →
                path = path')
              ∧ ∀ path, (p.next cap (key, .sessionDown)).ledger.row path key = none := by
  refine ⟨fun t h => Ledger.within_run h, ?_, ?_, ?_⟩
  . intro t pathKey key needBps capacityBps hrefused
    rcases Ledger.ledgerReserve_cases t pathKey key needBps capacityBps with ⟨_, heq⟩ | ⟨hok, _⟩
    . exact heq
    . rw [hok] at hrefused
      cases hrefused
  . intro p hrun
    have hinv := Process.inv_run hrun
    refine ⟨(hinv.held "").within, ?_⟩
    intro key
    refine ⟨?_, fun path => hinv.amount_sessionDown path key⟩
    intro path path' hne hne'
    exact (hinv.path_of_amount hne).2.trans (hinv.path_of_amount hne').2.symm
  . intro p hrun key
    have hinv := Process.inv_run (hrun.imp (fun _ _ hg => hg.1))
    have hpos := Process.positive_run (hrun.imp (fun _ _ hg => hg.2))
    constructor
    . intro path path' hrow hrow'
      exact (hinv.path_of_amount (Process.amount_of_row hpos hrow)).2.trans
        (hinv.path_of_amount (Process.amount_of_row hpos hrow')).2.symm
    . intro path
      have hdown : Process.Positive (p.next cap (key, .sessionDown)).ledger := by
        apply hpos.next
        intro c hc
        cases hc
      by_contra hrow
      exact Process.amount_of_row hdown hrow (hinv.amount_sessionDown path key)

def mainMix (topology : Topology) : StartCall where
  topology := topology
  unionSlots := 2
  freeRunning := false
  fxInSlots := 0
  loopbackArmed := false
  rate := 48000
  wire := true

-- A segment with room for one stream of 768000 bytes a second; the second session is refused.
def twoOnASegment : List (String × Seat.Event) :=
  [("rt:1", .sessionUp (some (mainMix .eth))), ("rt:2", .sessionUp (some (mainMix .eth)))]

theorem admission_twoOnASegment
    : (twoOnASegment.foldl (Process.next fun _ => 1000000) .start).ledger.amount "eth:global" "rt:1"
          = 768000
        ∧ ((twoOnASegment.foldl (Process.next fun _ => 1000000) .start).next (fun _ => 1000000)
            ("rt:1", .sessionDown)).ledger.amount "eth:global" "rt:1" = 0 := by
  have hrun : Run (Process.next fun _ => 1000000) Process.Supervised .start
      (twoOnASegment.foldl (Process.next fun _ => 1000000) .start) :=
    Run.of_guarded twoOnASegment .start ⟨rfl, rfl, trivial⟩
  refine ⟨by decide +kernel, ?_⟩
  exact (((admission fun _ => 1000000).2.2.1 _ hrun).2 "rt:1").2 "eth:global"

end Harp.Admission
