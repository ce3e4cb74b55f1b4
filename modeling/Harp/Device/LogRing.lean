import Harp.Core.CborLemmas
import Harp.Lib.ByteRing
import Harp.Lib.LongestSuffix

/-!
This module contains the log ring of `device/log_ring.c`: records of different lengths that lie behind
each other in a circular buffer, the oldest of which make room for a new one, and the array of the
latest of them that a bundle gets. The lines are appended one at a time, under the ring's mutex.
-/

namespace Harp

open LongestSuffix

def logringCap : Nat := 128 * 1024

def logrecTagMax : Nat := 31

def logrecMsgMax : Nat := 480

def hdrBytes : Nat := 16

structure LogRecord where
  msc : UInt64
  level : UInt8
  tag : Bytes
  msg : Bytes
  tag_le : tag.length ≤ logrecTagMax
  msg_le : msg.length ≤ logrecMsgMax

namespace LogRecord

def size (entry : LogRecord) : Nat :=
  hdrBytes + entry.tag.length + entry.msg.length

def header (entry : LogRecord) : Bytes :=
  leBytes entry.size 4 ++ (leBytes entry.msc.toNat 8 ++ (leBytes entry.msg.length 2
    ++ [entry.level, UInt8.ofNat entry.tag.length]))

def bytes (entry : LogRecord) : Bytes :=
  entry.header ++ (entry.tag ++ entry.msg)

end LogRecord

def logRecordCbor (msc level : Nat) (tag msg : Bytes) : Bytes :=
  cborMap 4
    ++ (cborUint 0 ++ cborUint msc)
    ++ (cborUint 1 ++ cborUint level)
    ++ (cborUint 2 ++ cborText tag)
    ++ (cborUint 3 ++ cborText msg)

def LogRecord.cbor (entry : LogRecord) : Bytes :=
  logRecordCbor entry.msc.toNat entry.level.toNat entry.tag entry.msg

-- What a caller logs; the tag may be a null pointer.
structure LogLine where
  level : Int32
  tag : Option Bytes
  msc : UInt64
  msg : Bytes

def LogLine.record (line : LogLine) : LogRecord where
  msc := line.msc
  level := UInt8.ofInt line.level.toInt
  tag := (line.tag.getD []).take logrecTagMax
  msg := line.msg.take logrecMsgMax
  tag_le := List.length_take_le _ _
  msg_le := List.length_take_le _ _

def ringPut (buf : Nat → UInt8) (pos : Nat) (p : Bytes) : Nat → UInt8 :=
  ByteRing.put logringCap buf pos p

def ringGet (buf : Nat → UInt8) (pos n : Nat) : Bytes :=
  ByteRing.get logringCap buf pos n

-- The length a record begins with.
def recordLen (buf : Nat → UInt8) (pos : Nat) : Nat :=
  leNat (ringGet buf pos 4)

structure LogRing where
  buf : Nat → UInt8
  head : Nat
  tail : Nat
  used : Nat
  nrec : Nat
  dropped : UInt64

-- Where the reader is, and what is left from there.
structure LogCursor where
  cur : Nat
  remain : Nat
  nrec : Nat

namespace LogRing

def reset (buf : Nat → UInt8) : LogRing :=
  ⟨buf, 0, 0, 0, 0, 0⟩

def dropOldest (r : LogRing) : LogRing :=
  let rl := recordLen r.buf r.tail
  { r with
    tail := (r.tail + rl) % logringCap
    used := r.used - rl
    nrec := r.nrec - 1
    dropped := r.dropped + 1 }

-- The loop ends with the last record.
def evict (total : Nat) : Nat → LogRing → LogRing
  | 0, r => r
  | n + 1, r => if logringCap < r.used + total then evict total n r.dropOldest else r

def store (r : LogRing) (entry : LogRecord) : LogRing :=
  let buf := ringPut r.buf r.head entry.header
  let buf := ringPut buf ((r.head + hdrBytes) % logringCap) entry.tag
  let buf := ringPut buf ((r.head + hdrBytes + entry.tag.length) % logringCap) entry.msg
  { r with
    buf := buf
    head := (r.head + entry.size) % logringCap
    used := r.used + entry.size
    nrec := r.nrec + 1 }

def append (r : LogRing) (line : LogLine) : LogRing :=
  let entry := line.record
  if logringCap < entry.size then r else (r.evict entry.size r.nrec).store entry

def skipOldest (buf : Nat → UInt8) (maxPayload : Nat) : Nat → LogCursor → LogCursor
  | 0, c => c
  | n + 1, c =>
    if maxPayload < c.remain then
      let rl := recordLen buf c.cur
      skipOldest buf maxPayload n ⟨(c.cur + rl) % logringCap, c.remain - rl, c.nrec - 1⟩
    else
      c

def emitRecord (buf : Nat → UInt8) (cur : Nat) : Bytes × Nat :=
  let h := ringGet buf cur hdrBytes
  let total := leField h 0 4
  let msc := leField h 4 8
  let msglen := leField h 12 2
  let level := leField h 14 1
  let taglen := leField h 15 1
  let tag := ringGet buf ((cur + hdrBytes) % logringCap) taglen
  let msg := ringGet buf ((cur + hdrBytes + taglen) % logringCap) msglen
  (logRecordCbor msc level tag msg, (cur + total) % logringCap)

def emitRecords (buf : Nat → UInt8) : Nat → Nat → Bytes
  | 0, _ => []
  | n + 1, cur => (emitRecord buf cur).1 ++ emitRecords buf n (emitRecord buf cur).2

def emitCbor (r : LogRing) (maxPayload : Nat) : Bytes :=
  let c := skipOldest r.buf maxPayload r.nrec ⟨r.tail, r.used, r.nrec⟩
  cborArray c.nrec ++ emitRecords r.buf c.nrec c.cur

end LogRing

namespace LogRecord

theorem length_header (entry : LogRecord) : entry.header.length = hdrBytes := by
  unfold header
  simp only [List.length_append, length_leBytes]
  rfl

theorem length_bytes (entry : LogRecord) : entry.bytes.length = entry.size := by
  unfold bytes size
  rw [List.length_append, List.length_append, length_header, Nat.add_assoc]

theorem size_le (entry : LogRecord) : entry.size ≤ 527 := by
  have htag := entry.tag_le
  have hmsg := entry.msg_le
  unfold logrecTagMax at htag
  unfold logrecMsgMax at hmsg
  unfold size hdrBytes
  omega

theorem size_le_cap (entry : LogRecord) : entry.size ≤ logringCap :=
  Nat.le_trans entry.size_le (by decide)

end LogRecord

section Fields

theorem leField_leBytes (v n : Nat) (rest : Bytes)
    : leField (leBytes v n ++ rest) 0 n = v % 256 ^ n := by
  unfold leField
  rw [List.drop_zero, List.take_left' (length_leBytes v n), leNat_leBytes]

theorem leField_append {front : Bytes} {m : Nat} (hlen : front.length = m) (rest : Bytes)
    (pos n : Nat) : leField (front ++ rest) (m + pos) n = leField rest pos n := by
  unfold leField
  rw [← List.drop_drop, List.drop_left' hlen]

end Fields

/--
From a position on the ring has the bytes of these records.
-/
structure LogsAt (buf : Nat → UInt8) (cur : Nat) (recs : List LogRecord) : Prop where
  bytes : ByteRing.window logringCap buf cur (weight LogRecord.size recs)
    = recs.flatMap LogRecord.bytes
  fits : weight LogRecord.size recs ≤ logringCap
  cur_lt : cur < logringCap

namespace LogsAt

open LogRing

variable {buf : Nat → UInt8} {cur : Nat} {entry : LogRecord} {recs : List LogRecord}

theorem mod_lt (pos : Nat) : pos % logringCap < logringCap :=
  Nat.mod_lt pos (by decide)

-- The parts of the first record, and that the others come after it.
theorem parts (h : LogsAt buf cur (entry :: recs))
    : ByteRing.window logringCap buf cur hdrBytes = entry.header
        ∧ ByteRing.window logringCap buf (cur + hdrBytes) entry.tag.length = entry.tag
        ∧ ByteRing.window logringCap buf (cur + hdrBytes + entry.tag.length) entry.msg.length
            = entry.msg
        ∧ ByteRing.window logringCap buf (cur + entry.size) (weight LogRecord.size recs)
            = recs.flatMap LogRecord.bytes := by
  have hbytes := h.bytes
  rw [weight_cons, List.flatMap_cons, ByteRing.window_add] at hbytes
  rcases List.append_inj hbytes (by rw [ByteRing.length_window, entry.length_bytes])
    with ⟨hfirst, hrest⟩
  unfold LogRecord.size LogRecord.bytes at hfirst
  rw [Nat.add_assoc, ByteRing.window_add] at hfirst
  rcases List.append_inj hfirst (by rw [ByteRing.length_window, entry.length_header])
    with ⟨hheader, hbody⟩
  rw [ByteRing.window_add] at hbody
  rcases List.append_inj hbody (ByteRing.length_window _ _ _ _) with ⟨htag, hmsg⟩
  exact ⟨hheader, htag, hmsg, hrest⟩

theorem ringGet_eq {pos n : Nat} (hn : n ≤ logringCap)
    : ringGet buf (pos % logringCap) n = ByteRing.window logringCap buf pos n := by
  unfold ringGet
  rw [ByteRing.get_eq_window (mod_lt pos) hn, ByteRing.window_mod]

theorem ringGet_cur (h : LogsAt buf cur recs) {n : Nat} (hn : n ≤ logringCap)
    : ringGet buf cur n = ByteRing.window logringCap buf cur n := by
  unfold ringGet
  exact ByteRing.get_eq_window h.cur_lt hn

theorem recordLen_eq (h : LogsAt buf cur (entry :: recs)) : recordLen buf cur = entry.size := by
  have hheader := h.parts.1
  have hle := entry.size_le
  unfold hdrBytes at hheader
  rw [show 16 = 4 + 12 from rfl, ByteRing.window_add] at hheader
  unfold LogRecord.header at hheader
  have hlen := List.append_inj_left hheader (by rw [ByteRing.length_window, length_leBytes])
  unfold recordLen
  rw [h.ringGet_cur (by decide), hlen, leNat_leBytes]
  omega

theorem next (h : LogsAt buf cur (entry :: recs))
    : LogsAt buf ((cur + entry.size) % logringCap) recs := by
  have hfits := h.fits
  rw [weight_cons] at hfits
  refine ⟨?_, by omega, mod_lt _⟩
  rw [ByteRing.window_mod]
  exact h.parts.2.2.2

theorem emitRecord_eq (h : LogsAt buf cur (entry :: recs))
    : emitRecord buf cur = (entry.cbor, (cur + entry.size) % logringCap) := by
  rcases h.parts with ⟨hheader, htag, hmsg, -⟩
  have hsize := entry.size_le
  have htag_le := entry.tag_le
  have hmsg_le := entry.msg_le
  unfold logrecTagMax at htag_le
  unfold logrecMsgMax at hmsg_le
  have hcap : logringCap = 131072 := rfl
  have htotal : leField entry.header 0 4 = entry.size := by
    unfold LogRecord.header
    rw [leField_leBytes]
    omega
  have hmsc : leField entry.header 4 8 = entry.msc.toNat := by
    unfold LogRecord.header
    rw [show 4 = 4 + 0 from rfl, leField_append (length_leBytes _ 4), leField_leBytes]
    exact Nat.mod_eq_of_lt entry.msc.toNat_lt
  have hmsglen : leField entry.header 12 2 = entry.msg.length := by
    unfold LogRecord.header
    rw [show 12 = 4 + (8 + 0) from rfl, leField_append (length_leBytes _ 4),
      leField_append (length_leBytes _ 8), leField_leBytes]
    omega
  have hlast : ∀ pos n, leField entry.header (14 + pos) n
      = leField [entry.level, UInt8.ofNat entry.tag.length] pos n := by
    intro pos n
    unfold LogRecord.header
    rw [show 14 + pos = 4 + (8 + (2 + pos)) by omega, leField_append (length_leBytes _ 4),
      leField_append (length_leBytes _ 8), leField_append (length_leBytes _ 2)]
  have hlevel : leField entry.header 14 1 = entry.level.toNat := by
    rw [show 14 = 14 + 0 from rfl, hlast]
    simp [leField, leNat]
  have htaglen : leField entry.header 15 1 = entry.tag.length := by
    rw [show 15 = 14 + 1 from rfl, hlast]
    simp [leField, leNat]
    omega
  unfold emitRecord
  rw [h.ringGet_cur (show hdrBytes ≤ logringCap by decide), hheader]
  dsimp only
  rw [htotal, hmsc, hmsglen, hlevel, htaglen, ringGet_eq (by omega), ringGet_eq (by omega), htag,
    hmsg]
  rfl

theorem emitRecords_eq (h : LogsAt buf cur recs)
    : emitRecords buf recs.length cur = recs.flatMap LogRecord.cbor := by
  induction recs generalizing cur with
  | nil => rfl
  | cons entry recs ih =>
    rw [List.length_cons, emitRecords, h.emitRecord_eq, List.flatMap_cons, ih h.next]

-- What is skipped is all that does not fit the budget.
theorem skipOldest_eq (h : LogsAt buf cur recs) (maxPayload : Nat)
    : let c := skipOldest buf maxPayload recs.length
        ⟨cur, weight LogRecord.size recs, recs.length⟩
      c.nrec = (longest LogRecord.size maxPayload recs).length
        ∧ LogsAt buf c.cur (longest LogRecord.size maxPayload recs) := by
  induction recs generalizing cur with
  | nil => exact ⟨rfl, h⟩
  | cons entry recs ih =>
    dsimp only
    rw [List.length_cons, skipOldest]
    by_cases hlt : maxPayload < weight LogRecord.size (entry :: recs)
    . rw [if_pos hlt, longest_cons_of_lt _ hlt]
      dsimp only
      rw [h.recordLen_eq, weight_cons, Nat.add_sub_cancel_left, Nat.add_sub_cancel]
      exact ih h.next
    . rw [if_neg hlt, longest_of_le _ (Nat.not_lt.mp hlt)]
      exact ⟨rfl, h⟩

end LogsAt

/--
The ring has these records and no others, and the counters and the positions are theirs.
-/
structure LogRing.Holds (r : LogRing) (recs : List LogRecord) : Prop where
  at_tail : LogsAt r.buf r.tail recs
  used : r.used = weight LogRecord.size recs
  nrec : r.nrec = recs.length
  head : r.head = (r.tail + r.used) % logringCap

namespace LogRing.Holds

variable {r : LogRing} {entry : LogRecord} {recs : List LogRecord}

theorem reset (buf : Nat → UInt8) : (LogRing.reset buf).Holds [] :=
  ⟨⟨rfl, Nat.zero_le _, Nat.mod_lt 0 (by decide)⟩, rfl, rfl, rfl⟩

theorem dropOldest (h : r.Holds (entry :: recs)) : r.dropOldest.Holds recs := by
  have hlen := h.at_tail.recordLen_eq
  have hused := h.used
  have hnrec := h.nrec
  rw [weight_cons] at hused
  unfold LogRing.dropOldest
  rw [hlen]
  refine ⟨h.at_tail.next, ?_, ?_, ?_⟩
  . dsimp only
    omega
  . rw [List.length_cons] at hnrec
    dsimp only
    omega
  . dsimp only
    rw [h.head, Nat.mod_add_mod]
    congr 1
    omega

theorem evict (h : r.Holds recs) {total : Nat} (htotal : total ≤ logringCap)
    : (r.evict total recs.length).Holds (longest LogRecord.size (logringCap - total) recs)
        ∧ (r.evict total recs.length).dropped = r.dropped + UInt64.ofNat
            (recs.length - (longest LogRecord.size (logringCap - total) recs).length) := by
  induction recs generalizing r with
  | nil => exact ⟨h, (UInt64.add_zero r.dropped).symm⟩
  | cons entry recs ih =>
    have hused := h.used
    rw [List.length_cons, LogRing.evict]
    by_cases hlt : logringCap < r.used + total
    . rw [if_pos hlt, longest_cons_of_lt _ (by omega)]
      rcases ih h.dropOldest with ⟨hholds, hdropped⟩
      refine ⟨hholds, ?_⟩
      have hle := (longest_suffix LogRecord.size (logringCap - total) recs).length_le
      rw [hdropped, Nat.succ_sub hle, Nat.succ_eq_add_one, Nat.add_comm, UInt64.ofNat_add,
        ← UInt64.add_assoc]
      rfl
    . rw [if_neg hlt, longest_of_le _ (by omega), List.length_cons, Nat.sub_self]
      exact ⟨h, (UInt64.add_zero r.dropped).symm⟩

theorem store (h : r.Holds recs) (hfits : r.used + entry.size ≤ logringCap)
    : (r.store entry).Holds (recs ++ [entry]) := by
  have htail := h.at_tail.cur_lt
  have hheader := entry.length_header
  have hsize : entry.size = hdrBytes + entry.tag.length + entry.msg.length := rfl
  have hweight : weight LogRecord.size (recs ++ [entry]) = r.used + entry.size := by
    rw [weight_append, weight_cons, weight_nil, Nat.add_zero, h.used]
  -- Each of the three copies begins where the one before has ended.
  have hpos : ∀ n, (r.head + n) % logringCap = (r.tail + (r.used + n)) % logringCap := by
    intro n
    rw [h.head, Nat.mod_add_mod, Nat.add_assoc]
  have hbytes := h.at_tail.bytes
  rw [← h.used] at hbytes
  refine ⟨⟨?_, ?_, htail⟩, hweight.symm, ?_, ?_⟩
  . unfold LogRing.store ringPut
    dsimp only
    rw [hweight, hsize, Nat.add_assoc r.head, hpos, hpos, h.head]
    rw [show r.used + (hdrBytes + entry.tag.length + entry.msg.length)
      = r.used + (hdrBytes + entry.tag.length) + entry.msg.length by omega,
      ByteRing.window_put htail (by omega), ← Nat.add_assoc r.used hdrBytes,
      ByteRing.window_put htail (by omega), ← hheader, ByteRing.window_put htail (by omega), hbytes,
      List.flatMap_append, List.flatMap_singleton]
    unfold LogRecord.bytes
    simp only [List.append_assoc]
  . rw [hweight]
    exact hfits
  . unfold LogRing.store
    dsimp only
    rw [h.nrec, List.length_append, List.length_singleton]
  . unfold LogRing.store
    dsimp only
    rw [hpos]

theorem append (h : r.Holds recs) (line : LogLine)
    : (r.append line).Holds
          (longest LogRecord.size (logringCap - line.record.size) recs ++ [line.record])
        ∧ (r.append line).dropped = r.dropped + UInt64.ofNat (recs.length
            - (longest LogRecord.size (logringCap - line.record.size) recs).length) := by
  have hcap := line.record.size_le_cap
  rcases h.evict hcap with ⟨hholds, hdropped⟩
  unfold LogRing.append
  dsimp only
  rw [if_neg (Nat.not_lt.mpr hcap), h.nrec]
  refine ⟨hholds.store ?_, hdropped⟩
  rw [hholds.used]
  have hle := weight_longest_le LogRecord.size (logringCap - line.record.size) recs
  omega

-- The ring has the latest of all lines, and has counted the others.
theorem run (buf : Nat → UInt8) (lines : List LogLine)
    : let stored := longest LogRecord.size logringCap (lines.map LogLine.record)
      let r := lines.foldl LogRing.append (LogRing.reset buf)
      r.Holds stored ∧ r.dropped = UInt64.ofNat (lines.length - stored.length) := by
  induction lines using List.reverseRecOn with
  | nil => exact ⟨reset buf, rfl⟩
  | append_singleton lines line ih =>
    rcases ih with ⟨hholds, hdropped⟩
    rcases hholds.append line with ⟨hstep, hmore⟩
    have hcap := line.record.size_le_cap
    rw [longest_longest _ (Nat.sub_le _ _)] at hstep hmore
    dsimp only
    rw [List.foldl_append, List.foldl_cons, List.foldl_nil, List.map_append, List.map_singleton,
      longest_append _ hcap, List.length_append, List.length_append, List.length_singleton,
      List.length_singleton, Nat.add_sub_add_right]
    refine ⟨hstep, ?_⟩
    have hle := (longest_suffix LogRecord.size logringCap (lines.map LogLine.record)).length_le
    have hle' := (longest_suffix LogRecord.size (logringCap - line.record.size)
      (longest LogRecord.size logringCap (lines.map LogLine.record))).length_le
    rw [longest_longest _ (Nat.sub_le _ _)] at hle'
    rw [List.length_map] at hle
    rw [hmore, hdropped, ← UInt64.ofNat_add]
    congr 1
    omega

theorem emitCbor_eq (h : r.Holds recs) (maxPayload : Nat)
    : r.emitCbor maxPayload
        = cborArray (longest LogRecord.size maxPayload recs).length
          ++ (longest LogRecord.size maxPayload recs).flatMap LogRecord.cbor := by
  have hskip := h.at_tail.skipOldest_eq maxPayload
  unfold LogRing.emitCbor
  rw [h.used, h.nrec]
  rcases hskip with ⟨hnrec, hat⟩
  dsimp only
  rw [hnrec, hat.emitRecords_eq]

theorem ringGet_eq (h : r.Holds recs)
    : ringGet r.buf r.tail r.used = recs.flatMap LogRecord.bytes := by
  rw [h.at_tail.ringGet_cur (h.used ▸ h.at_tail.fits), h.used]
  exact h.at_tail.bytes

end LogRing.Holds

/--
After any lines the ring has the longest suffix of their records that fits it, and what it emits is
the longest suffix of those that fits the budget. A record has the low byte of the level.
-/
theorem devlog_run (buf : Nat → UInt8) (lines : List LogLine)
    : let r := lines.foldl LogRing.append (LogRing.reset buf)
      ∃ stored, IsLongest LogRecord.size logringCap (lines.map LogLine.record) stored
        ∧ ringGet r.buf r.tail r.used = stored.flatMap LogRecord.bytes
        ∧ r.used = weight LogRecord.size stored
        ∧ r.nrec = stored.length
        ∧ r.dropped = UInt64.ofNat (lines.length - stored.length)
        ∧ ∀ maxPayload, ∃ emitted, IsLongest LogRecord.size maxPayload stored emitted
            ∧ r.emitCbor maxPayload = cborArray emitted.length ++ emitted.flatMap LogRecord.cbor := by
  intro r
  rcases LogRing.Holds.run buf lines with ⟨hholds, hdropped⟩
  refine ⟨_, isLongest_longest LogRecord.size logringCap (lines.map LogLine.record),
    hholds.ringGet_eq, hholds.used, hholds.nrec, hdropped, ?_⟩
  intro maxPayload
  exact ⟨_, isLongest_longest LogRecord.size maxPayload _, hholds.emitCbor_eq maxPayload⟩

-- The record of a line as it was given, its level unchanged.
def LogLine.cbor (line : LogLine) : Bytes :=
  cborMap 4
    ++ (cborUint 0 ++ cborUint line.msc.toNat)
    ++ (cborUint 1 ++ cborInt line.level.toInt)
    ++ (cborUint 2 ++ cborText ((line.tag.getD []).take logrecTagMax))
    ++ (cborUint 3 ++ cborText (line.msg.take logrecMsgMax))

theorem not_emitted_unchanged
    : let line : LogLine := ⟨256, some (ascii "rt"), 0, ascii "late"⟩
      ((LogRing.reset (fun _ => 0)).append line).emitCbor logringCap
        ≠ cborArray 1 ++ line.cbor := by
  decide +kernel

end Harp
