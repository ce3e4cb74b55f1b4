import Harp.Device.PacedLoop

/-!
This module contains the pacing stream as a list of whole frames, and what `host_paced_loop` renders
of it: the same for every way the reads split the stream. The cursor wraps at 64 bits, and an input
column that a frame does not carry still has what an earlier frame left in it.
-/

namespace Harp

open Chunks

structure PacedFrame where
  hdr : AudioHdr
  fence : Option UInt32
  payload : Bytes
  len : payload.length = hdr.payloadLen

-- A byte of sample `j / 4` of the column.
def PacedFrame.byte (f : PacedFrame) (col j : Nat) : UInt8 :=
  f.payload.getD (j / 4 * (f.hdr.slots.toNat * 4) + (col * 4 + j % 4)) 0

def AudioHdr.fenceLen (h : AudioHdr) : Nat :=
  if h.fenced then audioFenceLen else 0

theorem length_framePayload {body : Bytes} {h : AudioHdr}
    (hlen : ¬body.length < h.fenceLen + h.payloadLen)
    : ((body.drop h.fenceLen).take h.payloadLen).length = h.payloadLen := by
  rw [List.length_take, List.length_drop]
  omega

-- The frame the bytes start with, and what is behind it.
def frameAt (bs : Bytes) : Option (PacedFrame × Bytes) :=
  if bs.length < audioHdrLen then
    none
  else
    match audioHdrDecode (bs.take audioHdrLen) with
    | none => none
    | some h =>
      if ¬ h.h2d then
        none
      else
        let body := bs.drop audioHdrLen
        if hlen : body.length < h.fenceLen + h.payloadLen then
          none
        else
          some (⟨h, if h.fenced then some (UInt32.ofNat (leNat (body.take audioFenceLen))) else none,
            (body.drop h.fenceLen).take h.payloadLen, length_framePayload hlen⟩, body.drop (h.fenceLen + h.payloadLen))

def framesOf : Nat → Bytes → List PacedFrame
  | 0, _ => []
  | left + 1, bs =>
    match frameAt bs with
    | none => []
    | some (f, bs) => f :: framesOf left bs

def pacedFrames (bs : Bytes) : List PacedFrame :=
  framesOf (bs.length + 1) bs

section Columns

theorem column_place {slots c j k : Nat} (hc : c < slots)
    : j / 4 * (slots * 4) + (c * 4 + j % 4) = k
        ↔ c = k % (slots * 4) / 4 ∧ j = k / (slots * 4) * 4 + k % (slots * 4) % 4 := by
  have hrow : c * 4 + j % 4 < slots * 4 := by omega
  constructor
  . rintro rfl
    rw [Nat.add_comm, Nat.add_mul_mod_self_right, Nat.add_mul_div_right _ _ (by omega),
      Nat.mod_eq_of_lt hrow, Nat.div_eq_of_lt hrow]
    omega
  . rintro ⟨hcol, hj⟩
    have hdiv := Nat.div_add_mod k (slots * 4)
    have hsmp : j / 4 = k / (slots * 4) := by omega
    have hbyte : c * 4 + j % 4 = k % (slots * 4) := by omega
    rw [hsmp, hbyte, Nat.mul_comm]
    exact hdiv

theorem column_lt {slots n c j : Nat} (hc : c < slots)
    : j / 4 * (slots * 4) + (c * 4 + j % 4) < slots * n * 4 ↔ j < n * 4 := by
  have hrow : c * 4 + j % 4 < slots * 4 := by omega
  have htotal : slots * n * 4 = n * (slots * 4) := by rw [Nat.mul_comm slots n, Nat.mul_assoc]
  rw [htotal]
  constructor
  . intro h
    have hsmp : j / 4 * (slots * 4) < n * (slots * 4) := by omega
    have := Nat.lt_of_mul_lt_mul_right hsmp
    omega
  . intro h
    have hsmp : (j / 4 + 1) * (slots * 4) ≤ n * (slots * 4) := Nat.mul_le_mul_right _ (by omega)
    rw [Nat.succ_mul] at hsmp
    omega

-- The columns after the first `k` bytes of the payload.
structure Picked (keep : Option Nat) (fxcols slots : Nat) (payload : Bytes) (old : Columns) (k : Nat)
    (cols : Columns) : Prop where
  fxIn : ∀ c j, cols.fxIn c j
    = if c < fxcols ∧ j / 4 * (slots * 4) + (c * 4 + j % 4) < k then
        payload.getD (j / 4 * (slots * 4) + (c * 4 + j % 4)) 0
      else
        old.fxIn c j
  lpbCol : ∀ col j, keep = some col → j / 4 * (slots * 4) + (col * 4 + j % 4) < k →
    cols.lpbCol j = payload.getD (j / 4 * (slots * 4) + (col * 4 + j % 4)) 0

theorem demuxByte_fxIn (keep : Option Nat) (fxcols stride : Nat) (cols : Columns) (off : Nat)
    (b : UInt8) (c j : Nat)
    : (demuxByte keep fxcols stride cols off b).fxIn c j
        = if c < fxcols ∧ c = off % stride / 4 ∧ j = off / stride * 4 + off % stride % 4 then b
          else cols.fxIn c j := by
  unfold demuxByte
  dsimp only
  by_cases hcol : off % stride / 4 < fxcols
  . rw [if_pos hcol]
    by_cases hat : c = off % stride / 4 ∧ j = off / stride * 4 + off % stride % 4
    . rw [if_pos hat, if_pos ⟨by omega, hat⟩]
    . rw [if_neg hat, if_neg (fun h => hat h.2)]
  . rw [if_neg hcol, if_neg (by omega)]

theorem demuxByte_lpbCol {keep : Option Nat} {col : Nat} (hkeep : keep = some col)
    (fxcols stride : Nat) (cols : Columns) (off : Nat) (b : UInt8) (j : Nat)
    : (demuxByte keep fxcols stride cols off b).lpbCol j
        = if col = off % stride / 4 ∧ j = off / stride * 4 + off % stride % 4 then b
          else cols.lpbCol j := by
  subst hkeep
  unfold demuxByte
  dsimp only
  by_cases hcol : col * 4 ≤ off % stride ∧ off % stride < col * 4 + 4
  . rw [if_pos hcol]
    by_cases hat : j = off / stride * 4 + (off % stride - col * 4)
    . rw [if_pos hat, if_pos (by omega)]
    . rw [if_neg hat, if_neg (by omega)]
  . rw [if_neg hcol, if_neg (by omega)]

theorem picked_demuxByte {keep : Option Nat} {fxcols slots : Nat} {payload : Bytes} {old : Columns}
    {k : Nat} {cols : Columns} {b : UInt8} (hfx : fxcols ≤ slots)
    (hkeep : ∀ col, keep = some col → col < slots) (hb : payload[k]? = some b)
    (h : Picked keep fxcols slots payload old k cols)
    : Picked keep fxcols slots payload old (k + 1) (demuxByte keep fxcols (slots * 4) cols k b) := by
  have hget : payload.getD k 0 = b := by
    rw [List.getD_eq_getElem?_getD, hb, Option.getD_some]
  constructor
  . intro c j
    rw [demuxByte_fxIn]
    by_cases hc : c < fxcols
    . have hplace := column_place (j := j) (k := k) (Nat.lt_of_lt_of_le hc hfx)
      by_cases hhere : j / 4 * (slots * 4) + (c * 4 + j % 4) = k
      . rw [if_pos ⟨hc, hplace.mp hhere⟩, if_pos ⟨hc, by omega⟩, hhere, hget]
      . rw [if_neg (fun hat => hhere (hplace.mpr hat.2)), h.fxIn c j]
        have hiff : (c < fxcols ∧ j / 4 * (slots * 4) + (c * 4 + j % 4) < k)
            ↔ (c < fxcols ∧ j / 4 * (slots * 4) + (c * 4 + j % 4) < k + 1) := by omega
        simp only [hiff]
    . have hold := h.fxIn c j
      rw [if_neg (fun hcell => hc hcell.1)] at hold ⊢
      rw [if_neg (fun hcell => hc hcell.1), hold]
  . intro col j hcol hlt
    rw [demuxByte_lpbCol hcol]
    have hplace := column_place (j := j) (k := k) (hkeep col hcol)
    by_cases hhere : j / 4 * (slots * 4) + (col * 4 + j % 4) = k
    . rw [if_pos (hplace.mp hhere), hhere, hget]
    . rw [if_neg (fun hat => hhere (hplace.mpr hat))]
      exact h.lpbCol col j hcol (by omega)

def demux (env : PacedEnv) (pass : Nat) (h : AudioHdr) (cols : Columns) (payload : Bytes) : Columns :=
  foldAt (demuxByte (env.keep pass h) (env.fxcols h) (h.slots.toNat * 4)) 0 cols payload

theorem fxcols_le (env : PacedEnv) (h : AudioHdr) : env.fxcols h ≤ h.slots.toNat := by
  unfold PacedEnv.fxcols
  split
  . exact Nat.min_le_right _ _
  . exact Nat.zero_le _

theorem keep_lt {env : PacedEnv} {pass col : Nat} {h : AudioHdr} (hkeep : env.keep pass h = some col)
    : col < h.slots.toNat := by
  unfold PacedEnv.keep at hkeep
  rw [Option.filter_eq_some_iff] at hkeep
  exact (of_decide_eq_true hkeep.2).1

theorem picked_demux (env : PacedEnv) (pass : Nat) (h : AudioHdr) (cols : Columns) (payload : Bytes)
    : Picked (env.keep pass h) (env.fxcols h) h.slots.toNat payload cols payload.length
        (demux env pass h cols payload) := by
  unfold demux
  apply foldAt_inv _ (Picked (env.keep pass h) (env.fxcols h) h.slots.toNat payload cols)
  . intro k cols' b hb hpicked
    exact picked_demuxByte (fxcols_le env h) (fun _ hcol => keep_lt hcol) hb hpicked
  . constructor
    . intro c j
      rw [if_neg (by omega)]
    . intro col j _ hlt
      omega

variable {env : PacedEnv} {pass : Nat}

theorem demux_fxIn (f : PacedFrame) (cols : Columns) (c j : Nat)
    : (demux env pass f.hdr cols f.payload).fxIn c j
        = if c < env.fxcols f.hdr ∧ j < f.hdr.nsamples.toNat * 4 then f.byte c j
          else cols.fxIn c j := by
  rw [(picked_demux env pass f.hdr cols f.payload).fxIn c j, f.len]
  unfold AudioHdr.payloadLen PacedFrame.byte
  by_cases hc : c < env.fxcols f.hdr
  . have hlt := column_lt (n := f.hdr.nsamples.toNat) (j := j)
      (Nat.lt_of_lt_of_le hc (fxcols_le env f.hdr))
    simp only [hlt]
  . rw [if_neg (fun hcell => hc hcell.1), if_neg (fun hcell => hc hcell.1)]

theorem demux_lpbCol (f : PacedFrame) (cols : Columns) {col j : Nat}
    (hkeep : env.keep pass f.hdr = some col) (hj : j < f.hdr.nsamples.toNat * 4)
    : (demux env pass f.hdr cols f.payload).lpbCol j = f.byte col j := by
  apply (picked_demux env pass f.hdr cols f.payload).lpbCol col j hkeep
  rw [f.len]
  exact (column_lt (keep_lt hkeep)).mpr hj

end Columns

section Reads

variable (env : PacedEnv) (pass : Nat) {st : Paced}

theorem readFence_of_le {h : AudioHdr} {r : Reader UInt8} (hlen : h.fenceLen ≤ r.rest.length)
    : ∃ r', readFence h r = some (if h.fenced then
          some (UInt32.ofNat (leNat (r.rest.take audioFenceLen))) else none, r')
        ∧ r'.rest = r.rest.drop h.fenceLen := by
  unfold AudioHdr.fenceLen at hlen ⊢
  unfold readFence
  cases hfence : h.fenced with
  | false => exact ⟨r, rfl, rfl⟩
  | true =>
    rw [hfence, if_pos rfl] at hlen
    rcases Reader.refill_of_le copy [] hlen with ⟨r', hfill, hrest⟩
    rw [foldAt_copy, List.nil_append] at hfill
    refine ⟨r', ?_, hrest⟩
    rw [if_pos rfl, hfill]
    rfl

theorem readFence_of_lt {h : AudioHdr} {r : Reader UInt8} (hlen : r.rest.length < h.fenceLen)
    : readFence h r = none := by
  unfold AudioHdr.fenceLen at hlen
  unfold readFence
  cases hfence : h.fenced with
  | false =>
    rw [hfence] at hlen
    exact absurd hlen (Nat.not_lt_zero _)
  | true =>
    rw [hfence, if_pos rfl] at hlen
    rw [if_pos rfl, Reader.refill_of_lt copy [] hlen]
    rfl

theorem pacedPayload_of_le {h : AudioHdr} (fence : Option UInt32)
    (hlen : h.payloadLen ≤ st.reader.rest.length)
    : ∃ reader, pacedPayload env pass h fence st = pacedJudge env pass h fence
          { st with reader, cols := demux env pass h st.cols (st.reader.rest.take h.payloadLen) }
        ∧ reader.rest = st.reader.rest.drop h.payloadLen := by
  rcases Reader.refill_of_le (demuxByte (env.keep pass h) (env.fxcols h) (h.slots.toNat * 4)) st.cols
    hlen with ⟨reader, hfill, hrest⟩
  refine ⟨reader, ?_, hrest⟩
  unfold pacedPayload
  rw [hfill]
  rfl

theorem pacedPass_of_frame {f : PacedFrame} {bs : Bytes} (h : frameAt st.reader.rest = some (f, bs))
    : ∃ reader, pacedPass env pass st = pacedJudge env pass f.hdr f.fence
          { st with reader, cols := demux env pass f.hdr st.cols f.payload }
        ∧ reader.rest = bs := by
  unfold frameAt at h
  split at h
  . cases h
  next hhdr =>
    rcases Reader.refill_of_le copy [] (Nat.not_lt.mp hhdr) with ⟨r₁, hfill₁, hrest₁⟩
    rw [foldAt_copy, List.nil_append] at hfill₁
    split at h
    . cases h
    next hdr hdecode =>
      split at h
      . cases h
      next hdir =>
        rw [Bool.not_eq_true, Bool.not_eq_false] at hdir
        dsimp only at h
        split at h
        . cases h
        next hbody =>
          cases h
          dsimp only
          rw [← hrest₁] at hbody ⊢
          rcases readFence_of_le (h := hdr) (r := r₁) (by omega) with ⟨r₂, hfence, hrest₂⟩
          have hpayload : hdr.payloadLen ≤ ({ st with reader := r₂ } : Paced).reader.rest.length := by
            dsimp only
            rw [hrest₂, List.length_drop]
            omega
          rcases pacedPayload_of_le env pass (if hdr.fenced then
            some (UInt32.ofNat (leNat (r₁.rest.take audioFenceLen))) else none) hpayload with
            ⟨r₃, hjudge, hrest₃⟩
          dsimp only at hjudge hrest₃
          rw [hrest₂] at hjudge hrest₃
          refine ⟨r₃, ?_, ?_⟩
          . unfold pacedPass
            rw [hfill₁]
            dsimp only
            rw [hdecode]
            dsimp only
            rw [if_pos hdir, hfence]
            exact hjudge
          . rw [hrest₃, List.drop_drop]

theorem pacedPass_of_none (h : frameAt st.reader.rest = none)
    : (pacedPass env pass st).1 = false ∧ (pacedPass env pass st).2.out = st.out := by
  unfold pacedPass
  by_cases hhdr : st.reader.rest.length < audioHdrLen
  . rw [Reader.refill_of_lt copy [] hhdr]
    exact ⟨rfl, rfl⟩
  . rcases Reader.refill_of_le copy [] (Nat.not_lt.mp hhdr) with ⟨r₁, hfill₁, hrest₁⟩
    rw [foldAt_copy, List.nil_append] at hfill₁
    unfold frameAt at h
    rw [if_neg hhdr] at h
    rw [hfill₁]
    dsimp only
    cases hdecode : audioHdrDecode (st.reader.rest.take audioHdrLen) with
    | none => exact ⟨rfl, rfl⟩
    | some hdr =>
      simp only [hdecode] at h
      dsimp only
      cases hdir : hdr.h2d with
      | false => exact ⟨rfl, rfl⟩
      | true =>
        rw [if_neg (by simp [hdir])] at h
        rw [if_pos rfl]
        by_cases hshort : r₁.rest.length < hdr.fenceLen
        . rw [readFence_of_lt hshort]
          exact ⟨rfl, rfl⟩
        . rcases readFence_of_le (Nat.not_lt.mp hshort) with ⟨r₂, hfence, hrest₂⟩
          rw [hfence]
          dsimp only
          have hbody : r₁.rest.length < hdr.fenceLen + hdr.payloadLen := by
            by_contra hlong
            rw [hrest₁] at hlong
            rw [dif_neg hlong] at h
            cases h
          have hpayload : r₂.rest.length < hdr.payloadLen := by
            rw [hrest₂, List.length_drop]
            omega
          unfold pacedPayload
          dsimp only
          rw [Reader.refill_of_lt _ _ hpayload]
          exact ⟨rfl, rfl⟩

end Reads

section Runs

-- What an input column has after some frames: the last that carried the place, or the clear buffer.
def heldByte (env : PacedEnv) (seen : List PacedFrame) (c j : Nat) : UInt8 :=
  seen.foldl (fun b f =>
    if c < env.fxcols f.hdr ∧ j < f.hdr.nsamples.toNat * 4 then f.byte c j else b) 0

def renderFrame (env : PacedEnv) (pass : Nat) (seen : List PacedFrame) (f : PacedFrame) : Rendered :=
  let fxInN := if env.fxmode f.hdr then f.hdr.nsamples.toNat else 0
  { hdr := f.hdr
    fence := f.fence
    fxIn := if env.isFx then
        (List.range env.nIn).map (fun c => (List.range (fxInN * 4)).map (heldByte env (seen ++ [f]) c))
      else
        []
    lpb := (env.keep pass f.hdr).map (fun col =>
      (List.range (f.hdr.nsamples.toNat * 4)).map (f.byte col)) }

-- The loop over whole frames.
def renderFrames (env : PacedEnv) : Nat → UInt64 → List PacedFrame → List PacedFrame → List Rendered
  | _, _, _, [] => []
  | pass, cursor, seen, f :: fs =>
    if env.running pass ∧ f.hdr.nsamples.toNat ≤ audioMaxNsamples then
      if f.hdr.ts < cursor then
        renderFrames env (pass + 1) cursor (seen ++ [f]) fs
      else
        renderFrame env pass seen f :: if env.sent pass then
            renderFrames env (pass + 1) (f.hdr.ts + f.hdr.nsamples.toUInt64) (seen ++ [f]) fs
          else
            []
    else
      []

variable {env : PacedEnv}

theorem heldByte_append (seen : List PacedFrame) (f : PacedFrame) (c j : Nat)
    : heldByte env (seen ++ [f]) c j
        = if c < env.fxcols f.hdr ∧ j < f.hdr.nsamples.toNat * 4 then f.byte c j
          else heldByte env seen c j := by
  unfold heldByte
  rw [List.foldl_append]
  rfl

theorem render_demux {st : Paced} {seen : List PacedFrame} {f : PacedFrame} {pass : Nat}
    (hcols : ∀ c j, st.cols.fxIn c j = heldByte env (seen ++ [f]) c j)
    (hlpb : ∀ col j, env.keep pass f.hdr = some col → j < f.hdr.nsamples.toNat * 4 →
      st.cols.lpbCol j = f.byte col j)
    : st.render env pass f.hdr f.fence = renderFrame env pass seen f := by
  have hfx : ∀ c, st.cols.fxIn c = heldByte env (seen ++ [f]) c := fun c => funext (hcols c)
  unfold Paced.render renderFrame
  dsimp only
  simp only [hfx]
  congr 1
  cases hkeep : env.keep pass f.hdr with
  | none => rfl
  | some col =>
    rw [Option.map_some, Option.map_some]
    congr 1
    apply List.map_congr_left
    intro j hj
    exact hlpb col j hkeep (List.mem_range.mp hj)

theorem pacedRun_out (left pass : Nat) (st : Paced) (seen : List PacedFrame)
    (hcols : ∀ c j, st.cols.fxIn c j = heldByte env seen c j)
    : (pacedRun env left pass st).out
        = st.out ++ renderFrames env pass st.expectSsi seen (framesOf left st.reader.rest) := by
  induction left generalizing pass st seen with
  | zero =>
    unfold pacedRun framesOf renderFrames
    rw [List.append_nil]
  | succ left ih =>
    unfold pacedRun framesOf
    cases hrunning : env.running pass with
    | false =>
      rw [if_neg (by simp)]
      cases frameAt st.reader.rest with
      | none => rw [renderFrames, List.append_nil]
      | some x =>
        dsimp only
        rw [renderFrames, if_neg (by simp [hrunning]), List.append_nil]
    | true =>
      rw [if_pos rfl]
      cases hframe : frameAt st.reader.rest with
      | none =>
        have hpass := pacedPass_of_none env pass hframe
        cases hout : pacedPass env pass st with
        | mk more st' =>
          rw [hout] at hpass
          dsimp only at hpass
          rw [hpass.1, hpass.2, renderFrames, List.append_nil]
      | some x =>
        rcases x with ⟨f, bs⟩
        rcases pacedPass_of_frame env pass hframe with ⟨reader, hpass, rfl⟩
        have hcols' : ∀ c j, (demux env pass f.hdr st.cols f.payload).fxIn c j
            = heldByte env (seen ++ [f]) c j := by
          intro c j
          rw [demux_fxIn, hcols, heldByte_append]
        have hlpb : ∀ col j, env.keep pass f.hdr = some col → j < f.hdr.nsamples.toNat * 4 →
            (demux env pass f.hdr st.cols f.payload).lpbCol j = f.byte col j :=
          fun col j hkeep hj => demux_lpbCol f st.cols hkeep hj
        rw [hpass]
        dsimp only
        unfold pacedJudge
        dsimp only
        rw [renderFrames]
        by_cases hbig : f.hdr.nsamples.toNat > audioMaxNsamples
        . rw [if_pos hbig, if_neg (by omega)]
          exact (List.append_nil _).symm
        . have hgo : env.running pass = true ∧ f.hdr.nsamples.toNat ≤ audioMaxNsamples :=
            ⟨hrunning, Nat.not_lt.mp hbig⟩
          rw [if_neg hbig, if_pos hgo]
          by_cases hlate : f.hdr.ts < st.expectSsi
          . rw [if_pos hlate, if_pos hlate]
            exact ih (pass + 1) _ (seen ++ [f]) hcols'
          . rw [if_neg hlate, if_neg hlate]
            rw [render_demux hcols' hlpb]
            cases hsent : env.sent pass with
            | false => rfl
            | true =>
              rw [if_pos rfl, if_pos rfl]
              have hrest := ih (pass + 1) ({ st with
                reader
                cols := demux env pass f.hdr st.cols f.payload
                out := st.out ++ [renderFrame env pass seen f]
                expectSsi := f.hdr.ts + f.hdr.nsamples.toUInt64 } : Paced) (seen ++ [f]) hcols'
              dsimp only at hrest
              rw [List.append_assoc, List.singleton_append] at hrest
              exact hrest

theorem hostPacedLoop_out (runs : List Bytes)
    : (hostPacedLoop env runs).out
        = renderFrames env 0 0 [] (pacedFrames (Reader.alive runs)) := by
  unfold hostPacedLoop
  rw [pacedRun_out _ _ _ [] (fun _ _ => rfl)]
  rfl

end Runs

section Law

-- The engine finds silence behind the samples it is given.
def Rendered.heard (r : Rendered) (c j : Nat) : UInt8 :=
  (r.fxIn.getD c []).getD j 0

-- The frames that are not behind the end of the range before them.
def accepted (env : PacedEnv) : Nat → Nat → List PacedFrame → List PacedFrame
  | _, _, [] => []
  | pass, cursor, f :: fs =>
    if env.running pass ∧ f.hdr.nsamples.toNat ≤ audioMaxNsamples then
      if f.hdr.ts.toNat < cursor then
        accepted env (pass + 1) cursor fs
      else
        f :: if env.sent pass then
            accepted env (pass + 1) (f.hdr.ts.toNat + f.hdr.nsamples.toNat) fs
          else
            []
    else
      []

structure Takes (env : PacedEnv) (r : Rendered) (f : PacedFrame) : Prop where
  hdr : r.hdr = f.hdr
  fence : r.fence = f.fence
  input : env.isFx = true → ∀ c < env.nIn, ∀ j < f.hdr.nsamples.toNat * 4,
    r.heard c j = if c < f.hdr.slots.toNat then f.byte c j else 0

-- The range of the one lies wholly before that of the other.
def AudioHdr.Before (a b : AudioHdr) : Prop :=
  a.ts < b.ts ∧ a.ts.toNat + a.nsamples.toNat ≤ b.ts.toNat

structure PacedLaw (env : PacedEnv) (runs : List Bytes) : Prop where
  split : ∀ runs', Reader.alive runs' = Reader.alive runs →
    (hostPacedLoop env runs').out = (hostPacedLoop env runs).out
  taken : List.Forall₂ (Takes env) (hostPacedLoop env runs).out
    (accepted env 0 0 (pacedFrames (Reader.alive runs)))
  ordered : (hostPacedLoop env runs).out.Pairwise (fun a b => a.hdr.Before b.hdr)

-- No range ends at the top of 64 bits, and no frame with input has fewer of the slots than one
-- before it.
structure PacedPlain (env : PacedEnv) (fs : List PacedFrame) : Prop where
  below : ∀ f ∈ fs, f.hdr.ts.toNat + f.hdr.nsamples.toNat < 2 ^ 64
  carried : env.isFx = true → fs.Pairwise (fun f g =>
    0 < g.hdr.slots.toNat → min env.nIn f.hdr.slots.toNat ≤ g.hdr.slots.toNat)

variable {env : PacedEnv}

theorem heldByte_eq_zero {seen : List PacedFrame} {c : Nat} (h : ∀ g ∈ seen, env.fxcols g.hdr ≤ c)
    (j : Nat) : heldByte env seen c j = 0 := by
  induction seen using List.reverseRecOn with
  | nil => rfl
  | append_singleton seen g ih =>
    have hg := h g (by simp)
    rw [heldByte_append, if_neg (by omega)]
    apply ih
    intro g' hg'
    exact h g' (by simp [hg'])

theorem heard_renderFrame {pass : Nat} {seen : List PacedFrame} {f : PacedFrame}
    (hfx : env.fxmode f.hdr = true) {c j : Nat} (hc : c < env.nIn)
    (hj : j < f.hdr.nsamples.toNat * 4)
    : (renderFrame env pass seen f).heard c j = heldByte env (seen ++ [f]) c j := by
  have hisFx : env.isFx = true := by
    unfold PacedEnv.fxmode at hfx
    rw [decide_eq_true_eq] at hfx
    exact hfx.1
  unfold Rendered.heard renderFrame
  simp only [hfx, hisFx, if_true]
  simp [List.getD_eq_getElem?_getD, hc, hj]

theorem heard_of_no_input {pass : Nat} {seen : List PacedFrame} {f : PacedFrame}
    (hfx : env.fxmode f.hdr = false) (c j : Nat) : (renderFrame env pass seen f).heard c j = 0 := by
  unfold Rendered.heard renderFrame
  simp only [hfx, Bool.false_eq_true, if_false, Nat.zero_mul, List.range_zero, List.map_nil]
  split
  . by_cases hc : c < env.nIn
    . simp [List.getD_eq_getElem?_getD, hc]
    . simp [List.getD_eq_getElem?_getD, hc]
  . rfl

theorem takes_renderFrame {pass : Nat} {seen : List PacedFrame} {f : PacedFrame}
    (hn : f.hdr.nsamples.toNat ≤ audioMaxNsamples)
    (hseen : env.isFx = true → ∀ g ∈ seen, 0 < f.hdr.slots.toNat →
      min env.nIn g.hdr.slots.toNat ≤ f.hdr.slots.toNat)
    : Takes env (renderFrame env pass seen f) f := by
  refine ⟨rfl, rfl, ?_⟩
  intro hisFx c hc j hj
  cases hfx : env.fxmode f.hdr with
  | false =>
    -- an effect with declared slots and a frame of legal size: the frame has no slots
    have hslots : ¬ c < f.hdr.slots.toNat := by
      unfold PacedEnv.fxmode at hfx
      rw [decide_eq_false_iff_not] at hfx
      intro hlt
      exact hfx ⟨hisFx, by omega, by omega, hn⟩
    rw [heard_of_no_input hfx, if_neg hslots]
  | true =>
    have hcols : env.fxcols f.hdr = min env.nIn f.hdr.slots.toNat := by
      unfold PacedEnv.fxcols
      rw [if_pos hfx]
    rw [heard_renderFrame hfx hc hj, heldByte_append]
    by_cases hlt : c < f.hdr.slots.toNat
    . rw [if_pos ⟨by omega, hj⟩, if_pos hlt]
    . rw [if_neg (by omega), if_neg hlt]
      apply heldByte_eq_zero
      intro g hg
      have hpos : 0 < f.hdr.slots.toNat := by
        unfold PacedEnv.fxmode at hfx
        rw [decide_eq_true_eq] at hfx
        exact hfx.2.2.1
      have hle := hseen hisFx g hg hpos
      have hgcols : env.fxcols g.hdr ≤ min env.nIn g.hdr.slots.toNat := by
        unfold PacedEnv.fxcols
        split
        . exact Nat.le_refl _
        . exact Nat.zero_le _
      omega

theorem toNat_cursor {f : PacedFrame} (h : f.hdr.ts.toNat + f.hdr.nsamples.toNat < 2 ^ 64)
    : (f.hdr.ts + f.hdr.nsamples.toUInt64).toNat = f.hdr.ts.toNat + f.hdr.nsamples.toNat := by
  rw [UInt64.toNat_add, UInt16.toNat_toUInt64, Nat.mod_eq_of_lt h]

theorem taken_renderFrames (pass : Nat) (cursor : UInt64) (seen fs : List PacedFrame)
    (hplain : PacedPlain env (seen ++ fs))
    : List.Forall₂ (Takes env) (renderFrames env pass cursor seen fs)
        (accepted env pass cursor.toNat fs) := by
  induction fs generalizing pass cursor seen with
  | nil => exact .nil
  | cons f fs ih =>
    have hnext : PacedPlain env ((seen ++ [f]) ++ fs) := by
      rw [List.append_assoc]
      exact hplain
    have hbelow := hplain.below f (by simp)
    unfold renderFrames accepted
    by_cases hgo : env.running pass = true ∧ f.hdr.nsamples.toNat ≤ audioMaxNsamples
    . rw [if_pos hgo, if_pos hgo]
      by_cases hlate : f.hdr.ts < cursor
      . rw [if_pos hlate, if_pos (UInt64.lt_iff_toNat_lt.mp hlate)]
        exact ih (pass + 1) cursor (seen ++ [f]) hnext
      . rw [if_neg hlate, if_neg (fun h => hlate (UInt64.lt_iff_toNat_lt.mpr h))]
        apply List.Forall₂.cons
        . apply takes_renderFrame hgo.2
          intro hisFx g hg
          have hpairs := hplain.carried hisFx
          rw [List.pairwise_append] at hpairs
          exact hpairs.2.2 g hg f List.mem_cons_self
        . cases hsent : env.sent pass with
          | false => exact .nil
          | true =>
            rw [if_pos rfl, if_pos rfl, ← toNat_cursor hbelow]
            exact ih (pass + 1) _ (seen ++ [f]) hnext
    . rw [if_neg hgo, if_neg hgo]
      exact .nil

theorem accepted_ordered (pass cursor : Nat) {fs : List PacedFrame}
    (hpos : ∀ f ∈ fs, 0 < f.hdr.nsamples.toNat)
    : (∀ f ∈ accepted env pass cursor fs, cursor ≤ f.hdr.ts.toNat)
        ∧ (accepted env pass cursor fs).Pairwise (fun f g => f.hdr.Before g.hdr) := by
  induction fs generalizing pass cursor with
  | nil => simp [accepted]
  | cons f fs ih =>
    have hf := hpos f List.mem_cons_self
    have hfs : ∀ g ∈ fs, 0 < g.hdr.nsamples.toNat := fun g hg => hpos g (List.mem_cons_of_mem f hg)
    unfold accepted
    split
    . split
      . exact ih (pass + 1) cursor hfs
      next hts =>
        split
        . have hrest := ih (pass + 1) (f.hdr.ts.toNat + f.hdr.nsamples.toNat) hfs
          constructor
          . intro g hg
            rw [List.mem_cons] at hg
            rcases hg with rfl | hg
            . omega
            . have := hrest.1 g hg
              omega
          . apply List.Pairwise.cons _ hrest.2
            intro g hg
            have hend := hrest.1 g hg
            exact ⟨UInt64.lt_iff_toNat_lt.mpr (by omega), hend⟩
        . simp
          omega
    . simp

theorem nsamples_pos_of_decode {bs : Bytes} {h : AudioHdr} (hdecode : audioHdrDecode bs = some h)
    : 0 < h.nsamples.toNat := by
  unfold audioHdrDecode at hdecode
  dsimp only at hdecode
  split at hdecode
  . cases hdecode
  . split at hdecode
    . cases hdecode
    . split at hdecode
      . cases hdecode
      next hzero =>
        cases hdecode
        apply Nat.pos_of_ne_zero
        intro hnat
        exact hzero (UInt16.toNat_inj.mp hnat)

theorem frameAt_inv {bs bs' : Bytes} {f : PacedFrame} (h : frameAt bs = some (f, bs'))
    : 0 < f.hdr.nsamples.toNat ∧ bs'.length < bs.length := by
  unfold frameAt at h
  split at h
  . cases h
  next hhdr =>
    split at h
    . cases h
    next hdr hdecode =>
      split at h
      . cases h
      . dsimp only at h
        split at h
        . cases h
        . cases h
          refine ⟨nsamples_pos_of_decode hdecode, ?_⟩
          unfold audioHdrLen at hhdr ⊢
          rw [List.length_drop, List.length_drop]
          omega

theorem framesOf_pos (left : Nat) (bs : Bytes) : ∀ f ∈ framesOf left bs, 0 < f.hdr.nsamples.toNat := by
  induction left generalizing bs with
  | zero => simp [framesOf]
  | succ left ih =>
    unfold framesOf
    cases hframe : frameAt bs with
    | none => simp
    | some x =>
      rcases x with ⟨f, bs'⟩
      intro g hg
      rw [List.mem_cons] at hg
      rcases hg with rfl | hg
      . exact (frameAt_inv hframe).1
      . exact ih bs' g hg

theorem pairwise_of_takes {rs : List Rendered} {fs : List PacedFrame}
    (h : List.Forall₂ (Takes env) rs fs) (hfs : fs.Pairwise (fun f g => f.hdr.Before g.hdr))
    : rs.Pairwise (fun a b => a.hdr.Before b.hdr) := by
  have hhdrs : rs.map Rendered.hdr = fs.map PacedFrame.hdr := by
    induction h with
    | nil => rfl
    | cons hhead _ ih =>
      rw [List.pairwise_cons] at hfs
      rw [List.map_cons, List.map_cons, hhead.hdr, ih hfs.2]
  have hmap : (fs.map PacedFrame.hdr).Pairwise AudioHdr.Before := List.pairwise_map.mpr hfs
  rw [← hhdrs] at hmap
  exact List.pairwise_map.mp hmap

theorem pacedJudge_reader (env : PacedEnv) (pass : Nat) (h : AudioHdr) (fence : Option UInt32) (st : Paced)
    : (pacedJudge env pass h fence st).2.reader = st.reader := by
  unfold pacedJudge
  dsimp only
  repeat' split
  all_goals rfl

-- More passes than there are bytes change nothing, so the loop has come to its end.
theorem pacedRun_stable (left pass : Nat) (st : Paced) (h : st.reader.rest.length < left)
    : pacedRun env (left + 1) pass st = pacedRun env left pass st := by
  induction left generalizing pass st with
  | zero => omega
  | succ left ih =>
    rw [pacedRun, pacedRun]
    cases hrunning : env.running pass with
    | false => rfl
    | true =>
      rw [if_pos rfl, if_pos rfl]
      cases hframe : frameAt st.reader.rest with
      | none =>
        have hpass := (pacedPass_of_none env pass hframe).1
        cases hout : pacedPass env pass st with
        | mk more st' =>
          rw [hout] at hpass
          dsimp only at hpass
          rw [hpass]
      | some x =>
        rcases x with ⟨f, bs⟩
        rcases pacedPass_of_frame env pass hframe with ⟨reader, hpass, rfl⟩
        have hlen := (frameAt_inv hframe).2
        have hreader := pacedJudge_reader env pass f.hdr f.fence
          { st with reader, cols := demux env pass f.hdr st.cols f.payload }
        rw [hpass]
        cases hjudge : pacedJudge env pass f.hdr f.fence
            { st with reader, cols := demux env pass f.hdr st.cols f.payload } with
        | mk more st' =>
          rw [hjudge] at hreader
          dsimp only at hreader
          cases more with
          | false => rfl
          | true =>
            apply ih
            rw [hreader]
            omega

theorem hostPacedLoop_stable (runs : List Bytes) (more : Nat)
    : pacedRun env ((Reader.alive runs).length + 1 + more) 0 (Paced.start runs)
        = hostPacedLoop env runs := by
  induction more with
  | zero => rfl
  | succ more ih =>
    have hrest : (Paced.start runs).reader.rest = Reader.alive runs := rfl
    rw [← ih]
    exact pacedRun_stable ((Reader.alive runs).length + 1 + more) 0 (Paced.start runs)
      (by rw [hrest]; omega)

theorem pacedLaw_of_plain (env : PacedEnv) (runs : List Bytes)
    (h : PacedPlain env (pacedFrames (Reader.alive runs))) : PacedLaw env runs := by
  have htaken := taken_renderFrames 0 0 [] (pacedFrames (Reader.alive runs)) h
  rw [← hostPacedLoop_out] at htaken
  refine ⟨?_, htaken, pairwise_of_takes htaken (accepted_ordered 0 0 (framesOf_pos _ _)).2⟩
  intro runs' halive
  rw [hostPacedLoop_out, hostPacedLoop_out, halive]

-- An effect with a left and a right input, on a stream that is never stopped.
def stereoFx : PacedEnv :=
  ⟨true, [0, 1], fun _ => true, fun _ => none, fun _ => true⟩

def pacingFrame (slots : UInt16) (ts : UInt64) (nsamples : UInt16) (payload : Bytes) : Bytes :=
  audioHdrEncode ⟨audioFver, audioDirH2d, slots, 0, ts, nsamples, audioFmtF32⟩ ++ payload

-- Two frames with both inputs, cut inside the first header, the first payload and the second one.
def cutRuns : List Bytes :=
  let bytes := pacingFrame 2 0 1 [1, 1, 1, 1, 2, 2, 2, 2] ++ pacingFrame 2 1 1 [3, 3, 3, 3, 4, 4, 4, 4]
  [bytes.take 7, (bytes.drop 7).take 16, (bytes.drop 23).take 28, bytes.drop 51]

theorem pacedPlain_cut : PacedPlain stereoFx (pacedFrames (Reader.alive cutRuns)) := by
  constructor
  . decide +kernel
  . intro _
    decide +kernel

theorem pacedLaw_cut : PacedLaw stereoFx cutRuns :=
  pacedLaw_of_plain stereoFx cutRuns pacedPlain_cut

instance (env : PacedEnv) (r : Rendered) (f : PacedFrame) : Decidable (Takes env r f) :=
  decidable_of_iff (r.hdr = f.hdr ∧ r.fence = f.fence ∧ (env.isFx = true → ∀ c < env.nIn,
      ∀ j < f.hdr.nsamples.toNat * 4, r.heard c j = if c < f.hdr.slots.toNat then f.byte c j else 0))
    ⟨fun h => ⟨h.1, h.2.1, h.2.2⟩, fun h => ⟨h.hdr, h.fence, h.input⟩⟩

instance (a b : AudioHdr) : Decidable (a.Before b) :=
  inferInstanceAs (Decidable (_ ∧ _))

-- The second frame carries the left input only.
def monoAfterStereo : List Bytes :=
  [pacingFrame 2 0 1 [1, 1, 1, 1, 2, 2, 2, 2] ++ pacingFrame 1 1 1 [3, 3, 3, 3]]

-- The first range ends at 2^64, and the cursor is at zero again.
def aroundTheTop : List Bytes :=
  [pacingFrame 0 (2 ^ 64 - 1) 1 [] ++ pacingFrame 0 0 1 []]

theorem not_pacedLaw_mono : ¬ PacedLaw stereoFx monoAfterStereo ∧ ¬ PacedLaw stereoFx aroundTheTop := by
  constructor
  . intro hlaw
    have htaken := hlaw.taken
    revert htaken
    decide +kernel
  . intro hlaw
    have hordered := hlaw.ordered
    revert hordered
    decide +kernel

end Law

end Harp
