import Harp.Device.PacedLoop

/-!
This module contains the host-paced reader of `shell/runtime_audio.cpp`: what the transport gives
is gathered in a buffer of 65536 bytes, and every frame that is complete is handed to
`demuxUnionFrame`. A failed read ends the loop; a run is any number of reads before that.
-/

namespace Harp

def accSize : Nat := 65536

-- The arguments of a call of `demuxUnionFrame`.
structure Demuxed where
  pl : Bytes
  ns : Nat
  slots : UInt16
deriving DecidableEq

def parseFrames (acc : Bytes) : List Demuxed × Bytes :=
  if acc.length < audioHdrLen then
    ([], acc)
  else
    match audioHdrDecode acc with
    -- malformed stream frame; resyncing
    | none => ([], [])
    | some h =>
      let need := audioHdrLen + h.payloadLen
      if acc.length < need then
        ([], acc)
      else
        let pl := (acc.drop audioHdrLen).take h.payloadLen
        let res := parseFrames (acc.drop need)
        (⟨pl, h.nsamples.toNat, h.slots⟩ :: res.1, res.2)
termination_by acc.length
decreasing_by
  simp only [audioHdrLen] at *
  rw [List.length_drop]
  omega

theorem length_parseFrames (acc : Bytes) : (parseFrames acc).2.length ≤ acc.length := by
  fun_induction parseFrames acc with
  | case1 => exact Nat.le_refl _
  | case2 => exact Nat.zero_le _
  | case3 => exact Nat.le_refl _
  | case4 acc hlen h hdecode need hneed pl res ih =>
    rw [List.length_drop] at ih
    exact Nat.le_trans ih (Nat.sub_le _ _)

-- `rest` is what the transport has still to give.
structure AudioReader where
  acc : Bytes
  hacc : acc.length ≤ accSize
  rest : Bytes
  demuxed : List Demuxed

namespace AudioReader

def start (stream : Bytes) : AudioReader :=
  ⟨[], by simp, stream, []⟩

-- The bytes of an `audioRead`, when the transport would give `n`.
def got (st : AudioReader) (n : Nat) : Bytes :=
  st.rest.take (min n (accSize - st.acc.length))

theorem length_acc_got (st : AudioReader) (n : Nat)
    : (st.acc ++ st.got n).length ≤ accSize := by
  have hacc := st.hacc
  rw [List.length_append, got, List.length_take]
  omega

def read (st : AudioReader) (n : Nat) : AudioReader :=
  let res := parseFrames (st.acc ++ st.got n)
  ⟨res.2, Nat.le_trans (length_parseFrames _) (st.length_acc_got n), st.rest.drop (st.got n).length,
    st.demuxed ++ res.1⟩

def run (st : AudioReader) (ns : List Nat) : AudioReader :=
  ns.foldl read st

end AudioReader

-- The length of the frame whose header stands in front, when the decoder takes it.
def announced (acc : Bytes) : Option Nat :=
  if acc.length < audioHdrLen then
    none
  else
    (audioHdrDecode acc).map (fun h => audioHdrLen + h.payloadLen)

def FrontComplete (acc : Bytes) : Prop :=
  ∃ need, announced acc = some need ∧ need ≤ acc.length

def Oversize (acc : Bytes) : Prop :=
  ∃ need, announced acc = some need ∧ accSize < need

-- The buffer is full, no frame in it is complete, and whatever the transport has is not read.
structure Stuck (st : AudioReader) : Prop where
  full : st.acc.length = accSize
  incomplete : ¬FrontComplete st.acc
  noRead : ∀ n, st.got n = []

structure AudioFrame where
  hdr : AudioHdr
  payload : Bytes
  hfver : hdr.fver = audioFver
  hfmt : hdr.fmt = audioFmtF32
  hnsamples : hdr.nsamples ≠ 0
  hlen : payload.length = hdr.payloadLen

namespace AudioFrame

def encode (f : AudioFrame) : Bytes :=
  audioHdrEncode f.hdr ++ f.payload

def demuxed (f : AudioFrame) : Demuxed :=
  ⟨f.payload, f.hdr.nsamples.toNat, f.hdr.slots⟩

end AudioFrame

-- The frames handed over are the first ones of the stream, and no byte of the others is lost.
structure Delivers (frames : List AudioFrame) (st : AudioReader) : Prop where
  split : ∃ done todo, frames = done ++ todo ∧ st.demuxed = done.map AudioFrame.demuxed
    ∧ st.acc ++ st.rest = todo.flatMap AudioFrame.encode
  all : st.rest = [] → st.demuxed = frames.map AudioFrame.demuxed
  room : st.rest ≠ [] → st.acc.length < accSize

section Header

theorem length_audioHdrEncode (h : AudioHdr) : (audioHdrEncode h).length = audioHdrLen := rfl

theorem leField_append_left {b : Bytes} {pos len : Nat} (h : pos + len ≤ b.length) (x : Bytes)
    : leField (b ++ x) pos len = leField b pos len := by
  rw [leField, leField, List.drop_append_of_le_length (by omega),
    List.take_append_of_le_length (by rw [List.length_drop]; omega)]

theorem audioHdrDecode_append {acc : Bytes} (h : audioHdrLen ≤ acc.length) (x : Bytes)
    : audioHdrDecode (acc ++ x) = audioHdrDecode acc := by
  unfold audioHdrLen at h
  unfold audioHdrDecode
  simp (disch := omega) only [leField_append_left]

theorem leField_audioHdrEncode {h : AudioHdr} {pos len v : Nat}
    (hfield : ((audioHdrEncode h).drop pos).take len = leBytes v len) (hv : v < 256 ^ len)
    : leField (audioHdrEncode h) pos len = v := by
  rw [leField, hfield, leNat_leBytes, Nat.mod_eq_of_lt hv]

theorem audioHdrDecode_encode {h : AudioHdr} (hfver : h.fver = audioFver)
    (hfmt : h.fmt = audioFmtF32) (hnsamples : h.nsamples ≠ 0)
    : audioHdrDecode (audioHdrEncode h) = some h := by
  have hbyte (b : UInt8) : leBytes b.toNat 1 = [b] := by
    rw [leBytes, leBytes, UInt8.ofNat_toNat]
  have hf0 : leField (audioHdrEncode h) 0 1 = h.fver.toNat :=
    leField_audioHdrEncode (hbyte h.fver).symm h.fver.toNat_lt
  have hf1 : leField (audioHdrEncode h) 1 1 = h.dirflags.toNat :=
    leField_audioHdrEncode (hbyte h.dirflags).symm h.dirflags.toNat_lt
  have hf2 : leField (audioHdrEncode h) 2 2 = h.slots.toNat :=
    leField_audioHdrEncode rfl h.slots.toNat_lt
  have hf4 : leField (audioHdrEncode h) 4 4 = h.epoch.toNat :=
    leField_audioHdrEncode rfl h.epoch.toNat_lt
  have hf8 : leField (audioHdrEncode h) 8 8 = h.ts.toNat :=
    leField_audioHdrEncode rfl h.ts.toNat_lt
  have hf16 : leField (audioHdrEncode h) 16 2 = h.nsamples.toNat :=
    leField_audioHdrEncode rfl h.nsamples.toNat_lt
  have hf18 : leField (audioHdrEncode h) 18 2 = h.fmt.toNat :=
    leField_audioHdrEncode rfl h.fmt.toNat_lt
  unfold audioHdrDecode
  rw [hf0, hf1, hf2, hf4, hf8, hf16, hf18]
  simp only [UInt8.ofNat_toNat, UInt16.ofNat_toNat, UInt32.ofNat_toNat, UInt64.ofNat_toNat]
  rw [if_neg (fun h => h hfver), if_neg (fun h => h hfmt), if_neg hnsamples]

end Header

section Parse

theorem parseFrames_of_announced {acc : Bytes} {need : Nat} (h : announced acc = some need)
    (hlt : acc.length < need)
    : parseFrames acc = ([], acc) := by
  unfold announced at h
  split at h
  . cases h
  next hlen =>
    rw [Option.map_eq_some_iff] at h
    obtain ⟨hdr, hdecode, rfl⟩ := h
    rw [parseFrames, if_neg hlen, hdecode]
    dsimp only
    rw [if_pos hlt]

-- What is left has no header yet, or the header of a frame that is longer.
theorem parseFrames_left (acc : Bytes)
    : (parseFrames acc).2.length < audioHdrLen
        ∨ ∃ need, announced (parseFrames acc).2 = some need
          ∧ (parseFrames acc).2.length < need := by
  fun_induction parseFrames acc with
  | case1 acc hlen => exact Or.inl hlen
  | case2 acc => exact Or.inl (by decide)
  | case3 acc hlen h hdecode need hneed =>
    apply Or.inr
    refine ⟨need, ?_, hneed⟩
    rw [announced, if_neg hlen, hdecode]
    rfl
  | case4 acc hlen h hdecode need hneed pl res ih => exact ih

theorem announced_append {acc : Bytes} {need : Nat} (h : announced acc = some need) (x : Bytes)
    : announced (acc ++ x) = some need := by
  unfold announced at h
  split at h
  . cases h
  next hlen =>
    rw [announced, if_neg (by rw [List.length_append]; omega), audioHdrDecode_append (by omega)]
    exact h

theorem AudioFrame.length_encode (f : AudioFrame)
    : f.encode.length = audioHdrLen + f.hdr.payloadLen := by
  rw [AudioFrame.encode, List.length_append, length_audioHdrEncode, f.hlen]

theorem AudioFrame.decode_encode (f : AudioFrame) (x : Bytes)
    : audioHdrDecode (f.encode ++ x) = some f.hdr := by
  rw [AudioFrame.encode, List.append_assoc, audioHdrDecode_append (Nat.le_refl _)]
  exact audioHdrDecode_encode f.hfver f.hfmt f.hnsamples

theorem parseFrames_encode (f : AudioFrame) (x : Bytes)
    : parseFrames (f.encode ++ x) = (f.demuxed :: (parseFrames x).1, (parseFrames x).2) := by
  have hlen : (f.encode ++ x).length = audioHdrLen + f.hdr.payloadLen + x.length := by
    rw [List.length_append, f.length_encode]
  have hpl : ((f.encode ++ x).drop audioHdrLen).take f.hdr.payloadLen = f.payload := by
    rw [AudioFrame.encode, List.append_assoc, List.drop_left' (length_audioHdrEncode _),
      List.take_left' f.hlen]
  rw [parseFrames, if_neg (by omega), f.decode_encode]
  dsimp only
  rw [if_neg (by omega), List.drop_left' f.length_encode, hpl]
  rfl

-- A front part of a frame is kept.
theorem parseFrames_of_short {f : AudioFrame} {acc rest x : Bytes}
    (h : acc ++ rest = f.encode ++ x) (hlt : acc.length < f.encode.length)
    : parseFrames acc = ([], acc) := by
  by_cases hlen : acc.length < audioHdrLen
  . rw [parseFrames, if_pos hlen]
  . have hdecode : audioHdrDecode acc = some f.hdr := by
      rw [← audioHdrDecode_append (by omega) rest, h, f.decode_encode]
    have hneed : announced acc = some f.encode.length := by
      rw [announced, if_neg hlen, hdecode, f.length_encode]
      rfl
    exact parseFrames_of_announced hneed hlt

theorem append_cancel_of_le {xs ys front back : Bytes} (h : xs ++ ys = front ++ back)
    (hle : front.length ≤ xs.length)
    : ∃ x, xs = front ++ x ∧ x ++ ys = back := by
  refine ⟨xs.drop front.length, ?_, ?_⟩
  . have htake := congrArg (List.take front.length) h
    rw [List.take_append_of_le_length hle, List.take_left' rfl] at htake
    rw [htake.symm, List.length_take, Nat.min_eq_left hle, List.take_append_drop]
  . have hdrop := congrArg (List.drop front.length) h
    rwa [List.drop_append_of_le_length hle, List.drop_left' rfl] at hdrop

theorem parseFrames_frames (frames : List AudioFrame) {acc rest : Bytes}
    (h : acc ++ rest = frames.flatMap AudioFrame.encode)
    : ∃ done todo, frames = done ++ todo
        ∧ (parseFrames acc).1 = done.map AudioFrame.demuxed
        ∧ (parseFrames acc).2 ++ rest = todo.flatMap AudioFrame.encode
        ∧ ∀ f ∈ todo.head?, (parseFrames acc).2.length < f.encode.length := by
  induction frames generalizing acc with
  | nil =>
    rw [List.flatMap_nil, List.append_eq_nil_iff] at h
    obtain ⟨rfl, rfl⟩ := h
    rw [parseFrames, if_pos (by decide)]
    exact ⟨[], [], rfl, rfl, rfl, by simp⟩
  | cons f frames ih =>
    rw [List.flatMap_cons] at h
    by_cases hlt : acc.length < f.encode.length
    . rw [parseFrames_of_short h hlt]
      refine ⟨[], f :: frames, rfl, rfl, h, ?_⟩
      intro g hg
      cases hg
      exact hlt
    . obtain ⟨x, rfl, hx⟩ := append_cancel_of_le h (by omega)
      obtain ⟨done, todo, rfl, hdone, htodo, hhead⟩ := ih hx
      rw [parseFrames_encode]
      exact ⟨f :: done, todo, rfl, by rw [hdone]; rfl, htodo, hhead⟩

end Parse

section Runs

theorem AudioFrame.length_encode_pos (f : AudioFrame) : 0 < f.encode.length := by
  rw [f.length_encode, audioHdrLen]
  omega

-- A reader keeps less than the frame that comes next.
theorem delivers_of_left {frames todo : List AudioFrame} {st : AudioReader}
    (done : List AudioFrame) (hfit : ∀ f ∈ frames, f.encode.length ≤ accSize) (hframes : frames = done ++ todo)
    (hdone : st.demuxed = done.map AudioFrame.demuxed)
    (htodo : st.acc ++ st.rest = todo.flatMap AudioFrame.encode)
    (hhead : ∀ f ∈ todo.head?, st.acc.length < f.encode.length)
    : Delivers frames st := by
  refine ⟨⟨done, todo, hframes, hdone, htodo⟩, fun hrest => ?_, fun hrest => ?_⟩
  . cases todo with
    | nil => rw [hdone, hframes, List.append_nil]
    | cons f todo =>
      have hlt := hhead f rfl
      have hlen := congrArg List.length htodo
      rw [hrest, List.append_nil, List.flatMap_cons, List.length_append] at hlen
      omega
  . cases todo with
    | nil => exact absurd (List.append_eq_nil_iff.mp htodo).2 hrest
    | cons f todo =>
      have hmem : f ∈ frames := by
        rw [hframes]
        simp
      exact Nat.lt_of_lt_of_le (hhead f rfl) (hfit f hmem)

theorem delivers_start {frames : List AudioFrame} (hfit : ∀ f ∈ frames, f.encode.length ≤ accSize)
    : Delivers frames (AudioReader.start (frames.flatMap AudioFrame.encode)) :=
  delivers_of_left [] hfit rfl rfl rfl (fun f _ => f.length_encode_pos)

theorem acc_rest_read (st : AudioReader) (n : Nat)
    : st.acc ++ st.got n ++ st.rest.drop (st.got n).length = st.acc ++ st.rest := by
  have hgot : st.got n ++ st.rest.drop (st.got n).length = st.rest :=
    List.prefix_iff_eq_append.mp (List.take_prefix _ _)
  rw [List.append_assoc, hgot]

theorem Delivers.read {frames : List AudioFrame} {st : AudioReader}
    (hfit : ∀ f ∈ frames, f.encode.length ≤ accSize) (h : Delivers frames st) (n : Nat)
    : Delivers frames (st.read n) := by
  obtain ⟨done, todo, hframes, hdone, htodo⟩ := h.split
  rw [← acc_rest_read st n] at htodo
  obtain ⟨now, later, rfl, hnow, hleft, hhead⟩ := parseFrames_frames todo htodo
  apply delivers_of_left (done ++ now) hfit _ _ hleft hhead
  . rw [hframes, List.append_assoc]
  . rw [List.map_append, ← hdone, ← hnow]
    rfl

theorem delivers_run {frames : List AudioFrame} (hfit : ∀ f ∈ frames, f.encode.length ≤ accSize)
    (ns : List Nat)
    : Delivers frames ((AudioReader.start (frames.flatMap AudioFrame.encode)).run ns) := by
  induction ns using List.reverseRecOn with
  | nil => exact delivers_start hfit
  | append_singleton ns n ih =>
    rw [AudioReader.run, List.foldl_append]
    exact ih.read hfit n

-- What stands in the buffer between two reads.
theorem left_run (stream : Bytes) (ns : List Nat)
    : ((AudioReader.start stream).run ns).acc.length < audioHdrLen
        ∨ ∃ need, announced ((AudioReader.start stream).run ns).acc = some need
          ∧ ((AudioReader.start stream).run ns).acc.length < need := by
  induction ns using List.reverseRecOn with
  | nil => exact Or.inl (Nat.zero_lt_succ _)
  | append_singleton ns n ih =>
    rw [AudioReader.run, List.foldl_append]
    exact parseFrames_left _

theorem oversize_of_stuck {stream : Bytes} {ns : List Nat}
    (h : Stuck ((AudioReader.start stream).run ns))
    : Oversize ((AudioReader.start stream).run ns).acc := by
  have hfull := h.full
  cases left_run stream ns with
  | inl hshort =>
    unfold audioHdrLen accSize at *
    omega
  | inr hleft =>
    obtain ⟨need, hneed, hlt⟩ := hleft
    exact ⟨need, hneed, by omega⟩

-- A read that fills the buffer behind such a header.
theorem stuck_of_oversize {st : AudioReader} {n : Nat} (h : Oversize (st.acc ++ st.got n))
    (hfull : (st.acc ++ st.got n).length = accSize)
    : Stuck (st.read n) := by
  obtain ⟨need, hneed, hsize⟩ := h
  have hparse := parseFrames_of_announced hneed (by omega)
  have hkept : (st.read n).acc = st.acc ++ st.got n := congrArg Prod.snd hparse
  constructor
  . rw [hkept, hfull]
  . intro ⟨need', hneed', hle⟩
    rw [hkept, hneed] at hneed'
    cases hneed'
    rw [hkept] at hle
    omega
  . intro m
    rw [AudioReader.got, hkept, hfull, Nat.sub_self, Nat.min_zero, List.take_zero]

theorem Oversize.append {acc : Bytes} (h : Oversize acc) (x : Bytes) : Oversize (acc ++ x) := by
  obtain ⟨need, hneed, hsize⟩ := h
  exact ⟨need, announced_append hneed x, hsize⟩

-- No later read changes anything.
theorem read_of_stuck {stream : Bytes} {ns : List Nat}
    (h : Stuck ((AudioReader.start stream).run ns)) (n : Nat)
    : ((AudioReader.start stream).run ns).read n = (AudioReader.start stream).run ns := by
  obtain ⟨need, hneed, hsize⟩ := oversize_of_stuck h
  have hfull := h.full
  generalize (AudioReader.start stream).run ns = st at *
  have hparse := parseFrames_of_announced hneed (by omega)
  simp [AudioReader.read, h.noRead n, hparse]

theorem not_stuck_iff (stream : Bytes)
    : (∀ ns, ¬Stuck ((AudioReader.start stream).run ns))
        ↔ ∀ ns, Oversize ((AudioReader.start stream).run ns).acc →
          ((AudioReader.start stream).run ns).acc.length
            + ((AudioReader.start stream).run ns).rest.length < accSize := by
  constructor
  . intro hnot ns hover
    apply Nat.lt_of_not_le
    intro hmore
    apply hnot (ns ++ [accSize])
    rw [AudioReader.run, List.foldl_append]
    apply stuck_of_oversize (hover.append _)
    have hacc := ((AudioReader.start stream).run ns).hacc
    rw [List.length_append, AudioReader.got, List.length_take]
    unfold AudioReader.run at *
    omega
  . intro hcond ns hstuck
    have hlt := hcond ns (oversize_of_stuck hstuck)
    have hfull := hstuck.full
    omega

/--
For one stream, every way the reads split it: if it is made of valid frames these are delivered, and
the reader is never stuck. This is so if and only if, whenever an accepted header that announces
more than the buffer holds stands at its front, the stream ends before the buffer is full.
-/
theorem audioReader_iff (stream : Bytes)
    : ((∀ frames : List AudioFrame, (∀ f ∈ frames, f.encode.length ≤ accSize) →
            stream = frames.flatMap AudioFrame.encode →
            ∀ ns, Delivers frames ((AudioReader.start stream).run ns))
          ∧ ∀ ns, ¬Stuck ((AudioReader.start stream).run ns))
        ↔ ∀ ns, Oversize ((AudioReader.start stream).run ns).acc →
          ((AudioReader.start stream).run ns).acc.length
            + ((AudioReader.start stream).run ns).rest.length < accSize := by
  rw [← not_stuck_iff]
  constructor
  . intro h
    exact h.2
  . intro h
    refine ⟨fun frames hfit hstream ns => ?_, h⟩
    rw [hstream]
    exact delivers_run hfit ns

-- A frame of 64 slots and 256 samples in each.
def oversizeHdr : AudioHdr :=
  ⟨audioFver, 0, 64, 0, 0, 256, audioFmtF32⟩

def oversizeStream : Bytes :=
  audioHdrEncode oversizeHdr ++ List.replicate 65536 0

theorem audioReader_stuck
    : ¬((∀ frames : List AudioFrame, (∀ f ∈ frames, f.encode.length ≤ accSize) → ∀ ns,
            Delivers frames ((AudioReader.start (frames.flatMap AudioFrame.encode)).run ns))
          ∧ ∀ stream ns, ¬Stuck ((AudioReader.start stream).run ns)) := by
  intro ⟨_, hnot⟩
  apply hnot oversizeStream [accSize]
  have hhdr : Oversize (audioHdrEncode oversizeHdr) := ⟨65556, by decide, by decide⟩
  have hgot : (AudioReader.start oversizeStream).acc
        ++ (AudioReader.start oversizeStream).got accSize
      = audioHdrEncode oversizeHdr ++ List.replicate 65516 0 := by
    rw [AudioReader.got, AudioReader.start, oversizeStream, List.nil_append, List.length_nil,
      Nat.sub_zero, Nat.min_self, accSize, List.take_append, length_audioHdrEncode,
      List.take_of_length_le (by decide), List.take_replicate]
    rfl
  apply stuck_of_oversize
  . rw [hgot]
    exact hhdr.append _
  . rw [hgot, List.length_append, length_audioHdrEncode, List.length_replicate]
    rfl

end Runs

end Harp
