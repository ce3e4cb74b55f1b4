import Harp.Core.StoreCrash
import Harp.Device.RefsetLemmas
import Harp.Device.Retention
import Harp.Host.PushState

/-!
This module contains the write-back cache of the live ref against a device that has none: one that
writes the ref to storage on every touch. To flush the cache is to forget that it was there, which
takes a state of the one device to the state the other one is in.
-/

namespace Harp

open FileTree

section Stored

def liveComp : Comp :=
  ⟨ascii "live", by decide, by decide, by decide, by decide, by decide⟩

def projectComp : Comp :=
  ⟨ascii "project", by decide, by decide, by decide, by decide, by decide⟩

theorem livePath_eq : livePath = [liveComp] ++ [projectComp] := by decide

-- A ref that is written to `live/project`.
structure LiveNamed (r : Ref) : Prop where
  name : refNameOk r.name = true
  noDot : endsInDot r.name = false
  path : comps r.name = livePath
  alg : r.algOk = true

-- At `live/project` there is nothing yet or a ref that was written there, and nothing is in the way
-- of the next write.
structure LiveStored (s : Store) : Prop where
  root : ∃ l, s.refs.look [] = some (.dir l)
  above : ∀ readable data, s.refs.look [liveComp] ≠ some (.file readable data)
  file : s.refs.look livePath = none
    ∨ ∃ r, LiveNamed r ∧ s.refs.look livePath = some (.file true (refEncode r))
  temp : ∀ l, s.refs.look (tmpPath s.pid livePath) ≠ some (.dir l)

variable {s : Store} {r r' : Ref}

theorem LiveStored.mkdirs (h : LiveStored s)
    : ∃ t, Harp.mkdirs s.refs [] [liveComp] = some t ∧ MkdirsSpec s.refs t [liveComp] := by
  have hsome : ∃ t, Harp.mkdirs s.refs [] [liveComp] = some t := by
    unfold Harp.mkdirs
    rw [List.nil_append]
    split
    . exact ⟨_, rfl⟩
    . exact ⟨_, rfl⟩
    next readable data hfile => exact absurd hfile (h.above readable data)
  rcases hsome with ⟨t, ht⟩
  exact ⟨t, ht, mkdirs_spec h.root ht⟩

-- Below the path nothing is added.
theorem MkdirsSpec.look_below {t t' : RefTree} {path q : List Comp} (h : MkdirsSpec t t' path)
    (hq : path.length < q.length) {k : Kind Bytes} (hk : t'.look q = some k) : t.look q = some k := by
  cases hold : t.look q with
  | some k' =>
    rw [h.old q (by simp [hold]), hold] at hk
    exact hk
  | none =>
    rcases h.new q hold with hnone | ⟨_, habove⟩
    . rw [hnone] at hk
      cases hk
    . have hle := habove.length_le
      omega

-- The tree after the write.
theorem LiveStored.write_eq (h : LiveStored s) (hr : LiveNamed r) {t : RefTree}
    (ht : Harp.mkdirs s.refs [] [liveComp] = some t)
    : storeRefWrite s r .ok
        = (true, { s with
            refs := (t.erase ([liveComp] ++ [projectComp.tmp s.pid])).put
              ([liveComp] ++ [projectComp]) (.file true (refEncode r)) }) := by
  have hspec : MkdirsSpec s.refs t [liveComp] := mkdirs_spec h.root ht
  have hroot : isDirAt s.refs [] = true := (isDirAt_iff s.refs []).mpr h.root
  have htemp : ¬ isDirAt t ([liveComp] ++ [projectComp.tmp s.pid]) = true := by
    rw [isDirAt_iff]
    rintro ⟨l, hl⟩
    have hold := hspec.look_below (by simp) hl
    exact h.temp l hold
  have htarget : ¬ isDirAt t ([liveComp] ++ [projectComp]) = true := by
    rw [isDirAt_iff]
    rintro ⟨l, hl⟩
    have hold := hspec.look_below (by simp) hl
    rw [← livePath_eq] at hold
    rcases h.file with hnone | ⟨r, _, hfile⟩
    . rw [hold] at hnone
      cases hnone
    . rw [hold] at hfile
      cases hfile
  unfold storeRefWrite
  rw [if_neg (by simp [hr.name, hroot]), if_neg (by simp [hr.noDot]), hr.path]
  have hlast : livePath.getLast? = some projectComp := by decide
  have hdir : livePath.dropLast = [liveComp] := by decide
  rw [hlast, hdir]
  dsimp only
  rw [ht]
  dsimp only
  unfold writeAtomic
  dsimp only
  rw [if_neg (not_or.mpr ⟨by simp, htemp⟩), if_neg (by simp), if_neg (not_or.mpr ⟨by simp, htarget⟩)]
  rfl

theorem LiveStored.write_ok (h : LiveStored s) (hr : LiveNamed r)
    : (storeRefWrite s r .ok).1 = true := by
  rcases h.mkdirs with ⟨t, ht, _⟩
  rw [h.write_eq hr ht]

theorem read_written (h : LiveStored s) (hr : LiveNamed r)
    : storeRefRead (storeRefWrite s r .ok).2 liveRef = some r := by
  have hspec := storeRefWrite_spec (h.write_ok hr) (WriteIo.ok_keeps _)
  have hfile := hspec.file
  rw [hr.path] at hfile
  exact storeRefRead_whole (by decide) (by decide) hr.name hr.alg hfile

theorem LiveStored.write (h : LiveStored s) (hr : LiveNamed r)
    : LiveStored (storeRefWrite s r .ok).2 := by
  have hspec := storeRefWrite_spec (h.write_ok hr) (WriteIo.ok_keeps _)
  have habove := hspec.above
  have hother := hspec.other
  have hfile := hspec.file
  rw [hr.path] at habove hother hfile
  refine ⟨?_, ?_, .inr ⟨r, hr, hfile⟩, ?_⟩
  . exact habove [] List.nil_prefix (by decide)
  . intro readable data hlook
    rcases habove [liveComp] (by rw [livePath_eq]; exact List.prefix_append _ _) (by decide) with
      ⟨l, hl⟩
    rw [hl] at hlook
    cases hlook
  . intro l hl
    rw [storeRefWrite_pid] at hl
    rcases hother _ (tmpPath_ne_livePath s.pid livePath) with hsame | ⟨hnone, _⟩ | ⟨_, _, habove⟩
    . rw [hsame] at hl
      exact h.temp l hl
    . rw [hnone] at hl
      cases hl
    . exact tmpPath_ne_livePath s.pid livePath (habove.eq_of_length rfl)

-- Of two writes the second is left.
theorem LiveStored.overwrite (h : LiveStored s) (hr : LiveNamed r) (hr' : LiveNamed r')
    : storeRefWrite (storeRefWrite s r .ok).2 r' .ok = storeRefWrite s r' .ok := by
  rcases h.mkdirs with ⟨t, ht, _⟩
  have hnext := h.write hr
  rcases storeRefWrite_spec (h.write_ok hr) (WriteIo.ok_keeps _) with ⟨_, _, _, _, habove, _, _⟩
  rw [hr.path] at habove
  have hdir := habove [liveComp] (by rw [livePath_eq]; exact List.prefix_append _ _) (by decide)
  rw [h.write_eq hr ht] at hnext hdir ⊢
  dsimp only at hnext hdir ⊢
  generalize hnew : (t.erase ([liveComp] ++ [projectComp.tmp s.pid])).put
    ([liveComp] ++ [projectComp]) (.file true (refEncode r)) = u at hnext hdir ⊢
  have hmk : Harp.mkdirs u [] [liveComp] = some u := by
    rcases hdir with ⟨l, hl⟩
    unfold Harp.mkdirs
    rw [List.nil_append, hl]
    rfl
  rw [hnext.write_eq hr' hmk, h.write_eq hr' ht]
  dsimp only
  have hne : projectComp.tmp s.pid ≠ projectComp := tmp_ne s.pid projectComp
  rw [← hnew, Node.erase_put_ne [liveComp] hne, Node.erase_erase, Node.put_put]

theorem LiveStored.read (h : LiveStored s) : ∃ r, storeRefRead s liveRef = some r ∧ LiveNamed r := by
  rcases h.file with hnone | ⟨r, hr, hfile⟩
  . refine ⟨Ref.unborn liveRef, ?_, ⟨by decide, by decide, rfl, rfl⟩⟩
    unfold storeRefRead
    rw [if_pos (by decide), ← livePath, hnone]
  . refine ⟨r, ?_, hr⟩
    exact storeRefRead_whole (by decide) (by decide) hr.name hr.alg hfile

theorem LiveStored.of_refs {s' : Store} (h : LiveStored s) (hrefs : s'.refs = s.refs)
    (hpid : s'.pid = s.pid) : LiveStored s' := by
  rcases h with ⟨hroot, habove, hfile, htemp⟩
  constructor
  . rw [hrefs]
    exact hroot
  . rw [hrefs]
    exact habove
  . rw [hrefs]
    exact hfile
  . rw [hrefs, hpid]
    exact htemp

end Stored

section Ops

-- `dest` is kept where there is no text or none that fits.
def decodeTextInto (cap : Nat) (dest : Bytes) (b : Cdec) : Bytes × Cdec :=
  match cdecText b with
  | (some s, b) => (if s.length ≥ cap then dest else cstr s, b)
  | (none, b) => (dest, b)

def refsFilter (body : Option Bytes) : Bytes :=
  match body with
  | none => []
  | some body =>
    match cdecMap (Cdec.init body) with
    | (some n, b) =>
      if n ≥ 1 then
        match cdecUint b with
        | (some 0, b) => (decodeTextInto refNameMax [] b).1
        | _ => []
      else
        []
    | (none, _) => []

def stateRefs (d : Device) (body : Option Bytes) (io : WriteIo) : List Ref × Device :=
  let filter := refsFilter body
  if filter.isEmpty then
    let d := liveCacheFlush d io
    ((storeRefList d.store (fun r rs => rs ++ [r]) []).2, d)
  else
    handleStateRefs d filter io

structure SnapReq where
  refname : Bytes
  msg : Bytes
deriving DecidableEq, Repr

def snapshotFields (n : Nat) (b : Cdec) (q : SnapReq) : SnapReq :=
  match n with
  | 0 => q
  | n + 1 =>
    match cdecUint b with
    | (none, _) => q
    | (some 0, b) =>
      let (refname, b) := decodeTextInto refNameMax q.refname b
      snapshotFields n b { q with refname }
    | (some 1, b) =>
      let (msg, b) := decodeTextInto 256 q.msg b
      snapshotFields n b { q with msg }
    | (some _, b) => snapshotFields n (cdecSkip b).2 q

def snapshotParse (body : Option Bytes) : SnapReq :=
  match body with
  | none => ⟨[], []⟩
  | some body =>
    match cdecMap (Cdec.init body) with
    | (some n, b) => snapshotFields n b ⟨[], []⟩
    | (none, _) => ⟨[], []⟩

inductive SnapRsp where
  | busy
  | unsupported
  | storage
  | ok (snap : Hash) (generation : UInt64)
deriving DecidableEq, Repr

-- `shed` is the answer of the rate limiter.
def stateSnapshot (d : Device) (shed : Bool) (body : Option Bytes) (time : Nat) (io : SnapIo)
    : SnapRsp × Device :=
  let q := snapshotParse body
  if shed then
    (.busy, d)
  else if q.refname ≠ liveRef then
    (.unsupported, d)
  else
    match doSnapshot d (if q.msg.isEmpty then none else some q.msg) time io with
    | (some (snap, generation), d) => (.ok snap generation, d)
    | (none, d) => (.storage, d)

inductive LiveOp where
  | touch (dirty : Bool)
  | flush
  | refs (body : Option Bytes)
  | snapshot (shed : Bool) (body : Option Bytes) (time : Nat)
  | refset (body : Option Bytes)
deriving DecidableEq, Repr

-- A touch reports the ref in its notification.
inductive LiveRsp where
  | none
  | touched (r : Option Ref)
  | refs (rs : List Ref)
  | snapshot (rsp : SnapRsp)
  | refset (rsp : RefsetRsp)
deriving DecidableEq, Repr

def LiveOp.OnLive : LiveOp → Prop
  | .refset body => (refsetParse body).refname = liveRef
  | _ => True

def Ref.touched (r : Ref) (dirty : Bool) : Ref :=
  { r with generation := r.generation + 1, dirty }

def touchCached (d : Device) (dirty : Bool) : Option Ref × Device :=
  ((d.liveCache <|> storeRefRead d.store liveRef).map (fun r => r.touched dirty),
    liveRefTouch d dirty .ok)

-- The device without the cache: every touch reads the ref and writes it back.
def touchThrough (d : Device) (dirty : Bool) : Option Ref × Device :=
  match storeRefRead d.store liveRef with
  | none => (none, d)
  | some r =>
    (some (r.touched dirty),
      { d with store := (storeRefWrite d.store (r.touched dirty) .ok).2 })

def snapOk : SnapIo :=
  ⟨.ok, .ok, .ok, .ok, .ok⟩

def LiveOp.exec (touch : Device → Bool → Option Ref × Device) (d : Device)
    : LiveOp → LiveRsp × Device
  | .touch dirty =>
    let (r, d) := touch d dirty
    (.touched r, d)
  | .flush => (.none, liveCacheFlush d .ok)
  | .refs body =>
    let (rs, d) := stateRefs d body .ok
    (.refs rs, d)
  | .snapshot shed body time =>
    let (rsp, d) := stateSnapshot d shed body time snapOk
    (.snapshot rsp, d)
  | .refset body =>
    let (rsp, d) := handleStateRefset d body ⟨.ok, .ok⟩
    (.refset rsp, d)

def answers (touch : Device → Bool → Option Ref × Device) (d : Device) : List LiveOp → List LiveRsp
  | [] => []
  | op :: ops => (op.exec touch d).1 :: answers touch (op.exec touch d).2 ops

end Ops

section Refines

-- The device behind the cache.
def through (d : Device) : Device :=
  liveCacheFlush d .ok

variable {d : Device}

structure Cached (d : Device) : Prop where
  stored : LiveStored d.store
  named : ∀ c, d.liveCache = some c → LiveNamed c

theorem LiveNamed.touched {r : Ref} (h : LiveNamed r) (dirty : Bool) : LiveNamed (r.touched dirty) :=
  ⟨h.name, h.noDot, h.path, h.alg⟩

theorem through_of_none (h : d.liveCache = none) : through d = d := by
  unfold through liveCacheFlush
  rw [h]

theorem through_of_some {c : Ref} (h : d.liveCache = some c)
    : through d = { d with store := (storeRefWrite d.store c .ok).2, liveCache := none } := by
  unfold through liveCacheFlush
  rw [h]

theorem through_liveCache (d : Device) : (through d).liveCache = none :=
  liveCacheFlush_liveCache d .ok

theorem through_through (d : Device) : through (through d) = through d :=
  through_of_none (through_liveCache d)

-- The ref a touch starts from, whichever device it is on.
theorem Cached.base (h : Cached d)
    : ∃ r, (d.liveCache <|> storeRefRead d.store liveRef) = some r ∧ LiveNamed r
        ∧ storeRefRead (through d).store liveRef = some r := by
  cases hcache : d.liveCache with
  | none =>
    rcases h.stored.read with ⟨r, hread, hr⟩
    rw [through_of_none hcache]
    exact ⟨r, hread, hr, hread⟩
  | some c =>
    have hc := h.named c hcache
    rw [through_of_some hcache]
    exact ⟨c, rfl, hc, read_written h.stored hc⟩

-- Whatever a touch left unwritten, the next write of the ref makes up for it.
theorem Cached.written (h : Cached d) {r : Ref} (hr : LiveNamed r)
    : storeRefWrite (through d).store r .ok = storeRefWrite d.store r .ok := by
  cases hcache : d.liveCache with
  | none => rw [through_of_none hcache]
  | some c =>
    rw [through_of_some hcache]
    exact h.stored.overwrite (h.named c hcache) hr

theorem touch_refines (h : Cached d) (dirty : Bool)
    : touchThrough (through d) dirty
        = ((touchCached d dirty).1, through (touchCached d dirty).2) := by
  rcases h.base with ⟨r, hbase, hr, hread⟩
  have hr' := hr.touched dirty
  have hfields : { through d with store := (storeRefWrite d.store (r.touched dirty) .ok).2 }
      = { d with store := (storeRefWrite d.store (r.touched dirty) .ok).2, liveCache := none } := by
    cases hcache : d.liveCache with
    | none =>
      rw [through_of_none hcache]
      rcases d with ⟨store, cache, pval, ramps, pending, archives, ver⟩
      dsimp only at hcache
      rw [hcache]
    | some c => rw [through_of_some hcache]
  unfold touchThrough touchCached liveRefTouch
  rw [hread, hbase]
  dsimp only
  rw [h.written hr', hfields, Option.map_some, through_of_some rfl]
  dsimp only
  split
  . rw [← Ref.touched, h.stored.overwrite hr' hr']
  . rfl

theorem stateRefs_through (d : Device) (body : Option Bytes)
    : stateRefs (through d) body .ok = stateRefs d body .ok
        ∧ (stateRefs d body .ok).2 = through d := by
  have hflush : liveCacheFlush (through d) .ok = liveCacheFlush d .ok := through_through d
  unfold stateRefs handleStateRefs
  rw [hflush]
  refine ⟨rfl, ?_⟩
  dsimp only
  split
  . rfl
  . split
    . split <;> rfl
    . rfl

theorem snapshotLocked_liveCache (d : Device) (msg : Option Bytes) (time : Nat) (io : SnapIo)
    : (snapshotLocked d msg time io).2.liveCache = d.liveCache := by
  unfold snapshotLocked
  split
  . rfl
  . split
    . rfl
    . dsimp only
      split <;> rfl

theorem doSnapshot_through (d : Device) (msg : Option Bytes) (time : Nat)
    : doSnapshot (through d) msg time snapOk = doSnapshot d msg time snapOk
        ∧ (doSnapshot d msg time snapOk).2.liveCache = none := by
  have hflush : liveCacheFlush (through d) .ok = liveCacheFlush d .ok := through_through d
  unfold doSnapshot snapOk
  rw [hflush, snapshotLocked_liveCache]
  exact ⟨rfl, through_liveCache d⟩

theorem stateSnapshot_through (d : Device) (shed : Bool) (body : Option Bytes) (time : Nat)
    : stateSnapshot (through d) shed body time snapOk
        = ((stateSnapshot d shed body time snapOk).1,
          through (stateSnapshot d shed body time snapOk).2) := by
  unfold stateSnapshot
  dsimp only
  split
  . rfl
  . split
    . rfl
    . generalize (if (snapshotParse body).msg.isEmpty then none else some (snapshotParse body).msg)
        = msg
      rcases doSnapshot_through d msg time with ⟨heq, hcache⟩
      rw [heq]
      rcases hout : doSnapshot d msg time snapOk with ⟨o, d'⟩
      rw [hout] at hcache
      cases o with
      | none => rw [through_of_none hcache]
      | some p => rw [through_of_none hcache]

theorem handleStateRefset_live_eq {body : Option Bytes} (hlive : (refsetParse body).refname = liveRef)
    (d : Device) (io : RefsetIo)
    : handleStateRefset d body io = ((refsetRespond d body io).rsp, (refsetRespond d body io).dev) := by
  unfold handleStateRefset
  dsimp only
  split
  . rw [hlive, maybeGc_of_none (by decide)]
  . rfl

theorem refsetFlush_live {q : RefsetReq} (h : q.refname = liveRef) (d : Device)
    : refsetFlush d q .ok = through d := by
  unfold refsetFlush
  rw [if_pos h]
  rfl

theorem refsetRespond_through {body : Option Bytes} (hlive : (refsetParse body).refname = liveRef)
    (d : Device)
    : (refsetRespond (through d) body ⟨.ok, .ok⟩).rsp = (refsetRespond d body ⟨.ok, .ok⟩).rsp
        ∧ (refsetRespond (through d) body ⟨.ok, .ok⟩).dev
          = through (refsetRespond d body ⟨.ok, .ok⟩).dev := by
  unfold refsetRespond
  dsimp only
  rw [refsetFlush_live hlive, refsetFlush_live hlive, through_through]
  split
  . exact ⟨rfl, rfl⟩
  . split
    . exact ⟨rfl, rfl⟩
    . split
      . exact ⟨rfl, (through_through d).symm⟩
      . split
        . refine ⟨rfl, Eq.symm (through_of_none ?_)⟩
          exact through_liveCache d
        . refine ⟨rfl, Eq.symm (through_of_none ?_)⟩
          exact through_liveCache d

theorem exec_refines (h : Cached d) {op : LiveOp} (hop : op.OnLive)
    : op.exec touchThrough (through d)
        = ((op.exec touchCached d).1, through (op.exec touchCached d).2) := by
  cases op with
  | touch dirty =>
    dsimp only [LiveOp.exec]
    rw [touch_refines h]
  | flush =>
    have hflush : ∀ d, liveCacheFlush d .ok = through d := fun _ => rfl
    dsimp only [LiveOp.exec]
    rw [hflush, hflush, through_through]
  | refs body =>
    rcases stateRefs_through d body with ⟨heq, hdev⟩
    dsimp only [LiveOp.exec]
    rw [heq, hdev, through_through]
  | snapshot shed body time =>
    dsimp only [LiveOp.exec]
    rw [stateSnapshot_through]
  | refset body =>
    rcases refsetRespond_through hop d with ⟨hrsp, hdev⟩
    dsimp only [LiveOp.exec]
    rw [handleStateRefset_live_eq hop, handleStateRefset_live_eq hop]
    dsimp only
    rw [hrsp, hdev]

end Refines

section Outcome

-- Whether the ref has been touched since the last snapshot or refset.
def LiveRsp.owed : LiveRsp → Bool → Bool
  | .touched (some r), _ => r.dirty
  | .snapshot (.ok _ _), _ => false
  | .refset (.ok _), _ => false
  | _, owed => owed

-- What an operation other than a touch leaves: nothing new, a flushed cache, or a clean ref on top.
inductive Outcome (d : Device) (rsp : LiveRsp) (d' : Device) : Prop where
  | same (hrsp : ∀ o, rsp.owed o = o) (h : d' = d)
  | flushed (hrsp : ∀ o, rsp.owed o = o) (hrefs : d'.store.refs = (through d).store.refs)
      (hpid : d'.store.pid = (through d).store.pid) (hcache : d'.liveCache = none)
  | moved {s : Store} {r : Ref} (hrsp : ∀ o, rsp.owed o = false)
      (hrefs : s.refs = (through d).store.refs) (hpid : s.pid = (through d).store.pid)
      (hr : LiveNamed r) (hstore : d'.store = (storeRefWrite s r .ok).2) (hcache : d'.liveCache = none)

variable {d : Device}

theorem Cached.through (h : Cached d) : LiveStored (through d).store := by
  cases hcache : d.liveCache with
  | none =>
    rw [through_of_none hcache]
    exact h.stored
  | some c =>
    rw [through_of_some hcache]
    exact h.stored.write (h.named c hcache)

theorem LiveNamed.moved {r : Ref} (h : LiveNamed r) {x : Hash} (hx : x.b.head? = some 0x01)
    : LiveNamed (r.moved x) :=
  ⟨h.name, h.noDot, h.path, Ref.moved_algOk_of_alg hx r⟩

theorem doSnapshot_outcome (h : Cached d) (msg : Option Bytes) (time : Nat)
    : ((doSnapshot d msg time snapOk).1 = none
          ∧ ∀ rsp : LiveRsp, (∀ o, rsp.owed o = o) → Outcome d rsp (doSnapshot d msg time snapOk).2)
        ∨ ((doSnapshot d msg time snapOk).1 ≠ none
          ∧ ∀ rsp : LiveRsp, (∀ o, rsp.owed o = false) →
            Outcome d rsp (doSnapshot d msg time snapOk).2) := by
  have hstored := h.through
  have hcache := through_liveCache d
  have hflush : liveCacheFlush d snapOk.flush = Harp.through d := rfl
  unfold doSnapshot
  rw [hflush]
  unfold snapshotLocked
  rcases h.base with ⟨r, _, hr, hread⟩
  rw [hread]
  dsimp only
  have hrefs := engineSnapshotObjects_refs (Harp.through d).store (Harp.through d).pval r.hash msg time
    snapOk
  have hpid := engineSnapshotObjects_pid (Harp.through d).store (Harp.through d).pval r.hash msg time
    snapOk
  rcases hobj : engineSnapshotObjects (Harp.through d).store (Harp.through d).pval r.hash msg time
    snapOk with ⟨o, store⟩
  rw [hobj] at hrefs hpid
  cases o with
  | none => exact .inl ⟨rfl, fun rsp hrsp => .flushed hrsp hrefs hpid hcache⟩
  | some snap =>
    have hmoved := hr.moved (engineSnapshotObjects_alg hobj)
    have hwrite := (hstored.of_refs hrefs hpid).write_ok hmoved
    dsimp only
    rcases hw : storeRefWrite store (r.moved snap) snapOk.ref with ⟨ok, store'⟩
    have hw' : storeRefWrite store (r.moved snap) .ok = (ok, store') := hw
    rw [hw'] at hwrite
    dsimp only at hwrite
    subst hwrite
    have hlocked : storeRefWrite store
        { r with hash := some snap, generation := r.generation + 1, dirty := false } snapOk.ref
        = (true, store') := hw
    rw [hlocked]
    exact .inr ⟨by simp, fun rsp hrsp =>
      .moved hrsp hrefs hpid hmoved (by rw [hw']) hcache⟩

theorem refset_outcome (h : Cached d) {body : Option Bytes}
    (hlive : (refsetParse body).refname = liveRef)
    : Outcome d (.refset (refsetRespond d body ⟨.ok, .ok⟩).rsp)
        (refsetRespond d body ⟨.ok, .ok⟩).dev := by
  have hexit := refsetRespond_exit d body ⟨.ok, .ok⟩
  generalize refsetRespond d body ⟨.ok, .ok⟩ = out at hexit ⊢
  have hcache := through_liveCache d
  have hcommit : ∀ {newh guards r pval}, (refsetParse body).newh = some newh →
      refsetCheck (through d) (refsetParse body) newh = (guards, .ok (r, pval)) →
      LiveNamed (r.moved newh) := by
    intro newh guards r pval hnewh hcheck
    have hread := (refsetCheck_ok hcheck).read
    rcases h.base with ⟨r', _, hr', hread'⟩
    rw [hlive, hread'] at hread
    cases hread
    exact ⟨hr'.name, hr'.noDot, hr'.path, Ref.moved_algOk (refsetParse_newhOk body) hnewh r⟩
  cases hexit with
  | malformed _ => exact .same (fun _ => rfl) rfl
  | refused hq hcheck =>
    rw [refsetFlush_live hlive] at hcheck ⊢
    refine .flushed ?_ rfl rfl hcache
    intro o
    have hne := (refsetCheck_error hcheck).1
    dsimp only
    unfold LiveRsp.owed
    split
    next heq => cases heq
    next heq => cases heq
    next generation heq =>
      cases heq
      exact absurd rfl (hne generation)
    next => rfl
  | stored hq hcheck hw =>
    rw [refsetFlush_live hlive] at hcheck ⊢
    exact .moved (fun _ => rfl) rfl rfl (hcommit hq.1 hcheck) rfl hcache
  | failed hq hcheck hw =>
    rw [refsetFlush_live hlive] at hcheck hw
    rw [h.through.write_ok (hcommit hq.1 hcheck)] at hw
    cases hw

theorem exec_outcome (h : Cached d) {op : LiveOp} (hop : op.OnLive) (htouch : ∀ b, op ≠ .touch b)
    : Outcome d (op.exec touchCached d).1 (op.exec touchCached d).2 := by
  cases op with
  | touch dirty => exact absurd rfl (htouch dirty)
  | flush => exact .flushed (fun _ => rfl) rfl rfl (through_liveCache d)
  | refs body =>
    have hdev := (stateRefs_through d body).2
    dsimp only [LiveOp.exec]
    rw [hdev]
    exact .flushed (fun _ => rfl) rfl rfl (through_liveCache d)
  | snapshot shed body time =>
    dsimp only [LiveOp.exec]
    unfold stateSnapshot
    dsimp only
    split
    . exact .same (fun _ => rfl) rfl
    . split
      . exact .same (fun _ => rfl) rfl
      . generalize (if (snapshotParse body).msg.isEmpty then none else some (snapshotParse body).msg)
          = msg
        have houtcome := doSnapshot_outcome h msg time
        rcases hsnap : doSnapshot d msg time snapOk with ⟨o, d'⟩
        rw [hsnap] at houtcome
        cases o with
        | none =>
          rcases houtcome with ⟨_, hout⟩ | ⟨hne, _⟩
          . exact hout (.snapshot .storage) (fun _ => rfl)
          . exact absurd rfl hne
        | some p =>
          rcases houtcome with ⟨hnone, _⟩ | ⟨_, hout⟩
          . cases hnone
          . exact hout (.snapshot (.ok p.1 p.2)) (fun _ => rfl)
  | refset body =>
    dsimp only [LiveOp.exec]
    rw [handleStateRefset_live_eq hop]
    exact refset_outcome h hop

end Outcome

section Crash

def DirtyAt (s : Store) : Prop :=
  ∃ r, storeRefRead s liveRef = some r ∧ r.dirty = true

-- The stores an operation leaves behind on its way: what is there at the start, after the flush, and
-- once the objects of a snapshot are put.
def LiveOp.images (d : Device) : LiveOp → List Store
  | .snapshot shed body time =>
    let q := snapshotParse body
    if shed ∨ q.refname ≠ liveRef then
      [d.store]
    else
      let d' := liveCacheFlush d .ok
      let put := (storeRefRead d'.store liveRef).map (fun r =>
        (engineSnapshotObjects d'.store d'.pval r.hash
          (if q.msg.isEmpty then none else some q.msg) time snapOk).2)
      [d.store, d'.store] ++ put.toList
  | .refset body =>
    let q := refsetParse body
    if q.newh = none ∨ q.refname.isEmpty ∨ ¬ q.haveExpect then
      [d.store]
    else
      [d.store, (refsetFlush d q .ok).store]
  | _ => [d.store]

-- Where the process can stop: between two writes, or with a write of the ref cut off.
inductive Stops (d : Device) (op : LiveOp) : Store → Prop where
  | between {s : Store} (h : s ∈ op.images d) : Stops d op s
  | within {s s' : Store} {r : Ref} {t : RefTree} (h : s ∈ op.images d)
      (h' : s' ∈ op.images d ∨ s' = (op.exec touchCached d).2.store) (hr : LiveNamed r)
      (hwrite : s' = (storeRefWrite s r .ok).2) (hcut : CutWrite s r .ok t)
      : Stops d op { s with refs := t }

-- The device and what is owed after a run.
def liveRun (d : Device) (owed : Bool) : List LiveOp → Device × Bool
  | [] => (d, owed)
  | op :: ops =>
    liveRun (op.exec touchCached d).2 ((op.exec touchCached d).1.owed owed) ops

-- The reports are those of the device without a cache. Stopped anywhere, storage shows a ref that is
-- owed as dirty, or the snapshot or refset that was under way has got through.
structure LiveLaw (d : Device) (ops : List LiveOp) : Prop where
  reports : answers touchCached d ops = answers touchThrough d ops
  ends : (liveRun d false ops).2 = true → DirtyAt (liveRun d false ops).1.store
  stops : ∀ pre op post, ops = pre ++ op :: post → (liveRun d false pre).2 = true →
    ∀ s, Stops (liveRun d false pre).1 op s → DirtyAt s
      ∨ storeRefRead s liveRef = storeRefRead (liveRun d false (pre ++ [op])).1.store liveRef
        ∧ (liveRun d false (pre ++ [op])).2 = false

variable {d : Device} {owed : Bool}

-- What is in the cache and owed is dirty, in the cache and in storage.
structure Owing (d : Device) (owed : Bool) : Prop where
  cached : Cached d
  ahead : ∀ c, d.liveCache = some c → c.dirty = true → DirtyAt d.store
  stored : owed = true → DirtyAt d.store
  cache : owed = true → ∀ c, d.liveCache = some c → c.dirty = true

theorem dirtyAt_congr {s s' : Store} (h : s'.refs = s.refs) (hdirty : DirtyAt s) : DirtyAt s' := by
  rcases hdirty with ⟨r, hread, hr⟩
  refine ⟨r, ?_, hr⟩
  rw [← hread]
  apply storeRefRead_congr
  rw [h]

theorem dirtyAt_written {s : Store} {r : Ref} (h : LiveStored s) (hr : LiveNamed r)
    (hdirty : r.dirty = true) : DirtyAt (storeRefWrite s r .ok).2 :=
  ⟨r, read_written h hr, hdirty⟩

theorem Owing.through (h : Owing d owed) (howed : owed = true) : DirtyAt (through d).store := by
  cases hcache : d.liveCache with
  | none =>
    rw [through_of_none hcache]
    exact h.stored howed
  | some c =>
    rw [through_of_some hcache]
    exact dirtyAt_written h.cached.stored (h.cached.named c hcache) (h.cache howed c hcache)

theorem Owing.of_outcome {rsp : LiveRsp} {d' : Device} (h : Owing d owed) (hout : Outcome d rsp d')
    : Owing d' (rsp.owed owed) := by
  have hstored := h.cached.through
  cases hout with
  | same hrsp heq =>
    rw [hrsp, heq]
    exact h
  | flushed hrsp hrefs hpid hcache =>
    rw [hrsp]
    refine ⟨⟨hstored.of_refs hrefs hpid, ?_⟩, ?_, ?_, ?_⟩
    . intro c hc
      rw [hcache] at hc
      cases hc
    . intro c hc
      rw [hcache] at hc
      cases hc
    . intro howed
      exact dirtyAt_congr hrefs (h.through howed)
    . intro _ c hc
      rw [hcache] at hc
      cases hc
  | moved hrsp hrefs hpid hr hstore hcache =>
    rw [hrsp]
    have hwritten := (hstored.of_refs hrefs hpid).write hr
    rw [← hstore] at hwritten
    refine ⟨⟨hwritten, ?_⟩, ?_, by simp, by simp⟩
    . intro c hc
      rw [hcache] at hc
      cases hc
    . intro c hc
      rw [hcache] at hc
      cases hc

-- A touch writes the ref when it becomes dirty, and later touches find it so.
theorem Owing.touch (h : Owing d owed) (dirty : Bool)
    : Owing (touchCached d dirty).2 ((LiveRsp.touched (touchCached d dirty).1).owed owed) := by
  rcases h.cached.base with ⟨r, hbase, hr, _⟩
  have hr' := hr.touched dirty
  have hrsp : (LiveRsp.touched (touchCached d dirty).1).owed owed = dirty := by
    unfold touchCached
    rw [hbase]
    rfl
  have hdev : (touchCached d dirty).2 = { d with
      store := if dirty && !r.dirty then (storeRefWrite d.store (r.touched dirty) .ok).2 else d.store
      liveCache := some (r.touched dirty) } := by
    unfold touchCached liveRefTouch
    rw [hbase]
    rfl
  rw [hrsp, hdev]
  have hbefore : r.dirty = true → DirtyAt d.store := by
    intro hdirty
    cases hcache : d.liveCache with
    | none =>
      rw [hcache] at hbase
      exact ⟨r, hbase, hdirty⟩
    | some c =>
      rw [hcache] at hbase
      cases hbase
      exact h.ahead r hcache hdirty
  have hafter : dirty = true → DirtyAt
      (if dirty && !r.dirty then (storeRefWrite d.store (r.touched dirty) .ok).2 else d.store) := by
    intro hdirty
    split
    . exact dirtyAt_written h.cached.stored hr' hdirty
    next hkept =>
      apply hbefore
      simpa [hdirty] using hkept
  have hstored : LiveStored
      (if dirty && !r.dirty then (storeRefWrite d.store (r.touched dirty) .ok).2 else d.store) := by
    split
    . exact h.cached.stored.write hr'
    . exact h.cached.stored
  refine ⟨⟨hstored, ?_⟩, ?_, hafter, ?_⟩
  . intro c hc
    cases hc
    exact hr'
  . intro c hc hdirty
    cases hc
    exact hafter hdirty
  . intro hdirty c hc
    cases hc
    exact hdirty

theorem Owing.exec (h : Owing d owed) {op : LiveOp} (hop : op.OnLive)
    : Owing (op.exec touchCached d).2 ((op.exec touchCached d).1.owed owed) := by
  by_cases htouch : ∃ dirty, op = .touch dirty
  . rcases htouch with ⟨dirty, rfl⟩
    exact h.touch dirty
  . apply h.of_outcome
    apply exec_outcome h.cached hop
    intro b hb
    exact htouch ⟨b, hb⟩

theorem Owing.images (h : Owing d owed) (howed : owed = true) {op : LiveOp} (hop : op.OnLive)
    {s : Store} (hs : s ∈ op.images d) : LiveStored s ∧ DirtyAt s := by
  have hstart : LiveStored d.store ∧ DirtyAt d.store := ⟨h.cached.stored, h.stored howed⟩
  have hflushed : LiveStored (Harp.through d).store ∧ DirtyAt (Harp.through d).store :=
    ⟨h.cached.through, h.through howed⟩
  cases op with
  | touch dirty =>
    rw [List.mem_singleton.mp hs]
    exact hstart
  | flush =>
    rw [List.mem_singleton.mp hs]
    exact hstart
  | refs body =>
    rw [List.mem_singleton.mp hs]
    exact hstart
  | snapshot shed body time =>
    dsimp only [LiveOp.images] at hs
    split at hs
    . rw [List.mem_singleton.mp hs]
      exact hstart
    . rw [List.mem_append, List.mem_pair] at hs
      rcases hs with (rfl | rfl) | hput
      . exact hstart
      . exact hflushed
      . rw [Option.mem_toList, Option.map_eq_some_iff] at hput
        rcases hput with ⟨r, _, rfl⟩
        have hrefs := engineSnapshotObjects_refs (Harp.through d).store (Harp.through d).pval r.hash
          (if (snapshotParse body).msg.isEmpty then none else some (snapshotParse body).msg) time snapOk
        have hpid := engineSnapshotObjects_pid (Harp.through d).store (Harp.through d).pval r.hash
          (if (snapshotParse body).msg.isEmpty then none else some (snapshotParse body).msg) time snapOk
        exact ⟨hflushed.1.of_refs hrefs hpid, dirtyAt_congr hrefs hflushed.2⟩
  | refset body =>
    dsimp only [LiveOp.images] at hs
    rw [refsetFlush_live hop] at hs
    split at hs
    . rw [List.mem_singleton.mp hs]
      exact hstart
    . rw [List.mem_pair] at hs
      rcases hs with rfl | rfl
      . exact hstart
      . exact hflushed

theorem Owing.stops (h : Owing d owed) (howed : owed = true) {op : LiveOp} (hop : op.OnLive)
    {s : Store} (hs : Stops d op s)
    : DirtyAt s ∨ storeRefRead s liveRef = storeRefRead (op.exec touchCached d).2.store liveRef
        ∧ (op.exec touchCached d).1.owed owed = false := by
  cases hs with
  | between hmem => exact .inl (h.images howed hop hmem).2
  | @within s s' r t hmem hnext hr hwrite hcut =>
    rcases h.images howed hop hmem with ⟨hstored, r₀, hread₀, hdirty₀⟩
    rcases cutWrite_read hr.name (fun _ _ => ⟨WriteIo.ok_keeps _, hr.alg⟩) hr.noDot (by decide)
      (by decide) hr.path.symm hcut with hold | hnew
    . exact .inl ⟨r₀, hold.trans hread₀, hdirty₀⟩
    . have hread : storeRefRead { s with refs := t } liveRef = storeRefRead s' liveRef := by
        rw [hnew, hwrite, read_written hstored hr]
      have hkept : DirtyAt s' → DirtyAt { s with refs := t } := by
        rintro ⟨r₁, hread₁, hdirty₁⟩
        exact ⟨r₁, hread.trans hread₁, hdirty₁⟩
      rcases hnext with hmem' | rfl
      . exact .inl (hkept (h.images howed hop hmem').2)
      . cases howed' : (op.exec touchCached d).1.owed owed with
        | true => exact .inl (hkept ((h.exec hop).stored howed'))
        | false => exact .inr ⟨hread, rfl⟩

theorem liveRun_concat (d : Device) (owed : Bool) (pre : List LiveOp) (op : LiveOp)
    : liveRun d owed (pre ++ [op])
        = ((op.exec touchCached (liveRun d owed pre).1).2,
          (op.exec touchCached (liveRun d owed pre).1).1.owed (liveRun d owed pre).2) := by
  induction pre generalizing d owed with
  | nil => rfl
  | cons op' pre ih => exact ih _ _

theorem Owing.run (h : Owing d owed) {ops : List LiveOp} (hops : ∀ op ∈ ops, op.OnLive)
    : Owing (liveRun d owed ops).1 (liveRun d owed ops).2 := by
  induction ops generalizing d owed with
  | nil => exact h
  | cons op ops ih =>
    rw [List.forall_mem_cons] at hops
    exact ih (h.exec hops.1) hops.2

theorem answers_through (h : Owing d owed) {ops : List LiveOp} (hops : ∀ op ∈ ops, op.OnLive)
    : answers touchThrough (through d) ops = answers touchCached d ops := by
  induction ops generalizing d owed with
  | nil => rfl
  | cons op ops ih =>
    rw [List.forall_mem_cons] at hops
    unfold answers
    rw [exec_refines h.cached hops.1]
    dsimp only
    rw [ih (h.exec hops.1) hops.2]

theorem liveLaw (d : Device) (ops : List LiveOp) (hstored : LiveStored d.store)
    (hcache : d.liveCache = none) (hops : ∀ op ∈ ops, op.OnLive) : LiveLaw d ops := by
  have hnone : ∀ c, d.liveCache ≠ some c := by
    intro c hc
    rw [hcache] at hc
    cases hc
  have hstart : Owing d false :=
    ⟨⟨hstored, fun c hc => absurd hc (hnone c)⟩, fun c hc => absurd hc (hnone c), by simp, by simp⟩
  constructor
  . have hanswers := answers_through hstart hops
    rw [through_of_none hcache] at hanswers
    exact hanswers.symm
  . exact (hstart.run hops).stored
  . rintro pre op post rfl howed s hs
    have hpre : ∀ op ∈ pre, op.OnLive := fun op' hop' => hops op' (List.mem_append_left _ hop')
    have hop : op.OnLive := hops op (by simp)
    rw [liveRun_concat]
    exact (hstart.run hpre).stops howed hop hs

-- Two touches, a look at the refs, one more touch and a snapshot.
def touchedOps : List LiveOp :=
  [.touch true, .touch true, .refs none, .touch true,
    .snapshot false (some (cborMap 1 ++ cborUint 0 ++ cborText liveRef)) 0]

theorem liveStored_blank : LiveStored blankDevice.store := by
  refine ⟨⟨true, rfl⟩, ?_, .inl ?_, ?_⟩
  . intro readable data h
    cases h
  . rfl
  . intro l h
    cases h

theorem liveLaw_touchedOps : LiveLaw blankDevice touchedOps := by
  apply liveLaw blankDevice touchedOps liveStored_blank rfl
  intro op hop
  simp only [touchedOps, List.mem_cons, List.not_mem_nil, or_false] at hop
  rcases hop with rfl | rfl | rfl | rfl | rfl <;> trivial

end Crash

end Harp
