import Harp.Device.RefsetAtomic
import Harp.Device.Retention
import Harp.Device.Threads

/-!
This module contains the contract of the live ref under interleaving: the stored ref and the cached
one both carry the hash last written, and a touch since then shows as dirty.
-/

namespace Harp

open Runs

structure NoLostUpdate (m : Machine) : Prop where
  stored : ∃ r, storedAt m.dev.store livePath = some r ∧ r.hash = m.last
  seen : ∃ r, currentAt m.dev livePath = some r ∧ r.hash = m.last ∧ (m.touched = true → r.dirty = true)

section Guard

def Op.flushes : Op → Bool
  | .flush => true
  | .snapshot _ => true
  | .refset body => (refsetParse body).refname = liveRef
  | _ => false

def Pc.flushes : Pc → Bool
  | .revertFlush _ => true
  | .revertSnap _ => true
  | .revertFlush2 _ => true
  | _ => false

-- The ref that a touch writes, unless it is dirty already.
def touchWrite (d : Device) : Option Ref :=
  match d.liveCache <|> storeRefRead d.store liveRef with
  | some r => if r.dirty then none else some { r with generation := r.generation + 1, dirty := true }
  | none => none

-- How the write of a new hash ends.
def Pc.hashIo (pc : Pc) (io : StepIo) : WriteIo :=
  match pc with
  | .snapLocked _ _ => io.snap.ref
  | _ => io.write

-- No write-back fails, no new hash is written while the cache still holds an older ref, and nothing is
-- lost of a live ref that is written.
def Quiet (m : Machine) (a : Act) : Prop :=
  match a with
  | .start _ op io => (op.flushes = true → FlushOk m.dev io.write)
      ∧ (op.isTouch = true → ∀ r, touchWrite m.dev = some r → io.write.keeps (refEncode r) = true)
  | .go t io => ((m.pc t).flushes = true → FlushOk m.dev io.write)
      ∧ ∀ r, hashWrite m.dev (m.pc t) io = some r → comps r.name = comps liveRef →
          m.dev.liveCache = none ∧ ((m.pc t).hashIo io).keeps (refEncode r) = true

-- The device after its boot: the live ref is stored under its own name.
structure Booted (m : Machine) : Prop where
  idle : ∀ t, m.pc t = .idle
  cache : m.dev.liveCache = none
  born : ∃ r, storedAt m.dev.store livePath = some r ∧ comps r.name = livePath ∧ r.hash = m.last
  untouched : m.touched = false

end Guard

section Live

variable {d : Device} {last : Option Hash} {touched : Bool}

structure LiveInv (d : Device) (last : Option Hash) (touched : Bool) : Prop where
  stored : ∃ r, storedAt d.store livePath = some r ∧ comps r.name = livePath ∧ r.hash = last
    ∧ (d.liveCache = none → touched = true → r.dirty = true)
  cached : ∀ c, d.liveCache = some c → comps c.name = livePath ∧ c.algOk = true ∧ c.hash = last
    ∧ (touched = true → c.dirty = true)

theorem LiveInv.of_storedAt {d' : Device} (h : LiveInv d last touched)
    (hcache : d'.liveCache = d.liveCache)
    (hread : storedAt d'.store livePath = storedAt d.store livePath) : LiveInv d' last touched := by
  constructor
  . rw [hread, hcache]
    exact h.stored
  . rw [hcache]
    exact h.cached

theorem LiveInv.flush (h : LiveInv d last touched) {io : WriteIo} (hok : FlushOk d io)
    : LiveInv (liveCacheFlush d io) last touched := by
  cases hcache : d.liveCache with
  | none =>
    have hsame : liveCacheFlush d io = d := by
      unfold liveCacheFlush
      rw [hcache]
    rw [hsame]
    exact h
  | some c =>
    have hflush : liveCacheFlush d io
        = { d with store := (storeRefWrite d.store c io).2, liveCache := none } := by
      unfold liveCacheFlush
      rw [hcache]
    rcases h.cached c hcache with ⟨hname, halg, hhash, hdirty⟩
    rw [hflush]
    constructor
    . refine ⟨c, ?_, hname, hhash, fun _ => hdirty⟩
      exact storedAt_write_live halg (hok c hcache).1 (hok c hcache).2 hname
    . intro c' hc'
      cases hc'

theorem LiveInv.touch (h : LiveInv d last touched) {io : WriteIo}
    (hkeeps : ∀ r, touchWrite d = some r → io.keeps (refEncode r) = true)
    : LiveInv (liveRefTouch d true io) last true := by
  rcases h.stored with ⟨r, hread, hname, hhash, _⟩
  -- the ref that is bumped, from the cache or from the file
  have hbase : ∃ c, (d.liveCache <|> storeRefRead d.store liveRef) = some c
      ∧ comps c.name = livePath ∧ c.algOk = true ∧ c.hash = last := by
    cases hcache : d.liveCache with
    | none => exact ⟨r, by simp [storeRefRead_liveRef hread], hname, storedAt_algOk hread, hhash⟩
    | some c =>
      rcases h.cached c hcache with ⟨hcname, halg, hchash, _⟩
      exact ⟨c, rfl, hcname, halg, hchash⟩
  rcases hbase with ⟨c, hbase, hcname, halg, hchash⟩
  unfold touchWrite at hkeeps
  unfold liveRefTouch
  rw [hbase] at hkeeps ⊢
  dsimp only at hkeeps ⊢
  constructor
  . dsimp only
    split
    next htransition =>
      have hclean : c.dirty = false := by simpa using htransition
      by_cases hw : (storeRefWrite d.store { c with generation := c.generation + 1, dirty := true }
        io).1 = true
      . have hwhole := hkeeps _ (if_neg (by simp [hclean]))
        have halg' : ({ c with generation := c.generation + 1, dirty := true } : Ref).algOk = true :=
          halg
        refine ⟨_, storedAt_write_live halg' hw hwhole hcname, hcname, hchash, ?_⟩
        intro hnone
        contradiction
      . rw [Bool.not_eq_true] at hw
        rw [storedAt_write_other (.inl hw)]
        refine ⟨r, hread, hname, hhash, ?_⟩
        intro hnone
        contradiction
    . refine ⟨r, hread, hname, hhash, ?_⟩
      intro hnone
      contradiction
  . intro c' hc'
    cases hc'
    exact ⟨hcname, halg, hchash, fun _ => rfl⟩

-- The write of an operation: either it moves the live ref, or the live ref stays as it is.
theorem LiveInv.write_other (h : LiveInv d last touched) {r : Ref} {io : WriteIo}
    (hw : (storeRefWrite d.store r io).1 = false ∨ comps r.name ≠ livePath)
    : LiveInv { d with store := (storeRefWrite d.store r io).2 } last touched :=
  h.of_storedAt rfl (storedAt_write_other hw)

theorem LiveInv.write_live {r : Ref} {io : WriteIo} (halg : r.algOk = true)
    (hw : (storeRefWrite d.store r io).1 = true) (hname : comps r.name = livePath)
    (hsafe : d.liveCache = none ∧ io.keeps (refEncode r) = true)
    : LiveInv { d with store := (storeRefWrite d.store r io).2 } r.hash false := by
  constructor
  . refine ⟨r, storedAt_write_live halg hw hsafe.2 hname, hname, rfl, ?_⟩
    intro _ htouched
    contradiction
  . intro c hc
    rw [hsafe.1] at hc
    contradiction

end Live

section Snapshot

variable {d : Device} {last : Option Hash} {touched : Bool}

-- The locked section of a snapshot either leaves the live ref or moves it to the new hash.
theorem LiveInv.snapshotLocked (h : LiveInv d last touched) (msg : Option Bytes) (time : Nat)
    (io : SnapIo)
    : ∃ r, storeRefRead d.store liveRef = some r
        ∧ (((snapshotLocked d msg time io).1 = none
            ∧ LiveInv (snapshotLocked d msg time io).2 last touched)
          ∨ ∃ snap generation, (snapshotLocked d msg time io).1 = some (snap, generation)
            ∧ comps r.name = livePath
            ∧ (d.liveCache = none ∧ io.ref.keeps (refEncode (r.moved snap)) = true →
              LiveInv (snapshotLocked d msg time io).2 (some snap) false)) := by
  rcases h.stored with ⟨r, hread, hname, _, _⟩
  have hlive := storeRefRead_liveRef hread
  refine ⟨r, hlive, ?_⟩
  unfold Harp.snapshotLocked
  rw [hlive]
  dsimp only
  have hrefs := engineSnapshotObjects_refs d.store d.pval r.hash msg time io
  split
  next store hobj =>
    rw [hobj] at hrefs
    refine .inl ⟨rfl, h.of_storedAt rfl ?_⟩
    apply storedAt_congr
    rw [hrefs]
  next snap store hobj =>
    rw [hobj] at hrefs
    have halg := Ref.moved_algOk_of_alg (engineSnapshotObjects_alg hobj) r
    have hsame : storedAt store livePath = storedAt d.store livePath := by
      apply storedAt_congr
      rw [hrefs]
    have hput : LiveInv { d with store } last touched := h.of_storedAt rfl hsame
    split
    next store' hw =>
      have hw' : (storeRefWrite store (r.moved snap) io.ref) = (false, store') := hw
      have hother := hput.write_other (.inl (by rw [hw']))
      rw [hw'] at hother
      exact .inl ⟨rfl, hother⟩
    next store' hw =>
      have hw' : (storeRefWrite store (r.moved snap) io.ref) = (true, store') := hw
      refine .inr ⟨snap, _, rfl, hname, ?_⟩
      intro hsafe
      have hmoved := LiveInv.write_live (d := { d with store }) halg (by rw [hw']) hname hsafe
      rw [hw'] at hmoved
      exact hmoved

end Snapshot

section Machine

-- Every hash a thread is about to write carries the known algorithm byte.
def Pc.algOk : Pc → Prop
  | .snapLocked _ (some src) => src.algOk = true
  | .refsetRead _ newh => newh.b.head? = some 0x01
  | .refsetChecks _ newh _ => newh.b.head? = some 0x01
  | .refsetWrite _ newh _ => newh.b.head? = some 0x01
  | .revertFlush src => src.algOk = true
  | .revertRead src => src.algOk = true
  | .revertSnap src => src.algOk = true
  | .revertLoad src => src.algOk = true
  | .revertFlush2 src => src.algOk = true
  | .revertRead2 src => src.algOk = true
  | .revertWrite src _ => src.algOk = true
  | _ => True

structure MachineInv (m : Machine) : Prop where
  live : LiveInv m.dev m.last m.touched
  alg : ∀ t, (m.pc t).algOk

theorem algOk_setPc {pc : Thread → Pc} (h : ∀ t, (pc t).algOk) (t : Thread) {p : Pc} (hp : p.algOk)
    (t' : Thread) : (setPc pc t p t').algOk := by
  unfold setPc
  split
  . exact hp
  . exact h t'

theorem startOp_inv {d : Device} {last : Option Hash} {touched : Bool} (h : LiveInv d last touched)
    (op : Op) (io : StepIo) (hok : op.flushes = true → FlushOk d io.write)
    (hkeeps : op.isTouch = true → ∀ r, touchWrite d = some r → io.write.keeps (refEncode r) = true)
    : LiveInv (startOp d op io).1 last (touched || op.isTouch) ∧ (startOp d op io).2.algOk := by
  cases op with
  | touch =>
    have hbool : (touched || Op.touch.isTouch) = true := by simp [Op.isTouch]
    rw [hbool]
    exact ⟨h.touch (hkeeps rfl), trivial⟩
  | flush =>
    have hbool : (touched || Op.flush.isTouch) = touched := by simp [Op.isTouch]
    rw [hbool]
    exact ⟨h.flush (hok rfl), trivial⟩
  | snapshot msg =>
    have hbool : (touched || (Op.snapshot msg).isTouch) = touched := by simp [Op.isTouch]
    rw [hbool]
    exact ⟨h.flush (hok rfl), trivial⟩
  | refset body =>
    have hbool : (touched || (Op.refset body).isTouch) = touched := by simp [Op.isTouch]
    rw [hbool]
    unfold startOp
    dsimp only
    split
    . exact ⟨h, trivial⟩
    next newh hnewh =>
      split
      . exact ⟨h, trivial⟩
      . refine ⟨?_, refsetParse_newhOk body newh hnewh⟩
        dsimp only
        by_cases hlit : (refsetParse body).refname = liveRef
        . rw [refsetFlush_of_eq hlit]
          apply h.flush
          apply hok
          simp [Op.flushes, hlit]
        . rw [refsetFlush_of_ne hlit]
          exact h
  | revert refname =>
    have hbool : (touched || (Op.revert refname).isTouch) = touched := by simp [Op.isTouch]
    rw [hbool]
    unfold startOp
    dsimp only
    split
    . exact ⟨h, trivial⟩
    next src hsrc =>
      split
      . exact ⟨h, trivial⟩
      . exact ⟨h, storeRefRead_algOk hsrc⟩

-- What the observer makes of a step: a hash written to the live path is the last one.
def observe (d : Device) (pc : Pc) (io : StepIo) (last : Option Hash) (touched : Bool)
    : Option Hash × Bool :=
  match hashWrite d pc io with
  | some r => if comps r.name = comps liveRef then (r.hash, false) else (last, touched)
  | none => (last, touched)

theorem observe_of_none {d : Device} {pc : Pc} {io : StepIo} (h : hashWrite d pc io = none)
    (last : Option Hash) (touched : Bool) : observe d pc io last touched = (last, touched) := by
  unfold observe
  rw [h]

theorem refWrite_inv {d : Device} {last : Option Hash} {touched : Bool} {pc : Pc} {io : StepIo}
    {r : Ref} (h : LiveInv d last touched) (halg : r.algOk = true)
    (hwrite : hashWrite d pc io = if (storeRefWrite d.store r io.write).1 then some r else none)
    (hsafe : ∀ r, hashWrite d pc io = some r → comps r.name = comps liveRef →
      d.liveCache = none ∧ io.write.keeps (refEncode r) = true)
    : LiveInv { d with store := (storeRefWrite d.store r io.write).2 }
        (observe d pc io last touched).1 (observe d pc io last touched).2 := by
  cases hw : (storeRefWrite d.store r io.write).1 with
  | false =>
    rw [hw, if_neg Bool.false_ne_true] at hwrite
    rw [observe_of_none hwrite]
    exact h.write_other (.inl hw)
  | true =>
    rw [hw, if_pos rfl] at hwrite
    unfold observe
    rw [hwrite]
    dsimp only
    split
    next hname => exact LiveInv.write_live halg hw hname (hsafe r hwrite hname)
    next hname => exact h.write_other (.inr hname)

theorem continueOp_inv {d : Device} {last : Option Hash} {touched : Bool} (h : LiveInv d last touched)
    {pc : Pc} (hpc : pc.algOk) (io : StepIo) (hok : pc.flushes = true → FlushOk d io.write)
    (hsafe : ∀ r, hashWrite d pc io = some r → comps r.name = comps liveRef →
      d.liveCache = none ∧ (pc.hashIo io).keeps (refEncode r) = true)
    : LiveInv (continueOp d pc io).1 (observe d pc io last touched).1
          (observe d pc io last touched).2
        ∧ (continueOp d pc io).2.algOk := by
  cases pc with
  | idle => exact ⟨h, trivial⟩
  | snapLocked msg revert =>
    rcases h.snapshotLocked msg io.time io.snap with ⟨r, hread, hsnap⟩
    rcases hlocked : snapshotLocked d msg io.time io.snap with ⟨res, d'⟩
    rw [hlocked] at hsnap
    rcases hsnap with ⟨hnone, hinv⟩ | ⟨snap, generation, hsome, hname, hinv⟩
    . dsimp only at hnone
      subst hnone
      have hwrite : hashWrite d (.snapLocked msg revert) io = none := by
        simp [hashWrite, hread, hlocked]
      have hcont : continueOp d (.snapLocked msg revert) io = (d', .idle) := by
        simp only [continueOp, hlocked]
      rw [observe_of_none hwrite, hcont]
      exact ⟨hinv, trivial⟩
    . dsimp only at hsome
      subst hsome
      have hwrite : hashWrite d (.snapLocked msg revert) io = some (r.moved snap) := by
        simp [hashWrite, hread, hlocked]
      have hobserve : observe d (.snapLocked msg revert) io last touched = (some snap, false) := by
        unfold observe
        rw [hwrite]
        dsimp only
        rw [if_pos]
        . rfl
        . exact hname
      rw [hobserve]
      cases revert with
      | none =>
        have hcont : continueOp d (.snapLocked msg none) io = (d', .idle) := by
          simp only [continueOp, hlocked]
        rw [hcont]
        exact ⟨hinv (hsafe _ hwrite hname), trivial⟩
      | some src =>
        have hcont : continueOp d (.snapLocked msg (some src)) io = (d', .revertLoad src) := by
          simp only [continueOp, hlocked]
        rw [hcont]
        exact ⟨hinv (hsafe _ hwrite hname), hpc⟩
  | refsetRead q newh =>
    rw [observe_of_none rfl]
    unfold continueOp
    dsimp only
    split
    . exact ⟨h, trivial⟩
    . exact ⟨h, hpc⟩
  | refsetChecks q newh r =>
    rw [observe_of_none rfl]
    unfold continueOp
    dsimp only
    split
    . exact ⟨h, trivial⟩
    . exact ⟨h.of_storedAt rfl rfl, hpc⟩
  | refsetWrite q newh r =>
    refine ⟨refWrite_inv h (Ref.moved_algOk_of_alg hpc r) rfl hsafe, ?_⟩
    unfold continueOp
    dsimp only
    split <;> trivial
  | refsetGc refname =>
    rw [observe_of_none rfl]
    refine ⟨h.of_storedAt (maybeGc_liveCache d refname) ?_, trivial⟩
    exact storedAt_congr (fileAt_maybeGc outsideRetention_livePath d refname)
  | revertFlush src =>
    rw [observe_of_none rfl]
    exact ⟨h.flush (hok rfl), hpc⟩
  | revertRead src =>
    rw [observe_of_none rfl]
    unfold continueOp
    dsimp only
    split
    . exact ⟨h, trivial⟩
    . refine ⟨h, ?_⟩
      dsimp only
      split <;> exact hpc
  | revertSnap src =>
    rw [observe_of_none rfl]
    exact ⟨h.flush (hok rfl), hpc⟩
  | revertLoad src =>
    rw [observe_of_none rfl]
    unfold continueOp
    dsimp only
    split
    . exact ⟨h, trivial⟩
    . exact ⟨h.of_storedAt rfl rfl, hpc⟩
  | revertFlush2 src =>
    rw [observe_of_none rfl]
    exact ⟨h.flush (hok rfl), hpc⟩
  | revertRead2 src =>
    rw [observe_of_none rfl]
    exact ⟨h, hpc⟩
  | revertWrite src live =>
    exact ⟨refWrite_inv h (r := revertRef src live) hpc rfl hsafe, trivial⟩

theorem MachineInv.next {m : Machine} (h : MachineInv m) {a : Act} (hquiet : Quiet m a)
    : MachineInv (m.next a) := by
  cases a with
  | start t op io =>
    unfold Machine.next
    dsimp only
    split
    . rcases startOp_inv h.live op io hquiet.1 hquiet.2 with ⟨hlive, halg⟩
      exact ⟨hlive, algOk_setPc h.alg t halg⟩
    . exact h
  | go t io =>
    rcases continueOp_inv h.live (h.alg t) io hquiet.1 hquiet.2 with ⟨hlive, halg⟩
    have halg' := algOk_setPc h.alg t halg
    unfold observe at hlive
    unfold Machine.next
    dsimp only
    split
    next r hwrite =>
      rw [hwrite] at hlive
      dsimp only at hlive
      split
      next hname =>
        rw [if_pos hname] at hlive
        exact ⟨hlive, halg'⟩
      next hname =>
        rw [if_neg hname] at hlive
        exact ⟨hlive, halg'⟩
    next hwrite =>
      rw [hwrite] at hlive
      exact ⟨hlive, halg'⟩

theorem MachineInv.noLostUpdate {m : Machine} (h : MachineInv m) : NoLostUpdate m := by
  rcases h.live.stored with ⟨r, hread, _, hhash, hdirty⟩
  refine ⟨⟨r, hread, hhash⟩, ?_⟩
  cases hcache : m.dev.liveCache with
  | none =>
    rw [currentAt_of_none hcache]
    exact ⟨r, hread, hhash, hdirty hcache⟩
  | some c =>
    rcases h.live.cached c hcache with ⟨_, _, hchash, hcdirty⟩
    exact ⟨c, currentAt_live_of_some hcache, hchash, hcdirty⟩

theorem Booted.inv {m : Machine} (h : Booted m) : MachineInv m := by
  constructor
  . constructor
    . rcases h.born with ⟨r, hread, hname, hhash⟩
      refine ⟨r, hread, hname, hhash, ?_⟩
      intro _ htouched
      rw [h.untouched] at htouched
      contradiction
    . intro c hc
      rw [h.cache] at hc
      contradiction
  . intro t
    rw [h.idle]
    trivial

end Machine

theorem noLostUpdate_of_quiet {m m' : Machine} (hboot : Booted m)
    (hrun : Run Machine.next Quiet m m') : NoLostUpdate m' :=
  (hrun.inv hboot.inv (fun _ _ h hquiet => h.next hquiet)).noLostUpdate

section Interleaved

open Ieee

theorem length_fixedHash (b : UInt8) : (1 :: List.replicate 32 b).length = 33 := rfl

def fixedHash (b : UInt8) : Hash :=
  ⟨1 :: List.replicate 32 b, length_fixedHash b⟩

def fixedParams : Bytes :=
  objEncodeBlob paramsMedia (cborMap 1 ++ cborUint 1 ++ cborFloat (Fp.ofBits 0))

def fixedTree : Bytes :=
  (objEncodeTree [⟨ascii "params", fixedHash 4, objBlob⟩]).getD []

def fixedSnapshot : Bytes :=
  objEncodeSnapshot (fixedHash 3) [] 0 (ascii "device") engineVersion none

-- The live ref at one snapshot, and the objects of another.
def fixedStore : Store :=
  (storeRefWrite ⟨[7], [(hashHex (fixedHash 2), ⟨true, some fixedSnapshot, true⟩),
      (hashHex (fixedHash 3), ⟨true, some fixedTree, true⟩),
      (hashHex (fixedHash 4), ⟨true, some fixedParams, true⟩)], .dir true []⟩
    ⟨liveRef, some (fixedHash 1), 1, false⟩ .ok).2

def bootMachine : Machine where
  dev := ⟨fixedStore, none, factoryGrid, fun _ _ => Ramp.none, false, 0, none⟩
  pc := fun _ => .idle
  last := some (fixedHash 1)
  touched := false

theorem bootMachine_booted : Booted bootMachine := by
  refine ⟨fun _ => rfl, rfl, ?_, rfl⟩
  refine ⟨⟨liveRef, some (fixedHash 1), 1, false⟩, by decide +kernel, rfl, rfl⟩

def goodStep : StepIo :=
  ⟨.ok, ⟨.ok, .ok, .ok, .ok, .ok⟩, 0⟩

def moveLive : Op :=
  .refset (some (clientRefset liveRef (some (fixedHash 1)) (fixedHash 2) false false false))

def Act.io : Act → StepIo
  | .start _ _ io => io
  | .go _ io => io

theorem quiet_of_none {m : Machine} {a : Act} (hgood : a.io = goodStep) (h : m.dev.liveCache = none)
    : Quiet m a := by
  have hflush : ∀ io, FlushOk m.dev io := by
    intro io c hc
    rw [h] at hc
    contradiction
  cases a with
  | start t op io =>
    cases hgood
    exact ⟨fun _ => hflush .ok, fun _ r _ => WriteIo.ok_keeps _⟩
  | go t io =>
    cases hgood
    refine ⟨fun _ => hflush .ok, fun r _ _ => ⟨h, ?_⟩⟩
    cases m.pc t <;> exact WriteIo.ok_keeps _

def quietMove : List Act :=
  [.start .session moveLive goodStep, .go .session goodStep, .go .session goodStep,
    .go .session goodStep, .go .session goodStep, .start .panel .touch goodStep]

theorem noLostUpdate_quietMove
    : Booted bootMachine ∧ NoLostUpdate (quietMove.foldl Machine.next bootMachine) := by
  refine ⟨bootMachine_booted, noLostUpdate_of_quiet bootMachine_booted (.of_guarded _ .start ?_)⟩
  refine ⟨?_, ?_, ?_, ?_, ?_, ?_, trivial⟩ <;> apply quiet_of_none rfl <;> decide +kernel

-- The knob moves after the request has read the ref, and its cached ref is flushed last.
def lateTouch : List Act :=
  [.start .session moveLive goodStep, .go .session goodStep, .go .session goodStep,
    .start .panel .touch goodStep, .go .session goodStep, .go .session goodStep,
    .start .panel .flush goodStep]

theorem lateTouch_last : (lateTouch.foldl Machine.next bootMachine).last = some (fixedHash 2) := by
  decide +kernel

theorem lateTouch_stored
    : (storedAt (lateTouch.foldl Machine.next bootMachine).dev.store livePath).bind Ref.hash
        = some (fixedHash 1) := by
  decide +kernel

theorem not_noLostUpdate_lateTouch
    : ¬ ∀ m m', Booted m → Run Machine.next free m m' → NoLostUpdate m' := by
  intro h
  have hrun : Run Machine.next free bootMachine (lateTouch.foldl Machine.next bootMachine) :=
    .foldl lateTouch .start
  rcases (h _ _ bootMachine_booted hrun).stored with ⟨r, hread, hhash⟩
  have hstored := lateTouch_stored
  rw [hread, Option.bind_some, hhash, lateTouch_last] at hstored
  revert hstored
  decide

end Interleaved

end Harp
