import Harp.Device.LostUpdate
import Harp.Device.RefsetAtomic
import Harp.Device.LiveHead

/-!
This module contains the histories of the refs under `state.refset`, `state.snapshot` and
`live_ref_touch`: what an unforced refset has found, and how the generations go up.
-/

namespace Harp

inductive CasOp where
  | refset (body : Option Bytes) (io : RefsetIo)
  | snapshot (msg : Option Bytes) (time : Nat) (io : SnapIo)
  | touch (dirty : Bool) (io : WriteIo)

namespace CasOp

-- The device when the operation answers; the retention pass of a refset runs behind the answer.
def effect (d : Device) : CasOp → Device
  | .refset body io => (refsetRespond d body io).dev
  | .snapshot msg time io => (doSnapshot d msg time io).2
  | .touch dirty io => liveRefTouch d dirty io

def next (d : Device) : CasOp → Device
  | .refset body io => (handleStateRefset d body io).2
  | .snapshot msg time io => (doSnapshot d msg time io).2
  | .touch dirty io => liveRefTouch d dirty io

-- The ref a successful operation has changed, and the generation it reports for it.
def reported (d : Device) : CasOp → Option (List Comp × UInt64)
  | .refset body io =>
    match (refsetRespond d body io).rsp with
    | .ok generation => some (comps (refsetParse body).refname, generation)
    | _ => none
  | .snapshot msg time io => (doSnapshot d msg time io).1.map (fun out => (livePath, out.2))
  | .touch dirty io => (liveRefTouch d dirty io).liveCache.map (fun r => (livePath, r.generation))

end CasOp

def genAt (d : Device) (p : List Comp) : UInt64 :=
  ((currentAt d p).map Ref.generation).getD 0

-- An unforced refset that succeeds has found the ref clean and as expected.
def CasOp.CasHeld (d : Device) : CasOp → Prop
  | .refset body io =>
    let q := refsetParse body
    let r := (currentAt d (comps q.refname)).getD (Ref.unborn q.refname)
    q.force = false → (∃ generation, (refsetRespond d body io).rsp = .ok generation) →
      r.dirty = false
        ∧ ((∃ h, r.hash = some h ∧ q.expectNull = false ∧ q.expect = some h)
          ∨ (r.hash = none ∧ (q.expectNull = true ∨ q.create = true)))
  | _ => True

def CasOp.Advances (d : Device) (op : CasOp) : Prop :=
  ∀ p generation, op.reported d = some (p, generation) →
    (∃ r, currentAt (op.effect d) p = some r ∧ r.generation = generation)
      ∧ genAt d p < generation

def StepsHold (d : Device) : List CasOp → Prop
  | [] => True
  | op :: ops => op.CasHeld d ∧ op.Advances d ∧ StepsHold (op.next d) ops

-- Every state in which the refs can be reported.
def casTrace (d : Device) : List CasOp → List Device
  | [] => [d]
  | op :: ops => d :: op.effect d :: casTrace (op.next d) ops

def SameContent (p : List Comp) (x y : Device) : Prop :=
  ∀ r r', currentAt x p = some r → currentAt y p = some r' → r.generation = r'.generation →
    r.hash = r'.hash ∧ r.dirty = r'.dirty

def CasLaw (d : Device) (ops : List CasOp) : Prop :=
  StepsHold d ops ∧ ∀ p, (casTrace d ops).Pairwise (SameContent p)

-- The law as it holds with the retention pass, which deletes refs.
structure CasLawKept (d : Device) (ops : List CasOp) : Prop where
  steps : StepsHold d ops
  named : ∀ x ∈ casTrace d ops, ∀ p r, currentAt x p = some r → comps r.name = p
  outside : ∀ p, OutsideRetention p → (casTrace d ops).Pairwise (SameContent p)
  kept : ∀ p mid, mid <:+: casTrace d ops → (∀ x ∈ mid, currentAt x p ≠ none) →
    mid.Pairwise (SameContent p)

-- The live ref goes by its own name only, and no ref by the name of a temporary.
def CasOp.Direct (d : Device) : CasOp → Prop
  | .refset body _ =>
    (comps (refsetParse body).refname = livePath → (refsetParse body).refname = liveRef)
      ∧ ∀ p, comps (refsetParse body).refname ≠ tmpPath d.store.pid p
  | _ => True

def CasOp.FlushOk (d : Device) : CasOp → Prop
  | .refset body io => (refsetParse body).refname = liveRef → Harp.FlushOk d io.flush
  | .snapshot _ _ io => Harp.FlushOk d io.flush
  | .touch _ _ => True

-- The write of the operation loses no bytes unnoticed.
def CasOp.Lossless : CasOp → Prop
  | .refset _ io => io.write.lossless = true
  | .snapshot _ _ io => io.ref.lossless = true
  | .touch _ io => io.lossless = true

structure CasBoot (d : Device) : Prop where
  cache : d.liveCache = none
  named : WellNamed d.store
  noTmp : ∀ p, storedAt d.store (tmpPath d.store.pid p) = none

structure CasInv (d : Device) : Prop where
  named : WellNamed d.store
  cached : ∀ c, d.liveCache = some c → comps c.name = livePath ∧ c.algOk = true
  noTmp : ∀ p, storedAt d.store (tmpPath d.store.pid p) = none

theorem CasBoot.inv {d : Device} (h : CasBoot d) : CasInv d := by
  refine ⟨h.named, ?_, h.noTmp⟩
  intro c hc
  rw [h.cache] at hc
  contradiction

section Write

variable {s : Store} {r : Ref}

-- A write changes the ref at its own path or nothing.
theorem storedAt_write (hnoTmp : ∀ p, storedAt s (tmpPath s.pid p) = none) (halg : r.algOk = true)
    {io : WriteIo} (hkeeps : io.keeps (refEncode r) = true) (p : List Comp)
    : storedAt (storeRefWrite s r io).2 p
        = if (storeRefWrite s r io).1 = true ∧ p = comps r.name then some r else storedAt s p := by
  cases hw : (storeRefWrite s r io).1 with
  | true =>
    rw [storedAt_storeRefWrite_true hw halg hkeeps]
    simp only [true_and]
    split
    . rfl
    . split
      next htmp => rw [htmp, hnoTmp]
      next => rfl
  | false =>
    rw [if_neg (fun hand => Bool.false_ne_true hand.1)]
    by_cases htmp : p = tmpPath s.pid (comps r.name)
    . have hnone := storedAt_storeRefWrite_tmp s r io
      rw [hnoTmp, or_self] at hnone
      rw [htmp, hnone, hnoTmp]
    . apply storedAt_storeRefWrite_false hw p htmp

theorem noTmp_write (hnoTmp : ∀ p, storedAt s (tmpPath s.pid p) = none) (halg : r.algOk = true)
    (hpath : ∀ p, comps r.name ≠ tmpPath s.pid p) {io : WriteIo}
    (hkeeps : io.keeps (refEncode r) = true) (p : List Comp)
    : storedAt (storeRefWrite s r io).2 (tmpPath (storeRefWrite s r io).2.pid p) = none := by
  rw [storeRefWrite_pid, storedAt_write hnoTmp halg hkeeps, if_neg]
  . apply hnoTmp
  . intro hand
    apply hpath p
    rw [hand.2]

theorem CasInv.write {d : Device} (h : CasInv d) (halg : r.algOk = true)
    (hpath : ∀ p, comps r.name ≠ tmpPath d.store.pid p) (pval : Grid) {io : WriteIo}
    (hkeeps : io.keeps (refEncode r) = true)
    : CasInv { d with store := (storeRefWrite d.store r io).2, pval } := by
  constructor
  . apply h.named.storeRefWrite
  . apply h.cached
  . apply noTmp_write h.noTmp halg hpath hkeeps

end Write

theorem live_ne_tmpPath {r : Ref} (h : comps r.name = livePath) (pid : List (Fin 10))
    (p : List Comp) : comps r.name ≠ tmpPath pid p := by
  rw [h]
  apply Ne.symm
  apply tmpPath_ne_livePath

-- An operation that reports nothing has changed no ref; one that reports a ref has changed it only.
inductive Effect (d d' : Device) : Option (List Comp × UInt64) → Prop where
  | calm (hsame : ∀ p, currentAt d' p = currentAt d p) : Effect d d' none
  | moved {t : List Comp} {r : Ref} (hr : currentAt d' t = some r)
      (hgen : r.generation = genAt d t + 1) (hother : ∀ p, p ≠ t → currentAt d' p = currentAt d p)
      : Effect d d' (some (t, r.generation))

theorem Effect.congr {d d₁ d' : Device} {o : Option (List Comp × UInt64)}
    (hsame : ∀ p, currentAt d₁ p = currentAt d p) (h : Effect d₁ d' o) : Effect d d' o := by
  cases h with
  | calm h =>
    apply Effect.calm
    intro p
    rw [h, hsame]
  | moved hr hgen hother =>
    apply Effect.moved hr
    . rw [hgen]
      unfold genAt
      rw [hsame]
    . intro p hp
      rw [hother p hp, hsame]

section Ops

variable {d : Device}

theorem CasInv.flush (h : CasInv d) {io : WriteIo} (hok : FlushOk d io)
    : CasInv (liveCacheFlush d io) ∧ ∀ p, currentAt (liveCacheFlush d io) p = currentAt d p := by
  unfold liveCacheFlush
  cases hcache : d.liveCache with
  | none =>
    constructor
    . apply h
    . intro p
      rfl
  | some c =>
    rcases h.cached c hcache with ⟨hname, halg⟩
    have hpath := live_ne_tmpPath hname d.store.pid
    constructor
    . refine ⟨h.named.storeRefWrite io, ?_, noTmp_write h.noTmp halg hpath (hok c hcache).2⟩
      intro c' hc'
      cases hc'
    . intro p
      rw [currentAt_of_none rfl]
      dsimp only
      rw [storedAt_write h.noTmp halg (hok c hcache).2, hname, (hok c hcache).1]
      unfold currentAt
      rw [hcache]
      simp only [true_and]

-- The ref an operation on the live ref starts from.
theorem CasInv.read_live (h : CasInv d) (hcache : d.liveCache = none) {r : Ref}
    (hread : storeRefRead d.store liveRef = some r)
    : comps r.name = livePath ∧ r.algOk = true ∧ r.generation = genAt d livePath := by
  rcases h.named.read_live hread with ⟨hname, halg, _⟩
  refine ⟨hname, halg, ?_⟩
  have hr := storeRefRead_eq_storedAt hread (by decide)
  unfold genAt
  rw [currentAt_of_none hcache, hr]
  have hpath : comps liveRef = livePath := rfl
  rw [hpath]
  cases storedAt d.store livePath <;> rfl

theorem CasInv.touch (h : CasInv d) (dirty : Bool) {io : WriteIo} (hio : io.lossless = true)
    : CasInv (liveRefTouch d dirty io)
        ∧ Effect d (liveRefTouch d dirty io) (CasOp.reported d (.touch dirty io)) := by
  unfold CasOp.reported
  dsimp only
  unfold liveRefTouch
  split
  next hbase =>
    have hcache : d.liveCache = none := by
      cases hcache : d.liveCache with
      | none => rfl
      | some c =>
        rw [hcache] at hbase
        cases hbase
    constructor
    . apply h
    . rw [hcache]
      apply Effect.calm
      intro p
      rfl
  next r hbase =>
    have hr : comps r.name = livePath ∧ r.algOk = true ∧ r.generation = genAt d livePath := by
      cases hcache : d.liveCache with
      | none =>
        rw [hcache] at hbase
        apply h.read_live hcache hbase
      | some c =>
        rw [hcache] at hbase
        cases hbase
        rcases h.cached r hcache with ⟨hname, halg⟩
        refine ⟨hname, halg, ?_⟩
        unfold genAt
        rw [currentAt_live_of_some hcache]
        rfl
    rcases hr with ⟨hname, halg, hgen⟩
    dsimp only
    generalize hr' : ({ r with generation := r.generation + 1, dirty := dirty } : Ref) = r'
    have hname' : comps r'.name = livePath := by
      rw [← hr']
      exact hname
    have halg' : r'.algOk = true := by
      rw [← hr']
      exact halg
    have hgen' : r'.generation = genAt d livePath + 1 := by
      rw [← hr', ← hgen]
    have hpath := live_ne_tmpPath hname' d.store.pid
    have hread : ∀ p, p ≠ livePath →
        storedAt (if (dirty && !r.dirty) = true then (storeRefWrite d.store r' io).2 else d.store) p
          = storedAt d.store p := by
      intro p hp
      split
      . rw [storedAt_write h.noTmp halg' (WriteIo.keeps_of_lossless hio _), if_neg]
        intro hand
        rw [hname'] at hand
        apply hp hand.2
      . rfl
    constructor
    . constructor
      . dsimp only
        split
        . apply h.named.storeRefWrite
        . apply h.named
      . intro c hc
        cases hc
        exact ⟨hname', halg'⟩
      . dsimp only
        split
        . apply noTmp_write h.noTmp halg' hpath (WriteIo.keeps_of_lossless hio _)
        . apply h.noTmp
    . apply Effect.moved (currentAt_live_of_some rfl) hgen'
      intro p hp
      rw [currentAt_of_ne hp, currentAt_of_ne hp]
      apply hread p hp

theorem CasInv.of_refs (d' : Device) (h : CasInv d) (hcache : d'.liveCache = d.liveCache)
    (hrefs : d'.store.refs = d.store.refs) (hpid : d'.store.pid = d.store.pid)
    : CasInv d' ∧ ∀ p, currentAt d' p = currentAt d p := by
  have hread : ∀ p, storedAt d'.store p = storedAt d.store p := by
    intro p
    apply storedAt_congr
    rw [hrefs]
  constructor
  . constructor
    . intro p r hr
      rw [hread] at hr
      apply h.named p r hr
    . rw [hcache]
      apply h.cached
    . intro p
      rw [hread, hpid]
      apply h.noTmp
  . intro p
    unfold currentAt
    rw [hcache, hread]

-- A ref is written back one generation later, with no older value of it in the cache.
theorem CasInv.commit (h : CasInv d) {r : Ref} {newh : Hash} (halg : (r.moved newh).algOk = true)
    (hpath : ∀ p, comps r.name ≠ tmpPath d.store.pid p)
    (hcache : comps r.name = livePath → d.liveCache = none) {io : WriteIo}
    (hio : io.lossless = true)
    (hgen : (storeRefWrite d.store (r.moved newh) io).1 = true →
      r.generation = genAt d (comps r.name))
    (pval : Grid)
    : CasInv (d.commit (r.moved newh) pval io)
        ∧ Effect d (d.commit (r.moved newh) pval io)
          (if (storeRefWrite d.store (r.moved newh) io).1 then
            some (comps r.name, r.generation + 1) else none) := by
  have hkeeps := WriteIo.keeps_of_lossless hio (refEncode (r.moved newh))
  have hread := storedAt_write h.noTmp halg hkeeps
  have hname : (r.moved newh).name = r.name := rfl
  rw [hname] at hread
  constructor
  . apply h.write halg hpath pval hkeeps
  . cases hw : (storeRefWrite d.store (r.moved newh) io).1 with
    | false =>
      apply Effect.calm
      intro p
      apply currentAt_commit_of_storedAt
      rw [hread, hw, if_neg (fun hand => Bool.false_ne_true hand.1)]
    | true =>
      have hgen' : (r.moved newh).generation = genAt d (comps r.name) + 1 := by
        rw [← hgen hw]
        rfl
      rw [if_pos rfl]
      apply Effect.moved (r := r.moved newh) _ hgen'
      . intro p hp
        apply currentAt_commit_of_storedAt
        rw [hread, if_neg (fun hand => hp hand.2)]
      . rw [currentAt_of_live_none (d := d.commit (r.moved newh) pval io) hcache]
        unfold Device.commit
        rw [hread, hw, if_pos ⟨rfl, rfl⟩]

theorem CasInv.snapshot (h : CasInv d) (msg : Option Bytes) (time : Nat) {io : SnapIo}
    (hok : FlushOk d io.flush) (hio : io.ref.lossless = true)
    : CasInv (doSnapshot d msg time io).2
        ∧ Effect d (doSnapshot d msg time io).2 (CasOp.reported d (.snapshot msg time io)) := by
  rcases h.flush hok with ⟨hflush, hseen⟩
  have hcache := liveCacheFlush_liveCache d io.flush
  unfold CasOp.reported
  dsimp only
  unfold doSnapshot
  generalize liveCacheFlush d io.flush = d₁ at hflush hseen hcache
  unfold snapshotLocked
  split
  . refine ⟨hflush, ?_⟩
    apply Effect.calm
    exact hseen
  next r hread =>
    have hrefs := engineSnapshotObjects_refs d₁.store d₁.pval r.hash msg time io
    have hpid := engineSnapshotObjects_pid d₁.store d₁.pval r.hash msg time io
    split
    next store hobj =>
      rw [hobj] at hrefs hpid
      rcases hflush.of_refs { d₁ with store } rfl hrefs hpid with ⟨hinv, hsame⟩
      refine ⟨hinv, ?_⟩
      apply Effect.calm
      intro p
      rw [hsame, hseen]
    next snap store hobj =>
      rw [hobj] at hrefs hpid
      rcases hflush.of_refs { d₁ with store } rfl hrefs hpid with ⟨hinv, hsame⟩
      rcases hflush.read_live hcache hread with ⟨hname, _, hgen⟩
      have hgen' : r.generation = genAt { d₁ with store } (comps r.name) := by
        rw [hgen, hname]
        unfold genAt
        rw [hsame]
      have halg := Ref.moved_algOk_of_alg (engineSnapshotObjects_alg hobj) r
      rcases hinv.commit halg (live_ne_tmpPath hname _) (fun _ => hcache) hio (fun _ => hgen')
        d₁.pval with ⟨hcommit, heffect⟩
      unfold Device.commit at hcommit heffect
      rw [hname] at heffect
      dsimp only at hcommit heffect ⊢
      split
      next store' hw =>
        have hw' : storeRefWrite store (r.moved snap) io.ref = (false, store') := hw
        rw [hw'] at hcommit heffect
        exact ⟨hcommit, (heffect.congr hsame).congr hseen⟩
      next store' hw =>
        have hw' : storeRefWrite store (r.moved snap) io.ref = (true, store') := hw
        rw [hw'] at hcommit heffect
        exact ⟨hcommit, (heffect.congr hsame).congr hseen⟩

theorem CasInv.refsetFlush (h : CasInv d) {q : RefsetReq} {io : WriteIo}
    (hok : q.refname = liveRef → FlushOk d io)
    : CasInv (refsetFlush d q io) ∧ ∀ p, currentAt (refsetFlush d q io) p = currentAt d p := by
  unfold Harp.refsetFlush
  split
  next hlit => apply h.flush (hok hlit)
  next =>
    constructor
    . exact h
    . intro p
      rfl

-- The ref a request reads is the one that is seen under its name.
theorem read_refname {q : RefsetReq} {r : Ref}
    (hdirect : comps q.refname = livePath → d.liveCache = none)
    (hread : storeRefRead d.store q.refname = some r) (hdot : endsInDot q.refname = false)
    : r = (currentAt d (comps q.refname)).getD (Ref.unborn q.refname)
        ∧ r.generation = genAt d (comps q.refname) := by
  have hr := storeRefRead_eq_storedAt hread hdot
  unfold genAt
  rw [currentAt_of_live_none hdirect, hr]
  constructor
  . rfl
  . cases storedAt d.store (comps q.refname) <;> rfl

theorem CasInv.comps_read {q : RefsetReq} {r : Ref} (h : CasInv d)
    (hread : storeRefRead d.store q.refname = some r) : comps r.name = comps q.refname := by
  cases hdot : endsInDot q.refname with
  | true => rw [storeRefRead_of_endsInDot hread hdot, Ref.unborn]
  | false =>
    have hr := storeRefRead_eq_storedAt hread hdot
    cases hstored : storedAt d.store (comps q.refname) with
    | none => rw [hr, hstored, Option.getD_none, Ref.unborn]
    | some r' =>
      rw [hstored, Option.getD_some] at hr
      rw [hr]
      apply h.named _ _ hstored

theorem casHeld_of_casOk {q : RefsetReq} {r : Ref} (h : casOk q r = true) (hforce : q.force = false)
    : r.dirty = false
        ∧ ((∃ x, r.hash = some x ∧ q.expectNull = false ∧ q.expect = some x)
          ∨ (r.hash = none ∧ (q.expectNull = true ∨ q.create = true))) := by
  unfold casOk at h
  rw [hforce, Bool.false_or] at h
  cases hhash : r.hash with
  | none =>
    simp only [hhash, Bool.and_eq_true, Bool.or_eq_true, Bool.not_eq_true'] at h
    exact ⟨h.2, .inr ⟨rfl, h.1⟩⟩
  | some x =>
    simp only [hhash, Bool.and_eq_true, Bool.not_eq_true', beq_iff_eq] at h
    exact ⟨h.2, .inl ⟨x, rfl, h.1.1, h.1.2⟩⟩

theorem refsetFlush_pid (d : Device) (q : RefsetReq) (io : WriteIo)
    : (refsetFlush d q io).store.pid = d.store.pid := by
  unfold refsetFlush
  split
  . apply liveCacheFlush_pid
  . rfl

theorem CasInv.refset (h : CasInv d) {body : Option Bytes} {io : RefsetIo}
    (hdirect : CasOp.Direct d (.refset body io)) (hok : CasOp.FlushOk d (.refset body io))
    (hio : io.write.lossless = true)
    : CasInv (refsetRespond d body io).dev
        ∧ Effect d (refsetRespond d body io).dev (CasOp.reported d (.refset body io))
        ∧ CasOp.CasHeld d (.refset body io) := by
  rcases h.refsetFlush hok with ⟨hflush, hseen⟩
  have hexit := refsetRespond_exit d body io
  have hpid := refsetFlush_pid d (refsetParse body) io.flush
  have hnewh := refsetParse_newhOk body
  have hcache : comps (refsetParse body).refname = livePath →
      (Harp.refsetFlush d (refsetParse body) io.flush).liveCache = none := by
    intro hlive
    apply refsetFlush_liveCache_none
    apply hdirect.1 hlive
  have hpath := hdirect.2
  rw [← hpid] at hpath
  unfold CasOp.reported CasOp.CasHeld
  dsimp only
  generalize refsetRespond d body io = out at hexit ⊢
  generalize refsetParse body = q at *
  cases hexit with
  | malformed hbad =>
    refine ⟨h, ?_, ?_⟩
    . apply Effect.calm
      intro p
      rfl
    . rintro _ ⟨generation, hgen⟩
      cases hgen
  | @refused newh guards rsp hq hcheck =>
    have hne := (refsetCheck_error hcheck).1
    refine ⟨hflush, ?_, ?_⟩
    . dsimp only
      split
      next generation => exact absurd rfl (hne generation)
      next =>
        apply Effect.calm
        exact hseen
    . rintro _ ⟨generation, hgen⟩
      exact absurd hgen (hne generation)
  | @stored newh guards r pval hq hcheck hw =>
    have hpassed := refsetCheck_ok hcheck
    have hname := hflush.comps_read hpassed.read
    have hread := read_refname hcache hpassed.read (endsInDot_refname hpassed hw)
    rcases hflush.commit (Ref.moved_algOk hnewh hq.1 r) (by rw [hname]; exact hpath)
      (by rw [hname]; exact hcache) hio (by rw [hname]; exact fun _ => hread.2) pval
      with ⟨hinv, heffect⟩
    rw [hw, if_pos rfl, hname] at heffect
    refine ⟨hinv, heffect.congr hseen, ?_⟩
    intro hforce _
    have hheld := casHeld_of_casOk hpassed.cas hforce
    rw [hread.1, hseen] at hheld
    exact hheld
  | @failed newh guards r pval hq hcheck hw =>
    have hpassed := refsetCheck_ok hcheck
    have hname := hflush.comps_read hpassed.read
    rcases hflush.commit (Ref.moved_algOk hnewh hq.1 r) (by rw [hname]; exact hpath)
      (by rw [hname]; exact hcache) hio (by rw [hw]; exact fun hfalse => by contradiction) pval
      with ⟨hinv, heffect⟩
    rw [hw] at heffect
    refine ⟨hinv, heffect.congr hseen, ?_⟩
    rintro _ ⟨generation, hgen⟩
    cases hgen

theorem CasInv.maybeGc (h : CasInv d) (refname : Bytes) : CasInv (maybeGc d refname) := by
  have hsub : ∀ p r, storedAt (Harp.maybeGc d refname).store p = some r →
      storedAt d.store p = some r := by
    intro p r hr
    cases fileAt_maybeGc_sub d refname p with
    | inl hsame =>
      rw [storedAt_congr hsame] at hr
      exact hr
    | inr hnone =>
      unfold storedAt at hr
      rw [hnone] at hr
      contradiction
  constructor
  . apply h.named.of_subset hsub
  . rw [maybeGc_liveCache]
    apply h.cached
  . intro p
    rw [maybeGc_pid]
    cases hread : storedAt (Harp.maybeGc d refname).store (tmpPath d.store.pid p) with
    | none => rfl
    | some r =>
      have hold := hsub _ _ hread
      rw [h.noTmp] at hold
      contradiction

-- The retention pass deletes refs of its own namespaces and changes none.
theorem currentAt_maybeGc (d : Device) (refname : Bytes) (p : List Comp)
    : currentAt (maybeGc d refname) p = currentAt d p
        ∨ currentAt (maybeGc d refname) p = none ∧ ¬ OutsideRetention p := by
  by_cases hout : OutsideRetention p
  . apply Or.inl
    unfold currentAt
    rw [maybeGc_liveCache, storedAt_congr (fileAt_maybeGc hout d refname)]
  . have hlive : p ≠ livePath := by
      intro heq
      apply hout
      rw [heq]
      apply outsideRetention_livePath
    rw [currentAt_of_ne hlive, currentAt_of_ne hlive]
    cases fileAt_maybeGc_sub d refname p with
    | inl hsame =>
      apply Or.inl
      apply storedAt_congr hsame
    | inr hnone =>
      apply Or.inr
      refine ⟨?_, hout⟩
      unfold storedAt
      rw [hnone]

end Ops

-- What one operation does to the refs, up to its answer and behind it.
structure OpSpec (d : Device) (op : CasOp) : Prop where
  inv : CasInv (op.next d)
  effect : Effect d (op.effect d) (op.reported d)
  held : op.CasHeld d
  named : ∀ p r, currentAt (op.effect d) p = some r → comps r.name = p
  next : ∀ p, currentAt (op.next d) p = currentAt (op.effect d) p
    ∨ currentAt (op.next d) p = none ∧ ¬ OutsideRetention p

theorem CasInv.seen_named {d : Device} (h : CasInv d) {p : List Comp} {r : Ref}
    (hr : currentAt d p = some r) : comps r.name = p := by
  unfold currentAt at hr
  split at hr
  next hp =>
    split at hr
    next c hcache =>
      cases hr
      rw [hp]
      apply (h.cached _ hcache).1
    next => apply h.named p r hr
  next => apply h.named p r hr

def CasGuard (d : Device) (op : CasOp) : Prop :=
  op.Direct d ∧ op.FlushOk d ∧ op.Lossless

theorem CasInv.opSpec {d : Device} (h : CasInv d) {op : CasOp} (hguard : CasGuard d op)
    : OpSpec d op := by
  rcases hguard with ⟨hdirect, hok, hio⟩
  cases op with
  | touch dirty io =>
    rcases h.touch dirty hio with ⟨hinv, heffect⟩
    refine ⟨hinv, heffect, trivial, fun p r hr => hinv.seen_named hr, ?_⟩
    intro p
    exact .inl rfl
  | snapshot msg time io =>
    rcases h.snapshot msg time hok hio with ⟨hinv, heffect⟩
    refine ⟨hinv, heffect, trivial, fun p r hr => hinv.seen_named hr, ?_⟩
    intro p
    exact .inl rfl
  | refset body io =>
    rcases h.refset hdirect hok hio with ⟨hinv, heffect, hheld⟩
    refine ⟨?_, heffect, hheld, fun p r hr => hinv.seen_named hr, ?_⟩
    . unfold CasOp.next handleStateRefset
      dsimp only
      split
      . apply hinv.maybeGc
      . exact hinv
    . intro p
      unfold CasOp.next handleStateRefset CasOp.effect
      dsimp only
      split
      . apply currentAt_maybeGc
      . exact .inl rfl

section History

variable {p : List Comp} {x y z d : Device}

def Later (r r' : Ref) : Prop :=
  r' = r ∨ r.generation < r'.generation

-- From one state to the next a ref that stays is the same or of a later generation.
def Grows (p : List Comp) (x y : Device) : Prop :=
  ∀ r r', currentAt x p = some r → currentAt y p = some r' → Later r r'

def Stays (p : List Comp) (x y : Device) : Prop :=
  ∀ r, currentAt x p = some r → ∃ r', currentAt y p = some r' ∧ Later r r'

theorem Later.trans {r r' r'' : Ref} (h : Later r r') (h' : Later r' r'') : Later r r'' := by
  cases h with
  | inl h =>
    rw [← h]
    exact h'
  | inr h =>
    cases h' with
    | inl h' =>
      rw [h']
      exact .inr h
    | inr h' => exact .inr (UInt64.lt_trans h h')

theorem Stays.trans (h : Stays p x y) (h' : Stays p y z) : Stays p x z := by
  intro r hr
  rcases h r hr with ⟨r', hr', hlater⟩
  rcases h' r' hr' with ⟨r'', hr'', hlater'⟩
  exact ⟨r'', hr'', hlater.trans hlater'⟩

theorem Stays.sameContent (h : Stays p x y) : SameContent p x y := by
  intro r r' hr hr' hgen
  rcases h r hr with ⟨r'', hr'', hlater⟩
  rw [hr'] at hr''
  cases hr''
  cases hlater with
  | inl heq =>
    rw [heq]
    exact ⟨rfl, rfl⟩
  | inr hlt =>
    rw [hgen] at hlt
    exact absurd hlt (UInt64.lt_irrefl _)

theorem pairwise_of_stays {xs : List Device} (h : xs.IsChain (Stays p))
    : xs.Pairwise (SameContent p) := by
  have htrans : IsTrans Device (Stays p) := ⟨fun _ _ _ => Stays.trans⟩
  apply List.Pairwise.imp Stays.sameContent
  exact List.isChain_iff_pairwise.mp h

theorem Effect.grows {d' : Device} {o : Option (List Comp × UInt64)} (h : Effect d d' o)
    (hroom : ∀ p, (genAt d p).toNat + 1 < 2 ^ 64) (p : List Comp) : Stays p d d' := by
  intro r hr
  cases h with
  | calm hsame => exact ⟨r, by rw [hsame, hr], .inl rfl⟩
  | @moved t r' hr' hgen hother =>
    by_cases hp : p = t
    . subst hp
      refine ⟨r', hr', .inr ?_⟩
      have hgenAt : genAt d p = r.generation := by
        unfold genAt
        rw [hr]
        rfl
      have hlt := hroom p
      rw [hgenAt] at hgen hlt
      rw [hgen, UInt64.lt_iff_toNat_lt, UInt64.toNat_add, UInt64.toNat_one, Nat.mod_eq_of_lt hlt]
      omega
    . exact ⟨r, by rw [hother p hp, hr], .inl rfl⟩

theorem Effect.advances {op : CasOp} (h : Effect d (op.effect d) (op.reported d))
    (hroom : ∀ p, (genAt d p).toNat + 1 < 2 ^ 64) : op.Advances d := by
  intro p generation hreported
  rw [hreported] at h
  cases h with
  | @moved t r hr hgen hother =>
    refine ⟨⟨r, hr, rfl⟩, ?_⟩
    rw [hgen, UInt64.lt_iff_toNat_lt, UInt64.toNat_add, UInt64.toNat_one,
      Nat.mod_eq_of_lt (hroom p)]
    omega

theorem Effect.genAt_le {d' : Device} {o : Option (List Comp × UInt64)} (h : Effect d d' o)
    (hroom : ∀ p, (genAt d p).toNat + 1 < 2 ^ 64) (p : List Comp)
    : (genAt d' p).toNat ≤ (genAt d p).toNat + 1 := by
  cases h with
  | calm hsame =>
    unfold genAt
    rw [hsame]
    omega
  | @moved t r hr hgen hother =>
    by_cases hp : p = t
    . subst hp
      have hgenAt : genAt d' p = genAt d p + 1 := by
        rw [← hgen]
        unfold genAt
        rw [hr]
        rfl
      rw [hgenAt, UInt64.toNat_add, UInt64.toNat_one, Nat.mod_eq_of_lt (hroom p)]
    . unfold genAt
      rw [hother p hp]
      omega

theorem OpSpec.genAt_next_le {op : CasOp} (h : OpSpec d op)
    (hroom : ∀ p, (genAt d p).toNat + 1 < 2 ^ 64) (p : List Comp)
    : (genAt (op.next d) p).toNat ≤ (genAt d p).toNat + 1 := by
  have hle := h.effect.genAt_le hroom p
  cases h.next p with
  | inl hsame =>
    unfold genAt at hle ⊢
    rw [hsame]
    exact hle
  | inr hnone =>
    have hzero : genAt (op.next d) p = 0 := by
      unfold genAt
      rw [hnone.1]
      rfl
    rw [hzero, UInt64.toNat_zero]
    omega

theorem OpSpec.grows_next {op : CasOp} (h : OpSpec d op) (p : List Comp)
    : Grows p (op.effect d) (op.next d) := by
  intro r r' hr hr'
  cases h.next p with
  | inl hsame =>
    rw [hsame, hr] at hr'
    cases hr'
    exact .inl rfl
  | inr hnone =>
    rw [hnone.1] at hr'
    contradiction

theorem OpSpec.stays_next {op : CasOp} (h : OpSpec d op) (hp : OutsideRetention p)
    : Stays p (op.effect d) (op.next d) := by
  intro r hr
  cases h.next p with
  | inl hsame => exact ⟨r, by rw [hsame, hr], .inl rfl⟩
  | inr hnone => exact absurd hp hnone.2

-- No generation of the run reaches the end of its 64 bits.
def Room (d : Device) (ops : List CasOp) : Prop :=
  ∀ p, (genAt d p).toNat + ops.length < 2 ^ 64

theorem Room.head {op : CasOp} {ops : List CasOp} (h : Room d (op :: ops)) (p : List Comp)
    : (genAt d p).toNat + 1 < 2 ^ 64 := by
  have hp := h p
  rw [List.length_cons] at hp
  omega

theorem Room.tail {op : CasOp} {ops : List CasOp} (h : Room d (op :: ops)) (hspec : OpSpec d op)
    : Room (op.next d) ops := by
  intro p
  have hle := hspec.genAt_next_le h.head p
  have hp := h p
  rw [List.length_cons] at hp
  omega

open Runs in
theorem stepsHold_of_inv {ops : List CasOp} (h : CasInv d)
    (hguard : Run.Guarded CasOp.next CasGuard d ops) (hroom : Room d ops) : StepsHold d ops := by
  induction ops generalizing d with
  | nil => trivial
  | cons op ops ih =>
    have hspec := h.opSpec hguard.1
    refine ⟨hspec.held, hspec.effect.advances hroom.head, ?_⟩
    apply ih hspec.inv hguard.2 (hroom.tail hspec)

open Runs in
theorem named_of_inv {ops : List CasOp} (h : CasInv d)
    (hguard : Run.Guarded CasOp.next CasGuard d ops)
    : ∀ x ∈ casTrace d ops, ∀ p r, currentAt x p = some r → comps r.name = p := by
  induction ops generalizing d with
  | nil =>
    intro x hx p r hr
    rw [casTrace, List.mem_singleton] at hx
    subst hx
    apply h.seen_named hr
  | cons op ops ih =>
    have hspec := h.opSpec hguard.1
    intro x hx p r hr
    rw [casTrace, List.mem_cons, List.mem_cons] at hx
    rcases hx with rfl | rfl | hx
    . apply h.seen_named hr
    . apply hspec.named p r hr
    . apply ih hspec.inv hguard.2 x hx p r hr

theorem isChain_casTrace_cons {R : Device → Device → Prop} {op : CasOp} {ops : List CasOp}
    (heffect : R d (op.effect d)) (hnext : R (op.effect d) (op.next d))
    (htail : (casTrace (op.next d) ops).IsChain R) : (casTrace d (op :: ops)).IsChain R := by
  rw [casTrace, List.isChain_cons_cons]
  refine ⟨heffect, ?_⟩
  cases ops with
  | nil =>
    rw [casTrace, List.isChain_cons_cons]
    exact ⟨hnext, htail⟩
  | cons op' ops =>
    rw [casTrace, List.isChain_cons_cons]
    exact ⟨hnext, htail⟩

open Runs in
-- A relation that holds over every answer and every retention pass holds along the history.
theorem isChain_casTrace {R : Device → Device → Prop} {ops : List CasOp}
    (heffect : ∀ d op, OpSpec d op → (∀ p, (genAt d p).toNat + 1 < 2 ^ 64) → R d (op.effect d))
    (hnext : ∀ d op, OpSpec d op → R (op.effect d) (op.next d)) (h : CasInv d)
    (hguard : Run.Guarded CasOp.next CasGuard d ops) (hroom : Room d ops)
    : (casTrace d ops).IsChain R := by
  induction ops generalizing d with
  | nil => apply List.IsChain.singleton
  | cons op ops ih =>
    have hspec := h.opSpec hguard.1
    apply isChain_casTrace_cons (heffect d op hspec hroom.head) (hnext d op hspec)
    apply ih hspec.inv hguard.2 (hroom.tail hspec)

open Runs in
theorem casLawKept_of_guarded {ops : List CasOp} (h : CasBoot d)
    (hguard : Run.Guarded CasOp.next CasGuard d ops) (hroom : Room d ops) : CasLawKept d ops := by
  constructor
  . apply stepsHold_of_inv h.inv hguard hroom
  . apply named_of_inv h.inv hguard
  . intro p hp
    apply pairwise_of_stays
    apply isChain_casTrace _ _ h.inv hguard hroom
    . intro x op hspec hx
      apply hspec.effect.grows hx
    . intro x op hspec
      apply hspec.stays_next hp
  . intro p mid hmid hpresent
    have hchain : (casTrace d ops).IsChain (Grows p) := by
      apply isChain_casTrace _ _ h.inv hguard hroom
      . intro x op hspec hx r r' hr hr'
        rcases hspec.effect.grows hx p r hr with ⟨r'', hr'', hlater⟩
        rw [hr'] at hr''
        cases hr''
        exact hlater
      . intro x op hspec
        apply hspec.grows_next
    apply pairwise_of_stays
    -- within the segment a ref that was there is there in the next state too
    apply List.IsChain.imp_of_mem_imp _ ( List.IsChain.infix hchain hmid)
    intro x y hx hy hgrows r hr
    have hsome := hpresent y hy
    rw [Option.ne_none_iff_exists'] at hsome
    rcases hsome with ⟨r', hr'⟩
    exact ⟨r', hr', hgrows r r' hr hr'⟩

end History

section Pruned

def blobHash (b : UInt8) : Hash :=
  ⟨1 :: List.replicate 32 b, length_fixedHash b⟩

def blobFile : ObjFile :=
  ⟨true, some (cborMap 1 ++ cborUint 0 ++ cborUint objBlob), true⟩

def letterName (c : UInt8) : Bytes :=
  archivePrefix ++ [c]

def archiveRefset (c b : UInt8) : CasOp :=
  .refset (some (cborMap 3 ++ cborUint 0 ++ cborText (letterName c) ++ cborUint 1 ++ cborNull
    ++ cborUint 2 ++ cborBytes (blobHash b).b)) ⟨.ok, .ok⟩

def blobDevice : Device :=
  { blankDevice with
    store := ⟨[7], [(hashHex (blobHash 1), blobFile), (hashHex (blobHash 2), blobFile)], .dir true []⟩ }

def archived (s : Store) (c : UInt8) : Store :=
  (storeRefWrite s ⟨letterName c, some (blobHash 1), 1, false⟩ .ok).2

-- `archive/A` to `archive/Z` and `archive/a` to `archive/f`, as many as the retention pass keeps.
def letters : List UInt8 :=
  [65, 66, 67, 68, 69, 70, 71, 72, 73, 74, 75, 76, 77, 78, 79, 80, 81, 82, 83, 84, 85, 86, 87, 88,
    89, 90, 97, 98, 99, 100, 101, 102]

def fullStore : Store :=
  letters.foldl archived blobDevice.store

def fullDevice : Device :=
  { blobDevice with store := fullStore }

-- `archive/0` comes before all of them, so the retention pass deletes it right away.
def prunedTwice : List CasOp :=
  [archiveRefset 48 1, archiveRefset 48 2]

-- The device with what the two operations leave at the name.
def prunedDevice : { d : Device //
    currentAt ((archiveRefset 48 1).effect d) (comps (letterName 48))
        = some ⟨letterName 48, some (blobHash 1), 1, false⟩
      ∧ currentAt ((archiveRefset 48 2).effect ((archiveRefset 48 1).next d)) (comps (letterName 48))
        = some ⟨letterName 48, some (blobHash 2), 1, false⟩ } :=
  ⟨fullDevice, by decide +kernel, by decide +kernel⟩

theorem prunedTwice_first
    : currentAt ((archiveRefset 48 1).effect fullDevice) (comps (letterName 48))
        = some ⟨letterName 48, some (blobHash 1), 1, false⟩ :=
  prunedDevice.2.1

theorem prunedTwice_second
    : currentAt ((archiveRefset 48 2).effect ((archiveRefset 48 1).next fullDevice))
          (comps (letterName 48))
        = some ⟨letterName 48, some (blobHash 2), 1, false⟩ :=
  prunedDevice.2.2

theorem archived_boot (cs : List UInt8)
    (hcs : ∀ c ∈ cs, (comps (letterName c)).getLast?.any (fun x => dot ∉ x.b) = true) {s : Store}
    (hnamed : WellNamed s) (hnoTmp : ∀ p, storedAt s (tmpPath s.pid p) = none)
    : WellNamed (cs.foldl archived s)
        ∧ ∀ p, storedAt (cs.foldl archived s) (tmpPath (cs.foldl archived s).pid p) = none := by
  induction cs generalizing s with
  | nil => exact ⟨hnamed, hnoTmp⟩
  | cons c cs ih =>
    rw [List.foldl_cons]
    apply ih
    . intro c' hc'
      apply hcs c'
      apply List.mem_cons_of_mem
      exact hc'
    . apply hnamed.storeRefWrite
    . refine noTmp_write hnoTmp rfl ?_ (WriteIo.ok_keeps _)
      apply ne_tmpPath
      apply hcs c
      apply List.mem_cons_self

theorem storedAt_blobDevice (p : List Comp) : storedAt blobDevice.store p = none := by
  cases p <;> rfl

theorem blobDevice_boot : CasBoot blobDevice := by
  refine ⟨rfl, ?_, ?_⟩
  . intro p r hr
    rw [storedAt_blobDevice] at hr
    contradiction
  . intro p
    apply storedAt_blobDevice

theorem fullDevice_boot : CasBoot fullDevice := by
  have hnames : ∀ c ∈ letters,
      (comps (letterName c)).getLast?.any (fun x => dot ∉ x.b) = true := by
    decide +kernel
  have hboot := archived_boot letters hnames blobDevice_boot.named blobDevice_boot.noTmp
  rw [← fullStore] at hboot
  unfold fullDevice
  generalize fullStore = s at hboot ⊢
  exact ⟨rfl, hboot.1, hboot.2⟩

theorem archiveRefset_guard (d : Device) {body : Option Bytes}
    (hname : (refsetParse body).refname = letterName 48) : CasGuard d (.refset body ⟨.ok, .ok⟩) := by
  unfold CasGuard CasOp.Direct CasOp.FlushOk
  dsimp only
  rw [hname]
  refine ⟨⟨?_, ?_⟩, ?_, rfl⟩
  . intro hlive
    revert hlive
    decide
  . apply ne_tmpPath
    decide
  . intro hlit
    apply absurd hlit
    decide

theorem archiveRefset_one (d : Device) : CasGuard d (archiveRefset 48 1) := by
  apply archiveRefset_guard
  decide +kernel

theorem archiveRefset_two (d : Device) : CasGuard d (archiveRefset 48 2) := by
  apply archiveRefset_guard
  decide +kernel

open Runs in
theorem not_casLaw_pruned
    : ¬ ∀ d ops, CasBoot d → Run.Guarded CasOp.next CasGuard d ops → CasLaw d ops := by
  intro h
  have hguard : Run.Guarded CasOp.next CasGuard fullDevice prunedTwice :=
    ⟨archiveRefset_one _, archiveRefset_two _, trivial⟩
  have hlaw := (h fullDevice prunedTwice fullDevice_boot hguard).2 (comps (letterName 48))
  simp only [prunedTwice, casTrace, List.pairwise_cons] at hlaw
  have hsame := hlaw.2.1 _ (List.mem_cons_of_mem _ List.mem_cons_self)
  have hcontent := hsame _ _ prunedTwice_first prunedTwice_second rfl
  revert hcontent
  decide

open Runs in
theorem casLawKept_touched
    : CasLawKept blobDevice [.touch true .ok, archiveRefset 48 1, .touch true .ok,
        archiveRefset 48 2] := by
  apply casLawKept_of_guarded blobDevice_boot
  . exact ⟨⟨trivial, trivial, rfl⟩, archiveRefset_one _, ⟨trivial, trivial, rfl⟩, archiveRefset_two _, trivial⟩
  . intro p
    have hseen : currentAt blobDevice p = none := by
      rw [currentAt_of_none rfl]
      apply storedAt_blobDevice
    unfold genAt
    rw [hseen]
    decide

end Pruned

end Harp
