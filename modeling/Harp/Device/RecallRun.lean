import Harp.Device.LiveHead
import Harp.Device.RampRun
import Harp.Device.RefsetAtomic
import Harp.Device.SessionRun
import Harp.Device.SnapshotLoad

/-!
This module contains the recall invariant: as long as the live ref is reported clean, loading its
snapshot would give the values the engine has. The steps that make the ref clean establish it, those
that change a value make the ref dirty or leave a touch pending, and a ramp in flight does neither.
-/

namespace Harp

open Ieee Runs

section Recall

def Idle (d : Device) : Prop :=
  ∀ p i, (d.ramps p i).active = false

instance decidableIdle (d : Device) : Decidable (Idle d) :=
  inferInstanceAs (Decidable (∀ p i, (d.ramps p i).active = false))

-- A NaN is written as the quiet one, so values are the same up to `canon`.
def Loads (d : Device) (h : Hash) : Prop :=
  ∃ g, engineLoadSnapshot d.store d.pval h = some g ∧ ∀ p i, canon (g p i) = canon (d.pval p i)

def Recalls (d : Device) : Prop :=
  ∀ r, currentAt d livePath = some r → r.dirty = false → d.touchPending = false →
    ∀ h, r.hash = some h → Loads d h

theorem loads_iff {d : Device} {h : Hash}
    : Loads d h ↔ ∃ cs, loadPlan d.store h = some cs
        ∧ ∀ p i, canon (overlayAll cs d.pval p i) = canon (d.pval p i) := by
  unfold Loads
  rw [engineLoadSnapshot_eq]
  simp only [Option.map_eq_some_iff]
  constructor
  . rintro ⟨g, ⟨cs, hplan, rfl⟩, hsame⟩
    exact ⟨cs, hplan, hsame⟩
  . rintro ⟨cs, hplan, hsame⟩
    exact ⟨_, ⟨cs, hplan, rfl⟩, hsame⟩

-- What was just loaded is loaded again.
theorem loads_of_load {d d' : Device} {h : Hash} {g : Grid}
    (hload : engineLoadSnapshot d.store d.pval h = some g) (hobj : d'.store.objects = d.store.objects)
    (hpval : d'.pval = g) : Loads d' h := by
  rw [engineLoadSnapshot_eq, Option.map_eq_some_iff] at hload
  rcases hload with ⟨cs, hcs, rfl⟩
  unfold Loads
  rw [engineLoadSnapshot_congr hobj, engineLoadSnapshot_eq, hcs, hpval]
  refine ⟨_, rfl, ?_⟩
  intro p i
  dsimp only
  rw [overlayAll_overlayAll]

theorem canon_canon (x : F32) : canon (canon x) = canon x := by
  unfold canon
  split <;> rfl

-- The values a snapshot was taken of are those it loads.
theorem loads_of_plan {d : Device} {h : Hash} {v : Grid}
    (hplan : loadPlan d.store h = some [fun p i => some (canon (v p i))]) (hpval : d.pval = v)
    : Loads d h := by
  rw [loads_iff]
  refine ⟨_, hplan, ?_⟩
  intro p i
  rw [overlayAll_apply, hpval]
  exact canon_canon (v p i)

end Recall

section Kept

/--
A clean live ref without a pending touch has its values in the store, and no ramp is in flight.
-/
structure Kept (d : Device) : Prop where
  sane : Sane d
  readable : Readable d.store
  saved : ∀ r, currentAt d livePath = some r → r.dirty = false → d.touchPending = false →
    Idle d ∧ ∀ h, r.hash = some h → Loads d h

variable {d d' : Device}

theorem Kept.recalls (h : Kept d) : Recalls d := by
  intro r hseen hclean hpend
  exact (h.saved r hseen hclean hpend).2

theorem Sane.of_refs (h : Sane d) (hcache : d'.liveCache = d.liveCache)
    (hrefs : d'.store.refs = d.store.refs) : Sane d' :=
  (Calm.of_refs h hcache hrefs).sane

theorem Sane.seen_hash (h : Sane d) {r : Ref} (hseen : currentAt d livePath = some r)
    : r.hash = storedHash d.store := by
  rw [← h.liveHash_eq]
  unfold liveHash
  rw [hseen]
  rfl

-- A step that shows the same ref and keeps the values.
theorem Kept.next (h : Kept d) (hsane : Sane d') (hread : Readable d'.store)
    (hseen : currentAt d' livePath = currentAt d livePath) (hpval : d'.pval = d.pval)
    (hidle : Idle d → Idle d') (hpend : d'.touchPending = d.touchPending)
    (hplan : ∀ x cs, storedHash d.store = some x → loadPlan d.store x = some cs →
      loadPlan d'.store x = some cs) : Kept d' := by
  refine ⟨hsane, hread, ?_⟩
  intro r hr hclean hp
  rw [hseen] at hr
  rw [hpend] at hp
  rcases h.saved r hr hclean hp with ⟨hi, hloads⟩
  refine ⟨hidle hi, ?_⟩
  intro x hx
  have hstored := h.sane.seen_hash hr
  rw [hx] at hstored
  have hload := hloads x hx
  rw [loads_iff] at hload ⊢
  rcases hload with ⟨cs, hcs, hsame⟩
  refine ⟨cs, hplan x cs hstored.symm hcs, ?_⟩
  rw [hpval]
  exact hsame

theorem Kept.grown (h : Kept d) (hsane : Sane d') (hgrown : StoreGrown d.store d'.store)
    (hseen : currentAt d' livePath = currentAt d livePath) (hpval : d'.pval = d.pval)
    (hidle : Idle d → Idle d') (hpend : d'.touchPending = d.touchPending) : Kept d' := by
  apply h.next hsane hgrown.readable hseen hpval hidle hpend
  intro x cs _ hcs
  exact loadPlan_mono hgrown.keep hcs

-- A step that leaves a touch behind.
theorem Kept.of_pending (hsane : Sane d) (hread : Readable d.store) (h : d.touchPending = true)
    : Kept d := by
  refine ⟨hsane, hread, ?_⟩
  intro r _ _ hpend
  rw [h] at hpend
  cases hpend

theorem Kept.of_dirty (hsane : Sane d) (hread : Readable d.store)
    (h : ∀ r, currentAt d livePath = some r → r.dirty = true) : Kept d := by
  refine ⟨hsane, hread, ?_⟩
  intro r hseen hclean
  rw [h r hseen] at hclean
  cases hclean

-- A step that makes the ref clean.
theorem Kept.of_loads (hsane : Sane d) (hread : Readable d.store) {r : Ref} {x : Hash}
    (hseen : currentAt d livePath = some r) (hhash : r.hash = some x) (hidle : Idle d)
    (hloads : Loads d x) : Kept d := by
  refine ⟨hsane, hread, ?_⟩
  intro r' hr' _ _
  rw [hseen] at hr'
  cases hr'
  refine ⟨hidle, ?_⟩
  intro h hh
  rw [hhash] at hh
  cases hh
  exact hloads

end Kept

section Touch

variable {d : Device}

theorem storedAt_live_none {s : Store} (h : storeRefRead s liveRef = none)
    : storedAt s livePath = none := by
  cases hread : storedAt s livePath with
  | none => rfl
  | some r =>
    rw [storeRefRead_liveRef hread] at h
    cases h

-- After a touch the ref is dirty, or it cannot be read at all.
theorem dirty_liveRefTouch (d : Device) (io : WriteIo) (r : Ref)
    (h : currentAt (liveRefTouch d true io) livePath = some r) : r.dirty = true := by
  unfold liveRefTouch at h
  split at h
  next hbase =>
    cases hcache : d.liveCache with
    | some c =>
      rw [hcache] at hbase
      cases hbase
    | none =>
      rw [hcache] at hbase
      rw [currentAt_of_none hcache, storedAt_live_none hbase] at h
      cases h
  next r' _ =>
    rw [currentAt_live_of_some rfl] at h
    cases h
    rfl

theorem liveRefTouch_objects (d : Device) (dirty : Bool) (io : WriteIo)
    : (liveRefTouch d dirty io).store.objects = d.store.objects := by
  unfold liveRefTouch
  split
  . rfl
  . dsimp only
    split
    . apply storeRefWrite_objects
    . rfl

theorem kept_liveRefTouch (hsane : Sane d) (hread : Readable d.store) {io : WriteIo}
    (hio : io.lossless = true) : Kept (liveRefTouch d true io) := by
  apply Kept.of_dirty (liveRefTouch_calm hsane true hio).sane
  . exact (StoreGrown.of_objects hread (liveRefTouch_objects d true io)).readable
  . exact dirty_liveRefTouch d io

theorem kept_ctlTouch (h : Kept d) {io : WriteIo} (hio : io.lossless = true)
    : Kept (ctlTouch d io) := by
  unfold ctlTouch
  split
  . have hsane : Sane { d with touchPending := false } := h.sane.of_refs rfl rfl
    exact kept_liveRefTouch hsane h.readable hio
  . exact h

theorem kept_frontPanelSetPart (h : Kept d) (part : Int) (id : Nat) (v : F64) {io : WriteIo}
    (hio : io.lossless = true) : Kept (frontPanelSetPart d part id v io).2 := by
  unfold frontPanelSetPart
  dsimp only
  split
  . exact h
  . split
    next p i _ _ =>
      have hsane : Sane { d with pval := gridPut d.pval p i (narrow (clamp01 v)) } :=
        h.sane.of_refs rfl rfl
      exact kept_liveRefTouch hsane h.readable hio
    next => exact h

theorem currentAt_liveCacheFlush (h : Sane d) {io : WriteIo} (hok : FlushOk d io)
    : currentAt (liveCacheFlush d io) livePath = currentAt d livePath := by
  unfold liveCacheFlush
  split
  . rfl
  next c hcache =>
    rcases h.cached c hcache with ⟨hname, halg, _⟩
    rw [currentAt_live_of_some hcache, currentAt_of_none rfl]
    exact storedAt_write_live halg (hok c hcache).1 (hok c hcache).2 hname

theorem liveCacheFlush_ramps (d : Device) (io : WriteIo)
    : (liveCacheFlush d io).ramps = d.ramps := by
  unfold liveCacheFlush
  split <;> rfl

theorem liveCacheFlush_touchPending (d : Device) (io : WriteIo)
    : (liveCacheFlush d io).touchPending = d.touchPending := by
  unfold liveCacheFlush
  split <;> rfl

theorem idle_liveCacheFlush (io : WriteIo) (h : Idle d) : Idle (liveCacheFlush d io) := by
  unfold Idle
  rw [liveCacheFlush_ramps]
  exact h

theorem kept_liveCacheFlush (h : Kept d) {io : WriteIo} (hok : FlushOk d io)
    : Kept (liveCacheFlush d io) := by
  apply h.grown (liveCacheFlush_calm h.sane fun c hc => (hok c hc).2).sane
  . exact StoreGrown.of_objects h.readable (liveCacheFlush_objects d io)
  . exact currentAt_liveCacheFlush h.sane hok
  . exact liveCacheFlush_pval d io
  . exact idle_liveCacheFlush io
  . exact liveCacheFlush_touchPending d io

end Touch

section Snapshot

variable {d : Device} {msg : Option Bytes} {time : Nat}

-- The objects of a snapshot can be stored, and everything is as large as its C type.
structure SnapReady (d : Device) (msg : Option Bytes) (time : Nat) : Prop where
  fresh : SnapFresh d.store d.pval (liveHash d) msg time
  msg : ∀ m, msg = some m → m.length < 2 ^ 64
  time : time < 2 ^ 64

theorem SnapFresh.of_objects {s s' : Store} {v : Grid} {parent : Option Hash}
    (h : SnapFresh s v parent msg time) (hobj : s'.objects = s.objects)
    : SnapFresh s' v parent msg time := by
  refine ⟨?_, h.distinct⟩
  intro enc henc hhave
  have hhave' : storeHave s (hashCompute enc) = true := by
    unfold storeHave objFile at hhave ⊢
    rw [← hobj]
    exact hhave
  rw [storeGet_congr hobj]
  exact h.uncontested enc henc hhave'

theorem snapReady_liveCacheFlush (h : Sane d) (hready : SnapReady d msg time) {io : WriteIo}
    (hok : FlushOk d io) : SnapReady (liveCacheFlush d io) msg time := by
  refine ⟨?_, hready.msg, hready.time⟩
  rw [liveCacheFlush_pval, (liveCacheFlush_calm h fun c hc => (hok c hc).2).head]
  exact hready.fresh.of_objects (liveCacheFlush_objects d io)

theorem currentAt_write_live (hcache : d.liveCache = none) {r : Ref} (halg : r.algOk = true)
    {io : WriteIo} (hio : io.lossless = true) (hw : (storeRefWrite d.store r io).1 = true)
    (hname : comps r.name = livePath) (pval : Grid)
    : currentAt { d with store := (storeRefWrite d.store r io).2, pval } livePath = some r := by
  unfold currentAt
  rw [if_pos rfl]
  dsimp only
  rw [hcache]
  exact storedAt_write_live halg hw (WriteIo.keeps_of_lossless hio _) hname

-- A ref write that fails or goes elsewhere.
theorem currentAt_write_other {r : Ref} {io : WriteIo}
    (h : (storeRefWrite d.store r io).1 = false ∨ comps r.name ≠ livePath) (pval : Grid)
    : currentAt { d with store := (storeRefWrite d.store r io).2, pval } livePath
        = currentAt d livePath := by
  unfold currentAt
  dsimp only
  rw [storedAt_write_other h]

theorem Kept.put (h : Kept d) {store : Store} (hrefs : store.refs = d.store.refs)
    (hgrown : StoreGrown d.store store) : Kept { d with store } := by
  have hsane : Sane { d with store } := h.sane.of_refs rfl hrefs
  have hread : storedAt store livePath = storedAt d.store livePath := storedAt_congr (by rw [hrefs])
  apply h.grown hsane hgrown _ rfl id rfl
  unfold currentAt
  rw [hread]

theorem kept_snapshotLocked (h : Kept d) (hcache : d.liveCache = none) (hidle : Idle d)
    (hready : SnapReady d msg time) {io : SnapIo} (hio : io.Lossless)
    : Kept (snapshotLocked d msg time io).2 := by
  unfold snapshotLocked
  split
  . exact h
  next r hread =>
    rcases h.sane.named.read_live hread with ⟨hname, _, hhash⟩
    have hparent : r.hash = liveHash d := hhash.trans h.sane.liveHash_eq.symm
    have hsized : SnapSized msg time := ⟨hready.msg, hready.time⟩
    have hrefs := engineSnapshotObjects_refs d.store d.pval r.hash msg time io
    have hgrown := engineSnapshotObjects_grown h.readable d.pval r.hash msg time io
    split
    next store hobj =>
      rw [hobj] at hrefs hgrown
      exact h.put hrefs hgrown
    next snap store hobj =>
      rw [hobj] at hrefs hgrown
      have hput := h.put hrefs hgrown
      have hmoved : (r.moved snap).algOk = true :=
        Ref.moved_algOk_of_alg (engineSnapshotObjects_alg hobj) r
      have hsane := hput.sane.write hcache (r.moved snap) d.pval io.ref
      have hobjects := storeRefWrite_objects store (r.moved snap) io.ref
      dsimp only
      split
      next store' hw =>
        have hw' : storeRefWrite store (r.moved snap) io.ref = (false, store') := hw
        have hfail : (storeRefWrite store (r.moved snap) io.ref).1 = false := by rw [hw']
        have hseen := currentAt_write_other (d := { d with store }) (.inl hfail) d.pval
        rw [hw'] at hsane hobjects hseen
        exact hput.grown hsane (StoreGrown.of_objects hput.readable hobjects) hseen rfl id rfl
      next store' hw =>
        have hw' : storeRefWrite store (r.moved snap) io.ref = (true, store') := hw
        have hok : (storeRefWrite store (r.moved snap) io.ref).1 = true := by rw [hw']
        have href := hio io.ref (by simp)
        have hseen := currentAt_write_live (d := { d with store }) hcache hmoved href hok hname d.pval
        rw [hw'] at hsane hobjects hseen
        have hgrown' := StoreGrown.of_objects hput.readable hobjects
        apply Kept.of_loads hsane hgrown'.readable hseen rfl hidle
        have hfresh := hready.fresh
        rw [← hparent] at hfresh
        apply loads_of_plan (loadPlan_mono hgrown'.keep _) rfl
        exact engineSnapshotObjects_loads hsized hfresh (hio.putsKept d.store d.pval r.hash msg time) hobj

theorem kept_doSnapshot (h : Kept d) (hidle : Idle d) (hready : SnapReady d msg time) {io : SnapIo}
    (hok : FlushOk d io.flush) (hio : io.Lossless) : Kept (doSnapshot d msg time io).2 := by
  unfold doSnapshot
  apply kept_snapshotLocked (kept_liveCacheFlush h hok) (liveCacheFlush_liveCache d io.flush)
  . exact idle_liveCacheFlush io.flush hidle
  . exact snapReady_liveCacheFlush h.sane hready hok
  . exact hio

end Snapshot

section Refset

variable {d : Device} {body : Option Bytes} {io : RefsetIo}

theorem storedHash_eq_some {s : Store} {x : Hash} (h : storedHash s = some x)
    : ∃ r, storedAt s livePath = some r ∧ r.hash = some x := by
  unfold storedHash at h
  rw [Option.bind_eq_some_iff] at h
  exact h

-- The collector that a retention pass runs finds the live ref.
def CollectsLive (d : Device) (refname : Bytes) : Prop :=
  retentionPrefix refname ≠ none → gcInterval ≤ d.archivesSinceGc + 1 → LiveListed d.store

theorem maybeGc_frame (d : Device) (refname : Bytes)
    : (maybeGc d refname).pval = d.pval ∧ (maybeGc d refname).ramps = d.ramps
        ∧ (maybeGc d refname).touchPending = d.touchPending := by
  unfold maybeGc
  split
  . exact ⟨rfl, rfl, rfl⟩
  . dsimp only
    split <;> exact ⟨rfl, rfl, rfl⟩

theorem maybeGc_store (h : Readable d.store) {refname : Bytes} (hlisted : CollectsLive d refname)
    : Readable (maybeGc d refname).store ∧ ∀ x cs, storedHash d.store = some x →
        loadPlan d.store x = some cs → loadPlan (maybeGc d refname).store x = some cs := by
  cases hpre : retentionPrefix refname with
  | none =>
    rw [maybeGc_of_none hpre]
    exact ⟨h, fun _ _ _ hplan => hplan⟩
  | some pre =>
    have hpre' := retentionPrefix_some hpre
    have hpruned := StoreGrown.of_objects h (pruneNamespace_objects d.store pre)
    unfold maybeGc
    rw [hpre]
    dsimp only
    split
    next hdue =>
      dsimp only
      split
      next out hgc =>
        have hread : Readable out.store :=
          storeGc_inv (I := Readable) (fun s x hs => readable_storeObjDelete hs x) hgc
            hpruned.readable
        refine ⟨hread, ?_⟩
        intro x cs hx hplan
        rcases storedHash_eq_some hx with ⟨r, hr, hhash⟩
        have hdirs := (hlisted (by simp [hpre]) hdue).pruneNamespace hpre'
        have hr' : storedAt (pruneNamespace d.store pre).store livePath = some r := by
          rw [← hr]
          apply storedAt_congr
          exact fileAt_congr (look_pruneNamespace hpre' outsideRetention_livePath d.store)
        exact storeGc_loads hgc (visits_live hdirs hr') hhash (loadPlan_mono hpruned.keep hplan)
      next => exact ⟨hpruned.readable, fun x cs _ hplan => loadPlan_mono hpruned.keep hplan⟩
    next => exact ⟨hpruned.readable, fun x cs _ hplan => loadPlan_mono hpruned.keep hplan⟩

theorem kept_maybeGc (h : Kept d) {refname : Bytes} (hlisted : CollectsLive d refname)
    : Kept (maybeGc d refname) := by
  rcases maybeGc_frame d refname with ⟨hpval, hramps, hpend⟩
  rcases maybeGc_store h.readable hlisted with ⟨hread, hplan⟩
  apply h.next (maybeGc_thinned h.sane refname []).sane hread (currentAt_maybeGc_live d refname) hpval
    _ hpend hplan
  intro hidle
  unfold Idle
  rw [hramps]
  exact hidle

/--
The request spells the live ref in the one way the guards look for, makes it clean only while no ramp
is in flight, and lets the collector find it.
-/
structure RefsetSaves (d : Device) (body : Option Bytes) (io : RefsetIo) : Prop where
  spelled : comps (refsetParse body).refname = livePath → (refsetParse body).refname = liveRef
  still : (refsetParse body).refname = liveRef → ∀ newh guards r g,
    (refsetParse body).newh = some newh →
      refsetCheck (liveCacheFlush d io.flush) (refsetParse body) newh = (guards, .ok (r, g)) → Idle d
  collects : CollectsLive d (refsetParse body).refname

-- The writes of a refset of the live ref succeed.
def RefsetStores (d : Device) (body : Option Bytes) (io : RefsetIo) : Prop :=
  (refsetParse body).refname = liveRef → FlushOk d io.flush ∧ io.write.lossless = true ∧
    (handleStateRefset d body io).1 ≠ .storage

theorem kept_refset_live (h : Kept d) (hlit : (refsetParse body).refname = liveRef)
    (hstores : RefsetStores d body io) (hsaves : RefsetSaves d body io)
    : Kept (handleStateRefset d body io).2 := by
  rcases hstores hlit with ⟨hflush, hio, hstorage⟩
  have hkept := kept_liveCacheFlush h hflush
  have hcache := liveCacheFlush_liveCache d io.flush
  have hbase : refsetFlush d (refsetParse body) io.flush = liveCacheFlush d io.flush := by
    unfold refsetFlush
    rw [if_pos hlit]
  have hgc : handleStateRefset d body io
      = ((refsetRespond d body io).rsp, (refsetRespond d body io).dev) := by
    unfold handleStateRefset
    dsimp only
    split
    . rw [hlit, maybeGc_of_none (by decide)]
    . rfl
  have hexit := refsetRespond_exit d body io
  rw [hgc] at hstorage ⊢
  generalize refsetRespond d body io = out at hexit hstorage ⊢
  cases hexit with
  | malformed => exact h
  | refused hq hcheck =>
    rw [hbase]
    exact hkept
  | @stored newh guards r pval hq hcheck hw =>
    rw [hbase] at hcheck hw ⊢
    have hpassed := refsetCheck_ok hcheck
    have hread := hpassed.read
    rw [hlit] at hread
    have hname := (hkept.sane.named.read_live hread).1
    have halg := Ref.moved_algOk (refsetParse_newhOk body) hq.1 r
    have hidle := idle_liveCacheFlush io.flush (hsaves.still hlit newh guards r pval hq.1 hcheck)
    have hobjects := storeRefWrite_objects (liveCacheFlush d io.flush).store (r.moved newh) io.write
    have hsane := hkept.sane.write hcache (r.moved newh) pval io.write
    have hseen := currentAt_write_live hcache halg hio hw hname pval
    apply Kept.of_loads hsane (StoreGrown.of_objects hkept.readable hobjects).readable hseen rfl hidle
    rcases hpassed.engine with ⟨hne, _⟩ | ⟨_, hload, _⟩
    . contradiction
    . exact loads_of_load hload hobjects rfl
  | failed => exact absurd rfl hstorage

-- A refset of another ref moves neither the live ref nor the values.
theorem kept_refset_other (h : Kept d) (hlit : (refsetParse body).refname ≠ liveRef)
    (hsaves : RefsetSaves d body io) : Kept (handleStateRefset d body io).2 := by
  have hbase : refsetFlush d (refsetParse body) io.flush = d := by
    unfold refsetFlush
    rw [if_neg hlit]
  have hpath : comps (refsetParse body).refname ≠ livePath := fun heq => hlit (hsaves.spelled heq)
  have hcommit : ∀ {newh guards r pval}, (refsetParse body).newh = some newh →
      refsetCheck d (refsetParse body) newh = (guards, .ok (r, pval)) →
        Kept (d.commit (r.moved newh) pval io.write) := by
    intro newh guards r pval hnewh hcheck
    have hpassed := refsetCheck_ok hcheck
    have hname : comps (r.moved newh).name ≠ livePath := by
      have := h.sane.named.read_name hpassed.read
      unfold Ref.moved
      dsimp only
      rw [this]
      exact hpath
    have hpval : pval = d.pval := by
      rcases hpassed.engine with ⟨_, hpval, _⟩ | ⟨heq, _⟩
      . exact hpval
      . contradiction
    have hobjects := storeRefWrite_objects d.store (r.moved newh) io.write
    have hseen : currentAt { d with store := (storeRefWrite d.store (r.moved newh) io.write).2, pval }
        livePath = currentAt d livePath :=
      currentAt_write_other (.inr hname) pval
    apply h.grown _ (StoreGrown.of_objects h.readable hobjects) hseen hpval id rfl
    refine ⟨h.sane.named.storeRefWrite io.write, ?_⟩
    intro c hc
    rcases h.sane.cached c hc with ⟨hcname, hcalg, hchash⟩
    refine ⟨hcname, hcalg, ?_⟩
    rw [hchash]
    unfold storedHash
    dsimp only
    rw [storedAt_write_other (.inr hname)]
  have hexit := refsetRespond_exit d body io
  unfold handleStateRefset
  dsimp only
  generalize refsetRespond d body io = out at hexit ⊢
  cases hexit with
  | malformed => exact h
  | @refused newh guards rsp hq hcheck =>
    rw [hbase]
    have hok := (refsetCheck_error hcheck).1
    dsimp only
    split
    next generation => exact absurd rfl (hok generation)
    next => exact h
  | @stored newh guards r pval hq hcheck hw =>
    rw [hbase] at hcheck ⊢
    apply kept_maybeGc (hcommit hq.1 hcheck)
    intro hpre hdue
    exact (hsaves.collects hpre hdue).storeRefWrite _ _
  | failed hq hcheck hw =>
    rw [hbase] at hcheck ⊢
    exact hcommit hq.1 hcheck

end Refset

section Revert

variable {d : Device} {io : RevertIo}

-- The device a revert loads into: the cache is written back and dirty values are snapshotted.
def revertReady (d : Device) (io : RevertIo) : Device :=
  let d := liveCacheFlush d io.flush
  match storeRefRead d.store liveRef with
  | none => d
  | some live =>
    if live.dirty then (doSnapshot d (some (ascii "pre-revert")) io.time io.snap).2 else d

theorem panelRevert_cases (d : Device) (refname : Bytes) (io : RevertIo)
    : panelRevert d refname io = d
        ∨ ∃ src, storeRefRead d.store refname = some src ∧ src.hash ≠ none
          ∧ (panelRevert d refname io = revertReady d io
            ∨ panelRevert d refname io = revertFinish (revertReady d io) src io) := by
  unfold panelRevert
  split
  . exact .inl rfl
  next src hsrc =>
    split
    . exact .inl rfl
    next hhash =>
      refine .inr ⟨src, hsrc, by simpa using hhash, ?_⟩
      unfold revertReady
      dsimp only
      cases storeRefRead (liveCacheFlush d io.flush).store liveRef with
      | none => exact .inl rfl
      | some live =>
        dsimp only
        cases live.dirty with
        | false => exact .inr rfl
        | true =>
          rw [if_pos rfl, if_pos rfl]
          rcases doSnapshot (liveCacheFlush d io.flush) (some (ascii "pre-revert")) io.time io.snap
            with ⟨o, d'⟩
          cases o with
          | none => exact .inl rfl
          | some _ => exact .inr rfl

/--
A revert to a ref with a snapshot runs while no ramp is in flight, and if it takes a snapshot before
that, the objects can be stored.
-/
def RevertSaves (d : Device) (refname : Bytes) (io : RevertIo) : Prop :=
  ∀ src, storeRefRead d.store refname = some src → src.hash ≠ none → Idle d ∧
    ∀ r, currentAt d livePath = some r → r.dirty = true →
      SnapReady d (some (ascii "pre-revert")) io.time

-- The writes of a revert succeed.
def RevertStores (d : Device) (refname : Bytes) (io : RevertIo) : Prop :=
  FlushOk d io.flush ∧ io.snap.Lossless ∧ io.write.lossless = true ∧
    ∀ src, storeRefRead d.store refname = some src →
    let live := (storeRefRead (revertReady d io).store liveRef).getD (Ref.unborn liveRef)
    (storeRefWrite (revertReady d io).store (revertRef src live) io.write).1 = true

theorem doSnapshot_frame (d : Device) (msg : Option Bytes) (time : Nat) (io : SnapIo)
    : (doSnapshot d msg time io).2.liveCache = none ∧ (doSnapshot d msg time io).2.ramps = d.ramps
        := by
  have hcache := liveCacheFlush_liveCache d io.flush
  have hramps := liveCacheFlush_ramps d io.flush
  unfold doSnapshot snapshotLocked
  split
  . exact ⟨hcache, hramps⟩
  . split
    . exact ⟨hcache, hramps⟩
    . dsimp only
      split <;> exact ⟨hcache, hramps⟩

theorem revertReady_frame (d : Device) (io : RevertIo)
    : (revertReady d io).liveCache = none ∧ (revertReady d io).ramps = d.ramps := by
  have hcache := liveCacheFlush_liveCache d io.flush
  have hramps := liveCacheFlush_ramps d io.flush
  unfold revertReady
  dsimp only
  split
  . exact ⟨hcache, hramps⟩
  . split
    . rcases doSnapshot_frame (liveCacheFlush d io.flush) (some (ascii "pre-revert")) io.time io.snap
        with ⟨hcache', hramps'⟩
      exact ⟨hcache', hramps'.trans hramps⟩
    . exact ⟨hcache, hramps⟩

theorem kept_revertReady (h : Kept d) (hflush : FlushOk d io.flush) (hio : io.snap.Lossless)
    (hidle : Idle d)
    (hready : ∀ r, currentAt d livePath = some r → r.dirty = true →
      SnapReady d (some (ascii "pre-revert")) io.time) : Kept (revertReady d io) := by
  have hkept := kept_liveCacheFlush h hflush
  have hcache := liveCacheFlush_liveCache d io.flush
  unfold revertReady
  dsimp only
  split
  . exact hkept
  next live hlive =>
    split
    next hdirty =>
      have hseen : currentAt d livePath = some live := by
        rw [← currentAt_liveCacheFlush h.sane hflush, currentAt_of_none hcache]
        have heq := storeRefRead_eq_storedAt hlive (by decide)
        have hpath : comps liveRef = livePath := rfl
        rw [hpath] at heq
        cases hread : storedAt (liveCacheFlush d io.flush).store livePath with
        | none =>
          rw [heq, hread] at hdirty
          cases hdirty
        | some r =>
          rw [hread] at heq
          rw [heq]
          rfl
      apply kept_doSnapshot hkept (idle_liveCacheFlush io.flush hidle)
      . exact snapReady_liveCacheFlush h.sane (hready live hseen hdirty) hflush
      . intro c hc
        rw [hcache] at hc
        cases hc
      . exact hio
    next => exact hkept

theorem kept_revertFinish (h : Kept d) (hcache : d.liveCache = none) (hidle : Idle d) {src : Ref}
    (halg : src.algOk = true) (hio : io.write.lossless = true)
    (hw : (storeRefWrite d.store (revertRef src
      ((storeRefRead d.store liveRef).getD (Ref.unborn liveRef))) io.write).1 = true)
    : Kept (revertFinish d src io) := by
  unfold revertFinish
  split
  . exact h
  next pval hload =>
    rw [Option.bind_eq_some_iff] at hload
    rcases hload with ⟨x, hx, hload⟩
    have hflush : liveCacheFlush { d with pval } io.flush2 = { d with pval } := by
      unfold liveCacheFlush
      dsimp only
      rw [hcache]
    rw [hflush]
    dsimp only
    generalize hlive : (storeRefRead d.store liveRef).getD (Ref.unborn liveRef) = live at hw ⊢
    have hname : comps (revertRef src live).name = livePath := by
      unfold revertRef
      dsimp only
      cases hread : storeRefRead d.store liveRef with
      | none =>
        rw [hread] at hlive
        rw [← hlive]
        rfl
      | some r =>
        rw [hread] at hlive
        rw [← hlive]
        exact (h.sane.named.read_live hread).1
    have halg' : (revertRef src live).algOk = true := halg
    have hobjects := storeRefWrite_objects d.store (revertRef src live) io.write
    have hsane := h.sane.write hcache (revertRef src live) pval io.write
    have hseen := currentAt_write_live hcache halg' hio hw hname pval
    apply Kept.of_loads hsane (StoreGrown.of_objects h.readable hobjects).readable hseen hx hidle
    exact loads_of_load hload hobjects rfl

theorem kept_panelRevert (h : Kept d) {refname : Bytes} (hstores : RevertStores d refname io)
    (hsaves : RevertSaves d refname io) : Kept (panelRevert d refname io) := by
  rcases panelRevert_cases d refname io with hsame | ⟨src, hsrc, hhash, hcase⟩
  . rw [hsame]
    exact h
  . rcases hsaves src hsrc hhash with ⟨hidle, hready⟩
    rcases revertReady_frame d io with ⟨hcache, hramps⟩
    have hkept := kept_revertReady h hstores.1 hstores.2.1 hidle hready
    rcases hcase with hcase | hcase
    . rw [hcase]
      exact hkept
    . rw [hcase]
      apply kept_revertFinish hkept hcache
      . unfold Idle
        rw [hramps]
        exact hidle
      . exact storeRefRead_algOk hsrc
      . exact hstores.2.2.1
      . exact hstores.2.2.2 src hsrc

end Revert

section Render

variable {d : Device}

theorem consumeEvt_touches (s : Session) (buf : Bytes) (readable : Bool) (io : WriteIo)
    : (consumeEvt s buf readable io).dev = s.dev
        ∨ (consumeEvt s buf readable io).dev = liveRefTouch s.dev true io := by
  unfold consumeEvt handleEvtMsg
  dsimp only
  generalize evtDecode s.audioEpoch buf = msg
  cases msg with
  | submit txnId ev touches =>
    cases touches with
    | false => exact .inl rfl
    | true => exact .inr rfl
  | commit id commitMsc =>
    unfold applyEvtMsg
    dsimp only
    cases (txnCommit { s.evt with evtStaged := false } id commitMsc).1 with
    | false => exact .inl rfl
    | true => exact .inr rfl
  | _ => exact .inl rfl

-- An event that is applied leaves a touch behind.
theorem applyDue_cases (pos : Nat) (d : Device) (ev : DevEvent)
    : applyDue pos d ev = d
        ∨ ((applyDue pos d ev).touchPending = true ∧ (applyDue pos d ev).store = d.store
          ∧ (applyDue pos d ev).liveCache = d.liveCache) := by
  unfold applyDue
  dsimp only
  cases ev.kind with
  | paramSet =>
    dsimp only
    split
    . exact .inl rfl
    . split
      . exact .inr ⟨rfl, rfl, rfl⟩
      . exact .inr ⟨rfl, rfl, rfl⟩
  | ramp =>
    dsimp only
    split
    . exact .inl rfl
    . split
      . exact .inr ⟨rfl, rfl, rfl⟩
      . exact .inr ⟨rfl, rfl, rfl⟩
  | _ => exact .inl rfl

theorem kept_applyDue (h : Kept d) (pos : Nat) (ev : DevEvent) : Kept (applyDue pos d ev) := by
  rcases applyDue_cases pos d ev with hsame | ⟨hpend, hstore, hcache⟩
  . rw [hsame]
    exact h
  . apply Kept.of_pending (h.sane.of_refs hcache (by rw [hstore])) _ hpend
    rw [hstore]
    exact h.readable

theorem kept_applyDues (h : Kept d) (pos : Nat) (evs : List DevEvent)
    : Kept (evs.foldl (applyDue pos) d) := by
  induction evs generalizing d with
  | nil => exact h
  | cons ev evs ih => exact ih (kept_applyDue h pos ev)

theorem rampsAdvance_of_idle (h : Idle d) (p : Fin nParts) (pos : Nat) (line : Ramp → Nat → F32)
    : rampsAdvance d p pos line = d := by
  unfold rampsAdvance
  simp [h _ _]

theorem kept_rampsAdvance (h : Kept d) (p : Fin nParts) (pos : Nat) (line : Ramp → Nat → F32)
    : Kept (rampsAdvance d p pos line) := by
  by_cases hidle : Idle d
  . rw [rampsAdvance_of_idle hidle]
    exact h
  . refine ⟨h.sane.of_refs rfl rfl, h.readable, ?_⟩
    -- a ramp that moves a value finds the ref dirty or a touch pending
    intro r hseen hclean hpend
    exact absurd (h.saved r hseen hclean hpend).1 hidle

end Render

section Run

def CtlStores (d : Device) : CtlReq → Prop
  | .refs io => FlushOk d io
  | .snapshot shed _ _ io => shed = false → FlushOk d io.flush ∧ io.Lossless
  | .refset body io => RefsetStores d body io
  | _ => True

-- The ref writes of a step that the live ref depends on succeed.
def Session.Stores (s : Session) : SessAct → Prop
  | .evt _ _ io => io.lossless = true
  | .ctl req touch => touch.lossless = true ∧ CtlStores (ctlTouch s.dev touch) req
  | .panel _ _ _ io => io.lossless = true
  | .revert refname io => RevertStores s.dev refname io
  | _ => True

def CtlSaves (d : Device) : CtlReq → Prop
  | .snapshot shed msg time _ => shed = false → Idle d ∧ SnapReady d msg time
  | .refset body io => RefsetSaves d body io
  | _ => True

/--
A step makes the live ref clean only while no ramp is in flight, and by the name it is guarded under;
the objects it stores for that are not taken for others or collected.
-/
def Session.Saves (s : Session) : SessAct → Prop
  | .ctl req touch => CtlSaves (ctlTouch s.dev touch) req
  | .revert refname io => RevertSaves s.dev refname io
  | _ => True

theorem kept_handleCtlReq {s : Session} (h : Kept s.dev) (req : CtlReq)
    (hstores : CtlStores s.dev req) (hsaves : CtlSaves s.dev req) : Kept (handleCtlReq s req).dev := by
  cases req with
  | refs io => exact kept_liveCacheFlush h hstores
  | snapshot shed msg time io =>
    cases shed with
    | true => exact h
    | false => exact kept_doSnapshot h (hsaves rfl).1 (hsaves rfl).2 (hstores rfl).1 (hstores rfl).2
  | refset body io =>
    by_cases hlit : (refsetParse body).refname = liveRef
    . exact kept_refset_live h hlit hstores hsaves
    . exact kept_refset_other h hlit hsaves
  | audioStart newEpoch =>
    have hsane : Sane { s.dev with ramps := fun _ _ => Ramp.none } := h.sane.of_refs rfl rfl
    exact h.grown hsane (StoreGrown.refl h.readable) rfl rfl (fun _ _ _ => rfl) rfl
  | hello => exact h
  | audioStop => exact h
  | other => exact h

theorem kept_next {s : Session} (h : Kept s.dev) (a : SessAct) (hstores : s.Stores a)
    (hsaves : s.Saves a) : Kept (s.next a).dev := by
  cases a with
  | evt buf readable io =>
    rcases consumeEvt_touches s buf readable io with hsame | htouch
    . unfold Session.next
      rw [hsame]
      exact h
    . unfold Session.next
      rw [htouch]
      exact kept_liveRefTouch h.sane h.readable hstores
  | ctl req touch =>
    have hkept : Kept (ctlTouch s.dev touch) := kept_ctlTouch h hstores.1
    unfold Session.next
    exact kept_handleCtlReq (s := ⟨_, _, _⟩) hkept req hstores.2 hsaves
  | obj enc io =>
    unfold Session.next handleObj
    dsimp only
    split
    . exact h
    . exact h.put (storePut_refs _ enc io) (storePut_grown h.readable enc io)
  | panel part id v io => exact kept_frontPanelSetPart h part id v hstores
  | revert refname io => exact kept_panelRevert h hstores hsaves
  | due pos => exact kept_applyDues h pos _
  | advance p pos line => exact kept_rampsAdvance h p pos line

/--
The device before its first frame: every ref is stored under its own name, the live ref is not
cached, no ramp is in flight, and a clean live ref is the one that was loaded.
-/
structure RecallBoot (d : Device) : Prop where
  named : WellNamed d.store
  cache : d.liveCache = none
  readable : Readable d.store
  idle : Idle d
  recalls : Recalls d

theorem RecallBoot.kept {d : Device} (h : RecallBoot d) : Kept d := by
  refine ⟨⟨h.named, ?_⟩, h.readable, ?_⟩
  . intro c hc
    rw [h.cache] at hc
    cases hc
  . intro r hseen hclean hpend
    exact ⟨h.idle, h.recalls r hseen hclean hpend⟩

-- What `harp-deviced` does about the live ref before it serves a session.
def bootLive (d : Device) (time : Nat) (io : SnapIo) : Device :=
  match storeRefRead d.store liveRef with
  | none => d
  | some live =>
    match live.hash with
    | none => (doSnapshot d (some (ascii "factory state")) time io).2
    | some h =>
      if live.dirty then
        d
      else
        match engineLoadSnapshot d.store d.pval h with
        | none => d
        | some pval => { d with pval }

theorem recallBoot_bootLive {d : Device} {time : Nat} {io : SnapIo} (hnamed : WellNamed d.store)
    (hcache : d.liveCache = none) (hread : Readable d.store) (hidle : Idle d)
    (hborn : ∀ live, storeRefRead d.store liveRef = some live → live.hash = none →
      SnapReady d (some (ascii "factory state")) time)
    (hloads : ∀ live h, storeRefRead d.store liveRef = some live → live.hash = some h →
      live.dirty = false → engineLoadSnapshot d.store d.pval h ≠ none) (hio : io.Lossless)
    : RecallBoot (bootLive d time io) := by
  have hsane : Sane d := by
    refine ⟨hnamed, ?_⟩
    intro c hc
    rw [hcache] at hc
    cases hc
  have hseen := currentAt_of_none hcache livePath
  unfold bootLive
  split
  next hnone =>
    refine ⟨hnamed, hcache, hread, hidle, ?_⟩
    intro r hr
    rw [hseen, storedAt_live_none hnone] at hr
    cases hr
  next live hlive =>
    have hlive' : ∀ r, storedAt d.store livePath = some r → r = live := by
      intro r hr
      rw [storeRefRead_liveRef hr] at hlive
      exact Option.some_inj.mp hlive
    split
    next hhash =>
      have hkept : Kept d := by
        refine ⟨hsane, hread, ?_⟩
        intro r hr _ _
        refine ⟨hidle, ?_⟩
        intro h hh
        rw [hseen] at hr
        rw [hlive' r hr, hhash] at hh
        cases hh
      have hflush : FlushOk d io.flush := by
        intro c hc
        rw [hcache] at hc
        cases hc
      have htaken := kept_doSnapshot hkept hidle (hborn live hlive hhash) hflush hio
      rcases doSnapshot_frame d (some (ascii "factory state")) time io with ⟨hcache', hramps⟩
      refine ⟨htaken.sane.named, hcache', htaken.readable, ?_, htaken.recalls⟩
      unfold Idle
      rw [hramps]
      exact hidle
    next h hhash =>
      split
      next hdirty =>
        refine ⟨hnamed, hcache, hread, hidle, ?_⟩
        intro r hr hclean
        rw [hseen] at hr
        rw [hlive' r hr, hdirty] at hclean
        cases hclean
      next hclean =>
        rw [Bool.not_eq_true] at hclean
        split
        next hnone => exact absurd hnone (hloads live h hlive hhash hclean)
        next pval hload =>
          refine ⟨hnamed, hcache, hread, hidle, ?_⟩
          intro r hr _ _ h' hh'
          have hr' : storedAt d.store livePath = some r := by
            rw [← hseen]
            exact hr
          rw [hlive' r hr', hhash] at hh'
          cases hh'
          exact loads_of_load hload rfl rfl

theorem recalls_of_saves {s t : Session} (h : RecallBoot s.dev)
    (hrun : Run Session.next (fun s a => s.Stores a ∧ s.Saves a) s t) : Recalls t.dev := by
  apply Kept.recalls
  apply hrun.inv (I := fun s => Kept s.dev) h.kept
  intro s a hs hg
  exact kept_next hs a hg.1 hg.2

instance decidableFlushOk (d : Device) (io : WriteIo) : Decidable (FlushOk d io) :=
  decidable_of_iff ((d.liveCache.all fun c =>
      (storeRefWrite d.store c io).1 && io.keeps (refEncode c)) = true) (by
    unfold FlushOk
    cases d.liveCache <;> simp)

instance decidableRefsetStores (d : Device) (body : Option Bytes) (io : RefsetIo)
    : Decidable (RefsetStores d body io) :=
  inferInstanceAs (Decidable (_ = _ → FlushOk d io.flush ∧ _ = _ ∧ _ ≠ _))

-- The live ref is at a snapshot that sets parameter 1 of part 0 to zero.
def zeroLive : Store :=
  (storeRefWrite zeroStore ⟨liveRef, some (hashCompute zeroSnapshot), 1, false⟩ .ok).2

def snapIoOk : SnapIo :=
  ⟨.ok, .ok, .ok, .ok, .ok⟩

def namedLive : Store :=
  (storeRefWrite namedStore ⟨liveRef, some zeroSnapshotHash, 1, false⟩ .ok).2

theorem zeroLive_eq : zeroLive = namedLive := by
  rw [zeroLive, namedLive, zeroStore_eq, hashCompute_zeroSnapshot]

theorem wellNamed_zeroLive : WellNamed zeroLive := by
  have hnamed : WellNamed namedStore := by
    intro p r hr
    unfold storedAt namedStore at hr
    cases p <;> cases hr
  rw [zeroLive_eq, namedLive]
  exact hnamed.storeRefWrite .ok

theorem readable_zeroLive : Readable zeroLive := by
  have hempty : Readable ⟨[7], [], .dir true []⟩ := by
    intro x enc hget
    cases hget
  have hread : Readable namedStore := by
    rw [← zeroStore_eq, zeroStore, List.foldl_cons, List.foldl_cons, List.foldl_cons,
      List.foldl_nil]
    exact readable_storePut (readable_storePut (readable_storePut hempty _ .ok) _ .ok) _ .ok
  rw [zeroLive_eq, namedLive]
  exact (StoreGrown.of_objects hread (storeRefWrite_objects _ _ _)).readable

theorem load_zeroLive
    : ((storeRefRead zeroLive liveRef).bind Ref.hash).bind (engineLoadSnapshot zeroLive factoryGrid)
        ≠ none := by
  rw [zeroLive_eq]
  decide +kernel

-- A device with the factory values that finds a ref it can load.
theorem recallBoot_factory {s : Store} (hnamed : WellNamed s) (hread : Readable s)
    (hload : ((storeRefRead s liveRef).bind Ref.hash).bind (engineLoadSnapshot s factoryGrid) ≠ none)
    (time : Nat) {io : SnapIo} (hio : io.Lossless)
    : RecallBoot (bootLive { blankDevice with store := s } time io) := by
  have hlive : ∀ live, storeRefRead s liveRef = some live →
      live.hash.bind (engineLoadSnapshot s factoryGrid) ≠ none := by
    intro live hlive
    rw [hlive] at hload
    exact hload
  apply recallBoot_bootLive hnamed rfl hread
  . intro p i
    rfl
  . intro live hread hhash
    apply absurd _ (hlive live hread)
    rw [hhash]
    rfl
  . intro live h hread hhash _ hnone
    apply hlive live hread
    rw [hhash]
    exact hnone
  . exact hio

def zeroBooted : Device :=
  bootLive { blankDevice with store := zeroLive } 0 snapIoOk

theorem recallBoot_zeroBooted : RecallBoot zeroBooted := by
  unfold zeroBooted
  exact recallBoot_factory wellNamed_zeroLive readable_zeroLive load_zeroLive 0 (by decide)

def zeroSession : Session :=
  ⟨zeroBooted, EvtState.fresh, 0⟩

theorem recallBoot_zeroSession : RecallBoot zeroSession.dev := by
  unfold zeroSession
  dsimp only
  exact recallBoot_zeroBooted

-- `state.refset` of the live ref to the snapshot it is at, over whatever was edited since.
def zeroForce : CtlReq :=
  .refset (some (clientRefset liveRef none (hashCompute zeroSnapshot) false true false)) ⟨.ok, .ok⟩

-- A ramp of parameter 1 to a half by sample 10 that has started, the refset, and sample 10.
def rampedRefset : List SessAct :=
  [.evt (rampFrame 1 half 10) false .ok, .due 0, .ctl zeroForce .ok,
    .advance 0 10 (fun r _ => r.target)]

-- A knob of the front panel that is moved, and the refset.
def turnedRefset : List SessAct :=
  [.panel 0 1 (Fp.of false 1022 0) .ok, .ctl zeroForce .ok]

def namedSession : Session :=
  ⟨bootLive { blankDevice with store := namedLive } 0 snapIoOk, EvtState.fresh, 0⟩

theorem zeroSession_eq : zeroSession = namedSession := by
  rw [zeroSession, namedSession, zeroBooted, zeroLive_eq]

-- The guards of the refset, in whatever state it finds the device.
theorem saves_zeroForce {d : Device} (hidle : Idle d) : CtlSaves d zeroForce := by
  have hname : (refsetParse (some (clientRefset liveRef none (hashCompute zeroSnapshot) false true
      false))).refname = liveRef := by
    decide +kernel
  refine ⟨fun _ => hname, fun _ _ _ _ _ _ _ => hidle, ?_⟩
  intro hpre
  rw [hname] at hpre
  exact absurd (by decide) hpre

def afterTurned : Session :=
  turnedRefset.foldl Session.next zeroSession

def beforeForce : Device :=
  ctlTouch (zeroSession.next (.panel 0 1 (Fp.of false 1022 0) .ok)).dev .ok

theorem beforeForce_eq
    : beforeForce = ctlTouch (namedSession.next (.panel 0 1 (Fp.of false 1022 0) .ok)).dev .ok := by
  rw [beforeForce, zeroSession_eq]

theorem afterTurned_eq : afterTurned = turnedRefset.foldl Session.next namedSession := by
  rw [afterTurned, zeroSession_eq]

-- One evaluation of the run for the three facts about it.
theorem turned_facts
    : RefsetStores beforeForce
          (some (clientRefset liveRef none (hashCompute zeroSnapshot) false true false)) ⟨.ok, .ok⟩
        ∧ Idle beforeForce
        ∧ (currentAt afterTurned.dev livePath).map Ref.dirty = some false := by
  rw [beforeForce_eq, afterTurned_eq, turnedRefset, zeroForce, hashCompute_zeroSnapshot]
  decide +kernel

theorem run_turned
    : Run Session.next (fun s a => s.Stores a ∧ s.Saves a) zeroSession afterTurned := by
  unfold afterTurned
  apply Run.of_guarded turnedRefset .start
  rcases turned_facts with ⟨hstores, hidle, _⟩
  unfold beforeForce at hstores hidle
  refine ⟨⟨rfl, trivial⟩, ⟨⟨rfl, ?_⟩, ?_⟩, trivial⟩
  . unfold CtlStores zeroForce
    dsimp only
    exact hstores
  . apply saves_zeroForce
    exact hidle

theorem recalls_turned
    : (currentAt afterTurned.dev livePath).map Ref.dirty = some false ∧ Recalls afterTurned.dev :=
  ⟨turned_facts.2.2, recalls_of_saves recallBoot_zeroSession run_turned⟩

def afterRamped : Session :=
  rampedRefset.foldl Session.next zeroSession

def rampStarted : Device :=
  ctlTouch ((zeroSession.next (.evt (rampFrame 1 half 10) false .ok)).next (.due 0)).dev .ok

theorem rampStarted_eq
    : rampStarted = ctlTouch
        ((namedSession.next (.evt (rampFrame 1 half 10) false .ok)).next (.due 0)).dev .ok := by
  rw [rampStarted, zeroSession_eq]

theorem afterRamped_eq : afterRamped = rampedRefset.foldl Session.next namedSession := by
  rw [afterRamped, zeroSession_eq]

-- The refset has been answered, the ramp has gone on to a half, and the snapshot has zero.
theorem ramped_facts
    : RefsetStores rampStarted
          (some (clientRefset liveRef none (hashCompute zeroSnapshot) false true false)) ⟨.ok, .ok⟩
        ∧ (currentAt afterRamped.dev livePath
            = some ⟨liveRef, some (hashCompute zeroSnapshot), 4, false⟩
          ∧ afterRamped.dev.touchPending = false)
        ∧ (engineLoadSnapshot afterRamped.dev.store afterRamped.dev.pval
            (hashCompute zeroSnapshot)).map (fun g => canon (g 0 0))
              ≠ some (canon (afterRamped.dev.pval 0 0)) := by
  rw [rampStarted_eq, afterRamped_eq, rampedRefset, zeroForce, hashCompute_zeroSnapshot]
  decide +kernel

theorem run_ramped : Run Session.next Session.Stores zeroSession afterRamped := by
  unfold afterRamped
  apply Run.of_guarded rampedRefset .start
  have hstores := ramped_facts.1
  unfold rampStarted at hstores
  refine ⟨rfl, trivial, ⟨rfl, ?_⟩, trivial, trivial⟩
  unfold CtlStores zeroForce
  dsimp only
  exact hstores

theorem not_recalls_ramped
    : ¬ ∀ s t : Session, RecallBoot s.dev → Run Session.next Session.Stores s t →
        Recalls t.dev := by
  intro h
  have hrecalls := h zeroSession afterRamped recallBoot_zeroSession run_ramped
  rcases ramped_facts.2 with ⟨⟨hseen, htouch⟩, hne⟩
  rcases hrecalls _ hseen rfl htouch _ rfl with ⟨g, hload, hsame⟩
  rw [hload, Option.map_some, hsame] at hne
  exact hne rfl

end Run

end Harp
