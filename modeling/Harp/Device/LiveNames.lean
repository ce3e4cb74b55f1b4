import Harp.Device.RecallRun

/-!
This module contains what every operation of the device keeps of the refs, however its writes end:
each ref is stored under its own name, and the cache is of the live ref.
-/

namespace Harp

structure Named (d : Device) : Prop where
  store : WellNamed d.store
  cache : ∀ c, d.liveCache = some c → comps c.name = livePath ∧ c.algOk = true

variable {d d' : Device}

namespace Named

theorem of_refs (h : Named d) (hcache : d'.liveCache = d.liveCache)
    (hrefs : d'.store.refs = d.store.refs) : Named d' := by
  constructor
  . apply h.store.of_subset
    intro p r hr
    have hsame : storedAt d'.store p = storedAt d.store p := by
      apply storedAt_congr
      rw [hrefs]
    rwa [hsame] at hr
  . rw [hcache]
    exact h.cache

theorem of_files (h : Named d) (hcache : d'.liveCache = d.liveCache)
    (hfile : ∀ p, fileAt d'.store.refs p = fileAt d.store.refs p ∨ fileAt d'.store.refs p = none)
    : Named d' := by
  constructor
  . apply h.store.of_subset
    intro p r hr
    rcases hfile p with hsame | hnone
    . rwa [storedAt_congr hsame] at hr
    . unfold storedAt at hr
      rw [hnone] at hr
      cases hr
  . rw [hcache]
    exact h.cache

theorem write (h : Named d) (r : Ref) (io : WriteIo)
    : Named { d with store := (storeRefWrite d.store r io).2 } :=
  ⟨h.store.storeRefWrite io, h.cache⟩

theorem of_uncached (h : WellNamed d.store) (hcache : d.liveCache = none) : Named d := by
  refine ⟨h, ?_⟩
  intro c hc
  rw [hcache] at hc
  cases hc

theorem flush (h : Named d) (io : WriteIo) : Named (liveCacheFlush d io) := by
  apply of_uncached _ (liveCacheFlush_liveCache d io)
  unfold liveCacheFlush
  split
  . exact h.store
  . exact h.store.storeRefWrite io

theorem touch (h : Named d) (dirty : Bool) (io : WriteIo) : Named (liveRefTouch d dirty io) := by
  unfold liveRefTouch
  split
  . exact h
  next r hbase =>
    have hr : comps r.name = livePath ∧ r.algOk = true := by
      cases hcache : d.liveCache with
      | none =>
        rw [hcache] at hbase
        rcases h.store.read_live hbase with ⟨hname, halg, _⟩
        exact ⟨hname, halg⟩
      | some c =>
        rw [hcache] at hbase
        cases hbase
        exact h.cache r hcache
    constructor
    . dsimp only
      split
      . exact h.store.storeRefWrite io
      . exact h.store
    . intro c hc
      cases hc
      exact hr

theorem ctl (h : Named d) (io : WriteIo) : Named (ctlTouch d io) := by
  unfold ctlTouch
  split
  . have hflag : Named { d with touchPending := false } := h.of_refs rfl rfl
    exact hflag.touch true io
  . exact h

theorem panelSet (h : Named d) (part : Int) (id : Nat) (v : Ieee.F64) (io : WriteIo)
    : Named (frontPanelSetPart d part id v io).2 := by
  unfold frontPanelSetPart
  dsimp only
  split
  . exact h
  . split
    next p i _ _ =>
      have hval : Named { d with pval := gridPut d.pval p i (Ieee.narrow (clamp01 v)) } :=
        h.of_refs rfl rfl
      exact hval.touch true io
    next => exact h

theorem refset (h : Named d) (body : Option Bytes) (io : RefsetIo)
    : Named (handleStateRefset d body io).2 := by
  have hexit := refsetRespond_exit d body io
  have hflush : Named (refsetFlush d (refsetParse body) io.flush) := by
    unfold refsetFlush
    split
    . exact h.flush io.flush
    . exact h
  have hcommit : ∀ (newh : Hash) (r : Ref) (pval : Grid),
      Named ((refsetFlush d (refsetParse body) io.flush).commit (r.moved newh) pval io.write) := by
    intro newh r pval
    have hwrite := hflush.write (r.moved newh) io.write
    exact hwrite.of_refs rfl rfl
  have hrespond : Named (refsetRespond d body io).dev := by
    generalize refsetRespond d body io = out at hexit
    cases hexit with
    | malformed => exact h
    | refused hq hcheck => exact hflush
    | stored hq hcheck hw => exact hcommit _ _ _
    | failed hq hcheck hw => exact hcommit _ _ _
  unfold handleStateRefset
  dsimp only
  split
  . exact hrespond.of_files (maybeGc_liveCache _ _) (fileAt_maybeGc_sub _ _)
  . exact hrespond

theorem prune (h : Named d) {pre : Bytes} (hpre : pre = archivePrefix ∨ pre = duplicatePrefix)
    : Named { d with store := (pruneNamespace d.store pre).store } :=
  h.of_files rfl (fileAt_pruneNamespace_sub hpre d.store)

theorem snapshot (h : Named d) (msg : Option Bytes) (time : Nat) (io : SnapIo)
    : Named (doSnapshot d msg time io).2 := by
  have hflush := h.flush io.flush
  unfold doSnapshot snapshotLocked
  split
  . exact hflush
  next r _ =>
    have hrefs := engineSnapshotObjects_refs (liveCacheFlush d io.flush).store
      (liveCacheFlush d io.flush).pval r.hash msg time io
    split
    next store hobj =>
      rw [hobj] at hrefs
      exact hflush.of_refs rfl hrefs
    next snap store hobj =>
      rw [hobj] at hrefs
      have hput : Named { liveCacheFlush d io.flush with store } := hflush.of_refs rfl hrefs
      have hwrite := hput.write (r.moved snap) io.ref
      dsimp only
      split
      next store' hw =>
        have hw' : storeRefWrite store (r.moved snap) io.ref = (false, store') := hw
        rwa [hw'] at hwrite
      next store' hw =>
        have hw' : storeRefWrite store (r.moved snap) io.ref = (true, store') := hw
        rwa [hw'] at hwrite

theorem revertReady (h : Named d) (io : RevertIo) : Named (revertReady d io) := by
  have hflush := h.flush io.flush
  unfold Harp.revertReady
  dsimp only
  split
  . exact hflush
  . split
    . exact hflush.snapshot _ _ _
    . exact hflush

theorem revertFinish (h : Named d) (src : Ref) (io : RevertIo) : Named (revertFinish d src io) := by
  unfold Harp.revertFinish
  split
  . exact h
  next pval _ =>
    have hval : Named { d with pval } := h.of_refs rfl rfl
    exact (hval.flush io.flush2).write _ io.write

theorem panelRevert (h : Named d) (refname : Bytes) (io : RevertIo)
    : Named (panelRevert d refname io) := by
  rcases panelRevert_cases d refname io with hsame | ⟨src, _, _, hcase⟩
  . rw [hsame]
    exact h
  . have hready := h.revertReady io
    rcases hcase with hcase | hcase
    . rw [hcase]
      exact hready
    . rw [hcase]
      exact hready.revertFinish src io

end Named

end Harp
