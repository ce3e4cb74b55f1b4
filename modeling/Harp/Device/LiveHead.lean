import Harp.Device.RefsetLemmas
import Harp.Device.Retention

/-!
This module contains the head of the live ref, and which operations of the device keep it along with
the refs of the retention namespaces.
-/

namespace Harp

def storedHash (s : Store) : Option Hash :=
  (storedAt s livePath).bind Ref.hash

-- Every ref is stored under its own name, and the cache is of the ref that is stored.
structure Sane (d : Device) : Prop where
  named : WellNamed d.store
  cached : ∀ c, d.liveCache = some c →
    comps c.name = livePath ∧ c.algOk = true ∧ c.hash = storedHash d.store

theorem Sane.liveHash_eq {d : Device} (h : Sane d) : liveHash d = storedHash d.store := by
  unfold liveHash
  cases hcache : d.liveCache with
  | none =>
    rw [currentAt_of_none hcache]
    rfl
  | some c =>
    rw [currentAt_live_of_some hcache, Option.bind_some]
    exact (h.cached c hcache).2.2

-- A path in one of the two namespaces the retention pass works on.
def Retained (p : List Comp) : Prop :=
  ¬ OutsideRetention p
deriving Decidable

section Write

variable {s : Store} {r : Ref}

theorem fileAt_liveWrite (hname : comps r.name = livePath) (io : WriteIo) {p : List Comp}
    (hp : Retained p) : fileAt (storeRefWrite s r io).2.refs p = fileAt s.refs p := by
  have hlive : p ≠ livePath := by
    rintro rfl
    exact hp outsideRetention_livePath
  have htmp : p ≠ tmpPath s.pid livePath := by
    rintro rfl
    apply hp
    have hhead : (tmpPath s.pid livePath).head? = livePath.head? := rfl
    unfold OutsideRetention
    rw [hhead]
    exact outsideRetention_livePath
  rcases storeRefWrite_cases s r io with ⟨_, _, _, hfile⟩ | ⟨_, hfile⟩
  . rw [hfile, hname, if_neg hlive, if_neg htmp]
  . rcases hfile p with hsame | ⟨heq, _⟩
    . exact hsame
    . rw [hname] at heq
      contradiction

theorem storedHash_liveWrite (hname : comps r.name = livePath) (halg : r.algOk = true) {io : WriteIo}
    (hio : io.keeps (refEncode r) = true)
    : storedHash (storeRefWrite s r io).2
        = if (storeRefWrite s r io).1 then r.hash else storedHash s := by
  unfold storedHash
  split
  next hw =>
    rw [storedAt_write_live halg hw hio hname]
    rfl
  next hw =>
    rw [Bool.not_eq_true] at hw
    rw [storedAt_write_other (.inl hw)]

-- The ref an operation on the live ref starts from.
theorem WellNamed.read_live (h : WellNamed s) (hread : storeRefRead s liveRef = some r)
    : comps r.name = livePath ∧ r.algOk = true ∧ r.hash = storedHash s := by
  have heq := storeRefRead_eq_storedAt hread (by decide)
  have hpath : comps liveRef = livePath := rfl
  rw [hpath] at heq
  unfold storedHash
  cases hstored : storedAt s livePath with
  | none =>
    rw [hstored] at heq
    subst heq
    exact ⟨rfl, rfl, rfl⟩
  | some r' =>
    rw [hstored] at heq
    subst heq
    exact ⟨h _ _ hstored, storedAt_algOk hstored, rfl⟩

end Write

-- The device goes on with the same head and the same files in the retention namespaces.
structure Calm (d d' : Device) : Prop where
  sane : Sane d'
  head : liveHash d' = liveHash d
  files : ∀ p, Retained p → fileAt d'.store.refs p = fileAt d.store.refs p

theorem Calm.refl {d : Device} (h : Sane d) : Calm d d :=
  ⟨h, rfl, fun _ _ => rfl⟩

theorem Calm.trans {d d' d'' : Device} (h : Calm d d') (h' : Calm d' d'') : Calm d d'' := by
  refine ⟨h'.sane, h'.head.trans h.head, ?_⟩
  intro p hp
  exact (h'.files p hp).trans (h.files p hp)

-- What the render thread changes is no part of the refs.
theorem Calm.of_refs {d d' : Device} (h : Sane d) (hcache : d'.liveCache = d.liveCache)
    (hrefs : d'.store.refs = d.store.refs) : Calm d d' := by
  have hread : ∀ p, storedAt d'.store p = storedAt d.store p := by
    intro p
    apply storedAt_congr
    rw [hrefs]
  have hstored : storedHash d'.store = storedHash d.store := by
    unfold storedHash
    rw [hread]
  have hsane : Sane d' := by
    constructor
    . apply h.named.of_subset
      intro p r hr
      rw [hread] at hr
      exact hr
    . rw [hcache, hstored]
      exact h.cached
  refine ⟨hsane, ?_, ?_⟩
  . rw [hsane.liveHash_eq, h.liveHash_eq, hstored]
  . intro p _
    rw [hrefs]

section Ops

variable {d : Device}

theorem liveRefTouch_calm (h : Sane d) (dirty : Bool) {io : WriteIo} (hio : io.lossless = true)
    : Calm d (liveRefTouch d dirty io) := by
  unfold liveRefTouch
  split
  . exact Calm.refl h
  next r hbase =>
    have hr : comps r.name = livePath ∧ r.algOk = true ∧ r.hash = storedHash d.store := by
      cases hcache : d.liveCache with
      | none =>
        rw [hcache] at hbase
        exact h.named.read_live hbase
      | some c =>
        rw [hcache] at hbase
        cases hbase
        exact h.cached r hcache
    rcases hr with ⟨hname, halg, hhash⟩
    dsimp only
    generalize hr' : ({ r with generation := r.generation + 1, dirty := dirty } : Ref) = r'
    have hname' : comps r'.name = livePath := by rw [← hr']; exact hname
    have halg' : r'.algOk = true := by rw [← hr']; exact halg
    have hhash' : r'.hash = storedHash d.store := by rw [← hr']; exact hhash
    have hstored : storedHash (if (dirty && !r.dirty) = true then (storeRefWrite d.store r' io).2
        else d.store) = storedHash d.store := by
      split
      . rw [storedHash_liveWrite hname' halg' (WriteIo.keeps_of_lossless hio _), hhash']
        split <;> rfl
      . rfl
    have hnamed : WellNamed (if (dirty && !r.dirty) = true then (storeRefWrite d.store r' io).2
        else d.store) := by
      split
      . exact h.named.storeRefWrite io
      . exact h.named
    refine ⟨⟨hnamed, ?_⟩, ?_, ?_⟩
    . intro c hc
      cases hc
      exact ⟨hname', halg', hhash'.trans hstored.symm⟩
    . rw [h.liveHash_eq]
      exact hhash'
    . intro p hp
      dsimp only
      split
      . exact fileAt_liveWrite hname' io hp
      . rfl

theorem liveCacheFlush_calm (h : Sane d) {io : WriteIo}
    (hio : ∀ c, d.liveCache = some c → io.keeps (refEncode c) = true)
    : Calm d (liveCacheFlush d io) := by
  unfold liveCacheFlush
  split
  . exact Calm.refl h
  next c hcache =>
    rcases h.cached c hcache with ⟨hname, halg, hhash⟩
    have hstored : storedHash (storeRefWrite d.store c io).2 = storedHash d.store := by
      rw [storedHash_liveWrite hname halg (hio c hcache), hhash]
      split <;> rfl
    have hsane : Sane { d with store := (storeRefWrite d.store c io).2, liveCache := none } := by
      refine ⟨h.named.storeRefWrite io, ?_⟩
      intro c' hc'
      cases hc'
    refine ⟨hsane, ?_, ?_⟩
    . rw [hsane.liveHash_eq, h.liveHash_eq]
      exact hstored
    . intro p hp
      exact fileAt_liveWrite hname io hp

theorem ctlTouch_calm (h : Sane d) {io : WriteIo} (hio : io.lossless = true)
    : Calm d (ctlTouch d io) := by
  unfold ctlTouch
  split
  . have hflag : Calm d { d with touchPending := false } := Calm.of_refs h rfl rfl
    exact hflag.trans (liveRefTouch_calm hflag.sane true hio)
  . exact Calm.refl h

theorem frontPanelSetPart_calm (h : Sane d) (part : Int) (id : Nat) (v : Ieee.F64) {io : WriteIo}
    (hio : io.lossless = true)
    : Calm d (frontPanelSetPart d part id v io).2 := by
  unfold frontPanelSetPart
  dsimp only
  split
  . exact Calm.refl h
  . split
    next p i _ _ =>
      have hval : Calm d { d with pval := gridPut d.pval p i (Ieee.narrow (clamp01 v)) } :=
        Calm.of_refs h rfl rfl
      exact hval.trans (liveRefTouch_calm hval.sane true hio)
    next => exact Calm.refl h

end Ops

section Move

variable {d : Device}

-- The head has moved to `h`; the files in the retention namespaces are the same.
structure Moved (d d' : Device) (h : Hash) : Prop where
  sane : Sane d'
  head : liveHash d' = some h
  files : ∀ p, Retained p → fileAt d'.store.refs p = fileAt d.store.refs p

theorem Calm.moved {d' d'' : Device} {x : Hash} (h : Calm d d') (h' : Moved d' d'' x)
    : Moved d d'' x := by
  refine ⟨h'.sane, h'.head, ?_⟩
  intro p hp
  exact (h'.files p hp).trans (h.files p hp)

-- A write of a ref with an empty cache.
theorem Sane.write (h : Sane d) (hcache : d.liveCache = none) (r : Ref) (pval : Grid) (io : WriteIo)
    : Sane { d with store := (storeRefWrite d.store r io).2, pval } := by
  refine ⟨h.named.storeRefWrite io, ?_⟩
  intro c hc
  rw [hcache] at hc
  contradiction

theorem liveWrite_cases (h : Sane d) (hcache : d.liveCache = none) {r : Ref}
    (hname : comps r.name = livePath) {x : Hash} (hhash : r.hash = some x) (halg : r.algOk = true)
    (pval : Grid) {io : WriteIo} (hio : io.lossless = true)
    : ((storeRefWrite d.store r io).1 = false
          ∧ Calm d { d with store := (storeRefWrite d.store r io).2, pval })
        ∨ ((storeRefWrite d.store r io).1 = true
          ∧ Moved d { d with store := (storeRefWrite d.store r io).2, pval } x) := by
  have hsane := h.write hcache r pval io
  have hhead : liveHash { d with store := (storeRefWrite d.store r io).2, pval }
      = if (storeRefWrite d.store r io).1 then some x else liveHash d := by
    rw [hsane.liveHash_eq, h.liveHash_eq, ← hhash]
    exact storedHash_liveWrite hname halg (WriteIo.keeps_of_lossless hio _)
  cases hw : (storeRefWrite d.store r io).1 with
  | false =>
    rw [hw, if_neg Bool.false_ne_true] at hhead
    exact .inl ⟨rfl, hsane, hhead, fun p hp => fileAt_liveWrite hname io hp⟩
  | true =>
    rw [hw, if_pos rfl] at hhead
    exact .inr ⟨rfl, hsane, hhead, fun p hp => fileAt_liveWrite hname io hp⟩

theorem doSnapshot_cases (h : Sane d) (msg : Option Bytes) (time : Nat) {io : SnapIo}
    (hio : io.flush.lossless = true ∧ io.ref.lossless = true)
    : ((doSnapshot d msg time io).1 = none ∧ Calm d (doSnapshot d msg time io).2)
        ∨ ∃ snap generation, (doSnapshot d msg time io).1 = some (snap, generation)
          ∧ snap.b.head? = some 0x01 ∧ Moved d (doSnapshot d msg time io).2 snap := by
  have hflush := liveCacheFlush_calm h fun c _ => WriteIo.keeps_of_lossless hio.1 (refEncode c)
  have hcache := liveCacheFlush_liveCache d io.flush
  unfold doSnapshot
  generalize liveCacheFlush d io.flush = d₁ at hflush hcache
  unfold snapshotLocked
  split
  . exact .inl ⟨rfl, hflush⟩
  next r hread =>
    have hrefs := engineSnapshotObjects_refs d₁.store d₁.pval r.hash msg time io
    split
    next store hobj =>
      rw [hobj] at hrefs
      exact .inl ⟨rfl, hflush.trans (Calm.of_refs hflush.sane rfl hrefs)⟩
    next snap store hobj =>
      rw [hobj] at hrefs
      have halg := engineSnapshotObjects_alg hobj
      have hput : Calm d { d₁ with store } := hflush.trans (Calm.of_refs hflush.sane rfl hrefs)
      have hname := (hflush.sane.named.read_live hread).1
      have hwrite := liveWrite_cases (r := r.moved snap) hput.sane hcache hname rfl
        (Ref.moved_algOk_of_alg halg r) d₁.pval hio.2
      dsimp only
      split
      next store' hw =>
        have hw' : storeRefWrite store (r.moved snap) io.ref = (false, store') := hw
        rw [hw'] at hwrite
        rcases hwrite with ⟨_, hcalm⟩ | ⟨htrue, _⟩
        . exact .inl ⟨rfl, hput.trans hcalm⟩
        . contradiction
      next store' hw =>
        have hw' : storeRefWrite store (r.moved snap) io.ref = (true, store') := hw
        rw [hw'] at hwrite
        rcases hwrite with ⟨hfalse, _⟩ | ⟨_, hmoved⟩
        . contradiction
        . exact .inr ⟨snap, _, rfl, halg, hput.moved hmoved⟩

variable {body : Option Bytes}

-- A refset of the live ref is refused or moves a head that passed the comparison.
theorem handleStateRefset_live (h : Sane d) (hlit : (refsetParse body).refname = liveRef)
    {io : RefsetIo} (hio : io.flush.lossless = true ∧ io.write.lossless = true)
    : ((∀ generation, (handleStateRefset d body io).1 ≠ .ok generation)
          ∧ Calm d (handleStateRefset d body io).2)
        ∨ ∃ generation newh r, (handleStateRefset d body io).1 = .ok generation
          ∧ (refsetParse body).newh = some newh ∧ casOk (refsetParse body) r = true
          ∧ r.hash = liveHash d ∧ Moved d (handleStateRefset d body io).2 newh := by
  have hgc : handleStateRefset d body io
      = ((refsetRespond d body io).rsp, (refsetRespond d body io).dev) := by
    unfold handleStateRefset
    dsimp only
    split
    . rw [hlit, maybeGc_of_none (by decide)]
    . rfl
  rw [hgc]
  have hexit := refsetRespond_exit d body io
  have hflush : refsetFlush d (refsetParse body) io.flush = liveCacheFlush d io.flush := by
    unfold refsetFlush
    rw [if_pos hlit]
  have hcalm := liveCacheFlush_calm h fun c _ => WriteIo.keeps_of_lossless hio.1 (refEncode c)
  have hcache := liveCacheFlush_liveCache d io.flush
  generalize refsetRespond d body io = out at hexit ⊢
  have hcommit : ∀ {newh guards r pval}, (refsetParse body).newh = some newh →
      refsetCheck (liveCacheFlush d io.flush) (refsetParse body) newh = (guards, .ok (r, pval)) →
      casOk (refsetParse body) r = true ∧ r.hash = liveHash d
        ∧ (((storeRefWrite (liveCacheFlush d io.flush).store (r.moved newh) io.write).1 = false
            ∧ Calm d ((liveCacheFlush d io.flush).commit (r.moved newh) pval io.write))
          ∨ ((storeRefWrite (liveCacheFlush d io.flush).store (r.moved newh) io.write).1 = true
            ∧ Moved d ((liveCacheFlush d io.flush).commit (r.moved newh) pval io.write) newh)) := by
    intro newh guards r pval hnewh hcheck
    have hpassed := refsetCheck_ok hcheck
    have hread := hpassed.read
    rw [hlit] at hread
    rcases hcalm.sane.named.read_live hread with ⟨hname, _, hhash⟩
    refine ⟨hpassed.cas, ?_, ?_⟩
    . rw [hhash, ← hcalm.sane.liveHash_eq, hcalm.head]
    . have halg := Ref.moved_algOk (refsetParse_newhOk body) hnewh r
      rcases liveWrite_cases (r := r.moved newh) hcalm.sane hcache hname rfl halg pval hio.2
        with ⟨hw, hstay⟩ | ⟨hw, hmove⟩
      . exact .inl ⟨hw, hcalm.trans hstay⟩
      . exact .inr ⟨hw, hcalm.moved hmove⟩
  cases hexit with
  | malformed => exact .inl ⟨by simp, Calm.refl h⟩
  | refused hq hcheck =>
    rw [hflush] at hcheck ⊢
    exact .inl ⟨(refsetCheck_error hcheck).1, hcalm⟩
  | stored hq hcheck hw =>
    rw [hflush] at hcheck hw ⊢
    rcases hcommit hq.1 hcheck with ⟨hcas, hhash, ⟨hfalse, _⟩ | ⟨_, hmove⟩⟩
    . rw [hfalse] at hw
      contradiction
    . exact .inr ⟨_, _, _, rfl, hq.1, hcas, hhash, hmove⟩
  | failed hq hcheck hw =>
    rw [hflush] at hcheck hw ⊢
    rcases hcommit hq.1 hcheck with ⟨_, _, ⟨_, hstay⟩ | ⟨htrue, _⟩⟩
    . exact .inl ⟨by simp, hstay⟩
    . rw [htrue] at hw
      contradiction

end Move

section Archive

variable {d : Device}

-- In the retention namespaces only the file at `q` may be new; the others are kept or gone.
structure Thinned (d d' : Device) (q : List Comp) : Prop where
  sane : Sane d'
  head : liveHash d' = liveHash d
  files : ∀ p, Retained p → p ≠ q →
    fileAt d'.store.refs p = fileAt d.store.refs p ∨ fileAt d'.store.refs p = none

theorem retained_of_prefix {name pre : Bytes} (h : retentionPrefix name = some pre)
    : Retained (comps name) := by
  have hhead : (comps name).head? = some archiveComp ∨ (comps name).head? = some duplicateComp := by
    unfold retentionPrefix at h
    split at h
    next hname => exact comps_of_retentionPrefix (.inl rfl) hname
    next =>
      split at h
      next hname => exact comps_of_retentionPrefix (.inr rfl) hname
      next => contradiction
  intro hout
  rcases hhead with hhead | hhead
  . exact hout.1 hhead
  . exact hout.2 hhead

theorem maybeGc_thinned (h : Sane d) (refname : Bytes) (q : List Comp)
    : Thinned d (maybeGc d refname) q := by
  have hsub := fileAt_maybeGc_sub d refname
  have hlive := storedAt_congr (fileAt_maybeGc outsideRetention_livePath d refname)
  have hsane : Sane (maybeGc d refname) := by
    constructor
    . apply h.named.of_subset
      intro p r hr
      rcases hsub p with hsame | hnone
      . rw [storedAt_congr hsame] at hr
        exact hr
      . unfold storedAt at hr
        rw [hnone] at hr
        contradiction
    . unfold storedHash
      rw [maybeGc_liveCache, hlive]
      exact h.cached
  refine ⟨hsane, ?_, fun p _ _ => hsub p⟩
  unfold liveHash
  rw [currentAt_maybeGc_live]

theorem archiveWrite_thinned (h : Sane d) {r : Ref} (hr : Retained (comps r.name)) (pval : Grid)
    (io : WriteIo) {q : List Comp}
    (hq : (storeRefWrite d.store r io).1 = true → q = comps r.name)
    : Thinned d { d with store := (storeRefWrite d.store r io).2, pval } q := by
  have hlive : comps r.name ≠ livePath := by
    intro heq
    rw [heq] at hr
    exact hr outsideRetention_livePath
  have hread : storedAt (storeRefWrite d.store r io).2 livePath = storedAt d.store livePath :=
    storedAt_write_other (.inr hlive)
  have hstored : storedHash (storeRefWrite d.store r io).2 = storedHash d.store := by
    unfold storedHash
    rw [hread]
  have hsane : Sane { d with store := (storeRefWrite d.store r io).2, pval } := by
    refine ⟨h.named.storeRefWrite io, ?_⟩
    dsimp only
    rw [hstored]
    exact h.cached
  refine ⟨hsane, ?_, ?_⟩
  . rw [hsane.liveHash_eq, h.liveHash_eq]
    exact hstored
  . intro p _ hp
    rcases storeRefWrite_cases d.store r io with ⟨hw, _, _, hfile⟩ | ⟨_, hfile⟩
    . rw [hq hw] at hp
      dsimp only
      rw [hfile, if_neg hp]
      split
      . exact .inr rfl
      . exact .inl rfl
    . rcases hfile p with hsame | ⟨_, hnone⟩
      . exact .inl hsame
      . exact .inr hnone

theorem Thinned.trans {d' d'' : Device} {q : List Comp} (h : Thinned d d' q)
    (h' : Thinned d' d'' q) : Thinned d d'' q := by
  refine ⟨h'.sane, h'.head.trans h.head, ?_⟩
  intro p hp hq
  rcases h'.files p hp hq with hsame | hnone
  . rw [hsame]
    exact h.files p hp hq
  . exact .inr hnone

theorem WellNamed.read_name {s : Store} (h : WellNamed s) {name : Bytes} {r : Ref}
    (hread : storeRefRead s name = some r) : comps r.name = comps name := by
  cases hdot : endsInDot name with
  | true =>
    rw [storeRefRead_of_endsInDot hread hdot]
    rfl
  | false =>
    rw [storeRefRead_eq_storedAt hread hdot]
    cases hstored : storedAt s (comps name) with
    | none => rfl
    | some r' => exact h _ _ hstored

-- Fewer than `archiveKeep` refs that the retention pass counts have a greater name than `r`.
def Spared (s : Store) (pre : Bytes) (r : Ref) : Prop :=
  (listedRefs s).countP (fun r' => pre.isPrefixOf r'.name && decide (r.name < r'.name))
    < archiveKeep
deriving Decidable

theorem storedAt_maybeGc_spared (h : Sane d) {refname pre : Bytes}
    (hpre : retentionPrefix refname = some pre) {p : List Comp} {r : Ref}
    (hread : storedAt d.store p = some r) (hspared : Spared d.store pre r)
    : storedAt (maybeGc d refname).store p = some r := by
  rw [storedAt_congr (s := (pruneNamespace d.store pre).store)]
  . exact (storedAt_pruneNamespace (retentionPrefix_some hpre) h.named hread hspared).2
  . rw [maybeGc_refs hpre]

variable {body : Option Bytes} {pre : Bytes}

-- A request that creates only finds no hash at its path.
theorem Passed.unborn {q : RefsetReq} {newh : Hash} {guards : List Guard} {r r₀ : Ref} {pval : Grid}
    {io : WriteIo} (h : Passed d q newh guards r pval) (hnull : q.expectNull = true)
    (hforce : q.force = false) (hw : (storeRefWrite d.store (r.moved newh) io).1 = true)
    (hr₀ : storedAt d.store (comps q.refname) = some r₀) : r₀.hash = none := by
  have hdot : endsInDot q.refname = false := by
    cases hdot : endsInDot q.refname with
    | false => rfl
    | true =>
      have hunborn := storeRefRead_of_endsInDot h.read hdot
      have hwdot := endsInDot_of_write hw
      rw [hunborn] at hwdot
      exact hdot.symm.trans hwdot
  have heq := storeRefRead_eq_storedAt h.read hdot
  rw [hr₀, Option.getD_some] at heq
  subst heq
  have hcas := h.cas
  unfold casOk at hcas
  rw [hforce, hnull] at hcas
  cases hhash : r.hash with
  | none => rfl
  | some x =>
    rw [hhash] at hcas
    simp at hcas

-- Creating a ref in a retention namespace: it is refused, or a new ref is written and then spared.
theorem handleStateRefset_archive (h : Sane d)
    (hpre : retentionPrefix (refsetParse body).refname = some pre)
    (hnull : (refsetParse body).expectNull = true) (hforce : (refsetParse body).force = false)
    {io : RefsetIo} (hio : io.write.lossless = true)
    : ((∀ generation, (handleStateRefset d body io).1 ≠ .ok generation)
          ∧ ((∃ msg hash generation dirty,
              (handleStateRefset d body io).1 = .conflict msg hash generation dirty) →
            (handleStateRefset d body io).2 = d)
          ∧ Thinned d (handleStateRefset d body io).2 [])
        ∨ ∃ generation newh r, (handleStateRefset d body io).1 = .ok generation
          ∧ (refsetParse body).newh = some newh
          ∧ Thinned d (handleStateRefset d body io).2 (comps (refsetParse body).refname)
          ∧ (∀ r₀, storedAt d.store (comps (refsetParse body).refname) = some r₀ → r₀.hash = none)
          ∧ r.hash = some newh
          ∧ storedAt (refsetRespond d body io).dev.store (comps (refsetParse body).refname) = some r
          ∧ (Spared (refsetRespond d body io).dev.store pre r →
            storedAt (handleStateRefset d body io).2.store (comps (refsetParse body).refname)
              = some r) := by
  have hexit := refsetRespond_exit d body io
  have hretained := retained_of_prefix hpre
  have hne : (refsetParse body).refname ≠ liveRef := by
    intro heq
    rw [heq] at hretained
    exact hretained outsideRetention_livePath
  have hflush : refsetFlush d (refsetParse body) io.flush = d := by
    unfold refsetFlush
    rw [if_neg hne]
  have hsame : Thinned d d [] := ⟨h, rfl, fun _ _ _ => .inl rfl⟩
  unfold handleStateRefset
  dsimp only
  generalize refsetRespond d body io = out at hexit ⊢
  cases hexit with
  | malformed => exact .inl ⟨by simp, fun _ => rfl, hsame⟩
  | @refused newh guards rsp hq hcheck =>
    rw [hflush]
    have hok := (refsetCheck_error hcheck).1
    dsimp only
    split
    next generation => exact absurd rfl (hok generation)
    next => exact .inl ⟨hok, fun _ => rfl, hsame⟩
  | @stored newh guards r pval hq hcheck hw =>
    rw [hflush] at hcheck hw ⊢
    have hpassed := refsetCheck_ok hcheck
    have hname := h.named.read_name hpassed.read
    have halg := Ref.moved_algOk (refsetParse_newhOk body) hq.1 r
    have hwrite : Thinned d (d.commit (r.moved newh) pval io.write) (comps (refsetParse body).refname) := by
      apply archiveWrite_thinned h
      . rw [← hname] at hretained
        exact hretained
      . intro _
        exact hname.symm
    have hread : storedAt (d.commit (r.moved newh) pval io.write).store (comps (refsetParse body).refname)
        = some (r.moved newh) := by
      unfold Device.commit
      dsimp only
      rw [storedAt_storeRefWrite_true hw halg (WriteIo.keeps_of_lossless hio _), if_pos]
      exact hname.symm
    refine .inr ⟨_, newh, r.moved newh, rfl, hq.1, ?_, ?_, rfl, hread, ?_⟩
    . exact hwrite.trans (maybeGc_thinned hwrite.sane _ _)
    . exact fun r₀ hr₀ => hpassed.unborn hnull hforce hw hr₀
    . intro hspared
      exact storedAt_maybeGc_spared hwrite.sane hpre hread hspared
  | @failed newh guards r pval hq hcheck hw =>
    rw [hflush] at hcheck hw ⊢
    have hpassed := refsetCheck_ok hcheck
    have hname := h.named.read_name hpassed.read
    have halg := Ref.moved_algOk (refsetParse_newhOk body) hq.1 r
    refine .inl ⟨by simp, by simp, ?_⟩
    apply archiveWrite_thinned h
    . rw [← hname] at hretained
      exact hretained
    . intro htrue
      rw [hw] at htrue
      contradiction

end Archive

end Harp
