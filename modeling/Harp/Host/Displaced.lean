import Harp.Device.LiveHead
import Harp.Device.LostUpdate
import Harp.Host.PushStateLemmas
import Harp.Lib.Run

/-!
This module contains the contract of `pushStateLocked`: a head that was displaced is kept by a ref in
a retention namespace, no ref there is moved, and a push that reports failure has not set the live
ref to its target.
-/

namespace Harp

open Runs

-- The ref in a file, whether the file can be opened or not.
def storedRef (s : Store) (p : List Comp) : Option Ref :=
  match fileAt s.refs p with
  | some (_, data) => (refDecode (Cdec.init (data.take 1024))).1
  | none => none

def Archived (d : Device) (h : Hash) : Prop :=
  ∃ p r, Retained p ∧ storedAt d.store p = some r ∧ r.hash = some h

def RefsKept (d₀ d : Device) : Prop :=
  ∀ p r r', Retained p → storedRef d₀.store p = some r → r.hash ≠ none →
    storedRef d.store p = some r' → r'.hash = r.hash

-- The live ref is where it was, or where a snapshot of this run has put it.
def Unset (m₀ m : PushRun) : Prop :=
  liveHash m.dev = liveHash m₀.dev ∨ ∃ h, m.snap = some h ∧ liveHash m.dev = some h

structure NothingLost (m₀ m : PushRun) : Prop where
  archived : ∀ answered old, m.phase = .done true answered (some old) → old ≠ m.target →
    Archived m.dev old
  kept : RefsKept m₀.dev m.dev
  refused : ∀ displaced, m.phase = .done false true displaced → Unset m₀ m

-- A device whose refs are stored under their own names and can be opened, before the first request.
structure PushStart (m : PushRun) : Prop where
  phase : m.phase = .refs
  snap : m.snap = none
  sane : Sane m.dev
  readable : ∀ p data, Retained p → fileAt m.dev.store.refs p ≠ some (false, data)

-- The device when it answers a request for an archive ref, before its retention pass.
def archiveOut (m : PushRun) (io : HostIo) (head : Hash) (duplicate : Bool) (now : Tm) (seq : Nat)
    : RefsetOut :=
  refsetRespond (ctlTouch m.dev io.touch) (archiveBody head duplicate now seq) io.refset

-- A retention pass leaves the archive ref that was just written.
def ArchiveSpared (m : PushRun) (io : HostIo) : Prop :=
  match m.phase with
  | .archive _ head duplicate now seq =>
    let out := archiveOut m io head duplicate now seq
    let name := archiveName duplicate now seq
    ∀ generation pre r, io.link = .answered → out.rsp = .ok generation →
      retentionPrefix name = some pre → storedAt out.dev.store (comps name) = some r →
        Spared out.dev.store pre r
  | _ => True

-- No ref write of the step loses bytes unnoticed.
def Edit.Lossless : Edit → Prop
  | .panel _ _ _ io | .ctl io => io.lossless = true
  | .render _ _ _ => True

def HostIo.Lossless (io : HostIo) : Prop :=
  ∀ w ∈ [io.touch, io.flush, io.snap.flush, io.snap.ref, io.refset.flush, io.refset.write],
    w.lossless = true

instance decidableLossless (io : HostIo) : Decidable io.Lossless :=
  inferInstanceAs (Decidable (∀ w ∈ _, _))

def Spares (m : PushRun) : PushAct → Prop
  | .edit e => e.Lossless
  | .host io => io.Lossless ∧ ArchiveSpared m io

section Steps

variable {d₀ d d' : Device} {h : Hash}

theorem storedAt_eq_storedRef {s : Store} {p : List Comp}
    (hreadable : ∀ data, fileAt s.refs p ≠ some (false, data)) : storedAt s p = storedRef s p := by
  unfold storedAt storedRef
  rcases hfile : fileAt s.refs p with _ | ⟨_ | _, data⟩
  . rfl
  . exact absurd hfile (hreadable data)
  . rfl

def FilesKept (d₀ d : Device) : Prop :=
  ∀ p, Retained p → fileAt d.store.refs p = fileAt d₀.store.refs p

theorem FilesKept.refsKept (hk : FilesKept d₀ d) : RefsKept d₀ d := by
  intro p r r' hp hr _ hr'
  unfold storedRef at hr hr'
  rw [hk p hp, hr] at hr'
  cases hr'
  rfl

theorem FilesKept.calm (hk : FilesKept d₀ d) (hc : Calm d d') : FilesKept d₀ d' := by
  intro p hp
  exact (hc.files p hp).trans (hk p hp)

theorem RefsKept.of_files (hk : RefsKept d₀ d) (hc : FilesKept d d') : RefsKept d₀ d' := by
  intro p r r' hp hr hhash hr'
  unfold storedRef at hr'
  rw [hc p hp] at hr'
  exact hk p r r' hp hr hhash hr'

theorem Archived.of_files (ha : Archived d h) (hc : FilesKept d d') : Archived d' h := by
  rcases ha with ⟨p, r, hp, hr, hhash⟩
  refine ⟨p, r, hp, ?_, hhash⟩
  rw [storedAt_congr (hc p hp)]
  exact hr

theorem request_calm {α : Type} (link : Link) (handle : Device → α × Device) (hs : Sane d)
    (hh : Calm d (handle d).2) : Calm d (link.request d handle).2 := by
  cases link with
  | lost => exact Calm.refl hs
  | unanswered => exact hh
  | answered => exact hh

theorem edit_calm (hs : Sane d) {e : Edit} (he : e.Lossless) : Calm d (d.edit e) := by
  cases e with
  | panel part id v io => exact frontPanelSetPart_calm hs part id v he
  | render pval ramps touched => exact Calm.of_refs hs rfl rfl
  | ctl io => exact ctlTouch_calm hs he

theorem handleStateRefs_calm (hs : Sane d) {touch io : WriteIo} (htouch : touch.lossless = true)
    (hio : io.lossless = true) : Calm d (handleStateRefs (ctlTouch d touch) liveRef io).2 := by
  have htouch := ctlTouch_calm hs htouch
  have hflush := htouch.trans
    (liveCacheFlush_calm htouch.sane fun c _ => WriteIo.keeps_of_lossless hio (refEncode c))
  unfold handleStateRefs
  dsimp only
  split
  . split
    . exact hflush
    . exact hflush
  . exact hflush

theorem handleStateSnapshot_cases (hs : Sane d) {touch : WriteIo} (htouch : touch.lossless = true)
    (shed : Bool) (msg : Bytes) (time : Nat) {io : SnapIo}
    (hio : io.flush.lossless = true ∧ io.ref.lossless = true)
    : ((handleStateSnapshot (ctlTouch d touch) shed msg time io).1 = none
          ∧ Calm d (handleStateSnapshot (ctlTouch d touch) shed msg time io).2)
        ∨ ∃ snap, (handleStateSnapshot (ctlTouch d touch) shed msg time io).1 = some snap
          ∧ Moved d (handleStateSnapshot (ctlTouch d touch) shed msg time io).2 snap := by
  have htouch := ctlTouch_calm hs htouch
  unfold handleStateSnapshot
  cases shed with
  | true => exact .inl ⟨rfl, htouch⟩
  | false =>
    rw [if_neg Bool.false_ne_true]
    rcases doSnapshot_cases htouch.sane (some msg) time hio with
      ⟨hnone, hcalm⟩ | ⟨snap, generation, hsome, _, hmoved⟩
    . rcases hsnap : doSnapshot (ctlTouch d touch) (some msg) time io with ⟨res, d'⟩
      rw [hsnap] at hnone hcalm
      dsimp only at hnone hcalm
      subst hnone
      exact .inl ⟨rfl, htouch.trans hcalm⟩
    . rcases hsnap : doSnapshot (ctlTouch d touch) (some msg) time io with ⟨res, d'⟩
      rw [hsnap] at hsome hmoved
      dsimp only at hsome hmoved
      subst hsome
      exact .inr ⟨snap, rfl, htouch.moved hmoved⟩

variable {head : Hash} {duplicate : Bool} {now : Tm} {seq : Nat} {touch : WriteIo} {io : RefsetIo}

theorem Thinned.refsKept {q : List Comp} (hk : FilesKept d₀ d) (ht : Thinned d d' q)
    (hq : ∀ r, storedRef d₀.store q = some r → Retained q → r.hash = none) : RefsKept d₀ d' := by
  intro p r r' hp hr hhash hr'
  by_cases hpq : p = q
  . subst hpq
    exact absurd (hq r hr hp) hhash
  . unfold storedRef at hr hr'
    rcases ht.files p hp hpq with hsame | hnone
    . rw [hsame, hk p hp, hr] at hr'
      cases hr'
      rfl
    . rw [hnone] at hr'
      contradiction

-- A request for an archive ref never moves a ref that is there.
structure ArchiveStep (d₀ d : Device) (head : Hash) (name : Bytes) (answered : Device)
    (out : RefsetRsp × Device) : Prop where
  sane : Sane out.2
  live : liveHash out.2 = liveHash d
  kept : RefsKept d₀ out.2
  conflict : (∃ msg hash generation dirty, out.1 = .conflict msg hash generation dirty) →
    FilesKept d₀ out.2
  archived : ∀ generation, out.1 = .ok generation →
    (∀ pre r, retentionPrefix name = some pre → storedAt answered.store (comps name) = some r →
      Spared answered.store pre r) → Archived out.2 head

theorem archive_step (head : Hash) (duplicate : Bool) (now : Tm) (seq : Nat)
    (htouch : touch.lossless = true) (hio : io.write.lossless = true) (hs : Sane d) (hk : FilesKept d₀ d)
    (hreadable : ∀ p data, Retained p → fileAt d₀.store.refs p ≠ some (false, data))
    : ArchiveStep d₀ d head (archiveName duplicate now seq)
        (refsetRespond (ctlTouch d touch) (archiveBody head duplicate now seq) io).dev
        (handleStateRefset (ctlTouch d touch) (archiveBody head duplicate now seq) io) := by
  have htouch := ctlTouch_calm hs htouch
  have hk' := hk.calm htouch
  have hparse := archiveBody_parse duplicate now seq head
  rcases retentionPrefix_archiveName duplicate now seq with ⟨pre, hpre⟩
  have hretained := retained_of_prefix hpre
  have hname : retentionPrefix (refsetParse (archiveBody head duplicate now seq)).refname = some pre := by
    rw [hparse]
    exact hpre
  have hnull : (refsetParse (archiveBody head duplicate now seq)).expectNull = true := by
    rw [hparse]
    rfl
  have hforce : (refsetParse (archiveBody head duplicate now seq)).force = false := by
    rw [hparse]
    apply RefsetReq.ofClient_force
  rcases handleStateRefset_archive htouch.sane hname hnull hforce hio with
      ⟨hne, hconflict, hthin⟩ | ⟨generation, newh, r, hok, hnewh, hthin, hfree, hhash, hread, hspared⟩
  . refine ⟨hthin.sane, hthin.head.trans htouch.head, ?_, ?_, ?_⟩
    . apply hthin.refsKept hk'
      intro r _ hnil
      exact absurd (by decide) hnil
    . intro h
      rw [hconflict h]
      exact hk'
    . intro generation hok
      exact absurd hok (hne generation)
  . rw [hparse] at hnewh hthin hfree hread hspared
    refine ⟨hthin.sane, hthin.head.trans htouch.head, ?_, ?_, ?_⟩
    . apply hthin.refsKept hk'
      intro r₀ hr₀ hp
      apply hfree
      rw [storedAt_congr (hk' _ hp)]
      rw [storedAt_eq_storedRef (fun data => hreadable _ data hp)]
      exact hr₀
    . rintro ⟨msg, hash, generation', dirty, hconflict⟩
      rw [hok] at hconflict
      cases hconflict
    . intro _ _ hspare
      refine ⟨_, r, hretained, hspared (hspare pre r hpre hread), ?_⟩
      rw [hhash, Hash.known_some hnewh]

-- The head the comparison lets through is the one the host has archived.
structure CasStep (d : Device) (live : Ref) (deviceHead : Option Hash) (out : RefsetRsp × Device)
    : Prop where
  sane : Sane out.2
  files : FilesKept d out.2
  passed : ∀ generation, out.1 = .ok generation →
    ∀ old, liveHash d = some old → live.hash ≠ none ∧ deviceHead = some old
  refused : (∀ generation, out.1 ≠ .ok generation) → liveHash out.2 = liveHash d

theorem cas_step (htouch : touch.lossless = true)
    (hio : io.flush.lossless = true ∧ io.write.lossless = true) (hs : Sane d) (m : PushRun)
    (live : Ref) (deviceHead : Option Hash)
    : CasStep d live deviceHead
        (handleStateRefset (ctlTouch d touch) (m.casBody live deviceHead) io) := by
  have htouch := ctlTouch_calm hs htouch
  have hparse := casBody_parse m live deviceHead
  have hlit : (refsetParse (m.casBody live deviceHead)).refname = liveRef := by
    rw [hparse]
    rfl
  rcases handleStateRefset_live htouch.sane hlit hio with
    ⟨hne, hcalm⟩ | ⟨generation, newh, r, hok, _, hcas, hhash, hmoved⟩
  . have hcalm' := htouch.trans hcalm
    refine ⟨hcalm'.sane, hcalm'.files, ?_, fun _ => hcalm'.head⟩
    intro generation hok
    exact absurd hok (hne generation)
  . have hmoved' := htouch.moved hmoved
    refine ⟨hmoved'.sane, hmoved'.files, ?_, fun hne => absurd hok (hne generation)⟩
    intro _ _ old hold
    rw [htouch.head, hold] at hhash
    rw [hparse] at hcas
    unfold casOk at hcas
    rw [RefsetReq.ofClient_force, hhash] at hcas
    simp only [RefsetReq.ofClient, Bool.false_or, Bool.and_eq_true, beq_iff_eq] at hcas
    rcases hcas with ⟨⟨_, hexpect⟩, _⟩
    cases hborn : live.hash with
    | none =>
      rw [hborn] at hexpect
      cases hexpect
    | some x =>
      rw [hborn] at hexpect
      dsimp only [Option.isNone] at hexpect
      rw [if_neg Bool.false_ne_true, Option.bind_eq_some_iff] at hexpect
      rcases hexpect with ⟨h, hhead, hknown⟩
      rw [Hash.known_some hknown]
      exact ⟨by simp, hhead⟩

end Steps

section Phases

variable {m₀ m : PushRun}

-- What the run has done so far, by phase.
def PhaseInv (m₀ m : PushRun) : Prop :=
  match m.phase with
  | .push live deviceHead | .cas live deviceHead =>
    Unset m₀ m ∧ RefsKept m₀.dev m.dev
      ∧ ∀ h, live.hash ≠ none → deviceHead = some h → h ≠ m.target → Archived m.dev h
  | .done ret answered displaced =>
    RefsKept m₀.dev m.dev
      ∧ (ret = true → ∀ old, displaced = some old → old ≠ m.target → Archived m.dev old)
      ∧ (ret = false → answered = true → Unset m₀ m)
  | _ => Unset m₀ m ∧ FilesKept m₀.dev m.dev

structure PushInv (m₀ m : PushRun) : Prop where
  sane : Sane m.dev
  phase : PhaseInv m₀ m

theorem PushInv.nothingLost (h : PushInv m₀ m) : NothingLost m₀ m := by
  have hphase := h.phase
  unfold PhaseInv at hphase
  constructor
  . intro answered old hdone hne
    rw [hdone] at hphase
    exact hphase.2.1 rfl old rfl hne
  . split at hphase
    . exact hphase.2.1
    . exact hphase.2.1
    . exact hphase.1
    . exact hphase.2.refsKept
  . intro displaced hdone
    rw [hdone] at hphase
    exact hphase.2.2 rfl rfl

theorem Unset.calm (h : Unset m₀ m) {d' : Device} (hc : Calm m.dev d')
    : Unset m₀ { m with dev := d' } := by
  unfold Unset
  dsimp only
  rw [hc.head]
  exact h

theorem PhaseInv.calm (h : PhaseInv m₀ m) {d' : Device} (hc : Calm m.dev d')
    : PhaseInv m₀ { m with dev := d' } := by
  unfold PhaseInv at h ⊢
  dsimp only
  split at h
  . exact ⟨h.1.calm hc, h.2.1.of_files hc.files, fun x h₁ h₂ h₃ => (h.2.2 x h₁ h₂ h₃).of_files hc.files⟩
  . exact ⟨h.1.calm hc, h.2.1.of_files hc.files, fun x h₁ h₂ h₃ => (h.2.2 x h₁ h₂ h₃).of_files hc.files⟩
  . refine ⟨h.1.of_files hc.files, ?_, ?_⟩
    . intro hret old hold hne
      exact (h.2.1 hret old hold hne).of_files hc.files
    . intro hret hanswered
      exact (h.2.2 hret hanswered).calm hc
  . exact ⟨h.1.calm hc, h.2.calm hc⟩

-- The end of a run that moved nothing.
theorem PhaseInv.done (hunset : Unset m₀ m) (hk : RefsKept m₀.dev m.dev) (ret answered : Bool)
    : PhaseInv m₀ { m with phase := .done ret answered none } := by
  refine ⟨hk, ?_, fun _ _ => hunset⟩
  intro _ old hnone
  cases hnone

theorem PhaseInv.unanswered {d' : Device} (hk : RefsKept m₀.dev d')
    : PhaseInv m₀ { m with dev := d', phase := .done false false none } := by
  refine ⟨hk, ?_, ?_⟩
  . intro hret
    cases hret
  . intro _ hanswered
    cases hanswered

theorem refs_inv (h : PushInv m₀ m) (hphase : m.phase = .refs) {io : HostIo} (hio : io.Lossless)
    : PushInv m₀ (m.host io) := by
  have hinv := h.phase
  unfold PhaseInv at hinv
  rw [hphase] at hinv
  have hcalm := request_calm io.link
    (fun d => handleStateRefs (ctlTouch d io.touch) liveRef io.flush) h.sane
    (handleStateRefs_calm h.sane (hio _ (by simp)) (hio _ (by simp)))
  have hunset := hinv.1.calm hcalm
  have hk := hinv.2.calm hcalm
  unfold PushRun.host
  rw [hphase]
  dsimp only
  generalize (io.link.request m.dev fun d => handleStateRefs (ctlTouch d io.touch) liveRef io.flush).2
    = dev at hcalm hunset hk
  split
  . exact ⟨hcalm.sane, .done hunset hk.refsKept _ _⟩
  . split
    . exact ⟨hcalm.sane, .done hunset hk.refsKept _ _⟩
    . refine ⟨hcalm.sane, ?_⟩
      unfold PushRun.afterRefs
      split
      . exact .done hunset hk.refsKept _ _
      . split
        . exact ⟨hunset, hk⟩
        . exact ⟨hunset, hk⟩

theorem snapshot_inv (h : PushInv m₀ m) {live : Ref} (hphase : m.phase = .snapshot live)
    {io : HostIo} (hio : io.Lossless)
    : PushInv m₀ (m.host io) := by
  have hinv := h.phase
  unfold PhaseInv at hinv
  rw [hphase] at hinv
  have hcases := handleStateSnapshot_cases h.sane (hio io.touch (by simp)) io.shed
    (ascii "VST3 shell") io.time ⟨hio io.snap.flush (by simp), hio io.snap.ref (by simp)⟩
  rcases hout : handleStateSnapshot (ctlTouch m.dev io.touch) io.shed (ascii "VST3 shell") io.time
    io.snap with ⟨rsp, dev⟩
  rw [hout] at hcases
  have hkept : FilesKept m.dev dev ∧ Sane dev := by
    rcases hcases with ⟨_, hcalm⟩ | ⟨_, _, hmoved⟩
    . exact ⟨hcalm.files, hcalm.sane⟩
    . exact ⟨hmoved.files, hmoved.sane⟩
  have hk : FilesKept m₀.dev dev := by
    intro p hp
    exact (hkept.1 p hp).trans (hinv.2 p hp)
  unfold PushRun.host
  rw [hphase]
  cases io.link with
  | lost => exact ⟨h.sane, .done hinv.1 hinv.2.refsKept _ _⟩
  | unanswered =>
    simp only [Link.request, hout]
    exact ⟨hkept.2, .unanswered hk.refsKept⟩
  | answered =>
    simp only [Link.request, hout]
    rcases hcases with ⟨hnone, hcalm⟩ | ⟨snap, hsome, hmoved⟩
    . dsimp only at hnone
      subst hnone
      exact ⟨hkept.2, .done (hinv.1.calm hcalm) hk.refsKept _ _⟩
    . dsimp only at hsome
      subst hsome
      exact ⟨hkept.2, .inr ⟨snap, rfl, hmoved.head⟩, hk⟩

theorem choose_inv (h : PushInv m₀ m) {live : Ref} {deviceHead : Option Hash}
    (hphase : m.phase = .choose live deviceHead) (io : HostIo) : PushInv m₀ (m.host io) := by
  have hinv := h.phase
  unfold PhaseInv at hinv
  rw [hphase] at hinv
  have hunset : ∀ consentEngineMajor phase, Unset m₀ { m with consentEngineMajor, phase } :=
    fun _ _ => hinv.1
  unfold PushRun.host
  rw [hphase]
  dsimp only
  split
  . exact ⟨h.sane, .done hinv.1 hinv.2.refsKept _ _⟩
  . split
    . exact ⟨h.sane, .done hinv.1 hinv.2.refsKept _ _⟩
    . refine ⟨h.sane, ?_⟩
      unfold PushRun.afterChoice PhaseInv
      split
      next phase live' deviceHead' hpush =>
        refine ⟨hunset _ _, hinv.2.refsKept, ?_⟩
        intro x hborn hhead hne
        dsimp only at hpush hne ⊢
        split at hpush
        . split at hpush
          . cases hpush
          next heq =>
            cases hpush
            cases hhead
            rw [Classical.not_not] at heq
            contradiction
        next hnone =>
          cases hpush
          cases hlive : live.hash with
          | none => contradiction
          | some x' => exact (hnone x' x hlive hhead).elim
      next hcas =>
        dsimp only at hcas
        split at hcas
        . split at hcas <;> cases hcas
        . cases hcas
      next hdone =>
        dsimp only at hdone
        split at hdone
        . split at hdone <;> cases hdone
        . cases hdone
      next => exact ⟨hunset _ _, hinv.2⟩

theorem archive_inv (h : PushInv m₀ m) (hstart : PushStart m₀) {live : Ref} {head : Hash}
    {duplicate : Bool} {now : Tm} {seq : Nat}
    (hphase : m.phase = .archive live head duplicate now seq) {io : HostIo} (hio : io.Lossless)
    (hspares : ArchiveSpared m io) : PushInv m₀ (m.host io) := by
  have hinv := h.phase
  unfold PhaseInv at hinv
  rw [hphase] at hinv
  unfold ArchiveSpared at hspares
  rw [hphase] at hspares
  have hstep := archive_step head duplicate now seq (hio io.touch (by simp))
    (hio io.refset.write (by simp)) h.sane hinv.2 hstart.readable
  have hrsp : ∀ generation,
      (handleStateRefset (ctlTouch m.dev io.touch) (archiveBody head duplicate now seq) io.refset).1
        = .ok generation → (archiveOut m io head duplicate now seq).rsp = .ok generation := by
    intro generation
    unfold handleStateRefset archiveOut
    dsimp only
    split
    . exact id
    . exact id
  rcases hout : handleStateRefset (ctlTouch m.dev io.touch) (archiveBody head duplicate now seq)
    io.refset with ⟨rsp, dev⟩
  rw [hout] at hstep hrsp
  have hunset : ∀ phase, Unset m₀ { m with dev, phase } := by
    intro phase
    unfold Unset
    dsimp only
    rw [hstep.live]
    exact hinv.1
  unfold PushRun.host
  rw [hphase]
  dsimp only
  split
  . exact ⟨h.sane, .done hinv.1 hinv.2.refsKept _ _⟩
  . cases hlink : io.link with
    | lost => exact ⟨h.sane, .done hinv.1 hinv.2.refsKept _ _⟩
    | unanswered =>
      simp only [Link.request, hout]
      exact ⟨hstep.sane, .unanswered hstep.kept⟩
    | answered =>
      simp only [Link.request, hout]
      split
      next hnone => cases hnone
      next generation hok =>
        cases hok
        refine ⟨hstep.sane, hunset _, hstep.kept, ?_⟩
        intro x _ hx _
        cases hx
        apply hstep.archived generation rfl
        intro pre r hpre hread
        exact hspares generation pre r hlink (hrsp generation rfl) hpre hread
      next hconflict =>
        cases hconflict
        exact ⟨hstep.sane, hunset _, hstep.conflict ⟨_, _, _, _, rfl⟩⟩
      . exact ⟨hstep.sane, .done (m := { m with dev }) (hunset m.phase) hstep.kept _ _⟩

theorem push_inv (h : PushInv m₀ m) {live : Ref} {deviceHead : Option Hash}
    (hphase : m.phase = .push live deviceHead) (io : HostIo) : PushInv m₀ (m.host io) := by
  have hinv := h.phase
  have hrefs := pushClosure_refs m.local_ m.dev.store m.target io.push
  unfold PushRun.host
  rw [hphase]
  dsimp only
  rcases hout : pushClosure m.local_ m.dev.store m.target io.push with ⟨ok, store⟩
  rw [hout] at hrefs
  have hcalm : Calm m.dev { m.dev with store } := Calm.of_refs h.sane rfl hrefs
  have hpush := hinv.calm hcalm
  unfold PhaseInv at hpush
  dsimp only at hpush ⊢
  rw [hphase] at hpush
  cases ok with
  | true => exact ⟨hcalm.sane, hpush⟩
  | false => exact ⟨hcalm.sane, .done hpush.1 hpush.2.1 _ _⟩

theorem cas_inv (h : PushInv m₀ m) {live : Ref} {deviceHead : Option Hash}
    (hphase : m.phase = .cas live deviceHead) {io : HostIo} (hio : io.Lossless) : PushInv m₀ (m.host io) := by
  have hinv := h.phase
  unfold PhaseInv at hinv
  rw [hphase] at hinv
  have hstep := cas_step (hio io.touch (by simp))
    ⟨hio io.refset.flush (by simp), hio io.refset.write (by simp)⟩ h.sane m live deviceHead
  rcases hout : handleStateRefset (ctlTouch m.dev io.touch) (m.casBody live deviceHead) io.refset
    with ⟨rsp, dev⟩
  rw [hout] at hstep
  have hkept := hinv.2.1.of_files hstep.files
  unfold PushRun.host
  rw [hphase]
  cases io.link with
  | lost => exact ⟨h.sane, .done hinv.1 hinv.2.1 _ _⟩
  | unanswered =>
    simp only [Link.request, hout]
    exact ⟨hstep.sane, .unanswered hkept⟩
  | answered =>
    simp only [Link.request, hout]
    split
    next hnone => cases hnone
    next generation hok =>
      cases hok
      refine ⟨hstep.sane, hkept, ?_, ?_⟩
      . intro _ old hold hne
        rcases hstep.passed generation rfl old hold with ⟨hborn, hhead⟩
        exact (hinv.2.2 old hborn hhead hne).of_files hstep.files
      . intro hret
        cases hret
    next rsp' hne heq =>
      cases heq
      refine ⟨hstep.sane, .done (m := { m with dev }) ?_ hkept _ _⟩
      have hsame := hstep.refused (fun generation hok => hne generation hok)
      unfold Unset
      dsimp only
      rw [hsame]
      exact hinv.1

theorem PushInv.next (h : PushInv m₀ m) (hstart : PushStart m₀) {a : PushAct} (hspares : Spares m a)
    : PushInv m₀ (m.next a) := by
  cases a with
  | edit e =>
    have hcalm := edit_calm h.sane hspares
    exact ⟨hcalm.sane, h.phase.calm hcalm⟩
  | host io =>
    obtain ⟨hio, hspares⟩ := hspares
    unfold PushRun.next
    dsimp only
    cases hphase : m.phase with
    | refs => exact refs_inv h hphase hio
    | snapshot live => exact snapshot_inv h hphase hio
    | choose live deviceHead => exact choose_inv h hphase io
    | archive live head duplicate now seq => exact archive_inv h hstart hphase hio hspares
    | push live deviceHead => exact push_inv h hphase io
    | cas live deviceHead => exact cas_inv h hphase hio
    | done ret answered displaced =>
      unfold PushRun.host
      rw [hphase]
      exact h

theorem PushStart.inv (h : PushStart m₀) : PushInv m₀ m₀ := by
  refine ⟨h.sane, ?_⟩
  unfold PhaseInv
  rw [h.phase]
  exact ⟨.inl rfl, fun _ _ => rfl⟩

end Phases

theorem nothingLost_of_spares {m₀ m : PushRun} (hstart : PushStart m₀)
    (hrun : Run PushRun.next Spares m₀ m) : NothingLost m₀ m :=
  (hrun.inv hstart.inv (fun _ _ h hspares => h.next hstart hspares)).nothingLost

section Crowded

def otherSnapshot : Bytes :=
  objEncodeSnapshot (fixedHash 3) [] 1 (ascii "device") engineVersion none

-- Two snapshots, the live ref at the first of them.
def heldStore : Store :=
  (storeRefWrite ⟨[7], [(hashHex (fixedHash 2), ⟨true, some fixedSnapshot, true⟩),
      (hashHex (fixedHash 3), ⟨true, some fixedTree, true⟩),
      (hashHex (fixedHash 4), ⟨true, some fixedParams, true⟩),
      (hashHex (fixedHash 5), ⟨true, some otherSnapshot, true⟩)], .dir true []⟩
    ⟨liveRef, some (fixedHash 2), 1, false⟩ .ok).2

-- Archive refs of a host whose clock was ahead.
def aheadRefs : List Ref :=
  (List.range 32).map (fun n =>
    ⟨archiveName false ⟨3000 + 200 * n, 1, 1, 0, 0, 0⟩ 0, some (fixedHash 5), 1, false⟩)

def writeRefs (s : Store) (rs : List Ref) : Store :=
  rs.foldl (fun s r => (storeRefWrite s r .ok).2) s

def pushOn (s : Store) : PushRun where
  dev := ⟨s, none, factoryGrid, fun _ _ => Ramp.none, false, 0, none⟩
  local_ := heldStore
  target := fixedHash 5
  consentEngineMajor := false
  snap := none
  phase := .refs

def headlessIo : HostIo where
  link := .answered
  touch := .ok
  flush := .ok
  shed := false
  time := 0
  snap := ⟨.ok, .ok, .ok, .ok, .ok⟩
  timeoutMs := 0
  choice := 0
  fetched := true
  now := ⟨2026, 1, 1, 12, 0, 0⟩
  refset := ⟨.ok, .ok⟩
  push := ⟨true, true, none, ⟨2 ^ 24, 0, []⟩, fun _ => true, fun _ => .ok⟩

def headlessPush : List PushAct :=
  List.replicate 5 (.host headlessIo)

-- A store with nothing but refs that were written to it.
structure PlainStore (s : Store) : Prop where
  named : WellNamed s
  readable : ∀ p data, fileAt s.refs p ≠ some (false, data)

theorem PlainStore.storeRefWrite {s : Store} (h : PlainStore s) (r : Ref) (io : WriteIo)
    : PlainStore (storeRefWrite s r io).2 := by
  refine ⟨h.named.storeRefWrite io, ?_⟩
  intro p data hfile
  rcases storeRefWrite_cases s r io with ⟨_, _, _, hcases⟩ | ⟨_, hcases⟩
  . rw [hcases] at hfile
    split at hfile
    . cases hfile
    . split at hfile
      . cases hfile
      . exact h.readable p data hfile
  . rcases hcases p with hsame | ⟨_, hnone⟩
    . rw [hsame] at hfile
      exact h.readable p data hfile
    . rw [hnone] at hfile
      contradiction

theorem PlainStore.writeRefs {s : Store} (h : PlainStore s) (rs : List Ref)
    : PlainStore (writeRefs s rs) := by
  unfold Harp.writeRefs
  induction rs generalizing s with
  | nil => exact h
  | cons r rs ih => exact ih (h.storeRefWrite r .ok)

theorem plainStore_empty (pid : List (Fin 10)) (objects : List (Bytes × ObjFile))
    : PlainStore ⟨pid, objects, .dir true []⟩ := by
  have hnone : ∀ p, fileAt (.dir true [] : RefTree) p = none := by
    intro p
    cases p <;> rfl
  constructor
  . intro p r hr
    unfold storedAt at hr
    rw [hnone] at hr
    contradiction
  . intro p data hfile
    rw [hnone] at hfile
    contradiction

theorem plainStore_heldStore : PlainStore heldStore :=
  (plainStore_empty _ _).storeRefWrite _ .ok

theorem PlainStore.pushStart {s : Store} (h : PlainStore s) : PushStart (pushOn s) := by
  refine ⟨rfl, rfl, ⟨h.named, ?_⟩, fun p data _ => h.readable p data⟩
  intro c hc
  cases hc

theorem spares_of_length {m : PushRun} {io : HostIo} (hio : io.Lossless)
    (h : ∀ live head duplicate now seq, m.phase = .archive live head duplicate now seq →
      (listedRefs (archiveOut m io head duplicate now seq).dev.store).length < archiveKeep)
    : Spares m (.host io) := by
  refine ⟨hio, ?_⟩
  unfold ArchiveSpared
  split
  next live head duplicate now seq hphase =>
    intro out name generation pre r _ _ _ _
    have := h live head duplicate now seq hphase
    unfold Spared
    exact Nat.lt_of_le_of_lt List.countP_le_length this
  next => trivial

theorem headlessPush_held
    : (headlessPush.foldl PushRun.next (pushOn heldStore)).phase
        = .done true true (some (fixedHash 2)) := by
  decide +kernel

theorem nothingLost_headlessPush
    : PushStart (pushOn heldStore)
        ∧ (headlessPush.foldl PushRun.next (pushOn heldStore)).phase
          = .done true true (some (fixedHash 2))
        ∧ NothingLost (pushOn heldStore) (headlessPush.foldl PushRun.next (pushOn heldStore)) := by
  have hstart := plainStore_heldStore.pushStart
  refine ⟨hstart, headlessPush_held, nothingLost_of_spares hstart (.of_guarded _ .start ?_)⟩
  have hio : headlessIo.Lossless := by decide
  refine ⟨?_, ?_, ?_, ?_, ?_, trivial⟩ <;> apply spares_of_length hio <;>
    intro live head duplicate now seq hphase
  . cases hphase
  . have hchoose : ((pushOn heldStore).next (.host headlessIo)).phase
        = .choose ⟨liveRef, some (fixedHash 2), 1, false⟩ (some (fixedHash 2)) := by
      decide +kernel
    rw [hchoose] at hphase
    cases hphase
  . have harchive : (((pushOn heldStore).next (.host headlessIo)).next (.host headlessIo)).phase
        = .archive ⟨liveRef, some (fixedHash 2), 1, false⟩ (fixedHash 2) false headlessIo.now 0 := by
      decide +kernel
    rw [harchive] at hphase
    cases hphase
    decide +kernel
  . have hpush : ((((pushOn heldStore).next (.host headlessIo)).next (.host headlessIo)).next
        (.host headlessIo)).phase
        = .push ⟨liveRef, some (fixedHash 2), 1, false⟩ (some (fixedHash 2)) := by
      decide +kernel
    rw [hpush] at hphase
    cases hphase
  . have hcas : (((((pushOn heldStore).next (.host headlessIo)).next (.host headlessIo)).next
        (.host headlessIo)).next (.host headlessIo)).phase
        = .cas ⟨liveRef, some (fixedHash 2), 1, false⟩ (some (fixedHash 2)) := by
      decide +kernel
    rw [hcas] at hphase
    cases hphase

def crowdedStore : Store :=
  writeRefs heldStore aheadRefs

def crowdedEnd : PushRun :=
  headlessPush.foldl PushRun.next (pushOn crowdedStore)

-- The push has succeeded, and no ref file is left that names the head it displaced.
theorem crowdedEnd_eq : crowdedEnd.phase = .done true true (some (fixedHash 2))
    ∧ fixedHash 2 ≠ crowdedEnd.target
    ∧ ∀ x ∈ crowdedEnd.dev.store.refs.files,
      ((refDecode (Cdec.init (x.2.take 1024))).1.bind Ref.hash) ≠ some (fixedHash 2) := by
  decide +kernel

theorem not_archived_crowdedEnd : ¬ Archived crowdedEnd.dev (fixedHash 2) := by
  rintro ⟨p, r, _, hread, hhash⟩
  unfold storedAt at hread
  split at hread
  next data hfile =>
    have hmem := FileTree.Node.mem_files (fileAt_eq_some.mp hfile)
    apply crowdedEnd_eq.2.2 _ hmem
    dsimp only
    rw [hread]
    exact hhash
  next => contradiction

theorem not_nothingLost_crowded
    : ¬ ∀ m₀ m, PushStart m₀ → Run PushRun.next free m₀ m → NothingLost m₀ m := by
  intro h
  have hstart := (plainStore_heldStore.writeRefs aheadRefs).pushStart
  have hlost := h (pushOn crowdedStore) crowdedEnd hstart (.foldl headlessPush .start)
  exact not_archived_crowdedEnd (hlost.archived true (fixedHash 2) crowdedEnd_eq.1
    crowdedEnd_eq.2.1)

end Crowded

end Harp
