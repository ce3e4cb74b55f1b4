import Harp.Device.EngineRun
import Harp.Device.EventCarry
import Harp.Device.RecallRun
import Harp.Device.UnitRange

/-!
This module contains the range of the parameter values over whole runs of a session: the steps that
write them, what has to hold of a step for every value to stay in [0, 1], and that it is enough.
-/

namespace Harp

open Ieee Runs

section Spec

def GridInUnit (g : Grid) : Prop :=
  ∀ p i, InUnit (g p i)

-- An event that writes a stored value when it is due.
def DevEvent.Edits (ev : DevEvent) : Prop :=
  (ev.kind = .paramSet ∨ ev.kind = .ramp) ∧ ev.voice = 0 ∧ paramIndex ev.a ≠ none

-- Every value that the snapshot names is in range.
def LoadInUnit (s : Store) (h : Hash) : Prop :=
  ∀ cs, loadPlan s h = some cs → ∀ c ∈ cs, ∀ p i v, c p i = some v → InUnit v

/--
A set or a ramp of a stored value and a turn of a knob are not a NaN, and a snapshot that is loaded
names values in range only.
-/
def Session.InRange (s : Session) : SessAct → Prop
  | .evt buf _ _ => (evtDecode s.audioEpoch buf).Of (fun ev => ev.Edits → ev.v.isNaN = false)
  | .ctl (.refset body _) _ => ∀ newh, (refsetParse body).refname = liveRef →
      (refsetParse body).newh = some newh → LoadInUnit s.dev.store newh
  | .panel part id v _ => 0 ≤ part → partOf part.toNat ≠ none → paramIndex id ≠ none →
      v.isNaN = false
  | .revert refname io => ∀ src h, storeRefRead s.dev.store refname = some src →
      src.hash = some h → LoadInUnit (revertReady s.dev io).store h
  | _ => True

-- The ramps move as the arithmetic of the engine moves them.
def SessAct.Computed : SessAct → Prop
  | .advance _ _ line => line = Ramp.line
  | _ => True

-- A session before its first frame, with values in range.
structure RangeBoot (s : Session) : Prop where
  pval : GridInUnit s.dev.pval
  idle : Idle s.dev
  evt : s.evt = EvtState.fresh

end Spec

section Decode

def EvtBody.EndOk (b : EvtBody) : Prop :=
  ∀ t, b.end_ = some t → t.2 < 2 ^ 64

theorem cdecUint_lt {d d' : Cdec} {v : Nat} (h : cdecUint d = (some v, d')) : v < 2 ^ 64 := by
  unfold cdecUint at h
  rw [Dec.bind_eq] at h
  rcases Dec.bind_inv h with ⟨head, d₁, hread, hval⟩
  rcases readHead_inv hread with ⟨hb, _, hspells, _⟩
  split at hval
  . cases hval
  . cases hval
    exact hspells.val_lt

theorem tstamp_lt {d d' : Cdec} {t : Nat × Nat} (h : tstamp d = (some t, d')) : t.2 < 2 ^ 64 := by
  unfold tstamp at h
  rw [Dec.bind_eq] at h
  rcases Dec.bind_inv h with ⟨n, d₁, _, h₁⟩
  split at h₁
  . cases h₁
  . rw [Dec.bind_eq] at h₁
    rcases Dec.bind_inv h₁ with ⟨ep, d₂, _, h₂⟩
    rw [Dec.bind_eq] at h₂
    rcases Dec.bind_inv h₂ with ⟨msc, d₃, hmsc, h₃⟩
    cases h₃
    exact cdecUint_lt hmsc

theorem evtField_endOk {hasEnd : Bool} (b : EvtBody) (d : Cdec) (b' : EvtBody) (d' : Cdec)
    (hb : b.EndOk) (h : evtField hasEnd b d = (some b', d')) : b'.EndOk := by
  unfold evtField at h
  rw [Dec.bind_eq] at h
  rcases Dec.bind_inv h with ⟨key, d₁, _, h₁⟩
  split at h₁
  . rcases Dec.bind_inv h₁ with ⟨_, _, _, hpure⟩
    cases hpure
    exact hb
  . split at h₁
    . rcases Dec.bind_inv h₁ with ⟨_, _, _, hpure⟩
      cases hpure
      exact hb
    . split at h₁
      . rcases Dec.bind_inv h₁ with ⟨t, _, ht, hpure⟩
        cases hpure
        intro t' ht'
        cases ht'
        exact tstamp_lt ht
      . split at h₁
        . rcases Dec.bind_inv h₁ with ⟨_, _, _, hpure⟩
          cases hpure
          exact hb
        . split at h₁
          . rcases Dec.bind_inv h₁ with ⟨_, _, _, hpure⟩
            cases hpure
            exact hb
          . split at h₁
            . rcases Dec.bind_inv h₁ with ⟨_, _, _, hpure⟩
              cases hpure
              exact hb
            . rcases Dec.bind_inv h₁ with ⟨_, _, _, hpure⟩
              cases hpure
              exact hb

-- The clamp leaves a value in range, if it is a number at all.
def DevEvent.Clamped (ev : DevEvent) : Prop :=
  ev.Edits → ev.v.isNaN = false → InUnit ev.v ∧ ev.end_ < 2 ^ 64

theorem inUnit_of_clamped {v : F64} (h : (narrow (clamp01 v)).isNaN = false)
    : InUnit (narrow (clamp01 v)) := by
  apply inUnit_clamp01
  by_contra hnan
  have hnan : v.isNaN = true := by simpa using hnan
  rw [isNaN_clamp01 hnan, isNaN_narrow hnan] at h
  cases h

theorem bodyMsg_clamped (epoch msc etype : Nat) {b : EvtBody} (hb : b.EndOk)
    : (bodyMsg epoch msc etype b).Of DevEvent.Clamped := by
  unfold bodyMsg
  split
  next id val _ _ =>
    dsimp only
    split
    . split
      . trivial
      next eep ets hend =>
        split
        . trivial
        . intro _ hnum
          exact ⟨inUnit_of_clamped hnum, hb _ hend⟩
    . split
      . intro hedits
        rcases hedits.1 with hkind | hkind <;> cases hkind
      . intro _ hnum
        exact ⟨inUnit_of_clamped hnum, by norm_num [DevEvent.ofBody]⟩
  next => trivial

theorem mapBody_of {P : DevEvent → Prop} {σ : Type} {I : σ → Prop} {field : σ → Dec σ} {init : σ}
    {done : σ → EvtMsg} (hfield : ∀ b d b' d', I b → field b d = (some b', d') → I b') (hinit : I init)
    (hdone : ∀ b, I b → (done b).Of P) (d : Cdec) : (mapBody field init done d).Of P := by
  unfold mapBody
  split
  . trivial
  . split
    . trivial
    next b _ hloop => exact hdone b (Dec.loop_inv hfield _ hinit hloop)

theorem clamped_of_kind {ev : DevEvent} (hset : ev.kind ≠ .paramSet) (hramp : ev.kind ≠ .ramp)
    : ev.Clamped := by
  intro hedits
  rcases hedits.1 with hkind | hkind
  . exact absurd hkind hset
  . exact absurd hkind hramp

theorem umpMsg_clamped (msc : Nat) (p : Bytes) : (umpMsg msc p).Of DevEvent.Clamped := by
  unfold umpMsg
  dsimp only
  split
  . trivial
  . split
    . exact clamped_of_kind (by simp) (by simp)
    . split
      . exact clamped_of_kind (by simp) (by simp)
      . split
        . exact clamped_of_kind (by simp) (by simp)
        . trivial

theorem txnMsg_of {P : DevEvent → Prop} (epoch msc etype : Nat) (b : TxnBody)
    : (txnMsg epoch msc etype b).Of P := by
  unfold txnMsg
  split
  . trivial
  . split
    . trivial
    . split
      . trivial
      . split
        . trivial
        . split <;> trivial

theorem evtDecode_clamped (epoch : Nat) (buf : Bytes)
    : (evtDecode epoch buf).Of DevEvent.Clamped := by
  unfold evtDecode
  split
  . trivial
  next ep msc etype d _ =>
    split
    . trivial
    . split
      . split
        . split
          . trivial
          . apply umpMsg_clamped
        . trivial
      . split
        . apply mapBody_of (I := fun _ => True)
          . intros
            trivial
          . trivial
          . intro b _
            exact clamped_of_kind (by simp) (by simp)
        . split
          . apply mapBody_of evtField_endOk
            . intro t ht
              cases ht
            . intro b hb
              exact bodyMsg_clamped epoch msc etype hb
          . split
            . apply mapBody_of (I := fun _ => True)
              . intros
                trivial
              . trivial
              . intro b _
                apply txnMsg_of
            . trivial

end Decode

section Inv

-- What a queued event writes is in range.
def DevEvent.Ranged (ev : DevEvent) : Prop :=
  ev.Edits → InUnit ev.v ∧ ev.end_ < 2 ^ 64

structure DevRanged (d : Device) : Prop where
  pval : GridInUnit d.pval
  ramps : ∀ p i, (d.ramps p i).active = true →
    InUnit (d.ramps p i).startVal ∧ InUnit (d.ramps p i).target ∧ (d.ramps p i).stop < 2 ^ 64

structure SessRanged (s : Session) : Prop where
  dev : DevRanged s.dev
  waiting : s.evt.Holding DevEvent.Ranged
  queued : ∀ ev ∈ s.evt.evq, ev.Ranged

variable {d : Device} {s : Session}

theorem DevRanged.congr {d' : Device} (h : DevRanged d) (hpval : d'.pval = d.pval)
    (hramps : d'.ramps = d.ramps) : DevRanged d' := by
  apply DevRanged.mk
  . rw [hpval]
    exact h.pval
  . rw [hramps]
    exact h.ramps

theorem EvtMsg.Of.imp {P Q R : DevEvent → Prop} (h : ∀ ev, P ev → Q ev → R ev) {msg : EvtMsg}
    (hp : msg.Of P) (hq : msg.Of Q) : msg.Of R := by
  cases msg with
  | note ev => exact h ev hp hq
  | transport ev => exact h ev hp hq
  | submit txnId ev touches => exact h ev hp hq
  | _ => trivial

theorem Brings.ranged {e e' : EvtState} (h : Brings DevEvent.Ranged e e')
    (hqueued : ∀ ev ∈ e.evq, ev.Ranged) : ∀ ev ∈ e'.evq, ev.Ranged := by
  rcases h.evq with ⟨new, hnew, hall⟩
  intro ev hev
  rw [hnew, List.mem_append] at hev
  cases hev with
  | inl hev => exact hqueued ev hev
  | inr hev => exact hall ev hev

theorem devRanged_liveRefTouch (h : DevRanged d) (dirty : Bool) (io : WriteIo)
    : DevRanged (liveRefTouch d dirty io) := by
  unfold liveRefTouch
  split
  . exact h
  . exact h.congr rfl rfl

theorem devRanged_ctlTouch (h : DevRanged d) (io : WriteIo) : DevRanged (ctlTouch d io) := by
  unfold ctlTouch
  split
  . apply devRanged_liveRefTouch
    exact h.congr rfl rfl
  . exact h

theorem devRanged_liveCacheFlush (h : DevRanged d) (io : WriteIo)
    : DevRanged (liveCacheFlush d io) :=
  h.congr (liveCacheFlush_pval d io) (liveCacheFlush_ramps d io)

theorem doSnapshot_pval (d : Device) (msg : Option Bytes) (time : Nat) (io : SnapIo)
    : (doSnapshot d msg time io).2.pval = d.pval := by
  have hpval := liveCacheFlush_pval d io.flush
  unfold doSnapshot snapshotLocked
  split
  . exact hpval
  . split
    . exact hpval
    . dsimp only
      split <;> exact hpval

theorem devRanged_doSnapshot (h : DevRanged d) (msg : Option Bytes) (time : Nat) (io : SnapIo)
    : DevRanged (doSnapshot d msg time io).2 :=
  h.congr (doSnapshot_pval d msg time io) (doSnapshot_frame d msg time io).2

theorem gridInUnit_put {g : Grid} (h : GridInUnit g) (p : Fin nParts) (i : Fin nParams) {v : F32}
    (hv : InUnit v) : GridInUnit (gridPut g p i v) := by
  intro p' i'
  unfold gridPut
  split
  . exact hv
  . exact h p' i'

theorem gridInUnit_load {st : Store} {g g' : Grid} {x : Hash} (h : GridInUnit g)
    (hload : engineLoadSnapshot st g x = some g') (hunit : LoadInUnit st x) : GridInUnit g' := by
  rw [engineLoadSnapshot_eq, Option.map_eq_some_iff] at hload
  rcases hload with ⟨cs, hplan, rfl⟩
  have hcells := hunit cs hplan
  clear hplan hunit
  induction cs generalizing g with
  | nil => exact h
  | cons c cs ih =>
    apply ih
    . intro p i
      show InUnit ((c p i).getD (g p i))
      cases hc : c p i with
      | none => exact h p i
      | some v => exact hcells c List.mem_cons_self p i v hc
    . intro c' hc'
      exact hcells c' (List.mem_cons_of_mem _ hc')

theorem devRanged_applyDue (h : DevRanged d) (pos : Nat) {ev : DevEvent} (hev : ev.Ranged)
    : DevRanged (applyDue pos d ev) := by
  unfold applyDue
  dsimp only
  cases hkind : ev.kind with
  | paramSet =>
    dsimp only
    split
    . exact h
    next hvoice =>
      split
      next j hj =>
        have hv := (hev ⟨.inl hkind, not_not.mp hvoice, by simp [hj]⟩).1
        apply DevRanged.mk
        . exact gridInUnit_put h.pval _ j hv
        . intro p' i' hactive
          dsimp only at hactive ⊢
          split at hactive
          . cases hactive
          next hne =>
            rw [if_neg hne]
            exact h.ramps p' i' hactive
      . exact h.congr rfl rfl
  | ramp =>
    dsimp only
    split
    . exact h
    next hvoice =>
      split
      next j hj =>
        have hv := hev ⟨.inr hkind, not_not.mp hvoice, by simp [hj]⟩
        apply DevRanged.mk
        . exact h.pval
        . intro p' i' hactive
          dsimp only at hactive ⊢
          split at hactive
          next heq =>
            rw [if_pos heq]
            exact ⟨h.pval _ j, hv.1, hv.2⟩
          next hne =>
            rw [if_neg hne]
            exact h.ramps p' i' hactive
      . exact h.congr rfl rfl
  | _ => exact h

theorem devRanged_applyDues (h : DevRanged d) (pos : Nat) {evs : List DevEvent}
    (hevs : ∀ ev ∈ evs, ev.Ranged) : DevRanged (evs.foldl (applyDue pos) d) := by
  induction evs generalizing d with
  | nil => exact h
  | cons ev evs ih =>
    apply ih
    . exact devRanged_applyDue h pos (hevs ev List.mem_cons_self)
    . intro ev' hev'
      exact hevs ev' (List.mem_cons_of_mem _ hev')

theorem devRanged_rampsAdvance (h : DevRanged d) (p : Fin nParts) (pos : Nat)
    : DevRanged (rampsAdvance d p pos Ramp.line) := by
  apply DevRanged.mk
  . intro p' i
    unfold rampsAdvance
    dsimp only
    split
    next hactive =>
      rcases h.ramps p' i hactive.2 with ⟨hstart, htarget, hstop⟩
      split
      . exact htarget
      next hover =>
        unfold Ramp.over at hover
        rw [decide_eq_true_eq] at hover
        split
        next hlo => exact Ramp.line_inUnit hstart htarget hlo (by omega) hstop
        . exact h.pval p' i
    . exact h.pval p' i
  . intro p' i hactive
    unfold rampsAdvance at hactive ⊢
    dsimp only at hactive ⊢
    split at hactive
    . cases hactive
    next hne =>
      rw [if_neg hne]
      exact h.ramps p' i hactive

theorem devRanged_refset (h : DevRanged d) {body : Option Bytes} {io : RefsetIo}
    (hload : ∀ newh, (refsetParse body).refname = liveRef →
      (refsetParse body).newh = some newh → LoadInUnit d.store newh)
    : DevRanged (handleStateRefset d body io).2 := by
  have hflush : DevRanged (refsetFlush d (refsetParse body) io.flush) := by
    unfold refsetFlush
    split
    . exact devRanged_liveCacheFlush h io.flush
    . exact h
  have hcommit : ∀ {newh guards r pval}, (refsetParse body).newh = some newh →
      refsetCheck (refsetFlush d (refsetParse body) io.flush) (refsetParse body) newh
        = (guards, .ok (r, pval)) → GridInUnit pval := by
    intro newh guards r pval hnewh hcheck
    rcases (refsetCheck_ok hcheck).engine with ⟨_, hpval, _⟩ | ⟨hlit, hsome, _⟩
    . rw [hpval]
      exact hflush.pval
    . rw [refsetFlush_load] at hsome
      exact gridInUnit_load hflush.pval hsome (hload newh hlit hnewh)
  have hexit := refsetRespond_exit d body io
  have hdev : DevRanged (refsetRespond d body io).dev := by
    generalize refsetRespond d body io = out at hexit ⊢
    cases hexit with
    | malformed => exact h
    | refused => exact hflush
    | stored hq hcheck => exact ⟨hcommit hq.1 hcheck, hflush.ramps⟩
    | failed hq hcheck => exact ⟨hcommit hq.1 hcheck, hflush.ramps⟩
  unfold handleStateRefset
  dsimp only
  split
  . rcases maybeGc_frame (refsetRespond d body io).dev (refsetParse body).refname with ⟨hp, hr, _⟩
    exact hdev.congr hp hr
  . exact hdev

theorem devRanged_panelRevert (h : DevRanged d) {refname : Bytes} {io : RevertIo}
    (hload : ∀ src x, storeRefRead d.store refname = some src → src.hash = some x →
      LoadInUnit (revertReady d io).store x)
    : DevRanged (panelRevert d refname io) := by
  have hready : DevRanged (revertReady d io) := by
    have hflush := devRanged_liveCacheFlush h io.flush
    unfold revertReady
    dsimp only
    split
    . exact hflush
    . split
      . exact devRanged_doSnapshot hflush _ _ _
      . exact hflush
  rcases panelRevert_cases d refname io with hsame | ⟨src, hsrc, _, hcase | hcase⟩
  . rw [hsame]
    exact h
  . rw [hcase]
    exact hready
  . rw [hcase]
    unfold revertFinish
    split
    . exact hready
    next pval hpval =>
      rw [Option.bind_eq_some_iff] at hpval
      rcases hpval with ⟨x, hx, hpval⟩
      have hgrid := gridInUnit_load hready.pval hpval (hload src x hsrc hx)
      have hloaded : DevRanged { revertReady d io with pval } := ⟨hgrid, hready.ramps⟩
      exact (devRanged_liveCacheFlush hloaded io.flush2).congr rfl rfl

theorem ctlTouch_objects (d : Device) (io : WriteIo)
    : (ctlTouch d io).store.objects = d.store.objects := by
  unfold ctlTouch
  split
  . apply liveRefTouch_objects
  . rfl

theorem LoadInUnit.congr {st st' : Store} {x : Hash} (h : LoadInUnit st x)
    (hobjects : st'.objects = st.objects) : LoadInUnit st' x := by
  intro cs hplan
  apply h cs
  apply loadPlan_mono _ hplan
  intro y enc hget
  rw [storeGet_congr hobjects] at hget
  exact hget

theorem EvtState.Holding.cleared {P : DevEvent → Prop} {e e' : EvtState} (h : e.Holding P)
    (hstage : e'.evtStage = e.evtStage) (htxn : e'.txn = TxnTable.clear) : e'.Holding P := by
  apply EvtState.Holding.mk
  . rw [hstage]
    exact h.stage
  . rw [htxn]
    intro t ht
    rw [List.eq_of_mem_replicate ht]
    intro ev hev
    cases hev

theorem SessRanged.handleCtlReq (h : SessRanged s) {req : CtlReq}
    (hload : ∀ body io, req = .refset body io → ∀ newh, (refsetParse body).refname = liveRef →
      (refsetParse body).newh = some newh → LoadInUnit s.dev.store newh)
    : SessRanged (handleCtlReq s req) := by
  cases req with
  | refs io => exact ⟨devRanged_liveCacheFlush h.dev io, h.waiting, h.queued⟩
  | snapshot shed msg time io =>
    cases shed with
    | true => exact h
    | false => exact ⟨devRanged_doSnapshot h.dev msg time io, h.waiting, h.queued⟩
  | refset body io => exact ⟨devRanged_refset h.dev (hload body io rfl), h.waiting, h.queued⟩
  | hello => exact ⟨h.dev, h.waiting.cleared rfl rfl, h.queued⟩
  | audioStart newEpoch =>
    refine ⟨⟨h.dev.pval, ?_⟩, h.waiting.cleared rfl rfl, ?_⟩
    . intro p i hactive
      cases hactive
    . intro ev hev
      cases hev
  | audioStop => exact ⟨h.dev, h.waiting.cleared rfl rfl, h.queued⟩
  | other => exact h

theorem SessRanged.next (h : SessRanged s) (a : SessAct) (hin : s.InRange a) (hcomp : a.Computed)
    : SessRanged (s.next a) := by
  cases a with
  | evt buf readable io =>
    have hmsg : (evtDecode s.audioEpoch buf).Of DevEvent.Ranged :=
      EvtMsg.Of.imp (fun ev hclamped hnum hedits => hclamped hedits (hnum hedits))
        (evtDecode_clamped s.audioEpoch buf) hin
    have hframe := Brings.frame (fun _ _ hev => hev) h.waiting hmsg readable io
    refine ⟨?_, hframe.holding, hframe.ranged h.queued⟩
    unfold Session.next
    dsimp only
    rcases consumeEvt_touches s buf readable io with hsame | htouch
    . rw [hsame]
      exact h.dev
    . rw [htouch]
      exact devRanged_liveRefTouch h.dev true io
  | ctl req touch =>
    have hflush := Brings.flush h.waiting
    have hbase : SessRanged ⟨ctlTouch s.dev touch, evtStageFlush s.evt, s.audioEpoch⟩ :=
      ⟨devRanged_ctlTouch h.dev touch, hflush.holding, hflush.ranged h.queued⟩
    apply hbase.handleCtlReq
    rintro body io rfl newh hlit hnewh
    exact (hin newh hlit hnewh).congr (ctlTouch_objects s.dev touch)
  | obj enc io =>
    have hflush := Brings.flush h.waiting
    exact ⟨h.dev.congr rfl rfl, hflush.holding, hflush.ranged h.queued⟩
  | panel part id v io =>
    refine ⟨?_, h.waiting, h.queued⟩
    unfold Session.next frontPanelSetPart
    dsimp only
    split
    . exact h.dev
    next hpart =>
      split
      next p i hp hi =>
        apply devRanged_liveRefTouch
        have hnum := hin (by omega) (by simp [hp]) (by simp [hi])
        exact ⟨gridInUnit_put h.dev.pval p i (inUnit_clamp01 hnum), h.dev.ramps⟩
      . exact h.dev
  | revert refname io => exact ⟨devRanged_panelRevert h.dev hin, h.waiting, h.queued⟩
  | due pos =>
    refine ⟨?_, ⟨h.waiting.stage, h.waiting.txn⟩, ?_⟩
    . apply devRanged_applyDues h.dev pos
      intro ev hev
      exact h.queued ev (List.mem_of_mem_filter hev)
    . intro ev hev
      exact h.queued ev (List.mem_of_mem_filter hev)
  | advance p pos line =>
    cases hcomp
    exact ⟨devRanged_rampsAdvance h.dev p pos, h.waiting, h.queued⟩

theorem RangeBoot.ranged (h : RangeBoot s) : SessRanged s := by
  refine ⟨⟨h.pval, ?_⟩, ⟨?_, ?_⟩, ?_⟩
  . intro p i hactive
    rw [h.idle p i] at hactive
    cases hactive
  . rw [h.evt]
    intro ev hev
    cases hev
  . rw [h.evt]
    intro t ht
    rw [List.eq_of_mem_replicate ht]
    intro ev hev
    cases hev
  . rw [h.evt]
    intro ev hev
    cases hev

theorem gridInUnit_of_inRange {s t : Session} (h : RangeBoot s)
    (hrun : Run Session.next (fun s a => s.InRange a ∧ a.Computed) s t) : GridInUnit t.dev.pval := by
  have hranged : SessRanged t := by
    apply hrun.inv h.ranged
    intro s a hs hg
    exact hs.next a hg.1 hg.2
  exact hranged.dev.pval

end Inv

section Runs

-- A set of a parameter of part 0, in an EVT frame of any epoch.
def setTo (id : Nat) (v : F32) : Bytes :=
  evtFrame 0 1 (cborMap 2 ++ cborUint 0 ++ cborUint id ++ cborUint 1 ++ cborFloat (widen v))

def rangeSession : Session :=
  ⟨blankDevice, EvtState.fresh, 1⟩

theorem rangeBoot_session : RangeBoot rangeSession := by
  have hdefaults : ∀ i : Fin nParams, InUnit (pvalDefaults.getD i.val half) := by decide
  refine ⟨?_, ?_, rfl⟩
  . intro p i
    exact hdefaults i
  . intro p i
    rfl

-- A parameter is set to a quarter and ramped to one from there.
def quarterToOne : List SessAct :=
  [.evt (setTo 1 (Fp.of false 125 0)) false .ok, .due 0,
    .evt (rampFrame 1 (Fp.of false 127 0) 10) false .ok, .due 0, .advance 0 5 Ramp.line]

theorem decode_setTo
    : evtDecode 1 (setTo 1 (Fp.of false 125 0))
        = .submit 0 ⟨0, .paramSet, 1, Fp.of false 125 0, 0, Fp.of false 0 0, 0, 0⟩ true := by
  decide +kernel

theorem decode_rampFrame
    : evtDecode 1 (rampFrame 1 (Fp.of false 127 0) 10)
        = .submit 0 ⟨0, .ramp, 1, Fp.of false 127 0, 10, Fp.of false 0 0, 0, 0⟩ true := by
  decide +kernel

theorem gridInUnit_quarterToOne
    : GridInUnit (quarterToOne.foldl Session.next rangeSession).dev.pval := by
  apply gridInUnit_of_inRange rangeBoot_session
  apply Run.of_guarded quarterToOne .start
  refine ⟨⟨?_, trivial⟩, ⟨trivial, trivial⟩, ⟨?_, trivial⟩, ⟨trivial, trivial⟩, ⟨trivial, rfl⟩, trivial⟩
  . have hepoch : rangeSession.audioEpoch = 1 := rfl
    unfold Session.InRange
    dsimp only
    rw [hepoch, decode_setTo]
    intro _
    rfl
  . have hepoch : ((rangeSession.next (.evt (setTo 1 (Fp.of false 125 0)) false .ok)).next
        (.due 0)).audioEpoch = 1 := by
      decide +kernel
    unfold Session.InRange
    dsimp only
    rw [hepoch, decode_rampFrame]
    intro _
    rfl

-- The same parameter is set to a NaN.
def nanSet : List SessAct :=
  [.evt (setTo 1 quietNaN) false .ok, .due 0]

theorem not_gridInUnit_nanSet
    : ¬ ∀ s t : Session, RangeBoot s → Run Session.next (fun _ a => a.Computed) s t →
        GridInUnit t.dev.pval := by
  intro h
  have hrun : Run Session.next (fun _ a => a.Computed) rangeSession
      (nanSet.foldl Session.next rangeSession) :=
    Run.of_guarded nanSet .start ⟨trivial, trivial, trivial⟩
  have hunit := h rangeSession _ rangeBoot_session hrun 0 0
  have hnan : ¬ InUnit ((nanSet.foldl Session.next rangeSession).dev.pval 0 0) := by
    decide +kernel
  exact hnan hunit

end Runs

end Harp
