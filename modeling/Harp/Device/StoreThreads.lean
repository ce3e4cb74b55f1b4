import Harp.Device.Refset
import Harp.Device.SnapshotLoad
import Harp.Device.ClosureCheck
import Harp.Lib.AskProg
import Harp.Lib.Run

/-!
This module contains the panel thread (`do_snapshot`, `panel_revert`) and the session thread
(`handle_state_refset` with its retention pass, the receipt of objects) on one store.

A step is one critical section of `state_mu` or one unlocked call of the store. The closure check of
a refset and the loads read the store call by call: they are programs that ask the device.
-/

namespace Harp

open AskProg Runs

inductive ReadCall where
  | have (h : Hash)
  | get (h : Hash)
  | values

def ReadCall.Answer : ReadCall → Type
  | .have _ => Bool
  | .get _ => Option Bytes
  | .values => Grid

def Device.answer (d : Device) : (q : ReadCall) → q.Answer
  | .have h => storeHave d.store h
  | .get h => storeGet d.store h
  | .values => d.pval

abbrev Reading (α : Type) := Prog ReadCall ReadCall.Answer α

def readHave (h : Hash) (k : Bool → Reading α) : Reading α :=
  .ask (.have h) k

def readGet (h : Hash) (k : Option Bytes → Reading α) : Reading α :=
  .ask (.get h) k

def readValues (k : Grid → Reading α) : Reading α :=
  .ask .values k

section Programs

-- The children are visited in turn; once one is incomplete nothing is read any more.
def visitChildren (visit : Bool → Hash → Reading Bool) : List Hash → Bool → Reading Bool
  | [], complete => .ret complete
  | h :: hs, complete => (visit complete h).bind (visitChildren visit hs)

def closureProg (levels : Nat) (complete : Bool) (h : Hash) : Reading Bool :=
  match levels with
  | 0 => .ret complete
  | levels + 1 =>
    if ¬ complete then
      .ret false
    else
      readHave h fun found =>
        if ¬ found then
          .ret false
        else
          readGet h fun
            | none => .ret false
            | some enc =>
              (visitChildren (closureProg levels) (objChildren enc false).2 true).bind fun complete =>
                .ret ((objChildren enc false).1 && complete)

def entriesProg : List (Bytes × Hash × Nat) → LoadCtx → Reading LoadCtx
  | [], ctx => .ret ctx
  | e :: es, ctx =>
    if ¬ isParams e then
      entriesProg es ctx
    else
      readGet e.2.1 fun enc =>
        match (enc.bind objParseBlob).bind (fun blob => refdevParseParamsBlob blob.2) with
        | none => .ret { ctx with ok := false }
        | some v => entriesProg es { ctx with staged := overlay v ctx.staged }

def loadProg (snap : Hash) : Reading (Option Grid) :=
  readGet snap fun enc =>
    match enc.bind objParseSnapshotRoot with
    | none => .ret none
    | some root =>
      readGet root fun
        | none => .ret none
        | some treeEnc =>
          readValues fun v =>
            if objKind treeEnc ≠ some objTree then
              .ret none
            else
              (entriesProg (treeEntries treeEnc).2 ⟨v, true⟩).bind fun ctx =>
                .ret (if (treeEntries treeEnc).1 ∧ ctx.ok then some ctx.staged else none)

-- `engineGate` on what the store returned.
def engineGateOf (devEngine : Bytes) (enc : Option Bytes) : Option RefsetRsp :=
  match enc.bind (fun enc => objParseSnapshotEngine enc 24) with
  | none => some (.incompatible
      (ascii "snapshot has no engine field; set consent flag 0x4 to override") [] devEngine)
  | some snapEngine =>
    if majorMinor snapEngine ≠ majorMinor devEngine then
      some (.incompatible
        (ascii "snapshot engine version differs; set consent flag 0x4 to override") snapEngine
        devEngine)
    else
      none

def gateProg (devEngine : Bytes) (newh : Hash) : Reading (Option RefsetRsp) :=
  readGet newh fun enc => .ret (engineGateOf devEngine enc)

-- The checks of a refset on the ref that was read, and the values to load if it is the live ref.
def refsetProg (devEngine : Bytes) (q : RefsetReq) (newh : Hash) (r : Ref)
    : Reading (Except RefsetRsp (Option Grid)) :=
  if ¬ casOk q r then
    let msg := if r.dirty then ascii "ref is dirty" else ascii "expect mismatch"
    .ret (.error (.conflict msg r.hash r.generation r.dirty))
  else
    (closureProg 17 true newh).bind fun complete =>
      if ¬ complete then
        .ret (.error (.notFound (ascii "object closure incomplete")))
      else if q.refname ≠ liveRef then
        .ret (.ok none)
      else
        (if q.consent then .ret none else gateProg devEngine newh).bind fun
          | some rsp => .ret (.error rsp)
          | none =>
            (loadProg newh).bind fun
              | none => .ret (.error (.malformed (some (ascii "target is not a loadable snapshot"))))
              | some pval => .ret (.ok (some pval))

end Programs

-- Read from one state, the programs are the functions of the single-threaded device.
section Sequential

variable (d : Device)

theorem visitChildren_run {n : Nat} (ih : ∀ complete h,
      (closureProg n complete h).run d.answer = closureWalk d.store n complete h)
    (hs : List Hash) (complete : Bool)
    : (visitChildren (closureProg n) hs complete).run d.answer
        = hs.foldl (childStep (closureVisit d.store n)) complete := by
  induction hs generalizing complete with
  | nil => rfl
  | cons h hs ihs =>
    unfold visitChildren
    rw [Prog.run_bind, ih, ihs]
    rfl

theorem closureProg_run (n : Nat) (complete : Bool) (h : Hash)
    : (closureProg n complete h).run d.answer = closureWalk d.store n complete h := by
  induction n generalizing complete h with
  | zero => rfl
  | succ n ih =>
    cases complete with
    | false => rw [closureWalk_false]; rfl
    | true =>
      have hprog : (closureProg (n + 1) true h).run d.answer = true
          ↔ closureWalk d.store (n + 1) true h = true := by
        rw [closureWalk_succ]
        unfold closureProg readHave readGet
        simp only [not_true_eq_false, if_false, Prog.run]
        have hhave : d.answer (.have h) = storeHave d.store h := rfl
        have hget : d.answer (.get h) = storeGet d.store h := rfl
        rw [hhave]
        cases storeHave d.store h with
        | false => simp [Prog.run]
        | true =>
          simp only [Prog.run, not_true_eq_false, if_false, true_and]
          rw [hget]
          cases storeGet d.store h with
          | none => simp [Prog.run]
          | some enc =>
            dsimp only
            rw [Prog.run_bind, visitChildren_run d ih]
            simp only [Prog.run, Bool.and_eq_true, foldl_closureVisit, true_and]
            simp
      rw [Bool.eq_iff_iff]
      exact hprog

theorem entriesProg_run (es : List (Bytes × Hash × Nat)) (ctx : LoadCtx)
    : (entriesProg es ctx).run d.answer
        = (es.foldl (TreeIter.step (loadTreeEntry d.store)) ⟨false, ctx⟩).ud := by
  induction es generalizing ctx with
  | nil => rfl
  | cons e es ih =>
    rw [List.foldl_cons]
    unfold entriesProg
    cases hparams : isParams e with
    | false =>
      have hstep : TreeIter.step (loadTreeEntry d.store) ⟨false, ctx⟩ e = ⟨false, ctx⟩ := by
        unfold TreeIter.step
        rw [if_neg (by simp), loadTreeEntry_of_not hparams]
        rfl
      rw [if_pos (by simp), hstep, ih]
    | true =>
      have hload := loadTreeEntry_of_params (s := d.store) hparams ctx
      have hget : d.answer (.get e.2.1) = storeGet d.store e.2.1 := rfl
      have hcells : ((storeGet d.store e.2.1).bind objParseBlob).bind
          (fun blob => refdevParseParamsBlob blob.2) = blobCells d.store e.2.1 := rfl
      rw [if_neg (by simp)]
      unfold readGet
      simp only [Prog.run]
      rw [hget, hcells]
      cases hblob : blobCells d.store e.2.1 with
      | none =>
        have hstep : TreeIter.step (loadTreeEntry d.store) ⟨false, ctx⟩ e
            = ⟨true, { ctx with ok := false }⟩ := by
          unfold TreeIter.step
          rw [if_neg (by simp), hload, hblob]
          rfl
        rw [hstep, step_of_stopped]
        rfl
      | some c =>
        have hstep : TreeIter.step (loadTreeEntry d.store) ⟨false, ctx⟩ e
            = ⟨false, { ctx with staged := overlay c ctx.staged }⟩ := by
          unfold TreeIter.step
          rw [if_neg (by simp), hload, hblob]
          rfl
        rw [hstep]
        exact ih _

theorem loadProg_run (snap : Hash)
    : (loadProg snap).run d.answer = engineLoadSnapshot d.store d.pval snap := by
  have hget : ∀ h, d.answer (.get h) = storeGet d.store h := fun _ => rfl
  have hvalues : d.answer .values = d.pval := rfl
  unfold loadProg engineLoadSnapshot readGet readValues
  simp only [Prog.run]
  rw [hget]
  cases storeGet d.store snap with
  | none => rfl
  | some enc =>
    dsimp only [Option.bind_some]
    cases objParseSnapshotRoot enc with
    | none => rfl
    | some root =>
      simp only [Prog.run]
      rw [hget]
      cases storeGet d.store root with
      | none => rfl
      | some treeEnc =>
        simp only [Prog.run]
        rw [hvalues]
        by_cases hkind : objKind treeEnc = some objTree
        . rw [if_neg (not_not.mpr hkind), Prog.run_bind, entriesProg_run, objTreeForeach_eq hkind]
          rfl
        . rw [if_pos hkind]
          unfold objTreeForeach
          rw [if_pos hkind]
          simp [Prog.run]

theorem gateProg_run (devEngine : Bytes) (newh : Hash)
    : (gateProg devEngine newh).run d.answer = engineGate d.store devEngine newh := rfl

theorem refsetProg_run (q : RefsetReq) (newh : Hash) (r : Ref)
    : ((refsetProg (d.engineVer.getD engineVersion) q newh r).run d.answer).map
          (fun pval => (r, pval.getD d.pval))
        = (refsetChecks d q newh r).2 := by
  unfold refsetProg refsetChecks
  cases hcas : casOk q r with
  | false => rfl
  | true =>
    simp only [not_true_eq_false, if_false, Prog.run_bind, closureProg_run]
    have hcomplete : closureWalk d.store 17 true newh = closureComplete d.store newh := rfl
    rw [hcomplete]
    cases closureComplete d.store newh with
    | false => rfl
    | true =>
      simp only [not_true_eq_false, if_false]
      by_cases hlive : q.refname = liveRef
      . rw [if_neg (not_not.mpr hlive), if_neg (not_not.mpr hlive), Prog.run_bind]
        have hgate : (if q.consent then (.ret none : Reading (Option RefsetRsp))
              else gateProg (d.engineVer.getD engineVersion) newh).run d.answer
            = if q.consent then none
              else engineGate d.store (d.engineVer.getD engineVersion) newh := by
          split <;> rfl
        rw [hgate]
        generalize (if q.consent then none
          else engineGate d.store (d.engineVer.getD engineVersion) newh) = gate
        cases gate with
        | some rsp => rfl
        | none =>
          dsimp only
          rw [Prog.run_bind, loadProg_run]
          cases engineLoadSnapshot d.store d.pval newh <;> rfl
      . rw [if_pos hlive, if_pos hlive]
        rfl

end Sequential

section Machine

inductive SessionPc where
  | idle
  | refsetRead (q : RefsetReq) (newh : Hash)
  | refsetChecks (q : RefsetReq) (newh : Hash) (r : Ref)
      (p : Reading (Except RefsetRsp (Option Grid)))
  | refsetWrite (q : RefsetReq) (newh : Hash) (r : Ref)
  | refsetGc (refname : Bytes)

inductive PanelPc where
  | idle
  | snapLocked (msg : Option Bytes) (revert : Option Ref)
  | revertFlush (src : Ref)
  | revertRead (src : Ref)
  | revertSnap (src : Ref)
  | revertLoad (src : Ref) (p : Reading (Option Grid))
  | revertFlush2 (src : Ref)
  | revertRead2 (src : Ref)
  | revertWrite (src live : Ref)

-- The ref a revert has read and is going to point the live ref at.
def PanelPc.src : PanelPc → Option Ref
  | .idle => none
  | .snapLocked _ revert => revert
  | .revertFlush src | .revertRead src | .revertSnap src | .revertLoad src _ | .revertFlush2 src
  | .revertRead2 src | .revertWrite src _ => some src

structure StoreThreads where
  dev : Device
  session : SessionPc
  panel : PanelPc

structure CallIo where
  write : WriteIo
  snap : SnapIo
  time : Nat

inductive StoreAct where
  | touch (io : WriteIo)
  | refset (body : Option Bytes) (io : WriteIo)
  | obj (enc : Bytes) (io : WriteIo)
  | session (io : CallIo)
  | snapshot (msg : Option Bytes) (io : WriteIo)
  | revert (refname : Bytes)
  | panel (io : CallIo)

def startRefset (d : Device) (body : Option Bytes) (io : WriteIo) : Device × SessionPc :=
  let q := refsetParse body
  match q.newh with
  | none => (d, .idle)
  | some newh =>
    if q.refname.isEmpty ∨ ¬ q.haveExpect then
      (d, .idle)
    else
      (refsetFlush d q io, .refsetRead q newh)

def sessionStep (d : Device) (pc : SessionPc) (io : CallIo) : Device × SessionPc :=
  match pc with
  | .idle => (d, .idle)
  | .refsetRead q newh =>
    match storeRefRead d.store q.refname with
    | none => (d, .idle)
    | some r => (d, .refsetChecks q newh r (refsetProg (d.engineVer.getD engineVersion) q newh r))
  | .refsetChecks q newh r (.ask c k) => (d, .refsetChecks q newh r (k (d.answer c)))
  | .refsetChecks _ _ _ (.ret (.error _)) => (d, .idle)
  | .refsetChecks q newh r (.ret (.ok pval)) =>
    ({ d with pval := pval.getD d.pval }, .refsetWrite q newh r)
  | .refsetWrite q newh r =>
    let (ok, store) := storeRefWrite d.store (r.moved newh) io.write
    ({ d with store }, if ok then .refsetGc q.refname else .idle)
  | .refsetGc refname => (maybeGc d refname, .idle)

def startRevert (d : Device) (refname : Bytes) : PanelPc :=
  match storeRefRead d.store refname with
  | none => .idle
  | some src => if src.hash.isNone then .idle else .revertFlush src

def loadSrc (src : Ref) : PanelPc :=
  match src.hash with
  | none => .idle
  | some h => .revertLoad src (loadProg h)

def panelStep (d : Device) (pc : PanelPc) (io : CallIo) : Device × PanelPc :=
  match pc with
  | .idle => (d, .idle)
  | .snapLocked msg revert =>
    match snapshotLocked d msg io.time io.snap, revert with
    | (some _, d), some src => (d, loadSrc src)
    | (_, d), _ => (d, .idle)
  | .revertFlush src => (liveCacheFlush d io.write, .revertRead src)
  | .revertRead src =>
    match storeRefRead d.store liveRef with
    | none => (d, .idle)
    | some live => (d, if live.dirty then .revertSnap src else loadSrc src)
  | .revertSnap src =>
    (liveCacheFlush d io.write, .snapLocked (some (ascii "pre-revert")) (some src))
  | .revertLoad src (.ask c k) => (d, .revertLoad src (k (d.answer c)))
  | .revertLoad _ (.ret none) => (d, .idle)
  | .revertLoad src (.ret (some pval)) => ({ d with pval }, .revertFlush2 src)
  | .revertFlush2 src => (liveCacheFlush d io.write, .revertRead2 src)
  | .revertRead2 src =>
    (d, .revertWrite src ((storeRefRead d.store liveRef).getD (Ref.unborn liveRef)))
  | .revertWrite src live =>
    ({ d with store := (storeRefWrite d.store (revertRef src live) io.write).2 }, .idle)

def StoreThreads.next (m : StoreThreads) (a : StoreAct) : StoreThreads :=
  match a with
  | .touch io => { m with dev := liveRefTouch m.dev true io }
  | .refset body io =>
    match m.session with
    | .idle =>
      let (dev, session) := startRefset m.dev body io
      { m with dev, session }
    | _ => m
  | .obj enc io =>
    match m.session with
    | .idle => { m with dev := { m.dev with store := handleObj m.dev.store enc io } }
    | _ => m
  | .session io =>
    let (dev, session) := sessionStep m.dev m.session io
    { m with dev, session }
  | .snapshot msg io =>
    match m.panel with
    | .idle => { m with dev := liveCacheFlush m.dev io, panel := .snapLocked msg none }
    | _ => m
  | .revert refname =>
    match m.panel with
    | .idle => { m with panel := startRevert m.dev refname }
    | _ => m
  | .panel io =>
    let (dev, panel) := panelStep m.dev m.panel io
    { m with dev, panel }

end Machine

end Harp
