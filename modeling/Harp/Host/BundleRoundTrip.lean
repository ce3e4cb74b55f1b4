import Harp.Host.BundleReads
import Harp.Host.BundleReject
import Harp.Host.FetchComplete

/-!
This module contains the round trip of a recall bundle: what `getStateBundle` has saved is one item,
and both readers recover the project from it with every object of its closure, if and only if the
closure is one that the format can carry.
-/

namespace Harp

open Trails Trail

section Store

def Store.Empty (s : Store) : Prop :=
  ∀ x, objFile s x = none

-- Every object of the closure can be read, and is the one its hash names.
def Store.HoldsAll (s : Store) (head : Hash) : Prop :=
  ∀ x, Reach s head x → ∃ enc, storeGet s x = some enc ∧ hashCompute enc = x

def Ingests (s : Store) (head : Hash) (s' : Store) : Prop :=
  ∀ x, Reach s head x → storeGet s' x = storeGet s x

def putAll (put : Bytes → WriteIo) (s : Store) (objs : List Bytes) : Store :=
  objs.foldl (fun s enc => (storePut s enc (put enc)).2) s

variable (put : Bytes → WriteIo)

-- The first of the objects that has the name and is written, as far as its bytes reach the disk.
def written (objs : List Bytes) (x : Hash) : Option Bytes :=
  (objs.find? (fun enc => x = hashCompute enc ∧ (put enc).unchecked = true)).map
    (fun enc => (put enc).onDisk enc)

theorem storeHave_of_file {s : Store} {x : Hash} {f : ObjFile} (h : objFile s x = some f)
    : storeHave s x = f.readable := by
  unfold storeHave
  rw [h]

theorem objFile_putAll (s : Store) (objs : List Bytes) (x : Hash)
    : objFile (putAll put s objs) x
        = if storeHave s x = true then
            objFile s x
          else
            ((written put objs x).map (fun enc => ⟨true, some enc, true⟩)) <|> objFile s x := by
  induction objs generalizing s with
  | nil =>
    unfold putAll written
    split <;> rfl
  | cons enc objs ih =>
    have hput := objFile_storePut s enc (put enc) x
    have hstep : putAll put s (enc :: objs) = putAll put (storePut s enc (put enc)).2 objs := rfl
    rw [hstep, ih]
    by_cases hhave : storeHave s x = true
    . rw [if_neg (by simp [hhave])] at hput
      have hsame : storeHave (storePut s enc (put enc)).2 x = storeHave s x := by
        unfold storeHave
        rw [hput]
      rw [hsame, if_pos hhave, if_pos hhave, hput]
    . rw [if_neg hhave]
      by_cases hfirst : x = hashCompute enc ∧ (put enc).unchecked = true
      . rw [if_pos ⟨Bool.not_eq_true _ ▸ hhave, hfirst.2, hfirst.1⟩] at hput
        have hfound : written put (enc :: objs) x = some ((put enc).onDisk enc) := by
          unfold written
          rw [List.find?_cons_of_pos (by simpa using hfirst)]
          rfl
        rw [storeHave_of_file hput, if_pos rfl, hput, hfound]
        rfl
      . rw [if_neg (fun h => hfirst ⟨h.2.2, h.2.1⟩)] at hput
        have hsame : storeHave (storePut s enc (put enc)).2 x = storeHave s x := by
          unfold storeHave
          rw [hput]
        have hlater : written put (enc :: objs) x = written put objs x := by
          unfold written
          rw [List.find?_cons_of_neg (by simpa using hfirst)]
        rw [hsame, if_neg hhave, hput, hlater]

theorem storeGet_putAll {s : Store} (h : s.Empty) (objs : List Bytes) (x : Hash)
    : storeGet (putAll put s objs) x = written put objs x := by
  have hhave : storeHave s x = false := by
    unfold storeHave
    rw [h x]
  unfold storeGet
  rw [objFile_putAll, if_neg (by simp [hhave]), h x]
  cases written put objs x <;> rfl

end Store

section Events

def BundleEvent.object? : BundleEvent → Option Bytes
  | .object span => some span
  | _ => none

variable (put : Bytes → WriteIo)

theorem store_foldl (es : List BundleEvent) (s : BundleState)
    : (es.foldl (BundleState.meet put) s).store
        = putAll put s.store (es.filterMap BundleEvent.object?) := by
  induction es generalizing s with
  | nil => rfl
  | cons e es ih =>
    rw [List.foldl_cons, ih]
    cases e with
    | object span => rfl
    | paramMapHash b =>
      unfold BundleState.meet
      dsimp only
      split <;> rfl
    | ref r =>
      unfold BundleState.meet
      dsimp only
      split <;> rfl
    | _ => rfl

theorem foldl_told (es : List BundleEvent) (s : BundleState)
    : es.foldl (BundleState.meet put) s
        = (es.filter BundleEvent.told).foldl (BundleState.meet put) s := by
  induction es generalizing s with
  | nil => rfl
  | cons e es ih =>
    rw [List.foldl_cons, ih]
    cases e <;> rfl

theorem foldl_objects (objs : List Bytes) (s : BundleState)
    : (objs.map BundleEvent.object).foldl (BundleState.meet put) s
        = { s with store := putAll put s.store objs } := by
  induction objs generalizing s with
  | nil => rfl
  | cons enc objs ih =>
    rw [List.map_cons, List.foldl_cons, ih]
    rfl

variable {id : SavedIdentity} {head : Hash} {gen : UInt64} {objs : List Bytes}

def savedRef (head : Hash) (gen : UInt64) : Ref :=
  ⟨liveRef, some head, gen, false⟩

theorem foldl_bundleEntries (usb : WantedUsb) (store : Store)
    : ((bundleEntries id (savedRef head gen) objs).flatMap Entry.events).foldl
          (BundleState.meet put) (.begin usb store)
        = { magicOk := true
            target := some head
            paramMapHash := some id.paramMapHash
            engineMajor := leadingInt id.engineVer.b
            serial := id.serial.b
            usb := .of id.usbVid.toNat id.usbPid.toNat (some id.usbSerial.b)
            store := putAll put store objs } := by
  have hevents : (bundleEntries id (savedRef head gen) objs).flatMap Entry.events
      = [.magic bundleMagic, .serial id.serial.b, .engineVer id.engineVer.b,
          .paramMapHash id.paramMapHash.b, .ref (savedRef head gen)]
        ++ (objs.map BundleEvent.object ++ [usbEvent id]) := by
    simp [bundleEntries, identityEntries, engineEntries]
  rw [hevents, List.foldl_append, List.foldl_append, foldl_objects]
  simp only [List.foldl_cons, List.foldl_nil, BundleState.meet, BundleState.begin, savedRef,
    dif_pos id.paramMapHash.len, usbEvent]
  simp

theorem foldl_paramsEntries (usb : WantedUsb) (store : Store)
    : let s := ((paramsEntries id (savedRef head gen) objs).flatMap Entry.events).foldl
          (BundleState.meet put) (.begin usb store)
      s.magicOk = true ∧ s.target = some head ∧ s.store = putAll put store objs := by
  have hevents : (paramsEntries id (savedRef head gen) objs).flatMap Entry.events
      = [.magic bundleMagic, .ref (savedRef head gen)] ++ objs.map BundleEvent.object := by
    simp [paramsEntries, bundleEntries]
  rw [hevents, List.foldl_append, foldl_objects]
  simp [BundleState.meet, BundleState.begin, savedRef]

end Events

section Gather

variable {s : Store} {head : Hash}

theorem mem_foldl_childStep (hs clo : List Hash) {x : Hash}
    (h : x ∈ hs.foldl (childStep listCollect) clo) : x ∈ clo ∨ x ∈ hs := by
  induction hs generalizing clo with
  | nil => exact .inl h
  | cons y hs ih =>
    rw [List.foldl_cons] at h
    rcases ih (childStep listCollect clo y) h with hmem | hmem
    . rcases childStep_listCollect clo y with heq | ⟨_, _, heq⟩
      . rw [heq] at hmem
        exact .inl hmem
      . rw [heq, List.mem_append, List.mem_singleton] at hmem
        rcases hmem with hmem | rfl
        . exact .inl hmem
        . exact .inr List.mem_cons_self
    . exact .inr (List.mem_cons_of_mem y hmem)

-- Where nothing is unreadable, the list of a save is the one of a push.
theorem collectFrom_eq (hheld : s.HoldsAll head) (passes cur : Nat) (clo : List Hash)
    (hreach : ∀ x ∈ clo, Reach s head x)
    : collectFrom s passes cur clo = some (gatherFrom s passes cur clo) := by
  induction passes generalizing cur clo with
  | zero => rfl
  | succ passes ih =>
    unfold collectFrom gatherFrom
    cases hx : clo[cur]? with
    | none => rfl
    | some x =>
      have hmem := List.mem_of_getElem? hx
      rcases hheld x (hreach x hmem) with ⟨enc, henc, _⟩
      dsimp only
      rw [henc]
      apply ih
      intro y hy
      rw [objForeachChild_listCollect] at hy
      rcases mem_foldl_childStep _ _ hy with hold | hchild
      . exact hreach y hold
      . exact (hreach x hmem).tail ⟨enc, henc, hchild⟩

theorem collectClosure_eq (hheld : s.HoldsAll head)
    : collectClosure s head = some (gatherClosure s head) := by
  apply collectFrom_eq hheld
  intro x hx
  have hone : x ∈ [head] := hx
  rw [List.mem_singleton] at hone
  rw [hone]
  exact Relation.ReflTransGen.refl

theorem gatherClosure_collects (hheld : s.HoldsAll head)
    : Collects s head (gatherClosure s head).length (gatherClosure s head) :=
  collectClosure_collects (collectClosure_eq hheld)

theorem mem_gatherClosure (hheld : s.HoldsAll head) {clo : List Hash}
    (hlen : clo.length ≤ clientMaxClosure) (hclo : ∀ x, Reach s head x → x ∈ clo) {x : Hash}
    (hx : Reach s head x) : x ∈ gatherClosure s head := by
  refine mem_collectClosure (collectClosure_eq hheld) ?_ hx
  intro l hnodup hl
  have hsub : l ⊆ clo := fun y hy => hclo y (hl y hy)
  exact Nat.le_trans (List.subperm_of_subset hnodup hsub).length_le hlen

-- The objects that are written are those of the hashes that were listed.
theorem mem_closureBytes (hheld : s.HoldsAll head) {enc : Bytes}
    : enc ∈ closureBytes s (gatherClosure s head)
        ↔ ∃ x ∈ gatherClosure s head, storeGet s x = some enc ∧ hashCompute enc = x := by
  have hclo := gatherClosure_collects hheld
  unfold closureBytes
  rw [List.mem_map]
  constructor
  . rintro ⟨x, hx, rfl⟩
    rcases hheld x (hclo.reach x hx) with ⟨enc, henc, hhash⟩
    rw [henc]
    exact ⟨x, hx, henc, hhash⟩
  . rintro ⟨x, hx, henc, _⟩
    refine ⟨x, hx, ?_⟩
    rw [henc]
    rfl

end Gather

/--
The project is wanted as it was saved.
-/
structure Recovers (id : SavedIdentity) (head : Hash) (rt : ShellRt) : Prop where
  hasBundle : rt.project.hasBundle = true
  target : rt.project.bundleTarget = head
  mapHashSet : rt.project.bundleParamMapHashSet = true
  mapHash : rt.project.bundleParamMapHash = id.paramMapHash
  major : rt.project.wantEngineMajor = leadingInt id.engineVer.b
  serial : rt.project.wantSerial = id.serial.b
  usb : rt.usb = .of id.usbVid.toNat id.usbPid.toNat (some id.usbSerial.b)

/--
The bytes are one item, and each reader gets from them what was saved, into any empty store whose
writes end as `put` says. The major of a version that is read back is an `int`.
-/
structure RoundTrip (id : SavedIdentity) (s : Store) (head : Hash) (put : Bytes → WriteIo)
    (data : Bytes) : Prop where
  formed : WellFormed data
  defined : ∀ v, .engineVer v ∈ (bundleRead (Cdec.init data)).2.2 →
    (BundleEvent.engineVer v).overflows = false
  staged : ∀ (rt : ShellRt) (answers : PushAnswers), rt.storeOk = true → rt.store.Empty →
    (rt.setStateBundle data put answers).1 = true
      ∧ Recovers id head (rt.setStateBundle data put answers).2
      ∧ Ingests s head (rt.setStateBundle data put answers).2.store
  read : ∀ s' : Store, s'.Empty →
    (bundleParams data s' put).1 = some (paramsFromStore (bundleParams data s' put).2 head)
      ∧ Ingests s head (bundleParams data s' put).2

-- What a bundle can carry.
structure Embeds (id : SavedIdentity) (s : Store) (head : Hash) (put : Bytes → WriteIo) : Prop where
  major : leadingInt id.engineVer.b ≤ 2147483647
  few : ∃ clo : List Hash, clo.length ≤ clientMaxClosure ∧ ∀ x, Reach s head x → x ∈ clo
  formed : ∀ x enc, Reach s head x → storeGet s x = some enc → WellFormed enc
  shallow : ∀ x enc, Reach s head x → storeGet s x = some enc → Item (fun _ => True) 33 enc
  written : ∀ x enc, Reach s head x → storeGet s x = some enc →
    (put enc).unchecked = true ∧ (put enc).keeps enc = true

namespace ShellRt

-- Nothing that was staged is different.
structure SameStaged (rt' rt : ShellRt) : Prop where
  project : rt'.project = rt.project
  usb : rt'.usb = rt.usb
  store : rt'.store = rt.store

variable {rt rt' : ShellRt}

theorem SameStaged.casLive (h : SameStaged rt' rt) (target : Hash) (answer : RefsetAnswer)
    : SameStaged (rt'.casLive target answer).2 rt := by
  cases answer with
  | ok => exact ⟨h.project, h.usb, h.store⟩
  | incompatible => exact ⟨h.project, h.usb, h.store⟩
  | failed => exact ⟨h.project, h.usb, h.store⟩

theorem SameStaged.pushChosen (h : SameStaged rt' rt) (target : Hash) (live : Ref)
    (deviceHead : Option Hash) (choice : Int) (answers : PushAnswers)
    : SameStaged (rt'.pushChosen target live deviceHead choice answers).2 rt := by
  have hchoice : SameStaged { rt' with roExplicit := choice = 2 } rt := ⟨h.project, h.usb, h.store⟩
  unfold ShellRt.pushChosen
  dsimp only
  generalize { rt' with roExplicit := choice = 2 } = rt₁ at hchoice ⊢
  have hgrant : SameStaged (if choice = 4 then rt₁.grantConsent else rt₁) rt := by
    split
    . exact ⟨hchoice.project, hchoice.usb, hchoice.store⟩
    . exact hchoice
  generalize (if choice = 4 then rt₁.grantConsent else rt₁) = rt₂ at hgrant ⊢
  split
  . exact hchoice
  . split
    . exact hchoice
    . split
      . exact hgrant
      . split
        . exact hgrant
        . exact hgrant.casLive target answers.refset

theorem SameStaged.pushStateLocked (h : SameStaged rt' rt) (target : Hash) (answers : PushAnswers)
    : SameStaged (rt'.pushStateLocked target answers).2 rt := by
  unfold ShellRt.pushStateLocked
  split
  . exact h
  . split
    . exact h
    . split
      . exact h
      . exact h.pushChosen target _ _ _ answers

-- What comes after the staging is about the device only.
theorem sameStaged_setStateBundle (rt : ShellRt) (data : Bytes) (put : Bytes → WriteIo)
    (answers : PushAnswers)
    : SameStaged (rt.setStateBundle data put answers).2 (rt.stageBundle data put).2 := by
  unfold setStateBundle
  split
  next rt₁ heq =>
    rw [heq]
    exact ⟨rfl, rfl, rfl⟩
  next rt₁ heq =>
    rw [heq]
    have hholds : SameStaged rt₁.recomputeReadOnlyHolds rt₁ := ⟨rfl, rfl, rfl⟩
    split
    . dsimp only
      split
      . exact hholds
      . exact hholds.pushStateLocked _ answers
    . exact ⟨rfl, rfl, rfl⟩

end ShellRt

section Reading

variable {id : SavedIdentity} {gen : UInt64} {head : Hash} {objs : List Bytes} {data : Bytes}

-- A reading of exactly these bytes.
theorem Meets.read {x : BundleDec Unit} {es : List BundleEvent} (h : Meets x data () es)
    (put : Bytes → WriteIo) (s : BundleState)
    : (x (Cdec.init data)).1.isSome = true
        ∧ (x (Cdec.init data)).2.2.foldl (BundleState.meet put) s
            = es.foldl (BundleState.meet put) s := by
  have hall := h []
  rw [List.append_nil] at hall
  have hresult := congrArg Prod.fst hall.result
  have htrace := hall.trace
  unfold erase at hresult
  unfold Trail.trace at htrace
  constructor
  . unfold Cdec.init
    rw [hresult]
    rfl
  . unfold Cdec.init
    rw [foldl_told, htrace]

theorem staged_bundle (h : BundleOk id (savedRef head gen) head objs) (rt : ShellRt)
    (put : Bytes → WriteIo) (hstore : rt.storeOk = true)
    : (rt.stageBundle (bundleBytes id (savedRef head gen) objs) put).1 = true
        ∧ Recovers id head (rt.stageBundle (bundleBytes id (savedRef head gen) objs) put).2
        ∧ (rt.stageBundle (bundleBytes id (savedRef head gen) objs) put).2.store
            = putAll put rt.store objs := by
  have hsome : (bundleBytes id (savedRef head gen) objs).isEmpty = false := by
    have hpos := length_encFields_pos ((bundleEntries id (savedRef head gen) objs).map Entry.kv)
    unfold bundleBytes
    rw [List.isEmpty_eq_false_iff_exists_mem, ← List.length_pos_iff_exists_mem]
    exact hpos
  rcases (meets_bundle h).read put (.begin rt.usb rt.store) with ⟨hread, hstate⟩
  rw [foldl_bundleEntries] at hstate
  have hbundle : rt.readBundle (bundleBytes id (savedRef head gen) objs) put
      = (true, ⟨true, some head, some id.paramMapHash, leadingInt id.engineVer.b, id.serial.b,
          .of id.usbVid.toNat id.usbPid.toNat (some id.usbSerial.b),
          putAll put rt.store objs⟩) := by
    unfold ShellRt.readBundle
    rw [← hstate, ← hread]
  unfold ShellRt.stageBundle
  rw [if_neg (by rw [hstore, hsome]; decide), hbundle]
  exact ⟨rfl, ⟨rfl, rfl, rfl, rfl, rfl, rfl, rfl⟩, rfl⟩

theorem params_bundle (h : BundleOk id (savedRef head gen) head objs) (s : Store)
    (put : Bytes → WriteIo)
    : bundleParams (bundleBytes id (savedRef head gen) objs) s put
        = (some (paramsFromStore (putAll put s objs) head), putAll put s objs) := by
  rcases (meets_params h).read put (.begin ⟨false, 0, 0, []⟩ s) with ⟨hread, hstate⟩
  rcases foldl_paramsEntries put ⟨false, 0, 0, []⟩ s with ⟨hmagic, htarget, hstore⟩
  rw [← hstate] at hmagic htarget hstore
  unfold bundleParams
  dsimp only
  rw [hmagic, htarget, hstore, if_neg]
  rw [Option.isNone_iff_eq_none]
  intro hnone
  rw [hnone] at hread
  cases hread

end Reading

section Saved

variable {rt rt' : ShellRt} {id : SavedIdentity} {attempts : List SaveAttempt} {data : Bytes}

-- What a save returns is about the store and the head that it leaves.
theorem getStateBundle_inv (h : rt.getStateBundle id attempts = (some data, rt'))
    : ∃ gen, data = bundleBytes id (savedRef rt'.project.bundleTarget gen)
        (closureBytes rt'.store (gatherClosure rt'.store rt'.project.bundleTarget)) := by
  unfold ShellRt.getStateBundle at h
  split at h
  . cases h
  . split at h
    next => cases h
    next live head store _ =>
      simp only [Prod.mk.injEq, Option.some.injEq] at h
      rcases h with ⟨rfl, rfl⟩
      exact ⟨live.generation, encodeBundle_eq id _ store _⟩

end Saved

section Objects

def BundleEvent.Walked (e : BundleEvent) : Prop :=
  ∀ span, e = .object span → Item (fun _ => True) 33 span

-- A span was walked over before it is told of.
theorem item_bundleSpan {d d' : Cdec} {span : Bytes} {es : List BundleEvent}
    (h : bundleSpan d = (some span, d', es)) : Item (fun _ => True) 33 span := by
  unfold bundleSpan at h
  split at h
  next d₁ es₁ hskip =>
    cases h
    have herase : bundleSkip.erase d = (some (), d') := by
      unfold erase
      rw [hskip]
    rw [erase_bundleSkip] at herase
    rcases walked_of_skipItem 33 d d' herase with ⟨x, hp, hitem, _, _⟩
    rw [hp]
    simpa using hitem
  next => cases h

theorem BundleEvent.Silent.walked {e : BundleEvent} (h : e.Silent) : e.Walked := by
  rintro span rfl
  cases h

theorem Only.walked_of_silent {x : BundleDec α} (h : Only BundleEvent.Silent x)
    : Only BundleEvent.Walked x :=
  fun d e he => (h d e he).walked

theorem walked_bundleMap : Only BundleEvent.Walked bundleMap :=
  Only.walked_of_silent quiet_bundleMap

theorem walked_bundleSkip : Only BundleEvent.Walked bundleSkip :=
  Only.walked_of_silent quiet_bundleSkip

theorem walked_emit {e : BundleEvent} (h : ∀ span, e ≠ .object span)
    : Only BundleEvent.Walked (emit e : BundleDec Unit) :=
  Only.emit fun span heq => absurd heq (h span)

theorem walked_object
    : Only BundleEvent.Walked (do let span ← bundleSpan; emit (.object span) : BundleDec Unit) := by
  have hspan : Only BundleEvent.Walked bundleSpan := by
    intro d e he
    apply walked_bundleSkip d e
    unfold Trail.trace bundleSpan at he
    unfold Trail.trace
    split at he
    next heq =>
      rw [heq]
      exact he
    next heq =>
      rw [heq]
      exact he
  intro d e he
  rw [trace_bind, List.mem_append] at he
  rcases he with he | he
  . exact hspan d e he
  . rcases hrun : bundleSpan d with ⟨_ | span, d', es⟩
    . unfold erase at he
      rw [hrun] at he
      cases he
    . unfold erase at he
      rw [hrun] at he
      rw [List.mem_singleton.mp he]
      rintro span' heq
      cases heq
      exact item_bundleSpan hrun

theorem walked_bundleObjects : Only BundleEvent.Walked bundleObjects := by
  have hloop : Only BundleEvent.Walked (do
      let alen ← lift cdecArray
      loop alen (fun _ => do let span ← bundleSpan; emit (.object span)) () : BundleDec Unit) :=
    Only.bind (Only.lift _) fun alen => Only.loop (fun _ => walked_object) alen ()
  intro d e he
  unfold Trail.trace bundleObjects at he
  split at he
  . cases he
  . exact hloop d e he

theorem walked_bundleRefs : Only BundleEvent.Walked bundleRefs := by
  have hfield : ∀ key it, Only BundleEvent.Walked (bundleRefField key it) := by
    intro key it
    unfold bundleRefField
    split
    . exact Only.lift _
    . exact Only.bind walked_bundleSkip fun _ => Only.pure it
  have href : Only BundleEvent.Walked bundleRefDecode := by
    unfold bundleRefDecode
    refine Only.bind walked_bundleMap ?_
    intro n
    refine Only.bind ?_ ?_
    . exact Only.loop (fun it => Only.bind (Only.lift _) fun key => hfield key it) n _
    . intro it
      split
      . exact Only.pure it.r
      . exact Only.lift _
  unfold bundleRefs
  refine Only.bind (Only.lift _) ?_
  intro alen
  refine Only.loop ?_ alen ()
  intro _
  exact Only.bind href fun r => walked_emit (by simp)

theorem walked_bundleParamsRead : Only BundleEvent.Walked bundleParamsRead := by
  have hfield : ∀ key, Only BundleEvent.Walked (bundleParamsField key) := by
    intro key
    unfold bundleParamsField
    split
    . exact Only.bind (Only.lift _) fun s => walked_emit (by simp)
    . split
      . exact walked_bundleRefs
      . split
        . exact walked_bundleObjects
        . exact walked_bundleSkip
  unfold bundleParamsRead
  refine Only.bind walked_bundleMap ?_
  intro n
  exact Only.loopWhile (Only.bind (Only.lift _) hfield) n

end Objects

section Law

variable {s s' : Store} {id : SavedIdentity} {r : Ref} {head : Hash} {gen : UInt64}
  {put : Bytes → WriteIo} {objs : List Bytes}

theorem item_bundleEntries {ok : Head → Prop} (hok : Usual ok) (h : BundleOk id r head objs)
    {levels : Nat} (hobjs : ∀ x ∈ objs, Item ok (levels + 2) x)
    : ∀ e ∈ bundleEntries id r objs, Item ok (levels + 3) e.val := by
  have hrefs := @item_array ok hok [refEncode r] (levels + 2) (show 1 < 2 ^ 64 by omega)
    (List.forall_mem_singleton.mpr (item_ref hok h levels))
  rw [List.flatten_singleton] at hrefs
  unfold bundleEntries
  simp only [List.forall_mem_cons]
  refine ⟨?_, ?_, item_identity hok h.short levels, hrefs, item_array hok h.length hobjs,
    item_usb hok h.short (levels + 1), by simp⟩
  . exact item_text hok (by decide) (levels + 2)
  . exact item_uint hok (by omega) (levels + 2)

theorem wellFormed_bundleBytes (h : BundleOk id r head objs)
    : WellFormed (bundleBytes id r objs) ↔ ∀ x ∈ objs, WellFormed x := by
  have hlen : ((bundleEntries id r objs).map Entry.kv).length < 2 ^ 63 := by
    simp [bundleEntries]
  have hkeys : ∀ kv ∈ (bundleEntries id r objs).map Entry.kv, kv.1 < 2 ^ 64 := by
    simp [bundleEntries, Entry.kv]
  constructor
  . intro hformed
    have hvals : ∀ kv ∈ (bundleEntries id r objs).map Entry.kv,
        ∃ levels, Item (fun _ => True) levels kv.2 := by
      intro kv hkv
      rcases List.mem_map.mp hkv with ⟨e, he, rfl⟩
      exact ⟨34, item_bundleEntries usual_true h h.items e he⟩
    have hobjs := wellFormed_of_encFields hlen hkeys hvals hformed
      (4, cborArray objs.length ++ objs.flatten) (by simp [bundleEntries, Entry.kv])
    exact wellFormed_of_array h.length (fun x hx => ⟨33, h.items x hx⟩) hobjs
  . intro hobjs
    rcases exists_levels hobjs with ⟨levels, hitems⟩
    refine ⟨levels + 4, item_encFields usual_sound hlen hkeys ?_⟩
    intro kv hkv
    rcases List.mem_map.mp hkv with ⟨e, he, rfl⟩
    apply item_bundleEntries usual_sound h _ e he
    intro x hx
    exact (hitems x hx).mono_levels (by omega)

theorem engineVer_mem (h : BundleOk id r head objs) {v : Bytes}
    : BundleEvent.engineVer v ∈ (bundleRead (Cdec.init (bundleBytes id r objs))).2.2
        ↔ v = id.engineVer.b := by
  have htrace := (meets_bundle h []).trace
  rw [List.append_nil] at htrace
  have hfilter : BundleEvent.engineVer v ∈ (bundleRead (Cdec.init (bundleBytes id r objs))).2.2
      ↔ BundleEvent.engineVer v ∈ (bundleEntries id r objs).flatMap Entry.events := by
    rw [← htrace, List.mem_filter]
    exact (and_iff_left rfl).symm
  rw [hfilter]
  simp [bundleEntries, identityEntries, engineEntries, usbEvent]

-- Objects that are written one by one into an empty store are there afterwards.
theorem ingests_putAll (hheld : s.HoldsAll head) (hempty : s'.Empty)
    (hall : ∀ x, Reach s head x → x ∈ gatherClosure s head)
    (hput : ∀ x enc, Reach s head x → storeGet s x = some enc →
      (put enc).unchecked = true ∧ (put enc).keeps enc = true)
    : Ingests s head (putAll put s' (closureBytes s (gatherClosure s head))) := by
  intro x hx
  rcases hheld x hx with ⟨enc, henc, hhash⟩
  have hmem := (mem_closureBytes hheld).mpr ⟨x, hall x hx, henc, hhash⟩
  obtain ⟨hok, hkeeps⟩ := hput x enc hx henc
  rw [storeGet_putAll put hempty, henc]
  unfold written
  cases hfind : (closureBytes s (gatherClosure s head)).find?
      (fun enc => x = hashCompute enc ∧ (put enc).unchecked = true) with
  | none =>
    have hnot := List.find?_eq_none.mp hfind enc hmem
    rw [decide_eq_true_eq] at hnot
    exact absurd ⟨hhash.symm, hok⟩ hnot
  | some enc' =>
    have hfound := List.find?_some hfind
    rw [decide_eq_true_eq] at hfound
    rcases (mem_closureBytes hheld).mp (List.mem_of_find?_eq_some hfind) with ⟨x', _, henc', hhash'⟩
    rw [← hhash', ← hfound.1, henc] at henc'
    cases henc'
    rw [Option.map_some, WriteIo.onDisk_eq hkeeps]

theorem bundleOk_of_items (hheld : s.HoldsAll head)
    (hlen : (bundleBytes id (savedRef head gen) (closureBytes s (gatherClosure s head))).length
      < 2 ^ 64)
    (hitems : ∀ x ∈ closureBytes s (gatherClosure s head), Item (fun _ => True) 33 x)
    : BundleOk id (savedRef head gen) head (closureBytes s (gatherClosure s head)) := by
  have hbound := (gatherClosure_collects hheld).bound
  rcases hheld head Relation.ReflTransGen.refl with ⟨enc, _, hhash⟩
  refine ⟨short_of_bundleBytes hlen, (by decide : refNameOk liveRef = true), rfl, ?_, ?_, hitems⟩
  . rw [← hhash]
    rfl
  . unfold closureBytes clientMaxClosure at *
    rw [List.length_map]
    omega

theorem Embeds.roundTrip (h : Embeds id s head put) (hheld : s.HoldsAll head)
    (hlen : (bundleBytes id (savedRef head gen) (closureBytes s (gatherClosure s head))).length
      < 2 ^ 64)
    : RoundTrip id s head put
        (bundleBytes id (savedRef head gen) (closureBytes s (gatherClosure s head))) := by
  have hreach := (gatherClosure_collects hheld).reach
  have hall : ∀ x, Reach s head x → x ∈ gatherClosure s head := by
    rcases h.few with ⟨clo, hfew, hclo⟩
    intro x hx
    exact mem_gatherClosure hheld hfew hclo hx
  have hok := @bundleOk_of_items s id head gen hheld hlen (by
    intro enc hmem
    rcases (mem_closureBytes hheld).mp hmem with ⟨x, hx, henc, _⟩
    exact h.shallow x enc (hreach x hx) henc)
  constructor
  . rw [wellFormed_bundleBytes hok]
    intro enc hmem
    rcases (mem_closureBytes hheld).mp hmem with ⟨x, hx, henc, _⟩
    exact h.formed x enc (hreach x hx) henc
  . intro v hv
    rw [engineVer_mem hok] at hv
    rw [hv, engineVer_overflows]
    exact h.major
  . intro rt answers hstore hempty
    rcases staged_bundle hok rt put hstore with ⟨haccepted, hrecovers, hobjs⟩
    have hsame := rt.sameStaged_setStateBundle
      (bundleBytes id (savedRef head gen) (closureBytes s (gatherClosure s head))) put answers
    refine ⟨?_, ?_, ?_⟩
    . rw [ShellRt.setStateBundle_fst]
      exact haccepted
    . rcases hrecovers with ⟨hhas, htarget, hset, hmap, hmajor, hserial, husb⟩
      rw [← hsame.project] at hhas htarget hset hmap hmajor hserial
      rw [← hsame.usb] at husb
      exact ⟨hhas, htarget, hset, hmap, hmajor, hserial, husb⟩
    . rw [hsame.store, hobjs]
      exact ingests_putAll hheld hempty hall h.written
  . intro s' hempty
    rw [params_bundle hok]
    exact ⟨rfl, ingests_putAll hheld hempty hall h.written⟩

theorem empty_openStore : openStore.Empty :=
  fun _ => rfl

theorem snd_bundleParams (data : Bytes) (s : Store) (put : Bytes → WriteIo)
    : (bundleParams data s put).2
        = putAll put s ((bundleParamsRead (Cdec.init data)).2.2.filterMap BundleEvent.object?) := by
  have hstore := store_foldl put (bundleParamsRead (Cdec.init data)).2.2
    (.begin ⟨false, 0, 0, []⟩ s)
  have hbegin : (BundleState.begin ⟨false, 0, 0, []⟩ s).store = s := rfl
  rw [hbegin] at hstore
  rw [← hstore]
  unfold bundleParams
  dsimp only
  split
  . rfl
  . split <;> rfl

-- A write that loses nothing and answers with success has stored the object as it was.
theorem written_lossless (hput : ∀ enc, (put enc).lossless = true) {objs : List Bytes} {x : Hash}
    {enc : Bytes} (h : written put objs x = some enc)
    : enc ∈ objs ∧ x = hashCompute enc ∧ (put enc).unchecked = true := by
  unfold written at h
  rw [Option.map_eq_some_iff] at h
  rcases h with ⟨enc', hfind, hdisk⟩
  rw [WriteIo.onDisk_eq (WriteIo.keeps_of_lossless (hput enc') enc')] at hdisk
  subst hdisk
  have hfound := List.find?_some hfind
  rw [decide_eq_true_eq] at hfound
  exact ⟨List.mem_of_find?_eq_some hfind, hfound⟩

-- An object that has come through the bytes was walked over on the way, and its write has ended well.
theorem RoundTrip.object (hput : ∀ enc, (put enc).lossless = true) {data : Bytes}
    (h : RoundTrip id s head put data) {x : Hash} {enc : Bytes}
    (hx : Reach s head x) (henc : storeGet s x = some enc)
    : Item (fun _ => True) 33 enc ∧ (put enc).unchecked = true := by
  have hread := (h.read openStore empty_openStore).2 x hx
  rw [snd_bundleParams, storeGet_putAll put empty_openStore, henc] at hread
  obtain ⟨hmem, _, hok⟩ := written_lossless hput hread
  rcases List.mem_filterMap.mp hmem with ⟨e, he, hobject⟩
  refine ⟨walked_bundleParamsRead _ e he enc ?_, hok⟩
  cases e with
  | object span =>
    cases hobject
    rfl
  | _ => cases hobject

theorem RoundTrip.embeds (hput : ∀ enc, (put enc).lossless = true) (hheld : s.HoldsAll head)
    (hlen : (bundleBytes id (savedRef head gen) (closureBytes s (gatherClosure s head))).length
      < 2 ^ 64)
    (h : RoundTrip id s head put
      (bundleBytes id (savedRef head gen) (closureBytes s (gatherClosure s head))))
    : Embeds id s head put := by
  have hclo := gatherClosure_collects hheld
  have hok := @bundleOk_of_items s id head gen hheld hlen (by
    intro enc hmem
    rcases (mem_closureBytes hheld).mp hmem with ⟨x, hx, henc, _⟩
    exact (h.object hput (hclo.reach x hx) henc).1)
  -- what was ingested had been listed
  have hall : ∀ x, Reach s head x → x ∈ gatherClosure s head := by
    intro x hx
    rcases hheld x hx with ⟨enc, henc, _⟩
    have hread := (h.read openStore empty_openStore).2 x hx
    rw [params_bundle hok, storeGet_putAll put empty_openStore, henc] at hread
    obtain ⟨hmem, hname, _⟩ := written_lossless hput hread
    rcases (mem_closureBytes hheld).mp hmem with ⟨x', hx', _, hhash⟩
    rw [hname, hhash]
    exact hx'
  constructor
  . rw [← engineVer_overflows]
    exact h.defined _ ((engineVer_mem hok).mpr rfl)
  . exact ⟨gatherClosure s head, hclo.bound, hall⟩
  . intro x enc hx henc
    rcases hheld x hx with ⟨enc', henc', hhash⟩
    have hmem := (mem_closureBytes hheld).mpr ⟨x, hall x hx, henc', hhash⟩
    rw [henc] at henc'
    cases henc'
    exact (wellFormed_bundleBytes hok).mp h.formed enc hmem
  . intro x enc hx henc
    exact (h.object hput hx henc).1
  . intro x enc hx henc
    exact ⟨(h.object hput hx henc).2, WriteIo.keeps_of_lossless (hput enc) enc⟩

end Law

theorem roundTrip_iff {rt rt' : ShellRt} {id : SavedIdentity} {attempts : List SaveAttempt}
    {data : Bytes} (put : Bytes → WriteIo)
    (hsave : rt.getStateBundle id attempts = (some data, rt'))
    (hheld : rt'.store.HoldsAll rt'.project.bundleTarget) (hlen : data.length < 2 ^ 64)
    : (Embeds id rt'.store rt'.project.bundleTarget put →
          RoundTrip id rt'.store rt'.project.bundleTarget put data)
        ∧ ((∀ enc, (put enc).lossless = true) →
          RoundTrip id rt'.store rt'.project.bundleTarget put data →
            Embeds id rt'.store rt'.project.bundleTarget put) := by
  rcases getStateBundle_inv hsave with ⟨gen, rfl⟩
  constructor
  . intro h
    exact h.roundTrip hheld hlen
  . intro hput
    exact RoundTrip.embeds hput hheld hlen

section Tails

-- The empty tree, with whatever stands behind it.
def endTree (tail : Bytes) : Bytes :=
  (objEncodeTree []).getD [] ++ tail

def endSnap (tree : Hash) : SnapArgs :=
  ⟨tree, [], 0, ascii "d", ascii "1", none⟩

def endStore (tail : Bytes) (tree snap : Hash) : Store :=
  ⟨[7], [objEntry snap (endSnap tree).encode, objEntry tree (endTree tail)], .dir true []⟩

def endId : SavedIdentity where
  vendorId := 1
  vendorName := ⟨ascii "v", by decide⟩
  productId := 2
  productName := ⟨ascii "p", by decide⟩
  serial := ⟨ascii "s", by decide⟩
  engineId := ⟨ascii "e", by decide⟩
  engineVer := ⟨ascii "1.0", by decide⟩
  paramMapHash := .zero
  usbVid := 3
  usbPid := 4
  usbSerial := ⟨ascii "u", by decide⟩

-- A save of what is held already.
def endSave (tail : Bytes) (tree snap : Hash) : Option Bytes × ShellRt :=
  (ShellRt.fresh (endStore tail tree snap)).getStateBundle endId
    [⟨true, some ⟨liveRef, some snap, 1, false⟩, none, openStore,
      ⟨[⟨true, []⟩, ⟨true, []⟩], fun _ => .ok⟩⟩]

structure EndSaved (tail : Bytes) (tree snap : Hash) : Prop where
  saved : (endSave tail tree snap).1.isSome = true
  length : ((endSave tail tree snap).1.getD []).length < 2 ^ 64
  target : (endSave tail tree snap).2.project.bundleTarget = snap
  snapGet : storeGet (endSave tail tree snap).2.store snap = some (endSnap tree).encode
  treeGet : storeGet (endSave tail tree snap).2.store tree = some (endTree tail)
  snapChildren : storeChildren (endSave tail tree snap).2.store snap = [tree]
  treeChildren : storeChildren (endSave tail tree snap).2.store tree = []
  snapHash : hashCompute (endSnap tree).encode = snap
  treeHash : hashCompute (endTree tail) = tree

variable {tail : Bytes} {tree snap : Hash}

theorem EndSaved.save (h : EndSaved tail tree snap)
    : endSave tail tree snap
        = (some ((endSave tail tree snap).1.getD []), (endSave tail tree snap).2) := by
  have hsaved := h.saved
  rcases hrun : endSave tail tree snap with ⟨_ | data, rt⟩
  . rw [hrun] at hsaved
    cases hsaved
  . rfl

theorem EndSaved.reach (h : EndSaved tail tree snap) {x : Hash}
    (hx : Reach (endSave tail tree snap).2.store snap x) : x = snap ∨ x = tree := by
  induction hx with
  | refl => exact .inl rfl
  | tail _ hchild ih =>
    rw [child_iff] at hchild
    rcases ih with rfl | rfl
    . rw [h.snapChildren, List.mem_singleton] at hchild
      exact .inr hchild
    . rw [h.treeChildren] at hchild
      cases hchild

theorem EndSaved.holdsAll (h : EndSaved tail tree snap)
    : (endSave tail tree snap).2.store.HoldsAll (endSave tail tree snap).2.project.bundleTarget := by
  rw [h.target]
  intro x hx
  rcases h.reach hx with rfl | rfl
  . exact ⟨_, h.snapGet, h.snapHash⟩
  . exact ⟨_, h.treeGet, h.treeHash⟩

def cleanTree : Hash :=
  keyHash 0x01446f868078752903cba5b33a6451ea5fa13618a35f2f276fe00848f4f12d9d4f

def cleanSnap : Hash :=
  keyHash 0x01ed2175d026095017a9a5886a6e1bc6aadfc59ddeba3e87885edd15778838fb52

theorem endSaved_clean : EndSaved [] cleanTree cleanSnap := by
  constructor <;> decide +kernel

def byteTree : Hash :=
  keyHash 0x01166d32415d0a79b25b28c87be8bebe9d440bab8ac7d09b90cb64ff56f8b6f526

def byteSnap : Hash :=
  keyHash 0x0100730ea53f4d2abd055b4f35e4e27516b1f1c6b77abd9ea7350f21e886096528

theorem endSaved_byte : EndSaved [0] byteTree byteSnap := by
  constructor <;> decide +kernel

-- Two objects as the encoders write them are as deep as a bundle needs them.
theorem item_endSnap {ok : Head → Prop} (hok : Usual ok) (tree : Hash)
    : Item ok 33 (endSnap tree).encode := by
  have hparents : Item ok 32 (encHashes []) := @item_array ok hok [] 31 (by decide) (by simp)
  rw [SnapArgs.encode_eq]
  apply item_encFields hok
  . simp [SnapArgs.fields, endSnap]
  . simp [SnapArgs.fields, endSnap]
  . unfold SnapArgs.fields endSnap
    simp only [Option.toList_none, List.map_nil, List.append_nil, List.forall_mem_cons]
    exact ⟨item_uint hok (by decide) 31, item_bytes hok (hash_lt tree) 31, hparents,
      item_uint hok (by decide) 31, item_text hok (by decide) 31, item_text hok (by decide) 31,
      by simp⟩

theorem item_endTree {ok : Head → Prop} (hok : Usual ok) : Item ok 33 (endTree []) := by
  have hentries : Item ok 32 (cborMap 0 ++ []) :=
    @item_encFields ok hok [] 30 (by decide) (by simp) (by simp)
  have htree : endTree [] = encFields [(0, cborUint objTree), (1, cborMap 0 ++ [])] := by
    decide +kernel
  rw [htree]
  apply item_encFields hok
  . decide
  . simp
  . simp only [List.forall_mem_cons]
    exact ⟨item_uint hok (by decide) 31, hentries, by simp⟩

theorem roundTrip_clean
    : RoundTrip endId (endSave [] cleanTree cleanSnap).2.store
        (endSave [] cleanTree cleanSnap).2.project.bundleTarget (fun _ => .ok)
        ((endSave [] cleanTree cleanSnap).1.getD []) := by
  have hsaved := endSaved_clean
  have hitems : ∀ {ok : Head → Prop}, Usual ok → ∀ x enc,
      Reach (endSave [] cleanTree cleanSnap).2.store cleanSnap x →
      storeGet (endSave [] cleanTree cleanSnap).2.store x = some enc → Item ok 33 enc := by
    intro ok hok x enc hx henc
    rcases hsaved.reach hx with rfl | rfl
    . rw [hsaved.snapGet] at henc
      cases henc
      exact item_endSnap hok cleanTree
    . rw [hsaved.treeGet] at henc
      cases henc
      exact item_endTree hok
  apply (roundTrip_iff (fun _ => .ok) hsaved.save hsaved.holdsAll hsaved.length).1
  rw [hsaved.target]
  constructor
  . decide
  . refine ⟨[cleanSnap, cleanTree], by decide, ?_⟩
    intro x hx
    simpa using hsaved.reach hx
  . intro x enc hx henc
    exact ⟨33, hitems usual_sound x enc hx henc⟩
  . intro x enc hx henc
    exact hitems usual_true x enc hx henc
  . intro x enc _ _
    exact ⟨rfl, WriteIo.ok_keeps enc⟩

-- One more byte behind the tree.
theorem not_roundTrip_byte
    : ¬ ∀ (rt rt' : ShellRt) (id : SavedIdentity) (attempts : List SaveAttempt) (data : Bytes),
        rt.getStateBundle id attempts = (some data, rt') →
        rt'.store.HoldsAll rt'.project.bundleTarget → data.length < 2 ^ 64 →
        RoundTrip id rt'.store rt'.project.bundleTarget (fun _ => .ok) data := by
  intro h
  have hsaved := endSaved_byte
  have hround := h _ _ _ _ _ hsaved.save hsaved.holdsAll hsaved.length
  rw [hsaved.target] at hround
  have hchild : byteTree ∈ storeChildren (endSave [0] byteTree byteSnap).2.store byteSnap := by
    rw [hsaved.snapChildren]
    exact List.mem_singleton_self byteTree
  rw [← child_iff] at hchild
  have hitem := (hround.object (fun _ => rfl) (Relation.ReflTransGen.single hchild)
    hsaved.treeGet).1
  have hskip := cdecSkip_of_item hitem []
  have hstop : (cdecSkip ⟨endTree [0] ++ [], false⟩).2.p = [0] := by decide +kernel
  rw [hskip] at hstop
  cases hstop

end Tails
end Harp
