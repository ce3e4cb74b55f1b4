import Harp.Host.Recall

/-!
This module contains what a bundle that is refused leaves behind: the USB identity is written where it
is met, whatever becomes of the bundle, and the engine's major is added up in an `int`.
-/

namespace Harp

section Events

-- The `int` arithmetic over the leading digits of a version.
def majorOverflows : Bytes → Nat → Bool
  | [], _ => false
  | c :: cs, v =>
    if 48 ≤ c ∧ c ≤ 57 then
      if v * 10 + (c.toNat - 48) > 2147483647 then
        true
      else
        majorOverflows cs (v * 10 + (c.toNat - 48))
    else
      false

def BundleEvent.overflows : BundleEvent → Bool
  | .mapCount n => n * 2 ≥ 18446744073709551616
  | .engineVer s => majorOverflows s 0
  | _ => false

def BundleEvent.usb? : BundleEvent → Option WantedUsb
  | .usb vid pid name => some (.of vid pid name)
  | _ => none

def BundleEvent.magic? : BundleEvent → Option Bytes
  | .magic s => some s
  | _ => none

def BundleEvent.target? : BundleEvent → Option Hash
  | .ref r => if r.name = liveRef then r.hash else none
  | _ => none

-- The last value of a kind that an event stands for.
def lastOf (f : BundleEvent → Option α) : List BundleEvent → Option α
  | [] => none
  | e :: es => lastOf f es <|> f e

variable (put : Bytes → WriteIo)

theorem usb_meet (s : BundleState) (e : BundleEvent) : (s.meet put e).usb = e.usb?.getD s.usb := by
  cases e with
  | paramMapHash b =>
    simp only [BundleState.meet]
    split <;> rfl
  | ref r =>
    simp only [BundleState.meet]
    split <;> rfl
  | _ => rfl

theorem magicOk_meet (s : BundleState) (e : BundleEvent)
    : (s.meet put e).magicOk = (e.magic?.map fun t => decide (t = bundleMagic)).getD s.magicOk := by
  cases e with
  | paramMapHash b =>
    simp only [BundleState.meet]
    split <;> rfl
  | ref r =>
    simp only [BundleState.meet]
    split <;> rfl
  | _ => rfl

theorem target_meet (s : BundleState) (e : BundleEvent)
    : (s.meet put e).target = (e.target? <|> s.target) := by
  cases e with
  | paramMapHash b =>
    simp only [BundleState.meet]
    split <;> rfl
  | ref r =>
    simp only [BundleState.meet, BundleEvent.target?]
    by_cases hname : r.name = liveRef
    . cases r.hash <;> simp [hname]
    . simp [hname]
  | _ => rfl

variable {put}

theorem usb_foldl (es : List BundleEvent) (s : BundleState)
    : (es.foldl (BundleState.meet put) s).usb = (lastOf (·.usb?) es).getD s.usb := by
  induction es generalizing s with
  | nil => rfl
  | cons e es ih =>
    rw [List.foldl_cons, ih, usb_meet, lastOf]
    cases lastOf (·.usb?) es <;> rfl

theorem magicOk_foldl (es : List BundleEvent) (s : BundleState)
    : (es.foldl (BundleState.meet put) s).magicOk
        = ((lastOf (·.magic?) es).map fun t => decide (t = bundleMagic)).getD s.magicOk := by
  induction es generalizing s with
  | nil => rfl
  | cons e es ih =>
    rw [List.foldl_cons, ih, magicOk_meet, lastOf]
    cases lastOf (·.magic?) es <;> rfl

theorem target_foldl (es : List BundleEvent) (s : BundleState)
    : (es.foldl (BundleState.meet put) s).target = (lastOf (·.target?) es <|> s.target) := by
  induction es generalizing s with
  | nil => rfl
  | cons e es ih =>
    rw [List.foldl_cons, ih, target_meet, lastOf]
    cases lastOf (·.target?) es <;> rfl

end Events

-- The objects that the parameter values of a staged project are taken from are decoded as well. Their
-- decoders are watched from outside: what map headers a callback reads depends on the field alone.
section Heads

open Trails

variable {σ : Type}

def skipHeads (d : Cdec) : List BundleEvent :=
  Trail.trace bundleSkip d

def watch (visit : FieldCb σ) (heads : Nat → Cdec → List BundleEvent)
    : FieldCb (σ × List BundleEvent) := fun key d s =>
  let r := visit key d s.1
  (r.1, r.2.1, (r.2.2, s.2 ++ heads key d))

def fieldHeads (enc : Bytes) (visit : FieldCb σ) (heads : Nat → Cdec → List BundleEvent) (s : σ)
    : List BundleEvent :=
  mapHeads (Cdec.init enc) ++ (objFields enc (watch visit heads) (s, [])).2.2

-- Watching a decoder does not change it.
theorem objFields_watch (enc : Bytes) (visit : FieldCb σ) (heads : Nat → Cdec → List BundleEvent)
    (s : σ) (es : List BundleEvent)
    : ((objFields enc (watch visit heads) (s, es)).1,
        (objFields enc (watch visit heads) (s, es)).2.1) = objFields enc visit s := by
  have hgo : ∀ (n : Nat) (d : Cdec) (s : σ) (es : List BundleEvent),
      ((objFields.go (watch visit heads) n d (s, es)).1,
        (objFields.go (watch visit heads) n d (s, es)).2.1) = objFields.go visit n d s := by
    intro n
    induction n with
    | zero => exact fun _ _ _ => rfl
    | succ n ih =>
      intro d s es
      unfold objFields.go
      rcases cdecUint d with ⟨_ | key, d⟩
      . rfl
      . simp only [watch]
        rcases visit key d s with ⟨_ | _, d', s'⟩
        . rfl
        . exact ih d' s' _
  unfold objFields
  rcases cdecMap (Cdec.init enc) with ⟨_ | n, d⟩
  . rfl
  . exact hgo n d s es

def snapHeads (enc : Bytes) : List BundleEvent :=
  fieldHeads enc snapCb (fun key d => if key = 0 ∨ key = 1 ∨ key = 5 then [] else skipHeads d)
    ⟨none, 2 ^ 32 - 1, none⟩

def treeHeads (enc : Bytes) : List BundleEvent :=
  fieldHeads enc kindCb (fun key d => if key = 0 then [] else skipHeads d) none
    ++ if objKind enc = some objTree then
      fieldHeads enc (treeCb fun _ _ _ _ => (true, ()))
        (fun key d => if key ≠ 1 then skipHeads d else mapHeads d) ⟨false, ()⟩
    else
      []

def blobHeads (enc : Bytes) : List BundleEvent :=
  fieldHeads enc blobCb (fun key d => if key ≤ 2 then [] else skipHeads d) ⟨[], none, 2 ^ 32 - 1⟩

-- As in `scanParts`.
def scanHeads (n : Nat) (pd : Cdec) : List BundleEvent :=
  match n with
  | 0 => []
  | n + 1 =>
    if pd.err then
      []
    else
      match cdecUint pd with
      | (none, _) => []
      | (some part, pd) =>
        if part = 0 then
          mapHeads pd ++ scanHeads n (decodeParamMap pd []).1
        else
          skipHeads pd ++
            match cdecSkip pd with
            | (none, _) => []
            | (some _, pd) => scanHeads n pd

-- As in `decodeParamsPayload`.
def payloadHeads (pl : Bytes) : List BundleEvent :=
  mapHeads (Cdec.init pl) ++
    match cdecMap (Cdec.init pl) with
    | (none, _) => []
    | (some pn, pd) =>
      if pn = 0 then
        []
      else
        match cdecUint pd with
        | (none, _) => []
        | (some firstKey, pd) =>
          if cdecPeek pd = some 5 then
            if firstKey = 0 then
              mapHeads pd ++ scanHeads (pn - 1) (decodeParamMap pd []).1
            else
              skipHeads pd ++ scanHeads (pn - 1) (cdecSkip pd).2
          else
            []

-- A payload of one header, of 2^63 entries.
example : payloadHeads [0xbb, 0x80, 0, 0, 0, 0, 0, 0, 0] = [.mapCount 9223372036854775808] := by
  decide +kernel

def paramsHeadsCb (s : Store) : TreeCb (List BundleEvent) := fun name h kind es =>
  if name ≠ ascii "params" ∨ kind ≠ 0 then
    (true, es)
  else
    match storeGet s h with
    | none => (true, es)
    | some blob =>
      (true, es ++ blobHeads blob ++
        match objParseBlob blob with
        | none => []
        | some (_, pl) => payloadHeads pl)

-- As in `paramsFromStore`.
def paramsHeads (s : Store) (target : Hash) : List BundleEvent :=
  match storeGet s target with
  | none => []
  | some enc =>
    snapHeads enc ++
      match objParseSnapshotRoot enc with
      | none => []
      | some root =>
        match storeGet s root with
        | none => []
        | some tree => treeHeads tree ++ (objTreeForeach tree (paramsHeadsCb s) []).2

end Heads

section Major

theorem le_foldl_digits (ds : Bytes) (v : Nat)
    : v ≤ ds.foldl (fun v c => v * 10 + (c.toNat - 48)) v := by
  induction ds generalizing v with
  | nil => exact Nat.le_refl v
  | cons c ds ih =>
    have hnext := ih (v * 10 + (c.toNat - 48))
    rw [List.foldl_cons]
    omega

theorem majorOverflows_eq (s : Bytes) (v : Nat) (hv : v ≤ 2147483647)
    : majorOverflows s v = false
        ↔ (s.takeWhile fun c => 48 ≤ c ∧ c ≤ 57).foldl (fun v c => v * 10 + (c.toNat - 48)) v
          ≤ 2147483647 := by
  induction s generalizing v with
  | nil => simpa [majorOverflows] using hv
  | cons c s ih =>
    unfold majorOverflows
    split
    next hdigit =>
      rw [List.takeWhile_cons_of_pos (by simpa using hdigit), List.foldl_cons]
      have hgrows := le_foldl_digits (s.takeWhile fun c => 48 ≤ c ∧ c ≤ 57) (v * 10 + (c.toNat - 48))
      split
      next hover =>
        simp only [Bool.true_eq_false, false_iff]
        omega
      next hfits => exact ih _ (by omega)
    next hdigit =>
      rw [List.takeWhile_cons_of_neg (by simpa using hdigit)]
      simpa using hv

theorem engineVer_overflows (s : Bytes)
    : (BundleEvent.engineVer s).overflows = false ↔ leadingInt s ≤ 2147483647 :=
  majorOverflows_eq s 0 (by decide)

theorem mapCount_overflows (n : Nat)
    : (BundleEvent.mapCount n).overflows = false ↔ n < 9223372036854775808 := by
  unfold BundleEvent.overflows
  rw [decide_eq_false_iff_not]
  omega

end Major

namespace ShellRt

-- What the reader meets before it stops; without a store or without bytes it does not start.
def decoded (rt : ShellRt) (data : Bytes) : List BundleEvent :=
  if !rt.storeOk || data.isEmpty then [] else (bundleRead (Cdec.init data)).2.2

-- What is met when the parameter values of a project that is staged are taken from the store.
def reread (rt : ShellRt) (data : Bytes) (put : Bytes → WriteIo) : List BundleEvent :=
  if (rt.stageBundle data put).1 then
    paramsHeads (rt.stageBundle data put).2.store (rt.stageBundle data put).2.project.bundleTarget
  else
    []

def RejectLaw (rt : ShellRt) (data : Bytes) (put : Bytes → WriteIo) (answers : PushAnswers) : Prop :=
  ((rt.setStateBundle data put answers).1 = false →
      (rt.setStateBundle data put answers).2.project = rt.project
        ∧ (rt.setStateBundle data put answers).2.usb = rt.usb)
    ∧ ∀ e ∈ rt.decoded data ++ rt.reread data put, e.overflows = false

-- All entries can be read, the last magic is the right one and a live ref has a hash.
def Complete (rt : ShellRt) (data : Bytes) : Prop :=
  (bundleRead (Cdec.init data)).1.isSome ∧ lastOf (·.magic?) (rt.decoded data) = some bundleMagic
    ∧ (lastOf (·.target?) (rt.decoded data)).isSome

-- The last USB identity of the bytes is wanted already.
def UsbWanted (rt : ShellRt) (data : Bytes) : Prop :=
  ∀ u ∈ lastOf (·.usb?) (rt.decoded data), u = rt.usb

variable {rt : ShellRt} {data : Bytes} {put : Bytes → WriteIo}

theorem stageBundle_of_decoded (put : Bytes → WriteIo)
    (h : ¬(!rt.storeOk || data.isEmpty) = true)
    : ((rt.stageBundle data put).1 = true ∧ rt.Complete data)
        ∨ (rt.stageBundle data put
            = (false, { rt with
                usb := (rt.readBundle data put).2.usb, store := (rt.readBundle data put).2.store })
          ∧ ¬rt.Complete data) := by
  have hmagic : (rt.readBundle data put).2.magicOk = true
      ↔ lastOf (·.magic?) (bundleRead (Cdec.init data)).2.2 = some bundleMagic := by
    unfold readBundle
    rw [magicOk_foldl]
    cases lastOf (·.magic?) (bundleRead (Cdec.init data)).2.2 <;> simp [BundleState.begin]
  have htarget : (rt.readBundle data put).2.target
      = lastOf (·.target?) (bundleRead (Cdec.init data)).2.2 := by
    unfold readBundle
    rw [target_foldl]
    cases lastOf (·.target?) (bundleRead (Cdec.init data)).2.2 <;> rfl
  unfold stageBundle Complete decoded
  rw [if_neg h, if_neg h, ← hmagic, ← htarget]
  simp only
  split
  next target hread hok hsome =>
    refine .inl ⟨rfl, hread, hok, ?_⟩
    rw [hsome]
    rfl
  next hnot =>
    refine .inr ⟨rfl, ?_⟩
    rintro ⟨hread, hok, hsome⟩
    rcases Option.isSome_iff_exists.mp hsome with ⟨target, htgt⟩
    exact hnot target hread hok htgt

theorem usb_readBundle (rt : ShellRt) (data : Bytes) (put : Bytes → WriteIo)
    : (rt.readBundle data put).2.usb
        = (lastOf (·.usb?) (bundleRead (Cdec.init data)).2.2).getD rt.usb :=
  usb_foldl _ _

theorem stageBundle_accepts (put : Bytes → WriteIo)
    : (rt.stageBundle data put).1 = true ↔ rt.Complete data := by
  by_cases hrun : (!rt.storeOk || data.isEmpty) = true
  . unfold stageBundle Complete decoded
    rw [if_pos hrun, if_pos hrun]
    simp [lastOf]
  . rcases stageBundle_of_decoded put hrun with ⟨hret, hcomplete⟩ | ⟨hret, hcomplete⟩
    . exact ⟨fun _ => hcomplete, fun _ => hret⟩
    . rw [hret]
      simpa using hcomplete

-- What a refusal leaves: the project, and the last USB identity that was met.
theorem stageBundle_rejected (put : Bytes → WriteIo) (h : ¬rt.Complete data)
    : (rt.stageBundle data put).2.project = rt.project
        ∧ (rt.stageBundle data put).2.usb = (lastOf (·.usb?) (rt.decoded data)).getD rt.usb := by
  by_cases hrun : (!rt.storeOk || data.isEmpty) = true
  . unfold stageBundle decoded
    rw [if_pos hrun, if_pos hrun]
    exact ⟨rfl, rfl⟩
  . rcases stageBundle_of_decoded put hrun with ⟨_, hcomplete⟩ | ⟨hret, _⟩
    . contradiction
    . unfold decoded
      rw [hret, if_neg hrun]
      exact ⟨rfl, usb_readBundle rt data put⟩

theorem setStateBundle_fst (answers : PushAnswers)
    : (rt.setStateBundle data put answers).1 = (rt.stageBundle data put).1 := by
  unfold setStateBundle
  split
  next heq => rw [heq]
  next heq =>
    rw [heq]
    split
    . simp only
      split <;> rfl
    . rfl

theorem setStateBundle_rejected (answers : PushAnswers) (h : (rt.stageBundle data put).1 = false)
    : (rt.setStateBundle data put answers).2 = (rt.stageBundle data put).2 := by
  unfold setStateBundle
  split
  next heq => rw [heq]
  next heq =>
    rw [heq] at h
    contradiction

theorem rejected_iff (put : Bytes → WriteIo) (answers : PushAnswers)
    : ((rt.setStateBundle data put answers).1 = false →
        (rt.setStateBundle data put answers).2.project = rt.project
          ∧ (rt.setStateBundle data put answers).2.usb = rt.usb)
      ↔ (rt.Complete data ∨ rt.UsbWanted data) := by
  by_cases hcomplete : rt.Complete data
  . have hret := (stageBundle_accepts put).mpr hcomplete
    rw [setStateBundle_fst, hret]
    simp [hcomplete]
  . have hret : (rt.stageBundle data put).1 = false := by
      rw [← Bool.not_eq_true, stageBundle_accepts]
      exact hcomplete
    have hleft := stageBundle_rejected put hcomplete
    rw [setStateBundle_fst, setStateBundle_rejected answers hret, hret, hleft.1, hleft.2]
    unfold UsbWanted
    cases lastOf (·.usb?) (rt.decoded data) <;> simp [hcomplete]

-- Counts below half of 64 bits and majors that an `int` holds.
def Sized (rt : ShellRt) (data : Bytes) (put : Bytes → WriteIo) : Prop :=
  (∀ n, .mapCount n ∈ rt.decoded data ++ rt.reread data put → n < 9223372036854775808)
    ∧ ∀ s, .engineVer s ∈ rt.decoded data ++ rt.reread data put → leadingInt s ≤ 2147483647

theorem overflows_iff
    : (∀ e ∈ rt.decoded data ++ rt.reread data put, e.overflows = false) ↔ rt.Sized data put := by
  constructor
  . intro h
    exact ⟨fun n hn => (mapCount_overflows n).mp (h _ hn),
      fun s hs => (engineVer_overflows s).mp (h _ hs)⟩
  . rintro ⟨hcounts, hmajors⟩ e he
    cases e with
    | mapCount n => exact (mapCount_overflows n).mpr (hcounts n he)
    | engineVer s => exact (engineVer_overflows s).mpr (hmajors s he)
    | _ => rfl

end ShellRt

theorem rejectLaw_iff (rt : ShellRt) (data : Bytes) (put : Bytes → WriteIo) (answers : PushAnswers)
    : rt.RejectLaw data put answers
        ↔ (rt.Complete data ∨ rt.UsbWanted data) ∧ rt.Sized data put := by
  unfold ShellRt.RejectLaw
  rw [ShellRt.rejected_iff, ShellRt.overflows_iff]

-- A map of one entry, the USB identity of serial `abc`, and no magic.
def usbOnly : Bytes :=
  cborMap 1 ++ cborUint 5 ++ cborMap 1 ++ cborUint 2 ++ cborText (ascii "abc")

theorem not_rejectLaw_usbOnly
    : ¬(ShellRt.fresh openStore).RejectLaw usbOnly (fun _ => .ok) .unanswered := by
  rintro ⟨hrejected, _⟩
  have hret : ((ShellRt.fresh openStore).setStateBundle usbOnly (fun _ => .ok) .unanswered).1
      = false := by
    decide +kernel
  have husb := (hrejected hret).2
  have hserial : ((ShellRt.fresh openStore).setStateBundle usbOnly (fun _ => .ok)
      .unanswered).2.usb.serial = ascii "abc" := by
    decide +kernel
  rw [husb] at hserial
  revert hserial
  decide

end Harp
