import Harp.Core.Store
import Harp.Core.ObjectLemmas

/-!
This module contains the facts about the ref store: the ref codec, what the walk over the ref
directory visits, and which files a write or a delete changes.
-/

namespace Harp

open FileTree

section Codec

theorem length_putHead_pos (major v : Nat) : 0 < (putHead major v).length := by
  unfold putHead
  split
  . simp
  . split
    . simp
    . split
      . simp
      . split <;> simp

theorem length_putHead_le (major v : Nat) : (putHead major v).length ≤ 9 := by
  unfold putHead
  split
  . simp
  . split
    . simp [length_beBytes]
    . split
      . simp [length_beBytes]
      . split <;> simp [length_beBytes]

theorem hashRead_cborBytes (h : Hash) (rest : Bytes)
    : hashRead ⟨cborBytes h.b ++ rest, false⟩
        = (if h.b.head? = some 0x01 then some h else none, ⟨rest, false⟩) := by
  have hlen : h.b.length < 2 ^ 64 := by
    rw [h.len]
    omega
  unfold hashRead
  rw [Dec.bind_eq, Dec.bind_of_some (cdecBytes_cborBytes h.b rest hlen)]
  simp only [h.len, dite_true, ne_eq, ite_not]
  split <;> rfl

theorem cdecPeekNull_cborBytes (h : Hash) (rest : Bytes)
    : cdecPeekNull ⟨cborBytes h.b ++ rest, false⟩ = false := by
  unfold cdecPeekNull cborBytes
  rw [h.len]
  rfl

theorem cstr_of_not_mem {s : Bytes} (h : 0 ∉ s) : cstr s = s := by
  unfold cstr
  rw [List.takeWhile_eq_self_iff]
  intro c hc
  rw [decide_eq_true_eq]
  intro heq
  subst heq
  contradiction

theorem refNameOk_length {name : Bytes} (h : refNameOk name = true) : name.length < refNameMax := by
  unfold refNameOk at h
  split at h
  . contradiction
  next hlen => omega

theorem refNameOk_char {name : Bytes} (h : refNameOk name = true) {c : UInt8} (hc : c ∈ name)
    : refNameChar c = true := by
  unfold refNameOk at h
  split at h
  . contradiction
  . split at h
    . contradiction
    . split at h
      . contradiction
      . rw [List.all_eq_true] at h
        exact h c hc

theorem refNameOk_no_nul {name : Bytes} (h : refNameOk name = true) : 0 ∉ name := by
  intro hmem
  have := refNameOk_char h hmem
  contradiction

section Fields

variable (it : RefIter) (rest : Bytes)

theorem refDecodeField_name {name : Bytes} (h : refNameOk name = true)
    : refDecodeField 0 it ⟨cborText name ++ rest, false⟩
        = (some ⟨{ it.r with name }, true⟩, ⟨rest, false⟩) := by
  have hlen := refNameOk_length h
  have hlen64 : name.length < 2 ^ 64 := by
    unfold refNameMax at hlen
    omega
  simp only [refDecodeField]
  rw [Dec.bind_eq, Dec.bind_of_some (cdecText_cborText name rest hlen64)]
  rw [if_neg (by omega), cstr_of_not_mem (refNameOk_no_nul h)]
  rfl

theorem refDecodeField_null
    : refDecodeField 1 it ⟨cborNull ++ rest, false⟩
        = (some { it with r := { it.r with hash := none } }, ⟨rest, false⟩) := by
  have hpeek : cdecPeekNull ⟨cborNull ++ rest, false⟩ = true := rfl
  simp only [refDecodeField]
  simp only [hpeek, if_true]
  rw [Dec.bind_eq, Dec.bind_of_some (cdecNull_cborNull rest)]
  rfl

theorem refDecodeField_hash {h : Hash} (halg : h.b.head? = some 0x01)
    : refDecodeField 1 it ⟨cborBytes h.b ++ rest, false⟩
        = (some { it with r := { it.r with hash := some h } }, ⟨rest, false⟩) := by
  have hread : hashRead ⟨cborBytes h.b ++ rest, false⟩ = (some h, ⟨rest, false⟩) := by
    rw [hashRead_cborBytes, if_pos halg]
  simp only [refDecodeField]
  simp only [cdecPeekNull_cborBytes, Bool.false_eq_true, if_false]
  rw [Dec.bind_eq, Dec.bind_of_some hread]
  rfl

theorem refDecodeField_hash_none {h : Hash} (halg : h.b.head? ≠ some 0x01)
    : refDecodeField 1 it ⟨cborBytes h.b ++ rest, false⟩ = (none, ⟨rest, false⟩) := by
  have hread : hashRead ⟨cborBytes h.b ++ rest, false⟩ = (none, ⟨rest, false⟩) := by
    rw [hashRead_cborBytes, if_neg halg]
  simp only [refDecodeField]
  simp only [cdecPeekNull_cborBytes, Bool.false_eq_true, if_false]
  rw [Dec.bind_eq, Dec.bind_of_none hread]

theorem refDecodeField_generation (generation : UInt64)
    : refDecodeField 2 it ⟨cborUint generation.toNat ++ rest, false⟩
        = (some { it with r := { it.r with generation } }, ⟨rest, false⟩) := by
  have huint := cdecUint_cborUint rest generation.toNat_lt
  simp only [refDecodeField]
  rw [Dec.bind_eq, Dec.bind_of_some huint, UInt64.ofNat_toNat]
  rfl

theorem refDecodeField_dirty (dirty : Bool)
    : refDecodeField 3 it ⟨cborBool dirty ++ rest, false⟩
        = (some { it with r := { it.r with dirty } }, ⟨rest, false⟩) := by
  simp only [refDecodeField]
  rw [Dec.bind_eq, Dec.bind_of_some (cdecBool_cborBool dirty rest)]
  rfl

end Fields

def refDecodeBody (it : RefIter) : Dec RefIter := do
  let key ← cdecUint
  refDecodeField key it

theorem refDecodeBody_eq {key : Nat} (hkey : key < 2 ^ 64) (it : RefIter) (rest : Bytes)
    : refDecodeBody it ⟨cborUint key ++ rest, false⟩ = refDecodeField key it ⟨rest, false⟩ := by
  unfold refDecodeBody
  rw [Dec.bind_eq, Dec.bind_of_some (cdecUint_cborUint rest hkey)]

theorem refDecode_eq {n : Nat} (hn : n < 2 ^ 63) (rest : Bytes) (hlen : n * 2 ≤ rest.length)
    : refDecode ⟨cborMap n ++ rest, false⟩
        = Dec.bind (Dec.loop n refDecodeBody ⟨Ref.unborn [], false⟩)
            (fun it => if it.haveName then Dec.pure it.r else Dec.fail) ⟨rest, false⟩ := by
  unfold refDecode
  rw [Dec.bind_eq, Dec.bind_of_some (cdecMap_cborMap rest hn hlen), Dec.bind_eq]
  rfl

def refHashBytes : Option Hash → Bytes
  | none => cborNull
  | some h => cborBytes h.b

def refFields (r : Ref) (rest : Bytes) : Bytes :=
  cborUint 0 ++ (cborText r.name ++ (cborUint 1 ++ (refHashBytes r.hash
    ++ (cborUint 2 ++ (cborUint r.generation.toNat ++ (cborUint 3 ++ (cborBool r.dirty ++ rest)))))))

theorem refEncode_append (r : Ref) (rest : Bytes)
    : refEncode r ++ rest = cborMap 4 ++ refFields r rest := by
  unfold refEncode refFields refHashBytes
  cases r.hash <;> simp only [List.append_assoc]

theorem length_refFields (r : Ref) (rest : Bytes) : 8 ≤ (refFields r rest).length := by
  have hname : 0 < (cborText r.name).length := by
    have := length_putHead_pos 3 r.name.length
    simp only [cborText, List.length_append]
    omega
  have hhash : 0 < (refHashBytes r.hash).length := by
    cases r.hash with
    | none => simp [refHashBytes, cborNull]
    | some h => simp [refHashBytes, cborBytes, h.len]
  have h0 := length_putHead_pos 0 0
  have h1 := length_putHead_pos 0 1
  have h2 := length_putHead_pos 0 2
  have h3 := length_putHead_pos 0 3
  have hgen := length_putHead_pos 0 r.generation.toNat
  simp only [refFields, cborUint, cborBool, List.length_append, List.length_singleton]
  omega

-- A ref whose hash carries another algorithm byte is written but cannot be read back.
def Ref.algOk (r : Ref) : Bool :=
  match r.hash with
  | none => true
  | some h => h.b.head? = some 0x01

theorem refDecode_loop {it : RefIter} (r : Ref) (rest : Bytes)
    : Dec.loop 2 refDecodeBody it ⟨cborUint 2 ++ (cborUint r.generation.toNat
        ++ (cborUint 3 ++ (cborBool r.dirty ++ rest))), false⟩
        = (some { it with r := { it.r with generation := r.generation, dirty := r.dirty } },
          ⟨rest, false⟩) := by
  rw [Dec.loop_succ_of_some ((refDecodeBody_eq (by omega) _ _).trans
    (refDecodeField_generation it _ r.generation))]
  rw [Dec.loop_succ_of_some ((refDecodeBody_eq (by omega) _ _).trans
    (refDecodeField_dirty _ _ r.dirty))]
  rfl

theorem refDecode_of_algOk {r : Ref} (hname : refNameOk r.name = true) (halg : r.algOk = true)
    (rest : Bytes) : refDecode ⟨refEncode r ++ rest, false⟩ = (some r, ⟨rest, false⟩) := by
  rw [refEncode_append, refDecode_eq (by omega) _ (length_refFields r rest)]
  unfold refFields
  have hloop0 := Dec.loop_succ_of_some (n := 3) ((refDecodeBody_eq (by omega) _ _).trans
    (refDecodeField_name ⟨Ref.unborn [], false⟩ (cborUint 1 ++ (refHashBytes r.hash
      ++ (cborUint 2 ++ (cborUint r.generation.toNat
        ++ (cborUint 3 ++ (cborBool r.dirty ++ rest)))))) hname))
  cases hhash : r.hash with
  | none =>
    rw [hhash] at hloop0
    have hloop1 := Dec.loop_succ_of_some (n := 2) ((refDecodeBody_eq (by omega) _ _).trans
      (refDecodeField_null ⟨⟨r.name, none, 0, false⟩, true⟩ (cborUint 2
        ++ (cborUint r.generation.toNat ++ (cborUint 3 ++ (cborBool r.dirty ++ rest))))))
    rw [Dec.bind_of_some (hloop0.trans (hloop1.trans (refDecode_loop r rest)))]
    rcases r with ⟨name, hash, generation, dirty⟩
    cases hhash
    rfl
  | some h =>
    rw [hhash] at hloop0
    have hhead : h.b.head? = some 0x01 := by simpa [Ref.algOk, hhash] using halg
    have hloop1 := Dec.loop_succ_of_some (n := 2) ((refDecodeBody_eq (by omega) _ _).trans
      (refDecodeField_hash ⟨⟨r.name, none, 0, false⟩, true⟩ (cborUint 2
        ++ (cborUint r.generation.toNat ++ (cborUint 3 ++ (cborBool r.dirty ++ rest)))) hhead))
    rw [Dec.bind_of_some (hloop0.trans (hloop1.trans (refDecode_loop r rest)))]
    rcases r with ⟨name, hash, generation, dirty⟩
    cases hhash
    rfl

theorem refDecode_refEncode {r : Ref} (hname : refNameOk r.name = true) (rest : Bytes)
    : (refDecode ⟨refEncode r ++ rest, false⟩).1 = if r.algOk then some r else none := by
  cases hok : r.algOk with
  | true =>
    rw [refDecode_of_algOk hname hok]
    rfl
  | false =>
    cases hhash : r.hash with
    | none => simp [Ref.algOk, hhash] at hok
    | some h =>
      have halg : h.b.head? ≠ some 0x01 := by simpa [Ref.algOk, hhash] using hok
      rw [refEncode_append, refDecode_eq (by omega) _ (length_refFields r rest)]
      unfold refFields
      have hloop0 := Dec.loop_succ_of_some (n := 3) ((refDecodeBody_eq (by omega) _ _).trans
        (refDecodeField_name ⟨Ref.unborn [], false⟩ (cborUint 1 ++ (refHashBytes r.hash
          ++ (cborUint 2 ++ (cborUint r.generation.toNat
            ++ (cborUint 3 ++ (cborBool r.dirty ++ rest)))))) hname))
      rw [hhash] at hloop0 ⊢
      have hloop1 : Dec.loop 3 refDecodeBody ⟨⟨r.name, none, 0, false⟩, true⟩
          ⟨cborUint 1 ++ (cborBytes h.b ++ (cborUint 2 ++ (cborUint r.generation.toNat
            ++ (cborUint 3 ++ (cborBool r.dirty ++ rest))))), false⟩
          = (none, ⟨cborUint 2 ++ (cborUint r.generation.toNat
              ++ (cborUint 3 ++ (cborBool r.dirty ++ rest))), false⟩) := by
        rw [Dec.loop_succ]
        exact Dec.bind_of_none ((refDecodeBody_eq (by omega) _ _).trans
          (refDecodeField_hash_none _ _ halg))
      rw [Dec.bind_of_none (hloop0.trans hloop1)]
      rfl

theorem refDecodeField_extends (key : Nat) (it : RefIter) : Dec.Extends (refDecodeField key it) := by
  unfold refDecodeField
  split
  . exact .bind (readString_extends 3) fun s => .ite .fail (.pure _)
  . intro p q err a d' h
    have hpeek : p ≠ [] → cdecPeekNull ⟨p ++ q, err⟩ = cdecPeekNull ⟨p, err⟩ := by
      intro hne
      unfold cdecPeekNull
      dsimp only
      rw [List.head?_append_of_ne_nil p hne]
    have hhash : Dec.Extends (do
        let h ← hashRead
        return { it with r := { it.r with hash := some h } } : Dec RefIter) :=
      .bind hashRead_extends fun _ => .pure _
    have hnull : Dec.Extends (do
        cdecNull
        return { it with r := { it.r with hash := none } } : Dec RefIter) :=
      .bind cdecNull_extends fun _ => .pure _
    dsimp only at h ⊢
    by_cases hne : p = []
    . subst hne
      -- a hash takes a byte
      have hnone : (hashRead ⟨[], err⟩).1 = none := by cases err <;> rfl
      rw [if_neg (by simp [cdecPeekNull])] at h
      rcases Dec.bind_inv h with ⟨x, d₁, hread, _⟩
      rw [hread] at hnone
      cases hnone
    . rw [hpeek hne]
      split at h
      next hpeek =>
        rw [if_pos hpeek]
        exact hnull p q err a d' h
      next hpeek =>
        rw [if_neg hpeek]
        exact hhash p q err a d' h
  . exact .bind cdecUint_extends fun _ => .pure _
  . exact .bind cdecBool_extends fun _ => .pure _
  . exact .bind (skipItem_extends 33) fun _ => .pure _

theorem refDecode_extends : Dec.Extends refDecode := by
  refine Dec.Extends.bind (readCount_extends 5) fun n => ?_
  refine Dec.Extends.bind (Dec.Extends.loop (fun it => ?_) n _) fun it => .ite (.pure _) .fail
  exact .bind cdecUint_extends fun key => refDecodeField_extends key it

-- A ref that was cut off is not read at all.
theorem refDecode_cut {r : Ref} (hname : refNameOk r.name = true) {data : Bytes}
    (hcut : data <+: refEncode r) (hne : data ≠ refEncode r)
    : (refDecode ⟨data, false⟩).1 = none := by
  obtain ⟨rest, hrest⟩ := hcut
  cases hread : refDecode ⟨data, false⟩ with
  | mk o d' =>
    cases o with
    | none => rfl
    | some x =>
      have hwhole := refDecode_extends data rest false x d' hread
      have hdecode := refDecode_refEncode hname []
      rw [List.append_nil, ← hrest, hwhole] at hdecode
      have halg : r.algOk = true := by
        by_contra hnot
        rw [if_neg hnot] at hdecode
        cases hdecode
      have hpair := refDecode_of_algOk hname halg []
      rw [List.append_nil, ← hrest, hwhole, Prod.mk.injEq, Cdec.mk.injEq] at hpair
      have hnil : rest = [] := (List.append_eq_nil_iff.mp hpair.2.1).2
      rw [hnil, List.append_nil] at hrest
      exact absurd hrest hne

theorem hashRead_alg {d d' : Cdec} {h : Hash} (hread : hashRead d = (some h, d'))
    : h.b.head? = some 0x01 := by
  unfold hashRead at hread
  rw [Dec.bind_eq] at hread
  rcases Dec.bind_inv hread with ⟨p, d₁, _, hrest⟩
  split at hrest
  . split at hrest
    . cases hrest
    next halg =>
      cases hrest
      exact Classical.not_not.mp halg
  . cases hrest

theorem refDecodeField_algOk {key : Nat} {it it' : RefIter} {d d' : Cdec} (h : it.r.algOk = true)
    (heq : refDecodeField key it d = (some it', d')) : it'.r.algOk = true := by
  unfold refDecodeField at heq
  split at heq
  . rcases Dec.bind_inv heq with ⟨name, d₁, _, hrest⟩
    split at hrest
    . cases hrest
    . cases hrest
      exact h
  . dsimp only at heq
    split at heq
    . rcases Dec.bind_inv heq with ⟨_, d₁, _, hrest⟩
      cases hrest
      rfl
    . rcases Dec.bind_inv heq with ⟨x, d₁, hread, hrest⟩
      cases hrest
      simp [Ref.algOk, hashRead_alg hread]
  . rcases Dec.bind_inv heq with ⟨_, d₁, _, hrest⟩
    cases hrest
    exact h
  . rcases Dec.bind_inv heq with ⟨_, d₁, _, hrest⟩
    cases hrest
    exact h
  . rcases Dec.bind_inv heq with ⟨_, d₁, _, hrest⟩
    cases hrest
    exact h

theorem refDecode_algOk {d d' : Cdec} {r : Ref} (h : refDecode d = (some r, d'))
    : r.algOk = true := by
  unfold refDecode at h
  rw [Dec.bind_eq] at h
  rcases Dec.bind_inv h with ⟨n, d₁, _, h⟩
  rw [Dec.bind_eq] at h
  rcases Dec.bind_inv h with ⟨it, d₂, hloop, h⟩
  have hit : it.r.algOk = true := by
    apply Dec.loop_inv (I := fun it : RefIter => it.r.algOk = true) _ n rfl hloop
    intro it d it' d' hit heq
    rcases Dec.bind_inv heq with ⟨key, d₁, _, hfield⟩
    exact refDecodeField_algOk hit hfield
  split at h
  . cases h
    exact hit
  . cases h

end Codec

section Write

theorem WriteIo.onDisk_prefix (io : WriteIo) (data : Bytes) : io.onDisk data <+: data := by
  cases io with
  | flushFails kept => exact List.take_prefix kept data
  | _ => exact List.prefix_refl data

theorem WriteIo.onDisk_eq {io : WriteIo} {data : Bytes} (h : io.keeps data = true)
    : io.onDisk data = data :=
  of_decide_eq_true h

@[simp]
theorem WriteIo.ok_keeps (data : Bytes) : WriteIo.ok.keeps data = true :=
  decide_eq_true rfl

theorem WriteIo.keeps_of_lossless {io : WriteIo} (h : io.lossless = true) (data : Bytes)
    : io.keeps data = true := by
  cases io with
  | flushFails => cases h
  | _ => exact decide_eq_true rfl

-- What reads back from the disk.
theorem refDecode_onDisk {r : Ref} (hname : refNameOk r.name = true) (io : WriteIo)
    : (refDecode ⟨io.onDisk (refEncode r), false⟩).1
        = if r.algOk ∧ io.keeps (refEncode r) then some r else none := by
  by_cases hkeeps : io.keeps (refEncode r) = true
  . have hround := refDecode_refEncode hname []
    rw [List.append_nil] at hround
    rw [WriteIo.onDisk_eq hkeeps, hround]
    simp [hkeeps]
  . rw [if_neg fun h => hkeeps h.2]
    apply refDecode_cut hname (io.onDisk_prefix _)
    intro heq
    exact hkeeps (decide_eq_true heq)

def fileAt (t : RefTree) (p : List Comp) : Option (Bool × Bytes) :=
  match t.look p with
  | some (.file readable data) => some (readable, data)
  | _ => none

theorem fileAt_congr {t t' : RefTree} {p : List Comp} (h : t'.look p = t.look p)
    : fileAt t' p = fileAt t p := by
  unfold fileAt
  rw [h]

theorem fileAt_eq_some {t : RefTree} {p : List Comp} {readable : Bool} {data : Bytes}
    : fileAt t p = some (readable, data) ↔ t.look p = some (.file readable data) := by
  unfold fileAt
  cases t.look p with
  | none => simp
  | some k => cases k <;> simp

-- `mkdirs` leaves what is there and adds directories only.
structure MkdirsSpec (t t' : RefTree) (path : List Comp) : Prop where
  dir : ∃ listable, t'.look path = some (.dir listable)
  old : ∀ q, t.look q ≠ none → t'.look q = t.look q
  new : ∀ q, t.look q = none → t'.look q = none ∨ t'.look q = some (.dir true) ∧ q <+: path

theorem mkdirs_spec {t t' : RefTree} {done path : List Comp}
    (hdone : ∃ listable, t.look done = some (.dir listable)) (h : mkdirs t done path = some t')
    : MkdirsSpec t t' (done ++ path) := by
  induction path generalizing t done with
  | nil =>
    cases h
    rw [List.append_nil]
    exact ⟨hdone, fun _ _ => rfl, fun _ hq => .inl hq⟩
  | cons c path ih =>
    have hsplit : done ++ c :: path = (done ++ [c]) ++ path := by simp
    unfold mkdirs at h
    rw [hsplit]
    split at h
    next hnone =>
      rcases hdone with ⟨listable, hdone⟩
      have hempty : Node.Leaf (some (Node.dir true [] : Node Comp Bytes)) := Node.leaf_empty_dir true
      have hlook := Node.look_put hdone (Node.leaf_of_look_eq_none hnone) hempty
      have hspec := ih ⟨true, by rw [hlook, if_pos rfl]; rfl⟩ h
      refine ⟨hspec.dir, ?_, ?_⟩
      . intro q hq
        have hne : q ≠ done ++ [c] := by
          intro heq
          subst heq
          contradiction
        have hput := hlook q
        rw [if_neg hne] at hput
        rw [hspec.old q (by rw [hput]; exact hq), hput]
      . intro q hq
        by_cases heq : q = done ++ [c]
        . subst heq
          have hput := hlook (done ++ [c])
          rw [if_pos rfl] at hput
          refine .inr ⟨?_, List.prefix_append _ _⟩
          rw [hspec.old _ (by simp [hput]), hput]
          rfl
        . apply hspec.new
          rw [hlook, if_neg heq]
          exact hq
    next listable hdir => exact ih ⟨listable, hdir⟩ h
    next => contradiction

theorem fileAt_mkdirs {t t' : RefTree} {path : List Comp} (h : MkdirsSpec t t' path) (q : List Comp)
    : fileAt t' q = fileAt t q := by
  unfold fileAt
  cases hlook : t.look q with
  | none =>
    rcases h.new q hlook with hnew | ⟨hnew, _⟩ <;> simp [hnew]
  | some k =>
    rw [h.old q (by simp [hlook]), hlook]

def tmpPath (pid : List (Fin 10)) (p : List Comp) : List Comp :=
  match p.getLast? with
  | none => []
  | some c => p.dropLast ++ [c.tmp pid]

theorem isDirAt_iff (t : RefTree) (p : List Comp)
    : isDirAt t p = true ↔ ∃ listable, t.look p = some (.dir listable) := by
  unfold isDirAt
  cases t.look p with
  | none => simp
  | some k => cases k <;> simp

theorem leaf_of_isDirAt_false {t : RefTree} {p : List Comp} (h : ¬ isDirAt t p = true)
    : Node.Leaf (t.find p) := by
  apply Node.leaf_of_not_dir
  intro l hl
  exact h ((isDirAt_iff t p).mpr ⟨l, hl⟩)

theorem tmp_ne (pid : List (Fin 10)) (c : Comp) : c.tmp pid ≠ c := by
  intro h
  have := congrArg (fun c => c.b.length) h
  simp [Comp.tmp, tmpSuffix, ascii] at this

theorem writeAtomic_true {pid : List (Fin 10)} {t t' : RefTree} {dir : List Comp} {c : Comp}
    {data : Bytes} {io : WriteIo} (hdir : ∃ listable, t.look dir = some (.dir listable))
    (h : writeAtomic pid t dir c data io = (true, t')) (q : List Comp)
    : t'.look q = if q = dir ++ [c] then some (.file true (io.onDisk data))
        else if q = dir ++ [c.tmp pid] then none else t.look q := by
  rcases hdir with ⟨listable, hdir⟩
  unfold writeAtomic at h
  dsimp only at h
  split at h
  . cases h
  next hopen =>
    split at h
    . cases h
    . split at h
      . cases h
      next hrename =>
        cases h
        rw [not_or] at hopen hrename
        have herase := Node.look_erase hdir (leaf_of_isDirAt_false hopen.2)
        have hdir' : (t.erase (dir ++ [c.tmp pid])).look dir = some (.dir listable) := by
          rw [herase, if_neg (by simp)]
          exact hdir
        have hcne : dir ++ [c] ≠ dir ++ [c.tmp pid] := by
          intro heq
          rw [List.append_cancel_left_eq, List.singleton_inj] at heq
          exact tmp_ne pid c heq.symm
        have htarget : ¬ isDirAt (t.erase (dir ++ [c.tmp pid])) (dir ++ [c]) = true := by
          unfold isDirAt at hrename ⊢
          rw [herase, if_neg hcne]
          exact hrename.2
        rw [Node.look_put hdir' (leaf_of_isDirAt_false htarget) (Node.leaf_file true (io.onDisk data)), herase]
        rfl

theorem writeAtomic_false {pid : List (Fin 10)} {t t' : RefTree} {dir : List Comp} {c : Comp}
    {data : Bytes} {io : WriteIo} (hdir : ∃ listable, t.look dir = some (.dir listable))
    (h : writeAtomic pid t dir c data io = (false, t')) (q : List Comp)
    : t'.look q = t.look q ∨ q = dir ++ [c.tmp pid] ∧ t'.look q = none := by
  rcases hdir with ⟨listable, hdir⟩
  unfold writeAtomic at h
  dsimp only at h
  split at h
  . cases h
    exact .inl rfl
  next hopen =>
    rw [not_or] at hopen
    have herase := Node.look_erase hdir (leaf_of_isDirAt_false hopen.2) q
    have hcase : (t.erase (dir ++ [c.tmp pid])).look q = t.look q
        ∨ q = dir ++ [c.tmp pid] ∧ (t.erase (dir ++ [c.tmp pid])).look q = none := by
      rw [herase]
      by_cases hq : q = dir ++ [c.tmp pid]
      . simp [hq]
      . simp [hq]
    split at h
    . cases h
      exact hcase
    . split at h
      . cases h
        exact hcase
      . cases h

-- A directory is never replaced or removed.
theorem writeAtomic_dir {pid : List (Fin 10)} {t : RefTree} {dir : List Comp} (c : Comp)
    (data : Bytes) (io : WriteIo) (hdir : ∃ listable, t.look dir = some (.dir listable))
    {q : List Comp} {l : Bool} (hq : t.look q = some (.dir l))
    : (writeAtomic pid t dir c data io).2.look q = some (.dir l) := by
  rcases hdir with ⟨listable, hdir⟩
  have hne : ∀ {p}, ¬ isDirAt t p = true → q ≠ p := by
    rintro p hp rfl
    exact hp ((isDirAt_iff t q).mpr ⟨l, hq⟩)
  unfold writeAtomic
  dsimp only
  split
  . exact hq
  next hopen =>
    rw [not_or] at hopen
    have herase := Node.look_erase hdir (leaf_of_isDirAt_false hopen.2)
    have hq' : (t.erase (dir ++ [c.tmp pid])).look q = some (.dir l) := by
      rw [herase, if_neg (hne hopen.2)]
      exact hq
    split
    . exact hq'
    . split
      . exact hq'
      next hrename =>
        rw [not_or] at hrename
        have hdir' : (t.erase (dir ++ [c.tmp pid])).look dir = some (.dir listable) := by
          rw [herase, if_neg (by simp)]
          exact hdir
        have htarget : ¬ isDirAt (t.erase (dir ++ [c.tmp pid])) (dir ++ [c]) = true := by
          have hcne : dir ++ [c] ≠ dir ++ [c.tmp pid] := by
            intro heq
            rw [List.append_cancel_left_eq, List.singleton_inj] at heq
            exact tmp_ne pid c heq.symm
          unfold isDirAt at hrename ⊢
          rw [herase, if_neg hcne]
          exact hrename.2
        rw [Node.look_put hdir' (leaf_of_isDirAt_false htarget) (Node.leaf_file true (io.onDisk data)),
          if_neg (hne hrename.2)]
        exact hq'

theorem dropLast_append_getLast? {p : List Comp} {c : Comp} (h : p.getLast? = some c)
    : p.dropLast ++ [c] = p := by
  rw [List.getLast?_eq_some_iff] at h
  rcases h with ⟨q, rfl⟩
  simp

theorem tmpPath_of_getLast? {pid : List (Fin 10)} {p : List Comp} {c : Comp}
    (h : p.getLast? = some c)
    : tmpPath pid p = p.dropLast ++ [c.tmp pid] := by
  simp [tmpPath, h]

-- What a ref write does to the files of the tree, whatever the storage underneath it does.
theorem storeRefWrite_cases (s : Store) (r : Ref) (io : WriteIo)
    : ((storeRefWrite s r io).1 = true ∧ refNameOk r.name = true ∧ endsInDot r.name = false
        ∧ ∀ q, fileAt (storeRefWrite s r io).2.refs q
          = if q = comps r.name then some (true, io.onDisk (refEncode r))
            else if q = tmpPath s.pid (comps r.name) then none else fileAt s.refs q)
      ∨ ((storeRefWrite s r io).1 = false
        ∧ ∀ q, fileAt (storeRefWrite s r io).2.refs q = fileAt s.refs q
          ∨ q = tmpPath s.pid (comps r.name) ∧ fileAt (storeRefWrite s r io).2.refs q = none) := by
  unfold storeRefWrite
  split
  . exact .inr ⟨rfl, fun _ => .inl rfl⟩
  next hguard =>
    rw [not_or, not_or, not_not, not_not, isDirAt_iff] at hguard
    rcases hguard with ⟨hok, _, hroot⟩
    split
    . refine .inr ⟨rfl, ?_⟩
      intro q
      apply Or.inl
      dsimp only
      cases hmk : mkdirs s.refs [] (comps r.name) with
      | none => rfl
      | some t => exact fileAt_mkdirs (mkdirs_spec hroot hmk) q
    next hdot =>
      rw [Bool.not_eq_true] at hdot
      cases hlast : (comps r.name).getLast? with
      | none => exact .inr ⟨rfl, fun _ => .inl rfl⟩
      | some c =>
        dsimp only
        cases hmk : mkdirs s.refs [] (comps r.name).dropLast with
        | none => exact .inr ⟨rfl, fun _ => .inl rfl⟩
        | some t =>
          dsimp only
          have hspec := mkdirs_spec hroot hmk
          rw [List.nil_append] at hspec
          rw [tmpPath_of_getLast? hlast]
          rcases hw : writeAtomic s.pid t (comps r.name).dropLast c (refEncode r) io with ⟨ok, t'⟩
          dsimp only
          cases ok with
          | true =>
            refine .inl ⟨rfl, hok, hdot, ?_⟩
            intro q
            have hlook := writeAtomic_true hspec.dir hw q
            rw [dropLast_append_getLast? hlast] at hlook
            rw [← fileAt_mkdirs hspec q]
            unfold fileAt
            rw [hlook]
            by_cases hq : q = comps r.name
            . simp only [hq, if_true]
            . simp only [hq, if_false]
              by_cases hq' : q = (comps r.name).dropLast ++ [c.tmp s.pid] <;> simp [hq']
          | false =>
            refine .inr ⟨rfl, ?_⟩
            intro q
            rcases writeAtomic_false hspec.dir hw q with hlook | ⟨hq, hlook⟩
            . rw [fileAt_congr hlook, fileAt_mkdirs hspec]
              exact .inl rfl
            . exact .inr ⟨hq, by simp [fileAt, hlook]⟩

theorem storeRefWrite_dir {s : Store} {q : List Comp} {l : Bool}
    (hq : s.refs.look q = some (.dir l)) (r : Ref) (io : WriteIo)
    : (storeRefWrite s r io).2.refs.look q = some (.dir l) := by
  unfold storeRefWrite
  split
  . exact hq
  next hguard =>
    rw [not_or, not_or, not_not, not_not, isDirAt_iff] at hguard
    rcases hguard with ⟨_, _, hroot⟩
    have hmkdirs : ∀ {path t}, mkdirs s.refs [] path = some t → t.look q = some (.dir l) := by
      intro path t hmk
      rw [(mkdirs_spec hroot hmk).old q (by simp [hq])]
      exact hq
    split
    . dsimp only
      cases hmk : mkdirs s.refs [] (comps r.name) with
      | none => exact hq
      | some t => exact hmkdirs hmk
    . cases (comps r.name).getLast? with
      | none => exact hq
      | some c =>
        dsimp only
        cases hmk : mkdirs s.refs [] (comps r.name).dropLast with
        | none => exact hq
        | some t => exact writeAtomic_dir c _ io (mkdirs_spec hroot hmk).dir (hmkdirs hmk)

theorem storeRefWrite_objects (s : Store) (r : Ref) (io : WriteIo)
    : (storeRefWrite s r io).2.objects = s.objects := by
  unfold storeRefWrite
  split
  . rfl
  . split
    . rfl
    . split
      . rfl
      . dsimp only
        split <;> rfl

theorem storeRefWrite_pid (s : Store) (r : Ref) (io : WriteIo)
    : (storeRefWrite s r io).2.pid = s.pid := by
  unfold storeRefWrite
  split
  . rfl
  . split
    . rfl
    . split
      . rfl
      . dsimp only
        split <;> rfl

end Write

section Written

-- A hash by its number, and an object under its name.
def keyHash (v : Nat) : Hash :=
  ⟨beBytes v 33, length_beBytes v 33⟩

def objEntry (h : Hash) (enc : Bytes) : Bytes × ObjFile :=
  (hashHex h, ⟨true, some enc, true⟩)

end Written

end Harp
