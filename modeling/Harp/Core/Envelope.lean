import Harp.Core.CborItem
import Harp.Core.StoreLemmas

/-!
This module contains the envelope of a control message, `core/src/envelope.c`: a map of a message
type, a request id, a method and a body that is left encoded.
-/

namespace Harp

inductive MsgType where
  | request
  | response
  | error
  | notification
deriving DecidableEq, Repr

def MsgType.num : MsgType → Nat
  | .request => 0
  | .response => 1
  | .error => 2
  | .notification => 3

def MsgType.ofNum : Nat → Option MsgType
  | 0 => some .request
  | 1 => some .response
  | 2 => some .error
  | 3 => some .notification
  | _ => none

theorem MsgType.ofNum_num (t : MsgType) : MsgType.ofNum t.num = some t := by
  cases t <;> rfl

theorem MsgType.num_lt (t : MsgType) : t.num < 4 := by
  cases t <;> decide

def harpMethodMax : Nat := 64

structure Env where
  msgtype : MsgType
  rid : Nat
  method : Bytes
  body : Option Bytes
deriving DecidableEq, Repr

section Parse

-- What has been read; a later field of the same key takes the place of an earlier one.
structure EnvFields where
  msgtype : Option MsgType
  rid : Option Nat
  method : Option Bytes
  body : Option Bytes

def EnvFields.start : EnvFields :=
  ⟨none, none, none, none⟩

def envField (e : EnvFields) : Dec EnvFields := do
  let key ← cdecUint
  if key = 0 then
    let t ← cdecUint
    match MsgType.ofNum t with
    | none => Dec.fail
    | some t => return { e with msgtype := some t }
  else if key = 1 then
    let rid ← cdecUint
    return { e with rid := some rid }
  else if key = 2 then
    let s ← cdecText
    -- the method is compared as a C string from here on
    if s.length ≥ harpMethodMax then Dec.fail else return { e with method := some (cstr s) }
  else if key = 3 then
    let body ← cdecSpan
    return { e with body := some body }
  else
    cdecSkip
    return e

def EnvFields.done (e : EnvFields) : Option Env :=
  match e.msgtype, e.rid, e.method with
  | some msgtype, some rid, some method => some ⟨msgtype, rid, method, e.body⟩
  | _, _, _ => none

def envParse (buf : Bytes) : Option Env :=
  match cdecMap (Cdec.init buf) with
  | (none, _) => none
  | (some n, d) => (Dec.loop n envField .start d).1.bind EnvFields.done

end Parse

-- The caller appends the body.
def envHead (t : MsgType) (rid : Nat) (method : Bytes) (hasBody : Bool) : Bytes :=
  cborMap (if hasBody then 4 else 3) ++ cborUint 0 ++ cborUint t.num ++ cborUint 1 ++ cborUint rid
    ++ cborUint 2 ++ cborText method ++ (if hasBody then cborUint 3 else [])

section Wire

variable {e : EnvFields}

theorem envField_type (t : MsgType) (rest : Bytes)
    : envField e ⟨cborUint 0 ++ (cborUint t.num ++ rest), false⟩
        = (some { e with msgtype := some t }, ⟨rest, false⟩) := by
  have hlt := t.num_lt
  unfold envField
  rw [Dec.bind_eq, Dec.bind_of_some (cdecUint_cborUint _ (by omega)), if_pos rfl, Dec.bind_eq,
    Dec.bind_of_some (cdecUint_cborUint _ (by omega)), MsgType.ofNum_num]
  rfl

theorem envField_rid {rid : Nat} (h : rid < 2 ^ 64) (rest : Bytes)
    : envField e ⟨cborUint 1 ++ (cborUint rid ++ rest), false⟩
        = (some { e with rid := some rid }, ⟨rest, false⟩) := by
  unfold envField
  rw [Dec.bind_eq, Dec.bind_of_some (cdecUint_cborUint _ (by omega)), if_neg (by omega),
    if_pos rfl, Dec.bind_eq, Dec.bind_of_some (cdecUint_cborUint _ h)]
  rfl

theorem envField_method {method : Bytes} (hlen : method.length < harpMethodMax)
    (hnul : 0 ∉ method) (rest : Bytes)
    : envField e ⟨cborUint 2 ++ (cborText method ++ rest), false⟩
        = (some { e with method := some method }, ⟨rest, false⟩) := by
  have hcstr : cstr method = method := by
    unfold cstr
    rw [List.takeWhile_eq_self_iff]
    intro c hc
    simp only [decide_eq_true_eq]
    rintro rfl
    exact hnul hc
  have hshort : method.length < 2 ^ 64 := by
    unfold harpMethodMax at hlen
    omega
  unfold envField
  rw [Dec.bind_eq, Dec.bind_of_some (cdecUint_cborUint _ (by omega)), if_neg (by omega),
    if_neg (by omega), if_pos rfl, Dec.bind_eq,
    Dec.bind_of_some (cdecText_cborText _ _ hshort), if_neg (by omega), hcstr]
  rfl

theorem envField_body {ok : Head → Prop} {body : Bytes} (h : Item ok 33 body) (rest : Bytes)
    : envField e ⟨cborUint 3 ++ (body ++ rest), false⟩
        = (some { e with body := some body }, ⟨rest, false⟩) := by
  have hspan : cdecSpan ⟨body ++ rest, false⟩ = (some body, ⟨rest, false⟩) :=
    cdecSpan_of_skip rfl (cdecSkip_of_item h rest)
  unfold envField
  rw [Dec.bind_eq, Dec.bind_of_some (cdecUint_cborUint _ (by omega)), if_neg (by omega),
    if_neg (by omega), if_neg (by omega), if_pos rfl, Dec.bind_eq, Dec.bind_of_some hspan]
  rfl

variable {rid : Nat} {method : Bytes}

theorem loop_envHead (t : MsgType) (hrid : rid < 2 ^ 64) (hlen : method.length < harpMethodMax)
    (hnul : 0 ∉ method) (n : Nat) (rest : Bytes)
    : Dec.loop (n + 3) envField .start ⟨cborUint 0 ++ (cborUint t.num ++ (cborUint 1
          ++ (cborUint rid ++ (cborUint 2 ++ (cborText method ++ rest))))), false⟩
        = Dec.loop n envField ⟨some t, some rid, some method, none⟩ ⟨rest, false⟩ := by
  rw [Dec.loop_succ_of_some (envField_type t _), Dec.loop_succ_of_some (envField_rid hrid _),
    Dec.loop_succ_of_some (envField_method hlen hnul _)]
  rfl

theorem envParse_of_map {n : Nat} {rest : Bytes} (hn : n < 2 ^ 63) (hlen : n * 2 ≤ rest.length)
    : envParse (cborMap n ++ rest)
        = (Dec.loop n envField .start ⟨rest, false⟩).1.bind EnvFields.done := by
  unfold envParse Cdec.init
  rw [cdecMap_cborMap rest hn hlen]

-- What is written is read again, with its body or without one.
theorem envParse_envHead (t : MsgType) (hrid : rid < 2 ^ 64)
    (hlen : method.length < harpMethodMax) (hnul : 0 ∉ method) {body : Option Bytes}
    (hbody : ∀ b ∈ body, CborItem 33 b ∧ b.length < 2 ^ 64)
    : envParse (envHead t rid method body.isSome ++ body.getD [])
        = some ⟨t, rid, method, body⟩ := by
  have hzero := length_putHead_pos 0 0
  have hone := length_putHead_pos 0 1
  have htwo := length_putHead_pos 0 2
  have hthree := length_putHead_pos 0 3
  have htype := length_putHead_pos 0 t.num
  have hreq := length_putHead_pos 0 rid
  have htext := length_putHead_pos 3 method.length
  unfold envHead
  cases body with
  | none =>
    simp only [Option.isSome_none, Option.getD_none, List.append_nil, List.append_assoc,
      Bool.false_eq_true, if_false]
    have hloop := loop_envHead t hrid hlen hnul 0 []
    rw [List.append_nil] at hloop
    rw [envParse_of_map (by omega), hloop]
    . rfl
    . simp only [List.length_append, cborText, cborUint]
      omega
  | some b =>
    rcases hbody b rfl with ⟨hitem, hshort⟩
    have hpos := hitem.length_pos
    simp only [Option.isSome_some, Option.getD_some, List.append_assoc, if_true]
    have hfield := envField_body (e := ⟨some t, some rid, some method, none⟩)
      (hitem.item hshort) []
    rw [List.append_nil] at hfield
    rw [envParse_of_map (by omega), loop_envHead t hrid hlen hnul 1, Dec.loop_succ_of_some hfield]
    . rfl
    . simp only [List.length_append, cborText, cborUint]
      omega

end Wire

end Harp
