import Harp.Device.RefsetLemmas
import Harp.Device.Retention
import Harp.Host.PushLemmas
import Harp.Host.PushState

/-!
This module contains the facts about the requests of `pushStateLocked`: how the device reads a
refset request of the client, the names of archive refs, and that the closure transfer moves no ref.
-/

namespace Harp

section Parse

-- What `hashRead` makes of a hash.
def Hash.known (h : Hash) : Option Hash :=
  if h.b.head? = some 0x01 then some h else none

theorem Hash.known_some {h h' : Hash} (heq : h.known = some h') : h' = h := by
  unfold known at heq
  split at heq
  . cases heq
    rfl
  . contradiction

theorem refsetFields_succ {key : Nat} (hkey : key < 2 ^ 64) (n : Nat) (rest : Bytes) (q : RefsetReq)
    : refsetFields (n + 1) ⟨cborUint key ++ rest, false⟩ q
        = refsetFields n (refsetField key ⟨rest, false⟩ q).1 (refsetField key ⟨rest, false⟩ q).2 := by
  rw [refsetFields]
  rw [cdecUint_cborUint rest hkey]

theorem refsetField_name {name : Bytes} (hnul : 0 ∉ name) (hlen : name.length < refNameMax)
    (rest : Bytes) (q : RefsetReq)
    : refsetField 0 ⟨cborText name ++ rest, false⟩ q = (⟨rest, false⟩, { q with refname := name }) := by
  have hlen' : name.length < 2 ^ 64 := by
    unfold refNameMax at hlen
    omega
  simp only [refsetField, cdecText_cborText name rest hlen']
  rw [if_neg (by omega), cstr_of_not_mem hnul]

def cborExpect (expect : Option Hash) : Bytes :=
  match expect with
  | some h => cborBytes h.b
  | none => cborNull

theorem refsetField_expect (expect : Option Hash) (rest : Bytes) (q : RefsetReq)
    : refsetField 1 ⟨cborExpect expect ++ rest, false⟩ q
        = (⟨rest, false⟩, match expect with
            | none => { q with expectNull := true, haveExpect := true }
            | some h =>
              match h.known with
              | some h => { q with expect := some h, haveExpect := true }
              | none => q) := by
  cases expect with
  | none => rfl
  | some h =>
    simp only [refsetField, cborExpect, cdecPeekNull_cborBytes, hashRead_cborBytes, Hash.known,
      Bool.false_eq_true, if_false]
    by_cases halg : h.b.head? = some 0x01
    . simp only [if_pos halg]
    . simp only [if_neg halg]

theorem refsetField_newh (target : Hash) (rest : Bytes) (q : RefsetReq) (hq : q.newh = none)
    : refsetField 2 ⟨cborBytes target.b ++ rest, false⟩ q
        = (⟨rest, false⟩, { q with newh := target.known }) := by
  simp only [refsetField, hashRead_cborBytes, Hash.known]
  by_cases halg : target.b.head? = some 0x01
  . simp only [if_pos halg]
  . cases q
    cases hq
    simp only [if_neg halg]

theorem refsetField_flags (flags : Nat) (h : flags < 2 ^ 64) (rest : Bytes) (q : RefsetReq)
    : refsetField 3 ⟨cborUint flags ++ rest, false⟩ q = (⟨rest, false⟩, { q with flags := flags }) := by
  rcases readHead_putHead rest (Nat.zero_lt_succ 7) h with ⟨ai, hhead⟩
  unfold cborUint
  simp [refsetField, hhead]

theorem refsetFlags_lt (create force consent : Bool) : refsetFlags create force consent < 8 := by
  revert create force consent
  decide

variable {name : Bytes} (expect : Option Hash) (target : Hash) (create force consent : Bool)

def RefsetReq.ofClient (name : Bytes) (expect : Option Hash) (target : Hash)
    (create force consent : Bool) : RefsetReq where
  refname := name
  expectNull := expect.isNone
  haveExpect := expect.isNone || (expect.bind Hash.known).isSome
  expect := expect.bind Hash.known
  newh := target.known
  flags := refsetFlags create force consent

theorem RefsetReq.ofClient_force (name : Bytes)
    : (RefsetReq.ofClient name expect target create force consent).force = force := by
  have hbit : (refsetFlags create force consent).testBit 1 = force := by
    revert create force consent
    decide
  exact hbit

theorem refsetParse_clientRefset (hnul : 0 ∉ name) (hlen : name.length < refNameMax)
    : refsetParse (some (clientRefset name expect target create force consent))
        = RefsetReq.ofClient name expect target create force consent := by
  have hflags := refsetFlags_lt create force consent
  generalize hf : refsetFlags create force consent = flags at hflags
  have hbody : clientRefset name expect target create force consent
      = cborMap (if flags ≠ 0 then 4 else 3)
        ++ (cborUint 0 ++ (cborText name ++ (cborUint 1 ++ (cborExpect expect
        ++ (cborUint 2 ++ (cborBytes target.b
        ++ (if flags ≠ 0 then cborUint 3 ++ cborUint flags else []))))))) := by
    unfold clientRefset
    dsimp only
    rw [hf]
    simp only [List.append_assoc]
    rfl
  have hlength : (if flags ≠ 0 then 4 else 3) * 2
      ≤ (cborUint 0 ++ (cborText name ++ (cborUint 1 ++ (cborExpect expect
        ++ (cborUint 2 ++ (cborBytes target.b
        ++ (if flags ≠ 0 then cborUint 3 ++ cborUint flags else []))))))).length := by
    have h₂ := target.len
    split
    . simp only [List.length_append, cborBytes]
      omega
    . simp only [List.length_append, cborBytes]
      omega
  unfold refsetParse Cdec.init
  dsimp only
  rw [hbody, cdecMap_cborMap _ (by split <;> omega) hlength]
  dsimp only
  have hthree : ∀ n rest, refsetFields (n + 3) ⟨cborUint 0 ++ (cborText name ++ (cborUint 1
      ++ (cborExpect expect ++ (cborUint 2 ++ (cborBytes target.b ++ rest))))), false⟩
        ⟨[], false, false, none, none, 0⟩
      = refsetFields n ⟨rest, false⟩ { RefsetReq.ofClient name expect target create force consent
        with flags := 0 } := by
    intro n rest
    rw [refsetFields_succ (by omega), refsetField_name hnul hlen, refsetFields_succ (by omega),
      refsetField_expect, refsetFields_succ (by omega), refsetField_newh]
    . dsimp only
      congr 1
      unfold RefsetReq.ofClient
      cases expect with
      | none => rfl
      | some h =>
        cases hknown : h.known <;> simp [hknown]
    . cases expect with
      | none => rfl
      | some h =>
        dsimp only
        cases h.known <;> rfl
  by_cases hzero : flags = 0
  . simp only [hzero, ne_eq, not_true_eq_false, if_false]
    rw [hthree 0, refsetFields]
    unfold RefsetReq.ofClient
    rw [hf, hzero]
  . simp only [ne_eq, hzero, not_false_eq_true, if_true]
    rw [hthree 1, refsetFields_succ (by omega)]
    have hlast := refsetField_flags flags (by omega) []
      { RefsetReq.ofClient name expect target create force consent with flags := 0 }
    rw [List.append_nil] at hlast
    rw [hlast, refsetFields]
    unfold RefsetReq.ofClient
    rw [hf]

end Parse

section Names

theorem decDigit_ne_zero (n : Nat) : decDigit n ≠ 0 := by
  intro h
  have hnat := congrArg UInt8.toNat h
  unfold decDigit at hnat
  rw [UInt8.toNat_ofNat'] at hnat
  have : (0 : UInt8).toNat = 0 := rfl
  omega

theorem zero_not_mem_decimal (digits n : Nat) : 0 ∉ decimal digits n := by
  induction digits generalizing n with
  | zero => simp [decimal]
  | succ digits ih =>
    unfold decimal
    split
    . simp [(decDigit_ne_zero n).symm]
    . simp [ih, (decDigit_ne_zero n).symm]

theorem zero_not_mem_padDecimal (width n : Nat) : 0 ∉ padDecimal width n := by
  unfold padDecimal
  dsimp only
  rw [List.mem_append, not_or]
  refine ⟨?_, zero_not_mem_decimal 10 n⟩
  intro hmem
  have := List.eq_of_mem_replicate hmem
  contradiction

variable (duplicate : Bool) (now : Tm) (seq : Nat)

theorem zero_not_mem_tsname : 0 ∉ tsname duplicate now := by
  intro hmem
  have hmem := List.mem_of_mem_take hmem
  simp only [List.mem_append, zero_not_mem_padDecimal, or_false] at hmem
  revert hmem
  cases duplicate <;> decide

theorem zero_not_mem_archiveName : 0 ∉ archiveName duplicate now seq := by
  unfold archiveName
  split
  . exact zero_not_mem_tsname duplicate now
  . intro hmem
    have hmem := List.mem_of_mem_take hmem
    simp only [List.mem_append, zero_not_mem_tsname, zero_not_mem_padDecimal, or_false,
      false_or] at hmem
    revert hmem
    decide

theorem length_archiveName : (archiveName duplicate now seq).length < refNameMax := by
  unfold archiveName refNameMax
  split
  . unfold tsname
    rw [List.length_take]
    omega
  . rw [List.length_take]
    omega

theorem isPrefixOf_take_append {pre rest : Bytes} {n : Nat} (h : pre.length ≤ n)
    : pre.isPrefixOf ((pre ++ rest).take n) = true := by
  rw [List.isPrefixOf_iff_prefix, List.take_append, List.take_of_length_le h]
  exact List.prefix_append _ _

theorem isPrefixOf_archiveName
    : (if duplicate then duplicatePrefix else archivePrefix).isPrefixOf
        (archiveName duplicate now seq) = true := by
  have hts : (if duplicate then duplicatePrefix else archivePrefix).isPrefixOf
      (tsname duplicate now) = true := by
    unfold tsname
    simp only [List.append_assoc]
    apply isPrefixOf_take_append
    cases duplicate <;> decide
  generalize (if duplicate then duplicatePrefix else archivePrefix) = pre at hts
  unfold archiveName
  split
  . exact hts
  . rw [List.isPrefixOf_iff_prefix] at hts ⊢
    have hlen : (tsname duplicate now).length ≤ 111 := by
      unfold tsname
      rw [List.length_take]
      omega
    rw [List.append_assoc, List.take_append, List.take_of_length_le hlen]
    exact hts.trans (List.prefix_append _ _)

theorem retentionPrefix_archiveName
    : ∃ pre, retentionPrefix (archiveName duplicate now seq) = some pre := by
  have hpre := isPrefixOf_archiveName duplicate now seq
  unfold retentionPrefix
  cases duplicate with
  | false =>
    rw [if_neg Bool.false_ne_true] at hpre
    rw [if_pos hpre]
    exact ⟨_, rfl⟩
  | true =>
    rw [if_pos rfl] at hpre
    rw [if_pos hpre]
    split
    . exact ⟨_, rfl⟩
    . exact ⟨_, rfl⟩

theorem archiveBody_parse (head : Hash)
    : refsetParse (archiveBody head duplicate now seq)
        = RefsetReq.ofClient (archiveName duplicate now seq) none head true false false :=
  refsetParse_clientRefset none head true false false (zero_not_mem_archiveName duplicate now seq)
    (length_archiveName duplicate now seq)

theorem casBody_parse (m : PushRun) (live : Ref) (deviceHead : Option Hash)
    : refsetParse (m.casBody live deviceHead)
        = RefsetReq.ofClient liveRef (if live.hash.isNone then none else deviceHead) m.target
          live.hash.isNone false m.consentEngineMajor :=
  refsetParse_clientRefset _ _ _ _ _ (by decide) (by decide)

end Names

section Push

theorem handleObj_refs (s : Store) (enc : Bytes) (io : WriteIo) : (handleObj s enc io).refs = s.refs := by
  unfold handleObj
  split
  . rfl
  . apply storePut_refs

theorem csendqFlush_refs (local_ : Store) (io : PushIo) (q : List Hash) (credit : Credit)
    (dev : Store) : (csendqFlush local_ io q credit dev).2.refs = dev.refs := by
  induction q generalizing credit dev with
  | nil => rfl
  | cons h q ih =>
    unfold csendqFlush
    split
    . rfl
    . split
      . rfl
      . split
        . rfl
        . rw [ih, handleObj_refs]

theorem pushClosure_refs (local_ dev : Store) (root : Hash) (io : PushIo)
    : (pushClosure local_ dev root io).2.refs = dev.refs := by
  unfold pushClosure
  split
  . rfl
  . split
    . rfl
    . dsimp only
      split
      . rfl
      . split
        . rfl
        . apply csendqFlush_refs

end Push

end Harp
