import Harp.Device.LiveRef
import Harp.Device.Refset

/-!
This module contains the facts about `handleStateRefset`: what each of its exits does to the refs
and the engine, and when a request is all-or-nothing.
-/

namespace Harp

theorem Ref.moved_ne (r : Ref) (newh : Hash) : r.moved newh ≠ r := by
  intro h
  have hgen : r.generation + 1 = r.generation := congrArg Ref.generation h
  have hnat := congrArg UInt64.toNat hgen
  have := r.generation.toNat_lt
  rw [UInt64.toNat_add, UInt64.toNat_one] at hnat
  omega

theorem Ref.moved_algOk_of_alg {h : Hash} (halg : h.b.head? = some 0x01) (r : Ref)
    : (r.moved h).algOk = true := by
  simp [Ref.moved, Ref.algOk, halg]

section Parse

def NewhOk (q : RefsetReq) : Prop :=
  ∀ h, q.newh = some h → h.b.head? = some 0x01

theorem refsetField_newhOk {key : Nat} {b : Cdec} {q : RefsetReq} (h : NewhOk q)
    : NewhOk (refsetField key b q).2 := by
  unfold refsetField
  split
  . split
    . dsimp only
      split <;> exact h
    . exact h
  . split
    . exact h
    . split <;> exact h
  . split
    next newh b' hread =>
      intro h' heq
      cases heq
      exact hashRead_alg hread
    next => exact h
  . split <;> exact h
  . exact h

theorem refsetFields_newhOk {n : Nat} {b : Cdec} {q : RefsetReq} (h : NewhOk q)
    : NewhOk (refsetFields n b q) := by
  induction n generalizing b q with
  | zero => exact h
  | succ n ih =>
    unfold refsetFields
    split
    . exact h
    . apply ih
      exact refsetField_newhOk h

theorem refsetParse_newhOk (body : Option Bytes) : NewhOk (refsetParse body) := by
  have hnone : NewhOk ⟨[], false, false, none, none, 0⟩ := by
    intro h heq
    cases heq
  unfold refsetParse
  split
  . exact hnone
  . split
    . exact refsetFields_newhOk hnone
    . exact hnone

theorem Ref.moved_algOk {q : RefsetReq} {newh : Hash} (hq : NewhOk q) (h : q.newh = some newh)
    (r : Ref) : (r.moved newh).algOk = true := by
  exact Ref.moved_algOk_of_alg (hq newh h) r

end Parse

section Exits

-- What passes all checks of a request.
structure Passed (d : Device) (q : RefsetReq) (newh : Hash) (guards : List Guard) (r : Ref)
    (pval : Grid) : Prop where
  read : storeRefRead d.store q.refname = some r
  cas : casOk q r = true
  closure : closureComplete d.store newh = true
  engine : (q.refname ≠ liveRef ∧ pval = d.pval ∧ guards = [.cas])
    ∨ (q.refname = liveRef ∧ engineLoadSnapshot d.store d.pval newh = some pval
      ∧ guards = [.cas, .gate, .load])

theorem refsetCheck_ok {d : Device} {q : RefsetReq} {newh : Hash} {guards : List Guard} {r : Ref}
    {pval : Grid} (h : refsetCheck d q newh = (guards, .ok (r, pval)))
    : Passed d q newh guards r pval := by
  unfold refsetCheck at h
  split at h
  . cases h
  next r' hread =>
    unfold refsetChecks at h
    split at h
    . cases h
    next hcas =>
      split at h
      . cases h
      next hclosure =>
        rw [Classical.not_not] at hcas hclosure
        split at h
        next hname =>
          cases h
          exact ⟨hread, hcas, hclosure, .inl ⟨hname, rfl, rfl⟩⟩
        next hname =>
          rw [Classical.not_not] at hname
          split at h
          . cases h
          . split at h
            . cases h
            next hload =>
              cases h
              exact ⟨hread, hcas, hclosure, .inr ⟨hname, hload, rfl⟩⟩

theorem refsetCheck_error {d : Device} {q : RefsetReq} {newh : Hash} {guards : List Guard}
    {rsp : RefsetRsp} (h : refsetCheck d q newh = (guards, .error rsp))
    : (∀ generation, rsp ≠ .ok generation) ∧ .load ∉ guards := by
  unfold refsetCheck at h
  split at h
  . cases h
    simp
  . unfold refsetChecks at h
    split at h
    . cases h
      simp
    . split at h
      . cases h
        simp
      . split at h
        . cases h
        . split at h
          next rsp' hgate =>
            cases h
            split at hgate
            . cases hgate
            . unfold engineGate at hgate
              split at hgate
              . cases hgate
                simp
              . split at hgate
                . cases hgate
                  simp
                . cases hgate
          next =>
            split at h
            . cases h
              simp
            . cases h

def refsetLog (q : RefsetReq) : List Guard :=
  if q.refname = liveRef then [.flush] else []

def RefsetReq.complete (q : RefsetReq) (newh : Hash) : Prop :=
  q.newh = some newh ∧ q.refname ≠ [] ∧ q.haveExpect = true

def Device.commit (d : Device) (r : Ref) (pval : Grid) (io : WriteIo) : Device :=
  { d with store := (storeRefWrite d.store r io).2, pval }

-- The four exits of the handler.
inductive Exit (d : Device) (q : RefsetReq) (io : RefsetIo) : RefsetOut → Prop where
  | malformed (h : ∀ newh, ¬ q.complete newh) : Exit d q io ⟨.malformed none, d, []⟩
  | refused {newh guards rsp} (hq : q.complete newh)
      (h : refsetCheck (refsetFlush d q io.flush) q newh = (guards, .error rsp))
      : Exit d q io ⟨rsp, refsetFlush d q io.flush, refsetLog q ++ guards⟩
  | stored {newh guards r pval} (hq : q.complete newh)
      (h : refsetCheck (refsetFlush d q io.flush) q newh = (guards, .ok (r, pval)))
      (hw : (storeRefWrite (refsetFlush d q io.flush).store (r.moved newh) io.write).1 = true)
      : Exit d q io ⟨.ok (r.generation + 1),
          (refsetFlush d q io.flush).commit (r.moved newh) pval io.write, refsetLog q ++ guards ++ [.write]⟩
  | failed {newh guards r pval} (hq : q.complete newh)
      (h : refsetCheck (refsetFlush d q io.flush) q newh = (guards, .ok (r, pval)))
      (hw : (storeRefWrite (refsetFlush d q io.flush).store (r.moved newh) io.write).1 = false)
      : Exit d q io ⟨.storage,
          (refsetFlush d q io.flush).commit (r.moved newh) pval io.write, refsetLog q ++ guards⟩

theorem refsetRespond_exit (d : Device) (body : Option Bytes) (io : RefsetIo)
    : Exit d (refsetParse body) io (refsetRespond d body io) := by
  unfold refsetRespond
  dsimp only
  split
  next hnone =>
    apply Exit.malformed
    intro newh h
    rw [h.1] at hnone
    cases hnone
  next newh hnewh =>
    split
    next hbad =>
      apply Exit.malformed
      intro newh' h
      rcases hbad with hbad | hbad
      . exact h.2.1 (List.isEmpty_iff.mp hbad)
      . exact hbad h.2.2
    next hgood =>
      rw [not_or, Classical.not_not, List.isEmpty_iff] at hgood
      have hq : (refsetParse body).complete newh := ⟨hnewh, hgood⟩
      split
      next guards rsp hcheck => exact Exit.refused hq hcheck
      next guards r pval hcheck =>
        rcases hw : storeRefWrite (refsetFlush d (refsetParse body) io.flush).store (r.moved newh)
          io.write with ⟨ok, store⟩
        cases ok with
        | true =>
          have hexit := Exit.stored (d := d) (q := refsetParse body) hq hcheck (by rw [hw])
          unfold Device.commit at hexit
          rw [hw] at hexit
          exact hexit
        | false =>
          have hexit := Exit.failed (d := d) (q := refsetParse body) hq hcheck (by rw [hw])
          unfold Device.commit at hexit
          rw [hw] at hexit
          exact hexit

end Exits

end Harp
