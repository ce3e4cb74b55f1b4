import Harp.Host.Recall
import Harp.Lib.Run

/-!
This module contains the read-only hold over every order of stagings, connects, refusals, picks at the
panel and consents: which live refsets leave the runtime.
-/

namespace Harp

open Runs

inductive RecallAct where
  | setStateBundle (data : Bytes) (put : Bytes → WriteIo) (answers : PushAnswers)
  | connect (id : DeviceIdentity) (answers : PushAnswers) (audioOk : Bool)
  | disconnect
  | consent (answers : PushAnswers)

-- The same unit where both serials are known, and the same major or a consent.
def LiveRefset.Allowed (e : LiveRefset) : Prop :=
  (e.wantSerial = [] ∨ e.bound.serial = [] ∨ e.bound.serial = e.wantSerial)
    ∧ (atoi e.bound.engineVer = e.wantEngineMajor ∨ e.consented = true)

instance LiveRefset.decidableAllowed (e : LiveRefset) : Decidable e.Allowed :=
  inferInstanceAs (Decidable (_ ∧ _))

namespace ShellRt

def next (rt : ShellRt) : RecallAct → ShellRt
  | .setStateBundle data put answers => (rt.setStateBundle data put answers).2
  | .connect id answers audioOk => if rt.connected then rt else rt.sessionUp id answers audioOk
  | .disconnect => { rt with connected := false }
  | .consent answers => rt.consentEngineMajorOverride answers

def HoldLaw (rt : ShellRt) : Prop :=
  ∀ e ∈ rt.sent, e.Allowed

-- A project without an engine major meets a device of a major, and there is no hold and no consent.
structure Gap (rt : ShellRt) : Prop where
  staged : rt.project.hasBundle = true
  want : rt.project.wantEngineMajor = 0
  device : atoi rt.bound.engineVer ≠ 0
  unit : rt.serialDiffers = false
  refused : rt.engineRefused = false
  explicit : rt.roExplicit = false
  consent : rt.consentEngineMajor = false

instance decidableGap (rt : ShellRt) : Decidable rt.Gap :=
  decidable_of_iff
    (rt.project.hasBundle = true ∧ rt.project.wantEngineMajor = 0 ∧ atoi rt.bound.engineVer ≠ 0
      ∧ rt.serialDiffers = false ∧ rt.engineRefused = false ∧ rt.roExplicit = false
      ∧ rt.consentEngineMajor = false)
    ⟨fun ⟨h₁, h₂, h₃, h₄, h₅, h₆, h₇⟩ => ⟨h₁, h₂, h₃, h₄, h₅, h₆, h₇⟩,
      fun ⟨h₁, h₂, h₃, h₄, h₅, h₆, h₇⟩ => ⟨h₁, h₂, h₃, h₄, h₅, h₆, h₇⟩⟩

-- Neither a staging nor a connect makes a gap, and nobody consents to a project of another unit.
def holdKept (rt : ShellRt) : RecallAct → Prop
  | .setStateBundle data put _ =>
    rt.connected = true → (rt.stageBundle data put).1 = true → ¬(rt.stageBundle data put).2.Gap
  | .connect id _ _ => rt.connected = false → ¬Gap { rt with bound := id }
  | .disconnect => True
  | .consent _ =>
    rt.connected = true → rt.project.hasBundle = true → rt.serialDiffers = false

instance decidableHoldKept (rt : ShellRt) (a : RecallAct) : Decidable (rt.holdKept a) :=
  match a with
  | .setStateBundle _ _ _ => inferInstanceAs (Decidable (_ → _ → ¬_))
  | .connect _ _ _ => inferInstanceAs (Decidable (_ → ¬_))
  | .disconnect => .isTrue trivial
  | .consent _ => inferInstanceAs (Decidable (_ → _ → _))

structure HoldInv (rt : ShellRt) : Prop where
  consent : rt.consentEngineMajor = rt.granted
  law : rt.HoldLaw

-- What a refset that is sent now would have to meet.
def Clear (rt : ShellRt) : Prop :=
  rt.serialDiffers = false
    ∧ (atoi rt.bound.engineVer = rt.project.wantEngineMajor ∨ rt.granted = true)

variable {rt : ShellRt}

theorem allowed_of_clear (h : rt.Clear) (target : Hash)
    : LiveRefset.Allowed
        ⟨target, rt.bound, rt.project.wantSerial, rt.project.wantEngineMajor, rt.granted⟩ := by
  refine ⟨?_, h.2⟩
  have hunit := h.1
  unfold serialDiffers at hunit
  simp only [Bool.and_eq_false_iff, Bool.not_eq_false', List.isEmpty_iff, bne_eq_false_iff_eq] at hunit
  rcases hunit with (hwant | hbound) | hsame
  . exact .inl hwant
  . exact .inr (.inl hbound)
  . exact .inr (.inr hsame)

theorem HoldInv.casLive (h : rt.HoldInv) (hclear : rt.Clear) (target : Hash)
    (answer : RefsetAnswer) : (rt.casLive target answer).2.HoldInv := by
  have hsent : (rt.sendLive target).HoldInv := by
    refine ⟨h.consent, ?_⟩
    intro e he
    rcases List.mem_append.mp he with hold | hnew
    . exact h.law e hold
    . rw [List.mem_singleton.mp hnew]
      exact allowed_of_clear hclear target
  cases answer with
  | ok => exact hsent
  | incompatible => exact ⟨hsent.consent, hsent.law⟩
  | failed => exact hsent

theorem HoldInv.pushChosen (h : rt.HoldInv) (hclear : rt.Clear) (target : Hash) (live : Ref)
    (deviceHead : Option Hash) (choice : Int) (answers : PushAnswers)
    : (rt.pushChosen target live deviceHead choice answers).2.HoldInv := by
  have hchosen : HoldInv { rt with roExplicit := choice = 2 } := ⟨h.consent, h.law⟩
  have hforced : HoldInv (if choice = 4 then grantConsent { rt with roExplicit := choice = 2 }
      else { rt with roExplicit := choice = 2 }) := by
    split
    . exact ⟨rfl, h.law⟩
    . exact hchosen
  have hclear' : Clear (if choice = 4 then grantConsent { rt with roExplicit := choice = 2 }
      else { rt with roExplicit := choice = 2 }) := by
    split
    . exact ⟨hclear.1, .inr rfl⟩
    . exact hclear
  unfold ShellRt.pushChosen
  simp only
  split
  . exact hchosen
  . split
    . exact hchosen
    . split
      . exact hforced
      . split
        . exact hforced
        . exact hforced.casLive hclear' target answers.refset

theorem HoldInv.pushStateLocked (h : rt.HoldInv) (hclear : rt.Clear) (target : Hash)
    (answers : PushAnswers) : (rt.pushStateLocked target answers).2.HoldInv := by
  unfold ShellRt.pushStateLocked
  split
  . exact h
  . split
    . exact h
    . split
      . exact h
      . exact h.pushChosen hclear _ _ _ _ _

-- The holds that are recomputed leave nothing of the two conditions open but the gap.
theorem clear_of_recomputed (h : rt.HoldInv) (hbundle : rt.project.hasBundle = true)
    (hheld : rt.recomputeReadOnlyHolds.held = false) (hgap : ¬rt.Gap)
    : rt.recomputeReadOnlyHolds.Clear := by
  unfold held recomputeReadOnlyHolds at hheld
  simp only [Bool.or_eq_false_iff, Bool.and_eq_false_iff, Bool.not_eq_false'] at hheld
  obtain ⟨⟨hunit, hengine⟩, hexplicit⟩ := hheld
  refine ⟨hunit, ?_⟩
  show atoi rt.bound.engineVer = rt.project.wantEngineMajor ∨ rt.granted = true
  rcases hengine with ⟨hmismatch, hrefused⟩ | hconsent
  . unfold majorMismatch at hmismatch
    simp only [Bool.and_eq_false_iff, decide_eq_false_iff_not, bne_eq_false_iff_eq] at hmismatch
    rcases hmismatch with hnone | hsame
    . have hzero : rt.project.wantEngineMajor = 0 := by omega
      by_cases hdevice : atoi rt.bound.engineVer = 0
      . rw [hzero]
        exact .inl hdevice
      . cases hconsent : rt.consentEngineMajor with
        | false => exact absurd ⟨hbundle, hzero, hdevice, hunit, hrefused, hexplicit, hconsent⟩ hgap
        | true => exact .inr (h.consent.symm.trans hconsent)
    . exact .inl hsame
  . exact .inr (h.consent.symm.trans hconsent)

theorem HoldInv.stageBundle (h : rt.HoldInv) (data : Bytes) (put : Bytes → WriteIo)
    : (rt.stageBundle data put).2.HoldInv := by
  unfold ShellRt.stageBundle
  split
  . exact h
  . simp only
    split
    . exact ⟨rfl, h.law⟩
    . exact ⟨h.consent, h.law⟩

theorem stageBundle_staged {data : Bytes} {put : Bytes → WriteIo} {rt' : ShellRt}
    (h : rt.stageBundle data put = (true, rt'))
    : rt'.connected = rt.connected ∧ rt'.project.hasBundle = true := by
  unfold ShellRt.stageBundle at h
  split at h
  . cases h
  . simp only at h
    split at h
    . cases h
      exact ⟨rfl, rfl⟩
    . cases h

theorem HoldInv.recompute (h : rt.HoldInv) : rt.recomputeReadOnlyHolds.HoldInv :=
  ⟨h.consent, h.law⟩

theorem HoldInv.setStateBundle (h : rt.HoldInv) (data : Bytes) (put : Bytes → WriteIo)
    (answers : PushAnswers) (hkept : rt.holdKept (.setStateBundle data put answers))
    : (rt.setStateBundle data put answers).2.HoldInv := by
  have hstage := h.stageBundle data put
  dsimp only [ShellRt.holdKept] at hkept
  unfold ShellRt.setStateBundle
  split
  next rt' heq =>
    rw [heq] at hstage
    exact hstage
  next rt' heq =>
    rw [heq] at hstage hkept
    obtain ⟨hconnected, hbundle⟩ := stageBundle_staged heq
    split
    next hon =>
      have hgap := hkept (hconnected.symm.trans hon) rfl
      simp only
      split
      . exact hstage.recompute
      next hheld =>
        rw [Bool.not_eq_true] at hheld
        have hclear := clear_of_recomputed hstage hbundle hheld hgap
        exact hstage.recompute.pushStateLocked hclear _ answers
    . exact hstage

theorem HoldInv.consentEngineMajorOverride (h : rt.HoldInv) (answers : PushAnswers)
    (hkept : rt.holdKept (.consent answers)) : (rt.consentEngineMajorOverride answers).HoldInv := by
  have hinv : HoldInv { rt.grantConsent with roExplicit := false } := ⟨rfl, h.law⟩
  unfold ShellRt.consentEngineMajorOverride
  simp only
  split
  next hpush =>
    rw [Bool.and_eq_true] at hpush
    have hunit := hkept hpush.2 hpush.1
    apply hinv.pushStateLocked
    exact ⟨hunit, .inr rfl⟩
  . exact hinv

theorem HoldInv.sessionUp (h : rt.HoldInv) (id : DeviceIdentity) (answers : PushAnswers)
    (audioOk : Bool) (hgap : ¬Gap { rt with bound := id })
    : (rt.sessionUp id answers audioOk).HoldInv := by
  have hinv : HoldInv { rt with bound := id } := ⟨h.consent, h.law⟩
  have hpushed : HoldInv
      (if (recomputeReadOnlyHolds { rt with bound := id }).project.hasBundle
          && !(recomputeReadOnlyHolds { rt with bound := id }).held then
        ((recomputeReadOnlyHolds { rt with bound := id }).pushStateLocked
          (recomputeReadOnlyHolds { rt with bound := id }).project.bundleTarget answers).2
      else
        recomputeReadOnlyHolds { rt with bound := id }) := by
    split
    next hpush =>
      rw [Bool.and_eq_true, Bool.not_eq_true'] at hpush
      have hclear := clear_of_recomputed hinv hpush.1 hpush.2 hgap
      exact hinv.recompute.pushStateLocked hclear _ answers
    . exact hinv.recompute
  exact ⟨hpushed.consent, hpushed.law⟩

theorem HoldInv.next (h : rt.HoldInv) (a : RecallAct) (ha : rt.holdKept a) : (rt.next a).HoldInv := by
  cases a with
  | setStateBundle data put answers => exact h.setStateBundle data put answers ha
  | connect id answers audioOk =>
    simp only [ShellRt.next]
    split
    . exact h
    next hoff => exact h.sessionUp id answers audioOk (ha (Bool.eq_false_iff.mpr hoff))
  | disconnect => exact ⟨h.consent, h.law⟩
  | consent answers => exact h.consentEngineMajorOverride answers ha

end ShellRt

end Harp
