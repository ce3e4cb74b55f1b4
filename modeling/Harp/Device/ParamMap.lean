import Harp.Core.CborLemmas
import Harp.Device.Params
import Harp.Lib.SelfDelimiting

/-!
This module contains the parameter descriptors of `device/state.c`: the array of them whose hash
protects the stored automation, and the one the device advertises.
-/

namespace Harp

open SelfDelimiting

-- A zero-terminated string, whose `strlen` is a `size_t`.
@[ext]
structure CText where
  b : Bytes
  no_nul : 0 ∉ b
  fits : b.length < 2 ^ 64

-- There are labels for all steps, if not for more.
structure DevParam where
  id : UInt32
  name : CText
  steps : UInt8
  labels : List CText
  deflt : Ieee.F32
  readable : steps.toNat ≤ labels.length

structure ParamTable where
  rows : List DevParam
  fits : rows.length < 2 ^ 64

def pflagAutomatable : UInt64 := 0x01

def pflagModulatable : UInt64 := 0x20

def pflagPerVoiceMod : UInt64 := 0x40

def paramModulatable (p : DevParam) : Bool :=
  p.id = 3

def paramFlags (modulatable : DevParam → Bool) (p : DevParam) (includeCaps : Bool) : UInt64 :=
  if includeCaps && modulatable p then
    pflagAutomatable ||| (pflagModulatable ||| pflagPerVoiceMod)
  else
    pflagAutomatable

namespace DevParam

def shown (p : DevParam) : List CText :=
  p.labels.take p.steps.toNat

def encodeSteps (p : DevParam) : Bytes :=
  cborUint 5 ++ cborUint p.steps.toNat

def encodeLabels (p : DevParam) : Bytes :=
  cborUint 9 ++ (cborArray p.steps.toNat ++ p.shown.flatMap (fun label => cborText label.b))

def beforeFlags (p : DevParam) : Bytes :=
  cborMap (if 0 < p.steps then 5 else 3)
    ++ (cborUint 0 ++ cborUint p.id.toNat)
    ++ (cborUint 1 ++ cborText p.name.b)
    ++ (if 0 < p.steps then p.encodeSteps else [])
    ++ cborUint 8

def afterFlags (p : DevParam) : Bytes :=
  if 0 < p.steps then p.encodeLabels else []

-- Same in everything automation can be stored for.
def Agrees (p p' : DevParam) : Prop :=
  p.id = p'.id ∧ p.name = p'.name ∧ p.steps = p'.steps ∧ (0 < p.steps → p.shown = p'.shown)

end DevParam

def encodeOneParam (modulatable : DevParam → Bool) (p : DevParam) (includeCaps : Bool) : Bytes :=
  p.beforeFlags ++ cborUint (paramFlags modulatable p includeCaps).toNat ++ p.afterFlags

def encodeParamArrayFrom (modulatable : DevParam → Bool) (table : ParamTable) : Bytes :=
  cborArray table.rows.length
    ++ table.rows.flatMap (fun p => encodeOneParam modulatable p false)

def nMeterSlots : Nat := nParts + 1

def meterMainIx : Nat := nParts

def meterRateHz : Nat := 30

def meterId (slot kind : Nat) : Nat :=
  0x1000 + slot * 2 + kind

def meterName (slot kind : Nat) : Bytes :=
  let what := if kind = 0 then ascii "Peak" else ascii "RMS"
  let name :=
    if slot = meterMainIx then
      ascii "Main " ++ what
    else
      ascii "Part " ++ ascii (toString (slot + 1)) ++ ascii " " ++ what
  name.take 23

def encodeMeter (slot kind : Nat) : Bytes :=
  cborMap 4
    ++ (cborUint 0 ++ cborUint (meterId slot kind))
    ++ (cborUint 1 ++ cborText (meterName slot kind))
    ++ (cborUint 8 ++ cborUint 2)
    ++ (cborUint 11 ++ cborUint meterRateHz)

def encodeMeters : Bytes :=
  (List.range nMeterSlots).flatMap (fun slot => (List.range 2).flatMap (encodeMeter slot))

-- A device may bring a table of its own.
def encodeParamArray (modulatable : DevParam → Bool) (gParams : ParamTable) : Bytes :=
  cborArray (gParams.rows.length + nMeterSlots * 2)
    ++ gParams.rows.flatMap (fun p => encodeOneParam modulatable p true)
    ++ encodeMeters

section Table

def CText.lit (b : Bytes) (h : 0 ∉ b ∧ b.length < 2 ^ 64) : CText :=
  ⟨b, h.1, h.2⟩

def arpModes : List CText :=
  [.lit (ascii "Off") (by decide), .lit (ascii "Up") (by decide), .lit (ascii "Down") (by decide),
    .lit (ascii "Up-Down") (by decide), .lit (ascii "As Played") (by decide)]

def arpDivs : List CText :=
  [.lit (ascii "1/4") (by decide), .lit (ascii "1/8") (by decide), .lit (ascii "1/8T") (by decide),
    .lit (ascii "1/16") (by decide), .lit (ascii "1/16T") (by decide),
    .lit (ascii "1/32") (by decide)]

def arpOcts : List CText :=
  [.lit (ascii "1") (by decide), .lit (ascii "2") (by decide), .lit (ascii "3") (by decide),
    .lit (ascii "4") (by decide)]

def gParams : ParamTable where
  rows := [
    ⟨1, .lit (ascii "Osc Pitch") (by decide), 0, [], half, by decide⟩,
    ⟨2, .lit (ascii "Osc Shape") (by decide), 0, [], half, by decide⟩,
    ⟨3, .lit (ascii "Filter Cutoff") (by decide), 0, [], half, by decide⟩,
    ⟨4, .lit (ascii "Filter Reso") (by decide), 0, [], half, by decide⟩,
    ⟨5, .lit (ascii "Env Attack") (by decide), 0, [], half, by decide⟩,
    ⟨6, .lit (ascii "Env Release") (by decide), 0, [], half, by decide⟩,
    ⟨7, .lit (ascii "Master Level") (by decide), 0, [], half, by decide⟩,
    ⟨8, .lit (ascii "Arp Mode") (by decide), 5, arpModes, Ieee.Fp.ofBits 0, by decide⟩,
    ⟨9, .lit (ascii "Arp Division") (by decide), 6, arpDivs, Ieee.Fp.ofBits 0x3f19999a, by decide⟩,
    ⟨10, .lit (ascii "Arp Gate") (by decide), 0, [], half, by decide⟩,
    ⟨11, .lit (ascii "Arp Octaves") (by decide), 4, arpOcts, Ieee.Fp.ofBits 0, by decide⟩,
    ⟨12, .lit (ascii "Glide") (by decide), 0, [], Ieee.Fp.ofBits 0, by decide⟩]
  fits := by decide

-- What is asserted at boot, and that the other module has the same ids.
theorem gParams_lockstep
    : gParams.rows.map DevParam.deflt = pvalDefaults
        ∧ gParams.rows.map (fun p => p.id.toNat) = gParamIds :=
  ⟨rfl, rfl⟩

def encodeParamArrayAutomatable : Bytes :=
  encodeParamArrayFrom paramModulatable gParams

end Table

section Heads

variable {α : Type} {ok : α → α → Prop}

variable (ok) in
theorem delimits_putHead {major : Nat} (hmajor : major < 8) (f : α → Nat)
    (hf : ∀ a, f a < 2 ^ 64)
    : Delimits ok (fun a => putHead major (f a)) (fun a a' => f a = f a') := by
  intro a a' _ rest rest'
  constructor
  . intro heq
    rcases readHead_putHead rest hmajor (hf a) with ⟨ai, h⟩
    rcases readHead_putHead rest' hmajor (hf a') with ⟨ai', h'⟩
    dsimp only at heq
    rw [heq, h'] at h
    simp only [Prod.mk.injEq, Option.some.injEq, Head.mk.injEq, Cdec.mk.injEq] at h
    exact ⟨h.1.2.2.symm, h.2.1.symm⟩
  . rintro ⟨hsame, hrest⟩
    dsimp only
    rw [hsame, hrest]

variable (ok) in
theorem delimits_text (f : α → CText)
    : Delimits ok (fun a => cborText (f a).b) (fun a a' => f a = f a') := by
  intro a a' hok rest rest'
  constructor
  . intro heq
    have h := cdecText_cborText (f a).b rest (f a).fits
    rw [show cborText (f a).b ++ rest = cborText (f a').b ++ rest' from heq,
      cdecText_cborText (f a').b rest' (f a').fits] at h
    simp only [Prod.mk.injEq, Option.some.injEq, Cdec.mk.injEq] at h
    exact ⟨CText.ext h.1.symm, h.2.1.symm⟩
  . rintro ⟨hsame, hrest⟩
    dsimp only
    rw [hsame, hrest]

end Heads

namespace DevParam

theorem length_shown (p : DevParam) : p.shown.length = p.steps.toNat := by
  unfold shown
  rw [List.length_take, Nat.min_eq_left p.readable]

theorem steps_lt (p : DevParam) : p.steps.toNat < 2 ^ 64 :=
  Nat.lt_trans p.steps.toNat_lt (by decide)

theorem delimits_labels
    : Delimits (fun p p' => p.steps = p'.steps) encodeLabels (fun p p' => p.shown = p'.shown) := by
  have hlabels : Delimits any (fun label : CText => cborText label.b) (fun s s' => s = s') :=
    delimits_text any (fun label => label)
  have harray : Delimits (fun p p' : DevParam => p.steps = p'.steps)
      (fun p => cborArray p.steps.toNat) any :=
    (delimits_putHead _ (by decide) (fun p : DevParam => p.steps.toNat) steps_lt).same_iff
      (fun p p' hsteps => by simp [hsteps, any])
  have hshown : Delimits (fun p p' : DevParam => p.steps = p'.steps)
      (fun p => p.shown.flatMap (fun label => cborText label.b))
      (fun p p' => p.shown = p'.shown) := by
    intro p p' hsteps rest rest'
    have hlen : p.shown.length = p'.shown.length := by
      rw [length_shown, length_shown, hsteps]
    rw [hlabels.flatMap p.shown p'.shown hlen, List.forall₂_eq_eq_eq]
  have hkey : Delimits (fun p p' : DevParam => p.steps = p'.steps) (fun _ => cborUint 9) any :=
    .const _ (cborUint 9)
  have hall := hkey.append ((harray.append (hshown.mono fun _ _ h => h.1)).mono fun _ _ h => h.1)
  exact hall.same_iff (fun p p' _ => by simp [any])

theorem stepped_iff {p p' : DevParam}
    (h : (if 0 < p.steps then 5 else 3) = if 0 < p'.steps then 5 else 3)
    : 0 < p.steps ↔ 0 < p'.steps := by
  by_cases hp : 0 < p.steps
  . by_cases hp' : 0 < p'.steps
    . simp [hp, hp']
    . simp [hp, hp'] at h
  . by_cases hp' : 0 < p'.steps
    . simp [hp, hp'] at h
    . simp [hp, hp']

-- The number of keys tells whether there are steps, and the key of the steps how many.
theorem delimits_beforeFlags
    : Delimits any beforeFlags
        (fun p p' => p.id = p'.id ∧ p.name = p'.name ∧ p.steps = p'.steps) := by
  have hmap := delimits_putHead any (show 5 < 8 by decide)
    (fun p : DevParam => if 0 < p.steps then 5 else 3) (fun p => by split <;> decide)
  have hid := (Delimits.const any (cborUint 0)).append
    (delimits_putHead _ (show 0 < 8 by decide) (fun p : DevParam => p.id.toNat)
      (fun p => Nat.lt_trans p.id.toNat_lt (by decide)))
  have hname := (Delimits.const any (cborUint 1)).append (delimits_text _ DevParam.name)
  have hsteps := (Delimits.const any (cborUint 5)).append
    (delimits_putHead _ (show 0 < 8 by decide) (fun p : DevParam => p.steps.toNat) steps_lt)
  have hfront := (hmap.append (hid.mono fun _ _ _ => trivial)).append
    (hname.mono fun _ _ _ => trivial)
  have hall := (hfront.append ((hsteps.mono fun _ _ _ => trivial).optional
    (fun p p' h => stepped_iff h.2.1.1))).append (.const _ (cborUint 8))
  apply hall.same_iff
  intro p p' _
  constructor
  . rintro ⟨⟨⟨⟨hkeys, -, hid⟩, -, hname⟩, hsteps⟩, -⟩
    refine ⟨UInt32.toNat_inj.mp hid, hname, UInt8.toNat_inj.mp ?_⟩
    by_cases hp : 0 < p.steps
    . exact (hsteps hp).2
    . have hp' : ¬ 0 < p'.steps := fun h => hp ((stepped_iff hkeys).mpr h)
      rw [UInt8.lt_iff_toNat_lt] at hp hp'
      simp at hp hp'
      omega
  . rintro ⟨hid, hname, hsteps⟩
    rw [hid, hname, hsteps]
    exact ⟨⟨⟨⟨rfl, trivial, rfl⟩, trivial, rfl⟩, fun _ => ⟨trivial, rfl⟩⟩, trivial⟩

end DevParam

theorem paramFlags_masked (modulatable : DevParam → Bool) (p : DevParam)
    : paramFlags modulatable p false = pflagAutomatable := by
  unfold paramFlags
  rw [Bool.false_and, if_neg Bool.false_ne_true]

theorem delimits_encodeOneParam (modulatable : DevParam → Bool)
    : Delimits any (fun p => encodeOneParam modulatable p false) DevParam.Agrees := by
  have hflags := DevParam.delimits_beforeFlags.append
    (.const _ (cborUint pflagAutomatable.toNat))
  have hafter : Delimits (fun p p' : DevParam => p.steps = p'.steps) DevParam.afterFlags
      (fun p p' => 0 < p.steps → p.shown = p'.shown) :=
    (DevParam.delimits_labels.mono fun _ _ h => h.1).optional (fun p p' h => by rw [h])
  have hall := hflags.append (hafter.mono fun _ _ h => h.2.1.2.2)
  have hmasked : (fun p => encodeOneParam modulatable p false)
      = fun p => p.beforeFlags ++ cborUint pflagAutomatable.toNat ++ p.afterFlags := by
    funext p
    unfold encodeOneParam
    rw [paramFlags_masked]
  rw [hmasked]
  apply hall.same_iff
  intro p p' _
  unfold DevParam.Agrees any
  simp [and_assoc]

theorem encodeParamArrayFrom_masked (modulatable : DevParam → Bool) (table : ParamTable)
    : encodeParamArrayFrom modulatable table
        = cborArray table.rows.length
          ++ table.rows.flatMap (fun p =>
              p.beforeFlags ++ cborUint pflagAutomatable.toNat ++ p.afterFlags) := by
  unfold encodeParamArrayFrom encodeOneParam
  simp only [paramFlags_masked]

theorem delimits_encodeParamArrayFrom (modulatable : DevParam → Bool)
    : Delimits any (encodeParamArrayFrom modulatable)
        (fun table table' => List.Forall₂ DevParam.Agrees table.rows table'.rows) := by
  have hhead := delimits_putHead any (show 4 < 8 by decide)
    (fun table : ParamTable => table.rows.length) ParamTable.fits
  have hrows : Delimits (fun table table' : ParamTable => table.rows.length = table'.rows.length)
      (fun table => table.rows.flatMap (fun p => encodeOneParam modulatable p false))
      (fun table table' => List.Forall₂ DevParam.Agrees table.rows table'.rows) :=
    fun table table' hlen =>
      (delimits_encodeOneParam modulatable).flatMap table.rows table'.rows hlen
  apply (hhead.append (hrows.mono fun _ _ h => h.2)).same_iff
  intro table table' _
  exact ⟨fun h => h.2, fun h => ⟨h.length_eq, h⟩⟩

/--
The bytes tell all that stored automation depends on and nothing else: no default, and not what can
be modulated. What is advertised has other flags, and the meters after it.
-/
theorem encodeParamArrayFrom_eq_iff (modulatable modulatable' : DevParam → Bool)
    (table table' : ParamTable)
    : (encodeParamArrayFrom modulatable table = encodeParamArrayFrom modulatable' table'
        ↔ List.Forall₂ DevParam.Agrees table.rows table'.rows)
      ∧ encodeParamArrayFrom modulatable table
          = cborArray table.rows.length
            ++ table.rows.flatMap (fun p =>
                p.beforeFlags ++ cborUint pflagAutomatable.toNat ++ p.afterFlags)
      ∧ encodeParamArray modulatable table
          = cborArray (table.rows.length + nMeterSlots * 2)
            ++ table.rows.flatMap (fun p =>
                p.beforeFlags ++ cborUint (paramFlags modulatable p true).toNat ++ p.afterFlags)
            ++ encodeMeters := by
  refine ⟨?_, encodeParamArrayFrom_masked modulatable table, rfl⟩
  rw [encodeParamArrayFrom_masked modulatable' table',
    ← encodeParamArrayFrom_masked modulatable table']
  exact (delimits_encodeParamArrayFrom modulatable).eq_iff table table'

end Harp
