/-
Which colour description an encoder writes.

A source may carry code points (CICP) and an ICC profile, and one of them is the authority. A
target may have a carrier for code points. `resolveColorEmit` decides what is written.

* `resolve_icc` — an ICC profile with authority is kept, or replaced by its own code points;
* `resolve_cicp` — code points with authority are written or synthesized into a profile, unless
  there is a profile too and the code points cannot be written: then it is kept alone;
* `resolveColorEmit_iff` — exactly when every description of authority survives, and none is
  written for gray or CMYK pixels.
-/
import Zencodec.Metadata

open Slices

namespace Zencodec.Color

/-! ### Descriptions -/

/-- Code points; `new` takes them in this order. -/
structure Cicp where
  colorPrimaries : ℕ
  transferCharacteristics : ℕ
  matrixCoefficients : ℕ
  fullRange : Bool
  deriving DecidableEq, Repr

inductive ColorAuthority where
  | icc
  | cicp
  deriving DecidableEq, Repr

/-- The colour models that an ICC profile can name, as far as they are told apart here. -/
inductive ColorModel where
  | gray
  | cmyk
  | other
  deriving DecidableEq, Repr

/-- The pixel crate: what it reads from the bytes of a profile, and how it selects. -/
structure PixelCrate where
  /-- `Cicp::from_icc`, from the `cicp` tag. -/
  fromIcc : Bytes → Option Cicp
  /-- `IccIdentification::from_icc` and `to_cicp`, from the known profiles. -/
  identified : Bytes → Option Cicp
  isCommonSrgb : Bytes → Bool
  /-- `ColorModel::from_icc` -/
  model : Bytes → Option ColorModel
  /-- `ColorAuthority::select` -/
  select : {α : Type} → ColorAuthority → Option α → Option α → Option α
  /-- The authoritative description when it is present, otherwise the other. -/
  select_icc : ∀ {α : Type} (icc cicp : Option α), select .icc icc cicp = icc.or cicp
  select_cicp : ∀ {α : Type} (icc cicp : Option α), select .cicp icc cicp = cicp.or icc

/-- `SourceColor`, as far as the decision reads it. -/
structure SourceColor where
  cicp : Option Cicp
  iccProfile : Option Bytes
  colorAuthority : ColorAuthority
  /-- One is gray and two gray with alpha; `none` is unknown. -/
  channelCount : Option ℕ

inductive AuthoritativeColor where
  | icc (profile : Bytes)
  | cicp (c : Cicp)

/-- `EncodeCapabilities`, as far as the decision reads them. -/
structure EncodeCapabilities where
  icc : Bool
  cicp : Bool
  cicpIsValidCarrier : Bool
  cicpSafeSoleCarrier : Bool

inductive CicpEmission where
  | whereValidCarrier
  | whereverSupported
  | never
  deriving DecidableEq, Repr

structure ColorEmitFields where
  icc : IccRetention
  cicp : CicpEmission
  deriving DecidableEq, Repr

inductive ColorEmitPolicy where
  | compatibility
  | balanced
  | compact
  | verbatim
  | custom (f : ColorEmitFields)
  deriving DecidableEq, Repr

def ColorEmitPolicy.fields : ColorEmitPolicy → ColorEmitFields
  | .compatibility => ⟨.keep, .whereValidCarrier⟩
  | .balanced => ⟨.dropIfCicpSafeSoleCarrier, .whereValidCarrier⟩
  | .compact => ⟨.dropIfCicpRepresentable, .whereverSupported⟩
  | .verbatim => ⟨.keep, .whereValidCarrier⟩
  | .custom f => f

inductive IccDisposition where
  | keepSource
  | synthesizeFrom (c : Cicp)
  | drop
  deriving DecidableEq, Repr

structure ColorEmitPlan where
  cicp : Option Cicp
  icc : IccDisposition
  deriving DecidableEq, Repr

/-! ### The decision -/

section Decision

variable (z : PixelCrate)

/-- The description that decides the colour of an image. -/
def authoritative (src : SourceColor) : Option AuthoritativeColor :=
  z.select src.colorAuthority (src.iccProfile.map .icc) (src.cicp.map .cicp)

/-- The code points that a profile stands for. -/
def cicpOfIcc (profile : Bytes) : Option Cicp := (z.fromIcc profile).or (z.identified profile)

def representableCicp (src : SourceColor) : Option Cicp :=
  (authoritative z src).bind fun
    | .icc profile => cicpOfIcc z profile
    | .cicp c => some c

def iccModel (src : SourceColor) : Option ColorModel := src.iccProfile.bind z.model

def isGray (src : SourceColor) : Bool :=
  iccModel z src = some .gray || src.channelCount = some 1

def isCmyk (src : SourceColor) : Bool := iccModel z src = some .cmyk

/-- Whether to write code points. -/
def emitCicp (src : SourceColor) (target : EncodeCapabilities) (policy : ColorEmitPolicy) : Bool :=
  if policy = .verbatim then target.cicp && src.cicp.isSome
  else
    match policy.fields.cicp with
    | .never => false
    | .whereValidCarrier =>
      target.cicp && target.cicpIsValidCarrier && (representableCicp z src).isSome
    | .whereverSupported => target.cicp && (representableCicp z src).isSome

/-- Whether to drop the profile of the source. -/
def dropIcc (src : SourceColor) (target : EncodeCapabilities) (policy : ColorEmitPolicy) : Bool :=
  let emitted := emitCicp z src target policy
  let represents := (representableCicp z src).isSome
  let iccIsSrgb := src.iccProfile.any z.isCommonSrgb
  let byRule :=
    match policy.fields.icc with
    | .drop => true
    | .keep => false
    | .keepNonSrgb => iccIsSrgb
    | .dropIfCicpRepresentable => emitted && represents
    | .dropIfCicpSafeSoleCarrier => emitted && target.cicpSafeSoleCarrier && represents
  if policy = .balanced then byRule || (emitted && iccIsSrgb) else byRule

/-- What readers assume without a description. -/
def Cicp.isAssumedDefault (c : Cicp) : Bool :=
  ((c.colorPrimaries = 1 || c.colorPrimaries = 2)
      && (c.transferCharacteristics = 2 || c.transferCharacteristics = 13))
    || (c.colorPrimaries = 2 && c.transferCharacteristics = 1)

/-- The profile to synthesize where the source has none. -/
def synthesized (src : SourceColor) (target : EncodeCapabilities) (policy : ColorEmitPolicy) :
    IccDisposition :=
  match (representableCicp z src).filter fun c => !c.isAssumedDefault with
  | none => .drop
  | some c =>
    if !emitCicp z src target policy && policy ≠ .verbatim then .synthesizeFrom c
    else if policy = .compatibility || (policy = .balanced && !target.cicpSafeSoleCarrier) then
      .synthesizeFrom c
    else .drop

def resolveColorEmit (src : SourceColor) (target : EncodeCapabilities)
    (policy : ColorEmitPolicy) : ColorEmitPlan :=
  if isGray z src || isCmyk z src then
    { cicp := none
      icc := if src.iccProfile.isSome then .keepSource else .drop }
  else
    { cicp :=
        if emitCicp z src target policy then
          if policy = .verbatim then src.cicp else representableCicp z src
        else none
      icc :=
        if src.iccProfile.isSome then
          if dropIcc z src target policy then .drop else .keepSource
        else synthesized z src target policy }

/-! ### What is asked of it -/

/-- A preset, neither verbatim nor custom. -/
def ColorEmitPolicy.IsPreset (policy : ColorEmitPolicy) : Prop :=
  policy = .compatibility ∨ policy = .balanced ∨ policy = .compact

/-- Gray pixels, with or without alpha. -/
def GraySource (src : SourceColor) : Prop :=
  iccModel z src = some .gray ∨ src.channelCount = some 1 ∨ src.channelCount = some 2

def CmykSource (src : SourceColor) : Prop := iccModel z src = some .cmyk

def RgbSource (src : SourceColor) : Prop := ¬ GraySource z src ∧ ¬ CmykSource z src

/-- The description of authority survives. -/
structure KeepsAuthority (src : SourceColor) (target : EncodeCapabilities) (plan : ColorEmitPlan) :
    Prop where
  icc : ∀ profile, authoritative z src = some (.icc profile) →
    target.icc = true ∧ src.iccProfile = some profile ∧ plan.icc = .keepSource ∨
      ∃ c, cicpOfIcc z profile = some c ∧ plan.cicp = some c
  cicp : ∀ c, authoritative z src = some (.cicp c) → c.isAssumedDefault = false →
    plan.cicp = some c ∨ target.icc = true ∧ plan.icc = .synthesizeFrom c
  not_alone : ∀ c, authoritative z src = some (.cicp c) →
    plan.icc = .keepSource → plan.cicp ≠ none

/-- An RGB source keeps its authority, and no other gets code points. -/
def EmitsFaithfully (src : SourceColor) (target : EncodeCapabilities) (plan : ColorEmitPlan) :
    Prop :=
  (RgbSource z src → KeepsAuthority z src target plan) ∧
    (GraySource z src ∨ CmykSource z src → plan.cicp = none)

/-- Code points can be written, and the preset wants them there. -/
def Carries (target : EncodeCapabilities) (policy : ColorEmitPolicy) : Prop :=
  target.cicp = true ∧ (policy = .compact ∨ target.cicpIsValidCarrier = true)

/-- Code points with authority beside a profile, where they cannot be written. -/
structure Overruled (src : SourceColor) (target : EncodeCapabilities) (policy : ColorEmitPolicy) :
    Prop where
  rgb : RgbSource z src
  cicp : ∃ c, authoritative z src = some (.cicp c)
  profile : src.iccProfile.isSome = true
  refused : ¬ Carries target policy

/-- Gray pixels with alpha, which only their two channels show, on a target that is given code
points. -/
structure GrayWithAlpha (src : SourceColor) (target : EncodeCapabilities)
    (policy : ColorEmitPolicy) : Prop where
  channels : src.channelCount = some 2
  model : iccModel z src ≠ some .gray ∧ iccModel z src ≠ some .cmyk
  represents : (representableCicp z src).isSome = true
  carried : Carries target policy

/-! ### Presets -/

variable {z} {src : SourceColor} {target : EncodeCapabilities} {policy : ColorEmitPolicy}

theorem emitCicp_iff (h : policy.IsPreset) : emitCicp z src target policy = true ↔
    Carries target policy ∧ (representableCicp z src).isSome = true := by
  rcases h with rfl | rfl | rfl <;>
    simp [emitCicp, Carries, ColorEmitPolicy.fields, and_assoc]

/-- A preset drops a profile only for code points that are written. -/
theorem emitCicp_of_dropIcc (h : policy.IsPreset) (hdrop : dropIcc z src target policy = true) :
    emitCicp z src target policy = true := by
  rcases h with rfl | rfl | rfl
  · simp [dropIcc, ColorEmitPolicy.fields] at hdrop
  · simp only [dropIcc, ColorEmitPolicy.fields, if_true, Bool.or_eq_true, Bool.and_eq_true] at hdrop
    rcases hdrop with hdrop | hdrop
    · exact hdrop.1.1
    · exact hdrop.1
  · simp only [dropIcc, ColorEmitPolicy.fields, reduceCtorEq, if_false, Bool.and_eq_true] at hdrop
    exact hdrop.1

theorem IsPreset.ne_verbatim (h : policy.IsPreset) : policy ≠ .verbatim := by
  rcases h with rfl | rfl | rfl <;> simp

/-- The plan for a source that the code takes for RGB. -/
theorem resolve_rgb (h : policy.IsPreset) (hsrc : isGray z src = false ∧ isCmyk z src = false) :
    resolveColorEmit z src target policy =
      { cicp := if emitCicp z src target policy then representableCicp z src else none
        icc :=
          if src.iccProfile.isSome then
            if dropIcc z src target policy then .drop else .keepSource
          else synthesized z src target policy } := by
  simp only [resolveColorEmit, hsrc.1, hsrc.2, Bool.or_self, Bool.false_eq_true, if_false,
    IsPreset.ne_verbatim h]

theorem authoritative_icc {profile : Bytes}
    (h : authoritative z src = some (.icc profile)) : src.iccProfile = some profile := by
  unfold authoritative at h
  cases hauth : src.colorAuthority with
  | icc =>
    rw [hauth, z.select_icc] at h
    cases hicc : src.iccProfile <;> cases hc : src.cicp <;> simp_all
  | cicp =>
    rw [hauth, z.select_cicp] at h
    cases hicc : src.iccProfile <;> cases hc : src.cicp <;> simp_all

theorem representable_of_cicp {c : Cicp} (h : authoritative z src = some (.cicp c)) :
    representableCicp z src = some c := by
  rw [representableCicp, h]
  rfl

theorem representable_of_icc {profile : Bytes} (h : authoritative z src = some (.icc profile)) :
    representableCicp z src = cicpOfIcc z profile := by
  rw [representableCicp, h]
  rfl

/-- Only a profile of the source is kept. -/
theorem synthesized_ne_keepSource : synthesized z src target policy ≠ .keepSource := by
  unfold synthesized
  split
  · simp
  · split
    · simp
    · split <;> simp

/-- Code points that are not written are synthesized into a profile. -/
theorem synthesized_of_not_emitted {c : Cicp} (h : policy.IsPreset)
    (hc : representableCicp z src = some c) (hdefault : c.isAssumedDefault = false)
    (hemit : emitCicp z src target policy = false) :
    synthesized z src target policy = .synthesizeFrom c := by
  have hfilter : (representableCicp z src).filter (fun c => !c.isAssumedDefault) = some c := by
    rw [hc, Option.filter_some, hdefault]
    rfl
  rw [synthesized, hfilter]
  simp [hemit, IsPreset.ne_verbatim h]

/-! ### RGB sources -/

/-- An authoritative profile survives every preset. -/
theorem resolve_icc (h : policy.IsPreset) (hsrc : isGray z src = false ∧ isCmyk z src = false)
    {profile : Bytes} (hauth : authoritative z src = some (.icc profile)) :
    (resolveColorEmit z src target policy).icc = .keepSource ∨
      ∃ c, cicpOfIcc z profile = some c ∧
        (resolveColorEmit z src target policy).cicp = some c := by
  have hicc : src.iccProfile.isSome = true := by rw [authoritative_icc hauth]; rfl
  rw [resolve_rgb h hsrc]
  cases hdrop : dropIcc z src target policy with
  | false => exact .inl (by simp [hicc])
  | true =>
    have hemit := emitCicp_of_dropIcc h hdrop
    obtain ⟨c, hc⟩ := Option.isSome_iff_exists.mp ((emitCicp_iff h).mp hemit).2
    rw [representable_of_icc hauth] at hc
    refine .inr ⟨c, hc, ?_⟩
    simp only [hemit, if_true, representable_of_icc hauth, hc]

/-- Authoritative code points survive where they are written, or there is no profile. -/
theorem resolve_cicp (h : policy.IsPreset) (hsrc : isGray z src = false ∧ isCmyk z src = false)
    {c : Cicp} (hauth : authoritative z src = some (.cicp c))
    (hfree : src.iccProfile.isSome = true → Carries target policy) :
    (c.isAssumedDefault = false → (resolveColorEmit z src target policy).cicp = some c ∨
      (resolveColorEmit z src target policy).icc = .synthesizeFrom c) ∧
    ((resolveColorEmit z src target policy).icc = .keepSource →
      (resolveColorEmit z src target policy).cicp = some c) := by
  have hrepr := representable_of_cicp hauth
  rw [resolve_rgb h hsrc]
  cases hemit : emitCicp z src target policy with
  | true => exact ⟨fun _ => .inl hrepr, fun _ => hrepr⟩
  | false =>
    have hno : src.iccProfile.isSome = false := by
      cases hicc : src.iccProfile.isSome with
      | false => rfl
      | true =>
        have htrue := (emitCicp_iff (z := z) h).mpr ⟨hfree hicc, by rw [hrepr]; rfl⟩
        exact absurd htrue (by simp [hemit])
    simp only [hno, Bool.false_eq_true, if_false]
    exact ⟨fun hdefault => .inr (synthesized_of_not_emitted h hrepr hdefault hemit),
      fun hkeep => absurd hkeep synthesized_ne_keepSource⟩

/-- Elsewhere the profile is kept alone. -/
theorem resolve_overruled (h : policy.IsPreset)
    (hsrc : isGray z src = false ∧ isCmyk z src = false) (hicc : src.iccProfile.isSome = true)
    (hrefused : ¬ Carries target policy) :
    resolveColorEmit z src target policy = ⟨none, .keepSource⟩ := by
  have hemit : emitCicp z src target policy = false :=
    Bool.eq_false_iff.mpr fun hemit => hrefused ((emitCicp_iff h).mp hemit).1
  have hdrop : dropIcc z src target policy = false :=
    Bool.eq_false_iff.mpr fun hdrop => by
      rw [emitCicp_of_dropIcc h hdrop] at hemit
      cases hemit
  rw [resolve_rgb h hsrc]
  simp [hemit, hdrop, hicc]

theorem isGray_eq_false : isGray z src = false ↔
    iccModel z src ≠ some .gray ∧ src.channelCount ≠ some 1 := by
  simp [isGray]

theorem isCmyk_eq_false : isCmyk z src = false ↔ iccModel z src ≠ some .cmyk := by
  simp [isCmyk]

theorem RgbSource.taken (h : RgbSource z src) : isGray z src = false ∧ isCmyk z src = false :=
  ⟨isGray_eq_false.mpr ⟨fun hm => h.1 (.inl hm), fun hc => h.1 (.inr (.inl hc))⟩,
    isCmyk_eq_false.mpr h.2⟩

/-- An RGB source keeps its authority unless its code points are overruled. -/
theorem keepsAuthority_iff (h : policy.IsPreset) (hicc : target.icc = true)
    (hrgb : RgbSource z src) :
    KeepsAuthority z src target (resolveColorEmit z src target policy) ↔
      ¬ Overruled z src target policy := by
  have hsrc := hrgb.taken
  constructor
  · intro hk hover
    obtain ⟨c, hc⟩ := hover.cicp
    have hplan := resolve_overruled h hsrc hover.profile hover.refused
    exact hk.not_alone c hc (by rw [hplan]) (by rw [hplan])
  · intro hover
    have hfree {c : Cicp} (hc : authoritative z src = some (.cicp c)) :
        src.iccProfile.isSome = true → Carries target policy := fun hprofile =>
      not_not.mp fun hno => hover ⟨hrgb, ⟨c, hc⟩, hprofile, hno⟩
    refine ⟨fun profile hprofile => ?_, fun c hc hdefault => ?_, fun c hc hkeep => ?_⟩
    · exact (resolve_icc h hsrc hprofile).imp
        (fun hkeep => ⟨hicc, authoritative_icc hprofile, hkeep⟩) id
    · exact ((resolve_cicp h hsrc hc (hfree hc)).1 hdefault).imp id fun hsynth => ⟨hicc, hsynth⟩
    · rw [(resolve_cicp h hsrc hc (hfree hc)).2 hkeep]
      simp

/-- No code points are written for gray or CMYK pixels, but for gray ones with alpha. -/
theorem suppressed_iff (h : policy.IsPreset) (hsource : GraySource z src ∨ CmykSource z src) :
    (resolveColorEmit z src target policy).cicp = none ↔
      ¬ GrayWithAlpha z src target policy := by
  by_cases htaken : isGray z src = false ∧ isCmyk z src = false
  · have hgray := isGray_eq_false.mp htaken.1
    have hcmyk := isCmyk_eq_false.mp htaken.2
    have htwo : src.channelCount = some 2 := by
      rcases hsource with (hm | hone | htwo) | hm
      · exact absurd hm hgray.1
      · exact absurd hone hgray.2
      · exact htwo
      · exact absurd hm hcmyk
    rw [resolve_rgb h htaken]
    cases hemit : emitCicp z src target policy with
    | true =>
      obtain ⟨hcarries, hsome⟩ := (emitCicp_iff h).mp hemit
      refine iff_of_false (fun hnone => ?_) (not_not.mpr ⟨htwo, ⟨hgray.1, hcmyk⟩, hsome, hcarries⟩)
      have hlost : representableCicp z src = none := hnone
      rw [hlost] at hsome
      cases hsome
    | false =>
      refine iff_of_true rfl fun halpha => ?_
      rw [(emitCicp_iff h).mpr ⟨halpha.carried, halpha.represents⟩] at hemit
      cases hemit
  · have hor : (isGray z src || isCmyk z src) = true := by
      by_contra hno
      rw [Bool.not_eq_true, Bool.or_eq_false_iff] at hno
      exact htaken hno
    refine iff_of_true (by rw [resolveColorEmit, if_pos hor]) fun halpha => htaken ⟨?_, ?_⟩
    · refine isGray_eq_false.mpr ⟨halpha.model.1, ?_⟩
      rw [halpha.channels]
      simp
    · exact isCmyk_eq_false.mpr halpha.model.2

theorem Overruled.not_gray (h : Overruled z src target policy) :
    ¬ (GraySource z src ∨ CmykSource z src) :=
  fun hsource => hsource.elim h.rgb.1 h.rgb.2

theorem GrayWithAlpha.gray (h : GrayWithAlpha z src target policy) : GraySource z src :=
  .inr (.inr h.channels)

end Decision

/-- Where the target has a carrier for profiles, a preset keeps every authority and marks no gray
or CMYK pixels, except in two situations. -/
theorem resolveColorEmit_iff (z : PixelCrate) (src : SourceColor) (target : EncodeCapabilities)
    (policy : ColorEmitPolicy) (h : policy.IsPreset) (hicc : target.icc = true) :
    EmitsFaithfully z src target (resolveColorEmit z src target policy) ↔
      ¬ (Overruled z src target policy ∨ GrayWithAlpha z src target policy) := by
  by_cases hsource : GraySource z src ∨ CmykSource z src
  · -- the pixels are not RGB, so only the second situation can arise
    have hrgb : ¬ RgbSource z src := fun hrgb => hsource.elim hrgb.1 hrgb.2
    constructor
    · rintro ⟨-, hnone⟩ (hover | halpha)
      · exact hover.not_gray hsource
      · exact (suppressed_iff h hsource).mp (hnone hsource) halpha
    · intro hno
      exact ⟨fun hr => absurd hr hrgb,
        fun _ => (suppressed_iff h hsource).mpr fun halpha => hno (.inr halpha)⟩
  · have hrgb : RgbSource z src := not_or.mp hsource
    constructor
    · rintro ⟨hkeeps, -⟩ (hover | halpha)
      · exact (keepsAuthority_iff h hicc hrgb).mp (hkeeps hrgb) hover
      · exact hrgb.1 halpha.gray
    · intro hno
      exact ⟨fun _ => (keepsAuthority_iff h hicc hrgb).mpr fun hover => hno (.inl hover),
        fun hs => absurd hs hsource⟩

/-! ### Two images -/

/-- Profiles are told apart by their first byte: 1 is gray, 2 is CMYK, and 3 is sRGB. -/
def firstByteCrate : PixelCrate where
  fromIcc _ := none
  identified profile := if profile.head? = some 3 then some ⟨1, 13, 0, true⟩ else none
  isCommonSrgb profile := profile.head? = some 3
  model profile :=
    match profile.head? with
    | some 1 => some .gray
    | some 2 => some .cmyk
    | some _ => some .other
    | none => none
  select authority icc cicp :=
    match authority with
    | .icc => icc.or cicp
    | .cicp => cicp.or icc
  select_icc _ _ := rfl
  select_cicp _ _ := rfl

/-- Display P3 by its code points, beside an sRGB profile that they overrule. -/
def displayP3 : SourceColor where
  cicp := some ⟨12, 13, 0, true⟩
  iccProfile := some [3]
  colorAuthority := .cicp
  channelCount := some 3

/-- Gray pixels with alpha, and code points. -/
def grayAlpha : SourceColor where
  cicp := some ⟨1, 13, 0, true⟩
  iccProfile := none
  colorAuthority := .cicp
  channelCount := some 2

/-- A target that carries profiles only. -/
def profilesOnly : EncodeCapabilities := ⟨true, false, false, false⟩

/-- A target that carries both. -/
def bothCarriers : EncodeCapabilities := ⟨true, true, true, false⟩

theorem displayP3_rgb : RgbSource firstByteCrate displayP3 := by
  have hmodel : iccModel firstByteCrate displayP3 = some .other := rfl
  rw [RgbSource, GraySource, CmykSource, hmodel]
  simp [displayP3]

/-- The code points can be written, so the profile gives way. -/
theorem resolveColorEmit_iff_displayP3 :
    EmitsFaithfully firstByteCrate displayP3 bothCarriers
      (resolveColorEmit firstByteCrate displayP3 bothCarriers .balanced) :=
  (resolveColorEmit_iff firstByteCrate displayP3 bothCarriers .balanced (.inr (.inl rfl)) rfl).mpr
    fun h => h.elim (fun hover => hover.refused ⟨rfl, .inr rfl⟩)
      fun halpha => absurd halpha.channels (by decide)

/-- Here the wide image is written with the sRGB profile alone, and the gray one with code
points. -/
theorem resolveColorEmit_loses :
    (RgbSource firstByteCrate displayP3 ∧
      ¬ EmitsFaithfully firstByteCrate displayP3 profilesOnly
        (resolveColorEmit firstByteCrate displayP3 profilesOnly .balanced)) ∧
    GraySource firstByteCrate grayAlpha ∧
      ¬ EmitsFaithfully firstByteCrate grayAlpha bothCarriers
        (resolveColorEmit firstByteCrate grayAlpha bothCarriers .balanced) := by
  refine ⟨⟨displayP3_rgb, fun h => ?_⟩, .inr (.inr rfl), fun h => ?_⟩
  · exact (h.1 displayP3_rgb).not_alone ⟨12, 13, 0, true⟩ rfl (by decide) (by decide)
  · exact absurd (h.2 (.inl (.inr (.inr rfl)))) (by decide)

end Zencodec.Color
