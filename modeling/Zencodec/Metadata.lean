/-
Metadata records and their retention policy.

`Metadata.filtered` keeps what a policy keeps and reconciles the orientation tag
of the EXIF blob with the orientation field.

* `filtered_filtered` — filtering twice is filtering once;
* `filtered_orientation` — the tag and the field agree, up to the two blobs the patch
  in place leaves alone.

Colour signalling only passes through, so its types are parameters, and so is the
recognizer of redundant sRGB profiles.
-/
import Zencodec.Exif.Reconcile

open Slices

namespace Zencodec

open Exif

/-- How to treat the ICC profile. -/
inductive IccRetention
  | drop
  | keepNonSrgb
  | keep
  /-- Resolved against an encode target; filtering keeps the profile. -/
  | dropIfCicpRepresentable
  /-- Resolved against an encode target; filtering keeps the profile. -/
  | dropIfCicpSafeSoleCarrier
  deriving DecidableEq, Repr

/-- Retention per field. -/
structure MetadataFields where
  icc : IccRetention
  exif : ExifPolicy
  xmp : Retention
  cicp : Retention
  hdr : Retention
  deriving DecidableEq, Repr

def MetadataFields.keepAll : MetadataFields where
  icc := .keep
  exif := .keepAll
  xmp := .keep
  cicp := .keep
  hdr := .keep

inductive MetadataPolicy
  | preserveExact
  | preserve
  | web
  | colorAndRotation
  | custom (fields : MetadataFields)
  deriving DecidableEq, Repr

/-- The policy as its retention per field. -/
def MetadataPolicy.fields : MetadataPolicy → MetadataFields
  | .preserveExact => .keepAll
  | .preserve => { MetadataFields.keepAll with icc := .keepNonSrgb }
  | .web => ⟨.keepNonSrgb, .attributedOrientation, .discard, .keep, .keep⟩
  | .colorAndRotation => ⟨.keepNonSrgb, .orientationOnly, .discard, .keep, .keep⟩
  | .custom f => f

/-- Image metadata.  `O` is the orientation type, the other parameters are the types of
the colour signalling. -/
structure Metadata (O Cicp Clli Mdcv White : Type) where
  iccProfile : Option Bytes
  exif : Option Bytes
  xmp : Option Bytes
  cicp : Option Cicp
  contentLightLevel : Option Clli
  masteringDisplay : Option Mdcv
  diffuseWhite : Option White
  orientation : O
  deriving DecidableEq

namespace Metadata

variable {O Cicp Clli Mdcv White : Type} [Orientation O] [DecidableEq O]

/-- Apply a retention policy. -/
def filtered (isCommonSrgb : Bytes → Bool) (m : Metadata O Cicp Clli Mdcv White)
    (policy : MetadataPolicy) : Metadata O Cicp Clli Mdcv White :=
  let f := policy.fields
  let orientation := if f.exif.orientation.keeps then m.orientation else Orientation.identity
  { iccProfile :=
      match f.icc with
      | .drop => none
      | .keep => m.iccProfile
      | .dropIfCicpRepresentable => m.iccProfile
      | .dropIfCicpSafeSoleCarrier => m.iccProfile
      | .keepNonSrgb => m.iccProfile.filter fun icc => !isCommonSrgb icc
    orientation
    cicp := if f.cicp.keeps then m.cicp else none
    contentLightLevel := if f.hdr.keeps then m.contentLightLevel else none
    masteringDisplay := if f.hdr.keeps then m.masteringDisplay else none
    diffuseWhite := if f.hdr.keeps then m.diffuseWhite else none
    xmp := if f.xmp.keeps then m.xmp else none
    exif := m.exif.bind fun src =>
      (retainReconciled src f.exif (some orientation)).map fun r => r.bytes src }

variable {isCommonSrgb : Bytes → Bool}

/-- A field that is kept or dropped is so once. -/
theorem ite_ite_none {α : Type} (b : Bool) (a : Option α) :
    (if b then (if b then a else none) else none) = if b then a else none := by
  cases b <;> rfl

/-- Retaining the EXIF blob again changes nothing. -/
theorem exif_idem [LawfulOrientation O] (exif : Option Bytes) (policy : ExifPolicy) (o : O) :
    ((exif.bind fun src => (retainReconciled src policy (some o)).map fun r => r.bytes src).bind
      fun src => (retainReconciled src policy (some o)).map fun r => r.bytes src) =
    exif.bind fun src => (retainReconciled src policy (some o)).map fun r => r.bytes src := by
  cases exif with
  | none => rfl
  | some src =>
    rw [Option.bind_some]
    cases hr : retainReconciled src policy (some o) with
    | none => rfl
    | some r =>
      obtain ⟨r', hr', hbytes⟩ := retain_idem hr
      rw [Option.map_some, Option.bind_some, hr', Option.map_some, hbytes]

/-- **Filtering is idempotent.** -/
theorem filtered_filtered [LawfulOrientation O] (isCommonSrgb : Bytes → Bool)
    (m : Metadata O Cicp Clli Mdcv White) (policy : MetadataPolicy) :
    (m.filtered isCommonSrgb policy).filtered isCommonSrgb policy =
      m.filtered isCommonSrgb policy := by
  have horientation : (m.filtered isCommonSrgb policy).orientation =
      if policy.fields.exif.orientation.keeps then m.orientation else Orientation.identity := rfl
  have hkept : (if policy.fields.exif.orientation.keeps
      then (m.filtered isCommonSrgb policy).orientation else Orientation.identity) =
      (m.filtered isCommonSrgb policy).orientation := by
    rw [horientation]
    cases policy.fields.exif.orientation.keeps <;> rfl
  have hexif := exif_idem m.exif policy.fields.exif (m.filtered isCommonSrgb policy).orientation
  rw [filtered, hkept]
  rw [filtered, Metadata.mk.injEq]
  refine ⟨?_, hexif, ite_ite_none _ _, ite_ite_none _ _, ite_ite_none _ _, ite_ite_none _ _,
    ite_ite_none _ _, rfl⟩
  cases policy.fields.icc with
  | keepNonSrgb => simp [Option.filter_filter]
  | _ => rfl

/-- Metadata with the sample blob, whose tag reads `rotate90`, and the orientation `t`. -/
def sample (t : Turn) : Metadata Turn Unit Unit Unit Unit :=
  ⟨none, some sampleBlob, none, none, none, none, none, t⟩

theorem filtered_filtered_sample :
    ((sample .flipH).filtered (fun _ => false) .preserve).filtered (fun _ => false) .preserve =
      (sample .flipH).filtered (fun _ => false) .preserve :=
  filtered_filtered _ _ _

/-! ### Orientation -/

/-- **No double rotation.**  A tag that is read agrees with the field, unless every EXIF
category is kept and the source blob passes through because it is too long to parse or
stores its orientation out of line. -/
theorem filtered_orientation [LawfulOrientation O] (isCommonSrgb : Bytes → Bool)
    (m : Metadata O Cicp Clli Mdcv White) (policy : MetadataPolicy) (blob : Bytes)
    (x : Exif (tiffOf blob)) (t : O) (hblob : (m.filtered isCommonSrgb policy).exif = some blob)
    (hx : parse blob = some x) (ht : x.orientation = some t) :
    t = (m.filtered isCommonSrgb policy).orientation ∨
      policy.fields.exif.keepsEverything ∧ m.exif = some blob ∧ (u32Max < blob.length ∨
        ∃ e s, x.orientationEntry = some e ∧ typeSize e.kind = some s ∧
          4 < e.count.toNat * s) := by
  obtain ⟨src, hsrc, hmap⟩ := Option.bind_eq_some_iff.mp hblob
  obtain ⟨r, hr, rfl⟩ := Option.map_eq_some_iff.mp hmap
  rcases retain_orientation hr hx ht with rfl | ⟨hk, rfl, hwhy⟩
  · exact .inl rfl
  · exact .inr ⟨hk, hsrc, hwhy⟩

theorem exif_sample : ((sample .flipH).filtered (fun _ => false) .web).exif.isSome := by decide

theorem parse_sample :
    (parse (((sample .flipH).filtered (fun _ => false) .web).exif.get exif_sample)).isSome := by
  decide

theorem filtered_orientation_sample : ∃ blob x, ∃ t : Turn,
    ((sample .flipH).filtered (fun _ => false) .web).exif = some blob ∧
      parse blob = some x ∧ x.orientation = some t ∧
      t = ((sample .flipH).filtered (fun _ => false) .web).orientation := by
  have hblob := (Option.some_get exif_sample).symm
  have hx := (Option.some_get parse_sample).symm
  have ht : ((parse (((sample .flipH).filtered (fun _ => false) .web).exif.get
      exif_sample)).get parse_sample).orientation = some Turn.flipH := by decide
  refine ⟨_, _, _, hblob, hx, ht, ?_⟩
  exact (filtered_orientation _ _ .web _ _ _ hblob hx ht).resolve_right
    fun h => absurd h.1 (by decide)

/-- An orientation of three SHORTs, out of line: `[6, 0, 0]`. -/
def outOfLineBlob : Bytes :=
  [0x49, 0x49, 42, 0, 8, 0, 0, 0, 1, 0,
    0x12, 0x01, 3, 0, 3, 0, 0, 0, 26, 0, 0, 0,
    0, 0, 0, 0, 6, 0, 0, 0, 0, 0]

/-- The patch in place leaves an out-of-line orientation, which then disagrees with the
field. -/
theorem filtered_orientation_outOfLine :
    ¬ ∀ (m : Metadata Turn Unit Unit Unit Unit) (policy : MetadataPolicy) (blob : Bytes)
      (x : Exif (tiffOf blob)) (t : Turn),
      (m.filtered (fun _ => false) policy).exif = some blob → parse blob = some x →
        x.orientation = some t → t = (m.filtered (fun _ => false) policy).orientation := by
  intro h
  have hparse : (parse outOfLineBlob).isSome := by decide
  have hx := (Option.some_get hparse).symm
  have hne := h ⟨none, some outOfLineBlob, none, none, none, none, none, .identity⟩
    .preserveExact outOfLineBlob _ .rotate90 (by decide) hx (by decide +revert)
  exact absurd hne (by decide)

end Metadata

end Zencodec
