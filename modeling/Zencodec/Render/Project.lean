/-
Projection of a stored image onto its canvas.

An image holds the samples of a rectangle of a stored canvas, with an orientation still to be
applied: one of the eight symmetries of a grid. `project` gives a rectangle of the oriented
canvas: it maps the rectangle back, takes the stored samples there, and orients them.

* `project_ok` — it gives the samples of the positions that the inverse orientation maps to;
* `project_refuses` — it fails unless the rectangle lies in the canvas and what it needs is stored;
* `project_exact` — both, and one projection after another is the second alone.
-/
import Zencodec.Lib.Act
import Zencodec.Lib.Symmetry
import Zencodec.Operation.Collection

namespace Zencodec.Render

open Operation (Composition)

structure ImageGeometry where
  canvasWidth : ℕ
  canvasHeight : ℕ
  region : Rect
  deriving DecidableEq

inductive AuxiliaryGrid where
  | unknown
  | colorSamples
  deriving DecidableEq

/-- A plane of samples, with the layout of its rows. -/
structure Raster (σ : Type) where
  width : ℕ
  height : ℕ
  stride : ℕ
  bytesPerPixel : ℕ
  sample : ℕ → ℕ → σ

structure AuxiliaryPlane (ρ σ : Type) where
  role : ρ
  values : Raster σ
  grid : AuxiliaryGrid

/-- The same plane with projected values. -/
def AuxiliaryPlane.replace {ρ σ : Type} (p : AuxiliaryPlane ρ σ) (values : Raster σ) :
    AuxiliaryPlane ρ σ :=
  ⟨p.role, values, .colorSamples⟩

/-- The geometry and the orientation before a projection. -/
structure ProjectionSource where
  geometry : ImageGeometry
  orientation : Symmetry

/-- `ImageInterpretation`, as far as a projection reads or changes it; `π` is a placement. -/
structure ImageInterpretation (π : Type) where
  geometry : ImageGeometry
  composition : Option Composition
  placement : Option π
  orientation : Option Symmetry
  /-- There are component facts, a source frame, or presentation facts. -/
  signal : Bool
  sourceFrame : Bool
  presentation : Bool
  projection : Option ProjectionSource

inductive Refusal where
  | composition (actual : Option Composition)
  | placement
  | interpretation
  | missingStoredRegion (required available : Rect)
  | auxiliaryGrid (index : ℕ) (dimensions : ℕ × ℕ) (registration : AuxiliaryGrid)

inductive OutputError where
  | region (g : ImageGeometry)
  | placement
  | interpretation
  | geometry
  | auxiliaryGrid (index : ℕ)
  | missingPlane

inductive Cause where
  | refusal (r : Refusal)
  | geometry (g : ImageGeometry)
  | output (e : OutputError)
  /-- The pixel crate refuses a view. -/
  | view
  | sizeOverflow
  | storage
  | cancelled

/-- Sums of 32-bit numbers that do not fit are above every canvas. -/
def ImageGeometry.validate (g : ImageGeometry) : Bool :=
  !(g.region.width = 0 || g.region.height = 0 ||
    g.canvasWidth < g.region.x + g.region.width || g.canvasHeight < g.region.y + g.region.height)

theorem ImageGeometry.validate_iff (g : ImageGeometry) :
    g.validate = true ↔ g.region.Fits g.canvasWidth g.canvasHeight := by
  constructor
  · intro h
    simp only [validate, Bool.not_eq_true', Bool.or_eq_false_iff, decide_eq_false_iff_not] at h
    exact ⟨by omega, by omega, by omega, by omega⟩
  · rintro ⟨hw, hh, hr, hb⟩
    simp only [validate, Bool.not_eq_true', Bool.or_eq_false_iff, decide_eq_false_iff_not]
    omega

/-- Packed colour with its auxiliary planes, as the constructors of `ImageOutput` check them. -/
structure ImageOutput (π ρ σ : Type) where
  color : Raster σ
  auxiliaries : List (AuxiliaryPlane ρ σ)
  interpretation : ImageInterpretation π
  fits : interpretation.geometry.validate = true
  color_dims : (color.width, color.height) =
    (interpretation.geometry.region.width, interpretation.geometry.region.height)
  grid_dims : ∀ p ∈ auxiliaries, p.grid = .colorSamples →
    (p.values.width, p.values.height) = (color.width, color.height)

/-! ### Rasters -/

namespace Raster

variable {σ : Type} (a : Raster σ)

/-- `crop_view`, which panics outside the raster. -/
def cropView (x y width height : ℕ) : Option (Raster σ) :=
  if x + width ≤ a.width ∧ y + height ≤ a.height then
    some { a with width := width, height := height, sample := fun i j => a.sample (x + i) (y + j) }
  else none

/-- `oriented_into`, for a destination of the oriented size. -/
def orientedInto (orientation : Symmetry) (width height stride : ℕ) : Option (Raster σ) :=
  if (width, height) = orientation.dims a.width a.height then
    some
      { width := width
        height := height
        stride := stride
        bytesPerPixel := a.bytesPerPixel
        sample := fun i j =>
          a.sample (orientation.inverse.map i j width height).1
            (orientation.inverse.map i j width height).2 }
  else none

end Raster

/-! ### The projection -/

/-- What a projection calls: control, storage, and the pixel crate. -/
structure Surroundings (Ω π σ : Type) where
  check : Act Ω Cause Unit
  /-- `StorageBudget::filled`, with a number of words. -/
  filled : ℕ → Act Ω Cause Unit
  /-- `PixelSlice::new` accepts the layout of auxiliary values. -/
  viewable : Raster σ → Bool
  /-- `Placement::visible` -/
  visible : π → ImageGeometry → Bool

section Projection

variable {Ω π ρ σ : Type} (z : Surroundings Ω π σ)

/-- A product that fits `usize`. -/
def sized (n : ℕ) : Act Ω Cause ℕ := Act.getOr (if n < 2 ^ 64 then some n else none) .sizeOverflow

/-- One auxiliary plane as pixels. -/
def auxiliaryView (available : Rect) (p : AuxiliaryPlane ρ σ × ℕ) :
    Act Ω Cause (Raster σ) := do
  Act.require (decide (p.1.grid = .colorSamples ∧
    (p.1.values.width, p.1.values.height) = (available.width, available.height)))
    (.refusal (.auxiliaryGrid p.2 (p.1.values.width, p.1.values.height) p.1.grid))
  Act.require (z.viewable p.1.values) .view
  Act.pure p.1.values

/-- One plane of the result. -/
def projectPlane (orientation : Symmetry) (required available region : Rect) (pixels : Raster σ) :
    Act Ω Cause (Raster σ) := do
  z.check
  -- the next multiple of eight pixels
  let stride ← sized ((region.width + 8) / 8 * 8 * pixels.bytesPerPixel)
  let bytes ← sized (stride * region.height)
  z.filled (bytes / 8)
  let selected ← Act.getOr (pixels.cropView (required.x - available.x) (required.y - available.y)
    required.width required.height) .view
  let plane ← Act.getOr (selected.orientedInto orientation region.width region.height stride) .view
  z.check
  Act.pure plane

/-- `ImageOutput::from_packed_owner` -/
def fromPackedOwner (color : Raster σ) (auxiliaries : List (AuxiliaryPlane ρ σ))
    (interpretation : ImageInterpretation π) : Except OutputError (ImageOutput π ρ σ) :=
  if interpretation.presentation = true ∧ interpretation.sourceFrame = false then
    .error .interpretation
  else if hfits : interpretation.geometry.validate = true then
    if interpretation.placement.all (z.visible · interpretation.geometry) then
      if interpretation.orientation.isNone ∨ interpretation.signal = true then
        .error .interpretation
      else if hcolor : (color.width, color.height) =
          (interpretation.geometry.region.width, interpretation.geometry.region.height) then
        if hgrid : ∀ p ∈ auxiliaries, p.grid = .colorSamples →
            (p.values.width, p.values.height) = (color.width, color.height) then
          .ok ⟨color, auxiliaries, interpretation, hfits, hcolor, hgrid⟩
        else .error (.auxiliaryGrid (auxiliaries.findIdx fun p => decide (p.grid = .colorSamples ∧
          (p.values.width, p.values.height) ≠ (color.width, color.height))))
      else .error .geometry
    else .error .placement
  else .error (.region interpretation.geometry)

def project (image : ImageOutput π ρ σ) (region : Option Rect) :
    Act Ω Cause (ImageOutput π ρ σ) := do
  z.check
  let source := image.interpretation
  Act.require (decide (source.composition = some .composited))
    (.refusal (.composition source.composition))
  Act.require source.placement.isNone (.refusal .placement)
  Act.require (!(source.signal || source.presentation)) (.refusal .interpretation)
  let orientation ← Act.getOr source.orientation (.refusal .interpretation)
  Act.require source.geometry.validate (.geometry source.geometry)
  let canvas := orientation.dims source.geometry.canvasWidth source.geometry.canvasHeight
  let region := region.getD ⟨0, 0, canvas.1, canvas.2⟩
  let geometry : ImageGeometry := ⟨canvas.1, canvas.2, region⟩
  Act.require geometry.validate (.geometry geometry)
  -- the corners, mapped back
  let required := orientation.inverse.mapRect region canvas.1 canvas.2
  let available := source.geometry.region
  Act.require (decide (available.x ≤ required.x ∧ available.y ≤ required.y ∧
    required.x + required.width ≤ available.x + available.width ∧
    required.y + required.height ≤ available.y + available.height))
    (.refusal (.missingStoredRegion required available))
  let views ← Act.collect (auxiliaryView z available) (image.auxiliaries.zipIdx 1)
  let color ← projectPlane z orientation required available region image.color
  let extras ← Act.collect (projectPlane z orientation required available region) views
  let out ← Act.mapError .output (Act.lift (fromPackedOwner z color
    (List.zipWith AuxiliaryPlane.replace image.auxiliaries extras)
    { source with
      geometry := geometry
      orientation := some .identity
      projection := some ⟨source.geometry, orientation⟩ }))
  z.check
  Act.pure out

/-! ### What is asked of it -/

/-- Storage suffices, nothing is cancelled, and padded planes can be viewed. -/
structure Surroundings.Obliging : Prop where
  check : ∀ ω, ∃ ω', z.check ω = (.ok (), ω')
  filled : ∀ n ω, ∃ ω', z.filled n ω = (.ok (), ω')
  padded : ∀ a : Raster σ, a.width * a.bytesPerPixel ≤ a.stride →
    a.bytesPerPixel * 8 ∣ a.stride → z.viewable a = true

/-- A composited image with orientation `o` and nothing else to be applied. -/
structure Ready (image : ImageOutput π ρ σ) (o : Symmetry) : Prop where
  composition : image.interpretation.composition = some .composited
  placement : image.interpretation.placement = none
  signal : image.interpretation.signal = false
  presentation : image.interpretation.presentation = false
  orientation : image.interpretation.orientation = some o
  grid : ∀ p ∈ image.auxiliaries, p.grid = .colorSamples
  viewable : ∀ p ∈ image.auxiliaries, z.viewable p.values = true

/-- The oriented canvas. -/
def canvas (image : ImageOutput π ρ σ) (o : Symmetry) : ℕ × ℕ :=
  o.dims image.interpretation.geometry.canvasWidth image.interpretation.geometry.canvasHeight

/-- The requested rectangle, or the whole canvas. -/
def requested (image : ImageOutput π ρ σ) (o : Symmetry) (region : Option Rect) : Rect :=
  region.getD ⟨0, 0, (canvas image o).1, (canvas image o).2⟩

/-- The position of the stored canvas that is shown at a position of the oriented canvas. -/
def preimage (image : ImageOutput π ρ σ) (o : Symmetry) (x y : ℕ) : ℕ × ℕ :=
  o.inverse.map x y (canvas image o).1 (canvas image o).2

/-- The rectangle lies in the canvas and is not empty, and what it shows is stored. -/
structure Showable (image : ImageOutput π ρ σ) (o : Symmetry) (r : Rect) : Prop where
  fits : r.Fits (canvas image o).1 (canvas image o).2
  stored : ∀ i j, i < r.width → j < r.height →
    image.interpretation.geometry.region.Mem (preimage image o (r.x + i) (r.y + j))

/-- The bytes of a plane can be counted. -/
def RoomFor (r : Rect) (a : Raster σ) : Prop :=
  (r.width + 8) / 8 * 8 * a.bytesPerPixel * r.height < 2 ^ 64

structure Room (image : ImageOutput π ρ σ) (r : Rect) : Prop where
  color : RoomFor r image.color
  auxiliaries : ∀ p ∈ image.auxiliaries, RoomFor r p.values

/-- `dst` shows in `r` the samples of `src` at the positions mapped back. -/
structure Shows (image : ImageOutput π ρ σ) (o : Symmetry) (r : Rect) (src dst : Raster σ) :
    Prop where
  width : dst.width = r.width
  height : dst.height = r.height
  bytesPerPixel : dst.bytesPerPixel = src.bytesPerPixel
  stride : dst.stride = (r.width + 8) / 8 * 8 * src.bytesPerPixel
  sample : ∀ i j, i < r.width → j < r.height → dst.sample i j =
    src.sample ((preimage image o (r.x + i) (r.y + j)).1 - image.interpretation.geometry.region.x)
      ((preimage image o (r.x + i) (r.y + j)).2 - image.interpretation.geometry.region.y)

structure ShowsPlane (image : ImageOutput π ρ σ) (o : Symmetry) (r : Rect)
    (src dst : AuxiliaryPlane ρ σ) : Prop where
  role : dst.role = src.role
  grid : dst.grid = .colorSamples
  values : Shows image o r src.values dst.values

/-- `out` is the image in `r`, with a geometry and an orientation that say so. -/
structure Projects (image : ImageOutput π ρ σ) (o : Symmetry) (r : Rect)
    (out : ImageOutput π ρ σ) : Prop where
  geometry : out.interpretation.geometry = ⟨(canvas image o).1, (canvas image o).2, r⟩
  orientation : out.interpretation.orientation = some .identity
  composition : out.interpretation.composition = image.interpretation.composition
  placement : out.interpretation.placement = image.interpretation.placement
  signal : out.interpretation.signal = image.interpretation.signal
  presentation : out.interpretation.presentation = image.interpretation.presentation
  color : Shows image o r image.color out.color
  auxiliaries : List.Forall₂ (ShowsPlane image o r) image.auxiliaries out.auxiliaries

/-! ### One plane -/

variable {z} {image : ImageOutput π ρ σ} {o : Symmetry} {r : Rect}

theorem spec_sized {n : ℕ} {Q : ℕ → Ω → Prop} {E : Cause → Ω → Prop} {ω : Ω}
    (hok : n < 2 ^ 64 → Q n ω) (herr : ¬ n < 2 ^ 64 → E .sizeOverflow ω) :
    Act.Spec (sized n) Q E ω := by
  unfold sized
  split
  · next h => exact hok h
  · next h => exact herr h

theorem spec_projectPlane (hz : z.Obliging) (hshow : Showable image o r) {a : Raster σ}
    (ha : (a.width, a.height) = (image.interpretation.geometry.region.width,
      image.interpretation.geometry.region.height)) (ω : Ω) :
    Act.Spec (projectPlane z o (o.inverse.mapRect r (canvas image o).1 (canvas image o).2)
      image.interpretation.geometry.region r a) (fun dst _ => Shows image o r a dst)
      (fun _ _ => ¬ RoomFor r a) ω := by
  have hheight := hshow.fits.height_pos
  have hwithin := (o.inverse.mapRect_within_iff hshow.fits).mpr hshow.stored
  have hdims := o.inverse.mapRect_dims hshow.fits
  obtain ⟨hw, hh⟩ := Prod.mk.inj ha
  set required := o.inverse.mapRect r (canvas image o).1 (canvas image o).2 with hrequired
  set available := image.interpretation.geometry.region with havailable
  unfold projectPlane
  simp only [Act.spec_bind, Act.spec_actPure]
  obtain ⟨ω₁, hcheck⟩ := hz.check ω
  refine Act.spec_of_eq hcheck (spec_sized (fun hstride => ?_) fun hno => ?_)
  swap
  · -- the bytes are at least those of a row
    exact fun hroom => hno ((Nat.le_mul_of_pos_right _ hheight).trans_lt hroom)
  refine spec_sized (fun hbytes => ?_) fun hno hroom => hno hroom
  obtain ⟨ω₂, hfilled⟩ := hz.filled ((r.width + 8) / 8 * 8 * a.bytesPerPixel * r.height / 8) ω₁
  refine Act.spec_of_eq hfilled ?_
  have hcrop : a.cropView (required.x - available.x) (required.y - available.y) required.width
      required.height = some { a with
        width := required.width
        height := required.height
        sample := fun i j => a.sample (required.x - available.x + i)
          (required.y - available.y + j) } := by
    refine if_pos ?_
    have := hwithin.left
    have := hwithin.top
    have := hwithin.right
    have := hwithin.bottom
    constructor <;> omega
  rw [hcrop, Act.spec_getOr_some]
  have hsize : (r.width, r.height) = o.dims required.width required.height := by
    have hback := o.dims_inverse r.width r.height
    rwa [← hdims, eq_comm] at hback
  rw [Raster.orientedInto, if_pos hsize, Act.spec_getOr_some]
  obtain ⟨ω₃, hlast⟩ := hz.check ω₂
  refine Act.spec_of_eq hlast ⟨rfl, rfl, rfl, rfl, fun i j hi hj => ?_⟩
  have hmap : preimage image o (r.x + i) (r.y + j) = _ := o.inverse.map_add hshow.fits hi hj
  rw [hmap]
  show a.sample _ _ = a.sample (required.x + _ - available.x) (required.y + _ - available.y)
  rw [Nat.sub_add_comm hwithin.left, Nat.sub_add_comm hwithin.top]

/-! ### The whole image -/

theorem fromPackedOwner_ok {color : Raster σ} {auxiliaries : List (AuxiliaryPlane ρ σ)}
    {interpretation : ImageInterpretation π} (hpresentation : interpretation.presentation = false)
    (hfits : interpretation.geometry.validate = true) (hplacement : interpretation.placement = none)
    (horientation : interpretation.orientation ≠ none) (hsignal : interpretation.signal = false)
    (hcolor : (color.width, color.height) =
      (interpretation.geometry.region.width, interpretation.geometry.region.height))
    (hgrid : ∀ p ∈ auxiliaries, p.grid = .colorSamples →
      (p.values.width, p.values.height) = (color.width, color.height)) :
    fromPackedOwner z color auxiliaries interpretation =
      .ok ⟨color, auxiliaries, interpretation, hfits, hcolor, hgrid⟩ := by
  unfold fromPackedOwner
  rw [if_neg (by simp [hpresentation]), dif_pos hfits, if_pos (by simp [hplacement]),
    if_neg (by simp [horientation, hsignal]), dif_pos hcolor, dif_pos hgrid]

theorem spec_auxiliaryView (hready : Ready z image o) {E : Cause → Ω → Prop} (ω : Ω)
    {p : AuxiliaryPlane ρ σ × ℕ} (hp : p ∈ image.auxiliaries.zipIdx 1) :
    Act.Spec (auxiliaryView z image.interpretation.geometry.region p)
      (fun a _ => a = p.1.values) E ω := by
  have hmem : p.1 ∈ image.auxiliaries := List.fst_mem_of_mem_zipIdx hp
  have hgrid := hready.grid p.1 hmem
  have hdims := (image.grid_dims p.1 hmem hgrid).trans image.color_dims
  unfold auxiliaryView
  rw [hready.viewable p.1 hmem, decide_eq_true ⟨hgrid, hdims⟩]
  exact rfl

theorem showsPlane_replace {extras : List (Raster σ)} {ps : List (AuxiliaryPlane ρ σ)}
    (h : List.Forall₂ (Shows image o r) (ps.map AuxiliaryPlane.values) extras) :
    List.Forall₂ (ShowsPlane image o r) ps (List.zipWith AuxiliaryPlane.replace ps extras) := by
  induction ps generalizing extras with
  | nil =>
    cases h
    exact .nil
  | cons p ps ih =>
    cases h with
    | cons hp hps => exact .cons ⟨rfl, rfl, hp⟩ (ih hps)

theorem exists_showsPlane {ps qs : List (AuxiliaryPlane ρ σ)}
    (h : List.Forall₂ (ShowsPlane image o r) ps qs) :
    ∀ q ∈ qs, ∃ p ∈ ps, ShowsPlane image o r p q := by
  induction h with
  | nil => simp
  | cons hpq _ ih =>
    intro q hq
    rcases List.mem_cons.mp hq with rfl | hq
    · exact ⟨_, List.mem_cons_self, hpq⟩
    · obtain ⟨p, hp, hpq⟩ := ih q hq
      exact ⟨p, List.mem_cons_of_mem _ hp, hpq⟩

theorem views_eq {ps : List (AuxiliaryPlane ρ σ)} {n : ℕ} {views : List (Raster σ)}
    (h : List.Forall₂ (fun (p : AuxiliaryPlane ρ σ × ℕ) a => a = p.1.values) (ps.zipIdx n) views) :
    views = ps.map AuxiliaryPlane.values := by
  have hmap : List.Forall₂ (· = ·) ((ps.zipIdx n).map fun p => p.1.values) views :=
    List.forall₂_map_left_iff.mpr (h.imp fun _ _ heq => heq.symm)
  rw [List.forall₂_eq_eq_eq] at hmap
  rw [← hmap]
  conv_rhs => rw [← List.zipIdx_map_fst n ps, List.map_map]
  rfl

/-- A projection succeeds with the requested rectangle, or it cannot be shown. -/
theorem spec_project (hz : z.Obliging) (hready : Ready z image o) (region : Option Rect) (ω : Ω) :
    Act.Spec (project z image region)
      (fun out _ => Showable image o (requested image o region) ∧
        Projects image o (requested image o region) out)
      (fun _ _ => ¬ (Showable image o (requested image o region) ∧
        Room image (requested image o region))) ω := by
  obtain ⟨ω₁, hcheck⟩ := hz.check ω
  unfold project
  rw [Act.spec_bind]
  refine Act.spec_of_eq hcheck ?_
  dsimp only
  rw [Act.spec_bind, hready.composition, decide_eq_true rfl, Act.spec_require]
  refine ⟨fun _ => ?_, fun hno => by cases hno⟩
  rw [Act.spec_bind, hready.placement, Act.spec_require]
  refine ⟨fun _ => ?_, fun hno => by cases hno⟩
  rw [Act.spec_bind, hready.signal, hready.presentation, Act.spec_require]
  refine ⟨fun _ => ?_, fun hno => by cases hno⟩
  rw [Act.spec_bind, hready.orientation, Act.spec_getOr_some, Act.spec_bind, image.fits,
    Act.spec_require]
  refine ⟨fun _ => ?_, fun hno => by cases hno⟩
  set r := requested image o region with hr
  rw [Act.spec_bind, Act.spec_require]
  have hfitsIff : (ImageGeometry.validate ⟨(canvas image o).1, (canvas image o).2, r⟩ = true) ↔
      r.Fits (canvas image o).1 (canvas image o).2 :=
    ImageGeometry.validate_iff _
  refine ⟨fun hvalid => ?_, fun hno hshow => ?_⟩
  swap
  · have hyes := hfitsIff.mpr hshow.1.fits
    exact absurd (hno.symm.trans hyes) (by decide)
  have hfits := hfitsIff.mp hvalid
  rw [Act.spec_bind, Act.spec_require]
  have hwithinIff := o.inverse.mapRect_within_iff (a := image.interpretation.geometry.region) hfits
  refine ⟨fun hin => ?_, fun hno hshow => ?_⟩
  swap
  · have hwithin := hwithinIff.mpr hshow.1.stored
    exact of_decide_eq_false hno ⟨hwithin.left, hwithin.top, hwithin.right, hwithin.bottom⟩
  obtain ⟨hleft, htop, hright, hbottom⟩ := of_decide_eq_true hin
  have hshow : Showable image o r := ⟨hfits, hwithinIff.mp ⟨hleft, htop, hright, hbottom⟩⟩
  rw [Act.spec_bind]
  refine (Act.spec_collect (P := fun p a => a = p.1.values) fun p hp t =>
    spec_auxiliaryView hready t hp).mono (fun views ω₂ hviews => ?_) fun _ _ he => he
  obtain rfl := views_eq hviews
  rw [Act.spec_bind]
  refine (spec_projectPlane hz hshow image.color_dims ω₂).mono (fun color ω₃ hcolor => ?_)
    fun _ _ hno hboth => hno hboth.2.color
  rw [Act.spec_bind]
  refine (Act.spec_collect (P := Shows image o r) fun a ha t => ?_).mono
    (fun extras ω₄ hextras => ?_) fun _ _ he => he
  · obtain ⟨p, hp, rfl⟩ := List.mem_map.mp ha
    have hdims := (image.grid_dims p hp (hready.grid p hp)).trans image.color_dims
    exact (spec_projectPlane hz hshow hdims t).mono (fun _ _ h => h)
      fun _ _ hno hboth => hno (hboth.2.auxiliaries p hp)
  have hplanes := showsPlane_replace hextras
  rw [Act.spec_bind, Act.spec_mapError, fromPackedOwner_ok rfl hvalid rfl (by simp) rfl
    (Prod.ext hcolor.width hcolor.height) fun q hq _ => ?_]
  · obtain ⟨ω₅, hlast⟩ := hz.check ω₄
    show Act.Spec (z.check >>= _) _ _ ω₄
    rw [Act.spec_bind]
    exact Act.spec_of_eq hlast ⟨hshow, rfl, rfl, hready.composition.symm, hready.placement.symm,
      hready.signal.symm, hready.presentation.symm, hcolor, hplanes⟩
  · obtain ⟨p, -, hpq⟩ := exists_showsPlane hplanes q hq
    exact Prod.ext (hpq.values.width.trans hcolor.width.symm)
      (hpq.values.height.trans hcolor.height.symm)

/-! ### One projection after another -/

structure SameSamples (a b : Raster σ) : Prop where
  width : a.width = b.width
  height : a.height = b.height
  sample : ∀ i j, i < a.width → j < a.height → a.sample i j = b.sample i j

/-- Two images with the same geometry, roles and samples. -/
structure SameView (a b : ImageOutput π ρ σ) : Prop where
  geometry : a.interpretation.geometry = b.interpretation.geometry
  orientation : a.interpretation.orientation = b.interpretation.orientation
  color : SameSamples a.color b.color
  auxiliaries : List.Forall₂ (fun p q => p.role = q.role ∧ p.grid = q.grid ∧
    SameSamples p.values q.values) a.auxiliaries b.auxiliaries

/-- What was projected can be projected again. -/
theorem Projects.ready (hz : z.Obliging) (hready : Ready z image o) {out : ImageOutput π ρ σ}
    (h : Projects image o r out) : Ready z out .identity where
  composition := h.composition.trans hready.composition
  placement := h.placement.trans hready.placement
  signal := h.signal.trans hready.signal
  presentation := h.presentation.trans hready.presentation
  orientation := h.orientation
  grid q hq := (exists_showsPlane h.auxiliaries q hq).elim fun _ hpq => hpq.2.grid
  viewable q hq := by
    obtain ⟨p, -, hpq⟩ := exists_showsPlane h.auxiliaries q hq
    refine hz.padded q.values ?_ ?_
    · rw [hpq.values.stride, hpq.values.bytesPerPixel, hpq.values.width]
      exact Nat.mul_le_mul_right _ (by omega)
    · rw [hpq.values.stride, hpq.values.bytesPerPixel, Nat.mul_comm]
      exact Nat.mul_dvd_mul_right (Nat.dvd_mul_left 8 _) _

theorem Shows.unique {a b c : Raster σ} (hb : Shows image o r a b) (hc : Shows image o r a c) :
    SameSamples b c where
  width := hb.width.trans hc.width.symm
  height := hb.height.trans hc.height.symm
  sample i j hi hj := by
    have hi' := hb.width ▸ hi
    have hj' := hb.height ▸ hj
    rw [hb.sample i j hi' hj', hc.sample i j hi' hj']

theorem Projects.unique {a b : ImageOutput π ρ σ} (ha : Projects image o r a)
    (hb : Projects image o r b) : SameView a b where
  geometry := ha.geometry.trans hb.geometry.symm
  orientation := ha.orientation.trans hb.orientation.symm
  color := ha.color.unique hb.color
  auxiliaries := by
    have hauxa := ha.auxiliaries
    have hauxb := hb.auxiliaries
    generalize image.auxiliaries = ps, a.auxiliaries = as, b.auxiliaries = bs at hauxa hauxb
    induction hauxa generalizing bs with
    | nil =>
      cases hauxb
      exact .nil
    | cons hpa _ ih =>
      cases hauxb with
      | cons hpb hrest =>
        exact .cons ⟨hpa.role.trans hpb.role.symm, hpa.grid.trans hpb.grid.symm,
          hpa.values.unique hpb.values⟩ (ih _ hrest)

section Twice

variable {mid : ImageOutput π ρ σ} {r₂ : Rect}

theorem Projects.canvas (h : Projects image o r mid) :
    Render.canvas mid .identity = Render.canvas image o := by
  show (mid.interpretation.geometry.canvasWidth, mid.interpretation.geometry.canvasHeight) = _
  rw [h.geometry]

/-- The second rectangle is measured on the canvas, not in the first. -/
theorem Shows.trans {a b c : Raster σ} (h : Projects image o r mid) (hin : r₂.Within r)
    (hab : Shows image o r a b) (hbc : Shows mid .identity r₂ b c) : Shows image o r₂ a c where
  width := hbc.width
  height := hbc.height
  bytesPerPixel := hbc.bytesPerPixel.trans hab.bytesPerPixel
  stride := by rw [hbc.stride, hab.bytesPerPixel]
  sample i j hi hj := by
    have hleft := hin.left
    have htop := hin.top
    have hright := hin.right
    have hbottom := hin.bottom
    have hregion : mid.interpretation.geometry.region = r := by rw [h.geometry]
    have hsample : c.sample i j = b.sample (r₂.x + i - r.x) (r₂.y + j - r.y) := by
      rw [hbc.sample i j hi hj, hregion]
      rfl
    have hx : r.x + (r₂.x + i - r.x) = r₂.x + i := by omega
    have hy : r.y + (r₂.y + j - r.y) = r₂.y + j := by omega
    rw [hsample, hab.sample _ _ (by omega) (by omega), hx, hy]

theorem Projects.trans {out : ImageOutput π ρ σ} (h : Projects image o r mid)
    (h₂ : Projects mid .identity r₂ out) (hin : r₂.Within r) : Projects image o r₂ out where
  geometry := by rw [h₂.geometry, h.canvas]
  orientation := h₂.orientation
  composition := h₂.composition.trans h.composition
  placement := h₂.placement.trans h.placement
  signal := h₂.signal.trans h.signal
  presentation := h₂.presentation.trans h.presentation
  color := h.color.trans h hin h₂.color
  auxiliaries := by
    have haux := h.auxiliaries
    have haux₂ := h₂.auxiliaries
    generalize image.auxiliaries = ps, mid.auxiliaries = ms, out.auxiliaries = qs at haux haux₂
    induction haux generalizing qs with
    | nil =>
      cases haux₂
      exact .nil
    | cons hpm _ ih =>
      cases haux₂ with
      | cons hmq hrest =>
        exact .cons ⟨hmq.role.trans hpm.role, hmq.grid, hpm.values.trans h hin hmq.values⟩
          (ih _ hrest)

/-- A rectangle within one that was projected can be shown, of the image and of the result. -/
theorem Showable.within (hshow : Showable image o r) (h : Projects image o r mid)
    (hin : r₂.Within r) (hw : 0 < r₂.width) (hh : 0 < r₂.height) :
    Showable image o r₂ ∧ Showable mid .identity r₂ := by
  have hleft := hin.left
  have htop := hin.top
  have hright := hin.right
  have hbottom := hin.bottom
  have hfits : r₂.Fits (Render.canvas image o).1 (Render.canvas image o).2 :=
    ⟨hw, hh, hright.trans hshow.fits.right, hbottom.trans hshow.fits.bottom⟩
  refine ⟨⟨hfits, fun i j hi hj => ?_⟩, ⟨h.canvas ▸ hfits, fun i j hi hj => ?_⟩⟩
  · have hmem := hshow.stored (r₂.x + i - r.x) (r₂.y + j - r.y) (by omega) (by omega)
    have hx : r.x + (r₂.x + i - r.x) = r₂.x + i := by omega
    have hy : r.y + (r₂.y + j - r.y) = r₂.y + j := by omega
    rwa [hx, hy] at hmem
  · rw [h.geometry]
    show r.Mem (r₂.x + i, r₂.y + j)
    exact ⟨⟨by omega, by omega⟩, by omega, by omega⟩

theorem Projects.room (h : Projects image o r mid) (hroom : Room image r₂) : Room mid r₂ where
  color := by
    unfold RoomFor
    rw [h.color.bytesPerPixel]
    exact hroom.color
  auxiliaries q hq := by
    obtain ⟨p, hp, hpq⟩ := exists_showsPlane h.auxiliaries q hq
    unfold RoomFor
    rw [hpq.values.bytesPerPixel]
    exact hroom.auxiliaries p hp

end Twice

/-- A projection that has room succeeds where the rectangle can be shown. -/
theorem project_ok (hz : z.Obliging) (hready : Ready z image o) (region : Option Rect) (ω : Ω)
    (hshow : Showable image o (requested image o region))
    (hroom : Room image (requested image o region)) :
    ∃ out ω', project z image region ω = (.ok out, ω') ∧
      Projects image o (requested image o region) out := by
  have hrun := (spec_project hz hready region ω).run
  cases hres : project z image region ω with
  | mk res ω' =>
    rw [hres] at hrun
    cases res with
    | ok out => exact ⟨out, ω', rfl, (hrun.1 out rfl).2⟩
    | error e => exact absurd ⟨hshow, hroom⟩ (hrun.2 e rfl)

/-- What a projection that succeeds has shown. -/
theorem shown_of_ok (hz : z.Obliging) (hready : Ready z image o) {region : Option Rect} {ω ω' : Ω}
    {out : ImageOutput π ρ σ} (h : project z image region ω = (.ok out, ω')) :
    Showable image o (requested image o region) ∧
      Projects image o (requested image o region) out :=
  (spec_project hz hready region ω).run.1 out (by rw [h])

end Projection

/-- A projection succeeds exactly where the rectangle lies in the canvas and what it shows is
stored; it gives those samples with a geometry that says so; and a projection of the result to a
smaller rectangle is that of the image. -/
theorem project_exact {Ω π ρ σ : Type} (z : Surroundings Ω π σ) (hz : z.Obliging)
    (image : ImageOutput π ρ σ) (o : Symmetry) (hready : Ready z image o) :
    (∀ region ω, Room image (requested image o region) →
      ((∃ out ω', project z image region ω = (.ok out, ω')) ↔
        Showable image o (requested image o region))) ∧
    (∀ region ω out ω', project z image region ω = (.ok out, ω') →
      Projects image o (requested image o region) out) ∧
    (∀ r₁ r₂ ω mid ω', project z image (some r₁) ω = (.ok mid, ω') → r₂.Within r₁ →
      0 < r₂.width → 0 < r₂.height → Room image r₂ → ∀ ω₁ ω₂, ∃ direct twice ω₃ ω₄,
        project z image (some r₂) ω₁ = (.ok direct, ω₃) ∧
        project z mid (some r₂) ω₂ = (.ok twice, ω₄) ∧ SameView direct twice) := by
  refine ⟨fun region ω hroom => ⟨fun ⟨out, ω', h⟩ => (shown_of_ok hz hready h).1, fun hshow => ?_⟩,
    fun region ω out ω' h => (shown_of_ok hz hready h).2,
    fun r₁ r₂ ω mid ω' h hin hw hh hroom ω₁ ω₂ => ?_⟩
  · obtain ⟨out, ω', h, -⟩ := project_ok hz hready region ω hshow hroom
    exact ⟨out, ω', h⟩
  · obtain ⟨hshow, hmid⟩ := shown_of_ok hz hready h
    obtain ⟨hshow₁, hshow₂⟩ := hshow.within hmid hin hw hh
    obtain ⟨direct, ω₃, hdirect, hd⟩ := project_ok hz hready (some r₂) ω₁ hshow₁ hroom
    obtain ⟨twice, ω₄, htwice, ht⟩ := project_ok hz (hmid.ready hz hready) (some r₂) ω₂ hshow₂
      (hmid.room hroom)
    exact ⟨direct, twice, ω₃, ω₄, hdirect, htwice, hd.unique (hmid.trans ht hin)⟩

/-! ### A quarter turn -/

/-- Nothing is cancelled, and storage and views are unlimited. -/
def plainSurroundings : Surroundings Unit Unit ℕ where
  check := Act.pure ()
  filled _ := Act.pure ()
  viewable _ := true
  visible _ _ := true

theorem plainSurroundings_obliging : plainSurroundings.Obliging :=
  ⟨fun _ => ⟨(), rfl⟩, fun _ _ => ⟨(), rfl⟩, fun _ _ _ => rfl⟩

def quarterTurn : Symmetry := ⟨true, true, false⟩

/-- Three columns and two rows. -/
def smallRaster (k : ℕ) : Raster ℕ := ⟨3, 2, 3, 1, fun x y => k + 10 * x + y⟩

def smallPlane : AuxiliaryPlane Unit ℕ := ⟨(), smallRaster 100, .colorSamples⟩

theorem smallPlane_dims : ∀ p ∈ [smallPlane], p.grid = .colorSamples →
    (p.values.width, p.values.height) = (3, 2) := by
  intro p hp _
  rw [List.mem_singleton] at hp
  rw [hp]
  rfl

/-- An image with one auxiliary plane, stored in full and shown after a quarter turn. -/
def smallImage : ImageOutput Unit Unit ℕ where
  color := smallRaster 0
  auxiliaries := [smallPlane]
  interpretation :=
    ⟨⟨3, 2, ⟨0, 0, 3, 2⟩⟩, some .composited, none, some quarterTurn, false, false, false, none⟩
  fits := rfl
  color_dims := rfl
  grid_dims := smallPlane_dims

theorem smallImage_ready : Ready plainSurroundings smallImage quarterTurn :=
  ⟨rfl, rfl, rfl, rfl, rfl, fun p hp => by rw [List.mem_singleton.mp hp]; rfl, fun _ _ => rfl⟩

/-- The lower two rows of the turned image can be shown. -/
theorem project_exact_quarterTurn : ∃ out ω',
    project plainSurroundings smallImage (some ⟨0, 1, 2, 2⟩) () = (.ok out, ω') := by
  have hroom : Room smallImage ⟨0, 1, 2, 2⟩ :=
    ⟨by unfold RoomFor; decide, fun p hp => by
      rw [List.mem_singleton.mp hp]; unfold RoomFor; decide⟩
  refine ((project_exact plainSurroundings plainSurroundings_obliging smallImage quarterTurn
    smallImage_ready).1 (some ⟨0, 1, 2, 2⟩) () hroom).mpr ?_
  refine ⟨⟨by decide, by decide, by decide, by decide⟩, fun i j hi hj => ?_⟩
  change i < 2 at hi
  change j < 2 at hj
  interval_cases i <;> interval_cases j <;> exact ⟨⟨by decide, by decide⟩, by decide, by decide⟩

end Zencodec.Render
