/-
Resource limits, and the checks of an image header against them.

A limit that is not set permits everything. `ResourceLimits.Permits` compares exact numbers, and
`checkImageInfo_exact_iff` says when the check does: the product of width, height and frame count
has 64 bits, and is exact only when it fits them.
-/
import Zencodec.Lib.Overflow

namespace Zencodec.Limits

/-- An exceeded limit, with the value and the limit. -/
inductive LimitExceeded where
  | width (actual max : UInt32)
  | height (actual max : UInt32)
  | pixels (actual max : UInt64)
  | memory (actual max : UInt64)
  | inputSize (actual max : UInt64)
  | outputSize (actual max : UInt64)
  | frames (actual max : UInt32)
  | duration (actual max : UInt64)
  | totalPixels (actual max : UInt64)
  deriving DecidableEq, Repr

structure ResourceLimits where
  /-- In a single frame. -/
  maxPixels : Option UInt64 := none
  maxMemoryBytes : Option UInt64 := none
  maxOutputBytes : Option UInt64 := none
  maxWidth : Option UInt32 := none
  maxHeight : Option UInt32 := none
  maxInputBytes : Option UInt64 := none
  maxFrames : Option UInt32 := none
  maxAnimationMs : Option UInt64 := none
  /-- Across all frames. -/
  maxTotalPixels : Option UInt64 := none

/-- What kind of sequence a file holds. -/
inductive ImageSequence where
  | single
  | animation (frameCount : Option UInt32)
  | multi (imageCount : Option UInt32)
  deriving DecidableEq, Repr

/-- The number of frames or images, if it is known. -/
def ImageSequence.count : ImageSequence → Option UInt32
  | .single => some 1
  | .animation frameCount => frameCount
  | .multi imageCount => imageCount

structure ImageInfo where
  width : UInt32
  height : UInt32
  sequence : ImageSequence

def ImageInfo.frameCount (info : ImageInfo) : Option UInt32 := info.sequence.count

/-! ### The checks -/

/-- A check ends well, with an exceeded limit, or in a panic. -/
abbrev Checked := Except (Abort LimitExceeded)

/-- A product of `u64` numbers. -/
def mul64 (o : Overflow) (a b : UInt64) : Checked UInt64 :=
  Abort.ofOption ((o.nat 64 (a.toNat * b.toNat)).map .ofNat)

/-- Refuse a value above the limit, if there is one. -/
def within {α : Type} [LT α] [DecidableLT α] (limit : Option α) (actual : α)
    (exceeded : α → α → LimitExceeded) : Checked Unit :=
  match limit with
  | some max => if max < actual then .error (.refused (exceeded actual max)) else .ok ()
  | none => .ok ()

namespace ResourceLimits

variable (limits : ResourceLimits)

def checkMemory (bytes : UInt64) : Checked Unit := within limits.maxMemoryBytes bytes .memory

def checkInputSize (bytes : UInt64) : Checked Unit := within limits.maxInputBytes bytes .inputSize

def checkOutputSize (bytes : UInt64) : Checked Unit :=
  within limits.maxOutputBytes bytes .outputSize

def checkFrames (count : UInt32) : Checked Unit := within limits.maxFrames count .frames

def checkAnimationMs (ms : UInt64) : Checked Unit := within limits.maxAnimationMs ms .duration

def checkTotalPixels (total : UInt64) : Checked Unit :=
  within limits.maxTotalPixels total .totalPixels

def checkDimensions (o : Overflow) (width height : UInt32) : Checked Unit := do
  within limits.maxWidth width .width
  within limits.maxHeight height .height
  match limits.maxPixels with
  | none => .ok ()
  | some max =>
    let pixels ← mul64 o width.toUInt64 height.toUInt64
    within (some max) pixels .pixels

/-- The checks of `check_image_info` on a known number of frames. -/
def checkSequence (o : Overflow) (info : ImageInfo) (count : UInt32) : Checked Unit := do
  within limits.maxFrames count .frames
  match limits.maxTotalPixels with
  | none => .ok ()
  | some max =>
    let frame ← mul64 o info.width.toUInt64 info.height.toUInt64
    let total ← mul64 o frame count.toUInt64
    within (some max) total .totalPixels

def checkImageInfo (o : Overflow) (info : ImageInfo) : Checked Unit := do
  limits.checkDimensions o info.width info.height
  match info.frameCount with
  | none => .ok ()
  | some count => limits.checkSequence o info count

/-! ### What the limits permit -/

/-- A frame and the number of frames are within the limits. -/
structure PermitsFrames (info : ImageInfo) : Prop where
  width : ∀ max ∈ limits.maxWidth, info.width ≤ max
  height : ∀ max ∈ limits.maxHeight, info.height ≤ max
  pixels : ∀ max ∈ limits.maxPixels, info.width.toNat * info.height.toNat ≤ max.toNat
  frames : ∀ max ∈ limits.maxFrames, ∀ count ∈ info.frameCount, count ≤ max

/-- Everything that is known of the image is within the limits. -/
structure Permits (info : ImageInfo) : Prop extends PermitsFrames limits info where
  totalPixels : ∀ max ∈ limits.maxTotalPixels, ∀ count ∈ info.frameCount,
    info.width.toNat * info.height.toNat * count.toNat ≤ max.toNat

/-- The error names a limit that is set, a value of the image, and one above the other. -/
def Exceeded (info : ImageInfo) : LimitExceeded → Prop
  | .width actual max => limits.maxWidth = some max ∧ actual = info.width ∧ max < actual
  | .height actual max => limits.maxHeight = some max ∧ actual = info.height ∧ max < actual
  | .pixels actual max => limits.maxPixels = some max ∧
      actual.toNat = info.width.toNat * info.height.toNat ∧ max < actual
  | .frames actual max => limits.maxFrames = some max ∧ info.frameCount = some actual ∧
      max < actual
  | .totalPixels actual max => limits.maxTotalPixels = some max ∧
      (∃ count ∈ info.frameCount,
        actual.toNat = info.width.toNat * info.height.toNat * count.toNat) ∧ max < actual
  | _ => False

/-- A check that is the same in every build, succeeds for `P`, and fails with an error in `E`. -/
def Decides (c : Overflow → Checked Unit) (P : Prop) (E : LimitExceeded → Prop) : Prop :=
  ∃ r : Except LimitExceeded Unit, (∀ o, c o = r.mapError .refused) ∧
    (r = .ok () ↔ P) ∧ ∀ e, r = .error e → E e

/-- The check computes exact numbers in every build, succeeds for what the limits permit, and
fails with a limit that is exceeded. -/
def ChecksExactly (info : ImageInfo) : Prop :=
  Decides (limits.checkImageInfo · info) (limits.Permits info) (limits.Exceeded info)

/-- The check comes to the product of all frames, and it does not fit. -/
structure TotalOverflows (info : ImageInfo) : Prop where
  permits : limits.PermitsFrames info
  limited : limits.maxTotalPixels.isSome
  large : ∃ count ∈ info.frameCount,
    2 ^ 64 ≤ info.width.toNat * info.height.toNat * count.toNat

/-! ### Sequences of checks -/

variable {c d : Overflow → Checked Unit} {P Q : Prop} {E : LimitExceeded → Prop}

theorem Decides.of_ok (h : P) : Decides (fun _ => .ok ()) P E :=
  ⟨.ok (), fun _ => rfl, iff_of_true rfl h, fun e he => by cases he⟩

theorem Decides.of_refused {e : LimitExceeded} (h : ¬ P) (he : E e) :
    Decides (fun _ => .error (.refused e)) P E := by
  refine ⟨.error e, fun _ => rfl, iff_of_false (fun hok => by cases hok) h, fun e' he' => ?_⟩
  obtain rfl := Except.error.inj he'
  exact he

theorem Decides.congr (hc : Decides c P E) (h : P ↔ Q) : Decides c Q E :=
  propext h ▸ hc

theorem Decides.ok (hc : Decides c P E) (h : P) (o : Overflow) : c o = .ok () := by
  obtain ⟨r, hr, hok, -⟩ := hc
  rw [hr o, hok.mpr h]
  rfl

/-- The second check is made when the first succeeds. -/
theorem Decides.seq (hc : Decides c P E) (hd : P → Decides d Q E) :
    Decides (fun o => do c o; d o) (P ∧ Q) E := by
  obtain ⟨r, hr, hok, herr⟩ := hc
  cases r with
  | error e =>
    refine ⟨.error e, fun o => ?_, iff_of_false (fun h => by cases h) fun h => ?_, herr⟩
    · show (c o >>= fun _ => d o) = _
      rw [hr o]
      rfl
    · cases hok.mpr h.1
  | ok u =>
    have hP := hok.mp rfl
    obtain ⟨r', hr', hok', herr'⟩ := hd hP
    refine ⟨r', fun o => ?_, hok'.trans (and_iff_right hP).symm, herr'⟩
    show (c o >>= fun _ => d o) = _
    rw [hr o]
    exact hr' o

theorem decides_within {α : Type} [LT α] [DecidableLT α] {limit : Option α} {actual : α}
    {exceeded : α → α → LimitExceeded}
    (h : ∀ max, limit = some max → max < actual → E (exceeded actual max)) :
    Decides (fun _ => within limit actual exceeded) (∀ max ∈ limit, ¬ max < actual) E := by
  cases limit with
  | none => exact .of_ok fun max hmax => by cases hmax
  | some max =>
    by_cases hlt : max < actual
    · simp only [within, if_pos hlt]
      exact .of_refused (fun hall => hall max rfl hlt) (h max rfl hlt)
    · simp only [within, if_neg hlt]
      refine .of_ok fun max' hmax => ?_
      obtain rfl := Option.some.inj hmax
      exact hlt

/-! ### Products -/

theorem mul64_of_lt (o : Overflow) {a b : UInt64} (h : a.toNat * b.toNat < 2 ^ 64) :
    mul64 o a b = .ok (a * b) := by
  rw [mul64, o.nat_of_lt h]
  refine congrArg Except.ok (UInt64.toNat_inj.mp ?_)
  rw [UInt64.toNat_ofNat', UInt64.toNat_mul]

theorem toNat_mul_of_lt {a b : UInt64} (h : a.toNat * b.toNat < 2 ^ 64) :
    (a * b).toNat = a.toNat * b.toNat := by
  rw [UInt64.toNat_mul, Nat.mod_eq_of_lt h]

/-- The pixels of a frame fit 64 bits. -/
theorem frame_lt (width height : UInt32) :
    width.toUInt64.toNat * height.toUInt64.toNat < 2 ^ 64 := by
  rw [UInt32.toNat_toUInt64, UInt32.toNat_toUInt64]
  calc width.toNat * height.toNat < 2 ^ 32 * 2 ^ 32 :=
        Nat.mul_lt_mul'' width.toNat_lt height.toNat_lt
    _ = 2 ^ 64 := by decide

theorem toNat_frame (width height : UInt32) :
    (width.toUInt64 * height.toUInt64).toNat = width.toNat * height.toNat := by
  rw [toNat_mul_of_lt (frame_lt width height), UInt32.toNat_toUInt64, UInt32.toNat_toUInt64]

/-! ### The header -/

variable {limits : ResourceLimits}

theorem checkDimensions_eq (o : Overflow) (width height : UInt32) :
    limits.checkDimensions o width height = (do
      within limits.maxWidth width .width
      within limits.maxHeight height .height
      within limits.maxPixels (width.toUInt64 * height.toUInt64) .pixels) := by
  rw [checkDimensions, mul64_of_lt o (frame_lt width height)]
  cases limits.maxPixels <;> rfl

/-- The checks of a frame. -/
theorem decides_checkDimensions (info : ImageInfo) :
    Decides (limits.checkDimensions · info.width info.height)
      ((∀ max ∈ limits.maxWidth, ¬ max < info.width) ∧
        (∀ max ∈ limits.maxHeight, ¬ max < info.height) ∧
        ∀ max ∈ limits.maxPixels, ¬ max < info.width.toUInt64 * info.height.toUInt64)
      (limits.Exceeded info) := by
  simp only [checkDimensions_eq]
  have hwidth : Decides (fun _ => within limits.maxWidth info.width .width)
      (∀ max ∈ limits.maxWidth, ¬ max < info.width) (limits.Exceeded info) :=
    decides_within fun max hmax hlt => ⟨hmax, rfl, hlt⟩
  have hheight : Decides (fun _ => within limits.maxHeight info.height .height)
      (∀ max ∈ limits.maxHeight, ¬ max < info.height) (limits.Exceeded info) :=
    decides_within fun max hmax hlt => ⟨hmax, rfl, hlt⟩
  have hpixels : Decides
      (fun _ => within limits.maxPixels (info.width.toUInt64 * info.height.toUInt64) .pixels)
      (∀ max ∈ limits.maxPixels, ¬ max < info.width.toUInt64 * info.height.toUInt64)
      (limits.Exceeded info) :=
    decides_within fun max hmax hlt => ⟨hmax, toNat_frame _ _, hlt⟩
  exact hwidth.seq fun _ => hheight.seq fun _ => hpixels

/-- The same with exact numbers. -/
theorem permitsFrames_iff {info : ImageInfo} : limits.PermitsFrames info ↔
    ((∀ max ∈ limits.maxWidth, ¬ max < info.width) ∧
      (∀ max ∈ limits.maxHeight, ¬ max < info.height) ∧
      ∀ max ∈ limits.maxPixels, ¬ max < info.width.toUInt64 * info.height.toUInt64) ∧
    ∀ count ∈ info.frameCount, ∀ max ∈ limits.maxFrames, ¬ max < count := by
  simp only [UInt32.not_lt, UInt64.not_lt, UInt64.le_iff_toNat_le, toNat_frame]
  exact ⟨fun h => ⟨⟨h.width, h.height, h.pixels⟩, fun count hcount max hmax =>
    h.frames max hmax count hcount⟩, fun h => ⟨h.1.1, h.1.2.1, h.1.2.2, fun max hmax count hcount =>
    h.2 count hcount max hmax⟩⟩

/-- The checks of all frames, when their product fits. -/
theorem decides_checkSequence {info : ImageInfo} {count : UInt32}
    (hcount : info.frameCount = some count)
    (hfits : (∀ max ∈ limits.maxFrames, ¬ max < count) → limits.maxTotalPixels.isSome →
      info.width.toNat * info.height.toNat * count.toNat < 2 ^ 64) :
    Decides (limits.checkSequence · info count)
      ((∀ max ∈ limits.maxFrames, ¬ max < count) ∧ ∀ max ∈ limits.maxTotalPixels,
        info.width.toNat * info.height.toNat * count.toNat ≤ max.toNat)
      (limits.Exceeded info) := by
  have hframes : Decides (fun _ => within limits.maxFrames count .frames)
      (∀ max ∈ limits.maxFrames, ¬ max < count) (limits.Exceeded info) :=
    decides_within fun max hmax hlt => ⟨hmax, hcount, hlt⟩
  unfold checkSequence
  refine hframes.seq fun hle => ?_
  cases hlimit : limits.maxTotalPixels with
  | none => exact .of_ok fun max hmax => by cases hmax
  | some max =>
    have hlt : (info.width.toUInt64 * info.height.toUInt64).toNat * count.toUInt64.toNat <
        2 ^ 64 := by
      rw [toNat_frame, UInt32.toNat_toUInt64]
      exact hfits hle (by rw [hlimit]; rfl)
    have htotal : (info.width.toUInt64 * info.height.toUInt64 * count.toUInt64).toNat =
        info.width.toNat * info.height.toNat * count.toNat := by
      rw [toNat_mul_of_lt hlt, toNat_frame, UInt32.toNat_toUInt64]
    have hwithin : Decides (fun _ => within (some max)
        (info.width.toUInt64 * info.height.toUInt64 * count.toUInt64) .totalPixels)
        (∀ max' ∈ some max,
          ¬ max' < info.width.toUInt64 * info.height.toUInt64 * count.toUInt64)
        (limits.Exceeded info) :=
      decides_within fun max' hmax hlt' =>
        ⟨hlimit.trans hmax, ⟨count, hcount, htotal⟩, hlt'⟩
    simp only [UInt64.not_lt, UInt64.le_iff_toNat_le, htotal] at hwithin
    simp only [mul64_of_lt _ (frame_lt info.width info.height), bind, Except.bind,
      mul64_of_lt _ hlt]
    exact hwithin

/-- When the product of all frames fits, or is not asked for, the check is exact. -/
theorem checksExactly_of_fits {info : ImageInfo} (h : ¬ limits.TotalOverflows info) :
    limits.ChecksExactly info := by
  unfold ChecksExactly checkImageInfo
  cases hcount : info.frameCount with
  | none =>
    refine ((decides_checkDimensions info).seq fun _ => .of_ok trivial).congr ?_
    rw [and_true]
    refine ⟨fun hdims => ⟨permitsFrames_iff.mpr ⟨hdims, fun count hc => ?_⟩,
      fun max _ count hc => ?_⟩, fun hp => (permitsFrames_iff.mp hp.toPermitsFrames).1⟩
    · rw [hcount] at hc
      cases hc
    · rw [hcount] at hc
      cases hc
  | some count =>
    have hpermits (hdims) (hle : ∀ max ∈ limits.maxFrames, ¬ max < count) :
        limits.PermitsFrames info := permitsFrames_iff.mpr ⟨hdims, fun count' hc => by
      obtain rfl := Option.some.inj (hcount.symm.trans hc)
      exact hle⟩
    refine ((decides_checkDimensions info).seq fun hdims =>
      decides_checkSequence hcount fun hle hset => ?_).congr ⟨fun hall => ?_, fun hp => ?_⟩
    · exact Nat.lt_of_not_le fun hge => h ⟨hpermits hdims hle, hset, count, hcount, hge⟩
    · refine ⟨hpermits hall.1 hall.2.1, fun max hmax count' hc => ?_⟩
      obtain rfl := Option.some.inj (hcount.symm.trans hc)
      exact hall.2.2 max hmax
    · have hp' := permitsFrames_iff.mp hp.toPermitsFrames
      exact ⟨hp'.1, hp'.2 count hcount, fun max hmax => hp.totalPixels max hmax count hcount⟩

theorem mul64_panics {a b : UInt64} (h : 2 ^ 64 ≤ a.toNat * b.toNat) :
    mul64 .panics a b = .error .panicked := by
  rw [mul64, Overflow.nat_of_ge h]
  rfl

/-- Where the product of all frames is asked for and does not fit, a build with overflow checks
panics. -/
theorem checkImageInfo_panics {info : ImageInfo} (h : limits.TotalOverflows info) :
    limits.checkImageInfo .panics info = .error .panicked := by
  obtain ⟨count, hcount, hlarge⟩ := h.large
  have hcount : info.frameCount = some count := hcount
  obtain ⟨max, hmax⟩ := Option.isSome_iff_exists.mp h.limited
  have hpermits := permitsFrames_iff.mp h.permits
  have hdims := (decides_checkDimensions info).ok hpermits.1 .panics
  have hframes : within limits.maxFrames count .frames = .ok () :=
    (decides_within (E := fun _ => True) fun _ _ _ => trivial).ok (hpermits.2 count hcount) .panics
  have htotal : 2 ^ 64 ≤
      (info.width.toUInt64 * info.height.toUInt64).toNat * count.toUInt64.toNat := by
    rw [toNat_frame, UInt32.toNat_toUInt64]
    exact hlarge
  unfold checkImageInfo checkSequence
  simp only [hcount, hmax, hdims, hframes, mul64_of_lt _ (frame_lt info.width info.height), bind,
    Except.bind, mul64_panics htotal]

/-- The check is exact but where it comes to a product of all frames that does not fit. -/
theorem checkImageInfo_exact_iff (limits : ResourceLimits) (info : ImageInfo) :
    limits.ChecksExactly info ↔ ¬ limits.TotalOverflows info := by
  refine ⟨fun ⟨r, hr, _, _⟩ hover => ?_, checksExactly_of_fits⟩
  have hpanic := (hr .panics).symm.trans (checkImageInfo_panics hover)
  cases r <;> cases hpanic

/-- Four frames of 2^31 by 2^31 pixels are 2^64, which wraps to 0: they pass a limit of 100. -/
theorem checkImageInfo_wraps :
    ResourceLimits.checkImageInfo { maxTotalPixels := some 100 } .wraps
        ⟨2147483648, 2147483648, .animation (some 4)⟩ = .ok () ∧
      ¬ ResourceLimits.ChecksExactly { maxTotalPixels := some 100 }
        ⟨2147483648, 2147483648, .animation (some 4)⟩ := by
  refine ⟨by decide, fun ⟨r, hr, _, _⟩ => ?_⟩
  have hdiffer := (hr .panics).trans (hr .wraps).symm
  exact absurd hdiffer (by decide)

end ResourceLimits

end Zencodec.Limits
