/-
The eight symmetries of a grid.

A symmetry may swap the axes, and then flip each of them. It maps the positions of a grid to
those of another, and its inverse maps them back (`inverse_map`). A rectangle goes to a rectangle,
and within it positions go as by the symmetry itself (`map_add`).
-/
import Mathlib

/-- Swap the axes, then flip the first and the second. -/
structure Symmetry where
  swap : Bool
  flipX : Bool
  flipY : Bool
  deriving DecidableEq, Repr

/-- A rectangle of positions. -/
structure Rect where
  x : ℕ
  y : ℕ
  width : ℕ
  height : ℕ
  deriving DecidableEq, Repr

namespace Rect

def Mem (r : Rect) (p : ℕ × ℕ) : Prop :=
  (r.x ≤ p.1 ∧ p.1 < r.x + r.width) ∧ r.y ≤ p.2 ∧ p.2 < r.y + r.height

/-- Not empty, and within a grid. -/
structure Fits (r : Rect) (w h : ℕ) : Prop where
  width_pos : 0 < r.width
  height_pos : 0 < r.height
  right : r.x + r.width ≤ w
  bottom : r.y + r.height ≤ h

/-- All of `r` lies in `s`. -/
structure Within (r s : Rect) : Prop where
  left : s.x ≤ r.x
  top : s.y ≤ r.y
  right : r.x + r.width ≤ s.x + s.width
  bottom : r.y + r.height ≤ s.y + s.height

end Rect

namespace Symmetry

/-- A position on an axis of `n`, from the other end if it is flipped. -/
def flip (b : Bool) (n x : ℕ) : ℕ := if b then n - 1 - x else x

variable (s : Symmetry) {w h x y : ℕ}

def identity : Symmetry := ⟨false, false, false⟩

def inverse : Symmetry := if s.swap then ⟨true, s.flipY, s.flipX⟩ else s

/-- The size of the image of a grid. -/
def dims (w h : ℕ) : ℕ × ℕ := if s.swap then (h, w) else (w, h)

/-- Where a position of a grid goes. -/
def map (x y w h : ℕ) : ℕ × ℕ :=
  if s.swap then (flip s.flipX h y, flip s.flipY w x) else (flip s.flipX w x, flip s.flipY h y)

/-- The rectangle between two opposite corners. -/
def between (p q : ℕ × ℕ) : Rect where
  x := min p.1 q.1
  y := min p.2 q.2
  width := max p.1 q.1 - min p.1 q.1 + 1
  height := max p.2 q.2 - min p.2 q.2 + 1

/-- Where a rectangle of a grid goes, by its corners. -/
def mapRect (r : Rect) (w h : ℕ) : Rect :=
  between (s.map r.x r.y w h) (s.map (r.x + r.width - 1) (r.y + r.height - 1) w h)

/-! ### One axis -/

theorem flip_lt {b : Bool} {n x : ℕ} (hx : x < n) : flip b n x < n := by
  unfold flip
  split <;> omega

theorem flip_flip {b : Bool} {n x : ℕ} (hx : x < n) : flip b n (flip b n x) = x := by
  unfold flip
  split <;> omega

/-- The image of an interval, from its ends. -/
theorem flip_ends {b : Bool} {n x k : ℕ} (hk : 0 < k) (hx : x + k ≤ n) :
    max (flip b n x) (flip b n (x + k - 1)) - min (flip b n x) (flip b n (x + k - 1)) + 1 = k := by
  unfold flip
  split <;> omega

/-- Within an interval positions are flipped as on an axis of their own. -/
theorem flip_add {b : Bool} {n x k i : ℕ} (hi : i < k) (hx : x + k ≤ n) :
    flip b n (x + i) = min (flip b n x) (flip b n (x + k - 1)) + flip b k i := by
  unfold flip
  split <;> omega

/-! ### Both axes -/

@[simp] theorem inverse_dims (w h : ℕ) :
    s.inverse.dims (s.dims w h).1 (s.dims w h).2 = (w, h) := by
  obtain ⟨swap, flipX, flipY⟩ := s
  cases swap <;> rfl

@[simp] theorem dims_inverse (w h : ℕ) :
    s.dims (s.inverse.dims w h).1 (s.inverse.dims w h).2 = (w, h) := by
  obtain ⟨swap, flipX, flipY⟩ := s
  cases swap <;> rfl

theorem map_lt (hx : x < w) (hy : y < h) :
    (s.map x y w h).1 < (s.dims w h).1 ∧ (s.map x y w h).2 < (s.dims w h).2 := by
  obtain ⟨swap, flipX, flipY⟩ := s
  cases swap
  · exact ⟨flip_lt hx, flip_lt hy⟩
  · exact ⟨flip_lt hy, flip_lt hx⟩

/-- The inverse takes every position back. -/
theorem inverse_map (hx : x < w) (hy : y < h) :
    s.inverse.map (s.map x y w h).1 (s.map x y w h).2 (s.dims w h).1 (s.dims w h).2 = (x, y) := by
  obtain ⟨swap, flipX, flipY⟩ := s
  cases swap
  · exact Prod.ext (flip_flip hx) (flip_flip hy)
  · exact Prod.ext (flip_flip hx) (flip_flip hy)

@[simp] theorem identity_map : identity.map x y w h = (x, y) := rfl

variable {r : Rect}

theorem mapRect_dims (hr : r.Fits w h) :
    ((s.mapRect r w h).width, (s.mapRect r w h).height) = s.dims r.width r.height := by
  obtain ⟨swap, flipX, flipY⟩ := s
  cases swap
  · exact Prod.ext (flip_ends hr.width_pos hr.right) (flip_ends hr.height_pos hr.bottom)
  · exact Prod.ext (flip_ends hr.height_pos hr.bottom) (flip_ends hr.width_pos hr.right)

/-- Within a rectangle positions go as on a grid of their own. -/
theorem map_add {i j : ℕ} (hr : r.Fits w h) (hi : i < r.width) (hj : j < r.height) :
    s.map (r.x + i) (r.y + j) w h =
      ((s.mapRect r w h).x + (s.map i j r.width r.height).1,
        (s.mapRect r w h).y + (s.map i j r.width r.height).2) := by
  obtain ⟨swap, flipX, flipY⟩ := s
  cases swap
  · exact Prod.ext (flip_add hi hr.right) (flip_add hj hr.bottom)
  · exact Prod.ext (flip_add hj hr.bottom) (flip_add hi hr.right)

/-- The image of a rectangle lies in another as soon as the image of every position does. -/
theorem mapRect_within_iff {a : Rect} (hr : r.Fits w h) : (s.mapRect r w h).Within a ↔
    ∀ i j, i < r.width → j < r.height → a.Mem (s.map (r.x + i) (r.y + j) w h) := by
  have hdims := Prod.ext_iff.mp (s.mapRect_dims hr)
  constructor
  · intro hin i j hi hj
    have hlt := s.map_lt hi hj
    rw [← hdims.1, ← hdims.2] at hlt
    have := hin.left
    have := hin.top
    have := hin.right
    have := hin.bottom
    rw [s.map_add hr hi hj]
    exact ⟨⟨by omega, by omega⟩, by omega, by omega⟩
  · intro hall
    -- the corners of the image are the images of two corners
    have hfirst := hall 0 0 hr.width_pos hr.height_pos
    have hwidth := hr.width_pos
    have hheight := hr.height_pos
    have hlast := hall (r.width - 1) (r.height - 1) (by omega) (by omega)
    have hright : r.x + (r.width - 1) = r.x + r.width - 1 := by omega
    have hbottom : r.y + (r.height - 1) = r.y + r.height - 1 := by omega
    rw [Nat.add_zero, Nat.add_zero] at hfirst
    rw [hright, hbottom] at hlast
    obtain ⟨⟨hx, hx'⟩, hy, hy'⟩ := hfirst
    obtain ⟨⟨hu, hu'⟩, hv, hv'⟩ := hlast
    refine ⟨le_min hx hu, le_min hy hv, ?_, ?_⟩ <;> simp only [mapRect, between] <;> omega

end Symmetry
