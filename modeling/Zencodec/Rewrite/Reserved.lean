/-
What the preflight of an EXIF packet reserves.

The reader skips rows that the preflight accepts (BigTIFF types), and for the thumbnail the
reader takes the first offset and length of IFD1 where the preflight takes the last. The laws
here describe an accepted packet by the entries that the reader finds in it:

* `RowAt`: a row, and `RowAt.resolve`, the entry that the reader makes of it;
* `Scanned`: the rows of a directory, with the storage of their values, the directories they
  point at and the thumbnail;
* `walk_enough`: 64 visits are enough for any walk;
* `walk_ensures`: the whole walk visits each directory once and reserves `cost` for it.
-/
import Zencodec.Lib.Worklist
import Zencodec.Exif.Filter
import Zencodec.Rewrite.Preflight

open Slices Zencodec.Exif Act

namespace Zencodec.Rewrite.Preflight

variable {Ω : Type} {host : Host Ω} {req : Context Ω} {tiff : Bytes} {order : ByteOrder}

/-! ### Words of a slice -/

theorem slice_bytes {s : Exif.Slice tiff} {n : ℕ} (hn : n ≤ s.len) :
    slice s.bytes 0 n = slice tiff s.start (s.start + n) := by
  have hb := s.inBounds
  have hlen := s.length_bytes
  unfold slice
  rw [if_pos ⟨Nat.zero_le _, by omega⟩, if_pos ⟨by omega, by omega⟩]
  simp only [Slice.bytes, List.drop_zero, Nat.sub_zero, List.take_take, Nat.min_eq_left hn,
    Nat.add_sub_cancel_left]

theorem rd16_bytes {s : Exif.Slice tiff} (hs : 2 ≤ s.len) :
    rd16 s.bytes 0 order = rd16 tiff s.start order := by
  unfold rd16
  rw [slice_bytes hs]

theorem rd32_bytes {s : Exif.Slice tiff} (hs : 4 ≤ s.len) :
    rd32 s.bytes 0 order = rd32 tiff s.start order := by
  unfold rd32
  rw [slice_bytes hs]

/-! ### One row -/

theorem u16at_ensures (p : ℕ) :
    Ensures (u16at host tiff order p) fun v => rd16 tiff p order = some v :=
  ensures_skip fun _ => ensures_getOr fun _ h => h

theorem u32at_ensures (p : ℕ) :
    Ensures (u32at host tiff order p) fun v => rd32 tiff p order = some v :=
  ensures_skip fun _ => ensures_getOr fun _ h => h

theorem checkedAdd_eq_some {a b n : ℕ} (h : checkedAdd host a b = some n) : a + b = n := by
  unfold checkedAdd at h
  split at h
  · exact Option.some_inj.mp h
  · cases h

theorem checkedAdd_any {a b : ℕ} {p : ℕ → Bool} (h : (checkedAdd host a b).any p = true) :
    p (a + b) = true := by
  cases hn : checkedAdd host a b with
  | none => rw [hn] at h; cases h
  | some n =>
    rw [hn] at h
    rw [checkedAdd_eq_some hn]
    exact h

/-- The packet budget bounds what passes `packet`. -/
theorem packet_ensures (size : ℕ) :
    Ensures (req.packet size) fun _ => size ≤ req.maxMetadata :=
  ensures_skip fun _ => (ensures_require _ _).mono fun _ h => of_decide_eq_true h

/-- A row in the packet. -/
structure RowAt (tiff : Bytes) (order : ByteOrder) (e : ℕ) (row : Row) : Prop where
  tag : rd16 tiff e order = some row.tag
  ty : rd16 tiff (e + 2) order = some row.ty
  n : rd32 tiff (e + 4) order = some row.n
  width : ∃ w, fieldWidth row.ty = some w ∧ row.size = row.n.toNat * w
  value : valueOffsetAt tiff e order row.size = some row.value
  inBounds : row.value + row.size ≤ tiff.length

theorem valueAt_ensures (e size : ℕ) : Ensures (valueAt host tiff order e size)
    fun v => valueOffsetAt tiff e order size = some v := by
  unfold valueAt valueOffsetAt
  by_cases h4 : size ≤ 4
  · rw [if_pos h4, if_pos h4]
    exact ensures_pure rfl
  · rw [if_neg h4, if_neg h4]
    refine (u32at_ensures (e + 8)).bind fun v hv => ensures_pure ?_
    rw [hv, Option.map_some]

theorem readRow_ensures (e : ℕ) : Ensures (readRow host tiff order e) (RowAt tiff order e) := by
  refine (u16at_ensures e).bind fun tag htag => ?_
  refine (u16at_ensures (e + 2)).bind fun ty hty => ?_
  refine (u32at_ensures (e + 4)).bind fun n hn => ?_
  refine Ensures.bind (ensures_getOr fun _ h => h) fun width hwidth => ?_
  refine Ensures.bind (ensures_getOr fun _ h => h) fun size hsize => ?_
  refine (valueAt_ensures e size).bind fun value hvalue => ?_
  refine (ensures_require _ _).bind fun _ hbounds => ensures_pure ?_
  have hmul : n.toNat * width = size := by
    unfold checkedMul at hsize
    split at hsize
    · exact Option.some_inj.mp hsize
    · cases hsize
  exact ⟨htag, hty, hn, ⟨width, hwidth, hmul.symm⟩, hvalue,
    of_decide_eq_true (checkedAdd_any hbounds)⟩

/-- The entry that the reader makes of a row. -/
def Row.entry (row : Row) (h : row.value + row.size ≤ tiff.length) : Exif.Entry tiff :=
  ⟨row.tag, row.ty, row.n, .borrowed ⟨row.value, row.size, h⟩, row.value⟩

@[simp] theorem Row.entry_tag (row : Row) (h : row.value + row.size ≤ tiff.length) :
    (row.entry h).tag = row.tag := rfl

@[simp] theorem Row.entry_kind (row : Row) (h : row.value + row.size ≤ tiff.length) :
    (row.entry h).kind = row.ty := rfl

@[simp] theorem Row.entry_key (row : Row) (h : row.value + row.size ≤ tiff.length) :
    (row.entry h).value.key = some (row.value, row.size) := rfl

@[simp] theorem Row.entry_length (row : Row) (h : row.value + row.size ≤ tiff.length) :
    (row.entry h).value.bytes.length = row.size :=
  Slice.length_bytes _

/-- The reader knows the field types of the preflight, the BigTIFF types apart. -/
theorem typeSize_of_fieldWidth {ty : UInt16} {w : ℕ} (h : fieldWidth ty = some w) :
    typeSize ty = some w ∨ ty ∈ [16, 17, 18] ∧ typeSize ty = none := by
  unfold fieldWidth at h
  split at h
  · next hty =>
    obtain rfl := Option.some_inj.mp h
    simp only [List.mem_cons, List.not_mem_nil, or_false] at hty
    rcases hty with rfl | rfl | rfl | rfl <;> decide
  split at h
  · next hty =>
    obtain rfl := Option.some_inj.mp h
    simp only [List.mem_cons, List.not_mem_nil, or_false] at hty
    rcases hty with rfl | rfl <;> decide
  split at h
  · next hty =>
    obtain rfl := Option.some_inj.mp h
    simp only [List.mem_cons, List.not_mem_nil, or_false] at hty
    rcases hty with rfl | rfl | rfl | rfl <;> decide
  split at h
  · next hty =>
    obtain rfl := Option.some_inj.mp h
    simp only [List.mem_cons, List.not_mem_nil, or_false] at hty
    rcases hty with rfl | rfl | rfl | rfl | rfl | rfl <;> decide
  · cases h

/-- What the reader makes of an accepted row: its entry, or nothing when the type is a
BigTIFF type. -/
theorem RowAt.resolve {e : ℕ} {row : Row} (h : RowAt tiff order e row) :
    resolveEntry tiff e order = some (row.entry h.inBounds) ∨
      row.ty ∈ [16, 17, 18] ∧ resolveEntry tiff e order = none := by
  obtain ⟨w, hw, hsize⟩ := h.width
  simp only [resolveEntry, h.tag, h.ty, h.n, Option.bind_eq_bind, Option.bind_some]
  rcases typeSize_of_fieldWidth hw with hty | ⟨hbig, hty⟩
  · left
    rw [hty, Option.bind_some, ← hsize, h.value, Option.bind_some,
      Slice.get_eq_some.mpr (⟨rfl, rfl⟩ : (⟨row.value, row.size, h.inBounds⟩ :
        Exif.Slice tiff).start = row.value ∧ _), Option.bind_some]
    rfl
  · right
    rw [hty]
    exact ⟨hbig, rfl⟩

/-! ### The rows of a directory -/

/-- The directory that an entry points at. -/
def childOf (order : ByteOrder) (x : Exif.Entry tiff) : Option ℕ :=
  if x.tag ∈ [tagExifIfd, tagGpsIfd, tagInteropIfd] then
    ((rd32 x.value.bytes 0 order).map UInt32.toNat).filter fun o => decide (o ≠ 0)
  else none

/-- The value of an entry that is a single SHORT or LONG. -/
def single (order : ByteOrder) (tag : UInt16) (x : Exif.Entry tiff) : Option ℕ :=
  if x.tag = tag ∧ x.count = 1 then (readUint x order).map UInt32.toNat else none

theorem single_of_tag {tag : UInt16} {x : Exif.Entry tiff} (htag : x.tag = tag)
    (hcount : x.count = 1) : single order tag x = (readUint x order).map UInt32.toNat :=
  if_pos ⟨htag, hcount⟩

theorem single_eq_none {tag : UInt16} {x : Exif.Entry tiff}
    (h : ¬(x.count = 1 ∧ x.kind ∈ [tiffShort, tiffLong] ∧ x.tag = tag)) :
    single order tag x = none := by
  unfold single
  split
  · next hx =>
    have hkind : ¬(x.kind = tiffShort ∨ x.kind = tiffLong) := fun hk =>
      h ⟨hx.2, by simpa only [List.mem_cons, List.not_mem_nil, or_false] using hk, hx.1⟩
    rw [not_or] at hkind
    simp only [readUint, if_neg hkind.1, if_neg hkind.2, Option.map_none]
  · rfl

/-- The last single value of a tag. -/
def lastSingle (order : ByteOrder) (tag : UInt16) (es : List (Exif.Entry tiff)) : Option ℕ :=
  (es.filterMap (single order tag)).getLast?

theorem lastSingle_singleton (tag : UInt16) (x : Exif.Entry tiff) :
    lastSingle order tag [x] = single order tag x := by
  unfold lastSingle
  cases hx : single order tag x <;> simp [hx]

theorem lastSingle_append (tag : UInt16) (es es' : List (Exif.Entry tiff)) :
    lastSingle order tag (es ++ es') =
      (lastSingle order tag es').or (lastSingle order tag es) := by
  unfold lastSingle
  rw [List.filterMap_append, List.getLast?_append]

/-- What reading rows with the entries `es` does. -/
structure Scanned (order : ByteOrder) (limit : ℕ) (es : List (Exif.Entry tiff))
    (s s' : Scan) : Prop where
  external : s.external ⊆ s'.external
  expanded : s'.expanded = s.expanded + ∑ k ∈ s'.external \ s.external, align2 k.2
  keys : ∀ x ∈ es, 4 < x.value.bytes.length → ∀ k, x.value.key = some k → k ∈ s'.external
  pending : s'.pending = (es.filterMap (childOf order)).reverse ++ s.pending
  offset : s'.thumbnailOffset = (lastSingle order tagThumbOffset es).or s.thumbnailOffset
  size : s'.thumbnailSize = (lastSingle order tagThumbLength es).or s.thumbnailSize
  within : s.expanded ≤ limit → s'.expanded ≤ limit

theorem Scanned.nil (limit : ℕ) (s : Scan) : Scanned order limit ([] : List (Exif.Entry tiff)) s s where
  external := Finset.Subset.refl _
  expanded := by simp
  keys := fun x hx => by cases hx
  pending := rfl
  offset := rfl
  size := rfl
  within := id

theorem Scanned.append {limit : ℕ} {es es' : List (Exif.Entry tiff)} {s s' s'' : Scan}
    (h : Scanned order limit es s s') (h' : Scanned order limit es' s' s'') :
    Scanned order limit (es ++ es') s s'' where
  external := h.external.trans h'.external
  expanded := by
    have hsplit : s''.external \ s.external =
        (s''.external \ s'.external) ∪ (s'.external \ s.external) :=
      (Finset.sdiff_union_sdiff_cancel h'.external h.external).symm
    have hdisj : Disjoint (s''.external \ s'.external) (s'.external \ s.external) :=
      Finset.disjoint_of_subset_right Finset.sdiff_subset Finset.sdiff_disjoint
    rw [h'.expanded, h.expanded, hsplit, Finset.sum_union hdisj]
    omega
  keys := by
    intro x hx h4 k hk
    rcases List.mem_append.mp hx with hx | hx
    · exact h'.external (h.keys x hx h4 k hk)
    · exact h'.keys x hx h4 k hk
  pending := by
    rw [h'.pending, h.pending, List.filterMap_append, List.reverse_append, List.append_assoc]
  offset := by
    rw [h'.offset, h.offset, lastSingle_append, Option.or_assoc]
  size := by
    rw [h'.size, h.size, lastSingle_append, Option.or_assoc]
  within := fun hs => h'.within (h.within hs)

/-- A value out of line is in `external` afterwards, counted when it is new. -/
theorem countValue_ensures (row : Row) (s : Scan) : Ensures (countValue host req row s)
    fun s' => Scanned order req.maxMetadata ([] : List (Exif.Entry tiff)) s s' ∧
      (4 < row.size → (row.value, row.size) ∈ s'.external) := by
  unfold countValue
  refine ensures_ite _ (fun hnew => ?_) (fun hold => ensures_pure ⟨Scanned.nil _ s, ?_⟩)
  · refine Ensures.bind (ensures_getOr fun _ h => h) fun expanded hexp => ?_
    refine (packet_ensures expanded).bind fun _ hlimit => ensures_pure ?_
    obtain ⟨n, hn, hn'⟩ := Option.bind_eq_some_iff.mp hexp
    have hsum : s.expanded + align2 row.size = expanded := by
      rw [← checkedAdd_eq_some hn', ← checkedAdd_eq_some hn, align2, Nat.add_assoc]
    refine ⟨⟨Finset.subset_insert _ _, ?_, fun x hx => (by cases hx), rfl, rfl, rfl,
      fun _ => hlimit⟩, fun _ => Finset.mem_insert_self _ _⟩
    have hone : insert (row.value, row.size) s.external \ s.external =
        {(row.value, row.size)} := by
      rw [Finset.insert_sdiff_of_notMem _ hnew.2, Finset.sdiff_self, insert_empty_eq]
    show expanded = _
    rw [hone, Finset.sum_singleton, hsum]
  · intro h4
    by_contra hmem
    exact hold ⟨h4, hmem⟩

/-- A SHORT or LONG that the preflight reads is the value that the reader reads. -/
theorem scalar_ensures {e : ℕ} {row : Row} (h : RowAt tiff order e row) (hn : row.n = 1)
    (hty : row.ty ∈ [tiffShort, tiffLong]) : Ensures (scalar host tiff order row)
    fun v => (readUint (row.entry h.inBounds) order).map UInt32.toNat = some v := by
  obtain ⟨w, hw, hsize⟩ := h.width
  rw [hn] at hsize
  unfold scalar
  refine ensures_ite _ (fun hshort => ?_) (fun hlong => ?_)
  · refine (u16at_ensures row.value).bind fun v hv => ensures_pure ?_
    have hw2 : w = 2 := by
      rw [hshort] at hw
      exact (Option.some_inj.mp hw).symm
    have hread := @rd16_bytes tiff order ⟨row.value, row.size, h.inBounds⟩
      (by show 2 ≤ row.size; rw [hsize, hw2]; decide)
    simp only [readUint, Row.entry, if_pos hshort, Cow.bytes_borrowed, hread, hv,
      Option.map_some, UInt16.toNat_toUInt32]
  · have hlong' : row.ty = tiffLong := by
      simp only [List.mem_cons, List.not_mem_nil, or_false] at hty
      exact hty.resolve_left hlong
    refine (u32at_ensures row.value).bind fun v hv => ensures_pure ?_
    have hw4 : w = 4 := by
      rw [hlong'] at hw
      exact (Option.some_inj.mp hw).symm
    have hread := @rd32_bytes tiff order ⟨row.value, row.size, h.inBounds⟩
      (by show 4 ≤ row.size; rw [hsize, hw4]; decide)
    simp only [readUint, Row.entry, if_neg hlong, if_pos hlong', Cow.bytes_borrowed, hread, hv,
      Option.map_some]

theorem noteThumbnail_ensures {e : ℕ} {row : Row} (h : RowAt tiff order e row) (s : Scan) :
    Ensures (noteThumbnail host tiff order row s) fun s' => s' = { s with
      thumbnailOffset := (single order tagThumbOffset (row.entry h.inBounds)).or s.thumbnailOffset
      thumbnailSize := (single order tagThumbLength (row.entry h.inBounds)).or s.thumbnailSize } := by
  unfold noteThumbnail
  refine ensures_ite _ (fun ⟨hn, hty, htag⟩ => ?_) (fun hnot => ensures_pure ?_)
  · refine (scalar_ensures h hn hty).bind fun v hv => ensures_pure ?_
    by_cases hoff : row.tag = tagThumbOffset
    · have hnone : single order tagThumbLength (row.entry h.inBounds) = none :=
        single_eq_none fun hx => absurd (hoff.symm.trans hx.2.2) (by decide)
      rw [if_pos hoff, hnone, single_of_tag hoff hn, hv, Option.some_or, Option.none_or]
    · have hlen : row.tag = tagThumbLength := by
        simp only [List.mem_cons, List.not_mem_nil, or_false] at htag
        exact htag.resolve_left hoff
      have hnone : single order tagThumbOffset (row.entry h.inBounds) = none :=
        single_eq_none fun hx => hoff hx.2.2
      rw [if_neg hoff, hnone, single_of_tag hlen hn, hv, Option.some_or, Option.none_or]
  · have hnone : ∀ tag ∈ [tagThumbOffset, tagThumbLength],
        single order tag (row.entry h.inBounds) = none := fun tag ht =>
      single_eq_none fun hx => hnot ⟨hx.1, hx.2.1, by rwa [← hx.2.2] at ht⟩
    rw [hnone _ (by simp), hnone _ (by simp), Option.none_or, Option.none_or]

theorem noteTag_ensures (row : Row) (s : Scan) : Ensures (noteTag row s : Act Ω Error Scan)
    fun s' => ∃ tags, s' = { s with tags } := by
  unfold noteTag
  refine ensures_ite _ (fun _ => ensures_skip fun _ => ensures_pure ⟨_, rfl⟩) (fun _ => ?_)
  exact ensures_pure ⟨s.tags, rfl⟩

/-- A pointer to a directory is pushed, and only a LONG or an IFD is a pointer. -/
theorem followPointer_ensures {e : ℕ} {row : Row} (h : RowAt tiff order e row) (s : Scan) :
    Ensures (followPointer host tiff order row s) fun s' =>
      s' = { s with pending := (childOf order (row.entry h.inBounds)).toList ++ s.pending } ∧
      (row.tag ∈ [tagExifIfd, tagGpsIfd, tagInteropIfd] → row.ty ∈ [tiffLong, tiffIfd]) := by
  unfold followPointer
  refine ensures_ite _ (fun htag => ?_) (fun hnot => ensures_pure ?_)
  · refine (ensures_require _ _).bind fun _ hreq => ?_
    obtain ⟨hn, hty⟩ := of_decide_eq_true hreq
    refine (u32at_ensures row.value).bind fun child hchild => ensures_pure ⟨?_, fun _ => hty⟩
    obtain ⟨w, hw, hsize⟩ := h.width
    have hw4 : w = 4 := by
      simp only [List.mem_cons, List.not_mem_nil, or_false] at hty
      rcases hty with hty | hty <;> (rw [hty] at hw; exact (Option.some_inj.mp hw).symm)
    have hread := @rd32_bytes tiff order ⟨row.value, row.size, h.inBounds⟩
      (by show 4 ≤ row.size; rw [hsize, hn, hw4]; decide)
    have hof : childOf order (row.entry h.inBounds) =
        (some child.toNat).filter fun o => decide (o ≠ 0) := by
      unfold childOf
      rw [if_pos (by rwa [Row.entry_tag])]
      simp only [Row.entry, Cow.bytes_borrowed, hread, hchild, Option.map_some]
    by_cases hzero : child = 0
    · rw [if_pos hzero, hof, hzero]
      rfl
    · have hne : child.toNat ≠ 0 := fun h0 => hzero (UInt32.toNat_inj.mp h0)
      rw [if_neg hzero, hof, Option.filter_some_pos (by simpa using hne)]
      rfl
  · refine ⟨?_, fun htag => absurd htag hnot⟩
    have hof : childOf order (row.entry h.inBounds) = none := if_neg hnot
    rw [hof]
    rfl

/-- One row, as the reader sees it. -/
theorem scanRow_ensures (e : ℕ) (s : Scan) : Ensures (scanRow host req tiff order e s)
    (Scanned order req.maxMetadata (resolveEntry tiff e order).toList s) := by
  refine ensures_skip fun _ => (readRow_ensures e).bind fun row hrow => ?_
  refine (@countValue_ensures _ host req tiff order row s).bind fun s₁ ⟨h₁, hkey⟩ => ?_
  refine (noteThumbnail_ensures hrow s₁).bind fun s₂ h₂ => ?_
  refine (noteTag_ensures row s₂).bind fun s₃ h₃ => ensures_skip fun _ => ?_
  refine (followPointer_ensures hrow s₃).mono fun s₄ ⟨h₄, hpointer⟩ => ?_
  obtain ⟨tags, h₃⟩ := h₃
  have hexternal : s₄.external = s₁.external := by rw [h₄, h₃, h₂]
  have hexpanded : s₄.expanded = s₁.expanded := by rw [h₄, h₃, h₂]
  have hpending : s₄.pending = (childOf order (row.entry hrow.inBounds)).toList ++ s.pending := by
    rw [h₄, h₃, h₂, h₁.pending]
    rfl
  have hoffset : s₄.thumbnailOffset =
      (single order tagThumbOffset (row.entry hrow.inBounds)).or s.thumbnailOffset := by
    rw [h₄, h₃, h₂, h₁.offset]
    rfl
  have hsize : s₄.thumbnailSize =
      (single order tagThumbLength (row.entry hrow.inBounds)).or s.thumbnailSize := by
    rw [h₄, h₃, h₂, h₁.size]
    rfl
  have hstorage : s.external ⊆ s₄.external ∧
      s₄.expanded = s.expanded + ∑ k ∈ s₄.external \ s.external, align2 k.2 ∧
      (s.expanded ≤ req.maxMetadata → s₄.expanded ≤ req.maxMetadata) := by
    rw [hexternal, hexpanded]
    exact ⟨h₁.external, h₁.expanded, h₁.within⟩
  obtain ⟨hsub, hsum, hwithin⟩ := hstorage
  rcases hrow.resolve with hres | ⟨hbig, hres⟩
  · rw [hres, Option.toList_some]
    refine ⟨hsub, hsum, ?_, ?_, ?_, ?_, hwithin⟩
    · intro x hx h4 k hk
      obtain rfl := List.mem_singleton.mp hx
      rw [Row.entry_length] at h4
      obtain rfl := Option.some_inj.mp ((Row.entry_key row _).symm.trans hk)
      rw [hexternal]
      exact hkey h4
    · rw [hpending]
      cases hc : childOf order (row.entry hrow.inBounds) <;> simp [hc]
    · rw [hoffset, lastSingle_singleton]
    · rw [hsize, lastSingle_singleton]
  · -- A BigTIFF type is no pointer and no scalar, so the row only takes storage.
    rw [hres, Option.toList_none]
    have hkind : row.ty ≠ tiffShort ∧ row.ty ≠ tiffLong ∧ row.ty ≠ tiffIfd := by
      simp only [List.mem_cons, List.not_mem_nil, or_false] at hbig
      rcases hbig with h | h | h <;> (rw [h]; decide)
    obtain ⟨hshort, hlong, hifd⟩ := hkind
    have hchild : childOf order (row.entry hrow.inBounds) = none := by
      refine if_neg fun htag => ?_
      have := hpointer htag
      simp only [List.mem_cons, List.not_mem_nil, or_false] at this
      exact this.elim hlong hifd
    have hsingle : ∀ tag, single order tag (row.entry hrow.inBounds) = none := by
      refine fun tag => single_eq_none fun hx => ?_
      have := hx.2.1
      simp only [Row.entry_kind, List.mem_cons, List.not_mem_nil, or_false] at this
      exact this.elim hshort hlong
    refine ⟨hsub, hsum, fun x hx => (by cases hx), ?_, ?_, ?_, hwithin⟩
    · rw [hpending, hchild]
      rfl
    · rw [hoffset, hsingle]
      rfl
    · rw [hsize, hsingle]
      rfl

/-- The loop over the rows, as the reader sees them. -/
theorem scanRows_ensures (n e : ℕ) (s : Scan) (hfit : e + 12 * n ≤ tiff.length) :
    Ensures (scanRows host req tiff order n e s)
      (Scanned order req.maxMetadata (readEntries tiff order n e) s) := by
  induction n generalizing e s with
  | zero => exact ensures_pure (Scanned.nil _ s)
  | succ n ih =>
    refine (scanRow_ensures e s).bind fun s₁ h₁ => ?_
    refine (ih (e + 12) s₁ (by omega)).mono fun s₂ h₂ => ?_
    rw [readEntries, if_neg (by omega)]
    exact h₁.append h₂

/-! ### One directory -/

/-- The entries that the reader finds in the directory at `p`. -/
def entriesAt (tiff : Bytes) (order : ByteOrder) (p : ℕ) : List (Exif.Entry tiff) :=
  (rd16 tiff p order).elim [] fun count => readEntries tiff order count.toNat (p + 2)

/-- Where the directory at `p` says the next one is. -/
def nextAt (tiff : Bytes) (order : ByteOrder) (p : ℕ) : UInt32 :=
  (rd16 tiff p order).elim 0 fun count =>
    (rd32 tiff (p + 2 + count.toNat * 12) order).getD 0

/-- The directories that the one at `p` leads to. -/
def leadsTo (tiff : Bytes) (order : ByteOrder) (p : ℕ) : List ℕ :=
  (entriesAt tiff order p).filterMap (childOf order) ++
    if nextAt tiff order p = 0 then [] else [(nextAt tiff order p).toNat]

/-- The source range of a value out of line. -/
def bigKey (x : Exif.Entry tiff) : Option (ℕ × ℕ) :=
  if 4 < x.value.bytes.length then x.value.key else none

/-- Room for the values out of line, each source range once. -/
def storage (es : List (Exif.Entry tiff)) : ℕ :=
  ∑ k ∈ (es.filterMap bigKey).toFinset, align2 k.2

/-- Room for the thumbnail that the last offset and length name. -/
def thumbnailRoom (order : ByteOrder) (es : List (Exif.Entry tiff)) : ℕ :=
  match lastSingle order tagThumbOffset es, lastSingle order tagThumbLength es with
  | some _, some size => size
  | _, _ => 0

/-- What is reserved for the directory at `p`. -/
def cost (tiff : Bytes) (order : ByteOrder) (p : ℕ) : ℕ :=
  tableSize (entriesAt tiff order p) 0 + storage (entriesAt tiff order p) +
    thumbnailRoom order (entriesAt tiff order p)

theorem countThumbnail_ensures {es : List (Exif.Entry tiff)} {s s' : Scan}
    (h : Scanned order req.maxMetadata es s s') (hoff : s.thumbnailOffset = none)
    (hsize : s.thumbnailSize = none) (hlimit : s.expanded ≤ req.maxMetadata) :
    Ensures (countThumbnail host req tiff s') fun n =>
      n = s'.expanded + thumbnailRoom order es ∧ n ≤ req.maxMetadata := by
  have hoff' : s'.thumbnailOffset = lastSingle order tagThumbOffset es := by
    rw [h.offset, hoff, Option.or_none]
  have hsize' : s'.thumbnailSize = lastSingle order tagThumbLength es := by
    rw [h.size, hsize, Option.or_none]
  have hnone : thumbnailRoom order es = 0 → Ensures (pure s'.expanded : Act Ω Error ℕ) fun n =>
      n = s'.expanded + thumbnailRoom order es ∧ n ≤ req.maxMetadata := by
    intro hroom
    rw [hroom]
    exact ensures_pure ⟨rfl, h.within hlimit⟩
  unfold countThumbnail
  rw [hoff', hsize']
  cases ho : lastSingle order tagThumbOffset es with
  | none => exact hnone (by unfold thumbnailRoom; rw [ho])
  | some o =>
    cases hl : lastSingle order tagThumbLength es with
    | none => exact hnone (by unfold thumbnailRoom; rw [ho, hl])
    | some l =>
      have hroom : thumbnailRoom order es = l := by unfold thumbnailRoom; rw [ho, hl]
      rw [hroom]
      refine ensures_skip fun _ => ?_
      refine Ensures.bind (ensures_getOr fun _ h => h) fun n hn => ?_
      exact (packet_ensures n).bind fun _ hle => ensures_pure ⟨(checkedAdd_eq_some hn).symm, hle⟩

/-- Visiting a directory reserves its cost and pushes what it leads to. -/
theorem directory_ensures (p : ℕ) (w : Walk) :
    Ensures (directory host req tiff order p w) fun w' =>
      p ∉ w.visited ∧ w'.visited = insert p w.visited ∧
      w.expanded + cost tiff order p ≤ w'.expanded ∧ w'.expanded ≤ req.maxMetadata ∧
      ∃ pushed, pushed.Perm (leadsTo tiff order p) ∧ w'.pending = pushed ++ w.pending := by
  refine (ensures_require _ _).bind fun _ hfresh => ?_
  obtain ⟨-, hfresh, -⟩ := of_decide_eq_true hfresh
  refine (u16at_ensures p).bind fun count hcount => ?_
  refine Ensures.bind (ensures_getOr fun _ h => h) fun expanded hexp => ?_
  refine (packet_ensures expanded).bind fun _ hlimit => ?_
  refine Ensures.bind (ensures_getOr fun _ h => h) fun entries _ => ensures_skip fun _ => ?_
  refine Ensures.bind (ensures_getOr fun _ h => h) fun stop hstop => ?_
  refine (u32at_ensures stop).bind fun next hnext => ?_
  obtain ⟨hstop, hfit⟩ := Option.filter_eq_some_iff.mp hstop
  replace hstop := checkedAdd_eq_some hstop
  replace hfit : stop ≤ tiff.length := of_decide_eq_true hfit
  have hes : entriesAt tiff order p = readEntries tiff order count.toNat (p + 2) := by
    unfold entriesAt
    rw [hcount]
    rfl
  have hnext' : nextAt tiff order p = next := by
    unfold nextAt
    rw [hcount, Option.elim_some, show p + 2 + count.toNat * 12 = stop by omega, hnext]
    rfl
  refine (scanRows_ensures count.toNat (p + 2) _ (by omega)).bind fun s hs => ?_
  rw [← hes] at hs
  refine (countThumbnail_ensures hs rfl rfl hlimit).bind fun n ⟨hn, hle⟩ => ensures_pure ?_
  refine ⟨hfresh, rfl, ?_, hle, ?_⟩
  · have hcost := hs.expanded
    have hkeys : storage (entriesAt tiff order p) ≤ ∑ k ∈ s.external \ ∅, align2 k.2 := by
      refine Finset.sum_le_sum_of_subset fun k hk => ?_
      obtain ⟨x, hx, hxk⟩ := List.mem_filterMap.mp (List.mem_toFinset.mp hk)
      unfold bigKey at hxk
      split at hxk
      · next h4 => exact Finset.mem_sdiff.mpr ⟨hs.keys x hx h4 k hxk, Finset.notMem_empty k⟩
      · cases hxk
    have hlen : (entriesAt tiff order p).length ≤ count.toNat := by
      rw [hes]
      exact (readEntries_ok tiff order count.toNat (p + 2)).2
    have hexp := checkedAdd_eq_some hexp
    simp only at hcost
    simp only [cost, tableSize]
    show w.expanded + _ ≤ n
    omega
  · refine ⟨((entriesAt tiff order p).filterMap (childOf order)).reverse ++
      (if next = 0 then [] else [next.toNat]), ?_, ?_⟩
    · unfold leadsTo
      rw [hnext']
      exact (List.reverse_perm _).append_right _
    · show s.pending = _
      rw [hs.pending, List.append_assoc]
      split <;> rfl

/-! ### The walk -/

/-- A walk that may visit 64 directories in all needs no more visits. -/
theorem walk_enough (visits : ℕ) (w : Walk) (h : 64 ≤ w.visited.card + visits) :
    walk host req tiff order (visits + 1) w = walk host req tiff order visits w := by
  induction visits generalizing w with
  | zero =>
    rw [walk, walk]
    cases w.pending with
    | nil => rfl
    | cons p pending =>
      have hfull : decide (8 ≤ p ∧ p ∉ w.visited ∧ w.visited.card < 64) = false :=
        decide_eq_false fun hlt => by omega
      have hstop : directory host req tiff order p { w with pending } =
          Act.fail (.malformed "EXIF cyclic/excessive IFDs") := by
        unfold directory
        rw [hfull]
        rfl
      dsimp only
      rw [hstop]
      rfl
  | succ visits ih =>
    rw [walk, walk]
    cases w.pending with
    | nil => rfl
    | cons p pending =>
      dsimp only
      refine Ensures.bind_congr (R := fun _ => True) (fun _ _ _ => trivial) fun _ _ => ?_
      refine (directory_ensures p _).bind_congr fun w' hw' => ih w' ?_
      obtain ⟨hfresh, hvisited, -⟩ := hw'
      have hcard : w'.visited.card = w.visited.card + 1 := by
        rw [hvisited]
        exact Finset.card_insert_of_notMem hfresh
      omega

/-- An accepted walk visits each directory once, and reserves the cost of each. -/
theorem walk_ensures (visits : ℕ) (w : Walk)
    (hstart : w.pending ≠ [] ∨ w.expanded ≤ req.maxMetadata) :
    Ensures (walk host req tiff order visits w) fun r => r ≤ req.maxMetadata ∧
      ∃ l, Worklist.Visits (leadsTo tiff order) w.pending l ∧ (∀ p ∈ l, p ∉ w.visited) ∧
        w.expanded + (l.map (cost tiff order)).sum ≤ r := by
  have hdone : ∀ w : Walk, w.pending = [] → w.expanded ≤ req.maxMetadata →
      Ensures (pure w.expanded : Act Ω Error ℕ) fun r => r ≤ req.maxMetadata ∧
        ∃ l, Worklist.Visits (leadsTo tiff order) w.pending l ∧ (∀ p ∈ l, p ∉ w.visited) ∧
          w.expanded + (l.map (cost tiff order)).sum ≤ r := by
    intro w hempty hle
    rw [hempty]
    exact ensures_pure ⟨hle, [], Worklist.Visits.nil, fun p hp => (by cases hp), le_refl _⟩
  induction visits generalizing w with
  | zero =>
    unfold walk
    split
    · next hempty => exact hdone w hempty (hstart.resolve_left fun h => h hempty)
    · exact ensures_skip fun _ => ensures_fail _
  | succ visits ih =>
    unfold walk
    split
    · next hempty => exact hdone w hempty (hstart.resolve_left fun h => h hempty)
    · next p pending hcons =>
      refine ensures_skip fun _ => (directory_ensures p _).bind fun w' hw' => ?_
      obtain ⟨hfresh, hvisited, hcost, hle, pushed, hpush, hpending⟩ := hw'
      refine (ih w' (.inr hle)).mono fun r ⟨hr, l, hvisits, hnew, hsum⟩ => ?_
      rw [hpending] at hvisits
      have hp : p ∉ l := fun hmem => hnew p hmem (by rw [hvisited]; exact Finset.mem_insert_self _ _)
      refine ⟨hr, p :: l, ?_, ?_, ?_⟩
      · rw [hcons]
        exact hvisits.cons hpush hp
      · intro q hq
        rcases List.mem_cons.mp hq with rfl | hq
        · exact hfresh
        · intro hmem
          exact hnew q hq (by rw [hvisited]; exact Finset.mem_insert_of_mem hmem)
      · rw [List.map_cons, List.sum_cons]
        simp only at hcost
        omega

end Zencodec.Rewrite.Preflight
