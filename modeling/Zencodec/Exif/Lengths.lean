/-
Where the writer stores offsets.

`serializedLen_eq` says that the projected length of a tree is the length written.
This file adds what the offsets of that file are: `offsetFields` lists every field
of the file that holds one, with the bytes it names.

* `rowOffsets_spec` — the fields of one table, along `writeItems`;
* `offsetFields_spec` — when the file fits, each field holds its offset untruncated,
  and the bytes it names lie inside the file;
* `retain_predicted` — the length of every tree is predicted, and a blob the pruning
  route returns keeps to its size cap.
-/
import Zencodec.Exif.Retain

open Slices StableSort

namespace Zencodec.Exif

variable {src d : Bytes} {order : ByteOrder} {O : Type} [Orientation O]

/-! ### The offset fields of a file -/

/-- Four bytes at `field` that name the `size` bytes at `target`; all positions count from
the start of the TIFF. -/
structure OffsetField where
  field : ℕ
  target : ℕ
  size : ℕ
  deriving DecidableEq

/-- The bytes the pointer rows of a table name, by tag. -/
abbrev Extents := List (UInt16 × (ℕ × ℕ))

/-- The offset fields of the rows from `e` on, values being laid out from `extBase` as
`writeItems` does it. -/
def rowOffsets (extents : Extents) (extBase : ℕ) :
    ℕ → ExtState → List (Item src) → List OffsetField
  | _, _, [] => []
  | e, st, .ptr t _ :: its =>
    ((extents.lookup t).map fun x => ⟨e + 8, x.1, x.2⟩).toList
      ++ rowOffsets extents extBase (e + 12) st its
  | e, st, .real x :: its =>
    if x.value.bytes.length ≤ 4 then rowOffsets extents extBase (e + 12) st its
    else
      ⟨e + 8, extBase + (placeExt st x.value).1, x.value.bytes.length⟩
        :: rowOffsets extents extBase (e + 12) (placeExt st x.value).2 its

/-- The offset fields of the directory at `off`. -/
def dirOffsets (extents : Extents) (entries : List (Entry src))
    (ptrVals : List (UInt16 × UInt32)) (off : ℕ) : List OffsetField :=
  rowOffsets extents (off + tableSize entries ptrVals.length) (off + 2) ⟨[], []⟩
    (sortedItems entries ptrVals)

/-- The block a pointer names, when it is there. -/
def extentTo (block : Option (List (Entry src))) (tag : UInt16) (off nptr : ℕ) : Extents :=
  (block.map fun b => (tag, off, blockSize b nptr)).toList

/-- What the pointer rows of IFD0 name. -/
def ifd0Extents (x : Exif src) : Extents :=
  extentTo x.exifIfd tagExifIfd x.offsets.exif x.exifNptr
    ++ extentTo x.gpsIfd tagGpsIfd x.offsets.gps 0

/-- What the thumbnail offset of IFD1 names.  The other row of the pair is a length. -/
def ifd1Extents (x : Exif src) : Extents :=
  (x.thumbnail.map fun t => (tagThumbOffset, x.offsets.thumb, t.bytes.length)).toList

/-- Every field of the file that holds an offset: the root, the next-IFD field of IFD0, and
those of the rows. -/
def offsetFields (x : Exif src) : List OffsetField :=
  let o := x.offsets
  [⟨4, tiffHeaderSize, blockSize x.ifd0 x.ifd0Nptr⟩]
    ++ (x.ifd1.map fun b => ⟨tiffHeaderSize + 2 + 12 * (x.ifd0.length + x.ifd0Nptr), o.ifd1,
      blockSize b x.ifd1Nptr⟩).toList
    ++ dirOffsets x.ifd0Extents x.ifd0 x.ifd0Ptrs tiffHeaderSize
    ++ x.exifIfd.elim []
      (fun b => dirOffsets (extentTo x.interop tagInteropIfd o.interop 0) b
        (pointerTo x.interop tagInteropIfd o.interop) o.exif)
    ++ x.interop.elim [] (fun b => dirOffsets [] b [] o.interop)
    ++ x.gpsIfd.elim [] (fun b => dirOffsets [] b [] o.gps)
    ++ x.ifd1.elim [] (fun b => dirOffsets x.ifd1Extents b x.ifd1Ptrs o.ifd1)

/-- The field holds its offset, and what it names lies inside the file. -/
def OffsetField.Good (tiff : Bytes) (order : ByteOrder) (f : OffsetField) : Prop :=
  rd32 tiff f.field order = some (UInt32.ofNat f.target) ∧ f.target < 2 ^ 32 ∧
    f.target + f.size ≤ tiff.length

/-- A field that was written with an offset inside a file that fits. -/
theorem OffsetField.good_of_hasAt {f : OffsetField} (hd : d.length < 2 ^ 32)
    (hat : HasAt d f.field (put32 order (UInt32.ofNat f.target)))
    (hle : f.target + f.size ≤ d.length) : f.Good d order :=
  ⟨rd32_of_hasAt hat, by omega, hle⟩

/-! ### One table -/

/-- The pointer rows hold the offsets of their extents. -/
def PtrsNamed (extents : Extents) (ptrVals : List (UInt16 × UInt32)) : Prop :=
  ∀ t v o n, (t, v) ∈ ptrVals → extents.lookup t = some (o, n) → v = UInt32.ofNat o

theorem rowOffsets_spec {extents : Extents} {base e : ℕ} {items : List (Item src)}
    {st st' : ExtState} {rows ext : Bytes} (hd : d.length < 2 ^ 32)
    (hptr : ∀ t v o n, Item.ptr t v ∈ items → extents.lookup t = some (o, n) →
      v = UInt32.ofNat o ∧ o + n ≤ d.length)
    (hst : st.Ok src) (h : writeItems order base st items = (rows, st'))
    (hrows : HasAt d e rows) (hext : HasAt d base ext) (hpre : st'.ext <+: ext) :
    ∀ f ∈ rowOffsets extents base e st items, f.Good d order := by
  induction items generalizing e st rows with
  | nil =>
    intro f hf
    exact absurd hf (by simp [rowOffsets])
  | cons it its ih =>
    obtain ⟨row, st1, hrow⟩ : ∃ row st1, writeItem order base st it = (row, st1) :=
      ⟨_, _, rfl⟩
    obtain ⟨rest, stn, hrest⟩ : ∃ rest stn, writeItems order base st1 its = (rest, stn) :=
      ⟨_, _, rfl⟩
    simp only [writeItems, hrow, hrest] at h
    obtain ⟨rfl, rfl⟩ := Prod.mk.inj h
    obtain ⟨hok1, -, hlen⟩ := writeItem_ok hst hrow
    obtain ⟨hatrow, hatrest⟩ := hasAt_append.mp hrows
    rw [hlen] at hatrest
    have hpre1 : st1.ext <+: ext := (writeItems_ok hok1 hrest).2.1.trans hpre
    have hits := ih (fun t v o n hm => hptr t v o n (List.mem_cons_of_mem _ hm)) hok1 hrest
      hatrest
    cases it with
    | ptr t v =>
      obtain ⟨rfl, rfl⟩ := Prod.mk.inj hrow
      intro f hf
      simp only [rowOffsets, List.mem_append, Option.mem_toList, Option.map_eq_some_iff] at hf
      rcases hf with ⟨⟨o, n⟩, hlook, rfl⟩ | hf
      · -- The row holds the offset its extent starts at.
        obtain ⟨rfl, hle⟩ := hptr t v o n List.mem_cons_self hlook
        obtain ⟨-, hval⟩ := hasAt_append.mp hatrow
        exact OffsetField.good_of_hasAt hd (by simpa using hval) hle
      · exact hits f hf
    | real x =>
      simp only [writeItem] at hrow
      intro f hf
      simp only [rowOffsets] at hf
      by_cases h4 : x.value.bytes.length ≤ 4
      · rw [if_pos h4] at hrow hf
        obtain ⟨rfl, rfl⟩ := Prod.mk.inj hrow
        exact hits f hf
      · rw [if_neg h4] at hrow hf
        obtain ⟨rfl, rfl⟩ := Prod.mk.inj hrow
        rcases List.mem_cons.mp hf with rfl | hf
        · -- The value stands where the layout put it, inside the out-of-line data.
          obtain ⟨-, -, hat⟩ := placeExt_ok hst (by omega)
            (show placeExt st x.value = (_, _) from rfl)
          obtain ⟨-, hoff⟩ := hasAt_append.mp hatrow
          exact OffsetField.good_of_hasAt hd (by simpa using hoff)
            (hext.trans (hat.mono hpre1)).le
        · exact hits f hf

/-- The offset fields of a directory that was written at its offset. -/
theorem dirOffsets_spec {extents : Extents} {es : List (Entry src)}
    {ptrVals : List (UInt16 × UInt32)} {off : ℕ} {next : UInt32} (hd : d.length < 2 ^ 32)
    (hnamed : PtrsNamed extents ptrVals)
    (hin : ∀ t o n, extents.lookup t = some (o, n) → o + n ≤ d.length)
    (hat : HasAt d off (writeIfd order es ptrVals (off + tableSize es ptrVals.length) next)) :
    ∀ f ∈ dirOffsets extents es ptrVals off, f.Good d order := by
  obtain ⟨rows, st, hitems⟩ : ∃ rows st, writeItems order (off + tableSize es ptrVals.length)
      ⟨[], []⟩ (sortedItems es ptrVals) = (rows, st) := ⟨_, _, rfl⟩
  obtain ⟨-, -, hlen⟩ := writeItems_ok (ExtState.ok_nil src) hitems
  simp only [writeIfd, hitems] at hat
  obtain ⟨hat, hext⟩ := hasAt_append.mp hat
  obtain ⟨hat, -⟩ := hasAt_append.mp hat
  obtain ⟨-, hrows⟩ := hasAt_append.mp hat
  simp only [List.length_append, length_put16, length_put32, hlen, length_sortedItems]
    at hext hrows
  refine rowOffsets_spec hd (fun t v o n hm hl => ⟨hnamed t v o n ?_ hl, hin t o n hl⟩)
    (ExtState.ok_nil src) hitems hrows hext List.prefix_rfl
  -- The pointer rows among the sorted rows are the pointers given.
  rcases List.mem_append.mp (mem_sortBy.mp hm) with hm | hm
  · obtain ⟨e, -, he⟩ := List.mem_map.mp hm
    exact absurd he (by simp)
  · obtain ⟨q, hq, hqe⟩ := List.mem_map.mp hm
    obtain ⟨rfl, rfl⟩ := Item.ptr.inj hqe
    exact hq

/-! ### The whole file -/

theorem lookup_extentTo {block : Option (List (Entry src))} {tag t : UInt16} {off nptr o n : ℕ}
    (h : (extentTo block tag off nptr).lookup t = some (o, n)) :
    t = tag ∧ o = off ∧ ∃ b, block = some b ∧ n = blockSize b nptr := by
  cases block with
  | none => exact absurd h (by simp [extentTo])
  | some b =>
    simp only [extentTo, Option.map_some, Option.toList_some, List.lookup_cons,
      List.lookup_nil] at h
    split at h
    · next ht =>
      obtain ⟨rfl, rfl⟩ := Prod.mk.inj (Option.some_inj.mp h)
      exact ⟨by simpa using ht, rfl, b, rfl, rfl⟩
    · exact absurd h (by simp)

theorem mem_pointerTo {block : Option (List (Entry src))} {tag t : UInt16} {off : ℕ}
    {v : UInt32} (h : (t, v) ∈ pointerTo block tag off) : t = tag ∧ v = UInt32.ofNat off := by
  unfold pointerTo at h
  split at h
  · obtain ⟨rfl, rfl⟩ := Prod.mk.inj (List.mem_singleton.mp h)
    exact ⟨rfl, rfl⟩
  · exact absurd h (by simp)

/-- A pointer to one block. -/
theorem ptrsNamed_pointerTo {block : Option (List (Entry src))} {tag : UInt16} {off nptr : ℕ} :
    PtrsNamed (extentTo block tag off nptr) (pointerTo block tag off) := by
  intro t v o n hm hl
  obtain ⟨-, rfl, -⟩ := lookup_extentTo hl
  exact (mem_pointerTo hm).2

theorem lookup_append {α β : Type} [BEq α] {l₁ l₂ : List (α × β)} {a : α} {b : β}
    (h : (l₁ ++ l₂).lookup a = some b) : l₁.lookup a = some b ∨ l₂.lookup a = some b := by
  rw [List.lookup_append] at h
  cases h1 : l₁.lookup a with
  | none =>
    rw [h1] at h
    exact .inr (by simpa using h)
  | some c =>
    rw [h1] at h
    exact .inl (by simpa using h)

theorem ptrsNamed_ifd0 (x : Exif src) : PtrsNamed x.ifd0Extents x.ifd0Ptrs := by
  have hne : tagExifIfd ≠ tagGpsIfd := by decide
  intro t v o n hm hl
  rcases lookup_append hl with hl | hl
  · obtain ⟨rfl, rfl, -⟩ := lookup_extentTo hl
    rcases List.mem_append.mp hm with hm | hm
    · exact (mem_pointerTo hm).2
    · exact absurd (mem_pointerTo hm).1 hne
  · obtain ⟨rfl, rfl, -⟩ := lookup_extentTo hl
    rcases List.mem_append.mp hm with hm | hm
    · exact absurd (mem_pointerTo hm).1 hne.symm
    · exact (mem_pointerTo hm).2

theorem lookup_ifd1Extents {x : Exif src} {t : UInt16} {o n : ℕ}
    (h : x.ifd1Extents.lookup t = some (o, n)) :
    t = tagThumbOffset ∧ o = x.offsets.thumb ∧ ∃ s, x.thumbnail = some s ∧ n = s.bytes.length := by
  unfold ifd1Extents at h
  cases hs : x.thumbnail with
  | none =>
    rw [hs] at h
    exact absurd h (by simp)
  | some s =>
    simp only [hs, Option.map_some, Option.toList_some, List.lookup_cons, List.lookup_nil] at h
    split at h
    · next ht =>
      obtain ⟨rfl, rfl⟩ := Prod.mk.inj (Option.some_inj.mp h)
      exact ⟨by simpa using ht, rfl, s, rfl, rfl⟩
    · exact absurd h (by simp)

theorem ptrsNamed_ifd1 (x : Exif src) : PtrsNamed x.ifd1Extents x.ifd1Ptrs := by
  have hne : tagThumbOffset ≠ tagThumbLength := by decide
  intro t v o n hm hl
  obtain ⟨rfl, rfl, s, hs, -⟩ := lookup_ifd1Extents hl
  simp only [ifd1Ptrs, hs, List.mem_cons, List.not_mem_nil, or_false, Prod.mk.injEq] at hm
  rcases hm with ⟨-, rfl⟩ | ⟨h, -⟩
  · rfl
  · exact absurd h hne

/-- **Every offset of a file that fits** is stored untruncated and names bytes of the file. -/
theorem offsetFields_spec {x : Exif src} (hp : x.Placed d) (hfit : x.tiffLen < 2 ^ 32) :
    ∀ f ∈ x.offsetFields, f.Good d x.order := by
  obtain ⟨hle0, hle1, hle2, hle3, hle4, hle5⟩ := x.offsets_le
  have hlen := hp.length
  have hd : d.length < 2 ^ 32 := by omega
  have hblock : ∀ {b : Option (List (Entry src))} {tag t : UInt16} {off nptr o n : ℕ},
      off + b.elim 0 (blockSize · nptr) ≤ d.length →
      (extentTo b tag off nptr).lookup t = some (o, n) → o + n ≤ d.length := by
    intro b tag t off nptr o n hle hl
    obtain ⟨-, rfl, b, rfl, rfl⟩ := lookup_extentTo hl
    exact hle
  have hnone : ∀ (t : UInt16) (o n : ℕ),
      (([] : Extents).lookup t) = some (o, n) → o + n ≤ d.length := by
    intro t o n hl
    exact absurd hl (by simp)
  intro f hf
  simp only [offsetFields, List.mem_append] at hf
  rcases hf with (((((hf | hf) | hf) | hf) | hf) | hf) | hf
  · obtain rfl := List.mem_singleton.mp hf
    exact OffsetField.good_of_hasAt hd hp.root (by dsimp only; omega)
  · -- The next-IFD field stands right behind the rows of IFD0.
    obtain ⟨b, hb, rfl⟩ := Option.map_eq_some_iff.mp (Option.mem_toList.mp hf)
    obtain ⟨rows, st, hitems⟩ : ∃ rows st, writeItems x.order
        (tiffHeaderSize + tableSize x.ifd0 x.ifd0Ptrs.length) ⟨[], []⟩
        (sortedItems x.ifd0 x.ifd0Ptrs) = (rows, st) := ⟨_, _, rfl⟩
    obtain ⟨-, -, hrows⟩ := writeItems_ok (ExtState.ok_nil src) hitems
    have hat := hp.ifd0
    simp only [writeBlock, writeIfd, hitems] at hat
    obtain ⟨hat, -⟩ := hasAt_append.mp hat
    obtain ⟨-, hat⟩ := hasAt_append.mp hat
    simp only [List.length_append, length_put16, hrows, length_sortedItems, length_ifd0Ptrs,
      ifd0Next, hb, Option.isSome_some, if_true] at hat
    rw [hb, Option.elim_some] at hle4
    exact OffsetField.good_of_hasAt hd (by rw [Nat.add_assoc]; exact hat) (by dsimp only; omega)
  · refine dirOffsets_spec hd x.ptrsNamed_ifd0 (fun t o n hl => ?_) hp.ifd0 f hf
    rcases lookup_append hl with hl | hl
    · exact hblock (by omega) hl
    · exact hblock (by omega) hl
  · cases he : x.exifIfd with
    | none =>
      rw [he] at hf
      exact absurd hf (by simp)
    | some b =>
      rw [he] at hf
      exact dirOffsets_spec hd ptrsNamed_pointerTo (fun t o n hl => hblock (by omega) hl)
        (hp.exif b he) f hf
  · cases he : x.interop with
    | none =>
      rw [he] at hf
      exact absurd hf (by simp)
    | some b =>
      rw [he] at hf
      exact dirOffsets_spec hd (fun t v o n hm => absurd hm (by simp)) hnone (hp.interop b he) f hf
  · cases he : x.gpsIfd with
    | none =>
      rw [he] at hf
      exact absurd hf (by simp)
    | some b =>
      rw [he] at hf
      exact dirOffsets_spec hd (fun t v o n hm => absurd hm (by simp)) hnone (hp.gps b he) f hf
  · cases he : x.ifd1 with
    | none =>
      rw [he] at hf
      exact absurd hf (by simp)
    | some b =>
      rw [he] at hf
      refine dirOffsets_spec hd x.ptrsNamed_ifd1 (fun t o n hl => ?_) (hp.ifd1 b he) f hf
      obtain ⟨-, rfl, s, hs, rfl⟩ := lookup_ifd1Extents hl
      rw [hs, Option.elim_some] at hle5
      omega

/-- **The written length is predicted.**  The projected length of every tree, parsed or new,
edited or pruned, is the length written.  A blob the pruning route returns is a pruned tree,
written, within the size cap, and each of its offsets fits in 32 bits and names bytes of the
blob. -/
theorem retain_predicted [DecidableEq O] :
    (∀ (src : Bytes) (x : Exif src), x.serializedLen = x.toBytes.length) ∧
    ∀ (data : Bytes) (policy : ExifPolicy) (want : Option O) (out : Bytes),
      policy.keepsEverything = false → retainReconciled data policy want = some (.owned out) →
      out.length ≤ min (2 * data.length + 1024) (2 ^ 32 - 1) ∧
      ∃ x, parse data = some x ∧ out = (x.prune policy want).toBytes ∧
        ∀ f ∈ (x.prune policy want).offsetFields, f.Good (tiffOf out) x.order := by
  refine ⟨fun src x => x.serializedLen_eq, fun data policy want out hk h => ?_⟩
  obtain ⟨x, hx, hr⟩ := retain_prune hk h
  obtain rfl : out = (x.prune policy want).toBytes := Retained.owned.inj hr
  refine ⟨?_, x, hx.parsed, rfl, ?_⟩
  · rw [← serializedLen_eq]
    have hcap := hx.cap
    unfold sizeCap u32Max at hcap
    omega
  · have horder : (x.prune policy want).order = x.order := by
      cases want <;> rfl
    rw [tiffOf_toBytes, ← horder]
    exact offsetFields_spec (x.prune policy want).placed_tiffBytes
      ((tiffLen_le_serializedLen _).trans_lt hx.lt)

theorem retain_predicted_sample : ∃ out, out.length ≤ 1152 ∧
    retainReconciled sampleBlob .attributedOrientation (some Turn.identity) =
      some (.owned out) := by
  have hr := (Option.some_get retain_sampleBlob).symm
  obtain ⟨x, -, hout⟩ := retain_prune (by decide) hr
  rw [hout] at hr
  obtain ⟨hlen, -⟩ := retain_predicted.2 sampleBlob .attributedOrientation
    (some Turn.identity) _ (by decide) hr
  exact ⟨_, hlen.trans (by decide), hr⟩

end Zencodec.Exif
