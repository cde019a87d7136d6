/-
The round trip of a whole file.

* `length_tiffBytes`, `serializedLen_eq` — the projected length is the length
  written, and every block starts at its offset (`Placed`).
* `parseTiff_tiffBytes` — a reproducible tree is read back: `Rereads` relates it to
  the tree that was written, directory by directory.
* `Rereads.view_eq`, `Rereads.toBytes_eq` — a tree read back has the canonical
  content, and is written as the same bytes.
-/
import Zencodec.Exif.Block

open Slices StableSort

namespace Zencodec.Exif

variable {src d : Bytes} {order : ByteOrder}

/-! ### One directory -/

/-- `es'` has the fields of `es` in tag order, and is written as the same block. -/
structure SameDir (order : ByteOrder) (ptrVals : List (UInt16 × UInt32)) (off : ℕ)
    (next : UInt32) (es : List (Entry src)) (es' : List (Entry d)) : Prop where
  fields_eq : fields es' = canonicalDir (fields es)
  written : writeIfd order es' ptrVals (off + tableSize es' ptrVals.length) next =
    writeIfd order es ptrVals (off + tableSize es ptrVals.length) next

theorem SameDir.blockSize_eq {ptrVals : List (UInt16 × UInt32)} {off : ℕ} {next : UInt32}
    {es : List (Entry src)} {es' : List (Entry d)}
    (h : SameDir order ptrVals off next es es') :
    blockSize es' ptrVals.length = blockSize es ptrVals.length := by
  rw [← length_writeIfd, h.written, length_writeIfd]

/-- The entries read back, without the pointers, are the directory again. -/
theorem ReadBack.sameDir {ptrVals : List (UInt16 × UInt32)} {off : ℕ} {next : UInt32}
    {es : List (Entry src)} {es' : List (Entry d)} (hw : Writable es ptrVals)
    (h : ReadBack order es ptrVals (off + tableSize es ptrVals.length) next es') :
    SameDir order ptrVals off next es (withoutPtrs ptrVals es') := by
  have hfields : fields (withoutPtrs ptrVals es') = canonicalDir (fields es) := by
    have hf := congrArg (List.filter fun f => (ptrVals.lookup f.tag).isNone) h.fields_eq
    have hkeep : (fields es).filter (fun f => (ptrVals.lookup f.tag).isNone) = fields es := by
      refine List.filter_eq_self.mpr fun f hf => ?_
      obtain ⟨e, he, rfl⟩ := List.mem_map.mp hf
      rw [Entry.field_tag, lookup_of_forall_ne (hw.apart e he)]
      rfl
    have hdrop : (ptrVals.map (ptrField order)).filter
        (fun f => (ptrVals.lookup f.tag).isNone) = [] := by
      refine List.filter_eq_nil_iff.mpr fun f hf => ?_
      obtain ⟨⟨t, v⟩, hq, rfl⟩ := List.mem_map.mp hf
      simp [ptrField, lookup_of_mem hw.nodup hq]
    rw [canonicalDir, filter_sortBy, List.filter_append, hkeep, hdrop, List.append_nil] at hf
    rw [← canonicalDir] at hf
    rw [← hf, fields, fields, withoutPtrs, List.filter_map]
    rfl
  have hlen : (withoutPtrs ptrVals es').length = es.length := by
    have := congrArg List.length hfields
    simpa [fields, canonicalDir] using this
  refine ⟨hfields, ?_⟩
  rw [show tableSize (withoutPtrs ptrVals es') ptrVals.length = tableSize es ptrVals.length by
    rw [tableSize, tableSize, hlen]]
  exact h.rewrites

/-! ### Optional directories -/

theorem elim_of_rel {α β γ : Type} {R : α → β → Prop} {a : Option α} {b : Option β}
    (h : Option.Rel R a b) {z : γ} {f : α → γ} {g : β → γ} (hfg : ∀ x y, R x y → g y = f x) :
    b.elim z g = a.elim z f := by
  cases h with
  | none => rfl
  | some hr => exact hfg _ _ hr

theorem isSome_of_rel {α β : Type} {R : α → β → Prop} {a : Option α} {b : Option β}
    (h : Option.Rel R a b) : b.isSome = a.isSome := by
  cases h <;> rfl

theorem exists_of_rel {α β : Type} {R : α → β → Prop} {a : Option α} {b : Option β}
    (h : Option.Rel R a b) {y : β} (hb : b = some y) : ∃ x, a = some x ∧ R x y := by
  subst hb
  cases h with
  | some hr => exact ⟨_, rfl, hr⟩

theorem map_fields_of_rel {ptrVals : List (UInt16 × UInt32)} {off : ℕ} {next : UInt32}
    {a : Option (List (Entry src))} {b : Option (List (Entry d))}
    (h : Option.Rel (SameDir order ptrVals off next) a b) :
    b.map fields = (a.map fields).map canonicalDir := by
  cases h with
  | none => rfl
  | some hr => simp [hr.fields_eq]

/-! ### The layout -/

/-- The next-IFD offset of IFD0. -/
def ifd0Next (x : Exif src) : UInt32 := if x.ifd1.isSome then UInt32.ofNat x.offsets.ifd1 else 0

theorem length_pointerTo (child : Option (List (Entry src))) (t : UInt16) (off : ℕ) :
    (pointerTo child t off).length = child.isSome.toNat := by
  cases child <;> rfl

theorem length_ifd0Ptrs (x : Exif src) : x.ifd0Ptrs.length = x.ifd0Nptr := by
  rw [ifd0Ptrs, List.length_append, length_pointerTo, length_pointerTo, ifd0Nptr]

theorem length_ifd1Ptrs (x : Exif src) : x.ifd1Ptrs.length = x.ifd1Nptr := by
  unfold ifd1Ptrs ifd1Nptr
  cases x.thumbnail <;> rfl

theorem length_writeBlock (x : Exif src) (es : List (Entry src))
    (ptrVals : List (UInt16 × UInt32)) (off : ℕ) (next : UInt32) :
    (x.writeBlock es ptrVals off next).length = blockSize es ptrVals.length :=
  length_writeIfd ..

@[simp] theorem length_orderMark : (orderMark order).length = 2 := by
  cases order <;> rfl

/-- The end of the file: where the thumbnail ends. -/
def tiffLen (x : Exif src) : ℕ := x.offsets.thumb + x.thumbnail.elim 0 fun t => t.bytes.length

/-- Every part of the file stands at its offset. -/
structure Placed (x : Exif src) (tiff : Bytes) : Prop where
  mark : HasAt tiff 0 (orderMark x.order)
  magic : HasAt tiff 2 (put16 x.order 42)
  root : HasAt tiff 4 (put32 x.order (UInt32.ofNat tiffHeaderSize))
  ifd0 : HasAt tiff tiffHeaderSize (x.writeBlock x.ifd0 x.ifd0Ptrs tiffHeaderSize x.ifd0Next)
  exif : ∀ e, x.exifIfd = some e → HasAt tiff x.offsets.exif
    (x.writeBlock e (pointerTo x.interop tagInteropIfd x.offsets.interop) x.offsets.exif 0)
  interop : ∀ e, x.interop = some e →
    HasAt tiff x.offsets.interop (x.writeBlock e [] x.offsets.interop 0)
  gps : ∀ e, x.gpsIfd = some e → HasAt tiff x.offsets.gps (x.writeBlock e [] x.offsets.gps 0)
  ifd1 : ∀ e, x.ifd1 = some e →
    HasAt tiff x.offsets.ifd1 (x.writeBlock e x.ifd1Ptrs x.offsets.ifd1 0)
  thumb : ∀ t, x.thumbnail = some t → HasAt tiff x.offsets.thumb t.bytes
  length : tiff.length = x.tiffLen

theorem placed_tiffBytes (x : Exif src) : x.Placed x.tiffBytes := by
  have hself := hasAt_self x.tiffBytes
  obtain ⟨h, hthumb⟩ := hasAt_append.mp hself
  obtain ⟨h, hifd1⟩ := hasAt_append.mp h
  obtain ⟨h, hgps⟩ := hasAt_append.mp h
  obtain ⟨h, hinterop⟩ := hasAt_append.mp h
  obtain ⟨h, hexif⟩ := hasAt_append.mp h
  obtain ⟨h, hifd0⟩ := hasAt_append.mp h
  obtain ⟨h, hroot⟩ := hasAt_append.mp h
  obtain ⟨hmark, hmagic⟩ := hasAt_append.mp h
  have hlen0 : ∀ next, (x.writeBlock x.ifd0 x.ifd0Ptrs tiffHeaderSize next).length =
      blockSize x.ifd0 x.ifd0Nptr := fun next => by rw [length_writeBlock, length_ifd0Ptrs]
  have hlenExif : (x.exifIfd.elim [] fun e => x.writeBlock e
        (pointerTo x.interop tagInteropIfd x.offsets.interop) x.offsets.exif 0).length =
      x.exifIfd.elim 0 (blockSize · x.exifNptr) := by
    cases x.exifIfd <;> simp [length_writeBlock, length_pointerTo, exifNptr]
  have hlenBare : ∀ (c : Option (List (Entry src))) (off : ℕ),
      (c.elim [] fun e => x.writeBlock e [] off 0).length = c.elim 0 (blockSize · 0) := by
    intro c off
    cases c <;> simp [length_writeBlock]
  have hlenIfd1 : (x.ifd1.elim [] fun e => x.writeBlock e x.ifd1Ptrs x.offsets.ifd1 0).length =
      x.ifd1.elim 0 (blockSize · x.ifd1Nptr) := by
    cases x.ifd1 <;> simp [length_writeBlock, length_ifd1Ptrs]
  simp only [List.length_append, length_orderMark, length_put16, length_put32, hlen0, hlenExif,
    hlenBare, hlenIfd1, Nat.zero_add] at hmagic hroot hifd0 hexif hinterop hgps hifd1 hthumb
  refine ⟨hmark, hmagic, hroot, hifd0, ?_, ?_, ?_, ?_, ?_, ?_⟩
  · intro e he
    rw [he] at hexif
    exact hexif
  · intro e he
    rw [he] at hinterop
    exact hinterop
  · intro e he
    rw [he] at hgps
    exact hgps
  · intro e he
    rw [he] at hifd1
    exact hifd1
  · intro t ht
    rw [ht] at hthumb
    exact hthumb
  · have hthumbLen : (x.thumbnail.elim [] Slice.bytes).length =
        x.thumbnail.elim 0 fun t => t.bytes.length := by
      cases x.thumbnail <;> rfl
    simp only [tiffBytes, List.length_append, length_orderMark, length_put16, length_put32,
      hlen0, hlenExif, hlenBare, hlenIfd1, hthumbLen]
    rfl

/-- The projected length is the length written. -/
theorem serializedLen_eq (x : Exif src) : x.serializedLen = x.toBytes.length := by
  have hlen := x.placed_tiffBytes.length
  rw [toBytes, List.length_append, hlen, tiffLen, offsets, serializedLen]
  cases x.hadPrefix <;> simp [exifPrefix]
  omega

/-! ### A tree that was read back -/

/-- `t` is what the reader makes of the bytes of `x`, directory by directory. -/
structure Rereads (x : Exif src) (t : Exif d) : Prop where
  order_eq : t.order = x.order
  hadPrefix_eq : t.hadPrefix = x.hadPrefix
  ifd0 : SameDir x.order x.ifd0Ptrs tiffHeaderSize x.ifd0Next x.ifd0 t.ifd0
  exif : Option.Rel (SameDir x.order (pointerTo x.interop tagInteropIfd x.offsets.interop)
    x.offsets.exif 0) x.exifIfd t.exifIfd
  interop : Option.Rel (SameDir x.order [] x.offsets.interop 0) x.interopIfd t.interopIfd
  gps : Option.Rel (SameDir x.order [] x.offsets.gps 0) x.gpsIfd t.gpsIfd
  ifd1 : Option.Rel (SameDir x.order x.ifd1Ptrs x.offsets.ifd1 0) x.ifd1 t.ifd1
  thumbnail : t.thumbnail.map Slice.bytes = x.thumbnail.map Slice.bytes

namespace Rereads

variable {x : Exif src} {t : Exif d}

/-- A tree read back has the canonical content. -/
theorem view_eq (h : Rereads x t) : t.view = x.view.canonical := by
  simp only [view, Tree.canonical, h.order_eq, h.hadPrefix_eq, h.ifd0.fields_eq,
    map_fields_of_rel h.exif, map_fields_of_rel h.gps, map_fields_of_rel h.interop,
    map_fields_of_rel h.ifd1, h.thumbnail]

theorem interop_rel (h : Rereads x t) :
    Option.Rel (SameDir x.order [] x.offsets.interop 0) x.interop t.interop := by
  have hexif := isSome_of_rel h.exif
  unfold Exif.interop
  cases hx : x.exifIfd <;> cases ht : t.exifIfd
  · exact .none
  · simp [hx, ht] at hexif
  · simp [hx, ht] at hexif
  · exact h.interop

theorem thumbnail_isSome (h : Rereads x t) : t.thumbnail.isSome = x.thumbnail.isSome := by
  simpa using congrArg Option.isSome h.thumbnail

theorem offsets_eq (h : Rereads x t) : t.offsets = x.offsets := by
  have hifd0n : t.ifd0Nptr = x.ifd0Nptr := by
    rw [ifd0Nptr, ifd0Nptr, isSome_of_rel h.exif, isSome_of_rel h.gps]
  have hexifn : t.exifNptr = x.exifNptr := by
    rw [exifNptr, exifNptr, isSome_of_rel h.interop_rel]
  have hifd1n : t.ifd1Nptr = x.ifd1Nptr := by
    rw [ifd1Nptr, ifd1Nptr, h.thumbnail_isSome]
  have hifd0 : blockSize t.ifd0 t.ifd0Nptr = blockSize x.ifd0 x.ifd0Nptr := by
    rw [hifd0n, ← length_ifd0Ptrs]
    exact h.ifd0.blockSize_eq
  have hexif : t.exifIfd.elim 0 (blockSize · t.exifNptr) =
      x.exifIfd.elim 0 (blockSize · x.exifNptr) := by
    refine elim_of_rel h.exif fun e e' he => ?_
    rw [hexifn, exifNptr, ← length_pointerTo x.interop tagInteropIfd x.offsets.interop]
    exact he.blockSize_eq
  have hifd1 : t.ifd1.elim 0 (blockSize · t.ifd1Nptr) =
      x.ifd1.elim 0 (blockSize · x.ifd1Nptr) := by
    refine elim_of_rel h.ifd1 fun e e' he => ?_
    rw [hifd1n, ← length_ifd1Ptrs]
    exact he.blockSize_eq
  have hinterop := elim_of_rel h.interop_rel (z := 0) (f := (blockSize · 0))
    (g := (blockSize · 0)) fun e e' he => he.blockSize_eq
  have hgps := elim_of_rel h.gps (z := 0) (f := (blockSize · 0))
    (g := (blockSize · 0)) fun e e' he => he.blockSize_eq
  simp only [offsets, hifd0, hexif, hinterop, hgps, hifd1]

/-- A tree read back is written as the same bytes. -/
theorem toBytes_eq (h : Rereads x t) : t.toBytes = x.toBytes := by
  have hifd0 : t.ifd0Ptrs = x.ifd0Ptrs := by
    simp only [ifd0Ptrs, pointerTo, h.offsets_eq, isSome_of_rel h.exif,
      isSome_of_rel h.gps]
  have hptr : pointerTo t.interop tagInteropIfd t.offsets.interop =
      pointerTo x.interop tagInteropIfd x.offsets.interop := by
    rw [pointerTo, pointerTo, h.offsets_eq, isSome_of_rel h.interop_rel]
  have hifd1 : t.ifd1Ptrs = x.ifd1Ptrs := by
    have hthumb := h.thumbnail
    unfold ifd1Ptrs
    cases hx : x.thumbnail <;> cases ht : t.thumbnail <;> simp_all [h.offsets_eq]
  have hthumb : t.thumbnail.elim [] Slice.bytes = x.thumbnail.elim [] Slice.bytes := by
    have := congrArg (·.getD []) h.thumbnail
    cases hx : x.thumbnail <;> cases ht : t.thumbnail <;> simp_all
  have hb0 : t.writeBlock t.ifd0 t.ifd0Ptrs tiffHeaderSize
      (if t.ifd1.isSome then UInt32.ofNat t.offsets.ifd1 else 0) =
      x.writeBlock x.ifd0 x.ifd0Ptrs tiffHeaderSize x.ifd0Next := by
    rw [writeBlock, h.order_eq, hifd0, h.offsets_eq, isSome_of_rel h.ifd1]
    exact h.ifd0.written
  have hb1 := elim_of_rel h.exif (z := ([] : Bytes))
    (f := fun e => x.writeBlock e (pointerTo x.interop tagInteropIfd x.offsets.interop)
      x.offsets.exif 0)
    (g := fun e => t.writeBlock e (pointerTo t.interop tagInteropIfd t.offsets.interop)
      t.offsets.exif 0) fun e e' he => by
      rw [writeBlock, h.order_eq, hptr, h.offsets_eq]
      exact he.written
  have hb2 := elim_of_rel h.interop_rel (z := ([] : Bytes))
    (f := fun e => x.writeBlock e [] x.offsets.interop 0)
    (g := fun e => t.writeBlock e [] t.offsets.interop 0) fun e e' he => by
      rw [writeBlock, h.order_eq, h.offsets_eq]
      exact he.written
  have hb3 := elim_of_rel h.gps (z := ([] : Bytes))
    (f := fun e => x.writeBlock e [] x.offsets.gps 0)
    (g := fun e => t.writeBlock e [] t.offsets.gps 0) fun e e' he => by
      rw [writeBlock, h.order_eq, h.offsets_eq]
      exact he.written
  have hb4 := elim_of_rel h.ifd1 (z := ([] : Bytes))
    (f := fun e => x.writeBlock e x.ifd1Ptrs x.offsets.ifd1 0)
    (g := fun e => t.writeBlock e t.ifd1Ptrs t.offsets.ifd1 0) fun e e' he => by
      rw [writeBlock, h.order_eq, hifd1, h.offsets_eq]
      exact he.written
  simp only [toBytes, tiffBytes, hb0, hb1, hb2, hb3, hb4, hthumb, h.order_eq, h.hadPrefix_eq]
  rfl

end Rereads

/-! ### Reading the file back -/

namespace Reproducible

variable {x : Exif src}

theorem writable_bare {es : List (Entry src)} (h : DirOk es 0) : Writable es [] :=
  ⟨h.sound, h.room, by simp, by simp⟩

theorem writable_ifd0 (h : Reproducible x) : Writable x.ifd0 x.ifd0Ptrs := by
  refine ⟨h.ifd0Ok.sound, ?_, fun e he q hq => ?_, ?_⟩
  · rw [length_ifd0Ptrs]
    exact h.ifd0Ok.room
  · unfold ifd0Ptrs pointerTo at hq
    rcases List.mem_append.mp hq with hq | hq
    · split at hq
      · next hc =>
        obtain rfl := List.mem_singleton.mp hq
        exact h.exifPtr.1 hc e he
      · exact absurd hq (by simp)
    · split at hq
      · next hc =>
        obtain rfl := List.mem_singleton.mp hq
        exact h.gpsPtr.1 hc e he
      · exact absurd hq (by simp)
  · unfold ifd0Ptrs pointerTo
    cases x.exifIfd <;> cases x.gpsIfd <;> simp [tagExifIfd, tagGpsIfd]

theorem writable_exif (h : Reproducible x) {e : List (Entry src)} (he : x.exifIfd = some e)
    (off : ℕ) : Writable e (pointerTo x.interop tagInteropIfd off) := by
  have hptr := h.interopPtr e he
  rw [← h.interop_eq] at hptr
  refine ⟨(h.exifOk e he).sound, ?_, fun f hf q hq => ?_, ?_⟩
  · rw [length_pointerTo]
    exact (h.exifOk e he).room
  · unfold pointerTo at hq
    split at hq
    · next hc =>
      obtain rfl := List.mem_singleton.mp hq
      exact hptr.1 hc f hf
    · exact absurd hq (by simp)
  · unfold pointerTo
    split <;> simp

theorem writable_ifd1 (h : Reproducible x) {e : List (Entry src)} (he : x.ifd1 = some e) :
    Writable e x.ifd1Ptrs := by
  refine ⟨(h.ifd1Ok e he).sound, ?_, fun f hf q hq => ?_, ?_⟩
  · rw [length_ifd1Ptrs]
    exact (h.ifd1Ok e he).room
  · unfold ifd1Ptrs at hq
    obtain ⟨hoff, hlen⟩ := h.thumbTags e he f hf
    split at hq
    · exact absurd hq (by simp)
    · rcases List.mem_pair.mp hq with rfl | rfl
      · exact hoff
      · exact hlen
  · unfold ifd1Ptrs
    split <;> simp [tagThumbOffset, tagThumbLength]

end Reproducible

/-- The blocks lie one after the other, the last before the end of the file. -/
theorem offsets_le (x : Exif src) :
    tiffHeaderSize + blockSize x.ifd0 x.ifd0Nptr ≤ x.offsets.exif ∧
    x.offsets.exif + x.exifIfd.elim 0 (blockSize · x.exifNptr) ≤ x.offsets.interop ∧
    x.offsets.interop + x.interop.elim 0 (blockSize · 0) ≤ x.offsets.gps ∧
    x.offsets.gps + x.gpsIfd.elim 0 (blockSize · 0) ≤ x.offsets.ifd1 ∧
    x.offsets.ifd1 + x.ifd1.elim 0 (blockSize · x.ifd1Nptr) ≤ x.offsets.thumb ∧
    x.offsets.thumb + x.thumbnail.elim 0 (fun t => t.bytes.length) ≤ x.tiffLen :=
  ⟨le_rfl, le_rfl, le_rfl, le_rfl, le_rfl, le_rfl⟩

/-- A directory with no pointers of its own is read back through its pointer. -/
theorem parse_bare {c : Option (List (Entry src))} {off : ℕ}
    (hok : ∀ e, c = some e → DirOk e 0)
    (hat : ∀ e, c = some e → HasAt d off (writeIfd order e [] (off + tableSize e 0) 0))
    (hfit : off + c.elim 0 (blockSize · 0) < 2 ^ 32) :
    Option.Rel (SameDir order [] off 0) c
      ((c.map fun _ => off).bind fun o => (parseIfd d o order).map Prod.fst) := by
  cases c with
  | none => exact .none
  | some e =>
    have hw := Reproducible.writable_bare (hok e rfl)
    obtain ⟨es', hparse, hback⟩ := parseIfd_writeIfd hw rfl (hat e rfl) hfit
    rw [Option.map_some, Option.bind_some, hparse, Option.map_some]
    exact .some (by simpa using hback.sameDir hw)

/-- The Exif IFD is read back, and the Interop IFD through it. -/
theorem parseExifIfd_placed {x : Exif src} (h : Reproducible x) (hp : x.Placed d)
    (hfit : x.tiffLen < 2 ^ 32) {e : List (Entry src)} (he : x.exifIfd = some e) :
    ∃ e' i', parseExifIfd d x.order x.offsets.exif = some (e', i') ∧
      SameDir x.order (pointerTo x.interop tagInteropIfd x.offsets.interop) x.offsets.exif 0
        e e' ∧
      Option.Rel (SameDir x.order [] x.offsets.interop 0) x.interopIfd i' := by
  obtain ⟨hle0, hle1, hle2, hle3, hle4, hle5⟩ := x.offsets_le
  rw [he, Option.elim_some] at hle1
  have hw := h.writable_exif he x.offsets.interop
  have hptr := h.interopPtr e he
  rw [← h.interop_eq] at hptr ⊢
  obtain ⟨es', hparse, hback⟩ := parseIfd_writeIfd hw rfl (hp.exif e he) (by
    rw [length_pointerTo]
    exact lt_of_le_of_lt hle1 (by omega))
  have htags := filter_tag_fields hback.fields_eq tagInteropIfd
  rw [show (pointerTo x.interop tagInteropIfd x.offsets.interop).filter
      (fun q => q.1 = tagInteropIfd) = pointerTo x.interop tagInteropIfd x.offsets.interop by
    unfold pointerTo; split <;> simp] at htags
  have htake := takePointer_child hptr htags (by omega)
  refine ⟨dropPtr x.interop tagInteropIfd es', _, ?_, ?_, parse_bare (d := d)
    (fun i hi => h.interopOk i (h.interop_eq ▸ hi)) hp.interop (by omega)⟩
  · simp only [parseExifIfd, hparse, Option.map_some, htake, sweep_dropPtr]
  · have hsame := hback.sameDir hw
    rwa [← List.append_nil (pointerTo _ _ _), withoutPtrs_pointerTo, withoutPtrs_nil,
      List.append_nil] at hsame

theorem readUint_of_field {e : Entry d} {t : UInt16} {v : UInt32}
    (h : e.field = ptrField order (t, v)) : readUint e order = some v := by
  have hkind : e.kind = tiffLong := congrArg Field.kind h
  have hval : e.value.bytes = put32 order v := congrArg Field.value h
  rw [readUint, if_neg (by rw [hkind]; decide), if_pos hkind, hval]
  exact rd32_of_hasAt (hasAt_self _)

/-- The pointer row with a tag is what a search for the tag finds. -/
theorem find_ptr {es : List (Entry d)} {t : UInt16} {v : UInt32}
    (h : fields (es.filter fun e => e.tag = t) = [ptrField order (t, v)]) :
    (es.find? fun e => e.tag = t).bind (readUint · order) = some v := by
  obtain ⟨e, he, hfield⟩ := List.map_eq_singleton_iff.mp h
  rw [← List.head?_filter, he, List.head?_cons, Option.bind_some, readUint_of_field hfield]

/-- IFD1 is read back, and the thumbnail its pair locates. -/
theorem parseIfd1_placed {x : Exif src} (h : Reproducible x) (hp : x.Placed d)
    (hfit : x.tiffLen < 2 ^ 32) :
    Option.Rel (SameDir x.order x.ifd1Ptrs x.offsets.ifd1 0) x.ifd1
        (parseIfd1 d x.order x.ifd0Next).1 ∧
      (parseIfd1 d x.order x.ifd0Next).2.map Slice.bytes = x.thumbnail.map Slice.bytes := by
  obtain ⟨hle0, hle1, hle2, hle3, hle4, hle5⟩ := x.offsets_le
  cases hi : x.ifd1 with
  | none =>
    have hthumb : x.thumbnail = none := by
      have := h.thumbParent
      rw [hi] at this
      simpa using this
    rw [parseIfd1, if_pos (by simp [ifd0Next, hi]), hthumb]
    exact ⟨.none, rfl⟩
  | some e =>
    rw [hi, Option.elim_some] at hle4
    have hw := h.writable_ifd1 hi
    have hnext : x.ifd0Next.toNat = x.offsets.ifd1 := by
      rw [ifd0Next, hi, if_pos (by rfl), toNat_ofNat32 (by omega)]
    have hne : x.ifd0Next ≠ 0 := by
      intro h0
      rw [h0] at hnext
      have h8 : 8 ≤ x.offsets.ifd1 := le_trans (by simp [tiffHeaderSize]) hle0 |>.trans
        (by omega)
      simp at hnext
      omega
    obtain ⟨es', hparse, hback⟩ := parseIfd_writeIfd hw rfl (hp.ifd1 e hi) (by
      rw [length_ifd1Ptrs]
      exact lt_of_le_of_lt hle4 (by omega))
    have hsame := hback.sameDir hw
    have htags := filter_tag_fields hback.fields_eq
    have hnone : ∀ t, t = tagThumbOffset ∨ t = tagThumbLength →
        (e.filter fun f => f.tag = t) = [] := by
      rintro t ht
      refine List.filter_eq_nil_iff.mpr fun f hf => ?_
      obtain ⟨hoff, hlen⟩ := h.thumbTags e hi f hf
      rcases ht with rfl | rfl
      · simpa using hoff
      · simpa using hlen
    have hoff := htags tagThumbOffset
    have hlen := htags tagThumbLength
    rw [hnone _ (.inl rfl)] at hoff
    rw [hnone _ (.inr rfl)] at hlen
    -- What the reader drops are the rows of the pair.
    have hdrop : es'.filter (fun f => f.tag ≠ tagThumbOffset ∧ f.tag ≠ tagThumbLength) =
        withoutPtrs x.ifd1Ptrs es' := by
      refine List.filter_congr fun f hf => ?_
      unfold ifd1Ptrs
      cases ht : x.thumbnail with
      | none =>
        have hptrs : x.ifd1Ptrs = [] := by simp [ifd1Ptrs, ht]
        rw [hptrs] at hoff hlen
        have h1 := List.filter_eq_nil_iff.mp (List.map_eq_nil_iff.mp hoff) f hf
        have h2 := List.filter_eq_nil_iff.mp (List.map_eq_nil_iff.mp hlen) f hf
        simp only [decide_eq_true_eq] at h1 h2
        simp [h1, h2]
      | some t =>
        by_cases h1 : f.tag = tagThumbOffset
        · simp [h1]
        · by_cases h2 : f.tag = tagThumbLength
          · simp [h2, List.lookup_cons]
            split <;> rfl
          · simp [h1, h2, List.lookup_cons, beq_false_of_ne h1, beq_false_of_ne h2]
    simp only [parseIfd1, if_neg hne, hnext, hparse, hdrop]
    refine ⟨.some hsame, ?_⟩
    cases ht : x.thumbnail with
    | none =>
      have hptrs : x.ifd1Ptrs = [] := by simp [ifd1Ptrs, ht]
      rw [hptrs] at hoff
      have hfind : es'.find? (fun f => f.tag = tagThumbOffset) = none := by
        rw [← List.head?_filter, List.map_eq_nil_iff.mp hoff, List.head?_nil]
      rw [hfind]
      rfl
    | some t =>
      rw [ht, Option.elim_some] at hle5
      have hptrs : x.ifd1Ptrs = [(tagThumbOffset, UInt32.ofNat x.offsets.thumb),
          (tagThumbLength, UInt32.ofNat t.bytes.length)] := by simp [ifd1Ptrs, ht]
      have hne : tagThumbOffset ≠ tagThumbLength := by decide
      rw [hptrs] at hoff hlen
      have hfo : (es'.find? fun f => f.tag = tagThumbOffset).bind (readUint · x.order) =
          some (UInt32.ofNat x.offsets.thumb) := find_ptr
        (hoff.trans (by simp [hne.symm, fields]))
      have hfl : (es'.find? fun f => f.tag = tagThumbLength).bind (readUint · x.order) =
          some (UInt32.ofNat t.bytes.length) := find_ptr
        (hlen.trans (by simp [hne, fields]))
      obtain ⟨s, hs, -, -, hbytes⟩ := Slice.get_of_hasAt (hp.thumb t ht) rfl
      rw [hfo, hfl, Option.bind_some, Option.bind_some,
        toNat_ofNat32 (by omega), toNat_ofNat32 (by omega), hs]
      simp [hbytes]

/-- The reader recognizes the header, and finds IFD0 behind it. -/
theorem Placed.header {x : Exif src} (hp : x.Placed d) :
    ¬ d.length < tiffHeaderSize ∧ orderOf d = some x.order ∧ rd16 d 2 x.order = some 42 ∧
      rd32 d 4 x.order = some (UInt32.ofNat tiffHeaderSize) := by
  have hmark : d.take 2 = orderMark x.order := by
    simpa using (hasAt_iff.mp hp.mark).2
  refine ⟨?_, ?_, rd16_of_hasAt hp.magic, rd32_of_hasAt hp.root⟩
  · have := hp.root.le
    simp only [length_put32] at this
    simp only [tiffHeaderSize]
    omega
  · unfold orderOf
    rw [hmark]
    cases x.order <;> rfl

/-- **A file that was written is read back**, when its offsets fit. -/
theorem parseTiff_placed {x : Exif src} (h : Reproducible x) (hp : x.Placed d)
    (hfit : x.tiffLen < 2 ^ 32) : ∃ t, parseTiff x.hadPrefix d = some t ∧ Rereads x t := by
  obtain ⟨hle0, hle1, hle2, hle3, hle4, hle5⟩ := x.offsets_le
  have hw := h.writable_ifd0
  obtain ⟨es', hparse, hback⟩ := parseIfd_writeIfd hw rfl hp.ifd0 (by
    rw [length_ifd0Ptrs]
    omega)
  have htags := filter_tag_fields hback.fields_eq
  have hexifTags := htags tagExifIfd
  have hgpsTags := htags tagGpsIfd
  have hne : tagGpsIfd ≠ tagExifIfd := by decide
  have hfe : x.ifd0Ptrs.filter (fun q => q.1 = tagExifIfd) =
      pointerTo x.exifIfd tagExifIfd x.offsets.exif := by
    unfold ifd0Ptrs pointerTo
    split <;> split <;> simp [hne]
  have hfg : x.ifd0Ptrs.filter (fun q => q.1 = tagGpsIfd) =
      pointerTo x.gpsIfd tagGpsIfd x.offsets.gps := by
    unfold ifd0Ptrs pointerTo
    split <;> split <;> simp [hne.symm]
  rw [hfe] at hexifTags
  rw [hfg] at hgpsTags
  rw [← filter_dropPtr x.exifIfd hne] at hgpsTags
  have htakeExif := takePointer_child h.exifPtr hexifTags (by omega)
  have htakeGps := takePointer_child h.gpsPtr hgpsTags (by omega)
  obtain ⟨hifd1, hthumb⟩ := parseIfd1_placed h hp hfit
  have hgps := parse_bare h.gpsOk hp.gps (by omega)
  -- The Exif IFD and its child, when there is one.
  have hexif : Option.Rel (SameDir x.order (pointerTo x.interop tagInteropIfd
        x.offsets.interop) x.offsets.exif 0) x.exifIfd
        (((x.exifIfd.map fun _ => x.offsets.exif).bind (parseExifIfd d x.order)).map
          Prod.fst) ∧
      Option.Rel (SameDir x.order [] x.offsets.interop 0) x.interopIfd
        (((x.exifIfd.map fun _ => x.offsets.exif).bind (parseExifIfd d x.order)).bind
          Prod.snd) := by
    cases he : x.exifIfd with
    | none =>
      have hi : x.interopIfd = none := by
        have := h.interopParent
        rw [he] at this
        simpa using this
      rw [hi]
      exact ⟨.none, .none⟩
    | some e =>
      obtain ⟨e', i', hparse', hsame, hinterop⟩ := parseExifIfd_placed h hp hfit he
      rw [Option.map_some, Option.bind_some, hparse']
      exact ⟨.some hsame, hinterop⟩
  obtain ⟨hlen, horder, hmagic, hroot⟩ := hp.header
  have hroot8 : (UInt32.ofNat tiffHeaderSize).toNat = tiffHeaderSize := by decide
  have hsame := hback.sameDir hw
  rw [ifd0Ptrs, withoutPtrs_pointerTo,
    ← List.append_nil (pointerTo x.gpsIfd _ _), withoutPtrs_pointerTo, withoutPtrs_nil,
    List.append_nil] at hsame
  have hsweep : sweep (x.exifIfd.map fun _ => x.offsets.exif) tagExifIfd
      (dropPtr x.gpsIfd tagGpsIfd (dropPtr x.exifIfd tagExifIfd es')) =
      dropPtr x.gpsIfd tagGpsIfd (dropPtr x.exifIfd tagExifIfd es') := by
    cases x.exifIfd with
    | none => rfl
    | some e =>
      refine List.filter_eq_self.mpr fun f hf => ?_
      have hf' : f ∈ dropPtr (some e) tagExifIfd es' := by
        unfold dropPtr at hf ⊢
        split at hf
        · exact (List.mem_filter.mp hf).1
        · exact hf
      exact (List.mem_filter.mp hf').2
  have htree : parseTiff x.hadPrefix d = some
      { order := x.order, hadPrefix := x.hadPrefix
        ifd0 := dropPtr x.gpsIfd tagGpsIfd (dropPtr x.exifIfd tagExifIfd es')
        exifIfd := ((x.exifIfd.map fun _ => x.offsets.exif).bind
          (parseExifIfd d x.order)).map Prod.fst
        gpsIfd := (x.gpsIfd.map fun _ => x.offsets.gps).bind fun o =>
          (parseIfd d o x.order).map Prod.fst
        interopIfd := ((x.exifIfd.map fun _ => x.offsets.exif).bind
          (parseExifIfd d x.order)).bind Prod.snd
        ifd1 := (parseIfd1 d x.order x.ifd0Next).1
        thumbnail := (parseIfd1 d x.order x.ifd0Next).2
        textEncoding := .ascii } := by
    simp only [parseTiff, if_neg hlen, horder, hmagic, hroot, hroot8, hparse, htakeExif,
      htakeGps, hsweep, sweep_dropPtr, Option.bind_eq_bind, Option.bind_some, ne_eq,
      not_true_eq_false, if_false]
  exact ⟨_, htree, rfl, rfl, hsame, hexif.1, hexif.2, hgps, hifd1, hthumb⟩

theorem hasPrefix_toBytes (x : Exif src) : hasPrefix x.toBytes = x.hadPrefix := by
  unfold hasPrefix toBytes
  cases hp : x.hadPrefix with
  | true => simp
  | false =>
    -- The first byte is that of the byte-order mark.
    simp only [Bool.false_eq_true, if_false, List.nil_append, decide_eq_false_iff_not]
    intro h
    have hmark := congrArg (List.take 1) h
    rw [List.take_take] at hmark
    have h1 : x.tiffBytes.take 1 = (orderMark x.order).take 1 := by
      have h2 : x.tiffBytes.take 2 = orderMark x.order := by
        simpa using (hasAt_iff.mp x.placed_tiffBytes.mark).2
      rw [← h2, List.take_take]
      rfl
    rw [show min 1 exifPrefix.length = 1 from rfl, h1] at hmark
    cases ho : x.order <;> simp [ho, orderMark, exifPrefix] at hmark

theorem tiffOf_toBytes (x : Exif src) : tiffOf x.toBytes = x.tiffBytes := by
  unfold tiffOf
  rw [hasPrefix_toBytes]
  unfold toBytes
  cases x.hadPrefix <;> simp [exifPrefix]

theorem tiffLen_le_serializedLen (x : Exif src) : x.tiffLen ≤ x.serializedLen := by
  rw [serializedLen_eq, toBytes, List.length_append, x.placed_tiffBytes.length]
  omega

/-- The bytes of a reproducible tree are read back. -/
theorem parse_toBytes {x : Exif src} (h : Reproducible x) (hfit : x.serializedLen < 2 ^ 32) :
    ∃ t, parse x.toBytes = some t ∧ Rereads x t := by
  unfold parse
  rw [hasPrefix_toBytes, tiffOf_toBytes]
  exact parseTiff_placed h x.placed_tiffBytes (x.tiffLen_le_serializedLen.trans_lt hfit)

end Zencodec.Exif
