/-
Offsets a rewrite carries over.

A tag of `staleTags` names bytes by their position in the source.  In a rewritten
blob only the pointers the writer adds may carry such a tag: `NoStale` says so of
the directories a reader finds there (`rawDir`), rows that `parse` takes out
included.

* `rawDir_placed` — each directory of a written file is found, with the entries of
  the tree and the pointers added to them;
* `noStale_iff` — so the file is free of stale offsets iff no entry of the tree has
  a stale tag;
* `retain_noStale_iff` — the filter drops these tags in every directory but the GPS
  IFD, which is copied as it stands.
-/
import Zencodec.Exif.Lengths

open Slices StableSort

namespace Zencodec.Exif

variable {src d : Bytes} {order : ByteOrder} {O : Type} [Orientation O]

/-- MakerNote, and the tags whose value is an offset into the file: sub-IFDs, strips, tiles,
directory pointers and the thumbnail pair. -/
def staleTags : List UInt16 :=
  [tagMakerNote, tagSubifds, tagStripOffsets, tagTileOffsets, tagExifIfd, tagGpsIfd,
    tagInteropIfd, tagThumbOffset, tagThumbLength]

/-! ### The directories of a file -/

/-- The directory the first entry with a pointer tag leads to. -/
def childDir (tiff : Bytes) (order : ByteOrder) (tag : UInt16) (es : List (Entry tiff)) :
    Option (List (Entry tiff)) :=
  (takePointer es tag order).1.bind fun o => (parseIfd tiff o order).map Prod.fst

/-- IFD0 and its next-IFD offset. -/
def rawIfd0 (tiff : Bytes) (order : ByteOrder) : Option (List (Entry tiff) × UInt32) :=
  (rd32 tiff 4 order).bind fun o => parseIfd tiff o.toNat order

/-- The entries of a directory of a file, with all its pointers. -/
def rawDir (tiff : Bytes) (order : ByteOrder) : Ifd → Option (List (Entry tiff))
  | .ifd0 => (rawIfd0 tiff order).map Prod.fst
  | .exif => (rawIfd0 tiff order).bind fun r => childDir tiff order tagExifIfd r.1
  | .interop => (rawIfd0 tiff order).bind fun r =>
      (childDir tiff order tagExifIfd r.1).bind (childDir tiff order tagInteropIfd)
  | .gps => (rawIfd0 tiff order).bind fun r => childDir tiff order tagGpsIfd r.1
  | .ifd1 => (rawIfd0 tiff order).bind fun r =>
      if r.2 = 0 then none else (parseIfd tiff r.2.toNat order).map Prod.fst

/-- A directory of a tree. -/
def dirOf (x : Exif src) : Ifd → Option (List (Entry src))
  | .ifd0 => some x.ifd0
  | .exif => x.exifIfd
  | .interop => x.interopIfd
  | .gps => x.gpsIfd
  | .ifd1 => x.ifd1

/-- The pointers the writer adds to a directory. -/
def ptrsOf (x : Exif src) : Ifd → List (UInt16 × UInt32)
  | .ifd0 => x.ifd0Ptrs
  | .exif => pointerTo x.interop tagInteropIfd x.offsets.interop
  | .interop => []
  | .gps => []
  | .ifd1 => x.ifd1Ptrs

/-- In every directory of the file, the entries with a stale tag are the pointers the writer
of `x` added. -/
def NoStale (tiff : Bytes) (x : Exif src) : Prop :=
  ∀ ifd es t, rawDir tiff x.order ifd = some es → t ∈ staleTags →
    fields (es.filter fun e => e.tag = t) =
      ((x.ptrsOf ifd).filter fun q => q.1 = t).map (ptrField x.order)

theorem getD_dirOf (x : Exif src) (ifd : Ifd) : (x.dirOf ifd).getD [] = x.entriesOf ifd := by
  cases ifd <;> rfl

/-! ### A written file -/

/-- What a reader finds where `es` was written with the pointers `ptrVals`. -/
def Back (order : ByteOrder) (ptrVals : List (UInt16 × UInt32)) (es : List (Entry src))
    (es' : List (Entry d)) : Prop :=
  fields es' = canonicalDir (fields es ++ ptrVals.map (ptrField order))

/-- A child directory is found through its pointer. -/
theorem childDir_back {c : Option (List (Entry src))} {tag : UInt16} (off : ℕ)
    {es : List (Entry src)} {es' : List (Entry d)} {ptrVals cptrs : List (UInt16 × UInt32)}
    (hback : Back order ptrVals es es') (hptr : PointerOk c tag es)
    (hone : ptrVals.filter (fun q => q.1 = tag) = pointerTo c tag off)
    (hw : ∀ b, c = some b → Writable b cptrs)
    (hat : ∀ b, c = some b →
      HasAt d off (writeIfd order b cptrs (off + tableSize b cptrs.length) 0))
    (hfit : off + c.elim 0 (blockSize · cptrs.length) < 2 ^ 32) :
    Option.Rel (Back order cptrs) c (childDir d order tag es') := by
  have htags := filter_tag_fields hback tag
  rw [hone] at htags
  have htake := takePointer_child hptr htags (by omega)
  unfold childDir
  rw [htake]
  cases c with
  | none => exact .none
  | some b =>
    obtain ⟨b', hparse, hread⟩ := parseIfd_writeIfd (hw b rfl) rfl (hat b rfl) hfit
    simp only [Option.map_some, Option.bind_some, hparse]
    exact .some hread.fields_eq

/-- Each directory of a written file is found, its pointers with it. -/
theorem rawDir_placed {x : Exif src} (h : Reproducible x) (hp : x.Placed d)
    (hfit : x.tiffLen < 2 ^ 32) (ifd : Ifd) :
    Option.Rel (Back x.order (x.ptrsOf ifd)) (x.dirOf ifd) (rawDir d x.order ifd) := by
  obtain ⟨hle0, hle1, hle2, hle3, hle4, hle5⟩ := x.offsets_le
  obtain ⟨es', hparse, hback⟩ := parseIfd_writeIfd h.writable_ifd0 rfl hp.ifd0 (by
    rw [length_ifd0Ptrs]
    omega)
  have hroot8 : (UInt32.ofNat tiffHeaderSize).toNat = tiffHeaderSize := by decide
  have hraw : rawIfd0 d x.order = some (es', x.ifd0Next) := by
    rw [rawIfd0, hp.header.2.2.2, Option.bind_some, hroot8, hparse]
  have hne : tagExifIfd ≠ tagGpsIfd := by decide
  have hexif : Option.Rel (Back x.order (x.ptrsOf .exif)) x.exifIfd
      (childDir d x.order tagExifIfd es') := by
    refine childDir_back x.offsets.exif hback.fields_eq h.exifPtr ?_
      (fun b hb => h.writable_exif hb _) hp.exif ?_
    · unfold ifd0Ptrs pointerTo
      split <;> split <;> simp [hne.symm]
    · simp only [ptrsOf, length_pointerTo]
      exact lt_of_le_of_lt hle1 (by omega)
  have hgps : Option.Rel (Back x.order (x.ptrsOf .gps)) x.gpsIfd
      (childDir d x.order tagGpsIfd es') := by
    refine childDir_back x.offsets.gps hback.fields_eq h.gpsPtr ?_
      (fun b hb => Reproducible.writable_bare (h.gpsOk b hb)) hp.gps ?_
    · unfold ifd0Ptrs pointerTo
      split <;> split <;> simp [hne]
    · exact lt_of_le_of_lt hle3 (by omega)
  cases ifd with
  | ifd0 =>
    rw [rawDir, hraw]
    exact .some hback.fields_eq
  | exif =>
    rw [rawDir, hraw]
    exact hexif
  | interop =>
    rw [rawDir, hraw, Option.bind_some]
    simp only [dirOf]
    cases he : x.exifIfd with
    | none =>
      have hi : x.interopIfd = none := by
        have := h.interopParent
        rw [he] at this
        simpa using this
      rw [he] at hexif
      generalize childDir d x.order tagExifIfd es' = r at hexif ⊢
      cases hexif
      rw [hi]
      exact .none
    | some b =>
      rw [he] at hexif
      generalize childDir d x.order tagExifIfd es' = r at hexif ⊢
      cases hexif with
      | some hb =>
        rw [Option.bind_some]
        refine childDir_back x.offsets.interop hb (h.interopPtr b he) ?_
          (fun i hi => Reproducible.writable_bare (h.interopOk i hi))
          (fun i hi => hp.interop i (by rw [h.interop_eq, hi])) ?_
        · rw [← h.interop_eq]
          simp only [ptrsOf]
          unfold pointerTo
          split <;> simp
        · rw [← h.interop_eq]
          exact lt_of_le_of_lt hle2 (by omega)
  | gps =>
    rw [rawDir, hraw]
    exact hgps
  | ifd1 =>
    rw [rawDir, hraw, Option.bind_some]
    rcases Option.eq_none_or_eq_some x.ifd1 with hi | ⟨b, hi⟩
    · simp only [dirOf, ifd0Next, hi]
      exact .none
    · rw [hi, Option.elim_some] at hle4
      have h8 : 0 < x.offsets.ifd1 := by
        simp only [tiffHeaderSize] at hle0
        omega
      have hnext : (UInt32.ofNat x.offsets.ifd1).toNat = x.offsets.ifd1 :=
        toNat_ofNat32 (by omega)
      have hne0 : UInt32.ofNat x.offsets.ifd1 ≠ 0 := by
        intro h0
        rw [h0] at hnext
        exact absurd hnext (by simp; omega)
      obtain ⟨b', hparse1, hread⟩ := parseIfd_writeIfd (h.writable_ifd1 hi) rfl (hp.ifd1 b hi)
        (by
          rw [length_ifd1Ptrs]
          exact lt_of_le_of_lt hle4 (by omega))
      simp only [dirOf, ifd0Next, hi, Option.isSome_some, if_true, hnext, if_neg hne0, hparse1,
        Option.map_some]
      exact .some hread.fields_eq

/-- A written file is free of stale offsets iff the tree has no entry with a stale tag. -/
theorem noStale_iff {x : Exif src} (h : Reproducible x) (hp : x.Placed d)
    (hfit : x.tiffLen < 2 ^ 32) :
    NoStale d x ↔ ∀ ifd, ∀ e ∈ x.entriesOf ifd, e.tag ∉ staleTags := by
  constructor
  · intro hns ifd e he ht
    rw [← getD_dirOf] at he
    have hrel := rawDir_placed h hp hfit ifd
    have hat := hns ifd
    generalize x.dirOf ifd = a, rawDir d x.order ifd = b at he hrel hat
    cases hrel with
    | none => exact absurd he (by simp)
    | some hback =>
      -- The entry itself stands among those with its tag, next to the pointers.
      have heq := hat _ e.tag rfl ht
      rw [filter_tag_fields hback, List.append_left_eq_self] at heq
      exact absurd (List.map_eq_nil_iff.mp heq) (List.ne_nil_of_mem (List.mem_filter.mpr
        ⟨he, by simp⟩))
  · intro hclean ifd es t hes ht
    have hrel := rawDir_placed h hp hfit ifd
    have hentries := hclean ifd
    rw [hes] at hrel
    obtain ⟨b, hb, hback⟩ := exists_of_rel hrel rfl
    rw [← getD_dirOf, hb, Option.getD_some] at hentries
    have hnil : (b.filter fun e => e.tag = t) = [] := List.filter_eq_nil_iff.mpr fun e he => by
      have hne : e.tag ≠ t := fun heq => hentries e he (heq ▸ ht)
      simpa using hne
    rw [filter_tag_fields hback, hnil]
    rfl

/-! ### The pruning route -/

/-- The rules of every directory but the GPS IFD drop the stale tags. -/
theorem admitsIn_staleTags {ifd : Ifd} {e : Entry src} (hifd : ifd ≠ .gps)
    (h : e.tag ∈ staleTags) : admitsIn order ifd e = false := by
  have hadmits : ∀ dir, admits order dir e = false := by
    intro dir
    unfold admits
    by_cases hoff : e.tag ∈ offsetTags
    · rw [if_pos hoff]
    · have hmaker : e.tag = tagMakerNote := by
        simp only [staleTags, List.mem_cons, List.not_mem_nil, or_false] at h
        rcases h with h | h | h | h | h | h | h | h | h
        · exact h
        -- The other stale tags are offset tags.
        all_goals exact absurd (h ▸ by decide) hoff
      rw [if_neg hoff, if_pos hmaker]
  cases ifd with
  | ifd0 => exact hadmits false
  | exif => exact hadmits true
  | interop =>
    have hindex : e.tag ≠ tagInteropIndex := fun heq => absurd (heq ▸ h) (by decide)
    have hversion : e.tag ≠ tagInteropVersion := fun heq => absurd (heq ▸ h) (by decide)
    simp only [admitsIn, keepInterop, if_neg hindex, if_neg hversion]
  | gps => exact absurd rfl hifd
  | ifd1 => exact hadmits false

/-- Reconciling the orientation changes no tag. -/
theorem tags_entriesOf_prune (x : Exif src) (policy : ExifPolicy) (want : Option O) (ifd : Ifd) :
    ((x.prune policy want).entriesOf ifd).map Entry.tag =
      ((x.filtered policy).entriesOf ifd).map Entry.tag := by
  cases want with
  | none => rfl
  | some o =>
    cases ifd with
    | ifd0 => exact map_editFirst fun e _ => Entry.setInt_tag _ _
    | exif => rfl
    | interop => rfl
    | gps => rfl
    | ifd1 => rfl

/-- A pruned tree has an entry with a stale tag iff its GPS IFD has one. -/
theorem prune_staleTags {x : Exif src} (h : Reproducible x) (policy : ExifPolicy)
    (want : Option O) :
    (∀ ifd, ∀ e ∈ (x.prune policy want).entriesOf ifd, e.tag ∉ staleTags) ↔
      (policy.gps.keeps = true → ∀ e ∈ x.entriesOf .gps, e.tag ∉ staleTags) := by
  have htags : ∀ ifd, (∀ e ∈ (x.prune policy want).entriesOf ifd, e.tag ∉ staleTags) ↔
      ∀ e ∈ (x.filtered policy).entriesOf ifd, e.tag ∉ staleTags := by
    intro ifd
    have hmap := x.tags_entriesOf_prune policy want ifd
    rw [← List.forall_mem_map (f := Entry.tag) (P := fun t => t ∉ staleTags), hmap,
      List.forall_mem_map]
  constructor
  · intro hall hgps e he
    refine (htags .gps).mp (hall .gps) e ?_
    rw [entriesOf_filtered h]
    exact List.mem_filter.mpr ⟨he, by simpa [admitsIn, ExifPolicy.keepsIn] using hgps⟩
  · intro hgps ifd
    refine (htags ifd).mpr fun e he => ?_
    rw [entriesOf_filtered h] at he
    obtain ⟨hmem, hkeep⟩ := List.mem_filter.mp he
    rw [Bool.and_eq_true] at hkeep
    by_cases hifd : ifd = .gps
    · subst hifd
      exact hgps hkeep.2 e hmem
    · intro ht
      exact absurd (hkeep.1.symm.trans (admitsIn_staleTags hifd ht)) (by simp)

/-- **Stale offsets in a rewritten blob.**  The blob the pruning route returns is free of
them iff the GPS IFD is dropped or had none. -/
theorem retain_noStale_iff [DecidableEq O] (data : Bytes) (policy : ExifPolicy)
    (want : Option O) (x : Exif (tiffOf data)) (r : Retained) (hx : parse data = some x)
    (hk : policy.keepsEverything = false) (hr : retainReconciled data policy want = some r) :
    NoStale (tiffOf (r.bytes data)) (x.prune policy want) ↔
      (policy.gps.keeps = true → ∀ e ∈ x.entriesOf .gps, e.tag ∉ staleTags) := by
  obtain ⟨x', hp, rfl⟩ := retain_prune hk hr
  obtain rfl := Option.some_inj.mp (hx.symm.trans hp.parsed)
  rw [show Retained.bytes data (.owned (x.prune policy want).toBytes) =
    (x.prune policy want).toBytes from rfl, tiffOf_toBytes]
  rw [noStale_iff hp.reproducible (x.prune policy want).placed_tiffBytes
    ((tiffLen_le_serializedLen _).trans_lt hp.lt)]
  exact prune_staleTags (parseTiff_reproducible hx) policy want

theorem retain_noStale_sample : ∃ x r, parse sampleBlob = some x ∧
    retainReconciled sampleBlob .attributedOrientation (some Turn.identity) = some r ∧
    NoStale (tiffOf (r.bytes sampleBlob)) (x.prune .attributedOrientation
      (some Turn.identity)) := by
  have hx := (Option.some_get parse_sampleBlob).symm
  have hr := (Option.some_get retain_sampleBlob).symm
  have hiff := retain_noStale_iff sampleBlob .attributedOrientation (some Turn.identity) _ _ hx
    (by decide) hr
  exact ⟨_, _, hx, hr, hiff.mpr fun h => absurd h (by decide)⟩

/-- A blob whose GPS IFD holds a sub-IFD offset and a MakerNote of one byte. -/
def gpsBlob : Bytes :=
  [0x49, 0x49, 42, 0, 8, 0, 0, 0, 1, 0,
    0x25, 0x88, 4, 0, 1, 0, 0, 0, 26, 0, 0, 0,
    0, 0, 0, 0, 2, 0,
    0x4A, 0x01, 4, 0, 1, 0, 0, 0, 8, 0, 0, 0,
    0x7C, 0x92, 7, 0, 1, 0, 0, 0, 9, 0, 0, 0,
    0, 0, 0, 0]

/-- The policy that keeps everything but the thumbnail. -/
def withoutThumbnail : ExifPolicy := { ExifPolicy.keepAll with thumbnail := .discard }

theorem parse_gpsBlob : (parse gpsBlob).isSome := by decide

theorem retain_gpsBlob : retainReconciled gpsBlob withoutThumbnail (none : Option Turn) =
    some (.owned gpsBlob) := by decide +kernel

/-- The sub-IFD offset of the GPS IFD is in the rewritten blob. -/
theorem retain_keeps_stale :
    retainReconciled gpsBlob withoutThumbnail (none : Option Turn) = some (.owned gpsBlob) ∧
    ¬ NoStale (tiffOf ((Retained.owned gpsBlob).bytes gpsBlob))
      (((parse gpsBlob).get parse_gpsBlob).prune withoutThumbnail (none : Option Turn)) := by
  refine ⟨retain_gpsBlob, fun h => ?_⟩
  have hgps : ∃ es, rawDir (tiffOf gpsBlob) .little .gps = some es ∧
      fields (es.filter fun e => e.tag = tagSubifds) =
        [⟨tagSubifds, tiffLong, 1, [8, 0, 0, 0]⟩] := by
    refine ⟨_, (Option.some_get (by decide)).symm, ?_⟩
    decide +kernel
  obtain ⟨es, hes, hfields⟩ := hgps
  have heq := hfields.symm.trans (h .gps es tagSubifds hes (by decide))
  exact absurd heq (by simp [ptrsOf])

end Zencodec.Exif
