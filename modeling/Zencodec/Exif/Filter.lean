/-
Pruning a tree by policy.

`Exif.filtered` keeps the entries its policy admits (`keep`, `keepInterop`).
`parse_reproducible` and `filtered_reproducible` say that parsed and pruned trees
are the ones the writer reproduces, so `parse_toBytes_parse` closes the round trip.
-/
import Zencodec.Exif.Policy
import Zencodec.Exif.RoundTrip

open Slices StableSort

namespace Zencodec.Exif

variable {src : Bytes} {order : ByteOrder}

/-! ### The filter -/

/-- Tags whose value is a file offset: those the writer synthesizes, and those it cannot
relocate. -/
def offsetTags : List UInt16 :=
  [tagSubifds, tagExifIfd, tagGpsIfd, tagInteropIfd, tagThumbOffset, tagThumbLength,
    tagStripOffsets, tagStripByteCounts, tagTileOffsets, tagTileByteCounts]

/-- Whether a pruning rewrite keeps an entry of IFD0, IFD1 or the Exif IFD. -/
def keep (policy : ExifPolicy) (order : ByteOrder) (exifDirectory : Bool) (e : Entry src) :
    Bool :=
  if e.tag ∈ offsetTags then false
  else if e.tag = tagMakerNote then false
  else if e.tag = tagOrientation then
    !exifDirectory && policy.orientation.keeps && e.count = 1
      && (e.kind = tiffShort || e.kind = tiffLong)
      && (readUint e order).any fun v => 1 ≤ v && v ≤ 8
  else if e.tag = tagColorSpace then
    exifDirectory && policy.color.keeps && e.kind = tiffShort && e.count = 1
  else if e.tag = tagGamma then
    exifDirectory && policy.color.keeps && e.kind = tiffRational && e.count = 1
      && (rd32 e.value.bytes 0 order).any (· ≠ 0) && (rd32 e.value.bytes 4 order).any (· ≠ 0)
  else if e.tag ∈ [tagCopyright, tagArtist, tagPhotographer, tagImageEditor] then
    exifDirectory = (e.tag = tagPhotographer || e.tag = tagImageEditor)
      && policy.rights.keeps && (e.kind = tiffAscii || e.kind = tiffUtf8)
  else policy.keeps (classify e.tag)

/-- `R98`, `R03` and `THM`, NUL-terminated. -/
def interopIndices : List Bytes :=
  [[0x52, 0x39, 0x38, 0], [0x52, 0x30, 0x33, 0], [0x54, 0x48, 0x4D, 0]]

/-- Whether a pruning rewrite keeps an entry of the Interop IFD. -/
def keepInterop (e : Entry src) : Bool :=
  if e.tag = tagInteropIndex then
    e.kind = tiffAscii && e.count = 4 && e.value.bytes ∈ interopIndices
  else if e.tag = tagInteropVersion then
    e.kind = tiffUndefined && e.count = 4 && e.value.bytes.all fun b => 0x30 ≤ b && b ≤ 0x39
  else false

/-- Prune the tree by `policy`. -/
def filtered (x : Exif src) (policy : ExifPolicy) : Exif src :=
  let interopIfd :=
    if policy.color.keeps && x.exifIfd.isSome then
      (x.interopIfd.map (List.filter keepInterop)).filter fun d => !d.isEmpty
    else none
  { order := x.order
    hadPrefix := x.hadPrefix
    ifd0 := x.ifd0.filter (keep policy x.order false)
    exifIfd := (x.exifIfd.map (List.filter (keep policy x.order true))).filter
      fun d => !d.isEmpty || interopIfd.isSome
    gpsIfd := if policy.gps.keeps then x.gpsIfd else none
    interopIfd
    ifd1 := if policy.thumbnail.keeps then
      x.ifd1.map (List.filter (keep policy x.order false)) else none
    thumbnail := if policy.thumbnail.keeps then x.thumbnail else none
    textEncoding := x.textEncoding }

/-! ### Parsed trees are reproducible -/

theorem resolveEntry_sound {tiff : Bytes} {e : ℕ} {x : Entry tiff}
    (h : resolveEntry tiff e order = some x) : x.Sound := by
  simp only [resolveEntry, Option.bind_eq_bind, Option.bind_eq_some_iff] at h
  obtain ⟨tag, -, kind, -, cnt, -, s, hs, off, -, v, hv, hx⟩ := h
  obtain rfl := Option.some_inj.mp hx
  exact ⟨s, hs, by simpa [Cow.bytes] using (Slice.get_eq_some.mp hv).2⟩

theorem readEntries_ok (tiff : Bytes) (order : ByteOrder) (n e : ℕ) :
    (∀ x ∈ readEntries tiff order n e, x.Sound) ∧ (readEntries tiff order n e).length ≤ n := by
  induction n generalizing e with
  | zero => simp [readEntries]
  | succ n ih =>
    rw [readEntries]
    split
    · simp
    · obtain ⟨hsound, hlen⟩ := ih (e + 12)
      cases hres : resolveEntry tiff e order with
      | none => simpa using ⟨hsound, by omega⟩
      | some x =>
        refine ⟨fun y hy => ?_, by simpa using hlen⟩
        rcases List.mem_append.mp hy with hy | hy
        · obtain rfl : y = x := by simpa using hy
          exact resolveEntry_sound hres
        · exact hsound y hy

theorem parseIfd_ok {tiff : Bytes} {off : ℕ} {es : List (Entry tiff)} {next : UInt32}
    (h : parseIfd tiff off order = some (es, next)) : DirOk es 0 := by
  simp only [parseIfd, Option.bind_eq_bind, Option.bind_eq_some_iff] at h
  obtain ⟨count, -, h⟩ := h
  split at h
  · exact absurd h (by simp)
  · obtain ⟨rfl, -⟩ := Prod.mk.inj (Option.some_inj.mp h)
    obtain ⟨hsound, hlen⟩ := readEntries_ok tiff order count.toNat (off + 2)
    exact ⟨hsound, by omega⟩

/-- What taking a pointer out leaves. -/
structure Taken (tag : UInt16) (es : List (Entry src)) (taken : Option ℕ)
    (es' : List (Entry src)) : Prop where
  sublist : es'.Sublist es
  room : es'.length + taken.isSome.toNat ≤ es.length
  others : ∀ t, t ≠ tag → (es'.filter fun e => e.tag = t) = es.filter fun e => e.tag = t
  short : taken = none → FirstShort tag es

theorem takePointer_taken (es : List (Entry src)) (tag : UInt16) (order : ByteOrder) :
    Taken tag es (takePointer es tag order).1 (takePointer es tag order).2 := by
  unfold takePointer
  cases hb : (es.find? fun e => e.tag = tag).bind fun e => slice e.value.bytes 0 4 with
  | none =>
    refine ⟨List.Sublist.refl _, by simp, fun _ _ => rfl, fun _ e he => ?_⟩
    rw [he, Option.bind_some] at hb
    by_contra hlen
    exact absurd hb (by simp only [slice]; rw [if_pos (by omega)]; simp)
  | some b =>
    obtain ⟨e, he, -⟩ := Option.bind_eq_some_iff.mp hb
    have hmem := List.mem_of_find?_eq_some he
    have htag := List.find?_some he
    refine ⟨List.eraseP_sublist, ?_, fun t ht => ?_, fun h => absurd h (by simp)⟩
    · have hpos := List.length_pos_of_mem hmem
      simp only [Option.isSome_some, Bool.toNat_true]
      rw [List.length_eraseP_of_mem hmem htag]
      omega
    · exact filter_eraseP_of_ne ht es
where
  filter_eraseP_of_ne {t : UInt16} (ht : t ≠ tag) (es : List (Entry src)) :
      ((es.eraseP fun e => e.tag = tag).filter fun e => e.tag = t) =
        es.filter fun e => e.tag = t := by
    induction es with
    | nil => rfl
    | cons e es ih =>
      by_cases he : e.tag = tag
      · have hne : e.tag ≠ t := fun h => ht (h.symm.trans he)
        rw [List.eraseP_cons_of_pos (by simpa using he),
          List.filter_cons_of_neg (by simpa using hne)]
      · rw [List.eraseP_cons_of_neg (by simpa using he), List.filter_cons, List.filter_cons, ih]

/-- No entry carries the tag once it was taken, and otherwise none can be taken for it. -/
theorem Taken.pointerOk {β : Type} {tag : UInt16} {es es' : List (Entry src)}
    {taken : Option ℕ} (h : Taken tag es taken es') {child : Option β} {d : List (Entry src)}
    (hchild : child.isSome → taken.isSome)
    (hd : (d.filter fun e => e.tag = tag) = (sweep taken tag es').filter fun e => e.tag = tag)
    (hes : taken = none → es' = es) : PointerOk child tag d := by
  have hswept : taken.isSome → ∀ e ∈ d, e.tag ≠ tag := by
    intro ht e he heq
    have hmem : e ∈ d.filter fun e => e.tag = tag := List.mem_filter.mpr ⟨he, by simpa using heq⟩
    rw [hd, sweep, if_pos ht] at hmem
    simp at hmem
  refine ⟨fun hc => hswept (hchild hc), fun _ => ?_⟩
  cases ht : taken with
  | none =>
    subst ht
    have hsame : fields (d.filter fun e => e.tag = tag) =
        fields (es.filter fun e => e.tag = tag) := by
      rw [hd, hes rfl]
      rfl
    exact FirstShort.of_fields hsame (h.short rfl)
  | some o =>
    intro e he
    have := List.find?_some he
    exact absurd (by simpa using this) (hswept (by simp [ht]) e (List.mem_of_find?_eq_some he))

theorem takePointer_none {es : List (Entry src)} {tag : UInt16}
    (h : (takePointer es tag order).1 = none) : (takePointer es tag order).2 = es := by
  unfold takePointer at h ⊢
  split at h
  · rfl
  · exact absurd h (by simp)

theorem sweep_sublist (taken : Option ℕ) (tag : UInt16) (es : List (Entry src)) :
    (sweep taken tag es).Sublist es := by
  unfold sweep
  split
  · exact List.filter_sublist
  · exact List.Sublist.refl _

theorem filter_sweep_of_ne {t tag : UInt16} (ht : t ≠ tag) (taken : Option ℕ)
    (es : List (Entry src)) :
    ((sweep taken tag es).filter fun e => e.tag = t) = es.filter fun e => e.tag = t := by
  unfold sweep
  split
  · rw [List.filter_filter]
    refine List.filter_congr fun e _ => ?_
    by_cases he : e.tag = t <;> simp [he, ht]
  · rfl

theorem DirOk.of_sublist {es es' : List (Entry src)} {n : ℕ} (h : DirOk es 0)
    (hs : es'.Sublist es) (hn : es'.length + n ≤ es.length) : DirOk es' n :=
  ⟨fun e he => h.sound e (hs.subset he), hn.trans h.room⟩

theorem parseExifIfd_eq_some {tiff : Bytes} {off : ℕ} {es : List (Entry tiff)}
    {i : Option (List (Entry tiff))} (h : parseExifIfd tiff order off = some (es, i)) :
    ∃ e next, parseIfd tiff off order = some (e, next) ∧
      es = sweep (takePointer e tagInteropIfd order).1 tagInteropIfd
        (takePointer e tagInteropIfd order).2 ∧
      i = (takePointer e tagInteropIfd order).1.bind fun o =>
        (parseIfd tiff o order).map Prod.fst := by
  obtain ⟨⟨e, next⟩, hparse, heq⟩ := Option.map_eq_some_iff.mp h
  exact ⟨e, next, hparse, (congrArg Prod.fst heq).symm, (congrArg Prod.snd heq).symm⟩

/-- The Exif IFD the parser builds, with the Interop IFD taken out of it. -/
theorem parseExifIfd_ok {tiff : Bytes} {off : ℕ} {es : List (Entry tiff)}
    {i : Option (List (Entry tiff))} (h : parseExifIfd tiff order off = some (es, i)) :
    DirOk es i.isSome.toNat ∧ PointerOk i tagInteropIfd es ∧ ∀ d, i = some d → DirOk d 0 := by
  obtain ⟨e, next, hparse, rfl, rfl⟩ := parseExifIfd_eq_some h
  have hok := parseIfd_ok hparse
  have htaken := takePointer_taken e tagInteropIfd order
  have hchild : ((takePointer e tagInteropIfd order).1.bind fun o =>
      (parseIfd tiff o order).map Prod.fst).isSome →
      (takePointer e tagInteropIfd order).1.isSome := by
    cases (takePointer e tagInteropIfd order).1 <;> simp
  refine ⟨hok.of_sublist ((sweep_sublist _ _ _).trans htaken.sublist) ?_,
    htaken.pointerOk hchild rfl takePointer_none, fun d hd => ?_⟩
  · refine le_trans (Nat.add_le_add (sweep_sublist _ _ _).length_le ?_) htaken.room
    cases hi : (takePointer e tagInteropIfd order).1 with
    | none => simp
    | some o => exact Bool.toNat_le _
  · obtain ⟨o, -, hd⟩ := Option.bind_eq_some_iff.mp hd
    obtain ⟨⟨e', next'⟩, hparse', rfl⟩ := Option.map_eq_some_iff.mp hd
    exact parseIfd_ok hparse'

/-- The thumbnail pair leaves room for itself. -/
theorem parseIfd1_room {tiff : Bytes} {next : UInt32} {es : List (Entry tiff)}
    {thumb : Option (Slice tiff)} (h : parseIfd1 tiff order next = (some es, thumb)) :
    ∀ entries next', parseIfd tiff next.toNat order = some (entries, next') →
      es.length + (if thumb.isSome then 2 else 0) ≤ entries.length := by
  intro entries next' hparse
  unfold parseIfd1 at h
  split at h
  · exact absurd (Prod.mk.inj h).1 (by simp)
  · rw [hparse] at h
    obtain ⟨hes, hthumb⟩ := Prod.mk.inj h
    obtain rfl := Option.some_inj.mp hes
    rw [← hthumb]
    cases hoff : entries.find? (fun e => e.tag = tagThumbOffset) with
    | none => simpa using List.length_filter_le _ _
    | some a =>
      cases hlen : entries.find? (fun e => e.tag = tagThumbLength) with
      | none => simpa using List.length_filter_le _ _
      | some b =>
        have ha : a.tag = tagThumbOffset := by simpa using List.find?_some hoff
        have hb : b.tag = tagThumbLength := by simpa using List.find?_some hlen
        have hne : tagThumbLength ≠ tagThumbOffset := by decide
        have h1 : (entries.filter fun e => e.tag ≠ tagThumbOffset).length < entries.length :=
          List.length_filter_lt_length_iff_exists.mpr
            ⟨a, List.mem_of_find?_eq_some hoff, by simp [ha]⟩
        have h2 : ((entries.filter fun e => e.tag ≠ tagThumbOffset).filter
            fun e => e.tag ≠ tagThumbLength).length <
            (entries.filter fun e => e.tag ≠ tagThumbOffset).length :=
          List.length_filter_lt_length_iff_exists.mpr ⟨b, List.mem_filter.mpr
            ⟨List.mem_of_find?_eq_some hlen, by simp [hb, hne]⟩, by simp [hb]⟩
        have hcomm : (entries.filter fun e => e.tag ≠ tagThumbOffset).filter
            (fun e => e.tag ≠ tagThumbLength) =
            entries.filter fun e => e.tag ≠ tagThumbOffset ∧ e.tag ≠ tagThumbLength := by
          rw [List.filter_filter]
          exact List.filter_congr fun e _ => by simp [Bool.and_comm]
        rw [hcomm] at h2
        split <;> omega

/-- The parser drops the thumbnail pair from IFD1, and leaves room for it. -/
theorem parseIfd1_ok {tiff : Bytes} {next : UInt32} {es : List (Entry tiff)}
    {thumb : Option (Slice tiff)} (h : parseIfd1 tiff order next = (some es, thumb)) :
    DirOk es (if thumb.isSome then 2 else 0) ∧
      ∀ e ∈ es, e.tag ≠ tagThumbOffset ∧ e.tag ≠ tagThumbLength := by
  have hroom := parseIfd1_room h
  unfold parseIfd1 at h
  split at h
  · exact absurd (Prod.mk.inj h).1 (by simp)
  · split at h
    · exact absurd (Prod.mk.inj h).1 (by simp)
    · next entries next' hparse =>
      have hok := parseIfd_ok hparse
      obtain rfl := Option.some_inj.mp (Prod.mk.inj h).1
      exact ⟨hok.of_sublist List.filter_sublist (hroom entries next' hparse), fun e he => by
        simpa using (List.mem_filter.mp he).2⟩

/-- The parser as one expression. -/
theorem parseTiff_eq_some {p : Bool} {tiff : Bytes} {x : Exif tiff}
    (h : parseTiff p tiff = some x) : ∃ order first es next,
      orderOf tiff = some order ∧ rd32 tiff 4 order = some first ∧
      parseIfd tiff first.toNat order = some (es, next) ∧
      let exifTaken := (takePointer es tagExifIfd order).1
      let exif := exifTaken.bind (parseExifIfd tiff order)
      let gps := takePointer (takePointer es tagExifIfd order).2 tagGpsIfd order
      x = { order, hadPrefix := p
            ifd0 := sweep gps.1 tagGpsIfd (sweep exifTaken tagExifIfd gps.2)
            exifIfd := exif.map Prod.fst
            gpsIfd := gps.1.bind fun o => (parseIfd tiff o order).map Prod.fst
            interopIfd := exif.bind Prod.snd
            ifd1 := (parseIfd1 tiff order next).1
            thumbnail := (parseIfd1 tiff order next).2
            textEncoding := .ascii } := by
  unfold parseTiff at h
  split at h
  · exact absurd h (by simp)
  · simp only [Option.bind_eq_bind, Option.bind_eq_some_iff] at h
    obtain ⟨order, horder, magic, -, h⟩ := h
    split at h
    · exact absurd h (by simp)
    · simp only [Option.bind_eq_some_iff] at h
      obtain ⟨first, hfirst, ⟨es, next⟩, hparse, hx⟩ := h
      exact ⟨order, first, es, next, horder, hfirst, hparse, (Option.some_inj.mp hx).symm⟩

theorem parseTiff_reproducible {p : Bool} {tiff : Bytes} {x : Exif tiff}
    (h : parseTiff p tiff = some x) : Reproducible x := by
  obtain ⟨order, first, es, next, -, -, hparse, rfl⟩ := parseTiff_eq_some h
  have hok := parseIfd_ok hparse
  have hexif := takePointer_taken es tagExifIfd order
  have hgps := takePointer_taken (takePointer es tagExifIfd order).2 tagGpsIfd order
  have hne : tagExifIfd ≠ tagGpsIfd := by decide
  have hexifChild : (((takePointer es tagExifIfd order).1.bind
      (parseExifIfd tiff order)).map Prod.fst).isSome →
      (takePointer es tagExifIfd order).1.isSome := by
    cases (takePointer es tagExifIfd order).1 <;> simp
  have hgpsChild : ((takePointer (takePointer es tagExifIfd order).2 tagGpsIfd order).1.bind
      fun o => (parseIfd tiff o order).map Prod.fst).isSome →
      (takePointer (takePointer es tagExifIfd order).2 tagGpsIfd order).1.isSome := by
    cases (takePointer (takePointer es tagExifIfd order).2 tagGpsIfd order).1 <;> simp
  have hsub : (sweep (takePointer (takePointer es tagExifIfd order).2 tagGpsIfd order).1
      tagGpsIfd (sweep (takePointer es tagExifIfd order).1 tagExifIfd
        (takePointer (takePointer es tagExifIfd order).2 tagGpsIfd order).2)).Sublist
      (takePointer (takePointer es tagExifIfd order).2 tagGpsIfd order).2 :=
    (sweep_sublist _ _ _).trans (sweep_sublist _ _ _)
  refine ⟨?_, ?_, ?_, ?_, ?_, ?_, ?_, ?_, ?_, ?_, ?_⟩
  · refine hok.of_sublist (hsub.trans (hgps.sublist.trans hexif.sublist)) ?_
    have h1 := hexif.room
    have h2 := hgps.room
    have h3 := hsub.length_le
    have h4 := Bool.toNat_le_toNat hexifChild
    have h5 := Bool.toNat_le_toNat hgpsChild
    simp only [ifd0Nptr]
    omega
  · intro d hd
    obtain ⟨⟨e, i⟩, he, rfl⟩ := Option.map_eq_some_iff.mp hd
    obtain ⟨o, -, he'⟩ := Option.bind_eq_some_iff.mp he
    have := (parseExifIfd_ok he').1
    simpa [exifNptr, interop, he] using this
  · intro d hd
    obtain ⟨o, -, hd⟩ := Option.bind_eq_some_iff.mp hd
    obtain ⟨⟨e, next'⟩, hparse', rfl⟩ := Option.map_eq_some_iff.mp hd
    exact parseIfd_ok hparse'
  · intro d hd
    obtain ⟨⟨e, i⟩, he, hi⟩ := Option.bind_eq_some_iff.mp hd
    obtain ⟨o, -, he'⟩ := Option.bind_eq_some_iff.mp he
    exact (parseExifIfd_ok he').2.2 d hi
  · intro d hd
    exact (parseIfd1_ok (Prod.ext hd rfl)).1
  · refine hexif.pointerOk hexifChild ?_ takePointer_none
    rw [filter_sweep_of_ne hne]
    unfold sweep
    split
    · rw [List.filter_comm, hgps.others _ hne, List.filter_comm]
    · rw [hgps.others _ hne]
  · refine hgps.pointerOk hgpsChild ?_ takePointer_none
    unfold sweep
    split
    · rw [List.filter_comm, ← sweep, filter_sweep_of_ne hne.symm, List.filter_comm]
    · rw [← sweep, filter_sweep_of_ne hne.symm]
  · intro d hd
    obtain ⟨⟨e, i⟩, he, rfl⟩ := Option.map_eq_some_iff.mp hd
    obtain ⟨o, -, he'⟩ := Option.bind_eq_some_iff.mp he
    have := (parseExifIfd_ok he').2.1
    simpa [he] using this
  · cases (takePointer es tagExifIfd order).1.bind (parseExifIfd tiff order) <;> simp
  · intro d hd
    exact (parseIfd1_ok (Prod.ext hd rfl)).2
  · simp only [parseIfd1]
    split
    · simp
    · split <;> simp

/-! ### Pruned trees are reproducible -/

theorem keep_of_offsetTag {policy : ExifPolicy} {dir : Bool} {e : Entry src}
    (h : keep policy order dir e = true) : e.tag ∉ offsetTags := by
  intro hmem
  rw [keep, if_pos hmem] at h
  exact absurd h (by simp)

theorem firstShort_of_ne {tag : UInt16} {d : List (Entry src)} (h : ∀ e ∈ d, e.tag ≠ tag) :
    FirstShort tag d := fun e he =>
  absurd (by simpa using List.find?_some he) (h e (List.mem_of_find?_eq_some he))

theorem pointerOk_filter {β : Type} (child : Option β) {tag : UInt16} (ht : tag ∈ offsetTags)
    {policy : ExifPolicy} {dir : Bool} (d : List (Entry src)) :
    PointerOk child tag (d.filter (keep policy order dir)) := by
  have hne : ∀ e ∈ d.filter (keep policy order dir), e.tag ≠ tag := fun e he heq =>
    keep_of_offsetTag (List.mem_filter.mp he).2 (heq ▸ ht)
  exact ⟨fun _ => hne, fun _ => firstShort_of_ne hne⟩

theorem DirOk.filter {es : List (Entry src)} {n m : ℕ} (h : DirOk es n) (hm : m ≤ n)
    (p : Entry src → Bool) : DirOk (es.filter p) m := by
  refine ⟨fun e he => h.sound e (List.mem_filter.mp he).1, ?_⟩
  have := h.room
  have := List.length_filter_le p es
  omega

/-- The Interop IFD that survives a prune. -/
theorem filtered_interopIfd {x : Exif src} {policy : ExifPolicy} {d : List (Entry src)}
    (h : (x.filtered policy).interopIfd = some d) :
    policy.color.keeps ∧ x.exifIfd.isSome ∧ d ≠ [] ∧
      ∃ i, x.interopIfd = some i ∧ d = i.filter keepInterop := by
  simp only [filtered] at h
  split at h
  · next hc =>
    obtain ⟨hm, hne⟩ := Option.filter_eq_some_iff.mp h
    obtain ⟨i, hi, rfl⟩ := Option.map_eq_some_iff.mp hm
    simp only [Bool.and_eq_true] at hc
    exact ⟨hc.1, hc.2, by simpa using hne, i, hi, rfl⟩
  · exact absurd h (by simp)

theorem filtered_exifIfd {x : Exif src} {policy : ExifPolicy} {d : List (Entry src)}
    (h : (x.filtered policy).exifIfd = some d) :
    ∃ e, x.exifIfd = some e ∧ d = e.filter (keep policy x.order true) := by
  obtain ⟨hm, -⟩ := Option.filter_eq_some_iff.mp h
  obtain ⟨e, he, rfl⟩ := Option.map_eq_some_iff.mp hm
  exact ⟨e, he, rfl⟩

theorem filtered_ifd1 {x : Exif src} {policy : ExifPolicy} {d : List (Entry src)}
    (h : (x.filtered policy).ifd1 = some d) : policy.thumbnail.keeps ∧
    ∃ e, x.ifd1 = some e ∧ d = e.filter (keep policy x.order false) := by
  simp only [filtered] at h
  split at h
  · next hk =>
    obtain ⟨e, he, rfl⟩ := Option.map_eq_some_iff.mp h
    exact ⟨hk, e, he, rfl⟩
  · exact absurd h (by simp)

theorem filtered_reproducible {x : Exif src} (h : Reproducible x) (policy : ExifPolicy) :
    Reproducible (x.filtered policy) := by
  have hexif : (x.filtered policy).exifIfd.isSome → x.exifIfd.isSome := by
    intro hs
    obtain ⟨d, hd⟩ := Option.isSome_iff_exists.mp hs
    obtain ⟨e, he, -⟩ := filtered_exifIfd hd
    simp [he]
  have hgps : (x.filtered policy).gpsIfd.isSome → x.gpsIfd.isSome := by
    simp only [filtered]
    split <;> simp
  have hinterop : (x.filtered policy).interop.isSome → x.interop.isSome := by
    intro hs
    unfold interop at hs
    cases he : (x.filtered policy).exifIfd with
    | none => simp [he] at hs
    | some d =>
      rw [he, Option.bind_some] at hs
      obtain ⟨i, hi⟩ := Option.isSome_iff_exists.mp hs
      obtain ⟨-, hx, -, i', hi', -⟩ := filtered_interopIfd hi
      rw [h.interop_eq, hi']
      rfl
  refine ⟨?_, ?_, ?_, ?_, ?_, ?_, ?_, ?_, ?_, ?_, ?_⟩
  · exact h.ifd0Ok.filter
      (Nat.add_le_add (Bool.toNat_le_toNat hexif) (Bool.toNat_le_toNat hgps)) _
  · intro d hd
    obtain ⟨e, he, rfl⟩ := filtered_exifIfd hd
    exact (h.exifOk e he).filter (Bool.toNat_le_toNat hinterop) _
  · intro d hd
    simp only [filtered] at hd
    split at hd
    · exact h.gpsOk d hd
    · exact absurd hd (by simp)
  · intro d hd
    obtain ⟨-, -, -, i, hi, rfl⟩ := filtered_interopIfd hd
    exact (h.interopOk i hi).filter le_rfl _
  · intro d hd
    obtain ⟨hk, e, he, rfl⟩ := filtered_ifd1 hd
    refine (h.ifd1Ok e he).filter ?_ _
    simp [ifd1Nptr, filtered, hk]
  · exact pointerOk_filter _ (by decide) _
  · exact pointerOk_filter _ (by decide) _
  · intro d hd
    obtain ⟨e, he, rfl⟩ := filtered_exifIfd hd
    exact pointerOk_filter _ (by decide) _
  · intro hi
    obtain ⟨i, hi⟩ := Option.isSome_iff_exists.mp hi
    obtain ⟨hc, hx, hne, i', hi', rfl⟩ := filtered_interopIfd hi
    obtain ⟨e, he⟩ := Option.isSome_iff_exists.mp hx
    simp only [filtered] at hi ⊢
    rw [hi]
    simp [he]
  · intro d hd e he
    obtain ⟨-, f, hf, rfl⟩ := filtered_ifd1 hd
    exact h.thumbTags f hf e (List.mem_filter.mp he).1
  · have hthumb := h.thumbParent
    simp only [filtered]
    split
    · simpa using hthumb
    · simp

/-! ### The round trip -/

/-- **Round trip.** A parsed tree, or a pruned one, is written to bytes that are read back
as its canonical form and written again as the same bytes. -/
theorem parse_toBytes_parse (b : Bytes) (x : Exif (tiffOf b)) (policy : ExifPolicy)
    (t : Exif (tiffOf b)) (hparse : parse b = some x) (ht : t = x ∨ t = x.filtered policy)
    (hfit : t.serializedLen < 2 ^ 32) :
    ∃ t', parse t.toBytes = some t' ∧ t'.view = t.view.canonical ∧ t'.toBytes = t.toBytes := by
  have hx : Reproducible x := parseTiff_reproducible hparse
  have hrep : Reproducible t := by
    rcases ht with rfl | rfl
    · exact hx
    · exact filtered_reproducible hx policy
  obtain ⟨t', hparse', hreads⟩ := parse_toBytes hrep hfit
  exact ⟨t', hparse', hreads.view_eq, hreads.toBytes_eq⟩

/-- A little-endian blob with an orientation, an out-of-line copyright and a GPS IFD. -/
def sampleBlob : Bytes :=
  [0x49, 0x49, 42, 0, 8, 0, 0, 0, 3, 0,
    0x98, 0x82, 2, 0, 5, 0, 0, 0, 50, 0, 0, 0,
    0x12, 0x01, 3, 0, 1, 0, 0, 0, 6, 0, 0, 0,
    0x25, 0x88, 4, 0, 1, 0, 0, 0, 56, 0, 0, 0,
    0, 0, 0, 0, 0x61, 0x62, 0x63, 0x64, 0, 0, 0, 0, 0, 0, 0, 0]

theorem parse_sampleBlob : (parse sampleBlob).isSome := by decide

theorem parse_toBytes_parse_sample :
    ∃ x, parse sampleBlob = some x ∧
      ∃ t', parse (x.filtered .attributedOrientation).toBytes = some t' ∧
        t'.view = (x.filtered .attributedOrientation).view.canonical ∧
        t'.toBytes = (x.filtered .attributedOrientation).toBytes := by
  have hparse : parse sampleBlob = some ((parse sampleBlob).get parse_sampleBlob) :=
    (Option.some_get parse_sampleBlob).symm
  exact ⟨_, hparse, parse_toBytes_parse sampleBlob _ .attributedOrientation _ hparse
    (.inr rfl) (by decide)⟩

end Zencodec.Exif
