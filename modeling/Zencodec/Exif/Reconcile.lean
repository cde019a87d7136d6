/-
Retention is idempotent, and leaves the orientation it was asked for.

The output of one route is the input of another on the second pass:

* `retain_keepAll_idem` — a blob patched in place has its patch already;
* `retain_prune_idem` — a blob that was pruned and written is pruned to itself: the
  filter keeps every entry (`filtered_reread`), the tag already has its value, and
  the writer is at its fixed point (`toBytes_setOrientationTag`);
* `orientation_prune`, `orientation_patch` — what the output says about orientation.
-/
import Zencodec.Exif.Retain

open Slices StableSort

namespace Zencodec.Exif

variable {src d : Bytes} {order : ByteOrder} {O : Type} [Orientation O]

/-! ### Integer values -/

theorem toNat_toUInt32_lt (v : UInt8) : v.toUInt32.toNat < 256 := by
  have := v.toNat_lt
  simpa using this

/-- A SHORT or LONG value that was written is read back. -/
theorem readUint_of_hasAt {e : Entry src} {v : UInt8} {s : ℕ} (hs : intSize e.kind = some s)
    (h : HasAt e.value.bytes 0 (wordBytes order s v.toUInt32.toNat)) :
    readUint e order = some v.toUInt32 := by
  have hv := toNat_toUInt32_lt v
  have hv16 : (UInt16.ofNat v.toUInt32.toNat).toNat = v.toUInt32.toNat :=
    UInt16.toNat_ofNat_of_lt' (by simp only [UInt16.size]; omega)
  unfold intSize at hs
  unfold readUint
  split at hs
  · next hk =>
    obtain rfl := Option.some_inj.mp hs
    rw [← hv16] at h
    rw [if_pos hk, rd16_of_hasAt h, Option.map_some]
    congr 1
    refine UInt32.toNat_inj.mp ?_
    rw [UInt16.toNat_toUInt32, hv16]
  · split at hs
    · next hn hk =>
      obtain rfl := Option.some_inj.mp hs
      rw [if_neg hn, if_pos hk]
      exact rd32_of_hasAt h
    · exact absurd hs (by simp)

theorem readUint_of_intBytes {e : Entry src} {v : UInt8}
    (h : intBytes e.kind v.toUInt32 order = some e.value.bytes) :
    readUint e order = some v.toUInt32 := by
  unfold intBytes at h
  split at h
  · next hk =>
    refine readUint_of_hasAt (s := 2) (by rw [intSize, if_pos hk]) ?_
    rw [← Option.some_inj.mp h]
    exact hasAt_self _
  · split at h
    · next hn hk =>
      refine readUint_of_hasAt (s := 4) (by rw [intSize, if_neg hn, if_pos hk]) ?_
      rw [← Option.some_inj.mp h]
      exact hasAt_self _
    · exact absurd h (by simp)

/-- What is read has the width of its type. -/
theorem readUint_eq_some {e : Entry src} {v : UInt32} (h : readUint e order = some v) :
    ∃ s, intSize e.kind = some s ∧ s ≤ e.value.bytes.length := by
  unfold readUint at h
  split at h
  · next hk =>
    obtain ⟨w, hw, -⟩ := Option.map_eq_some_iff.mp h
    obtain ⟨b, hb, -⟩ := Option.map_eq_some_iff.mp hw
    exact ⟨2, by rw [intSize, if_pos hk], (slice_eq_some.mp hb).2.1⟩
  · split at h
    · next hn hk =>
      obtain ⟨b, hb, -⟩ := Option.map_eq_some_iff.mp h
      exact ⟨4, by rw [intSize, if_neg hn, if_pos hk], (slice_eq_some.mp hb).2.1⟩
    · exact absurd h (by simp)

theorem orientation_eq_some {x : Exif src} {t : O} (h : x.orientation = some t) :
    ∃ e raw, x.orientationEntry = some e ∧ readUint e x.order = some raw := by
  obtain ⟨e, he, h⟩ := Option.bind_eq_some_iff.mp h
  obtain ⟨raw, hraw, -⟩ := Option.bind_eq_some_iff.mp h
  exact ⟨e, raw, he, hraw⟩

/-- A tree whose orientation entry reads as the value of `o` has the orientation `o`. -/
theorem orientation_of_readUint [LawfulOrientation O] {x : Exif src} {o : O} {e : Entry src}
    (he : x.orientationEntry = some e)
    (h : readUint e x.order = some (Orientation.toExif o).toUInt32) :
    x.orientation = some o := by
  have hv := toNat_toUInt32_lt (Orientation.toExif o)
  rw [orientation, he, Option.bind_eq_bind, Option.bind_some, h,
    Option.bind_eq_bind, Option.bind_some, if_pos hv]
  rw [UInt8.toNat_toUInt32, UInt8.ofNat_toNat]
  exact LawfulOrientation.fromExif_toExif o

/-! ### Entries with the same content -/

theorem readUint_congr {e : Entry src} {e' : Entry d} (h : e'.field = e.field) :
    readUint e' order = readUint e order := by
  have hkind : e'.kind = e.kind := congrArg Field.kind h
  have hval : e'.value.bytes = e.value.bytes := congrArg Field.value h
  rw [readUint, readUint, hkind, hval]

theorem keep_of_field {policy : ExifPolicy} {dir : Bool} {e : Entry src} {e' : Entry d}
    (h : e'.field = e.field) : keep policy order dir e' = keep policy order dir e := by
  have htag : e'.tag = e.tag := congrArg Field.tag h
  have hkind : e'.kind = e.kind := congrArg Field.kind h
  have hcount : e'.count = e.count := congrArg Field.count h
  have hval : e'.value.bytes = e.value.bytes := congrArg Field.value h
  simp only [keep, htag, hkind, hcount, hval, readUint_congr h]

theorem keepInterop_of_field {e : Entry src} {e' : Entry d} (h : e'.field = e.field) :
    keepInterop e' = keepInterop e := by
  have htag : e'.tag = e.tag := congrArg Field.tag h
  have hkind : e'.kind = e.kind := congrArg Field.kind h
  have hcount : e'.count = e.count := congrArg Field.count h
  have hval : e'.value.bytes = e.value.bytes := congrArg Field.value h
  simp only [keepInterop, htag, hkind, hcount, hval]

/-- A filter that keeps a directory keeps it when it is read back. -/
theorem filter_reread {es : List (Entry src)} {es' : List (Entry d)}
    {p : Entry src → Bool} {p' : Entry d → Bool}
    (hp : ∀ e e', e'.field = e.field → p' e' = p e)
    (hf : fields es' = canonicalDir (fields es)) (h : ∀ e ∈ es, p e) : es'.filter p' = es' := by
  refine List.filter_eq_self.mpr fun e' he' => ?_
  have hmem : e'.field ∈ fields es := mem_canonicalDir.mp (hf ▸ mem_fields.mpr ⟨e', he', rfl⟩)
  obtain ⟨e, he, hfield⟩ := mem_fields.mp hmem
  rw [hp e e' hfield.symm]
  exact h e he

theorem isEmpty_reread {es : List (Entry src)} {es' : List (Entry d)}
    (hf : fields es' = canonicalDir (fields es)) : es'.isEmpty = es.isEmpty := by
  have hlen := congrArg List.length hf
  simp only [fields, canonicalDir, length_sortBy, List.length_map] at hlen
  cases es <;> cases es' <;> simp_all

/-! ### The filter on its own output -/

/-- The filter keeps every entry of IFD0 it kept before, the reconciled one too. -/
theorem keep_prune [LawfulOrientation O] {x : Exif src} {policy : ExifPolicy}
    {want : Option O} {e : Entry src} (he : e ∈ (x.prune policy want).ifd0) :
    keep policy x.order false e := by
  cases want with
  | none => exact (List.mem_filter.mp he).2
  | some o =>
    rcases mem_editFirst he with he | ⟨e0, he0, rfl⟩
    · exact (List.mem_filter.mp he).2
    · have hentry : (x.prune policy (some o)).orientationEntry =
          some (e0.setInt (Orientation.toExif o).toUInt32 x.order) := by
        rw [orientationEntry, prune, setOrientationTag, find?_editFirst fun _ => Entry.setInt_tag_of,
          he0]
        rfl
      obtain ⟨e1, he1, -, htag1, hkind, hcount, hval⟩ := orientationEntry_prune hentry
      obtain rfl : e0 = e1 := Option.some_inj.mp (he0.symm.trans he1)
      have hk := (List.mem_filter.mp (List.mem_of_find?_eq_some he0)).2
      have htag : (e0.setInt (Orientation.toExif o).toUInt32 x.order).tag = tagOrientation := by
        rw [Entry.setInt_tag, htag1]
      have hno : tagOrientation ∉ offsetTags := by decide
      have hnm : tagOrientation ≠ tagMakerNote := by decide
      have hread := readUint_of_intBytes hval
      have hrange := LawfulOrientation.toExif_mem o
      change keep policy x.order false (e0.setInt (Orientation.toExif o).toUInt32 x.order) = true
      unfold keep at hk ⊢
      rw [htag1, if_neg hno, if_neg hnm, if_pos rfl] at hk
      rw [htag, if_neg hno, if_neg hnm, if_pos rfl, hread, hkind, hcount]
      simp only [Bool.and_eq_true, Bool.not_false, decide_eq_true_eq, Option.any_some] at hk ⊢
      refine ⟨⟨⟨⟨trivial, hk.1.1.1.2⟩, trivial⟩, hk.1.2⟩, ?_, ?_⟩
      · have := UInt8.le_iff_toNat_le.mp hrange.1
        rw [UInt32.le_iff_toNat_le, UInt8.toNat_toUInt32]
        exact this
      · have := UInt8.le_iff_toNat_le.mp hrange.2
        rw [UInt32.le_iff_toNat_le, UInt8.toNat_toUInt32]
        exact this

/-- The filter leaves a pruned tree that was read back as it is. -/
theorem filtered_reread [LawfulOrientation O] {x : Exif src} (hrep : Reproducible x)
    {policy : ExifPolicy} {want : Option O} {y : Exif d} (h : Rereads (x.prune policy want) y) :
    y.filtered policy = y := by
  have horder : y.order = x.order := h.order_eq.trans (by cases want <;> rfl)
  have hexifEq : (x.prune policy want).exifIfd = (x.filtered policy).exifIfd := by
    cases want <;> rfl
  have hinteropEq : (x.prune policy want).interopIfd = (x.filtered policy).interopIfd := by
    cases want <;> rfl
  have hgpsEq : (x.prune policy want).gpsIfd = (x.filtered policy).gpsIfd := by
    cases want <;> rfl
  have hifd1Eq : (x.prune policy want).ifd1 = (x.filtered policy).ifd1 := by
    cases want <;> rfl
  have hthumbEq : (x.prune policy want).thumbnail = (x.filtered policy).thumbnail := by
    cases want <;> rfl
  have hifd0 : y.ifd0.filter (keep policy y.order false) = y.ifd0 :=
    filter_reread (p := keep policy x.order false)
      (fun e e' hf => by rw [keep_of_field hf, horder]) h.ifd0.fields_eq fun e he => keep_prune he
  -- The Interop IFD is there only when it was kept, below an Exif IFD.
  have hinterop : (if policy.color.keeps && y.exifIfd.isSome then
      (y.interopIfd.map (List.filter keepInterop)).filter fun l => !l.isEmpty
      else none) = y.interopIfd := by
    cases hy : y.interopIfd with
    | none => simp
    | some i' =>
      obtain ⟨i, hi, hsame⟩ := exists_of_rel h.interop hy
      rw [hinteropEq] at hi
      obtain ⟨hc, hx, hne, j, hj, rfl⟩ := filtered_interopIfd hi
      have hexif : y.exifIfd.isSome := by
        rw [isSome_of_rel h.exif, hexifEq]
        exact (filtered_reproducible hrep policy).interopParent (by rw [hi]; rfl)
      have hkeep : i'.filter keepInterop = i' :=
        filter_reread (fun e e' hf => keepInterop_of_field hf) hsame.fields_eq
          fun e he => (List.mem_filter.mp he).2
      rw [hexif, hc]
      simp only [Bool.and_self, if_true, Option.map_some, hkeep]
      rw [Option.filter_some, if_pos]
      rw [isEmpty_reread hsame.fields_eq]
      simpa using hne
  have hexif : (y.exifIfd.map (List.filter (keep policy y.order true))).filter
      (fun l => !l.isEmpty || y.interopIfd.isSome) = y.exifIfd := by
    cases hy : y.exifIfd with
    | none => rfl
    | some e' =>
      obtain ⟨e, he, hsame⟩ := exists_of_rel h.exif hy
      rw [hexifEq] at he
      obtain ⟨e0, he0, rfl⟩ := filtered_exifIfd he
      have hkeep : (e'.filter (keep policy y.order true)) = e' :=
        filter_reread (p := keep policy x.order true)
          (fun a a' hf => by rw [keep_of_field hf, horder]) hsame.fields_eq
          fun a ha => (List.mem_filter.mp ha).2
      rw [Option.map_some, hkeep, Option.filter_some, if_pos]
      rw [isEmpty_reread hsame.fields_eq, isSome_of_rel h.interop, hinteropEq]
      exact (Option.filter_eq_some_iff.mp he).2
  have hgps : (if policy.gps.keeps then y.gpsIfd else none) = y.gpsIfd := by
    split
    · rfl
    · next hg =>
      have hsome := isSome_of_rel h.gps
      rw [hgpsEq, filtered] at hsome
      have hnone : y.gpsIfd = none := by simpa [hg] using hsome
      exact hnone.symm
  have hifd1 : (if policy.thumbnail.keeps then
      y.ifd1.map (List.filter (keep policy y.order false)) else none) = y.ifd1 := by
    cases hy : y.ifd1 with
    | none => simp
    | some e' =>
      obtain ⟨e, he, hsame⟩ := exists_of_rel h.ifd1 hy
      rw [hifd1Eq] at he
      obtain ⟨hk, e0, he0, rfl⟩ := filtered_ifd1 he
      have hkeep : (e'.filter (keep policy y.order false)) = e' :=
        filter_reread (p := keep policy x.order false)
          (fun a a' hf => by rw [keep_of_field hf, horder]) hsame.fields_eq
          fun a ha => (List.mem_filter.mp ha).2
      rw [if_pos hk, Option.map_some, hkeep]
  have hthumb : (if policy.thumbnail.keeps then y.thumbnail else none) = y.thumbnail := by
    split
    · rfl
    · next ht =>
      have hmap := h.thumbnail
      rw [hthumbEq, filtered] at hmap
      have hnone : y.thumbnail = none := by simpa [ht] using hmap
      exact hnone.symm
  unfold filtered
  dsimp only
  rw [hinterop, hexif, hifd0, hgps, hifd1, hthumb]

/-! ### The writer does not see where an inline value is kept -/

/-- The entry with an inline value owned. -/
def Entry.detach (e : Entry src) : Entry src :=
  if e.value.bytes.length ≤ 4 then { e with value := .owned e.value.bytes } else e

theorem Entry.detach_of_le {e : Entry src} (h : e.value.bytes.length ≤ 4) :
    e.detach = { e with value := .owned e.value.bytes } := if_pos h

theorem Entry.detach_tag (e : Entry src) : e.detach.tag = e.tag := by
  unfold Entry.detach
  split <;> rfl

def Item.detach : Item src → Item src
  | .real e => .real e.detach
  | .ptr t v => .ptr t v

theorem writeItem_inline {base : ℕ} {st : ExtState} {e : Entry src}
    (h : e.value.bytes.length ≤ 4) : writeItem order base st (.real e) =
      (rowHead order e.tag e.kind e.count ++
        (e.value.bytes ++ List.replicate (4 - e.value.bytes.length) 0), st) := by
  rw [writeItem, if_pos h]
  rfl

theorem writeItem_detach (base : ℕ) (st : ExtState) (it : Item src) :
    writeItem order base st it.detach = writeItem order base st it := by
  cases it with
  | ptr t v => rfl
  | real e =>
    by_cases h : e.value.bytes.length ≤ 4
    · rw [Item.detach, Entry.detach_of_le h, writeItem_inline h]
      exact writeItem_inline (by exact h)
    · rw [Item.detach, Entry.detach, if_neg h]

theorem writeItems_detach (base : ℕ) (st : ExtState) (items : List (Item src)) :
    writeItems order base st (items.map Item.detach) = writeItems order base st items := by
  induction items generalizing st with
  | nil => rfl
  | cons it its ih => simp only [List.map_cons, writeItems, writeItem_detach, ih]

theorem sortedItems_detach (es : List (Entry src)) (ptrVals : List (UInt16 × UInt32)) :
    sortedItems (es.map Entry.detach) ptrVals = (sortedItems es ptrVals).map Item.detach := by
  have hkey : ∀ it : Item src, it.detach.key = it.key := by
    rintro (e | ⟨t, v⟩)
    · exact congrArg UInt16.toNat e.detach_tag
    · rfl
  rw [sortedItems, sortedItems, map_sortBy Item.detach hkey, List.map_append, List.map_map,
    List.map_map, List.map_map]
  rfl

theorem writeIfd_detach (es : List (Entry src)) (ptrVals : List (UInt16 × UInt32)) (base : ℕ)
    (next : UInt32) :
    writeIfd order (es.map Entry.detach) ptrVals base next =
      writeIfd order es ptrVals base next := by
  simp only [writeIfd, sortedItems_detach, writeItems_detach, List.length_map]

/-- Trees whose IFD0 differs in where inline values are kept are written alike. -/
theorem toBytes_of_detach {x : Exif src} {es : List (Entry src)}
    (h : es.map Entry.detach = x.ifd0.map Entry.detach) :
    toBytes { x with ifd0 := es } = x.toBytes := by
  have hlen : es.length = x.ifd0.length := by simpa using congrArg List.length h
  have hwrite : ∀ ptrVals base next,
      writeIfd x.order es ptrVals base next = writeIfd x.order x.ifd0 ptrVals base next := by
    intro ptrVals base next
    rw [← writeIfd_detach es, h, writeIfd_detach]
  have hblock : blockSize es x.ifd0Nptr = blockSize x.ifd0 x.ifd0Nptr := by
    rw [← length_ifd0Ptrs, ← length_writeIfd x.order es x.ifd0Ptrs 0 0, hwrite,
      length_writeIfd]
  have htable : ∀ n, tableSize es n = tableSize x.ifd0 n := fun n => by
    rw [tableSize, tableSize, hlen]
  have hoffsets : offsets { x with ifd0 := es } = x.offsets := by
    unfold offsets
    rw [show blockSize es (ifd0Nptr { x with ifd0 := es }) = blockSize x.ifd0 x.ifd0Nptr from
      hblock]
    rfl
  have hptrs : ifd0Ptrs { x with ifd0 := es } = x.ifd0Ptrs := by
    unfold ifd0Ptrs
    rw [hoffsets]
  have hptrs1 : ifd1Ptrs { x with ifd0 := es } = x.ifd1Ptrs := by
    unfold ifd1Ptrs
    rw [hoffsets]
  unfold toBytes tiffBytes
  rw [hoffsets, hptrs, hptrs1]
  simp only [writeBlock, hwrite, htable]
  rfl

/-- Setting an orientation that is already there changes no byte. -/
theorem toBytes_setOrientationTag {x : Exif src} {o : O}
    (h : ∀ e, x.orientationEntry = some e → e.count = 1 ∧
      intBytes e.kind (Orientation.toExif o).toUInt32 x.order = some e.value.bytes) :
    (x.setOrientationTag o).toBytes = x.toBytes := by
  refine toBytes_of_detach (map_editFirst fun e he => ?_)
  obtain ⟨hcount, hval⟩ := h e he
  have h4 := (intBytes_length hval).2
  have hset : e.setInt (Orientation.toExif o).toUInt32 x.order =
      { e with value := .owned e.value.bytes, count := 1 } := by
    rw [Entry.setInt, hval]
  rw [hset, Entry.detach_of_le h4, Entry.detach_of_le (by exact h4), ← hcount]
  rfl

/-! ### Idempotence -/

theorem nothingLeft_reread {x : Exif src} {y : Exif d} (h : Rereads x y) :
    y.nothingLeft = x.nothingLeft := by
  have hnone : ∀ {α β : Type} {a : Option α} {b : Option β}, b.isSome = a.isSome →
      b.isNone = a.isNone := by
    intro α β a b hab
    rw [← Option.not_isSome, ← Option.not_isSome, hab]
  rw [nothingLeft, nothingLeft, isEmpty_reread h.ifd0.fields_eq, hnone (isSome_of_rel h.exif),
    hnone (isSome_of_rel h.gps), hnone (isSome_of_rel h.ifd1)]

/-- Pruning a pruned tree that was read back changes nothing that is written. -/
theorem prune_reread [LawfulOrientation O] {x : Exif src} (hrep : Reproducible x)
    {policy : ExifPolicy} {want : Option O} {y : Exif d}
    (h : Rereads (x.prune policy want) y) :
    (y.prune policy want).toBytes = (x.prune policy want).toBytes ∧
      (y.prune policy want).nothingLeft = (x.prune policy want).nothingLeft := by
  have hfiltered := filtered_reread hrep h
  rw [← h.toBytes_eq, ← nothingLeft_reread h]
  cases want with
  | none => rw [prune_none, hfiltered]; exact ⟨rfl, rfl⟩
  | some o =>
    rw [prune_some, hfiltered]
    refine ⟨toBytes_setOrientationTag fun e he => ?_, ?_⟩
    · have hmap := h.orientationEntry
      rw [he, Option.map_some] at hmap
      obtain ⟨e1, he1, hfield⟩ := Option.map_eq_some_iff.mp hmap.symm
      obtain ⟨-, -, -, -, -, hcount, hval⟩ := orientationEntry_prune he1
      have hk1 : e1.kind = e.kind := congrArg Field.kind hfield
      have hc1 : e1.count = e.count := congrArg Field.count hfield
      have hv1 : e1.value.bytes = e.value.bytes := congrArg Field.value hfield
      have horder : y.order = x.order := h.order_eq
      exact ⟨hc1 ▸ hcount, by rw [horder, ← hk1, ← hv1]; exact hval⟩
    · have hempty : (y.setOrientationTag o).ifd0.isEmpty = y.ifd0.isEmpty :=
        isEmpty_editFirst y.ifd0
      simp only [nothingLeft, hempty]
      rfl

/-- **A blob that was pruned and written is pruned to itself.** -/
theorem retain_prune_idem [DecidableEq O] [LawfulOrientation O] {data : Bytes}
    {policy : ExifPolicy} {want : Option O} {x : Exif (tiffOf data)}
    (hk : policy.keepsEverything = false) (h : Pruned data policy x want) :
    retainReconciled (x.prune policy want).toBytes policy want =
      some (.owned (x.prune policy want).toBytes) := by
  obtain ⟨y, hy, hreads⟩ := h.parse_toBytes
  obtain ⟨hbytes, hleft⟩ := prune_reread (parseTiff_reproducible h.parsed) hreads
  have hlen : (x.prune policy want).toBytes.length ≤ u32Max := by
    rw [← serializedLen_eq]
    exact h.cap.trans (Nat.min_le_right _ _)
  have hcap : ¬ sizeCap (x.prune policy want).toBytes.length <
      (y.prune policy want).serializedLen := by
    rw [serializedLen_eq, hbytes]
    unfold sizeCap
    omega
  unfold retainReconciled
  rw [if_neg (by simp [h.kept]), if_neg (by simp [hk]), if_neg (by omega), hy]
  simp only [hk, Bool.false_eq_true, if_false, hleft, h.left, if_neg hcap, hbytes]

/-! ### The keep-everything route -/

theorem splice_self {α : Type} {l l' bs : List α} {n : ℕ} (h : splice l n bs = some l') :
    splice l' n bs = some l' := by
  rw [splice_splice h rfl, h]

/-- A blob patched in place parses, is patched to itself, and has the orientation it was
patched to wherever it has one. -/
theorem patched_self [LawfulOrientation O] {data out : Bytes} {x : Exif (tiffOf data)} {o : O}
    (hx : parse data = some x) (h : setOrientationWith data x o = some out) :
    ∃ x', parse out = some x' ∧ setOrientationWith out x' o = some out ∧
      ∀ t : O, x'.orientation = some t → t = o := by
  obtain ⟨e, he, hpatch⟩ := Option.bind_eq_some_iff.mp h
  obtain ⟨s, hs, hin, hat, x', hx', horder, hpre, e', he', hshape⟩ :=
    parse_patchInlineInt hx he hpatch
  have hs' : intSize e'.kind = some s := by rw [hshape.kind, hs]
  refine ⟨x', hx', ?_, ?_⟩
  · simp only [patchInlineInt, hs, Option.bind_eq_bind, Option.bind_some] at hpatch
    rw [if_neg (by omega)] at hpatch
    rw [setOrientationWith, he', Option.bind_some]
    simp only [patchInlineInt, hs', Option.bind_eq_bind, Option.bind_some, hshape.count,
      hshape.valueOffset, hpre, horder]
    rw [if_neg (by omega)]
    exact splice_self hpatch
  · intro t ht
    obtain ⟨e'', raw, he'', hraw⟩ := orientation_eq_some ht
    obtain rfl : e' = e'' := Option.some_inj.mp (he'.symm.trans he'')
    obtain ⟨s', hs'', hlen⟩ := readUint_eq_some hraw
    obtain rfl : s = s' := Option.some_inj.mp (hs'.symm.trans hs'')
    -- The value that is read starts with the bytes written.
    obtain ⟨s'', -, hkey⟩ := orientationEntry_key hx he
    have hval : HasAt e'.value.bytes 0
        (wordBytes x'.order s (Orientation.discriminant o).toUInt32.toNat) := by
      have hkey' := hshape.key.trans hkey
      rw [horder]
      cases hv : e'.value with
      | owned b => rw [hv] at hkey'; exact absurd hkey' (by simp [Cow.key])
      | borrowed sl =>
        rw [hv] at hkey' hlen
        have hstart : sl.start = e.valueOffset :=
          congrArg Prod.fst (Option.some_inj.mp hkey')
        have hsl := sl.hasAt
        rw [hstart] at hsl
        exact hsl.sub hat (by rw [wordBytes_length]; exact hlen)
    rw [LawfulOrientation.discriminant_eq] at hval
    have ho := orientation_of_readUint he' (readUint_of_hasAt hs'' hval)
    exact Option.some_inj.mp (ht.symm.trans ho)

theorem discardsEverything_of_keepsEverything {policy : ExifPolicy}
    (h : policy.keepsEverything) : policy.discardsEverything = false := by
  rw [ExifPolicy.discardsEverything, decide_eq_false_iff_not]
  rintro rfl
  exact absurd h (by decide)

/-- What the keep-everything route returns. -/
theorem retain_keepAll [DecidableEq O] (data : Bytes) {policy : ExifPolicy} (o : O)
    (hk : policy.keepsEverything) :
    (retainReconciled data policy (some o) = some .borrowed ∧
      (u32Max < data.length ∨ parse data = none ∨
        ∃ x, parse data = some x ∧
          (x.orientation = some o ∨ setOrientationWith data x o = none))) ∨
    ∃ x v, parse data = some x ∧ data.length ≤ u32Max ∧ setOrientationWith data x o = some v ∧
      retainReconciled data policy (some o) = some (.owned v) := by
  have hd := discardsEverything_of_keepsEverything hk
  unfold retainReconciled
  rw [if_neg (by simp [hd]), if_neg (by simp), hk]
  by_cases hlen : u32Max < data.length
  · rw [if_pos hlen]
    exact .inl ⟨rfl, .inl hlen⟩
  · rw [if_neg hlen]
    cases hx : parse data with
    | none => exact .inl ⟨rfl, .inr (.inl rfl)⟩
    | some x =>
      by_cases ho : x.orientation = some o
      · exact .inl ⟨by simp [ho], .inr (.inr ⟨x, rfl, .inl ho⟩)⟩
      · cases hs : setOrientationWith data x o with
        | none => exact .inl ⟨by simp [ho, hs], .inr (.inr ⟨x, rfl, .inr hs⟩)⟩
        | some v => exact .inr ⟨x, v, rfl, by omega, hs, by simp [ho, hs]⟩

/-- **A second pass returns the bytes of the first.** -/
theorem retain_idem [DecidableEq O] [LawfulOrientation O] {data : Bytes} {policy : ExifPolicy}
    {o : O} {r : Retained} (h : retainReconciled data policy (some o) = some r) :
    ∃ r', retainReconciled (r.bytes data) policy (some o) = some r' ∧
      r'.bytes (r.bytes data) = r.bytes data := by
  cases hk : policy.keepsEverything with
  | false =>
    obtain ⟨x, hp, rfl⟩ := retain_prune hk h
    exact ⟨_, retain_prune_idem hk hp, rfl⟩
  | true =>
    rcases retain_keepAll data o hk with ⟨hb, -⟩ | ⟨x, v, hx, hlen, hv, hr⟩
    · obtain rfl := Option.some_inj.mp (h.symm.trans hb)
      exact ⟨_, hb, rfl⟩
    · obtain rfl := Option.some_inj.mp (h.symm.trans hr)
      obtain ⟨x', hx', hself, -⟩ := patched_self hx hv
      rcases retain_keepAll v o hk with ⟨hb, -⟩ | ⟨x'', v', hx'', -, hv', hr'⟩
      · exact ⟨_, hb, rfl⟩
      · obtain rfl := Option.some_inj.mp (hx'.symm.trans hx'')
        obtain rfl := Option.some_inj.mp (hself.symm.trans hv')
        exact ⟨_, hr', rfl⟩

/-! ### The orientation of the output -/

theorem length_tiffOf (data : Bytes) :
    (if hasPrefix data then exifPrefix.length else 0) + (tiffOf data).length = data.length := by
  unfold tiffOf
  split
  · next h =>
    have htake : data.take exifPrefix.length = exifPrefix := by simpa [hasPrefix] using h
    have hlen := congrArg List.length htake
    rw [List.length_take] at hlen
    rw [List.length_drop]
    omega
  · omega

/-- An orientation that is read but not patched is stored out of line. -/
theorem outOfLine_of_unpatched {data : Bytes} {x : Exif (tiffOf data)} {o t : O}
    (hx : parse data = some x) (ht : x.orientation = some t)
    (h : setOrientationWith data x o = none) :
    ∃ e s, x.orientationEntry = some e ∧ typeSize e.kind = some s ∧ 4 < e.count.toNat * s := by
  obtain ⟨e, raw, he, hraw⟩ := orientation_eq_some ht
  obtain ⟨s, hs, hlen⟩ := readUint_eq_some hraw
  obtain ⟨-, -, hts⟩ := intSize_eq_some hs
  obtain ⟨s', hts', hkey⟩ := orientationEntry_key hx he
  obtain rfl : s = s' := Option.some_inj.mp (hts.symm.trans hts')
  refine ⟨e, s, he, hts, ?_⟩
  by_contra hin
  -- An inline value lies in the blob, so that the write would succeed.
  obtain ⟨-, -, -, -, -, -, -, -, hpre, -⟩ := parseTiff_orientationEntry hx
  have hroom : (if x.hadPrefix then exifPrefix.length else 0) + e.valueOffset + s ≤
      data.length := by
    rw [← length_tiffOf data, hpre]
    cases hv : e.value with
    | owned b => rw [hv] at hkey; exact absurd hkey (by simp [Cow.key])
    | borrowed sl =>
      rw [hv] at hkey hlen
      have hkey' := Option.some_inj.mp hkey
      have hstart : sl.start = e.valueOffset := congrArg Prod.fst hkey'
      have hb := sl.inBounds
      rw [Cow.bytes_borrowed, Slice.length_bytes] at hlen
      omega
  rw [setOrientationWith, he, Option.bind_some] at h
  simp only [patchInlineInt, hs, Option.bind_eq_bind, Option.bind_some, if_neg hin] at h
  rw [splice, if_pos (by rw [wordBytes_length]; exact hroom)] at h
  exact absurd h (by simp)

/-- A pruned tree that was read back has the orientation it was reconciled to. -/
theorem orientation_prune [LawfulOrientation O] {x : Exif src} {policy : ExifPolicy} {o t : O}
    {y : Exif d} (h : Rereads (x.prune policy (some o)) y) (ht : y.orientation = some t) :
    t = o := by
  obtain ⟨e, -, he, -⟩ := orientation_eq_some ht
  have hmap := h.orientationEntry
  rw [he, Option.map_some] at hmap
  obtain ⟨e1, he1, hfield⟩ := Option.map_eq_some_iff.mp hmap.symm
  obtain ⟨-, -, -, -, -, -, hval⟩ := orientationEntry_prune he1
  have hread : readUint e y.order = some (Orientation.toExif o).toUInt32 := by
    have horder : y.order = x.order := h.order_eq
    rw [horder, readUint_congr hfield.symm]
    exact readUint_of_intBytes hval
  exact Option.some_inj.mp (ht.symm.trans (orientation_of_readUint he hread))

/-- **The output has the orientation asked for**, or it is the source itself under a policy
that keeps everything, too long to parse or with its orientation out of line. -/
theorem retain_orientation [DecidableEq O] [LawfulOrientation O] {data : Bytes}
    {policy : ExifPolicy} {o t : O} {r : Retained}
    (h : retainReconciled data policy (some o) = some r) {y : Exif (tiffOf (r.bytes data))}
    (hy : parse (r.bytes data) = some y) (ht : y.orientation = some t) :
    t = o ∨ policy.keepsEverything ∧ r = .borrowed ∧ (u32Max < data.length ∨
      ∃ e s, y.orientationEntry = some e ∧ typeSize e.kind = some s ∧ 4 < e.count.toNat * s) := by
  cases hk : policy.keepsEverything with
  | false =>
    obtain ⟨x, hp, rfl⟩ := retain_prune hk h
    obtain ⟨y', hy', hreads⟩ := hp.parse_toBytes
    obtain rfl : y = y' := Option.some_inj.mp (hy.symm.trans hy')
    exact .inl (orientation_prune hreads ht)
  | true =>
    rcases retain_keepAll data o hk with
      ⟨hb, hlen | hnone | ⟨x, hx, ho | hs⟩⟩ | ⟨x, v, hx, hlen, hv, hr⟩
    · obtain rfl := Option.some_inj.mp (h.symm.trans hb)
      exact .inr ⟨rfl, rfl, .inl hlen⟩
    · obtain rfl := Option.some_inj.mp (h.symm.trans hb)
      exact absurd (hnone.symm.trans hy) (by simp)
    · obtain rfl := Option.some_inj.mp (h.symm.trans hb)
      obtain rfl := Option.some_inj.mp (hx.symm.trans hy)
      exact .inl (Option.some_inj.mp (ht.symm.trans ho))
    · obtain rfl := Option.some_inj.mp (h.symm.trans hb)
      obtain rfl := Option.some_inj.mp (hx.symm.trans hy)
      exact .inr ⟨rfl, rfl, .inr (outOfLine_of_unpatched hx ht hs)⟩
    · obtain rfl := Option.some_inj.mp (h.symm.trans hr)
      obtain ⟨x', hx', -, horient⟩ := patched_self hx hv
      obtain rfl := Option.some_inj.mp (hx'.symm.trans hy)
      exact .inl (horient t ht)

end Zencodec.Exif
