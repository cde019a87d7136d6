/-
The patches in place, and what they leave alone.

`setExifOrientation` and `setExifColorSpace` overwrite the value of one entry.  Two
things can go wrong behind a `Some`: an entry with no element has no value to read
back, and the four bytes of a value field may be read as something else too, when
directories, values or the thumbnail of a blob overlap.  `PatchSafe` says that no
byte the patch changes is.

* `dirsRel_of_safe` — then every directory is read as before, up to the one value;
* `patched_view` — so the patched blob has the tree of the old one with that value
  in it (`viewWith`);
* `inPlace_exact` — both patches keep to the value field; a safe patch is exact iff
  the entry has an element.
-/
import Zencodec.Exif.Footprint
import Zencodec.Exif.OnePass

open Slices

namespace Zencodec.Exif

variable {src d d' : Bytes} {order : ByteOrder} {O : Type} [Orientation O]

/-! ### The colour-space patch -/

/-- The first entry with the colour-space tag, of the Exif IFD or else of IFD0. -/
def colorSpaceEntry (x : Exif src) : Option (Ifd × Entry src) :=
  (((x.exifIfd.getD []).find? fun e => e.tag = tagColorSpace).map fun e => (.exif, e)).or
    ((x.ifd0.find? fun e => e.tag = tagColorSpace).map fun e => (.ifd0, e))

/-- Rewrite the colour space of a blob in place. -/
def setColorSpace (data : Bytes) (value : UInt16) : Option Bytes :=
  (parse data).bind fun x => x.colorSpaceEntry.bind fun q =>
    patchInlineInt data x q.2 value.toUInt32

/-- Rewrite the colour space to match the colours an image is encoded with: sRGB, or
uncalibrated. -/
def setExifColorSpace (data : Bytes) (srgb : Bool) : Option Bytes :=
  setColorSpace data (if srgb then 1 else 0xFFFF)

/-! ### What else is read -/

/-- The spans a blob is parsed from, but for the value field at `field` of the directory
`own`: the header, the directories, the next-IFD offset and the thumbnail. -/
def otherSpans {tiff : Bytes} (x : Exif tiff) (own : Ifd) (field : ℕ) : List (ℕ × ℕ) :=
  (0, 8) :: ([Ifd.ifd0, .exif, .interop, .gps, .ifd1].flatMap fun ifd =>
      (dirAt tiff x.order ifd).elim []
        (dirSpans tiff x.order (if ifd = own then some field else none)))
    ++ (dirAt tiff x.order .ifd0).elim [] (fun off => [nextSpan tiff x.order off])
    ++ (x.thumbnail.map fun t => (t.start, t.len)).toList

/-- No byte that writing `bs` over the value of `e` changes is read for anything else. -/
def PatchSafe {tiff : Bytes} (x : Exif tiff) (own : Ifd) (e : Entry tiff) (bs : Bytes) : Prop :=
  ∀ k < bs.length, tiff[e.valueOffset + k]? ≠ bs[k]? →
    ∀ s ∈ x.otherSpans own e.valueOffset,
      e.valueOffset + k < s.1 ∨ s.1 + s.2 ≤ e.valueOffset + k

instance decidablePatchSafe {tiff : Bytes} (x : Exif tiff) (own : Ifd) (e : Entry tiff)
    (bs : Bytes) : Decidable (x.PatchSafe own e bs) := by
  unfold PatchSafe
  infer_instance

/-- A value with `bs` written over its start. -/
def overwritten (bs old : Bytes) : Bytes := (bs ++ old.drop bs.length).take old.length

/-- The fields of a directory, `e` having `bs` written over its value. -/
def fieldsWith (e : Entry src) (bs : Bytes) (es : List (Entry src)) : List Field :=
  es.map fun a => if a = e then { a.field with value := overwritten bs a.value.bytes } else a.field

/-- The content of a tree, the entry `e` of the directory `own` having `bs` written over its
value. -/
def viewWith (x : Exif src) (own : Ifd) (e : Entry src) (bs : Bytes) : Tree :=
  match own with
  | .ifd0 => { x.view with ifd0 := fieldsWith e bs x.ifd0 }
  | .exif => { x.view with exifIfd := x.exifIfd.map (fieldsWith e bs) }
  | .interop => { x.view with interopIfd := x.interopIfd.map (fieldsWith e bs) }
  | .gps => { x.view with gpsIfd := x.gpsIfd.map (fieldsWith e bs) }
  | .ifd1 => { x.view with ifd1 := x.ifd1.map (fieldsWith e bs) }

/-! ### The bytes of a patch -/

/-- A safe write agrees with the blob on every other span. -/
theorem PatchSafe.agree {x : Exif d} {own : Ifd} {e : Entry d} {bs : Bytes}
    (h : x.PatchSafe own e bs) (hs : splice d e.valueOffset bs = some d') {s : ℕ × ℕ}
    (hmem : s ∈ x.otherSpans own e.valueOffset) : Agree d d' s := by
  intro i hi1 hi2
  by_cases hin : e.valueOffset ≤ i ∧ i < e.valueOffset + bs.length
  · obtain ⟨k, rfl⟩ := Nat.exists_eq_add_of_le hin.1
    have hk : k < bs.length := by omega
    -- The byte written there is the one that stood there, or the span misses it.
    have hnew : d'[e.valueOffset + k]? = bs[k]? := by
      have hat := (hasAt_iff.mp (hasAt_splice hs)).2
      have hget := congrArg (fun l : Bytes => l[k]?) hat
      rw [List.getElem?_take, if_pos hk, List.getElem?_drop] at hget
      exact hget
    by_contra hne
    rw [hnew] at hne
    have := h k hk (Ne.symm hne) s hmem
    omega
  · exact getElem?_splice hs (by omega)

/-- What a value field holds after a write over its start. -/
theorem bytes_splice {o n : ℕ} {bs : Bytes} (hs : splice d o bs = some d') (hn : o + n ≤ d.length)
    : (d'.drop o).take n = overwritten bs ((d.drop o).take n) := by
  have hlen : ((d.drop o).take n).length = n := by
    simp only [List.length_take, List.length_drop]
    omega
  refine List.ext_getElem? fun i => ?_
  rw [overwritten, hlen, List.getElem?_take, List.getElem?_take]
  split
  · next hi =>
    rw [List.getElem?_drop]
    by_cases hb : i < bs.length
    · rw [List.getElem?_append_left hb]
      have hat := (hasAt_iff.mp (hasAt_splice hs)).2
      have hget := congrArg (fun l : Bytes => l[i]?) hat
      rw [List.getElem?_take, if_pos hb, List.getElem?_drop] at hget
      exact hget
    · rw [List.getElem?_append_right (by omega), List.getElem?_drop, List.getElem?_take,
        if_pos (by omega), List.getElem?_drop, getElem?_splice hs (.inr (by omega))]
      congr 1
      omega
  · rfl

/-! ### The row of the patched entry -/

/-- An entry of IFD0 or of the Exif IFD is an entry of the directory read there. -/
theorem mem_raw {p : Bool} {x : Exif d} (hx : parseTiff p d = some x) {own : Ifd}
    (hown : own = .ifd0 ∨ own = .exif) {e : Entry d} (he : e ∈ x.entriesOf own) :
    ∃ off es next, dirAt d x.order own = some off ∧
      parseIfd d off x.order = some (es, next) ∧ e ∈ es := by
  unfold parseTiff at hx
  split at hx
  · exact absurd hx (by simp)
  · simp only [Option.bind_eq_bind, Option.bind_eq_some_iff] at hx
    obtain ⟨order, -, magic, -, hx⟩ := hx
    split at hx
    · exact absurd hx (by simp)
    · simp only [Option.bind_eq_some_iff] at hx
      obtain ⟨off0, hoff0, ⟨es, next⟩, hparse, hx⟩ := hx
      obtain rfl := Option.some_inj.mp hx
      dsimp only at he ⊢
      have hroot : dirAt d order .ifd0 = some off0.toNat := by
        rw [dirAt, hoff0, Option.map_some]
      have hraw : rawIfd0 d order = some (es, next) := by
        rw [rawIfd0, hoff0, Option.bind_some, hparse]
      rcases hown with rfl | rfl
      · refine ⟨_, es, next, hroot, hparse, ?_⟩
        exact (takePointer_taken es tagExifIfd order).sublist.subset
          ((takePointer_taken _ tagGpsIfd order).sublist.subset
            ((sweep_sublist _ _ _).subset ((sweep_sublist _ _ _).subset he)))
      · simp only [entriesOf] at he
        cases ho : (takePointer es tagExifIfd order).1 with
        | none =>
          rw [ho] at he
          exact absurd he (by simp)
        | some o =>
          rw [ho, Option.bind_some] at he
          cases hpe : parseExifIfd d order o with
          | none =>
            rw [hpe] at he
            exact absurd he (by simp)
          | some r =>
            obtain ⟨es', i⟩ := r
            rw [hpe] at he
            obtain ⟨fs, next', hparse', rfl, -⟩ := parseExifIfd_eq_some hpe
            refine ⟨o, fs, next', by rw [dirAt, hraw, Option.bind_some, ho], hparse', ?_⟩
            exact (takePointer_taken fs tagInteropIfd order).sublist.subset
              ((sweep_sublist _ _ _).subset he)

/-- The rows of a directory, `e₀` being one of them and inline. -/
theorem row_of_mem {off : ℕ} {es : List (Entry d)} {next : UInt32} {e₀ : Entry d} {s : ℕ}
    (hparse : parseIfd d off order = some (es, next)) (hmem : e₀ ∈ es)
    (hs : typeSize e₀.kind = some s) (hin : e₀.count.toNat * s ≤ 4) :
    off + 10 ≤ e₀.valueOffset ∧
      e₀.value.key = some (e₀.valueOffset, e₀.count.toNat * s) ∧
      ∀ n : UInt16, rd16 d off order = some n → ∀ j < n.toNat,
        e₀.valueOffset = off + 2 + 12 * j + 8 →
        resolveEntry d (off + 2 + 12 * j) order = some e₀ := by
  simp only [parseIfd, Option.bind_eq_bind, Option.bind_eq_some_iff] at hparse
  obtain ⟨count, hcount, hparse⟩ := hparse
  split at hparse
  · exact absurd hparse (by simp)
  · obtain ⟨rfl, -⟩ := Prod.mk.inj (Option.some_inj.mp hparse)
    obtain ⟨j₀, hj₀, hres⟩ := mem_readEntries hmem
    obtain ⟨s', -, -, -, hs', hoff, hkey⟩ := resolveEntry_inv hres
    obtain rfl : s = s' := Option.some_inj.mp (hs.symm.trans hs')
    rw [valueOffsetAt, if_pos hin] at hoff
    have hoff' := (Option.some_inj.mp hoff).symm
    refine ⟨by omega, hkey, fun n hn j hj heq => ?_⟩
    obtain rfl : j = j₀ := by omega
    exact hres

/-- The value bytes of an entry whose value stands at a key. -/
theorem bytes_of_key {e : Entry d} {o n : ℕ} (h : e.value.key = some (o, n)) :
    o + n ≤ d.length ∧ e.value.bytes = (d.drop o).take n := by
  cases hv : e.value with
  | owned b =>
    rw [hv] at h
    exact absurd h (by simp [Cow.key])
  | borrowed s =>
    rw [hv] at h
    obtain ⟨rfl, rfl⟩ := Prod.mk.inj (Option.some_inj.mp h)
    exact ⟨s.inBounds, rfl⟩

/-- The patched row is read with the old shape and the new value. -/
theorem resolveEntry_patched {e₀ : Entry d} {bs : Bytes} {s row : ℕ}
    (hsplice : splice d e₀.valueOffset bs = some d') (hs : typeSize e₀.kind = some s)
    (hin : e₀.count.toNat * s ≤ 4)
    (hkey : e₀.value.key = some (e₀.valueOffset, e₀.count.toNat * s))
    (hrow : e₀.valueOffset = row + 8) (hres : resolveEntry d row order = some e₀) :
    ∃ e', resolveEntry d' row order = some e' ∧
      Swap e₀ (overwritten bs e₀.value.bytes) e₀ e' := by
  obtain ⟨s', -, hkind, hcnt, hs', -, -⟩ := resolveEntry_inv hres
  have hsafe : RowSafe d order e₀.valueOffset bs.length row := by
    refine .inr (.inr ⟨by omega, fun kind cnt t hk hc ht => ?_⟩)
    obtain rfl := Option.some_inj.mp (hkind.symm.trans hk)
    obtain rfl := Option.some_inj.mp (hcnt.symm.trans hc)
    obtain rfl := Option.some_inj.mp (hs.symm.trans ht)
    exact hin
  have hrel := resolveEntry_splice hsplice hsafe
  rw [hres] at hrel
  generalize resolveEntry d' row order = r at hrel ⊢
  cases hrel with
  | @some _ e' hshape =>
    refine ⟨e', rfl, fun h => absurd rfl h, fun _ => ⟨hshape, ?_⟩⟩
    obtain ⟨hle, hbytes⟩ := bytes_of_key hkey
    obtain ⟨-, hbytes'⟩ := bytes_of_key (hshape.key.trans hkey)
    rw [hbytes', hbytes, bytes_splice hsplice hle]

/-! ### The tree of the patched blob -/

/-- How the entries of a directory are related to those of the patched blob. -/
def OwnRel (own ifd : Ifd) (e₀ : Entry d) (bs : Bytes) (e : Entry d) (e' : Entry d') : Prop :=
  if own = ifd then Swap e₀ (overwritten bs e₀.value.bytes) e e' else SameEntry e e'

theorem ownRel_self {own : Ifd} {e₀ : Entry d} {bs : Bytes} :
    (OwnRel own own e₀ bs : Entry d → Entry d' → Prop) =
      Swap e₀ (overwritten bs e₀.value.bytes) := by
  funext e e'
  simp [OwnRel]

theorem ownRel_of_ne {own ifd : Ifd} {e₀ : Entry d} {bs : Bytes} (h : own ≠ ifd) :
    (OwnRel own ifd e₀ bs : Entry d → Entry d' → Prop) = SameEntry := by
  funext e e'
  simp [OwnRel, h]

theorem ptrSafe_ownRel {own ifd : Ifd} {e₀ : Entry d} {bs : Bytes}
    (h : e₀.tag ∉ pointerTags) :
    PtrSafe (OwnRel own ifd e₀ bs : Entry d → Entry d' → Prop) := by
  by_cases hown : own = ifd
  · subst hown
    rw [ownRel_self]
    exact ptrSafe_swap h
  · rw [ownRel_of_ne hown]
    exact ptrSafe_sameEntry

/-- An entry the patches apply to: inline, and one of the directory `own`. -/
structure Patchable {tiff : Bytes} (x : Exif tiff) (own : Ifd) (e : Entry tiff) (s : ℕ) :
    Prop where
  home : own = .ifd0 ∨ own = .exif
  mem : e ∈ x.entriesOf own
  size : intSize e.kind = some s
  inline : e.count.toNat * s ≤ 4
  tag : e.tag ∉ pointerTags

/-- After a safe patch every directory is read as before, but for the patched value. -/
theorem dirsRel_of_safe {p : Bool} {x : Exif d} {own : Ifd} {e₀ : Entry d} {bs : Bytes} {s : ℕ}
    (hx : parseTiff p d = some x) (he : Patchable x own e₀ s) (hsafe : x.PatchSafe own e₀ bs)
    (hsplice : splice d e₀.valueOffset bs = some d') :
    DirsRel x.order (OwnRel own .ifd0 e₀ bs : Entry d → Entry d' → Prop)
      (OwnRel own .exif e₀ bs) := by
  have hlen := length_splice hsplice
  have htype := (intSize_eq_some he.size).2.2
  obtain ⟨off₀, es₀, next₀, hat, hparse, hmem⟩ := mem_raw hx he.home he.mem
  obtain ⟨-, hkey, hrows⟩ := row_of_mem hparse hmem htype he.inline
  -- The spans of a directory are among the spans the patch leaves alone.
  have hspans : ∀ ifd off, dirAt d x.order ifd = some off → ∀ t ∈ dirSpans d x.order
      (if ifd = own then some e₀.valueOffset else none) off, Agree d d' t := by
    intro ifd off hoff t ht
    refine hsafe.agree hsplice (List.mem_append_left _ (List.mem_append_left _
      (List.mem_cons_of_mem _ (List.mem_flatMap.mpr ⟨ifd, ?_, ?_⟩))))
    · cases ifd <;> simp
    · rw [hoff, Option.elim_some]
      exact ht
  have hdir : ∀ ifd off, dirAt d x.order ifd = some off →
      Option.Rel (fun r r' => List.Forall₂ (OwnRel own ifd e₀ bs) r.1 r'.1 ∧
        (Agree d d' (nextSpan d x.order off) → r'.2 = r.2))
        (parseIfd d off x.order) (parseIfd d' off x.order) := by
    intro ifd off hoff
    have hspan := hspans ifd off hoff
    by_cases hown : ifd = own
    · subst hown
      obtain rfl : off₀ = off := Option.some_inj.mp (hat.symm.trans hoff)
      rw [if_pos rfl] at hspan
      rw [ownRel_self]
      refine parseIfd_agree hlen (fun n hn ht => ?_) hspan
      refine readEntries_agree hlen htype he.inline (fun row hrow hres _ => ?_)
        (fun j hj heq => hrows n hn j hj heq) ht
      exact resolveEntry_patched hsplice htype he.inline hkey hrow hres
    · rw [if_neg hown] at hspan
      rw [ownRel_of_ne fun h => hown h.symm]
      exact parseIfd_same hlen hspan
  have hweak : ∀ {R : Entry d → Entry d' → Prop} {Q : Entry d → Entry d' → Prop}
      {P : List (Entry d) × UInt32 → List (Entry d') × UInt32 → Prop} {a b},
      Option.Rel (fun r r' => List.Forall₂ R r.1 r'.1 ∧ P r r') a b → R = Q →
      Option.Rel (fun r r' => List.Forall₂ Q r.1 r'.1) a b := by
    intro R Q P a b h hRQ
    subst hRQ
    cases h with
    | none => exact .none
    | some hr => exact .some hr.1
  refine ⟨fun off hoff => ?_, fun off hoff => hweak (hdir .exif off hoff) rfl,
    fun ifd off h0 h1 hoff => hweak (hdir ifd off hoff) (ownRel_of_ne fun h => ?_)⟩
  · have hnext : Agree d d' (nextSpan d x.order off) := by
      refine hsafe.agree hsplice (List.mem_append_left _ (List.mem_append_right _ ?_))
      rw [hoff, Option.elim_some]
      exact List.mem_singleton.mpr rfl
    have h := hdir .ifd0 off hoff
    cases hp : parseIfd d off x.order with
    | none =>
      rw [hp] at h
      generalize parseIfd d' off x.order = r at h ⊢
      cases h
      exact .none
    | some r =>
      rw [hp] at h
      generalize parseIfd d' off x.order = r' at h ⊢
      cases h with
      | some hr => exact .some ⟨hr.1, hr.2 hnext⟩
  · subst h
    rcases he.home with rfl | rfl
    · exact h0 rfl
    · exact h1 rfl

/-- The fields of entries that are the same, and of the directory of the patched one. -/
theorem fields_same {es : List (Entry d)} {es' : List (Entry d')}
    (h : List.Forall₂ SameEntry es es') : fields es' = fields es := by
  induction h with
  | nil => rfl
  | cons hr _ ih => exact congrArg₂ List.cons hr.field ih

theorem fields_swap {e₀ : Entry d} {bs : Bytes} {es : List (Entry d)} {es' : List (Entry d')}
    (h : List.Forall₂ (Swap e₀ (overwritten bs e₀.value.bytes)) es es') :
    fields es' = fieldsWith e₀ bs es := by
  induction h with
  | nil => rfl
  | @cons e e' es es' hr _ ih =>
    rw [fields, fieldsWith, List.map_cons, List.map_cons]
    refine congrArg₂ List.cons ?_ ih
    by_cases he : e = e₀
    · obtain ⟨hshape, hval⟩ := hr.swapped he
      subst he
      rw [if_pos rfl, ← hval]
      simp only [Entry.field, hshape.tag, hshape.kind, hshape.count]
    · rw [if_neg he]
      exact (hr.same he).field

theorem map_fields_same {a : Option (List (Entry d))} {b : Option (List (Entry d'))}
    (h : Option.Rel (List.Forall₂ SameEntry) a b) : b.map fields = a.map fields := by
  cases h with
  | none => rfl
  | some hr => exact congrArg some (fields_same hr)

theorem map_fields_swap {e₀ : Entry d} {bs : Bytes} {a : Option (List (Entry d))}
    {b : Option (List (Entry d'))}
    (h : Option.Rel (List.Forall₂ (Swap e₀ (overwritten bs e₀.value.bytes))) a b) :
    b.map fields = a.map (fieldsWith e₀ bs) := by
  cases h with
  | none => rfl
  | some hr => exact congrArg some (fields_swap hr)

/-- A safely patched blob has the tree of the old one with the new value in it. -/
theorem TreeRel.view_eq {x : Exif d} {y : Exif d'} {own : Ifd} {e₀ : Entry d} {bs : Bytes}
    (hown : own = .ifd0 ∨ own = .exif)
    (h : TreeRel (OwnRel own .ifd0 e₀ bs) (OwnRel own .exif e₀ bs) x y) :
    y.view = x.viewWith own e₀ bs := by
  have h0 := h.ifd0
  have h1 := h.exif
  rcases hown with rfl | rfl
  · rw [ownRel_self] at h0
    rw [ownRel_of_ne (by simp)] at h1
    simp only [view, viewWith, h.order, h.hadPrefix, fields_swap h0, map_fields_same h1,
      map_fields_same h.interop, map_fields_same h.gps, map_fields_same h.ifd1, h.thumbnail]
  · rw [ownRel_of_ne (by simp)] at h0
    rw [ownRel_self] at h1
    simp only [view, viewWith, h.order, h.hadPrefix, fields_same h0, map_fields_swap h1,
      map_fields_same h.interop, map_fields_same h.gps, map_fields_same h.ifd1, h.thumbnail]

/-! ### The value read back -/

/-- A SHORT or LONG value that was written over is read back. -/
theorem readUint_of_word {e : Entry src} {v : UInt16} {s : ℕ} (hs : intSize e.kind = some s)
    (h : HasAt e.value.bytes 0 (wordBytes order s v.toUInt32.toNat)) :
    readUint e order = some v.toUInt32 := by
  unfold intSize at hs
  unfold readUint
  split at hs
  · next hk =>
    obtain rfl := Option.some_inj.mp hs
    rw [UInt16.toNat_toUInt32] at h
    rw [if_pos hk, rd16_of_hasAt h, Option.map_some]
  · split at hs
    · next hn hk =>
      obtain rfl := Option.some_inj.mp hs
      rw [if_neg hn, if_pos hk]
      exact rd32_of_hasAt h
    · exact absurd hs (by simp)

/-- An entry with the value `v` written over it reads as `v` iff it has an element. -/
theorem readUint_overwritten (order : ByteOrder) {e : Entry d} {e' : Entry d'} {v : UInt16} {s : ℕ}
    (hs : intSize e.kind = some s) (hlen : e.value.bytes.length = e.count.toNat * s)
    (hkind : e'.kind = e.kind)
    (hval : e'.value.bytes =
      overwritten (wordBytes order s v.toUInt32.toNat) e.value.bytes) :
    readUint e' order = some v.toUInt32 ↔ 1 ≤ e.count.toNat := by
  have hs' : intSize e'.kind = some s := hkind ▸ hs
  have hbs : (wordBytes order s v.toUInt32.toNat).length = s := wordBytes_length _ _ _
  obtain ⟨-, hs1, -⟩ := intSize_eq_some hs
  constructor
  · intro hread
    by_contra hzero
    have hnil : e.value.bytes = [] := List.length_eq_zero_iff.mp (by
      rw [hlen, show e.count.toNat = 0 by omega, Nat.zero_mul])
    obtain ⟨t, ht, hle⟩ := readUint_eq_some hread
    obtain rfl : s = t := Option.some_inj.mp (hs'.symm.trans ht)
    rw [hval, hnil] at hle
    simp only [overwritten, List.length_nil, List.take_zero] at hle
    omega
  · intro hone
    refine readUint_of_word hs' ?_
    have hle : s ≤ e.value.bytes.length := by
      rw [hlen]
      exact Nat.le_mul_of_pos_left s hone
    rw [hval, hasAt_iff, overwritten]
    refine ⟨?_, ?_⟩
    · simp only [List.length_take, List.length_append, List.length_drop, hbs]
      omega
    · rw [List.drop_zero, List.take_take, Nat.min_eq_left (by rwa [hbs]), List.take_left]

/-! ### Both patches -/

/-- A patch of `e` keeps the length of the blob, and every byte but the four of the value
field, which lies in the row of `e`. -/
structure OnlyValue (data out : Bytes) (x : Exif (tiffOf data)) (e : Entry (tiffOf data)) :
    Prop where
  length : out.length = data.length
  row : ∃ r, e.valueOffset = r + 8 ∧ resolveEntry (tiffOf data) r x.order = some e
  frame : ∀ i, i < (if hasPrefix data then exifPrefix.length else 0) + e.valueOffset ∨
    (if hasPrefix data then exifPrefix.length else 0) + e.valueOffset + 4 ≤ i →
    out[i]? = data[i]?

/-- What a patch writes. -/
def patchBytes {tiff : Bytes} (x : Exif tiff) (e : Entry tiff) (v : UInt32) : Bytes :=
  wordBytes x.order ((intSize e.kind).getD 0) v.toNat

theorem patchBytes_eq {tiff : Bytes} {x : Exif tiff} {e : Entry tiff} {s : ℕ} (v : UInt32)
    (hs : intSize e.kind = some s) : x.patchBytes e v = wordBytes x.order s v.toNat := by
  rw [patchBytes, hs]
  rfl

/-- What a patch does to the bytes, and, when it is safe, to the tree. -/
theorem patch_spec {data out : Bytes} {x : Exif (tiffOf data)} {own : Ifd}
    {e : Entry (tiffOf data)} {v : UInt32} (hx : parse data = some x)
    (hhome : own = .ifd0 ∨ own = .exif) (hmem : e ∈ x.entriesOf own) (htag : e.tag ∉ pointerTags)
    (h : patchInlineInt data x e v = some out) :
    OnlyValue data out x e ∧ (∃ s, intSize e.kind = some s ∧
        e.value.bytes.length = e.count.toNat * s) ∧
      (x.PatchSafe own e (x.patchBytes e v) → ∃ y, parse out = some y ∧
        TreeRel (OwnRel own .ifd0 e (x.patchBytes e v)) (OwnRel own .exif e (x.patchBytes e v))
          x y) := by
  simp only [patchInlineInt, Option.bind_eq_bind, Option.bind_eq_some_iff] at h
  obtain ⟨s, hs, h⟩ := h
  split at h
  · exact absurd h (by simp)
  · next hin =>
    have hin : e.count.toNat * s ≤ 4 := not_lt.mp hin
    rw [patchBytes_eq v hs]
    obtain ⟨hs4, -, htype⟩ := intSize_eq_some hs
    have hpatch : Patchable x own e s := ⟨hhome, hmem, hs, hin, htag⟩
    obtain ⟨off, es, next, hat, hparse, hraw⟩ := mem_raw hx hhome hmem
    obtain ⟨hlow, hkey, -⟩ := row_of_mem hparse hraw htype hin
    have hbs : (wordBytes x.order s v.toNat).length = s := wordBytes_length _ _ _
    obtain ⟨off0, es0, next0, -, -, -, -, -, hpre, -⟩ := parseTiff_orientationEntry hx
    rw [hpre] at h
    obtain ⟨hframe, htiff⟩ := splice_tiffOf
      (by simp only [exifPrefix, List.length_cons, List.length_nil]; omega) h
    refine ⟨⟨length_splice h, ?_, fun i hi => getElem?_splice h (by omega)⟩, ⟨s, hs, ?_⟩,
      fun hsafe => ?_⟩
    · -- The entry was read from a row of its directory.
      simp only [parseIfd, Option.bind_eq_bind, Option.bind_eq_some_iff] at hparse
      obtain ⟨count, -, hparse⟩ := hparse
      split at hparse
      · exact absurd hparse (by simp)
      · obtain ⟨rfl, -⟩ := Prod.mk.inj (Option.some_inj.mp hparse)
        obtain ⟨j, -, hres⟩ := mem_readEntries hraw
        obtain ⟨s', -, -, -, hs', hoff, -⟩ := resolveEntry_inv hres
        obtain rfl : s = s' := Option.some_inj.mp (htype.symm.trans hs')
        rw [valueOffsetAt, if_pos hin] at hoff
        exact ⟨_, (Option.some_inj.mp hoff).symm, hres⟩
    · obtain ⟨hle, hbytes⟩ := bytes_of_key hkey
      rw [hbytes, List.length_take, List.length_drop]
      omega
    · unfold parse
      rw [hframe]
      refine parseTiff_agree (ptrSafe_ownRel htag) (ptrSafe_ownRel htag) hx (length_splice htiff)
        (hsafe.agree htiff List.mem_cons_self) (dirsRel_of_safe hx hpatch hsafe htiff)
        fun t ht => hsafe.agree htiff (List.mem_append_right _ ?_)
      rw [ht]
      exact List.mem_singleton.mpr rfl

/-- The entry of a tag in the patched tree. -/
theorem find?_swap {tag : UInt16} {e : Entry d} {bs : Bytes} {es : List (Entry d)}
    {es' : List (Entry d')} (htag : e.tag ∉ pointerTags)
    (h : List.Forall₂ (Swap e (overwritten bs e.value.bytes)) es es')
    (he : es.find? (fun e => e.tag = tag) = some e) :
    ∃ e', es'.find? (fun e => e.tag = tag) = some e' ∧ e'.kind = e.kind ∧
      e'.value.bytes = overwritten bs e.value.bytes := by
  have hrel := find?_rel (ptrSafe_swap htag) tag h
  rw [he] at hrel
  generalize es'.find? (fun e => e.tag = tag) = r at hrel ⊢
  cases hrel with
  | some hr =>
    obtain ⟨hshape, hval⟩ := hr.swapped rfl
    exact ⟨_, rfl, hshape.kind, hval⟩

/-- The integer the colour-space entry holds. -/
def colorSpace (x : Exif src) : Option UInt32 :=
  x.colorSpaceEntry.bind fun q => readUint q.2 x.order

theorem colorSpaceEntry_eq_some {x : Exif src} {own : Ifd} {e : Entry src}
    (h : x.colorSpaceEntry = some (own, e)) :
    (own = .exif ∧ (x.exifIfd.getD []).find? (fun e => e.tag = tagColorSpace) = some e) ∨
    (own = .ifd0 ∧ (x.exifIfd.getD []).find? (fun e => e.tag = tagColorSpace) = none ∧
      x.ifd0.find? (fun e => e.tag = tagColorSpace) = some e) := by
  unfold colorSpaceEntry at h
  cases hexif : (x.exifIfd.getD []).find? fun e => e.tag = tagColorSpace with
  | some e' =>
    rw [hexif, Option.map_some, Option.some_or] at h
    obtain ⟨rfl, rfl⟩ := Prod.mk.inj (Option.some_inj.mp h)
    exact .inl ⟨rfl, rfl⟩
  | none =>
    rw [hexif, Option.map_none, Option.none_or] at h
    obtain ⟨e', he', heq⟩ := Option.map_eq_some_iff.mp h
    obtain ⟨rfl, rfl⟩ := Prod.mk.inj heq
    exact .inr ⟨rfl, rfl, he'⟩

/-- The colour-space entry of a safely patched tree is the patched one. -/
theorem TreeRel.colorSpaceEntry {x : Exif d} {y : Exif d'} {own : Ifd} {e : Entry d}
    {bs : Bytes} (htag : e.tag ∉ pointerTags) (he : x.colorSpaceEntry = some (own, e))
    (h : TreeRel (OwnRel own .ifd0 e bs) (OwnRel own .exif e bs) x y) :
    ∃ e', y.colorSpaceEntry = some (own, e') ∧ e'.kind = e.kind ∧
      e'.value.bytes = overwritten bs e.value.bytes := by
  have h0 := h.ifd0
  have h1 := h.exif
  have hgetD : ∀ {R : Entry d → Entry d' → Prop}, Option.Rel (List.Forall₂ R) x.exifIfd y.exifIfd →
      List.Forall₂ R (x.exifIfd.getD []) (y.exifIfd.getD []) := by
    intro R hR
    generalize x.exifIfd = a, y.exifIfd = b at hR
    cases hR with
    | none => exact .nil
    | some hr => exact hr
  unfold Exif.colorSpaceEntry
  rcases colorSpaceEntry_eq_some he with ⟨rfl, hfind⟩ | ⟨rfl, hnone, hfind⟩
  · rw [ownRel_self] at h1
    obtain ⟨e', he', hkind, hval⟩ := find?_swap htag (hgetD h1) hfind
    exact ⟨e', by rw [he', Option.map_some, Option.some_or], hkind, hval⟩
  · rw [ownRel_self] at h0
    rw [ownRel_of_ne (by simp)] at h1
    obtain ⟨e', he', hkind, hval⟩ := find?_swap htag h0 hfind
    have hrel := find?_rel ptrSafe_sameEntry tagColorSpace (hgetD h1)
    rw [hnone] at hrel
    generalize (y.exifIfd.getD []).find? (fun e => e.tag = tagColorSpace) = r at hrel ⊢
    cases hrel
    exact ⟨e', by rw [he', Option.map_none, Option.none_or, Option.map_some], hkind, hval⟩

/-- The orientation read is that of the value, when it is an EXIF value. -/
theorem orientation_iff_readUint [ExactOrientation O] {x : Exif src} {o : O} {e : Entry src}
    (he : x.orientationEntry = some e) :
    x.orientation = some o ↔ readUint e x.order = some (Orientation.toExif o).toUInt32 := by
  constructor
  · intro h
    obtain ⟨e', he', hread⟩ := Option.bind_eq_some_iff.mp h
    obtain rfl : e = e' := Option.some_inj.mp (he.symm.trans he')
    obtain ⟨raw, hraw, hfrom⟩ := Option.bind_eq_some_iff.mp hread
    split at hfrom
    · next hlt =>
      rw [hraw, ExactOrientation.toExif_of_fromExif _ _ hfrom]
      refine congrArg some (UInt32.toNat_inj.mp ?_)
      rw [UInt8.toNat_toUInt32, UInt8.toNat_ofNat_of_lt' hlt]
    · exact absurd hfrom (by simp)
  · exact orientation_of_readUint he

theorem toUInt32_toUInt16 (v : UInt8) : v.toUInt16.toUInt32 = v.toUInt32 :=
  UInt32.toNat_inj.mp (by simp)

/-- A patched orientation is read back iff its entry has an element, whatever else is read
from the value field: the rows of IFD0 do not overlap one another. -/
theorem orientation_patched_iff [ExactOrientation O] {data out : Bytes}
    {x : Exif (tiffOf data)} {e : Entry (tiffOf data)} {o : O} (hx : parse data = some x)
    (he : x.orientationEntry = some e)
    (h : patchInlineInt data x e (Orientation.discriminant o).toUInt32 = some out) :
    (∃ y, parse out = some y ∧ y.orientation = some o) ↔ 1 ≤ e.count.toNat := by
  obtain ⟨s, hs, hin, -, y, hy, horder, -, e', he', hshape⟩ := parse_patchInlineInt hx he h
  obtain ⟨s', hs', hkey⟩ := orientationEntry_key hx he
  obtain ⟨-, -, htype⟩ := intSize_eq_some hs
  obtain rfl : s = s' := Option.some_inj.mp (htype.symm.trans hs')
  -- The value read is the old one, written over.
  simp only [patchInlineInt, hs, Option.bind_eq_bind, Option.bind_some] at h
  rw [if_neg (by omega)] at h
  obtain ⟨off0, es, next, hparse, -, -, -, -, hpre, hentry⟩ := parseTiff_orientationEntry hx
  have hmem : e ∈ es := List.mem_of_find?_eq_some (hentry.symm.trans he)
  obtain ⟨hlow, -, -⟩ := row_of_mem hparse hmem htype hin
  rw [hpre] at h
  obtain ⟨-, htiff⟩ := splice_tiffOf
    (by simp only [exifPrefix, List.length_cons, List.length_nil]; omega) h
  obtain ⟨hle, hbytes⟩ := bytes_of_key hkey
  obtain ⟨-, hbytes'⟩ := bytes_of_key (hshape.key.trans hkey)
  rw [bytes_splice htiff hle, ← hbytes, LawfulOrientation.discriminant_eq,
    ← toUInt32_toUInt16] at hbytes'
  have hlen : e.value.bytes.length = e.count.toNat * s := by
    rw [hbytes, List.length_take, List.length_drop]
    omega
  rw [← readUint_overwritten x.order hs hlen hshape.kind hbytes', toUInt32_toUInt16,
    ← horder, ← orientation_iff_readUint he']
  constructor
  · rintro ⟨y', hy', ho⟩
    obtain rfl := Option.some_inj.mp (hy.symm.trans hy')
    exact ho
  · intro ho
    exact ⟨y, hy, ho⟩

/-- **The patches in place.**  Both change nothing but the value field of the entry they
patch.  The orientation is read back iff its entry has an element.  When no byte a patch
changes is read for anything else, the patched blob has the tree of the old one with the new
value in it and is read back, iff the entry has an element. -/
theorem inPlace_exact [ExactOrientation O] (data out : Bytes) :
    (∀ o : O, setExifOrientation data o = some out →
      ∃ x e, parse data = some x ∧ x.orientationEntry = some e ∧ OnlyValue data out x e ∧
        ((∃ y, parse out = some y ∧ y.orientation = some o) ↔ 1 ≤ e.count.toNat) ∧
        (x.PatchSafe .ifd0 e (x.patchBytes e (Orientation.toExif o).toUInt32) →
          ((∃ y, parse out = some y ∧ y.orientation = some o ∧
            y.view = x.viewWith .ifd0 e (x.patchBytes e (Orientation.toExif o).toUInt32)) ↔
            1 ≤ e.count.toNat))) ∧
    (∀ srgb, setExifColorSpace data srgb = some out →
      ∃ x own e, parse data = some x ∧ x.colorSpaceEntry = some (own, e) ∧
        OnlyValue data out x e ∧
        (x.PatchSafe own e (x.patchBytes e (if srgb then 1 else 0xFFFF)) →
          ((∃ y, parse out = some y ∧ y.colorSpace = some (if srgb then 1 else 0xFFFF) ∧
            y.view = x.viewWith own e (x.patchBytes e (if srgb then 1 else 0xFFFF))) ↔
            1 ≤ e.count.toNat))) := by
  constructor
  · intro o h
    obtain ⟨x, hx, h⟩ := Option.bind_eq_some_iff.mp h
    obtain ⟨e, he, h⟩ := Option.bind_eq_some_iff.mp h
    have htag : e.tag = tagOrientation := by simpa using List.find?_some he
    have hread := orientation_patched_iff hx he h
    rw [LawfulOrientation.discriminant_eq] at h
    obtain ⟨honly, -, htree⟩ := patch_spec hx
      (show Ifd.ifd0 = .ifd0 ∨ Ifd.ifd0 = .exif from .inl rfl) (List.mem_of_find?_eq_some he) (by rw [htag]; decide) h
    refine ⟨x, e, hx, he, honly, hread, fun hsafe => ?_⟩
    rw [← hread]
    obtain ⟨y, hy, hrel⟩ := htree hsafe
    constructor
    · rintro ⟨y', hy', ho, -⟩
      exact ⟨y', hy', ho⟩
    · rintro ⟨y', hy', ho⟩
      obtain rfl := Option.some_inj.mp (hy.symm.trans hy')
      exact ⟨y, hy, ho, hrel.view_eq (.inl rfl)⟩
  · intro srgb h
    obtain ⟨x, hx, h⟩ := Option.bind_eq_some_iff.mp h
    obtain ⟨⟨own, e⟩, he, h⟩ := Option.bind_eq_some_iff.mp h
    have hv : (if srgb then (1 : UInt16) else 0xFFFF).toUInt32 =
        if srgb then (1 : UInt32) else 0xFFFF := by
      cases srgb <;> rfl
    have hfound : e.tag = tagColorSpace ∧ (own = .ifd0 ∨ own = .exif) ∧ e ∈ x.entriesOf own := by
      rcases colorSpaceEntry_eq_some he with ⟨rfl, hf⟩ | ⟨rfl, -, hf⟩
      · exact ⟨by simpa using List.find?_some hf, .inr rfl, List.mem_of_find?_eq_some hf⟩
      · exact ⟨by simpa using List.find?_some hf, .inl rfl, List.mem_of_find?_eq_some hf⟩
    obtain ⟨htag, hhome, hmem⟩ := hfound
    have hptr : e.tag ∉ pointerTags := by rw [htag]; decide
    obtain ⟨honly, ⟨s, hs, hlen⟩, htree⟩ := patch_spec hx hhome hmem hptr h
    refine ⟨x, own, e, hx, he, honly, fun hsafe => ?_⟩
    rw [← hv] at hsafe ⊢
    obtain ⟨y, hy, hrel⟩ := htree hsafe
    obtain ⟨e', he', hkind, hval⟩ := hrel.colorSpaceEntry hptr he
    rw [patchBytes_eq _ hs] at hval
    rw [← readUint_overwritten x.order hs hlen hkind hval, ← hrel.order]
    have hcolor : y.colorSpace = readUint e' y.order := by
      rw [colorSpace, he', Option.bind_some]
    constructor
    · rintro ⟨y', hy', hc, -⟩
      obtain rfl := Option.some_inj.mp (hy.symm.trans hy')
      rw [← hcolor, hc]
    · intro hr
      exact ⟨y, hy, hcolor.trans hr, hrel.view_eq hhome⟩

/-- A blob whose orientation entry has no element. -/
def emptyOrientBlob : Bytes :=
  [0x49, 0x49, 42, 0, 8, 0, 0, 0, 1, 0, 0x12, 0x01, 3, 0, 0, 0, 0, 0, 6, 0, 0, 0, 0, 0, 0, 0]

/-- A blob whose copyright is stored in the value field of its orientation. -/
def overlapBlob : Bytes :=
  [0x49, 0x49, 42, 0, 8, 0, 0, 0, 2, 0, 0x12, 0x01, 3, 0, 1, 0, 0, 0, 6, 0, 0, 0,
    0x98, 0x82, 2, 0, 5, 0, 0, 0, 18, 0, 0, 0, 0, 0, 0, 0]

/-- The orientation patch applies to an entry with no element, and is not read back; and it
applies where another entry has its value in the same bytes, and changes that one too. -/
theorem inPlace_not_exact :
    (setExifOrientation emptyOrientBlob Turn.rotate180 = some (emptyOrientBlob.set 18 3) ∧
      (parse (emptyOrientBlob.set 18 3)).bind (fun y => (y.orientation : Option Turn)) = none) ∧
    setExifOrientation overlapBlob Turn.rotate180 = some (overlapBlob.set 18 3) ∧
      (parse (overlapBlob.set 18 3)).map (fun y => y.view.ifd0[1]?) ≠
        (parse overlapBlob).map fun x => x.view.ifd0[1]? := by
  refine ⟨⟨?_, ?_⟩, ?_, ?_⟩
  all_goals decide +kernel

theorem inPlace_exact_sample : ∃ (x : Exif (tiffOf orientBlob)) (e : Entry (tiffOf orientBlob))
    (y : Exif (tiffOf (orientBlob.set 18 3))), parse (orientBlob.set 18 3) = some y ∧
      y.orientation = some Turn.rotate180 ∧ y.view = x.viewWith .ifd0 e [3, 0] := by
  have hset : setExifOrientation orientBlob Turn.rotate180 = some (orientBlob.set 18 3) := by
    decide +kernel
  obtain ⟨x, e, hx, he, -, -, htree⟩ :=
    (inPlace_exact orientBlob (orientBlob.set 18 3)).1 _ hset
  -- The orientation has one element, and nothing else is read from its value field.
  have hall : (parse orientBlob).bind (fun x => x.orientationEntry.map fun e =>
      decide (1 ≤ e.count.toNat ∧ x.patchBytes e 3 = [3, 0] ∧
        x.PatchSafe .ifd0 e (x.patchBytes e 3))) = some true := by decide +kernel
  rw [hx, Option.bind_some, he, Option.map_some, Option.some_inj, decide_eq_true_eq] at hall
  obtain ⟨hcount, hbytes, hsafe⟩ := hall
  obtain ⟨y, hy, ho, hview⟩ := (htree hsafe).mpr hcount
  exact ⟨x, e, y, hy, ho, hbytes ▸ hview⟩

end Zencodec.Exif
