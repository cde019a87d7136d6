/-
The bytes the parser reads.

`dirSpans` lists the spans one directory is read from, `dirAt` says where the
directories of a file lie.  A parse depends on these spans only:

* `readEntries_agree` — rows whose spans agree in two files are read alike, and one
  row may have another inline value (`Swap`);
* `takePointer_rel`, `parseExifIfd_rel` — the tree edges hang on the tags and on the
  fields of the pointer tags;
* `parseTiff_agree` — so a file that agrees on the spans of another is parsed to the
  same tree, up to that one value.
-/
import Zencodec.Exif.Stale

open Slices

namespace Zencodec.Exif

variable {src d d' : Bytes} {order : ByteOrder}

/-- The two files agree on the span `s`, a start and a length. -/
def Agree (d d' : Bytes) (s : ℕ × ℕ) : Prop :=
  ∀ i, s.1 ≤ i → i < s.1 + s.2 → d'[i]? = d[i]?

/-! ### Reading words -/

theorem Agree.slice {a n : ℕ} (h : Agree d d' (a, n)) (hlen : d'.length = d.length) :
    slice d' a (a + n) = slice d a (a + n) := by
  unfold Slices.slice
  rw [hlen]
  congr 2
  refine List.ext_getElem? fun i => ?_
  rw [List.getElem?_take, List.getElem?_take]
  split
  · next hi =>
    rw [List.getElem?_drop, List.getElem?_drop]
    exact h (a + i) (Nat.le_add_right _ _) (by dsimp only; omega)
  · rfl

theorem Agree.sub {a n b m : ℕ} (h : Agree d d' (a, n)) (hb : a ≤ b) (hm : b + m ≤ a + n) :
    Agree d d' (b, m) := by
  intro i h1 h2
  dsimp only at h1 h2
  exact h i (by dsimp only; omega) (by dsimp only; omega)

theorem rd16_agree {a n o : ℕ} (h : Agree d d' (a, n)) (hlen : d'.length = d.length)
    (ho : a ≤ o) (hn : o + 2 ≤ a + n) : rd16 d' o order = rd16 d o order := by
  rw [rd16, rd16, (h.sub ho hn).slice hlen]

theorem rd32_agree {a n o : ℕ} (h : Agree d d' (a, n)) (hlen : d'.length = d.length)
    (ho : a ≤ o) (hn : o + 4 ≤ a + n) : rd32 d' o order = rd32 d o order := by
  rw [rd32, rd32, (h.sub ho hn).slice hlen]

/-- The bytes of a range on which the files agree. -/
theorem Agree.bytes_eq {s : Slice d} {s' : Slice d'} (h : Agree d d' (s.start, s.len))
    (hlen : d'.length = d.length) (hstart : s'.start = s.start) (hl : s'.len = s.len) :
    s'.bytes = s.bytes := by
  have hat := s.hasAt
  have hat' := s'.hasAt
  have heq := h.slice hlen
  rw [hat.slice (by rw [s.length_bytes]), ← hstart, ← hl,
    hat'.slice (by rw [s'.length_bytes])] at heq
  exact Option.some_inj.mp heq

/-! ### Rows -/

/-- The spans the row at `e` is read from: its head, and its value, inline or at the offset
it stores. -/
def rowSpans (tiff : Bytes) (order : ByteOrder) (e : ℕ) : List (ℕ × ℕ) :=
  (e, 8) :: match (rd16 tiff (e + 2) order).bind typeSize, rd32 tiff (e + 4) order with
    | some s, some cnt =>
      if cnt.toNat * s ≤ 4 then [(e + 8, cnt.toNat * s)]
      else (e + 8, 4) :: ((rd32 tiff (e + 8) order).bind fun o =>
        (Slice.get tiff o.toNat (cnt.toNat * s)).map fun v => (v.start, v.len)).toList
    | _, _ => []

/-- Two entries with the same content and value offset. -/
structure SameEntry (e : Entry d) (e' : Entry d') : Prop where
  field : e'.field = e.field
  valueOffset : e'.valueOffset = e.valueOffset

theorem resolveEntry_agree (order : ByteOrder) (e : ℕ) (hlen : d'.length = d.length)
    (h : ∀ s ∈ rowSpans d order e, Agree d d' s) :
    Option.Rel SameEntry (resolveEntry d e order) (resolveEntry d' e order) := by
  have hhead : Agree d d' (e, 8) := h _ List.mem_cons_self
  have htag : rd16 d' e order = rd16 d e order := rd16_agree hhead hlen (by omega) (by omega)
  have hkind : rd16 d' (e + 2) order = rd16 d (e + 2) order :=
    rd16_agree hhead hlen (by omega) (by omega)
  have hcnt : rd32 d' (e + 4) order = rd32 d (e + 4) order :=
    rd32_agree hhead hlen (by omega) (by omega)
  simp only [resolveEntry, htag, hkind, hcnt, Option.bind_eq_bind]
  cases rd16 d e order with
  | none => exact .none
  | some tag =>
  cases hk : rd16 d (e + 2) order with
  | none => exact .none
  | some kind =>
  cases hc : rd32 d (e + 4) order with
  | none => exact .none
  | some cnt =>
  simp only [Option.bind_some]
  cases hs : typeSize kind with
  | none => exact .none
  | some s =>
    simp only [rowSpans, hk, hc, Option.bind_some, hs] at h
    simp only [Option.bind_some]
    -- The value is read at one place, from bytes that agree.
    have hvalue : ∀ o, (∀ v : Slice d, v.start = o → v.len = cnt.toNat * s →
        Agree d d' (v.start, v.len)) →
        Option.Rel SameEntry
          ((Slice.get d o (cnt.toNat * s)).bind fun v =>
            some (⟨tag, kind, cnt, .borrowed v, o⟩ : Entry d))
          ((Slice.get d' o (cnt.toNat * s)).bind fun v =>
            some (⟨tag, kind, cnt, .borrowed v, o⟩ : Entry d')) := by
      intro o hag
      simp only [Slice.get, hlen]
      split
      · next hin =>
        refine .some ⟨?_, rfl⟩
        have hb : (⟨o, cnt.toNat * s, by omega⟩ : Slice d').bytes =
            (⟨o, cnt.toNat * s, hin⟩ : Slice d).bytes :=
          (hag ⟨o, cnt.toNat * s, hin⟩ rfl rfl).bytes_eq hlen rfl rfl
        simp only [Entry.field, Cow.bytes, hb]
      · exact .none
    by_cases h4 : cnt.toNat * s ≤ 4
    · rw [if_pos h4] at h
      have hval : Agree d d' (e + 8, cnt.toNat * s) :=
        h _ (List.mem_cons_of_mem _ (List.mem_singleton.mpr rfl))
      simp only [valueOffsetAt, if_pos h4, Option.bind_some]
      exact hvalue _ fun v hv hl => by rw [hv, hl]; exact hval
    · rw [if_neg h4] at h
      have hoff : Agree d d' (e + 8, 4) := h _ (List.mem_cons_of_mem _ List.mem_cons_self)
      simp only [valueOffsetAt, if_neg h4, rd32_agree hoff hlen le_rfl le_rfl]
      cases ho : rd32 d (e + 8) order with
      | none => exact .none
      | some o =>
        simp only [Option.map_some, Option.bind_some]
        refine hvalue _ fun v hv hl => h _ ?_
        have hget : Slice.get d o.toNat (cnt.toNat * s) = some v :=
          Slice.get_eq_some.mpr ⟨hv, hl⟩
        simp [ho, hget]

/-! ### Tables -/

/-- The spans of the rows of a table, but for the value field at `field`. -/
def tableSpans (tiff : Bytes) (order : ByteOrder) (field : Option ℕ) : ℕ → ℕ → List (ℕ × ℕ)
  | 0, _ => []
  | n + 1, e =>
    if tiff.length < e + 12 then []
    else (if field = some (e + 8) then [(e, 8)] else rowSpans tiff order e)
      ++ tableSpans tiff order field n (e + 12)

/-- `e₀` stands in the second file with the value `new`, every other entry as it is. -/
structure Swap (e₀ : Entry d) (new : Bytes) (e : Entry d) (e' : Entry d') : Prop where
  same : e ≠ e₀ → SameEntry e e'
  swapped : e = e₀ → SameShape e e' ∧ e'.value.bytes = new

theorem SameEntry.swap {e₀ : Entry d} {new : Bytes} {e : Entry d} {e' : Entry d'}
    (h : SameEntry e e') (hne : e ≠ e₀) : Swap e₀ new e e' :=
  ⟨fun _ => h, fun heq => absurd heq hne⟩

/-- A row whose value field is not `e₀`'s is not read as `e₀`. -/
theorem ne_of_inline {e : ℕ} {x e₀ : Entry d} (h : resolveEntry d e order = some x) {s : ℕ}
    (hs : typeSize e₀.kind = some s) (hin : e₀.count.toNat * s ≤ 4)
    (hne : e₀.valueOffset ≠ e + 8) : x ≠ e₀ := by
  rintro rfl
  obtain ⟨s', -, -, -, hs', hoff, -⟩ := resolveEntry_inv h
  obtain rfl : s = s' := Option.some_inj.mp (hs.symm.trans hs')
  rw [valueOffsetAt, if_pos hin] at hoff
  exact hne (Option.some_inj.mp hoff).symm

theorem readEntries_agree {e₀ : Entry d} {new : Bytes} {s : ℕ} (hlen : d'.length = d.length)
    (hs : typeSize e₀.kind = some s) (hin : e₀.count.toNat * s ≤ 4)
    (hswap : ∀ e, e₀.valueOffset = e + 8 → resolveEntry d e order = some e₀ →
      Agree d d' (e, 8) → ∃ e', resolveEntry d' e order = some e' ∧ Swap e₀ new e₀ e')
    {n e : ℕ} (hown : ∀ j < n, e₀.valueOffset = e + 12 * j + 8 →
      resolveEntry d (e + 12 * j) order = some e₀)
    (h : ∀ t ∈ tableSpans d order (some e₀.valueOffset) n e, Agree d d' t) :
    List.Forall₂ (Swap e₀ new) (readEntries d order n e) (readEntries d' order n e) := by
  induction n generalizing e with
  | zero => exact .nil
  | succ n ih =>
    rw [readEntries, readEntries, hlen]
    rw [tableSpans] at h
    split
    · exact .nil
    · next hend =>
      rw [if_neg hend] at h
      have hrest := ih (e := e + 12)
        (fun j hj heq => by
          have := hown (j + 1) (by omega) (by omega)
          rwa [Nat.mul_add, Nat.add_comm (12 * j), ← Nat.add_assoc] at this)
        (fun t ht => h t (List.mem_append_right _ ht))
      by_cases hrow : e₀.valueOffset = e + 8
      · -- The row of `e₀`: only its head has to agree.
        have hres := hown 0 (by omega) (by omega)
        rw [Nat.mul_zero, Nat.add_zero] at hres
        have hhead : Agree d d' (e, 8) :=
          h _ (List.mem_append_left _ (by rw [if_pos (congrArg some hrow)]; exact
            List.mem_cons_self))
        obtain ⟨e', hres', hsw⟩ := hswap e hrow hres hhead
        rw [hres, hres']
        exact .cons hsw hrest
      · have hag := resolveEntry_agree order e hlen fun t ht =>
          h t (List.mem_append_left _ (by
            rw [if_neg fun heq => hrow (Option.some_inj.mp heq)]
            exact ht))
        cases hres : resolveEntry d e order with
        | none =>
          rw [hres] at hag
          generalize resolveEntry d' e order = r at hag ⊢
          cases hag
          exact hrest
        | some x =>
          have hne := ne_of_inline hres hs hin hrow
          rw [hres] at hag
          generalize resolveEntry d' e order = r at hag ⊢
          cases hag with
          | some hsame => exact .cons (hsame.swap hne) hrest

theorem readEntries_same (hlen : d'.length = d.length) {n e : ℕ}
    (h : ∀ t ∈ tableSpans d order none n e, Agree d d' t) :
    List.Forall₂ SameEntry (readEntries d order n e) (readEntries d' order n e) := by
  induction n generalizing e with
  | zero => exact .nil
  | succ n ih =>
    rw [readEntries, readEntries, hlen]
    rw [tableSpans] at h
    split
    · exact .nil
    · next hend =>
      rw [if_neg hend] at h
      have hrest := ih (e := e + 12) fun t ht => h t (List.mem_append_right _ ht)
      have hag := resolveEntry_agree order e hlen fun t ht =>
        h t (List.mem_append_left _ (by rw [if_neg (by simp)]; exact ht))
      generalize resolveEntry d e order = a, resolveEntry d' e order = b at hag ⊢
      cases hag with
      | none => exact hrest
      | some hsame => exact .cons hsame hrest

/-- The spans a directory is read from, but for the value field at `field`. -/
def dirSpans (tiff : Bytes) (order : ByteOrder) (field : Option ℕ) (off : ℕ) : List (ℕ × ℕ) :=
  (off, 2) :: match rd16 tiff off order with
    | some count =>
      if maxIfdEntries < count.toNat then []
      else tableSpans tiff order field count.toNat (off + 2)
    | none => []

/-- The span of the next-IFD offset of the directory at `off`. -/
def nextSpan (tiff : Bytes) (order : ByteOrder) (off : ℕ) : ℕ × ℕ :=
  (off + 2 + ((rd16 tiff off order).elim 0 UInt16.toNat) * 12, 4)

/-- Reading a directory: the rows decide the entries. -/
theorem parseIfd_agree {R : Entry d → Entry d' → Prop} {field : Option ℕ} {off : ℕ}
    (hlen : d'.length = d.length)
    (hrows : ∀ n : UInt16, rd16 d off order = some n →
      (∀ t ∈ tableSpans d order field n.toNat (off + 2), Agree d d' t) →
      List.Forall₂ R (readEntries d order n.toNat (off + 2))
        (readEntries d' order n.toNat (off + 2)))
    (h : ∀ t ∈ dirSpans d order field off, Agree d d' t) :
    Option.Rel (fun r r' => List.Forall₂ R r.1 r'.1 ∧
      (Agree d d' (nextSpan d order off) → r'.2 = r.2))
      (parseIfd d off order) (parseIfd d' off order) := by
  have hcount : rd16 d' off order = rd16 d off order :=
    rd16_agree (h _ List.mem_cons_self) hlen le_rfl le_rfl
  simp only [parseIfd, hcount, Option.bind_eq_bind]
  cases hn : rd16 d off order with
  | none => exact .none
  | some n =>
    simp only [Option.bind_some]
    split
    · exact .none
    · next hcap =>
      refine .some ⟨hrows n hn fun t ht => h t (List.mem_cons_of_mem _ ?_), fun hnext => ?_⟩
      · rw [hn]
        simpa only [if_neg hcap] using ht
      · unfold nextSpan at hnext
        rw [hn, Option.elim_some] at hnext
        rw [rd32_agree hnext hlen le_rfl le_rfl]

theorem parseIfd_same {off : ℕ} (hlen : d'.length = d.length)
    (h : ∀ t ∈ dirSpans d order none off, Agree d d' t) :
    Option.Rel (fun r r' => List.Forall₂ SameEntry r.1 r'.1 ∧
      (Agree d d' (nextSpan d order off) → r'.2 = r.2))
      (parseIfd d off order) (parseIfd d' off order) :=
  parseIfd_agree hlen (fun _ _ ht => readEntries_same hlen ht) h

/-! ### The edges of the tree -/

/-- The tags the parser follows. -/
def pointerTags : List UInt16 :=
  [tagExifIfd, tagGpsIfd, tagInteropIfd, tagThumbOffset, tagThumbLength]

/-- Related entries have one tag, and one content where the tag is a pointer. -/
def PtrSafe (R : Entry d → Entry d' → Prop) : Prop :=
  ∀ e e', R e e' → e'.tag = e.tag ∧ (e.tag ∈ pointerTags → e'.field = e.field)

theorem ptrSafe_sameEntry : PtrSafe (SameEntry : Entry d → Entry d' → Prop) :=
  fun _ _ h => ⟨congrArg Field.tag h.field, fun _ => h.field⟩

theorem ptrSafe_swap {e₀ : Entry d} {new : Bytes} (h : e₀.tag ∉ pointerTags) :
    PtrSafe (Swap e₀ new : Entry d → Entry d' → Prop) := by
  intro e e' hs
  by_cases he : e = e₀
  · obtain ⟨hshape, -⟩ := hs.swapped he
    exact ⟨hshape.tag, fun ht => absurd (he ▸ ht) h⟩
  · exact ptrSafe_sameEntry _ _ (hs.same he)

section Related

variable {R : Entry d → Entry d' → Prop} {es : List (Entry d)} {es' : List (Entry d')}

theorem find?_rel (hR : PtrSafe R) (tag : UInt16) (h : List.Forall₂ R es es') :
    Option.Rel R (es.find? fun e => e.tag = tag) (es'.find? fun e => e.tag = tag) := by
  induction h with
  | nil => exact .none
  | @cons e e' es es' hr _ ih =>
    have htag := (hR _ _ hr).1
    by_cases he : e.tag = tag
    · rw [List.find?_cons_of_pos (by simpa using he),
        List.find?_cons_of_pos (by simpa [htag] using he)]
      exact .some hr
    · rw [List.find?_cons_of_neg (by simpa using he),
        List.find?_cons_of_neg (by simpa [htag] using he)]
      exact ih

theorem filter_rel (hR : PtrSafe R) (p : UInt16 → Bool) (h : List.Forall₂ R es es') :
    List.Forall₂ R (es.filter fun e => p e.tag) (es'.filter fun e => p e.tag) := by
  induction h with
  | nil => exact .nil
  | @cons e e' es es' hr _ ih =>
    have htag := (hR _ _ hr).1
    by_cases he : p e.tag = true
    · rw [List.filter_cons_of_pos (p := fun e : Entry d => p e.tag) he,
        List.filter_cons_of_pos (p := fun e : Entry d' => p e.tag) (by rwa [htag])]
      exact .cons hr ih
    · rw [List.filter_cons_of_neg (p := fun e : Entry d => p e.tag) he,
        List.filter_cons_of_neg (p := fun e : Entry d' => p e.tag) (by rwa [htag])]
      exact ih

theorem eraseP_rel (hR : PtrSafe R) (tag : UInt16) (h : List.Forall₂ R es es') :
    List.Forall₂ R (es.eraseP fun e => e.tag = tag) (es'.eraseP fun e => e.tag = tag) := by
  induction h with
  | nil => exact .nil
  | @cons e e' es es' hr hrest ih =>
    have htag := (hR _ _ hr).1
    by_cases he : e.tag = tag
    · rw [List.eraseP_cons_of_pos (by simpa using he),
        List.eraseP_cons_of_pos (by simpa [htag] using he)]
      exact hrest
    · rw [List.eraseP_cons_of_neg (by simpa using he),
        List.eraseP_cons_of_neg (by simpa [htag] using he)]
      exact .cons hr ih

theorem takePointer_rel (hR : PtrSafe R) {tag : UInt16} (ht : tag ∈ pointerTags)
    (order : ByteOrder) (h : List.Forall₂ R es es') :
    (takePointer es' tag order).1 = (takePointer es tag order).1 ∧
      List.Forall₂ R (takePointer es tag order).2 (takePointer es' tag order).2 := by
  have hfind := find?_rel hR tag h
  have hslice : (es'.find? fun e => e.tag = tag).bind (fun e => slice e.value.bytes 0 4) =
      (es.find? fun e => e.tag = tag).bind fun e => slice e.value.bytes 0 4 := by
    cases he : es.find? fun e => e.tag = tag with
    | none =>
      rw [he] at hfind
      generalize es'.find? (fun e => e.tag = tag) = r at hfind ⊢
      cases hfind
      rfl
    | some e =>
      have htag : e.tag = tag := by simpa using List.find?_some he
      rw [he] at hfind
      generalize es'.find? (fun e => e.tag = tag) = r at hfind ⊢
      cases hfind with
      | some hr =>
        -- A pointer has the same content in both files.
        have hval := congrArg Field.value ((hR _ _ hr).2 (htag ▸ ht))
        simp only [Entry.field] at hval
        rw [Option.bind_some, Option.bind_some, hval]
  unfold takePointer
  rw [hslice]
  cases (es.find? fun e => e.tag = tag).bind fun e => slice e.value.bytes 0 4 with
  | none => exact ⟨rfl, h⟩
  | some b => exact ⟨rfl, eraseP_rel hR tag h⟩

theorem sweep_rel (hR : PtrSafe R) (taken : Option ℕ) (tag : UInt16)
    (h : List.Forall₂ R es es') : List.Forall₂ R (sweep taken tag es) (sweep taken tag es') := by
  unfold sweep
  split
  · exact filter_rel hR (fun t => t ≠ tag) h
  · exact h

theorem find?_readUint_rel (order : ByteOrder) (hR : PtrSafe R) {tag : UInt16} (ht : tag ∈ pointerTags)
    (h : List.Forall₂ R es es') :
    (es'.find? fun e => e.tag = tag).bind (readUint · order) =
      (es.find? fun e => e.tag = tag).bind (readUint · order) := by
  have hfind := find?_rel hR tag h
  cases he : es.find? fun e => e.tag = tag with
  | none =>
    rw [he] at hfind
    generalize es'.find? (fun e => e.tag = tag) = r at hfind ⊢
    cases hfind
    rfl
  | some e =>
    have htag : e.tag = tag := by simpa using List.find?_some he
    rw [he] at hfind
    generalize es'.find? (fun e => e.tag = tag) = r at hfind ⊢
    cases hfind with
    | some hr =>
      have hfield := (hR _ _ hr).2 (htag ▸ ht)
      have hkind := congrArg Field.kind hfield
      have hval := congrArg Field.value hfield
      simp only [Entry.field] at hkind hval
      simp only [Option.bind_some, readUint, hkind, hval]

end Related

/-! ### The whole file -/

/-- Where the directories of a file lie. -/
def dirAt (tiff : Bytes) (order : ByteOrder) : Ifd → Option ℕ
  | .ifd0 => (rd32 tiff 4 order).map UInt32.toNat
  | .exif => (rawIfd0 tiff order).bind fun r => (takePointer r.1 tagExifIfd order).1
  | .interop => (rawDir tiff order .exif).bind fun es => (takePointer es tagInteropIfd order).1
  | .gps => (rawIfd0 tiff order).bind fun r => (takePointer r.1 tagGpsIfd order).1
  | .ifd1 => (rawIfd0 tiff order).bind fun r => if r.2 = 0 then none else some r.2.toNat

/-- The trees have related entries in IFD0 and in the Exif IFD, and the same content
elsewhere. -/
structure TreeRel (R₀ Rₑ : Entry d → Entry d' → Prop) (x : Exif d) (y : Exif d') : Prop where
  order : y.order = x.order
  hadPrefix : y.hadPrefix = x.hadPrefix
  ifd0 : List.Forall₂ R₀ x.ifd0 y.ifd0
  exif : Option.Rel (List.Forall₂ Rₑ) x.exifIfd y.exifIfd
  interop : Option.Rel (List.Forall₂ SameEntry) x.interopIfd y.interopIfd
  gps : Option.Rel (List.Forall₂ SameEntry) x.gpsIfd y.gpsIfd
  ifd1 : Option.Rel (List.Forall₂ SameEntry) x.ifd1 y.ifd1
  thumbnail : y.thumbnail.map Slice.bytes = x.thumbnail.map Slice.bytes

/-- The directories of two files at their places, read with related entries. -/
structure DirsRel (order : ByteOrder) (R₀ Rₑ : Entry d → Entry d' → Prop) : Prop where
  ifd0 : ∀ off, dirAt d order .ifd0 = some off →
    Option.Rel (fun r r' => List.Forall₂ R₀ r.1 r'.1 ∧ r'.2 = r.2)
      (parseIfd d off order) (parseIfd d' off order)
  exif : ∀ off, dirAt d order .exif = some off →
    Option.Rel (fun r r' => List.Forall₂ Rₑ r.1 r'.1)
      (parseIfd d off order) (parseIfd d' off order)
  others : ∀ ifd off, ifd ≠ .ifd0 → ifd ≠ .exif → dirAt d order ifd = some off →
    Option.Rel (fun r r' => List.Forall₂ SameEntry r.1 r'.1)
      (parseIfd d off order) (parseIfd d' off order)

theorem map_fst_rel {R : Entry d → Entry d' → Prop}
    {a : Option (List (Entry d) × UInt32)} {b : Option (List (Entry d') × UInt32)}
    (h : Option.Rel (fun r r' => List.Forall₂ R r.1 r'.1) a b) :
    Option.Rel (List.Forall₂ R) (a.map Prod.fst) (b.map Prod.fst) := by
  cases h with
  | none => exact .none
  | some hr => exact .some hr

theorem parseExifIfd_rel {R : Entry d → Entry d' → Prop} (hR : PtrSafe R) {off : ℕ}
    (hdir : Option.Rel (fun r r' => List.Forall₂ R r.1 r'.1)
      (parseIfd d off order) (parseIfd d' off order))
    (hinterop : ∀ es o, (parseIfd d off order).map Prod.fst = some es →
      (takePointer es tagInteropIfd order).1 = some o →
      Option.Rel (fun r r' => List.Forall₂ SameEntry r.1 r'.1)
        (parseIfd d o order) (parseIfd d' o order)) :
    Option.Rel (fun r r' => List.Forall₂ R r.1 r'.1 ∧
      Option.Rel (List.Forall₂ SameEntry) r.2 r'.2)
      (parseExifIfd d order off) (parseExifIfd d' order off) := by
  unfold parseExifIfd
  cases hp : parseIfd d off order with
  | none =>
    rw [hp] at hdir
    generalize parseIfd d' off order = r' at hdir ⊢
    cases hdir
    exact .none
  | some r =>
    rw [hp] at hdir hinterop
    generalize parseIfd d' off order = r' at hdir ⊢
    cases hdir with
    | @some _ r' hr =>
      obtain ⟨htaken, hrest⟩ :=
        takePointer_rel hR (by decide : tagInteropIfd ∈ pointerTags) order hr
      refine .some ⟨?_, ?_⟩
      · dsimp only
        rw [htaken]
        exact sweep_rel hR _ _ hrest
      · dsimp only
        rw [htaken]
        cases ho : (takePointer r.1 tagInteropIfd order).1 with
        | none => exact .none
        | some o => exact map_fst_rel (hinterop r.1 o rfl ho)

theorem parseIfd1_rel (next : UInt32) {s : Option (Slice d)} (hlen : d'.length = d.length)
    (hdir : next ≠ 0 → Option.Rel (fun r r' => List.Forall₂ SameEntry r.1 r'.1)
      (parseIfd d next.toNat order) (parseIfd d' next.toNat order))
    (hs : (parseIfd1 d order next).2 = s) (hthumb : ∀ t, s = some t → Agree d d' (t.start, t.len)) :
    Option.Rel (List.Forall₂ SameEntry) (parseIfd1 d order next).1 (parseIfd1 d' order next).1 ∧
      (parseIfd1 d' order next).2.map Slice.bytes = s.map Slice.bytes := by
  unfold parseIfd1 at hs ⊢
  by_cases h0 : next = 0
  · rw [if_pos h0] at hs
    rw [if_pos h0, if_pos h0, ← hs]
    exact ⟨.none, rfl⟩
  · rw [if_neg h0] at hs
    rw [if_neg h0, if_neg h0]
    have hdir := hdir h0
    cases hp : parseIfd d next.toNat order with
    | none =>
      rw [hp] at hdir hs
      generalize parseIfd d' next.toNat order = r' at hdir ⊢
      cases hdir
      rw [← hs]
      exact ⟨.none, rfl⟩
    | some r =>
      obtain ⟨es, n⟩ := r
      rw [hp] at hdir hs
      generalize parseIfd d' next.toNat order = r' at hdir ⊢
      cases hdir with
      | @some _ r' hr =>
        obtain ⟨es', n'⟩ := r'
        have hoff := find?_readUint_rel order ptrSafe_sameEntry
          (by decide : tagThumbOffset ∈ pointerTags) hr
        have hl := find?_readUint_rel order ptrSafe_sameEntry
          (by decide : tagThumbLength ∈ pointerTags) hr
        dsimp only at hs hoff hl ⊢
        rw [hoff, hl]
        refine ⟨.some (filter_rel ptrSafe_sameEntry
          (fun t => t ≠ tagThumbOffset ∧ t ≠ tagThumbLength) hr), ?_⟩
        rw [← hs]
        -- Both files are asked for the same range.
        cases ho : (es.find? fun e => e.tag = tagThumbOffset).bind (readUint · order) with
        | none => rfl
        | some o =>
          cases htl : (es.find? fun e => e.tag = tagThumbLength).bind (readUint · order) with
          | none => rfl
          | some l =>
            rw [ho, htl, Option.bind_some, Option.bind_some] at hs
            simp only [Option.bind_some]
            unfold Slice.get at hs ⊢
            by_cases hin : o.toNat + l.toNat ≤ d.length
            · rw [dif_pos hin] at hs
              rw [dif_pos hin, dif_pos (by omega)]
              exact congrArg some ((hthumb _ hs.symm).bytes_eq hlen rfl rfl)
            · rw [dif_neg hin, dif_neg (by omega)]
              rfl

/-- **A parse depends on the spans it reads.** -/
theorem parseTiff_agree {R₀ Rₑ : Entry d → Entry d' → Prop} (h₀ : PtrSafe R₀) (hₑ : PtrSafe Rₑ)
    {p : Bool} {x : Exif d} (hx : parseTiff p d = some x) (hlen : d'.length = d.length)
    (hhead : Agree d d' (0, 8)) (hdirs : DirsRel x.order R₀ Rₑ)
    (hthumb : ∀ t, x.thumbnail = some t → Agree d d' (t.start, t.len)) :
    ∃ y, parseTiff p d' = some y ∧ TreeRel R₀ Rₑ x y := by
  have horder' : orderOf d' = orderOf d := by
    have htake : d'.take 2 = d.take 2 := by
      refine List.ext_getElem? fun i => ?_
      rw [List.getElem?_take, List.getElem?_take]
      split
      · exact hhead i (Nat.zero_le _) (by dsimp only; omega)
      · rfl
    rw [orderOf, orderOf, htake]
  unfold parseTiff at hx
  split at hx
  · exact absurd hx (by simp)
  · next hsize =>
    simp only [Option.bind_eq_bind, Option.bind_eq_some_iff] at hx
    obtain ⟨order, horder, magic, hmagic, hx⟩ := hx
    split at hx
    · exact absurd hx (by simp)
    · next hm =>
      simp only [Option.bind_eq_some_iff] at hx
      obtain ⟨off0, hoff0, ⟨es, next⟩, hparse, hx⟩ := hx
      obtain rfl := Option.some_inj.mp hx
      dsimp only at hdirs hthumb ⊢
      have hroot : dirAt d order .ifd0 = some off0.toNat := by
        rw [dirAt, hoff0, Option.map_some]
      have hraw : rawIfd0 d order = some (es, next) := by
        rw [rawIfd0, hoff0, Option.bind_some, hparse]
      have hrel0 := hdirs.ifd0 _ hroot
      rw [hparse] at hrel0
      cases hp' : parseIfd d' off0.toNat order with
      | none =>
        rw [hp'] at hrel0
        cases hrel0
      | some r' =>
        obtain ⟨es', next'⟩ := r'
        rw [hp'] at hrel0
        obtain ⟨hes, hnext⟩ : List.Forall₂ R₀ es es' ∧ next' = next := by
          cases hrel0 with
          | some h => exact h
        obtain ⟨hexifTaken, hexifRest⟩ :=
          takePointer_rel h₀ (by decide : tagExifIfd ∈ pointerTags) order hes
        obtain ⟨hgpsTaken, hgpsRest⟩ :=
          takePointer_rel h₀ (by decide : tagGpsIfd ∈ pointerTags) order hexifRest
        have hgpsAt : (takePointer (takePointer es tagExifIfd order).2 tagGpsIfd order).1 =
            (takePointer es tagGpsIfd order).1 := by
          have hothers := (takePointer_taken es tagExifIfd order).others tagGpsIfd (by decide)
          have hfind := congrArg List.head? hothers
          rw [List.head?_filter, List.head?_filter] at hfind
          unfold takePointer at hfind ⊢
          rw [hfind]
          cases (es.find? fun e => e.tag = tagGpsIfd).bind fun e => slice e.value.bytes 0 4 <;> rfl
        have hexif : Option.Rel (fun r r' => List.Forall₂ Rₑ r.1 r'.1 ∧
            Option.Rel (List.Forall₂ SameEntry) r.2 r'.2)
            ((takePointer es tagExifIfd order).1.bind (parseExifIfd d order))
            ((takePointer es tagExifIfd order).1.bind (parseExifIfd d' order)) := by
          cases ho : (takePointer es tagExifIfd order).1 with
          | none => exact .none
          | some o =>
            have hat : dirAt d order .exif = some o := by
              rw [dirAt, hraw, Option.bind_some, ho]
            refine parseExifIfd_rel hₑ (hdirs.exif o hat) fun fs oi hfs hoi => ?_
            refine hdirs.others .interop oi (by simp) (by simp) ?_
            have hdirE : rawDir d order .exif = some fs := by
              rw [rawDir, hraw, Option.bind_some, childDir, ho, Option.bind_some, hfs]
            rw [dirAt, hdirE, Option.bind_some, hoi]
        have hgps : Option.Rel (List.Forall₂ SameEntry)
            ((takePointer (takePointer es tagExifIfd order).2 tagGpsIfd order).1.bind fun o =>
              (parseIfd d o order).map Prod.fst)
            ((takePointer (takePointer es tagExifIfd order).2 tagGpsIfd order).1.bind fun o =>
              (parseIfd d' o order).map Prod.fst) := by
          rw [hgpsAt]
          cases ho : (takePointer es tagGpsIfd order).1 with
          | none => exact .none
          | some o =>
            exact map_fst_rel (hdirs.others .gps o (by simp) (by simp)
              (by rw [dirAt, hraw, Option.bind_some, ho]))
        obtain ⟨hifd1, hthumb'⟩ := parseIfd1_rel next hlen
          (fun hne => hdirs.others .ifd1 next.toNat (by simp) (by simp)
            (by rw [dirAt, hraw, Option.bind_some, if_neg hne])) rfl hthumb
        have hmap : ∀ {a : Option (List (Entry d) × Option (List (Entry d)))}
            {b : Option (List (Entry d') × Option (List (Entry d')))},
            Option.Rel (fun r r' => List.Forall₂ Rₑ r.1 r'.1 ∧
              Option.Rel (List.Forall₂ SameEntry) r.2 r'.2) a b →
            Option.Rel (List.Forall₂ Rₑ) (a.map Prod.fst) (b.map Prod.fst) ∧
              Option.Rel (List.Forall₂ SameEntry) (a.bind Prod.snd) (b.bind Prod.snd) := by
          intro a b hab
          cases hab with
          | none => exact ⟨.none, .none⟩
          | some h => exact ⟨.some h.1, h.2⟩
        obtain ⟨hexif1, hexif2⟩ := hmap hexif
        refine ⟨{ order := order, hadPrefix := p
                  ifd0 := sweep (takePointer (takePointer es tagExifIfd order).2 tagGpsIfd order).1
                    tagGpsIfd (sweep (takePointer es tagExifIfd order).1 tagExifIfd
                      (takePointer (takePointer es' tagExifIfd order).2 tagGpsIfd order).2)
                  exifIfd := ((takePointer es tagExifIfd order).1.bind
                    (parseExifIfd d' order)).map Prod.fst
                  gpsIfd := (takePointer (takePointer es tagExifIfd order).2 tagGpsIfd
                    order).1.bind fun o => (parseIfd d' o order).map Prod.fst
                  interopIfd := ((takePointer es tagExifIfd order).1.bind
                    (parseExifIfd d' order)).bind Prod.snd
                  ifd1 := (parseIfd1 d' order next).1
                  thumbnail := (parseIfd1 d' order next).2
                  textEncoding := .ascii }, ?_,
          ⟨rfl, rfl, sweep_rel h₀ _ _ (sweep_rel h₀ _ _ hgpsRest), hexif1, hexif2, hgps, hifd1,
            hthumb'⟩⟩
        have hmagic' : rd16 d' 2 order = some magic := by
          rw [← hmagic]
          exact rd16_agree hhead hlen (by omega) (by omega)
        have hoff' : rd32 d' 4 order = some off0 := by
          rw [← hoff0]
          exact rd32_agree hhead hlen (by omega) (by omega)
        rw [hnext] at hp'
        unfold parseTiff
        rw [if_neg (by rw [hlen]; exact hsize)]
        simp only [Option.bind_eq_bind, horder', horder, Option.bind_some, hmagic', if_neg hm,
          hoff', hp', hexifTaken, hgpsTaken]

end Zencodec.Exif
