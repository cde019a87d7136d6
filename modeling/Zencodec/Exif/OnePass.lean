/-
Retention in one pass and in two.

`retainReconciled` with a target orientation sets it on the parsed tree, or patches
the source, in the pass that retains.  The two-pass form retains first and patches
the bytes it got.

* `writeIfd_first` — exchanging the inline value of the first entry with a tag
  exchanges it in the written directory, in its own row;
* `Placed.orientationEntry` — the reader finds the orientation of a written file in
  that row, so `setExifOrientation_toBytes` patches a file into the file of the
  edited tree;
* `retain_onePass` — the two forms return the same bytes, but for a blob beyond the
  32-bit offsets, which the one-pass form returns as it is.
-/
import Zencodec.Exif.Reconcile

open Slices StableSort

namespace Zencodec.Exif

variable {src d : Bytes} {order : ByteOrder} {O : Type} [Orientation O]

/-- Rewrite the orientation of a blob in place. -/
def setExifOrientation (data : Bytes) (o : O) : Option Bytes :=
  (parse data).bind fun x => setOrientationWith data x o

/-- Retain, then reconcile what was retained where the patch applies. -/
def retainThenPatch [DecidableEq O] (data : Bytes) (policy : ExifPolicy) (o : O) :
    Option Bytes :=
  (retainReconciled data policy (none : Option O)).map fun r =>
    (setExifOrientation (r.bytes data) o).getD (r.bytes data)

/-- Only the EXIF values of the orientations are read as orientations. -/
class ExactOrientation (O : Type) [Orientation O] : Prop extends LawfulOrientation O where
  toExif_of_fromExif : ∀ (v : UInt8) (o : O), Orientation.fromExif v = some o →
    Orientation.toExif o = v

instance exactTurn : ExactOrientation Turn where
  toExif_of_fromExif v o h := by
    have hfind := List.find?_some h
    show Turn.toExif o = v
    simpa using hfind

/-! ### Exchanging an inline value -/

theorem writeItems_append (base : ℕ) (st : ExtState) (a b : List (Item src)) :
    writeItems order base st (a ++ b) =
      ((writeItems order base st a).1 ++
          (writeItems order base (writeItems order base st a).2 b).1,
        (writeItems order base (writeItems order base st a).2 b).2) := by
  induction a generalizing st with
  | nil => rfl
  | cons it its ih =>
    simp only [List.cons_append, writeItems, ih, List.append_assoc]

theorem readEntries_append (d : Bytes) (order : ByteOrder) (m n e : ℕ) :
    readEntries d order (m + n) e =
      readEntries d order m e ++ readEntries d order n (e + 12 * m) := by
  induction m generalizing e with
  | zero => simp [readEntries]
  | succ m ih =>
    rw [show m + 1 + n = m + n + 1 by omega, readEntries, readEntries]
    split
    · next hend =>
      -- A table that ends here has no rows further on either.
      cases n with
      | zero => rfl
      | succ n => rw [readEntries, if_pos (by omega)]; rfl
    · rw [ih, List.append_assoc]
      congr 3
      omega

/-- The first entry with a tag stands behind the rows of `A` and before those of `B`,
whatever its value. -/
structure FirstRow (tag : UInt16) (es : List (Entry src)) (ptrVals : List (UInt16 × UInt32))
    (f : Entry src → Entry src) (e : Entry src) (A B : List (Item src)) : Prop where
  tag_eq : e.tag = tag
  before : ∀ it ∈ A, it.tag ≠ tag
  rows : sortedItems es ptrVals = A ++ .real e :: B
  edited : sortedItems (editFirst tag f es) ptrVals = A ++ .real (f e) :: B

theorem editFirst_of_find? {tag : UInt16} {f : Entry src → Entry src} {es : List (Entry src)}
    {e : Entry src} (h : es.find? (fun e => e.tag = tag) = some e) :
    ∃ l₁ l₂, (∀ b ∈ l₁, b.tag ≠ tag) ∧ es = l₁ ++ e :: l₂ ∧
      editFirst tag f es = l₁ ++ f e :: l₂ := by
  induction es with
  | nil => exact absurd h (by simp)
  | cons a es ih =>
    by_cases ha : a.tag = tag
    · rw [List.find?_cons_of_pos (by simpa using ha)] at h
      obtain rfl := Option.some_inj.mp h
      exact ⟨[], es, by simp, rfl, by rw [editFirst, if_pos ha]; rfl⟩
    · rw [List.find?_cons_of_neg (by simpa using ha)] at h
      obtain ⟨l₁, l₂, hl₁, rfl, hedit⟩ := ih h
      refine ⟨a :: l₁, l₂, fun b hb => ?_, rfl, by rw [editFirst, if_neg ha, hedit]; rfl⟩
      rcases List.mem_cons.mp hb with rfl | hb
      · exact ha
      · exact hl₁ b hb

theorem exists_firstRow {tag : UInt16} {f : Entry src → Entry src} {es : List (Entry src)}
    {e : Entry src} (ptrVals : List (UInt16 × UInt32)) (hf : (f e).tag = e.tag)
    (h : es.find? (fun e => e.tag = tag) = some e) :
    ∃ A B, FirstRow tag es ptrVals f e A B := by
  have htag : e.tag = tag := by simpa using List.find?_some h
  obtain ⟨l₁, l₂, hl₁, hes, hedit⟩ := editFirst_of_find? (f := f) h
  have hkey : ∀ it : Item src, it.tag ≠ tag → it.key ≠ Item.key (.real e) := by
    intro it hit hk
    exact hit ((UInt16.toNat_inj.mp hk).trans htag)
  obtain ⟨A, B, hA, hsort⟩ := sortBy_first Item.key (l₁.map Item.real)
    (l₂.map Item.real ++ ptrVals.map fun q => .ptr q.1 q.2) (.real e)
    (fun it hit => by
      obtain ⟨b, hb, rfl⟩ := List.mem_map.mp hit
      exact hkey _ (hl₁ b hb))
  refine ⟨A, B, htag, fun it hit heq => hA it hit ?_, ?_, ?_⟩
  · rw [Item.key, heq, ← htag]
    rfl
  · rw [← hsort (.real e) rfl, sortedItems_eq, hes]
    simp
  · rw [← hsort (.real (f e)) (congrArg UInt16.toNat hf), sortedItems_eq, hedit]
    simp

/-- The value field of the row behind `n` others, in a table at 0. -/
def valueField (n : ℕ) : ℕ := 2 + 12 * n + 8

/-- Exchanging the inline value of the first entry with a tag exchanges its bytes in the
written directory. -/
theorem writeIfd_first (order : ByteOrder) {tag : UInt16} {es : List (Entry src)}
    {ptrVals : List (UInt16 × UInt32)} {f : Entry src → Entry src} {e : Entry src}
    {A B : List (Item src)} (h : FirstRow tag es ptrVals f e A B)
    (hf : (f e).tag = e.tag ∧ (f e).kind = e.kind ∧ (f e).count = e.count)
    (hlen : (f e).value.bytes.length = e.value.bytes.length) (h4 : e.value.bytes.length ≤ 4)
    (base : ℕ) (next : UInt32) :
    ∃ L R, L.length = valueField A.length ∧
      writeIfd order es ptrVals base next = L ++ e.value.bytes ++ R ∧
      writeIfd order (editFirst tag f es) ptrVals base next = L ++ (f e).value.bytes ++ R := by
  obtain ⟨rows, st, hA⟩ : ∃ rows st, writeItems order base ⟨[], []⟩ A = (rows, st) :=
    ⟨_, _, rfl⟩
  obtain ⟨rest, stn, hB⟩ : ∃ rest stn, writeItems order base st B = (rest, stn) := ⟨_, _, rfl⟩
  obtain ⟨-, -, hrows⟩ := writeItems_ok (ExtState.ok_nil src) hA
  obtain ⟨htag, hkind, hcount⟩ := hf
  have hone : ∀ x : Entry src, x.value.bytes.length ≤ 4 →
      writeItems order base ⟨[], []⟩ (A ++ .real x :: B) =
        (rows ++ (rowHead order x.tag x.kind x.count ++
          (x.value.bytes ++ List.replicate (4 - x.value.bytes.length) 0) ++ rest), stn) := by
    intro x hx
    rw [writeItems_append, hA]
    simp only [writeItems, writeItem_inline hx, hB]
  refine ⟨put16 order (UInt16.ofNat (A ++ .real e :: B).length) ++ rows ++
      rowHead order e.tag e.kind e.count,
    List.replicate (4 - e.value.bytes.length) 0 ++ rest ++ put32 order next ++ stn.ext,
    ?_, ?_, ?_⟩
  · simp only [List.length_append, length_put16, hrows, length_rowHead, valueField]
  · simp only [writeIfd, h.rows, hone e h4, List.append_assoc]
  · simp only [writeIfd, h.edited, hone (f e) (by omega), htag, hkind, hcount, hlen,
      List.append_assoc, List.length_append, List.length_cons]

/-! ### The file around IFD0 -/

/-- Trees that differ in an IFD0 of one size are written alike around it. -/
theorem toBytes_ifd0 (x : Exif src) {es : List (Entry src)} (hlen : es.length = x.ifd0.length)
    (hblock : blockSize es x.ifd0Nptr = blockSize x.ifd0 x.ifd0Nptr) :
    ∃ pre post, pre.length = (if x.hadPrefix then exifPrefix.length else 0) + tiffHeaderSize ∧
      x.toBytes = pre ++ x.writeBlock x.ifd0 x.ifd0Ptrs tiffHeaderSize x.ifd0Next ++ post ∧
      toBytes { x with ifd0 := es } =
        pre ++ writeIfd x.order es x.ifd0Ptrs
          (tiffHeaderSize + tableSize x.ifd0 x.ifd0Ptrs.length) x.ifd0Next ++ post := by
  have hoffsets : offsets { x with ifd0 := es } = x.offsets := by
    unfold offsets
    rw [show blockSize es (ifd0Nptr { x with ifd0 := es }) = blockSize x.ifd0 x.ifd0Nptr from
      hblock]
    rfl
  have hptrs : ifd0Ptrs { x with ifd0 := es } = x.ifd0Ptrs := by
    unfold ifd0Ptrs
    rw [hoffsets]
  have hptrs1 : ifd1Ptrs { x with ifd0 := es } = x.ifd1Ptrs := by
    unfold ifd1Ptrs
    rw [hoffsets]
  have htable : ∀ n, tableSize es n = tableSize x.ifd0 n := by
    intro n
    rw [tableSize, tableSize, hlen]
  refine ⟨(if x.hadPrefix then exifPrefix else []) ++ (orderMark x.order ++ put16 x.order 42
      ++ put32 x.order (UInt32.ofNat tiffHeaderSize)),
    x.exifIfd.elim [] (fun d => x.writeBlock d
        (pointerTo x.interop tagInteropIfd x.offsets.interop) x.offsets.exif 0)
      ++ x.interop.elim [] (fun d => x.writeBlock d [] x.offsets.interop 0)
      ++ x.gpsIfd.elim [] (fun d => x.writeBlock d [] x.offsets.gps 0)
      ++ x.ifd1.elim [] (fun d => x.writeBlock d x.ifd1Ptrs x.offsets.ifd1 0)
      ++ x.thumbnail.elim [] Slice.bytes, ?_, ?_, ?_⟩
  · cases x.hadPrefix <;> simp [tiffHeaderSize]
  · simp only [toBytes, tiffBytes, ifd0Next, List.append_assoc]
  · unfold toBytes tiffBytes
    rw [hoffsets, hptrs, hptrs1]
    simp only [writeBlock, htable, ifd0Next, List.append_assoc]
    rfl

theorem toBytes_editFirst {x : Exif src} {tag : UInt16} {f : Entry src → Entry src}
    {e : Entry src} {A B : List (Item src)} (h : FirstRow tag x.ifd0 x.ifd0Ptrs f e A B)
    (hf : (f e).tag = e.tag ∧ (f e).kind = e.kind ∧ (f e).count = e.count)
    (hlen : (f e).value.bytes.length = e.value.bytes.length) (h4 : e.value.bytes.length ≤ 4) :
    splice x.toBytes ((if x.hadPrefix then exifPrefix.length else 0)
        + (tiffHeaderSize + valueField A.length)) (f e).value.bytes =
      some (toBytes { x with ifd0 := editFirst tag f x.ifd0 }) := by
  have hblock : blockSize (editFirst tag f x.ifd0) x.ifd0Nptr =
      blockSize x.ifd0 x.ifd0Nptr := by
    obtain ⟨L, R, -, hw, hw'⟩ := writeIfd_first x.order h hf hlen h4 0 0
    rw [← length_ifd0Ptrs, ← length_writeIfd x.order _ x.ifd0Ptrs 0 0,
      ← length_writeIfd x.order x.ifd0 x.ifd0Ptrs 0 0, hw, hw']
    simp only [List.length_append, hlen]
  obtain ⟨pre, post, hpre, hx, hx'⟩ := x.toBytes_ifd0 (length_editFirst x.ifd0) hblock
  obtain ⟨L, R, hL, hw, hw'⟩ := writeIfd_first x.order h hf hlen h4
    (tiffHeaderSize + tableSize x.ifd0 x.ifd0Ptrs.length) x.ifd0Next
  rw [hx, hx', writeBlock, hw, hw', ← Nat.add_assoc, ← hpre, ← hL, ← List.length_append]
  have hs := splice_append (a := pre ++ L) (b := e.value.bytes) (R ++ post) hlen
  simpa only [List.append_assoc] using hs

/-! ### Where the reader finds the entry -/

/-- In a written directory the reader finds the first entry with a tag in the row it was
written to. -/
theorem parseIfd_first {tag : UInt16} {es : List (Entry src)} {es' : List (Entry d)}
    {ptrVals : List (UInt16 × UInt32)} {off : ℕ} {next next' : UInt32}
    {f : Entry src → Entry src} {e : Entry src} {A B : List (Item src)}
    (h : FirstRow tag es ptrVals f e A B) (h4 : e.value.bytes.length ≤ 4)
    (hw : Writable es ptrVals)
    (hat : HasAt d off (writeIfd order es ptrVals (off + tableSize es ptrVals.length) next))
    (hfit : off + blockSize es ptrVals.length < 2 ^ 32)
    (hparse : parseIfd d off order = some (es', next')) :
    ∃ e', es'.find? (fun e => e.tag = tag) = some e' ∧ e'.field = e.field ∧
      e'.valueOffset = off + valueField A.length := by
  have hlen := length_writeIfd order es ptrVals (off + tableSize es ptrVals.length) next
  obtain ⟨base, hbase⟩ : ∃ base, base = off + tableSize es ptrVals.length := ⟨_, rfl⟩
  rw [← hbase] at hat hlen
  obtain ⟨rowsA, stA, hA⟩ : ∃ rowsA stA, writeItems order base ⟨[], []⟩ A = (rowsA, stA) :=
    ⟨_, _, rfl⟩
  obtain ⟨rowsB, stB, hB⟩ : ∃ rowsB stB, writeItems order base stA B = (rowsB, stB) :=
    ⟨_, _, rfl⟩
  obtain ⟨hokA, -, hlenA⟩ := writeItems_ok (ExtState.ok_nil src) hA
  obtain ⟨-, hpre, hlenB⟩ := writeItems_ok hokA hB
  have hsize : A.length + (B.length + 1) = es.length + ptrVals.length := by
    rw [← length_sortedItems, h.rows, List.length_append, List.length_cons]
  -- The pieces of the written directory.
  simp only [writeIfd, h.rows, writeItems_append, hA, writeItems, writeItem_inline h4, hB]
    at hat hlen
  obtain ⟨hat, hext⟩ := hasAt_append.mp hat
  obtain ⟨hat, -⟩ := hasAt_append.mp hat
  obtain ⟨hcount, hrows⟩ := hasAt_append.mp hat
  obtain ⟨hrowsA, hrest⟩ := hasAt_append.mp hrows
  obtain ⟨hrow, -⟩ := hasAt_append.mp hrest
  simp only [List.length_append, length_put16, length_put32, hlenA, hlenB, length_rowHead,
    List.length_replicate, List.length_cons] at hext hrow hcount hrowsA hlen
  have hbase' : off + (2 + (12 * A.length + (8 + (e.value.bytes.length +
      (4 - e.value.bytes.length)) + 12 * B.length)) + 4) = base := by
    rw [hbase, tableSize, ← hsize]
    omega
  rw [hbase'] at hext
  have hn : (UInt16.ofNat (A.length + (B.length + 1))).toNat = A.length + (B.length + 1) := by
    have := hw.room
    simp only [maxIfdEntries] at this
    exact UInt16.toNat_ofNat_of_lt' (by simp only [UInt16.size]; omega)
  have hes' : es' = readEntries d order A.length (off + 2) ++
      readEntries d order (B.length + 1) (off + 2 + 12 * A.length) := by
    simp only [parseIfd, rd16_of_hasAt hcount, hn, Option.bind_eq_bind, Option.bind_some] at hparse
    split at hparse
    · exact absurd hparse (by simp)
    · rw [← readEntries_append, (Prod.mk.inj (Option.some_inj.mp hparse)).1]
  have hok := hw.items_ok
  rw [h.rows] at hok
  -- The rows before it are read with their own tags.
  have hfitExt : base + stB.ext.length < 2 ^ 32 := by
    have := hext.le
    rw [hbase, tableSize, ← hsize]
    omega
  obtain ⟨hfieldsA, -⟩ := readEntries_writeItems
    (fun it hit => hok it (List.mem_append_left _ hit)) (ExtState.ok_nil src)
    (replays_nil base) hA hrowsA hext hpre hfitExt
  have hnone : (readEntries d order A.length (off + 2)).find? (fun e => e.tag = tag) = none := by
    refine List.find?_eq_none.mpr fun a ha => ?_
    have hmem : a.field ∈ A.map (Item.field order) := hfieldsA ▸ List.mem_map_of_mem ha
    obtain ⟨it, hit, hfield⟩ := List.mem_map.mp hmem
    have htag : (it.field order).tag = it.tag := by cases it <;> rfl
    have hne := h.before it hit
    rw [← htag, hfield] at hne
    simpa using hne
  -- Its own row is read with its own field, in place.
  obtain ⟨-, s, hs, hval4⟩ := hok (.real e) (List.mem_append_right _ List.mem_cons_self)
  obtain ⟨hhead, hval⟩ := hasAt_append.mp hrow
  obtain ⟨hval, -⟩ := hasAt_append.mp hval
  rw [length_rowHead] at hval
  obtain ⟨e', hres, hfield, -⟩ := resolveEntry_eq_some hhead hs hval4 hval (fun _ => rfl)
    (fun hout => absurd h4 (by omega))
  have htag : e'.tag = tag := (congrArg Field.tag hfield).trans h.tag_eq
  have hread : readEntries d order (B.length + 1) (off + 2 + 12 * A.length) =
      e' :: readEntries d order B.length (off + 2 + 12 * A.length + 12) := by
    have hroom := hrow.le
    simp only [List.length_append, length_rowHead, List.length_replicate] at hroom
    rw [readEntries, if_neg (by omega), hres]
    rfl
  refine ⟨e', ?_, hfield, ?_⟩
  · rw [hes', List.find?_append, hnone, hread, List.find?_cons_of_pos (by simpa using htag)]
    rfl
  · obtain ⟨s', -, -, -, hs', hoff, -⟩ := resolveEntry_inv hres
    have hkind : e'.kind = e.kind := congrArg Field.kind hfield
    have hcnt : e'.count = e.count := congrArg Field.count hfield
    obtain rfl : s = s' := Option.some_inj.mp (hs.symm.trans (hkind ▸ hs'))
    rw [hcnt, ← hval4, valueOffsetAt, if_pos h4] at hoff
    have hoff' := Option.some_inj.mp hoff
    unfold valueField
    omega

/-- In a written file the reader finds the orientation in the row it was written to. -/
theorem Placed.orientationEntry {x : Exif src} (hrep : Reproducible x) (hp : x.Placed d)
    (hfit : x.tiffLen < 2 ^ 32) {p : Bool} {y : Exif d} (hy : parseTiff p d = some y)
    {f : Entry src → Entry src} {e : Entry src} {A B : List (Item src)}
    (h : FirstRow tagOrientation x.ifd0 x.ifd0Ptrs f e A B) (h4 : e.value.bytes.length ≤ 4) :
    ∃ e', y.orientationEntry = some e' ∧ e'.field = e.field ∧
      e'.valueOffset = tiffHeaderSize + valueField A.length := by
  obtain ⟨hle0, hle1, hle2, hle3, hle4, hle5⟩ := x.offsets_le
  obtain ⟨off0, es, next, hparse, horder, -, -, hoff0, -, hentry⟩ := parseTiff_orientationEntry hy
  -- The reader reads the rows of IFD0 from behind the header.
  obtain ⟨-, horder', -, hroot⟩ := hp.header
  have hord : y.order = x.order := Option.some_inj.mp (horder.symm.trans horder')
  rw [hord] at hparse hoff0
  rw [hroot, Option.map_some] at hoff0
  have hroot8 : (UInt32.ofNat tiffHeaderSize).toNat = tiffHeaderSize := by decide
  obtain rfl : tiffHeaderSize = off0 := hroot8.symm.trans (Option.some_inj.mp hoff0)
  rw [hentry]
  refine parseIfd_first h h4 hrep.writable_ifd0 hp.ifd0 ?_ hparse
  rw [length_ifd0Ptrs]
  omega

/-! ### The pruning route -/

theorem editFirst_of_none {tag : UInt16} {f : Entry src → Entry src} {es : List (Entry src)}
    (h : es.find? (fun e => e.tag = tag) = none) : editFirst tag f es = es := by
  induction es with
  | nil => rfl
  | cons a es ih =>
    by_cases ha : a.tag = tag
    · rw [List.find?_cons_of_pos (by simpa using ha)] at h
      exact absurd h (by simp)
    · rw [List.find?_cons_of_neg (by simpa using ha)] at h
      rw [editFirst, if_neg ha, ih h]

theorem intBytes_eq (kind : UInt16) (v : UInt32) (order : ByteOrder) :
    intBytes kind v order = (intSize kind).map fun s => wordBytes order s v.toNat := by
  unfold intBytes intSize
  split
  · rfl
  · split <;> rfl

/-- An orientation entry a pruning rewrite keeps: one SHORT or LONG. -/
def Entry.Plain (e : Entry src) : Prop := e.count = 1 ∧ ∃ s, intSize e.kind = some s

/-- Setting a plain orientation exchanges its value in the file. -/
theorem splice_setOrientationTag {x : Exif src} {e : Entry src} (hrep : Reproducible x)
    (he : x.orientationEntry = some e) (hplain : e.Plain) (o : O) :
    ∃ s A B, intSize e.kind = some s ∧ s ≤ 4 ∧ e.value.bytes.length = s ∧
      FirstRow tagOrientation x.ifd0 x.ifd0Ptrs
        (fun e => e.setInt (Orientation.toExif o).toUInt32 x.order) e A B ∧
      splice x.toBytes ((if x.hadPrefix then exifPrefix.length else 0)
          + (tiffHeaderSize + valueField A.length))
          (wordBytes x.order s (Orientation.toExif o).toUInt32.toNat) =
        some (x.setOrientationTag o).toBytes := by
  obtain ⟨hcount, s, hs⟩ := hplain
  obtain ⟨hs4, -, hsize⟩ := intSize_eq_some hs
  have hset : e.setInt (Orientation.toExif o).toUInt32 x.order =
      { e with
        value := .owned (wordBytes x.order s (Orientation.toExif o).toUInt32.toNat)
        count := 1 } := by
    rw [Entry.setInt, intBytes_eq, hs, Option.map_some]
  have hlen : e.value.bytes.length = s := by
    obtain ⟨s', hs', hlen⟩ := hrep.ifd0Ok.sound e (List.mem_of_find?_eq_some he)
    obtain rfl := Option.some_inj.mp (hsize.symm.trans hs')
    rw [hlen, hcount]
    exact Nat.one_mul s
  obtain ⟨A, B, hrow⟩ := exists_firstRow
    (f := fun e => e.setInt (Orientation.toExif o).toUInt32 x.order) x.ifd0Ptrs
    (e.setInt_tag _) he
  have hsplice := toBytes_editFirst hrow ⟨e.setInt_tag _, by rw [hset], by rw [hset, hcount]⟩
    (by rw [hset, hlen]; exact wordBytes_length _ _ _) (by omega)
  rw [hset] at hsplice
  exact ⟨s, A, B, hs, hs4, hlen, hrow, hsplice⟩

/-- **Patching a written file writes the edited tree.** -/
theorem setExifOrientation_toBytes [LawfulOrientation O] {x : Exif src} (hrep : Reproducible x)
    (hfit : x.serializedLen < 2 ^ 32) (hplain : ∀ e, x.orientationEntry = some e → e.Plain)
    (o : O) : (setExifOrientation x.toBytes o).getD x.toBytes =
      (x.setOrientationTag o).toBytes := by
  obtain ⟨y, hy, hreads⟩ := parse_toBytes hrep hfit
  rw [setExifOrientation, hy, Option.bind_some, setOrientationWith]
  cases he : x.orientationEntry with
  | none =>
    have hnone : y.orientationEntry = none := by
      have hmap := hreads.orientationEntry
      rw [he] at hmap
      simpa using hmap
    rw [hnone, setOrientationTag, editFirst_of_none he]
    rfl
  | some e =>
    obtain ⟨s, A, B, hs, hs4, hlen, hrow, hsplice⟩ :=
      splice_setOrientationTag hrep he (hplain e he) o
    -- The reader finds the entry in its row, and the patch exchanges its value there.
    have hparse : parseTiff (hasPrefix x.toBytes) (tiffOf x.toBytes) = some y := hy
    have hplaced := x.placed_tiffBytes
    rw [← tiffOf_toBytes] at hplaced
    obtain ⟨e', he', hfield, hoff⟩ := hplaced.orientationEntry hrep
      (x.tiffLen_le_serializedLen.trans_lt hfit) hparse hrow (by omega)
    have hkind : e'.kind = e.kind := congrArg Field.kind hfield
    have hcnt : e'.count = 1 := (congrArg Field.count hfield).trans (hplain e he).1
    have hone : (1 : UInt32).toNat = 1 := rfl
    rw [he', Option.bind_some, LawfulOrientation.discriminant_eq]
    simp only [patchInlineInt, hkind, hs, hcnt, hone, Option.bind_eq_bind, Option.bind_some]
    rw [if_neg (by omega), hreads.hadPrefix_eq, hreads.order_eq, hoff, hsplice]
    rfl

/-- Setting the orientation of a tree whose entry is plain keeps its size. -/
theorem serializedLen_setOrientationTag {x : Exif src} (hrep : Reproducible x)
    (hplain : ∀ e, x.orientationEntry = some e → e.Plain) (o : O) :
    (x.setOrientationTag o).serializedLen = x.serializedLen := by
  cases he : x.orientationEntry with
  | none => rw [setOrientationTag, editFirst_of_none he]
  | some e =>
    obtain ⟨s, A, B, -, -, -, -, hsplice⟩ := splice_setOrientationTag hrep he (hplain e he) o
    rw [serializedLen_eq, serializedLen_eq]
    exact length_splice hsplice

/-- What a filter keeps as orientation is plain. -/
theorem orientationEntry_filtered {x : Exif src} {policy : ExifPolicy} {e : Entry src}
    (h : (x.filtered policy).orientationEntry = some e) : e.Plain := by
  have htag : e.tag = tagOrientation := by simpa using List.find?_some h
  have hk := (List.mem_filter.mp (List.mem_of_find?_eq_some h)).2
  rw [keep, if_neg (by rw [htag]; decide), if_neg (by rw [htag]; decide), if_pos htag] at hk
  simp only [Bool.and_eq_true, Bool.or_eq_true, decide_eq_true_eq] at hk
  refine ⟨hk.1.1.2, ?_⟩
  rcases hk.1.2 with hkind | hkind <;> rw [hkind]
  · exact ⟨2, rfl⟩
  · exact ⟨4, rfl⟩

/-! ### The keep-everything route -/

/-- What stands in the TIFF stands in the blob behind the prefix. -/
theorem HasAt.of_tiffOf {data bs : Bytes} {o : ℕ} (h : HasAt (tiffOf data) o bs) :
    HasAt data ((if hasPrefix data then exifPrefix.length else 0) + o) bs := by
  unfold tiffOf at h
  cases hp : hasPrefix data with
  | false =>
    rw [hp] at h
    simpa using h
  | true =>
    rw [hp, if_pos rfl] at h
    have htake : data.take exifPrefix.length = exifPrefix := by simpa [hasPrefix] using hp
    rw [if_pos rfl, ← List.take_append_drop exifPrefix.length data, htake]
    exact hasAt_append_left.mpr h

/-- A value that reads as `v` spells `v`. -/
theorem hasAt_of_readUint {e : Entry src} {v : UInt32} (h : readUint e order = some v) :
    ∃ s, intSize e.kind = some s ∧ HasAt e.value.bytes 0 (wordBytes order s v.toNat) := by
  unfold readUint at h
  split at h
  · next hk =>
    obtain ⟨w, hw, rfl⟩ := Option.map_eq_some_iff.mp h
    obtain ⟨b, hb, rfl⟩ := Option.map_eq_some_iff.mp hw
    have hlen : b.length = 2 := slice_length hb
    have hlt : wordValue order b < UInt16.size := by
      have := wordValue_lt order b
      rwa [hlen] at this
    refine ⟨2, by rw [intSize, if_pos hk], ?_⟩
    rw [UInt16.toNat_toUInt32, UInt16.toNat_ofNat_of_lt' hlt, ← hlen, wordBytes_wordValue]
    exact hasAt_of_slice hb
  · split at h
    · next hn hk =>
      obtain ⟨b, hb, rfl⟩ := Option.map_eq_some_iff.mp h
      have hlen : b.length = 4 := slice_length hb
      have hlt : wordValue order b < UInt32.size := by
        have := wordValue_lt order b
        rwa [hlen] at this
      refine ⟨4, by rw [intSize, if_neg hn, if_pos hk], ?_⟩
      rw [UInt32.toNat_ofNat_of_lt' hlt, ← hlen, wordBytes_wordValue]
      exact hasAt_of_slice hb
    · exact absurd h (by simp)

/-- Patching the orientation a blob has changes nothing. -/
theorem setOrientationWith_self [ExactOrientation O] {data out : Bytes}
    {x : Exif (tiffOf data)} {o : O} (hx : parse data = some x) (ho : x.orientation = some o)
    (h : setOrientationWith data x o = some out) : out = data := by
  obtain ⟨e, he, hpatch⟩ := Option.bind_eq_some_iff.mp h
  obtain ⟨e', he', hread⟩ := Option.bind_eq_some_iff.mp ho
  obtain rfl : e = e' := Option.some_inj.mp (he.symm.trans he')
  obtain ⟨raw, hraw, hfrom⟩ := Option.bind_eq_some_iff.mp hread
  split at hfrom
  · next hlt =>
    -- The raw value is the EXIF value of the orientation.
    have hval := ExactOrientation.toExif_of_fromExif _ _ hfrom
    have hrawEq : (Orientation.toExif o).toUInt32.toNat = raw.toNat := by
      rw [hval, UInt8.toNat_toUInt32, UInt8.toNat_ofNat_of_lt' hlt]
    obtain ⟨s, hs, hat⟩ := hasAt_of_readUint hraw
    obtain ⟨s', -, hkey⟩ := orientationEntry_key hx he
    have hatTiff : HasAt (tiffOf data) e.valueOffset (wordBytes x.order s raw.toNat) := by
      cases hv : e.value with
      | owned b => rw [hv] at hkey; exact absurd hkey (by simp [Cow.key])
      | borrowed sl =>
        rw [hv] at hkey hat
        have hstart : sl.start = e.valueOffset := congrArg Prod.fst (Option.some_inj.mp hkey)
        have := sl.hasAt.trans hat
        rwa [Nat.add_zero, hstart] at this
    obtain ⟨off0, es, next, -, -, -, -, -, hpre, -⟩ := parseTiff_orientationEntry hx
    simp only [patchInlineInt, hs, Option.bind_eq_bind, Option.bind_some] at hpatch
    split at hpatch
    · exact absurd hpatch (by simp)
    · rw [LawfulOrientation.discriminant_eq, hrawEq, hpre,
        splice_of_hasAt (HasAt.of_tiffOf hatTiff)] at hpatch
      exact (Option.some_inj.mp hpatch).symm
  · exact absurd hfrom (by simp)

/-! ### One pass and two -/

/-- The pruning route for a blob that parses. -/
theorem retain_of_parse [DecidableEq O] {data : Bytes} {policy : ExifPolicy} {want : Option O}
    {x : Exif (tiffOf data)} (hk : policy.keepsEverything = false)
    (hd : policy.discardsEverything = false) (hlen : data.length ≤ u32Max)
    (hx : parse data = some x) : retainReconciled data policy want =
      if (x.prune policy want).nothingLeft then none
      else if sizeCap data.length < (x.prune policy want).serializedLen then none
      else some (.owned (x.prune policy want).toBytes) := by
  unfold retainReconciled
  rw [if_neg (by simp [hd]), if_neg (by simp [hk]), if_neg (by omega), hx]
  simp only [hk, Bool.false_eq_true, if_false]

/-- Off the pruning route nothing is returned, whatever the target. -/
theorem retain_eq_none [DecidableEq O] {data : Bytes} {policy : ExifPolicy} (want : Option O)
    (hk : policy.keepsEverything = false)
    (h : policy.discardsEverything = true ∨ u32Max < data.length ∨ parse data = none) :
    retainReconciled data policy want = none := by
  unfold retainReconciled
  by_cases hd : policy.discardsEverything = true
  · rw [if_pos hd]
  · rw [if_neg hd, if_neg (by simp [hk]), hk]
    by_cases hlen : u32Max < data.length
    · rw [if_pos hlen]
      rfl
    · rw [if_neg hlen, (h.resolve_left hd).resolve_left hlen]
      rfl

/-- On the pruning route both forms write the same bytes. -/
theorem retain_onePass_prune [DecidableEq O] [LawfulOrientation O] (data : Bytes)
    (policy : ExifPolicy) (o : O) (hk : policy.keepsEverything = false) :
    (retainReconciled data policy (some o)).map (Retained.bytes data) =
      retainThenPatch data policy o := by
  unfold retainThenPatch
  by_cases hnone : policy.discardsEverything = true ∨ u32Max < data.length ∨ parse data = none
  · rw [retain_eq_none (some o) hk hnone, retain_eq_none none hk hnone]
    rfl
  · push Not at hnone
    obtain ⟨hd, hlen, hparse⟩ := hnone
    obtain ⟨x, hx⟩ := Option.ne_none_iff_exists'.mp hparse
    rw [retain_of_parse hk (by simpa using hd) hlen hx,
      retain_of_parse hk (by simpa using hd) hlen hx]
    have hrep := filtered_reproducible (parseTiff_reproducible hx) policy
    have hplain : ∀ e, (x.filtered policy).orientationEntry = some e → e.Plain := by
      intro e he
      exact orientationEntry_filtered he
    have hleft : (x.prune policy (some o)).nothingLeft =
        (x.prune policy (none : Option O)).nothingLeft := by
      have hempty : ((x.filtered policy).setOrientationTag o).ifd0.isEmpty =
          (x.filtered policy).ifd0.isEmpty := isEmpty_editFirst _
      simp only [prune_some, prune_none, nothingLeft, hempty]
      rfl
    have hsize : (x.prune policy (some o)).serializedLen =
        (x.prune policy (none : Option O)).serializedLen :=
      serializedLen_setOrientationTag hrep hplain o
    by_cases hnl : (x.prune policy (none : Option O)).nothingLeft = true
    · rw [if_pos (hleft.trans hnl), if_pos hnl]
      rfl
    · rw [if_neg (by rwa [hleft]), if_neg hnl]
      by_cases hcap : sizeCap data.length < (x.prune policy (none : Option O)).serializedLen
      · rw [if_pos (by rwa [hsize]), if_pos hcap]
        rfl
      · rw [if_neg (by rwa [hsize]), if_neg hcap]
        have hfit : (x.filtered policy).serializedLen < 2 ^ 32 := by
          rw [prune_none] at hcap
          unfold sizeCap u32Max at hcap
          omega
        exact congrArg some (setExifOrientation_toBytes hrep hfit hplain o).symm

/-- **Retention in one pass.**  Retaining with a target orientation returns the bytes that
retaining and then patching returns, for every blob of at most `u32Max` bytes and, whatever
its length, for every policy that does not keep everything.  A longer blob is passed through
unpatched when everything is kept. -/
theorem retain_onePass [DecidableEq O] [ExactOrientation O] (data : Bytes)
    (policy : ExifPolicy) (o : O) :
    (data.length ≤ u32Max ∨ policy.keepsEverything = false →
      (retainReconciled data policy (some o)).map (Retained.bytes data) =
        retainThenPatch data policy o) ∧
    (u32Max < data.length → policy.keepsEverything = true →
      (retainReconciled data policy (some o)).map (Retained.bytes data) = some data) := by
  cases hk : policy.keepsEverything with
  | false =>
    exact ⟨fun _ => retain_onePass_prune data policy o hk, fun _ h => absurd h (by simp)⟩
  | true =>
    have hd := discardsEverything_of_keepsEverything hk
    have htwo : retainThenPatch data policy o = some ((setExifOrientation data o).getD data) := by
      unfold retainThenPatch retainReconciled
      rw [if_neg (by simp [hd]), if_pos (by simp [hk])]
      rfl
    refine ⟨fun hlen => ?_, fun hlen _ => ?_⟩
    · have hle : data.length ≤ u32Max := hlen.resolve_right (by simp)
      rw [htwo]
      rcases retain_keepAll data o hk with ⟨hb, hwhy⟩ | ⟨x, v, hx, -, hv, hr⟩
      · -- The source is returned, and the patch does not apply or changes nothing.
        rw [hb]
        refine congrArg some ?_
        rcases hwhy with hlong | hnone | ⟨x, hx, ho | hs⟩
        · omega
        · rw [setExifOrientation, hnone]
          rfl
        · rw [setExifOrientation, hx, Option.bind_some]
          cases hs : setOrientationWith data x o with
          | none => rfl
          | some out => exact (setOrientationWith_self hx ho hs).symm
        · rw [setExifOrientation, hx, Option.bind_some, hs]
          rfl
      · rw [hr, setExifOrientation, hx, Option.bind_some, hv]
        rfl
    · unfold retainReconciled
      rw [if_neg (by simp [hd]), if_neg (by simp), if_pos hlen, hk]
      rfl

theorem retain_onePass_sample :
    (retainReconciled sampleBlob .keepAll (some Turn.identity)).map (Retained.bytes sampleBlob) =
      retainThenPatch sampleBlob .keepAll Turn.identity :=
  (retain_onePass sampleBlob .keepAll Turn.identity).1 (.inl (by decide))

/-- A little-endian blob whose only entry is the orientation 6. -/
def orientBlob : Bytes :=
  [0x49, 0x49, 42, 0, 8, 0, 0, 0, 1, 0, 0x12, 0x01, 3, 0, 1, 0, 0, 0, 6, 0, 0, 0, 0, 0, 0, 0]

/-- The blob is patched at byte 18, whatever follows it. -/
theorem setExifOrientation_orientBlob (pad : Bytes) :
    ∃ out, setExifOrientation (orientBlob ++ pad) Turn.identity = some out ∧
      HasAt out 18 [1, 0] := by
  obtain ⟨data, hdata⟩ : ∃ data, data = orientBlob ++ pad := ⟨_, rfl⟩
  rw [← hdata]
  have hpre : hasPrefix data = false := by
    rw [hdata]
    simp [hasPrefix, orientBlob, exifPrefix]
  have htiff : tiffOf data = orientBlob ++ pad := by
    rw [tiffOf, hpre, hdata]
    rfl
  have hat : ∀ {o : ℕ} {bs : Bytes}, HasAt orientBlob o bs → HasAt (tiffOf data) o bs := by
    intro o bs h
    rw [htiff]
    exact h.mono (List.prefix_append _ _)
  have hlen : 26 ≤ (tiffOf data).length := by
    rw [htiff, List.length_append]
    exact Nat.le_add_right 26 _
  -- The header, the row and the table are read as they stand in the blob.
  obtain ⟨e, hres, hfield, -⟩ : ∃ e, resolveEntry (tiffOf data) 10 .little = some e ∧
      e.field = ⟨tagOrientation, tiffShort, 1, [6, 0]⟩ ∧ e.value.key = some (18, 2) :=
    resolveEntry_eq_some (s := 2) (hat (rfl : HasAt orientBlob 10 (rowHead .little tagOrientation tiffShort 1)))
    (by decide) (by decide) (hat (rfl : HasAt orientBlob 18 [6, 0])) (fun _ => rfl)
    (fun h => absurd h (by decide))
  have hparse : parseIfd (tiffOf data) (8 : UInt32).toNat .little =
      some ([e], (rd32 (tiffOf data) (10 + 1 * 12) .little).getD 0) := by
    have hcount := rd16_of_hasAt (hat (rfl : HasAt orientBlob 8 (put16 .little 1)))
    have hread : readEntries (tiffOf data) .little 1 10 = [e] := by
      rw [readEntries, if_neg (by omega), hres]
      rfl
    simp only [parseIfd, show (8 : UInt32).toNat = 8 from rfl, hcount, Option.bind_eq_bind,
      Option.bind_some]
    rw [if_neg (by decide), show (1 : UInt16).toNat = 1 from rfl, hread]
  have hmark : orderOf (tiffOf data) = some .little := by
    rw [htiff]
    rfl
  have hmagic := rd16_of_hasAt (hat (rfl : HasAt orientBlob 2 (put16 .little 42)))
  have hroot := rd32_of_hasAt (hat (rfl : HasAt orientBlob 4 (put32 .little 8)))
  obtain ⟨x, hx⟩ := parseTiff_isSome (p := hasPrefix data)
    (by simp only [tiffHeaderSize]; omega) hmark hmagic hroot hparse
  obtain ⟨off0, es, next, hparse', hmark', -, -, hroot', hpre', hentry⟩ :=
    parseTiff_orientationEntry hx
  have horder : x.order = .little := (Option.some_inj.mp (hmark.symm.trans hmark')).symm
  rw [horder, hroot, Option.map_some] at hroot'
  rw [horder, ← Option.some_inj.mp hroot', hparse] at hparse'
  obtain ⟨rfl, -⟩ := Prod.mk.inj (Option.some_inj.mp hparse')
  have htag : e.tag = tagOrientation := congrArg Field.tag hfield
  have hkind : e.kind = tiffShort := congrArg Field.kind hfield
  have hcnt : e.count = 1 := congrArg Field.count hfield
  rw [List.find?_cons_of_pos (by simpa using htag)] at hentry
  have hoff : e.valueOffset = 18 := by
    obtain ⟨s, -, -, -, hs, hoff, -⟩ := resolveEntry_inv hres
    rw [hkind, typeSize_short] at hs
    obtain rfl := Option.some_inj.mp hs
    rw [hcnt, valueOffsetAt, if_pos (by decide)] at hoff
    exact (Option.some_inj.mp hoff).symm
  have hsplice : ∃ out, splice data 18 [1, 0] = some out := by
    refine ⟨_, splice_eq_some.mpr ⟨?_, rfl⟩⟩
    have : 26 ≤ data.length := by
      rw [hdata, List.length_append]
      exact Nat.le_add_right 26 _
    simp only [List.length_cons, List.length_nil]
    omega
  obtain ⟨out, hout⟩ := hsplice
  refine ⟨out, ?_, hasAt_splice hout⟩
  rw [setExifOrientation, show parse data = some x from hx, Option.bind_some, setOrientationWith,
    hentry, Option.bind_some, patchInlineInt, hkind, show intSize tiffShort = some 2 by decide,
    Option.bind_eq_bind, Option.bind_some, hcnt, if_neg (by decide), hpre', hpre, hoff, horder]
  exact hout

/-- A blob beyond the reach of 32-bit offsets. -/
def hugeBlob : Bytes := orientBlob ++ List.replicate (2 ^ 32) 0

/-- The one-pass form leaves the orientation of a huge blob alone, the two-pass form patches
it. -/
theorem retain_onePass_differs :
    (retainReconciled hugeBlob .keepAll (some Turn.identity)).map (Retained.bytes hugeBlob) ≠
      retainThenPatch hugeBlob .keepAll Turn.identity := by
  have hone : retainReconciled hugeBlob .keepAll (some Turn.identity) = some .borrowed := by
    have hlen : u32Max < hugeBlob.length := by
      rw [hugeBlob, List.length_append, List.length_replicate]
      unfold u32Max
      omega
    unfold retainReconciled
    rw [if_neg (by decide), if_neg (by decide), if_pos hlen, if_pos (by decide)]
  have htwo : retainThenPatch hugeBlob .keepAll Turn.identity =
      some ((setExifOrientation hugeBlob Turn.identity).getD hugeBlob) := by
    unfold retainThenPatch retainReconciled
    rw [if_neg (by decide), if_pos (by decide)]
    rfl
  obtain ⟨out, hout, hat⟩ := setExifOrientation_orientBlob (List.replicate (2 ^ 32) 0)
  rw [hone, htwo, hugeBlob, hout]
  intro heq
  have hdata : HasAt (orientBlob ++ List.replicate (2 ^ 32) 0) 18 [6, 0] :=
    HasAt.mono (rfl : HasAt orientBlob 18 [6, 0]) (List.prefix_append _ _)
  rw [show (some Retained.borrowed).map (Retained.bytes (orientBlob ++ List.replicate (2 ^ 32) 0))
    = some (orientBlob ++ List.replicate (2 ^ 32) 0) from rfl] at heq
  rw [Option.some_inj.mp heq] at hdata
  exact absurd (hat.eq hdata rfl) (by decide)

end Zencodec.Exif
