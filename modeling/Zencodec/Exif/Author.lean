/-
Authoring an EXIF tree.

`set_orientation`, `set_copyright` and `set_artist` set the first IFD0 entry with their tag, or
append one; `author` is any sequence of these calls.  `Sets` says once what a call leaves in
the tree, and `authored` what a sequence leaves: the rest of IFD0 stays, each set tag has an
entry with the last value, and the directory grows by the tags that it lacked.
-/
import Zencodec.Exif.Reconcile

open Slices StableSort

namespace Zencodec.Exif

variable {src d : Bytes} {O : Type} [Orientation O]

/-! ### The setters -/

/-- `Exif::new`: an empty tree. -/
def new (textEncoding : TextEncoding) : Exif src where
  order := .little
  hadPrefix := false
  ifd0 := []
  exifIfd := none
  gpsIfd := none
  interopIfd := none
  ifd1 := none
  thumbnail := none
  textEncoding := textEncoding

/-- Edit the first entry with a tag, or append `new` where there is none. -/
def setFirst (tag : UInt16) (edit : Entry src → Entry src) (new : Entry src)
    (entries : List (Entry src)) : List (Entry src) :=
  if entries.any fun e => e.tag = tag then editFirst tag edit entries else entries ++ [new]

/-- The bytes of a text. -/
def utf8 (text : String) : Bytes := text.toUTF8.data.toList

/-- A NUL-terminated string entry. -/
def textEntry (tag : UInt16) (text : String) (encoding : TextEncoding) : Entry src :=
  let kind := match encoding with
    | .ascii => tiffAscii
    | .utf8 => tiffUtf8
  let bytes := utf8 text ++ [0]
  ⟨tag, kind, UInt32.ofNat bytes.length, .owned bytes, 0⟩

/-- Insert or replace a string entry. -/
def setIfd0String (entries : List (Entry src)) (tag : UInt16) (text : String)
    (encoding : TextEncoding) : List (Entry src) :=
  setFirst tag (fun _ => textEntry tag text encoding) (textEntry tag text encoding) entries

def setCopyright (x : Exif src) (text : String) : Exif src :=
  { x with ifd0 := setIfd0String x.ifd0 tagCopyright text x.textEncoding }

def setArtist (x : Exif src) (text : String) : Exif src :=
  { x with ifd0 := setIfd0String x.ifd0 tagArtist text x.textEncoding }

/-- The canonical orientation entry: one SHORT. -/
def newOrientationEntry (o : O) (order : ByteOrder) : Entry src :=
  ⟨tagOrientation, tiffShort, 1, .owned (wordBytes order 2 (Orientation.toExif o).toNat), 0⟩

/-- A SHORT or LONG entry keeps its type; another one becomes the canonical entry. -/
def Entry.setOrientation (e : Entry src) (o : O) (order : ByteOrder) : Entry src :=
  match intBytes e.kind (Orientation.toExif o).toUInt32 order with
  | some b => { e with value := .owned b, count := 1 }
  | none => newOrientationEntry o order

def setOrientation (x : Exif src) (o : O) : Exif src :=
  { x with
    ifd0 := setFirst tagOrientation (fun e => e.setOrientation o x.order)
      (newOrientationEntry o x.order) x.ifd0 }

/-- A call of the authoring interface. -/
inductive Call (O : Type)
  | setOrientation (o : O)
  | setCopyright (text : String)
  | setArtist (text : String)
  deriving DecidableEq, Repr

def Call.run (x : Exif src) : Call O → Exif src
  | .setOrientation o => x.setOrientation o
  | .setCopyright text => x.setCopyright text
  | .setArtist text => x.setArtist text

/-- The calls in order. -/
def author (x : Exif src) (calls : List (Call O)) : Exif src := calls.foldl Call.run x

/-! ### The readers -/

/-- The bytes of a string entry up to the first NUL; `none` for another type or an empty
text. -/
def asciiBytes (entries : List (Entry src)) (tag : UInt16) : Option Bytes := do
  let e ← entries.find? fun e => e.tag = tag
  if e.kind ≠ tiffAscii ∧ e.kind ≠ tiffUtf8 then none
  else
    let bytes := e.value.bytes.takeWhile fun b => b ≠ 0
    if bytes.isEmpty then none else some bytes

/-- The text of a string entry, where `lossy` decodes bytes that are no UTF-8. -/
def asciiValue (lossy : Bytes → String) (entries : List (Entry src)) (tag : UInt16) :
    Option String :=
  (asciiBytes entries tag).map fun bytes =>
    (String.fromUTF8? ⟨bytes.toArray⟩).getD (lossy bytes)

def copyright (lossy : Bytes → String) (x : Exif src) : Option String :=
  asciiValue lossy x.ifd0 tagCopyright

def artist (lossy : Bytes → String) (x : Exif src) : Option String :=
  asciiValue lossy x.ifd0 tagArtist

/-! ### What a call asks for -/

def Call.tag : Call O → UInt16
  | .setOrientation _ => tagOrientation
  | .setCopyright _ => tagCopyright
  | .setArtist _ => tagArtist

/-- The tags that the authoring interface sets. -/
def authoredTags : List UInt16 := [tagOrientation, tagCopyright, tagArtist]

/-- Some call sets the tag. -/
def isSet (calls : List (Call O)) (t : UInt16) : Bool := calls.any fun c => c.tag = t

/-- IFD0 has no entry with the tag. -/
def lacks (x : Exif src) (t : UInt16) : Bool := x.ifd0.all fun e => e.tag ≠ t

/-- The tags that some call sets. -/
def setTags (calls : List (Call O)) : List UInt16 := authoredTags.filter (isSet calls)

/-- The tags that some call sets and IFD0 lacks. -/
def newTags (x : Exif src) (calls : List (Call O)) : List UInt16 :=
  authoredTags.filter fun t => isSet calls t && x.lacks t

/-- The fields behind the first one of each tag in `tags`. -/
def others (tags : List UInt16) (fs : List Field) : List Field :=
  tags.foldl (fun fs t => fs.eraseP fun f => f.tag = t) fs

/-- An entry as a text setter writes it. -/
def Entry.IsText (e : Entry src) (text : String) : Prop :=
  (e.kind = tiffAscii ∨ e.kind = tiffUtf8) ∧ e.value = .owned (utf8 text ++ [0]) ∧
    e.count = UInt32.ofNat (utf8 text ++ [0]).length

/-- An entry as a call writes it. -/
def Call.Wrote (order : ByteOrder) (e : Entry src) : Call O → Prop
  | .setOrientation o =>
    intBytes e.kind (Orientation.toExif o).toUInt32 order = some e.value.bytes ∧ e.count = 1
  | .setCopyright text => e.IsText text
  | .setArtist text => e.IsText text

/-! ### Setting the first entry with a tag -/

section SetFirst

variable {tag : UInt16} {edit : Entry src → Entry src} {new : Entry src}

/-- `es'` is `es` with the entry `e` as its first one with a tag. -/
structure Sets (tag : UInt16) (e : Entry src) (es es' : List (Entry src)) : Prop where
  found : es'.find? (fun a => a.tag = tag) = some e
  rest : es'.eraseP (fun a => a.tag = tag) = es.eraseP fun a => a.tag = tag
  other : ∀ t, t ≠ tag → es'.filter (fun a => a.tag = t) = es.filter fun a => a.tag = t
  mem : ∀ a ∈ es', a ∈ es ∨ a = e
  length : es'.length = es.length + if es.all fun a => a.tag ≠ tag then 1 else 0

/-- Both branches of `setFirst` set the entry. -/
theorem setFirst_sets (hedit : ∀ e, e.tag = tag → (edit e).tag = tag) (hnew : new.tag = tag)
    (es : List (Entry src)) :
    Sets tag ((es.find? fun e => e.tag = tag).elim new edit) es (setFirst tag edit new es) := by
  unfold setFirst
  split
  · next hany =>
    obtain ⟨e, he⟩ : ∃ e, es.find? (fun e => e.tag = tag) = some e := by
      rw [← Option.isSome_iff_exists, List.find?_isSome]
      exact List.any_eq_true.mp hany
    have hall : ¬ es.all fun a => a.tag ≠ tag := by
      have hmem := List.mem_of_find?_eq_some he
      have htag := List.find?_some he
      intro h
      have := List.all_eq_true.mp h e hmem
      simp only [decide_eq_true_eq] at htag
      simp [htag] at this
    rw [he, Option.elim_some]
    refine ⟨?_, eraseP_editFirst hedit es, fun t ht => filter_editFirst hedit ht es, ?_, ?_⟩
    · rw [find?_editFirst hedit, he, Option.map_some]
    · intro a ha
      rcases mem_editFirst ha with hold | ⟨e0, he0, rfl⟩
      · exact .inl hold
      · rw [he] at he0
        exact .inr (congrArg edit (Option.some.inj he0).symm)
    · rw [length_editFirst, if_neg hall, Nat.add_zero]
  · next hany =>
    have hne : ∀ e ∈ es, ¬ (decide (e.tag = tag)) = true := by
      intro e he htag
      exact hany (List.any_eq_true.mpr ⟨e, he, htag⟩)
    have hnone : es.find? (fun e => e.tag = tag) = none := List.find?_eq_none.mpr hne
    rw [hnone, Option.elim_none]
    refine ⟨?_, ?_, fun t ht => ?_, ?_, ?_⟩
    · rw [List.find?_append, hnone, Option.none_or, List.find?_cons_of_pos (by simpa using hnew)]
    · rw [List.eraseP_append_right _ hne, List.eraseP_cons_of_pos (by simpa using hnew),
        List.append_nil, List.eraseP_of_forall_not hne]
    · rw [List.filter_append, List.filter_cons_of_neg (by simpa [hnew] using ht.symm),
        List.filter_nil, List.append_nil]
    · intro a ha
      exact (List.mem_append.mp ha).imp_right List.mem_singleton.mp
    · rw [List.length_append, List.length_singleton, if_pos]
      refine List.all_eq_true.mpr fun a ha => ?_
      simpa using hne a ha

end SetFirst

/-! ### One call -/

theorem Entry.setOrientation_tag (e : Entry src) (o : O) (order : ByteOrder)
    (h : e.tag = tagOrientation) : (e.setOrientation o order).tag = tagOrientation := by
  unfold Entry.setOrientation
  split
  · exact h
  · rfl

theorem wrote_newOrientationEntry (o : O) (order : ByteOrder) :
    (Call.setOrientation o).Wrote order (newOrientationEntry o order : Entry src) := by
  refine ⟨?_, rfl⟩
  show intBytes tiffShort _ _ = _
  rw [intBytes, if_pos rfl, newOrientationEntry, Cow.bytes_owned, UInt8.toNat_toUInt32]

theorem Entry.wrote_setOrientation (e : Entry src) (o : O) (order : ByteOrder) :
    (Call.setOrientation o).Wrote order (e.setOrientation o order) := by
  unfold Entry.setOrientation
  split
  · next b hb => exact ⟨hb, rfl⟩
  · exact wrote_newOrientationEntry o order

theorem isText_textEntry (tag : UInt16) (text : String) (encoding : TextEncoding) :
    (textEntry tag text encoding : Entry src).IsText text := by
  refine ⟨?_, rfl, rfl⟩
  cases encoding with
  | ascii => exact .inl rfl
  | utf8 => exact .inr rfl

theorem setIfd0String_sets (entries : List (Entry src)) (tag : UInt16) (text : String)
    (encoding : TextEncoding) :
    Sets tag (textEntry tag text encoding) entries (setIfd0String entries tag text encoding) := by
  have hsets := @setFirst_sets src tag (fun _ => textEntry tag text encoding)
    (textEntry tag text encoding) (fun _ _ => rfl) rfl entries
  cases hfind : entries.find? (fun e => e.tag = tag) with
  | none => rwa [hfind] at hsets
  | some e => rwa [hfind] at hsets

/-- A call sets the first entry with its tag to one it wrote, and touches nothing else. -/
theorem Call.run_sets (x : Exif src) (c : Call O) :
    c.run x = { x with ifd0 := (c.run x).ifd0 } ∧
      ∃ e, c.Wrote x.order e ∧ Sets c.tag e x.ifd0 (c.run x).ifd0 := by
  cases c with
  | setOrientation o =>
    refine ⟨rfl, _, ?_, setFirst_sets (fun e => e.setOrientation_tag o x.order) rfl x.ifd0⟩
    cases x.ifd0.find? (fun e => e.tag = tagOrientation) with
    | none => exact wrote_newOrientationEntry o x.order
    | some e => exact e.wrote_setOrientation o x.order
  | setCopyright text =>
    exact ⟨rfl, _, isText_textEntry _ _ _, setIfd0String_sets _ _ _ _⟩
  | setArtist text =>
    exact ⟨rfl, _, isText_textEntry _ _ _, setIfd0String_sets _ _ _ _⟩

theorem Call.tag_mem {O : Type} (c : Call O) : c.tag ∈ authoredTags := by
  cases c <;> simp [Call.tag, authoredTags]

theorem Sets.find?_eq {tag t : UInt16} {e : Entry src} {es es' : List (Entry src)}
    (h : Sets tag e es es') (ht : t ≠ tag) :
    es'.find? (fun a => a.tag = t) = es.find? fun a => a.tag = t := by
  rw [← List.head?_filter, ← List.head?_filter, h.other t ht]

theorem Sets.all_eq {tag : UInt16} {e : Entry src} {es es' : List (Entry src)}
    (h : Sets tag e es es') (t : UInt16) :
    (es'.all fun a => a.tag ≠ t) = (decide (t ≠ tag) && es.all fun a => a.tag ≠ t) := by
  have hall : ∀ l : List (Entry src), (l.all fun a => a.tag ≠ t) =
      (l.find? fun a => a.tag = t).isNone := by
    intro l
    rw [Bool.eq_iff_iff, List.all_eq_true, Option.isNone_iff_eq_none, List.find?_eq_none]
    simp only [ne_eq, decide_not, Bool.not_eq_eq_eq_not, Bool.not_true, decide_eq_false_iff_not,
      decide_eq_true_eq]
  rw [hall, hall]
  by_cases ht : t = tag
  · subst ht
    simp [h.found]
  · simp [ht, h.find?_eq ht]

/-! ### The rest of the fields -/

theorem others_eraseP (tags : List UInt16) (t : UInt16) (fs : List Field) :
    others tags (fs.eraseP fun f => f.tag = t) = (others tags fs).eraseP fun f => f.tag = t := by
  induction tags generalizing fs with
  | nil => rfl
  | cons t' tags ih =>
    show others tags ((fs.eraseP _).eraseP _) = (others tags (fs.eraseP _)).eraseP _
    rw [← ih]
    by_cases ht : t' = t
    · rw [ht]
    · rw [List.eraseP_comm]
      intro f _
      by_cases hf : f.tag = t
      · exact .inr (by simpa [hf] using fun h => ht h.symm)
      · exact .inl (by simpa using hf)

/-- Directories that agree behind the first field of a tag in `tags` agree behind all. -/
theorem others_congr {tags : List UInt16} {t : UInt16} {fs fs' : List Field} (ht : t ∈ tags)
    (h : (fs'.eraseP fun f => f.tag = t) = fs.eraseP fun f => f.tag = t) :
    others tags fs' = others tags fs := by
  induction tags generalizing fs fs' with
  | nil => cases ht
  | cons t' tags ih =>
    show others tags (fs'.eraseP _) = others tags (fs.eraseP _)
    rcases List.mem_cons.mp ht with rfl | ht
    · rw [h]
    · rw [others_eraseP, others_eraseP, ih ht h]

end Zencodec.Exif
