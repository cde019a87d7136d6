/-
What a reader finds in an authored tree.

The setters touch only the first IFD0 entry of their tags, so everything rests on how large
IFD0 gets: `parse` refuses a directory of more than `maxIfdEntries` rows, and with IFD0 the
whole blob, while `to_bytes` writes it.

* `author_faithful` — a directory that stays within the cap is read back as authored;
* `parse_overfull` — any other is not read back at all.
-/
import Zencodec.Exif.Author

open Slices StableSort

namespace Zencodec.Exif

variable {src d : Bytes} {O : Type} [Orientation O]

/-! ### A sequence of calls -/

theorem author_cons (x : Exif src) (c : Call O) (calls : List (Call O)) :
    x.author (c :: calls) = (c.run x).author calls := rfl

theorem author_append (x : Exif src) (before after : List (Call O)) :
    x.author (before ++ after) = (x.author before).author after := List.foldl_append

/-- Only IFD0 is authored. -/
theorem author_eq (x : Exif src) (calls : List (Call O)) :
    x.author calls = { x with ifd0 := (x.author calls).ifd0 } := by
  induction calls generalizing x with
  | nil => rfl
  | cons c calls ih =>
    rw [author_cons, ih, (c.run_sets x).1]

theorem author_order (x : Exif src) (calls : List (Call O)) : (x.author calls).order = x.order := by
  rw [author_eq]

/-- Entries with a tag that no call sets stay. -/
theorem author_filter (x : Exif src) (calls : List (Call O)) {t : UInt16}
    (ht : ∀ c ∈ calls, c.tag ≠ t) :
    (x.author calls).ifd0.filter (fun e => e.tag = t) = x.ifd0.filter fun e => e.tag = t := by
  induction calls generalizing x with
  | nil => rfl
  | cons c calls ih =>
    obtain ⟨-, e, -, hsets⟩ := c.run_sets x
    rw [author_cons, ih _ fun c' hc' => ht c' (List.mem_cons_of_mem _ hc'),
      hsets.other t (ht c List.mem_cons_self).symm]

/-- Behind the first entry of each set tag the directory is the old one. -/
theorem author_others (x : Exif src) (calls : List (Call O)) {tags : List UInt16}
    (ht : ∀ c ∈ calls, c.tag ∈ tags) :
    others tags (fields (x.author calls).ifd0) = others tags (fields x.ifd0) := by
  induction calls generalizing x with
  | nil => rfl
  | cons c calls ih =>
    obtain ⟨-, e, -, hsets⟩ := c.run_sets x
    rw [author_cons, ih _ fun c' hc' => ht c' (List.mem_cons_of_mem _ hc')]
    refine others_congr (ht c List.mem_cons_self) ?_
    rw [← fields_eraseP, ← fields_eraseP, hsets.rest]

/-- Every entry is an old one or one that a call wrote. -/
theorem author_mem (x : Exif src) (calls : List (Call O)) {e : Entry src}
    (he : e ∈ (x.author calls).ifd0) : e ∈ x.ifd0 ∨ ∃ c : Call O, c.Wrote x.order e := by
  induction calls generalizing x with
  | nil => exact .inl he
  | cons c calls ih =>
    obtain ⟨heq, e', hwrote, hsets⟩ := c.run_sets x
    have horder : (c.run x).order = x.order := by rw [heq]
    rcases ih _ he with hold | ⟨c', hc'⟩
    · refine (hsets.mem e hold).imp_right fun h => ⟨c, ?_⟩
      rwa [h]
    · rw [horder] at hc'
      exact .inr ⟨c', hc'⟩

/-- The entry of a set tag is the one that the last call with the tag wrote. -/
theorem author_last (x : Exif src) (before after : List (Call O)) (c : Call O)
    (hlast : ∀ c' ∈ after, c'.tag ≠ c.tag) :
    ∃ e, (x.author (before ++ c :: after)).ifd0.find? (fun e => e.tag = c.tag) = some e ∧
      c.Wrote x.order e := by
  obtain ⟨-, e, hwrote, hsets⟩ := c.run_sets (x.author before)
  refine ⟨e, ?_, ?_⟩
  · rw [author_append, author_cons, ← List.head?_filter, author_filter _ _ hlast,
      List.head?_filter, hsets.found]
  · rwa [author_order] at hwrote

/-! ### How far the directory grows -/

theorem countP_except {T : List UInt16} (hT : T.Nodup) {p q : UInt16 → Bool} {a : UInt16}
    (ha : a ∈ T) (hp : p a = true) (hq : q a = false) (h : ∀ t, t ≠ a → p t = q t) :
    T.countP p = T.countP q + 1 := by
  have hperm := List.perm_cons_erase ha
  rw [hperm.countP_eq, hperm.countP_eq, List.countP_cons_of_pos hp,
    List.countP_cons_of_neg (by simp [hq])]
  refine congrArg (· + 1) (List.countP_congr fun t ht => ?_)
  rw [h t ((hT.mem_erase_iff.mp ht).1)]

theorem Call.lacks_run (x : Exif src) (c : Call O) (t : UInt16) :
    (c.run x).lacks t = (decide (t ≠ c.tag) && x.lacks t) := by
  obtain ⟨-, e, -, hsets⟩ := c.run_sets x
  exact hsets.all_eq t

/-- A call adds an entry when the directory lacks its tag. -/
theorem length_newTags_cons (x : Exif src) (c : Call O) (calls : List (Call O)) :
    (newTags x (c :: calls)).length =
      (newTags (c.run x) calls).length + if x.lacks c.tag then 1 else 0 := by
  have hset : ∀ t, t ≠ c.tag → isSet (c :: calls) t = isSet calls t := by
    intro t ht
    simp [isSet, Ne.symm ht]
  have hself : isSet (c :: calls) c.tag = true := by simp [isSet]
  rw [newTags, newTags, ← List.countP_eq_length_filter, ← List.countP_eq_length_filter]
  split
  · next hlacks =>
    refine countP_except (by decide) c.tag_mem ?_ ?_ fun t ht => ?_
    · rw [hself, hlacks, Bool.and_self]
    · simp [Call.lacks_run]
    · rw [hset t ht, Call.lacks_run, decide_eq_true ht, Bool.true_and]
  · next hlacks =>
    rw [Nat.add_zero]
    refine List.countP_congr fun t _ => ?_
    by_cases ht : t = c.tag
    · subst ht
      simp [Call.lacks_run, hlacks]
    · rw [hset t ht, Call.lacks_run, decide_eq_true ht, Bool.true_and]

theorem length_author (x : Exif src) (calls : List (Call O)) :
    (x.author calls).ifd0.length = x.ifd0.length + (newTags x calls).length := by
  induction calls generalizing x with
  | nil => simp [author, newTags, isSet]
  | cons c calls ih =>
    obtain ⟨-, e, -, hsets⟩ := c.run_sets x
    have hlen : (c.run x).ifd0.length = x.ifd0.length + if x.lacks c.tag then 1 else 0 :=
      hsets.length
    rw [author_cons, ih, hlen, length_newTags_cons]
    omega

theorem length_newTags_le {O : Type} (x : Exif src) (calls : List (Call O)) :
    (newTags x calls).length ≤ 3 := List.length_filter_le _ _

/-! ### Writing the tree -/

/-- A value of its own takes its length in the out-of-line data. -/
theorem length_le_extSizeFrom {es : List (Entry src)} {e : Entry src} (he : e ∈ es)
    (hkey : e.value.key = none) (hlong : 4 < e.value.bytes.length) (placed : List (ℕ × ℕ)) :
    e.value.bytes.length ≤ extSizeFrom placed es := by
  induction es generalizing placed with
  | nil => cases he
  | cons a es ih =>
    rw [extSizeFrom_cons]
    rcases List.mem_cons.mp he with rfl | he
    · have : extStep placed e = (align2 e.value.bytes.length, placed) := by
        rw [extStep, if_neg (by omega), hkey]
      rw [this]
      unfold align2
      omega
    · exact (ih he _).trans (Nat.le_add_left _ _)

theorem extSize_le_serializedLen (x : Exif src) : extSize x.ifd0 ≤ x.serializedLen := by
  unfold serializedLen blockSize
  omega

/-- What a call wrote is sound as long as the tree can be written. -/
theorem Call.Wrote.sound {c : Call O} {order : ByteOrder} {e : Entry src} {x : Exif src}
    (h : c.Wrote order e) (he : e ∈ x.ifd0) (hfit : x.serializedLen < 2 ^ 32) : e.Sound := by
  have htext : ∀ text, e.IsText text → e.Sound := by
    intro text htext
    obtain ⟨hkind, hval, hcount⟩ := htext
    have hlt : (utf8 text ++ [0]).length < 2 ^ 32 := by
      rcases Nat.lt_or_ge 4 (utf8 text ++ [0]).length with hlong | hshort
      · have hle := length_le_extSizeFrom he (by rw [hval]; rfl) (by rwa [hval, Cow.bytes_owned]) []
        rw [hval, Cow.bytes_owned] at hle
        exact hle.trans_lt ((extSize_le_serializedLen x).trans_lt hfit)
      · exact hshort.trans_lt (by decide)
    have hsize : typeSize e.kind = some 1 := by
      rcases hkind with hk | hk <;> rw [hk] <;> decide
    refine ⟨1, hsize, ?_⟩
    rw [hcount, hval, Cow.bytes_owned, toNat_ofNat32 hlt, Nat.mul_one]
  cases c with
  | setOrientation o =>
    obtain ⟨hbytes, hcount⟩ := h
    refine ⟨_, (intBytes_length hbytes).1, ?_⟩
    rw [hcount]
    exact (Nat.one_mul _).symm
  | setCopyright text => exact htext text h
  | setArtist text => exact htext text h

/-- Authoring keeps a tree that the writer reproduces, if IFD0 has room for the new tags. -/
theorem author_reproducible {x : Exif src} (h : Reproducible x) {calls : List (Call O)}
    (hroom : x.ifd0.length + (newTags x calls).length + x.ifd0Nptr ≤ maxIfdEntries)
    (hfit : (x.author calls).serializedLen < 2 ^ 32) : Reproducible (x.author calls) := by
  have hsound : ∀ e ∈ (x.author calls).ifd0, e.Sound := by
    intro e he
    rcases author_mem x calls he with hold | ⟨c, hc⟩
    · exact h.ifd0Ok.sound e hold
    · exact hc.sound he hfit
  have hptr : ∀ {β : Type} (child : Option β) (tag : UInt16), tag ∉ authoredTags →
      PointerOk child tag x.ifd0 → PointerOk child tag (x.author calls).ifd0 := by
    intro β child tag htag hp
    refine hp.of_filter (author_filter x calls fun c _ heq => htag ?_)
    rw [← heq]
    exact c.tag_mem
  have hlen := length_author x calls
  rw [author_eq]
  refine { h with
    ifd0Ok := ⟨hsound, ?_⟩
    exifPtr := hptr _ _ (by decide) h.exifPtr
    gpsPtr := hptr _ _ (by decide) h.gpsPtr }
  show (x.author calls).ifd0.length + x.ifd0Nptr ≤ maxIfdEntries
  omega

/-! ### Reading the tree back -/

/-- A text that a string entry can hold: not empty, no NUL byte. -/
def Call.Plain : Call O → Prop
  | .setOrientation _ => True
  | .setCopyright text => text ≠ "" ∧ 0 ∉ utf8 text
  | .setArtist text => text ≠ "" ∧ 0 ∉ utf8 text

/-- A reader finds what the call set. -/
def Call.ReadBack (lossy : Bytes → String) (t : Exif d) : Call O → Prop
  | .setOrientation o => t.orientation = some o
  | .setCopyright text => t.copyright lossy = some text
  | .setArtist text => t.artist lossy = some text

/-- `t` says what `x` says, except for what the calls set. -/
structure Faithful (lossy : Bytes → String) (x : Exif src) (calls : List (Call O))
    (t : Exif d) : Prop where
  read : ∀ before c after, calls = before ++ c :: after → (∀ c' ∈ after, c'.tag ≠ c.tag) →
    c.ReadBack lossy t
  order : t.view.order = x.view.order
  hadPrefix : t.view.hadPrefix = x.view.hadPrefix
  ifd0 : others (setTags calls) t.view.ifd0 = canonicalDir (others (setTags calls) x.view.ifd0)
  exifIfd : t.view.exifIfd = x.view.exifIfd.map canonicalDir
  gpsIfd : t.view.gpsIfd = x.view.gpsIfd.map canonicalDir
  interopIfd : t.view.interopIfd = x.view.interopIfd.map canonicalDir
  ifd1 : t.view.ifd1 = x.view.ifd1.map canonicalDir
  thumbnail : t.view.thumbnail = x.view.thumbnail

theorem utf8_ne_nil {text : String} (h : text ≠ "") : utf8 text ≠ [] := by
  intro hnil
  refine h (String.toByteArray_inj.mp ?_)
  exact ByteArray.ext (Array.toList_inj.mp hnil)

theorem fromUTF8?_utf8 (text : String) : String.fromUTF8? ⟨(utf8 text).toArray⟩ = some text := by
  have hbytes : (⟨(utf8 text).toArray⟩ : ByteArray) = text.toByteArray := rfl
  rw [hbytes, String.fromUTF8?, dif_pos text.isValidUTF8]
  rfl

/-- A plain text that was written is read back. -/
theorem asciiValue_of_isText {lossy : Bytes → String} {es : List (Entry src)} {t : UInt16}
    {e : Entry src} {text : String} (he : es.find? (fun e => e.tag = t) = some e)
    (hkind : e.kind = tiffAscii ∨ e.kind = tiffUtf8) (hval : e.value.bytes = utf8 text ++ [0])
    (hne : text ≠ "") (hnul : 0 ∉ utf8 text) : asciiValue lossy es t = some text := by
  have htake : (e.value.bytes.takeWhile fun b => b ≠ 0) = utf8 text := by
    rw [hval, List.takeWhile_append_of_pos]
    · simp
    · intro b hb
      simpa using fun h : b = 0 => hnul (h ▸ hb)
  have hbytes : asciiBytes es t = some (utf8 text) := by
    rw [asciiBytes, he, Option.bind_eq_bind, Option.bind_some, if_neg, htake, if_neg]
    · simpa using utf8_ne_nil hne
    · rintro ⟨hascii, hutf8⟩
      exact hkind.elim hascii hutf8
  rw [asciiValue, hbytes, Option.map_some, fromUTF8?_utf8]
  rfl

/-- The last value that was set is read back. -/
theorem Rereads.readBack [LawfulOrientation O] {x : Exif src} {t : Exif d} {c : Call O}
    {e : Entry src} (h : Rereads x t) (he : x.ifd0.find? (fun e => e.tag = c.tag) = some e)
    (hc : c.Wrote x.order e) (hplain : c.Plain) (lossy : Bytes → String) :
    c.ReadBack lossy t := by
  have hmap := h.find?_ifd0 c.tag
  rw [he, Option.map_some] at hmap
  obtain ⟨e', he', hfield⟩ := Option.map_eq_some_iff.mp hmap
  have hkind : e'.kind = e.kind := congrArg Field.kind hfield
  have hval : e'.value.bytes = e.value.bytes := congrArg Field.value hfield
  have htext : ∀ text, e.IsText text → text ≠ "" ∧ 0 ∉ utf8 text →
      asciiValue lossy t.ifd0 c.tag = some text := by
    intro text hw hp
    refine asciiValue_of_isText he' ?_ ?_ hp.1 hp.2
    · rw [hkind]
      exact hw.1
    · rw [hval, hw.2.1, Cow.bytes_owned]
  cases c with
  | setOrientation o =>
    refine orientation_of_readUint he' (readUint_of_intBytes ?_)
    rw [hkind, hval, h.order_eq]
    exact hc.1
  | setCopyright text => exact htext text hc hplain
  | setArtist text => exact htext text hc hplain

theorem canonicalDir_others (tags : List UInt16) (fs : List Field) :
    canonicalDir (others tags fs) = others tags (canonicalDir fs) := by
  induction tags generalizing fs with
  | nil => rfl
  | cons t tags ih =>
    have hkey : (fun f : Field => decide (f.tag = t)) =
        fun f => decide (f.tag.toNat = t.toNat) := by
      funext f
      rw [Bool.eq_iff_iff, decide_eq_true_eq, decide_eq_true_eq, UInt16.toNat_inj]
    show canonicalDir (others tags (fs.eraseP _)) = others tags ((canonicalDir fs).eraseP _)
    rw [ih, hkey, canonicalDir, sortBy_eraseP, canonicalDir]

/-- **An authored tree with room is read back as authored.** -/
theorem author_faithful [LawfulOrientation O] {x : Exif src} (h : Reproducible x)
    {calls : List (Call O)} (hplain : ∀ c ∈ calls, c.Plain)
    (hroom : x.ifd0.length + (newTags x calls).length + x.ifd0Nptr ≤ maxIfdEntries)
    (hfit : (x.author calls).serializedLen < 2 ^ 32) (lossy : Bytes → String) :
    ∃ t, parse (x.author calls).toBytes = some t ∧ Faithful lossy x calls t := by
  obtain ⟨t, hparse, hreads⟩ := parse_toBytes (author_reproducible h hroom hfit) hfit
  have hview := hreads.view_eq
  have hsame : (x.author calls).view = { x.view with ifd0 := fields (x.author calls).ifd0 } := by
    rw [author_eq]
    rfl
  refine ⟨t, hparse, ?_, ?_, ?_, ?_, ?_, ?_, ?_, ?_, ?_⟩
  case refine_1 =>
    intro before c after hcalls hlast
    obtain ⟨e, he, hc⟩ := author_last x before after c hlast
    subst hcalls
    rw [← author_order x (before ++ c :: after)] at hc
    exact hreads.readBack he hc (hplain c (by simp)) lossy
  case refine_4 =>
    have hifd0 : t.view.ifd0 = canonicalDir (fields (x.author calls).ifd0) := by
      rw [hview, hsame]
      rfl
    rw [hifd0, ← canonicalDir_others, author_others]
    · rfl
    · intro c hc
      refine List.mem_filter.mpr ⟨c.tag_mem, ?_⟩
      exact List.any_eq_true.mpr ⟨c, hc, by simp⟩
  all_goals
    rw [hview, hsame]
    rfl

/-! ### Too many entries -/

theorem length_sortedItems_ifd0 (x : Exif src) :
    (sortedItems x.ifd0 x.ifd0Ptrs).length = x.ifd0.length + x.ifd0Nptr := by
  rw [← length_ifd0Ptrs]
  simp [sortedItems]

/-- A directory beyond the cap takes the whole blob with it. -/
theorem parse_overfull {x : Exif src} (hover : maxIfdEntries < x.ifd0.length + x.ifd0Nptr)
    (hlt : x.ifd0.length + x.ifd0Nptr < 2 ^ 16) : parse x.toBytes = none := by
  have hp := x.placed_tiffBytes
  have hcount : rd16 x.tiffBytes tiffHeaderSize x.order =
      some (UInt16.ofNat (x.ifd0.length + x.ifd0Nptr)) := by
    have hifd0 := hp.ifd0
    simp only [writeBlock, writeIfd, hasAt_append, length_sortedItems_ifd0] at hifd0
    exact rd16_of_hasAt hifd0.1.1.1
  have hbig : maxIfdEntries < (UInt16.ofNat (x.ifd0.length + x.ifd0Nptr)).toNat := by
    rwa [UInt16.toNat_ofNat_of_lt' hlt]
  have hifd : parseIfd x.tiffBytes tiffHeaderSize x.order = none := by
    rw [parseIfd, hcount, Option.bind_eq_bind, Option.bind_some, if_pos hbig]
  obtain ⟨hlen, horder, hmagic, hroot⟩ := hp.header
  have hroot8 : (UInt32.ofNat tiffHeaderSize).toNat = tiffHeaderSize := by decide
  unfold parse
  rw [hasPrefix_toBytes, tiffOf_toBytes]
  simp only [parseTiff, if_neg hlen, horder, hmagic, hroot, hroot8, hifd, Option.bind_eq_bind,
    Option.bind_some, Option.bind_none, ne_eq, not_true_eq_false, if_false]

/-! ### The authoring interface -/

/-- The trees that authoring starts from: a blob that was parsed, or a new tree. -/
inductive Origin : {src : Bytes} → Exif src → Prop
  | parsed {b : Bytes} {x : Exif (tiffOf b)} (h : parse b = some x) : Origin x
  | fresh {src : Bytes} (textEncoding : TextEncoding) : Origin (new textEncoding : Exif src)

theorem new_reproducible (textEncoding : TextEncoding) :
    Reproducible (new textEncoding : Exif src) := by
  refine ⟨⟨?_, ?_⟩, ?_, ?_, ?_, ?_, ?_, ?_, ?_, ?_, ?_, ?_⟩
  all_goals simp [new, ifd0Nptr, PointerOk, FirstShort]

theorem Origin.reproducible {x : Exif src} (h : Origin x) : Reproducible x := by
  cases h with
  | parsed h => exact parseTiff_reproducible h
  | fresh textEncoding => exact new_reproducible textEncoding

/-- **Authoring keeps everything else, and itself, exactly when IFD0 has room.** With the tags
it lacks and its pointers IFD0 may have `maxIfdEntries` rows. -/
theorem author_faithful_iff_room [LawfulOrientation O] {x : Exif src} (hx : Origin x)
    (calls : List (Call O)) (hplain : ∀ c ∈ calls, c.Plain) (lossy : Bytes → String) :
    ((∃ t, parse (x.author calls).toBytes = some t ∧ Faithful lossy x calls t) →
      x.ifd0.length + (newTags x calls).length + x.ifd0Nptr ≤ maxIfdEntries) ∧
    (x.ifd0.length + (newTags x calls).length + x.ifd0Nptr ≤ maxIfdEntries →
      (x.author calls).serializedLen < 2 ^ 32 →
      ∃ t, parse (x.author calls).toBytes = some t ∧ Faithful lossy x calls t) := by
  refine ⟨fun hkept => ?_, fun hroom hfit =>
    author_faithful hx.reproducible hplain hroom hfit lossy⟩
  obtain ⟨t, hparse, -⟩ := hkept
  by_contra hover
  have hroom : x.ifd0.length + x.ifd0Nptr ≤ maxIfdEntries := hx.reproducible.ifd0Ok.room
  have hnew := length_newTags_le x calls
  have hlen := length_author x calls
  have hptr : (x.author calls).ifd0Nptr = x.ifd0Nptr := by
    rw [author_eq]
    rfl
  -- the old rows were within the cap, so the count still fits its 16 bits
  have hmax : maxIfdEntries = 1000 := rfl
  have hnone : parse (x.author calls).toBytes = none :=
    parse_overfull (by omega) (by omega)
  rw [hnone] at hparse
  cases hparse

/-- A text and an orientation for `sampleBlob`. -/
def sampleCalls : List (Call Turn) := [.setOrientation .rotate90, .setCopyright "zen"]

theorem author_faithful_iff_room_sample :
    ∃ x, parse sampleBlob = some x ∧ ∃ t, parse (x.author sampleCalls).toBytes = some t ∧
      Faithful (fun _ => "") x sampleCalls t := by
  have hparse : parse sampleBlob = some ((parse sampleBlob).get parse_sampleBlob) :=
    (Option.some_get parse_sampleBlob).symm
  have hplain : ∀ c ∈ sampleCalls, c.Plain := by
    simp only [sampleCalls, List.forall_mem_cons, List.not_mem_nil, false_implies, implies_true,
      and_true, Call.Plain, true_and]
    exact ⟨by decide, by decide +kernel⟩
  exact ⟨_, hparse, (author_faithful_iff_room (.parsed hparse) sampleCalls hplain _).2
    (by decide +kernel) (by decide +kernel)⟩

theorem extSizeFrom_replicate {e : Entry src} (h : e.value.bytes.length ≤ 4) (n : ℕ)
    (placed : List (ℕ × ℕ)) : extSizeFrom placed (List.replicate n e) = 0 := by
  induction n with
  | zero => rfl
  | succ n ih => rw [List.replicate_succ, extSizeFrom, if_pos h, ih]

/-- A new tree with `n` equal entries in IFD0. -/
def crowded (n : ℕ) : Exif [] :=
  { new .ascii with ifd0 := List.replicate n ⟨0x0100, tiffShort, 1, .owned [0, 1], 0⟩ }

theorem crowded_reproducible {n : ℕ} (h : n ≤ maxIfdEntries) : Reproducible (crowded n) := by
  have hmem : ∀ e ∈ (crowded n).ifd0, e = ⟨0x0100, tiffShort, 1, .owned [0, 1], 0⟩ :=
    fun e he => (List.mem_replicate.mp he).2
  have hptr : ∀ t : UInt16, t ≠ 0x0100 → PointerOk (none : Option Unit) t (crowded n).ifd0 := by
    intro t ht
    refine ⟨fun hc => by simp at hc, fun _ e he => ?_⟩
    have htag := List.find?_some he
    rw [hmem e (List.mem_of_find?_eq_some he)] at htag
    exact absurd (of_decide_eq_true htag).symm ht
  refine { new_reproducible .ascii with
    ifd0Ok := ⟨fun e he => ?_, ?_⟩
    exifPtr := hptr _ (by decide)
    gpsPtr := hptr _ (by decide) }
  · rw [hmem e he]
    exact ⟨2, by decide, rfl⟩
  · show (List.replicate n _).length + 0 ≤ _
    rwa [List.length_replicate]

theorem crowded_fits {n : ℕ} (h : n ≤ maxIfdEntries) : (crowded n).serializedLen < 2 ^ 32 := by
  have hext : extSize (crowded n).ifd0 = 0 := extSizeFrom_replicate (by decide) _ _
  have hlen : (crowded n).ifd0.length = n := List.length_replicate
  have hsize : (crowded n).serializedLen =
      tiffHeaderSize + (tableSize (crowded n).ifd0 0 + extSize (crowded n).ifd0) := by
    simp [serializedLen, crowded, new, blockSize, ifd0Nptr, interop]
  rw [hsize, hext, tableSize, hlen]
  simp only [maxIfdEntries, tiffHeaderSize] at *
  omega

/-- One more entry in a full IFD0, and the blob is no longer read. -/
theorem author_loses_full_ifd0 :
    ∃ x, parse (crowded maxIfdEntries).toBytes = some x ∧
      parse (x.author [Call.setOrientation Turn.rotate90]).toBytes = none := by
  obtain ⟨x, hparse, hreads⟩ :=
    parse_toBytes (crowded_reproducible le_rfl) (crowded_fits le_rfl)
  refine ⟨x, hparse, ?_⟩
  have hfields := hreads.ifd0.fields_eq
  have hlen : x.ifd0.length = maxIfdEntries := by
    have := congrArg List.length hfields
    simpa only [fields, canonicalDir, length_sortBy, List.length_map, crowded,
      List.length_replicate] using this
  have hlacks : x.lacks tagOrientation = true := by
    refine List.all_eq_true.mpr fun e he => ?_
    have hmem : e.field ∈ fields (crowded maxIfdEntries).ifd0 :=
      mem_canonicalDir.mp (hfields ▸ mem_fields.mpr ⟨e, he, rfl⟩)
    obtain ⟨e', he', hfield⟩ := mem_fields.mp hmem
    have htag : e.tag = 0x0100 := by
      rw [← Entry.field_tag, ← hfield, (List.mem_replicate.mp he').2]
      rfl
    rw [htag]
    decide
  have hgrown : (x.author [Call.setOrientation Turn.rotate90]).ifd0.length =
      maxIfdEntries + 1 := by
    rw [length_author, length_newTags_cons, hlen]
    simp [Call.tag, hlacks, newTags, isSet]
  have hptr := Bool.toNat_lt (x.author [Call.setOrientation Turn.rotate90]).exifIfd.isSome
  have hptr' := Bool.toNat_lt (x.author [Call.setOrientation Turn.rotate90]).gpsIfd.isSome
  have hmax : maxIfdEntries = 1000 := rfl
  refine parse_overfull ?_ ?_
  · omega
  · unfold ifd0Nptr
    omega

end Zencodec.Exif
