/-
The strict reader of Apple notes against the compatible one.

What the strict reader accepts, the compatible one reads alike, with three
exceptions made on purpose: it asks for notes of at least 20 bytes, it skips an
entry that the end of the note cuts off, and it reads signed image types of one
and two bytes as unsigned.  Only an image type of one or two bytes can be read
from an entry that is cut off: a fraction needs the whole entry for its offset.

* `readEntry_of_strict` — one entry;
* `collect_refines` — the loop, by induction on the entries left;
* `strict_refines` — notes and EXIF blobs.
-/
import Zencodec.Apple.Parity

namespace Zencodec.Apple

open Slices

variable {host : Host} {F : Type} {floats : Floats F}

/-! ### One entry -/

/-- The kinds that the compatible reader takes for unknown. -/
def Widened (kind : ℕ) : Prop := kind = 13 ∨ (16 ≤ kind ∧ kind ≤ 18)

theorem typeSize_of_not_widened {kind : ℕ} (h : ¬Widened kind) (mode : Interpretation) :
    mode.typeSize kind = Apple.typeSize kind := by
  rw [Interpretation.typeSize, if_neg fun hw => h hw.2]

theorem kind_of_readRational {value : Bytes} {kind : ℕ} {order : ByteOrder} {v : F}
    (h : readRational host floats value kind order = some v) : kind = 10 ∨ kind = 5 := by
  unfold readRational at h
  split at h
  · cases h
  split at h
  · next h10 => exact Or.inl h10
  split at h
  · next h5 => exact Or.inr h5
  · cases h

theorem kind_of_readInt {value : Bytes} {kind : ℕ} {order : ByteOrder} {v : ℤ}
    (h : readInt host value kind order = some v) :
    kind = 3 ∨ kind = 8 ∨ kind = 4 ∨ kind = 9 ∨ kind = 1 ∨ kind = 6 := by
  unfold readInt at h
  split at h
  · omega
  split at h
  · omega
  split at h
  · omega
  split at h
  · omega
  split at h
  · omega
  · cases h

section Entry

variable {note : AppleMakerNote} {offset : ℕ} {entry : MakerNoteEntry}

/-- What an entry that the strict reader accepts consists of. -/
structure ReadStrict (note : AppleMakerNote) (offset : ℕ) (entry : MakerNoteEntry) : Prop where
  tag : Released.u16 note.order note.data offset = some entry.tag
  kind : Released.u16 note.order note.data (offset + 2) = some entry.kind
  count : Released.u32 note.order note.data (offset + 4) = some entry.count
  value : valueAt note.order note.data note.data (offset + 8)
    (Apple.typeSize entry.kind * entry.count) = some entry.value

theorem readStrict (hlen : note.data.length ≤ host.usizeMax)
    (h : note.readEntry host .strict offset = some entry) : ReadStrict note offset entry := by
  rw [readEntry_eq hlen] at h
  obtain ⟨_, -, h⟩ := Option.bind_eq_some_iff.mp h
  obtain ⟨tag, htag, h⟩ := Option.bind_eq_some_iff.mp h
  obtain ⟨kind, hkind, h⟩ := Option.bind_eq_some_iff.mp h
  obtain ⟨count, hcount, h⟩ := Option.bind_eq_some_iff.mp h
  split at h
  · cases h
  obtain ⟨value, hvalue, h⟩ := Option.bind_eq_some_iff.mp h
  obtain rfl := Option.some.inj h
  have hsize : Interpretation.strict.typeSize kind = Apple.typeSize kind := by
    rw [Interpretation.typeSize, if_neg (by simp)]
  rw [hsize] at hvalue
  exact ⟨htag, hkind, hcount, hvalue⟩

/-- The compatible reader reads a whole entry of an ordinary kind alike. -/
theorem readEntry_of_strict (hlen : note.data.length ≤ host.usizeMax)
    (h : ReadStrict note offset entry) (hkind : ¬Widened entry.kind)
    (hwhole : offset + 12 ≤ note.data.length) :
    note.readEntry host .compatibility offset = some entry := by
  have hcell : ∃ s, slice note.data offset (offset + 12) = some s := by
    rw [slice, if_pos (by omega)]
    exact ⟨_, rfl⟩
  obtain ⟨cell, hcell⟩ := hcell
  have hvalue := h.value
  rw [← typeSize_of_not_widened hkind .compatibility] at hvalue
  rw [readEntry_eq hlen, if_pos rfl, hcell, h.tag, h.kind, h.count]
  simp only [Option.bind_eq_bind, Option.bind_some, reduceCtorEq, false_and, if_false, hvalue]
  rfl

/-- Whatever the compatible reader makes of an entry, it has the same tag. -/
theorem tag_of_compatibility (hlen : note.data.length ≤ host.usizeMax)
    (h : ReadStrict note offset entry) {other : MakerNoteEntry}
    (hother : note.readEntry host .compatibility offset = some other) :
    other.tag = entry.tag := by
  rw [readEntry_eq hlen] at hother
  obtain ⟨_, -, hother⟩ := Option.bind_eq_some_iff.mp hother
  obtain ⟨tag, htag, hother⟩ := Option.bind_eq_some_iff.mp hother
  obtain ⟨kind, -, hother⟩ := Option.bind_eq_some_iff.mp hother
  obtain ⟨count, -, hother⟩ := Option.bind_eq_some_iff.mp hother
  split at hother
  · cases hother
  obtain ⟨value, -, hother⟩ := Option.bind_eq_some_iff.mp hother
  obtain rfl := Option.some.inj hother
  exact Option.some.inj (htag.symm.trans h.tag)

/-- A fraction is stored out of line, so its entry is whole. -/
theorem whole_of_fraction (h : ReadStrict note offset entry)
    (hkind : entry.kind = 10 ∨ entry.kind = 5) (hcount : entry.count = 1) : offset + 12 ≤ note.data.length := by
  have hsize : Apple.typeSize entry.kind = 8 := by
    rcases hkind with h | h <;> rw [h] <;> rfl
  have hvalue := h.value
  rw [hsize, hcount, valueAt, if_neg (by decide)] at hvalue
  obtain ⟨off, hoff, -⟩ := Option.bind_eq_some_iff.mp hvalue
  obtain ⟨s, hs, -⟩ := Option.map_eq_some_iff.mp hoff
  have hle := (slice_eq_some.mp hs).2.1
  omega

end Entry

/-! ### The loop over the entries -/

/-- The entry that stores the image type for the strict reader, with its offset, satisfies
`P`. -/
def ImageTypeEntry (host : Host) (note : AppleMakerNote) (P : MakerNoteEntry → ℕ → Prop) :
    Prop :=
  ∃ i < note.count, ∃ entry,
    note.readEntry host .strict (note.entries + i * 12) = some entry ∧
      entry.tag = Apple.hdrImageType ∧ P entry (note.entries + i * 12)

/-- The image type is stored in a signed 8- or 16-bit field. -/
def SignedImageType (host : Host) (note : AppleMakerNote) : Prop :=
  ImageTypeEntry host note fun entry _ => entry.kind = 6 ∨ entry.kind = 8

/-- The image type is stored in an entry that the end of the note cuts off. -/
def CutImageType (host : Host) (note : AppleMakerNote) : Prop :=
  ImageTypeEntry host note fun _ offset => note.data.length < offset + 12

/-- Two results agree, but for an image type that the compatible reader reads otherwise. -/
structure Agree (host : Host) (note : AppleMakerNote) (strict tolerant : AppleHdrInfo F) :
    Prop where
  headroom : tolerant.hdrHeadroom = strict.hdrHeadroom
  gain : tolerant.hdrGain = strict.hdrGain
  image : ¬SignedImageType host note → ¬CutImageType host note →
    tolerant.hdrImageType = strict.hdrImageType

section Loop

variable {note : AppleMakerNote}

theorem entryAt_of_none {mode : Interpretation} {i : ℕ}
    (h : note.readEntry host mode (note.entries + i * 12) = none) :
    ∃ err, note.entryAt host mode i = .error err := by
  unfold AppleMakerNote.entryAt
  dsimp only
  rw [h]
  exact ⟨_, rfl⟩

theorem entryAt_of_some {mode : Interpretation} {i : ℕ} {entry : MakerNoteEntry}
    (h : note.readEntry host mode (note.entries + i * 12) = some entry) :
    note.entryAt host mode i = .ok entry := by
  unfold AppleMakerNote.entryAt
  dsimp only
  rw [h]

/-- Headroom and gain are assigned alike. -/
theorem assign_fraction {order : ByteOrder} {entry : MakerNoteEntry}
    {strict strict' tolerant : AppleHdrInfo F}
    (htag : entry.tag = Apple.hdrHeadroom ∨ entry.tag = Apple.hdrGain)
    (h : assignStrict host floats order strict entry = some strict')
    (hagree : Agree host note strict tolerant) :
    (entry.kind = 10 ∨ entry.kind = 5) ∧
      Agree host note strict' (assign host floats order tolerant entry) := by
  unfold assignStrict at h
  unfold assign
  rcases htag with htag | htag
  · rw [if_pos htag] at h ⊢
    obtain ⟨headroom, hv, h⟩ := Option.bind_eq_some_iff.mp h
    obtain rfl := Option.some.inj h
    exact ⟨kind_of_readRational hv, hv, hagree.gain, hagree.image⟩
  · have hne : entry.tag ≠ Apple.hdrHeadroom := by
      rw [htag]
      decide
    rw [if_neg hne, if_pos htag] at h ⊢
    obtain ⟨gain, hv, h⟩ := Option.bind_eq_some_iff.mp h
    obtain rfl := Option.some.inj h
    rw [hv]
    exact ⟨kind_of_readRational hv, hagree.headroom, rfl, hagree.image⟩

/-- An image type is assigned alike, unless it is signed. -/
theorem assign_image {order : ByteOrder} {entry : MakerNoteEntry}
    {strict strict' tolerant : AppleHdrInfo F} (htag : entry.tag = Apple.hdrImageType)
    (h : assignStrict host floats order strict entry = some strict')
    (hagree : Agree host note strict tolerant) :
    ¬Widened entry.kind ∧ strict'.hdrHeadroom = strict.hdrHeadroom ∧
      strict'.hdrGain = strict.hdrGain ∧
      ((entry.kind = 6 ∨ entry.kind = 8 → SignedImageType host note) →
        Agree host note strict' (assign host floats order tolerant entry)) := by
  have h₁ : entry.tag ≠ Apple.hdrHeadroom := by
    rw [htag]
    decide
  have h₂ : entry.tag ≠ Apple.hdrGain := by
    rw [htag]
    decide
  unfold assignStrict at h
  rw [if_neg h₁, if_neg h₂] at h
  obtain ⟨image, hv, h⟩ := Option.bind_eq_some_iff.mp h
  obtain rfl := Option.some.inj h
  have hkind := kind_of_readInt hv
  refine ⟨by unfold Widened; omega, rfl, rfl, fun hsigned => ?_⟩
  unfold assign
  rw [if_neg h₁, if_neg h₂]
  refine ⟨hagree.headroom, hagree.gain, fun hnot _ => ?_⟩
  have h6 : entry.kind ≠ 6 := fun h => hnot (hsigned (Or.inl h))
  have h8 : entry.kind ≠ 8 := fun h => hnot (hsigned (Or.inr h))
  simp only [h6, h8, if_false]
  exact hv

/-- **Where the strict loop comes to a result, the compatible one does, and they agree.** -/
theorem collect_refines (hlen : note.data.length ≤ host.usizeMax) {order : ByteOrder}
    {info : AppleHdrInfo F} : ∀ (l : List ℕ), (∀ i ∈ l, i < note.count) →
      ∀ (strict tolerant : AppleHdrInfo F) (seen seen' : List ℕ),
        Agree host note strict tolerant →
        collect host .strict floats order strict seen (l.map (note.entryAt host .strict)) =
          some info →
        ∃ info', collect host .compatibility floats order tolerant seen'
            (l.map (note.entryAt host .compatibility)) = some info' ∧ Agree host note info info'
  | [], _, strict, tolerant, _, _, hagree, h => by
    obtain rfl : strict = info := Option.some.inj h
    exact ⟨tolerant, rfl, hagree⟩
  | i :: l, hl, strict, tolerant, seen, seen', hagree, h => by
    have hrest := @collect_refines hlen order info l
      fun j hj => hl j (List.mem_cons_of_mem _ hj)
    rw [List.map_cons] at h ⊢
    cases hread : note.readEntry host .strict (note.entries + i * 12) with
    | none =>
      -- the strict reader gives up at an entry it cannot read
      obtain ⟨err, herr⟩ := entryAt_of_none hread
      rw [herr, collect, if_neg (by simp)] at h
      cases h
    | some entry =>
      have hentry := readStrict hlen hread
      rw [entryAt_of_some hread, collect] at h
      cases hr : renders entry.tag with
      | false =>
        rw [hr, Bool.not_false, if_pos rfl] at h
        obtain ⟨info', hinfo', hagree'⟩ := hrest strict tolerant seen seen' hagree h
        refine ⟨info', ?_, hagree'⟩
        cases hcompat : note.readEntry host .compatibility (note.entries + i * 12) with
        | none =>
          obtain ⟨err, herr⟩ := entryAt_of_none hcompat
          rw [herr, collect, if_pos rfl, hinfo']
        | some other =>
          rw [entryAt_of_some hcompat, collect, tag_of_compatibility hlen hentry hcompat, hr,
            Bool.not_false, if_pos rfl, hinfo']
      | true =>
        rw [hr, Bool.not_true, if_neg Bool.false_ne_true, if_neg (by simp)] at h
        split at h
        · cases h
        next honce =>
        have hcount : entry.count = 1 := not_not.mp (not_or.mp honce).2
        obtain ⟨strict', hstrict', h⟩ := Option.bind_eq_some_iff.mp h
        by_cases himage : entry.tag = Apple.hdrImageType
        · obtain ⟨hkind, hheadroom, hgain, hassign⟩ := assign_image himage hstrict' hagree
          have hi := hl i List.mem_cons_self
          by_cases hwhole : note.entries + i * 12 + 12 ≤ note.data.length
          · have hcompat := readEntry_of_strict hlen hentry hkind hwhole
            obtain ⟨info', hinfo', hagree'⟩ := hrest strict' _ _ seen'
              (hassign fun hsigned => ⟨i, hi, entry, hread, himage, hsigned⟩) h
            refine ⟨info', ?_, hagree'⟩
            rw [entryAt_of_some hcompat, collect, hr, Bool.not_true, if_neg Bool.false_ne_true,
              if_pos rfl, hinfo']
          · -- the compatible reader skips the image type that is cut off
            have hcut : CutImageType host note :=
              ⟨i, hi, entry, hread, himage, not_le.mp hwhole⟩
            have hskip : Agree host note strict' tolerant :=
              ⟨hagree.headroom.trans hheadroom.symm, hagree.gain.trans hgain.symm,
                fun _ hnot => absurd hcut hnot⟩
            obtain ⟨info', hinfo', hagree'⟩ := hrest strict' tolerant _ seen' hskip h
            have hfails : ∃ err, note.entryAt host .compatibility i = .error err :=
              entryAt_cut (not_le.mp hwhole)
            obtain ⟨err, herr⟩ := hfails
            refine ⟨info', ?_, hagree'⟩
            rw [herr, collect, if_pos rfl, hinfo']
        · have htag : entry.tag = Apple.hdrHeadroom ∨ entry.tag = Apple.hdrGain := by
            simpa [renders, himage] using hr
          obtain ⟨hkind, hassign⟩ := assign_fraction htag hstrict' hagree
          have hwhole := whole_of_fraction hentry hkind hcount
          have hordinary : ¬Widened entry.kind := by
            unfold Widened
            omega
          have hcompat := readEntry_of_strict hlen hentry hordinary hwhole
          obtain ⟨info', hinfo', hagree'⟩ := hrest strict' _ _ seen' hassign h
          refine ⟨info', ?_, hagree'⟩
          rw [entryAt_of_some hcompat, collect, hr, Bool.not_true, if_neg Bool.false_ne_true,
            if_pos rfl, hinfo']

end Loop

/-! ### Notes -/

/-- A note that the strict reader recognizes, the compatible one does, from 20 bytes on. -/
theorem parseWithMode_of_strict {maker : Bytes} {note : AppleMakerNote}
    (h : AppleMakerNote.parseWithMode host .strict maker = some note)
    (h20 : 20 ≤ maker.length) :
    AppleMakerNote.parseWithMode host .compatibility maker = some note := by
  unfold AppleMakerNote.parseWithMode at h ⊢
  rw [if_neg (fun h => absurd h.1 (by decide)), if_neg (fun h => absurd h.2 (not_lt.mpr h20))]
  split at h
  · cases h
  rw [if_neg (fun h => absurd h.1 (by decide))] at h
  obtain ⟨magic, hmagic, h⟩ := Option.bind_eq_some_iff.mp h
  rw [hmagic, Option.bind_eq_bind, Option.bind_some]
  split at h
  · cases h
  next happle =>
  obtain ⟨mark, hmark, h⟩ := Option.bind_eq_some_iff.mp h
  obtain ⟨order, horder, h⟩ := Option.bind_eq_some_iff.mp h
  obtain ⟨version, hversion, h⟩ := Option.bind_eq_some_iff.mp h
  obtain ⟨ifd, hifd, h⟩ := Option.bind_eq_some_iff.mp h
  obtain ⟨count, hcount, h⟩ := Option.bind_eq_some_iff.mp h
  split at h
  · cases h
  rw [if_neg happle, hmark]
  simp only [Option.bind_eq_bind, Option.bind_some, horder, hversion, hifd, hcount,
    reduceCtorEq, false_and, if_false]
  exact h

theorem data_of_parseWithMode {mode : Interpretation} {maker : Bytes} {note : AppleMakerNote}
    (h : AppleMakerNote.parseWithMode host mode maker = some note) : note.data = maker := by
  unfold AppleMakerNote.parseWithMode at h
  split at h
  · cases h
  split at h
  · cases h
  obtain ⟨magic, -, h⟩ := Option.bind_eq_some_iff.mp h
  split at h
  · cases h
  obtain ⟨mark, -, h⟩ := Option.bind_eq_some_iff.mp h
  obtain ⟨order, -, h⟩ := Option.bind_eq_some_iff.mp h
  obtain ⟨version, -, h⟩ := Option.bind_eq_some_iff.mp h
  obtain ⟨ifd, -, h⟩ := Option.bind_eq_some_iff.mp h
  obtain ⟨count, -, h⟩ := Option.bind_eq_some_iff.mp h
  split at h
  · cases h
  obtain ⟨entries, -, h⟩ := Option.bind_eq_some_iff.mp h
  obtain rfl := Option.some.inj h
  rfl

/-- What the compatible reader makes of a note that the strict one reads as `info`. -/
def Refines (host : Host) (maker : Bytes) (info : AppleHdrInfo F)
    (tolerant : Option (AppleHdrInfo F)) : Prop :=
  20 ≤ maker.length → ∃ note info',
    AppleMakerNote.parseWithMode host .strict maker = some note ∧
      tolerant = some info' ∧ Agree host note info info'

theorem makernote_refines {maker : Bytes} (hlen : maker.length ≤ host.usizeMax)
    {info : AppleHdrInfo F} (h : parseAppleMakernote host floats maker = some info) :
    Refines host maker info (Compatibility.parseAppleMakernote host floats maker) := by
  intro h20
  unfold parseAppleMakernote parseMakernoteWithMode at h
  obtain ⟨note, hnote, h⟩ := Option.bind_eq_some_iff.mp h
  have hdata := data_of_parseWithMode hnote
  rw [← hdata] at hlen
  have hstart : Agree host note (.default floats) (.default floats) :=
    ⟨rfl, rfl, fun _ _ => rfl⟩
  obtain ⟨info', hinfo', hagree⟩ := collect_refines hlen (List.range note.count)
    (fun i hi => List.mem_range.mp hi) _ _ [] [] hstart h
  refine ⟨note, info', hnote, ?_, hagree⟩
  rw [Compatibility.parseAppleMakernote, parseMakernoteWithMode,
    parseWithMode_of_strict hnote h20]
  exact hinfo'

/-! ### EXIF -/

/-- After a match, the strict search must not find another. -/
theorem ifdFindFrom_of_some {tiff : Bytes} {order : ByteOrder} {want : ℕ}
    {r found : ℕ × ℕ × Bytes} : ∀ {n e : ℕ},
      ifdFindFrom host .strict tiff order want n e (some r) = some found → found = r
  | 0, _, h => (Option.some.inj h).symm
  | n + 1, e, h => by
    rw [ifdFindFrom] at h
    split at h
    · cases h
    obtain ⟨tag, -, h⟩ := Option.bind_eq_some_iff.mp h
    split at h
    · exact ifdFindFrom_of_some h
    obtain ⟨value, -, h⟩ := Option.bind_eq_some_iff.mp h
    rw [if_neg (by simp), if_pos Option.isSome_some] at h
    cases h

theorem findValue_kind {tiff : Bytes} (hlen : tiff.length ≤ host.usizeMax) {order : ByteOrder}
    {e : ℕ} {found : ℕ × ℕ × Bytes} (h : findValue host .strict tiff order e = some found)
    (hkind : ¬Widened found.1) : findValue host .compatibility tiff order e = some found := by
  rw [findValue_eq hlen] at h ⊢
  obtain ⟨dtype, hdtype, h⟩ := Option.bind_eq_some_iff.mp h
  obtain ⟨n, hn, h⟩ := Option.bind_eq_some_iff.mp h
  obtain ⟨value, hvalue, h⟩ := Option.bind_eq_some_iff.mp h
  obtain rfl := Option.some.inj h
  rw [typeSize_of_not_widened hkind] at hvalue
  rw [hdtype, hn]
  simp only [Option.bind_eq_bind, Option.bind_some, typeSize_of_not_widened hkind, hvalue]
  rfl

/-- The only match of the strict search is the first of the compatible one. -/
theorem ifdFindFrom_of_strict {tiff : Bytes} (hlen : tiff.length ≤ host.usizeMax)
    {order : ByteOrder} {want : ℕ} {found : ℕ × ℕ × Bytes} (hkind : ¬Widened found.1) :
    ∀ {n e : ℕ}, ifdFindFrom host .strict tiff order want n e none = some found →
      ifdFindFrom host .compatibility tiff order want n e none = some found
  | n + 1, e, h => by
    rw [ifdFindFrom] at h ⊢
    split at h
    · cases h
    next hin =>
    rw [if_neg hin]
    obtain ⟨tag, htag, h⟩ := Option.bind_eq_some_iff.mp h
    rw [htag, Option.bind_eq_bind, Option.bind_some]
    split at h
    · next hne =>
      rw [if_pos hne]
      exact ifdFindFrom_of_strict hlen hkind h
    next heq =>
    rw [if_neg heq]
    obtain ⟨r, hr, h⟩ := Option.bind_eq_some_iff.mp h
    rw [if_neg (by simp), if_neg (by simp)] at h
    obtain rfl := ifdFindFrom_of_some h
    rw [findValue_kind hlen hr hkind]
    rfl

theorem ifdFind_of_strict {tiff : Bytes} (hlen : tiff.length ≤ host.usizeMax)
    {order : ByteOrder} {off want : ℕ} {found : ℕ × ℕ × Bytes} (hkind : ¬Widened found.1)
    (h : ifdFind host .strict tiff order off want = some found) :
    ifdFind host .compatibility tiff order off want = some found := by
  unfold ifdFind at h ⊢
  obtain ⟨count, hcount, h⟩ := Option.bind_eq_some_iff.mp h
  obtain ⟨entries, hentries, h⟩ := Option.bind_eq_some_iff.mp h
  rw [hcount, Option.bind_eq_bind, Option.bind_some, hentries, Option.bind_some]
  exact ifdFindFrom_of_strict hlen hkind h

/-- Both readers find the same maker note. -/
theorem findMakernote_of_strict {exif maker : Bytes} (hlen : exif.length ≤ host.usizeMax)
    (h : findMakernote host .strict exif = some maker) :
    findMakernote host .compatibility exif = some maker ∧
      maker.length ≤ host.usizeMax := by
  unfold findMakernote at h ⊢
  obtain ⟨⟨tiff, order⟩, hstart, h⟩ := Option.bind_eq_some_iff.mp h
  have htiff := (tiffStart_length hstart).trans hlen
  obtain ⟨ifd0Off, hoff, h⟩ := Option.bind_eq_some_iff.mp h
  obtain ⟨⟨kind, count, exifPtr⟩, hptr, h⟩ := Option.bind_eq_some_iff.mp h
  dsimp only at h
  split at h
  · cases h
  next hlong =>
  obtain ⟨exifIfdOff, hifd, h⟩ := Option.bind_eq_some_iff.mp h
  obtain ⟨⟨kind', count', maker'⟩, hnote, h⟩ := Option.bind_eq_some_iff.mp h
  dsimp only at h
  split at h
  · cases h
  next hundefined =>
  obtain rfl := Option.some.inj h
  -- a pointer is a LONG and a note is UNDEFINED, so both modes size them alike
  have hkind : ¬Widened kind := by
    have hk : kind = 4 := by
      by_contra hne
      exact hlong ⟨rfl, Or.inl hne⟩
    unfold Widened
    omega
  have hkind' : ¬Widened kind' := by
    have hk : kind' = 7 := by
      by_contra hne
      exact hundefined ⟨rfl, hne⟩
    unfold Widened
    omega
  have hptr' := ifdFind_of_strict htiff hkind hptr
  have hnote' := ifdFind_of_strict htiff hkind' hnote
  constructor
  · rw [hstart]
    simp only [Option.bind_eq_bind, Option.bind_some, hoff, hptr', hifd, hnote', reduceCtorEq,
      false_and, if_false]
  · rw [ifdFind_eq htiff] at hnote'
    exact (ifdFind_length hnote').trans htiff

/-- **Where the strict reader succeeds on a note of at least 20 bytes, the compatible one
does and agrees, but for an image type in a signed field or in an entry that is cut off;
and the two find the same note in an EXIF blob.** -/
theorem strict_refines (host : Host) (floats : Floats F) (data : Bytes)
    (hlen : data.length ≤ host.usizeMax) (info : AppleHdrInfo F) :
    (parseAppleMakernote host floats data = some info →
      Refines host data info (Compatibility.parseAppleMakernote host floats data)) ∧
    (parseExifForAppleHdr host floats data = some info →
      ∃ maker, findMakernote host .strict data = some maker ∧
        findMakernote host .compatibility data = some maker ∧
        Refines host maker info (Compatibility.parseExifForAppleHdr host floats data)) := by
  refine ⟨makernote_refines hlen, fun h => ?_⟩
  obtain ⟨maker, hmaker, h⟩ := Option.bind_eq_some_iff.mp h
  obtain ⟨hcompat, hmakerLen⟩ := findMakernote_of_strict hlen hmaker
  refine ⟨maker, hmaker, hcompat, ?_⟩
  have hparse : Compatibility.parseExifForAppleHdr host floats data =
      Compatibility.parseAppleMakernote host floats maker := by
    unfold Compatibility.parseExifForAppleHdr parseExifWithMode
    rw [hcompat]
    rfl
  rw [hparse]
  exact makernote_refines hmakerLen h

/-- A big-endian blob whose first directory leads to one that holds the note. -/
def iphoneExif : Bytes :=
  [0x4D, 0x4D, 0, 0x2A, 0, 0, 0, 8,
    0, 1, 0x87, 0x69, 0, 4, 0, 0, 0, 1, 0, 0, 0, 26, 0, 0, 0, 0,
    0, 1, 0x92, 0x7C, 0, 7, 0, 0, 0, 48, 0, 0, 0, 44, 0, 0, 0, 0] ++ iphoneNote

theorem strict_refines_iphone :
    (∃ note info',
      AppleMakerNote.parseWithMode host64 .strict iphoneNote = some note ∧
        Compatibility.parseAppleMakernote host64 pairs iphoneNote = some info' ∧
        Agree host64 note iphoneInfo info') ∧
    (∃ maker, findMakernote host64 .strict iphoneExif = some maker ∧
      findMakernote host64 .compatibility iphoneExif = some maker ∧
      Refines host64 maker iphoneInfo
        (Compatibility.parseExifForAppleHdr host64 pairs iphoneExif)) :=
  ⟨(strict_refines host64 pairs iphoneNote (by decide) iphoneInfo).1 (by decide +kernel)
      (by decide),
    (strict_refines host64 pairs iphoneExif (by decide) iphoneInfo).2 (by decide +kernel)⟩

/-- A note of 16 bytes, with an empty directory. -/
def emptyNote : Bytes := appleIos ++ [0, 14, 0x4D, 0x4D, 0, 0]

/-- A note whose only entry, an image type of two bytes, ends two bytes early. -/
def cutNote : Bytes :=
  appleIos ++ [0, 14, 0x4D, 0x4D, 0, 1, 0x00, 0x0A, 0, 3, 0, 0, 0, 1, 0, 3]

/-- The strict reader accepts a note that the compatible one refuses, and returns an unsigned
image type that the compatible one does not. -/
theorem strict_accepts_more :
    (parseAppleMakernote host64 pairs emptyNote = some (.default pairs) ∧
      Compatibility.parseAppleMakernote host64 pairs emptyNote = none) ∧
    ((parseAppleMakernote host64 pairs cutNote).map AppleHdrInfo.hdrImageType = some (some 3) ∧
      (Compatibility.parseAppleMakernote host64 pairs cutNote).map AppleHdrInfo.hdrImageType =
        some none) := by
  decide +kernel

end Zencodec.Apple
