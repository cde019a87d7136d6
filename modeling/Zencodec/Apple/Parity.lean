/-
The compatible reader of Apple notes is the released one.

Two readers are compared on every byte string: the new one reads the whole note
from its start and checks its sums, the released one reads the directory from the
byte-order marker on and leaves its loop at the first entry that is cut off.

* `readEntry_compatibility` — one entry is read alike;
* `collect_scan` — the two loops give the same result, by induction on the entries
  left: after an entry that is cut off all others are cut off too;
* `compatibility_eq_released` — the published operations agree.
-/
import Zencodec.Apple.Released

namespace Zencodec.Apple

open Slices

/-! ### Reads within the host's range -/

theorem slice_eq_none {d : Bytes} {a b : ℕ} (h : d.length < b) : slice d a b = none := by
  rw [slice, if_neg (by omega)]

theorem slice_drop {d : Bytes} {k a b : ℕ} (hk : k ≤ d.length) :
    slice (d.drop k) a b = slice d (k + a) (k + b) := by
  unfold slice
  rw [List.length_drop, List.drop_drop, Nat.add_sub_add_left]
  by_cases h : a ≤ b ∧ b ≤ d.length - k
  · rw [if_pos h, if_pos (by omega)]
  · rw [if_neg h, if_neg (by omega)]

theorem length_le_of_slice {d s : Bytes} {a b : ℕ} (h : slice d a b = some s) :
    s.length ≤ d.length := by
  obtain ⟨-, hb, -⟩ := slice_eq_some.mp h
  have hlen := slice_length h
  omega

section Host

variable {host : Host} {b : Bytes}

/-- A checked sum that ends a slice can be taken unchecked. -/
theorem checkedAdd_slice (hb : b.length ≤ host.usizeMax) (a n : ℕ) :
    ((host.checkedAdd a n).bind fun z => slice b a z) = slice b a (a + n) := by
  unfold Host.checkedAdd
  split
  · rfl
  · exact (slice_eq_none (by omega)).symm

theorem u16_eq (hb : b.length ≤ host.usizeMax) (order : ByteOrder) (o : ℕ) :
    host.u16 order b o = Released.u16 order b o := by
  rw [Released.u16, ← checkedAdd_slice hb, Host.u16]
  cases host.checkedAdd o 2 with
  | none => rfl
  | some z => cases hs : slice b o z <;> simp [hs]

theorem u32_eq (hb : b.length ≤ host.usizeMax) (order : ByteOrder) (o : ℕ) :
    host.u32 order b o = Released.u32 order b o := by
  rw [Released.u32, ← checkedAdd_slice hb, Host.u32]
  cases host.checkedAdd o 4 with
  | none => rfl
  | some z => cases hs : slice b o z <;> simp [hs]

theorem readRational_eq {F : Type} (floats : Floats F) (hb : b.length ≤ host.usizeMax)
    (dtype : ℕ) (order : ByteOrder) :
    readRational host floats b dtype order = Released.readRational floats b dtype order := by
  rw [readRational, Released.readRational]
  simp only [u32_eq hb]

/-- The compatible reader takes signed fields of one and two bytes as unsigned. -/
theorem readInt_eq (hb : b.length ≤ host.usizeMax) (dtype : ℕ) (order : ByteOrder) :
    readInt host b (if dtype = 6 then 1 else if dtype = 8 then 3 else dtype) order =
      Released.readInt b dtype order := by
  unfold readInt Released.readInt
  simp only [u16_eq hb, u32_eq hb]
  by_cases h6 : dtype = 6
  · simp [h6]
  by_cases h8 : dtype = 8
  · simp [h8]
  · simp only [h6, h8, if_false, or_false]

end Host

theorem typeSize_compatibility (kind : ℕ) :
    Interpretation.compatibility.typeSize kind = Released.typeSize kind := by
  unfold Interpretation.typeSize Apple.typeSize Released.typeSize
  by_cases h13 : kind = 13
  · subst h13
    rfl
  by_cases hbig : 16 ≤ kind ∧ kind ≤ 18
  · have h : kind = 16 ∨ kind = 17 ∨ kind = 18 := by omega
    rcases h with rfl | rfl | rfl <;> rfl
  · simp only [h13, hbig, or_false, and_false, if_false]

/-! ### One entry -/

/-- Where a value of `total` bytes is taken from: the entry's own cell at `cell`, or the
offset stored there, relative to `base`. -/
def valueAt (order : ByteOrder) (base dir : Bytes) (cell total : ℕ) : Option Bytes :=
  if total ≤ 4 then slice dir cell (cell + total)
  else (Released.u32 order dir cell).bind fun off => slice base off (off + total)

variable {host : Host} {F : Type}

/-- A product beyond the host's range is beyond the data too. -/
theorem checkedMul_valueAt {data : Bytes} (hlen : data.length ≤ host.usizeMax)
    (order : ByteOrder) (cell size count : ℕ) :
    ((host.checkedMul size count).bind fun total => valueAt order data data cell total) =
      valueAt order data data cell (size * count) := by
  unfold Host.checkedMul
  split
  · rfl
  · next h =>
    have hu := host.u32_le
    rw [valueAt, if_neg (by omega)]
    cases hoff : Released.u32 order data cell with
    | none => rfl
    | some off => exact (slice_eq_none (by omega)).symm

theorem entryValue_eq (maker tiff : Bytes) (order : ByteOrder) (e : ℕ) :
    Released.entryValue maker tiff order e = do
      let dtype ← Released.u16 order tiff (e + 2)
      let n ← Released.u32 order tiff (e + 4)
      let value ← valueAt order maker tiff (e + 8) (Released.typeSize dtype * n)
      return (dtype, value) := by
  unfold Released.entryValue valueAt
  refine bind_congr fun dtype => bind_congr fun n => ?_
  dsimp only
  split
  · next h => rw [Nat.min_eq_left h]
  · rfl

theorem u16_drop {data : Bytes} (h : 12 ≤ data.length) (order : ByteOrder) (o : ℕ) :
    Released.u16 order (data.drop 12) o = Released.u16 order data (12 + o) := by
  rw [Released.u16, Released.u16, slice_drop h, Nat.add_assoc]

theorem u32_drop {data : Bytes} (h : 12 ≤ data.length) (order : ByteOrder) (o : ℕ) :
    Released.u32 order (data.drop 12) o = Released.u32 order data (12 + o) := by
  rw [Released.u32, Released.u32, slice_drop h, Nat.add_assoc]

theorem valueAt_drop {data : Bytes} (h : 12 ≤ data.length) (order : ByteOrder)
    (cell total : ℕ) :
    valueAt order data (data.drop 12) cell total = valueAt order data data (12 + cell) total := by
  rw [valueAt, valueAt, slice_drop h, u32_drop h, Nat.add_assoc]

theorem u16_isSome {b : Bytes} {o : ℕ} (h : o + 2 ≤ b.length) (order : ByteOrder) :
    ∃ v, Released.u16 order b o = some v := by
  refine ⟨wordValue order ((b.drop o).take 2), ?_⟩
  rw [Released.u16, slice, if_pos (by omega), Nat.add_sub_cancel_left]
  rfl

theorem u32_isSome {b : Bytes} {o : ℕ} (h : o + 4 ≤ b.length) (order : ByteOrder) :
    ∃ v, Released.u32 order b o = some v := by
  refine ⟨wordValue order ((b.drop o).take 4), ?_⟩
  rw [Released.u32, slice, if_pos (by omega), Nat.add_sub_cancel_left]
  rfl

/-- The value that the new reader takes, with its checked sums. -/
theorem startValue_eq {data : Bytes} (hlen : data.length ≤ host.usizeMax) (order : ByteOrder)
    (cell size : ℕ) :
    (do
      let start ← (if size ≤ 4 then some cell else host.u32 order data cell)
      let stop ← host.checkedAdd start size
      slice data start stop) = valueAt order data data cell size := by
  unfold valueAt
  split
  · exact checkedAdd_slice hlen cell size
  · rw [u32_eq hlen]
    exact bind_congr fun off => checkedAdd_slice hlen off size

section Entry

variable {note : AppleMakerNote}

/-- An entry read, with its sums unchecked. -/
theorem readEntry_eq (hlen : note.data.length ≤ host.usizeMax) (mode : Interpretation)
    (offset : ℕ) : note.readEntry host mode offset = do
      let _ ← (if mode = .compatibility then slice note.data offset (offset + 12) else some [])
      let tag ← Released.u16 note.order note.data offset
      let kind ← Released.u16 note.order note.data (offset + 2)
      let count ← Released.u32 note.order note.data (offset + 4)
      if mode = .strict ∧ ¬(1 ≤ kind ∧ kind ≤ 13) ∧ ¬(16 ≤ kind ∧ kind ≤ 18) then none
      else
        let value ← valueAt note.order note.data note.data (offset + 8) (mode.typeSize kind * count)
        return { tag, kind, count, value } := by
  unfold AppleMakerNote.readEntry
  simp only [u16_eq hlen]
  refine bind_congr fun _ => bind_congr fun tag => bind_congr fun kind => ?_
  rw [u32_eq hlen]
  refine bind_congr fun count => ?_
  split
  · rfl
  rw [← checkedMul_valueAt hlen]
  simp only [← startValue_eq hlen, Option.bind_eq_bind, Option.bind_assoc]

/-- An entry that the note cuts off is skipped. -/
theorem readEntry_cut {offset : ℕ} (h : note.data.length < offset + 12) :
    note.readEntry host .compatibility offset = none := by
  rw [AppleMakerNote.readEntry, if_pos rfl, slice_eq_none h]
  rfl

/-- A whole entry is read as the released reader does. -/
theorem readEntry_compatibility (hlen : note.data.length ≤ host.usizeMax) {e : ℕ}
    (h : e + 12 ≤ (note.data.drop 12).length) :
    ∃ tag count, Released.u16 note.order (note.data.drop 12) e = some tag ∧
      note.readEntry host .compatibility (12 + e) =
        (Released.entryValue note.data (note.data.drop 12) note.order e).map fun v =>
          ⟨tag, v.1, count, v.2⟩ := by
  rw [List.length_drop] at h
  have h12 : 12 ≤ note.data.length := by omega
  obtain ⟨tag, htag⟩ := u16_isSome (o := 12 + e) (show _ ≤ note.data.length by omega) note.order
  obtain ⟨kind, hkind⟩ :=
    u16_isSome (o := 12 + (e + 2)) (show _ ≤ note.data.length by omega) note.order
  obtain ⟨count, hcount⟩ :=
    u32_isSome (o := 12 + (e + 4)) (show _ ≤ note.data.length by omega) note.order
  have hcell : ∃ s, slice note.data (12 + e) (12 + (e + 12)) = some s := by
    rw [slice, if_pos (by omega)]
    exact ⟨_, rfl⟩
  obtain ⟨cell, hcell⟩ := hcell
  refine ⟨tag, count, by rw [u16_drop h12, htag], ?_⟩
  -- both readers come to the same value, behind the same three numbers
  rw [entryValue_eq, u16_drop h12, u32_drop h12, hkind, hcount, readEntry_eq hlen, if_pos rfl,
    Nat.add_assoc, hcell, htag, Nat.add_assoc, hkind, Nat.add_assoc, hcount]
  simp only [Option.bind_eq_bind, Option.bind_some, valueAt_drop h12, typeSize_compatibility,
    reduceCtorEq, false_and, if_false]
  cases valueAt note.order note.data note.data (12 + (e + 8)) (Released.typeSize kind * count) <;>
    rfl

end Entry

/-! ### The loop over the entries -/

theorem valueAt_length {order : ByteOrder} {base dir : Bytes} {cell total : ℕ} {v : Bytes}
    (hdir : dir.length ≤ base.length) (h : valueAt order base dir cell total = some v) :
    v.length ≤ base.length := by
  unfold valueAt at h
  split at h
  · exact (length_le_of_slice h).trans hdir
  · obtain ⟨off, -, hoff⟩ := Option.bind_eq_some_iff.mp h
    exact length_le_of_slice hoff

theorem entryValue_length {maker : Bytes} {order : ByteOrder} {e : ℕ} {v : ℕ × Bytes}
    (h : Released.entryValue maker (maker.drop 12) order e = some v) :
    v.2.length ≤ maker.length := by
  rw [entryValue_eq] at h
  obtain ⟨dtype, -, h⟩ := Option.bind_eq_some_iff.mp h
  obtain ⟨n, -, h⟩ := Option.bind_eq_some_iff.mp h
  obtain ⟨value, hv, h⟩ := Option.bind_eq_some_iff.mp h
  obtain rfl := Option.some.inj h
  refine valueAt_length ?_ hv
  rw [List.length_drop]
  omega

theorem not_renders {tag : ℕ} : renders tag = false ↔
    tag ≠ Apple.hdrHeadroom ∧ tag ≠ Apple.hdrGain ∧ tag ≠ Apple.hdrImageType := by
  simp only [renders, Bool.or_eq_false_iff, decide_eq_false_iff_not, and_assoc, ne_eq]

section Loop

variable {floats : Floats F} {order : ByteOrder}

theorem assign_eq {entry : MakerNoteEntry} (hlen : entry.value.length ≤ host.usizeMax)
    (hr : renders entry.tag = true) (info : AppleHdrInfo F) :
    assign host floats order info entry =
      Released.assign floats order info entry.tag entry.kind entry.value := by
  unfold assign Released.assign
  rw [readRational_eq floats hlen]
  dsimp only
  rw [readInt_eq hlen]
  split
  · rfl
  · next h₁ =>
    split
    · rfl
    · next h₂ =>
      have himage : entry.tag = Apple.hdrImageType := by
        by_contra h₃
        rw [not_renders.mpr ⟨h₁, h₂, h₃⟩] at hr
        cases hr
      rw [if_pos himage]

/-- Unreadable entries are skipped. -/
theorem collect_errors {info : AppleHdrInfo F} {seen : List ℕ} :
    ∀ {l : List (Except MakerNoteEntryError MakerNoteEntry)}, (∀ x ∈ l, ∃ err, x = .error err) →
      collect host .compatibility floats order info seen l = some info
  | [], _ => rfl
  | x :: l, h => by
    obtain ⟨err, rfl⟩ := h x List.mem_cons_self
    rw [collect, if_pos rfl]
    exact collect_errors fun y hy => h y (List.mem_cons_of_mem _ hy)

theorem entryAt_cut {note : AppleMakerNote} {i : ℕ}
    (h : note.data.length < note.entries + i * 12 + 12) :
    ∃ err, note.entryAt host .compatibility i = .error err := by
  unfold AppleMakerNote.entryAt
  dsimp only
  rw [readEntry_cut h]
  exact ⟨_, rfl⟩

/-- **The two loops give the same result**, from any entry on. -/
theorem collect_scan {note : AppleMakerNote} (hlen : note.data.length ≤ host.usizeMax)
    (h12 : 12 ≤ note.data.length) : ∀ (n i e : ℕ) (info : AppleHdrInfo F) (seen : List ℕ),
      12 + e = note.entries + i * 12 →
      collect host .compatibility floats note.order info seen
          ((List.range' i n).map (note.entryAt host .compatibility)) =
        some (Released.scan floats note.data (note.data.drop 12) note.order n e info)
  | 0, _, _, _, _, _ => rfl
  | n + 1, i, e, info, seen, he => by
    have hrest := fun info => collect_scan hlen h12 n (i + 1) (e + 12) info seen (by omega)
    rw [Released.scan]
    by_cases hcut : e + 12 > (note.data.drop 12).length
    · -- this entry is cut off, and so are all that follow
      rw [if_pos hcut]
      rw [List.length_drop] at hcut
      refine collect_errors fun x hx => ?_
      obtain ⟨j, hj, rfl⟩ := List.mem_map.mp hx
      have hij := (List.mem_range'_1.mp hj).1
      have hmul : i * 12 ≤ j * 12 := Nat.mul_le_mul_right 12 hij
      exact entryAt_cut (by omega)
    · obtain ⟨tag, count, htag, hread⟩ := readEntry_compatibility hlen (not_lt.mp hcut)
      rw [if_neg hcut, htag, List.range'_succ, List.map_cons, AppleMakerNote.entryAt, ← he, hread]
      cases hv : Released.entryValue note.data (note.data.drop 12) note.order e with
      | none =>
        -- an unreadable entry: both go on, whatever its tag
        rw [Option.map_none, collect, if_pos rfl, hrest]
        dsimp only
        split <;> rfl
      | some v =>
        rw [Option.map_some, collect]
        cases hr : renders tag with
        | false =>
          simp only [not_renders.mp hr, ne_eq, not_false_eq_true, and_self, if_true, Bool.not_false]
          exact hrest info
        | true =>
          have hnot : ¬(tag ≠ Apple.hdrHeadroom ∧ tag ≠ Apple.hdrGain ∧
              tag ≠ Apple.hdrImageType) := fun h => by
            rw [not_renders.mpr h] at hr
            cases hr
          have hvalue := (entryValue_length hv).trans hlen
          simp only [hnot, if_false, Bool.not_true, Bool.false_eq_true, if_true]
          rw [assign_eq hvalue hr]
          exact hrest _

end Loop

/-! ### The note -/

theorem lt_of_u16 {order : ByteOrder} {b : Bytes} {o v : ℕ}
    (h : Released.u16 order b o = some v) : o + 2 ≤ b.length := by
  obtain ⟨s, hs, -⟩ := Option.map_eq_some_iff.mp h
  exact (slice_eq_some.mp hs).2.1

theorem orderOf_slice {data : Bytes} (h : 14 ≤ data.length) :
    slice data 12 14 = some [data.getD 12 0, data.getD 13 0] := by
  rw [slice_eq_some]
  refine ⟨by omega, h, ?_⟩
  rw [List.drop_eq_getElem_cons (by omega : 12 < data.length),
    List.drop_eq_getElem_cons (by omega : 13 < data.length),
    List.getD_eq_getElem _ _ (by omega), List.getD_eq_getElem _ _ (by omega)]
  rfl

/-- The offset of the directory, as one checked sum from the note's start or as one from the
byte-order marker. -/
theorem directory_eq {data : Bytes} (hlen : data.length ≤ host.usizeMax)
    (h12 : 12 ≤ data.length) (order : ByteOrder) (ifdOff : ℕ) :
    (host.checkedAdd 12 ifdOff).bind (fun ifd => (host.u16 order data ifd).bind fun count =>
        if Interpretation.compatibility = .strict ∧ count > 4096 then none
        else (host.checkedAdd ifd 2).bind fun entries =>
          some (AppleMakerNote.mk data order entries count)) =
      (Released.u16 order (data.drop 12) ifdOff).bind fun count =>
        some (AppleMakerNote.mk data order (12 + (ifdOff + 2)) count) := by
  rw [u16_drop h12]
  by_cases hfit : 12 + ifdOff ≤ host.usizeMax
  · rw [Host.checkedAdd, if_pos hfit, Option.bind_some, u16_eq hlen]
    cases hcount : Released.u16 order data (12 + ifdOff) with
    | none => rfl
    | some count =>
      have hle := (lt_of_u16 hcount).trans hlen
      rw [Option.bind_some, if_neg (by simp), Host.checkedAdd, if_pos hle]
      rfl
  · -- a sum beyond the host's range is beyond the note
    have hnone : Released.u16 order data (12 + ifdOff) = none := by
      rw [Released.u16, slice_eq_none (by omega)]
      rfl
    rw [Host.checkedAdd, if_neg hfit, hnone]
    rfl

/-- The directory of a note, in the released reader's terms. -/
theorem parseWithMode_compatibility {data : Bytes} (hlen : data.length ≤ host.usizeMax) :
    AppleMakerNote.parseWithMode host .compatibility data =
      if data.length < 20 ∨ data.take 10 ≠ appleIos then none
      else do
        let order ← orderOf [data.getD 12 0, data.getD 13 0]
        let magic ← Released.u16 order (data.drop 12) 2
        let ifdOff ← (if magic = 42 then Released.u32 order (data.drop 12) 4 else some 2)
        let count ← Released.u16 order (data.drop 12) ifdOff
        return { data, order, entries := 12 + (ifdOff + 2), count } := by
  rw [AppleMakerNote.parseWithMode, if_neg (by simp)]
  by_cases hshort : data.length < 20
  · rw [if_pos ⟨rfl, hshort⟩, if_pos (Or.inl hshort)]
  have h12 : 12 ≤ data.length := by omega
  have hmagic : slice data 0 10 = some (data.take 10) := by
    rw [slice_eq_some]
    exact ⟨by omega, by omega, rfl⟩
  rw [if_neg (fun h => hshort h.2), hmagic, Option.bind_eq_bind, Option.bind_some]
  by_cases happle : data.take 10 = appleIos
  swap
  · rw [if_pos happle, if_pos (Or.inr happle)]
  rw [if_neg (not_not.mpr happle), if_neg (not_or.mpr ⟨hshort, not_not.mpr happle⟩),
    orderOf_slice (by omega), Option.bind_some]
  refine bind_congr fun order => ?_
  rw [u16_eq hlen, u16_drop h12]
  refine bind_congr fun magic => ?_
  have hcount := fun ifdOff => directory_eq hlen h12 order ifdOff
  by_cases hstandard : magic = 42
  · rw [if_pos hstandard, if_pos hstandard, u32_eq hlen, u32_drop h12]
    cases hoff : Released.u32 order data (12 + 4) with
    | none => rfl
    | some ifdOff => exact hcount ifdOff
  · have h14 : host.checkedAdd 12 2 = some 14 := by
      have hu := host.u32_le
      rw [Host.checkedAdd, if_pos (by omega)]
    have hcustom := hcount 2
    rw [h14] at hcustom
    rw [if_neg hstandard, if_neg hstandard]
    exact hcustom

theorem parseMakernote_compatibility (floats : Floats F) {maker : Bytes}
    (hlen : maker.length ≤ host.usizeMax) :
    parseMakernoteWithMode host .compatibility floats maker =
      Released.parseAppleMakernote floats maker := by
  rw [parseMakernoteWithMode, parseWithMode_compatibility hlen, Released.parseAppleMakernote]
  by_cases hshort : maker.length < 20 ∨ maker.take 10 ≠ appleIos
  · rw [if_pos hshort, if_pos hshort]
    rfl
  have h12 : 12 ≤ maker.length := by
    have h20 := not_lt.mp (not_or.mp hshort).1
    omega
  rw [if_neg hshort, if_neg hshort]
  simp only [Option.bind_eq_bind, Option.bind_assoc, Option.pure_def]
  refine Option.bind_congr fun order _ => Option.bind_congr fun magic _ =>
    Option.bind_congr fun ifdOff _ => Option.bind_congr fun count _ => ?_
  have hloop := @collect_scan host _ floats ⟨maker, order, 12 + (ifdOff + 2), count⟩
    hlen h12 count 0 (ifdOff + 2) (.default floats) [] (by simp)
  rw [← List.range_eq_range'] at hloop
  exact hloop

/-! ### EXIF -/

theorem findValue_eq {tiff : Bytes} (hlen : tiff.length ≤ host.usizeMax) (order : ByteOrder)
    (e : ℕ) (mode : Interpretation) : findValue host mode tiff order e = do
      let dtype ← Released.u16 order tiff (e + 2)
      let n ← Released.u32 order tiff (e + 4)
      let value ← valueAt order tiff tiff (e + 8) (mode.typeSize dtype * n)
      return (dtype, n, value) := by
  unfold findValue
  rw [u16_eq hlen]
  refine bind_congr fun dtype => ?_
  rw [u32_eq hlen]
  refine bind_congr fun n => ?_
  rw [← checkedMul_valueAt hlen]
  simp only [Option.bind_eq_bind, Option.bind_assoc]
  refine Option.bind_congr fun total _ => ?_
  unfold valueAt
  split
  · next h => rw [Nat.min_eq_left h]
  · rw [u32_eq hlen]
    simp only [checkedAdd_slice hlen]

theorem ifdFindFrom_eq {tiff : Bytes} (hlen : tiff.length ≤ host.usizeMax) (order : ByteOrder)
    (want : ℕ) : ∀ n e, ifdFindFrom host .compatibility tiff order want n e none =
      Released.ifdFindFrom tiff order want n e
  | 0, _ => rfl
  | n + 1, e => by
    rw [ifdFindFrom, Released.ifdFindFrom]
    split
    · rfl
    rw [u16_eq hlen]
    refine bind_congr fun tag => ?_
    split
    · exact ifdFindFrom_eq hlen order want n (e + 12)
    · rw [findValue_eq hlen]
      simp only [typeSize_compatibility, Option.bind_eq_bind, Option.bind_assoc, if_true]
      refine Option.bind_congr fun dtype _ => Option.bind_congr fun n _ => ?_
      unfold valueAt
      split
      · next h => rw [Nat.min_eq_left h]; rfl
      · rfl

theorem ifdFind_eq {tiff : Bytes} (hlen : tiff.length ≤ host.usizeMax) (order : ByteOrder)
    (ifdOff want : ℕ) : ifdFind host .compatibility tiff order ifdOff want =
      Released.ifdFind tiff order ifdOff want := by
  unfold ifdFind Released.ifdFind
  rw [u16_eq hlen]
  refine Option.bind_congr fun count hcount => ?_
  have hle := (lt_of_u16 hcount).trans hlen
  rw [Host.checkedAdd, if_pos hle, Option.bind_eq_bind, Option.bind_some]
  exact ifdFindFrom_eq hlen order want count (ifdOff + 2)

theorem tiffStart_length {exif tiff : Bytes} {order : ByteOrder}
    (h : tiffStart exif = some (tiff, order)) : tiff.length ≤ exif.length := by
  obtain ⟨base, -, hbase⟩ := List.exists_of_findSome?_eq_some h
  have hdrop : tiff = exif.drop base := by
    split at hbase
    · split at hbase
      · exact (congrArg Prod.fst (Option.some.inj hbase)).symm
      · split at hbase
        · exact (congrArg Prod.fst (Option.some.inj hbase)).symm
        · cases hbase
    · cases hbase
  rw [hdrop, List.length_drop]
  exact Nat.sub_le _ _

theorem ifdFindFrom_length {tiff : Bytes} {order : ByteOrder} {want : ℕ} : ∀ {n e : ℕ}
    {found : ℕ × ℕ × Bytes}, Released.ifdFindFrom tiff order want n e = some found →
      found.2.2.length ≤ tiff.length
  | n + 1, e, found, h => by
    rw [Released.ifdFindFrom] at h
    split at h
    · cases h
    obtain ⟨tag, -, h⟩ := Option.bind_eq_some_iff.mp h
    split at h
    · exact ifdFindFrom_length h
    obtain ⟨dtype, -, h⟩ := Option.bind_eq_some_iff.mp h
    obtain ⟨count, -, h⟩ := Option.bind_eq_some_iff.mp h
    obtain ⟨value, hv, h⟩ := Option.bind_eq_some_iff.mp h
    obtain rfl := Option.some.inj h
    split at hv
    · exact length_le_of_slice hv
    · obtain ⟨off, -, hoff⟩ := Option.bind_eq_some_iff.mp hv
      exact length_le_of_slice hoff

theorem ifdFind_length {tiff : Bytes} {order : ByteOrder} {off want : ℕ}
    {found : ℕ × ℕ × Bytes} (h : Released.ifdFind tiff order off want = some found) :
    found.2.2.length ≤ tiff.length := by
  obtain ⟨count, -, h⟩ := Option.bind_eq_some_iff.mp h
  exact ifdFindFrom_length h

theorem parseExif_compatibility (floats : Floats F) {exif : Bytes}
    (hlen : exif.length ≤ host.usizeMax) :
    parseExifWithMode host .compatibility floats exif =
      Released.parseExifForAppleHdr floats exif := by
  unfold parseExifWithMode findMakernote Released.parseExifForAppleHdr
  simp only [Option.bind_eq_bind, Option.bind_assoc]
  refine Option.bind_congr fun start hstart => ?_
  obtain ⟨tiff, order⟩ := start
  have htiff := (tiffStart_length hstart).trans hlen
  dsimp only
  rw [u32_eq htiff]
  simp only [ifdFind_eq htiff]
  refine Option.bind_congr fun ifd0Off _ => Option.bind_congr fun pointer hpointer => ?_
  obtain ⟨kind, count, exifPtr⟩ := pointer
  have hptr : exifPtr.length ≤ host.usizeMax := (ifdFind_length hpointer).trans htiff
  simp only [reduceCtorEq, false_and, if_false]
  rw [u32_eq hptr]
  simp only [Option.bind_assoc]
  refine Option.bind_congr fun exifIfdOff _ => Option.bind_congr fun found hfound => ?_
  obtain ⟨kind', count', maker⟩ := found
  exact parseMakernote_compatibility floats ((ifdFind_length hfound).trans htiff)

/-- **The compatible operations return what the released ones return.** -/
theorem compatibility_eq_released (host : Host) (floats : Floats F) (data : Bytes)
    (hlen : data.length ≤ host.usizeMax) :
    Compatibility.parseAppleMakernote host floats data =
        Released.parseAppleMakernote floats data ∧
      Compatibility.parseExifForAppleHdr host floats data =
        Released.parseExifForAppleHdr floats data :=
  ⟨parseMakernote_compatibility floats hlen, parseExif_compatibility floats hlen⟩

/-- A 64-bit host. -/
def host64 : Host where
  usizeMax := 2 ^ 64 - 1
  u32_le := by decide

/-- Fractions that keep their two integers. -/
def pairs : Floats (ℤ × ℤ) where
  zero := (0, 1)
  divide num den := (num, den)

/-- A big-endian note with an HDR headroom of 1686/1000 and the image type 3. -/
def iphoneNote : Bytes :=
  appleIos ++ [0, 14, 0x4D, 0x4D, 0, 2,
    0x00, 0x0A, 0, 3, 0, 0, 0, 1, 0, 3, 0, 0,
    0x00, 0x21, 0, 10, 0, 0, 0, 1, 0, 0, 0, 40,
    0, 0, 0x06, 0x96, 0, 0, 0x03, 0xE8]

def iphoneInfo : AppleHdrInfo (ℤ × ℤ) where
  hdrHeadroom := some (1686, 1000)
  hdrGain := (0, 1)
  hdrImageType := some 3

example : Compatibility.parseAppleMakernote host64 pairs iphoneNote = some iphoneInfo := by
  decide +kernel

theorem compatibility_eq_released_iphone :
    Compatibility.parseAppleMakernote host64 pairs iphoneNote =
        Released.parseAppleMakernote pairs iphoneNote ∧
      Compatibility.parseExifForAppleHdr host64 pairs iphoneNote =
        Released.parseExifForAppleHdr pairs iphoneNote :=
  compatibility_eq_released host64 pairs iphoneNote (by decide)

end Zencodec.Apple
