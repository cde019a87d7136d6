/-
The layout of the file, as the reader finds it.

The trailer is accepted exactly where the file has a well-formed layout (`readTrailer_eq_some`),
and an object is found where the offset table says that it is (`Layout.object_eq`): the reader
sees the header and the object area, and no object starts in the header.
-/
import Zencodec.Bplist.Objects

open Slices

namespace Zencodec.Bplist

variable {Ω F : Type} {env : Env Ω F} {data : Bytes}

/-! ### Integers -/

theorem readUintBe_of_hasAt {d : Bytes} {o n v : ℕ} (hn : 1 ≤ n ∧ n ≤ 8) (hv : v < 256 ^ n)
    (h : HasAt d o (wordBytes .big n v)) : readUintBe d o n = some v := by
  rw [readUintBe, if_neg (by omega), h.slice (by rw [wordBytes_length]), Option.map_some,
    wordValue_wordBytes, Nat.mod_eq_of_lt hv]

theorem hasAt_of_readUintBe {d : Bytes} {o n v : ℕ} (h : readUintBe d o n = some v) :
    HasAt d o (wordBytes .big n v) := by
  unfold readUintBe at h
  split at h
  · cases h
  · obtain ⟨bs, hbs, rfl⟩ := Option.map_eq_some_iff.mp h
    have hlen := slice_length hbs
    rw [Nat.add_sub_cancel_left] at hlen
    rw [← hlen, wordBytes_wordValue]
    exact hasAt_of_slice hbs

theorem hasAt_singleton {d : Bytes} {o : ℕ} {b : UInt8} : HasAt d o [b] ↔ d[o]? = some b := by
  rw [hasAt_iff, List.length_singleton]
  constructor
  · rintro ⟨hlen, htake⟩
    have hhead := congrArg List.head? htake
    rw [List.head?_take, if_neg one_ne_zero, List.head?_drop] at hhead
    exact hhead
  · intro hb
    obtain ⟨hlt, rfl⟩ := List.getElem?_eq_some_iff.mp hb
    refine ⟨hlt, ?_⟩
    rw [List.drop_eq_getElem_cons hlt, List.take_succ_cons, List.take_zero]

/-! ### The parts of a layout -/

namespace Layout

variable {L : Layout}

/-- What the trailer tells the reader. -/
def ctx (L : Layout) : Ctx :=
  ⟨L.bytes, L.offsets.length, L.offsetSize, L.refSize, 8 + L.area.length⟩

def table (L : Layout) : Bytes := L.offsets.flatMap (wordBytes .big L.offsetSize)

theorem length_table (L : Layout) : L.table.length = L.offsets.length * L.offsetSize :=
  length_flatMap_of_length fun _ _ => wordBytes_length _ _ _

theorem WellFormed.length_trailer (h : L.WellFormed) : L.trailer.length = 32 := by
  simp [trailer, h.pad]

theorem WellFormed.length_bytes (h : L.WellFormed) :
    L.bytes.length = 8 + L.area.length + L.offsets.length * L.offsetSize + L.gap.length + 32 := by
  have htable := L.length_table
  unfold table at htable
  simp [bytes, header, h.length_trailer, htable]
  omega

theorem payload_ctx (L : Layout) : L.ctx.payload = header ++ L.area := by
  have hlen : 8 + L.area.length = (header ++ L.area).length := by
    rw [List.length_append]
    rfl
  unfold Ctx.payload ctx bytes
  rw [hlen, List.append_assoc _ _ L.trailer, List.append_assoc (header ++ L.area), List.take_left]

theorem hasAt_table (L : Layout) : HasAt L.bytes (8 + L.area.length) L.table := by
  have hlen : 8 + L.area.length = (header ++ L.area).length := by
    rw [List.length_append]
    rfl
  have hself := hasAt_append_self (header ++ L.area) L.table
  rw [← hlen] at hself
  refine hself.mono ⟨L.gap ++ L.trailer, ?_⟩
  rw [← List.append_assoc]
  rfl

theorem WellFormed.hasAt_trailer (h : L.WellFormed) :
    HasAt L.bytes (L.bytes.length - 32) L.trailer := by
  have hself := hasAt_append_self
    (header ++ L.area ++ L.offsets.flatMap (wordBytes .big L.offsetSize) ++ L.gap) L.trailer
  have hlen := congrArg List.length (show L.bytes = _ ++ L.trailer from rfl)
  rw [List.length_append, h.length_trailer] at hlen
  rw [hlen, Nat.add_sub_cancel]
  exact hself

theorem WellFormed.drop_trailer (h : L.WellFormed) :
    L.bytes.drop (L.bytes.length - 32) = L.trailer := by
  have hat := (hasAt_iff.mp h.hasAt_trailer).2
  rwa [h.length_trailer, List.take_of_length_le (by rw [List.length_drop]; omega)] at hat

/-! ### Objects -/

/-- An offset of the table is taken where it lies in the object area. -/
theorem WellFormed.objectOffset (h : L.WellFormed) (hfits : L.bytes.length ≤ env.usizeMax)
    {i off : ℕ} (hi : L.offsets[i]? = some off) : L.ctx.objectOffset env i =
      if 8 ≤ off ∧ off < 8 + L.area.length then some off else none := by
  have hlt := (List.getElem?_eq_some_iff.mp hi).1
  have hat := L.hasAt_table.trans
    (hasAt_flatMap (fun _ _ => wordBytes_length ByteOrder.big L.offsetSize _) hi)
  have hread := readUintBe_of_hasAt h.offsetSize (h.offsets off (List.mem_of_getElem? hi)) hat
  have hlen := h.length_bytes
  unfold Ctx.objectOffset
  rw [show L.ctx.numObjects = L.offsets.length from rfl, if_neg (Nat.not_le.mpr hlt)]
  show (readUintBe L.bytes (8 + L.area.length + i * L.offsetSize) L.offsetSize >>= fun offset =>
    env.usize offset >>= fun offset =>
      if 8 ≤ offset ∧ offset < 8 + L.area.length then some offset else none) = _
  simp only [hread, Option.bind_eq_bind, Option.bind_some]
  by_cases hin : 8 ≤ off ∧ off < 8 + L.area.length
  · rw [Env.usize_of_le (by omega), Option.bind_some]
  · unfold Env.usize
    rw [if_neg hin]
    split
    · exact if_neg hin
    · rfl

/-- The reader finds every object that the layout has, and no other. -/
theorem WellFormed.object_cases (h : L.WellFormed) (hfits : L.bytes.length ≤ env.usizeMax)
    (i : ℕ) :
    (L.ctx.objectOffset env i = none ∧ L.object env.reals i = none) ∨
    ∃ off m body, L.ctx.objectOffset env i = some off ∧ Stands env L.ctx off m body ∧
      L.object env.reals i = shapeOf env.reals L.ctx.refSize m.toNat body := by
  have hpayload := L.payload_ctx
  have hlen := h.length_bytes
  unfold object
  cases hi : L.offsets[i]? with
  | none =>
    refine .inl ⟨?_, rfl⟩
    unfold Ctx.objectOffset
    exact if_pos (List.getElem?_eq_none_iff.mp hi)
  | some off =>
    rw [h.objectOffset hfits hi, Option.bind_some]
    by_cases hlow : 8 ≤ off
    · rw [if_pos hlow]
      cases hdrop : L.area.drop (off - 8) with
      | nil =>
        have hend := List.drop_eq_nil_iff.mp hdrop
        exact .inl ⟨if_neg (by omega), rfl⟩
      | cons m body =>
        have hcons := congrArg List.length hdrop
        rw [List.length_drop, List.length_cons] at hcons
        refine .inr ⟨off, m, body, if_pos (by omega), ⟨?_, ?_⟩, rfl⟩
        · rw [hpayload, List.length_append]
          show 8 + L.area.length ≤ env.usizeMax
          omega
        · rw [hpayload, List.drop_append, List.drop_eq_nil_of_le hlow, List.nil_append]
          exact hdrop
    · rw [if_neg hlow, if_neg (fun hin => hlow hin.1)]
      exact .inl ⟨rfl, rfl⟩

/-! ### The trailer -/

theorem trailer_fields {tr : Bytes} (hpad : L.pad.length = 6) :
    HasAt tr 0 L.trailer ↔
      HasAt tr 0 L.pad ∧
      (tr[6]? = some (UInt8.ofNat L.offsetSize) ∧ tr[7]? = some (UInt8.ofNat L.refSize)) ∧
      HasAt tr 8 (wordBytes .big 8 L.offsets.length) ∧ HasAt tr 16 (wordBytes .big 8 L.root) ∧
      HasAt tr 24 (wordBytes .big 8 (8 + L.area.length)) := by
  unfold trailer
  rw [List.append_assoc, show [UInt8.ofNat L.offsetSize, UInt8.ofNat L.refSize] =
    [UInt8.ofNat L.offsetSize] ++ [UInt8.ofNat L.refSize] from rfl]
  simp only [hasAt_append, hasAt_singleton, hpad, List.length_singleton, List.length_append,
    wordBytes_length]

theorem WellFormed.readTrailer (h : L.WellFormed) (hfits : L.bytes.length ≤ env.usizeMax) :
    readTrailer env L.bytes = some (L.ctx, L.root) := by
  have hlen := h.length_bytes
  have hmax := h.length
  have hmaxBytes : maxBytes = 16777216 := rfl
  have hsize := h.offsetSize
  have hrefs := h.refSize
  have hroot := h.root
  have hcount : L.offsets.length ≤ L.offsets.length * L.offsetSize :=
    Nat.le_mul_of_pos_right _ hsize.1
  obtain ⟨-, ⟨hsix, hseven⟩, hobjects, htop, htable⟩ :=
    (trailer_fields h.pad).mp (hasAt_self L.trailer)
  have hguard :
      ¬(L.bytes.length < 8 + 32 ∨ maxBytes < L.bytes.length ∨ L.bytes.take 8 ≠ header) := by
    rintro (hshort | hlong | hheader)
    · omega
    · omega
    · refine hheader ?_
      unfold bytes
      rw [List.append_assoc, List.append_assoc, List.append_assoc]
      rfl
  unfold Bplist.readTrailer
  rw [if_neg hguard, h.drop_trailer]
  dsimp only
  rw [hsix, hseven, readUintBe_of_hasAt ⟨by omega, by omega⟩ (by omega) hobjects,
    readUintBe_of_hasAt ⟨by omega, by omega⟩ (by omega) htop,
    readUintBe_of_hasAt ⟨by omega, by omega⟩ (by omega) htable]
  simp only [Option.map_some, Option.bind_eq_bind, Option.bind_some, UInt8.toNat_ofNat']
  rw [Nat.mod_eq_of_lt (by omega), Nat.mod_eq_of_lt (by omega), if_neg (by omega),
    Env.usize_of_le (by omega), Option.bind_some, Env.usize_of_le (by omega), Option.bind_some,
    Env.usize_of_le (by omega), Option.bind_some, if_neg (by omega), Env.mul,
    Env.usize_of_le (by omega), Option.bind_some, Env.add_of_le (by omega), Option.bind_some,
    if_neg (by omega)]
  rfl

end Layout

/-- The words that a table of `n` entries spells, written again, are the table. -/
theorem flatMap_chunks {k n : ℕ} {l : Bytes} (h : n * k ≤ l.length) :
    ((chunks k n l).map (wordValue .big)).flatMap (wordBytes .big k) = l.take (n * k) := by
  rw [← flatten_chunks, List.flatMap_map, List.flatMap_def]
  congr 1
  refine (List.map_congr_left fun bs hbs => ?_).trans (List.map_id _)
  have hword := wordBytes_wordValue .big bs
  rwa [length_of_mem_chunks h hbs] at hword

theorem Env.usize_eq_some {a n : ℕ} (h : env.usize a = some n) : a = n := by
  unfold Env.usize at h
  split at h
  · exact Option.some_inj.mp h
  · cases h

/-- What the reader checks of the trailer. -/
structure Accepted (data : Bytes) (c : Ctx) (top : ℕ) : Prop where
  source : c.data = data
  length : 40 ≤ data.length ∧ data.length ≤ maxBytes
  header : data.take 8 = header
  offsetSize : 1 ≤ c.offsetSize ∧ c.offsetSize ≤ 8
  refSize : 1 ≤ c.refSize ∧ c.refSize ≤ 8
  sizes : (data.drop (data.length - 32))[6]? = some (UInt8.ofNat c.offsetSize) ∧
    (data.drop (data.length - 32))[7]? = some (UInt8.ofNat c.refSize)
  count : HasAt (data.drop (data.length - 32)) 8 (wordBytes .big 8 c.numObjects)
  root : HasAt (data.drop (data.length - 32)) 16 (wordBytes .big 8 top)
  table : HasAt (data.drop (data.length - 32)) 24 (wordBytes .big 8 c.offsetTableOff)
  within : top < c.numObjects
  fits : 8 ≤ c.offsetTableOff ∧
    c.offsetTableOff + c.numObjects * c.offsetSize ≤ data.length - 32

theorem hasAt_of_usize {d : Bytes} {o n v : ℕ} (h : (readUintBe d o n).bind env.usize = some v) :
    HasAt d o (wordBytes .big n v) := by
  obtain ⟨raw, hraw, hu⟩ := Option.bind_eq_some_iff.mp h
  obtain rfl := Env.usize_eq_some hu
  exact hasAt_of_readUintBe hraw

theorem accepted_of_readTrailer {c : Ctx} {top : ℕ} (h : readTrailer env data = some (c, top)) :
    Accepted data c top := by
  unfold readTrailer at h
  split at h
  · cases h
  next hguard =>
  obtain ⟨hshort, hguard⟩ := not_or.mp hguard
  obtain ⟨hlong, hheader⟩ := not_or.mp hguard
  obtain ⟨offsetSize, hsix, h⟩ := Option.bind_eq_some_iff.mp h
  obtain ⟨refSize, hseven, h⟩ := Option.bind_eq_some_iff.mp h
  split at h
  · cases h
  next hsizes =>
  obtain ⟨count, hcount, h⟩ := Option.bind_eq_some_iff.mp h
  obtain ⟨root, hroot, h⟩ := Option.bind_eq_some_iff.mp h
  obtain ⟨table, htable, h⟩ := Option.bind_eq_some_iff.mp h
  split at h
  · cases h
  next hrange =>
  obtain ⟨size, hsize, h⟩ := Option.bind_eq_some_iff.mp h
  obtain ⟨stop, hstop, h⟩ := Option.bind_eq_some_iff.mp h
  split at h
  · cases h
  next hfit =>
  obtain ⟨rfl, rfl⟩ := Prod.mk.inj (Option.some_inj.mp h)
  obtain ⟨b, hb, rfl⟩ := Option.map_eq_some_iff.mp hsix
  obtain ⟨b', hb', rfl⟩ := Option.map_eq_some_iff.mp hseven
  rw [Env.add_eq_some hstop, Env.mul_eq_some hsize] at hfit
  exact {
    source := rfl
    length := by omega
    header := not_not.mp hheader
    offsetSize := by dsimp only; omega
    refSize := by dsimp only; omega
    sizes := ⟨by rw [hb, UInt8.ofNat_toNat], by rw [hb', UInt8.ofNat_toNat]⟩
    count := hasAt_of_usize hcount
    root := hasAt_of_usize hroot
    table := hasAt_of_usize htable
    within := by dsimp only; omega
    fits := by dsimp only; omega }

/-- The parts of an accepted file. -/
def layoutOf (data : Bytes) (c : Ctx) (top : ℕ) : Layout where
  area := (data.take c.offsetTableOff).drop 8
  offsets := (chunks c.offsetSize c.numObjects (data.drop c.offsetTableOff)).map (wordValue .big)
  gap := (data.drop (c.offsetTableOff + c.numObjects * c.offsetSize)).take
    (data.length - 32 - (c.offsetTableOff + c.numObjects * c.offsetSize))
  pad := (data.drop (data.length - 32)).take 6
  offsetSize := c.offsetSize
  refSize := c.refSize
  root := top

namespace Accepted

variable {c : Ctx} {top : ℕ}

theorem length_trailer (h : Accepted data c top) : (data.drop (data.length - 32)).length = 32 := by
  have := h.length
  rw [List.length_drop]
  omega

theorem length_area (h : Accepted data c top) :
    8 + (layoutOf data c top).area.length = c.offsetTableOff := by
  have := h.fits
  unfold layoutOf
  rw [List.length_drop, List.length_take]
  omega

theorem length_offsets : (layoutOf data c top).offsets.length = c.numObjects := by
  simp [layoutOf, chunks]

theorem length_pad (h : Accepted data c top) : (layoutOf data c top).pad.length = 6 := by
  unfold layoutOf
  rw [List.length_take, h.length_trailer]
  rfl

theorem trailer_eq (h : Accepted data c top) :
    (layoutOf data c top).trailer = data.drop (data.length - 32) := by
  refine HasAt.eq (d := data.drop (data.length - 32)) (o := 0) ?_ (hasAt_self _) ?_
  · rw [Layout.trailer_fields h.length_pad, h.length_area, length_offsets]
    refine ⟨hasAt_iff.mpr ⟨?_, ?_⟩, h.sizes, h.count, h.root, h.table⟩
    · rw [h.length_pad, h.length_trailer]
      omega
    · rw [h.length_pad]
      rfl
  · rw [h.length_trailer]
    simp [Layout.trailer, h.length_pad]

theorem table_eq (h : Accepted data c top) : (layoutOf data c top).table =
    (data.drop c.offsetTableOff).take (c.numObjects * c.offsetSize) := by
  have := h.fits
  have := h.length
  have hroom : c.numObjects * c.offsetSize ≤ (data.drop c.offsetTableOff).length := by
    rw [List.length_drop]
    omega
  exact flatMap_chunks hroom

theorem bytes_eq (h : Accepted data c top) : (layoutOf data c top).bytes = data := by
  have hfits := h.fits
  have hlength := h.length
  have harea := h.length_area
  have htable : (layoutOf data c top).table.length = c.numObjects * c.offsetSize := by
    rw [h.table_eq, List.length_take, List.length_drop]
    omega
  have hgap : (layoutOf data c top).gap.length =
      data.length - 32 - (c.offsetTableOff + c.numObjects * c.offsetSize) := by
    unfold layoutOf
    rw [List.length_take, List.length_drop]
    omega
  have htrailer : (layoutOf data c top).trailer.length = 32 := by
    rw [h.trailer_eq, h.length_trailer]
  refine HasAt.eq (d := data) (o := 0) ?_ (hasAt_self data) ?_
  · show HasAt data 0 (Bplist.header ++ (layoutOf data c top).area ++ (layoutOf data c top).table ++
      (layoutOf data c top).gap ++ (layoutOf data c top).trailer)
    have hheader : Bplist.header.length = 8 := rfl
    simp only [hasAt_append, List.length_append, hheader, harea, htable, hgap, Nat.zero_add]
    refine ⟨⟨⟨⟨?_, ?_⟩, ?_⟩, ?_⟩, ?_⟩
    · rw [← h.header]
      exact hasAt_take_drop (o := 0) (by omega)
    · unfold layoutOf
      rw [List.drop_take]
      exact hasAt_take_drop (by omega)
    · rw [h.table_eq]
      exact hasAt_take_drop (by omega)
    · exact hasAt_take_drop (by omega)
    · rw [h.trailer_eq, show c.offsetTableOff + c.numObjects * c.offsetSize +
        (data.length - 32 - (c.offsetTableOff + c.numObjects * c.offsetSize)) =
          data.length - 32 by omega]
      have hat := hasAt_take_drop (d := data) (o := data.length - 32) (k := 32) (by omega)
      rwa [List.take_of_length_le (by rw [h.length_trailer])] at hat
  · show (Bplist.header ++ (layoutOf data c top).area ++ (layoutOf data c top).table ++
      (layoutOf data c top).gap ++ (layoutOf data c top).trailer).length = data.length
    have hheader : Bplist.header.length = 8 := rfl
    simp only [List.length_append, hheader, harea, htable, hgap, htrailer]
    omega

theorem wellFormed (h : Accepted data c top) : (layoutOf data c top).WellFormed where
  pad := h.length_pad
  offsetSize := h.offsetSize
  refSize := h.refSize
  root := by
    rw [length_offsets]
    exact h.within
  offsets := by
    intro o ho
    obtain ⟨bs, hbs, rfl⟩ := List.mem_map.mp ho
    have := h.fits
    have := h.length
    have hroom : c.numObjects * c.offsetSize ≤ (data.drop c.offsetTableOff).length := by
      rw [List.length_drop]
      omega
    have hlen := length_of_mem_chunks hroom hbs
    have hlt := wordValue_lt .big bs
    rwa [hlen] at hlt
  length := by
    rw [h.bytes_eq]
    exact h.length.2

theorem ctx_eq (h : Accepted data c top) : (layoutOf data c top).ctx = c := by
  unfold Layout.ctx
  rw [h.bytes_eq, length_offsets, h.length_area, ← h.source]
  rfl

end Accepted

/-- A file is accepted where it has a well-formed layout, and the reader then goes by that. -/
theorem readTrailer_eq_some {c : Ctx} {top : ℕ} (hfits : data.length ≤ env.usizeMax) :
    readTrailer env data = some (c, top) ↔
      ∃ L : Layout, L.WellFormed ∧ L.bytes = data ∧ L.ctx = c ∧ L.root = top := by
  constructor
  · intro h
    have hacc := accepted_of_readTrailer h
    exact ⟨layoutOf data c top, hacc.wellFormed, hacc.bytes_eq, hacc.ctx_eq, rfl⟩
  · rintro ⟨L, hwf, rfl, rfl, rfl⟩
    exact hwf.readTrailer hfits

end Zencodec.Bplist
