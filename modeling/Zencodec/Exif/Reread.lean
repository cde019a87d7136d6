/-
Reading back one directory the writer wrote.

`readEntries_writeItems` follows the reader along the rows of a written table.
Each row is read back with its own field, and writing the entries just read gives
the same rows again: `Replays` relates the layout states of the two runs, in which
an alias of the first run is an alias of the second.
-/
import Zencodec.Exif.Tree

open Slices StableSort

namespace Zencodec.Exif

variable {src d : Bytes} {order : ByteOrder}

/-! ### Words and rows -/

@[simp] theorem length_put16 (v : UInt16) : (put16 order v).length = 2 :=
  wordBytes_length _ _ _

@[simp] theorem length_put32 (v : UInt32) : (put32 order v).length = 4 :=
  wordBytes_length _ _ _

theorem wordValue_put32 (v : UInt32) : wordValue order (put32 order v) = v.toNat := by
  rw [put32, wordValue_wordBytes]
  exact Nat.mod_eq_of_lt v.toNat_lt

theorem rd16_of_hasAt {o : ℕ} {v : UInt16} (h : HasAt d o (put16 order v)) :
    rd16 d o order = some v := by
  have hv : v.toNat % 256 ^ 2 = v.toNat := Nat.mod_eq_of_lt v.toNat_lt
  rw [rd16, h.slice (by simp), Option.map_some, put16, wordValue_wordBytes, hv,
    UInt16.ofNat_toNat]

theorem rd32_of_hasAt {o : ℕ} {v : UInt32} (h : HasAt d o (put32 order v)) :
    rd32 d o order = some v := by
  rw [rd32, h.slice (by simp), Option.map_some, wordValue_put32, UInt32.ofNat_toNat]

theorem toNat_ofNat32 {n : ℕ} (h : n < 2 ^ 32) : (UInt32.ofNat n).toNat = n :=
  UInt32.toNat_ofNat_of_lt' h

/-- The tag, type and count of a row. -/
def rowHead (order : ByteOrder) (tag kind : UInt16) (cnt : UInt32) : Bytes :=
  put16 order tag ++ put16 order kind ++ put32 order cnt

@[simp] theorem length_rowHead (tag kind : UInt16) (cnt : UInt32) :
    (rowHead order tag kind cnt).length = 8 := by simp [rowHead]

/-- An entry is read back from its row and its value bytes, inline or at the stored
offset. -/
theorem resolveEntry_eq_some {e o s : ℕ} {tag kind : UInt16} {cnt : UInt32} {bs : Bytes}
    (hhead : HasAt d e (rowHead order tag kind cnt)) (hkind : typeSize kind = some s)
    (hlen : bs.length = cnt.toNat * s) (hbs : HasAt d o bs)
    (hin : bs.length ≤ 4 → o = e + 8)
    (hout : 4 < bs.length → o < 2 ^ 32 ∧ HasAt d (e + 8) (put32 order (UInt32.ofNat o))) :
    ∃ e', resolveEntry d e order = some e' ∧ e'.field = ⟨tag, kind, cnt, bs⟩ ∧
      e'.value.key = some (o, bs.length) := by
  obtain ⟨htagkind, hcnt⟩ := hasAt_append.mp hhead
  obtain ⟨htag, hkind'⟩ := hasAt_append.mp htagkind
  simp only [List.length_append, length_put16] at hcnt hkind'
  have hoff : valueOffsetAt d e order (cnt.toNat * s) = some o := by
    rw [← hlen, valueOffsetAt]
    split
    · next h => rw [hin h]
    · next h =>
      obtain ⟨ho, hptr⟩ := hout (by omega)
      rw [rd32_of_hasAt hptr, Option.map_some, toNat_ofNat32 ho]
  obtain ⟨sl, hsl, hstart, hsllen, hbytes⟩ := Slice.get_of_hasAt hbs hlen.symm
  refine ⟨⟨tag, kind, cnt, .borrowed sl, o⟩, ?_, ?_, ?_⟩
  · simp only [resolveEntry, rd16_of_hasAt htag, rd16_of_hasAt hkind', rd32_of_hasAt hcnt,
      hkind, hoff, hsl, Option.bind_eq_bind, Option.bind_some]
  · simp [Entry.field, Cow.bytes, hbytes]
  · simp [Cow.key, hstart, hsllen, hlen]

/-! ### The layout of out-of-line values -/

/-- Every placed value stands in the data at its offset. -/
def ExtState.Ok (src : Bytes) (st : ExtState) : Prop :=
  ∀ q ∈ st.placed, ∃ s : Slice src, s.start = q.1.1 ∧ s.len = q.1.2 ∧ 0 < s.len ∧
    HasAt st.ext q.2 s.bytes

theorem ExtState.ok_nil (src : Bytes) : ExtState.Ok src ⟨[], []⟩ := by simp [ExtState.Ok]

/-- The second run has the data of the first, and an alias for each of its aliases. -/
structure Replays (base : ℕ) (st st2 : ExtState) : Prop where
  ext : st2.ext = st.ext
  based : ∀ q ∈ st2.placed, q.1.1 = base + q.2 ∧ q.2 < st.ext.length
  covers : ∀ q ∈ st.placed, ((base + q.2, q.1.2), q.2) ∈ st2.placed

theorem replays_nil (base : ℕ) : Replays base ⟨[], []⟩ ⟨[], []⟩ :=
  ⟨rfl, by simp, by simp⟩

/-- The data after a value is appended and padded. -/
def padded (ext bs : Bytes) : Bytes :=
  if (ext ++ bs).length % 2 = 1 then ext ++ bs ++ [0] else ext ++ bs

theorem prefix_padded (ext bs : Bytes) : ext ++ bs <+: padded ext bs := by
  unfold padded
  split
  · exact List.prefix_append _ _
  · exact List.prefix_rfl

theorem hasAt_padded (ext bs : Bytes) : HasAt (padded ext bs) ext.length bs :=
  (hasAt_append_self ext bs).mono (prefix_padded ext bs)

/-- What `placeExt` does: it finds an alias, or appends. -/
theorem placeExt_cases (st : ExtState) (v : Cow src) :
    (∃ k o, v.key = some k ∧ (k, o) ∈ st.placed ∧ placeExt st v = (o, st)) ∨
    placeExt st v = (st.ext.length, ⟨padded st.ext v.bytes,
      st.placed ++ (v.key.map fun k => (k, st.ext.length)).toList⟩) := by
  unfold placeExt
  split
  · next q o hq =>
    obtain ⟨k, hk, hfind⟩ := Option.bind_eq_some_iff.mp hq
    have hq1 := List.find?_some hfind
    simp only [decide_eq_true_eq] at hq1
    subst hq1
    exact .inl ⟨_, o, hk, List.mem_of_find?_eq_some hfind, rfl⟩
  · exact .inr rfl

theorem Slice.eq_of_key {s : Slice src} {v : Cow src} {k : ℕ × ℕ} (hv : v.key = some k)
    (hs : s.start = k.1) (hl : s.len = k.2) : s.bytes = v.bytes := by
  cases v with
  | owned b => exact absurd hv (by simp [Cow.key])
  | borrowed t =>
    obtain rfl := Option.some_inj.mp hv
    simp only at hs hl
    simp [Cow.bytes, Slice.bytes, hs, hl]

theorem placeExt_ok {st st' : ExtState} {v : Cow src} {o : ℕ} (hst : st.Ok src)
    (hv : 0 < v.bytes.length) (h : placeExt st v = (o, st')) :
    st'.Ok src ∧ st.ext <+: st'.ext ∧ HasAt st'.ext o v.bytes := by
  rcases placeExt_cases st v with ⟨k, o', hk, hmem, heq⟩ | heq
  · obtain ⟨rfl, rfl⟩ := Prod.mk.inj (h.symm.trans heq)
    obtain ⟨s, hs, hl, -, hat⟩ := hst _ hmem
    rw [Slice.eq_of_key hk hs hl] at hat
    exact ⟨hst, List.prefix_rfl, hat⟩
  · obtain ⟨rfl, rfl⟩ := Prod.mk.inj (h.symm.trans heq)
    have hpre : st.ext <+: padded st.ext v.bytes :=
      (List.prefix_append _ _).trans (prefix_padded _ _)
    refine ⟨fun q hq => ?_, hpre, hasAt_padded _ _⟩
    rcases List.mem_append.mp hq with hq | hq
    · obtain ⟨s, hs, hl, hpos, hat⟩ := hst q hq
      exact ⟨s, hs, hl, hpos, hat.mono hpre⟩
    · cases v with
      | owned b => exact absurd hq (by simp [Cow.key])
      | borrowed s =>
        obtain rfl : q = ((s.start, s.len), st.ext.length) := by
          simpa [Cow.key] using hq
        exact ⟨s, rfl, rfl, by simpa [Cow.bytes] using hv, hasAt_padded _ _⟩

/-- The second run puts a value that was read back where the first run put it. -/
theorem placeExt_replays {base o : ℕ} {st st' st2 : ExtState} {v : Cow src} {v' : Cow d}
    (hr : Replays base st st2) (hv : 0 < v.bytes.length) (h : placeExt st v = (o, st'))
    (hbytes : v'.bytes = v.bytes) (hkey : v'.key = some (base + o, v.bytes.length)) :
    ∃ st2', placeExt st2 v' = (o, st2') ∧ Replays base st' st2' := by
  have hlook : ∀ q ∈ st2.placed, q.1 = (base + o, v.bytes.length) → q.2 = o := by
    intro q hq hq1
    have hb := (hr.based q hq).1
    rw [hq1] at hb
    simp only at hb
    omega
  rcases placeExt_cases st v with ⟨k, o', hk, hmem, heq⟩ | heq
  · -- An alias of the first run: `st2` holds the pair it was given.
    obtain ⟨rfl, rfl⟩ := Prod.mk.inj (h.symm.trans heq)
    have hmem2 := hr.covers _ hmem
    have hlen : k.2 = v.bytes.length := by
      cases v with
      | owned b => exact absurd hk (by simp [Cow.key])
      | borrowed s =>
        obtain rfl := Option.some_inj.mp hk
        simp [Cow.bytes]
    simp only [hlen] at hmem2
    refine ⟨st2, ?_, hr⟩
    unfold placeExt
    rw [hkey, Option.bind_some]
    cases hf : st2.placed.find? (fun q => q.1 = (base + o, v.bytes.length)) with
    | none => exact absurd (List.find?_eq_none.mp hf _ hmem2) (by simp)
    | some q =>
      have hq1 : q.1 = (base + o, v.bytes.length) := by simpa using List.find?_some hf
      have hq2 : q.2 = o := hlook q (List.mem_of_find?_eq_some hf) hq1
      rw [← hq2]
  · -- A new value: no pair of `st2` reaches the end of the data.
    obtain ⟨rfl, rfl⟩ := Prod.mk.inj (h.symm.trans heq)
    have hnone : st2.placed.find?
        (fun q => q.1 = (base + st.ext.length, v.bytes.length)) = none := by
      refine List.find?_eq_none.mpr fun q hq => ?_
      simp only [decide_eq_true_eq]
      intro hq1
      have h1 := hlook q hq hq1
      have h2 := (hr.based q hq).2
      omega
    refine ⟨⟨padded st.ext v.bytes,
      st2.placed ++ [((base + st.ext.length, v.bytes.length), st.ext.length)]⟩, ?_, ?_⟩
    · unfold placeExt
      rw [hkey, Option.bind_some, hnone]
      simp [hr.ext, hbytes, padded]
    · have hgrow : st.ext.length < (padded st.ext v.bytes).length := by
        have := (prefix_padded st.ext v.bytes).length_le
        simp only [List.length_append] at this
        omega
      refine ⟨rfl, fun q hq => ?_, fun q hq => ?_⟩
      · rcases List.mem_append.mp hq with hq | hq
        · exact ⟨(hr.based q hq).1, (hr.based q hq).2.trans hgrow⟩
        · obtain rfl := List.mem_singleton.mp hq
          exact ⟨rfl, hgrow⟩
      · rcases List.mem_append.mp hq with hq | hq
        · exact List.mem_append_left _ (hr.covers q hq)
        · refine List.mem_append_right _ ?_
          cases v with
          | owned b => exact absurd hq (by simp [Cow.key])
          | borrowed s =>
            obtain rfl : q = ((s.start, s.len), st.ext.length) := by
              simpa [Cow.key] using hq
            simp [Cow.bytes]

/-! ### Rows -/

/-- The field a row is read back as. -/
def Item.field (order : ByteOrder) : Item src → Field
  | .real e => e.field
  | .ptr t v => ⟨t, tiffLong, 1, put32 order v⟩

/-- The row of an entry that was read back: a pointer again when its tag is one of the
pointers written. -/
def reItem (ptrVals : List (UInt16 × UInt32)) (e : Entry src) : Item src :=
  match ptrVals.lookup e.tag with
  | some v => .ptr e.tag v
  | none => .real e

theorem reItem_of_some {ptrVals : List (UInt16 × UInt32)} {e : Entry src} {v : UInt32}
    (h : ptrVals.lookup e.tag = some v) : reItem ptrVals e = .ptr e.tag v := by
  simp only [reItem, h]

theorem reItem_of_none {ptrVals : List (UInt16 × UInt32)} {e : Entry src}
    (h : ptrVals.lookup e.tag = none) : reItem ptrVals e = .real e := by
  simp only [reItem, h]

/-- A row of a table with the pointers `ptrVals`: one of these, or a sound entry that
carries none of their tags. -/
def Item.Ok (ptrVals : List (UInt16 × UInt32)) : Item src → Prop
  | .ptr t v => ptrVals.lookup t = some v
  | .real e => ptrVals.lookup e.tag = none ∧ e.Sound

/-- What one row leaves of the layout state. -/
theorem writeItem_ok {base : ℕ} {st st' : ExtState} {it : Item src} {row : Bytes}
    (hst : st.Ok src) (h : writeItem order base st it = (row, st')) :
    st'.Ok src ∧ st.ext <+: st'.ext ∧ row.length = 12 := by
  cases it with
  | ptr t v =>
    obtain ⟨rfl, rfl⟩ := Prod.mk.inj h
    exact ⟨hst, List.prefix_rfl, by simp⟩
  | real e =>
    simp only [writeItem] at h
    split at h
    · obtain ⟨rfl, rfl⟩ := Prod.mk.inj h
      exact ⟨hst, List.prefix_rfl, by simp; omega⟩
    · next hlen =>
      obtain ⟨rfl, rfl⟩ := Prod.mk.inj h
      have hplace : placeExt st e.value = ((placeExt st e.value).1, (placeExt st e.value).2) :=
        rfl
      obtain ⟨hok, hpre, -⟩ := placeExt_ok hst (by omega) hplace
      exact ⟨hok, hpre, by simp⟩

theorem writeItems_ok {base : ℕ} {items : List (Item src)} {st st' : ExtState}
    {rows : Bytes} (hst : st.Ok src) (h : writeItems order base st items = (rows, st')) :
    st'.Ok src ∧ st.ext <+: st'.ext ∧ rows.length = 12 * items.length := by
  induction items generalizing st rows with
  | nil =>
    obtain ⟨rfl, rfl⟩ := Prod.mk.inj h
    exact ⟨hst, List.prefix_rfl, rfl⟩
  | cons it its ih =>
    obtain ⟨rfl, rfl⟩ := Prod.mk.inj h
    obtain ⟨hok, hpre, hrow⟩ := writeItem_ok hst (show writeItem order base st it = _ from rfl)
    obtain ⟨hok', hpre', hrows⟩ := ih hok rfl
    refine ⟨hok', hpre.trans hpre', ?_⟩
    rw [List.length_append, hrow, hrows, List.length_cons]
    omega

/-- One row is read back with its own field, and is written again as the same row. -/
theorem resolveEntry_writeItem {ptrVals : List (UInt16 × UInt32)} {base e : ℕ}
    {st st' st2 : ExtState} {it : Item src} {row ext : Bytes} (hit : it.Ok ptrVals)
    (hst : st.Ok src) (hr : Replays base st st2)
    (h : writeItem order base st it = (row, st')) (hrow : HasAt d e row)
    (hext : HasAt d base ext) (hpre : st'.ext <+: ext) (hfit : base + ext.length < 2 ^ 32) :
    ∃ e', resolveEntry d e order = some e' ∧ e'.field = it.field order ∧
      ∃ st2', writeItem order base st2 (reItem ptrVals e') = (row, st2') ∧
        Replays base st' st2' := by
  cases it with
  | ptr t v =>
    obtain ⟨rfl, rfl⟩ := Prod.mk.inj h
    obtain ⟨hhead, hval⟩ := hasAt_append.mp hrow
    obtain ⟨e', hres, hfield, -⟩ := resolveEntry_eq_some (s := 4)
      hhead (by decide) (by simp) hval (fun _ => by simp)
      (fun h => absurd h (by simp))
    have htag : e'.tag = t := congrArg Field.tag hfield
    refine ⟨e', hres, hfield, st2, ?_, hr⟩
    have hlook : ptrVals.lookup e'.tag = some v := by rw [htag]; exact hit
    simp only [reItem_of_some hlook, writeItem, htag]
  | real x =>
    obtain ⟨hnone, s, hs, hlen⟩ := hit
    have hre : ∀ e' : Entry d, e'.field = x.field → reItem ptrVals e' = .real e' ∧
        e'.tag = x.tag ∧ e'.kind = x.kind ∧ e'.count = x.count ∧
        e'.value.bytes = x.value.bytes := by
      intro e' hf
      have htag : e'.tag = x.tag := congrArg Field.tag hf
      have hlook : ptrVals.lookup e'.tag = none := by rw [htag]; exact hnone
      exact ⟨reItem_of_none hlook, htag, congrArg Field.kind hf,
        congrArg Field.count hf, congrArg Field.value hf⟩
    simp only [writeItem] at h
    by_cases h4 : x.value.bytes.length ≤ 4
    · -- Inline: the value stands in the row.
      rw [if_pos h4] at h
      obtain ⟨rfl, rfl⟩ := Prod.mk.inj h
      obtain ⟨hhead, hrest⟩ := hasAt_append.mp hrow
      have hval := (hasAt_append.mp hrest).1
      obtain ⟨e', hres, hfield, -⟩ := resolveEntry_eq_some hhead hs hlen hval
        (fun _ => by simp) (fun h => absurd h4 (by omega))
      obtain ⟨hitem, htag, hkind, hcnt, hbytes⟩ := hre e' hfield
      refine ⟨e', hres, hfield, st2, ?_, hr⟩
      simp only [hitem, writeItem, hbytes, if_pos h4, htag, hkind, hcnt]
    · -- Out of line: the value stands where `placeExt` put it.
      rw [if_neg h4] at h
      obtain ⟨o, stp, hplace⟩ : ∃ o stp, placeExt st x.value = (o, stp) := ⟨_, _, rfl⟩
      rw [hplace] at h
      obtain ⟨rfl, rfl⟩ := Prod.mk.inj h
      obtain ⟨hhead, hoff⟩ := hasAt_append.mp hrow
      obtain ⟨-, -, hat⟩ := placeExt_ok hst (by omega) hplace
      have hval : HasAt d (base + o) x.value.bytes := hext.trans (hat.mono hpre)
      have ho := (hat.mono hpre).le
      obtain ⟨e', hres, hfield, hkey⟩ := resolveEntry_eq_some hhead hs hlen hval
        (fun h => absurd h h4) (fun _ => ⟨by omega, by simpa using hoff⟩)
      obtain ⟨hitem, htag, hkind, hcnt, hbytes⟩ := hre e' hfield
      obtain ⟨st2', hplace2, hr2⟩ := placeExt_replays hr (by omega) hplace hbytes hkey
      refine ⟨e', hres, hfield, st2', ?_, hr2⟩
      simp only [hitem, writeItem, hbytes, if_neg h4, htag, hkind, hcnt, hplace2]

/-- The rows of a table are read back with their own fields, and are written again as the
same rows. -/
theorem readEntries_writeItems {ptrVals : List (UInt16 × UInt32)} {base e : ℕ}
    {items : List (Item src)} {st st' st2 : ExtState} {rows ext : Bytes}
    (hitems : ∀ it ∈ items, it.Ok ptrVals) (hst : st.Ok src) (hr : Replays base st st2)
    (h : writeItems order base st items = (rows, st')) (hrows : HasAt d e rows)
    (hext : HasAt d base ext) (hpre : st'.ext <+: ext) (hfit : base + ext.length < 2 ^ 32) :
    fields (readEntries d order items.length e) = items.map (Item.field order) ∧
      ∃ st2', writeItems order base st2
          ((readEntries d order items.length e).map (reItem ptrVals)) = (rows, st2') ∧
        Replays base st' st2' := by
  induction items generalizing e st st2 rows with
  | nil =>
    obtain ⟨rfl, rfl⟩ := Prod.mk.inj h
    exact ⟨rfl, st2, rfl, hr⟩
  | cons it its ih =>
    obtain ⟨row, st1, hrow⟩ : ∃ row st1, writeItem order base st it = (row, st1) :=
      ⟨_, _, rfl⟩
    obtain ⟨rest, stn, hrest⟩ : ∃ rest stn, writeItems order base st1 its = (rest, stn) :=
      ⟨_, _, rfl⟩
    simp only [writeItems, hrow, hrest] at h
    obtain ⟨rfl, rfl⟩ := Prod.mk.inj h
    obtain ⟨hok1, -, hlen⟩ := writeItem_ok hst hrow
    obtain ⟨hatrow, hatrest⟩ := hasAt_append.mp hrows
    rw [hlen] at hatrest
    have hpre1 : st1.ext <+: ext := (writeItems_ok hok1 hrest).2.1.trans hpre
    obtain ⟨e', hres, hfield, st21, hw, hr1⟩ :=
      resolveEntry_writeItem (hitems it List.mem_cons_self) hst hr hrow hatrow hext hpre1 hfit
    obtain ⟨hfields, st2', hws, hr2⟩ :=
      ih (fun i hi => hitems i (List.mem_cons_of_mem _ hi)) hok1 hr1 hrest hatrest
    have hroom : ¬ d.length < e + 12 := by
      have := hatrow.le
      omega
    have hread : readEntries d order (it :: its).length e =
        e' :: readEntries d order its.length (e + 12) := by
      simp only [List.length_cons, readEntries, if_neg hroom, hres, Option.toList_some,
        List.singleton_append]
    rw [hread]
    refine ⟨?_, st2', ?_, hr2⟩
    · rw [List.map_cons, ← hfields, ← hfield]
      rfl
    · simp only [List.map_cons, writeItems, hw, hws]

end Zencodec.Exif
