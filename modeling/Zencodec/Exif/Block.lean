/-
One directory block: its size, and what the reader makes of it.

* `length_writeIfd` — a block is as long as `blockSize` says: `extSize`, computed
  in the order of the entries, is the size of the values laid out in tag order.
* `parseIfd_writeIfd` — a block is read back as its rows in tag order, and the
  entries read are written as the same block (`ReadBack`).
* `takePointer_child`, `takePointer_absent` — the reader takes out the pointer rows
  the writer added, and nothing else.
-/
import Zencodec.Exif.Reread

open Slices StableSort

namespace Zencodec.Exif

variable {src d : Bytes} {order : ByteOrder}

/-! ### The size of a block -/

theorem extSizeFrom_cons (placed : List (ℕ × ℕ)) (e : Entry src) (es : List (Entry src)) :
    extSizeFrom placed (e :: es) =
      (extStep placed e).1 + extSizeFrom (extStep placed e).2 es := by
  rw [extSizeFrom, extStep]
  by_cases h4 : e.value.bytes.length ≤ 4
  · simp [h4]
  · cases e.value.key with
    | none => simp [h4]
    | some k => by_cases hk : k ∈ placed <;> simp [h4, hk]

/-- Only which aliases were placed matters. -/
theorem extSizeFrom_congr {es : List (Entry src)} {placed placed' : List (ℕ × ℕ)}
    (h : ∀ k, k ∈ placed ↔ k ∈ placed') : extSizeFrom placed es = extSizeFrom placed' es := by
  induction es generalizing placed placed' with
  | nil => rfl
  | cons e es ih =>
    have hstep : (extStep placed e).1 = (extStep placed' e).1 ∧
        ∀ k, k ∈ (extStep placed e).2 ↔ k ∈ (extStep placed' e).2 := by
      unfold extStep
      split
      · exact ⟨rfl, h⟩
      · split
        · exact ⟨rfl, h⟩
        · next k _ =>
          by_cases hk : k ∈ placed
          · rw [if_pos hk, if_pos ((h k).mp hk)]
            exact ⟨rfl, h⟩
          · rw [if_neg hk, if_neg fun hk' => hk ((h k).mpr hk')]
            exact ⟨rfl, fun k' => by simp [h k']⟩
    rw [extSizeFrom_cons, extSizeFrom_cons, hstep.1, ih hstep.2]

theorem Cow.key_length {v : Cow src} {k : ℕ × ℕ} (h : v.key = some k) :
    v.bytes.length = k.2 := by
  cases v with
  | owned b => exact absurd h (by simp [Cow.key])
  | borrowed s =>
    obtain rfl := Option.some_inj.mp h
    simp [Cow.bytes]

/-- Two entries next to each other add the same in either order. -/
theorem extSizeFrom_swap (placed : List (ℕ × ℕ)) (a b : Entry src) (es : List (Entry src)) :
    extSizeFrom placed (a :: b :: es) = extSizeFrom placed (b :: a :: es) := by
  simp only [extSizeFrom_cons]
  by_cases ha : a.value.bytes.length ≤ 4
  · simp [extStep, ha]
  by_cases hb : b.value.bytes.length ≤ 4
  · simp [extStep, hb]
  cases hka : a.value.key with
  | none => simp only [extStep, ha, hka, if_false]; omega
  | some ka =>
    cases hkb : b.value.key with
    | none => simp only [extStep, hb, hkb, if_false]; omega
    | some kb =>
      by_cases hab : ka = kb
      · -- The same bytes twice: whichever comes first is counted.
        subst hab
        have hlen : a.value.bytes.length = b.value.bytes.length :=
          (Cow.key_length hka).trans (Cow.key_length hkb).symm
        simp only [extStep, hka, hkb, hlen]
      · have hcongr : extSizeFrom (ka :: kb :: placed) es = extSizeFrom (kb :: ka :: placed) es :=
          extSizeFrom_congr fun k => by simp only [List.mem_cons]; tauto
        by_cases hpa : ka ∈ placed
        · simp only [extStep, ha, hka, hb, hkb, if_false, if_pos hpa]
          split <;> simp [hpa]
        · by_cases hpb : kb ∈ placed
          · simp [extStep, ha, hka, hb, hkb, hpa, hpb]
          · have hne : kb ≠ ka := fun h => hab h.symm
            simp only [extStep, ha, hka, hb, hkb, if_false, if_neg hpa, if_neg hpb,
              List.mem_cons, hab, hne, false_or, hcongr]
            omega

theorem extSizeFrom_perm {es es' : List (Entry src)} (h : es.Perm es') :
    ∀ placed, extSizeFrom placed es = extSizeFrom placed es' := by
  induction h with
  | nil => exact fun _ => rfl
  | cons e _ ih =>
    intro placed
    rw [extSizeFrom_cons, extSizeFrom_cons, ih]
  | swap a b es => exact fun placed => extSizeFrom_swap placed b a es
  | trans _ _ ih1 ih2 => exact fun placed => (ih1 placed).trans (ih2 placed)

/-- The entries among the rows. -/
def Item.entry? : Item src → Option (Entry src)
  | .real e => some e
  | .ptr _ _ => none

theorem length_padded (bs : Bytes) {ext : Bytes} (h : ext.length % 2 = 0) :
    (padded ext bs).length = ext.length + align2 bs.length := by
  unfold padded align2
  split <;> simp_all <;> omega

/-- One row adds what `extStep` counts for it. -/
theorem writeItem_ext {base : ℕ} {st st' : ExtState} {it : Item src} {row : Bytes}
    {placed : List (ℕ × ℕ)} (hpl : ∀ k, k ∈ placed ↔ k ∈ st.placed.map Prod.fst)
    (heven : st.ext.length % 2 = 0) (h : writeItem order base st it = (row, st')) :
    st'.ext.length % 2 = 0 ∧ ∃ placed', (∀ k, k ∈ placed' ↔ k ∈ st'.placed.map Prod.fst) ∧
      ∀ es, st.ext.length + extSizeFrom placed (it.entry?.toList ++ es) =
        st'.ext.length + extSizeFrom placed' es := by
  cases it with
  | ptr t v =>
    obtain ⟨rfl, rfl⟩ := Prod.mk.inj h
    exact ⟨heven, placed, hpl, fun es => rfl⟩
  | real e =>
    simp only [Item.entry?, Option.toList_some, List.singleton_append, extSizeFrom_cons]
    simp only [writeItem] at h
    split at h
    · next h4 =>
      obtain ⟨rfl, rfl⟩ := Prod.mk.inj h
      refine ⟨heven, placed, hpl, fun es => ?_⟩
      simp [extStep, h4]
    · next h4 =>
      obtain ⟨rfl, rfl⟩ := Prod.mk.inj h
      have hgrow := length_padded e.value.bytes heven
      have halign : align2 e.value.bytes.length % 2 = 0 := by unfold align2; omega
      cases hkey : e.value.key with
      | none =>
        have hplace : placeExt st e.value =
            (st.ext.length, ⟨padded st.ext e.value.bytes, st.placed⟩) := by
          simp [placeExt, hkey, padded]
        rw [hplace]
        refine ⟨by simp only; omega, placed, hpl, fun es => ?_⟩
        simp only [extStep, h4, hkey, if_false]
        omega
      | some k =>
        cases hfind : st.placed.find? fun p => p.1 = k with
        | some q =>
          have hq : q.1 = k := by simpa using List.find?_some hfind
          have hmem : k ∈ placed :=
            (hpl k).mpr (List.mem_map.mpr ⟨q, List.mem_of_find?_eq_some hfind, hq⟩)
          have hplace : placeExt st e.value = (q.2, st) := by
            simp [placeExt, hkey, hfind]
          rw [hplace]
          refine ⟨heven, placed, hpl, fun es => ?_⟩
          simp [extStep, h4, hkey, hmem]
        | none =>
          have hmem : k ∉ placed := by
            intro hk
            obtain ⟨q, hq, hqk⟩ := List.mem_map.mp ((hpl k).mp hk)
            exact absurd hqk (by simpa using List.find?_eq_none.mp hfind q hq)
          have hplace : placeExt st e.value = (st.ext.length,
              ⟨padded st.ext e.value.bytes, st.placed ++ [(k, st.ext.length)]⟩) := by
            simp [placeExt, hkey, hfind, padded]
          rw [hplace]
          refine ⟨by simp only; omega, k :: placed, fun k' => ?_, fun es => ?_⟩
          · simp only [List.mem_cons, List.map_append, List.mem_append, hpl k']
            simp only [List.map_cons, List.map_nil, List.mem_singleton]
            exact or_comm
          · simp only [extStep, h4, hkey, hmem, if_false]
            omega

theorem writeItems_ext (placed : List (ℕ × ℕ)) {base : ℕ} {items : List (Item src)}
    {st st' : ExtState} {rows : Bytes}
    (hpl : ∀ k, k ∈ placed ↔ k ∈ st.placed.map Prod.fst) (heven : st.ext.length % 2 = 0)
    (h : writeItems order base st items = (rows, st')) :
    st'.ext.length = st.ext.length + extSizeFrom placed (items.filterMap Item.entry?) := by
  induction items generalizing st rows placed with
  | nil =>
    obtain ⟨rfl, rfl⟩ := Prod.mk.inj h
    rfl
  | cons it its ih =>
    obtain ⟨row, st1, hrow⟩ : ∃ row st1, writeItem order base st it = (row, st1) :=
      ⟨_, _, rfl⟩
    simp only [writeItems, hrow] at h
    obtain ⟨-, rfl⟩ := Prod.mk.inj h
    obtain ⟨heven1, placed1, hpl1, hsize⟩ := writeItem_ext hpl heven hrow
    have hcons : (it :: its).filterMap Item.entry? =
        it.entry?.toList ++ its.filterMap Item.entry? := by
      cases it <;> rfl
    rw [hcons, hsize, ih placed1 hpl1 heven1 rfl]

theorem sortedItems_eq (es : List (Entry src)) (ptrVals : List (UInt16 × UInt32)) :
    sortedItems es ptrVals =
      sortBy Item.key (es.map .real ++ ptrVals.map fun q => .ptr q.1 q.2) := rfl

/-- The rows carry the entries, in some order. -/
theorem entries_sortedItems (es : List (Entry src)) (ptrVals : List (UInt16 × UInt32)) :
    ((sortedItems es ptrVals).filterMap Item.entry?).Perm es := by
  rw [sortedItems_eq]
  refine ((sortBy_perm Item.key _).filterMap Item.entry?).trans (List.Perm.of_eq ?_)
  rw [List.filterMap_append, List.filterMap_map, List.filterMap_map]
  have hreal : List.filterMap (Item.entry? ∘ Item.real) es = es := by
    rw [show (Item.entry? ∘ Item.real : Entry src → _) = some from rfl, List.filterMap_some]
  have hptr : List.filterMap (Item.entry? ∘ fun q => (Item.ptr q.1 q.2 : Item src)) ptrVals =
      [] := List.filterMap_eq_nil_iff.mpr fun _ _ => rfl
  rw [hreal, hptr, List.append_nil]

@[simp] theorem length_sortedItems (es : List (Entry src))
    (ptrVals : List (UInt16 × UInt32)) :
    (sortedItems es ptrVals).length = es.length + ptrVals.length := by
  simp [sortedItems]

/-- A block has the size the layout reserves for it. -/
theorem length_writeIfd (order : ByteOrder) (es : List (Entry src)) (ptrVals : List (UInt16 × UInt32))
    (base : ℕ) (next : UInt32) :
    (writeIfd order es ptrVals base next).length = blockSize es ptrVals.length := by
  obtain ⟨rows, st, hw⟩ : ∃ rows st,
      writeItems order base ⟨[], []⟩ (sortedItems es ptrVals) = (rows, st) := ⟨_, _, rfl⟩
  obtain ⟨-, -, hrows⟩ := writeItems_ok (ExtState.ok_nil src) hw
  have hext := writeItems_ext [] (by simp) (by simp) hw
  rw [extSizeFrom_perm (entries_sortedItems es ptrVals)] at hext
  simp only [writeIfd, hw, List.length_append, length_put16, length_put32, hrows, hext,
    length_sortedItems, blockSize, tableSize, extSize, List.length_nil]
  omega

/-! ### Reading a block back -/

/-- The field a pointer row is read back as. -/
def ptrField (order : ByteOrder) (q : UInt16 × UInt32) : Field :=
  ⟨q.1, tiffLong, 1, put32 order q.2⟩

/-- Entries and pointers that can share a table: sound values, at most `maxIfdEntries`
rows, distinct pointer tags, and none of them on an entry. -/
structure Writable (es : List (Entry src)) (ptrVals : List (UInt16 × UInt32)) : Prop where
  sound : ∀ e ∈ es, e.Sound
  room : es.length + ptrVals.length ≤ maxIfdEntries
  apart : ∀ e ∈ es, ∀ q ∈ ptrVals, e.tag ≠ q.1
  nodup : (ptrVals.map Prod.fst).Nodup

/-- Entries that were not read from a pointer row. -/
def withoutPtrs (ptrVals : List (UInt16 × UInt32)) (es : List (Entry src)) :
    List (Entry src) :=
  es.filter fun e => (ptrVals.lookup e.tag).isNone

/-- `es'` is what the reader makes of the block of `es` and `ptrVals`. -/
structure ReadBack (order : ByteOrder) (es : List (Entry src))
    (ptrVals : List (UInt16 × UInt32)) (base : ℕ) (next : UInt32)
    (es' : List (Entry d)) : Prop where
  fields_eq : fields es' = canonicalDir (fields es ++ ptrVals.map (ptrField order))
  rewrites : writeIfd order (withoutPtrs ptrVals es') ptrVals base next =
    writeIfd order es ptrVals base next

theorem lookup_of_mem {ptrVals : List (UInt16 × UInt32)} {t : UInt16} {v : UInt32}
    (hn : (ptrVals.map Prod.fst).Nodup) (h : (t, v) ∈ ptrVals) :
    ptrVals.lookup t = some v := by
  obtain ⟨l₁, l₂, rfl⟩ := List.append_of_mem h
  refine List.lookup_eq_some_iff.mpr ⟨l₁, l₂, rfl, fun q hq => ?_⟩
  rw [List.map_append, List.nodup_append] at hn
  exact bne_iff_ne.mpr (hn.2.2 q.1 (List.mem_map_of_mem hq) t (by simp)).symm

theorem lookup_of_forall_ne {ptrVals : List (UInt16 × UInt32)} {t : UInt16}
    (h : ∀ q ∈ ptrVals, t ≠ q.1) : ptrVals.lookup t = none :=
  List.lookup_eq_none_iff.mpr fun q hq => bne_iff_ne.mpr (h q hq)

theorem sortedItems_fields (es : List (Entry src)) (ptrVals : List (UInt16 × UInt32)) :
    (sortedItems es ptrVals).map (Item.field order) =
      canonicalDir (fields es ++ ptrVals.map (ptrField order)) := by
  have hkey : ∀ it : Item src, (it.field order).tag.toNat = it.key := by
    rintro (e | ⟨t, v⟩) <;> rfl
  have hmap : (sortedItems es ptrVals).map (Item.field order) = canonicalDir
      ((es.map Item.real ++ ptrVals.map fun (t, v) => Item.ptr t v).map (Item.field order)) :=
    map_sortBy (Item.field order) hkey _
  rw [hmap, List.map_append, List.map_map, List.map_map]
  rfl

theorem Writable.items_ok {es : List (Entry src)} {ptrVals : List (UInt16 × UInt32)}
    (h : Writable es ptrVals) : ∀ it ∈ sortedItems es ptrVals, it.Ok ptrVals := by
  intro it hit
  rcases List.mem_append.mp (mem_sortBy.mp hit) with hit | hit
  · obtain ⟨e, he, rfl⟩ := List.mem_map.mp hit
    exact ⟨lookup_of_forall_ne (h.apart e he), h.sound e he⟩
  · obtain ⟨⟨t, v⟩, hq, rfl⟩ := List.mem_map.mp hit
    exact lookup_of_mem h.nodup hq

/-- The fields of one tag in a block: the entries with it, or the pointer with it. -/
theorem filter_tag_fields {es : List (Entry src)} {es' : List (Entry d)}
    {ptrVals : List (UInt16 × UInt32)}
    (h : fields es' = canonicalDir (fields es ++ ptrVals.map (ptrField order))) (t : UInt16) :
    fields (es'.filter fun e => e.tag = t) =
      fields (es.filter fun e => e.tag = t) ++
        (ptrVals.filter fun q => q.1 = t).map (ptrField order) := by
  have hconst : canonicalDir ((fields es ++ ptrVals.map (ptrField order)).filter
      fun f => f.tag = t) =
      (fields es ++ ptrVals.map (ptrField order)).filter fun f => f.tag = t :=
    sortBy_of_const (k := t.toNat) fun f hf =>
      congrArg UInt16.toNat (by simpa using (List.mem_filter.mp hf).2)
  have hk := congrArg (List.filter fun f => f.tag = t) h
  rw [canonicalDir, filter_sortBy, ← canonicalDir, hconst, List.filter_append] at hk
  simp only [fields, List.filter_map] at hk
  exact hk

theorem filter_ptr {ptrVals : List (UInt16 × UInt32)} {t : UInt16} {v : UInt32}
    (hn : (ptrVals.map Prod.fst).Nodup) (h : (t, v) ∈ ptrVals) :
    ptrVals.filter (fun q => q.1 = t) = [(t, v)] := by
  obtain ⟨l₁, l₂, rfl⟩ := List.append_of_mem h
  rw [List.map_append, List.map_cons, List.nodup_append, List.nodup_cons] at hn
  obtain ⟨-, ⟨h₂, -⟩, h₁⟩ := hn
  have h₁' : l₁.filter (fun q => q.1 = t) = [] := List.filter_eq_nil_iff.mpr fun q hq => by
    simpa using h₁ q.1 (List.mem_map_of_mem hq) t List.mem_cons_self
  have h₂' : l₂.filter (fun q => q.1 = t) = [] := List.filter_eq_nil_iff.mpr fun q hq => by
    simpa using fun he : q.1 = t => h₂ (List.mem_map.mpr ⟨q, hq, he⟩)
  simp [List.filter_append, h₁', h₂']

/-- The rows written for entries that were read back are these entries, in place. -/
theorem sortedItems_withoutPtrs {es : List (Entry src)} {es' : List (Entry d)}
    {ptrVals : List (UInt16 × UInt32)} (hw : Writable es ptrVals)
    (h : fields es' = canonicalDir (fields es ++ ptrVals.map (ptrField order))) :
    sortedItems (withoutPtrs ptrVals es') ptrVals = es'.map (reItem ptrVals) := by
  have hkey : ∀ e : Entry d, (reItem ptrVals e).tag = e.tag := by
    intro e
    unfold reItem
    split <;> rfl
  have hsorted : SortedBy Item.key (es'.map (reItem ptrVals)) := by
    have hs : SortedBy (fun f : Field => f.tag.toNat) (fields es') :=
      h ▸ sortBy_sorted _ _
    simpa only [SortedBy, fields, List.pairwise_map, Item.key, hkey, Entry.field_tag] using hs
  refine eq_of_sorted_of_filter_eq (sortBy_sorted _ _) hsorted fun k => ?_
  have hre : (es'.map (reItem ptrVals)).filter (fun it => it.key = k) =
      (es'.filter fun e => e.tag.toNat = k).map (reItem ptrVals) :=
    filter_key_map (reItem ptrVals) (fun e => congrArg UInt16.toNat (hkey e)) k es'
  have hreal : ((withoutPtrs ptrVals es').map Item.real).filter (fun it => it.key = k) =
      ((withoutPtrs ptrVals es').filter fun e => e.tag.toNat = k).map Item.real :=
    filter_key_map Item.real (fun _ => rfl) k _
  have hptrs : (ptrVals.map fun q => (Item.ptr q.1 q.2 : Item d)).filter
      (fun it => it.key = k) =
      (ptrVals.filter fun q => q.1.toNat = k).map fun q => (Item.ptr q.1 q.2 : Item d) :=
    filter_key_map (fun q => Item.ptr q.1 q.2) (fun _ => rfl) k ptrVals
  rw [sortedItems_eq, filter_key_sortBy, List.filter_append, hre, hreal, hptrs]
  by_cases hk : ∃ q ∈ ptrVals, q.1.toNat = k
  · -- A pointer has the key: one entry was read with it, from the pointer's row.
    obtain ⟨⟨t, v⟩, hq, rfl⟩ := hk
    have htags : ∀ {γ : Type} (f : γ → UInt16),
        (fun x => decide ((f x).toNat = t.toNat)) = fun x => decide (f x = t) :=
      fun f => funext fun x => decide_eq_decide.mpr UInt16.toNat_inj
    have hnone : (es.filter fun e => e.tag = t) = [] := List.filter_eq_nil_iff.mpr
      fun e he => by simpa using hw.apart e he _ hq
    have hone := filter_tag_fields h t
    rw [hnone, filter_ptr hw.nodup hq] at hone
    obtain ⟨e', hes', hfield⟩ := List.map_eq_singleton_iff.mp hone
    have htag : e'.tag = t := congrArg Field.tag hfield
    have hlook : ptrVals.lookup e'.tag = some v := htag ▸ lookup_of_mem hw.nodup hq
    have hdrop : (withoutPtrs ptrVals es').filter (fun e => e.tag = t) = [] := by
      refine List.filter_eq_nil_iff.mpr fun e he => ?_
      have hn := (List.mem_filter.mp he).2
      simp only [decide_eq_true_eq]
      rintro rfl
      simp [lookup_of_mem hw.nodup hq] at hn
    rw [htags Entry.tag, htags Prod.fst, hdrop, hes',
      filter_ptr hw.nodup hq]
    simp only [List.map_cons, List.map_nil, List.nil_append, reItem_of_some hlook, htag]
  · -- No pointer has the key: the entries with it are written as they were read.
    push Not at hk
    have hptr : (ptrVals.filter fun q => q.1.toNat = k) = [] :=
      List.filter_eq_nil_iff.mpr fun q hq => by simpa using hk q hq
    have hlook : ∀ e ∈ es'.filter (fun e => e.tag.toNat = k),
        ptrVals.lookup e.tag = none := by
      intro e he
      have hek : e.tag.toNat = k := by simpa using (List.mem_filter.mp he).2
      exact lookup_of_forall_ne fun q hq heq => hk q hq (heq ▸ hek)
    have hkeep : (withoutPtrs ptrVals es').filter (fun e => e.tag.toNat = k) =
        es'.filter fun e => e.tag.toNat = k := by
      rw [withoutPtrs, List.filter_comm]
      exact List.filter_eq_self.mpr fun e he => by simp [hlook e he]
    rw [hkeep, hptr, List.map_nil, List.append_nil]
    exact List.map_congr_left fun e he => (reItem_of_none (hlook e he)).symm

/-- A block is read back. -/
theorem parseIfd_writeIfd {es : List (Entry src)} {ptrVals : List (UInt16 × UInt32)}
    {off base : ℕ} {next : UInt32} (hw : Writable es ptrVals)
    (hbase : base = off + tableSize es ptrVals.length)
    (hat : HasAt d off (writeIfd order es ptrVals base next))
    (hfit : off + blockSize es ptrVals.length < 2 ^ 32) :
    ∃ es', parseIfd d off order = some (es', next) ∧
      ReadBack order es ptrVals base next es' := by
  obtain ⟨rows, st, hitems⟩ : ∃ rows st,
      writeItems order base ⟨[], []⟩ (sortedItems es ptrVals) = (rows, st) := ⟨_, _, rfl⟩
  have hlen := length_writeIfd order es ptrVals base next
  have hroom := hw.room
  simp only [maxIfdEntries] at hroom
  simp only [writeIfd, hitems] at hat hlen
  obtain ⟨-, -, hrowlen⟩ := writeItems_ok (ExtState.ok_nil src) hitems
  rw [length_sortedItems] at hrowlen
  obtain ⟨hat, hext⟩ := hasAt_append.mp hat
  obtain ⟨hat, hnext⟩ := hasAt_append.mp hat
  obtain ⟨hcount, hrows⟩ := hasAt_append.mp hat
  simp only [List.length_append, length_put16, length_put32, hrowlen] at hext hnext hrows hlen
  have hbase' : off + (2 + 12 * (es.length + ptrVals.length) + 4) = base := by
    rw [hbase, tableSize]
  rw [hbase'] at hext
  have hext_len : base + st.ext.length < 2 ^ 32 := by
    simp only [blockSize, tableSize] at hlen hfit
    omega
  obtain ⟨hfields, st2, hre, hr⟩ := readEntries_writeItems hw.items_ok
    (ExtState.ok_nil src) (replays_nil base) hitems hrows hext List.prefix_rfl hext_len
  rw [length_sortedItems] at hfields hre
  have hn : (UInt16.ofNat (es.length + ptrVals.length)).toNat = es.length + ptrVals.length :=
    UInt16.toNat_ofNat_of_lt' (by simp only [UInt16.size]; omega)
  refine ⟨readEntries d order (es.length + ptrVals.length) (off + 2), ?_, ?_, ?_⟩
  · have hrd := rd16_of_hasAt hcount
    have hrd' := rd32_of_hasAt (o := off + 2 + (es.length + ptrVals.length) * 12)
      (by rw [Nat.mul_comm, Nat.add_assoc]; exact hnext)
    rw [length_sortedItems] at hrd
    have hcap : ¬ maxIfdEntries < es.length + ptrVals.length := by
      have := hw.room
      omega
    simp only [parseIfd, hrd, hrd', hn, if_neg hcap, Option.bind_eq_bind, Option.bind_some,
      Option.getD_some]
  · rw [hfields, sortedItems_fields]
  · have hsort := sortedItems_withoutPtrs hw (hfields.trans (sortedItems_fields es ptrVals))
    have hlen' := congrArg List.length hfields
    rw [fields, List.length_map, List.length_map, length_sortedItems] at hlen'
    simp only [writeIfd, hsort, hre, hitems, hr.ext, List.length_map, hlen',
      length_sortedItems]

/-! ### Pointers -/

/-- `es` without the pointer to `child`. -/
def dropPtr {β : Type} (child : Option β) (tag : UInt16) (es : List (Entry src)) :
    List (Entry src) :=
  if child.isSome then es.filter (fun e => e.tag ≠ tag) else es

theorem eraseP_eq_filter {α : Type} {p : α → Bool} {l : List α}
    (h : (l.filter p).length ≤ 1) : l.eraseP p = l.filter fun a => !p a := by
  induction l with
  | nil => rfl
  | cons a l ih =>
    by_cases ha : p a
    · have hl : l.filter p = [] := by
        rw [List.filter_cons_of_pos ha, List.length_cons] at h
        exact List.length_eq_zero_iff.mp (by omega)
      rw [List.eraseP_cons_of_pos ha, List.filter_cons_of_neg (by simp [ha])]
      refine (List.filter_eq_self.mpr fun b hb => ?_).symm
      simpa using List.filter_eq_nil_iff.mp hl b hb
    · rw [List.filter_cons_of_neg ha] at h
      rw [List.eraseP_cons_of_neg ha, List.filter_cons_of_pos (by simp [ha]), ih h]

theorem slice_of_field {e : Entry src} {t : UInt16} {v : UInt32}
    (h : e.field = ptrField order (t, v)) :
    slice e.value.bytes 0 4 = some (put32 order v) := by
  have hval : e.value.bytes = put32 order v := congrArg Field.value h
  rw [hval]
  exact (hasAt_self _).slice (by simp)

/-- The only entry with a tag is a pointer row: it is taken out. -/
theorem takePointer_of_fields {es : List (Entry src)} {t : UInt16} {v : UInt32}
    (h : fields (es.filter fun e => e.tag = t) = [ptrField order (t, v)]) :
    takePointer es t order = (some v.toNat, es.filter fun e => e.tag ≠ t) := by
  obtain ⟨e, he, hfield⟩ := List.map_eq_singleton_iff.mp h
  have hfind : es.find? (fun e => e.tag = t) = some e := by
    rw [← List.head?_filter, he, List.head?_cons]
  have herase := eraseP_eq_filter (p := fun e => e.tag = t) (l := es) (by rw [he]; simp)
  simp only [takePointer, hfind, Option.bind_some, slice_of_field hfield, wordValue_put32,
    herase, ← decide_not]

/-- The first entry with a tag is too short for an offset: nothing is taken out. -/
theorem takePointer_of_firstShort {es : List (Entry src)} {t : UInt16}
    (h : FirstShort t es) : takePointer es t order = (none, es) := by
  unfold takePointer
  cases hf : es.find? (fun e => e.tag = t) with
  | none => rfl
  | some e =>
    have hslice : slice e.value.bytes 0 4 = none :=
      if_neg fun hle => absurd (h e hf) (by omega)
    rw [Option.bind_some, hslice]

/-- Whether the first entry with a tag is short shows in the fields. -/
theorem FirstShort.of_fields {es : List (Entry src)} {es' : List (Entry d)} {t : UInt16}
    (h : fields (es'.filter fun e => e.tag = t) = fields (es.filter fun e => e.tag = t))
    (hs : FirstShort t es) : FirstShort t es' := by
  intro e' he'
  have hhead := congrArg List.head? h
  rw [fields, fields, List.head?_map, List.head?_map, List.head?_filter, List.head?_filter,
    he', Option.map_some] at hhead
  obtain ⟨e, he, hfield⟩ := Option.map_eq_some_iff.mp hhead.symm
  have hval : e.value.bytes = e'.value.bytes := congrArg Field.value hfield
  rw [← hval]
  exact hs e he

/-- The pointer to a child directory is taken out of the entries read back, and nothing is
when there is no child. -/
theorem takePointer_child {child : Option (List (Entry src))} {es : List (Entry src)}
    {es' : List (Entry d)} {t : UInt16} {off : ℕ} (hp : PointerOk child t es)
    (h : fields (es'.filter fun e => e.tag = t) =
      fields (es.filter fun e => e.tag = t) ++ (pointerTo child t off).map (ptrField order))
    (hoff : off < 2 ^ 32) :
    takePointer es' t order = (child.map fun _ => off, dropPtr child t es') := by
  cases child with
  | none =>
    rw [show pointerTo (none : Option (List (Entry src))) t off = [] from rfl, List.map_nil,
      List.append_nil] at h
    exact takePointer_of_firstShort (FirstShort.of_fields h (hp.2 rfl))
  | some c =>
    have hnil : (es.filter fun e => e.tag = t) = [] :=
      List.filter_eq_nil_iff.mpr fun e he => by simpa using hp.1 rfl e he
    rw [hnil] at h
    rw [takePointer_of_fields h, toNat_ofNat32 hoff]
    rfl

theorem sweep_dropPtr {β : Type} (child : Option β) (t : UInt16) (off : ℕ)
    (es : List (Entry src)) :
    sweep (child.map fun _ => off) t (dropPtr child t es) = dropPtr child t es := by
  cases child with
  | none => rfl
  | some c => simp [sweep, dropPtr, List.filter_filter]

/-- Taking out one pointer leaves the entries of another tag. -/
theorem filter_dropPtr {β : Type} (child : Option β) {t t' : UInt16} (h : t ≠ t')
    (es : List (Entry src)) :
    (dropPtr child t' es).filter (fun e => e.tag = t) = es.filter fun e => e.tag = t := by
  cases child with
  | none => rfl
  | some c =>
    simp only [dropPtr, Option.isSome_some, if_true, List.filter_filter]
    refine List.filter_congr fun e _ => ?_
    by_cases he : e.tag = t <;> simp [he, h]

@[simp] theorem withoutPtrs_nil (es : List (Entry src)) : withoutPtrs [] es = es := by
  simp [withoutPtrs]

theorem withoutPtrs_pointerTo (child : Option (List (Entry d))) (t : UInt16) (off : ℕ)
    (ptrVals : List (UInt16 × UInt32)) (es : List (Entry src)) :
    withoutPtrs (pointerTo child t off ++ ptrVals) es =
      withoutPtrs ptrVals (dropPtr child t es) := by
  cases child with
  | none => rfl
  | some c =>
    simp only [withoutPtrs, pointerTo, dropPtr, Option.isSome_some, if_true,
      List.singleton_append, List.filter_filter]
    refine List.filter_congr fun e _ => ?_
    by_cases he : e.tag = t
    · simp [he]
    · simp [List.lookup_cons, he, beq_false_of_ne he]

end Zencodec.Exif
