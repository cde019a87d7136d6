/-
The preflight's reservation against the size of the rewritten packet.

The directories of the tree that the reader builds are directories of the walk, each a
different one (`cost_le`), so what is reserved for them bounds the directories that a pruned
tree is written with (`blockSize_le`). The thumbnail is the exception: the walk reserves room
for the last offset and length of IFD1, the reader takes the first of each.
-/
import Zencodec.Rewrite.Reserved

open Slices Zencodec.Exif Act

namespace Zencodec.Rewrite.Preflight

variable {Ω : Type} {host : Host Ω} {req : Context Ω} {tiff : Bytes} {order : ByteOrder}

/-! ### The whole preflight -/

theorem validate_ensures (bytes : Bytes) : Ensures (validate host req bytes) fun r =>
    r ≤ req.maxMetadata ∧ ∃ order first l, orderOf (tiffOf bytes) = some order ∧
      rd32 (tiffOf bytes) 4 order = some first ∧
      Worklist.Visits (leadsTo (tiffOf bytes) order) [first.toNat] l ∧
      (if hasPrefix bytes then 14 else 8) + (l.map (cost (tiffOf bytes) order)).sum ≤ r := by
  refine Ensures.bind (ensures_getOr fun _ h => h) fun order horder => ensures_skip fun _ => ?_
  refine ensures_skip fun _ => (u32at_ensures 4).bind fun first hfirst => ensures_skip fun _ => ?_
  refine (walk_ensures 64 _ (.inl (by simp))).mono fun r ⟨hr, l, hvisits, _, hsum⟩ => ?_
  exact ⟨hr, order, first, l, horder, hfirst, hvisits, hsum⟩

/-! ### Sizes -/

/-- The out-of-line values of some entries of a directory fit the ranges of all. -/
theorem extSizeFrom_le (K : Finset (ℕ × ℕ)) (placed : List (ℕ × ℕ))
    (es : List (Exif.Entry tiff))
    (h : ∀ x ∈ es, 4 < x.value.bytes.length → ∃ k ∈ K, x.value.key = some k) :
    extSizeFrom placed es ≤ ∑ k ∈ K \ placed.toFinset, align2 k.2 := by
  induction es generalizing placed with
  | nil => exact Nat.zero_le _
  | cons x es ih =>
    have ih' := fun placed => ih placed fun y hy => h y (List.mem_cons_of_mem _ hy)
    rw [extSizeFrom]
    split
    · exact ih' placed
    · next h4 =>
      obtain ⟨k, hk, hkey⟩ := h x List.mem_cons_self (by omega)
      rw [hkey]
      dsimp only
      split
      · exact ih' placed
      · next hnew =>
        have hrest := ih' (k :: placed)
        have hmem : k ∈ K \ placed.toFinset :=
          Finset.mem_sdiff.mpr ⟨hk, fun hp => hnew (List.mem_toFinset.mp hp)⟩
        have hsplit : K \ (k :: placed).toFinset = (K \ placed.toFinset).erase k := by
          rw [List.toFinset_cons, Finset.sdiff_insert]
        rw [← Finset.add_sum_erase _ _ hmem, ← hsplit, Cow.key_length hkey]
        exact Nat.add_le_add_left hrest _

/-- Parsed values are borrowed. -/
theorem readEntries_key (n e : ℕ) :
    ∀ x ∈ readEntries tiff order n e, ∃ k, x.value.key = some k := by
  induction n generalizing e with
  | zero => exact fun x hx => by cases hx
  | succ n ih =>
    intro x hx
    rw [readEntries] at hx
    split at hx
    · cases hx
    · rcases List.mem_append.mp hx with hx | hx
      · have hres := Option.mem_toList.mp hx
        simp only [resolveEntry, Option.bind_eq_bind, Option.bind_eq_some_iff] at hres
        obtain ⟨tag, -, kind, -, cnt, -, s, -, off, -, v, -, hx⟩ := hres
        obtain rfl := Option.some_inj.mp hx
        exact ⟨_, rfl⟩
      · exact ih (e + 12) x hx

theorem entriesAt_key (p : ℕ) : ∀ x ∈ entriesAt tiff order p, ∃ k, x.value.key = some k := by
  unfold entriesAt
  cases rd16 tiff p order with
  | none => exact fun x hx => by cases hx
  | some count => exact readEntries_key _ _

/-- Some entries of the directory at `p` are written in its room, with synthesized rows in
the place of others. -/
theorem blockSize_le {p nptr : ℕ} {d : List (Exif.Entry tiff)}
    (hsub : ∀ x ∈ d, x ∈ entriesAt tiff order p)
    (hlen : d.length + nptr ≤ (entriesAt tiff order p).length) :
    blockSize d nptr + thumbnailRoom order (entriesAt tiff order p) ≤ cost tiff order p := by
  have hext : extSize d ≤ storage (entriesAt tiff order p) := by
    have hle := extSizeFrom_le ((entriesAt tiff order p).filterMap bigKey).toFinset [] d
      fun x hx h4 => by
        obtain ⟨k, hk⟩ := entriesAt_key p x (hsub x hx)
        exact ⟨k, List.mem_toFinset.mpr (List.mem_filterMap.mpr
          ⟨x, hsub x hx, by rw [bigKey, if_pos h4, hk]⟩), hk⟩
    rwa [List.toFinset_nil, Finset.sdiff_empty] at hle
  unfold cost blockSize tableSize
  omega

/-! ### Where the reader finds its directories -/

theorem parseIfd_at {p : ℕ} {es : List (Exif.Entry tiff)} {next : UInt32}
    (h : parseIfd tiff p order = some (es, next)) :
    es = entriesAt tiff order p ∧ next = nextAt tiff order p := by
  simp only [parseIfd, Option.bind_eq_bind, Option.bind_eq_some_iff] at h
  obtain ⟨count, hcount, h⟩ := h
  split at h
  · cases h
  · obtain ⟨rfl, rfl⟩ := Prod.mk.inj (Option.some_inj.mp h)
    simp only [entriesAt, nextAt, hcount, Option.elim_some, and_self]

/-- The byte order mark is no directory of at most a thousand entries. -/
theorem parseIfd_zero (horder : orderOf tiff = some order) : parseIfd tiff 0 order = none := by
  cases hcount : rd16 tiff 0 order with
  | none => simp only [parseIfd, hcount, Option.bind_eq_bind, Option.bind_none]
  | some count =>
    obtain ⟨bs, hbs, rfl⟩ := Option.map_eq_some_iff.mp hcount
    obtain ⟨-, -, hbs⟩ := slice_eq_some.mp hbs
    rw [List.drop_zero, Nat.sub_zero] at hbs
    have hbig : maxIfdEntries < (UInt16.ofNat (wordValue order bs)).toNat := by
      unfold Exif.orderOf at horder
      rw [← hbs]
      split at horder
      · next hmark =>
        obtain rfl := Option.some_inj.mp horder
        rw [hmark]
        decide
      · split at horder
        · next hmark =>
          obtain rfl := Option.some_inj.mp horder
          rw [hmark]
          decide
        · cases horder
    simp only [parseIfd, hcount, Option.bind_eq_bind, Option.bind_some, if_pos hbig]

/-- What is taken for a pointer is the offset that the walk follows. -/
theorem takePointer_child {es : List (Exif.Entry tiff)} {tag : UInt16} {o : ℕ}
    (htag : tag ∈ [tagExifIfd, tagGpsIfd, tagInteropIfd])
    (h : (takePointer es tag order).1 = some o) (ho : o ≠ 0) :
    ∃ x ∈ es, x.tag = tag ∧ childOf order x = some o := by
  unfold takePointer at h
  split at h
  · cases h
  · next b hb =>
    obtain rfl := Option.some_inj.mp h
    obtain ⟨x, hx, hslice⟩ := Option.bind_eq_some_iff.mp hb
    have hxtag : x.tag = tag := by simpa using List.find?_some hx
    refine ⟨x, List.mem_of_find?_eq_some hx, hxtag, ?_⟩
    have hlt : wordValue order b < UInt32.size := by
      have hlen := slice_length hslice
      have hb := wordValue_lt order b
      rw [hlen] at hb
      exact hb
    unfold childOf
    rw [hxtag, if_pos htag, rd32, hslice, Option.map_some, Option.map_some,
      UInt32.toNat_ofNat_of_lt' hlt, Option.filter_some_pos (by simpa using ho)]

/-- Two entries lead to different directories. -/
theorem child_ne {es : List (Exif.Entry tiff)} (h : (es.filterMap (childOf order)).Nodup)
    {x y : Exif.Entry tiff} (hx : x ∈ es) (hy : y ∈ es) (hxy : x ≠ y) {o o' : ℕ}
    (ho : childOf order x = some o) (ho' : childOf order y = some o') : o ≠ o' := by
  have hpair := List.pairwise_filterMap.mp h
  have hsymm : Std.Symm fun a a' : Exif.Entry tiff =>
      ∀ b, childOf order a = some b → ∀ b', childOf order a' = some b' → b ≠ b' :=
    ⟨fun a a' haa b hb b' hb' => (haa b' hb' b hb).symm⟩
  exact hpair.forall hx hy hxy o ho o' ho'

/-- The sum over some of the directories of a walk. -/
theorem cost_le {l places : List ℕ} (hnodup : places.Nodup)
    (hsub : ∀ p ∈ places, p ∈ l) :
    (places.map (cost tiff order)).sum ≤ (l.map (cost tiff order)).sum := by
  obtain ⟨l', hperm, hsublist⟩ := hnodup.subperm hsub
  rw [← (hperm.map _).sum_eq]
  exact (hsublist.map _).sum_le_sum fun _ _ => Nat.zero_le _

/-- `d` are entries of the directory at `p`, and `nptr` others were taken out. -/
structure From (order : ByteOrder) (d : List (Exif.Entry tiff)) (nptr p : ℕ) : Prop where
  sub : ∀ x ∈ d, x ∈ entriesAt tiff order p
  room : d.length + nptr ≤ (entriesAt tiff order p).length

theorem From.filter {d : List (Exif.Entry tiff)} {n m p : ℕ} (h : From order d n p) (hm : m ≤ n)
    (q : Exif.Entry tiff → Bool) : From order (d.filter q) m p := by
  refine ⟨fun x hx => h.sub x (List.mem_filter.mp hx).1, ?_⟩
  have hroom := h.room
  have hlen := List.length_filter_le q d
  omega

/-- A row of the directory at `p` with the tag points at `o`. -/
def PointsAt (tiff : Bytes) (order : ByteOrder) (tag : UInt16) (p o : ℕ) : Prop :=
  ∃ x ∈ entriesAt tiff order p, x.tag = tag ∧ childOf order x = some o

/-- The thumbnail of a tree, when it has one, is no longer than `limit`. -/
def ThumbnailWithin (x : Exif tiff) (limit : ℕ) : Prop := ∀ t, x.thumbnail = some t → t.len ≤ limit

/-- The directories of a tree in the packet whose IFD0 is at `first`. -/
structure Placed (order : ByteOrder) (first : ℕ) (x : Exif tiff) : Prop where
  ifd0 : From order x.ifd0 x.ifd0Nptr first
  exif : ∀ d, x.exifIfd = some d → ∃ o, PointsAt tiff order tagExifIfd first o ∧
    From order d x.exifNptr o ∧
    ∀ i, x.interopIfd = some i → ∃ o', PointsAt tiff order tagInteropIfd o o' ∧ From order i 0 o'
  gps : ∀ d, x.gpsIfd = some d → ∃ o, PointsAt tiff order tagGpsIfd first o ∧ From order d 0 o
  ifd1 : ∀ d, x.ifd1 = some d → nextAt tiff order first ≠ 0 ∧
    From order d x.ifd1Nptr (nextAt tiff order first).toNat
  thumbnail : x.thumbnail.isSome → x.ifd1.isSome

theorem PointsAt.leadsTo {tag : UInt16} {p o : ℕ} (h : PointsAt tiff order tag p o) :
    o ∈ leadsTo tiff order p := by
  obtain ⟨x, hx, -, hc⟩ := h
  exact List.mem_append_left _ (List.mem_filterMap.mpr ⟨x, hx, hc⟩)

/-- Pruning keeps every directory in its place. -/
theorem Placed.filtered {first : ℕ} {x : Exif tiff} (h : Placed order first x)
    (policy : ExifPolicy) : Placed order first (x.filtered policy) := by
  have hexif : (x.filtered policy).exifIfd.isSome → x.exifIfd.isSome := by
    intro hs
    obtain ⟨d, hd⟩ := Option.isSome_iff_exists.mp hs
    obtain ⟨e, he, -⟩ := filtered_exifIfd hd
    exact Option.isSome_iff_exists.mpr ⟨e, he⟩
  have hgps : (x.filtered policy).gpsIfd.isSome → x.gpsIfd.isSome := by
    simp only [Exif.filtered]
    split <;> simp
  refine ⟨?_, ?_, ?_, ?_, ?_⟩
  · exact h.ifd0.filter
      (Nat.add_le_add (Bool.toNat_le_toNat hexif) (Bool.toNat_le_toNat hgps)) _
  · intro d hd
    obtain ⟨e, he, rfl⟩ := filtered_exifIfd hd
    obtain ⟨o, hpoint, hfrom, hinterop⟩ := h.exif e he
    have hkept : ∀ i, (x.filtered policy).interopIfd = some i →
        ∃ i', x.interopIfd = some i' ∧ i = i'.filter keepInterop := by
      intro i hi
      obtain ⟨-, -, -, i', hi', hfilter⟩ := filtered_interopIfd hi
      exact ⟨i', hi', hfilter⟩
    refine ⟨o, hpoint, hfrom.filter (Bool.toNat_le_toNat fun hs => ?_) _, fun i hi => ?_⟩
    · unfold Exif.interop at hs ⊢
      rw [hd, Option.bind_some] at hs
      rw [he, Option.bind_some]
      obtain ⟨i, hi⟩ := Option.isSome_iff_exists.mp hs
      obtain ⟨i', hi', -⟩ := hkept i hi
      exact Option.isSome_iff_exists.mpr ⟨i', hi'⟩
    · obtain ⟨i', hi', rfl⟩ := hkept i hi
      obtain ⟨o', hpoint', hfrom'⟩ := hinterop i' hi'
      exact ⟨o', hpoint', hfrom'.filter le_rfl _⟩
  · intro d hd
    simp only [Exif.filtered] at hd
    split at hd
    · exact h.gps d hd
    · cases hd
  · intro d hd
    obtain ⟨hkeep, e, he, rfl⟩ := filtered_ifd1 hd
    obtain ⟨hne, hfrom⟩ := h.ifd1 e he
    refine ⟨hne, hfrom.filter ?_ _⟩
    simp only [ifd1Nptr, Exif.filtered, if_pos hkeep, le_refl]
  · have hthumb := h.thumbnail
    simp only [Exif.filtered]
    split
    · simpa using hthumb
    · simp

/-- A tree is written in the room that a walk over its packet reserves. -/
theorem Placed.serializedLen_le {first : ℕ} {x : Exif tiff} (h : Placed order first x)
    {l : List ℕ} (hvisits : Worklist.Visits (Preflight.leadsTo tiff order) [first] l)
    (hthumb : ThumbnailWithin x
      (thumbnailRoom order (entriesAt tiff order (nextAt tiff order first).toNat))) :
    x.serializedLen ≤ (if x.hadPrefix then 14 else 8) + (l.map (cost tiff order)).sum := by
  have hexif : ∃ a b : List ℕ, (a.Nodup ∧ b.Nodup) ∧
      (∀ q ∈ a, PointsAt tiff order tagExifIfd first q) ∧
      (∀ q ∈ b, ∃ p ∈ a, PointsAt tiff order tagInteropIfd p q) ∧
      x.exifIfd.elim 0 (blockSize · x.exifNptr) + x.interop.elim 0 (blockSize · 0) ≤
        (a.map (cost tiff order)).sum + (b.map (cost tiff order)).sum := by
    cases hd : x.exifIfd with
    | none =>
      refine ⟨[], [], ⟨List.nodup_nil, List.nodup_nil⟩, fun q hq => (by cases hq),
        fun q hq => (by cases hq), ?_⟩
      have hnone : x.interop = none := by rw [Exif.interop, hd, Option.bind_none]
      rw [hnone]
      exact le_refl _
    | some d =>
      obtain ⟨o, hpoint, hfrom, hinterop⟩ := h.exif d hd
      have hle := le_trans (Nat.le_add_right _ _) (blockSize_le hfrom.sub hfrom.room)
      have hsame : x.interop = x.interopIfd := by rw [Exif.interop, hd, Option.bind_some]
      rw [hsame]
      cases hi : x.interopIfd with
      | none =>
        refine ⟨[o], [], ⟨List.nodup_singleton o, List.nodup_nil⟩, fun q hq => ?_,
          fun q hq => (by cases hq), ?_⟩
        · rw [List.mem_singleton.mp hq]
          exact hpoint
        · simpa using hle
      | some i =>
        obtain ⟨o', hpoint', hfrom'⟩ := hinterop i hi
        have hle' := le_trans (Nat.le_add_right _ _) (blockSize_le hfrom'.sub hfrom'.room)
        refine ⟨[o], [o'], ⟨List.nodup_singleton o, List.nodup_singleton o'⟩, fun q hq => ?_,
          fun q hq => ⟨o, List.mem_singleton_self o, ?_⟩, ?_⟩
        · rw [List.mem_singleton.mp hq]
          exact hpoint
        · rw [List.mem_singleton.mp hq]
          exact hpoint'
        · simpa using Nat.add_le_add hle hle'
  have hgps : ∃ c : List ℕ, c.Nodup ∧ (∀ q ∈ c, PointsAt tiff order tagGpsIfd first q) ∧
      x.gpsIfd.elim 0 (blockSize · 0) ≤ (c.map (cost tiff order)).sum := by
    cases hd : x.gpsIfd with
    | none => exact ⟨[], List.nodup_nil, fun q hq => (by cases hq), le_refl _⟩
    | some d =>
      obtain ⟨o, hpoint, hfrom⟩ := h.gps d hd
      have hle := blockSize_le hfrom.sub hfrom.room
      refine ⟨[o], List.nodup_singleton o, fun q hq => ?_, ?_⟩
      · rw [List.mem_singleton.mp hq]
        exact hpoint
      · rw [List.map_singleton, List.sum_singleton]
        exact le_trans (Nat.le_add_right _ _) hle
  have hifd1 : ∃ d : List ℕ, d.Nodup ∧
      (∀ q ∈ d, nextAt tiff order first ≠ 0 ∧ q = (nextAt tiff order first).toNat) ∧
      x.ifd1.elim 0 (blockSize · x.ifd1Nptr) + x.thumbnail.elim 0 (·.bytes.length) ≤
        (d.map (cost tiff order)).sum := by
    cases hd : x.ifd1 with
    | none =>
      have hnone : x.thumbnail = none := by
        cases ht : x.thumbnail with
        | none => rfl
        | some t =>
          have hs := h.thumbnail (by rw [ht]; rfl)
          rw [hd] at hs
          cases hs
      rw [hnone]
      exact ⟨[], List.nodup_nil, fun q hq => (by cases hq), le_refl _⟩
    | some d =>
      obtain ⟨hne, hfrom⟩ := h.ifd1 d hd
      have hle := blockSize_le hfrom.sub hfrom.room
      refine ⟨[(nextAt tiff order first).toNat], List.nodup_singleton _, fun q hq => ?_, ?_⟩
      · exact ⟨hne, List.mem_singleton.mp hq⟩
      · have hlen : x.thumbnail.elim 0 (·.bytes.length) ≤
            thumbnailRoom order (entriesAt tiff order (nextAt tiff order first).toNat) := by
          cases ht : x.thumbnail with
          | none => exact Nat.zero_le _
          | some t =>
            rw [Option.elim_some, Slice.length_bytes]
            exact hthumb t ht
        rw [List.map_singleton, List.sum_singleton]
        exact le_trans (Nat.add_le_add_left hlen _) hle
  obtain ⟨a, b, ⟨ha, hb⟩, hpa, hpb, hsa⟩ := hexif
  obtain ⟨c, hc, hpc, hsc⟩ := hgps
  obtain ⟨d, hd, hpd, hsd⟩ := hifd1
  have hroot : blockSize x.ifd0 x.ifd0Nptr ≤ cost tiff order first :=
    le_trans (Nat.le_add_right _ _) (blockSize_le h.ifd0.sub h.ifd0.room)
  have hfirst : first ∈ l := hvisits.start_mem List.mem_cons_self
  -- Every other directory is led to, by IFD0 or by the Exif IFD.
  have hled : ∀ q ∈ a ++ c ++ d, q ∈ leadsTo tiff order first := by
    intro q hq
    rcases List.mem_append.mp hq with hq | hq
    · rcases List.mem_append.mp hq with hq | hq
      · exact (hpa q hq).leadsTo
      · exact (hpc q hq).leadsTo
    · obtain ⟨hne, rfl⟩ := hpd q hq
      refine List.mem_append_right _ ?_
      rw [if_neg hne]
      exact List.mem_singleton_self _
  have hled' : ∀ q ∈ b, ∃ p ∈ l, p ≠ first ∧ q ∈ leadsTo tiff order p := by
    intro q hq
    obtain ⟨p, hp, hpq⟩ := hpb q hq
    have hpl : p ∈ leadsTo tiff order first := (hpa p hp).leadsTo
    refine ⟨p, hvisits.next_mem hfirst hpl, ?_, hpq.leadsTo⟩
    rintro rfl
    exact hvisits.start_not_next List.mem_cons_self hfirst hpl
  have hsub : ∀ q ∈ first :: (a ++ c ++ d ++ b), q ∈ l := by
    intro q hq
    rcases List.mem_cons.mp hq with rfl | hq
    · exact hfirst
    · rcases List.mem_append.mp hq with hq | hq
      · exact hvisits.next_mem hfirst (hled q hq)
      · obtain ⟨p, hp, -, hpq⟩ := hled' q hq
        exact hvisits.next_mem hp hpq
  have hnodup : (first :: (a ++ c ++ d ++ b)).Nodup := by
    have hall := List.nodup_append.mp (hvisits.next_nodup hfirst)
    refine List.nodup_cons.mpr ⟨fun hmem => ?_, ?_⟩
    · rcases List.mem_append.mp hmem with hmem | hmem
      · exact hvisits.start_not_next List.mem_cons_self hfirst (hled first hmem)
      · obtain ⟨p, hp, -, hpq⟩ := hled' first hmem
        exact hvisits.start_not_next List.mem_cons_self hp hpq
    · refine List.nodup_append.mpr ⟨List.nodup_append.mpr ⟨List.nodup_append.mpr
        ⟨ha, hc, ?_⟩, hd, ?_⟩, hb, ?_⟩
      · intro q hq q' hq'
        obtain ⟨x, hx, hxtag, hxc⟩ := hpa q hq
        obtain ⟨y, hy, hytag, hyc⟩ := hpc q' hq'
        refine child_ne hall.1 hx hy (fun hxy => ?_) hxc hyc
        rw [hxy, hytag] at hxtag
        exact absurd hxtag (by decide)
      · intro q hq q' hq' hqq
        obtain ⟨hne, rfl⟩ := hpd q' hq'
        have hrow : q ∈ (entriesAt tiff order first).filterMap (childOf order) := by
          rcases List.mem_append.mp hq with hq | hq
          · obtain ⟨x, hx, -, hxc⟩ := hpa q hq
            exact List.mem_filterMap.mpr ⟨x, hx, hxc⟩
          · obtain ⟨x, hx, -, hxc⟩ := hpc q hq
            exact List.mem_filterMap.mpr ⟨x, hx, hxc⟩
        refine hall.2.2 q hrow _ ?_ hqq
        rw [if_neg hne]
        exact List.mem_singleton_self _
      · rintro q hq _ hq' rfl
        obtain ⟨p, hp, hne, hpq⟩ := hled' q hq'
        exact hvisits.next_disjoint hfirst hp (fun h => hne h.symm) (hled q hq) hpq
  have hsum := @cost_le tiff order _ _ hnodup hsub
  simp only [List.map_cons, List.map_append, List.sum_cons, List.sum_append] at hsum
  unfold serializedLen
  have hprefix6 : exifPrefix.length = 6 := rfl
  have hheader : tiffHeaderSize = 8 := rfl
  split <;> omega

/-! ### Parsed trees -/

/-- The value that the reader takes for a thumbnail tag. -/
def firstValue (order : ByteOrder) (tag : UInt16) (rows : List (Exif.Entry tiff)) :
    Option UInt32 :=
  (rows.find? fun x => x.tag = tag).bind (readUint · order)

/-- The rows of IFD1, when IFD0 names one that the reader accepts. -/
def ifd1Rows (tiff : Bytes) (order : ByteOrder) (first : ℕ) : Option (List (Exif.Entry tiff)) :=
  if nextAt tiff order first = 0 then none
  else (parseIfd tiff (nextAt tiff order first).toNat order).map Prod.fst

/-- The first offset and length of the thumbnail, when they name bytes of the packet, name no
more than the last single ones. -/
def FirstReserved (order : ByteOrder) (rows : List (Exif.Entry tiff)) : Prop :=
  ∀ o ∈ firstValue order tagThumbOffset rows, ∀ l ∈ firstValue order tagThumbLength rows,
    o.toNat + l.toNat ≤ tiff.length → l.toNat ≤ thumbnailRoom order rows

/-- Room is reserved for the thumbnail that the reader takes from the packet. -/
def ThumbnailReserved (bytes : Bytes) : Prop :=
  ∀ order ∈ Exif.orderOf (tiffOf bytes), ∀ first ∈ rd32 (tiffOf bytes) 4 order,
    ∀ rows ∈ ifd1Rows (tiffOf bytes) order first.toNat, FirstReserved order rows

/-- An offset that a parsed directory was read at is not zero. -/
theorem ne_zero_of_parseIfd (horder : Exif.orderOf tiff = some order) {o : ℕ}
    {r : List (Exif.Entry tiff) × UInt32} (h : parseIfd tiff o order = some r) : o ≠ 0 := by
  rintro rfl
  rw [parseIfd_zero horder] at h
  cases h

/-- Taking a pointer out of a directory and reading there. -/
theorem from_takePointer {tag : UInt16} (htag : tag ∈ [tagExifIfd, tagGpsIfd, tagInteropIfd])
    (horder : Exif.orderOf tiff = some order) {p o : ℕ} {es d : List (Exif.Entry tiff)}
    {next : UInt32} (hsub : ∀ x ∈ es, x ∈ entriesAt tiff order p)
    (htaken : (takePointer es tag order).1 = some o)
    (hparse : parseIfd tiff o order = some (d, next)) :
    PointsAt tiff order tag p o ∧ From order d 0 o := by
  obtain ⟨x, hx, hxtag, hc⟩ :=
    takePointer_child htag htaken (ne_zero_of_parseIfd horder hparse)
  obtain ⟨rfl, -⟩ := parseIfd_at hparse
  exact ⟨⟨x, hsub x hx, hxtag, hc⟩, fun y hy => hy, le_refl _⟩

/-- The Exif IFD that the reader builds, and the Interop IFD in it. -/
theorem from_parseExifIfd (horder : Exif.orderOf tiff = some order) {o : ℕ}
    {d : List (Exif.Entry tiff)} {i : Option (List (Exif.Entry tiff))}
    (h : parseExifIfd tiff order o = some (d, i)) : From order d i.isSome.toNat o ∧
      ∀ i', i = some i' → ∃ o', PointsAt tiff order tagInteropIfd o o' ∧ From order i' 0 o' := by
  obtain ⟨e, next, hparse, rfl, rfl⟩ := parseExifIfd_eq_some h
  obtain ⟨rfl, -⟩ := parseIfd_at hparse
  have htaken := takePointer_taken (entriesAt tiff order o) tagInteropIfd order
  have hsub := (sweep_sublist (takePointer (entriesAt tiff order o) tagInteropIfd order).1
    tagInteropIfd (takePointer (entriesAt tiff order o) tagInteropIfd order).2)
  refine ⟨⟨fun x hx => htaken.sublist.subset (hsub.subset hx), ?_⟩, fun i' hi' => ?_⟩
  · refine le_trans (Nat.add_le_add hsub.length_le ?_) htaken.room
    cases (takePointer (entriesAt tiff order o) tagInteropIfd order).1 with
    | none => exact le_refl _
    | some o' => exact Bool.toNat_le _
  · obtain ⟨o', ho', hi'⟩ := Option.bind_eq_some_iff.mp hi'
    obtain ⟨⟨i'', next'⟩, hparse', rfl⟩ := Option.map_eq_some_iff.mp hi'
    exact ⟨o', from_takePointer (by decide) horder (fun x hx => hx) ho' hparse'⟩

/-- IFD1 that the reader builds, and where the thumbnail stands. -/
theorem from_parseIfd1 {next : UInt32} {d : List (Exif.Entry tiff)}
    {thumb : Option (Exif.Slice tiff)} (h : parseIfd1 tiff order next = (some d, thumb)) :
    next ≠ 0 ∧ From order d (if thumb.isSome then 2 else 0) next.toNat ∧
      ∃ rows nx, parseIfd tiff next.toNat order = some (rows, nx) ∧
        ∀ t, thumb = some t → ∃ o l, firstValue order tagThumbOffset rows = some o ∧
          firstValue order tagThumbLength rows = some l ∧ o.toNat + l.toNat ≤ tiff.length ∧
          t.len = l.toNat := by
  have hroom := (parseIfd1_room h)
  unfold parseIfd1 at h
  split at h
  · cases (Prod.mk.inj h).1
  · next hne =>
    split at h
    · cases (Prod.mk.inj h).1
    · next rows nx hparse =>
      obtain ⟨hd, hthumb⟩ := Prod.mk.inj h
      obtain rfl := Option.some_inj.mp hd
      obtain ⟨hrows, -⟩ := parseIfd_at hparse
      refine ⟨hne, ⟨fun x hx => ?_, ?_⟩, rows, nx, hparse, fun t ht => ?_⟩
      · rw [← hrows]
        exact (List.mem_filter.mp hx).1
      · rw [← hrows]
        exact hroom rows nx hparse
      · rw [ht] at hthumb
        obtain ⟨o, ho, hthumb⟩ := Option.bind_eq_some_iff.mp hthumb
        obtain ⟨l, hl, hget⟩ := Option.bind_eq_some_iff.mp hthumb
        obtain ⟨hstart, hlen⟩ := Slice.get_eq_some.mp hget
        have hbounds := t.inBounds
        exact ⟨o, l, ho, hl, by omega, hlen⟩

/-- Where the directories of a parsed tree are. -/
theorem parseTiff_placed {hadPrefix : Bool} {x : Exif tiff}
    (h : parseTiff hadPrefix tiff = some x) : ∃ order first,
      Exif.orderOf tiff = some order ∧ rd32 tiff 4 order = some first ∧
      x.hadPrefix = hadPrefix ∧ Placed order first.toNat x ∧
      ∀ t, x.thumbnail = some t → ∃ rows o l, ifd1Rows tiff order first.toNat = some rows ∧
        rows = entriesAt tiff order (nextAt tiff order first.toNat).toNat ∧
        firstValue order tagThumbOffset rows = some o ∧
        firstValue order tagThumbLength rows = some l ∧ o.toNat + l.toNat ≤ tiff.length ∧
        t.len = l.toNat := by
  obtain ⟨order, first, es, next, horder, hfirst, hparse, rfl⟩ := parseTiff_eq_some h
  obtain ⟨rfl, rfl⟩ := parseIfd_at hparse
  have hexif := takePointer_taken (entriesAt tiff order first.toNat) tagExifIfd order
  have hgps := takePointer_taken
    (takePointer (entriesAt tiff order first.toNat) tagExifIfd order).2 tagGpsIfd order
  have hexifChild : (((takePointer (entriesAt tiff order first.toNat) tagExifIfd order).1.bind
      (parseExifIfd tiff order)).map Prod.fst).isSome →
      (takePointer (entriesAt tiff order first.toNat) tagExifIfd order).1.isSome := by
    cases (takePointer (entriesAt tiff order first.toNat) tagExifIfd order).1 <;> simp
  have hgpsChild : ((takePointer (takePointer (entriesAt tiff order first.toNat) tagExifIfd
      order).2 tagGpsIfd order).1.bind fun o => (parseIfd tiff o order).map Prod.fst).isSome →
      (takePointer (takePointer (entriesAt tiff order first.toNat) tagExifIfd order).2
        tagGpsIfd order).1.isSome := by
    cases (takePointer (takePointer (entriesAt tiff order first.toNat) tagExifIfd order).2
      tagGpsIfd order).1 <;> simp
  refine ⟨order, first, horder, hfirst, rfl, ⟨⟨fun x hx => ?_, ?_⟩, ?_, ?_, ?_, ?_⟩, ?_⟩
  · exact hexif.sublist.subset (hgps.sublist.subset
      ((sweep_sublist _ _ _).subset ((sweep_sublist _ _ _).subset hx)))
  · have h1 := hexif.room
    have h2 := hgps.room
    have h3 := ((sweep_sublist (takePointer (takePointer (entriesAt tiff order first.toNat)
      tagExifIfd order).2 tagGpsIfd order).1 tagGpsIfd _).trans (sweep_sublist (takePointer
      (entriesAt tiff order first.toNat) tagExifIfd order).1 tagExifIfd (takePointer (takePointer
      (entriesAt tiff order first.toNat) tagExifIfd order).2 tagGpsIfd order).2)).length_le
    have h4 := Bool.toNat_le_toNat hexifChild
    have h5 := Bool.toNat_le_toNat hgpsChild
    simp only [ifd0Nptr]
    omega
  · intro d hd
    obtain ⟨⟨e, i⟩, he, rfl⟩ := Option.map_eq_some_iff.mp hd
    obtain ⟨o, ho, he'⟩ := Option.bind_eq_some_iff.mp he
    obtain ⟨hfrom, hinterop⟩ := from_parseExifIfd horder he'
    obtain ⟨e', next', hparse', -⟩ := parseExifIfd_eq_some he'
    refine ⟨o, (from_takePointer (by decide) horder (fun x hx => hx) ho hparse').1, ?_, ?_⟩
    · simpa [exifNptr, Exif.interop, he] using hfrom
    · intro i' hi'
      rw [he] at hi'
      exact hinterop i' hi'
  · intro d hd
    obtain ⟨o, ho, hd⟩ := Option.bind_eq_some_iff.mp hd
    obtain ⟨⟨e, next'⟩, hparse', rfl⟩ := Option.map_eq_some_iff.mp hd
    exact ⟨o, from_takePointer (by decide) horder
      (fun x hx => hexif.sublist.subset hx) ho hparse'⟩
  · intro d hd
    obtain ⟨hne, hfrom, -⟩ := from_parseIfd1 (Prod.ext hd rfl)
    exact ⟨hne, hfrom⟩
  · simp only [parseIfd1]
    split
    · simp
    · split <;> simp
  · intro t ht
    cases hd : (parseIfd1 tiff order (nextAt tiff order first.toNat)).1 with
    | none =>
      simp only [parseIfd1] at hd ht
      split at hd
      · next hzero => rw [if_pos hzero] at ht; cases ht
      · next hne =>
        rw [if_neg hne] at ht
        split at hd
        · next hnone => rw [hnone] at ht; cases ht
        · cases hd
    | some d =>
      obtain ⟨hne, -, rows, nx, hparse', hthumb⟩ := from_parseIfd1 (Prod.ext hd rfl)
      obtain ⟨o, l, ho, hl, hle, hlen⟩ := hthumb t ht
      refine ⟨rows, o, l, ?_, (parseIfd_at hparse').1, ho, hl, hle, hlen⟩
      rw [ifd1Rows, if_neg hne, hparse', Option.map_some]

end Zencodec.Rewrite.Preflight

namespace Zencodec.Rewrite

open Preflight

variable {Ω : Type}

/-- What the preflight accepts is rewritten within what it counted: unless the policy keeps a
thumbnail that is longer than the one the preflight found, every pruned tree is serialized in
at most `expanded` bytes, which are within the metadata budget. -/
theorem validate_covers (host : Host Ω) (req : Context Ω) (bytes : Bytes) (policy : ExifPolicy)
    (w : Ω) (expanded : ℕ) (x : Exif (tiffOf bytes))
    (haccept : (validate host req bytes w).1 = .ok expanded) (hparse : Exif.parse bytes = some x)
    (hthumb : policy.thumbnail.keeps = true → ThumbnailReserved bytes) :
    (x.filtered policy).serializedLen ≤ expanded ∧ expanded ≤ req.maxMetadata := by
  obtain ⟨hbudget, order, first, l, horder, hfirst, hvisits, hsum⟩ :=
    validate_ensures bytes w expanded haccept
  obtain ⟨order', first', horder', hfirst', hprefix6, hplaced, hcapture⟩ :=
    parseTiff_placed hparse
  obtain rfl := Option.some_inj.mp (horder.symm.trans horder')
  obtain rfl := Option.some_inj.mp (hfirst.symm.trans hfirst')
  refine ⟨le_trans ((hplaced.filtered policy).serializedLen_le hvisits fun t ht => ?_) ?_, hbudget⟩
  · have hkept : policy.thumbnail.keeps = true ∧ x.thumbnail = some t := by
      simp only [Exif.filtered] at ht
      split at ht
      · next hk => exact ⟨hk, ht⟩
      · cases ht
    obtain ⟨rows, o, len, hrows, hat, ho, hlen, hbounds, ht⟩ := hcapture t hkept.2
    have hfit := hthumb hkept.1 order horder first hfirst rows hrows o ho len hlen hbounds
    rw [ht, ← hat]
    exact hfit
  · have hsame : (x.filtered policy).hadPrefix = hasPrefix bytes := hprefix6
    rw [hsame]
    exact hsum

namespace Preflight

/-- A host whose addresses have 64 bits. -/
def wideHost : Host Unit where
  usizeMax := 2 ^ 64 - 1
  tryReserve := fun w => (true, w)

/-- A request that limits nothing that matters here. -/
def roomyRequest : Context Unit where
  input := ⟨0, 64⟩
  maxInput := 1000
  maxOutput := 1000
  maxMetadata := 1000
  maxCarriers := 1000
  pulse := none

/-- An empty IFD0, and an IFD1 with a thumbnail of four bytes. -/
def thumbBlob : Bytes :=
  [0x49, 0x49, 42, 0, 8, 0, 0, 0, 0, 0, 14, 0, 0, 0, 2, 0,
    0x01, 0x02, 4, 0, 1, 0, 0, 0, 44, 0, 0, 0,
    0x02, 0x02, 4, 0, 1, 0, 0, 0, 4, 0, 0, 0,
    0, 0, 0, 0, 0xFF, 0xD8, 0xFF, 0xD9]

/-- The same directories with two lengths, the whole packet and nothing. -/
def twoLengths : Bytes :=
  [0x49, 0x49, 42, 0, 8, 0, 0, 0, 0, 0, 14, 0, 0, 0, 3, 0,
    0x01, 0x02, 4, 0, 1, 0, 0, 0, 0, 0, 0, 0,
    0x02, 0x02, 4, 0, 1, 0, 0, 0, 56, 0, 0, 0,
    0x02, 0x02, 4, 0, 1, 0, 0, 0, 0, 0, 0, 0,
    0, 0, 0, 0]

theorem parse_thumbBlob : (Exif.parse thumbBlob).isSome := by decide

theorem thumbBlob_reserved : ThumbnailReserved thumbBlob := by
  intro order horder first hfirst rows hrows o _ l hl _
  have hlittle : Exif.orderOf (tiffOf thumbBlob) = some .little := by decide
  obtain rfl := Option.some_inj.mp (hlittle.symm.trans horder)
  have height : rd32 (tiffOf thumbBlob) 4 .little = some 8 := by decide
  obtain rfl := Option.some_inj.mp (height.symm.trans hfirst)
  obtain ⟨⟨rows', nx⟩, hparse, rfl⟩ : ∃ r, parseIfd (tiffOf thumbBlob) 14 .little = some r ∧
      r.1 = rows := by
    unfold ifd1Rows at hrows
    split at hrows
    · cases hrows
    · exact Option.map_eq_some_iff.mp hrows
  obtain ⟨rfl, -⟩ := parseIfd_at hparse
  have hfour : firstValue .little tagThumbLength (entriesAt (tiffOf thumbBlob) .little 14) =
      some 4 := by decide
  have hroom : thumbnailRoom .little (entriesAt (tiffOf thumbBlob) .little 14) = 4 := by decide
  obtain rfl := Option.some_inj.mp (hfour.symm.trans hl)
  exact hroom.ge

end Preflight

theorem validate_covers_thumbBlob : ∃ x, Exif.parse thumbBlob = some x ∧
    (x.filtered .keepAll).serializedLen ≤ 48 ∧ 48 ≤ roomyRequest.maxMetadata := by
  have hparse : Exif.parse thumbBlob = some ((Exif.parse thumbBlob).get parse_thumbBlob) :=
    (Option.some_get parse_thumbBlob).symm
  exact ⟨_, hparse, validate_covers wideHost roomyRequest thumbBlob .keepAll () 48 _
    (by decide +kernel) hparse fun _ => thumbBlob_reserved⟩

/-- The preflight counts 56 bytes for a packet that is rewritten in 100. -/
theorem twoLengths_exceeds : (validate wideHost roomyRequest twoLengths ()).1 = .ok 56 ∧
    (Exif.parse twoLengths).map (fun x => (x.filtered .keepAll).serializedLen) = some 100 :=
  ⟨by decide +kernel, by decide⟩

end Zencodec.Rewrite
