/-
Where the tables of a walk lie.

Every directory of a walk lies inside the data, its entries lie inside it one after the
other, and the field of an entry ends with it.  Steps of the walk keep this, since they
change remarks, roles and counters of recorded directories only.
-/
import Zencodec.Tiff.Bounds

open Slices StableSort Tiling

namespace Zencodec

namespace Tiff

/-- An entry of `lay.entryLen` bytes in `a..b`, which its field ends. -/
structure Entry.In (lay : Layout) (a b : ℕ) (e : Entry) : Prop where
  start_le : a ≤ e.pos
  stop_le : e.pos + lay.entryLen ≤ b
  field_eq : e.field + lay.inlineCap = e.pos + lay.entryLen
  field_ge : e.pos ≤ e.field

/-- A directory lies inside the data, and its entries inside it. -/
structure Ifd.Ok (lay : Layout) (limit : ℕ) (ifd : Ifd) : Prop where
  nonempty : ifd.pos < ifd.stop
  stop_le : ifd.stop ≤ limit
  entries : ∀ e ∈ ifd.entries, e.In lay ifd.pos ifd.stop
  apart : ifd.entries.Pairwise fun e f => e.pos + lay.entryLen ≤ f.pos

/-- The header and the directories lie inside the data. -/
structure Walk.Ok (w : Walk) : Prop where
  header : w.header.Nonempty → w.header.stop ≤ w.limit
  headerExt : ∀ x ∈ w.headerExt, x.1.stop ≤ w.limit
  ifds : ∀ ifd ∈ w.ifds, ifd.Ok w.lay w.limit

/-! ### Remarks -/

theorem Ifd.ok_bare {lay : Layout} {limit : ℕ} {ifd : Ifd} :
    ifd.bare.Ok lay limit ↔ ifd.Ok lay limit := by
  have hin : ∀ (a b : ℕ) (e : Entry), e.bare.In lay a b ↔ e.In lay a b := fun a b e =>
    ⟨fun h => ⟨h.1, h.2, h.3, h.4⟩, fun h => ⟨h.1, h.2, h.3, h.4⟩⟩
  constructor
  · intro h
    refine ⟨h.nonempty, h.stop_le, fun e he => ?_, List.pairwise_map.mp h.apart⟩
    exact (hin _ _ e).mp (h.entries e.bare (List.mem_map_of_mem he))
  · intro h
    refine ⟨h.nonempty, h.stop_le, fun e he => ?_, List.pairwise_map.mpr h.apart⟩
    obtain ⟨f, hf, heq⟩ := List.mem_map.mp he
    exact heq ▸ (hin _ _ f).mpr (h.entries f hf)

/-- Only the bare directories matter. -/
theorem Ifd.Ok.of_bare {lay : Layout} {limit : ℕ} {l l' : List Ifd}
    (hl : l'.map Ifd.bare = l.map Ifd.bare) (h : ∀ ifd ∈ l, ifd.Ok lay limit) :
    ∀ ifd ∈ l', ifd.Ok lay limit := by
  intro ifd hifd
  have hmem : ifd.bare ∈ l.map Ifd.bare := hl ▸ List.mem_map_of_mem hifd
  obtain ⟨ifd', hifd', heq⟩ := List.mem_map.mp hmem
  exact Ifd.ok_bare.mp (heq ▸ Ifd.ok_bare.mpr (h ifd' hifd'))

theorem Walk.Same.limit_eq {w w' : Walk} (h : w.Same w') : w'.limit = w.limit := by
  rw [Walk.limit, Walk.limit, h.d]

theorem Walk.Ok.of_same {w w' : Walk} (h : w.Ok) (hw : w.Same w') : w'.Ok where
  header := by
    rw [hw.header, hw.limit_eq]
    exact h.header
  headerExt := by
    rw [hw.headerExt, hw.limit_eq]
    exact h.headerExt
  ifds := by
    rw [hw.lay, hw.limit_eq]
    exact Ifd.Ok.of_bare hw.ifds h.ifds

/-! ### Reading a directory -/

theorem readEntry_in {d : Bytes} {lay : Layout} {pos : ℕ} {e : Entry}
    (h : readEntry d lay pos = some e) :
    e.In lay pos (pos + lay.entryLen) ∧ e.pos = pos ∧ pos + lay.entryLen ≤ d.length := by
  simp only [readEntry, Option.bind_eq_bind, Option.bind_eq_some_iff] at h
  obtain ⟨stop, hstop, h⟩ := h
  obtain rfl : pos + lay.entryLen = stop := by
    rw [checked] at hstop
    split at hstop
    · exact Option.some.inj hstop
    · cases hstop
  split at h
  · cases h
  · next hlen =>
    simp only [Option.bind_eq_some_iff] at h
    obtain ⟨tag, -, typ, -, h⟩ := h
    have hfield : ∃ count, e =
        ⟨pos, tag, typ, count, if lay.big = true then pos + 12 else pos + 8, []⟩ := by
      split at h
      all_goals
        next hbig =>
          obtain ⟨count, -, h⟩ := Option.bind_eq_some_iff.mp h
          exact ⟨count, by simpa [hbig] using (Option.some.inj h).symm⟩
    obtain ⟨count, rfl⟩ := hfield
    refine ⟨⟨le_rfl, le_rfl, ?_, ?_⟩, rfl, not_lt.mp hlen⟩
    · cases hbig : lay.big <;> simp [Layout.inlineCap, Layout.entryLen, hbig]
    · dsimp only
      split <;> omega

/-- The entries read from `pos` on lie one after the other. -/
theorem readEntries_in (d : Bytes) (lay : Layout) (n : ℕ) : ∀ pos budget : ℕ,
    (∀ e ∈ (readEntries d lay n pos budget).1,
      e.In lay pos (min (n * lay.entryLen + pos) d.length)) ∧
      (readEntries d lay n pos budget).1.Pairwise fun e f => e.pos + lay.entryLen ≤ f.pos := by
  induction n with
  | zero =>
    intro pos budget
    exact ⟨fun e he => absurd he List.not_mem_nil, .nil⟩
  | succ n ih =>
    intro pos budget
    rw [readEntries]
    split
    · exact ⟨fun e he => absurd he List.not_mem_nil, .nil⟩
    · split
      · exact ⟨fun e he => absurd he List.not_mem_nil, .nil⟩
      · next e he =>
        obtain ⟨hin, hpos, hlen⟩ := readEntry_in he
        obtain ⟨hrest, hapart⟩ := ih (pos + lay.entryLen) (budget - 1)
        dsimp only
        refine ⟨List.forall_mem_cons.mpr ⟨?_, fun f hf => ?_⟩, ?_⟩
        · refine ⟨hin.start_le, ?_, hin.field_eq, hin.field_ge⟩
          rw [hpos, Nat.succ_mul]
          exact le_min (by omega) hlen
        · obtain ⟨h1, h2, h3, h4⟩ := hrest f hf
          refine ⟨(Nat.le_add_right _ _).trans h1, ?_, h3, h4⟩
          rw [Nat.succ_mul]
          exact h2.trans (min_le_min (by omega) le_rfl)
        · refine List.pairwise_cons.mpr ⟨fun f hf => ?_, hapart⟩
          rw [hpos]
          exact (hrest f hf).start_le

/-- A parsed directory lies inside the data. -/
theorem parseIfd_ok {d : Bytes} {lay : Layout} {pos left budget : ℕ} {kind : Kind}
    {name : String} {followed : Bool} {ifd : Ifd}
    (h : parseIfd d lay pos kind name followed budget = some (ifd, left)) :
    ifd.Ok lay d.length := by
  rw [parseIfd] at h
  split at h
  · cases h
  · next hpos =>
    split at h
    · obtain ⟨rfl, rfl⟩ : _ ∧ _ := by simpa using h
      exact ⟨not_le.mp hpos, le_rfl, fun e he => absurd he List.not_mem_nil, .nil⟩
    · next count _ =>
      obtain ⟨hin, hapart⟩ := readEntries_in d lay count (pos + lay.countLen) budget
      dsimp only at h
      split at h
      · next stop hstop =>
        rw [Option.filter_eq_some_iff, checked] at hstop
        obtain ⟨hstop, hle⟩ := hstop
        have hle : stop ≤ d.length := of_decide_eq_true hle
        split at hstop
        · obtain rfl := Option.some.inj hstop
          obtain ⟨rfl, rfl⟩ : _ ∧ _ := by simpa using h
          have hlen : 0 < lay.countLen := by
            rw [Layout.countLen]
            split <;> omega
          refine ⟨?_, hle, fun e he => ?_, hapart⟩
          · dsimp only
            omega
          · obtain ⟨h1, h2, h3, h4⟩ := hin e he
            exact ⟨(Nat.le_add_right _ _).trans h1,
              (h2.trans (min_le_left _ _)).trans (by dsimp only; omega), h3, h4⟩
        · cases hstop
      · obtain ⟨rfl, rfl⟩ : _ ∧ _ := by simpa using h
        refine ⟨not_le.mp hpos, le_rfl, fun e he => ?_, hapart⟩
        obtain ⟨h1, h2, h3, h4⟩ := hin e he
        exact ⟨(Nat.le_add_right _ _).trans h1, h2.trans (min_le_right _ _), h3, h4⟩

/-! ### Steps and runs -/

theorem Walk.Ok.reach {w : Walk} (h : w.Ok) {idx : ℕ} {ifd : Ifd} {p : Pending}
    (hifd : w.ifds[idx]? = some ifd) : (w.modifyIfd idx fun _ => (Tiff.reach ifd p).1).Ok := by
  obtain ⟨l, l', hl, hmod⟩ := Walk.modifyIfd_ifds hifd (Tiff.reach ifd p).1
  refine ⟨h.header, h.headerExt, fun ifd' hmem => ?_⟩
  rw [hmod, List.mem_append, List.mem_cons] at hmem
  rcases hmem with hmem | rfl | hmem
  · exact h.ifds ifd' (by simp [hl, hmem])
  · have hok := h.ifds ifd (List.mem_of_getElem? hifd)
    exact ⟨hok.nonempty, hok.stop_le, hok.entries, hok.apart⟩
  · exact h.ifds ifd' (by simp [hl, hmem])

/-- One step keeps the tables inside the data. -/
theorem step_ok (rules : Rules) {st : Queue} (p : Pending) (h : st.w.Ok) :
    (step rules st p).1.w.Ok := by
  have hcases := step_cases rules st p
  generalize step rules st p = out at hcases ⊢
  obtain ⟨st', did⟩ := out
  cases hcases with
  | skip hsame _ => exact h.of_same hsame
  | reach _ _ hifd hsame _ => exact (h.reach hifd).of_same hsame
  | @record _ pos left ifd ifd' followed w _ _ _ hsame hparse hbare hrec _ =>
    have hw := h.of_same hsame
    have hifd' : ifd'.Ok w.lay w.limit := by
      have hok := Ifd.ok_bare.mpr (parseIfd_ok hparse)
      rw [← Ifd.ok_bare, hbare]
      exact ⟨hok.nonempty, hok.stop_le, hok.entries, hok.apart⟩
    have hrecorded : (record { w with entriesLeft := left } ifd' pos).Ok := by
      refine ⟨hw.header, hw.headerExt, fun i hi => ?_⟩
      rcases List.mem_append.mp hi with hi | hi
      · exact hw.ifds i hi
      · obtain rfl := List.mem_singleton.mp hi
        exact hifd'
    exact hrecorded.of_same hrec

theorem runQueue_ok (rules : Rules) : ∀ (fuel : ℕ) (st : Queue), st.w.Ok →
    (runQueue rules fuel st).1.w.Ok := by
  intro fuel
  induction fuel with
  | zero => exact fun st h => h
  | succ fuel ih =>
    intro st h
    rw [runQueue]
    split
    · exact h
    · exact ih _ (step_ok rules _ h)

/-! ### Whole walks -/

theorem get_le {d bs : Bytes} {pos n : ℕ} (h : get d pos n = some bs) : pos + n ≤ d.length :=
  (slice_eq_some.mp h).2.1

theorem uint_le {lay : Layout} {d : Bytes} {pos n v : ℕ} (h : lay.uint d pos n = some v) :
    pos + n ≤ d.length := by
  obtain ⟨bs, hbs, -⟩ := Option.map_eq_some_iff.mp h
  exact get_le hbs

theorem start_limit (data : Bytes) (base limit : ℕ) (lay : Layout) (header : Span ℕ)
    (headerOk : Bool) :
    (Walk.start data base limit lay header headerOk).limit = min limit data.length := by
  simp [Walk.start, Walk.limit]

/-- What reading the header leaves: a walk over the data without directories, whose header
lies in the data, also when it could not be read. -/
structure HeaderOk (base limit : ℕ) (out : Walk × Option ℕ) : Prop where
  ok : out.1.Ok
  limit_eq : out.1.limit = limit
  header : out.2.isSome → base + out.1.lay.headerLen ≤ limit
  base_eq : out.1.base = base

theorem Walk.Ok.fresh {w : Walk} (hifds : w.ifds = []) (hext : w.headerExt = none)
    (header : w.header.Nonempty → w.header.stop ≤ w.limit) : w.Ok where
  header := header
  headerExt := by simp [hext]
  ifds := by simp [hifds]

theorem readHeader_ok (data : Bytes) (base limit : ℕ) (rules : Rules) :
    HeaderOk base (min limit data.length) (readHeader data base limit rules) := by
  have hlimit : (Walk.start data base limit ⟨true, false⟩ ⟨base, base⟩ false).limit =
      min limit data.length := start_limit data base limit _ _ _
  have hfail : ∀ (lay : Layout) (magic : UInt16) (stop : ℕ) (why : String),
      (base < stop → stop ≤ min limit data.length) →
      HeaderOk base (min limit data.length)
        (Walk.fail { Walk.start data base limit ⟨true, false⟩ ⟨base, base⟩ false with
          magic := magic, lay := lay } ⟨base, stop⟩ why, none) := by
    intro lay magic stop why hstop
    refine ⟨.fresh rfl rfl fun hne => ?_, hlimit, fun h => by simp at h, rfl⟩
    exact (hstop hne).trans_eq (hlimit).symm
  have hread : ∀ (lay : Layout) (magic : UInt16) (ifd0 : ℕ),
      base + lay.headerLen ≤ min limit data.length →
      HeaderOk base (min limit data.length)
        ({ Walk.start data base limit ⟨true, false⟩ ⟨base, base⟩ false with
          magic := magic, lay := lay }, some ifd0) := by
    intro lay magic ifd0 hlen
    refine ⟨.fresh rfl rfl fun hne => ?_, hlimit, fun _ => hlen, rfl⟩
    exact absurd hne (lt_irrefl base)
  have hdata : (Walk.start data base limit ⟨true, false⟩ ⟨base, base⟩ false).d.length =
      min limit data.length := hlimit
  have hshort : ∀ n, base < base + min (min limit data.length - base) n →
      base + min (min limit data.length - base) n ≤ min limit data.length := by omega
  rw [readHeader]
  dsimp only
  split
  · exact hfail _ _ _ _ (hshort 2)
  · split
    · exact hfail _ _ _ _ fun _ => le_rfl
    · split
      · split
        · exact hfail _ _ _ _ (hshort 8)
        · split
          · exact hfail _ _ _ _ fun _ => le_rfl
          · next h64 =>
            have hle := uint_le h64
            rw [hdata] at hle
            exact hread _ _ _ hle
      · split
        · split
          · exact hfail _ _ _ _ fun _ => le_rfl
          · next h32 =>
            have hle := uint_le h32
            rw [hdata] at hle
            exact hread _ _ _ hle
        · exact hfail _ _ _ _ (hshort 4)

theorem headed_ok {w : Walk} (rules : Rules) (h : w.Ok)
    (hlen : w.base + w.lay.headerLen ≤ w.limit) : (headed w rules).Ok := by
  have hw : ({ w with
      header := ⟨w.base, w.base + w.lay.headerLen⟩
      headerOk := true } : Walk).Ok := ⟨fun _ => hlen, h.headerExt, h.ifds⟩
  rw [headed]
  dsimp only
  split
  · split
    · next hext =>
      refine ⟨hw.header, fun x hx => ?_, hw.ifds⟩
      obtain rfl := Option.some.inj hx
      exact hext
    · exact hw
  · exact hw

theorem headed_limit (w : Walk) (rules : Rules) : (headed w rules).limit = w.limit := by
  rw [headed]
  dsimp only
  repeat' split
  all_goals rfl

theorem runQueue_limit (rules : Rules) : ∀ (fuel : ℕ) (st : Queue),
    (runQueue rules fuel st).1.w.limit = st.w.limit := by
  intro fuel
  induction fuel with
  | zero => exact fun st => rfl
  | succ fuel ih =>
    intro st
    rw [runQueue]
    split
    · rfl
    · next p rest _ =>
      have hcases := step_cases rules { st with queue := rest } p
      dsimp only
      rw [ih]
      generalize step rules { st with queue := rest } p = out at hcases ⊢
      obtain ⟨st', did⟩ := out
      cases hcases with
      | skip hsame _ => exact hsame.limit_eq
      | reach _ _ _ hsame _ => exact hsame.limit_eq
      | record _ _ _ hsame _ _ hrec _ => exact hrec.limit_eq.trans hsame.limit_eq

/-- **The tables of every walk lie inside the data.** -/
theorem walk_ok (data : Bytes) (base limit : ℕ) (rules : Rules) :
    (walk data base limit rules).Ok ∧
      (walk data base limit rules).limit = min limit data.length := by
  have hheader := readHeader_ok data base limit rules
  rw [walk, walkTraced]
  split
  · next w h =>
    rw [h] at hheader
    exact ⟨hheader.ok, hheader.limit_eq⟩
  · next w ifd0 h =>
    rw [h] at hheader
    have hlen : w.base + w.lay.headerLen ≤ w.limit :=
      hheader.base_eq ▸ hheader.limit_eq ▸ hheader.header rfl
    refine ⟨runQueue_ok rules _ _ (headed_ok rules hheader.ok hlen), ?_⟩
    exact (runQueue_limit rules _ _).trans ((headed_limit w rules).trans hheader.limit_eq)

theorem walkIfd_ok (data : Bytes) (base limit : ℕ) (lay : Layout) (pos : ℕ) (kind : Kind)
    (name : String) (depth : UInt8) (rules : Rules) :
    (walkIfd data base limit lay pos kind name depth rules).Ok ∧
      (walkIfd data base limit lay pos kind name depth rules).limit =
        min limit data.length := by
  refine ⟨runQueue_ok rules _ _ (.fresh rfl rfl fun h => absurd h (lt_irrefl pos)), ?_⟩
  exact (runQueue_limit rules _ _).trans (start_limit ..)

end Tiff

end Zencodec
