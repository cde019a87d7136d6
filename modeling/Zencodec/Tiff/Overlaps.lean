/-
Which overlapping tables a walk refuses.

The test asks about the last table that starts at or before the new one, and about those that
start inside it. A longer table that started earlier is hidden by a shorter one after it.
`tableOverlap_eq_none` says what the test passes, and `apart_iff` when that is enough;
`unfollowed_apart_iff` says it of whole walks.
-/
import Zencodec.Tiff.Visits
import Zencodec.Tiff.Layout

open Slices StableSort Tiling

namespace Zencodec

namespace Tiff

namespace Walk

/-! ### The test -/

/-- `t` is the last table that starts at or before `pos`. -/
def Nearest (w : Walk) (pos : ℕ) (t : ℕ × ℕ) : Prop :=
  t ∈ w.tables ∧ t.1 ≤ pos ∧ ∀ u ∈ w.tables, u.1 ≤ pos → u.1 ≤ t.1

/-- A table covers `pos`, and the last one that starts before `pos` does not. -/
def Hidden (w : Walk) (pos : ℕ) : Prop :=
  ∃ t ∈ w.tables, t.1 ≤ pos ∧ pos < t.2 ∧ ∃ u, w.Nearest pos u ∧ u.2 ≤ pos

/-- Where a table at `pos` ends. -/
def stopAt (w : Walk) (pos : ℕ) : ℕ :=
  min ((w.lay.count w.d pos).getD 0 * w.lay.entryLen + pos + (w.lay.countLen + w.lay.inlineCap))
    w.limit

theorem getLast?_nearest {w : Walk} {pos : ℕ} {t : ℕ × ℕ}
    (h : (sortBy Prod.fst (w.tables.filter fun t => t.1 ≤ pos)).getLast? = some t) :
    w.Nearest pos t := by
  obtain ⟨ht, hmax⟩ := getLast?_sortBy h
  obtain ⟨ht, hpos⟩ := List.mem_filter.mp ht
  refine ⟨ht, of_decide_eq_true hpos, fun u hu hupos => ?_⟩
  exact hmax u (List.mem_filter.mpr ⟨hu, decide_eq_true hupos⟩)

theorem exists_nearest {w : Walk} {pos : ℕ} {t : ℕ × ℕ} (ht : t ∈ w.tables) (hpos : t.1 ≤ pos) :
    ∃ u, (sortBy Prod.fst (w.tables.filter fun t => t.1 ≤ pos)).getLast? = some u := by
  have hmem : t ∈ sortBy Prod.fst (w.tables.filter fun t => decide (t.1 ≤ pos)) :=
    mem_sortBy.mpr (List.mem_filter.mpr ⟨ht, decide_eq_true hpos⟩)
  exact Option.isSome_iff_exists.mp (List.getLast?_isSome.mpr (List.ne_nil_of_mem hmem))

/-- Tables that start at one offset are one table. -/
theorem Nearest.unique {w : Walk} (h : (w.tables.map Prod.fst).Nodup) {pos : ℕ} {t u : ℕ × ℕ}
    (ht : w.Nearest pos t) (hu : w.Nearest pos u) : t = u :=
  List.inj_on_of_nodup_map h ht.1 hu.1
    (le_antisymm (hu.2.2 t ht.1 ht.2.1) (ht.2.2 u hu.1 hu.2.1))

/-- The test passes a table that starts past the end of the last one before it, and ends
before the next one starts. -/
theorem tableOverlap_eq_none {w : Walk} (h : (w.tables.map Prod.fst).Nodup) (pos : ℕ) :
    w.tableOverlap pos = none ↔ (∀ t, w.Nearest pos t → t.2 ≤ pos) ∧
      ∀ t ∈ w.tables, pos < t.1 → w.stopAt pos ≤ t.1 := by
  have hnext : (if w.stopAt pos ≤ pos then none
      else ((sortBy Prod.fst (w.tables.filter fun t => pos < t.1 ∧ t.1 < w.stopAt pos)).head?).map
        Prod.fst) = none ↔ ∀ t ∈ w.tables, pos < t.1 → w.stopAt pos ≤ t.1 := by
    split
    · next hstop => exact iff_of_true rfl fun t _ ht => hstop.trans ht.le
    · rw [Option.map_eq_none_iff, List.head?_eq_none_iff, List.eq_nil_iff_forall_not_mem]
      simp only [mem_sortBy, List.mem_filter, decide_eq_true_eq, not_and, not_lt]
  rw [tableOverlap]
  cases hlast : (sortBy Prod.fst (w.tables.filter fun t => decide (t.1 ≤ pos))).getLast? with
  | none =>
    refine hnext.trans ⟨fun hafter => ⟨fun t ht => ?_, hafter⟩, And.right⟩
    obtain ⟨u, hu⟩ := exists_nearest ht.1 ht.2.1
    exact absurd (hlast.symm.trans hu) (Option.some_ne_none u).symm
  | some t =>
    have ht := getLast?_nearest hlast
    have hall : (∀ u, w.Nearest pos u → u.2 ≤ pos) ↔ t.2 ≤ pos :=
      ⟨fun hu => hu t ht, fun hle u hu => (ht.unique h hu) ▸ hle⟩
    rw [hall]
    by_cases hle : t.2 ≤ pos
    · have hfilter : (some t).filter (fun t => decide (pos < t.2)) = none := by
        simpa [Option.filter] using hle
      dsimp only
      rw [hfilter]
      exact hnext.trans (and_iff_right hle).symm
    · have hfilter : (some t).filter (fun t => decide (pos < t.2)) = some t := by
        simpa [Option.filter] using hle
      dsimp only
      rw [hfilter]
      exact iff_of_false (Option.some_ne_none _) fun h => hle h.1

/-- A table at `pos` is apart from every recorded one if and only if the test passes it and no
table is hidden there. -/
theorem apart_iff {w : Walk} (h : (w.tables.map Prod.fst).Nodup)
    (hne : ∀ t ∈ w.tables, t.1 < t.2) {pos : ℕ} (hpos : pos < w.stopAt pos) :
    (∀ t ∈ w.tables, t.2 ≤ pos ∨ w.stopAt pos ≤ t.1) ↔
      w.tableOverlap pos = none ∧ ¬w.Hidden pos := by
  rw [tableOverlap_eq_none h]
  constructor
  · intro hall
    refine ⟨⟨fun t ht => ?_, fun t ht hlt => ?_⟩, fun ⟨t, ht, hle, hlt, _⟩ => ?_⟩
    · have := ht.2.1
      rcases hall t ht.1 with hstop | hstop
      · exact hstop
      · omega
    · have := hne t ht
      rcases hall t ht with hstop | hstop
      · omega
      · exact hstop
    · rcases hall t ht with hstop | hstop <;> omega
  · rintro ⟨⟨hnear, hafter⟩, hno⟩ t ht
    by_cases hlt : pos < t.1
    · exact .inr (hafter t ht hlt)
    refine .inl (not_lt.mp fun hcover => hno ?_)
    obtain ⟨u, hlast⟩ := exists_nearest ht (not_lt.mp hlt)
    have hu := getLast?_nearest hlast
    exact ⟨t, ht, not_lt.mp hlt, hcover, u, hu, hnear u hu⟩

end Walk

/-! ### One step -/

/-- An entry count that cannot be read runs past the end. -/
theorem count_eq_none {lay : Layout} {d : Bytes} {pos : ℕ} (h : lay.count d pos = none) :
    d.length < pos + lay.countLen := by
  by_contra hle
  have hslice : ∀ n, pos + n ≤ d.length → lay.uint d pos n ≠ none := by
    intro n hn
    have hslice : slice d pos (pos + n) = some ((d.drop pos).take n) :=
      slice_eq_some.mpr ⟨by omega, hn, by simp⟩
    rw [Layout.uint, get, hslice]
    exact Option.some_ne_none _
  rw [Layout.count] at h
  rw [Layout.countLen] at hle
  cases hbig : lay.big with
  | true =>
    rw [hbig, if_pos rfl] at h hle
    exact hslice 8 (not_lt.mp hle) h
  | false =>
    rw [hbig, if_neg Bool.false_ne_true] at h hle
    exact hslice 2 (not_lt.mp hle) (Option.map_eq_none_iff.mp (Option.map_eq_none_iff.mp h))

/-- The table of a parsed directory ends where the test expected it to. -/
theorem parseIfd_stop {d : Bytes} {lay : Layout} {pos left budget : ℕ} {kind : Kind}
    {name : String} {followed : Bool} {ifd : Ifd} (hlen : d.length < 2 ^ 64)
    (h : parseIfd d lay pos kind name followed budget = some (ifd, left)) :
    pos < d.length ∧ ifd.stop = min ((lay.count d pos).getD 0 * lay.entryLen + pos +
      (lay.countLen + lay.inlineCap)) d.length := by
  rw [parseIfd] at h
  split at h
  · cases h
  next hpos =>
    refine ⟨not_le.mp hpos, ?_⟩
    cases hcount : lay.count d pos with
    | none =>
      rw [hcount] at h
      obtain ⟨rfl, -⟩ : _ ∧ _ := by simpa using h
      have hshort := count_eq_none hcount
      dsimp only [Option.getD]
      omega
    | some count =>
      rw [hcount] at h
      dsimp only at h
      generalize hstop : Option.filter _ _ = stop at h
      cases stop with
      | none =>
        obtain ⟨rfl, -⟩ : _ ∧ _ := by simpa using h
        rw [Option.filter_eq_none_iff] at hstop
        refine (min_eq_right (not_lt.mp fun hlt => ?_)).symm
        have hfits : checked (count * lay.entryLen + pos + lay.countLen + lay.inlineCap) =
            some (count * lay.entryLen + pos + lay.countLen + lay.inlineCap) := by
          rw [checked, if_pos]
          dsimp only [Option.getD] at hlt
          omega
        refine hstop _ hfits (decide_eq_true ?_)
        dsimp only [Option.getD] at hlt
        omega
      | some stop =>
        obtain ⟨rfl, -⟩ : _ ∧ _ := by simpa using h
        obtain ⟨hsum, hle⟩ := Option.filter_eq_some_iff.mp hstop
        have hle : stop ≤ d.length := of_decide_eq_true hle
        rw [checked] at hsum
        split at hsum
        · obtain rfl := Option.some.inj hsum
          dsimp only [Option.getD]
          omega
        · cases hsum

/-- The new directory's table starts where a longer table is hidden; or the decoder would read
it but for the rules, which reject it, and it overlaps a table. -/
def Overlooks (rules : Rules) (s : Queue × Pending) : Prop :=
  ∃ pos, s.2.pos = some pos ∧ (s.1.w.Hidden pos ∨ s.2.followed = true ∧
    s.1.w.tableOverlap pos ≠ none ∧ rules.rejects (s.1.w.checked s.2 pos) pos s.2.kind ≠ none)

/-- Handling a pending directory records `ifd`, which is not followed. -/
structure Unfollowed (rules : Rules) (s : Queue × Pending) (ifd : Ifd) : Prop where
  mem : ifd ∈ (step rules s.1 s.2).1.w.ifds
  fresh : ∀ old ∈ s.1.w.ifds, old.pos ≠ ifd.pos
  followed : ifd.followed = false

/-- A new directory is one that the step parsed. -/
theorem Effect.parsed {rules : Rules} {st : Queue} {p : Pending} {w' : Walk} {new : Ifd}
    (he : Effect rules st p w') (hmem : new ∈ w'.ifds)
    (hnew : ∀ old ∈ st.w.ifds, old.pos ≠ new.pos) :
    p.pos = some new.pos ∧ (checkOverlap st.w.polled p new.pos).1 = true ∧
      new.followed = (checkReject rules (st.w.checked p new.pos) p new.pos).1 ∧
      ∃ ifd left, parseIfd st.w.d st.w.lay new.pos p.kind p.name new.followed st.w.entriesLeft =
        some (ifd, left) ∧ ifd.stop = new.stop := by
  have hold : ∀ w : Walk, w.Same w' → new.pos ∈ w.ifds.map Ifd.pos := by
    intro w hsame
    rw [← hsame.map_eq (f := Ifd.pos) fun _ => rfl]
    exact List.mem_map_of_mem hmem
  cases he with
  | nothing hsame =>
    obtain ⟨old, hmem, hpos⟩ := List.mem_map.mp (hold _ hsame)
    exact absurd hpos (hnew old hmem)
  | @again pos idx ifd hpos hgo hidx hifd hsame =>
    obtain ⟨l, l', hl, hmod⟩ := Walk.modifyIfd_ifds hifd (reach ifd p).1
    have hmem := hold _ hsame
    rw [hmod, show (l ++ (reach ifd p).1 :: l').map Ifd.pos = st.w.ifds.map Ifd.pos by
      rw [hl, List.map_append, List.map_append]; rfl] at hmem
    obtain ⟨old, hmem, hpos⟩ := List.mem_map.mp hmem
    exact absurd hpos (hnew old hmem)
  | @fresh pos left ifd ifd' hpos hfind hover hparse hbare hsame =>
    obtain ⟨new', hmem', hbare'⟩ := List.mem_map.mp (hsame.ifds ▸ List.mem_map_of_mem hmem)
    rcases List.mem_append.mp hmem' with hmem' | hmem'
    · exact absurd (congrArg Ifd.pos hbare') (hnew new' hmem')
    obtain rfl := List.mem_singleton.mp hmem'
    have hipos : new.pos = pos := (congrArg Ifd.pos hbare').symm.trans
      ((congrArg Ifd.pos hbare).trans (parseIfd_spec hparse).1)
    obtain rfl := hipos
    have hfollowed := congrArg Ifd.followed hbare
    have hstop := congrArg Ifd.stop hbare
    have hstop' := congrArg Ifd.stop hbare'
    have hparsed := parseIfd_followed hparse
    have hchecked : new.followed = (checkReject rules (st.w.checked p new.pos) p new.pos).1 :=
      (congrArg Ifd.followed hbare').symm.trans (hfollowed.trans hparsed)
    refine ⟨hpos, hover, hchecked, ifd, left, hchecked ▸ hparse, ?_⟩
    exact hstop.symm.trans hstop'

/-- The table of a new directory that is not followed is apart from all recorded ones if and
only if the step overlooks none. -/
theorem step_apart_iff {rules : Rules} {st : Queue} {p : Pending} {new : Ifd}
    (h : Indexed st.w) (hok : st.w.Ok) (hlen : st.w.limit < 2 ^ 64)
    (hun : Unfollowed rules (st, p) new) :
    (∀ old ∈ st.w.ifds, old.stop ≤ new.pos ∨ new.stop ≤ old.pos) ↔ ¬Overlooks rules (st, p) := by
  obtain ⟨hpos, hover, hfollowed, ifd, left, hparse, hstop⟩ :=
    (step_effect rules st p).parsed hun.mem hun.fresh
  obtain ⟨hin, hend⟩ := parseIfd_stop hlen hparse
  have hstopAt : new.stop = st.w.stopAt new.pos := hstop.symm.trans hend
  have hlt : new.pos < st.w.stopAt new.pos := by
    have hcount : 0 < st.w.lay.countLen := by
      rw [Layout.countLen]
      split <;> omega
    rw [Walk.stopAt, Walk.limit]
    omega
  have hnodup : (st.w.tables.map Prod.fst).Nodup := by
    rw [h.tables, List.map_map]
    exact h.nodup
  have hne : ∀ t ∈ st.w.tables, t.1 < t.2 := by
    rw [h.tables]
    exact List.forall_mem_map.mpr fun old hold => (hok.ifds old hold).nonempty
  have hall : (∀ old ∈ st.w.ifds, old.stop ≤ new.pos ∨ new.stop ≤ old.pos) ↔
      ∀ t ∈ st.w.tables, t.2 ≤ new.pos ∨ st.w.stopAt new.pos ≤ t.1 := by
    rw [h.tables, List.forall_mem_map, hstopAt]
  rw [hall, Walk.apart_iff hnodup hne hlt]
  have hrejected : p.followed = true →
      rules.rejects (st.w.checked p new.pos) new.pos p.kind ≠ none := by
    intro hfollow hnone
    have htrue := checkReject_eq_true.mpr ⟨hfollow, hnone⟩
    rw [← hfollowed, hun.followed] at htrue
    cases htrue
  have hoverlap : st.w.tableOverlap new.pos ≠ none → p.followed = true := by
    intro hsome
    rw [checkOverlap, show st.w.polled.tableOverlap new.pos = st.w.tableOverlap new.pos from rfl]
      at hover
    obtain ⟨other, hother⟩ := Option.ne_none_iff_exists'.mp hsome
    rw [hother] at hover
    cases hp : p.followed with
    | true => rfl
    | false =>
      rw [hp] at hover
      cases hover
  constructor
  · rintro ⟨hnone, hhidden⟩ ⟨pos, hpos', hcase⟩
    obtain rfl : new.pos = pos := Option.some_inj.mp (hpos.symm.trans hpos')
    exact hcase.elim hhidden fun hsome => hsome.2.1 hnone
  · intro hno
    refine ⟨?_, fun hhidden => hno ⟨new.pos, hpos, .inl hhidden⟩⟩
    by_contra hsome
    have hfollow := hoverlap hsome
    exact hno ⟨new.pos, hpos, .inr ⟨hfollow, hsome, hrejected hfollow⟩⟩

/-! ### Runs -/

/-- A walk starts with its header inside the data. -/
theorem Starts.ok {rules : Rules} {data : Bytes} {base limit : ℕ} {st₀ : Queue}
    (h : Starts rules data base limit st₀) :
    st₀.w.Ok ∧ st₀.w.limit = min limit data.length := by
  cases h with
  | @header w ifd0 hheader =>
    have hok := readHeader_ok data base limit rules
    rw [hheader] at hok
    have hlen : w.base + w.lay.headerLen ≤ w.limit :=
      hok.base_eq ▸ hok.limit_eq ▸ hok.header rfl
    exact ⟨headed_ok rules hok.ok hlen, (headed_limit w rules).trans hok.limit_eq⟩
  | ifd lay pos kind name depth =>
    exact ⟨.fresh rfl rfl fun h => absurd h (lt_irrefl pos), start_limit ..⟩

theorem step_limit (rules : Rules) (st : Queue) (p : Pending) :
    (step rules st p).1.w.limit = st.w.limit := by
  cases step_effect rules st p with
  | nothing hsame => exact hsame.limit_eq
  | again _ _ _ _ hsame => exact hsame.limit_eq
  | fresh _ _ _ _ _ hsame => exact hsame.limit_eq

/-- In every walk, the table of a directory that is recorded as not followed is apart from the
tables of all directories recorded before it, if and only if none is overlooked. -/
theorem unfollowed_apart_iff {rules : Rules} {data : Bytes} {base limit : ℕ} {st₀ st : Queue}
    {l : List (Queue × Pending)} (hlen : data.length < 2 ^ 64)
    (hstart : Starts rules data base limit st₀) (hrun : Handled rules st₀ l st)
    {s : Queue × Pending} (hs : s ∈ l) {ifd : Ifd} (hifd : Unfollowed rules s ifd) :
    (∀ old ∈ s.1.w.ifds, old.stop ≤ ifd.pos ∨ ifd.stop ≤ old.pos) ↔ ¬Overlooks rules s := by
  obtain ⟨hok, hlimit⟩ := hstart.ok
  have hindexed := (hrun.indexed hstart.fresh.2.1).2 s hs
  have hkept := (hrun.keeps (P := fun w => w.Ok ∧ w.limit = min limit data.length)
    (fun st p hst => ⟨step_ok rules p hst.1, (step_limit rules st p).trans hst.2⟩)
    ⟨hok, hlimit⟩).2 s hs
  refine step_apart_iff hindexed hkept.1 ?_ hifd
  rw [hkept.2]
  exact (min_le_right _ _).trans_lt hlen

/-- Rules under which the decoder follows sub-directories only. -/
def subIfdRules : Rules :=
  { plainRules with follows := fun _ _ _ e => e.tag = subIfds }

/-- A TIFF whose first directory, at 8, is 42 bytes long and has a sub-directory at 38 inside
it, which ends at 44, and a GPS directory at 44. -/
def hiddenTable : Bytes :=
  [0x49, 0x49, 42, 0, 8, 0, 0, 0,
    3, 0,
    0x4A, 0x01, 4, 0, 1, 0, 0, 0, 38, 0, 0, 0,
    0x25, 0x88, 4, 0, 1, 0, 0, 0, 44, 0, 0, 0,
    0, 0xC0, 4, 0, 0, 0, 0, 0, 0, 0, 0, 0,
    0, 0, 0, 0]

/-- The GPS directory is not followed and is walked, inside the first one. -/
theorem hiddenTable_walked :
    (walk hiddenTable 0 50 subIfdRules).ifds.map (fun ifd => (ifd.pos, ifd.stop, ifd.followed)) =
      [(8, 50, true), (38, 44, true), (44, 50, false)] := by
  decide +kernel

/-- The state in which the walk over `hiddenTable` starts. -/
def hiddenStart : Queue :=
  let w := headed (readHeader hiddenTable 0 50 subIfdRules).1 subIfdRules
  ⟨w, [⟨w.abs 8, .page 0, "IFD0", true, .header, 0⟩]⟩

theorem starts_hiddenStart : Starts subIfdRules hiddenTable 0 50 hiddenStart :=
  Starts.header (Prod.ext rfl (by decide +kernel))

/-- Its last step records a directory that is not followed. -/
theorem hiddenTable_unfollowed :
    ∃ s ∈ handled subIfdRules 5 hiddenStart, ∃ ifd ∈ (step subIfdRules s.1 s.2).1.w.ifds,
      (∀ old ∈ s.1.w.ifds, old.pos ≠ ifd.pos) ∧ ifd.followed = false := by
  decide +kernel

theorem unfollowed_apart_iff_hiddenTable :
    ∃ s ∈ handled subIfdRules 5 hiddenStart, ∃ ifd, Unfollowed subIfdRules s ifd ∧
      ((∀ old ∈ s.1.w.ifds, old.stop ≤ ifd.pos ∨ ifd.stop ≤ old.pos) ↔
        ¬Overlooks subIfdRules s) := by
  obtain ⟨s, hs, ifd, hmem, hfresh, hfollowed⟩ := hiddenTable_unfollowed
  have hifd : Unfollowed subIfdRules s ifd := ⟨hmem, hfresh, hfollowed⟩
  exact ⟨s, hs, ifd, hifd, unfollowed_apart_iff (by decide) starts_hiddenStart
    (runQueue_handled subIfdRules 5 hiddenStart) hs hifd⟩

end Tiff

end Zencodec
