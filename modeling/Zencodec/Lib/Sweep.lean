/-
Sweeping over ranges with priorities.

The ends of keyed ranges, in order, are the events of a sweep: the start of a range makes
its key active and its end removes it.

* `Active.step` — what one event does to the active keys;
* `Active.mem_iff_covers` — between two events the active keys are those of the ranges
  that cover the bytes in between;
* `head?_eq_some_iff` — the least active key is the best of them;
* `IsRuns.extend` — a list of maximal runs grows by a stretch to its right.
-/
import Zencodec.Lib.StableSort
import Zencodec.Lib.Tiling

open StableSort Tiling

namespace Sweep

variable {α κ : Type*} [LinearOrder α]

/-! ### Maximal runs -/

/-- `l` lists the maximal runs of the elements with `P`, in order. -/
structure IsRuns (P : α → Prop) (l : List (Span α)) : Prop where
  nonempty : ∀ s ∈ l, s.Nonempty
  apart : l.Pairwise fun s t => s.stop < t.start
  mem_iff : ∀ x, (∃ s ∈ l, x ∈ s) ↔ P x

/-- Append the stretch `x..y`, or grow the last run by it when it ends at `x`. -/
def extend (l : List (Span α)) (x y : α) : List (Span α) :=
  match l.getLast? with
  | some last =>
    if last.stop = x then l.dropLast ++ [⟨last.start, y⟩] else l ++ [⟨x, y⟩]
  | none => [⟨x, y⟩]

theorem isRuns_nil {P : α → Prop} (h : ∀ x, ¬P x) : IsRuns P [] where
  nonempty := fun _ hs => absurd hs List.not_mem_nil
  apart := List.Pairwise.nil
  mem_iff := fun x => by simp [h x]

theorem IsRuns.congr {P Q : α → Prop} {l : List (Span α)} (h : IsRuns P l)
    (hPQ : ∀ x, P x ↔ Q x) : IsRuns Q l where
  nonempty := h.nonempty
  apart := h.apart
  mem_iff := fun x => (h.mem_iff x).trans (hPQ x)

/-- A run of elements below `x` ends no later than `x`. -/
theorem IsRuns.stop_le {P : α → Prop} {l : List (Span α)} (h : IsRuns P l) {x : α}
    (hx : ∀ z, P z → z < x) {s : Span α} (hs : s ∈ l) : s.stop ≤ x := by
  by_contra hlt
  have hmem : max x s.start ∈ s :=
    ⟨le_max_right _ _, max_lt (not_le.mp hlt) (h.nonempty s hs)⟩
  exact absurd (hx _ ((h.mem_iff _).mp ⟨s, hs, hmem⟩)) (not_lt.mpr (le_max_left _ _))

theorem IsRuns.extend {P : α → Prop} {l : List (Span α)} (h : IsRuns P l) {x y : α}
    (hx : ∀ z, P z → z < x) (hxy : x < y) :
    IsRuns (fun z => P z ∨ x ≤ z ∧ z < y) (extend l x y) := by
  rcases List.eq_nil_or_concat l with rfl | ⟨init, last, rfl⟩
  · have hno : ∀ z, ¬P z := fun z hz => by simpa using (h.mem_iff z).mpr hz
    refine ⟨fun s hs => ?_, List.pairwise_singleton _ _, fun z => ?_⟩
    · obtain rfl := List.mem_singleton.mp hs
      exact hxy
    · simp [Sweep.extend, hno z, Span.mem_def]
  · rw [List.concat_eq_append] at h ⊢
    have hlast : last ∈ init ++ [last] := by simp
    have hne : last.start < last.stop := h.nonempty last hlast
    have hstop : last.stop ≤ x := h.stop_le hx hlast
    obtain ⟨hinit, -, hapart⟩ := List.pairwise_append.mp h.apart
    have hfront : ∀ s ∈ init, s.stop < last.start := fun s hs =>
      hapart s hs last (List.mem_singleton_self last)
    have hold : ∀ z, P z ↔ (∃ s ∈ init, z ∈ s) ∨ z ∈ last := fun z => by
      rw [← h.mem_iff z]
      simp [or_and_right, exists_or]
    simp only [Sweep.extend, List.getLast?_append_of_ne_nil _ (List.cons_ne_nil last []),
      List.getLast?_singleton, List.dropLast_concat]
    by_cases hjoin : last.stop = x
    · -- The last run grows: what it gains starts where it ended.
      rw [if_pos hjoin]
      refine ⟨fun s hs => ?_, ?_, fun z => ?_⟩
      · rcases List.mem_append.mp hs with hs | hs
        · exact h.nonempty s (List.mem_append_left _ hs)
        · obtain rfl := List.mem_singleton.mp hs
          exact hne.trans (hjoin ▸ hxy)
      · refine List.pairwise_append.mpr ⟨hinit, List.pairwise_singleton _ _, ?_⟩
        intro s hs t ht
        obtain rfl := List.mem_singleton.mp ht
        exact hfront s hs
      · rw [hold z]
        simp only [List.mem_append, List.mem_singleton, or_and_right, exists_or,
          exists_eq_left, or_assoc, Span.mem_def]
        refine or_congr_right ⟨fun hz => ?_, fun hz => ?_⟩
        · exact (lt_or_ge z x).imp (fun hlt => ⟨hz.1, hjoin ▸ hlt⟩) fun hge => ⟨hge, hz.2⟩
        · rcases hz with hz | hz
          · exact ⟨hz.1, hz.2.trans (hjoin ▸ hxy)⟩
          · exact ⟨hne.le.trans (hjoin ▸ hz.1), hz.2⟩
    · rw [if_neg hjoin]
      have hlt : last.stop < x := lt_of_le_of_ne hstop hjoin
      refine ⟨fun s hs => ?_, ?_, fun z => ?_⟩
      · rcases List.mem_append.mp hs with hs | hs
        · exact h.nonempty s hs
        · obtain rfl := List.mem_singleton.mp hs
          exact hxy
      · refine List.pairwise_append.mpr ⟨h.apart, List.pairwise_singleton _ _, ?_⟩
        intro s hs t ht
        obtain rfl := List.mem_singleton.mp ht
        rcases List.mem_append.mp hs with hs | hs
        · exact (hfront s hs).trans (hne.trans hlt)
        · obtain rfl := List.mem_singleton.mp hs
          exact hlt
      · rw [← h.mem_iff z]
        simp [or_and_right, exists_or, or_assoc, Span.mem_def]

/-! ### Events -/

/-- The start or the end of a keyed range. -/
structure Event (α κ : Type*) where
  pos : α
  start : Bool
  key : κ
  deriving DecidableEq

/-- Both ends of every range, in order; at one position the ends come first. -/
def events (l : List (Span α × κ)) : List (Event α κ) :=
  sortBy (fun e => toLex (e.pos, e.start))
    (l.flatMap fun p => [⟨p.1.start, true, p.2⟩, ⟨p.1.stop, false, p.2⟩])

theorem mem_events {l : List (Span α × κ)} {e : Event α κ} :
    e ∈ events l ↔ ∃ p ∈ l, e = ⟨p.1.start, true, p.2⟩ ∨ e = ⟨p.1.stop, false, p.2⟩ := by
  simp [events]

theorem start_mem_events {l : List (Span α × κ)} {p : Span α × κ} (hp : p ∈ l) :
    (⟨p.1.start, true, p.2⟩ : Event α κ) ∈ events l :=
  mem_events.mpr ⟨p, hp, Or.inl rfl⟩

theorem stop_mem_events {l : List (Span α × κ)} {p : Span α × κ} (hp : p ∈ l) :
    (⟨p.1.stop, false, p.2⟩ : Event α κ) ∈ events l :=
  mem_events.mpr ⟨p, hp, Or.inr rfl⟩

theorem events_nodup {l : List (Span α × κ)} (h : (l.map Prod.snd).Nodup) :
    (events l).Nodup := by
  refine (sortBy_perm _ _).nodup_iff.mpr (List.nodup_flatMap.mpr ⟨fun p _ => ?_, ?_⟩)
  · simp
  · rw [List.Nodup, List.pairwise_map] at h
    refine h.imp fun {p q} hpq => ?_
    simp [Function.onFun, Ne.symm hpq]

theorem events_sorted (l : List (Span α × κ)) :
    (events l).Pairwise fun e f => e.pos ≤ f.pos := by
  refine (sortBy_sorted _ _).imp fun {e f} hef => ?_
  rcases Prod.Lex.le_iff.mp hef with hlt | ⟨heq, -⟩
  · exact hlt.le
  · exact heq.le

/-! ### The active keys -/

variable [LinearOrder κ]

/-- A start makes its key active, an end removes it; the active keys stay in order. -/
def Event.apply (e : Event α κ) (active : List κ) : List κ :=
  if e.start then active.orderedInsert (· ≤ ·) e.key else active.erase e.key

/-- After the events `done`, with `rest` to come, `active` holds the keys whose range has
started and not ended. -/
structure Active (l : List (Span α × κ)) (done rest : List (Event α κ)) (active : List κ) :
    Prop where
  split : done ++ rest = events l
  sorted : active.Pairwise (· ≤ ·)
  nodup : active.Nodup
  mem_iff : ∀ k, k ∈ active ↔ ∃ s, (s, k) ∈ l ∧ (⟨s.start, true, k⟩ : Event α κ) ∈ done ∧
    (⟨s.stop, false, k⟩ : Event α κ) ∈ rest

theorem active_nil (l : List (Span α × κ)) : Active l [] (events l) [] where
  split := rfl
  sorted := List.Pairwise.nil
  nodup := List.nodup_nil
  mem_iff := fun k => by simp

section

variable {l : List (Span α × κ)} {done rest : List (Event α κ)} {active : List κ}

theorem Active.pos_le (h : Active l done rest active) :
    ∀ d ∈ done, ∀ e ∈ rest, d.pos ≤ e.pos := by
  have hsorted := events_sorted l
  rw [← h.split] at hsorted
  exact (List.pairwise_append.mp hsorted).2.2

/-- One event keeps the active keys right. -/
theorem Active.step {e : Event α κ} (h : Active l done (e :: rest) active)
    (hkeys : (l.map Prod.snd).Nodup) (hne : ∀ p ∈ l, p.1.Nonempty) :
    Active l (done ++ [e]) rest (e.apply active) := by
  have hmem : e ∈ events l := h.split ▸ by simp
  have hnodup : (done ++ e :: rest).Nodup := h.split ▸ events_nodup hkeys
  have hrest : e ∉ rest := (List.nodup_cons.mp (List.nodup_append.mp hnodup).2.1).1
  have hdone : e ∉ done := fun hd =>
    (List.nodup_append.mp hnodup).2.2 e hd e List.mem_cons_self rfl
  have happ : ∀ f, f ∈ done ++ [e] ↔ f ∈ done ∨ f = e := fun f => by simp
  -- A key names one range.
  have hinj : ∀ {s t : Span α} {k : κ}, (s, k) ∈ l → (t, k) ∈ l → s = t := by
    intro s t k hs ht
    exact congrArg Prod.fst (List.inj_on_of_nodup_map hkeys hs ht rfl)
  obtain ⟨⟨s, k⟩, hp, rfl | rfl⟩ := mem_events.mp hmem
  · have hnotin : k ∉ active := fun hk => by
      obtain ⟨t, ht, hstart, -⟩ := (h.mem_iff k).mp hk
      exact hdone (hinj ht hp ▸ hstart)
    have hstop : (⟨s.stop, false, k⟩ : Event α κ) ∈ rest := by
      have hev : (⟨s.stop, false, k⟩ : Event α κ) ∈ done ++ ⟨s.start, true, k⟩ :: rest :=
        h.split ▸ stop_mem_events hp
      rcases List.mem_append.mp hev with hd | hr
      · exact absurd (h.pos_le _ hd _ List.mem_cons_self) (not_le.mpr (hne _ hp))
      · simpa using hr
    refine ⟨by simpa using h.split, ?_, ?_, fun k' => ?_⟩
    · exact List.Pairwise.orderedInsert _ _ h.sorted
    · exact (List.perm_orderedInsert _ k active).nodup_iff.mpr
        (List.nodup_cons.mpr ⟨hnotin, h.nodup⟩)
    · simp only [Event.apply, if_true, List.mem_orderedInsert, h.mem_iff k', happ,
        List.mem_cons, Event.mk.injEq, Bool.false_eq_true, false_and, and_false, false_or]
      constructor
      · rintro (rfl | ⟨t, ht, hs, hr⟩)
        · exact ⟨s, hp, Or.inr ⟨rfl, trivial, rfl⟩, hstop⟩
        · exact ⟨t, ht, Or.inl hs, hr⟩
      · rintro ⟨t, ht, hs | ⟨-, -, rfl⟩, hr⟩
        · exact Or.inr ⟨t, ht, hs, hr⟩
        · exact Or.inl rfl
  · refine ⟨by simpa using h.split, ?_, ?_, fun k' => ?_⟩
    · exact h.sorted.sublist List.erase_sublist
    · exact h.nodup.erase k
    · simp only [Event.apply, Bool.false_eq_true, if_false, h.nodup.mem_erase_iff,
        h.mem_iff k', happ, List.mem_cons, Event.mk.injEq, reduceCtorEq, false_and,
        and_false, or_false]
      constructor
      · rintro ⟨hk, t, ht, hs, ⟨-, -, rfl⟩ | hr⟩
        · exact absurd rfl hk
        · exact ⟨t, ht, hs, hr⟩
      · rintro ⟨t, ht, hs, hr⟩
        refine ⟨?_, t, ht, hs, Or.inr hr⟩
        rintro rfl
        exact hrest (hinj ht hp ▸ hr)

/-- Between two events the active keys are those of the ranges around. -/
theorem Active.mem_iff_covers (h : Active l done rest active) {x next z : α}
    (hdone : ∀ e ∈ done, e.pos ≤ x) (hrest : ∀ e ∈ rest, next ≤ e.pos) (hxz : x ≤ z)
    (hz : z < next) (k : κ) : k ∈ active ↔ ∃ s, (s, k) ∈ l ∧ z ∈ s := by
  rw [h.mem_iff k]
  constructor
  · rintro ⟨s, hs, hstart, hstop⟩
    exact ⟨s, hs, (hdone _ hstart).trans hxz, hz.trans_le (hrest _ hstop)⟩
  · rintro ⟨s, hs, hzs⟩
    have hstart := h.split ▸ start_mem_events hs
    have hstop := h.split ▸ stop_mem_events hs
    refine ⟨s, hs, ?_, ?_⟩
    · rcases List.mem_append.mp hstart with hd | hr
      · exact hd
      · exact absurd (hz.trans_le (hrest _ hr)) (not_lt.mpr hzs.1)
    · rcases List.mem_append.mp hstop with hd | hr
      · exact absurd (hzs.2.trans_le (hdone _ hd)) (not_lt.mpr hxz)
      · exact hr

end

/-- `k` is the least key of a range that covers `z`. -/
def IsBest (l : List (Span α × κ)) (z : α) (k : κ) : Prop :=
  (∃ s, (s, k) ∈ l ∧ z ∈ s) ∧ ∀ s k', (s, k') ∈ l → z ∈ s → k ≤ k'

theorem IsBest.unique {l : List (Span α × κ)} {z : α} {k k' : κ} (h : IsBest l z k)
    (h' : IsBest l z k') : k = k' := by
  obtain ⟨⟨s, hs, hz⟩, hle⟩ := h
  obtain ⟨⟨s', hs', hz'⟩, hle'⟩ := h'
  exact le_antisymm (hle s' k' hs' hz') (hle' s k hs hz)

theorem exists_isBest {l : List (Span α × κ)} {z : α} {s : Span α} {k : κ} (h : (s, k) ∈ l)
    (hz : z ∈ s) : ∃ k, IsBest l z k := by
  let keys : Finset κ := ((l.filter fun p => z ∈ p.1).map Prod.snd).toFinset
  have hmem : ∀ k, k ∈ keys ↔ ∃ s, (s, k) ∈ l ∧ z ∈ s := fun k => by simp [keys]
  obtain ⟨k', hk', hle⟩ := Finset.exists_min_image keys id ⟨k, (hmem k).mpr ⟨s, h, hz⟩⟩
  exact ⟨k', (hmem k').mp hk', fun s k'' hs hzs => hle k'' ((hmem k'').mpr ⟨s, hs, hzs⟩)⟩

/-- The first active key is the best one. -/
theorem head?_eq_some_iff {l : List (Span α × κ)} {active : List κ} {z : α}
    (hsorted : active.Pairwise (· ≤ ·)) (hmem : ∀ k, k ∈ active ↔ ∃ s, (s, k) ∈ l ∧ z ∈ s)
    {k : κ} : active.head? = some k ↔ IsBest l z k := by
  cases active with
  | nil =>
    simp only [List.head?_nil, reduceCtorEq, false_iff]
    rintro ⟨hk, -⟩
    exact absurd ((hmem k).mpr hk) List.not_mem_nil
  | cons k' active =>
    have hbest : IsBest l z k' := by
      refine ⟨(hmem k').mp List.mem_cons_self, fun s k'' hs hz => ?_⟩
      rcases List.mem_cons.mp ((hmem k'').mpr ⟨s, hs, hz⟩) with rfl | hk
      · exact le_rfl
      · exact (List.pairwise_cons.mp hsorted).1 k'' hk
    rw [List.head?_cons, Option.some.injEq]
    exact ⟨fun h => h ▸ hbest, fun h => hbest.unique h⟩

end Sweep
