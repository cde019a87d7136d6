/-
Comparing two lists of keyed values.

A map collected from a list keeps, for each key, the last value listed under it:
`lookup` is the value it holds at a key and `collected` its values in the order of
the list.  `diff` compares two lists through their maps and reports each key as
added, removed or modified; `patched` carries the report out on the first list.

On lists in increasing order of their keys the comparison is `Exact` — it reports
nothing precisely when the lists hold the same values, and carrying it out turns
the first list into the second — if and only if no key is listed twice
(`exact_iff`).
-/
import Zencodec.Lib.StableSort

namespace KeyedDiff

open StableSort

variable {α κ : Type*} {key : α → κ}

/-- One reported difference. -/
inductive Change (α : Type*)
  | added (e : α)
  | removed (e : α)
  | modified (before after : α)
  deriving DecidableEq

/-- Two values of one key are the same value. -/
theorem eq_of_key {es : List α} (h : (es.map key).Nodup) {e f : α} (he : e ∈ es)
    (hf : f ∈ es) (hk : key e = key f) : e = f :=
  List.inj_on_of_nodup_map h he hf hk

/-- A partial map that keeps the key keeps the keys in order. -/
theorem filterMap_keys_sublist {f : α → Option α} (hf : ∀ e n, f e = some n → key n = key e) :
    ∀ es : List α, ((es.filterMap f).map key).Sublist (es.map key)
  | [] => List.Sublist.slnil
  | e :: es => by
    have ih := filterMap_keys_sublist hf es
    cases hn : f e with
    | none =>
      rw [List.filterMap_cons_none hn]
      exact ih.cons _
    | some n =>
      rw [List.filterMap_cons_some hn, List.map_cons, List.map_cons, hf e n hn]
      exact ih.cons_cons _

variable [LinearOrder κ]

/-- The value a map collected from `es` holds at `k`: the last one listed. -/
def lookup (key : α → κ) (es : List α) (k : κ) : Option α :=
  es.reverse.find? fun e => key e = k

/-- The values of a map collected from `es`. -/
def collected (key : α → κ) : List α → List α
  | [] => []
  | e :: es => if es.any fun f => key f = key e then collected key es
      else e :: collected key es

theorem collected_eq_self {es : List α} (h : (es.map key).Nodup) : collected key es = es := by
  induction es with
  | nil => rfl
  | cons e es ih =>
    rw [List.map_cons, List.nodup_cons] at h
    have hfresh : (es.any fun f => key f = key e) = false := by
      rw [List.any_eq_false]
      intro f hf hk
      exact h.1 (List.mem_map.mpr ⟨f, hf, of_decide_eq_true hk⟩)
    rw [collected, hfresh, ih h.2]
    rfl

theorem of_lookup {es : List α} {k : κ} {e : α} (h : lookup key es k = some e) :
    e ∈ es ∧ key e = k := by
  rw [lookup, List.find?_eq_some_iff_append] at h
  obtain ⟨hk, l, r, hl, -⟩ := h
  exact ⟨List.mem_reverse.mp (hl ▸ List.mem_append_right _ List.mem_cons_self),
    of_decide_eq_true hk⟩

theorem lookup_eq_some {es : List α} (h : (es.map key).Nodup) {k : κ} {e : α} :
    lookup key es k = some e ↔ e ∈ es ∧ key e = k := by
  constructor
  · exact of_lookup
  · rintro ⟨he, rfl⟩
    obtain ⟨f, hf⟩ : ∃ f, lookup key es (key e) = some f := by
      apply Option.isSome_iff_exists.mp
      rw [lookup, List.find?_isSome]
      exact ⟨e, List.mem_reverse.mpr he, decide_eq_true rfl⟩
    rw [hf, eq_of_key h (of_lookup hf).1 he (of_lookup hf).2]

theorem lookup_eq_none {es : List α} {k : κ} :
    lookup key es k = none ↔ ∀ e ∈ es, key e ≠ k := by
  rw [lookup, List.find?_eq_none]
  simp only [List.mem_reverse, decide_eq_true_eq, ne_eq]

/-- A list in order of distinct keys is determined by its values. -/
theorem eq_of_perm {a b : List α} (hsa : SortedBy key a) (hsb : SortedBy key b) (hb : (b.map key).Nodup)
    (h : a.Perm b) : a = b := by
  refine List.Perm.eq_of_pairwise (fun e f he hf h₁ h₂ => ?_) hsa hsb h
  exact eq_of_key hb (h.subset he) hf (le_antisymm h₁ h₂)

variable [DecidableEq α]

/-- What a value of the first map is reported as. -/
def compare (key : α → κ) (next : List α) (e : α) : Option (Change α) :=
  match lookup key next (key e) with
  | none => some (.removed e)
  | some n => if e ≠ n then some (.modified e n) else none

/-- The differences between the maps collected from `before` and `next`. -/
def diff (key : α → κ) (before next : List α) : List (Change α) :=
  (collected key before).filterMap (compare key next) ++
    ((collected key next).filter fun e => (lookup key before (key e)).isNone).map .added

/-- The value a change takes away. -/
def Change.gone : Change α → Option α
  | .added _ => none
  | .removed e => some e
  | .modified before _ => some before

/-- The value a change brings. -/
def Change.brought : Change α → Option α
  | .added e => some e
  | .removed _ => none
  | .modified _ after => some after

/-- `es` with the changes carried out: each value taken away is removed once, the
values brought are added, and the list is put back in order. -/
def patched (key : α → κ) (changes : List (Change α)) (es : List α) : List α :=
  sortBy key (es.diff (changes.filterMap Change.gone) ++ changes.filterMap Change.brought)

/-- The comparison of `before` and `next` tells the whole difference. -/
structure Exact (key : α → κ) (before next : List α) : Prop where
  distinct_before : (before.map key).Nodup
  distinct_next : (next.map key).Nodup
  empty_iff : diff key before next = [] ↔ before.Perm next
  patched_eq : patched key (diff key before next) before = next

/-! ### What is taken away and what is brought -/

section Distinct

variable {a b : List α}

theorem compare_gone (hb : (b.map key).Nodup) (e : α) :
    (compare key b e).bind Change.gone = if e ∈ b then none else some e := by
  unfold compare
  cases hl : lookup key b (key e) with
  | none =>
    have hne : e ∉ b := fun he => lookup_eq_none.mp hl e he rfl
    rw [if_neg hne]
    rfl
  | some n =>
    obtain ⟨hn, hk⟩ := (lookup_eq_some hb).mp hl
    by_cases hen : e = n
    · simp [hen, hn]
    · have hne : e ∉ b := fun he => hen (eq_of_key hb he hn hk.symm)
      simp [hen, hne, Change.gone]

theorem compare_brought (hb : (b.map key).Nodup) {e n : α} :
    (compare key b e).bind Change.brought = some n ↔ n ∈ b ∧ key n = key e ∧ e ≠ n := by
  unfold compare
  cases hl : lookup key b (key e) with
  | none =>
    have hne := lookup_eq_none.mp hl
    simp only [Option.bind_some, Change.brought, reduceCtorEq, false_iff]
    rintro ⟨hn, hk, -⟩
    exact hne n hn hk
  | some m =>
    obtain ⟨hm, hk⟩ := (lookup_eq_some hb).mp hl
    by_cases hem : e = m
    · simp only [hem, ne_eq, not_true_eq_false, if_false, Option.bind_none, reduceCtorEq,
        false_iff]
      rintro ⟨hn, hkn, hne⟩
      exact hne (eq_of_key hb hm hn hkn.symm)
    · simp only [ne_eq, hem, not_false_eq_true, if_true, Option.bind_some, Change.brought,
        Option.some.injEq]
      constructor
      · rintro rfl
        exact ⟨hm, hk, hem⟩
      · rintro ⟨hn, hkn, -⟩
        exact eq_of_key hb hm hn (hk.trans hkn.symm)

/-- The values taken away are those of the first list that the second lacks. -/
theorem gone_diff (ha : (a.map key).Nodup) (hb : (b.map key).Nodup) :
    (diff key a b).filterMap Change.gone = a.filter fun e => e ∉ b := by
  have hadded : ((b.filter fun e => (lookup key a (key e)).isNone).map
      (Change.added : α → Change α)).filterMap Change.gone = [] := by
    rw [List.filterMap_map]
    exact List.filterMap_eq_nil_iff.mpr fun _ _ => rfl
  rw [diff, collected_eq_self ha, collected_eq_self hb, List.filterMap_append, hadded,
    List.append_nil, List.filterMap_filterMap, ← List.filterMap_eq_filter]
  refine List.filterMap_congr fun e _ => ?_
  rw [compare_gone hb]
  by_cases he : e ∈ b <;> simp [he, Option.guard]

/-- The values brought are those of the second list that the first lacks. -/
theorem mem_brought_diff (ha : (a.map key).Nodup) (hb : (b.map key).Nodup) {n : α} :
    n ∈ (diff key a b).filterMap Change.brought ↔ n ∈ b ∧ n ∉ a := by
  rw [diff, collected_eq_self ha, collected_eq_self hb, List.filterMap_append,
    List.filterMap_filterMap, List.filterMap_map, List.mem_append, List.mem_filterMap,
    List.mem_filterMap]
  constructor
  · rintro (⟨e, he, hn⟩ | ⟨e, he, hn⟩)
    · obtain ⟨hn, hk, hne⟩ := (compare_brought hb).mp hn
      exact ⟨hn, fun hna => hne (eq_of_key ha he hna hk.symm)⟩
    · obtain ⟨heb, hnone⟩ := List.mem_filter.mp he
      obtain rfl : e = n := Option.some.inj hn
      exact ⟨heb, fun hea => lookup_eq_none.mp (Option.isNone_iff_eq_none.mp hnone) e hea rfl⟩
  · rintro ⟨hn, hna⟩
    -- a value under a key of the first list is a modification, any other an addition
    cases hl : lookup key a (key n) with
    | none => exact Or.inr ⟨n, List.mem_filter.mpr ⟨hn, by rw [hl]; rfl⟩, rfl⟩
    | some e =>
      obtain ⟨he, hk⟩ := (lookup_eq_some ha).mp hl
      refine Or.inl ⟨e, he, (compare_brought hb).mpr ⟨hn, hk.symm, ?_⟩⟩
      rintro rfl
      exact hna he

theorem nodup_brought_diff (ha : (a.map key).Nodup) (hb : (b.map key).Nodup) :
    ((diff key a b).filterMap Change.brought).Nodup := by
  rw [diff, collected_eq_self ha, collected_eq_self hb, List.filterMap_append,
    List.filterMap_filterMap, List.filterMap_map]
  have hkeep : ∀ e n, (compare key b e).bind Change.brought = some n → key n = key e :=
    fun e n hn => ((compare_brought hb).mp hn).2.1
  refine List.Nodup.append ?_ ?_ ?_
  · exact List.Nodup.of_map key ((filterMap_keys_sublist hkeep a).nodup ha)
  · have hid : (Change.brought ∘ Change.added : α → Option α) = some := rfl
    rw [hid, List.filterMap_some]
    exact (List.Nodup.of_map key hb).filter _
  · intro n hn hn'
    obtain ⟨e, he, hbr⟩ := List.mem_filterMap.mp hn
    obtain ⟨f, hf, hfn⟩ := List.mem_filterMap.mp hn'
    obtain rfl : f = n := Option.some.inj hfn
    have hnone := Option.isNone_iff_eq_none.mp (List.mem_filter.mp hf).2
    exact lookup_eq_none.mp hnone e he (hkeep e f hbr).symm

/-- Taking away and adding what the comparison reports leaves the values of the second
list. -/
theorem perm_patched (ha : (a.map key).Nodup) (hb : (b.map key).Nodup) :
    (patched key (diff key a b) a).Perm b := by
  have hnodup : a.Nodup := List.Nodup.of_map key ha
  refine (sortBy_perm key _).trans ?_
  rw [gone_diff ha hb, hnodup.sdiff_eq_filter]
  refine (List.perm_ext_iff_of_nodup ?_ (List.Nodup.of_map key hb)).mpr fun n => ?_
  · refine (hnodup.filter _).append (nodup_brought_diff ha hb) fun n hn hn' => ?_
    exact ((mem_brought_diff ha hb).mp hn').2 (List.mem_of_mem_filter hn)
  · rw [List.mem_append, List.mem_filter, mem_brought_diff ha hb]
    simp only [List.mem_filter, decide_eq_true_eq, not_and, Decidable.not_not]
    constructor
    · rintro (⟨hna, hn⟩ | ⟨hn, -⟩)
      · exact hn hna
      · exact hn
    · intro hn
      by_cases hna : n ∈ a
      · exact Or.inl ⟨hna, fun _ => hn⟩
      · exact Or.inr ⟨hn, hna⟩

theorem diff_self (ha : (a.map key).Nodup) : diff key a a = [] := by
  rw [diff, collected_eq_self ha, List.append_eq_nil_iff]
  constructor
  · refine List.filterMap_eq_nil_iff.mpr fun e he => ?_
    rw [compare, (lookup_eq_some ha).mpr ⟨he, rfl⟩]
    simp
  · rw [List.map_eq_nil_iff, List.filter_eq_nil_iff]
    intro e he
    rw [(lookup_eq_some ha).mpr ⟨he, rfl⟩]
    simp

/-- **The comparison of two ordered lists is exact if and only if neither lists a key
twice.** -/
theorem exact_iff (hsa : SortedBy key a) (hsb : SortedBy key b) :
    Exact key a b ↔ (a.map key).Nodup ∧ (b.map key).Nodup := by
  refine ⟨fun h => ⟨h.distinct_before, h.distinct_next⟩, fun ⟨ha, hb⟩ => ?_⟩
  have hpatched : patched key (diff key a b) a = b :=
    eq_of_perm (sortBy_sorted key _) hsb hb (perm_patched ha hb)
  refine ⟨ha, hb, ⟨fun hempty => ?_, fun hperm => ?_⟩, hpatched⟩
  · -- with nothing reported the first list is left as it is
    rw [hempty, patched, List.filterMap_nil, List.filterMap_nil, List.diff_nil,
      List.append_nil, sortBy_eq_self hsa] at hpatched
    rw [hpatched]
  · rw [eq_of_perm hsa hsb hb hperm]
    exact diff_self hb

end Distinct

end KeyedDiff
