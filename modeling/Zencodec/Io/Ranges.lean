/-
Byte ranges, and merging those that are close to each other.

`coalesceInto` drops empty ranges, sorts the rest and joins neighbours at most `maxGap` apart.
It is a sweep in the sense of `Lib.Coalesce`, each range standing for the bytes that it
contains (`coalesceLoop_eq`), and `coalesced_coalesceInto` says what comes out.

The end of a range saturates at the last address. Ranges that start there contain no byte, and
two of them are joined to an empty one: `coalesceInto_idempotent_iff` says when that happens.
-/
import Zencodec.Incremental.Contract
import Zencodec.Lib.Coalesce
import Zencodec.Lib.Overflow
import Zencodec.Lib.StableSort

open Tiling StableSort

namespace Zencodec

namespace Incremental.ByteRange

/-- The ending byte offset (exclusive), saturating. -/
def stop (r : ByteRange) : ℕ := saturatingAdd r.offset r.length

def isEmpty (r : ByteRange) : Bool := r.length == 0

/-- Whether the range contains an offset. -/
def Contains (r : ByteRange) (x : ℕ) : Prop := r.offset ≤ x ∧ x < r.stop

/-- Both numbers are `u64`s. -/
structure IsU64 (r : ByteRange) : Prop where
  offset : r.offset ≤ u64Max
  length : r.length ≤ u64Max

/-- The bytes of a range. -/
def span (r : ByteRange) : Span ℕ := ⟨r.offset, r.stop⟩

/-- What ranges are sorted by. -/
def key (r : ByteRange) : ℕ ×ₗ ℕ := toLex (r.offset, r.length)

variable {a b r : ByteRange}

theorem IsU64.offset_le_stop (h : r.IsU64) : r.offset ≤ r.stop :=
  le_min (Nat.le_add_right _ _) h.offset

theorem stop_le_u64Max (r : ByteRange) : r.stop ≤ u64Max := min_le_right _ _

theorem stop_le_add (r : ByteRange) : r.stop ≤ r.offset + r.length := min_le_left _ _

theorem offset_le_of_key_le (h : a.key ≤ b.key) : a.offset ≤ b.offset := by
  rcases Prod.Lex.le_iff.mp h with h | h
  · exact le_of_lt h
  · exact le_of_eq h.1

theorem key_injective : Function.Injective key := by
  intro a b h
  obtain ⟨hoffset, hlength⟩ := Prod.ext_iff.mp (toLex.injective h)
  cases a
  cases b
  exact congrArg₂ ByteRange.mk hoffset hlength

end Incremental.ByteRange

namespace Io

open Incremental (ByteRange u64Max saturatingAdd)

variable (o : Overflow) {gap : ℕ} {l out : List ByteRange} {a b r cur : ByteRange} {x : ℕ}

/-! ### The function -/

/-- `out[write]` and what is left of `out[i..]`. -/
def coalesceLoop (maxGap : ℕ) : ByteRange → List ByteRange → Option (List ByteRange)
  | cur, [] => some [cur]
  | cur, r :: rest =>
    if r.offset ≤ saturatingAdd cur.stop maxGap then do
      let length ← o.sub (u64Max + 1) (max cur.stop r.stop) cur.offset
      coalesceLoop maxGap ⟨cur.offset, length⟩ rest
    else do
      let out ← coalesceLoop maxGap r rest
      some (cur :: out)

/-- Merge overlapping or near-adjacent ranges (gap `≤ maxGap`) into one. -/
def coalesceInto (ranges : List ByteRange) (maxGap : ℕ) : Option (List ByteRange) :=
  match sortBy ByteRange.key (ranges.filter fun r => !r.isEmpty) with
  | [] => some []
  | first :: rest => coalesceLoop o maxGap first rest

/-! ### It is a sweep -/

/-- The range from the start of `a` to the last of the two ends. -/
def joined (a b : ByteRange) : ByteRange := ⟨a.offset, max a.stop b.stop - a.offset⟩

def joinNear (gap : ℕ) (_ : Unit) (a b : ByteRange) : Option (Unit × ByteRange) :=
  if b.offset ≤ saturatingAdd a.stop gap then some ((), joined a b) else none

theorem span_joined (h : a.span.start ≤ a.span.stop) :
    (joined a b).span = Coalesce.hull a.span b.span := by
  have hle : a.offset ≤ max a.stop b.stop := h.trans (le_max_left _ _)
  have hstop : (joined a b).stop = max a.stop b.stop := by
    rw [ByteRange.stop, joined, saturatingAdd, Nat.add_sub_of_le hle]
    exact min_eq_left (max_le a.stop_le_u64Max b.stop_le_u64Max)
  exact congrArg (Span.mk a.offset) hstop

theorem joined_isU64 (h : a.IsU64) : (joined a b).IsU64 where
  offset := h.offset
  length := (Nat.sub_le _ _).trans (max_le a.stop_le_u64Max b.stop_le_u64Max)

/-- Near enough to be joined. -/
def Near (gap x y : ℕ) : Prop := y ≤ x + gap

theorem joins_joinNear (gap : ℕ) : Coalesce.Joins ByteRange.span (joinNear gap) (Near gap)
    (fun x y => y ≤ u64Max → x + gap < y) where
  hull := by
    intro _ a b p hproper hp
    unfold joinNear at hp
    split at hp
    · cases hp
      exact span_joined hproper
    · cases hp
  near := by
    intro _ a b p hp
    unfold joinNear at hp
    split at hp
    · next h => exact h.trans (min_le_left _ _)
    · cases hp
  apart := by
    intro _ a b hp hle
    unfold joinNear at hp
    split at hp
    · cases hp
    · next h =>
      exact lt_of_not_ge fun hge => h (le_min hge hle)

theorem inOrder_of_key (hl : ∀ r ∈ l, r.IsU64) (h : SortedBy ByteRange.key l) :
    Coalesce.InOrder ByteRange.span l where
  proper := fun r hr => (hl r hr).offset_le_stop
  sorted := h.imp fun hab => ByteRange.offset_le_of_key_le hab

theorem coalesceLoop_eq (hl : ∀ r ∈ cur :: l, r.IsU64) :
    coalesceLoop o gap cur l = some (Coalesce.sweep (joinNear gap) () cur l) := by
  induction l generalizing cur with
  | nil => rfl
  | cons r rest ih =>
    have hcur : cur.IsU64 := hl cur List.mem_cons_self
    have hrest : ∀ t ∈ rest, t.IsU64 := fun t ht =>
      hl t (List.mem_cons_of_mem _ (List.mem_cons_of_mem _ ht))
    by_cases hnear : r.offset ≤ saturatingAdd cur.stop gap
    · have hle : cur.offset ≤ max cur.stop r.stop := hcur.offset_le_stop.trans (le_max_left _ _)
      have hjoin : joinNear gap () cur r = some ((), joined cur r) := if_pos hnear
      rw [coalesceLoop, if_pos hnear, o.sub_of_le hle, Coalesce.sweep_cons_some hjoin]
      exact ih fun t ht => (List.mem_cons.mp ht).elim (fun h => h ▸ joined_isU64 hcur) (hrest t)
    · have hjoin : joinNear gap () cur r = none := if_neg hnear
      rw [coalesceLoop, if_neg hnear, Coalesce.sweep_cons_none hjoin,
        ih fun t ht => hl t (List.mem_cons_of_mem _ ht)]
      rfl

/-! ### What comes out -/

/-- `out` is what is left of `l` when neighbours at most `gap` apart are merged. -/
structure Coalesced (gap : ℕ) (l out : List ByteRange) : Prop where
  sorted : out.Pairwise fun a b => a.offset < b.offset
  apart : out.Pairwise fun a b => a.stop + gap < b.offset
  union : ∀ x, (∃ r ∈ out, r.Contains x) ↔ (∃ r ∈ l, r.Contains x) ∨
    Coalesce.InGap ByteRange.span (Near gap) (l.filter fun r => !r.isEmpty) x

theorem not_contains_of_isEmpty (h : r.isEmpty = true) : ¬r.Contains x := by
  intro hx
  have hzero : r.length = 0 := beq_iff_eq.mp h
  have := r.stop_le_add
  have := hx.1
  have := hx.2
  omega

/-- The ranges that `coalesceInto` sweeps over. -/
def kept (l : List ByteRange) : List ByteRange :=
  sortBy ByteRange.key (l.filter fun r => !r.isEmpty)

theorem mem_kept : r ∈ kept l ↔ r ∈ l ∧ r.isEmpty = false := by
  rw [kept, mem_sortBy, List.mem_filter, Bool.not_eq_true']

theorem isU64_kept (hl : ∀ r ∈ l, r.IsU64) : ∀ r ∈ kept l, r.IsU64 :=
  fun r hr => hl r (mem_kept.mp hr).1

theorem inOrder_kept (hl : ∀ r ∈ l, r.IsU64) : Coalesce.InOrder ByteRange.span (kept l) :=
  inOrder_of_key (isU64_kept hl) (sortBy_sorted _ _)

theorem coalesceInto_of_nil (h : kept l = []) : coalesceInto o l gap = some [] := by
  unfold kept at h
  rw [coalesceInto, h]

theorem coalesceInto_of_cons (hl : ∀ r ∈ l, r.IsU64) (h : kept l = cur :: out) :
    coalesceInto o l gap = some (Coalesce.sweep (joinNear gap) () cur out) := by
  have hout : ∀ r ∈ cur :: out, r.IsU64 := h ▸ isU64_kept hl
  unfold kept at h
  rw [coalesceInto, h]
  exact coalesceLoop_eq o hout

theorem isU64_of_mem_sweep (gap : ℕ) (hl : ∀ r ∈ cur :: l, r.IsU64) :
    ∀ r ∈ Coalesce.sweep (joinNear gap) () cur l, r.IsU64 := by
  refine Coalesce.forall_mem_sweep (fun _ a b p ha _ hp => ?_) hl
  unfold joinNear at hp
  split at hp
  · cases hp
    exact joined_isU64 ha
  · cases hp

/-- Members of the sweep that are not the same are apart, one way or the other. -/
theorem pairwise_sweep (gap : ℕ) (hl : ∀ r ∈ cur :: l, r.IsU64)
    (h : Coalesce.InOrder ByteRange.span (cur :: l)) :
    (Coalesce.sweep (joinNear gap) () cur l).Pairwise fun a b => a.stop + gap < b.offset := by
  have hapart := Coalesce.pairwise_apart (s := ()) (joins_joinNear gap)
    (fun x y z hxy hyz hz => (hxy (hyz.trans hz)).trans_le hyz) h
  refine hapart.imp_of_mem fun {a b} _ hb hab => ?_
  exact hab (isU64_of_mem_sweep gap hl b hb).offset

/-- A gap that is short enough is covered: what is apart in the sweep is farther apart. -/
theorem contains_of_inGap (hl : ∀ r ∈ cur :: l, r.IsU64)
    (h : Coalesce.InOrder ByteRange.span (cur :: l))
    (hx : Coalesce.InGap ByteRange.span (Near gap) (cur :: l) x) :
    ∃ c ∈ Coalesce.sweep (joinNear gap) () cur l, c.Contains x := by
  obtain ⟨a, ha, b, hb, hstop, hstart, hnear⟩ := hx
  obtain ⟨c, hc, hac⟩ := Coalesce.exists_within (s := ()) (joins_joinNear gap) h ha
  obtain ⟨d, hd, hbd⟩ := Coalesce.exists_within (s := ()) (joins_joinNear gap) h hb
  have hpa := (hl a ha).offset_le_stop
  have hpb := (hl b hb).offset_le_stop
  have hcstart : c.offset ≤ a.offset := hac.1
  have hcstop : a.stop ≤ c.stop := hac.2
  have hdstart : d.offset ≤ b.offset := hbd.1
  have hdstop : b.stop ≤ d.stop := hbd.2
  have hgap : b.offset ≤ a.stop + gap := hnear
  have hxstop : a.stop ≤ x := hstop
  have hxstart : x < b.offset := hstart
  rcases lt_or_ge x c.stop with hlt | hge
  · exact ⟨c, hc, by omega, hlt⟩
  have hsymm := (pairwise_sweep gap hl h).imp (S := fun a b : ByteRange =>
    a.stop + gap < b.offset ∨ b.stop + gap < a.offset) fun hab => .inl hab
  have hne : c ≠ d := by
    rintro rfl
    omega
  have hsym : Std.Symm fun a b : ByteRange =>
      a.stop + gap < b.offset ∨ b.stop + gap < a.offset := ⟨fun _ _ hab => hab.symm⟩
  rcases hsymm.forall hc hd hne with hcd | hdc
  · omega
  · omega

theorem coalesced_sweep (hl : ∀ r ∈ cur :: l, r.IsU64)
    (h : Coalesce.InOrder ByteRange.span (cur :: l)) (x : ℕ) :
    (∃ r ∈ Coalesce.sweep (joinNear gap) () cur l, r.Contains x) ↔
      (∃ r ∈ cur :: l, r.Contains x) ∨
        Coalesce.InGap ByteRange.span (Near gap) (cur :: l) x := by
  constructor
  · rintro ⟨c, hc, hx⟩
    exact Coalesce.mem_or_gap (joins_joinNear gap) h hc hx
  · rintro (⟨r, hr, hx⟩ | hgap)
    · obtain ⟨c, hc, hwithin⟩ := Coalesce.exists_within (s := ()) (joins_joinNear gap) h hr
      exact ⟨c, hc, hwithin.mem hx⟩
    · exact contains_of_inGap hl h hgap

theorem exists_mem_kept_iff :
    (∃ r ∈ kept l, r.Contains x) ↔ ∃ r ∈ l, r.Contains x := by
  constructor
  · rintro ⟨r, hr, hx⟩
    exact ⟨r, (mem_kept.mp hr).1, hx⟩
  · rintro ⟨r, hr, hx⟩
    refine ⟨r, mem_kept.mpr ⟨hr, ?_⟩, hx⟩
    exact Bool.eq_false_iff.mpr fun hempty => not_contains_of_isEmpty hempty hx

theorem inGap_kept_iff : Coalesce.InGap ByteRange.span (Near gap) (kept l) x ↔
    Coalesce.InGap ByteRange.span (Near gap) (l.filter fun r => !r.isEmpty) x := by
  simp only [Coalesce.InGap, kept, mem_sortBy]

theorem coalesced_coalesceInto (gap : ℕ) (hl : ∀ r ∈ l, r.IsU64) :
    ∃ out, coalesceInto o l gap = some out ∧ (∀ r ∈ out, r.IsU64) ∧ Coalesced gap l out := by
  have horder := inOrder_kept hl
  have hkept := isU64_kept hl
  cases h : kept l with
  | nil =>
    refine ⟨[], coalesceInto_of_nil o h, fun r hr => absurd hr List.not_mem_nil,
      List.Pairwise.nil, List.Pairwise.nil, fun x => ?_⟩
    rw [← exists_mem_kept_iff (l := l), ← inGap_kept_iff, h]
    simp [Coalesce.InGap]
  | cons first rest =>
    rw [h] at horder hkept
    have hapart := pairwise_sweep gap hkept horder
    have hu64 := isU64_of_mem_sweep gap hkept
    refine ⟨_, coalesceInto_of_cons o hl h, hu64, ?_, hapart, fun x => ?_⟩
    · refine hapart.imp_of_mem fun {a b} ha _ hab => ?_
      have := (hu64 a ha).offset_le_stop
      omega
    · rw [coalesced_sweep hkept horder, ← h, exists_mem_kept_iff, inGap_kept_iff]

/-- The order of the ranges does not matter. -/
theorem coalesceInto_perm {l' : List ByteRange} (h : l.Perm l') :
    coalesceInto o l gap = coalesceInto o l' gap := by
  have hperm : (kept l).Perm (kept l') :=
    (sortBy_perm _ _).trans ((h.filter _).trans (sortBy_perm _ _).symm)
  have heq : kept l = kept l' :=
    hperm.eq_of_pairwise (fun a b _ _ hab hba => ByteRange.key_injective (le_antisymm hab hba))
      (sortBy_sorted _ _) (sortBy_sorted _ _)
  unfold kept at heq
  rw [coalesceInto, coalesceInto, heq]

/-! ### Coalescing twice -/

theorem isEmpty_eq_false_iff : r.isEmpty = false ↔ 0 < r.length := by
  rw [ByteRange.isEmpty, beq_eq_false_iff_ne, Nat.pos_iff_ne_zero]

theorem joinNear_of_apart (h : a.stop + gap < b.offset) (u : Unit) : joinNear gap u a b = none :=
  if_neg fun hle => absurd (hle.trans (min_le_left _ _)) (not_le.mpr h)

/-- A second pass joins nothing: it drops the empty ranges of the first. -/
theorem coalesceInto_of_coalesced (hout : ∀ r ∈ out, r.IsU64) (h : Coalesced gap l out) :
    coalesceInto o out gap = some (out.filter fun r => !r.isEmpty) := by
  have hsorted : kept out = out.filter fun r => !r.isEmpty := by
    refine sortBy_eq_self ((h.sorted.filter _).imp fun {a b} hab => ?_)
    exact le_of_lt (Prod.Lex.lt_iff.mpr (.inl hab))
  have hapart := h.apart.filter fun r => !r.isEmpty
  cases hk : kept out with
  | nil => rw [coalesceInto_of_nil o hk, ← hsorted, hk]
  | cons first rest =>
    rw [← hsorted, hk] at hapart
    rw [coalesceInto_of_cons o hout hk, ← hsorted, hk,
      Coalesce.sweep_eq_self (hapart.imp fun hab u => joinNear_of_apart hab u)]

/-- Two ranges start at the last address, and none before reaches it. -/
def Collapses (gap : ℕ) (l : List ByteRange) : Prop :=
  2 ≤ l.countP (fun r => !r.isEmpty && r.offset == u64Max) ∧
    ∀ r ∈ l, r.isEmpty = false → r.offset < u64Max → r.stop + gap < u64Max

/-- Everything that starts at the last address is one range, which is empty if it was joined. -/
theorem exists_isEmpty_of_last (hcur : cur.offset = u64Max) (hl : ∀ r ∈ l, r.offset = u64Max) :
    (∃ c ∈ Coalesce.sweep (joinNear gap) () cur l, c.isEmpty = true) ↔
      l ≠ [] ∨ cur.isEmpty = true := by
  induction l generalizing cur with
  | nil => simp [Coalesce.sweep]
  | cons r rest ih =>
    have hstop : ∀ t : ByteRange, t.offset = u64Max → t.stop = u64Max := fun t ht => by
      rw [ByteRange.stop, saturatingAdd, ht]
      exact min_eq_right (Nat.le_add_right _ _)
    have hr : r.offset = u64Max := hl r List.mem_cons_self
    have hnear : r.offset ≤ saturatingAdd cur.stop gap := by
      rw [hr, hstop cur hcur]
      exact le_min (Nat.le_add_right _ _) le_rfl
    have hjoin : joinNear gap () cur r = some ((), joined cur r) := if_pos hnear
    have hempty : (joined cur r).isEmpty = true := by
      rw [joined, hstop cur hcur, hstop r hr, hcur, max_self, Nat.sub_self]
      rfl
    rw [Coalesce.sweep_cons_some hjoin]
    have hjoined : (joined cur r).offset = u64Max := hcur
    refine (ih hjoined fun t ht => hl t (List.mem_cons_of_mem _ ht)).trans ?_
    simp [hempty]

/-- Before the last address a joined range is not empty. -/
theorem exists_isEmpty_iff (hl : ∀ r ∈ cur :: l, r.IsU64 ∧ r.isEmpty = false)
    (h : Coalesce.InOrder ByteRange.span (cur :: l)) (hcur : cur.offset < u64Max) :
    (∃ c ∈ Coalesce.sweep (joinNear gap) () cur l, c.isEmpty = true) ↔
      2 ≤ l.countP (fun r => r.offset == u64Max) ∧
        ∀ r ∈ cur :: l, r.offset < u64Max → r.stop + gap < u64Max := by
  have hempty : cur.isEmpty = false := (hl cur List.mem_cons_self).2
  induction l generalizing cur with
  | nil => simp [Coalesce.sweep, hempty]
  | cons r rest ih =>
    have hcur64 : cur.IsU64 := (hl cur List.mem_cons_self).1
    obtain ⟨hr64, hrempty⟩ := hl r (List.mem_cons_of_mem _ List.mem_cons_self)
    have hrest : ∀ t ∈ rest, t.IsU64 ∧ t.isEmpty = false := fun t ht =>
      hl t (List.mem_cons_of_mem _ (List.mem_cons_of_mem _ ht))
    have hlast : r.offset = u64Max → ∀ t ∈ rest, t.offset = u64Max := fun hr t ht =>
      le_antisymm (hrest t ht).1.offset (hr ▸ h.tail.le_of_mem ht)
    have hcount : (r :: rest).countP (fun r => r.offset == u64Max) =
        rest.countP (fun r => r.offset == u64Max) + if r.offset = u64Max then 1 else 0 := by
      rw [List.countP_cons]
      simp only [beq_iff_eq]
    by_cases hnear : r.offset ≤ saturatingAdd cur.stop gap
    · have hjoin : joinNear gap () cur r = some ((), joined cur r) := if_pos hnear
      have hproper : cur.offset ≤ max cur.stop r.stop :=
        hcur64.offset_le_stop.trans (le_max_left _ _)
      have hstop : (joined cur r).stop = max cur.stop r.stop :=
        congrArg Span.stop (span_joined hcur64.offset_le_stop)
      have hjempty : (joined cur r).isEmpty = false := by
        have hlt : cur.offset < cur.stop :=
          lt_min (Nat.lt_add_of_pos_right (isEmpty_eq_false_iff.mp hempty)) hcur
        exact isEmpty_eq_false_iff.mpr (Nat.sub_pos_of_lt (hlt.trans_le (le_max_left _ _)))
      have hjoined : ∀ t ∈ joined cur r :: rest, t.IsU64 ∧ t.isEmpty = false := fun t ht =>
        (List.mem_cons.mp ht).elim (fun he => he ▸ ⟨joined_isU64 hcur64, hjempty⟩) (hrest t)
      have hih := ih hjoined (h.joined (joins_joinNear gap) hjoin) hcur hjempty
      rw [Coalesce.sweep_cons_some hjoin, hcount]
      refine hih.trans ?_
      have hle : r.offset ≤ cur.stop + gap := hnear.trans (min_le_left _ _)
      simp only [List.forall_mem_cons, hstop]
      have hoffset : (joined cur r).offset = cur.offset := rfl
      rw [hoffset]
      by_cases hr : r.offset = u64Max
      · -- The current range reaches the last address.
        constructor
        · rintro ⟨-, hall, -⟩
          have := hall hcur
          omega
        · rintro ⟨-, hall, -⟩
          have := hall hcur
          omega
      · rw [if_neg hr, Nat.add_zero]
        have hrlt : r.offset < u64Max := lt_of_le_of_ne hr64.offset hr
        refine and_congr_right fun _ => ?_
        constructor
        · rintro ⟨hall, htail⟩
          have := hall hcur
          exact ⟨fun _ => by omega, fun _ => by omega, htail⟩
        · rintro ⟨hc, hr', htail⟩
          have := hc hcur
          have := hr' hrlt
          exact ⟨fun _ => by omega, htail⟩
    · have hjoin : joinNear gap () cur r = none := if_neg hnear
      have hfar : cur.stop + gap < r.offset :=
        lt_of_not_ge fun hge => hnear (le_min hge hr64.offset)
      rw [Coalesce.sweep_cons_none hjoin, hcount]
      simp only [List.exists_mem_cons_iff, hempty, Bool.false_eq_true, false_or,
        List.forall_mem_cons]
      by_cases hr : r.offset = u64Max
      · rw [exists_isEmpty_of_last hr (hlast hr), if_pos hr, hrempty]
        have hall : rest.countP (fun r => r.offset == u64Max) = rest.length :=
          List.countP_eq_length.mpr fun t ht => beq_iff_eq.mpr (hlast hr t ht)
        rw [hall]
        constructor
        · rintro (hne | hfalse)
          · refine ⟨Nat.succ_le_succ (List.length_pos_iff.mpr hne), fun _ => by omega,
              fun hlt => absurd hr hlt.ne, fun t ht hlt => absurd (hlast hr t ht) hlt.ne⟩
          · cases hfalse
        · rintro ⟨hlen, -⟩
          exact .inl (List.length_pos_iff.mp (by omega))
      · have hrlt : r.offset < u64Max := lt_of_le_of_ne hr64.offset hr
        have hih := ih (fun t ht => hl t (List.mem_cons_of_mem _ ht)) h.tail hrlt hrempty
        rw [if_neg hr, Nat.add_zero]
        refine hih.trans ?_
        simp only [List.forall_mem_cons]
        refine and_congr_right fun _ => ⟨fun hall => ⟨fun _ => by omega, hall⟩, fun hall => hall.2⟩

theorem countP_kept (p : ByteRange → Bool) :
    (kept l).countP p = l.countP fun r => !r.isEmpty && p r := by
  rw [kept, (sortBy_perm _ _).countP_eq, List.countP_filter]
  exact List.countP_congr fun r _ => by rw [Bool.and_comm]

theorem exists_isEmpty_coalesceInto (hl : ∀ r ∈ l, r.IsU64)
    (h : coalesceInto o l gap = some out) :
    (∃ c ∈ out, c.isEmpty = true) ↔ Collapses gap l := by
  have horder := inOrder_kept hl
  have hkept : ∀ r ∈ kept l, r.IsU64 ∧ r.isEmpty = false := fun r hr =>
    ⟨isU64_kept hl r hr, (mem_kept.mp hr).2⟩
  have hcollapses : Collapses gap l ↔ 2 ≤ (kept l).countP (fun r => r.offset == u64Max) ∧
      ∀ r ∈ kept l, r.offset < u64Max → r.stop + gap < u64Max := by
    rw [Collapses, countP_kept]
    refine and_congr_right fun _ => ⟨fun hall r hr => ?_, fun hall r hr hempty => ?_⟩
    · exact hall r (mem_kept.mp hr).1 (mem_kept.mp hr).2
    · exact hall r (mem_kept.mpr ⟨hr, hempty⟩)
  rw [hcollapses]
  cases hk : kept l with
  | nil =>
    rw [coalesceInto_of_nil o hk] at h
    cases h
    simp
  | cons cur rest =>
    rw [hk] at horder hkept
    rw [coalesceInto_of_cons o hl hk] at h
    cases h
    have hcur := hkept cur List.mem_cons_self
    rcases lt_or_eq_of_le hcur.1.offset with hlt | heq
    · rw [exists_isEmpty_iff hkept horder hlt, List.countP_cons_of_neg (by simpa using hlt.ne)]
    · have hall : ∀ t ∈ rest, t.offset = u64Max := fun t ht =>
        le_antisymm (hkept t (List.mem_cons_of_mem _ ht)).1.offset (heq ▸ horder.le_of_mem ht)
      have hcount : (cur :: rest).countP (fun r => r.offset == u64Max) = rest.length + 1 := by
        rw [List.countP_cons_of_pos (by simpa using heq)]
        exact congrArg Nat.succ (List.countP_eq_length.mpr fun t ht => beq_iff_eq.mpr (hall t ht))
      rw [exists_isEmpty_of_last heq hall, hcount, hcur.2]
      constructor
      · rintro (hne | hfalse)
        · refine ⟨Nat.succ_le_succ (List.length_pos_iff.mpr hne), fun t ht hlt => ?_⟩
          rcases List.mem_cons.mp ht with rfl | ht
          · exact absurd heq hlt.ne
          · exact absurd (hall t ht) hlt.ne
        · cases hfalse
      · rintro ⟨hlen, -⟩
        exact .inl (List.length_pos_iff.mp (by omega))

/-- Coalescing again changes nothing, but for ranges at the last address. -/
theorem coalesceInto_idempotent_iff (hl : ∀ r ∈ l, r.IsU64)
    (h : coalesceInto o l gap = some out) :
    coalesceInto o out gap = some out ↔ ¬Collapses gap l := by
  obtain ⟨out', hout, hu64, hcoalesced⟩ := coalesced_coalesceInto o gap hl
  obtain rfl : out' = out := Option.some_inj.mp (hout.symm.trans h)
  rw [coalesceInto_of_coalesced o hu64 hcoalesced, Option.some_inj, List.filter_eq_self,
    ← exists_isEmpty_coalesceInto o hl h]
  simp

end Io

end Zencodec
