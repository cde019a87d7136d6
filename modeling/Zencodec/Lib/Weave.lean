/-
Replacing parts of a list.

A script lists the parts of a text in order, each kept or replaced; `edits` are the
replacements with their places in the old text.  `gaps` is what lies between given
places, and `weave` puts texts between the gaps again.

* `weave_gaps_edits` — the gaps of the old text, woven with the replacements, are the
  new text;
* `edits_pairwise` — the replacements of a script stand in order;
* `sortBy_edits` — sorted by their starts they are again in that order, whatever the
  order they are given in.
-/
import Zencodec.Lib.StableSort

open StableSort

namespace Weave

variable {α : Type*}

/-- A part of a text: kept as it is, or replaced. -/
inductive Piece (α : Type*)
  | keep (xs : List α)
  | put (old new : List α)

namespace Piece

def old : Piece α → List α
  | keep xs => xs
  | put old _ => old

def new : Piece α → List α
  | keep xs => xs
  | put _ new => new

/-- Nothing is put where nothing was. -/
def Proper : Piece α → Prop
  | keep _ => True
  | put old _ => old ≠ []

end Piece

/-- The text before the edit. -/
def before (ps : List (Piece α)) : List α := ps.flatMap Piece.old

/-- The text after the edit. -/
def after (ps : List (Piece α)) : List α := ps.flatMap Piece.new

@[simp] theorem before_nil : before ([] : List (Piece α)) = [] := rfl

@[simp] theorem after_nil : after ([] : List (Piece α)) = [] := rfl

@[simp] theorem before_cons (p : Piece α) (ps : List (Piece α)) :
    before (p :: ps) = p.old ++ before ps := List.flatMap_cons

@[simp] theorem after_cons (p : Piece α) (ps : List (Piece α)) :
    after (p :: ps) = p.new ++ after ps := List.flatMap_cons

@[simp] theorem before_append (ps qs : List (Piece α)) :
    before (ps ++ qs) = before ps ++ before qs := List.flatMap_append

@[simp] theorem after_append (ps qs : List (Piece α)) :
    after (ps ++ qs) = after ps ++ after qs := List.flatMap_append

/-- A replacement and its place. -/
structure Edit (α : Type*) where
  start : ℕ
  stop : ℕ
  text : List α

/-- The place of a replacement. -/
def Edit.range (e : Edit α) : ℕ × ℕ := (e.start, e.stop)

/-- The replacements of a script that starts at `s`. -/
def edits (s : ℕ) : List (Piece α) → List (Edit α)
  | [] => []
  | .keep xs :: ps => edits (s + xs.length) ps
  | .put old new :: ps => ⟨s, s + old.length, new⟩ :: edits (s + old.length) ps

@[simp] theorem edits_nil (s : ℕ) : edits s ([] : List (Piece α)) = [] := rfl

@[simp] theorem edits_keep (s : ℕ) (xs : List α) (ps : List (Piece α)) :
    edits s (.keep xs :: ps) = edits (s + xs.length) ps := rfl

@[simp] theorem edits_put (s : ℕ) (old new : List α) (ps : List (Piece α)) :
    edits s (.put old new :: ps) =
      ⟨s, s + old.length, new⟩ :: edits (s + old.length) ps := rfl

theorem edits_append (ps qs : List (Piece α)) (s : ℕ) :
    edits s (ps ++ qs) = edits s ps ++ edits (s + (before ps).length) qs := by
  induction ps generalizing s with
  | nil => simp
  | cons p ps ih =>
    cases p with
    | keep xs => simp [ih, Piece.old, Nat.add_assoc]
    | put old new => simp [ih, Piece.old, Nat.add_assoc]

/-! ### Order -/

/-- Where the replacements of a script lie. -/
theorem edits_within {ps : List (Piece α)} {s : ℕ} {e : Edit α} (he : e ∈ edits s ps) :
    s ≤ e.start ∧ e.start ≤ e.stop ∧ e.stop ≤ s + (before ps).length := by
  induction ps generalizing s with
  | nil => exact absurd he (List.not_mem_nil)
  | cons p ps ih =>
    cases p with
    | keep xs =>
      have h := ih he
      simp only [before_cons, Piece.old, List.length_append]
      omega
    | put old new =>
      simp only [before_cons, Piece.old, List.length_append]
      rcases List.mem_cons.mp he with rfl | he
      · simp
      · have h := ih he
        omega

theorem edits_pairwise (ps : List (Piece α)) (s : ℕ) :
    (edits s ps).Pairwise fun a b => a.stop ≤ b.start := by
  induction ps generalizing s with
  | nil => exact List.Pairwise.nil
  | cons p ps ih =>
    cases p with
    | keep xs => exact ih _
    | put old new => exact List.pairwise_cons.mpr ⟨fun e he => (edits_within he).1, ih _⟩

/-- The replacements of a proper script take some place each. -/
theorem start_lt_stop {ps : List (Piece α)} (hps : ∀ p ∈ ps, p.Proper) {s : ℕ} {e : Edit α}
    (he : e ∈ edits s ps) : e.start < e.stop := by
  induction ps generalizing s with
  | nil => exact absurd he (List.not_mem_nil)
  | cons p ps ih =>
    have hps' := fun q hq => hps q (List.mem_cons_of_mem _ hq)
    cases p with
    | keep xs => exact ih hps' he
    | put old new =>
      rcases List.mem_cons.mp he with rfl | he
      · have hold : old ≠ [] := hps _ List.mem_cons_self
        have := List.length_pos_iff.mpr hold
        show s < s + old.length
        omega
      · exact ih hps' he

theorem sortBy_edits {ps : List (Piece α)} (hps : ∀ p ∈ ps, p.Proper) {s : ℕ}
    {l : List (Edit α)} (hl : l.Perm (edits s ps)) : sortBy Edit.start l = edits s ps := by
  have hsorted : (edits s ps).Pairwise fun a b => a.start < b.start :=
    (edits_pairwise ps s).imp_of_mem fun ha _ hab => (start_lt_stop hps ha).trans_le hab
  have hperm : (sortBy Edit.start l).Perm (edits s ps) := (sortBy_perm _ l).trans hl
  -- two replacements with one start are one replacement
  have hnodup : ((edits s ps).map Edit.start).Nodup :=
    List.pairwise_map.mpr (hsorted.imp fun h => h.ne)
  refine hperm.eq_of_pairwise ?_ (sortBy_sorted _ _) (hsorted.imp fun h => h.le)
  intro a b ha hb hab hba
  exact List.inj_on_of_nodup_map hnodup (hperm.mem_iff.mp ha) hb (le_antisymm hab hba)

/-! ### Gaps -/

/-- What lies between places of a text, from position `last` on. -/
def gaps (xs : List α) (last : ℕ) : List (ℕ × ℕ) → List (List α)
  | [] => [xs.drop last]
  | (start, stop) :: l => (xs.take start).drop last :: gaps xs stop l

/-- What stands at places of a text. -/
def held (xs : List α) (l : List (ℕ × ℕ)) : List (List α) :=
  l.map fun r => (xs.take r.2).drop r.1

/-- Texts between gaps. -/
def weave : List (List α) → List (List α) → List α
  | g :: gs, v :: vs => g ++ v ++ weave gs vs
  | gs, [] => gs.flatten
  | [], _ :: _ => []

theorem take_drop_append (pre mid rest : List α) :
    ((pre ++ (mid ++ rest)).take (pre.length + mid.length)).drop pre.length = mid := by
  rw [← List.append_assoc, List.take_left' (by simp), List.drop_left]

/-- `pre` is done with, `mid` is kept and not written yet. -/
theorem weave_gaps_edits_of (ps : List (Piece α)) (pre mid : List α) :
    weave (gaps (pre ++ (mid ++ before ps)) pre.length
        ((edits (pre.length + mid.length) ps).map Edit.range))
      ((edits (pre.length + mid.length) ps).map Edit.text) = mid ++ after ps := by
  induction ps generalizing pre mid with
  | nil => simp [gaps, weave]
  | cons p ps ih =>
    cases p with
    | keep xs =>
      have h := ih pre (mid ++ xs)
      simp only [List.length_append, List.append_assoc, ← Nat.add_assoc] at h
      simpa [Piece.old, Piece.new] using h
    | put old new =>
      have h := ih (pre ++ mid ++ old) []
      simp only [List.length_append, List.append_assoc, List.length_nil, Nat.add_zero,
        List.nil_append] at h
      simp only [edits_put, List.map_cons, Edit.range, gaps, weave, before_cons, Piece.old,
        after_cons, Piece.new, take_drop_append]
      rw [Nat.add_assoc, h, List.append_assoc]

theorem weave_gaps_edits (ps : List (Piece α)) :
    weave (gaps (before ps) 0 ((edits 0 ps).map Edit.range)) ((edits 0 ps).map Edit.text) =
      after ps := by
  simpa using weave_gaps_edits_of ps [] []

theorem take_drop_append_drop (xs : List α) {a b : ℕ} (h : a ≤ b) :
    (xs.take b).drop a ++ xs.drop b = xs.drop a := by
  have hdrop : xs.drop b = (xs.drop a).drop (b - a) := by
    rw [List.drop_drop, Nat.add_sub_cancel' h]
  rw [List.drop_take, hdrop, List.take_append_drop]

/-- Replaced by themselves, the places leave the text as it is. -/
theorem weave_gaps_held {xs : List α} {l : List (ℕ × ℕ)} {last : ℕ}
    (hl : l.Pairwise fun a b => a.2 ≤ b.1) (hle : ∀ r ∈ l, last ≤ r.1 ∧ r.1 ≤ r.2) :
    weave (gaps xs last l) (held xs l) = xs.drop last := by
  induction l generalizing last with
  | nil => simp [gaps, held, weave]
  | cons r l ih =>
    obtain ⟨hr, hl⟩ := List.pairwise_cons.mp hl
    have hfirst := hle r List.mem_cons_self
    have hrest := ih hl fun q hq => ⟨hr q hq, (hle q (List.mem_cons_of_mem _ hq)).2⟩
    simp only [held, List.map_cons, gaps, weave] at hrest ⊢
    rw [hrest, List.append_assoc, take_drop_append_drop xs hfirst.2,
      take_drop_append_drop xs hfirst.1]

end Weave
