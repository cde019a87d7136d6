/-
The nesting scan, step by step.

`nests` is the scan with as much fuel as the text asks for; more fuel changes nothing.
Each step is an equation of its own: the text before a markup, a markup that is skipped,
a tag.
-/
import Zencodec.Xmp.Packet

namespace Zencodec

namespace Xmp

/-! ### The rest of a text -/

theorem after_cons_of_not {needle : Text} {c : Char} {t : Text} (h : ¬needle <+: c :: t) :
    after needle (c :: t) = after needle t := by
  rw [after, if_neg h]

theorem after_of_starts {needle : Text} (hn : needle ≠ []) (t : Text) :
    after needle (needle ++ t) = some t := by
  obtain ⟨c, needle, rfl⟩ := List.exists_cons_of_ne_nil hn
  have hstarts : c :: needle <+: c :: (needle ++ t) := List.prefix_append (c :: needle) t
  rw [List.cons_append, after, if_pos hstarts, ← List.cons_append, List.drop_left]

theorem length_after {needle t r : Text} (hn : needle ≠ []) (h : after needle t = some r) :
    r.length < t.length := by
  induction t with
  | nil =>
    rw [after, if_neg hn] at h
    cases h
  | cons c t ih =>
    rw [after] at h
    split at h
    · rw [← Option.some.inj h, List.length_drop]
      have := List.length_pos_iff.mpr hn
      simp only [List.length_cons]
      omega
    · exact (ih h).trans (Nat.lt_succ_self _)

theorem length_skipped {t r : Text} (h : skipped t = some (some r)) : r.length < t.length := by
  rw [skipped] at h
  split at h
  · exact length_after (List.cons_ne_nil _ _) (Option.some.inj h)
  split at h
  · exact length_after (List.cons_ne_nil _ _) (Option.some.inj h)
  split at h
  · exact length_after (List.cons_ne_nil _ _) (Option.some.inj h)
  split at h
  · exact length_after (List.cons_ne_nil _ _) (Option.some.inj h)
  · cases h

theorem length_tagEnd {q : Option Char} {l : Char} {t r : Text} {b : Bool}
    (h : tagEnd q l t = some (b, r)) : r.length < t.length := by
  induction t generalizing q l with
  | nil => cases q <;> cases h
  | cons c t ih =>
    cases q with
    | some x => exact (ih h).trans (Nat.lt_succ_self _)
    | none =>
      rw [tagEnd] at h
      split at h
      · exact (ih h).trans (Nat.lt_succ_self _)
      split at h
      · obtain ⟨-, rfl⟩ := Prod.mk.inj (Option.some.inj h)
        exact Nat.lt_succ_self _
      · exact (ih h).trans (Nat.lt_succ_self _)

/-! ### Fuel -/

/-- Any fuel that exceeds the text gives one result. -/
theorem nestsFrom_fuel (limit : ℕ) {fuel fuel' : ℕ} (depth : ℕ) {t : Text}
    (hf : t.length < fuel) (hf' : t.length < fuel') :
    nestsFrom limit fuel depth t = nestsFrom limit fuel' depth t := by
  induction fuel generalizing fuel' depth t with
  | zero => exact absurd hf (Nat.not_lt_zero _)
  | succ fuel ih =>
    obtain ⟨fuel', rfl⟩ : ∃ k, fuel' = k + 1 := ⟨fuel' - 1, by omega⟩
    have hlen : (t.dropWhile (· ≠ '<')).length ≤ t.length := (List.dropWhile_sublist _).length_le
    rw [nestsFrom, nestsFrom]
    cases hrest : t.dropWhile (· ≠ '<') with
    | nil => rfl
    | cons c body =>
      rw [hrest, List.length_cons] at hlen
      dsimp only
      cases hskip : skipped (c :: body) with
      | some next =>
        cases next with
        | none => rfl
        | some t' =>
          have := length_skipped hskip
          rw [List.length_cons] at this
          exact ih _ (by omega) (by omega)
      | none =>
        dsimp only
        cases htag : tagEnd none '<' body with
        | none => rfl
        | some p =>
          obtain ⟨closed, t'⟩ := p
          have := length_tagEnd htag
          have hnext := fun depth => @ih fuel' depth t' (by omega) (by omega)
          dsimp only
          rw [hnext, hnext, hnext]

/-- The scan of a text at a depth. -/
def nests (limit depth : ℕ) (t : Text) : Bool := nestsFrom limit (t.length + 1) depth t

theorem nestsDeeperThan_eq (xml : Text) (limit : ℕ) :
    nestsDeeperThan xml limit = nests limit 0 xml := rfl

/-! ### Steps -/

/-- Text before the first markup is passed over. -/
theorem nests_text (limit depth : ℕ) {u : Text} (hu : '<' ∉ u) (v : Text) :
    nests limit depth (u ++ v) = nests limit depth v := by
  have hdrop : (u ++ v).dropWhile (· ≠ '<') = v.dropWhile (· ≠ '<') := by
    rw [List.dropWhile_append_of_pos]
    intro c hc
    simpa using fun h : c = '<' => hu (h ▸ hc)
  have hfuel : nests limit depth v = nestsFrom limit ((u ++ v).length + 1) depth v :=
    nestsFrom_fuel limit depth (by omega) (by rw [List.length_append]; omega)
  rw [hfuel, nests, nestsFrom, nestsFrom, hdrop]

/-- Markup that is no tag is passed over. -/
theorem nests_skipped (limit depth : ℕ) {body t : Text}
    (h : skipped ('<' :: body) = some (some t)) :
    nests limit depth ('<' :: body) = nests limit depth t := by
  have hlen := length_skipped h
  rw [List.length_cons] at hlen
  rw [nests, nestsFrom, List.dropWhile_cons, if_neg (by simp)]
  dsimp only
  rw [h]
  exact nestsFrom_fuel limit depth (by rw [List.length_cons]; omega) (by omega)

/-- A tag changes the depth. -/
theorem nests_tag (limit depth : ℕ) {body t : Text} {closed : Bool}
    (hskip : skipped ('<' :: body) = none) (htag : tagEnd none '<' body = some (closed, t)) :
    nests limit depth ('<' :: body) =
      if body.head? = some '/' then nests limit (depth - 1) t
      else if closed then nests limit depth t
      else if depth + 1 > limit then true
      else nests limit (depth + 1) t := by
  have hlen := length_tagEnd htag
  have hfuel : ∀ depth, nestsFrom limit ('<' :: body).length depth t = nests limit depth t :=
    fun depth => nestsFrom_fuel limit depth (by rw [List.length_cons]; omega) (by omega)
  rw [nests, nestsFrom, List.dropWhile_cons, if_neg (by simp)]
  dsimp only
  rw [hskip]
  dsimp only
  rw [htag]
  simp only [hfuel]

end Xmp

end Zencodec
