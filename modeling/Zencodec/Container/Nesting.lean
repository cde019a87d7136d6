/-
The nesting scan and numerals.

`squash` writes every run of digits as one `0`.  The scan of `nestsDeeperThan` cannot
tell a text from its squashed text (`nestsDeeperThan_squash`), so it finds two texts
equally deep that differ in numerals only (`nestsDeeperThan_weave`).
-/
import Zencodec.Container.Markup
import Zencodec.Lib.Weave
import Zencodec.Xmp.Scan

namespace Zencodec.Container

open Xmp (Text after tagEnd skipped nestsFrom nestsDeeperThan after_cons_of_not length_tagEnd
  length_skipped)

/-- A digit starts the text. -/
def startsDigit (t : Text) : Bool := t.head?.any Char.isDigit

/-- The text with one `0` for every run of digits. -/
def squash : Text → Text
  | [] => []
  | c :: t =>
    if c.isDigit then if startsDigit t then squash t else '0' :: squash t else c :: squash t

/-- No digit is among the characters. -/
def Digitless (t : Text) : Prop := ∀ c ∈ t, c.isDigit = false

theorem digitless_of_all {t : Text} (h : (t.all fun c => !c.isDigit) = true) : Digitless t := by
  intro c hc
  simpa using List.all_eq_true.mp h c hc

theorem squash_cons_of_not {c : Char} (h : c.isDigit = false) (t : Text) :
    squash (c :: t) = c :: squash t := by
  rw [squash, h]
  rfl

theorem squash_digit_digit {c : Char} (h : c.isDigit = true) {t : Text}
    (ht : startsDigit t = true) : squash (c :: t) = squash t := by
  rw [squash, if_pos h, if_pos ht]

theorem squash_digit_other {c : Char} (h : c.isDigit = true) {t : Text}
    (ht : startsDigit t = false) : squash (c :: t) = '0' :: squash t := by
  rw [squash, if_pos h, ht]
  rfl

theorem isDigit_zero : '0'.isDigit = true := rfl

/-- Whether a digit stands first is not lost. -/
theorem startsDigit_squash (t : Text) : startsDigit (squash t) = startsDigit t := by
  induction t with
  | nil => rfl
  | cons c t ih =>
    by_cases hc : c.isDigit = true
    · have hleft : startsDigit (c :: t) = true := by simpa [startsDigit] using hc
      cases ht : startsDigit t with
      | true => rw [squash_digit_digit hc ht, ih, ht, hleft]
      | false =>
        rw [squash_digit_other hc ht, hleft]
        rfl
    · rw [Bool.not_eq_true] at hc
      rw [squash_cons_of_not hc]
      rfl

theorem exists_squash_digit {c : Char} (h : c.isDigit = true) (t : Text) :
    ∃ u, squash (c :: t) = '0' :: u := by
  induction t generalizing c with
  | nil => exact ⟨[], squash_digit_other h rfl⟩
  | cons d t ih =>
    cases hd : startsDigit (d :: t) with
    | true =>
      have hd' : d.isDigit = true := by simpa [startsDigit] using hd
      obtain ⟨u, hu⟩ := ih hd'
      exact ⟨u, by rw [squash_digit_digit h hd, hu]⟩
    | false => exact ⟨squash (d :: t), squash_digit_other h hd⟩

/-! ### Searching -/

theorem ne_of_isDigit {c d : Char} (hc : c.isDigit = true) (hd : d.isDigit = false) : d ≠ c := by
  rintro rfl
  rw [hc] at hd
  cases hd

theorem prefix_squash {needle : Text} (hn : Digitless needle) (t : Text) :
    needle <+: squash t ↔ needle <+: t := by
  induction needle generalizing t with
  | nil => simp
  | cons n needle ih =>
    obtain ⟨hdigit, hn⟩ := List.forall_mem_cons.mp hn
    cases t with
    | nil => rfl
    | cons c t =>
      by_cases hc : c.isDigit = true
      · obtain ⟨u, hu⟩ := exists_squash_digit hc t
        rw [hu, List.cons_prefix_cons, List.cons_prefix_cons]
        simp [ne_of_isDigit hc hdigit, ne_of_isDigit isDigit_zero hdigit]
      · rw [Bool.not_eq_true] at hc
        rw [squash_cons_of_not hc, List.cons_prefix_cons, List.cons_prefix_cons, ih hn]

theorem drop_squash {needle : Text} (hn : Digitless needle) {t : Text} (h : needle <+: t) :
    (squash t).drop needle.length = squash (t.drop needle.length) := by
  induction needle generalizing t with
  | nil => rfl
  | cons n needle ih =>
    obtain ⟨hdigit, hn⟩ := List.forall_mem_cons.mp hn
    cases t with
    | nil => rfl
    | cons c t =>
      obtain ⟨rfl, hrest⟩ := List.cons_prefix_cons.mp h
      rw [squash_cons_of_not hdigit, List.length_cons, List.drop_succ_cons, List.drop_succ_cons,
        ih hn hrest]

theorem not_prefix_digit {n c : Char} {needle t : Text} (hn : n.isDigit = false)
    (hc : c.isDigit = true) : ¬n :: needle <+: c :: t := fun h =>
  ne_of_isDigit hc hn (List.cons_prefix_cons.mp h).1

theorem after_squash {n : Char} {needle : Text} (hn : Digitless (n :: needle)) (t : Text) :
    after (n :: needle) (squash t) = (after (n :: needle) t).map squash := by
  have hdigit := hn n List.mem_cons_self
  induction t with
  | nil => rfl
  | cons c t ih =>
    by_cases hc : c.isDigit = true
    · rw [after_cons_of_not (not_prefix_digit hdigit hc)]
      cases ht : startsDigit t with
      | true => rw [squash_digit_digit hc ht, ih]
      | false =>
        rw [squash_digit_other hc ht, after_cons_of_not (not_prefix_digit hdigit isDigit_zero), ih]
    · rw [Bool.not_eq_true] at hc
      have hstarts := prefix_squash hn (c :: t)
      rw [squash_cons_of_not hc] at hstarts ⊢
      rw [after, after]
      by_cases h : n :: needle <+: c :: t
      · rw [if_pos (hstarts.mpr h), if_pos h, Option.map_some, ← squash_cons_of_not hc,
          drop_squash hn h]
      · rw [if_neg fun h' => h (hstarts.mp h'), if_neg h, ih]

/-! ### Tags -/

theorem tagEnd_last {q : Option Char} {l l' : Char} (h : l = '/' ↔ l' = '/') (t : Text) :
    tagEnd q l t = tagEnd q l' t := by
  cases t with
  | nil => cases q <;> rfl
  | cons c t =>
    cases q with
    | some q => rfl
    | none =>
      rw [tagEnd, tagEnd]
      simp only [h]

theorem tagEnd_digit {q : Option Char} (hq : ∀ x, q = some x → x.isDigit = false) {c : Char}
    (hc : c.isDigit = true) (l : Char) (t : Text) : tagEnd q l (c :: t) = tagEnd q c t := by
  cases q with
  | some x =>
    have hne : c ≠ x := (ne_of_isDigit hc (hq x rfl)).symm
    rw [tagEnd, if_neg hne]
  | none =>
    have hquote : ¬(c = '"' ∨ c = '\'') := by
      rintro (rfl | rfl)
      · cases hc
      · cases hc
    have hclose : c ≠ '>' := by
      rintro rfl
      cases hc
    rw [tagEnd, if_neg hquote, if_neg hclose]

theorem tagEnd_squash {q : Option Char} (hq : ∀ x, q = some x → x.isDigit = false) (l : Char)
    (t : Text) : tagEnd q l (squash t) = (tagEnd q l t).map fun p => (p.1, squash p.2) := by
  induction t generalizing q l with
  | nil => cases q <;> rfl
  | cons c t ih =>
    by_cases hc : c.isDigit = true
    · have hslash : ∀ d : Char, d.isDigit = true → (d = '/' ↔ c = '/') := by
        intro d hd
        constructor
        · rintro rfl
          cases hd
        · rintro rfl
          cases hc
      rw [tagEnd_digit hq hc]
      cases ht : startsDigit t with
      | true =>
        -- the next digit is the last character as well
        obtain ⟨d, t, rfl⟩ : ∃ d u, t = d :: u := by
          cases t with
          | nil => cases ht
          | cons d u => exact ⟨d, u, rfl⟩
        have hd : d.isDigit = true := by simpa [startsDigit] using ht
        rw [squash_digit_digit hc ht, ih hq, tagEnd_digit hq hd, tagEnd_digit hq hd]
      | false =>
        rw [squash_digit_other hc ht, tagEnd_digit hq isDigit_zero, ih hq,
          tagEnd_last (hslash '0' isDigit_zero)]
    · rw [Bool.not_eq_true] at hc
      rw [squash_cons_of_not hc]
      cases q with
      | some x =>
        rw [tagEnd, tagEnd, ih]
        split
        · exact fun y hy => by cases hy
        · exact hq
      | none =>
        rw [tagEnd, tagEnd]
        split
        · next hquote => exact ih (fun y hy => Option.some.inj hy ▸ hc) c
        split
        · rfl
        · exact ih hq c

/-! ### The scan -/

theorem skipped_squash (t : Text) :
    skipped (squash t) = (skipped t).map fun r => r.map squash := by
  have hcomment : Digitless ['<', '!', '-', '-'] := digitless_of_all rfl
  have hdata : Digitless ['<', '!', '[', 'C', 'D', 'A', 'T', 'A', '['] := digitless_of_all rfl
  have hpi : Digitless ['<', '?'] := digitless_of_all rfl
  have hdeclaration : Digitless ['<', '!'] := digitless_of_all rfl
  have h₁ := prefix_squash hcomment t
  have h₂ := prefix_squash hdata t
  have h₃ := prefix_squash hpi t
  have h₄ := prefix_squash hdeclaration t
  simp only [skipped, h₁, h₂, h₃, h₄]
  split
  · rw [after_squash (digitless_of_all rfl)]
    rfl
  split
  · rw [after_squash (digitless_of_all rfl)]
    rfl
  split
  · rw [after_squash (digitless_of_all rfl)]
    rfl
  split
  · rw [after_squash (digitless_of_all rfl)]
    rfl
  · rfl

/-- The first markup of a text is that of the squashed text. -/
theorem dropWhile_squash (t : Text) :
    (squash t).dropWhile (· ≠ '<') = squash (t.dropWhile (· ≠ '<')) := by
  induction t with
  | nil => rfl
  | cons c t ih =>
    by_cases hc : c.isDigit = true
    · have hne : ∀ d : Char, d.isDigit = true → ∀ u : Text,
          (d :: u).dropWhile (· ≠ '<') = u.dropWhile (· ≠ '<') := by
        intro d hd u
        have hd : d ≠ '<' := by
          rintro rfl
          cases hd
        rw [List.dropWhile_cons, if_pos (by simpa using hd)]
      rw [hne c hc]
      cases ht : startsDigit t with
      | true => rw [squash_digit_digit hc ht, ih]
      | false => rw [squash_digit_other hc ht, hne _ isDigit_zero, ih]
    · rw [Bool.not_eq_true] at hc
      rw [squash_cons_of_not hc, List.dropWhile_cons, List.dropWhile_cons, ih]
      split
      · rfl
      · exact (squash_cons_of_not hc t).symm

theorem head?_squash {c : Char} (hc : c.isDigit = false) (t : Text) :
    (squash t).head? = some c ↔ t.head? = some c := by
  have h := prefix_squash (show Digitless [c] by simpa [Digitless] using hc) t
  have hhead : ∀ u : Text, [c] <+: u ↔ u.head? = some c := by
    intro u
    cases u with
    | nil => simp
    | cons d u => simp [List.cons_prefix_cons, eq_comm]
  rw [hhead, hhead] at h
  exact h

/-- Enough fuel for either text gives one result. -/
theorem nestsFrom_squash (limit : ℕ) {fuel fuel' : ℕ} (depth : ℕ) {t : Text}
    (hf : t.length < fuel) (hf' : (squash t).length < fuel') :
    nestsFrom limit fuel' depth (squash t) = nestsFrom limit fuel depth t := by
  induction fuel generalizing fuel' depth t with
  | zero => exact absurd hf (Nat.not_lt_zero _)
  | succ fuel ih =>
    obtain ⟨fuel', rfl⟩ : ∃ k, fuel' = k + 1 := ⟨fuel' - 1, by omega⟩
    have hdrop := dropWhile_squash t
    have hlen : (t.dropWhile (· ≠ '<')).length ≤ t.length := (List.dropWhile_sublist _).length_le
    have hlen' : ((squash t).dropWhile (· ≠ '<')).length ≤ (squash t).length :=
      (List.dropWhile_sublist _).length_le
    rw [nestsFrom, nestsFrom]
    cases hrest : t.dropWhile (· ≠ '<') with
    | nil =>
      rw [hrest] at hdrop
      rw [hdrop]
      rfl
    | cons c body =>
      have hc : c = '<' := by
        have hhead := List.head?_dropWhile_not (· ≠ '<') t
        rw [hrest] at hhead
        simpa using hhead
      subst hc
      have hangle : '<'.isDigit = false := rfl
      rw [hrest] at hdrop hlen
      rw [hdrop] at hlen' ⊢
      have hskip := skipped_squash ('<' :: body)
      rw [squash_cons_of_not hangle] at hskip hlen' ⊢
      simp only [hskip]
      cases hs : skipped ('<' :: body) with
      | some r =>
        cases r with
        | none => rfl
        | some r =>
          rw [hs] at hskip
          have h₁ := length_skipped hs
          have h₂ := length_skipped hskip
          exact ih depth (by omega) (by omega)
      | none =>
        have htag := tagEnd_squash (q := none) (fun x hx => by cases hx) '<' body
        simp only [Option.map_none, htag]
        cases ht : tagEnd none '<' body with
        | none => rfl
        | some p =>
          obtain ⟨closed, r⟩ := p
          rw [ht] at htag
          have h₁ := length_tagEnd ht
          have h₂ : (squash r).length < (squash body).length := length_tagEnd htag
          rw [List.length_cons] at hlen hlen'
          have hslash := head?_squash (c := '/') rfl body
          have hnext : ∀ k, nestsFrom limit fuel' k (squash r) = nestsFrom limit fuel k r :=
            fun k => ih k (by omega) (by omega)
          simp only [Option.map_some, hslash, hnext]

theorem nestsDeeperThan_squash (t : Text) (limit : ℕ) :
    nestsDeeperThan (squash t) limit = nestsDeeperThan t limit :=
  nestsFrom_squash limit 0 (Nat.lt_succ_self _) (Nat.lt_succ_self _)

/-! ### Numerals for numerals -/

theorem startsDigit_congr {u u' : Text} (h : squash u = squash u') :
    startsDigit u = startsDigit u' := by
  rw [← startsDigit_squash, h, startsDigit_squash]

theorem squash_append_congr (g : Text) {u u' : Text} (h : squash u = squash u') :
    squash (g ++ u) = squash (g ++ u') := by
  induction g with
  | nil => exact h
  | cons c g ih =>
    rw [List.cons_append, List.cons_append, squash, squash, ih, startsDigit_congr ih]

theorem squash_numeral {a : Text} (ha : Numeral a) (u : Text) :
    squash (a ++ u) = if startsDigit u then squash u else '0' :: squash u := by
  obtain ⟨hne, hdigits⟩ := ha
  induction a with
  | nil => exact absurd rfl hne
  | cons c a ih =>
    obtain ⟨hc, hdigits⟩ := List.forall_mem_cons.mp hdigits
    cases a with
    | nil => rw [List.singleton_append, squash, if_pos hc]
    | cons d a =>
      have hd : startsDigit (d :: a ++ u) = true := by
        simpa [startsDigit] using hdigits d List.mem_cons_self
      rw [List.cons_append, squash_digit_digit hc hd, ih (List.cons_ne_nil _ _) hdigits]

/-- Texts woven of the same gaps and of numerals differ in their numerals only. -/
theorem squash_weave {gs vs ws : List Text}
    (h : List.Forall₂ (fun v w => Numeral v ∧ Numeral w) vs ws) :
    squash (Weave.weave gs vs) = squash (Weave.weave gs ws) := by
  induction h generalizing gs with
  | nil => rfl
  | @cons v w vs ws hvw _ ih =>
    cases gs with
    | nil => rfl
    | cons g gs =>
      have hrest := @ih gs
      rw [Weave.weave, Weave.weave, List.append_assoc, List.append_assoc]
      refine squash_append_congr g ?_
      rw [squash_numeral hvw.1, squash_numeral hvw.2, hrest, startsDigit_congr hrest]

/-- The scan does not see which numerals stand in the gaps. -/
theorem nestsDeeperThan_weave {gs vs ws : List Text}
    (h : List.Forall₂ (fun v w => Numeral v ∧ Numeral w) vs ws) (limit : ℕ) :
    nestsDeeperThan (Weave.weave gs vs) limit = nestsDeeperThan (Weave.weave gs ws) limit := by
  rw [← nestsDeeperThan_squash, squash_weave h, nestsDeeperThan_squash]

end Zencodec.Container
