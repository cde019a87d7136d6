/-
What the strips lent so far have to do with the filler.

`Ledger desc input f strips` holds of a filler and of the strips that it has filled: they are
the rows of the passes so far, each once and in order, and what the filler keeps agrees with
every one of them.  `Ledger.filled` carries it over a fill.
-/
import Zencodec.RowEncode.Operate
import Zencodec.RowEncode.Strip

namespace Zencodec.RowEncode

variable {ω κ φ : Type}

/-! ### Places -/

/-- The rows of a strip, as passes and places. -/
def Strip.places (s : Strip) : List (ℕ × ℕ) :=
  (List.range s.rows.length).map fun i => (s.pass, s.first + i)

/-- The first rows of a pass. -/
def rowsOfPass (pass count : ℕ) : List (ℕ × ℕ) := (List.range count).map fun y => (pass, y)

/-- All the rows of the first passes. -/
def wholePasses (height count : ℕ) : List (ℕ × ℕ) :=
  (List.range count).flatMap fun pass => rowsOfPass pass height

theorem wholePasses_succ (height count : ℕ) :
    wholePasses height (count + 1) = wholePasses height count ++ rowsOfPass count height := by
  simp [wholePasses, List.range_succ]

theorem length_wholePasses (height count : ℕ) :
    (wholePasses height count).length = count * height := by
  induction count with
  | zero => rw [Nat.zero_mul]; rfl
  | succ count ih =>
    rw [wholePasses_succ, List.length_append, ih, rowsOfPass, List.length_map, List.length_range,
      Nat.succ_mul]

/-- Rows that follow the first rows of a pass. -/
theorem rowsOfPass_append (pass first : ℕ) (rows : List Row) (finalPass : Bool) :
    rowsOfPass pass first ++ (Strip.mk pass first finalPass rows).places =
      rowsOfPass pass (first + rows.length) := by
  simp [rowsOfPass, Strip.places, List.range_add]

theorem mem_rowsOfPass {pass count : ℕ} {x : ℕ × ℕ} :
    x ∈ rowsOfPass pass count ↔ x.1 = pass ∧ x.2 < count := by
  obtain ⟨p, y⟩ := x
  simp only [rowsOfPass, List.mem_map, List.mem_range, Prod.mk.injEq]
  constructor
  · rintro ⟨y, hy, rfl, rfl⟩
    exact ⟨rfl, hy⟩
  · rintro ⟨rfl, hy⟩
    exact ⟨y, hy, rfl, rfl⟩

theorem mem_wholePasses {height count : ℕ} {x : ℕ × ℕ} :
    x ∈ wholePasses height count ↔ x.1 < count ∧ x.2 < height := by
  simp only [wholePasses, List.mem_flatMap, List.mem_range, mem_rowsOfPass]
  constructor
  · rintro ⟨p, hp, rfl, hy⟩
    exact ⟨hp, hy⟩
  · exact fun h => ⟨x.1, h.1, rfl, h.2⟩

/-! ### The ledger -/

structure Ledger (desc : Description φ κ) (input : Input) (f : Filler κ) (strips : List Strip) :
    Prop where
  sized : f.Sized desc.height
  fresh : f.pass = none → strips = [] ∧ f.finalStarted = false ∧ f.nextRow = 0
  order : ∀ pass, f.pass = some pass →
    strips.flatMap Strip.places = wholePasses desc.height pass ++ rowsOfPass pass f.nextRow
  passes : ∀ s ∈ strips, ∃ pass, f.pass = some pass ∧ s.pass ≤ pass
  nonempty : ∀ s ∈ strips, 0 < s.rows.length
  nextRow : f.nextRow ≤ desc.height
  max : ∀ pass, f.pass = some pass → f.declared.max.all (pass + 1 ≤ ·) = true ∧ pass + 1 ≤ u32Max
  min : ∀ pass, f.pass = some pass → f.finalStarted = true → f.declared.min ≤ pass + 1
  final : ∀ s ∈ strips, s.finalPass = true → f.finalStarted = true ∧ f.pass = some s.pass
  last : ∀ s ∈ strips, f.pass = some s.pass → s.finalPass = f.finalStarted
  shown : f.finalStarted = true → ∃ s ∈ strips, s.finalPass = true
  agrees : ∀ s ∈ strips, ∀ i < s.rows.length, f.Agrees (s.first + i) (s.rows.getD i [])
  raster : ∀ pixels, input = .raster pixels → f.store.isNone = true →
    ∀ s ∈ strips, ∀ i < s.rows.length, s.rows.getD i [] = pixels.getD (s.first + i) []

section Fill

variable {desc : Description φ κ} {input : Input} {d : Demand φ} {s t : Desk ω κ}
  {strips : List Strip}

theorem Begins.pass_eq {f : Filler κ} {pass : ℕ} {finalPass : Bool}
    (h : Begins desc f pass finalPass) :
    (f.pass = none ∧ pass = 0) ∨
      ∃ previous, f.pass = some previous ∧ pass = previous + 1 ∧ f.nextRow = desc.height := by
  have horder := h.order
  rw [Filler.mayBegin] at horder
  split at horder
  · next hpass => exact .inl ⟨hpass, of_decide_eq_true horder⟩
  · next previous hpass =>
    rw [Bool.and_eq_true, decide_eq_true_eq, decide_eq_true_eq] at horder
    exact .inr ⟨previous, hpass, (checkedAdd_eq_some.mp horder.1).2, horder.2⟩

/-- Where a demand continues, all the rows before it have been lent. -/
theorem Ledger.before (h : Ledger desc input s.filler strips) (hc : Continues desc s.filler d) :
    strips.flatMap Strip.places =
      wholePasses desc.height d.pass ++ rowsOfPass d.pass d.first := by
  rcases hc with ⟨hpass, _, hfirst⟩ | ⟨hbegins, hfirst⟩
  · rw [hfirst]
    exact h.order _ hpass
  · rw [hfirst]
    rcases hbegins.pass_eq with ⟨hpass, hzero⟩ | ⟨previous, hpass, hsucc, hrow⟩
    · rw [(h.fresh hpass).1, hzero]
      rfl
    · rw [h.order _ hpass, hrow, hsucc, wholePasses_succ]
      exact (List.append_nil _).symm

/-- A row that was lent before a demand of the first pass lies before it. -/
theorem Ledger.place_lt (h : Ledger desc input s.filler strips) (hc : Continues desc s.filler d)
    {strip : Strip} (hs : strip ∈ strips) {i : ℕ} (hi : i < strip.rows.length) :
    strip.first + i < d.first ∨ d.pass ≠ 0 := by
  have hplace : (strip.pass, strip.first + i) ∈ strips.flatMap Strip.places := by
    refine List.mem_flatMap.mpr ⟨strip, hs, ?_⟩
    exact List.mem_map.mpr ⟨i, List.mem_range.mpr hi, rfl⟩
  rw [h.before hc, List.mem_append, mem_wholePasses, mem_rowsOfPass] at hplace
  rcases hplace with hplace | hplace
  · exact .inr (by omega)
  · exact .inl hplace.2

/-- A ledger with no empty strip has at least as many rows as strips. -/
theorem Ledger.length_le {f : Filler κ} (h : Ledger desc input f strips) :
    strips.length ≤ (strips.flatMap Strip.places).length := by
  have hnonempty := h.nonempty
  clear h
  induction strips with
  | nil => exact Nat.le_refl _
  | cons strip strips ih =>
    have hstrip := hnonempty strip List.mem_cons_self
    have htail := ih fun s hs => hnonempty s (List.mem_cons_of_mem _ hs)
    rw [List.flatMap_cons, List.length_append, List.length_cons, Strip.places, List.length_map,
      List.length_range]
    omega

/-- The strips of the passes before are not final where a pass begins. -/
theorem Ledger.pass_lt (h : Ledger desc input s.filler strips)
    (hbegins : Begins desc s.filler d.pass d.finalPass) :
    ∀ strip ∈ strips, strip.pass < d.pass ∧ strip.finalPass = false := by
  intro strip hs
  constructor
  · obtain ⟨pass, hpass, hle⟩ := h.passes strip hs
    rcases hbegins.pass_eq with ⟨hnone, _⟩ | ⟨previous, hprevious, hsucc, _⟩
    · rw [hpass] at hnone
      cases hnone
    · rw [hpass] at hprevious
      cases hprevious
      omega
  · refine Bool.eq_false_iff.mpr fun hfinal => ?_
    have hstarted := (h.final strip hs hfinal).1
    rw [hbegins.notFinal] at hstarted
    cases hstarted

theorem Ledger.filled (h : Ledger desc input s.filler strips) (hf : Filled desc input d s t) :
    Ledger desc input t.filler (strips ++ [⟨d.pass, d.first, d.finalPass, t.rows⟩]) := by
  have hpass : t.filler.pass = some d.pass := hf.same.pass
  have hfinal : t.filler.finalStarted = d.finalPass := hf.same.finalStarted
  have hnext : t.filler.nextRow = d.first + s.rows.length := hf.same.nextRow
  have hdeclared : t.filler.declared = s.filler.declared := hf.same.declared
  have hopen : ∀ pass, t.filler.pass = some pass → pass = d.pass := by
    intro pass hp
    rw [hpass] at hp
    exact (Option.some.inj hp).symm
  constructor
  case sized => exact hf.sized
  case fresh =>
    intro hnone
    rw [hpass] at hnone
    cases hnone
  case order =>
    intro pass hp
    rw [hopen pass hp, List.flatMap_append, h.before hf.continues, List.flatMap_singleton,
      List.append_assoc, rowsOfPass_append, hf.length, hnext]
  case passes =>
    intro strip hs
    refine ⟨d.pass, hpass, ?_⟩
    rcases List.mem_append.mp hs with hs | hs
    · rcases hf.continues with ⟨hsame, _⟩ | ⟨hbegins, _⟩
      · obtain ⟨pass, hp, hle⟩ := h.passes strip hs
        rw [hsame] at hp
        cases hp
        exact hle
      · exact Nat.le_of_lt (h.pass_lt hbegins strip hs).1
    · exact Nat.le_of_eq (congrArg Strip.pass (List.mem_singleton.mp hs))
  case nonempty =>
    intro strip hs
    rcases List.mem_append.mp hs with hs | hs
    · exact h.nonempty strip hs
    · rw [List.mem_singleton.mp hs]
      exact hf.length ▸ hf.nonempty
  case nextRow =>
    rw [hnext]
    exact hf.fits
  case max =>
    intro pass hp
    rw [hopen pass hp, hdeclared]
    rcases hf.continues with ⟨hsame, _⟩ | ⟨hbegins, _⟩
    · exact h.max _ hsame
    · exact ⟨hbegins.max, hbegins.fits⟩
  case min =>
    intro pass hp hstarted
    rw [hopen pass hp, hdeclared]
    rcases hf.continues with ⟨hsame, hflag, _⟩ | ⟨hbegins, _⟩
    · exact h.min _ hsame (by rw [← hflag, ← hfinal, hstarted])
    · exact hbegins.min (by rw [← hfinal, hstarted])
  case final =>
    intro strip hs hflag
    rw [hfinal, hpass]
    rcases List.mem_append.mp hs with hs | hs
    · rcases hf.continues with ⟨hopen', hsame, _⟩ | ⟨hbegins, _⟩
      · rw [hsame, ← hopen']
        exact h.final strip hs hflag
      · rw [(h.pass_lt hbegins strip hs).2] at hflag
        cases hflag
    · rw [List.mem_singleton.mp hs] at hflag ⊢
      exact ⟨hflag, rfl⟩
  case last =>
    intro strip hs hp
    rw [hfinal]
    rcases List.mem_append.mp hs with hs | hs
    · rcases hf.continues with ⟨hsame, hflag, _⟩ | ⟨hbegins, _⟩
      · rw [hflag]
        exact h.last strip hs (by rw [hopen _ hp, hsame])
      · have hlt := (h.pass_lt hbegins strip hs).1
        rw [hopen _ hp] at hlt
        exact absurd hlt (Nat.lt_irrefl _)
    · rw [List.mem_singleton.mp hs]
  case shown =>
    intro hstarted
    exact ⟨_, List.mem_append_right _ (List.mem_singleton.mpr rfl), by rw [← hfinal, hstarted]⟩
  case agrees =>
    intro strip hs i hi
    rcases List.mem_append.mp hs with hs | hs
    · exact hf.keeps _ _ (h.place_lt hf.continues hs hi) (h.agrees strip hs i hi)
    · rw [List.mem_singleton.mp hs] at hi ⊢
      exact hf.agrees i (hf.length ▸ hi)
  case raster =>
    intro pixels hpixels hnone strip hs i hi
    have hunkept : s.filler.store.isNone = true := hf.same.store ▸ hnone
    rcases List.mem_append.mp hs with hs | hs
    · exact h.raster pixels hpixels hunkept strip hs i hi
    · rw [List.mem_singleton.mp hs] at hi ⊢
      exact hf.raster pixels hpixels hunkept i (hf.length ▸ hi)

end Fill

end Zencodec.RowEncode
