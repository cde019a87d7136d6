/-
What a filled strip is.

`fillInner_spec` says once what `fillInner` does when it succeeds (`Filled`): how the demand
continues the passes so far, what the filler says afterwards, and that every row of the strip
agrees with what is kept of its place. The specifications of the parts come first; of a part
that fails nothing is needed, for a failure is final.
-/
import Zencodec.RowEncode.Filler

namespace Zencodec.RowEncode

open Act

variable {ω κ φ α : Type}

/-! ### The foreign parts -/

section Parts

variable {Q : α → Desk ω κ → Prop} {s : Desk ω κ}

/-- A foreign call changes the world only. -/
theorem spec_onWorld {x : Act ω κ α} (h : ∀ a world, Q a { s with world }) :
    Spec (onWorld x) Q (fun _ _ => True) s := by
  rw [onWorld, spec_mapError, spec_focus]
  exact spec_of_run (fun a _ => h a _) fun _ _ => trivial

theorem spec_demand {c : Bool} {r : Refusal} {Q : Unit → Desk ω κ → Prop} (h : c = true → Q () s) :
    Spec (demand c r) Q (fun _ _ => True) s :=
  (spec_require c _).mpr ⟨h, fun _ => trivial⟩

theorem spec_validate {e : Env ω κ} {Q : Unit → Desk ω κ → Prop}
    (h : ∀ world, Q () { s with world }) : Spec (validate e) Q (fun _ _ => True) s := by
  rw [validate, spec_bind, spec_focus]
  refine spec_of_run (fun _ _ => ?_) fun _ _ => trivial
  rw [spec_bind, spec_get, spec_ite]
  refine ⟨fun _ => ?_, fun _ => h _⟩
  rw [spec_bind]
  exact spec_onWorld fun a world => spec_demand fun _ => h world

end Parts

/-! ### Passes -/

/-- A pass begins where none is open. -/
structure Begins (desc : Description φ κ) (f : Filler κ) (pass : ℕ) (finalPass : Bool) : Prop where
  order : f.mayBegin desc.height pass = true
  notFinal : f.finalStarted = false
  max : f.declared.max.all (pass + 1 ≤ ·) = true
  min : finalPass = true → f.declared.min ≤ pass + 1
  fits : pass + 1 ≤ u32Max

theorem checkedAdd_eq_some {most a b c : ℕ} :
    checkedAdd most a b = some c ↔ a + b ≤ most ∧ c = a + b := by
  rw [checkedAdd]
  split
  · next h => simp [h, eq_comm]
  · next h => exact ⟨(fun h' => by cases h'), fun h' => absurd h'.1 h⟩

theorem beginPass_spec {e : Env ω κ} {desc : Description φ κ} {pass : ℕ} {finalPass : Bool}
    {s : Desk ω κ} {Q : Unit → Desk ω κ → Prop}
    (h : Begins desc s.filler pass finalPass → ∀ world, Q () { s with
      filler := { s.filler with pass := some pass, finalStarted := finalPass, nextRow := 0 }
      world }) :
    Spec (beginPass e desc pass finalPass) Q (fun _ _ => True) s := by
  simp only [beginPass, spec_bind, spec_get]
  refine spec_demand fun horder => ?_
  rw [spec_getOr]
  refine ⟨fun count hcount => ?_, fun _ => trivial⟩
  obtain ⟨hfits, rfl⟩ := checkedAdd_eq_some.mp hcount
  refine spec_demand fun hmax => spec_demand fun hmin => ?_
  rw [Bool.and_eq_true, Bool.not_eq_true'] at hmax
  rw [Bool.or_eq_true, Bool.not_eq_true', decide_eq_true_eq] at hmin
  have hbegins : Begins desc s.filler pass finalPass := by
    refine ⟨horder, hmax.1, hmax.2, fun hfinal => ?_, hfits⟩
    rcases hmin with hmin | hmin
    · rw [hfinal] at hmin
      cases hmin
    · exact hmin
  rw [updateFiller, spec_modify]
  refine spec_validate fun world => ?_
  rw [spec_ite]
  refine ⟨fun _ => ?_, fun _ => h hbegins world⟩
  simp only [spec_bind, touchWorld, spec_modify]
  exact spec_onWorld fun _ world => spec_validate fun world => h hbegins world

/-! ### Rows that are kept -/

/-- What is kept of a place is the row, or its digest, or nothing. -/
def Filler.Agrees (f : Filler κ) (place : ℕ) (row : Row) : Prop :=
  (∀ kept, f.store = .memory kept → kept[place]? = some row) ∧
    ∀ hashes, f.hashes = some hashes → hashes[place]? = some (digest row)

/-- What is kept has a place for every row of the image. -/
structure Filler.Sized (f : Filler κ) (height : ℕ) : Prop where
  store : ∀ kept, f.store = .memory kept → kept.length = height
  hashes : ∀ hashes, f.hashes = some hashes → hashes.length = height

/-- Two fillers that differ in what they keep of the rows. -/
structure Filler.Same (f g : Filler κ) : Prop where
  store : g.store.isNone = f.store.isNone
  memory : g.store.isMemory = f.store.isMemory
  hashed : g.hashes.isSome = f.hashes.isSome
  declared : g.declared = f.declared
  pass : g.pass = f.pass
  finalStarted : g.finalStarted = f.finalStarted
  nextRow : g.nextRow = f.nextRow
  fills : g.fills = f.fills
  failure : g.failure = f.failure

theorem Filler.Same.refl (f : Filler κ) : f.Same f := ⟨rfl, rfl, rfl, rfl, rfl, rfl, rfl, rfl, rfl⟩

theorem Filler.Same.trans {f g h : Filler κ} (hfg : f.Same g) (hgh : g.Same h) : f.Same h where
  store := hgh.store.trans hfg.store
  memory := hgh.memory.trans hfg.memory
  hashed := hgh.hashed.trans hfg.hashed
  declared := hgh.declared.trans hfg.declared
  pass := hgh.pass.trans hfg.pass
  finalStarted := hgh.finalStarted.trans hfg.finalStarted
  nextRow := hgh.nextRow.trans hfg.nextRow
  fills := hgh.fills.trans hfg.fills
  failure := hgh.failure.trans hfg.failure

/-! ### One row -/

/-- What `keepRow` does to the store and to the strip. -/
inductive StoreStep (external : Bool) (place y : ℕ) : Store → List Row → Store → List Row → Prop
  | none (rows) : StoreStep external place y .none rows .none rows
  | kept (k rows) (h : external = true) :
      StoreStep external place y (.memory k) rows (.memory (k.set place (rows.getD y []))) rows
  | replayed (k rows) (h : external = false) :
      StoreStep external place y (.memory k) rows (.memory k) (rows.set y (k.getD place []))
  | stored (origin rows) : StoreStep external place y (.disk origin) rows (.disk origin) rows
  | loaded (origin rows row) :
      StoreStep external place y (.disk origin) rows (.disk origin) (rows.set y row)

theorem keepRow_spec {e : Env ω κ} {desc : Description φ κ} {external : Bool} {place y : ℕ}
    {s : Desk ω κ} {Q : Unit → Desk ω κ → Prop}
    (h : ∀ store rows world, StoreStep external place y s.filler.store s.rows store rows →
      Q () ⟨{ s.filler with store }, rows, world⟩) :
    Spec (keepRow e desc external place y) Q (fun _ _ => True) s := by
  simp only [keepRow, spec_bind, spec_get]
  rw [spec_getOr]
  refine ⟨fun offset _ => ?_, fun _ => trivial⟩
  cases hstore : s.filler.store with
  | none =>
    have hstep : StoreStep external place y s.filler.store s.rows s.filler.store s.rows := by
      rw [hstore]
      exact .none s.rows
    exact h _ _ s.world hstep
  | memory k =>
    dsimp only
    rw [spec_ite]
    refine ⟨fun hexternal => ?_, fun hexternal => ?_⟩
    · rw [updateFiller, spec_modify]
      have hstep : StoreStep external place y s.filler.store s.rows
          (.memory (k.set place (s.rows.getD y []))) s.rows := by
        rw [hstore]
        exact .kept k s.rows hexternal
      exact h _ _ s.world hstep
    · rw [spec_modify]
      have hstep : StoreStep external place y s.filler.store s.rows s.filler.store
          (s.rows.set y (k.getD place [])) := by
        rw [hstore]
        exact .replayed k s.rows (Bool.eq_false_iff.mpr hexternal)
      exact h _ _ s.world hstep
  | disk origin =>
    dsimp only
    rw [spec_bind, spec_getOr]
    refine ⟨fun position _ => ?_, fun _ => trivial⟩
    rw [spec_ite]
    refine ⟨fun _ => spec_onWorld fun _ world => ?_, fun _ => ?_⟩
    · have hstep : StoreStep external place y s.filler.store s.rows s.filler.store s.rows := by
        rw [hstore]
        exact .stored origin s.rows
      exact h _ _ world hstep
    · rw [spec_mapError]
      refine spec_of_run (fun _ _ => ?_) fun _ _ => trivial
      have hstep : ∀ row, StoreStep external place y s.filler.store s.rows s.filler.store
          (s.rows.set y row) := by
        intro row
        rw [hstore]
        exact .loaded origin s.rows row
      exact h _ _ _ (hstep _)

/-- What `checkDigest` does to the digests. -/
inductive DigestStep (pass place : ℕ) (row : Row) :
    Option (List UInt64) → Option (List UInt64) → Prop
  | none : DigestStep pass place row none none
  | kept (k) (h : pass = 0) :
      DigestStep pass place row (some k) (some (k.set place (digest row)))
  | compared (k) (h : pass ≠ 0) (heq : k[place]? = some (digest row)) :
      DigestStep pass place row (some k) (some k)

theorem checkDigest_spec {pass place y : ℕ} {s : Desk ω κ} {Q : Unit → Desk ω κ → Prop}
    (h : ∀ hashes, DigestStep pass place (s.rows.getD y []) s.filler.hashes hashes →
      Q () { s with filler := { s.filler with hashes } }) :
    Spec (checkDigest pass place y) Q (fun _ _ => True) s := by
  simp only [checkDigest, spec_bind, spec_get]
  cases hhashes : s.filler.hashes with
  | none =>
    have hstep : DigestStep pass place (s.rows.getD y []) s.filler.hashes s.filler.hashes := by
      rw [hhashes]
      exact .none
    exact h _ hstep
  | some k =>
    dsimp only
    rw [spec_ite]
    refine ⟨fun hpass => ?_, fun hpass => spec_demand fun heq => ?_⟩
    · rw [updateFiller, spec_modify]
      have hstep : DigestStep pass place (s.rows.getD y []) s.filler.hashes
          (some (k.set place (digest (s.rows.getD y [])))) := by
        rw [hhashes]
        exact .kept k hpass
      exact h _ hstep
    · have hstep : DigestStep pass place (s.rows.getD y []) s.filler.hashes s.filler.hashes := by
        rw [hhashes]
        exact .compared k hpass (of_decide_eq_true heq)
      exact h _ hstep

theorem checkExact_spec {desc : Description φ κ} {place y : ℕ} {s : Desk ω κ}
    {Q : Unit → Desk ω κ → Prop} (h : Q () s) :
    Spec (checkExact desc place y) Q (fun _ _ => True) s := by
  rw [checkExact]
  split
  · exact h
  · simp only [spec_bind, spec_get]
    rw [spec_lift]
    exact ⟨fun held _ => (spec_require held _).mpr ⟨fun _ => h, fun _ => trivial⟩,
      fun _ _ => trivial⟩

theorem getD_set_of_ne {rows : List Row} {i y : ℕ} (h : i ≠ y) (row : Row) :
    (rows.set y row).getD i [] = rows.getD i [] := by
  rw [List.getD_eq_getElem?_getD, List.getElem?_set_ne h.symm, List.getD_eq_getElem?_getD]

theorem getD_set_self {rows : List Row} {y : ℕ} (h : y < rows.length) (row : Row) :
    (rows.set y row).getD y [] = row := by
  rw [List.getD_eq_getElem?_getD, List.getElem?_set_self h, Option.getD_some]

theorem getElem?_getD {rows : List Row} {y : ℕ} (h : y < rows.length) :
    rows[y]? = some (rows.getD y []) := by
  rw [List.getD_eq_getElem?_getD, List.getElem?_eq_getElem h, Option.getD_some]

section StoreStep

variable {external : Bool} {place y : ℕ} {store store' : Store} {rows rows' : List Row}

/-- What is kept of the place is the row of the strip. -/
theorem StoreStep.agrees (h : StoreStep external place y store rows store' rows')
    (hplace : ∀ kept, store = .memory kept → place < kept.length) (hy : y < rows.length) :
    ∀ kept, store' = .memory kept → kept[place]? = some (rows'.getD y []) := by
  intro kept hkept
  cases h with
  | kept k _ _ =>
    cases hkept
    exact List.getElem?_set_self (hplace k rfl)
  | replayed k _ _ =>
    cases hkept
    rw [getD_set_self hy]
    exact getElem?_getD (hplace _ rfl)
  | none | stored | loaded => cases hkept

/-- What is kept of the other places stays, and on the later passes all of it. -/
theorem StoreStep.keeps (h : StoreStep external place y store rows store' rows') {p : ℕ} {row : Row}
    (hp : p ≠ place ∨ external = store.isNone)
    (hrow : ∀ kept, store = .memory kept → kept[p]? = some row) :
    ∀ kept, store' = .memory kept → kept[p]? = some row := by
  intro kept hkept
  cases h with
  | kept k _ hexternal =>
    cases hkept
    rcases hp with hp | hp
    · rw [List.getElem?_set_ne hp.symm]
      exact hrow k rfl
    · rw [hexternal] at hp
      cases hp
  | replayed => exact hrow kept hkept
  | none | stored | loaded => cases hkept

theorem StoreStep.sized (h : StoreStep external place y store rows store' rows') {height : ℕ}
    (hsize : ∀ kept, store = .memory kept → kept.length = height) :
    ∀ kept, store' = .memory kept → kept.length = height := by
  intro kept hkept
  cases h with
  | kept k _ _ =>
    cases hkept
    rw [List.length_set]
    exact hsize k rfl
  | replayed => exact hsize kept hkept
  | none | stored | loaded => cases hkept

theorem StoreStep.isNone (h : StoreStep external place y store rows store' rows') :
    store'.isNone = store.isNone := by
  cases h <;> rfl

theorem StoreStep.isMemory (h : StoreStep external place y store rows store' rows') :
    store'.isMemory = store.isMemory := by
  cases h <;> rfl

theorem StoreStep.length (h : StoreStep external place y store rows store' rows') :
    rows'.length = rows.length := by
  cases h with
  | replayed | loaded => exact List.length_set
  | none | kept | stored => rfl

theorem StoreStep.others (h : StoreStep external place y store rows store' rows') {i : ℕ}
    (hi : i ≠ y) : rows'.getD i [] = rows.getD i [] := by
  cases h with
  | replayed | loaded => exact getD_set_of_ne hi _
  | none | kept | stored => rfl

theorem StoreStep.unkept (h : StoreStep external place y store rows store' rows')
    (hnone : store.isNone = true) : rows' = rows := by
  cases h with
  | none => rfl
  | kept | replayed | stored | loaded => cases hnone

end StoreStep

section DigestStep

variable {pass place : ℕ} {row : Row} {hashes hashes' : Option (List UInt64)}

theorem DigestStep.agrees (h : DigestStep pass place row hashes hashes')
    (hplace : ∀ k, hashes = some k → place < k.length) :
    ∀ k, hashes' = some k → k[place]? = some (digest row) := by
  intro k hk
  cases h with
  | none => cases hk
  | kept l hpass =>
    cases hk
    exact List.getElem?_set_self (hplace l rfl)
  | compared l hpass heq =>
    cases hk
    exact heq

theorem DigestStep.keeps (h : DigestStep pass place row hashes hashes') {p : ℕ} {hash : UInt64}
    (hp : p ≠ place ∨ pass ≠ 0) (hhash : ∀ k, hashes = some k → k[p]? = some hash) :
    ∀ k, hashes' = some k → k[p]? = some hash := by
  intro k hk
  cases h with
  | none => cases hk
  | kept l hpass =>
    cases hk
    rw [List.getElem?_set_ne (hp.resolve_right fun h => h hpass).symm]
    exact hhash l rfl
  | compared => exact hhash k hk

theorem DigestStep.sized (h : DigestStep pass place row hashes hashes') {height : ℕ}
    (hsize : ∀ k, hashes = some k → k.length = height) :
    ∀ k, hashes' = some k → k.length = height := by
  intro k hk
  cases h with
  | none => cases hk
  | kept l hpass =>
    cases hk
    rw [List.length_set]
    exact hsize l rfl
  | compared => exact hsize k hk

theorem DigestStep.isSome (h : DigestStep pass place row hashes hashes') :
    hashes'.isSome = hashes.isSome := by
  cases h <;> rfl

end DigestStep

/-! ### One row -/

/-- One row of a strip is filled. -/
structure RowFilled (d : Demand φ) (height y : ℕ) (s t : Desk ω κ) : Prop where
  same : s.filler.Same t.filler
  sized : t.filler.Sized height
  length : t.rows.length = s.rows.length
  others : ∀ i, i ≠ y → t.rows.getD i [] = s.rows.getD i []
  agrees : t.filler.Agrees (d.first + y) (t.rows.getD y [])
  keeps : ∀ place row, place ≠ d.first + y ∨ d.pass ≠ 0 → s.filler.Agrees place row →
    t.filler.Agrees place row
  unkept : s.filler.store.isNone = true → t.rows = s.rows

theorem fillRow_spec {e : Env ω κ} {desc : Description φ κ} {d : Demand φ} {y : ℕ} {s : Desk ω κ}
    (hsized : s.filler.Sized desc.height) (hy : y < s.rows.length)
    (hplace : d.first + y < desc.height) :
    Spec (fillRow e desc d (d.pass = 0 || s.filler.store.isNone) y)
      (fun _ => RowFilled d desc.height y s) (fun _ _ => True) s := by
  simp only [fillRow, spec_bind, updateFiller, spec_modify]
  refine spec_onWorld fun _ _ => keepRow_spec fun store rows world hstore => ?_
  refine checkExact_spec (checkDigest_spec fun hashes hdigest => ?_)
  have hexternal : ∀ place, place ≠ d.first + y ∨ d.pass ≠ 0 → place ≠ d.first + y ∨
      (decide (d.pass = 0) || s.filler.store.isNone) = s.filler.store.isNone := by
    intro place hp
    rcases hp with hp | hp
    · exact .inl hp
    · right
      rw [decide_eq_false hp, Bool.false_or]
  constructor
  case same =>
    exact ⟨hstore.isNone, hstore.isMemory, hdigest.isSome, rfl, rfl, rfl, rfl, rfl, rfl⟩
  case sized => exact ⟨hstore.sized hsized.store, hdigest.sized hsized.hashes⟩
  case length => exact hstore.length
  case others => exact fun i hi => hstore.others hi
  case agrees =>
    constructor
    · exact hstore.agrees (fun kept hkept => hsized.store kept hkept ▸ hplace) hy
    · exact hdigest.agrees fun k hk => hsized.hashes k hk ▸ hplace
  case keeps =>
    intro place row hp hrow
    exact ⟨hstore.keeps (hexternal place hp) hrow.1, hdigest.keeps hp hrow.2⟩
  case unkept => exact hstore.unkept

/-! ### The rows of a strip -/

/-- The first `n` rows of a strip are filled. -/
structure RowsFilled (d : Demand φ) (height n : ℕ) (s t : Desk ω κ) : Prop where
  same : s.filler.Same t.filler
  sized : t.filler.Sized height
  length : t.rows.length = s.rows.length
  agrees : ∀ i < n, t.filler.Agrees (d.first + i) (t.rows.getD i [])
  keeps : ∀ place row, place < d.first ∨ d.pass ≠ 0 → s.filler.Agrees place row →
    t.filler.Agrees place row
  unkept : s.filler.store.isNone = true → t.rows = s.rows

theorem RowsFilled.next {d : Demand φ} {height n : ℕ} {s t u : Desk ω κ}
    (h : RowsFilled d height n s t) (hrow : RowFilled d height n t u) :
    RowsFilled d height (n + 1) s u where
  same := h.same.trans hrow.same
  sized := hrow.sized
  length := hrow.length.trans h.length
  agrees := by
    intro i hi
    rcases Nat.lt_succ_iff_lt_or_eq.mp hi with hi | rfl
    · rw [hrow.others i (Nat.ne_of_lt hi)]
      exact hrow.keeps _ _ (.inl (by omega)) (h.agrees i hi)
    · exact hrow.agrees
  keeps := by
    intro place row hp hrow'
    refine hrow.keeps place row ?_ (h.keeps place row hp hrow')
    exact hp.imp_left fun hlt => by omega
  unkept := by
    intro hnone
    rw [hrow.unkept (h.same.store.trans hnone), h.unkept hnone]

theorem fillRows_spec {e : Env ω κ} {desc : Description φ κ} {d : Demand φ} {s : Desk ω κ}
    (hsized : s.filler.Sized desc.height) (hfits : d.first + s.rows.length ≤ desc.height) :
    Spec (Act.each (fillRow e desc d (d.pass = 0 || s.filler.store.isNone))
        (List.range s.rows.length))
      (fun _ => RowsFilled d desc.height s.rows.length s) (fun _ _ => True) s := by
  refine spec_each_range (fun n => RowsFilled d desc.height n s) (fun n hn t ht => ?_) ?_
  · rw [← ht.same.store]
    refine (fillRow_spec ht.sized (by rw [ht.length]; exact hn) (by omega)).mono
      (fun _ u hu => ht.next hu) fun _ _ h => h
  · exact ⟨.refl _, hsized, rfl, fun i hi => absurd hi (Nat.not_lt_zero i), fun _ _ _ h => h,
      fun _ => rfl⟩

/-! ### Reading -/

/-- What a read leaves: the same filler, and the rows of a raster. -/
structure ReadIn (input : Input) (first : ℕ) (s t : Desk ω κ) : Prop where
  filler : t.filler = s.filler
  length : t.rows.length = s.rows.length
  raster : ∀ pixels, input = .raster pixels → ∀ i < s.rows.length,
    t.rows.getD i [] = pixels.getD (first + i) []

theorem readInput_spec {e : Env ω κ} {input : Input} {first : ℕ} {s : Desk ω κ} :
    Spec (readInput e input first) (fun _ => ReadIn input first s) (fun _ _ => True) s := by
  cases input with
  | raster pixels =>
    simp only [readInput, spec_bind, spec_get]
    have hloop := spec_each_range (f := copyRow e pixels first) (s := s) (n := s.rows.length)
      (E := fun _ _ => True)
      (fun n t => t.filler = s.filler ∧ t.rows.length = s.rows.length ∧
        ∀ i < n, t.rows.getD i [] = pixels.getD (first + i) []) ?_
      ⟨rfl, rfl, fun i hi => absurd hi (Nat.not_lt_zero i)⟩
    · refine hloop.mono (fun _ t ht => ⟨ht.1, ht.2.1, fun p hp i hi => ?_⟩) fun _ _ h => h
      cases hp
      exact ht.2.2 i hi
    · intro n hn t ht
      rw [copyRow, spec_bind]
      refine spec_onWorld fun _ world => ?_
      rw [spec_modify]
      refine ⟨ht.1, List.length_set.trans ht.2.1, fun i hi => ?_⟩
      rcases Nat.lt_succ_iff_lt_or_eq.mp hi with hi | rfl
      · exact (getD_set_of_ne (Nat.ne_of_lt hi) _).trans (ht.2.2 i hi)
      · exact getD_set_self (by rw [ht.2.1]; exact hn) _
  | source =>
    rw [readInput, spec_mapError]
    exact spec_of_run (fun _ _ => ⟨rfl, e.length_readRows _ _ _, fun _ hp => by cases hp⟩)
      fun _ _ => trivial

theorem readStrip_spec {e : Env ω κ} {input : Input} {external : Bool} {first : ℕ} {s : Desk ω κ} :
    Spec (readStrip e input external first)
      (fun _ t => t.filler = s.filler ∧ t.rows.length = s.rows.length ∧
        (external = true → ReadIn input first s t)) (fun _ _ => True) s := by
  rw [readStrip, spec_ite]
  refine ⟨fun _ => ?_, fun hexternal => ⟨rfl, rfl, fun h => absurd h hexternal⟩⟩
  simp only [spec_bind]
  refine readInput_spec.mono (fun _ t ht => ?_) fun _ _ h => h
  refine spec_onWorld fun _ _ => spec_validate fun _ => ⟨ht.filler, ht.length, fun _ => ?_⟩
  exact ⟨ht.filler, ht.length, ht.raster⟩

/-! ### One strip -/

/-- What filling a strip of the open pass does. -/
structure StripFilled (desc : Description φ κ) (input : Input) (d : Demand φ) (s t : Desk ω κ) :
    Prop where
  first : d.first = s.filler.nextRow
  same : Filler.Same { s.filler with nextRow := d.first + s.rows.length } t.filler
  sized : t.filler.Sized desc.height
  length : t.rows.length = s.rows.length
  agrees : ∀ i < s.rows.length, t.filler.Agrees (d.first + i) (t.rows.getD i [])
  keeps : ∀ place row, place < d.first ∨ d.pass ≠ 0 → s.filler.Agrees place row →
    t.filler.Agrees place row
  raster : ∀ pixels, input = .raster pixels → s.filler.store.isNone = true →
    ∀ i < s.rows.length, t.rows.getD i [] = pixels.getD (d.first + i) []

theorem fillStrip_spec {e : Env ω κ} {desc : Description φ κ} {input : Input} {d : Demand φ}
    {s : Desk ω κ} (hsized : s.filler.Sized desc.height)
    (hfits : d.first + s.rows.length ≤ desc.height) :
    Spec (fillStrip e desc input d) (fun _ => StripFilled desc input d s) (fun _ _ => True) s := by
  simp only [fillStrip, spec_bind, spec_get]
  refine spec_demand fun hfirst => spec_validate fun world => ?_
  refine readStrip_spec.mono (fun _ t ht => ?_) fun _ _ h => h
  obtain ⟨hfiller, hlength, hread⟩ := ht
  have hloop := fillRows_spec (e := e) (d := d) (s := t) (by rwa [hfiller])
    (by rw [hlength]; exact hfits)
  rw [hfiller, hlength] at hloop
  refine hloop.mono (fun _ u hu => ?_) fun _ _ h => h
  simp only [updateFiller, touchWorld, spec_modify]
  refine spec_onWorld fun _ _ => spec_validate fun _ => spec_onWorld fun _ _ =>
    spec_validate fun world' => ?_
  have hsame := hu.same
  rw [hfiller] at hsame
  constructor
  case first => exact of_decide_eq_true hfirst
  case same =>
    exact ⟨hsame.store, hsame.memory, hsame.hashed, hsame.declared, hsame.pass, hsame.finalStarted,
      rfl, hsame.fills, hsame.failure⟩
  case sized => exact ⟨hu.sized.store, hu.sized.hashes⟩
  case length => exact hu.length.trans hlength
  case agrees => exact hu.agrees
  case keeps =>
    intro place row hp hrow
    exact hu.keeps place row hp (by rwa [hfiller])
  case raster =>
    intro pixels hpixels hnone i hi
    have hrows : u.rows = t.rows := hu.unkept (by rwa [hfiller])
    have hread' := hread (by rw [hnone, Bool.or_true])
    exact (congrArg (fun l => l.getD i []) hrows).trans (hread'.raster pixels hpixels i hi)

/-! ### One demand -/

/-- A demand continues the passes so far. -/
def Continues (desc : Description φ κ) (f : Filler κ) (d : Demand φ) : Prop :=
  (f.pass = some d.pass ∧ d.finalPass = f.finalStarted ∧ d.first = f.nextRow) ∨
    (Begins desc f d.pass d.finalPass ∧ d.first = 0)

/-- What a fill that succeeds does. -/
structure Filled (desc : Description φ κ) (input : Input) (d : Demand φ) (s t : Desk ω κ) :
    Prop where
  continues : Continues desc s.filler d
  nonempty : 0 < s.rows.length
  fits : d.first + s.rows.length ≤ desc.height
  same : Filler.Same { s.filler with
    pass := some d.pass, finalStarted := d.finalPass, nextRow := d.first + s.rows.length } t.filler
  sized : t.filler.Sized desc.height
  length : t.rows.length = s.rows.length
  agrees : ∀ i < s.rows.length, t.filler.Agrees (d.first + i) (t.rows.getD i [])
  keeps : ∀ place row, place < d.first ∨ d.pass ≠ 0 → s.filler.Agrees place row →
    t.filler.Agrees place row
  raster : ∀ pixels, input = .raster pixels → s.filler.store.isNone = true →
    ∀ i < s.rows.length, t.rows.getD i [] = pixels.getD (d.first + i) []

section Demands

variable [DecidableEq φ] {e : Env ω κ} {desc : Description φ κ} {input : Input} {d : Demand φ}
  {s : Desk ω κ}

theorem Demand.fits_spec {count : ℕ} (h : d.fits desc count = true) :
    0 < count ∧ d.first + count ≤ desc.height := by
  simp only [Demand.fits, Bool.and_eq_true, decide_eq_true_eq, Option.any_eq_true] at h
  obtain ⟨⟨_, hcount⟩, last, hlast, hheight⟩ := h
  obtain ⟨_, rfl⟩ := checkedAdd_eq_some.mp hlast
  exact ⟨Nat.pos_of_ne_zero hcount, hheight⟩

theorem fillInner_spec (hsized : s.filler.Sized desc.height) :
    Spec (fillInner e desc input d) (fun _ => Filled desc input d s) (fun _ _ => True) s := by
  simp only [fillInner, spec_bind, spec_get, updateFiller, spec_modify]
  refine spec_onWorld fun _ world => spec_demand fun hfits => ?_
  obtain ⟨hnonempty, hfits⟩ := Demand.fits_spec hfits
  rw [spec_ite]
  constructor
  · intro hpass
    rw [spec_bind]
    refine beginPass_spec fun hbegins world' => ?_
    refine Spec.mono (fillStrip_spec ?_ hfits) (fun _ t ht => ?_) fun _ _ h => h
    · exact ⟨hsized.store, hsized.hashes⟩
    have hcontinues : Continues desc s.filler d :=
      .inr ⟨⟨hbegins.order, hbegins.notFinal, hbegins.max, hbegins.min, hbegins.fits⟩, ht.first⟩
    have hsame := ht.same
    refine ⟨hcontinues, hnonempty, hfits, ?_, ht.sized, ht.length, ht.agrees, ht.keeps, ht.raster⟩
    exact ⟨hsame.store, hsame.memory, hsame.hashed, hsame.declared, hsame.pass, hsame.finalStarted,
      hsame.nextRow, hsame.fills, hsame.failure⟩
  · intro hpass
    rw [spec_bind]
    refine spec_demand fun hfinal => ?_
    refine Spec.mono (fillStrip_spec ?_ hfits) (fun _ t ht => ?_) fun _ _ h => h
    · exact ⟨hsized.store, hsized.hashes⟩
    have hopen : s.filler.pass = some d.pass := Decidable.of_not_not hpass
    have hfinal' : d.finalPass = s.filler.finalStarted := of_decide_eq_true hfinal
    have hsame := ht.same
    refine ⟨.inl ⟨hopen, hfinal', ht.first⟩, hnonempty, hfits, ?_, ht.sized, ht.length, ht.agrees,
      ht.keeps, ht.raster⟩
    exact ⟨hsame.store, hsame.memory, hsame.hashed, hsame.declared, hsame.pass.trans hopen,
      hsame.finalStarted.trans hfinal'.symm, hsame.nextRow, hsame.fills, hsame.failure⟩

end Demands

end Zencodec.RowEncode
