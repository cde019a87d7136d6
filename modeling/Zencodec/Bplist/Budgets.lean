/-
What the reader returns, and what it takes.

Reading an object gives the value of the reference decoding, visits as many values as its
unfolding has, and charges what they allocate (`metered_readObject`). It fails where there is no
value or the budget is too small, and otherwise only when the allocator does.
-/
import Zencodec.Bplist.Layout
import Zencodec.Lib.Metered

open Slices Act

namespace Zencodec.Bplist

variable {Ω F α : Type} {env : Env Ω F} {c : Ctx} {object : ℕ → Option (Shape F)}

/-! ### The budget -/

/-- The visits and the bytes that are left. -/
def left (t : Budget × Ω) : ℕ × ℕ := (t.1.nodes, t.1.bytes)

/-- The allocator always succeeds. -/
def Generous (host : Host Ω) : Prop := ∀ w, (host.tryReserve w).1 = true

/-- `x` has the value `o`, and takes `cost` from the budget. -/
def Takes (env : Env Ω F) (x : Read Ω α) (o : Option α) (cost : ℕ × ℕ) : Prop :=
  Metered left (fun t => t.1.bytes ≤ env.usizeMax) (Generous env.toHost) x o cost

theorem takes_visit : Takes env visit (some ()) (1, 0) := by
  intro t ht
  unfold visit
  rw [spec_bind, spec_get, spec_bind, spec_require]
  refine ⟨fun hleft => ⟨ht, rfl, ?_⟩, fun hnone _ _ hle => ?_⟩
  · have hpos := of_decide_eq_true hleft
    show (t.1.nodes, t.1.bytes) = (t.1.nodes - 1 + 1, t.1.bytes + 0)
    rw [Nat.sub_add_cancel hpos, Nat.add_zero]
  · exact of_decide_eq_false hnone hle.1

theorem takes_charge (n : ℕ) : Takes env (charge n : Read Ω Unit) (some ()) (0, n) := by
  intro t ht
  unfold charge
  rw [spec_bind, spec_get, spec_bind, spec_require]
  refine ⟨fun hleft => ⟨(Nat.sub_le _ _).trans ht, rfl, ?_⟩, fun hnone _ _ hle => ?_⟩
  · have hle := of_decide_eq_true hleft
    show (t.1.nodes, t.1.bytes) = (t.1.nodes + 0, t.1.bytes - n + n)
    rw [Nat.sub_add_cancel hle, Nat.add_zero]
  · exact of_decide_eq_false hnone hle.2

theorem takes_reserve : Takes env (onWorld (env.reserve ())) (some ()) 0 := by
  intro t ht
  rw [spec_onWorld]
  unfold Spec Host.reserve
  by_cases hok : (env.tryReserve t.2).1 = true
  · rw [if_pos hok]
    exact ⟨ht, rfl, rfl⟩
  · rw [if_neg hok]
    exact fun hcalm => absurd (hcalm t.2) hok

theorem takes_allocate (n : ℕ) : Takes env (allocate env.toHost n) (some ()) (0, n) := by
  have hcharge : Takes env (charge n : Read Ω Unit) (some ()) (0, n) := takes_charge n
  have hboth := Metered.bind_some (f := fun _ => onWorld (env.reserve ())) hcharge takes_reserve
  rwa [add_zero] at hboth

/-- Room for `a` elements of `b` bytes: where that is too much to count, it is too much. -/
theorem takes_elements {x : Read Ω α} {o : Option α} {cost : ℕ × ℕ} (a b : ℕ)
    (hx : Takes env x o cost) :
    Takes env (getOr (env.mul a b) () >>= fun n => allocate env.toHost n >>= fun _ => x) o
      ((0, a * b) + cost) := by
  by_cases hfit : a * b ≤ env.usizeMax
  · have hmul : env.mul a b = some (a * b) := Env.usize_of_le hfit
    rw [hmul, getOr_some_bind]
    exact (takes_allocate (a * b)).bind_some hx
  · have hmul : env.mul a b = none := if_neg hfit
    rw [hmul, getOr_none_bind]
    intro t ht _ _ hle
    have hbytes : a * b + cost.2 ≤ t.1.bytes := hle.2
    omega

/-! ### Leaves -/

theorem takes_readLeaf {off marker : ℕ} {v : PlistValue F} {a : Option ℕ}
    (h : c.leafAt env off marker = some (v, a)) :
    Takes env (c.readLeaf env off marker) (some v) (0, a.getD 0) := by
  unfold Ctx.readLeaf
  rw [h, getOr_some_bind]
  cases a with
  | none => exact metered_pure v
  | some n =>
    have hallocate : Takes env (allocate env.toHost n) (some ()) (0, n) := takes_allocate n
    have hread := Metered.bind_some (f := fun _ => pure v) hallocate (metered_pure v)
    rwa [add_zero] at hread

/-! ### Objects -/

/-- The reader finds the objects of `object`. -/
structure Reads (env : Env Ω F) (c : Ctx) (object : ℕ → Option (Shape F)) : Prop where
  refSize : 1 ≤ c.refSize ∧ c.refSize ≤ 8
  room : 2 * c.payload.length ≤ env.usizeMax
  small : ∀ r, env.usizeMax < r → object r = none
  cases : ∀ i, (c.objectOffset env i = none ∧ object i = none) ∨
    ∃ off m body, c.objectOffset env i = some off ∧ Stands env c off m body ∧
      object i = shapeOf env.reals c.refSize m.toNat body

/-- The bytes allocated for the value of object `i`. -/
def Env.cost (env : Env Ω F) (object : ℕ → Option (Shape F)) : ℕ → ℕ → ℕ :=
  Bplist.cost env.valueSize env.entrySize object

/-- What object `i` takes from the budget. -/
def Env.price (env : Env Ω F) (object : ℕ → Option (Shape F)) (d i : ℕ) : ℕ × ℕ :=
  (expansion object d i, env.cost object d i)

theorem sum_map_prod {β : Type} (f g : β → ℕ) (l : List β) :
    (l.map fun b => (f b, g b)).sum = ((l.map f).sum, (l.map g).sum) := by
  induction l with
  | nil => rfl
  | cons b l ih =>
    rw [List.map_cons, List.sum_cons, ih]
    rfl

theorem expansion_pos {d i : ℕ} (h : (decode object d i).isSome) : 1 ≤ expansion object d i := by
  cases d with
  | zero => cases h
  | succ d =>
    unfold expansion
    split <;> omega

theorem length_le_sum {β : Type} {f : β → ℕ} {l : List β} (h : ∀ b ∈ l, 1 ≤ f b) :
    l.length ≤ (l.map f).sum := by
  induction l with
  | nil => exact le_refl 0
  | cons b l ih =>
    have hb := h b List.mem_cons_self
    have hl := ih fun b' hb' => h b' (List.mem_cons_of_mem _ hb')
    rw [List.length_cons, List.map_cons, List.sum_cons]
    omega

/-- Following reference `i`. -/
theorem takes_follow {d r : ℕ} (hreads : Reads env c object)
    (hobj : Takes env (c.readObject env d r) (decode object d r) (env.price object d r)) :
    Takes env (getOr (env.usize r) () >>= c.readObject env d) (decode object d r)
      (env.price object d r) := by
  by_cases hr : r ≤ env.usizeMax
  · rw [Env.usize_of_le hr, getOr_some_bind]
    exact hobj
  · have hnone : decode object d r = none := by
      cases d with
      | zero => rfl
      | succ d =>
        rw [decode, hreads.small r (Nat.not_le.mp hr)]
    rw [hnone, Env.usize, if_neg hr, getOr_none_bind]
    exact metered_fail () _

/-- An array or set of `count` elements, whose references start at `base`. -/
theorem takes_array {d count base : ℕ} {refs : List ℕ} (hreads : Reads env c object)
    (ih : ∀ i, Takes env (c.readObject env d i) (decode object d i) (env.price object d i))
    (hfit : base + count * c.refSize ≤ c.payload.length)
    (hrefs : refs = refsOf c.refSize count (c.payload.drop base)) :
    Takes env (Act.collect (fun i => do
        let r ← Act.getOr (c.readRef env (base + i * c.refSize)) ()
        c.readObject env d r) (List.range count))
      (refs.mapM (decode object d))
      ((refs.map (expansion object d)).sum, (refs.map (env.cost object d)).sum) := by
  have hcollect : Takes env (Act.collect (fun i => do
        let r ← Act.getOr (c.readRef env (base + i * c.refSize)) ()
        c.readObject env d r) (List.range count)) _ _ :=
    metered_collect (g := fun i => decode object d (wordValue .big
        (((c.payload.drop base).drop (i * c.refSize)).take c.refSize)))
      (c := fun i => env.price object d (wordValue .big
        (((c.payload.drop base).drop (i * c.refSize)).take c.refSize)))
      fun i hi => by
        rw [readRef_eq hreads.refSize hfit (List.mem_range.mp hi)]
        exact takes_follow hreads (ih _)
  rw [hrefs, refsOf, List.mapM_map, ← sum_map_prod, List.map_map]
  exact hcollect

/-- One entry of a dictionary. -/
theorem takes_entry {d k v : ℕ} (hreads : Reads env c object)
    (ih : ∀ i, Takes env (c.readObject env d i) (decode object d i) (env.price object d i)) :
    Takes env (do
        let k ← Act.getOr (env.usize k) ()
        let v ← Act.getOr (env.usize v) ()
        let key ← c.readObject env d k
        let key ← Act.getOr (Ctx.asKey key) ()
        let value ← c.readObject env d v
        pure (key, value))
      (decodeEntry object d (k, v)) (env.price object d k + env.price object d v) := by
  have hnone : ∀ r, ¬ r ≤ env.usizeMax → decode object d r = none := fun r hr => by
    cases d with
    | zero => rfl
    | succ d => rw [decode, hreads.small r (Nat.not_le.mp hr)]
  by_cases hk : k ≤ env.usizeMax
  · rw [Env.usize_of_le hk, getOr_some_bind]
    by_cases hv : v ≤ env.usizeMax
    · rw [Env.usize_of_le hv, getOr_some_bind]
      have hpair : Takes env (do
          let key ← c.readObject env d k
          let key ← Act.getOr (Ctx.asKey key) ()
          let value ← c.readObject env d v
          pure (key, value)) _ (env.price object d k + (0 + (env.price object d v + 0))) :=
        (ih k).bind fun key _ => (metered_getOr (Ctx.asKey key) ()).bind fun text _ =>
          (ih v).bind fun value _ => metered_pure (text, value)
      rw [zero_add, add_zero] at hpair
      unfold decodeEntry
      rw [Option.bind_eq_bind, Option.bind_assoc]
      exact hpair
    · have hentry : decodeEntry object d (k, v) = none := by
        unfold decodeEntry
        rw [hnone v hv]
        cases (decode object d k).bind Ctx.asKey <;> rfl
      rw [hentry, Env.usize, if_neg hv, getOr_none_bind]
      exact metered_fail () _
  · have hentry : decodeEntry object d (k, v) = none := by
      unfold decodeEntry
      rw [hnone k hk]
      rfl
    rw [hentry, Env.usize, if_neg hk, getOr_none_bind]
    exact metered_fail () _

/-- A dictionary of `count` entries. -/
theorem takes_dict {d count keys vals : ℕ} {entries : List (ℕ × ℕ)} (hreads : Reads env c object)
    (ih : ∀ i, Takes env (c.readObject env d i) (decode object d i) (env.price object d i))
    (hkeys : keys + count * c.refSize ≤ c.payload.length)
    (hvals : vals + count * c.refSize ≤ c.payload.length)
    (hentries : entries = (refsOf c.refSize count (c.payload.drop keys)).zip
      (refsOf c.refSize count (c.payload.drop vals))) :
    Takes env (Act.collect (fun i => do
        let k ← Act.getOr (c.readRef env (keys + i * c.refSize)) ()
        let v ← Act.getOr (c.readRef env (vals + i * c.refSize)) ()
        let key ← c.readObject env d k
        let key ← Act.getOr (Ctx.asKey key) ()
        let value ← c.readObject env d v
        pure (key, value)) (List.range count))
      (entries.mapM (decodeEntry object d))
      ((entries.map fun p => expansion object d p.1 + expansion object d p.2).sum,
        (entries.map fun p => env.cost object d p.1 + env.cost object d p.2).sum) := by
  have hcollect : Takes env (Act.collect (fun i => do
        let k ← Act.getOr (c.readRef env (keys + i * c.refSize)) ()
        let v ← Act.getOr (c.readRef env (vals + i * c.refSize)) ()
        let key ← c.readObject env d k
        let key ← Act.getOr (Ctx.asKey key) ()
        let value ← c.readObject env d v
        pure (key, value)) (List.range count)) _ _ :=
    metered_collect
      (g := fun i => decodeEntry object d
        (wordValue .big (((c.payload.drop keys).drop (i * c.refSize)).take c.refSize),
          wordValue .big (((c.payload.drop vals).drop (i * c.refSize)).take c.refSize)))
      (c := fun i => env.price object d
          (wordValue .big (((c.payload.drop keys).drop (i * c.refSize)).take c.refSize)) +
        env.price object d
          (wordValue .big (((c.payload.drop vals).drop (i * c.refSize)).take c.refSize)))
      fun i hi => by
        rw [readRef_eq hreads.refSize hkeys (List.mem_range.mp hi),
          readRef_eq hreads.refSize hvals (List.mem_range.mp hi)]
        exact takes_entry hreads ih
  rw [hentries, refsOf, refsOf, List.zip_map', List.mapM_map, ← sum_map_prod, List.map_map]
  exact hcollect

theorem length_refsOf (r n : ℕ) (l : Bytes) : (refsOf r n l).length = n := by
  rw [refsOf, List.length_map, List.length_range]

theorem one_le_expansion (d i : ℕ) : 1 ≤ expansion object (d + 1) i := by
  unfold expansion
  split <;> omega

/-- Each element of a container is visited. -/
theorem length_le_of_decode {d : ℕ} {refs : List ℕ} (h : (refs.mapM (decode object d)).isSome) :
    refs.length ≤ (refs.map (expansion object d)).sum := by
  obtain ⟨items, hitems⟩ := Option.isSome_iff_exists.mp h
  refine length_le_sum fun r hr => expansion_pos ?_
  obtain ⟨v, -, hv⟩ := mem_of_mapM hitems hr
  rw [hv]
  rfl

theorem length_le_of_decodeEntry {d : ℕ} {entries : List (ℕ × ℕ)}
    (h : (entries.mapM (decodeEntry object d)).isSome) :
    entries.length * 2 ≤
      (entries.map fun p => expansion object d p.1 + expansion object d p.2).sum := by
  obtain ⟨out, hout⟩ := Option.isSome_iff_exists.mp h
  have hpos : ∀ p ∈ entries, 1 ≤ expansion object d p.1 ∧ 1 ≤ expansion object d p.2 :=
    fun p hp => by
      obtain ⟨e, -, he⟩ := mem_of_mapM hout hp
      obtain ⟨hk, hv⟩ := decodeEntry_some he
      exact ⟨expansion_pos (by rw [hk]; rfl), expansion_pos (by rw [hv]; rfl)⟩
  have hkeys := length_le_sum (f := fun p : ℕ × ℕ => expansion object d p.1)
    fun p hp => (hpos p hp).1
  have hvals := length_le_sum (f := fun p : ℕ × ℕ => expansion object d p.2)
    fun p hp => (hpos p hp).2
  rw [List.sum_map_add]
  omega

/-- Reading an object takes what its unfolding has. -/
theorem takes_readObject (hreads : Reads env c object) (d i : ℕ) :
    Takes env (c.readObject env d i) (decode object d i) (env.price object d i) := by
  induction d generalizing i with
  | zero => exact metered_fail () _
  | succ d ih =>
    -- The visit is paid first.
    have hprice : env.price object (d + 1) i =
        (1, 0) + (expansion object (d + 1) i - 1, env.cost object (d + 1) i) := by
      have hone : 1 ≤ expansion object (d + 1) i := one_le_expansion d i
      show (_, _) = (1 + (_ - 1), 0 + _)
      rw [Nat.add_sub_cancel' hone, Nat.zero_add]
    rw [hprice, Ctx.readObject]
    refine Metered.bind_some takes_visit ?_
    rcases hreads.cases i with ⟨hoff, hobject⟩ | ⟨off, m, body, hoff, hst, hobject⟩
    · rw [hoff, getOr_none_bind, decode_none hobject]
      exact metered_fail () _
    rw [hoff, getOr_some_bind, hst.marker, Option.map_some, getOr_some_bind]
    dsimp only
    split
    · next harray =>
      have hshape := hobject.trans (hst.array_eq_shapeOf hreads.refSize.1 harray).symm
      cases hat : c.arrayAt env off (m.toNat % 16) with
      | none =>
        rw [hat] at hshape
        rw [getOr_none_bind, decode_none hshape]
        exact metered_fail () _
      | some p =>
        obtain ⟨count, base⟩ := p
        rw [hat, Option.map_some] at hshape
        rw [getOr_some_bind]
        generalize hrefs : refsOf c.refSize count (c.payload.drop base) = refs at hshape
        have hlen : refs.length = count := by rw [← hrefs, length_refsOf]
        have hexpansion : expansion object (d + 1) i =
            1 + (refs.map (expansion object d)).sum := by
          rw [expansion, hshape]
        have hcost : env.cost object (d + 1) i =
            count * env.valueSize + (refs.map (env.cost object d)).sum := by
          rw [← hlen, Env.cost, cost, hshape]
        have hsplit : (expansion object (d + 1) i - 1, env.cost object (d + 1) i) =
            (0, count * env.valueSize) + (((refs.map (expansion object d)).sum,
              (refs.map (env.cost object d)).sum) + 0) := by
          rw [hexpansion, hcost, Nat.add_sub_cancel_left, add_zero, Prod.mk_add_mk, zero_add]
        rw [(decode_array hshape).trans Option.map_eq_bind, hsplit]
        refine Metered.guard (takes_elements count env.valueSize
          (Metered.bind (takes_array hreads ih (arrayAt_fits hat) hrefs.symm)
            fun items _ => metered_pure (PlistValue.array items))) fun t _ hsome hle => ?_
        rw [← Option.map_eq_bind, Option.isSome_map] at hsome
        have hmany := length_le_of_decode hsome
        rw [← hsplit] at hle
        have hnodes : expansion object (d + 1) i - 1 ≤ t.1.nodes := hle.1
        exact decide_eq_true (by omega)
    · next harray =>
      obtain ⟨hnotArray, hnotSet⟩ := not_or.mp harray
      split
      · next hdict =>
        have hshape := hobject.trans (hst.dict_eq_shapeOf hreads.refSize.1 hdict).symm
        cases hat : c.dictAt env off (m.toNat % 16) with
        | none =>
          rw [hat] at hshape
          rw [getOr_none_bind, decode_none hshape]
          exact metered_fail () _
        | some p =>
          obtain ⟨count, keys, vals⟩ := p
          rw [hat, Option.map_some] at hshape
          rw [getOr_some_bind]
          generalize hentries : (refsOf c.refSize count (c.payload.drop keys)).zip
            (refsOf c.refSize count (c.payload.drop vals)) = entries at hshape
          obtain ⟨hvals, hfit⟩ : vals = keys + count * c.refSize ∧
            vals + count * c.refSize ≤ c.payload.length := dictAt_fits hat
          have hlen : entries.length = count := by
            rw [← hentries, List.length_zip, length_refsOf, length_refsOf, Nat.min_self]
          have hexpansion : expansion object (d + 1) i = 1 +
              (entries.map fun p => expansion object d p.1 + expansion object d p.2).sum := by
            rw [expansion, hshape]
          have hcost : env.cost object (d + 1) i = count * env.entrySize +
              (entries.map fun p => env.cost object d p.1 + env.cost object d p.2).sum := by
            rw [← hlen, Env.cost, cost, hshape]
          have hsplit : (expansion object (d + 1) i - 1, env.cost object (d + 1) i) =
              (0, count * env.entrySize) +
                (((entries.map fun p => expansion object d p.1 + expansion object d p.2).sum,
                  (entries.map fun p => env.cost object d p.1 + env.cost object d p.2).sum) +
                  0) := by
            rw [hexpansion, hcost, Nat.add_sub_cancel_left, add_zero, Prod.mk_add_mk, zero_add]
          have hdouble : env.mul count 2 = some (count * 2) := by
            have hroom := hreads.room
            have hmul := Nat.le_mul_of_pos_right count hreads.refSize.1
            exact Env.usize_of_le (by omega)
          rw [(decode_dict hshape).trans Option.map_eq_bind, hsplit]
          dsimp only
          rw [hdouble, getOr_some_bind]
          refine Metered.guard (takes_elements count env.entrySize
            (Metered.bind (takes_dict hreads ih (by omega) hfit hentries.symm)
              fun out _ => metered_pure (PlistValue.dict out))) fun t _ hsome hle => ?_
          rw [← Option.map_eq_bind, Option.isSome_map] at hsome
          have hmany := length_le_of_decodeEntry hsome
          rw [← hsplit] at hle
          have hnodes : expansion object (d + 1) i - 1 ≤ t.1.nodes := hle.1
          exact decide_eq_true (by omega)
      · next hdict =>
        have hshape := hobject.trans
          (hst.leaf_eq_shapeOf hreads.room hnotArray hnotSet hdict).symm
        cases hat : c.leafAt env off m.toNat with
        | none =>
          rw [hat] at hshape
          rw [decode_none hshape, Ctx.readLeaf, hat, getOr_none_bind]
          exact metered_fail () _
        | some p =>
          obtain ⟨v, a⟩ := p
          rw [hat, Option.map_some] at hshape
          have hexpansion : expansion object (d + 1) i = 1 := by
            rw [expansion, hshape]
          have hcost : env.cost object (d + 1) i = a.getD 0 := by
            rw [Env.cost, cost, hshape]
          rw [decode_leaf hshape, hexpansion, hcost]
          exact takes_readLeaf hat

end Zencodec.Bplist
