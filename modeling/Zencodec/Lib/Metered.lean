/-
Computations that pay for what they do.

The state holds an amount `left s`, of which a computation takes what it costs. `Metered x o c`
says that `x` has the value `o` and costs `c`: where it ends with a value, that is the one of
`o`, and `c` was paid; where it fails, `o` has no value or `c` is more than was left. A failure
that has neither cause needs a foreign call that did not succeed (`calm` is false).

There is one rule for each construct, and the costs add up along the computation.
-/
import Mathlib.Algebra.BigOperators.Group.List.Basic
import Mathlib.Algebra.Order.Monoid.Canonical.Defs
import Mathlib.Data.List.Basic
import Zencodec.Lib.Act

namespace Act

variable {σ ε α β γ C : Type} [AddCommMonoid C] [PartialOrder C]

/-- What a computation of value `o` and cost `c` leaves when it ends with `a`. -/
structure Paid (left : σ → C) (P : σ → Prop) (o : Option α) (c : C) (s : σ) (a : α) (t : σ) :
    Prop where
  keeps : P t
  value : o = some a
  paid : left s = left t + c

/-- `x` has the value `o` and costs `c`, in the states of `P`. -/
def Metered (left : σ → C) (P : σ → Prop) (calm : Prop) (x : Act σ ε α) (o : Option α) (c : C) :
    Prop :=
  ∀ s, P s → Spec x (Paid left P o c s) (fun _ _ => calm → o.isSome → ¬ c ≤ left s) s

variable {left : σ → C} {P : σ → Prop} {calm : Prop}

theorem metered_pure (a : α) : Metered left P calm (pure a : Act σ ε α) (some a) 0 :=
  fun _ hs => ⟨hs, rfl, (add_zero _).symm⟩

theorem metered_fail (e : ε) (c : C) : Metered left P calm (fail e : Act σ ε α) none c :=
  fun _ _ _ hsome => by cases hsome

theorem metered_getOr (o : Option α) (e : ε) :
    Metered left P calm (getOr o e : Act σ ε α) o 0 := by
  cases o with
  | some a => exact metered_pure a
  | none => exact metered_fail e 0

/-- What a computation without a value costs does not matter. -/
theorem Metered.of_none {x : Act σ ε α} {c : C} (hx : Metered left P calm x none c) (d : C) :
    Metered left P calm x none d :=
  fun s hs => (hx s hs).mono (fun _ _ ht => by cases ht.value) fun _ _ _ _ hsome => by cases hsome

/-- A test that never refuses what can be paid for. -/
theorem Metered.guard {x : Act σ ε α} {o : Option α} {c : C} {p : σ → Bool} {e : ε}
    (hx : Metered left P calm x o c)
    (hp : ∀ s, P s → o.isSome → c ≤ left s → p s = true) :
    Metered left P calm (get >>= fun s => require (p s) e >>= fun _ => x) o c := by
  intro s hs
  rw [spec_bind, spec_get, spec_bind, spec_require]
  refine ⟨fun _ => hx s hs, fun hfalse _ hsome hle => ?_⟩
  rw [hp s hs hsome hle] at hfalse
  cases hfalse

section Sequence

variable [IsOrderedCancelAddMonoid C] [CanonicallyOrderedAdd C]

theorem Metered.bind {x : Act σ ε α} {f : α → Act σ ε β} {o : Option α} {g : α → Option β}
    {c d : C} (hx : Metered left P calm x o c)
    (hf : ∀ a, o = some a → Metered left P calm (f a) (g a) d) :
    Metered left P calm (x >>= f) (o.bind g) (c + d) := by
  intro s hs
  rw [spec_bind]
  refine (hx s hs).mono (fun a t ht => ?_) (fun e _ hfail hcalm hsome hle => ?_)
  · refine (hf a ht.value t ht.keeps).mono (fun b u hu => ⟨hu.keeps, ?_, ?_⟩)
      (fun _ _ hfail hcalm hsome hle => ?_)
    · rw [ht.value, Option.bind_some, hu.value]
    · rw [ht.paid, hu.paid, add_assoc, add_comm d c]
    · -- What the first part leaves is too little for the second.
      rw [ht.value, Option.bind_some] at hsome
      rw [ht.paid, add_comm c d] at hle
      exact hfail hcalm hsome (le_of_add_le_add_right hle)
  · obtain ⟨b, hb⟩ := Option.isSome_iff_exists.mp hsome
    obtain ⟨a, ha, -⟩ := Option.bind_eq_some_iff.mp hb
    exact hfail hcalm (by rw [ha]; rfl) (le_self_add.trans hle)

theorem Metered.bind_some {x : Act σ ε α} {f : α → Act σ ε β} {a : α} {o : Option β} {c d : C}
    (hx : Metered left P calm x (some a) c) (hf : Metered left P calm (f a) o d) :
    Metered left P calm (x >>= f) o (c + d) :=
  hx.bind (g := fun _ => o) fun _ hb => Option.some_inj.mp hb ▸ hf

theorem Metered.bind_none {x : Act σ ε α} {f : α → Act σ ε β} {c : C}
    (hx : Metered left P calm x none c) (d : C) :
    Metered left P calm (x >>= f) none d :=
  (hx.bind (g := fun _ => none) (d := 0) fun _ hb => by cases hb).of_none d

theorem metered_collect {f : β → Act σ ε α} {g : β → Option α} {c : β → C} {l : List β}
    (h : ∀ b ∈ l, Metered left P calm (f b) (g b) (c b)) :
    Metered left P calm (collect f l) (l.mapM g) (l.map c).sum := by
  induction l with
  | nil => exact metered_pure []
  | cons b l ih =>
    have hrest := ih fun b' hb' => h b' (List.mem_cons_of_mem _ hb')
    have hsum : ((b :: l).map c).sum = c b + ((l.map c).sum + 0) := by
      rw [List.map_cons, List.sum_cons, add_zero]
    rw [List.mapM_cons, hsum]
    exact (h b List.mem_cons_self).bind fun a _ => hrest.bind fun rest _ => metered_pure _

end Sequence

end Act
