/-
Computations that change a state and may fail.

`Act σ ε α` runs on a state `σ` and ends with a value or an error, always with the state it
reached: an error does not undo what was done before it. `Spec x Q E s` says how `x` ends
when it starts in `s`: with a value and a state in `Q`, or with an error and a state in `E`.

* the simp set `spec_pure`, `spec_bind`, … unfolds a `Spec` along the computation;
* `Spec.mono` applies the specification of a part;
* `spec_each` and `spec_each_range` are the invariant rules of loops;
* `Keeps x P` says that `x` keeps an invariant however it ends, with a rule for each construct;
* `Ensures x P` says that every value of `x` is in `P`, from any state;
* `spec_focus` moves a specification from a part of the state to the whole.
-/
import Mathlib.Data.List.Forall2

/-- A computation on a state `σ` that returns an `α` or fails with an `ε`. -/
def Act (σ ε α : Type) : Type := σ → Except ε α × σ

namespace Act

variable {σ τ ε δ α β : Type}

/-! ### Computations -/

protected def pure (a : α) : Act σ ε α := fun s => (.ok a, s)

protected def bind (x : Act σ ε α) (f : α → Act σ ε β) : Act σ ε β := fun s =>
  match x s with
  | (.ok a, s) => f a s
  | (.error e, s) => (.error e, s)

instance instMonad : Monad (Act σ ε) where
  pure := Act.pure
  bind := Act.bind

def fail (e : ε) : Act σ ε α := fun s => (.error e, s)

def get : Act σ ε σ := fun s => (.ok s, s)

def modify (f : σ → σ) : Act σ ε Unit := fun s => (.ok (), f s)

/-- What a foreign function does. -/
def foreign (f : σ → Except ε α × σ) : Act σ ε α := f

/-- A result that is already there. -/
def lift (r : Except ε α) : Act σ ε α := fun s => (r, s)

/-- Fail with `e` unless `c` holds. -/
def require (c : Bool) (e : ε) : Act σ ε Unit := if c then Act.pure () else fail e

/-- The value of an option, or the error `e`. -/
def getOr (o : Option α) (e : ε) : Act σ ε α :=
  match o with
  | some a => Act.pure a
  | none => fail e

def mapError (f : δ → ε) (x : Act σ δ α) : Act σ ε α := fun s => ((x s).1.mapError f, (x s).2)

/-- Change the state by `undo` when `x` fails. -/
def onError (undo : σ → σ) (x : Act σ ε α) : Act σ ε α := fun s =>
  match x s with
  | (.ok a, s) => (.ok a, s)
  | (.error e, s) => (.error e, undo s)

/-- `x` with its error as a value. -/
def attempt (x : Act σ δ α) : Act σ ε (Except δ α) := fun s => (.ok (x s).1, (x s).2)

/-- `x` on a part of the state. -/
def focus (get : τ → σ) (set : σ → τ → τ) (x : Act σ ε α) : Act τ ε α := fun t =>
  ((x (get t)).1, set (x (get t)).2 t)

/-- `x` with a variable of its own, which starts as `v` and is returned. -/
def withLocal (v : τ) (x : Act (τ × σ) ε α) : Act σ ε (α × τ) := fun s =>
  ((x (v, s)).1.map fun a => (a, (x (v, s)).2.1), (x (v, s)).2.2)

/-- `f` on each element, in order, until one fails. -/
def each (f : α → Act σ ε Unit) : List α → Act σ ε Unit
  | [] => Act.pure ()
  | a :: l => Act.bind (f a) fun _ => each f l

/-- The values of `f` on each element, in order, until one fails. -/
def collect {β : Type} (f : β → Act σ ε α) : List β → Act σ ε (List α)
  | [] => Act.pure []
  | b :: l => Act.bind (f b) fun a => Act.bind (collect f l) fun rest => Act.pure (a :: rest)

/-! ### Specifications -/

/-- How `x` ends when it starts in `s`. -/
def Spec (x : Act σ ε α) (Q : α → σ → Prop) (E : ε → σ → Prop) (s : σ) : Prop :=
  match x s with
  | (.ok a, s) => Q a s
  | (.error e, s) => E e s

variable {Q : α → σ → Prop} {E : ε → σ → Prop} {s : σ}

@[simp] theorem spec_pure (a : α) : Spec (pure a : Act σ ε α) Q E s ↔ Q a s := Iff.rfl

@[simp] theorem spec_actPure (a : α) : Spec (Act.pure a : Act σ ε α) Q E s ↔ Q a s := Iff.rfl

@[simp] theorem spec_actBind (x : Act σ ε β) (f : β → Act σ ε α) :
    Spec (Act.bind x f) Q E s ↔ Spec x (fun b t => Spec (f b) Q E t) E s := by
  unfold Spec Act.bind
  obtain ⟨r, t⟩ := x s
  cases r <;> exact Iff.rfl

@[simp] theorem spec_bind (x : Act σ ε β) (f : β → Act σ ε α) :
    Spec (x >>= f) Q E s ↔ Spec x (fun b t => Spec (f b) Q E t) E s :=
  spec_actBind x f

@[simp] theorem spec_fail (e : ε) : Spec (fail e : Act σ ε α) Q E s ↔ E e s := Iff.rfl

@[simp] theorem spec_get {Q : σ → σ → Prop} : Spec (get : Act σ ε σ) Q E s ↔ Q s s := Iff.rfl

@[simp] theorem spec_modify (f : σ → σ) {Q : Unit → σ → Prop} :
    Spec (modify f : Act σ ε Unit) Q E s ↔ Q () (f s) := Iff.rfl

theorem spec_lift (r : Except ε α) :
    Spec (lift r) Q E s ↔ (∀ a, r = .ok a → Q a s) ∧ ∀ e, r = .error e → E e s := by
  unfold Spec lift
  cases r <;> simp

theorem spec_require (c : Bool) (e : ε) {Q : Unit → σ → Prop} :
    Spec (require c e) Q E s ↔ (c = true → Q () s) ∧ (c = false → E e s) := by
  cases c <;> simp [require]

theorem spec_getOr (o : Option α) (e : ε) :
    Spec (getOr o e) Q E s ↔ (∀ a, o = some a → Q a s) ∧ (o = none → E e s) := by
  cases o <;> simp [getOr]

theorem spec_getOr_some (a : α) (e : ε) : Spec (getOr (some a) e) Q E s ↔ Q a s := Iff.rfl

theorem spec_getOr_none (e : ε) : Spec (getOr none e : Act σ ε α) Q E s ↔ E e s := Iff.rfl

@[simp] theorem spec_mapError (f : δ → ε) (x : Act σ δ α) :
    Spec (mapError f x) Q E s ↔ Spec x Q (fun e => E (f e)) s := by
  unfold Spec mapError
  obtain ⟨r, t⟩ := x s
  cases r <;> exact Iff.rfl

@[simp] theorem spec_onError (undo : σ → σ) (x : Act σ ε α) :
    Spec (onError undo x) Q E s ↔ Spec x Q (fun e t => E e (undo t)) s := by
  unfold Spec onError
  obtain ⟨r, t⟩ := x s
  cases r <;> exact Iff.rfl

theorem spec_attempt (x : Act σ δ α) {Q : Except δ α → σ → Prop} :
    Spec (attempt x) Q E s ↔ Spec x (fun a => Q (.ok a)) (fun e => Q (.error e)) s := by
  unfold Spec attempt
  obtain ⟨r, t⟩ := x s
  cases r <;> exact Iff.rfl

@[simp] theorem spec_focus (get : τ → σ) (set : σ → τ → τ) (x : Act σ ε α)
    {Q : α → τ → Prop} {E : ε → τ → Prop} {t : τ} :
    Spec (focus get set x) Q E t ↔
      Spec x (fun a s => Q a (set s t)) (fun e s => E e (set s t)) (get t) := by
  unfold Spec focus
  obtain ⟨r, s⟩ := x (get t)
  cases r <;> exact Iff.rfl

@[simp] theorem spec_withLocal (v : τ) (x : Act (τ × σ) ε α) {Q : α × τ → σ → Prop} :
    Spec (withLocal v x) Q E s ↔
      Spec x (fun a p => Q (a, p.1) p.2) (fun e p => E e p.2) (v, s) := by
  unfold Spec withLocal
  obtain ⟨r, v', t⟩ := x (v, s)
  cases r <;> exact Iff.rfl

theorem spec_ite (c : Prop) [Decidable c] (x y : Act σ ε α) :
    Spec (if c then x else y) Q E s ↔ (c → Spec x Q E s) ∧ (¬c → Spec y Q E s) := by
  by_cases hc : c <;> simp [hc]

theorem bind_of_ok {x : Act σ ε β} {f : β → Act σ ε α} {b : β} {t : σ} (h : x s = (.ok b, t)) :
    (x >>= f) s = f b t := by
  show Act.bind x f s = f b t
  unfold Act.bind
  rw [h]

theorem bind_of_error {x : Act σ ε β} {f : β → Act σ ε α} {e : ε} {t : σ}
    (h : x s = (.error e, t)) : (x >>= f) s = (.error e, t) := by
  show Act.bind x f s = (.error e, t)
  unfold Act.bind
  rw [h]

theorem getOr_some_bind (b : β) (e : ε) (f : β → Act σ ε α) : getOr (some b) e >>= f = f b := rfl

theorem getOr_none_bind (e : ε) (f : β → Act σ ε α) : getOr none e >>= f = fail e := rfl

/-- A value of a sequence was computed from a value of its first part. -/
theorem ok_of_bind {x : Act σ ε β} {f : β → Act σ ε α} {a : α} (h : ((x >>= f) s).1 = .ok a) :
    ∃ b, (x s).1 = .ok b ∧ (f b (x s).2).1 = .ok a := by
  generalize hrun : x s = run
  obtain ⟨r, t⟩ := run
  cases r with
  | ok b => exact ⟨b, rfl, by rwa [bind_of_ok hrun] at h⟩
  | error e =>
    rw [bind_of_error hrun] at h
    cases h

/-- The rule of consequence. -/
theorem Spec.mono {x : Act σ ε α} {Q' : α → σ → Prop} {E' : ε → σ → Prop}
    (h : Spec x Q E s) (hQ : ∀ a t, Q a t → Q' a t) (hE : ∀ e t, E e t → E' e t) :
    Spec x Q' E' s := by
  unfold Spec at h ⊢
  generalize x s = p at h
  obtain ⟨r, t⟩ := p
  cases r with
  | ok a => exact hQ a t h
  | error e => exact hE e t h

/-- What a run answered and reached, read off its specification. -/
theorem Spec.run {x : Act σ ε α} (h : Spec x Q E s) :
    (∀ a, (x s).1 = .ok a → Q a (x s).2) ∧ ∀ e, (x s).1 = .error e → E e (x s).2 := by
  unfold Spec at h
  generalize x s = p at h
  obtain ⟨r, t⟩ := p
  cases r with
  | ok a => exact ⟨fun b hb => Except.ok.inj hb ▸ h, fun e he => by cases he⟩
  | error e => exact ⟨fun b hb => (by cases hb), fun e' he => Except.error.inj he ▸ h⟩

/-- What holds either way holds of the state reached. -/
theorem Spec.state {x : Act σ ε α} {P : σ → Prop} (h : Spec x (fun _ => P) (fun _ => P) s) :
    P (x s).2 := by
  have hrun := h.run
  cases hr : (x s).1 with
  | ok a => exact hrun.1 a hr
  | error e => exact hrun.2 e hr

theorem spec_of_run {x : Act σ ε α} (hok : ∀ a, (x s).1 = .ok a → Q a (x s).2)
    (herr : ∀ e, (x s).1 = .error e → E e (x s).2) : Spec x Q E s := by
  unfold Spec
  generalize x s = p at hok herr
  obtain ⟨r, t⟩ := p
  cases r with
  | ok a => exact hok a rfl
  | error e => exact herr e rfl

theorem spec_of_eq {x : Act σ ε α} {t : σ} {a : α} (h : x s = (.ok a, t)) (hQ : Q a t) :
    Spec x Q E s := by
  unfold Spec
  rw [h]
  exact hQ

/-- The rule of a loop that collects values. -/
theorem spec_collect {f : β → Act σ ε α} {P : β → α → Prop} {l : List β}
    (h : ∀ b ∈ l, ∀ t, Spec (f b) (fun a _ => P b a) E t) :
    Spec (collect f l) (fun as _ => List.Forall₂ P l as) E s := by
  induction l generalizing s with
  | nil => exact .nil
  | cons b l ih =>
    simp only [collect, spec_actBind, spec_actPure]
    refine (h b List.mem_cons_self s).mono (fun a t ha => ?_) fun _ _ he => he
    refine (ih fun c hc => h c (List.mem_cons_of_mem _ hc)).mono (fun as _ has => ?_)
      fun _ _ he => he
    exact .cons ha has

/-- The invariant rule of a loop: `I rest` holds before the iterations over `rest`. -/
theorem spec_each {f : α → Act σ ε Unit} (I : List α → σ → Prop)
    (hstep : ∀ a rest t, I (a :: rest) t → Spec (f a) (fun _ => I rest) E t)
    {l : List α} (h : I l s) : Spec (each f l) (fun _ => I []) E s := by
  induction l generalizing s with
  | nil => exact h
  | cons a l ih =>
    simp only [each, spec_actBind]
    exact (hstep a l s h).mono (fun _ t ht => ih ht) (fun _ _ he => he)

/-- The invariant rule of a loop over the numbers below `n`. -/
theorem spec_each_range {f : ℕ → Act σ ε Unit} (I : ℕ → σ → Prop) {n : ℕ}
    (hstep : ∀ i < n, ∀ t, I i t → Spec (f i) (fun _ => I (i + 1)) E t) (h : I 0 s) :
    Spec (each f (List.range n)) (fun _ => I n) E s := by
  -- the numbers from `k` on are left when `I k` holds
  have hloop := spec_each (fun rest t => ∃ k, rest = List.range' k (n - k) ∧ k ≤ n ∧ I k t)
    (f := f) (E := E) (s := s) (l := List.range n) ?_ ⟨0, by rw [List.range_eq_range', Nat.sub_zero],
      Nat.zero_le n, h⟩
  · refine hloop.mono (fun _ t ht => ?_) fun _ _ he => he
    obtain ⟨k, hrest, hk, hI⟩ := ht
    have hlen := congrArg List.length hrest
    rw [List.length_nil, List.length_range'] at hlen
    rwa [show n = k by omega]
  · intro a rest t ht
    obtain ⟨k, hrest, hk, hI⟩ := ht
    have hlen := congrArg List.length hrest
    rw [List.length_cons, List.length_range'] at hlen
    rw [show n - k = (n - (k + 1)) + 1 by omega, List.range'_succ] at hrest
    obtain ⟨rfl, rfl⟩ := List.cons.inj hrest
    exact (hstep a (by omega) t hI).mono (fun _ t' ht' => ⟨a + 1, rfl, by omega, ht'⟩)
      fun _ _ he => he

/-! ### Invariants -/

/-- `x` keeps `P`, whether it ends with a value or an error. -/
def Keeps (x : Act σ ε α) (P : σ → Prop) : Prop :=
  ∀ s, P s → Spec x (fun _ => P) (fun _ => P) s

section Keeps

variable {P : σ → Prop}

theorem keeps_pure (a : α) : Keeps (pure a : Act σ ε α) P := fun _ h => h

theorem keeps_fail (e : ε) : Keeps (fail e : Act σ ε α) P := fun _ h => h

theorem keeps_get : Keeps (get : Act σ ε σ) P := fun _ h => h

theorem keeps_lift (r : Except ε α) : Keeps (lift r) P :=
  fun s h => (spec_lift r (s := s)).mpr ⟨fun _ _ => h, fun _ _ => h⟩

theorem keeps_require (c : Bool) (e : ε) : Keeps (require c e : Act σ ε Unit) P :=
  fun s h => (spec_require c e (s := s)).mpr ⟨fun _ => h, fun _ => h⟩

theorem keeps_getOr (o : Option α) (e : ε) : Keeps (getOr o e : Act σ ε α) P :=
  fun s h => (spec_getOr o e (s := s)).mpr ⟨fun _ _ => h, fun _ => h⟩

theorem keeps_modify {f : σ → σ} (hf : ∀ s, P s → P (f s)) :
    Keeps (modify f : Act σ ε Unit) P := hf

theorem Keeps.bind {x : Act σ ε β} {f : β → Act σ ε α} (hx : Keeps x P)
    (hf : ∀ b, Keeps (f b) P) : Keeps (x >>= f) P := by
  intro s h
  rw [spec_bind]
  exact (hx s h).mono (fun b t ht => hf b t ht) (fun _ _ ht => ht)

theorem keeps_ite (c : Prop) [Decidable c] {x y : Act σ ε α} (hx : Keeps x P) (hy : Keeps y P) :
    Keeps (if c then x else y) P := by
  by_cases hc : c
  · rwa [if_pos hc]
  · rwa [if_neg hc]

end Keeps

/-! ### Values -/

/-- Every value that `x` ends with is in `P`, whatever state it starts in. -/
def Ensures (x : Act σ ε α) (P : α → Prop) : Prop := ∀ s a, (x s).1 = .ok a → P a

variable {P : α → Prop}

theorem ensures_pure {a : α} (h : P a) : Ensures (pure a : Act σ ε α) P := by
  intro _ b hb
  exact Except.ok.inj hb ▸ h

theorem ensures_fail (e : ε) : Ensures (fail e : Act σ ε α) P := by
  intro _ b hb
  cases hb

theorem ensures_getOr {o : Option α} {e : ε} (h : ∀ a, o = some a → P a) :
    Ensures (getOr o e : Act σ ε α) P := by
  cases o with
  | some a => exact ensures_pure (h a rfl)
  | none => exact ensures_fail e

theorem ensures_require (c : Bool) (e : ε) :
    Ensures (require c e : Act σ ε Unit) fun _ => c = true := by
  cases c with
  | true => exact ensures_pure rfl
  | false => exact ensures_fail e

theorem Ensures.bind {x : Act σ ε β} {f : β → Act σ ε α} {R : β → Prop} (hx : Ensures x R)
    (hf : ∀ b, R b → Ensures (f b) P) : Ensures (x >>= f) P := by
  intro s a ha
  obtain ⟨b, hb, hfb⟩ := ok_of_bind ha
  exact hf b (hx s b hb) _ a hfb

/-- A part of whose value nothing is needed. -/
theorem ensures_skip {x : Act σ ε β} {f : β → Act σ ε α} (hf : ∀ b, Ensures (f b) P) :
    Ensures (x >>= f) P :=
  Ensures.bind (R := fun _ => True) (fun _ _ _ => trivial) fun b _ => hf b

theorem Ensures.mono {R : α → Prop} {x : Act σ ε α} (h : Ensures x R)
    (hP : ∀ a, R a → P a) : Ensures x P :=
  fun s a ha => hP a (h s a ha)

/-- Only the values that `x` can end with matter to what comes after it. -/
theorem Ensures.bind_congr {x : Act σ ε β} {f g : β → Act σ ε α} {R : β → Prop}
    (hx : Ensures x R) (h : ∀ b, R b → f b = g b) : x >>= f = x >>= g := by
  funext s
  obtain ⟨r, t, hrun⟩ : ∃ r t, x s = (r, t) := ⟨_, _, rfl⟩
  cases r with
  | ok b =>
    have hb : R b := hx s b (by rw [hrun])
    rw [bind_of_ok hrun, bind_of_ok hrun, h b hb]
  | error e => rw [bind_of_error hrun, bind_of_error hrun]

theorem ensures_ite (c : Prop) [Decidable c] {x y : Act σ ε α} (hx : c → Ensures x P)
    (hy : ¬c → Ensures y P) : Ensures (if c then x else y) P := by
  by_cases hc : c
  · rw [if_pos hc]
    exact hx hc
  · rw [if_neg hc]
    exact hy hc

end Act
