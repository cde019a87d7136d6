/-
Reading a list of bytes through a cursor.

`Cursor ε α` reads `data` from an offset on, and answers with a value and the offset
behind it, or with an error.  `Reads x bs r` is its specification by the bytes alone:
wherever `bs` stands, `x` has the outcome `r`, and a value leaves the cursor behind `bs`.

* `Reads.bind` — readers in sequence read the concatenation, errors included;
* `Reads.foldlM` — so does a loop;
* `Reads.run` — what a reader does with a whole input that starts with its bytes.
-/
import Zencodec.Lib.Slices

namespace Slices

/-- A reader of bytes at a cursor. -/
def Cursor (ε α : Type) : Type := Bytes → ℕ → Except ε (α × ℕ)

namespace Cursor

variable {ε α β σ ι : Type}

protected def pure (a : α) : Cursor ε α := fun _ o => .ok (a, o)

protected def bind (x : Cursor ε α) (f : α → Cursor ε β) : Cursor ε β := fun data o =>
  match x data o with
  | .ok (a, o) => f a data o
  | .error e => .error e

instance instMonadCursor : Monad (Cursor ε) where
  pure := Cursor.pure
  bind := Cursor.bind

/-- Ends the reading with an error. -/
def fail (e : ε) : Cursor ε α := fun _ _ => .error e

/-- The value that is read, without the cursor. -/
def run (x : Cursor ε α) (data : Bytes) (o : ℕ) : Except ε α := (x data o).map Prod.fst

/-- Wherever `bs` stands, `x` has the outcome `r`. -/
def Reads (x : Cursor ε α) (bs : Bytes) (r : Except ε α) : Prop :=
  ∀ data o, HasAt data o bs → x data o = r.map fun a => (a, o + bs.length)

variable {x : Cursor ε α} {bs bs' : Bytes} {r : Except ε α}

theorem reads_pure (a : α) : Reads (pure a : Cursor ε α) [] (.ok a) := fun _ _ _ => rfl

theorem reads_fail (e : ε) : Reads (fail e : Cursor ε α) [] (.error e) := fun _ _ _ => rfl

/-- Two readers in sequence. -/
theorem Reads.bind {f : α → Cursor ε β} {g : α → Except ε β} (hx : Reads x bs r)
    (hf : ∀ a, r = .ok a → Reads (f a) bs' (g a)) :
    Reads (x >>= f) (bs ++ bs') (r >>= g) := by
  intro data o hat
  obtain ⟨hfirst, hsecond⟩ := hasAt_append.mp hat
  have hread := hx data o hfirst
  show Cursor.bind x f data o = _
  unfold Cursor.bind
  cases r with
  | error e =>
    rw [hread]
    rfl
  | ok a =>
    have hrest := hf a rfl data (o + bs.length) hsecond
    rw [hread]
    show f a data (o + bs.length) = (g a).map _
    rw [hrest, List.length_append, Nat.add_assoc]

/-- A value that is known goes on to the next reader. -/
theorem Reads.bind_ok {f : α → Cursor ε β} {a : α} {r : Except ε β} (hx : Reads x bs (.ok a))
    (hf : Reads (f a) bs' r) : Reads (x >>= f) (bs ++ bs') r := by
  refine hx.bind (g := fun _ => r) fun a' ha' => ?_
  obtain rfl := Except.ok.inj ha'
  exact hf

/-- A reader whose value is only passed on. -/
theorem Reads.map {f : α → β} (hx : Reads x bs r) :
    Reads (x >>= fun a => pure (f a)) bs (r.map f) := by
  intro data o hat
  have hread := hx data o hat
  show Cursor.bind x _ data o = _
  unfold Cursor.bind
  rw [hread]
  cases r <;> rfl

/-- A reader that fails behind `bs` fails however the bytes go on. -/
theorem Reads.error_append {e : ε} (hx : Reads x bs (.error e)) (bs' : Bytes) :
    Reads x (bs ++ bs') (.error e) :=
  fun data o hat => hx data o (hasAt_append.mp hat).1

/-- A loop reads the bytes of its turns. -/
theorem Reads.foldlM {f : σ → ι → Cursor ε σ} {g : σ → ι → Except ε σ} {enc : ι → Bytes}
    (l : List ι) (h : ∀ i ∈ l, ∀ s, Reads (f s i) (enc i) (g s i)) (s : σ) :
    Reads (l.foldlM f s) (l.flatMap enc) (l.foldlM g s) := by
  induction l generalizing s with
  | nil => exact reads_pure s
  | cons i l ih =>
    rw [List.foldlM_cons, List.foldlM_cons, List.flatMap_cons]
    refine (h i List.mem_cons_self s).bind fun s' _ => ?_
    exact ih (fun j hj => h j (List.mem_cons_of_mem i hj)) s'

/-- What is read of an input in which the bytes stand. -/
theorem Reads.run {data : Bytes} {o : ℕ} (hx : Reads x bs r) (hat : HasAt data o bs) :
    x.run data o = r := by
  unfold Cursor.run
  rw [hx data o hat]
  cases r <;> rfl

end Cursor

end Slices
