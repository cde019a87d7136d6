/-
`StorageBudget`: two shared counters, and the owners of the storage they charge.

The threads `ι` share one budget. A reservation is a sequence of atomic steps: a
compare-and-swap loop on the object counter, one on the byte counter, and a decrement of the
first when the second refuses. A release decrements the byte counter, then the object
counter. `Pc` is where a thread stands in its operation, and `step` lets one thread take one
atomic step or start an operation, so that a run under any schedule is a list of
`ι × Action`. An action that its thread cannot take changes nothing.
-/
import Mathlib.Algebra.Ring.Nat
import Mathlib.Data.Fintype.Basic
import Mathlib.Logic.Function.Basic

namespace Zencodec.Storage

/-- The limits of a budget, in `usize`s of `bits` bits. -/
structure Limits where
  bits : ℕ
  maxBytes : ℕ
  maxObjects : ℕ
  maxBytes_lt : maxBytes < 2 ^ bits
  maxObjects_lt : maxObjects < 2 ^ bits

inductive StorageError where
  | sizeOverflow
  | objects (limit : ℕ)
  | bytes (requested limit : ℕ)
  | allocation
  | capacity (admitted actual : ℕ)
  | range
  deriving DecidableEq, Repr

/-! ### Charges and their owners -/

/-- The part of an allocation that one owner sees, in elements. -/
structure View where
  start : ℕ
  stop : ℕ
  deriving DecidableEq, Repr

/-- What owns a charge: a `PreparedStorage`, an `OwnedStorage`, or the `SharedStorage`s
behind one `Arc` with its strong count. -/
inductive Holder where
  | prepared
  | owned
  | shared (strong : ℕ)
  deriving DecidableEq, Repr

/-- A reservation of `bytes` for `len` elements of `size` bytes, with the owners alive. -/
structure Charge where
  len : ℕ
  size : ℕ
  bytes : ℕ
  holder : Holder
  owners : List View
  deriving DecidableEq, Repr

/-! ### Threads -/

/-- What is asked of `reserve`. -/
structure Request where
  len : ℕ
  size : ℕ
  bytes : ℕ
  deriving DecidableEq, Repr

/-- How a thread's last operation ended. -/
inductive Outcome where
  | fresh
  | refused (e : StorageError)
  | granted (id bytes : ℕ)
  | finished
  deriving DecidableEq, Repr

/-- Where a thread stands: the atomic step it takes next. -/
inductive Pc where
  | idle (last : Outcome)
  | loadObjects (req : Request)
  | casObjects (req : Request) (current : ℕ)
  | loadBytes (req : Request)
  | casBytes (req : Request) (current : ℕ)
  | rollback (req : Request)
  | releaseBytes (id bytes : ℕ) (last : Outcome)
  | releaseObject (id : ℕ) (last : Outcome)
  deriving DecidableEq, Repr

def Pc.isIdle : Pc → Bool
  | .idle _ => true
  | _ => false

/-- The shared state and the threads. Charges are numbered in the order of admission. -/
structure Store (ι : Type) where
  objects : ℕ
  bytes : ℕ
  next : ℕ
  charges : ℕ → Option Charge
  pc : ι → Pc

/-- `StorageBudget::new`, with every thread idle. -/
def Store.new (ι : Type) : Store ι := ⟨0, 0, 0, fun _ => none, fun _ => .idle .fresh⟩

/-- What an idle thread may start, or `advance` to take the next atomic step. A weak
compare-and-swap may fail for no reason; a drop names the owner that goes. -/
inductive Action where
  | prepare (len size : ℕ)
  | advance (spurious : Bool)
  | allocate (id : ℕ) (capacity : Option ℕ)
  | freeze (id : ℕ)
  | clone (id owner : ℕ)
  | slice (id owner start stop : ℕ)
  | drop (id owner : ℕ)
  deriving DecidableEq, Repr

/-- What a step did to the counters. -/
inductive Event where
  | quiet
  | tookObject
  | tookBytes (id bytes : ℕ)
  | gaveBackObject
  | releasedBytes (id bytes : ℕ)
  | releasedObject (id : ℕ)
  deriving DecidableEq, Repr

variable {ι : Type} [DecidableEq ι]

namespace Store

def goto (s : Store ι) (i : ι) (p : Pc) : Store ι := { s with pc := Function.update s.pc i p }

def setCharge (s : Store ι) (id : ℕ) (c : Option Charge) : Store ι :=
  { s with charges := Function.update s.charges id c }

/-! ### The counters -/

/-- `current.checked_add(amount).filter(|n| *n <= limit)`. -/
def admitted (bits current amount limit : ℕ) : Bool :=
  decide (current + amount < 2 ^ bits) && decide (current + amount ≤ limit)

/-- `fetch_sub`, which wraps. -/
def fetchSub (bits counter amount : ℕ) : ℕ := (counter + 2 ^ bits - amount) % 2 ^ bits

/-- The first loop of `reserve` with a value of the object counter at hand. -/
def tryObjects (limits : Limits) (req : Request) (current : ℕ) : Pc :=
  if admitted limits.bits current 1 limits.maxObjects then .casObjects req current
  else .idle (.refused (.objects limits.maxObjects))

/-- The second loop with a value of the byte counter at hand. -/
def tryBytes (limits : Limits) (req : Request) (current : ℕ) : Pc :=
  if admitted limits.bits current req.bytes limits.maxBytes then .casBytes req current
  else .rollback req

/-- The charge of a reservation that succeeded. -/
def grant (s : Store ι) (i : ι) (req : Request) : Store ι :=
  { s.setCharge s.next (some ⟨req.len, req.size, req.bytes, .prepared, [⟨0, req.len⟩]⟩) with
    next := s.next + 1 }.goto i (.idle (.granted s.next req.bytes))

/-- The next atomic step of the operation that thread `i` is in. -/
def advance (limits : Limits) (s : Store ι) (i : ι) (spurious : Bool) : Event × Store ι :=
  match s.pc i with
  | .idle _ => (.quiet, s)
  | .loadObjects req => (.quiet, s.goto i (tryObjects limits req s.objects))
  | .casObjects req current =>
    if s.objects = current ∧ spurious = false then
      (.tookObject, { s with objects := current + 1 }.goto i (.loadBytes req))
    else (.quiet, s.goto i (tryObjects limits req s.objects))
  | .loadBytes req => (.quiet, s.goto i (tryBytes limits req s.bytes))
  | .casBytes req current =>
    if s.bytes = current ∧ spurious = false then
      (.tookBytes s.next req.bytes, { s with bytes := current + req.bytes }.grant i req)
    else (.quiet, s.goto i (tryBytes limits req s.bytes))
  | .rollback req =>
    (.gaveBackObject, { s with objects := fetchSub limits.bits s.objects 1 }.goto i
      (.idle (.refused (.bytes req.bytes limits.maxBytes))))
  | .releaseBytes id bytes last =>
    (.releasedBytes id bytes, { s with bytes := fetchSub limits.bits s.bytes bytes }.goto i
      (.releaseObject id last))
  | .releaseObject id last =>
    (.releasedObject id, { s with objects := fetchSub limits.bits s.objects 1 }.goto i
      (.idle last))

/-! ### Owners -/

/-- `prepare_filled`: check the size, then reserve. -/
def prepare (limits : Limits) (s : Store ι) (i : ι) (len size : ℕ) : Store ι :=
  if len * size < 2 ^ limits.bits ∧ len * size ≤ 2 ^ (limits.bits - 1) - 1 then
    s.goto i (.loadObjects ⟨len, size, len * size⟩)
  else s.goto i (.idle (.refused .sizeOverflow))

/-- The last owner is gone: thread `i` runs the destructor of the reservation. -/
def destroy (s : Store ι) (i : ι) (id : ℕ) (c : Charge) (last : Outcome) : Store ι :=
  (s.setCharge id none).goto i (.releaseBytes id c.bytes last)

/-- `PreparedStorage::allocate`, where the allocator gives `capacity` elements or fails. A
failure drops the reservation. -/
def allocate (limits : Limits) (s : Store ι) (i : ι) (id : ℕ) (capacity : Option ℕ) : Store ι :=
  match s.charges id with
  | some c =>
    if c.holder = .prepared then
      match capacity with
      | none => s.destroy i id c (.refused .allocation)
      | some n =>
        if 2 ^ limits.bits ≤ n * c.size then s.destroy i id c (.refused .sizeOverflow)
        else if c.bytes < n * c.size then
          s.destroy i id c (.refused (.capacity c.bytes (n * c.size)))
        else (s.setCharge id (some { c with holder := .owned })).goto i (.idle .finished)
    else s
  | none => s

/-- `OwnedStorage::freeze`. -/
def freeze (s : Store ι) (i : ι) (id : ℕ) : Store ι :=
  match s.charges id with
  | some c =>
    if c.holder = .owned then
      (s.setCharge id (some { c with holder := .shared 1, owners := [⟨0, c.len⟩] })).goto i
        (.idle .finished)
    else s
  | none => s

/-- `SharedStorage::clone` of one owner. -/
def clone (s : Store ι) (i : ι) (id owner : ℕ) : Store ι :=
  match s.charges id with
  | some c =>
    match c.holder, c.owners[owner]? with
    | .shared strong, some v =>
      (s.setCharge id (some { c with holder := .shared (strong + 1), owners := c.owners ++ [v] }))
        |>.goto i (.idle .finished)
    | _, _ => s
  | none => s

/-- `SharedStorage::slice` of one owner, in its coordinates. -/
def slice (s : Store ι) (i : ι) (id owner start stop : ℕ) : Store ι :=
  match s.charges id with
  | some c =>
    match c.holder, c.owners[owner]? with
    | .shared strong, some v =>
      if stop < start ∨ v.stop - v.start < stop then s.goto i (.idle (.refused .range))
      else
        (s.setCharge id (some { c with
            holder := .shared (strong + 1)
            owners := c.owners ++ [⟨v.start + start, v.start + stop⟩] }))
          |>.goto i (.idle .finished)
    | _, _ => s
  | none => s

/-- An owner is dropped. An `Arc` lowers its count and destroys at the last. -/
def drop (s : Store ι) (i : ι) (id owner : ℕ) : Store ι :=
  match s.charges id with
  | some c =>
    if owner < c.owners.length then
      match c.holder with
      | .shared strong =>
        if strong = 1 then s.destroy i id c .finished
        else
          (s.setCharge id (some { c with
              holder := .shared (strong - 1)
              owners := c.owners.eraseIdx owner })).goto i (.idle .finished)
      | _ => s.destroy i id c .finished
    else s
  | none => s

/-- An idle thread starts an operation. -/
def start (limits : Limits) (s : Store ι) (i : ι) : Action → Store ι
  | .prepare len size => s.prepare limits i len size
  | .allocate id capacity => s.allocate limits i id capacity
  | .freeze id => s.freeze i id
  | .clone id owner => s.clone i id owner
  | .slice id owner start stop => s.slice i id owner start stop
  | .drop id owner => s.drop i id owner
  | .advance _ => s

/-- Thread `i` takes an action. Only an idle thread starts an operation. -/
def act (limits : Limits) (s : Store ι) (i : ι) (action : Action) : Event × Store ι :=
  match action with
  | .advance spurious => s.advance limits i spurious
  | action => (.quiet, if (s.pc i).isIdle then s.start limits i action else s)

end Store

/-- One step of a schedule, which reports the thread with what it did. -/
def step (limits : Limits) (s : Store ι) (a : ι × Action) : (ι × Event) × Store ι :=
  let (e, s) := s.act limits a.1 a.2
  ((a.1, e), s)

end Zencodec.Storage
