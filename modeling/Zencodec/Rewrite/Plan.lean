/-
Assembling a metadata rewrite plan.

A `PlanBuilder` collects the chunks of the output and a report on the carriers of the input,
under the limits of a `Context`. Borrowed data is a slice of memory, an address and a length,
because the builder compares slices by identity. The pulse and the allocator are foreign:
their answers are functions of the world `Ω`.
-/
import Zencodec.Incremental.Contract
import Zencodec.Machine

open Zencodec.Incremental

namespace Zencodec.Rewrite

variable {Ω : Type}

/-! ### Data -/

/-- A borrowed slice. -/
structure Slice where
  addr : ℕ
  len : ℕ
  deriving DecidableEq, Repr

/-- A half-open range of byte offsets. -/
structure SourceRange where
  start : ℕ
  stop : ℕ
  deriving DecidableEq, Repr

/-- `slice::get` of a range. -/
def Slice.get (s : Slice) (range : SourceRange) : Option Slice :=
  if range.start ≤ range.stop ∧ range.stop ≤ s.len then
    some ⟨s.addr + range.start, range.stop - range.start⟩
  else none

/-- The bytes of `b` lie inside `s`. -/
def Slice.Within (b s : Slice) : Prop := s.addr ≤ b.addr ∧ b.addr + b.len ≤ s.addr + s.len

instance instDecidableWithin (b s : Slice) : Decidable (b.Within s) :=
  inferInstanceAs (Decidable (_ ∧ _))

/-- A chunk of the output: `Cow<[u8]>`. -/
inductive Cow where
  | borrowed (s : Slice)
  | owned (bytes : List UInt8)
  deriving DecidableEq, Repr

def Cow.len : Cow → ℕ
  | .borrowed s => s.len
  | .owned bytes => bytes.length

/-- The length of generated bytes. -/
def Cow.ownedLen : Cow → ℕ
  | .borrowed _ => 0
  | .owned bytes => bytes.length

inductive LimitKind where
  | inputSize | outputSize | metadataSize | metadataEntries | metadataRewriteSize
  | metadataCarriers
  deriving DecidableEq, Repr

inductive Error where
  | malformed (what : String)
  | limit (kind : LimitKind)
  | allocation
  | cancelled
  | stopped (reason : StopReason)
  deriving DecidableEq, Repr

/-- Disposition of an input carrier. -/
inductive Disposition where
  | keep | remove | rewrite | opaqueIcc | removeJpegReconstruction | opaqueImageData
  deriving DecidableEq, Repr

/-- One complete input carrier in the report. -/
structure Entry where
  range : SourceRange
  carrier : String
  action : Disposition
  deriving DecidableEq, Repr

/-- The part of a request that the builder reads. -/
structure Context (Ω : Type) where
  input : Slice
  maxInput : ℕ
  maxOutput : ℕ
  maxMetadata : ℕ
  maxCarriers : ℕ
  pulse : Option (Pulse Ω)

structure PlanBuilder where
  parts : List Cow := []
  entries : List Entry := []
  size : ℕ := 0
  rewritten : ℕ := 0
  input : Option Slice := none
  deriving DecidableEq, Repr

/-- The result of planning. -/
structure Plan where
  parts : List Cow
  entries : List Entry
  size : ℕ
  deriving DecidableEq, Repr

/-- `Context::with_input`. -/
def Context.withInput (req : Context Ω) (input : Slice) : Context Ω := { req with input := input }

/-- The builder's methods run on the builder and the world. -/
abbrev Building (Ω α : Type) : Type := Act (PlanBuilder × Ω) Error α

/-- `Context::check`. -/
def Context.check (req : Context Ω) : Act Ω Error Unit := do
  Act.mapError (fun reason => if reason = .cancelled then .cancelled else .stopped reason)
    (Act.foreign (checkPulse req.pulse))
  Act.require (decide (req.input.len ≤ req.maxInput)) (.limit .inputSize)

/-- `usize::checked_add`. -/
def checkedAdd (host : Host Ω) (a b : ℕ) : Option ℕ :=
  if a + b ≤ host.usizeMax then some (a + b) else none

/-- `checked_add(..).filter(|n| *n <= limit)`. -/
def addWithin (host : Host Ω) (a b limit : ℕ) : Option ℕ :=
  (checkedAdd host a b).filter fun n => decide (n ≤ limit)

/-- The builder has no other input yet. -/
def PlanBuilder.sameInput (b : PlanBuilder) (input : Slice) : Bool :=
  b.input.all fun previous => previous == input

namespace PlanBuilder

/-- `PlanBuilder::new`. -/
def new : PlanBuilder := {}

/-- `record`: one input carrier and an optional output chunk. -/
def record (host : Host Ω) (req : Context Ω) (range : SourceRange) (carrier : String)
    (action : Disposition) (bytes : Option Cow) : Building Ω Unit := do
  onWorld req.check
  Act.require (decide (range.start ≤ range.stop ∧ range.stop ≤ req.input.len))
    (.malformed "rewrite source range")
  let (b, _) ← Act.get
  Act.require (b.sameInput req.input) (.malformed "mixed rewrite inputs")
  Act.require (decide (b.entries.length < req.maxCarriers)) (.limit .metadataCarriers)
  let size ← Act.getOr (addWithin host b.size (bytes.elim 0 Cow.len) req.maxOutput)
    (.limit .outputSize)
  let rewritten ← Act.getOr (checkedAdd host b.rewritten (bytes.elim 0 Cow.ownedLen))
    (.limit .metadataRewriteSize)
  Act.require (decide (rewritten ≤ req.maxMetadata)) (.limit .metadataRewriteSize)
  onWorld (host.reserve .allocation)
  if bytes.isSome then onWorld (host.reserve .allocation) else pure ()
  Act.modify fun (b, w) =>
    (⟨b.parts ++ bytes.toList, b.entries ++ [⟨range, carrier, action⟩], size, rewritten,
      some req.input⟩, w)

/-- `keep`: retain a range of the input. -/
def keep (host : Host Ω) (req : Context Ω) (range : SourceRange) (name : String) :
    Building Ω Unit := do
  let bytes ← Act.getOr (req.input.get range) (.malformed "rewrite source range")
  record host req range name .keep (some (.borrowed bytes))

/-- `remove`: record a removed carrier. -/
def remove (host : Host Ω) (req : Context Ω) (range : SourceRange) (name : String) :
    Building Ω Unit :=
  record host req range name .remove none

/-- `inject_after_first`: a generated carrier behind the first chunk. -/
def injectAfterFirst (host : Host Ω) (req : Context Ω) (bytes : List UInt8) (name : String) :
    Building Ω Unit := do
  let (b, _) ← Act.get
  Act.require (!b.parts.isEmpty) (.malformed "missing leading carrier")
  record host req ⟨0, 0⟩ name .rewrite (some (.owned bytes))
  let (b, _) ← Act.get
  let part ← Act.getOr b.parts.getLast? (.malformed "missing generated carrier")
  Act.modify fun (b, w) => ({ b with parts := b.parts.dropLast.insertIdx 1 part }, w)

/-- The chunk that `remove_kept_range` looks for. -/
def isSource (source : Slice) : Cow → Bool
  | .borrowed s => s == source
  | .owned _ => false

/-- `remove_kept_range`: drop a retained chunk, and report its carrier as removed. -/
def removeKeptRange (req : Context Ω) (range : SourceRange) : Building Ω Unit := do
  onWorld req.check
  let (b, _) ← Act.get
  Act.require (b.sameInput req.input) (.malformed "mixed rewrite inputs")
  let source ← Act.getOr (req.input.get range) (.malformed "rewrite source range")
  let part ← Act.getOr (b.parts.find? (isSource source)) (.malformed "missing retained carrier")
  Act.modify fun (b, w) =>
    ({ b with
        parts := b.parts.eraseP (isSource source)
        size := b.size - part.len
        entries := b.entries.map fun e =>
          if e.range = range then { e with action := .remove } else e }, w)

/-- The report of a contained plan in the offsets of its parent. -/
def translate (offset : ℕ) (e : Entry) : Entry :=
  { e with range := ⟨e.range.start + offset, e.range.stop + offset⟩ }

/-- `append`: the plan of a contained image. -/
def append (host : Host Ω) (req : Context Ω) (other : PlanBuilder) (offset : ℕ) :
    Building Ω Unit := do
  onWorld req.check
  let (b, _) ← Act.get
  Act.require (b.sameInput req.input) (.malformed "mixed rewrite inputs")
  Act.require ((addWithin host offset (other.input.elim 0 Slice.len) req.input.len).isSome)
    (.malformed "contained input range")
  Act.require (other.input.all fun child => child == ⟨req.input.addr + offset, child.len⟩)
    (.malformed "contained input identity")
  let size ← Act.getOr (addWithin host b.size other.size req.maxOutput) (.limit .outputSize)
  let rewritten ← Act.getOr (checkedAdd host b.rewritten other.rewritten)
    (.limit .metadataRewriteSize)
  Act.require (decide (rewritten ≤ req.maxMetadata)) (.limit .metadataRewriteSize)
  Act.require ((addWithin host b.entries.length other.entries.length req.maxCarriers).isSome)
    (.limit .metadataCarriers)
  Act.require (other.entries.all fun e =>
      (checkedAdd host e.range.start offset).isSome
        && (addWithin host e.range.stop offset req.input.len).isSome)
    (.malformed "report offset")
  onWorld (host.reserve .allocation)
  onWorld (host.reserve .allocation)
  Act.modify fun (b, w) =>
    (⟨b.parts ++ other.parts, b.entries ++ other.entries.map (translate offset), size, rewritten,
      some req.input⟩, w)

end PlanBuilder

/-- `Plan::from_parts`. -/
def Plan.fromParts (host : Host Ω) (inputLen : ℕ) (parts : List Cow) (entries : List Entry) :
    Except Error Plan :=
  if entries.any fun e => decide (e.range.stop < e.range.start) || decide (inputLen < e.range.stop)
  then .error (.malformed "invalid report range")
  else
    match parts.foldlM (fun size part => checkedAdd host size part.len) 0 with
    | none => .error (.limit .outputSize)
    | some size => .ok ⟨parts, entries, size⟩

/-- `PlanBuilder::finish`. -/
def PlanBuilder.finish (host : Host Ω) (b : PlanBuilder) : Except Error Plan := do
  let plan ← Plan.fromParts host (b.input.elim 0 Slice.len) b.parts b.entries
  if plan.size = b.size then .ok plan else .error (.malformed "rewrite length accounting")

/-! ### Operations -/

/-- An operation on a builder. -/
inductive Op where
  | record (range : SourceRange) (carrier : String) (action : Disposition) (bytes : Option Cow)
  | keep (range : SourceRange) (name : String)
  | remove (range : SourceRange) (name : String)
  | injectAfterFirst (bytes : List UInt8) (name : String)
  | removeKeptRange (range : SourceRange)
  | append (other : PlanBuilder) (offset : ℕ)
  deriving DecidableEq, Repr

def Op.run (host : Host Ω) (req : Context Ω) : Op → Building Ω Unit
  | .record range carrier action bytes => PlanBuilder.record host req range carrier action bytes
  | .keep range name => PlanBuilder.keep host req range name
  | .remove range name => PlanBuilder.remove host req range name
  | .injectAfterFirst bytes name => PlanBuilder.injectAfterFirst host req bytes name
  | .removeKeptRange range => PlanBuilder.removeKeptRange req range
  | .append other offset => PlanBuilder.append host req other offset

end Zencodec.Rewrite
