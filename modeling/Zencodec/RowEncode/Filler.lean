/-
Rows for an encoder that asks for them.

An encoder pulls the rows of an image in passes, strip by strip, into storage of its own.
`Filler.fill` checks each demand against the passes so far, reads the strip from the source
or, on later passes, from the rows kept of the first, and compares digests where they are
kept.  The first failure stays; `Row` by `Row` it is what the encoder was lent that counts,
so `served` keeps every strip a fill succeeded for.

The source, the control and the files of the raw rows are foreign: any of their calls may
change the world and may fail.
-/
import Zencodec.Lib.Act

namespace Zencodec.RowEncode

/-! ### Vocabulary -/

/-- The samples of a row. -/
abbrev Row := List UInt8

def u32Max : ℕ := 0xFFFFFFFF

def u64Max : ℕ := 0xFFFFFFFFFFFFFFFF

/-- `checked_add` of a width -/
def checkedAdd (most a b : ℕ) : Option ℕ := if a + b ≤ most then some (a + b) else none

/-- `checked_mul` of a width -/
def checkedMul (most a b : ℕ) : Option ℕ := if a * b ≤ most then some (a * b) else none

inductive Refusal
  | overflow
  | requestOrder (pass first : ℕ)
  | passLimit (pass : ℕ)
  | incompletePass (pass : ℕ)
  | pullProtocol
  | replayChanged (pass first : ℕ)
  | earlyOutput (pass : Option ℕ)
  deriving DecidableEq

inductive Cause (κ : Type)
  | refusal (r : Refusal)
  /-- `ExactDepthContradiction` -/
  | contradiction (firstRow : ℕ)
  | other (cause : κ)

inductive Stage
  | read
  | encode
  deriving DecidableEq

structure SourcePasses where
  min : ℕ
  max : Option ℕ
  min_pos : 0 < min
  min_le : ∀ m, max = some m → min ≤ m

/-- What the image is declared as; `format` is the descriptor and the color context. -/
structure Description (φ κ : Type) where
  width : ℕ
  height : ℕ
  rowBytes : ℕ
  format : φ
  /-- `ExactDepth::holds_for`, when a depth is claimed. -/
  exactDepth : Option (Row → Except κ Bool)

/-- `RowDemand`, with what stands in its storage. -/
structure Demand (φ : Type) where
  pass : ℕ
  finalPass : Bool
  first : ℕ
  width : ℕ
  format : φ
  rows : List Row

/-- Where the rows of the first pass are kept. -/
inductive Store
  | none
  | memory (rows : List Row)
  | disk (origin : ℕ)

def Store.isNone : Store → Bool
  | .none => true
  | _ => false

def Store.isMemory : Store → Bool
  | .memory _ => true
  | _ => false

structure Filler (κ : Type) where
  store : Store
  hashes : Option (List UInt64)
  identity : Option (List UInt64)
  declared : SourcePasses
  pass : Option ℕ
  finalStarted : Bool
  nextRow : ℕ
  fills : ℕ
  failure : Option (Stage × Cause κ)
  boundary : Stage

/-- What is foreign. -/
structure Env (ω κ : Type) where
  /-- `check(control)` -/
  check : Act ω κ Unit
  /-- `control.advance` -/
  advance : ℕ → ω → ω
  /-- `control.set_total`; no number stands for `Unknown`. -/
  setTotal : Option ℕ → ω → ω
  /-- `input.validate` -/
  validate : Act ω (Cause κ) Unit
  replayIdentity : Act ω κ (Option (List UInt64))
  /-- `read_rows` from a first row into the strip, which stays as high as it is. -/
  readRows : ℕ → List Row → ω → Except κ Unit × List Row × ω
  length_readRows : ∀ first rows world, (readRows first rows world).2.1.length = rows.length
  /-- `write_all` of a row at a position of the raw file. -/
  storeRow : ℕ → Row → Act ω κ Unit
  /-- The loop that fills a row from a position of the raw file. -/
  loadRow : ℕ → Row → ω → Except κ Unit × Row × ω

/-- The rows of an image that the caller lends for the whole operation. -/
inductive Input
  | raster (pixels : List Row)
  | source

/-- The filler, the strip that is lent at the moment, and the world. -/
structure Desk (ω κ : Type) where
  filler : Filler κ
  rows : List Row
  world : ω

/-! ### Digests -/

def digestKey : UInt64 := 0x9E3779B97F4A7C15

/-- `u64::from_le_bytes` -/
def fromLeBytes : Row → UInt64
  | [] => 0
  | b :: bs => b.toUInt64 + 256 * fromLeBytes bs

def rotateLeft29 (x : UInt64) : UInt64 := (x <<< 29) ||| (x >>> 35)

/-- The words of a row, then its tail filled up with zeros. -/
def digestFrom (h : UInt64) : Row → UInt64
  | b₀ :: b₁ :: b₂ :: b₃ :: b₄ :: b₅ :: b₆ :: b₇ :: bs =>
    digestFrom (rotateLeft29 ((h ^^^ fromLeBytes [b₀, b₁, b₂, b₃, b₄, b₅, b₆, b₇]) * digestKey)) bs
  | tail => (h ^^^ fromLeBytes tail) * digestKey ^^^ (h >>> 31)

def digest (row : Row) : UInt64 := digestFrom (UInt64.ofNat row.length * digestKey) row

/-! ### The filler -/

section Operations

variable {ω κ φ α : Type}

def onWorld (x : Act ω κ α) : Act (Desk ω κ) (Cause κ) α :=
  Act.mapError .other (Act.focus Desk.world (fun w s => { s with world := w }) x)

def touchWorld (f : ω → ω) : Act (Desk ω κ) (Cause κ) Unit :=
  Act.modify fun s => { s with world := f s.world }

def updateFiller (f : Filler κ → Filler κ) : Act (Desk ω κ) (Cause κ) Unit :=
  Act.modify fun s => { s with filler := f s.filler }

/-- Fail with a refusal unless the condition holds. -/
def demand (c : Bool) (r : Refusal) : Act (Desk ω κ) (Cause κ) Unit := Act.require c (.refusal r)

variable (e : Env ω κ) (desc : Description φ κ) (input : Input)

/-- `Filler::validate` -/
def validate : Act (Desk ω κ) (Cause κ) Unit := do
  Act.focus Desk.world (fun w s => { s with world := w }) e.validate
  let f := (← Act.get).filler
  if f.identity.isSome then
    let identity ← onWorld e.replayIdentity
    demand (identity = f.identity) (.replayChanged (f.pass.getD 0) f.nextRow)

/-- The pass that may begin now. -/
def Filler.mayBegin (f : Filler κ) (height pass : ℕ) : Bool :=
  match f.pass with
  | none => pass = 0
  | some previous => checkedAdd u32Max previous 1 = some pass && f.nextRow = height

/-- `begin_pass` -/
def beginPass (pass : ℕ) (finalPass : Bool) : Act (Desk ω κ) (Cause κ) Unit := do
  let f := (← Act.get).filler
  demand (f.mayBegin desc.height pass) (.requestOrder pass 0)
  let count ← Act.getOr (checkedAdd u32Max pass 1) (.refusal .overflow)
  demand (!f.finalStarted && f.declared.max.all (count ≤ ·)) (.passLimit pass)
  demand (!finalPass || f.declared.min ≤ count) (.incompletePass pass)
  updateFiller fun f => { f with pass := some pass, finalStarted := finalPass, nextRow := 0 }
  validate e
  if finalPass then
    touchWorld (e.setTotal (some (count * desc.height)))
    onWorld e.check
    validate e

/-- One row of a raster. -/
def copyRow (pixels : List Row) (first y : ℕ) : Act (Desk ω κ) (Cause κ) Unit := do
  onWorld e.check
  Act.modify fun s => { s with rows := s.rows.set y (pixels.getD (first + y) []) }

/-- `Input::read` -/
def readInput (first : ℕ) : Act (Desk ω κ) (Cause κ) Unit := do
  match input with
  | .raster pixels => Act.each (copyRow e pixels first) (List.range (← Act.get).rows.length)
  | .source =>
    Act.mapError .other (Act.foreign fun s =>
      let (result, rows, world) := e.readRows first s.rows s.world
      (result, { s with rows, world }))

/-- A strip is read from the source, and it is still the source that was declared. -/
def readStrip (external : Bool) (first : ℕ) : Act (Desk ω κ) (Cause κ) Unit := do
  if external then
    readInput e input first
    onWorld e.check
    validate e

/-- A row goes into the store on the first pass and comes from it on the others. -/
def keepRow (external : Bool) (place y : ℕ) : Act (Desk ω κ) (Cause κ) Unit := do
  let s ← Act.get
  let row := s.rows.getD y []
  let offset ← Act.getOr (checkedMul u64Max place desc.rowBytes) (.refusal .overflow)
  match s.filler.store with
  | .none => pure ()
  | .memory kept =>
    if external then updateFiller fun f => { f with store := .memory (kept.set place row) }
    else Act.modify fun s => { s with rows := s.rows.set y (kept.getD place []) }
  | .disk origin =>
    let position ← Act.getOr (checkedAdd u64Max origin offset) (.refusal .overflow)
    if external then onWorld (e.storeRow position row)
    else
      Act.mapError .other (Act.foreign fun s =>
        let (result, row, world) := e.loadRow position row s.world
        (result, { s with rows := s.rows.set y row, world }))

/-- The samples of a row are on the claimed grid. -/
def checkExact (place y : ℕ) : Act (Desk ω κ) (Cause κ) Unit := do
  match desc.exactDepth with
  | none => pure ()
  | some holds =>
    let held ← Act.lift ((holds ((← Act.get).rows.getD y [])).mapError .other)
    Act.require held (.contradiction place)

/-- The digest of a row is kept on the first pass and compared on the others. -/
def checkDigest (pass place y : ℕ) : Act (Desk ω κ) (Cause κ) Unit := do
  let s ← Act.get
  let hash := digest (s.rows.getD y [])
  match s.filler.hashes with
  | none => pure ()
  | some hashes =>
    if pass = 0 then updateFiller fun f => { f with hashes := some (hashes.set place hash) }
    else demand (hashes[place]? = some hash) (.replayChanged pass place)

/-- One pass of the loop over the rows of a strip. -/
def fillRow (d : Demand φ) (external : Bool) (y : ℕ) : Act (Desk ω κ) (Cause κ) Unit := do
  updateFiller fun f => { f with boundary := if desc.exactDepth.isSome then .encode else .read }
  onWorld e.check
  keepRow e desc external (d.first + y) y
  checkExact desc (d.first + y) y
  checkDigest d.pass (d.first + y) y

variable [DecidableEq φ]

/-- The strip has the declared interpretation and lies within the image. -/
def Demand.fits (d : Demand φ) (count : ℕ) : Bool :=
  d.width = desc.width && d.format = desc.format && count ≠ 0 &&
    (checkedAdd u32Max d.first count).any (· ≤ desc.height)

/-- A strip of the pass that is open: the rest of `fill_inner`. -/
def fillStrip (d : Demand φ) : Act (Desk ω κ) (Cause κ) Unit := do
  let s ← Act.get
  demand (d.first = s.filler.nextRow) (.requestOrder d.pass d.first)
  validate e
  let external := d.pass = 0 || s.filler.store.isNone
  readStrip e input external d.first
  Act.each (fillRow e desc d external) (List.range s.rows.length)
  updateFiller fun f => { f with boundary := .read }
  onWorld e.check
  validate e
  touchWorld (e.advance s.rows.length)
  onWorld e.check
  validate e
  updateFiller fun f => { f with nextRow := d.first + s.rows.length }

/-- `fill_inner` -/
def fillInner (d : Demand φ) : Act (Desk ω κ) (Cause κ) Unit := do
  updateFiller fun f => { f with boundary := .read }
  onWorld e.check
  let s ← Act.get
  demand (d.fits desc s.rows.length) (.requestOrder d.pass d.first)
  if s.filler.pass ≠ some d.pass then beginPass e desc d.pass d.finalPass
  else demand (d.finalPass = s.filler.finalStarted) (.requestOrder d.pass d.first)
  fillStrip e desc input d

/-- A strip is lent and the fill is counted. -/
def Desk.counted (d : Demand φ) (s : Desk ω κ) : Desk ω κ :=
  { s with rows := d.rows, filler := { s.filler with fills := min (s.filler.fills + 1) 255 } }

def Desk.failed (stage : Stage) (cause : Cause κ) (s : Desk ω κ) : Desk ω κ :=
  { s with filler := { s.filler with failure := some (stage, cause) } }

/-- `EncodeRows::fill`: whether the strip was filled. -/
def fill (d : Demand φ) (s : Desk ω κ) : Bool × Desk ω κ :=
  if s.filler.failure.isSome then (false, { s with rows := d.rows })
  else if (s.counted d).filler.fills ≠ 1 then
    (false, (s.counted d).failed .read (.refusal .pullProtocol))
  else match fillInner e desc input d (s.counted d) with
    | (.ok _, t) => (true, t)
    | (.error cause, t) => (false, t.failed t.filler.boundary cause)

/-- `complete` -/
def complete : Act (Desk ω κ) (Cause κ) Unit := do
  let f := (← Act.get).filler
  let count := (f.pass.bind (checkedAdd u32Max · 1)).getD 0
  demand (f.declared.min ≤ count && f.declared.max.all (count ≤ ·) && f.nextRow = desc.height &&
    f.finalStarted) (.incompletePass (f.pass.getD 0))
  validate e

end Operations

end Zencodec.RowEncode
