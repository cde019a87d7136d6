/-
Emission: placed candidates become parts of an inventory.
-/
import Zencodec.Tiff.Place

open Slices StableSort Tiling

namespace Zencodec

namespace Tiff

/-- The part of a candidate, with the body it declares. -/
def Cand.part (c : Cand) (body : Option (Span ℕ)) : Part :=
  let p := Part.new c.kind c.tag c.range c.disp
  let p := match c.label with
    | some l => p.withLabel l
    | none => p
  let p := if c.detail.isEmpty then p else p.withDetail c.detail
  match body with
  | some b => p.withBody b
  | none => p

/-- Cover the bytes of the body of `id` that no child covers; `gap` is their fate and
detail. -/
def fillBody (inv : Inventory) (id : PartId) (gap : Option (Disposition × String)) :
    Except InventoryError Inventory :=
  match gap with
  | some (d, detail) => do
    let before := inv.parts.length
    let inv ← inv.fillGaps (some id) d
    let added := (inv.children (some id)).filter fun g => before ≤ g
    return added.foldl (fun inv g => inv.setDetail g detail) inv
  | none => inv.fillGaps (some id) .unreferenced

/-- Push parts one after the other. -/
def emitEach (parent : Option PartId) :
    List (ℕ × (Option PartId → Inventory → Except InventoryError Inventory)) →
    Inventory → Except InventoryError Inventory
  | [], inv => .ok inv
  | (_, push) :: rest, inv => do
    let inv ← push parent inv
    emitEach parent rest inv

mutual

/-- Push `c` (and its children) under `parent`. -/
def emit (c : Cand) (parent : Option PartId) (inv : Inventory) :
    Except InventoryError Inventory :=
  match c with
  | ⟨range, kind, tag, label, disp, detail, children, body, gap, notes⟩ =>
    let c : Cand := ⟨range, kind, tag, label, disp, detail, children, body, gap, notes⟩
    let body := c.innerBody
    do
      let (id, inv) ← inv.push parent (c.part body)
      let inv ← emitEach (some id) (sortBy Prod.fst (emitters children)) inv
      if body.isSome then fillBody inv id gap else return inv

/-- How to push each child, with its start. -/
def emitters : List Cand →
    List (ℕ × (Option PartId → Inventory → Except InventoryError Inventory))
  | [] => []
  | ch :: rest => (ch.range.start, emit ch) :: emitters rest

end

/-- Push a gap between top-level parts, as far as it lies before `logicalEnd`; a lone
odd-offset byte between parts is a word-alignment pad. -/
def pushGap (data : Bytes) (logicalEnd : ℕ) (gap : Disposition × Option String)
    (inv : Inventory) (r : Span ℕ) : Except InventoryError Inventory :=
  let stop := min r.stop logicalEnd
  if stop ≤ r.start then .ok inv
  else
    let part := Part.new .gap .none ⟨r.start, stop⟩ gap.1
    let part := match gap.2 with
      | some d => part.withDetail d
      | none =>
        if gap.1 = .unreferenced ∧ stop - r.start = 1 ∧ r.start % 2 = 1 ∧ stop < logicalEnd then
          let byte := ((get data r.start 1).bind List.head?).getD 0
          (Part.new .gap .none ⟨r.start, stop⟩ .padding).withDetail
            (if byte = 0 then "word-alignment pad byte"
            else "word-alignment pad byte (non-zero)")
        else part
    (inv.push none part).map Prod.snd

/-- Push the gap from `cursor` up to `start`, if there is one. -/
def gapBefore (data : Bytes) (logicalEnd : ℕ) (gap : Disposition × Option String)
    (cursor start : ℕ) (inv : Inventory) : Except InventoryError Inventory :=
  if cursor < start then pushGap data logicalEnd gap inv ⟨cursor, start⟩ else .ok inv

/-- Push top-level parts from `cursor` on, with the gaps between them and up to the end of
the data. -/
def emitFrom (data : Bytes) (logicalEnd : ℕ) (gap : Disposition × Option String) :
    ℕ → List Cand → Inventory → Except InventoryError Inventory
  | cursor, [], inv => gapBefore data logicalEnd gap cursor data.length inv
  | cursor, c :: rest, inv => do
    let inv ← gapBefore data logicalEnd gap cursor c.range.start inv
    let inv ← emit c none inv
    emitFrom data logicalEnd gap (max cursor c.range.stop) rest inv

/-- Push top-level `parts`, which do not overlap and come in file order, with gaps between
them. -/
def emitTop (inv : Inventory) (data : Bytes) (parts : List Cand) (logicalEnd : ℕ)
    (gap : Disposition × Option String) : Except InventoryError Inventory :=
  emitFrom data logicalEnd gap 0 parts inv

/-- The inventory of a walk over `data`: its parts, with the gaps up to the logical end, and
then the rest of the data. -/
def inventoryOf (data : Bytes) (w : Walk) (rules : Rules) (first : List Cand) (cap : UInt32)
    (gap : Disposition × Option String) (rest : Disposition) :
    Except InventoryError Inventory := do
  let (placed, _) := place w rules first
  let inv ← emitTop ((Inventory.new data.length).withMaxParts cap) data placed.parts
    placed.logicalEnd gap
  inv.fillGaps none rest

/-! ### Equations -/

theorem emitters_eq (cs : List Cand) :
    emitters cs = cs.map fun ch => (ch.range.start, emit ch) := by
  induction cs with
  | nil => rfl
  | cons ch rest ih => rw [emitters, ih, List.map_cons]

/-- Push candidates one after the other. -/
def emitAll (parent : Option PartId) : List Cand → Inventory → Except InventoryError Inventory
  | [], inv => .ok inv
  | c :: rest, inv => do
    let inv ← emit c parent inv
    emitAll parent rest inv

theorem emitEach_eq (parent : Option PartId) (cs : List Cand) : ∀ inv : Inventory,
    emitEach parent (cs.map fun ch => (ch.range.start, emit ch)) inv =
      emitAll parent cs inv := by
  induction cs with
  | nil => exact fun inv => rfl
  | cons ch rest ih =>
    intro inv
    rw [List.map_cons, emitEach, emitAll]
    exact bind_congr ih

end Tiff

end Zencodec
