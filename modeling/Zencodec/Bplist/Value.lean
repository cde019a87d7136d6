/-
Property-list values, and what they hold.

`fold` goes over a value; `visits`, `nesting` and `payload` are its three measures: how many
values there are in it, keys included, how deep its containers are nested, and how many bytes
its strings and data take.
-/
import Mathlib

namespace Zencodec.Bplist

variable {F : Type}

/-- A decoded property-list value, over a type of floating-point numbers. -/
inductive PlistValue (F : Type) where
  | bool (b : Bool)
  | integer (i : ℤ)
  | real (r : F)
  | date (r : F)
  | data (bytes : List UInt8)
  | string (s : String)
  | uid (n : ℕ)
  | array (items : List (PlistValue F))
  | dict (entries : List (String × PlistValue F))

namespace PlistValue

section Fold

variable (leaf : PlistValue F → ℕ) (array : List ℕ → ℕ) (dict : List (String × ℕ) → ℕ)

mutual

/-- `array` and `dict` on what comes of the elements, and `leaf` on everything else. -/
def fold : PlistValue F → ℕ
  | .array items => array (foldItems items)
  | .dict entries => dict (foldEntries entries)
  | .bool b => leaf (.bool b)
  | .integer i => leaf (.integer i)
  | .real r => leaf (.real r)
  | .date r => leaf (.date r)
  | .data bytes => leaf (.data bytes)
  | .string s => leaf (.string s)
  | .uid n => leaf (.uid n)

def foldItems : List (PlistValue F) → List ℕ
  | [] => []
  | v :: rest => fold v :: foldItems rest

def foldEntries : List (String × PlistValue F) → List (String × ℕ)
  | [] => []
  | (k, v) :: rest => (k, fold v) :: foldEntries rest

end

theorem foldItems_eq (l : List (PlistValue F)) :
    foldItems leaf array dict l = l.map (fold leaf array dict) := by
  induction l with
  | nil => rfl
  | cons v l ih => rw [foldItems, ih, List.map_cons]

theorem foldEntries_eq (l : List (String × PlistValue F)) :
    foldEntries leaf array dict l = l.map fun e => (e.1, fold leaf array dict e.2) := by
  induction l with
  | nil => rfl
  | cons e l ih => rw [foldEntries, ih, List.map_cons]

theorem fold_array (l : List (PlistValue F)) :
    fold leaf array dict (.array l) = array (l.map (fold leaf array dict)) := by
  rw [fold, foldItems_eq]

theorem fold_dict (l : List (String × PlistValue F)) :
    fold leaf array dict (.dict l) = dict (l.map fun e => (e.1, fold leaf array dict e.2)) := by
  rw [fold, foldEntries_eq]

end Fold

/-- The values in a value, keys included. -/
def visits : PlistValue F → ℕ :=
  fold (fun _ => 1) (fun l => 1 + l.sum) fun l => 1 + (l.map fun e => 1 + e.2).sum

/-- How deep containers are nested. -/
def nesting : PlistValue F → ℕ :=
  fold (fun _ => 0) (fun l => 1 + l.foldr max 0) fun l => 1 + (l.map Prod.snd).foldr max 0

/-- The bytes of data and of the text of a leaf. -/
def leafBytes : PlistValue F → ℕ
  | .data bytes => bytes.length
  | .string s => s.utf8ByteSize
  | _ => 0

/-- The bytes of data, strings and keys. -/
def payload : PlistValue F → ℕ :=
  fold leafBytes List.sum fun l => (l.map fun e => e.1.utf8ByteSize + e.2).sum

def IsContainer : PlistValue F → Bool
  | .array _ => true
  | .dict _ => true
  | _ => false

variable {v : PlistValue F}

theorem visits_leaf (h : v.IsContainer = false) : v.visits = 1 := by
  cases v <;> first | rfl | cases h

theorem nesting_leaf (h : v.IsContainer = false) : v.nesting = 0 := by
  cases v <;> first | rfl | cases h

theorem payload_leaf (h : v.IsContainer = false) : v.payload = v.leafBytes := by
  cases v <;> first | rfl | cases h

theorem visits_array (l : List (PlistValue F)) :
    visits (.array l) = 1 + (l.map visits).sum :=
  fold_array _ _ _ l

theorem visits_dict (l : List (String × PlistValue F)) :
    visits (.dict l) = 1 + (l.map fun e => 1 + e.2.visits).sum := by
  rw [visits, fold_dict, List.map_map]
  rfl

theorem nesting_array (l : List (PlistValue F)) :
    nesting (.array l) = 1 + (l.map nesting).foldr max 0 :=
  fold_array _ _ _ l

theorem nesting_dict (l : List (String × PlistValue F)) :
    nesting (.dict l) = 1 + (l.map fun e => e.2.nesting).foldr max 0 := by
  rw [nesting, fold_dict, List.map_map]
  rfl

theorem payload_array (l : List (PlistValue F)) : payload (.array l) = (l.map payload).sum :=
  fold_array _ _ _ l

theorem payload_dict (l : List (String × PlistValue F)) :
    payload (.dict l) = (l.map fun e => e.1.utf8ByteSize + e.2.payload).sum := by
  rw [payload, fold_dict, List.map_map]
  rfl

end PlistValue

end Zencodec.Bplist
