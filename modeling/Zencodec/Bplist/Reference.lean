/-
What a property list means.

`Layout` is the format of the file: header, objects, offset table, trailer. An object is read
from its first byte on (`shapeOf`): a leaf, or the references of a container. The meaning of the
list is the unfolding of this graph from the root: `decode d i` follows references from object
`i`, at most `d` objects deep, and an object that is referred to twice is decoded twice.

A graph with a cycle below the root has no meaning (`decode_eq_none_of_cyclic`).
-/
import Mathlib.Logic.Relation
import Zencodec.Bplist.Parse

open Slices

namespace Zencodec.Bplist

variable {F : Type}

/-! ### Objects -/

/-- An object: a leaf with the bytes that it takes, or what a container refers to. -/
inductive Shape (F : Type) where
  | leaf (v : PlistValue F) (cost : ℕ)
  | array (refs : List ℕ)
  | dict (entries : List (ℕ × ℕ))

/-- The conversions of floating-point numbers. -/
structure Reals (F : Type) where
  ofF32 : ℕ → F
  ofF64 : ℕ → F

def Env.reals {Ω : Type} (env : Env Ω F) : Reals F := ⟨env.ofF32, env.ofF64⟩

/-- The first `n` bytes. -/
def front (n : ℕ) (l : Bytes) : Option Bytes := if n ≤ l.length then some (l.take n) else none

/-- A count, in the marker or in an integer that follows it, and what comes after it. -/
def countOf (lo : ℕ) (body : Bytes) : Option (ℕ × Bytes) :=
  if lo ≠ 0xF then some (lo, body)
  else
    match body with
    | [] => none
    | m :: rest =>
      if m.toNat / 16 = 1 ∧ 2 ^ (m.toNat % 16) ≤ 8 then
        (front (2 ^ (m.toNat % 16)) rest).map fun bytes =>
          (wordValue .big bytes, rest.drop (2 ^ (m.toNat % 16)))
      else none

/-- The number in the last eight bytes. -/
def low64 (bytes : Bytes) : ℕ := wordValue .big (bytes.drop (bytes.length - 8))

/-- The `count` references of `refSize` bytes that `body` starts with. -/
def refsOf (refSize count : ℕ) (body : Bytes) : List ℕ :=
  (List.range count).map fun i => wordValue .big ((body.drop (i * refSize)).take refSize)

/-- The object that starts with `marker` and `body`. -/
def shapeOf (reals : Reals F) (refSize marker : ℕ) (body : Bytes) : Option (Shape F) :=
  let lo := marker % 16
  match marker / 16 with
  | 0x0 =>
    if marker = 0x08 then some (.leaf (.bool false) 0)
    else if marker = 0x09 then some (.leaf (.bool true) 0)
    else none
  | 0x1 => (front (2 ^ lo) body).map fun bytes => .leaf (.integer (asI64 (low64 bytes))) 0
  | 0x2 =>
    if lo = 2 then
      (front 4 body).map fun bytes => .leaf (.real (reals.ofF32 (wordValue .big bytes))) 0
    else if lo = 3 then
      (front 8 body).map fun bytes => .leaf (.real (reals.ofF64 (wordValue .big bytes))) 0
    else none
  | 0x3 =>
    if lo = 3 then
      (front 8 body).map fun bytes => .leaf (.date (reals.ofF64 (wordValue .big bytes))) 0
    else none
  | 0x4 => (countOf lo body).bind fun p => (front p.1 p.2).map fun bytes => .leaf (.data bytes) p.1
  | 0x5 => (countOf lo body).bind fun p => (front p.1 p.2).bind fun bytes =>
      (fromUtf8 bytes).map fun text => .leaf (.string text) p.1
  | 0x6 => (countOf lo body).bind fun p => (front (p.1 * 2) p.2).map fun bytes =>
      .leaf (.string (String.ofList (decodeUtf16 (units bytes)))) (p.1 * 3)
  | 0x8 => (front (lo + 1) body).map fun bytes => .leaf (.uid (low64 bytes)) 0
  | 0xA => (countOf lo body).bind fun p => (front (p.1 * refSize) p.2).map fun bytes =>
      .array (refsOf refSize p.1 bytes)
  | 0xC => (countOf lo body).bind fun p => (front (p.1 * refSize) p.2).map fun bytes =>
      .array (refsOf refSize p.1 bytes)
  | 0xD => (countOf lo body).bind fun p => (front (p.1 * refSize + p.1 * refSize) p.2).map
      -- The references to the keys, and then those to the values.
      fun bytes => .dict ((refsOf refSize p.1 bytes).zip
        (refsOf refSize p.1 (bytes.drop (p.1 * refSize))))
  | _ => none

/-! ### The file -/

/-- The parts of a property list. -/
structure Layout where
  area : Bytes
  offsets : List ℕ
  gap : Bytes
  pad : Bytes
  offsetSize : ℕ
  refSize : ℕ
  root : ℕ

namespace Layout

def trailer (L : Layout) : Bytes :=
  L.pad ++ [UInt8.ofNat L.offsetSize, UInt8.ofNat L.refSize] ++
    (wordBytes .big 8 L.offsets.length ++ (wordBytes .big 8 L.root ++
      wordBytes .big 8 (8 + L.area.length)))

def bytes (L : Layout) : Bytes :=
  header ++ L.area ++ L.offsets.flatMap (wordBytes .big L.offsetSize) ++ L.gap ++ L.trailer

structure WellFormed (L : Layout) : Prop where
  pad : L.pad.length = 6
  offsetSize : 1 ≤ L.offsetSize ∧ L.offsetSize ≤ 8
  refSize : 1 ≤ L.refSize ∧ L.refSize ≤ 8
  root : L.root < L.offsets.length
  offsets : ∀ o ∈ L.offsets, o < 256 ^ L.offsetSize
  length : L.bytes.length ≤ maxBytes

/-- Object `i`, which is read from the area only. -/
def object (L : Layout) (reals : Reals F) (i : ℕ) : Option (Shape F) :=
  (L.offsets[i]?).bind fun off =>
    if 8 ≤ off then
      match L.area.drop (off - 8) with
      | [] => none
      | marker :: body => shapeOf reals L.refSize marker.toNat body
    else none

end Layout

/-! ### The graph -/

/-- What an object refers to. -/
def Shape.refs : Shape F → List ℕ
  | .leaf _ _ => []
  | .array refs => refs
  | .dict entries => entries.map Prod.fst ++ entries.map Prod.snd

/-- The value of object `i`, at most `d` objects deep. -/
def decode (object : ℕ → Option (Shape F)) : ℕ → ℕ → Option (PlistValue F)
  | 0, _ => none
  | d + 1, i =>
    match object i with
    | none => none
    | some (.leaf v _) => some v
    | some (.array refs) => (refs.mapM (decode object d)).map .array
    | some (.dict entries) =>
      (entries.mapM fun p : ℕ × ℕ => do
        let key ← (decode object d p.1).bind Ctx.asKey
        let value ← decode object d p.2
        some (key, value)).map .dict

/-- The bytes allocated for the value of object `i`. -/
def cost (valueSize entrySize : ℕ) (object : ℕ → Option (Shape F)) : ℕ → ℕ → ℕ
  | 0, _ => 0
  | d + 1, i =>
    match object i with
    | none => 0
    | some (.leaf _ n) => n
    | some (.array refs) =>
      refs.length * valueSize + (refs.map (cost valueSize entrySize object d)).sum
    | some (.dict entries) => entries.length * entrySize + (entries.map fun p =>
        cost valueSize entrySize object d p.1 + cost valueSize entrySize object d p.2).sum

/-- The values visited for object `i`. -/
def expansion (object : ℕ → Option (Shape F)) : ℕ → ℕ → ℕ
  | 0, _ => 0
  | d + 1, i =>
    match object i with
    | none => 1
    | some (.leaf _ _) => 1
    | some (.array refs) => 1 + (refs.map (expansion object d)).sum
    | some (.dict entries) =>
      1 + (entries.map fun p => expansion object d p.1 + expansion object d p.2).sum

/-- Object `i` refers to object `j`. -/
def Refers (object : ℕ → Option (Shape F)) (i j : ℕ) : Prop := ∃ s, object i = some s ∧ j ∈ s.refs

/-- A cycle lies below object `i`. -/
def Cyclic (object : ℕ → Option (Shape F)) (i : ℕ) : Prop :=
  ∃ j, Relation.ReflTransGen (Refers object) i j ∧ Relation.TransGen (Refers object) j j

variable {object : ℕ → Option (Shape F)} {d i : ℕ} {v : PlistValue F}

/-! ### One level -/

/-- The value of one entry. -/
def decodeEntry (object : ℕ → Option (Shape F)) (d : ℕ) (p : ℕ × ℕ) :
    Option (String × PlistValue F) := do
  let key ← (decode object d p.1).bind Ctx.asKey
  let value ← decode object d p.2
  some (key, value)

theorem decode_none (h : object i = none) : decode object (d + 1) i = none := by
  rw [decode, h]

theorem decode_leaf {n : ℕ} (h : object i = some (.leaf v n)) :
    decode object (d + 1) i = some v := by
  rw [decode, h]

theorem decode_array {refs : List ℕ} (h : object i = some (.array refs)) :
    decode object (d + 1) i = (refs.mapM (decode object d)).map .array := by
  rw [decode, h]

theorem decode_dict {entries : List (ℕ × ℕ)} (h : object i = some (.dict entries)) :
    decode object (d + 1) i = (entries.mapM (decodeEntry object d)).map .dict := by
  rw [decode, h]
  rfl

/-! ### Elements -/

section Elements

variable {α β : Type} {f : α → Option β} {l : List α} {out : List β}

theorem mapM_cons_eq_some {a : α} :
    (a :: l).mapM f = some out ↔
      ∃ b rest, f a = some b ∧ l.mapM f = some rest ∧ out = b :: rest := by
  rw [List.mapM_cons]
  constructor
  · intro h
    obtain ⟨b, hb, h⟩ := Option.bind_eq_some_iff.mp h
    obtain ⟨rest, hrest, h⟩ := Option.bind_eq_some_iff.mp h
    exact ⟨b, rest, hb, hrest, (Option.some_inj.mp h).symm⟩
  · rintro ⟨b, rest, hb, hrest, rfl⟩
    rw [hb, hrest]
    rfl

theorem mem_of_mapM (h : l.mapM f = some out) {a : α} (ha : a ∈ l) : ∃ b ∈ out, f a = some b := by
  induction l generalizing out with
  | nil => cases ha
  | cons c l ih =>
    obtain ⟨b, rest, hb, hrest, rfl⟩ := mapM_cons_eq_some.mp h
    rcases List.mem_cons.mp ha with rfl | ha
    · exact ⟨b, List.mem_cons_self, hb⟩
    · obtain ⟨b', hb', hf⟩ := ih hrest ha
      exact ⟨b', List.mem_cons_of_mem _ hb', hf⟩

theorem mapM_mem (h : l.mapM f = some out) {b : β} (hb : b ∈ out) : ∃ a ∈ l, f a = some b := by
  induction l generalizing out with
  | nil =>
    obtain rfl : [] = out := Option.some_inj.mp h
    cases hb
  | cons c l ih =>
    obtain ⟨b', rest, hb', hrest, rfl⟩ := mapM_cons_eq_some.mp h
    rcases List.mem_cons.mp hb with rfl | hb
    · exact ⟨c, List.mem_cons_self, hb'⟩
    · obtain ⟨a, ha, hf⟩ := ih hrest hb
      exact ⟨a, List.mem_cons_of_mem _ ha, hf⟩

theorem mapM_of_forall {f' : α → Option β} (h : l.mapM f = some out)
    (hf : ∀ a b, f a = some b → f' a = some b) : l.mapM f' = some out := by
  induction l generalizing out with
  | nil => exact h
  | cons a l ih =>
    obtain ⟨b, rest, hb, hrest, rfl⟩ := mapM_cons_eq_some.mp h
    exact mapM_cons_eq_some.mpr ⟨b, rest, hf a b hb, ih hrest, rfl⟩

theorem map_of_mapM {γ : Type} {g : β → γ} {k : α → γ} (h : l.mapM f = some out)
    (hf : ∀ a b, f a = some b → g b = k a) : out.map g = l.map k := by
  induction l generalizing out with
  | nil =>
    obtain rfl : [] = out := Option.some_inj.mp h
    rfl
  | cons a l ih =>
    obtain ⟨b, rest, hb, hrest, rfl⟩ := mapM_cons_eq_some.mp h
    rw [List.map_cons, List.map_cons, hf a b hb, ih hrest]

/-- What each element is at most, the list is at most. -/
theorem sum_mapM_le {g : β → ℕ} {k : α → ℕ} (h : l.mapM f = some out)
    (hf : ∀ a b, f a = some b → g b ≤ k a) : (out.map g).sum ≤ (l.map k).sum := by
  induction l generalizing out with
  | nil =>
    obtain rfl : [] = out := Option.some_inj.mp h
    exact le_refl 0
  | cons a l ih =>
    obtain ⟨b, rest, hb, hrest, rfl⟩ := mapM_cons_eq_some.mp h
    rw [List.map_cons, List.map_cons, List.sum_cons, List.sum_cons]
    exact Nat.add_le_add (hf a b hb) (ih hrest)

end Elements

theorem decodeEntry_of {p : ℕ × ℕ} {e : String × PlistValue F}
    (hkey : decode object d p.1 = some (.string e.1)) (hvalue : decode object d p.2 = some e.2) :
    decodeEntry object d p = some e := by
  unfold decodeEntry
  rw [hkey, hvalue]
  rfl

theorem decodeEntry_some {p : ℕ × ℕ} {e : String × PlistValue F}
    (h : decodeEntry object d p = some e) :
    decode object d p.1 = some (.string e.1) ∧ decode object d p.2 = some e.2 := by
  obtain ⟨key, hkey, h⟩ := Option.bind_eq_some_iff.mp h
  obtain ⟨value, hvalue, h⟩ := Option.bind_eq_some_iff.mp h
  obtain rfl : (key, value) = e := Option.some_inj.mp h
  obtain ⟨k, hk, hkey⟩ := Option.bind_eq_some_iff.mp hkey
  cases k <;> cases hkey
  exact ⟨hk, hvalue⟩

/-- How a value came about. -/
theorem decode_cases (h : decode object (d + 1) i = some v) :
    (∃ n, object i = some (.leaf v n)) ∨
    (∃ refs items, object i = some (.array refs) ∧ refs.mapM (decode object d) = some items ∧
      v = .array items) ∨
    ∃ entries out, object i = some (.dict entries) ∧
      entries.mapM (decodeEntry object d) = some out ∧ v = .dict out := by
  rw [decode] at h
  split at h
  · cases h
  · next u n hobject =>
    cases h
    exact .inl ⟨n, hobject⟩
  · next refs hobject =>
    obtain ⟨items, hitems, rfl⟩ := Option.map_eq_some_iff.mp h
    exact .inr (.inl ⟨refs, items, hobject, hitems, rfl⟩)
  · next entries hobject =>
    obtain ⟨out, hout, rfl⟩ := Option.map_eq_some_iff.mp h
    exact .inr (.inr ⟨entries, out, hobject, hout, rfl⟩)

/-- What an object refers to has a value, one level below. -/
theorem decode_of_refers {j : ℕ} (h : decode object (d + 1) i = some v)
    (hj : Refers object i j) : ∃ u, decode object d j = some u := by
  obtain ⟨s, hs, hmem⟩ := hj
  rcases decode_cases h with ⟨n, hobject⟩ | ⟨refs, items, hobject, hitems, -⟩ |
    ⟨entries, out, hobject, hout, -⟩
  · obtain rfl := Option.some_inj.mp (hs.symm.trans hobject)
    cases hmem
  · obtain rfl := Option.some_inj.mp (hs.symm.trans hobject)
    obtain ⟨u, -, hu⟩ := mem_of_mapM hitems hmem
    exact ⟨u, hu⟩
  · obtain rfl := Option.some_inj.mp (hs.symm.trans hobject)
    rcases List.mem_append.mp hmem with hkey | hval
    · obtain ⟨p, hp, rfl⟩ := List.mem_map.mp hkey
      obtain ⟨e, -, he⟩ := mem_of_mapM hout hp
      exact ⟨_, (decodeEntry_some he).1⟩
    · obtain ⟨p, hp, rfl⟩ := List.mem_map.mp hval
      obtain ⟨e, -, he⟩ := mem_of_mapM hout hp
      exact ⟨_, (decodeEntry_some he).2⟩

/-! ### Cycles -/

theorem decode_of_reaches {j : ℕ} (hpath : Relation.ReflTransGen (Refers object) i j)
    (h : decode object d i = some v) : ∃ e ≤ d, ∃ u, decode object e j = some u := by
  induction hpath with
  | refl => exact ⟨d, le_rfl, v, h⟩
  | tail _ hlast ih =>
    obtain ⟨e, he, u, hu⟩ := ih
    cases e with
    | zero => cases hu
    | succ e => exact ⟨e, Nat.le_of_succ_le he, decode_of_refers hu hlast⟩

theorem decode_of_below {j : ℕ} (hpath : Relation.TransGen (Refers object) i j)
    (h : decode object d i = some v) : ∃ e < d, ∃ u, decode object e j = some u := by
  obtain ⟨k, hfirst, hrest⟩ := Relation.TransGen.head'_iff.mp hpath
  cases d with
  | zero => cases h
  | succ d =>
    obtain ⟨u, hu⟩ := decode_of_refers h hfirst
    obtain ⟨e, he, hj⟩ := decode_of_reaches hrest hu
    exact ⟨e, Nat.lt_succ_of_le he, hj⟩

/-- Nothing on a cycle has a value: going round it would take a level each time. -/
theorem decode_eq_none_of_loop (hloop : Relation.TransGen (Refers object) i i) (d : ℕ) :
    decode object d i = none := by
  induction d using Nat.strong_induction_on with
  | _ d ih =>
    cases h : decode object d i with
    | none => rfl
    | some v =>
      obtain ⟨e, he, u, hu⟩ := decode_of_below hloop h
      rw [ih e he] at hu
      cases hu

theorem decode_eq_none_of_cyclic (hcyclic : Cyclic object i) (d : ℕ) :
    decode object d i = none := by
  obtain ⟨j, hpath, hloop⟩ := hcyclic
  cases h : decode object d i with
  | none => rfl
  | some v =>
    obtain ⟨e, -, u, hu⟩ := decode_of_reaches hpath h
    rw [decode_eq_none_of_loop hloop e] at hu
    cases hu

/-! ### Depth -/

/-- An empty container lies `d` references below object `i`. -/
def EmptyBelow (object : ℕ → Option (Shape F)) : ℕ → ℕ → Prop
  | 0, i => object i = some (.array []) ∨ object i = some (.dict [])
  | d + 1, i => ∃ j, Refers object i j ∧ EmptyBelow object d j

/-- Leaves are no containers. -/
def Leafy (object : ℕ → Option (Shape F)) : Prop :=
  ∀ i v n, object i = some (.leaf v n) → v.IsContainer = false

theorem foldr_max_le {l : List ℕ} {n : ℕ} : l.foldr max 0 ≤ n ↔ ∀ m ∈ l, m ≤ n := by
  induction l with
  | nil => simp
  | cons a l ih => rw [List.foldr_cons, max_le_iff, ih, List.forall_mem_cons]

theorem foldr_max_eq_succ {l : List ℕ} {n : ℕ} (h : ∀ m ∈ l, m ≤ n + 1) :
    l.foldr max 0 = n + 1 ↔ n + 1 ∈ l := by
  constructor
  · intro heq
    by_contra hnot
    have hle : l.foldr max 0 ≤ n := foldr_max_le.mpr fun m hm => by
      have hne : m ≠ n + 1 := fun he => hnot (he ▸ hm)
      have := h m hm
      omega
    omega
  · intro hmem
    exact le_antisymm (foldr_max_le.mpr h) (foldr_max_le.mp le_rfl _ hmem)

/-- A value is nested no deeper than it was decoded, and as deep only where an empty container
lies at the last level. -/
theorem nesting_decode (hleafy : Leafy object) (h : decode object (d + 1) i = some v) :
    v.nesting ≤ d + 1 ∧ (v.nesting = d + 1 ↔ EmptyBelow object d i) := by
  induction d generalizing i v with
  | zero =>
    rcases decode_cases h with ⟨n, hobject⟩ | ⟨refs, items, hobject, hitems, rfl⟩ |
      ⟨entries, out, hobject, hout, rfl⟩
    · have hzero := PlistValue.nesting_leaf (hleafy i v n hobject)
      refine ⟨by omega, fun hone => by omega, fun hempty => ?_⟩
      rcases hempty with hempty | hempty <;> rw [hobject] at hempty <;> cases hempty
    · cases refs with
      | nil =>
        obtain rfl : [] = items := Option.some_inj.mp hitems
        exact ⟨le_rfl, fun _ => .inl hobject, fun _ => rfl⟩
      | cons r refs =>
        obtain ⟨b, -, hb⟩ := mem_of_mapM hitems List.mem_cons_self
        cases hb
    · cases entries with
      | nil =>
        obtain rfl : [] = out := Option.some_inj.mp hout
        exact ⟨le_rfl, fun _ => .inr hobject, fun _ => rfl⟩
      | cons p entries =>
        obtain ⟨e, -, he⟩ := mem_of_mapM hout List.mem_cons_self
        cases (decodeEntry_some he).1
  | succ d ih =>
    rcases decode_cases h with ⟨n, hobject⟩ | ⟨refs, items, hobject, hitems, rfl⟩ |
      ⟨entries, out, hobject, hout, rfl⟩
    · have hzero := PlistValue.nesting_leaf (hleafy i v n hobject)
      refine ⟨by omega, fun hone => by omega, ?_⟩
      rintro ⟨j, ⟨s, hs, hmem⟩, -⟩
      obtain rfl := Option.some_inj.mp (hs.symm.trans hobject)
      cases hmem
    · have hle : ∀ m ∈ items.map PlistValue.nesting, m ≤ d + 1 := by
        intro m hm
        obtain ⟨u, hu, rfl⟩ := List.mem_map.mp hm
        obtain ⟨r, -, hr⟩ := mapM_mem hitems hu
        exact (ih hr).1
      rw [PlistValue.nesting_array]
      refine ⟨?_, ?_⟩
      · have := foldr_max_le.mpr hle
        omega
      · rw [show 1 + (items.map PlistValue.nesting).foldr max 0 = d + 1 + 1 ↔
          (items.map PlistValue.nesting).foldr max 0 = d + 1 by omega, foldr_max_eq_succ hle]
        constructor
        · intro hmem
          obtain ⟨u, hu, hdeep⟩ := List.mem_map.mp hmem
          obtain ⟨r, hr, hdecode⟩ := mapM_mem hitems hu
          exact ⟨r, ⟨_, hobject, hr⟩, (ih hdecode).2.mp hdeep⟩
        · rintro ⟨j, ⟨s, hs, hmem⟩, hempty⟩
          obtain rfl := Option.some_inj.mp (hs.symm.trans hobject)
          obtain ⟨u, hu, hdecode⟩ := mem_of_mapM hitems hmem
          exact List.mem_map.mpr ⟨u, hu, (ih hdecode).2.mpr hempty⟩
    · have hle : ∀ m ∈ out.map (fun e => e.2.nesting), m ≤ d + 1 := by
        intro m hm
        obtain ⟨e, he, rfl⟩ := List.mem_map.mp hm
        obtain ⟨p, -, hp⟩ := mapM_mem hout he
        exact (ih (decodeEntry_some hp).2).1
      rw [PlistValue.nesting_dict]
      refine ⟨?_, ?_⟩
      · have := foldr_max_le.mpr hle
        omega
      · rw [show 1 + (out.map fun e => e.2.nesting).foldr max 0 = d + 1 + 1 ↔
          (out.map fun e => e.2.nesting).foldr max 0 = d + 1 by omega, foldr_max_eq_succ hle]
        constructor
        · intro hmem
          obtain ⟨e, he, hdeep⟩ := List.mem_map.mp hmem
          obtain ⟨p, hp, hdecode⟩ := mapM_mem hout he
          refine ⟨p.2, ⟨_, hobject, ?_⟩, (ih (decodeEntry_some hdecode).2).2.mp hdeep⟩
          exact List.mem_append_right _ (List.mem_map_of_mem hp)
        · rintro ⟨j, ⟨s, hs, hmem⟩, hempty⟩
          obtain rfl := Option.some_inj.mp (hs.symm.trans hobject)
          rcases List.mem_append.mp hmem with hkey | hval
          · -- A key is a string, and nothing lies below it.
            obtain ⟨p, hp, rfl⟩ := List.mem_map.mp hkey
            obtain ⟨e, -, he⟩ := mem_of_mapM hout hp
            have hdeep := (ih (decodeEntry_some he).1).2.mpr hempty
            exact absurd hdeep (Nat.succ_ne_zero d).symm
          · obtain ⟨p, hp, rfl⟩ := List.mem_map.mp hval
            obtain ⟨e, he, hentry⟩ := mem_of_mapM hout hp
            refine List.mem_map.mpr ⟨e, he, ?_⟩
            exact (ih (decodeEntry_some hentry).2).2.mpr hempty

end Zencodec.Bplist
