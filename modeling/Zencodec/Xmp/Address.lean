/-
The addresses behind the paths of a snapshot.

A node's address is the list of its steps from the root: per step its namespace,
local name and number among the siblings of that name.  Addresses tell the fields
of a document apart (`addresses_nodup`); the snapshot lists the fields under the
text of their addresses (`fields_eq`), and is refused only when they take more than
its budget (`fields_isOk_iff`).
-/
import Zencodec.Xmp.Packet

open StableSort

namespace Zencodec.Xmp

/-- The nodes that are not elements, by their label in a path. -/
inductive Label
  | comment
  | pi
  | text
  deriving DecidableEq, Repr

def Label.name : Label → Text
  | .comment => ['#', 'c', 'o', 'm', 'm', 'e', 'n', 't']
  | .pi => ['#', 'p', 'i']
  | .text => ['#', 't', 'e', 'x', 't']

/-- One step of an address. -/
inductive Step
  | element (ns name : Text) (index : ℕ)
  | other (label : Label) (index : ℕ)
  | attr (ns : Option Text) (name : Text)
  deriving DecidableEq, Repr

/-- The text of a step. -/
def Step.spell : Step → Text
  | .element ns name index =>
    '/' :: ('{' :: (ns ++ '}' :: name) ++ '[' :: (decimal index ++ [']']))
  | .other label index => '/' :: (label.name ++ '[' :: (decimal index ++ [']']))
  | .attr ns name => '/' :: '@' :: '{' :: (ns.getD [] ++ '}' :: name)

/-- The text of an address. -/
def spell (address : List Step) : Text := address.flatMap Step.spell

@[simp] theorem spell_nil : spell [] = [] := rfl

@[simp] theorem spell_cons (s : Step) (a : List Step) : spell (s :: a) = s.spell ++ spell a :=
  List.flatMap_cons

@[simp] theorem spell_append (a b : List Step) : spell (a ++ b) = spell a ++ spell b :=
  List.flatMap_append

/-- The step to a node that is number `index` of its name. -/
def Node.step : Node → ℕ → Step
  | .element ns name _, index => .element (ns.getD []) name index
  | .comment _, index => .other .comment index
  | .pi _ _, index => .other .pi index
  | .text _, index => .other .text index

theorem Node.spell_step (n : Node) (index : ℕ) :
    (n.step index).spell = '/' :: (n.name ++ '[' :: (decimal index ++ [']'])) := by
  cases n <;> rfl

/-- A step tells the name and the number. -/
theorem Node.of_step {n m : Node} {i j : ℕ} (h : n.step i = m.step j) :
    n.name = m.name ∧ i = j := by
  cases n <;> cases m <;> simp [Node.step] at h <;> simp [Node.name, h]

/-- The step to an attribute. -/
def Attribute.step (a : Attribute) : Step := .attr a.ns a.name

namespace Document

variable (d : Document)

/-- The number of nodes before index `i` with a parent and a name. -/
def before (i parent : ℕ) (name : Text) : ℕ :=
  (d.nodes.take i).countP fun r => r.parent = parent ∧ r.node.name = name

theorem row_parent_lt {d : Document} {id : ℕ} {r : Row} (h : d.row id = some r) :
    r.parent < id := by
  cases id with
  | zero => cases h
  | succ i => exact Nat.lt_succ_of_le (d.parent_le i r h)

/-- The steps from the root to a node. -/
def address (id : ℕ) : List Step :=
  match h : d.row id with
  | none => []
  | some r =>
    have := row_parent_lt h
    address r.parent ++ [r.node.step (d.before (id - 1) r.parent r.node.name)]
termination_by id

@[simp] theorem address_zero : d.address 0 = [] := by
  rw [address]
  rfl

variable {d}

theorem address_succ {i : ℕ} {r : Row} (h : d.nodes[i]? = some r) :
    d.address (i + 1) =
      d.address r.parent ++ [r.node.step (d.before i r.parent r.node.name)] := by
  have hrow : d.row (i + 1) = some r := h
  rw [address]
  split
  · next hnone => rw [hrow] at hnone; cases hnone
  · next r' hsome =>
    obtain rfl : r' = r := Option.some.inj (hsome.symm.trans hrow)
    rfl

theorem address_none {i : ℕ} (h : d.nodes[i]? = none) : d.address (i + 1) = [] := by
  have hrow : d.row (i + 1) = none := h
  rw [address]
  split
  · rfl
  · next r hsome => rw [hrow] at hsome; cases hsome

theorem before_succ {i : ℕ} {r : Row} (h : d.nodes[i]? = some r) (p : ℕ) (name : Text) :
    d.before (i + 1) p name =
      d.before i p name + if r.parent = p ∧ r.node.name = name then 1 else 0 := by
  have hi : i < d.nodes.length := (List.getElem?_eq_some_iff.mp h).1
  have hr : d.nodes[i] = r := (List.getElem?_eq_some_iff.mp h).2
  rw [before, List.take_succ_eq_append_getElem hi, hr, List.countP_append, before,
    List.countP_singleton]
  simp

theorem before_mono {i j : ℕ} (h : i ≤ j) (p : ℕ) (name : Text) :
    d.before i p name ≤ d.before j p name :=
  ((List.take_prefix_take_left h).sublist).countP_le

/-- A later node of one parent and name has a greater number. -/
theorem before_lt {i j : ℕ} {r : Row} (h : d.nodes[i]? = some r) (hij : i < j) :
    d.before i r.parent r.node.name < d.before j r.parent r.node.name := by
  have hs := before_succ h r.parent r.node.name
  rw [if_pos ⟨rfl, rfl⟩] at hs
  have hm : d.before (i + 1) r.parent r.node.name ≤ d.before j r.parent r.node.name :=
    before_mono hij _ _
  omega

/-- Addresses tell the nodes apart. -/
theorem address_inj {i : ℕ} : ∀ {j : ℕ}, i ≤ d.nodes.length → j ≤ d.nodes.length →
    d.address i = d.address j → i = j := by
  induction i using Nat.strong_induction_on with
  | _ i ih =>
    intro j hi hj h
    match i, j with
    | 0, 0 => rfl
    | 0, j + 1 =>
      obtain ⟨r, hr⟩ : ∃ r, d.nodes[j]? = some r := ⟨_, List.getElem?_eq_getElem hj⟩
      rw [address_succ hr, address_zero] at h
      simp at h
    | i + 1, 0 =>
      obtain ⟨r, hr⟩ : ∃ r, d.nodes[i]? = some r := ⟨_, List.getElem?_eq_getElem hi⟩
      rw [address_succ hr, address_zero] at h
      simp at h
    | i + 1, j + 1 =>
      obtain ⟨r, hr⟩ : ∃ r, d.nodes[i]? = some r := ⟨_, List.getElem?_eq_getElem hi⟩
      obtain ⟨s, hs⟩ : ∃ s, d.nodes[j]? = some s := ⟨_, List.getElem?_eq_getElem hj⟩
      have hpr := d.parent_le i r hr
      have hps := d.parent_le j s hs
      rw [address_succ hr, address_succ hs] at h
      obtain ⟨hp, hstep⟩ := List.append_inj' h rfl
      -- the parents agree, so both nodes are counted among the same siblings
      have hparent : r.parent = s.parent := ih _ (by omega) (by omega) (by omega) hp
      obtain ⟨hname, hindex⟩ := Node.of_step (List.singleton_inj.mp hstep)
      rcases lt_trichotomy i j with hij | rfl | hij
      · have hlt := before_lt hr hij
        rw [hparent, hname] at hlt hindex
        omega
      · rfl
      · have hlt := before_lt hs hij
        rw [← hparent, ← hname] at hlt hindex
        omega

/-! ### The fields of a document -/

variable (d)

/-- The fields of a node, by address and value. -/
def listed (parent : ℕ) (address : List Step) : Node → List (List Step × Text)
  | .element _ _ attributes =>
    (address, []) :: attributes.map fun a => (address ++ [a.step], a.value)
  | .pi target value => [(address, target ++ ' ' :: value.getD [])]
  | .comment text => [(address, text)]
  | .text text => if !isBlank text || !d.hasElement parent then [(address, text)] else []

/-- The fields of the node at an index. -/
def listedAt (i : ℕ) : List (List Step × Text) :=
  match d.nodes[i]? with
  | none => []
  | some r => d.listed r.parent (d.address (i + 1)) r.node

/-- The fields of the document. -/
def listing : List (List Step × Text) := (List.range d.nodes.length).flatMap d.listedAt

/-- The addresses of the fields of the document. -/
def addresses : List (List Step) := d.listing.map Prod.fst

variable {d}

/-- A field is a node's own or one of its attributes. -/
theorem mem_listed {p : ℕ} {a x : List Step} {n : Node} {v : Text}
    (h : (x, v) ∈ d.listed p a n) :
    x = a ∨ ∃ b ∈ n.attributes, x = a ++ [b.step] := by
  cases n with
  | element ns name attributes =>
    rcases List.mem_cons.mp h with h | h
    · exact Or.inl (congrArg Prod.fst h)
    · obtain ⟨b, hb, h⟩ := List.mem_map.mp h
      exact Or.inr ⟨b, hb, (congrArg Prod.fst h).symm⟩
  | comment text => exact Or.inl (congrArg Prod.fst (List.mem_singleton.mp h))
  | pi target value => exact Or.inl (congrArg Prod.fst (List.mem_singleton.mp h))
  | text text =>
    rw [listed] at h
    split at h
    · exact Or.inl (congrArg Prod.fst (List.mem_singleton.mp h))
    · cases h

theorem listedAt_of {i : ℕ} {r : Row} (h : d.nodes[i]? = some r) :
    d.listedAt i = d.listed r.parent (d.address (i + 1)) r.node := by
  rw [listedAt, h]

theorem nodup_listed {p : ℕ} {a : List Step} {n : Node} (hn : n.Plain) :
    ((d.listed p a n).map Prod.fst).Nodup := by
  cases n with
  | element ns name attributes =>
    rw [listed, List.map_cons, List.map_map, List.nodup_cons]
    constructor
    · intro h
      obtain ⟨b, -, hb⟩ := List.mem_map.mp h
      exact absurd hb (by simp)
    · rw [List.nodup_iff_pairwise_ne, List.pairwise_map]
      refine hn.distinct.imp fun {b c} hbc h => hbc ?_
      have hstep := List.singleton_inj.mp (List.append_cancel_left h)
      simp only [Attribute.step, Step.attr.injEq] at hstep
      rw [hstep.1, hstep.2]
  | comment text => exact List.nodup_singleton _
  | pi target value => exact List.nodup_singleton _
  | text text =>
    rw [listed]
    split
    · exact List.nodup_singleton _
    · exact List.nodup_nil

/-- A node's address ends with a step to a node. -/
theorem address_getLast {i : ℕ} {r : Row} (h : d.nodes[i]? = some r) (b : Attribute) :
    (d.address (i + 1)).getLast? ≠ some b.step := by
  rw [address_succ h, List.getLast?_concat]
  cases r.node <;> simp [Node.step, Attribute.step]

/-- The node a field belongs to can be read off its address. -/
theorem index_of_mem {i j : ℕ} {x : List Step} {v w : Text} (hi : (x, v) ∈ d.listedAt i)
    (hj : (x, w) ∈ d.listedAt j) : i = j := by
  rcases hr : d.nodes[i]? with - | r
  · rw [listedAt, hr] at hi; cases hi
  rcases hs : d.nodes[j]? with - | s
  · rw [listedAt, hs] at hj; cases hj
  have hil : i + 1 ≤ d.nodes.length := (List.getElem?_eq_some_iff.mp hr).1
  have hjl : j + 1 ≤ d.nodes.length := (List.getElem?_eq_some_iff.mp hs).1
  rw [listedAt_of hr] at hi
  rw [listedAt_of hs] at hj
  rcases mem_listed hi with rfl | ⟨b, -, rfl⟩ <;> rcases mem_listed hj with h | ⟨c, -, h⟩
  · exact Nat.succ.inj (address_inj hil hjl h)
  · exact absurd (by rw [h, List.getLast?_concat]) (address_getLast hr c)
  · exact absurd (by rw [← h, List.getLast?_concat]) (address_getLast hs b)
  · exact Nat.succ.inj (address_inj hil hjl (List.append_inj' h rfl).1)

/-- **Addresses tell the fields of a document apart.** -/
theorem addresses_nodup (d : Document) : d.addresses.Nodup := by
  rw [addresses, listing, List.map_flatMap, List.nodup_flatMap]
  constructor
  · intro i _
    rcases hr : d.nodes[i]? with - | r
    · rw [listedAt, hr]; exact List.nodup_nil
    · rw [listedAt_of hr]
      exact nodup_listed (d.plain r (List.mem_of_getElem? hr))
  · refine List.nodup_range.imp fun {i j} hij x hx hx' => hij ?_
    obtain ⟨⟨x, v⟩, hi, rfl⟩ := List.mem_map.mp hx
    obtain ⟨⟨y, w⟩, hj, h⟩ := List.mem_map.mp hx'
    obtain rfl : y = x := h
    exact index_of_mem hi hj

end Document

/-! ### The walk lists the fields under their spelled addresses -/

/-- A field under its spelled address. -/
def toField (x : List Step × Text) : Field := ⟨spell x.1, x.2⟩

theorem attributePath_spell (a : List Step) (b : Attribute) :
    attributePath (spell a) b = spell (a ++ [b.step]) := by
  rw [spell_append, spell_cons, spell_nil, List.append_nil]
  rfl

/-- The state of the walk before the node at index `i`. -/
structure Walked (d : Document) (i : ℕ) (w : Walk) : Prop where
  out : w.out = ((List.range i).flatMap d.listedAt).map toField
  paths : ∀ id ≤ i, (w.paths id).getD [] = spell (d.address id)
  occurrences : ∀ p name, w.occurrences (p, name) = d.before i p name

theorem Walked.start (d : Document) : Walked d 0 Walk.start where
  out := rfl
  paths id hid := by
    obtain rfl := Nat.le_zero.mp hid
    rw [d.address_zero]
    rfl
  occurrences _ _ := rfl

theorem Walk.attrs_eq {path : Text} {w' : Walk} : ∀ {attributes : List Attribute} {w : Walk},
    attributes.foldlM (Walk.attr path) w = .ok w' →
      w'.out = w.out ++ attributes.map (fun a => ⟨attributePath path a, a.value⟩) ∧
        w'.paths = w.paths ∧ w'.occurrences = w.occurrences
  | [], w, h => by
    obtain rfl : w = w' := Except.ok.inj h
    simp
  | a :: attributes, w, h => by
    rw [List.foldlM_cons] at h
    unfold Walk.attr at h
    dsimp only at h
    split at h
    · cases h
    · obtain ⟨hout, hpaths, hocc⟩ := Walk.attrs_eq h
      refine ⟨?_, hpaths, hocc⟩
      rw [hout, Walk.push, List.append_assoc, List.map_cons]
      rfl

/-- What a node adds to the list. -/
theorem Walk.list_eq {d : Document} {p : ℕ} {a : List Step} {w w' : Walk} {n : Node}
    (h : Walk.list d p (spell a) w n = .ok w') :
    w'.out = w.out ++ (d.listed p a n).map toField ∧
      w'.paths = w.paths ∧ w'.occurrences = w.occurrences := by
  cases n with
  | element ns name attributes =>
    obtain ⟨hout, hpaths, hocc⟩ := Walk.attrs_eq h
    refine ⟨?_, hpaths, hocc⟩
    have hfields : attributes.map (fun b => (⟨attributePath (spell a) b, b.value⟩ : Field)) =
        (attributes.map fun b => (a ++ [b.step], b.value)).map toField := by
      rw [List.map_map]
      exact List.map_congr_left fun b _ => by rw [attributePath_spell]; rfl
    rw [hout, hfields, Walk.push, List.append_assoc]
    rfl
  | pi target value =>
    obtain rfl := Except.ok.inj h
    exact ⟨rfl, rfl, rfl⟩
  | comment text =>
    obtain rfl := Except.ok.inj h
    exact ⟨rfl, rfl, rfl⟩
  | text text =>
    rw [Walk.list, Except.ok.injEq] at h
    subst h
    rw [Document.listed]
    split
    · exact ⟨rfl, rfl, rfl⟩
    · exact ⟨(List.append_nil _).symm, rfl, rfl⟩

/-- The path built for a node is its spelled address. -/
theorem Walked.path {d : Document} {i : ℕ} {w : Walk} {r : Row} (hw : Walked d i w)
    (hr : d.nodes[i]? = some r) :
    (w.paths r.parent).getD [] ++ '/' :: (r.node.name ++ '[' ::
      (decimal (w.occurrences (r.parent, r.node.name)) ++ [']'])) =
        spell (d.address (i + 1)) := by
  rw [Document.address_succ hr, spell_append, spell_cons, spell_nil, List.append_nil,
    Node.spell_step, hw.paths _ (d.parent_le i r hr), hw.occurrences]

theorem Walked.node {d : Document} {i : ℕ} {w w' : Walk} {r : Row} (hw : Walked d i w)
    (hr : d.nodes[i]? = some r) (h : w.node d (i + 1) r = .ok w') : Walked d (i + 1) w' := by
  unfold Walk.node at h
  simp only [hw.path hr] at h
  split at h
  · cases h
  obtain ⟨hout, hpaths, hocc⟩ := Walk.list_eq h
  dsimp only at hout hpaths hocc
  refine ⟨?_, fun id hid => ?_, fun p name => ?_⟩
  · rw [hout, hw.out, List.range_succ, List.flatMap_append, List.map_append,
      List.flatMap_singleton, Document.listedAt_of hr]
  · rw [hpaths]
    rcases Nat.lt_or_eq_of_le hid with hlt | rfl
    · rw [Function.update_of_ne (Nat.ne_of_lt hlt)]
      exact hw.paths id (Nat.le_of_lt_succ hlt)
    · rw [Function.update_self]
      rfl
  · rw [hocc, Document.before_succ hr]
    by_cases hname : r.parent = p ∧ r.node.name = name
    · obtain ⟨rfl, rfl⟩ := hname
      rw [Function.update_self, if_pos ⟨rfl, rfl⟩, hw.occurrences]
    · rw [Function.update_of_ne, hw.occurrences, if_neg hname, Nat.add_zero]
      intro heq
      exact hname ⟨(congrArg Prod.fst heq).symm, (congrArg Prod.snd heq).symm⟩

theorem getElem?_of_cons_eq_drop {l rest : List Row} {r : Row} {i : ℕ}
    (h : r :: rest = l.drop i) : l[i]? = some r := by
  rw [← List.head?_drop, ← h]
  rfl

theorem tail_eq_drop {l rest : List Row} {r : Row} {i : ℕ} (h : r :: rest = l.drop i) :
    rest = l.drop (i + 1) := by
  rw [← List.tail_drop, ← h]
  rfl

theorem Walked.nodes {d : Document} {w' : Walk} : ∀ {rows : List Row} {i : ℕ} {w : Walk},
    rows = d.nodes.drop i → i ≤ d.nodes.length → Walked d i w →
      w.nodes d (i + 1) rows = .ok w' → Walked d d.nodes.length w'
  | [], i, w, hrows, hi, hw, h => by
    obtain rfl : w = w' := Except.ok.inj h
    have hlen := List.drop_eq_nil_iff.mp hrows.symm
    rwa [show i = d.nodes.length by omega] at hw
  | r :: rows, i, w, hrows, hi, hw, h => by
    have hr := getElem?_of_cons_eq_drop hrows
    have hlt : i < d.nodes.length := (List.getElem?_eq_some_iff.mp hr).1
    rw [Walk.nodes] at h
    cases hn : w.node d (i + 1) r with
    | error e => rw [hn] at h; cases h
    | ok w₁ =>
      rw [hn] at h
      exact Walked.nodes (tail_eq_drop hrows) hlt (hw.node hr hn) h

/-! ### The budget -/

/-- What an attribute below a path takes of the budget. -/
def Attribute.cost (path : Text) (a : Attribute) : ℕ :=
  byteLen path + byteLen (a.ns.getD []) + byteLen a.name + byteLen a.value

/-- What a node takes of the budget. -/
def Node.cost (path : Text) (n : Node) : ℕ :=
  byteLen path * 2 + (n.attributes.map (Attribute.cost path)).sum

namespace Document

variable (d : Document)

def costAt (i : ℕ) : ℕ :=
  match d.nodes[i]? with
  | none => 0
  | some r => r.node.cost (spell (d.address (i + 1)))

/-- What the nodes before index `i` take of the budget. -/
def costTo (i : ℕ) : ℕ := ((List.range i).map d.costAt).sum

/-- What a snapshot of the document takes of the budget. -/
def cost : ℕ := d.costTo d.nodes.length

variable {d}

theorem costTo_succ {i : ℕ} {r : Row} (h : d.nodes[i]? = some r) :
    d.costTo (i + 1) = d.costTo i + r.node.cost (spell (d.address (i + 1))) := by
  simp [costTo, List.range_succ, costAt, h]

theorem costTo_mono {i j : ℕ} (h : i ≤ j) : d.costTo i ≤ d.costTo j := by
  obtain ⟨k, rfl⟩ := Nat.exists_eq_add_of_le h
  rw [costTo, costTo, List.range_add, List.map_append, List.sum_append]
  exact Nat.le_add_right _ _

end Document

/-- A computation that takes `cost` of what the budget leaves, and fails when that is more. -/
def Spends (run : Except Error Walk) (w : Walk) (cost : ℕ) : Prop :=
  (∃ w', run = .ok w' ∧ w'.budget = w.budget + cost ∧ w'.budget ≤ maxBytes) ∨
    run = .error .limit ∧ maxBytes < w.budget + cost

theorem saturatingAdd_le {a b : ℕ} : saturatingAdd a b ≤ maxBytes ↔ a + b ≤ maxBytes := by
  have hmax : maxBytes < usizeMax := by decide
  unfold saturatingAdd
  omega

theorem saturatingAdd_eq {a b : ℕ} (h : a + b ≤ maxBytes) : saturatingAdd a b = a + b := by
  have hmax : maxBytes < usizeMax := by decide
  unfold saturatingAdd
  omega

theorem Spends.attr (path : Text) (w : Walk) (a : Attribute) :
    Spends (w.attr path a) w (a.cost path) := by
  unfold Walk.attr
  dsimp only
  split
  · next h =>
    have hlt : ¬ w.budget + a.cost path ≤ maxBytes := fun hle =>
      absurd (saturatingAdd_le.mpr hle) (not_le.mpr h)
    exact Or.inr ⟨rfl, not_le.mp hlt⟩
  · next h =>
    have hle := saturatingAdd_le.mp (not_lt.mp h)
    have heq := saturatingAdd_eq hle
    exact Or.inl ⟨_, rfl, heq, heq.trans_le hle⟩

theorem Spends.nothing {w : Walk} (h : w.budget ≤ maxBytes) {w' : Walk}
    (hw : w'.budget = w.budget) : Spends (.ok w') w 0 :=
  Or.inl ⟨w', rfl, hw, hw.trans_le h⟩

theorem Spends.bind {run : Except Error Walk} {f : Walk → Except Error Walk} {w : Walk}
    {c d : ℕ} (h : Spends run w c)
    (hf : ∀ w', run = .ok w' → w'.budget ≤ maxBytes → Spends (f w') w' d) :
    Spends (run >>= f) w (c + d) := by
  rcases h with ⟨w', rfl, hw', hle⟩ | ⟨rfl, hlt⟩
  · rcases hf w' rfl hle with ⟨w'', hrun, hw'', hle'⟩ | ⟨hrun, hlt⟩
    · exact Or.inl ⟨w'', hrun, by omega, hle'⟩
    · exact Or.inr ⟨hrun, by omega⟩
  · exact Or.inr ⟨rfl, by omega⟩

/-- What was taken before a computation counts as well. -/
theorem Spends.after {run : Except Error Walk} {w w₁ : Walk} {c d : ℕ} (h : Spends run w₁ d)
    (hw : w₁.budget = w.budget + c) : Spends run w (c + d) := by
  rcases h with ⟨w', hrun, hw', hle⟩ | ⟨hrun, hlt⟩
  · exact Or.inl ⟨w', hrun, by omega, hle⟩
  · exact Or.inr ⟨hrun, by omega⟩

theorem Spends.attrs (path : Text) : ∀ (attributes : List Attribute) (w : Walk),
    w.budget ≤ maxBytes →
      Spends (attributes.foldlM (Walk.attr path) w) w
        ((attributes.map (Attribute.cost path)).sum)
  | [], _, h => Spends.nothing h rfl
  | a :: attributes, w, _ => by
    rw [List.foldlM_cons, List.map_cons, List.sum_cons]
    exact (Spends.attr path w a).bind fun w' _ hle => Spends.attrs path attributes w' hle

theorem Spends.list (d : Document) (p : ℕ) (path : Text) {w : Walk} (n : Node)
    (h : w.budget ≤ maxBytes) :
    Spends (Walk.list d p path w n) w ((n.attributes.map (Attribute.cost path)).sum) := by
  cases n with
  | element ns name attributes => exact Spends.attrs path attributes (w.push path []) h
  | comment text => exact Spends.nothing h rfl
  | pi target value => exact Spends.nothing h rfl
  | text text =>
    refine Spends.nothing h ?_
    split <;> rfl

theorem Spends.node {d : Document} {i : ℕ} {w : Walk} {r : Row} (hw : Walked d i w)
    (hr : d.nodes[i]? = some r) :
    Spends (w.node d (i + 1) r) w (r.node.cost (spell (d.address (i + 1)))) := by
  unfold Walk.node
  simp only [hw.path hr]
  split
  · next h =>
    have hlt : ¬ w.budget + byteLen (spell (d.address (i + 1))) * 2 ≤ maxBytes := fun hle =>
      absurd (saturatingAdd_le.mpr hle) (not_le.mpr h)
    exact Or.inr ⟨rfl, (not_le.mp hlt).trans_le (by rw [Node.cost]; omega)⟩
  · next h =>
    have hle := saturatingAdd_le.mp (not_lt.mp h)
    have heq := saturatingAdd_eq hle
    exact (Spends.list d r.parent _ r.node (heq.trans_le hle)).after heq

theorem Spends.nodes {d : Document} : ∀ {rows : List Row} {i : ℕ} {w : Walk},
    rows = d.nodes.drop i → i ≤ d.nodes.length → Walked d i w → w.budget = d.costTo i →
      w.budget ≤ maxBytes → Spends (w.nodes d (i + 1) rows) w (d.cost - d.costTo i)
  | [], i, w, hrows, hi, _, _, hle => by
    have hlen := List.drop_eq_nil_iff.mp hrows.symm
    rw [Document.cost, show d.nodes.length = i by omega, Nat.sub_self]
    exact Spends.nothing hle rfl
  | r :: rows, i, w, hrows, hi, hw, hbudget, _ => by
    have hr := getElem?_of_cons_eq_drop hrows
    have hlt : i < d.nodes.length := (List.getElem?_eq_some_iff.mp hr).1
    have hsum := Document.costTo_succ hr
    have hmono : d.costTo (i + 1) ≤ d.cost := Document.costTo_mono hlt
    rw [Walk.nodes, show d.cost - d.costTo i =
      r.node.cost (spell (d.address (i + 1))) + (d.cost - d.costTo (i + 1)) by omega]
    refine (Spends.node hw hr).bind fun w' hn hle => ?_
    have hspent : w'.budget = d.costTo (i + 1) := by
      rcases Spends.node hw hr with ⟨w'', hrun, hw'', -⟩ | ⟨hrun, -⟩
      · obtain rfl : w'' = w' := Except.ok.inj (hrun.symm.trans hn)
        omega
      · rw [hrun] at hn; cases hn
    exact Spends.nodes (tail_eq_drop hrows) hlt (hw.node hr hn) hspent hle

/-- **A snapshot is taken of every document it has the budget for.** -/
theorem fields_isOk_iff (d : Document) :
    (∃ fs, Packet.fields d = .ok fs) ↔ d.cost ≤ maxBytes := by
  have hspends : Spends (Walk.start.nodes d 1 d.nodes) Walk.start (d.cost - d.costTo 0) :=
    Spends.nodes rfl (Nat.zero_le _) (Walked.start d) rfl (Nat.zero_le _)
  have hzero : Walk.start.budget + (d.cost - d.costTo 0) = d.cost := by
    simp [Walk.start, Document.costTo]
  unfold Packet.fields
  rcases hspends with ⟨w, hrun, hbudget, hle⟩ | ⟨hrun, hlt⟩
  · rw [hrun]
    exact ⟨fun _ => by omega, fun _ => ⟨_, rfl⟩⟩
  · rw [hrun]
    refine ⟨?_, fun hle => by omega⟩
    rintro ⟨fs, hfs⟩
    cases hfs

/-- **The snapshot lists the document's fields, in the order of their spelled addresses.** -/
theorem fields_eq {d : Document} {fs : List Field} (h : Packet.fields d = .ok fs) :
    fs = sortBy Field.path (d.listing.map toField) := by
  unfold Packet.fields at h
  cases hw : Walk.start.nodes d 1 d.nodes with
  | error e => rw [hw] at h; cases h
  | ok w =>
    rw [hw] at h
    have hout := (Walked.nodes rfl (Nat.zero_le _) (Walked.start d) hw).out
    rw [← Except.ok.inj h]
    exact congrArg (sortBy Field.path) hout

end Zencodec.Xmp
