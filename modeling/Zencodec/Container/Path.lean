/-
The way to the items of a directory.

`Document.rewrite` leads a rewriter of items from the root of a packet to the items of
its directories, the way `resourceSequenceSpanned` goes, and leaves the rest of the
packet as it is.  Its replacements are those of the items (`edits_rewrite`), and the
rewritten packet has the sequences the packet has, of rewritten items
(`SequenceOf.rewrite`, `propertyNodes_rewrite`).
-/
import Zencodec.Container.Reading

namespace Zencodec.Container

open Xmp (Text Attribute)
open Weave (Piece Edit before after)

/-- The items below a property node. -/
def Node.entryNodes (n : Node) : List Node :=
  n.elements.flatMap fun seq => seq.elements.flatMap Node.elements

def Tag.isDirectory (containerNs : Text) (t : Tag) : Bool :=
  t.hasName containerNs "Directory".toList

/-- The namespace of a directory's items, for a node that is a directory. -/
def Node.directory (n : Node) : List (Text × Node) :=
  if n.tag.isDirectory containerNamespace then [(itemNamespace, n)]
  else if n.tag.isDirectory depthContainerNamespace then [(depthItemNamespace, n)]
  else []

/-- The directories of a packet, each with the namespace of its items. -/
def Document.directories (d : Document) : List (Text × Node) :=
  d.descriptions.flatMap fun p => p.elements.flatMap Node.directory

/-- The items of the directories of a packet, each with its namespace, in document order. -/
def Document.itemNodes (d : Document) : List (Text × Node) :=
  d.directories.flatMap fun p => p.2.entryNodes.map fun i => (p.1, i)

namespace Rewriter

variable (item : Text → Rewriter)

/-- Rewrites the items below a property node. -/
def items (r : Rewriter) : Rewriter := r.children.children.children

/-- Rewrites the items of a node that is a directory. -/
def directory : Rewriter :=
  (items (item itemNamespace)).choose
    ((items (item depthItemNamespace)).choose keep (Tag.isDirectory depthContainerNamespace))
    (Tag.isDirectory containerNamespace)

/-- Rewrites the items of a description. -/
def description : Rewriter := (directory item).children.choose keep Tag.isDescription

end Rewriter

/-- Rewrites the items below the root, of the children. -/
def Document.inner (item : Text → Rewriter) (d : Document) : Rewriter :=
  if d.tag.isRdf then .description item
  else if d.tag.isXmpmeta then (Rewriter.description item).children.choose .keep Tag.isRdf
  else .keep

/-- The packet with its items rewritten. -/
def Document.rewrite (item : Text → Rewriter) (d : Document) : Document :=
  { d with children := d.children.map (d.inner item).target }

/-- The parts of a packet whose items are rewritten. -/
def Document.script (item : Text → Rewriter) (d : Document) : List (Piece Char) :=
  .keep d.prolog :: ((d.inner item).children.script d.root ++ [.keep d.epilog])

variable (item : Text → Rewriter) (d : Document)

theorem root_rewrite : (d.rewrite item).root = (d.inner item).children.target d.root := rfl

theorem before_script : before (d.script item) = d.render := by
  rw [Document.script, Weave.before_cons, Weave.before_append, Rewriter.before_script]
  simp [Piece.old, Document.render]

theorem after_script : after (d.script item) = (d.rewrite item).render := by
  rw [Document.script, Weave.after_cons, Weave.after_append, Rewriter.after_script]
  simp only [Piece.new, Weave.after_cons, Weave.after_nil, List.append_nil, Document.render,
    root_rewrite]
  rfl

theorem proper_script {d : Document} (hd : d.Lexical) : ∀ p ∈ d.script item, p.Proper := by
  intro p hp
  rcases List.mem_cons.mp hp with rfl | hp
  · trivial
  rcases List.mem_append.mp hp with hp | hp
  · exact (d.inner item).children.proper d.root hd p hp
  · rw [List.mem_singleton.mp hp]
    trivial

theorem rewrite_renumbered : d.Renumbered (d.rewrite item) where
  prolog := rfl
  epilog := rfl
  root := (d.inner item).children.renumbered d.root

/-! ### Replacements -/

theorem edits_items (r : Rewriter) (n : Node) :
    (Rewriter.items r).edits n.start n.markup =
      n.entryNodes.flatMap fun i => r.edits i.start i.markup := by
  rw [Rewriter.items, Rewriter.edits_children, Node.entryNodes, List.flatMap_assoc]
  refine List.flatMap_congr fun seq _ => ?_
  rw [Rewriter.edits_children, List.flatMap_assoc]
  exact List.flatMap_congr fun li _ => Rewriter.edits_children r li

theorem edits_directory (n : Node) :
    (Rewriter.directory item).edits n.start n.markup = n.directory.flatMap fun p =>
      p.2.entryNodes.flatMap fun i => (item p.1).edits i.start i.markup := by
  rw [Rewriter.directory, Rewriter.edits_choose, Rewriter.edits_choose, Node.directory]
  split
  · rw [edits_items, List.flatMap_singleton]
  · split
    · rw [edits_items, List.flatMap_singleton]
    · rfl

theorem edits_description (n : Node) :
    (Rewriter.description item).edits n.start n.markup =
      if n.tag.isDescription then n.elements.flatMap fun c =>
        (Rewriter.directory item).edits c.start c.markup
      else [] := by
  rw [Rewriter.description, Rewriter.edits_choose, Rewriter.edits_children]
  rfl

theorem flatMap_ite_filter {α β : Type*} (p : α → Bool) (f : α → List β) (l : List α) :
    (l.flatMap fun a => if p a then f a else []) = (l.filter p).flatMap f := by
  induction l with
  | nil => rfl
  | cons a l ih =>
    rw [List.flatMap_cons, ih, List.filter_cons]
    split
    · exact List.flatMap_cons.symm
    · rfl

theorem edits_inner : (d.inner item).children.edits d.node.start d.node.markup =
    d.descriptions.flatMap fun p => p.elements.flatMap fun c =>
      (Rewriter.directory item).edits c.start c.markup := by
  rw [Rewriter.edits_children, Document.descriptions_eq, Document.inner]
  split
  · simp only [edits_description, flatMap_ite_filter]
  · split
    · simp only [Rewriter.edits_choose, Rewriter.edits_children, edits_description,
        flatMap_ite_filter, Rewriter.edits_keep]
      rw [List.flatMap_assoc]
    · simp

/-- The replacements of a packet are those of its items. -/
theorem edits_rewrite : Weave.edits 0 (d.script item) =
    d.itemNodes.flatMap fun p => (item p.1).edits p.2.start p.2.markup := by
  have hinner := edits_inner item d
  rw [Document.script, Weave.edits_keep, Weave.edits_append, Weave.edits_keep, Weave.edits_nil,
    List.append_nil, Nat.zero_add]
  refine hinner.trans ?_
  rw [Document.itemNodes, Document.directories, List.flatMap_assoc, List.flatMap_assoc]
  refine List.flatMap_congr fun p _ => ?_
  simp only [List.flatMap_assoc]
  refine List.flatMap_congr fun c _ => (edits_directory item c).trans ?_
  refine List.flatMap_congr fun q _ => ?_
  rw [List.flatMap_map]

/-! ### The rewritten packet -/

theorem structuralNode_maps {r : Rewriter} {n n' : Node} (h : r.children.Maps n n')
    (allow : Bool) : structuralNode n' allow = structuralNode n allow := by
  rw [structuralNode, structuralNode, h.tag, h.hasText]

/-- White space stays white space. -/
def Rewriter.KeepsText (r : Rewriter) : Prop := ∀ n n', r.Maps n n' → n'.hasText = n.hasText

theorem ListItem.rewrite {r : Rewriter} (hr : r.KeepsText) {itemNs itemName : Text}
    {li li' i : Node} (h : ListItem itemNs itemName li i) (hli : r.children.Maps li li') :
    ∃ i', ListItem itemNs itemName li' i' ∧ r.Maps i i' := by
  have helements := hli.elements
  rw [h.only] at helements
  obtain ⟨i', rest, hi, hrest, honly⟩ := List.forall₂_cons_left_iff.mp helements
  rw [List.forall₂_nil_left_iff.mp hrest] at honly
  refine ⟨i', ⟨?_, ?_, honly, ?_, ?_⟩, hi⟩
  · rw [hli.tag]
    exact h.entry
  · rw [structuralNode_maps hli]
    exact h.structural
  · rw [hi.hasName]
    exact h.named
  · rw [hr i i' hi]
    exact h.blank

theorem listItems_rewrite {r : Rewriter} (hr : r.KeepsText) {itemNs itemName : Text}
    {lis lis' its : List Node} (h : List.Forall₂ (ListItem itemNs itemName) lis its)
    (hlis : List.Forall₂ r.children.Maps lis lis') :
    ∃ its', List.Forall₂ (ListItem itemNs itemName) lis' its' ∧ List.Forall₂ r.Maps its its' := by
  induction h generalizing lis' with
  | nil =>
    rw [List.forall₂_nil_left_iff.mp hlis]
    exact ⟨[], .nil, .nil⟩
  | cons hli _ ih =>
    obtain ⟨li', rest, hmaps, hrest, rfl⟩ := List.forall₂_cons_left_iff.mp hlis
    obtain ⟨i', hi', hi⟩ := hli.rewrite hr hmaps
    obtain ⟨its', hits', hits⟩ := ih hrest
    exact ⟨i' :: its', .cons hi' hits', .cons hi hits⟩

/-- A rewritten property node holds the sequence it held, of rewritten items. -/
theorem SequenceOf.rewrite {r : Rewriter} (hr : r.KeepsText) {itemNs itemName : Text}
    {node node' seq : Node} {its : List Node} (h : SequenceOf itemNs itemName node seq its)
    (hnode : (Rewriter.items r).Maps node node') :
    ∃ seq' its', SequenceOf itemNs itemName node' seq' its' ∧ List.Forall₂ r.Maps its its' := by
  have helements := Rewriter.Maps.elements hnode
  rw [h.only] at helements
  obtain ⟨seq', rest, hseq, hrest, honly⟩ := List.forall₂_cons_left_iff.mp helements
  rw [List.forall₂_nil_left_iff.mp hrest] at honly
  obtain ⟨its', hits', hits⟩ := listItems_rewrite hr h.items hseq.elements
  refine ⟨seq', its', ⟨?_, honly, ?_, ?_, hits'⟩, hits⟩
  · rw [structuralNode_maps hnode]
    exact h.structural
  · rw [hseq.tag]
    exact h.named
  · rw [structuralNode_maps hseq]
    exact h.structural_seq

theorem flatMap_elements {itemNs itemName : Text} {lis its : List Node}
    (h : List.Forall₂ (ListItem itemNs itemName) lis its) : lis.flatMap Node.elements = its := by
  induction h with
  | nil => rfl
  | cons hli _ ih => rw [List.flatMap_cons, hli.only, ih]; rfl

/-- The items of a sequence are those below its node. -/
theorem SequenceOf.entryNodes {itemNs itemName : Text} {node seq : Node} {its : List Node}
    (h : SequenceOf itemNs itemName node seq its) : node.entryNodes = its := by
  rw [Node.entryNodes, h.only, List.flatMap_singleton, flatMap_elements h.items]

theorem maps_choose_pos {r q : Rewriter} {c : Tag → Bool} {n n' : Node} (hc : c n.tag = true)
    (h : (r.choose q c).Maps n n') : r.Maps n n' := by
  rw [Rewriter.Maps, Rewriter.target_choose, if_pos hc] at h
  exact h

theorem maps_choose_neg {r q : Rewriter} {c : Tag → Bool} {n n' : Node} (hc : c n.tag = false)
    (h : (r.choose q c).Maps n n') : q.Maps n n' := by
  rw [Rewriter.Maps, Rewriter.target_choose, hc] at h
  exact h

theorem filter_maps {r : Rewriter} {l l' : List Node} (h : List.Forall₂ r.Maps l l')
    (ns name : Text) :
    List.Forall₂ (fun n n' => r.Maps n n' ∧ n.tag.hasName ns name = true)
      (l.filter (·.tag.hasName ns name)) (l'.filter (·.tag.hasName ns name)) := by
  induction h with
  | nil => exact .nil
  | @cons n n' l l' hn _ ih =>
    rw [List.filter_cons, List.filter_cons, hn.hasName]
    split
    · next hname => exact .cons ⟨hn, hname⟩ ih
    · exact ih

/-- The descriptions of the rewritten packet are the rewritten descriptions. -/
theorem descriptions_rewrite : List.Forall₂ (Rewriter.directory item).children.Maps
    d.descriptions (d.rewrite item).descriptions := by
  have hnode : (d.inner item).children.Maps d.node (d.rewrite item).node := rfl
  have helements := hnode.elements
  have hdescs : ∀ {l l' : List Node}, List.Forall₂ (Rewriter.description item).Maps l l' →
      List.Forall₂ (Rewriter.directory item).children.Maps (l.filter (·.tag.isDescription))
        (l'.filter (·.tag.isDescription)) := by
    intro l l' h
    exact (filter_maps h rdf "Description".toList).imp fun _ _ h => maps_choose_pos h.2 h.1
  rw [Document.descriptions_eq, Document.descriptions_eq]
  show List.Forall₂ _ _ (if d.tag.isRdf then _ else if d.tag.isXmpmeta then _ else _)
  rw [Document.inner] at helements
  by_cases hrdf : d.tag.isRdf = true
  · rw [if_pos hrdf] at helements
    rw [if_pos hrdf, if_pos hrdf]
    exact hdescs helements
  rw [if_neg hrdf] at helements
  rw [if_neg hrdf, if_neg hrdf]
  by_cases hmeta : d.tag.isXmpmeta = true
  · rw [if_pos hmeta] at helements
    rw [if_pos hmeta, if_pos hmeta]
    refine List.rel_flatMap helements fun n n' hn => ?_
    have hname : n'.tag.isRdf = n.tag.isRdf := hn.hasName _ _
    show List.Forall₂ _ (if n.tag.isRdf then _ else _) (if n'.tag.isRdf then _ else _)
    rw [hname]
    split
    · next hnrdf => exact hdescs (maps_choose_pos hnrdf hn).elements
    · exact .nil
  · rw [if_neg hmeta, if_neg hmeta]
    exact .nil

/-- The property nodes of the rewritten packet are the rewritten property nodes. -/
theorem propertyNodes_rewrite (ns name : Text) :
    List.Forall₂ (fun p p' => p'.1.tag = p.1.tag ∧ (Rewriter.directory item).Maps p.2 p'.2 ∧
        p.2.tag.hasName ns name = true)
      (d.propertyNodes ns name) ((d.rewrite item).propertyNodes ns name) := by
  refine List.rel_flatMap (descriptions_rewrite item d) fun p p' hp => ?_
  have hfilter := filter_maps hp.elements ns name
  refine List.forall₂_map_left_iff.mpr (List.forall₂_map_right_iff.mpr ?_)
  exact hfilter.imp fun _ _ h => ⟨hp.tag, h.1, h.2⟩

/-- The names of the elements are those of the packet. -/
theorem names_rewrite : (d.rewrite item).descendants.map (·.2.tag.names) =
    d.descendants.map (·.2.tag.names) :=
  (rewrite_renumbered item d).root.descendants [] [] _ _

theorem countP_rewrite (ns name : Text) :
    (d.rewrite item).descendants.countP (fun n => n.2.tag.hasName ns name) =
      d.descendants.countP fun n => n.2.tag.hasName ns name := by
  have hnames : ∀ l : List (List Tag × Node), l.countP (fun n => n.2.tag.hasName ns name) =
      (l.map (·.2.tag.names)).countP fun q => q.1 = some ns && q.2.1 = name := by
    intro l
    rw [List.countP_map]
    rfl
  rw [hnames, names_rewrite, ← hnames]

theorem hasAttribute_rewrite {d : Document} {ns name : Text}
    (h : ∀ n ∈ d.descendants, n.2.tag.hasAttribute ns name = false) :
    ∀ n ∈ (d.rewrite item).descendants, n.2.tag.hasAttribute ns name = false := by
  intro n' hn'
  have hmem : n'.2.tag.names ∈ d.descendants.map (·.2.tag.names) :=
    names_rewrite item d ▸ List.mem_map_of_mem hn'
  obtain ⟨n, hn, hnames⟩ := List.mem_map.mp hmem
  rw [hasAttribute_of_names hnames.symm]
  exact h n hn

/-! ### Where the nodes stand -/

theorem descriptions_in {d : Document} (hd : d.Lexical) {n : Node} (hn : n ∈ d.descriptions) :
    n.In d.render := by
  have hnode := Document.node_in hd
  rw [Document.descriptions_eq] at hn
  split at hn
  · exact hnode.elements (List.mem_of_mem_filter hn)
  split at hn
  · obtain ⟨m, hm, hn⟩ := List.mem_flatMap.mp hn
    split at hn
    · exact (hnode.elements hm).elements (List.mem_of_mem_filter hn)
    · exact absurd hn List.not_mem_nil
  · exact absurd hn List.not_mem_nil

theorem propertyNodes_in {d : Document} (hd : d.Lexical) {ns name : Text} {p : Node × Node}
    (hp : p ∈ d.propertyNodes ns name) : p.2.In d.render := by
  obtain ⟨n, hn, hp⟩ := List.mem_flatMap.mp hp
  obtain ⟨c, hc, rfl⟩ := List.mem_map.mp hp
  exact (descriptions_in hd hn).elements (List.mem_of_mem_filter hc)

theorem Node.In.entryNodes {xml : Text} {n i : Node} (h : n.In xml) (hi : i ∈ n.entryNodes) :
    i.In xml := by
  obtain ⟨seq, hseq, hi⟩ := List.mem_flatMap.mp hi
  obtain ⟨li, hli, hi⟩ := List.mem_flatMap.mp hi
  exact ((h.elements hseq).elements hli).elements hi

/-! ### Directories by namespace -/

theorem hasName_unique {t : Tag} {ns ns' name name' : Text} (h : t.hasName ns name = true)
    (hne : ns ≠ ns') : t.hasName ns' name' = false := by
  have hns : t.ns = some ns := by
    rw [Tag.hasName, Bool.and_eq_true] at h
    exact of_decide_eq_true h.1
  rw [Tag.hasName, hns, decide_eq_false fun h => hne (Option.some.inj h), Bool.false_and]

theorem containerNamespace_ne : containerNamespace ≠ depthContainerNamespace := by decide

/-- A directory is rewritten as the items of its namespace are. -/
theorem maps_directory {ns : Text × Text} (hns : ns ∈ namespaces) {n n' : Node}
    (hn : n.tag.isDirectory ns.1 = true) (h : (Rewriter.directory item).Maps n n') :
    (Rewriter.items (item ns.2)).Maps n n' := by
  rcases List.mem_pair.mp hns with rfl | rfl
  · exact maps_choose_pos hn h
  · have hother : n.tag.isDirectory containerNamespace = false :=
      hasName_unique hn containerNamespace_ne.symm
    exact maps_choose_pos hn (maps_choose_neg hother h)

/-- The items of the sequences of a namespace. -/
def Document.itemsOf (d : Document) (ns : Text × Text) : List (Text × Node) :=
  (d.propertyNodes ns.1 "Directory".toList).flatMap fun p => p.2.entryNodes.map fun i => (ns.2, i)

/-- Namespace by namespace the items are those of the packet. -/
theorem itemsOf_perm : (namespaces.flatMap d.itemsOf).Perm d.itemNodes := by
  have hitems : ∀ ns : Text × Text, d.itemsOf ns = d.descriptions.flatMap fun p =>
      p.elements.flatMap fun n =>
        if n.tag.isDirectory ns.1 then n.entryNodes.map fun i => (ns.2, i) else [] := by
    intro ns
    rw [Document.itemsOf, Document.propertyNodes, List.flatMap_assoc]
    refine List.flatMap_congr fun p _ => ?_
    rw [List.flatMap_map]
    exact (flatMap_ite_filter _ _ _).symm
  -- no element is a directory of both namespaces
  have hdirectory : ∀ n : Node,
      (n.directory.flatMap fun p => p.2.entryNodes.map fun i => (p.1, i)) =
        (if n.tag.isDirectory containerNamespace then
          n.entryNodes.map fun i => (itemNamespace, i) else []) ++
        if n.tag.isDirectory depthContainerNamespace then
          n.entryNodes.map fun i => (depthItemNamespace, i) else [] := by
    intro n
    rw [Node.directory]
    split
    · next h =>
      have hother : n.tag.isDirectory depthContainerNamespace = false :=
        hasName_unique h containerNamespace_ne
      simp [hother]
    · split <;> simp
  rw [namespaces, List.flatMap_cons, List.flatMap_cons, List.flatMap_nil, List.append_nil, hitems,
    hitems, Document.itemNodes, Document.directories, List.flatMap_assoc]
  refine (List.flatMap_append_perm _ _ _).trans (List.Perm.flatMap_left _ fun p _ => ?_)
  rw [List.flatMap_assoc]
  refine (List.flatMap_append_perm _ _ _).trans (.of_eq ?_)
  exact List.flatMap_congr fun n _ => (hdirectory n).symm

theorem itemNodes_in {d : Document} (hd : d.Lexical) {p : Text × Node} (hp : p ∈ d.itemNodes) :
    p.2.In d.render := by
  obtain ⟨ns, -, hp⟩ := List.mem_flatMap.mp ((itemsOf_perm d).mem_iff.mpr hp)
  obtain ⟨q, hq, hp⟩ := List.mem_flatMap.mp hp
  obtain ⟨i, hi, rfl⟩ := List.mem_map.mp hp
  exact (propertyNodes_in hd hq).entryNodes hi

end Zencodec.Container
