/-
A packet that is not read again.

The nesting scan looks for the end of a comment from its first character on, so it takes
`<!-->` for a whole comment and counts the tags in the rest of it.  `sample` has two such
comments, one that closes an element, in the content of a length, and one that opens many.
The edit drops the first with the old length, and the scan refuses the result for the
second.
-/
import Zencodec.Container.Rewritten

namespace Zencodec.Container

open Xmp (Text Attribute byteLen)
open Checks

/-! ### Elements without numerals -/

/-- The attribute holds no numeral. -/
def Attr.Fixed (a : Attr) : Prop := ∀ m, a.meaning = some m → ¬Numeral m.value

theorem attrs_eq_of_fixed {l l' : List Attr} (hl : ∀ a ∈ l, a.Fixed)
    (h : List.Forall₂ Attr.Renumbered l l') : l' = l := by
  induction h with
  | nil => rfl
  | @cons a b l l' hab _ ih =>
    obtain ⟨ha, hl⟩ := List.forall_mem_cons.mp hl
    rw [ih hl]
    cases hab with
    | same => rfl
    | numeral m n hm hv hn => exact absurd hv (ha m hm)

/-- An element that holds no numeral itself keeps its tag. -/
theorem renumbered_element {t : Tag} {cs : List Markup} {m' : Markup}
    (ht : ∀ a ∈ t.attrs, a.Fixed) (hcs : ¬HoldsNumeral cs)
    (h : (Markup.element t cs).Renumbered m') :
    ∃ cs', m' = .element t cs' ∧ RenumberedAll cs cs' := by
  obtain ⟨attrs, cs', rfl, hattrs, hall | hnum⟩ := h
  · exact ⟨cs', by rw [attrs_eq_of_fixed ht hattrs], hall⟩
  · exact absurd hnum.1 hcs

theorem renumberedAll_single {m : Markup} {ms' : List Markup} (h : RenumberedAll [m] ms') :
    ∃ m', ms' = [m'] ∧ m.Renumbered m' := by
  obtain ⟨m', rest, rfl, hm, hrest⟩ := h
  obtain rfl : rest = [] := hrest
  exact ⟨m', rfl, hm⟩

theorem renumberedAll_pair {m₁ m₂ : Markup} {ms' : List Markup} (h : RenumberedAll [m₁, m₂] ms') :
    ∃ m₁' m₂', ms' = [m₁', m₂'] ∧ m₁.Renumbered m₁' ∧ m₂.Renumbered m₂' := by
  obtain ⟨m₁', rest, rfl, hm₁, hrest⟩ := h
  obtain ⟨m₂', rfl, hm₂⟩ := renumberedAll_single hrest
  exact ⟨m₁', m₂', rfl, hm₁, hm₂⟩

/-- An element whose first child is one holds no numeral. -/
theorem not_holdsNumeral_cons {t : Tag} {cs ms : List Markup} :
    ¬HoldsNumeral (.element t cs :: ms) := by
  intro h
  cases h.1 _ List.mem_cons_self

theorem not_holdsNumeral_nil : ¬HoldsNumeral [] := fun h => h.2.1 rfl

/-! ### The packet -/

/-- An attribute after one blank. -/
def sampleAttr (spelling : String) (meaning : Option Attribute) (value : Text) : Attr :=
  ⟨[' '], spelling.toList ++ ['='], '"', value, meaning⟩

def itemAttr (name value : String) : Attr :=
  sampleAttr ("i:" ++ name) (some ⟨some itemNamespace, name.toList, value.toList⟩) value.toList

def sampleTag (spelling : String) (ns : Text) (name : String) (attrs : List Attr) : Tag :=
  ⟨spelling.toList, some ns, name.toList, attrs, [], some spelling.toList⟩

def rdfTag : Tag := sampleTag "r:RDF" rdf "RDF"
  [sampleAttr "xmlns:r" none rdf, sampleAttr "xmlns:c" none containerNamespace,
    sampleAttr "xmlns:i" none itemNamespace]

def descriptionTag : Tag := sampleTag "r:Description" rdf "Description" []

def directoryTag : Tag := sampleTag "c:Directory" containerNamespace "Directory" []

def seqTag : Tag := sampleTag "r:Seq" rdf "Seq" []

def liTag : Tag := sampleTag "r:li" rdf "li" []

def itemTag (semantic : String) : Tag := sampleTag "c:Item" containerNamespace "Item"
  [itemAttr "Semantic" semantic, itemAttr "Mime" "image/jpeg"]

def lengthTag : Tag := sampleTag "i:Length" itemNamespace "Length" []

def samplePrimary : Markup := .element liTag [.element (itemTag "Primary") []]

/-- A comment that starts with `>` and opens 63 elements. -/
def opens : Text := '>' :: (List.replicate 63 ['<', 'a', '>']).flatten

/-- A comment that starts with `>` and closes an element. -/
def closes : Markup := .comment ['>', '<', '/', 'a', '>']

/-- The item whose length has the given content. -/
def sampleItem (content : List Markup) : Markup :=
  .element (itemTag "GainMap") [.element lengthTag content]

def sampleSequence (content : List Markup) : Markup :=
  .element seqTag [samplePrimary, .element liTag [sampleItem content]]

/-- A packet with comments after its directory, and with the content of its one length. -/
def sample (comments : List Text) (content : List Markup) : Document where
  prolog := []
  tag := rdfTag
  children := [.element descriptionTag
    (.element directoryTag [sampleSequence content] :: comments.map .comment)]
  epilog := []

/-- A numeral and a comment. -/
def sampleContent : List Markup := [.text ['5'] ['5'], closes]

def samplePacket (comments : List Text) : Text := (sample comments sampleContent).render

def sampleBefore : Text :=
  rdfTag.opening ++ (descriptionTag.opening ++ (directoryTag.opening ++ (seqTag.opening ++
    (samplePrimary.render ++ (liTag.opening ++ ((itemTag "GainMap").opening ++
      lengthTag.opening))))))

def sampleAfter (comments : List Text) : Text :=
  lengthTag.ending ++ ((itemTag "GainMap").ending ++ (liTag.ending ++ (seqTag.ending ++
    (directoryTag.ending ++ (renderAll (comments.map .comment) ++
      (descriptionTag.ending ++ rdfTag.ending))))))

theorem render_sample (comments : List Text) (content : List Markup) :
    (sample comments content).render =
      sampleBefore ++ (renderAll content ++ sampleAfter comments) := by
  simp only [Document.render, Document.root, sample, sampleSequence, sampleItem, sampleBefore,
    sampleAfter, Markup.render_element, renderAll_cons, renderAll_nil, List.append_assoc,
    List.nil_append, List.append_nil]

/-! ### The reader -/

/-- What stands in the place of the content. -/
def sampleMiddle (comments : List Text) (xml : Text) : Text :=
  (xml.drop sampleBefore.length).take
    (xml.length - sampleBefore.length - (sampleAfter comments).length)

/-- The packet with a numeral for its length. -/
def sampleNumeral (comments : List Text) (n : Text) : Document := sample comments [.text n n]

/-- Reads the packet, with any numeral or with the comment. -/
def sampleReader (comments : List Text) (xml : Text) : Except Text Document :=
  if Numeral (sampleMiddle comments xml) ∧
      xml = (sampleNumeral comments (sampleMiddle comments xml)).render then
    .ok (sampleNumeral comments (sampleMiddle comments xml))
  else if xml = samplePacket comments then .ok (sample comments sampleContent)
  else .error []

theorem sampleMiddle_render (comments : List Text) (content : List Markup) :
    sampleMiddle comments (sample comments content).render = renderAll content := by
  have hlen : (sample comments content).render.length - sampleBefore.length -
      (sampleAfter comments).length = (renderAll content).length := by
    rw [render_sample, List.length_append, List.length_append]
    omega
  rw [sampleMiddle, hlen, render_sample, List.drop_left, List.take_left]

/-- The contents the reader knows. -/
def SampleContent (content : List Markup) : Prop :=
  (∃ n, Numeral n ∧ content = [.text n n]) ∨ content = sampleContent

theorem sampleReader_render (comments : List Text) {content : List Markup}
    (h : SampleContent content) :
    sampleReader comments (sample comments content).render = .ok (sample comments content) := by
  rcases h with ⟨n, hn, rfl⟩ | rfl
  · have hmiddle : sampleMiddle comments (sample comments [.text n n]).render = n := by
      rw [sampleMiddle_render]
      simp [Markup.render]
    rw [sampleReader, hmiddle, if_pos ⟨hn, rfl⟩]
    rfl
  · have hmiddle :
        ¬Numeral (sampleMiddle comments (sample comments sampleContent).render) := by
      rw [sampleMiddle_render]
      intro h
      have hdigit := h.2 '<' (by decide)
      cases hdigit
    rw [sampleReader, if_neg fun h => hmiddle h.1,
      if_pos (show (sample comments sampleContent).render = samplePacket comments from rfl)]

theorem sampleReader_eq_ok {comments : List Text} {xml : Text} {d : Document}
    (h : sampleReader comments xml = .ok d) :
    ∃ content, SampleContent content ∧ d = sample comments content ∧ d.render = xml := by
  rw [sampleReader] at h
  split at h
  · next hnum =>
    obtain rfl := Except.ok.inj h
    exact ⟨_, .inl ⟨_, hnum.1, rfl⟩, rfl, hnum.2.symm⟩
  split at h
  · next hxml =>
    obtain rfl := Except.ok.inj h
    exact ⟨_, .inr rfl, rfl, hxml.symm⟩
  · cases h

theorem inert_of_all {t : Text}
    (h : (t.all fun c => c != '<' && c != '>' && c != '"' && c != '\'') = true) :
    ∀ c ∈ t, Inert c := by
  intro c hc
  have h := List.all_eq_true.mp h c hc
  simp only [Bool.and_eq_true, bne_iff_ne] at h
  exact ⟨h.1.1.1, h.1.1.2, h.1.2, h.2⟩

theorem lexical_sampleAttr {spelling : String} {meaning : Option Attribute} {value : Text}
    (hs : ∀ c ∈ spelling.toList ++ ['='], Inert c) (hv : '"' ∉ value) (hne : value ≠ []) :
    (sampleAttr spelling meaning value).Lexical where
  gap := by
    intro c hc
    rw [List.mem_singleton.mp hc]
    exact inert_of_all (t := [' ']) rfl _ (List.mem_singleton_self _)
  spelling := hs
  quote := .inl rfl
  raw := hv
  empty _ _ h := absurd h hne

theorem lexical_sampleTag {spelling name : String} {ns : Text} {attrs : List Attr}
    (hs : ∀ c ∈ spelling.toList, Inert c) (ha : ∀ a ∈ attrs, a.Lexical) :
    (sampleTag spelling ns name attrs).Lexical where
  spelling := hs
  attrs := ha
  gap c hc := absurd hc List.not_mem_nil
  closing c hc := by
    rw [← Option.some.inj hc]
    exact fun h => (hs _ h).1 rfl

theorem lexical_itemTag {semantic : String} (hv : '"' ∉ semantic.toList)
    (hne : semantic.toList ≠ []) : (itemTag semantic).Lexical := by
  refine lexical_sampleTag (inert_of_all (by decide)) ?_
  intro a ha
  rcases List.mem_pair.mp ha with rfl | rfl
  · exact lexical_sampleAttr (inert_of_all (by decide)) hv hne
  · exact lexical_sampleAttr (inert_of_all (by decide)) (by decide) (by decide)

theorem lexical_comments : ∀ comments : List Text, LexicalAll (comments.map .comment)
  | [] => trivial
  | _ :: comments => ⟨trivial, lexical_comments comments⟩

theorem lexical_sample (comments : List Text) {content : List Markup} (h : SampleContent content) :
    (sample comments content).Lexical := by
  have hcontent : LexicalAll content := by
    rcases h with ⟨n, hn, rfl⟩ | rfl
    · exact ⟨fun hnil => absurd hnil hn.1, trivial⟩
    · exact ⟨(fun h => by cases h), trivial, trivial⟩
  have hrdf : rdfTag.Lexical := by
    refine lexical_sampleTag (inert_of_all (by decide)) ?_
    intro a ha
    rcases List.mem_cons.mp ha with rfl | ha
    · exact lexical_sampleAttr (inert_of_all (by decide)) (by decide) (by decide)
    rcases List.mem_pair.mp ha with rfl | rfl
    · exact lexical_sampleAttr (inert_of_all (by decide)) (by decide) (by decide)
    · exact lexical_sampleAttr (inert_of_all (by decide)) (by decide) (by decide)
  have hempty : ∀ a ∈ ([] : List Attr), a.Lexical := fun a ha => absurd ha List.not_mem_nil
  have hdescription : descriptionTag.Lexical := lexical_sampleTag (inert_of_all (by decide)) hempty
  have hdirectory : directoryTag.Lexical := lexical_sampleTag (inert_of_all (by decide)) hempty
  have hseq : seqTag.Lexical := lexical_sampleTag (inert_of_all (by decide)) hempty
  have hli : liTag.Lexical := lexical_sampleTag (inert_of_all (by decide)) hempty
  have hlength : lengthTag.Lexical := lexical_sampleTag (inert_of_all (by decide)) hempty
  have hprimary : (itemTag "Primary").Lexical := lexical_itemTag (by decide) (by decide)
  have hgain : (itemTag "GainMap").Lexical := lexical_itemTag (by decide) (by decide)
  have hopen : ∀ {t : Tag} {cs : List Markup}, t.closing.isSome = true → t.closing = none →
      cs = [] := by
    intro t cs hsome hnone
    rw [hnone] at hsome
    cases hsome
  have hprimaryItem : samplePrimary.Lexical :=
    ⟨hli, hopen rfl, ⟨hprimary, hopen rfl, trivial⟩, trivial⟩
  have hitem : (sampleItem content).Lexical :=
    ⟨hgain, hopen rfl, ⟨hlength, hopen rfl, hcontent⟩, trivial⟩
  have hsequence : (sampleSequence content).Lexical :=
    ⟨hseq, hopen rfl, hprimaryItem, ⟨hli, hopen rfl, hitem, trivial⟩, trivial⟩
  exact ⟨hrdf, hopen rfl,
    ⟨hdescription, hopen rfl, ⟨hdirectory, hopen rfl, hsequence, trivial⟩,
      lexical_comments comments⟩, trivial⟩

/-! ### The packet renumbered -/

theorem fixed_itemTag {semantic : String} (h : semantic.toList.all Char.isDigit = false) :
    ∀ a ∈ (itemTag semantic).attrs, a.Fixed := by
  have hattr : ∀ {name value : String}, value.toList.all Char.isDigit = false →
      (itemAttr name value).Fixed := by
    intro name value hvalue m hm hnum
    obtain rfl := Option.some.inj hm
    rw [List.all_eq_true.mpr hnum.2] at hvalue
    cases hvalue
  intro a ha
  rcases List.mem_pair.mp ha with rfl | rfl
  · exact hattr h
  · exact hattr (by decide)

theorem fixed_rdfTag : ∀ a ∈ rdfTag.attrs, a.Fixed := by
  intro a ha m hm
  rcases List.mem_cons.mp ha with rfl | ha
  · cases hm
  rcases List.mem_pair.mp ha with rfl | rfl <;> cases hm

theorem samplePrimary_renumbered {m' : Markup} (h : samplePrimary.Renumbered m') :
    m' = samplePrimary := by
  obtain ⟨_, rfl, hli⟩ := renumbered_element (by simp [liTag, sampleTag]) not_holdsNumeral_cons h
  obtain ⟨_, rfl, hitem⟩ := renumberedAll_single hli
  obtain ⟨_, rfl, rfl⟩ := renumbered_element (fixed_itemTag (by decide)) not_holdsNumeral_nil hitem
  rfl

/-- The length of an item is all of it that may change. -/
theorem sampleItem_renumbered {content : List Markup} {m' : Markup}
    (h : (sampleItem content).Renumbered m') :
    ∃ content', m' = sampleItem content' ∧
      (RenumberedAll content content' ∨ HoldsNumeral content ∧ ∃ n, Numeral n ∧
        content' = [.text n n]) := by
  obtain ⟨_, rfl, hitem⟩ :=
    renumbered_element (fixed_itemTag (by decide)) not_holdsNumeral_cons h
  obtain ⟨_, rfl, attrs, content', rfl, hattrs, hcontent⟩ := renumberedAll_single hitem
  cases hattrs
  exact ⟨content', rfl, hcontent⟩

theorem sampleSequence_renumbered {content : List Markup} {m' : Markup}
    (h : (sampleSequence content).Renumbered m') :
    ∃ content', m' = sampleSequence content' ∧
      (RenumberedAll content content' ∨ HoldsNumeral content ∧ ∃ n, Numeral n ∧
        content' = [.text n n]) := by
  obtain ⟨_, rfl, hseq⟩ := renumbered_element (by simp [seqTag, sampleTag]) not_holdsNumeral_cons h
  obtain ⟨_, _, rfl, hprimary, hli⟩ := renumberedAll_pair hseq
  obtain ⟨_, rfl, hwithin⟩ :=
    renumbered_element (by simp [liTag, sampleTag]) not_holdsNumeral_cons hli
  obtain ⟨_, rfl, hitem⟩ := renumberedAll_single hwithin
  obtain ⟨content', rfl, hcontent⟩ := sampleItem_renumbered hitem
  rw [samplePrimary_renumbered hprimary]
  exact ⟨content', rfl, hcontent⟩

theorem comments_renumbered : ∀ {comments : List Text} {ms' : List Markup},
    RenumberedAll (comments.map .comment) ms' → ms' = comments.map .comment
  | [], _, h => h
  | _ :: comments, _, ⟨_, _, rfl, rfl, hrest⟩ => by rw [comments_renumbered hrest, List.map_cons]

theorem sample_renumbered {comments : List Text} {content : List Markup} {d' : Document}
    (h : (sample comments content).Renumbered d') :
    ∃ content', d' = sample comments content' ∧
      (RenumberedAll content content' ∨ HoldsNumeral content ∧ ∃ n, Numeral n ∧
        content' = [.text n n]) := by
  obtain ⟨hprolog, hepilog, hroot⟩ := h
  obtain ⟨cs, heq, hrdf⟩ := renumbered_element fixed_rdfTag not_holdsNumeral_cons hroot
  obtain ⟨_, rfl, hdescription⟩ := renumberedAll_single hrdf
  obtain ⟨_, rfl, hwithin⟩ := renumbered_element (by simp [descriptionTag, sampleTag])
    not_holdsNumeral_cons hdescription
  obtain ⟨_, _, rfl, hdirectory, hcomments⟩ := hwithin
  obtain rfl := comments_renumbered hcomments
  obtain ⟨_, rfl, hsequence⟩ := renumbered_element (by simp [directoryTag, sampleTag])
    not_holdsNumeral_cons hdirectory
  obtain ⟨_, rfl, hseq⟩ := renumberedAll_single hsequence
  obtain ⟨content', rfl, hcontent⟩ := sampleSequence_renumbered hseq
  refine ⟨content', ?_, hcontent⟩
  obtain ⟨prolog, tag, children, epilog⟩ := d'
  obtain ⟨rfl, rfl⟩ := Markup.element.inj heq
  obtain rfl : prolog = [] := hprolog
  obtain rfl : epilog = [] := hepilog
  rfl

theorem sampleContent_renumbered {content content' : List Markup} (h : SampleContent content)
    (hcontent : RenumberedAll content content' ∨ HoldsNumeral content ∧ ∃ n, Numeral n ∧
      content' = [.text n n]) : SampleContent content' := by
  rcases hcontent with hall | ⟨-, n, hn, rfl⟩
  · rcases h with ⟨n, hn, rfl⟩ | rfl
    · obtain ⟨_, rfl, rfl⟩ := renumberedAll_single hall
      exact .inl ⟨n, hn, rfl⟩
    · obtain ⟨_, _, rfl, rfl, rfl⟩ := renumberedAll_pair hall
      exact .inr rfl
  · exact .inl ⟨n, hn, rfl⟩

theorem sampleReader_exact (comments : List Text) : ExactReader (sampleReader comments) where
  source {xml d} h := by
    obtain ⟨content, hcontent, rfl, hxml⟩ := sampleReader_eq_ok h
    exact ⟨hxml, lexical_sample comments hcontent⟩
  numerals {d d'} h hd := by
    obtain ⟨content, hcontent, rfl, -⟩ := sampleReader_eq_ok h
    obtain ⟨content', rfl, hcontent'⟩ := sample_renumbered hd
    exact sampleReader_render comments (sampleContent_renumbered hcontent hcontent')

theorem sampleReader_samplePacket (comments : List Text) :
    sampleReader comments (samplePacket comments) = .ok (sample comments sampleContent) :=
  sampleReader_render comments (.inr rfl)

/-! ### The directory and its edit -/

def sampleEntries : List Entry :=
  [⟨⟨.primary, "image/jpeg".toList, none, none⟩, none, none⟩,
    ⟨⟨.gainMap, "image/jpeg".toList, some 5, none⟩, some (343, 356), none⟩]

def sampleDirectory (comments : List Text) : Directory := ⟨samplePacket comments, sampleEntries⟩

/-- The packet is within the budgets, and its items are the entries. -/
def sampleReads (comments : List Text) : Bool :=
  byteLen (samplePacket comments) ≤ Xmp.maxBytes &&
    !Xmp.nestsDeeperThan (samplePacket comments) Xmp.maxNesting &&
    (sample comments sampleContent).ancestorCounts.all (· ≤ 65) &&
    namespacePass (samplePacket comments) (sample comments sampleContent) []
      (containerNamespace, itemNamespace) = .ok sampleEntries &&
    namespacePass (samplePacket comments) (sample comments sampleContent) sampleEntries
      (depthContainerNamespace, depthItemNamespace) = .ok sampleEntries

theorem parse_sample {comments : List Text} (h : sampleReads comments = true) :
    Directory.parse (sampleReader comments) (samplePacket comments) =
      .ok (sampleDirectory comments) := by
  simp only [sampleReads, Bool.and_eq_true, decide_eq_true_eq, Bool.not_eq_true',
    List.all_eq_true] at h
  obtain ⟨⟨⟨⟨hsize, hnests⟩, hcounts⟩, hcontainer⟩, hdepth⟩ := h
  refine Directory.parse_eq_ok.mpr ⟨_, _, Packet.parse_eq_ok.mpr
    ⟨hsize, hnests, sampleReader_samplePacket comments, hcounts⟩, ?_, rfl⟩
  rw [namespaces, List.foldlM_cons, bind_eq_ok]
  refine ⟨_, hcontainer, ?_⟩
  rw [List.foldlM_cons, bind_eq_ok]
  exact ⟨_, hdepth, rfl⟩

/-- The packet with a seven for its length. -/
def seven (comments : List Text) : Text := (sampleNumeral comments ['7']).render

-- one evaluation, so that the strings in the definitions are decoded once
theorem sample_evaluated :
    sampleReads [] = true ∧ sampleReads [opens] = true ∧
      (sampleDirectory [opens]).rewriteItemLengths [("GainMap".toList, 7)] =
        .ok (seven [opens]) ∧
      Xmp.nestsDeeperThan (seven [opens]) Xmp.maxNesting = true ∧
      Xmp.nestsDeeperThan ((sample [] sampleContent).withLengths fun _ => 0) Xmp.maxNesting =
        false := by
  decide +kernel

theorem parse_plain :
    Directory.parse (sampleReader []) (samplePacket []) = .ok (sampleDirectory []) :=
  parse_sample sample_evaluated.1

theorem parse_opened :
    Directory.parse (sampleReader [opens]) (samplePacket [opens]) =
      .ok (sampleDirectory [opens]) :=
  parse_sample sample_evaluated.2.1

theorem rewrite_opened :
    (sampleDirectory [opens]).rewriteItemLengths [("GainMap".toList, 7)] =
      .ok (seven [opens]) :=
  sample_evaluated.2.2.1

theorem parse_seven :
    Directory.parse (sampleReader [opens]) (seven [opens]) = .error .limit := by
  have hpacket : Packet.parse (sampleReader [opens]) (seven [opens]) = .error .limit := by
    rw [Packet.parse, sample_evaluated.2.2.2.1]
    split <;> rfl
  rw [Directory.parse, hpacket]
  rfl

/-- The edit drops a comment that the scan took for another, and the result is refused. -/
theorem unread_after_rewrite :
    ExactReader (sampleReader [opens]) ∧
      sampleReader [opens] (samplePacket [opens]) = .ok (sample [opens] sampleContent) ∧
      Directory.parse (sampleReader [opens]) (samplePacket [opens]) =
        .ok (sampleDirectory [opens]) ∧
      (sampleDirectory [opens]).rewriteItemLengths [("GainMap".toList, 7)] = .ok (seven [opens]) ∧
      Directory.parse (sampleReader [opens]) (seven [opens]) = .error .limit ∧
      ¬RewritesLengths (sampleReader [opens]) (sample [opens] sampleContent)
        (sampleDirectory [opens]) [("GainMap".toList, 7)] := by
  refine ⟨sampleReader_exact _, sampleReader_samplePacket _, parse_opened, rewrite_opened,
    parse_seven, fun h => ?_⟩
  obtain ⟨dir', hdir', -⟩ := h.reread (seven [opens]) rewrite_opened
  rw [parse_seven] at hdir'
  cases hdir'

/-- Without the comment that opens elements the result is read. -/
theorem rewritesLengths_plain :
    RewritesLengths (sampleReader []) (sample [] sampleContent) (sampleDirectory [])
      [("GainMap".toList, 7)] :=
  (rewritesLengths_iff (sampleReader_exact []) (sampleReader_samplePacket []) parse_plain _).mpr
    fun _ => sample_evaluated.2.2.2.2

end Zencodec.Container
