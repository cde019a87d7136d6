/-
The nesting scan over the grammar.

* `nests_start`, `nests_empty`, `nests_stop`, `nests_data` — what the scan makes of a token;
* `nestsDeeperThan_render` — over a document it finds how many start tags are open at most;
* `unclosed_le` — a text it passes leaves at most `limit` elements open, wherever it is cut;
* `Packet.parse_of_unclosed` — so a text that opens more is refused before it is read.

A comment whose text begins with `>` or with `->` is taken to end there; `Told` leaves such
comments out.
-/
import Zencodec.Xmp.Grammar

namespace Zencodec

namespace Xmp

namespace Grammar

/-! ### Names and white space -/

theorem IsName.nameChar {t : Text} (h : IsName t) {c : Char} (hc : c ∈ t) :
    isNameChar c = true := by
  cases t with
  | nil => cases hc
  | cons d t =>
    rcases List.mem_cons.mp hc with rfl | hc
    · rw [isNameChar, h.1]
      rfl
    · exact h.2 c hc

/-- No character of a name or of white space is one that the scan looks for. -/
def Plain (c : Char) : Prop := c ≠ '<' ∧ c ≠ '>' ∧ c ≠ '"' ∧ c ≠ '\'' ∧ c ≠ '/'

theorem plain_of_nameChar {c : Char} (h : isNameChar c = true) : Plain c := by
  refine ⟨?_, ?_, ?_, ?_, ?_⟩ <;> rintro rfl <;> exact absurd h (by decide)

theorem plain_of_space {c : Char} (h : isSpace c = true) : Plain c := by
  refine ⟨?_, ?_, ?_, ?_, ?_⟩ <;> rintro rfl <;> exact absurd h (by decide)

theorem IsName.plain {t : Text} (h : IsName t) : ∀ c ∈ t, Plain c :=
  fun _ hc => plain_of_nameChar (h.nameChar hc)

theorem Blank.plain {t : Text} (h : Blank t) : ∀ c ∈ t, Plain c :=
  fun c hc => plain_of_space (h c hc)

/-- What a name begins with. -/
theorem IsName.head {t : Text} (h : IsName t) :
    ∃ c u, t = c :: u ∧ Plain c ∧ c ≠ '!' ∧ c ≠ '?' := by
  cases t with
  | nil => exact absurd h id
  | cons c u =>
    refine ⟨c, u, rfl, h.plain c List.mem_cons_self, ?_, ?_⟩ <;>
      rintro rfl <;> exact absurd h.1 (by decide)

/-! ### The end of a tag -/

theorem tagEnd_plain {u : Text} (hu : ∀ c ∈ u, Plain c) {last : Char} (hlast : last ≠ '/') :
    ∃ last', last' ≠ '/' ∧ ∀ v, tagEnd none last (u ++ v) = tagEnd none last' v := by
  induction u generalizing last with
  | nil => exact ⟨last, hlast, fun v => rfl⟩
  | cons c u ih =>
    obtain ⟨⟨-, hgt, hdouble, hsingle, hslash⟩, hu⟩ := List.forall_mem_cons.mp hu
    obtain ⟨last', hlast', h⟩ := ih hu hslash
    refine ⟨last', hlast', fun v => ?_⟩
    rw [List.cons_append, tagEnd, if_neg (not_or.mpr ⟨hdouble, hsingle⟩), if_neg hgt, h]

theorem tagEnd_quoted {q : Char} {u : Text} (hu : q ∉ u) (last : Char) (v : Text) :
    tagEnd (some q) last (u ++ q :: v) = tagEnd none q v := by
  induction u generalizing last with
  | nil => rw [List.nil_append, tagEnd, if_pos rfl]
  | cons c u ih =>
    obtain ⟨hc, hu⟩ := not_or.mp (fun h => hu (List.mem_cons.mpr h))
    rw [List.cons_append, tagEnd, if_neg (fun h => hc h.symm), ih hu]

theorem tagEnd_attr {a : Attr} (ha : a.WellFormed) {last : Char} (hlast : last ≠ '/') :
    ∃ last', last' ≠ '/' ∧ ∀ v, tagEnd none last (a.render ++ v) = tagEnd none last' v := by
  have hplain : ∀ c ∈ a.gap ++ (a.name ++ (a.left ++ '=' :: a.right)), Plain c := by
    intro c hc
    simp only [List.mem_append, List.mem_cons] at hc
    rcases hc with hc | hc | hc | rfl | hc
    · exact ha.gap.2.plain c hc
    · exact ha.name.plain c hc
    · exact ha.left.plain c hc
    · exact ⟨by decide, by decide, by decide, by decide, by decide⟩
    · exact ha.right.plain c hc
  obtain ⟨last', hlast', h⟩ := tagEnd_plain hplain hlast
  have hslash : a.quote ≠ '/' := by
    rcases ha.quote with hq | hq <;> rw [hq] <;> decide
  refine ⟨a.quote, hslash, fun v => ?_⟩
  have hrender : a.render ++ v = (a.gap ++ (a.name ++ (a.left ++ '=' :: a.right))) ++
      a.quote :: (a.value ++ a.quote :: v) := by
    simp [Attr.render]
  rw [hrender, h, tagEnd, if_pos ha.quote, tagEnd_quoted ha.value.1]

theorem tagEnd_attrs {attrs : List Attr} (hattrs : ∀ a ∈ attrs, a.WellFormed) {last : Char}
    (hlast : last ≠ '/') :
    ∃ last', last' ≠ '/' ∧
      ∀ v, tagEnd none last (attrs.flatMap Attr.render ++ v) = tagEnd none last' v := by
  induction attrs generalizing last with
  | nil => exact ⟨last, hlast, fun v => rfl⟩
  | cons a attrs ih =>
    obtain ⟨ha, hattrs⟩ := List.forall_mem_cons.mp hattrs
    obtain ⟨last₁, hlast₁, h₁⟩ := tagEnd_attr ha hlast
    obtain ⟨last₂, hlast₂, h₂⟩ := ih hattrs hlast₁
    refine ⟨last₂, hlast₂, fun v => ?_⟩
    rw [List.flatMap_cons, List.append_assoc, h₁, h₂]

/-- Quoted values hide what is in them, and no `/` stands before the end. -/
theorem tagEnd_tag {tag : Tag} (htag : tag.WellFormed) :
    ∃ last, last ≠ '/' ∧ ∀ v, tagEnd none '<' (tag.render ++ v) = tagEnd none last v := by
  obtain ⟨last₁, hlast₁, h₁⟩ := tagEnd_plain htag.name.plain (show '<' ≠ '/' by decide)
  obtain ⟨last₂, hlast₂, h₂⟩ := tagEnd_attrs htag.attrs hlast₁
  obtain ⟨last₃, hlast₃, h₃⟩ := tagEnd_plain htag.gap.plain hlast₂
  refine ⟨last₃, hlast₃, fun v => ?_⟩
  rw [Tag.render, List.append_assoc, h₁, List.append_assoc, h₂, h₃]

/-! ### What is skipped -/

theorem skipped_eq_none {c : Char} (h₁ : c ≠ '!') (h₂ : c ≠ '?') (t : Text) :
    skipped ('<' :: c :: t) = none := by
  have hno : ∀ {d : Char} {u : Text}, c ≠ d → ¬ '<' :: d :: u <+: '<' :: c :: t := by
    intro d u hne h
    exact hne (List.cons_prefix_cons.mp (List.cons_prefix_cons.mp h).2).1.symm
  rw [skipped, if_neg (hno h₁), if_neg (hno h₁), if_neg (hno h₂), if_neg (hno h₁)]

/-- A needle that does not overlap itself is found where it stands first. -/
theorem after_of_not_infix {needle u : Text}
    (hborder : ∀ s t : Text, s ≠ [] → s.length < needle.length → ¬needle <+: s ++ (needle ++ t))
    (hn : needle ≠ []) (hu : ¬needle <:+: u) (v : Text) :
    after needle (u ++ (needle ++ v)) = some v := by
  induction u with
  | nil => exact after_of_starts hn v
  | cons c u ih =>
    have hu' : ¬needle <:+: u := fun h => hu (h.trans (List.suffix_cons c u).isInfix)
    have hstarts : ¬needle <+: c :: (u ++ (needle ++ v)) := by
      intro h
      by_cases hlen : (c :: u).length < needle.length
      · exact hborder (c :: u) v (List.cons_ne_nil _ _) hlen h
      · refine hu (List.IsPrefix.isInfix ?_)
        exact List.prefix_of_prefix_length_le h (List.prefix_append (c :: u) _) (not_lt.mp hlen)
    rw [List.cons_append, after_cons_of_not hstarts, ih hu']

theorem skipped_comment {t : Text} (ht : ¬['-', '-'] <:+: t)
    (htold : ¬['>'] <+: t ∧ ¬['-', '>'] <+: t) (v : Text) :
    skipped ((Data.comment t).render ++ v) = some (some v) := by
  have hinfix : ¬['-', '-', '>'] <:+: ['<', '!', '-', '-'] ++ t := by
    intro h
    simp only [List.cons_append, List.nil_append, List.infix_cons_iff, List.cons_prefix_cons] at h
    rcases h with h | h | h | h | h
    · exact absurd h.1 (by decide)
    · exact absurd h.1 (by decide)
    · exact htold.1 h.2.2
    · exact htold.2 h.2
    · exact ht (List.IsInfix.trans ⟨[], ['>'], rfl⟩ h)
  have hborder : ∀ s t : Text, s ≠ [] → s.length < ['-', '-', '>'].length →
      ¬['-', '-', '>'] <+: s ++ (['-', '-', '>'] ++ t) := by
    intro s t hs hlen h
    rcases s with _ | ⟨a, _ | ⟨b, _ | ⟨c, s⟩⟩⟩
    · exact hs rfl
    · simp [List.cons_prefix_cons] at h
    · simp [List.cons_prefix_cons] at h
    · simp only [List.length_cons, List.length_nil] at hlen
      omega
  have hrender : (Data.comment t).render ++ v =
      (['<', '!', '-', '-'] ++ t) ++ (['-', '-', '>'] ++ v) := by
    simp [Data.render]
  rw [hrender, skipped, if_pos ⟨t ++ (['-', '-', '>'] ++ v), by simp⟩,
    after_of_not_infix hborder (List.cons_ne_nil _ _) hinfix]

theorem skipped_cdata {t : Text} (ht : ¬[']', ']', '>'] <:+: t) (v : Text) :
    skipped ((Data.cdata t).render ++ v) = some (some v) := by
  have hinfix : ¬[']', ']', '>'] <:+: ['<', '!', '[', 'C', 'D', 'A', 'T', 'A', '['] ++ t := by
    intro h
    simp [List.infix_cons_iff, List.cons_prefix_cons, ht] at h
  have hborder : ∀ s t : Text, s ≠ [] → s.length < [']', ']', '>'].length →
      ¬[']', ']', '>'] <+: s ++ ([']', ']', '>'] ++ t) := by
    intro s t hs hlen h
    rcases s with _ | ⟨a, _ | ⟨b, _ | ⟨c, s⟩⟩⟩
    · exact hs rfl
    · simp [List.cons_prefix_cons] at h
    · simp [List.cons_prefix_cons] at h
    · simp only [List.length_cons, List.length_nil] at hlen
      omega
  have hrender : (Data.cdata t).render ++ v =
      (['<', '!', '[', 'C', 'D', 'A', 'T', 'A', '['] ++ t) ++ ([']', ']', '>'] ++ v) := by
    simp [Data.render]
  have hcomment : ¬['<', '!', '-', '-'] <+:
      (['<', '!', '[', 'C', 'D', 'A', 'T', 'A', '['] ++ t) ++ ([']', ']', '>'] ++ v) := by
    simp [List.cons_prefix_cons]
  rw [hrender, skipped, if_neg hcomment, if_pos ⟨t ++ ([']', ']', '>'] ++ v), by simp⟩,
    after_of_not_infix hborder (List.cons_ne_nil _ _) hinfix]

theorem skipped_pi {target rest : Text} (htarget : IsName target) (hrest : ¬['?', '>'] <:+: rest)
    (v : Text) : skipped ((Data.pi target rest).render ++ v) = some (some v) := by
  -- no character of the target is a question mark
  have hname : ∀ u : Text, (∀ c ∈ u, isNameChar c = true) → ¬['?', '>'] <:+: u ++ rest := by
    intro u hu
    induction u with
    | nil => exact hrest
    | cons c u ih =>
      obtain ⟨hc, hu⟩ := List.forall_mem_cons.mp hu
      intro h
      rcases List.infix_cons_iff.mp h with h | h
      · obtain ⟨rfl, -⟩ := List.cons_prefix_cons.mp h
        exact absurd hc (by decide)
      · exact ih hu h
  have hinfix : ¬['?', '>'] <:+: ['<', '?'] ++ (target ++ rest) := by
    intro h
    obtain ⟨c, u, rfl, hc, -, -⟩ := htarget.head
    simp only [List.cons_append, List.nil_append, List.infix_cons_iff] at h
    rcases h with h | h | h
    · exact absurd (List.cons_prefix_cons.mp h).1 (by decide)
    · exact hc.2.1 (List.cons_prefix_cons.mp (List.cons_prefix_cons.mp h).2).1.symm
    · exact hname (c :: u) (fun d hd => htarget.nameChar hd) (List.infix_cons_iff.mpr h)
  have hborder : ∀ s t : Text, s ≠ [] → s.length < ['?', '>'].length →
      ¬['?', '>'] <+: s ++ (['?', '>'] ++ t) := by
    intro s t hs hlen h
    rcases s with _ | ⟨a, _ | ⟨b, s⟩⟩
    · exact hs rfl
    · simp [List.cons_prefix_cons] at h
    · simp at hlen
  have hrender : (Data.pi target rest).render ++ v =
      (['<', '?'] ++ (target ++ rest)) ++ (['?', '>'] ++ v) := by
    simp [Data.render]
  have hother : ∀ u : Text,
      ¬ '<' :: '!' :: u <+: (['<', '?'] ++ (target ++ rest)) ++ (['?', '>'] ++ v) := by
    intro u
    simp [List.cons_prefix_cons]
  rw [hrender, skipped, if_neg (hother _), if_neg (hother _),
    if_pos ⟨target ++ rest ++ (['?', '>'] ++ v), by simp⟩,
    after_of_not_infix hborder (List.cons_ne_nil _ _) hinfix]

/-! ### Tokens -/

variable {limit depth : ℕ}

/-- A tag that is no end tag, up to its end. -/
theorem nests_open {tag : Tag} (htag : tag.WellFormed) {u v : Text} {closed : Bool}
    (hend : ∀ last, last ≠ '/' → tagEnd none last (u ++ v) = some (closed, v)) :
    nests limit depth ('<' :: (tag.render ++ u) ++ v) =
      if closed then nests limit depth v
      else if depth + 1 > limit then true
      else nests limit (depth + 1) v := by
  obtain ⟨c, name, hname, hc, hbang, hquestion⟩ := htag.name.head
  obtain ⟨last, hlast, hscan⟩ := tagEnd_tag htag
  have hbody : tag.render ++ u ++ v =
      c :: (name ++ (tag.attrs.flatMap Attr.render ++ tag.gap) ++ u ++ v) := by
    rw [Tag.render, hname]
    simp
  have htagEnd : tagEnd none '<' (tag.render ++ u ++ v) = some (closed, v) := by
    rw [List.append_assoc, hscan, hend last hlast]
  have hskip : skipped ('<' :: (tag.render ++ u ++ v)) = none := by
    rw [hbody]
    exact skipped_eq_none hbang hquestion _
  have hhead : (tag.render ++ u ++ v).head? ≠ some '/' := by
    rw [hbody]
    exact fun h => hc.2.2.2.2 (Option.some.inj h)
  rw [List.cons_append, nests_tag limit depth hskip htagEnd, if_neg hhead]

theorem nests_start {tag : Tag} (htag : tag.WellFormed) (v : Text) :
    nests limit depth ((Token.start tag).render ++ v) =
      if depth + 1 > limit then true else nests limit (depth + 1) v := by
  have hend : ∀ last, last ≠ '/' → tagEnd none last (['>'] ++ v) = some (false, v) := by
    intro last hlast
    simp [tagEnd, hlast]
  rw [Token.render, nests_open htag hend]
  rfl

theorem nests_empty {tag : Tag} (htag : tag.WellFormed) (v : Text) :
    nests limit depth ((Token.empty tag).render ++ v) = nests limit depth v := by
  have hend : ∀ last, last ≠ '/' → tagEnd none last (['/', '>'] ++ v) = some (true, v) := by
    intro last _
    simp [tagEnd]
  rw [Token.render, nests_open htag hend]
  rfl

theorem nests_stop {name gap : Text} (hname : IsName name) (hgap : Blank gap) (v : Text) :
    nests limit depth ((Token.stop name gap).render ++ v) = nests limit (depth - 1) v := by
  obtain ⟨c, u, rfl, hc, -, -⟩ := hname.head
  have hplain : ∀ d ∈ u ++ gap, Plain d := by
    intro d hd
    rcases List.mem_append.mp hd with hd | hd
    · exact hname.plain d (List.mem_cons_of_mem c hd)
    · exact hgap.plain d hd
  obtain ⟨last, -, hscan⟩ := tagEnd_plain hplain hc.2.2.2.2
  have htagEnd : tagEnd none '<' ('/' :: c :: (u ++ gap ++ '>' :: v)) =
      some (decide (last = '/'), v) := by
    rw [tagEnd.eq_def]
    simp only
    rw [if_neg (by decide), if_neg (by decide), tagEnd.eq_def]
    simp only
    rw [if_neg (not_or.mpr ⟨hc.2.2.1, hc.2.2.2.1⟩), if_neg hc.2.1, hscan]
    simp [tagEnd]
  have hskip : skipped ('<' :: '/' :: c :: (u ++ gap ++ '>' :: v)) = none :=
    skipped_eq_none (by decide) (by decide) _
  have hrender : (Token.stop (c :: u) gap).render ++ v =
      '<' :: '/' :: c :: (u ++ gap ++ '>' :: v) := by
    simp [Token.render]
  rw [hrender, nests_tag limit depth hskip htagEnd]
  rfl

theorem nests_data {d : Data} (hd : d.WellFormed) (htold : d.Told) (v : Text) :
    nests limit depth (d.render ++ v) = nests limit depth v := by
  cases d with
  | text t => exact nests_text limit depth hd v
  | cdata t => exact nests_skipped limit depth (skipped_cdata hd v)
  | comment t => exact nests_skipped limit depth (skipped_comment hd.1 htold v)
  | pi target rest => exact nests_skipped limit depth (skipped_pi hd.1 hd.2.2 v)

/-! ### Documents -/

mutual

/-- Elements of an empty-element tag are the only ones that no start tag is open for. -/
theorem depth_le : ∀ n : Node, n.opened ≤ n.depth ∧ n.depth ≤ n.opened + 1
  | .element _ cs _ => ⟨Nat.succ_le_succ (depthAll_le cs).1, Nat.succ_le_succ (depthAll_le cs).2⟩
  | .empty _ => ⟨Nat.zero_le 1, le_rfl⟩
  | .data _ => ⟨le_rfl, Nat.zero_le 1⟩

theorem depthAll_le : ∀ ns : List Node, openedAll ns ≤ depthAll ns ∧ depthAll ns ≤ openedAll ns + 1
  | [] => ⟨le_rfl, Nat.zero_le 1⟩
  | n :: ns => by
    have hn := depth_le n
    have hns := depthAll_le ns
    rw [openedAll, depthAll]
    omega

end

mutual

/-- Over a node the scan finds how many start tags are open at most. -/
theorem nests_node : ∀ {n : Node} {depth : ℕ}, n.WellFormed → n.Told → depth ≤ limit → ∀ v : Text,
    nests limit depth (n.render ++ v) =
      (decide (limit < depth + n.opened) || nests limit depth v)
  | .element tag cs gap, depth, ⟨htag, hcs, hgap⟩, htold, hdepth, v => by
    rw [Node.render, List.append_assoc, nests_start htag, Node.opened]
    split
    · next h =>
      have hlimit : limit < depth + (openedAll cs + 1) := by omega
      rw [decide_eq_true hlimit, Bool.true_or]
    · next h =>
      rw [List.append_assoc, nests_all hcs htold (not_lt.mp h), nests_stop htag.name hgap,
        Nat.add_sub_cancel, show depth + 1 + openedAll cs = depth + (openedAll cs + 1) by omega]
  | .empty tag, depth, htag, _, hdepth, v => by
    rw [Node.render, nests_empty htag, Node.opened, Nat.add_zero,
      decide_eq_false (not_lt.mpr hdepth), Bool.false_or]
  | .data d, depth, hd, htold, hdepth, v => by
    rw [Node.render, nests_data hd htold, Node.opened, Nat.add_zero,
      decide_eq_false (not_lt.mpr hdepth), Bool.false_or]

theorem nests_all : ∀ {ns : List Node} {depth : ℕ}, WellFormedAll ns → ToldAll ns → depth ≤ limit →
    ∀ v : Text, nests limit depth (renderAll ns ++ v) =
      (decide (limit < depth + openedAll ns) || nests limit depth v)
  | [], depth, _, _, hdepth, v => by
    rw [renderAll, openedAll, Nat.add_zero, decide_eq_false (not_lt.mpr hdepth), Bool.false_or,
      List.nil_append]
  | n :: ns, depth, ⟨hn, hns⟩, ⟨htold, htolds⟩, hdepth, v => by
    rw [renderAll, List.append_assoc, nests_node hn htold hdepth, nests_all hns htolds hdepth,
      ← Bool.or_assoc, ← Bool.decide_or, openedAll]
    congr 2
    simp only [eq_iff_iff]
    omega

end

theorem nests_datas {l : List Data} (h : ∀ d ∈ l, d.WellFormed ∧ d.Told) (v : Text) :
    nests limit depth (l.flatMap Data.render ++ v) = nests limit depth v := by
  induction l with
  | nil => rfl
  | cons d l ih =>
    obtain ⟨hd, hl⟩ := List.forall_mem_cons.mp h
    rw [List.flatMap_cons, List.append_assoc, nests_data hd.1 hd.2, ih hl]

theorem nests_document {d : Document} (hd : d.WellFormed) (htold : d.Told) (limit : ℕ) :
    nestsDeeperThan d.render limit = decide (limit < d.root.opened) := by
  have hprolog : ∀ x ∈ d.prolog, x.WellFormed ∧ x.Told :=
    fun x hx => ⟨(hd.prolog x hx).1, htold.prolog x hx⟩
  have hepilog : ∀ x ∈ d.epilog, x.WellFormed ∧ x.Told :=
    fun x hx => ⟨(hd.epilog x hx).1, htold.epilog x hx⟩
  have hend : nests limit 0 (d.epilog.flatMap Data.render) = false := by
    have h := @nests_datas limit 0 d.epilog hepilog []
    rw [List.append_nil] at h
    rw [h]
    rfl
  rw [nestsDeeperThan_eq, Document.render, nests_datas hprolog,
    nests_node hd.root htold.root (Nat.zero_le limit), hend, Bool.or_false, Nat.zero_add]

/-- Over a document the scan finds how many start tags are open at most; one that it passes is
at most one element deeper than allowed. -/
theorem nestsDeeperThan_render {d : Document} (hd : d.WellFormed) (htold : d.Told) (limit : ℕ) :
    (nestsDeeperThan d.render limit = true ↔ limit < d.root.opened) ∧
      (nestsDeeperThan d.render limit = false → d.root.depth ≤ limit + 1) := by
  rw [nests_document hd htold, decide_eq_true_eq, decide_eq_false_iff_not]
  refine ⟨Iff.rfl, fun hopened => ?_⟩
  have := depth_le d.root
  omega

/-- `<a>` -/
def sampleTag : Tag := ⟨['a'], [], []⟩

theorem sampleTag_wellFormed : sampleTag.WellFormed where
  name := ⟨rfl, fun _ hd => absurd hd List.not_mem_nil⟩
  attrs _ ha := absurd ha List.not_mem_nil
  gap _ hc := absurd hc List.not_mem_nil

/-- An element with an empty one in it has one start tag open, and is two deep. -/
def sampleDocument : Document := ⟨[], .element sampleTag [.empty sampleTag] [], []⟩

theorem nestsDeeperThan_sampleDocument : nestsDeeperThan sampleDocument.render 0 = true := by
  refine (nestsDeeperThan_render ?_ ?_ 0).1.mpr (by decide)
  · exact ⟨fun x hx => absurd hx List.not_mem_nil,
      ⟨sampleTag_wellFormed, ⟨sampleTag_wellFormed, trivial⟩,
        fun c hc => absurd hc List.not_mem_nil⟩,
      rfl, fun x hx => absurd hx List.not_mem_nil⟩
  · exact ⟨fun x hx => absurd hx List.not_mem_nil, ⟨trivial, trivial⟩,
      fun x hx => absurd hx List.not_mem_nil⟩

/-! ### Texts cut anywhere -/

/-- A text that the scan passes opens no more than `limit` elements in any of its prefixes. -/
theorem unclosed_le {ts : List Token} (hts : ∀ t ∈ ts, t.WellFormed ∧ t.Told)
    {names left : List Text} (hnames : names.length ≤ limit) (hopen : unclosed names ts = some left)
    {v : Text} (h : nests limit names.length (ts.flatMap Token.render ++ v) = false) :
    left.length ≤ limit := by
  induction ts generalizing names with
  | nil => exact Option.some.inj hopen ▸ hnames
  | cons t ts ih =>
    obtain ⟨⟨ht, htold⟩, hrest⟩ := List.forall_mem_cons.mp hts
    rw [unclosed, List.foldlM_cons] at hopen
    obtain ⟨names', hfollow, hopen⟩ := Option.bind_eq_some_iff.mp hopen
    rw [List.flatMap_cons, List.append_assoc] at h
    cases t with
    | start tag =>
      obtain rfl := Option.some.inj hfollow
      rw [nests_start ht] at h
      split at h
      · cases h
      · next hdepth =>
        refine ih hrest ?_ hopen h
        rw [List.length_cons]
        omega
    | empty tag =>
      obtain rfl := Option.some.inj hfollow
      rw [nests_empty ht] at h
      exact ih hrest hnames hopen h
    | stop name gap =>
      rw [Token.follow] at hfollow
      split at hfollow
      · obtain rfl := Option.some.inj hfollow
        rw [nests_stop ht.1 ht.2, ← List.length_tail] at h
        refine ih hrest ?_ hopen h
        rw [List.length_tail]
        omega
      · cases hfollow
    | data d =>
      obtain rfl := Option.some.inj hfollow
      rw [show (Token.data d).render = d.render from rfl, nests_data ht htold] at h
      exact ih hrest hnames hopen h

end Grammar

end Xmp

end Zencodec
