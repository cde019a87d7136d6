/-
The edit of lengths, from the packet to the packet read again.

* `rewriteItemLengths_eq_ok` — the edit succeeds exactly when every secondary is supplied
  once and the result is within the size limit, and then it is the text with the supplied
  lengths;
* `parse_relength` — this text is read as the directory with the supplied lengths, unless
  the nesting scan refuses it;
* `rewritesLengths_iff` — so the edit does what it is for exactly on the packets where the scan
  does not.
-/
import Zencodec.Container.Lengths

namespace Zencodec.Container

open Xmp (Text Attribute byteLen decimal)
open Checks
open Weave (Edit Piece before after before_cons after_cons weave gaps held)

/-! ### Collecting -/

theorem suppliedLength_eq {secondaries : List (Text × UInt64)} {semantic s : Text} {n : UInt64}
    (h : secondaries.filter (fun p => p.1 = semantic) = [(s, n)]) :
    suppliedLength secondaries semantic = n.toNat := by
  have hfind : secondaries.find? (fun p => p.1 = semantic) = some (s, n) := by
    rw [← List.head?_filter, h]
    rfl
  rw [suppliedLength, hfind]
  rfl

theorem suppliedLength_le (secondaries : List (Text × UInt64)) (semantic : Text) :
    suppliedLength secondaries semantic ≤ Xmp.usizeMax := by
  rw [suppliedLength]
  cases secondaries.find? fun p => p.1 = semantic with
  | none => exact Nat.zero_le _
  | some p => exact Nat.le_sub_one_of_lt p.2.toNat_lt

theorem collectEdits_eq_ok {secondaries : List (Text × UInt64)} {e : Entry}
    (he : e.item.semantic ≠ .primary → e.length ≠ none) {acc out : List (Edit Char)} :
    collectEdits secondaries acc e = .ok out ↔
      (e.item.semantic ≠ .primary →
        (secondaries.countP fun p => p.1 = e.item.semantic.asXmpStr) = 1) ∧
      out = acc ++ entryEdits (suppliedLength secondaries) e := by
  rw [collectEdits, entryEdits]
  by_cases hprimary : e.item.semantic = .primary
  · rw [if_pos hprimary, if_pos hprimary, List.append_nil]
    exact ⟨fun h => ⟨fun hne => absurd hprimary hne, (Except.ok.inj h).symm⟩, fun h => by rw [h.2]⟩
  rw [if_neg hprimary, if_neg hprimary, List.countP_eq_length_filter]
  obtain ⟨r, hr⟩ := Option.ne_none_iff_exists'.mp (he hprimary)
  rcases h : secondaries.filter fun p => p.1 = e.item.semantic.asXmpStr with
    _ | ⟨⟨s, n⟩, _ | ⟨q, rest⟩⟩
  · rw [h]
    exact ⟨(fun h' => by cases h'), fun h' => absurd (h'.1 hprimary) (by simp)⟩
  · rw [suppliedLength_eq h, h, hr]
    dsimp only
    cases e.padding with
    | none => exact ⟨fun h' => ⟨fun _ => rfl, (Except.ok.inj h').symm⟩, fun h' => by rw [h'.2]; rfl⟩
    | some q =>
      exact ⟨fun h' => ⟨fun _ => rfl, (Except.ok.inj h').symm⟩, fun h' => by rw [h'.2]; rfl⟩
  · rw [h]
    exact ⟨(fun h' => by cases h'), fun h' => absurd (h'.1 hprimary) (by simp)⟩

theorem collectEdits_all_eq_ok {secondaries : List (Text × UInt64)} {es : List Entry}
    (hes : ∀ e ∈ es, e.item.semantic ≠ .primary → e.length ≠ none) {acc out : List (Edit Char)} :
    es.foldlM (collectEdits secondaries) acc = .ok out ↔
      Supplied (es.map (·.item)) secondaries ∧
        out = acc ++ es.flatMap (entryEdits (suppliedLength secondaries)) := by
  induction es generalizing acc with
  | nil =>
    simp only [List.foldlM_nil, List.flatMap_nil, List.append_nil]
    refine ⟨fun h => ⟨fun i hi => absurd hi List.not_mem_nil, (Except.ok.inj h).symm⟩, ?_⟩
    rintro ⟨-, rfl⟩
    rfl
  | cons e es ih =>
    obtain ⟨he, hes⟩ := List.forall_mem_cons.mp hes
    rw [List.foldlM_cons, bind_eq_ok, Supplied, List.map_cons, List.forall_mem_cons,
      List.flatMap_cons]
    constructor
    · rintro ⟨mid, hmid, h⟩
      obtain ⟨hone, rfl⟩ := (collectEdits_eq_ok he).mp hmid
      obtain ⟨hrest, rfl⟩ := (ih hes).mp h
      exact ⟨⟨hone, hrest⟩, List.append_assoc _ _ _⟩
    · rintro ⟨⟨hone, hrest⟩, rfl⟩
      refine ⟨_, (collectEdits_eq_ok he).mpr ⟨hone, rfl⟩, ?_⟩
      exact (ih hes).mpr ⟨hrest, (List.append_assoc _ _ _).symm⟩

/-! ### Sizes -/

@[simp] theorem byteLen_append (a b : Text) : byteLen (a ++ b) = byteLen a + byteLen b := by
  simp [byteLen]

theorem byteLen_digits {t : Text} (h : ∀ c ∈ t, c.isDigit = true) : byteLen t = t.length := by
  induction t with
  | nil => rfl
  | cons c t ih =>
    obtain ⟨hc, ht⟩ := List.forall_mem_cons.mp h
    have hsize : c.utf8Size = 1 := by
      have hc : 48 ≤ c.val ∧ c.val ≤ 57 := by simpa [Char.isDigit] using hc
      exact Char.utf8Size_eq_one_iff.mpr (UInt32.le_trans hc.2 (by decide))
    have htail := ih ht
    rw [byteLen] at htail ⊢
    rw [List.map_cons, List.sum_cons, hsize, htail, List.length_cons, Nat.add_comm]

theorem byteLen_newNumber_le {lengths : Text → ℕ} (hlen : ∀ s, lengths s ≤ Xmp.usizeMax)
    (p : Text × Slot) : byteLen (newNumber lengths p) ≤ 20 := by
  rw [newNumber]
  split
  · rw [byteLen_digits (numeral_decimal _).2, decimal,
      Nat.length_toDigits_le_iff (by decide) (by decide)]
    have := hlen p.1
    rw [Xmp.usizeMax] at this
    omega
  · decide

/-- The bytes that edits put. -/
def putBytes (es : List (Edit Char)) : ℕ := (es.map fun e => byteLen e.text).sum

/-- The sizes are counted without a failure while there is room for all that is put.  `pre` is
done with, `mid` is kept and not counted yet. -/
theorem checkEdits_eq {ps : List (Piece Char)} {pre mid : Text} {size : ℕ}
    (hroom : size + byteLen (mid ++ before ps) +
      putBytes (Weave.edits (pre.length + mid.length) ps) ≤ Xmp.usizeMax) :
    ∃ last, (Weave.edits (pre.length + mid.length) ps).foldlM
        (checkEdit (pre ++ (mid ++ before ps))) (size + byteLen (mid ++ before ps), pre.length) =
      .ok (size + byteLen (mid ++ after ps), last) := by
  induction ps generalizing pre mid size with
  | nil => exact ⟨_, rfl⟩
  | cons p ps ih =>
    cases p with
    | keep xs =>
      have h := @ih pre (mid ++ xs) size
      simp only [List.length_append, List.append_assoc, ← Nat.add_assoc] at h
      simpa [Piece.old, Piece.new] using h (by simpa [Piece.old] using hroom)
    | put old new =>
      have hstart : (pre ++ (mid ++ old)).length = pre.length + mid.length + old.length := by
        simp [Nat.add_assoc]
      simp only [before_cons, Piece.old, after_cons, Piece.new, Weave.edits_put, putBytes,
        List.map_cons, List.sum_cons, byteLen_append] at hroom ⊢
      rw [List.foldlM_cons, checkEdit]
      have hfits : ¬(pre.length + mid.length < pre.length ∨
          pre.length + mid.length + old.length > (pre ++ (mid ++ (old ++ before ps))).length ∨
          pre.length + mid.length > pre.length + mid.length + old.length) := by
        simp only [List.length_append]
        omega
      have hold : ((pre ++ (mid ++ (old ++ before ps))).take
          (pre.length + mid.length + old.length)).drop (pre.length + mid.length) = old := by
        have := Weave.take_drop_append (pre ++ mid) old (before ps)
        simpa using this
      have hsub : checkedSub (size + (byteLen mid + (byteLen old + byteLen (before ps))))
          (byteLen old) = some (size + byteLen mid + byteLen (before ps)) := by
        rw [checkedSub, if_pos (by omega)]
        congr 1
        omega
      have hadd : checkedAdd (size + byteLen mid + byteLen (before ps)) (byteLen new) =
          some (size + byteLen mid + byteLen new + byteLen (before ps)) := by
        rw [checkedAdd, if_pos (by omega)]
        congr 1
        omega
      rw [if_neg hfits, hold, hsub, Option.bind_some, hadd]
      have hnext := @ih (pre ++ mid ++ old) [] (size + byteLen mid + byteLen new)
      simp only [List.nil_append, List.length_nil, Nat.add_zero, List.append_assoc, hstart]
        at hnext
      obtain ⟨last, hlast⟩ := hnext (by rw [putBytes]; omega)
      refine ⟨last, hlast.trans ?_⟩
      congr 2
      omega

theorem spliced_eq (xml : Text) (last : ℕ) (es : List (Edit Char)) :
    spliced xml last es = weave (gaps xml last (es.map Edit.range)) (es.map Edit.text) := by
  induction es generalizing last with
  | nil => simp [spliced, gaps, weave]
  | cons e es ih =>
    rw [spliced, ih, List.map_cons, List.map_cons, gaps, weave, List.append_assoc]
    rfl

/-! ### The edit -/

section

variable {d : Document} (hd : d.Lexical) {es : List Entry}
  (hes : List.Forall₂ (ReadAs d.render) (namespaces.flatMap d.itemsOf) es)

include hd hes

/-- The secondaries keep the places of their lengths. -/
theorem lengths_ne_none {e : Entry} (he : e ∈ es) (hprimary : e.item.semantic ≠ .primary) :
    e.length ≠ none := by
  obtain ⟨p, hp, hread⟩ := exists_of_forall₂ hes he
  exact hread.of.length_ne_none (itemNodes_in hd ((itemsOf_perm d).mem_iff.mp hp)) hprimary

/-- The sorted edits are the replacements of the packet, in their order. -/
theorem sortBy_entryEdits (lengths : Text → ℕ) :
    StableSort.sortBy Edit.start (es.flatMap (entryEdits lengths)) =
      Weave.edits 0 (d.script (itemRewriter lengths)) := by
  refine Weave.sortBy_edits (proper_script _ hd) ?_
  rw [edits_relength hes]
  exact entryEdits_all_perm hes hd lengths

/-- There is room for what the edits of at most 512 entries put. -/
theorem putBytes_le {lengths : Text → ℕ} (hlen : ∀ s, lengths s ≤ Xmp.usizeMax)
    (hcount : es.length ≤ 512) :
    putBytes (Weave.edits 0 (d.script (itemRewriter lengths))) ≤ 20480 := by
  have htwo : ∀ e : Entry, (entryEdits lengths e).length ≤ 2 := by
    intro e
    rw [entryEdits]
    split
    · exact Nat.zero_le _
    · cases e.length <;> cases e.padding <;> simp
  have hlength : (Weave.edits 0 (d.script (itemRewriter lengths))).length ≤ 1024 := by
    rw [← sortBy_entryEdits hd hes lengths, StableSort.length_sortBy, List.length_flatMap]
    have := List.sum_le_card_nsmul (es.map fun e => (entryEdits lengths e).length) 2 (by
      intro n hn
      obtain ⟨e, -, rfl⟩ := List.mem_map.mp hn
      exact htwo e)
    rw [List.length_map, smul_eq_mul] at this
    omega
  have hbytes := List.sum_le_card_nsmul
    ((Weave.edits 0 (d.script (itemRewriter lengths))).map fun e => byteLen e.text) 20 (by
      intro n hn
      rw [edits_relength hes, List.map_map] at hn
      obtain ⟨p, -, rfl⟩ := List.mem_map.mp hn
      exact byteLen_newNumber_le hlen p)
  rw [List.length_map, smul_eq_mul] at hbytes
  rw [putBytes]
  omega

theorem rewriteItemLengths_eq_ok (hsize : byteLen d.render ≤ Xmp.maxBytes)
    (hcount : es.length ≤ 512) (secondaries : List (Text × UInt64)) (out : Text) :
    (Directory.mk d.render es).rewriteItemLengths secondaries = .ok out ↔
      (Supplied (es.map (·.item)) secondaries ∧
        byteLen (d.withLengths (suppliedLength secondaries)) ≤ maxXmpLength) ∧
      out = d.withLengths (suppliedLength secondaries) := by
  have hlen := suppliedLength_le secondaries
  have hput := putBytes_le hd hes hlen hcount
  have hbefore := before_script (itemRewriter (suppliedLength secondaries)) d
  have hafter := after_script (itemRewriter (suppliedLength secondaries)) d
  obtain ⟨last, hcheck⟩ := @checkEdits_eq (d.script (itemRewriter (suppliedLength secondaries)))
    [] [] 0 (by
      simp only [List.nil_append, List.length_nil, Nat.add_zero, Nat.zero_add, hbefore]
      rw [Xmp.maxBytes] at hsize
      rw [Xmp.usizeMax]
      omega)
  simp only [List.nil_append, List.length_nil, Nat.add_zero, Nat.zero_add, hbefore, hafter]
    at hcheck
  have hrender : (d.rewrite (itemRewriter (suppliedLength secondaries))).render =
      d.withLengths (suppliedLength secondaries) := (withLengths_eq hes _).symm
  have hspliced : spliced d.render 0
      (Weave.edits 0 (d.script (itemRewriter (suppliedLength secondaries)))) =
      d.withLengths (suppliedLength secondaries) := by
    rw [spliced_eq, ← hrender, ← hafter, ← hbefore, Weave.weave_gaps_edits]
  rw [Directory.rewriteItemLengths, bind_eq_ok]
  constructor
  · rintro ⟨edits, hcollect, h⟩
    obtain ⟨hsupplied, rfl⟩ :=
      (collectEdits_all_eq_ok fun e he => lengths_ne_none hd hes he).mp hcollect
    rw [List.nil_append, sortBy_entryEdits hd hes] at h
    obtain ⟨⟨size, stop⟩, hsizes, h⟩ := bind_eq_ok.mp h
    rw [hcheck] at hsizes
    obtain ⟨rfl, rfl⟩ := Prod.mk.inj (Except.ok.inj hsizes)
    obtain ⟨hle, h⟩ := guard_eq_ok.mp h
    rw [hrender, not_lt] at hle
    exact ⟨⟨hsupplied, hle⟩, (hspliced.symm.trans (Except.ok.inj h)).symm⟩
  · rintro ⟨⟨hsupplied, hle⟩, rfl⟩
    refine ⟨_, (collectEdits_all_eq_ok fun e he => lengths_ne_none hd hes he).mpr
      ⟨hsupplied, rfl⟩, ?_⟩
    rw [List.nil_append, sortBy_entryEdits hd hes]
    refine bind_eq_ok.mpr ⟨_, hcheck, guard_eq_ok.mpr ⟨?_, ?_⟩⟩
    · rw [hrender]
      exact not_lt.mpr hle
    · rw [hspliced]
      rfl

end

/-! ### Reading again -/

theorem Packet.parse_eq_ok {reader : Text → Except Text Document} {xml : Text} {d : Document} :
    Packet.parse reader xml = .ok d ↔
      byteLen xml ≤ Xmp.maxBytes ∧ Xmp.nestsDeeperThan xml Xmp.maxNesting = false ∧
        reader xml = .ok d ∧ ∀ count ∈ d.ancestorCounts, count ≤ 65 := by
  rw [Packet.parse, guard_eq_ok, guard_eq_ok, not_lt, Bool.not_eq_true]
  refine and_congr_right fun _ => and_congr_right fun _ => ?_
  cases reader xml with
  | error message => simp
  | ok doc =>
    dsimp only
    rw [guard_eq_ok, Except.ok.injEq, Except.ok.injEq, and_comm]
    refine and_congr_right fun hdoc => ?_
    subst hdoc
    rw [List.any_eq_true]
    constructor
    · intro h count hcount
      by_contra hlt
      exact h ⟨count, hcount, by simp; omega⟩
    · rintro h ⟨count, hcount, hlt⟩
      have hle := h count hcount
      simp at hlt
      omega

theorem Directory.parse_eq_ok {reader : Text → Except Text Document} {xml : Text}
    {dir : Directory} :
    Directory.parse reader xml = .ok dir ↔
      ∃ d es, Packet.parse reader xml = .ok d ∧
        namespaces.foldlM (namespacePass xml d) [] = .ok es ∧ dir = ⟨xml, es⟩ := by
  rw [Directory.parse, bind_eq_ok]
  refine exists_congr fun d => ?_
  rw [bind_eq_ok]
  constructor
  · rintro ⟨hd, es, hes, h⟩
    exact ⟨es, hd, hes, (Except.ok.inj h).symm⟩
  · rintro ⟨es, hd, hes, rfl⟩
    exact ⟨hd, es, hes, rfl⟩

/-- The directory of a packet, with other lengths, is read unless the nesting scan refuses. -/
theorem parse_relength {reader : Text → Except Text Document} (exact : ExactReader reader)
    {d : Document} {es : List Entry} {lengths : Text → ℕ}
    (hlen : ∀ s, lengths s ≤ Xmp.usizeMax) (hread : Packet.parse reader d.render = .ok d)
    (hes : namespaces.foldlM (namespacePass d.render d) [] = .ok es)
    (hsize : byteLen (d.relength lengths).render ≤ Xmp.maxBytes) :
    (∃ dir', Directory.parse reader (d.relength lengths).render = .ok dir' ∧
        dir'.items = es.map (·.item.relength lengths)) ↔
      Xmp.nestsDeeperThan (d.relength lengths).render Xmp.maxNesting = false := by
  obtain ⟨-, -, hreader, hcounts⟩ := Packet.parse_eq_ok.mp hread
  have hrenumbered := rewrite_renumbered (itemRewriter lengths) d
  have hreader' : reader (d.relength lengths).render = .ok (d.relength lengths) :=
    exact.numerals hreader hrenumbered
  constructor
  · rintro ⟨dir', hdir', -⟩
    obtain ⟨d', es', hd', -, -⟩ := Directory.parse_eq_ok.mp hdir'
    exact (Packet.parse_eq_ok.mp hd').2.1
  · intro hnests
    have hpacket : Packet.parse reader (d.relength lengths).render = .ok (d.relength lengths) := by
      refine Packet.parse_eq_ok.mpr ⟨hsize, hnests, hreader', fun count hcount => ?_⟩
      exact hcounts count (hrenumbered.root.ancestorCounts 1 hcount)
    have hnone : ([] : List Entry).map (·.item) =
        ([] : List Entry).map (·.item.relength lengths) := rfl
    obtain ⟨es', hes', hitems⟩ := namespacePasses_relength (exact.source hreader').2 hlen
      (fun ns hns => hns) hnone hes
    refine ⟨_, Directory.parse_eq_ok.mpr ⟨_, es', hpacket, hes', rfl⟩, ?_⟩
    exact hitems

theorem newNumbers_numeral (f g : Text → ℕ) (l : List (Text × Slot)) :
    List.Forall₂ (fun v w => Numeral v ∧ Numeral w) (l.map (newNumber f))
      (l.map (newNumber g)) := by
  have hnumeral : ∀ (h : Text → ℕ) (p : Text × Slot), Numeral (newNumber h p) := by
    intro h p
    rw [newNumber]
    split
    · exact numeral_decimal _
    · exact numeral_zero
  rw [List.forall₂_map_left_iff, List.forall₂_map_right_iff, List.forall₂_same]
  exact fun p _ => ⟨hnumeral f p, hnumeral g p⟩

/-- The packet is its gaps with the lengths and paddings of its secondaries between them. -/
theorem source_places {d : Document} {es : List Entry}
    (hes : List.Forall₂ (ReadAs d.render) (namespaces.flatMap d.itemsOf) es) :
    weave (gaps d.render 0 d.places) (held d.render d.places) = d.render := by
  have hplaces : d.places =
      (Weave.edits 0 (d.script (itemRewriter fun _ => 0))).map Edit.range := by
    rw [edits_relength hes, List.map_map]
    rfl
  refine Weave.weave_gaps_held ?_ ?_
  · rw [hplaces, List.pairwise_map]
    exact Weave.edits_pairwise _ _
  · intro r hr
    rw [hplaces] at hr
    obtain ⟨e, he, rfl⟩ := List.mem_map.mp hr
    obtain ⟨hstart, hstop, -⟩ := Weave.edits_within he
    exact ⟨hstart, hstop⟩

/-- What an edit of lengths is for. -/
structure RewritesLengths (reader : Text → Except Text Document) (d : Document) (dir : Directory)
    (secondaries : List (Text × UInt64)) : Prop where
  /-- It succeeds on one pair for every secondary and a result within the limit. -/
  succeeds : (dir.rewriteItemLengths secondaries).isOk = true ↔
    Supplied dir.items secondaries ∧
      byteLen (d.withLengths (suppliedLength secondaries)) ≤ maxXmpLength
  /-- The packet is its gaps and, between them, the lengths and paddings of its secondaries. -/
  source : weave (gaps dir.xml 0 d.places) (held dir.xml d.places) = dir.xml
  /-- The result is the same gaps and the new numerals. -/
  frame : ∀ out, dir.rewriteItemLengths secondaries = .ok out →
    out = weave (gaps dir.xml 0 d.places)
      (d.numberSlots.map (newNumber (suppliedLength secondaries)))
  /-- The result is read as the same items with the supplied lengths. -/
  reread : ∀ out, dir.rewriteItemLengths secondaries = .ok out →
    ∃ dir', Directory.parse reader out = .ok dir' ∧
      dir'.items = dir.items.map (ContainerItem.relength (suppliedLength secondaries))

/-- The edit does what it is for exactly when it is refused or the nesting scan does not find the
packet too deep with zeros for its lengths and paddings. -/
theorem rewritesLengths_iff {reader : Text → Except Text Document} (exact : ExactReader reader)
    {xml : Text} {d : Document} {dir : Directory} (hd : reader xml = .ok d)
    (hdir : Directory.parse reader xml = .ok dir) (secondaries : List (Text × UInt64)) :
    RewritesLengths reader d dir secondaries ↔
      (Supplied dir.items secondaries ∧
          byteLen (d.withLengths (suppliedLength secondaries)) ≤ maxXmpLength →
        Xmp.nestsDeeperThan (d.withLengths fun _ => 0) Xmp.maxNesting = false) := by
  obtain ⟨d', es, hpacket, hes, rfl⟩ := Directory.parse_eq_ok.mp hdir
  obtain ⟨hsize, -, hd', -⟩ := Packet.parse_eq_ok.mp hpacket
  obtain rfl : d = d' := Except.ok.inj (hd.symm.trans hd')
  obtain ⟨rfl, hlexical⟩ := exact.source hd
  obtain ⟨es', hread, hcount, hes'⟩ := itemsOf_readAs_all hes
  rw [List.nil_append] at hes'
  subst hes'
  have hedit := rewriteItemLengths_eq_ok hlexical hread hsize hcount secondaries
  have hlen := suppliedLength_le secondaries
  have hrender := withLengths_eq hread (suppliedLength secondaries)
  have hreread := fun hfits => parse_relength exact hlen hpacket hes (hrender ▸ hfits)
  rw [← hrender] at hreread
  -- the scan cannot tell the supplied lengths from zeros
  have hnests : Xmp.nestsDeeperThan (d.withLengths (suppliedLength secondaries)) Xmp.maxNesting =
      Xmp.nestsDeeperThan (d.withLengths fun _ => 0) Xmp.maxNesting :=
    nestsDeeperThan_weave (newNumbers_numeral _ _ _) _
  rw [hnests] at hreread
  constructor
  · rintro h ⟨hsupplied, hfits⟩
    obtain ⟨dir', hdir', hitems⟩ := h.reread _ ((hedit _).mpr ⟨⟨hsupplied, hfits⟩, rfl⟩)
    refine (hreread hfits).mp ⟨dir', hdir', ?_⟩
    rw [hitems]
    exact List.map_map
  · intro h
    constructor
    · constructor
      · intro hok
        cases hrewrite : (Directory.mk d.render es).rewriteItemLengths secondaries with
        | error e =>
          rw [hrewrite] at hok
          cases hok
        | ok out => exact ((hedit out).mp hrewrite).1
      · intro happlies
        rw [(hedit _).mpr ⟨happlies, rfl⟩]
        rfl
    · exact source_places hread
    · exact fun out hout => ((hedit out).mp hout).2
    · intro out hout
      obtain ⟨happlies, rfl⟩ := (hedit out).mp hout
      obtain ⟨dir', hdir', hitems⟩ := (hreread happlies.2).mpr (h happlies)
      refine ⟨dir', hdir', hitems.trans ?_⟩
      rw [Directory.items, List.map_map]
      rfl

end Zencodec.Container
