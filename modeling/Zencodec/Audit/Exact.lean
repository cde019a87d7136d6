/-
Audits tell the whole difference, but for paths that run together.

EXIF paths are always distinct: a key has no bracket, so a path tells its key and
number.  XMP paths are distinct when the packet is unambiguous, or listed nothing
because its snapshot is over the budget; `audit_exact` is the comparison of any two
packets and of any two blobs.
-/
import Zencodec.Audit.Report
import Zencodec.Xmp.Ambiguous

open StableSort

namespace Zencodec.Audit

open Xmp Exif Slices

/-- The comparison of two reports tells their whole difference: the paths of each are
distinct, nothing is reported precisely when they have the same entries, and carrying out
what is reported turns the entries of the first into those of the second. -/
structure ExactDiff (before after : Report) : Prop where
  distinct_before : (before.entries.map Entry.path).Nodup
  distinct_after : (after.entries.map Entry.path).Nodup
  empty_iff : before.diff after = [] ↔ before.entries.Perm after.entries
  patched : KeyedDiff.patched Entry.path (before.diff after) before.entries = after.entries

theorem exactDiff_iff {before after : Report} : ExactDiff before after ↔
    (before.entries.map Entry.path).Nodup ∧ (after.entries.map Entry.path).Nodup := by
  refine ⟨fun h => ⟨h.distinct_before, h.distinct_after⟩, fun h => ?_⟩
  have hexact := (KeyedDiff.exact_iff before.sorted after.sorted).mpr h
  exact ⟨hexact.distinct_before, hexact.distinct_next, hexact.empty_iff, hexact.patched_eq⟩

/-! ### EXIF paths -/

theorem bracket_notMem_toDigits (n : ℕ) : '[' ∉ Nat.toDigits 16 n := by
  induction n using Nat.strong_induction_on with
  | _ n ih =>
    have hdigit : ∀ k < 16, '[' ≠ Nat.digitChar k := by decide
    rw [Nat.toDigits_eq_if (by decide)]
    split
    · next h => exact fun hmem => hdigit n h (List.mem_singleton.mp hmem)
    · next h =>
      rw [List.mem_append, not_or]
      exact ⟨ih _ (by omega), fun hmem =>
        hdigit _ (Nat.mod_lt _ (by decide)) (List.mem_singleton.mp hmem)⟩

theorem bracket_notMem_exifKey (e : EntryRef) : '[' ∉ exifKey e := by
  have hexif : '[' ∉ "exif/".toList := by decide
  have hx : '[' ∉ "/0x".toList := by decide
  have hname : '[' ∉ ifdName e.ifd := by cases e.ifd <;> decide
  have hpad : '[' ∉ lowerHex 4 e.tag.toNat := by
    rw [lowerHex, List.leftpad, List.mem_append, not_or]
    exact ⟨fun h => absurd (List.eq_of_mem_replicate h) (by decide), bracket_notMem_toDigits _⟩
  simp only [exifKey, List.mem_append, not_or]
  exact ⟨⟨⟨hexif, hname⟩, hx⟩, hpad⟩

theorem occurrencePath_inj {k l : Text} {i j : ℕ} (hk : '[' ∉ k) (hl : '[' ∉ l)
    (h : occurrencePath k i = occurrencePath l j) : k = l ∧ i = j := by
  obtain ⟨hkl, hij⟩ := cut_at hk hl h
  exact ⟨hkl, (cut_index hij).1⟩

/-- The entries so far have distinct paths, with the numbers already given out. -/
structure Numbered (s : Inspection) : Prop where
  nodup : (s.entries.map Entry.path).Nodup
  given : ∀ e ∈ s.entries, ∃ key i, e.path = occurrencePath key i ∧ '[' ∉ key ∧
    i < s.occurrences key

theorem Numbered.start : Numbered Inspection.start where
  nodup := List.nodup_nil
  given _ he := by cases he

theorem Numbered.entry {s : Inspection} (h : Numbered s) (debug : Debug) (order : ByteOrder)
    (e : EntryRef) (budget : ℕ) : Numbered (s.entry debug order e budget) := by
  have hkey := bracket_notMem_exifKey e
  -- a number is given out only once
  have hfresh : occurrencePath (exifKey e) (s.occurrences (exifKey e)) ∉
      s.entries.map Entry.path := by
    intro hmem
    obtain ⟨f, hf, heq⟩ := List.mem_map.mp hmem
    obtain ⟨key, i, hpath, hnot, hi⟩ := h.given f hf
    obtain ⟨rfl, rfl⟩ := occurrencePath_inj hnot hkey (hpath.symm.trans heq)
    exact absurd hi (lt_irrefl _)
  constructor
  · rw [Inspection.entry, List.map_append, List.map_singleton, List.nodup_append_comm]
    exact List.nodup_cons.mpr ⟨hfresh, h.nodup⟩
  · intro f hf
    rcases List.mem_append.mp hf with hf | hf
    · obtain ⟨key, i, hpath, hnot, hi⟩ := h.given f hf
      refine ⟨key, i, hpath, hnot, hi.trans_le ?_⟩
      simp only [Inspection.entry, Function.update_apply]
      split
      · next heq => rw [heq]; exact Nat.le_succ _
      · exact le_rfl
    · refine ⟨exifKey e, s.occurrences (exifKey e), ?_, hkey, ?_⟩
      · rw [List.mem_singleton.mp hf]
      · simp [Inspection.entry]

theorem Numbered.run {debug : Debug} {order : ByteOrder} : ∀ {es : List EntryRef}
    {s : Inspection}, Numbered s → Numbered (s.run debug order es)
  | [], _, h => h
  | e :: es, s, h => by
    rw [Inspection.run]
    split
    · exact ⟨h.nodup, h.given⟩
    · exact Numbered.run (h.entry debug order e _)

/-- **The paths of an EXIF audit are distinct.** -/
theorem exif_nodup (debug : Debug) (bytes : Bytes) :
    ((Report.exif debug bytes).entries.map Entry.path).Nodup := by
  unfold Report.exif
  split
  · exact List.nodup_nil
  · split
    · exact List.nodup_nil
    · next x _ =>
      have hrun : Numbered (Inspection.start.run debug x.order (entries x)) :=
        Numbered.start.run
      exact ((sortBy_perm Entry.path _).map Entry.path).nodup_iff.mpr hrun.nodup

/-! ### XMP paths -/

variable {debug : Debug} {reader : Text → Except Text Document} {xml : Text} {d : Document}

theorem xmp_of_fields (h : Packet.parse reader xml = .ok d) {fs : List Xmp.Field}
    (hf : Packet.fields d = .ok fs) :
    (Report.xmp debug reader xml).entries = fs.map Report.ofField := by
  have hbind : (Packet.parse reader xml).bind Packet.fields = .ok fs := by
    rw [h]
    exact hf
  unfold Report.xmp
  split
  · next fields hok =>
    obtain rfl := Except.ok.inj (hok.symm.trans hbind)
    rfl
  · next e herr => rw [hbind] at herr; cases herr

theorem xmp_of_error (h : Packet.parse reader xml = .ok d)
    (hf : ¬∃ fs, Packet.fields d = .ok fs) : (Report.xmp debug reader xml).entries = [] := by
  have hbind : (Packet.parse reader xml).bind Packet.fields = Packet.fields d := by
    rw [h]
    rfl
  unfold Report.xmp
  split
  · next fields hok => exact absurd ⟨fields, hbind.symm.trans hok⟩ hf
  · rfl

/-- **The paths of an XMP audit are distinct if and only if the packet is unambiguous, or
over the budget.** -/
theorem xmp_nodup_iff (h : Packet.parse reader xml = .ok d) :
    ((Report.xmp debug reader xml).entries.map Entry.path).Nodup ↔
      (d.cost ≤ maxBytes → d.Unambiguous) := by
  rw [← fields_isOk_iff]
  by_cases hf : ∃ fs, Packet.fields d = .ok fs
  · obtain ⟨fs, hfs⟩ := hf
    have hpaths : (fs.map Report.ofField).map Entry.path = fs.map Xmp.Field.path :=
      List.map_map
    rw [xmp_of_fields h hfs, hpaths, Document.paths_nodup_iff hfs]
    exact ⟨fun hd _ => hd, fun hd => hd ⟨fs, hfs⟩⟩
  · rw [xmp_of_error h hf]
    exact ⟨fun _ hsome => absurd hsome hf, fun _ => List.nodup_nil⟩

/-- **An audit's comparison of two packets that parse is exact if and only if each is
unambiguous or over the snapshot's budget; of two EXIF blobs it always is.** -/
theorem audit_exact (debug : Debug) (reader : Text → Except Text Document) {x y : Text}
    {d e : Document} (hx : Packet.parse reader x = .ok d) (hy : Packet.parse reader y = .ok e)
    (a b : Bytes) :
    (ExactDiff (Report.xmp debug reader x) (Report.xmp debug reader y) ↔
      (d.cost ≤ maxBytes → d.Unambiguous) ∧ (e.cost ≤ maxBytes → e.Unambiguous)) ∧
    ExactDiff (Report.exif debug a) (Report.exif debug b) := by
  constructor
  · rw [exactDiff_iff, xmp_nodup_iff hx, xmp_nodup_iff hy]
  · exact exactDiff_iff.mpr ⟨exif_nodup debug a, exif_nodup debug b⟩

/-! ### A packet whose paths run together -/

/-- The second `c` stands in the namespace `n}r[0]/{x`, so its path is the path of the
first. -/
def runTogetherXml : Text :=
  "<R><r xmlns=\"n\"><c xmlns=\"x\"/></r><c xmlns=\"n\x7dr[0]/\x7bx\"/></R>".toList

/-- The same packet without the second `c`. -/
def withoutXml : Text := "<R><r xmlns=\"n\"><c xmlns=\"x\"/></r></R>".toList

/-- The nodes the two packets share. -/
def sharedRows : List Row :=
  [⟨0, .element none ['R'] []⟩, ⟨1, .element (some ['n']) ['r'] []⟩,
    ⟨2, .element (some ['x']) ['c'] []⟩]

def extraRow : Row := ⟨1, .element (some "n\x7dr[0]/\x7bx".toList) ['c'] []⟩

theorem parent_le_of {nodes : List Row} (h : ∀ x ∈ nodes.zipIdx, x.1.parent ≤ x.2) (i : ℕ)
    (r : Row) (hr : nodes[i]? = some r) : r.parent ≤ i :=
  h (r, i) (List.mk_mem_zipIdx_iff_getElem?.mpr hr)

theorem plain_element {ns : Option Text} {name : Text} (h : '}' ∉ name ∧ '[' ∉ name) :
    (Node.element ns name []).Plain where
  element _ _ _ heq := by
    obtain ⟨-, rfl, -⟩ := Node.element.inj heq
    exact h
  attributes _ ha := by cases ha
  distinct := List.Pairwise.nil

theorem plain_sharedRows : ∀ r ∈ sharedRows, r.node.Plain := by
  intro r hr
  rcases List.mem_cons.mp hr with rfl | hr
  · exact plain_element (by decide)
  rcases List.mem_cons.mp hr with rfl | hr
  · exact plain_element (by decide)
  · rw [List.mem_singleton.mp hr]
    exact plain_element (by decide)

theorem plain_runTogether : ∀ r ∈ sharedRows ++ [extraRow], r.node.Plain := by
  intro r hr
  rcases List.mem_append.mp hr with hr | hr
  · exact plain_sharedRows r hr
  · rw [List.mem_singleton.mp hr]
    exact plain_element (by decide)

theorem parent_le_without : ∀ x ∈ sharedRows.zipIdx, x.1.parent ≤ x.2 := by decide

theorem parent_le_runTogether :
    ∀ x ∈ (sharedRows ++ [extraRow]).zipIdx, x.1.parent ≤ x.2 := by decide

def without : Document where
  nodes := sharedRows
  parent_le := parent_le_of parent_le_without
  plain := plain_sharedRows

def runTogether : Document where
  nodes := sharedRows ++ [extraRow]
  parent_le := parent_le_of parent_le_runTogether
  plain := plain_runTogether

/-- The XML reader, on the two packets. -/
def reads (xml : Text) : Except Text Document :=
  if xml = runTogetherXml then .ok runTogether
  else if xml = withoutXml then .ok without
  else .error []

/-- Debug notation that is never used here. -/
def noDebug : Debug where
  text t := t
  f32 _ := []
  f64 _ := []

/-- The removal of an element is not reported, because another has the same path. -/
theorem audit_overlooks :
    Packet.parse reads runTogetherXml = .ok runTogether ∧
    Packet.parse reads withoutXml = .ok without ∧
    (Report.xmp noDebug reads runTogetherXml).diff (Report.xmp noDebug reads withoutXml) = [] ∧
    ¬(Report.xmp noDebug reads runTogetherXml).entries.Perm
      (Report.xmp noDebug reads withoutXml).entries := by
  refine ⟨rfl, rfl, by decide +kernel, by decide +kernel⟩

theorem audit_exact_runTogether :
    (ExactDiff (Report.xmp noDebug reads runTogetherXml) (Report.xmp noDebug reads withoutXml) ↔
      (runTogether.cost ≤ maxBytes → runTogether.Unambiguous) ∧
        (without.cost ≤ maxBytes → without.Unambiguous)) ∧
    ExactDiff (Report.exif noDebug []) (Report.exif noDebug []) :=
  audit_exact noDebug reads rfl rfl [] []

end Zencodec.Audit
