/-
Candidates: parts before overlap resolution.

A candidate is a part with its own children.  `rankAt` is the rank of the fate it gives a
byte: that of the deepest part there, or of the gap in a body.

* `clip_eq`, `segments_eq` — cutting and splitting, one level at a time;
* `Nested.cut` — the cut of a candidate whose children lie in its body is one;
* `rankAt_clip` — cutting a candidate to a range keeps the fates inside it.
-/
import Zencodec.Inventory.Parts

open StableSort Tiling

namespace Zencodec

namespace Tiff

/-- Notes appended to one part's detail before the rest are only counted. -/
def maxNotes : ℕ := 4

/-- How strongly a disposition says the decode path uses bytes. -/
def rank : Disposition → ℕ
  | .metadata _ => 6
  | .structure => 5
  | .imageData => 5
  | .malformed => 4
  | .dropped => 3
  | .padding => 2
  | _ => 1

/-- A part before overlap resolution, with its own children. -/
structure Cand where
  range : Span ℕ
  kind : PartKind
  tag : PartTag
  label : Option String
  disp : Disposition
  detail : String
  children : List Cand
  /-- For a container: the range its children tile; bytes of it that no child covers
  become gaps. -/
  body : Option (Span ℕ)
  /-- The fate and detail of those gaps, instead of `unreferenced`. -/
  gap : Option (Disposition × String)
  notes : ℕ

namespace Cand

def new (range : Span ℕ) (kind : PartKind) (tag : PartTag) (disp : Disposition)
    (detail : String) : Cand where
  range := range
  kind := kind
  tag := tag
  label := none
  disp := disp
  detail := detail
  children := []
  body := none
  gap := none
  notes := 0

/-- Properties of a candidate that follow from its children hold of every candidate. -/
theorem induct {P : Cand → Prop} (h : ∀ c : Cand, (∀ ch ∈ c.children, P ch) → P c) :
    ∀ c, P c := by
  intro c
  refine Cand.rec (motive_1 := P) (motive_2 := fun cs => ∀ ch ∈ cs, P ch) ?_ ?_ ?_ c
  · intro range kind tag label disp detail children body gap notes ih
    exact h _ ih
  · exact fun ch hch => absurd hch List.not_mem_nil
  · intro ch cs hch hcs
    exact List.forall_mem_cons.mpr ⟨hch, hcs⟩

end Cand

/-- Append a remark to a detail. -/
def pushNote (detail text : String) : String :=
  if detail.isEmpty then text else detail ++ "; " ++ text

/-- Attach a remark; past `maxNotes` only one marker is added. -/
def Cand.note (c : Cand) (text : String) : Cand :=
  let notes := c.notes + 1
  { c with
    notes := notes
    detail :=
      if notes ≤ maxNotes then pushNote c.detail text
      else if notes = maxNotes + 1 then pushNote c.detail "further overlaps not listed"
      else c.detail }

/-- A candidate as notes name it. -/
def describe (c : Cand) : String :=
  let head := (c.detail.splitOn ";").headD ""
  s!"{c.kind.name} {c.range.start}..{c.range.stop} ({head})"

/-! ### Cutting -/

mutual

/-- `c` cut to `r`, with its body and children cut the same way; `none` when they do not
meet.  A cut child says so when `mark`. -/
def clip (c : Cand) (r : Span ℕ) (mark : Bool) : Option Cand :=
  match c with
  | ⟨crange, kind, tag, label, disp, detail, children, body, gap, notes⟩ =>
    let range : Span ℕ := ⟨max crange.start r.start, min crange.stop r.stop⟩
    if range.stop ≤ range.start then none
    else
      let out : Cand :=
        { range, kind, tag, label, disp, detail, notes, gap
          body := (body.map fun b =>
            (⟨max b.start range.start, min b.stop range.stop⟩ : Span ℕ)).filter
              fun b => b.start < b.stop
          children := clipAll children range }
      if mark && range ≠ crange then some (out.note "split by an overlapping part")
      else some out

/-- The children cut to `r`, without those that do not meet it. -/
def clipAll : List Cand → Span ℕ → List Cand
  | [], _ => []
  | ch :: rest, r =>
    match clip ch r true with
    | some ch => ch :: clipAll rest r
    | none => clipAll rest r

end

/-! ### Stretches of one fate -/

/-- One stretch of a candidate with a single fate. -/
structure Seg where
  range : Span ℕ
  rank : ℕ
  cand : ℕ
  deriving DecidableEq, Repr

/-- The fate rank of a container's body bytes no child covers. -/
def gapRank (c : Cand) : ℕ := rank ((c.gap.map Prod.fst).getD .unreferenced)

/-- The body, when it lies inside the candidate. -/
def Cand.innerBody (c : Cand) : Option (Span ℕ) :=
  c.body.filter fun b => c.range.start ≤ b.start ∧ b.stop ≤ c.range.stop

/-- The stretches of `r`, which no child covers: one, or three where a body begins and
ends. -/
def own (c : Cand) (cand : ℕ) (r : Span ℕ) : List Seg :=
  if r.stop ≤ r.start then []
  else match c.innerBody with
    | none => [⟨r, rank c.disp, cand⟩]
    | some b =>
      ([(⟨r.start, min r.stop b.start⟩, rank c.disp),
        (⟨max r.start b.start, min r.stop b.stop⟩, gapRank c),
        (⟨max r.start b.stop, r.stop⟩, rank c.disp)] : List (Span ℕ × ℕ)).filterMap
          fun (r, rank) => if r.start < r.stop then some ⟨r, rank, cand⟩ else none

/-- The stretches of `range` from `cursor` on, given those of the children in order of
their start. -/
def between (c : Cand) (cand : ℕ) (range : Span ℕ) :
    ℕ → List (Span ℕ × List Seg) → List Seg
  | cursor, [] => own c cand ⟨cursor, range.stop⟩
  | cursor, (r, segs) :: kids =>
    let start := min (max r.start range.start) range.stop
    (if cursor < start then own c cand ⟨cursor, start⟩ else []) ++ segs ++
      between c cand range (max cursor (min r.stop range.stop)) kids

mutual

/-- Split `c` (clipped to `within`) into stretches of one fate each. -/
def segments (c : Cand) (within : Span ℕ) (cand : ℕ) : List Seg :=
  match c with
  | ⟨crange, kind, tag, label, disp, detail, children, body, gap, notes⟩ =>
    let c : Cand := ⟨crange, kind, tag, label, disp, detail, children, body, gap, notes⟩
    let range : Span ℕ := ⟨max crange.start within.start, min crange.stop within.stop⟩
    if range.stop ≤ range.start then []
    else
      between c cand range range.start
        (sortBy (fun k => k.1.start) (segmentsAll children range cand))

/-- The stretches of each child. -/
def segmentsAll : List Cand → Span ℕ → ℕ → List (Span ℕ × List Seg)
  | [], _, _ => []
  | ch :: rest, within, cand =>
    (ch.range, segments ch within cand) :: segmentsAll rest within cand

end

/-! ### Equations -/

theorem clipAll_eq (cs : List Cand) (r : Span ℕ) :
    clipAll cs r = cs.filterMap (clip · r true) := by
  induction cs with
  | nil => rfl
  | cons ch rest ih =>
    rw [clipAll, List.filterMap_cons, ← ih]
    cases clip ch r true <;> rfl

/-- What `clip` returns, before the remark. -/
def Cand.cut (c : Cand) (r : Span ℕ) : Cand :=
  { c with
    range := c.range.inter r
    body := (c.body.map (·.inter (c.range.inter r))).filter fun b => b.start < b.stop
    children := c.children.filterMap (clip · (c.range.inter r) true) }

theorem clip_eq (c : Cand) (r : Span ℕ) (mark : Bool) :
    clip c r mark =
      if (c.range.inter r).Nonempty then
        some (if mark && c.range.inter r ≠ c.range then
          (c.cut r).note "split by an overlapping part" else c.cut r)
      else none := by
  obtain ⟨crange, kind, tag, label, disp, detail, children, body, gap, notes⟩ := c
  rw [clip, clipAll_eq]
  by_cases hne : (crange.inter r).Nonempty
  · have hlt : ¬min crange.stop r.stop ≤ max crange.start r.start := not_le.mpr hne
    rw [if_pos hne, apply_ite some]
    exact if_neg hlt
  · have hle : min crange.stop r.stop ≤ max crange.start r.start := not_lt.mp hne
    rw [if_neg hne]
    exact if_pos hle

theorem segmentsAll_eq (cs : List Cand) (within : Span ℕ) (cand : ℕ) :
    segmentsAll cs within cand = cs.map fun ch => (ch.range, segments ch within cand) := by
  induction cs with
  | nil => rfl
  | cons ch rest ih => rw [segmentsAll, ih, List.map_cons]

theorem segments_eq (c : Cand) (within : Span ℕ) (cand : ℕ) :
    segments c within cand =
      if (c.range.inter within).Nonempty then
        between c cand (c.range.inter within) (c.range.inter within).start
          (sortBy (fun k => k.1.start) (c.children.map fun ch =>
            (ch.range, segments ch (c.range.inter within) cand)))
      else [] := by
  obtain ⟨crange, kind, tag, label, disp, detail, children, body, gap, notes⟩ := c
  rw [segments, segmentsAll_eq]
  by_cases hne : (crange.inter within).Nonempty
  · have hlt : ¬min crange.stop within.stop ≤ max crange.start within.start := not_le.mpr hne
    rw [if_neg hlt, if_pos hne]
    rfl
  · have hle : min crange.stop within.stop ≤ max crange.start within.start := not_lt.mp hne
    rw [if_pos hle, if_neg hne]

/-! ### The fate of a byte -/

/-- The rank of the bytes of `c` that no child covers. -/
def ownRank (c : Cand) (x : ℕ) : ℕ :=
  match c.innerBody with
  | some b => if x ∈ b then gapRank c else rank c.disp
  | none => rank c.disp

theorem ownRank_some {c : Cand} {b : Span ℕ} (hb : c.innerBody = some b) (x : ℕ) :
    ownRank c x = if x ∈ b then gapRank c else rank c.disp := by
  simp only [ownRank, hb]

theorem ownRank_none {c : Cand} (hb : c.innerBody = none) (x : ℕ) :
    ownRank c x = rank c.disp := by
  simp only [ownRank, hb]

mutual

/-- The rank of the fate `c` gives byte `x`: that of the deepest part there, or of the
gap in its body. -/
def Cand.rankAt (c : Cand) (x : ℕ) : Option ℕ :=
  match c with
  | ⟨range, kind, tag, label, disp, detail, children, body, gap, notes⟩ =>
    if x ∈ range then
      some ((rankAtAll children x).getD
        (ownRank ⟨range, kind, tag, label, disp, detail, children, body, gap, notes⟩ x))
    else none

/-- The rank the first of the parts that cover `x` gives it. -/
def rankAtAll : List Cand → ℕ → Option ℕ
  | [], _ => none
  | ch :: rest, x => (ch.rankAt x).or (rankAtAll rest x)

end

theorem rankAt_eq (c : Cand) (x : ℕ) :
    c.rankAt x =
      if x ∈ c.range then some ((rankAtAll c.children x).getD (ownRank c x)) else none := by
  obtain ⟨range, kind, tag, label, disp, detail, children, body, gap, notes⟩ := c
  rw [Cand.rankAt]

theorem rankAt_eq_none_iff {c : Cand} {x : ℕ} : c.rankAt x = none ↔ x ∉ c.range := by
  rw [rankAt_eq]
  split <;> simp [*]

theorem rankAtAll_eq_none {cs : List Cand} {x : ℕ} (h : ∀ ch ∈ cs, x ∉ ch.range) :
    rankAtAll cs x = none := by
  induction cs with
  | nil => rfl
  | cons ch rest ih =>
    obtain ⟨hch, hrest⟩ := List.forall_mem_cons.mp h
    rw [rankAtAll, rankAt_eq_none_iff.mpr hch, ih hrest, Option.or_none]

/-- Of disjoint parts, the one that covers `x` decides. -/
theorem rankAtAll_of_mem {cs : List Cand} {ch : Cand} {x : ℕ}
    (hdisj : cs.Pairwise fun a b => a.range.Disjoint b.range) (hch : ch ∈ cs)
    (hx : x ∈ ch.range) : rankAtAll cs x = ch.rankAt x := by
  induction cs with
  | nil => exact absurd hch List.not_mem_nil
  | cons a rest ih =>
    obtain ⟨ha, hrest⟩ := List.pairwise_cons.mp hdisj
    rw [rankAtAll]
    rcases List.mem_cons.mp hch with rfl | hch
    · have hsome : (ch.rankAt x).isSome := by
        rw [Option.isSome_iff_ne_none]
        exact fun h => rankAt_eq_none_iff.mp h hx
      exact Option.or_of_isSome hsome
    · have hax : x ∉ a.range := fun hax => ha ch hch x hax hx
      rw [rankAt_eq_none_iff.mpr hax, Option.none_or, ih hrest hch]

/-- The children of every part lie inside its body (its range, when it has none) and do
not meet, and its body lies inside its range. -/
inductive Nested : Cand → Prop
  | mk {c : Cand} : (∀ b ∈ c.body, b.Within c.range) →
      c.children.Pairwise (fun a b => a.range.Disjoint b.range) →
      (∀ ch ∈ c.children, ch.range.Within (c.body.getD c.range)) →
      (∀ ch ∈ c.children, Nested ch) → Nested c

section

variable {c : Cand} (h : Nested c)
include h

theorem Nested.bodyIn : ∀ b ∈ c.body, b.Within c.range := by
  obtain ⟨hbody, -, -, -⟩ := h
  exact hbody

theorem Nested.disjoint : c.children.Pairwise fun a b => a.range.Disjoint b.range := by
  obtain ⟨-, hdisj, -, -⟩ := h
  exact hdisj

theorem Nested.childIn : ∀ ch ∈ c.children, ch.range.Within (c.body.getD c.range) := by
  obtain ⟨-, -, hin, -⟩ := h
  exact hin

theorem Nested.child : ∀ ch ∈ c.children, Nested ch := by
  obtain ⟨-, -, -, hch⟩ := h
  exact hch

theorem Nested.innerBody : c.innerBody = c.body := by
  rw [Cand.innerBody]
  cases hbody : c.body with
  | none => rfl
  | some b => simpa [Option.filter, Span.Within] using h.bodyIn b hbody

theorem Nested.childInRange : ∀ ch ∈ c.children, ch.range.Within c.range := by
  intro ch hch
  have hin := h.childIn ch hch
  cases hbody : c.body with
  | none => simpa [hbody] using hin
  | some b =>
    rw [hbody, Option.getD_some] at hin
    exact hin.trans (h.bodyIn b hbody)

/-- The part of the subtree that covers a byte decides its rank. -/
theorem Nested.rankAt_child {ch : Cand} (hch : ch ∈ c.children) {x : ℕ}
    (hx : x ∈ ch.range) : c.rankAt x = ch.rankAt x := by
  have hxc : x ∈ c.range := (h.childInRange ch hch).mem hx
  rw [rankAt_eq c, if_pos hxc, rankAtAll_of_mem h.disjoint hch hx, rankAt_eq ch, if_pos hx,
    Option.getD_some]

end

theorem rankAt_own {c : Cand} {x : ℕ} (hx : x ∈ c.range)
    (hno : ∀ ch ∈ c.children, x ∉ ch.range) : c.rankAt x = some (ownRank c x) := by
  rw [rankAt_eq, if_pos hx, rankAtAll_eq_none hno, Option.getD_none]

/-! ### Cutting keeps the fates -/

@[simp] theorem Cand.note_range (c : Cand) (text : String) : (c.note text).range = c.range :=
  rfl

theorem rankAt_note (c : Cand) (text : String) (x : ℕ) : (c.note text).rankAt x = c.rankAt x := by
  rw [rankAt_eq, rankAt_eq]
  rfl

theorem Nested.note {c : Cand} (h : Nested c) (text : String) : Nested (c.note text) :=
  ⟨h.bodyIn, h.disjoint, h.childIn, h.child⟩

/-- A cut child is the cut of one of the children, and covers what both cover. -/
theorem clip_eq_some {c p : Cand} {r : Span ℕ} {mark : Bool} (h : clip c r mark = some p) :
    (c.range.inter r).Nonempty ∧ (p = c.cut r ∨ ∃ text, p = (c.cut r).note text) := by
  rw [clip_eq] at h
  split at h
  · next hne =>
    refine ⟨hne, ?_⟩
    split at h
    · exact Or.inr ⟨_, (Option.some.inj h).symm⟩
    · exact Or.inl (Option.some.inj h).symm
  · cases h

theorem clip_range {c p : Cand} {r : Span ℕ} {mark : Bool} (h : clip c r mark = some p) :
    p.range = c.range.inter r := by
  obtain ⟨-, rfl | ⟨text, rfl⟩⟩ := clip_eq_some h <;> rfl

theorem exists_clip (mark : Bool) {c : Cand} {r : Span ℕ} {x : ℕ} (hc : x ∈ c.range)
    (hr : x ∈ r) : ∃ p, clip c r mark = some p ∧ x ∈ p.range := by
  have hx : x ∈ c.range.inter r := Span.mem_inter.mpr ⟨hc, hr⟩
  have hne : (c.range.inter r).Nonempty := hx.1.trans_lt hx.2
  have hclip := clip_eq c r mark
  rw [if_pos hne] at hclip
  exact ⟨_, hclip, (clip_range hclip).symm ▸ hx⟩

theorem mem_cut_children {c q : Cand} {r : Span ℕ} :
    q ∈ (c.cut r).children ↔ ∃ ch ∈ c.children, clip ch (c.range.inter r) true = some q :=
  List.mem_filterMap

theorem cut_body_eq_some {c : Cand} {r b : Span ℕ} (hbody : c.body = some b)
    (hne : (b.inter (c.range.inter r)).Nonempty) :
    (c.cut r).body = some (b.inter (c.range.inter r)) := by
  have hlt : (b.inter (c.range.inter r)).start < (b.inter (c.range.inter r)).stop := hne
  simp [Cand.cut, hbody, Option.filter, hlt]

theorem cut_body_of_none {c : Cand} {r : Span ℕ} (hbody : c.body = none) :
    (c.cut r).body = none := by
  simp [Cand.cut, hbody]

/-- A byte of the cut candidate lies in its body when it lay in the old one. -/
theorem mem_cut_body {c : Cand} {r : Span ℕ} {x : ℕ} (hx : x ∈ c.range.inter r) :
    (∃ b ∈ (c.cut r).body, x ∈ b) ↔ ∃ b ∈ c.body, x ∈ b := by
  cases hbody : c.body with
  | none => simp [cut_body_of_none hbody]
  | some b =>
    constructor
    · rintro ⟨b', hb', hxb⟩
      simp only [Cand.cut, hbody, Option.map_some, Option.mem_def, Option.filter_eq_some_iff,
        Option.some.injEq] at hb'
      obtain ⟨rfl, -⟩ := hb'
      exact ⟨b, rfl, (Span.mem_inter.mp hxb).1⟩
    · rintro ⟨b', hb', hxb⟩
      obtain rfl := Option.some.inj hb'
      have hmem : x ∈ b.inter (c.range.inter r) := Span.mem_inter.mpr ⟨hxb, hx⟩
      exact ⟨_, cut_body_eq_some hbody (hmem.1.trans_lt hmem.2), hmem⟩

/-- The cut of a nested candidate is nested. -/
theorem Nested.cut {c : Cand} (h : Nested c) (r : Span ℕ) : Nested (c.cut r) := by
  induction c using Cand.induct generalizing r with
  | h c ih =>
    refine ⟨fun b hb => ?_, ?_, fun q hq => ?_, fun q hq => ?_⟩
    · simp only [Cand.cut, Option.mem_def, Option.filter_eq_some_iff,
        Option.map_eq_some_iff] at hb
      obtain ⟨⟨b', -, rfl⟩, -⟩ := hb
      exact Span.inter_within _ _
    · refine List.Pairwise.filterMap _ ?_ h.disjoint
      intro a b hab a' ha b' hb x hxa hxb
      rw [clip_range ha] at hxa
      rw [clip_range hb] at hxb
      exact hab x (Span.mem_inter.mp hxa).1 (Span.mem_inter.mp hxb).1
    · obtain ⟨ch, hch, hclip⟩ := mem_cut_children.mp hq
      have hin := h.childIn ch hch
      rw [clip_range hclip]
      cases hbody : c.body with
      | none =>
        rw [cut_body_of_none hbody]
        exact Span.inter_within _ _
      | some b =>
        rw [hbody, Option.getD_some] at hin
        have hle := hin.inter (c.range.inter r)
        -- The cut child is not empty, so neither is what is left of the body around it.
        have hne : (ch.range.inter (c.range.inter r)).Nonempty := (clip_eq_some hclip).1
        have hne' : (b.inter (c.range.inter r)).Nonempty :=
          (hle.1.trans_lt hne).trans_le hle.2
        rw [cut_body_eq_some hbody hne']
        exact hle
    · obtain ⟨ch, hch, hclip⟩ := mem_cut_children.mp hq
      have hcut : Nested (ch.cut (c.range.inter r)) := ih ch hch (h.child ch hch) _
      obtain ⟨-, rfl | ⟨text, rfl⟩⟩ := clip_eq_some hclip
      · exact hcut
      · exact hcut.note text

theorem Nested.clip {c p : Cand} {r : Span ℕ} {mark : Bool} (h : Nested c)
    (hclip : Tiff.clip c r mark = some p) : Nested p := by
  obtain ⟨-, rfl | ⟨text, rfl⟩⟩ := clip_eq_some hclip
  · exact h.cut r
  · exact (h.cut r).note text

theorem ownRank_cut {c : Cand} (h : Nested c) {r : Span ℕ} {x : ℕ}
    (hx : x ∈ c.range.inter r) : ownRank (c.cut r) x = ownRank c x := by
  have hmem := mem_cut_body hx
  have hgap : gapRank (c.cut r) = gapRank c := rfl
  have hdisp : (c.cut r).disp = c.disp := rfl
  have hbody : c.innerBody = c.body := h.innerBody
  have hbody' : (c.cut r).innerBody = (c.cut r).body := (h.cut r).innerBody
  cases hb : c.body with
  | none =>
    rw [ownRank_none (hbody.trans hb), ownRank_none (hbody'.trans (cut_body_of_none hb)), hdisp]
  | some b =>
    rw [ownRank_some (hbody.trans hb)]
    cases hb' : (c.cut r).body with
    | none =>
      rw [ownRank_none (hbody'.trans hb'), hdisp]
      have hxb : x ∉ b := fun hxb => by
        obtain ⟨b', h1, -⟩ := hmem.mpr ⟨b, hb, hxb⟩
        rw [hb'] at h1
        cases h1
      rw [if_neg hxb]
    | some b' =>
      rw [ownRank_some (hbody'.trans hb'), hgap, hdisp]
      have hiff : x ∈ b' ↔ x ∈ b := by simpa [hb, hb'] using hmem
      simp [hiff]

/-- **Cutting keeps the fates** of the bytes that are left. -/
theorem rankAt_clip {c : Cand} (h : Nested c) {p : Cand} {r : Span ℕ} {mark : Bool}
    (hclip : clip c r mark = some p) {x : ℕ} (hx : x ∈ p.range) :
    p.rankAt x = c.rankAt x := by
  induction c using Cand.induct generalizing p r mark with
  | h c ih =>
    have hxr : x ∈ c.range.inter r := clip_range hclip ▸ hx
    have hp : p.rankAt x = (c.cut r).rankAt x := by
      obtain ⟨-, rfl | ⟨text, rfl⟩⟩ := clip_eq_some hclip
      · rfl
      · exact rankAt_note _ _ _
    rw [hp]
    by_cases hch : ∃ ch ∈ c.children, x ∈ ch.range
    · obtain ⟨ch, hch, hxch⟩ := hch
      obtain ⟨q, hq, hxq⟩ := exists_clip true hxch hxr
      rw [(h.cut r).rankAt_child (mem_cut_children.mpr ⟨ch, hch, hq⟩) hxq,
        h.rankAt_child hch hxch]
      exact ih ch hch (h.child ch hch) hq hxq
    · have hno : ∀ ch ∈ c.children, x ∉ ch.range := fun ch hmem hxch =>
        hch ⟨ch, hmem, hxch⟩
      have hno' : ∀ q ∈ (c.cut r).children, x ∉ q.range := by
        intro q hq hxq
        obtain ⟨ch, hmem, hq'⟩ := mem_cut_children.mp hq
        rw [clip_range hq'] at hxq
        exact hno ch hmem (Span.mem_inter.mp hxq).1
      rw [rankAt_own hxr hno', rankAt_own (Span.mem_inter.mp hxr).1 hno,
        ownRank_cut h hxr]

end Tiff

end Zencodec
