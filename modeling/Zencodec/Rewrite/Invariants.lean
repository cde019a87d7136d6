/-
What every plan builder keeps to.

`Moves` says once what each operation does when it succeeds: its guards and the builder it
leaves. `spec_run` shows that the code does this, or fails and leaves the builder as it was.
The invariants follow from `Moves` alone:

* `Sound` — sizes are the sums they stand for, reported ranges lie inside the input;
* `Copied` — borrowed chunks lie inside the input;
* `Bounded` — the limits of the context.
-/
import Mathlib.Algebra.BigOperators.Group.List.Basic
import Zencodec.Lib.Runs
import Zencodec.Rewrite.Plan

open Zencodec.Incremental

namespace Zencodec.Rewrite

variable {Ω : Type}

/-! ### What an operation does -/

/-- `record` has accepted a carrier. -/
structure Recorded (usizeMax : ℕ) (req : Context Ω) (b : PlanBuilder) (e : Entry)
    (bytes : Option Cow) (b' : PlanBuilder) : Prop where
  start_le : e.range.start ≤ e.range.stop
  stop_le : e.range.stop ≤ req.input.len
  same : b.sameInput req.input = true
  carriers : b.entries.length < req.maxCarriers
  addressable : b.size + bytes.elim 0 Cow.len ≤ usizeMax
  output : b.size + bytes.elim 0 Cow.len ≤ req.maxOutput
  metadata : b.rewritten + bytes.elim 0 Cow.ownedLen ≤ req.maxMetadata
  eq : b' = ⟨b.parts ++ bytes.toList, b.entries ++ [e], b.size + bytes.elim 0 Cow.len,
    b.rewritten + bytes.elim 0 Cow.ownedLen, some req.input⟩

/-- `append` has accepted a contained plan. -/
structure Appended (usizeMax : ℕ) (req : Context Ω) (b other : PlanBuilder) (offset : ℕ)
    (b' : PlanBuilder) : Prop where
  same : b.sameInput req.input = true
  inside : offset + other.input.elim 0 Slice.len ≤ req.input.len
  identity : ∀ child, other.input = some child → child.addr = req.input.addr + offset
  carriers : b.entries.length + other.entries.length ≤ req.maxCarriers
  addressable : b.size + other.size ≤ usizeMax
  output : b.size + other.size ≤ req.maxOutput
  metadata : b.rewritten + other.rewritten ≤ req.maxMetadata
  eq : b' = ⟨b.parts ++ other.parts,
    b.entries ++ other.entries.map (PlanBuilder.translate offset), b.size + other.size,
    b.rewritten + other.rewritten, some req.input⟩

/-- What each operation leaves when it succeeds on `b`. -/
inductive Moves (usizeMax : ℕ) (req : Context Ω) (b : PlanBuilder) : Op → PlanBuilder → Prop where
  | record {range carrier action bytes b'}
    (h : Recorded usizeMax req b ⟨range, carrier, action⟩ bytes b') :
    Moves usizeMax req b (.record range carrier action bytes) b'
  | keep {range name source b'} (hsource : req.input.get range = some source)
    (h : Recorded usizeMax req b ⟨range, name, .keep⟩ (some (.borrowed source)) b') :
    Moves usizeMax req b (.keep range name) b'
  | remove {range name b'} (h : Recorded usizeMax req b ⟨range, name, .remove⟩ none b') :
    Moves usizeMax req b (.remove range name) b'
  | injectAfterFirst {bytes name first rest b'} (hparts : b.parts = first :: rest)
    (h : Recorded usizeMax req b ⟨⟨0, 0⟩, name, .rewrite⟩ (some (.owned bytes)) b') :
    Moves usizeMax req b (.injectAfterFirst bytes name)
      { b' with parts := first :: .owned bytes :: rest }
  | removeKeptRange {range before part after}
    (hparts : b.parts = before ++ .borrowed part :: after) (same : b.sameInput req.input = true) :
    Moves usizeMax req b (.removeKeptRange range)
      { b with
        parts := before ++ after
        size := b.size - part.len
        entries := b.entries.map fun e =>
          if e.range = range then { e with action := .remove } else e }
  | append {other offset b'} (h : Appended usizeMax req b other offset b') :
    Moves usizeMax req b (.append other offset) b'

theorem spec_check {req : Context Ω} {w : Ω} {Q : Unit → Ω → Prop} {E : Error → Ω → Prop}
    (hQ : ∀ w, Q () w) (hE : ∀ e w, E e w) : Act.Spec req.check Q E w := by
  simp only [Context.check, Act.spec_bind, Act.spec_mapError, Act.spec_require]
  exact Act.spec_of_run (fun _ _ => ⟨fun _ => hQ _, fun _ => hE _ _⟩) (fun _ _ => hE _ _)

theorem checkedAdd_eq {host : Host Ω} {a b n : ℕ} (h : checkedAdd host a b = some n) :
    n = a + b ∧ a + b ≤ host.usizeMax := by
  unfold checkedAdd at h
  split at h
  · next hle => exact ⟨(Option.some.inj h).symm, hle⟩
  · cases h

theorem addWithin_eq {host : Host Ω} {a b limit n : ℕ} (h : addWithin host a b limit = some n) :
    n = a + b ∧ a + b ≤ host.usizeMax ∧ a + b ≤ limit := by
  obtain ⟨hadd, hle⟩ := Option.filter_eq_some_iff.mp h
  obtain ⟨rfl, hmax⟩ := checkedAdd_eq hadd
  exact ⟨rfl, hmax, of_decide_eq_true hle⟩

/-- `record` does what it says or leaves the builder as it was. -/
theorem spec_record (host : Host Ω) (req : Context Ω) (range : SourceRange) (carrier : String)
    (action : Disposition) (bytes : Option Cow) (b : PlanBuilder) (w : Ω) :
    Act.Spec (PlanBuilder.record host req range carrier action bytes)
      (fun _ t => Recorded host.usizeMax req b ⟨range, carrier, action⟩ bytes t.1)
      (fun _ t => t.1 = b) (b, w) := by
  simp only [PlanBuilder.record, Act.spec_bind, Act.spec_get, Act.spec_require, Act.spec_getOr,
    Act.spec_ite, Act.spec_modify, spec_onWorld]
  refine spec_check (fun w => ?_) (fun _ w => trivial)
  refine ⟨fun hrange => ⟨fun hsame => ⟨fun hcarriers => ⟨fun size hsize => ⟨fun rewritten hrew =>
    ⟨fun hmeta => ?_, ?_⟩, ?_⟩, ?_⟩, ?_⟩, ?_⟩, ?_⟩
  case refine_2 | refine_3 | refine_4 | refine_5 | refine_6 | refine_7 => exact fun _ => trivial
  obtain ⟨rfl, hmax, hout⟩ := addWithin_eq hsize
  obtain ⟨rfl, _⟩ := checkedAdd_eq hrew
  obtain ⟨hstart, hstop⟩ := of_decide_eq_true hrange
  have hdone : Recorded host.usizeMax req b ⟨range, carrier, action⟩ bytes
      ⟨b.parts ++ bytes.toList, b.entries ++ [⟨range, carrier, action⟩],
        b.size + bytes.elim 0 Cow.len, b.rewritten + bytes.elim 0 Cow.ownedLen,
        some req.input⟩ :=
    ⟨hstart, hstop, hsame, of_decide_eq_true hcarriers, hmax, hout, of_decide_eq_true hmeta, rfl⟩
  -- a carrier without an output chunk reserves only its report
  refine Host.spec_reserve ⟨fun _ => ?_, fun _ => hdone⟩ trivial
  exact Host.spec_reserve hdone trivial

/-- Each operation does what `Moves` says or leaves the builder as it was. -/
theorem spec_run (host : Host Ω) (req : Context Ω) (op : Op) (b : PlanBuilder) (w : Ω) :
    Act.Spec (op.run host req) (fun _ t => Moves host.usizeMax req b op t.1)
      (fun _ t => t.1 = b) (b, w) := by
  cases op with
  | record range carrier action bytes =>
    exact (spec_record host req range carrier action bytes b w).mono (fun _ _ h => .record h)
      (fun _ _ h => h)
  | keep range name =>
    simp only [Op.run, PlanBuilder.keep, Act.spec_bind, Act.spec_getOr]
    refine ⟨fun source hsource => ?_, fun _ => trivial⟩
    exact (spec_record host req range name .keep _ b w).mono (fun _ _ h => .keep hsource h)
      (fun _ _ h => h)
  | remove range name =>
    exact (spec_record host req range name .remove none b w).mono (fun _ _ h => .remove h)
      (fun _ _ h => h)
  | injectAfterFirst bytes name =>
    simp only [Op.run, PlanBuilder.injectAfterFirst, Act.spec_bind, Act.spec_get,
      Act.spec_require, Act.spec_getOr, Act.spec_modify]
    refine ⟨fun hne => ?_, fun _ => trivial⟩
    obtain ⟨first, rest, hparts⟩ : ∃ first rest, b.parts = first :: rest := by
      cases hp : b.parts with
      | nil => simp [hp] at hne
      | cons first rest => exact ⟨first, rest, rfl⟩
    refine (spec_record host req ⟨0, 0⟩ name .rewrite _ b w).mono (fun _ t h => ?_)
      (fun _ _ h => h)
    -- the generated chunk is the last one, so it is found, and moves behind the first
    have hlast : t.1.parts = (first :: rest) ++ [.owned bytes] := by
      rw [h.eq, hparts]
      rfl
    refine ⟨fun part hpart => ?_, fun hnone => ?_⟩
    · rw [hlast, List.getLast?_concat] at hpart
      obtain rfl := Option.some.inj hpart
      rw [hlast, List.dropLast_concat]
      exact .injectAfterFirst hparts h
    · rw [hlast, List.getLast?_concat] at hnone
      cases hnone
  | removeKeptRange range =>
    simp only [Op.run, PlanBuilder.removeKeptRange, Act.spec_bind, Act.spec_get,
      Act.spec_require, Act.spec_getOr, Act.spec_modify, spec_onWorld]
    refine spec_check (fun w => ?_) (fun _ w => trivial)
    refine ⟨fun hsame => ⟨fun source _ => ⟨fun part hpart => ?_, fun _ => trivial⟩,
      fun _ => trivial⟩, fun _ => trivial⟩
    obtain ⟨hp, before, after, hparts, hbefore⟩ := List.find?_eq_some_iff_append.mp hpart
    obtain ⟨s, rfl⟩ : ∃ s, part = .borrowed s := by
      cases part with
      | borrowed s => exact ⟨s, rfl⟩
      | owned bytes => cases hp
    have herase : b.parts.eraseP (PlanBuilder.isSource source) = before ++ after := by
      rw [hparts, List.eraseP_append_right, List.eraseP_cons_of_pos hp]
      intro c hc hsource
      have := hbefore c hc
      rw [hsource] at this
      cases this
    rw [herase]
    exact .removeKeptRange hparts hsame
  | append other offset =>
    simp only [Op.run, PlanBuilder.append, Act.spec_bind, Act.spec_get, Act.spec_require,
      Act.spec_getOr, Act.spec_modify, spec_onWorld]
    refine spec_check (fun w => ?_) (fun _ w => trivial)
    refine ⟨fun hsame => ⟨fun hinside => ⟨fun hident => ⟨fun size hsize => ⟨fun rewritten hrew =>
      ⟨fun hmeta => ⟨fun hcarriers => ⟨fun _ => ?_, ?_⟩, ?_⟩, ?_⟩, ?_⟩, ?_⟩, ?_⟩, ?_⟩, ?_⟩
    case refine_2 | refine_3 | refine_4 | refine_5 | refine_6 | refine_7 | refine_8 | refine_9 =>
      exact fun _ => trivial
    refine Host.spec_reserve (Host.spec_reserve (.append ?_) trivial) trivial
    obtain ⟨rfl, hmax, hout⟩ := addWithin_eq hsize
    obtain ⟨rfl, _⟩ := checkedAdd_eq hrew
    obtain ⟨n, hn⟩ := Option.isSome_iff_exists.mp hinside
    obtain ⟨m, hm⟩ := Option.isSome_iff_exists.mp hcarriers
    refine ⟨hsame, (addWithin_eq hn).2.2, fun child hchild => ?_, (addWithin_eq hm).2.2, hmax, hout,
      of_decide_eq_true hmeta, rfl⟩
    rw [hchild] at hident
    exact congrArg Slice.addr (eq_of_beq hident)

/-! ### Invariants -/

/-- Sizes are the sums they stand for, and reported ranges lie inside the input. -/
structure Sound (usizeMax : ℕ) (b : PlanBuilder) : Prop where
  size : b.size = (b.parts.map Cow.len).sum
  addressable : b.size ≤ usizeMax
  rewritten : b.rewritten = (b.parts.map Cow.ownedLen).sum
  ranges : ∀ e ∈ b.entries, e.range.start ≤ e.range.stop ∧ e.range.stop ≤ b.input.elim 0 Slice.len

/-- The limits of the context hold, and its input is the only one. -/
structure Bounded (req : Context Ω) (b : PlanBuilder) : Prop where
  size : b.size ≤ req.maxOutput
  rewritten : b.rewritten ≤ req.maxMetadata
  entries : b.entries.length ≤ req.maxCarriers
  input : ∀ input, b.input = some input → input = req.input

/-- Borrowed chunks are copied from the input. -/
def Copied (b : PlanBuilder) : Prop :=
  ∀ s, Cow.borrowed s ∈ b.parts → ∃ input, b.input = some input ∧ s.Within input

/-- The borrowed bytes that a caller hands to `record`. -/
def Op.given : Op → Option Slice
  | .record _ _ _ (some (.borrowed s)) => some s
  | _ => none

theorem Slice.within_of_get {s part : Slice} {range : SourceRange} (h : s.get range = some part) :
    part.Within s := by
  unfold Slice.get at h
  split at h
  · next hle =>
    obtain rfl := Option.some.inj h
    constructor <;> simp only <;> omega
  · cases h

theorem Slice.Within.trans {a b c : Slice} (hab : a.Within b) (hbc : b.Within c) : a.Within c := by
  unfold Slice.Within at *
  omega

theorem PlanBuilder.eq_of_sameInput {b : PlanBuilder} {input i : Slice}
    (h : b.sameInput input = true) (hi : b.input = some i) : i = input := by
  rw [PlanBuilder.sameInput, hi] at h
  exact eq_of_beq h

theorem PlanBuilder.len_le_of_sameInput {b : PlanBuilder} {input : Slice}
    (h : b.sameInput input = true) : b.input.elim 0 Slice.len ≤ input.len := by
  cases hi : b.input with
  | none => exact Nat.zero_le _
  | some i => rw [PlanBuilder.eq_of_sameInput h hi, Option.elim_some]

section Preservation

variable {usizeMax : ℕ} {req : Context Ω} {b b' other : PlanBuilder} {e : Entry}
  {bytes : Option Cow} {offset : ℕ}

theorem Recorded.sound (h : Recorded usizeMax req b e bytes b') (hb : Sound usizeMax b) :
    Sound usizeMax b' := by
  rw [h.eq]
  refine ⟨?_, h.addressable, ?_, ?_⟩
  · cases bytes <;> simp [hb.size]
  · cases bytes <;> simp [hb.rewritten]
  · intro e' he'
    rcases List.mem_append.mp he' with hold | hnew
    · obtain ⟨hstart, hstop⟩ := hb.ranges e' hold
      exact ⟨hstart, hstop.trans (PlanBuilder.len_le_of_sameInput h.same)⟩
    · obtain rfl := List.mem_singleton.mp hnew
      exact ⟨h.start_le, h.stop_le⟩

theorem Recorded.bounded (h : Recorded usizeMax req b e bytes b') : Bounded req b' := by
  rw [h.eq]
  refine ⟨h.output, h.metadata, ?_, fun input hinput => (Option.some.inj hinput).symm⟩
  rw [List.length_append]
  exact h.carriers

theorem Recorded.copied (h : Recorded usizeMax req b e bytes b') (hb : Copied b)
    (hbytes : ∀ s, bytes = some (.borrowed s) → s.Within req.input) : Copied b' := by
  rw [h.eq]
  intro s hs
  refine ⟨req.input, rfl, ?_⟩
  rcases List.mem_append.mp hs with hold | hnew
  · obtain ⟨input, hinput, hwithin⟩ := hb s hold
    rwa [PlanBuilder.eq_of_sameInput h.same hinput] at hwithin
  · exact hbytes s (Option.mem_toList.mp hnew)

theorem Appended.sound (h : Appended usizeMax req b other offset b') (hb : Sound usizeMax b)
    (hother : Sound usizeMax other) : Sound usizeMax b' := by
  rw [h.eq]
  refine ⟨?_, h.addressable, ?_, ?_⟩
  · simp [hb.size, hother.size]
  · simp [hb.rewritten, hother.rewritten]
  · intro e he
    rcases List.mem_append.mp he with hold | hnew
    · obtain ⟨hstart, hstop⟩ := hb.ranges e hold
      exact ⟨hstart, hstop.trans (PlanBuilder.len_le_of_sameInput h.same)⟩
    · -- a translated range ends inside the contained image, which ends inside the input
      obtain ⟨child, hchild, rfl⟩ := List.mem_map.mp hnew
      obtain ⟨hstart, hstop⟩ := hother.ranges child hchild
      have hinside := h.inside
      simp only [PlanBuilder.translate, Option.elim_some]
      omega

theorem Appended.bounded (h : Appended usizeMax req b other offset b') : Bounded req b' := by
  rw [h.eq]
  refine ⟨h.output, h.metadata, ?_, fun input hinput => (Option.some.inj hinput).symm⟩
  rw [List.length_append, List.length_map]
  exact h.carriers

theorem Appended.copied (h : Appended usizeMax req b other offset b') (hb : Copied b)
    (hother : Copied other) : Copied b' := by
  rw [h.eq]
  intro s hs
  refine ⟨req.input, rfl, ?_⟩
  rcases List.mem_append.mp hs with hold | hnew
  · obtain ⟨input, hinput, hwithin⟩ := hb s hold
    rwa [PlanBuilder.eq_of_sameInput h.same hinput] at hwithin
  · -- the contained image is the part of the input that starts at the offset
    obtain ⟨child, hchild, hwithin⟩ := hother s hnew
    refine hwithin.trans ?_
    have haddr := h.identity child hchild
    have hinside := h.inside
    rw [hchild, Option.elim_some] at hinside
    unfold Slice.Within
    omega

/-- An operation that succeeds keeps the sums and the ranges. -/
theorem Moves.sound {op : Op} (h : Moves usizeMax req b op b') (hb : Sound usizeMax b)
    (hother : ∀ other offset, op = .append other offset → Sound usizeMax other) :
    Sound usizeMax b' := by
  cases h with
  | record h => exact h.sound hb
  | keep _ h => exact h.sound hb
  | remove h => exact h.sound hb
  | @injectAfterFirst bytes name first rest b' hparts h =>
    have hb' := h.sound hb
    have heq := h.eq
    refine ⟨?_, hb'.addressable, ?_, hb'.ranges⟩
    · rw [hb'.size, heq]
      simp [hparts]
      omega
    · rw [hb'.rewritten, heq]
      simp [hparts]
      omega
  | @removeKeptRange range before part after hparts same =>
    have hsize := hb.size
    have hrew := hb.rewritten
    simp only [hparts, List.map_append, List.map_cons, List.sum_append, List.sum_cons, Cow.len,
      Cow.ownedLen] at hsize hrew
    refine ⟨?_, (Nat.sub_le _ _).trans hb.addressable, ?_, ?_⟩
    · simp only [List.map_append, List.sum_append]
      omega
    · simp only [List.map_append, List.sum_append]
      omega
    · intro e he
      obtain ⟨e, hold, rfl⟩ := List.mem_map.mp he
      split
      · exact hb.ranges e hold
      · exact hb.ranges e hold
  | append h => exact h.sound hb (hother _ _ rfl)

/-- An operation that succeeds keeps to the limits. -/
theorem Moves.bounded {op : Op} (h : Moves usizeMax req b op b') (hb : Bounded req b) :
    Bounded req b' := by
  cases h with
  | record h => exact h.bounded
  | keep _ h => exact h.bounded
  | remove h => exact h.bounded
  | injectAfterFirst _ h =>
    have hb' := h.bounded
    exact ⟨hb'.size, hb'.rewritten, hb'.entries, hb'.input⟩
  | removeKeptRange _ _ =>
    refine ⟨(Nat.sub_le _ _).trans hb.size, hb.rewritten, ?_, hb.input⟩
    rw [List.length_map]
    exact hb.entries
  | append h => exact h.bounded

/-- An operation that succeeds copies from the input if the borrowed bytes it is given do. -/
theorem Moves.copied {op : Op} (h : Moves usizeMax req b op b') (hb : Copied b)
    (hgiven : ∀ s, op.given = some s → s.Within req.input)
    (hother : ∀ other offset, op = .append other offset → Copied other) : Copied b' := by
  cases h with
  | record h =>
    refine h.copied hb fun s hs => ?_
    subst hs
    exact hgiven s rfl
  | keep hsource h =>
    refine h.copied hb fun s hs => ?_
    obtain rfl := Cow.borrowed.inj (Option.some.inj hs)
    exact Slice.within_of_get hsource
  | remove h => exact h.copied hb fun _ hs => nomatch hs
  | @injectAfterFirst bytes name first rest b' hparts h =>
    have hb' : Copied b' := h.copied hb fun _ hs => nomatch hs
    intro s hs
    refine hb' s ?_
    rw [h.eq, hparts]
    rcases List.mem_cons.mp hs with rfl | hrest
    · exact List.mem_append_left _ (List.mem_cons_self ..)
    · rcases List.mem_cons.mp hrest with hnew | hrest
      · cases hnew
      · exact List.mem_append_left _ (List.mem_cons_of_mem _ hrest)
  | @removeKeptRange range before part after hparts same =>
    intro s hs
    refine hb s ?_
    rw [hparts]
    rcases List.mem_append.mp hs with hbefore | hafter
    · exact List.mem_append_left _ hbefore
    · exact List.mem_append_right _ (List.mem_cons_of_mem _ hafter)
  | append h => exact h.copied hb (hother _ _ rfl)

end Preservation

end Zencodec.Rewrite
