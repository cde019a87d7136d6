/-
Every plan builder that the operations reach.

`Planned` collects the builders that any calls lead to, with any answers of the pulse and the
allocator on the way; a contained plan is itself one. Calls may fail, and the caller may go on
with the same builder.
-/
import Zencodec.Rewrite.Invariants

namespace Zencodec.Rewrite

variable {Ω : Type}

/-- The contained plan that an operation takes in. -/
def Op.contained : Op → Option PlanBuilder
  | .append other _ => some other
  | _ => none

/-- The builders that a caller has who makes the `calls`, under each context. -/
inductive Planned (host : Host Ω) (calls : Context Ω → Op → Prop) : Context Ω → PlanBuilder → Prop
  where
  | new {req} : Planned host calls req .new
  | call {req child op b w r t} (hb : Planned host calls req b) (hcall : calls req op)
    (hchild : ∀ other, op.contained = some other → Planned host calls child other)
    (hrun : op.run host req (b, w) = (r, t)) : Planned host calls req t.1

/-- A call that fails changes nothing. -/
theorem Op.run_error {host : Host Ω} {req : Context Ω} {op : Op} {b : PlanBuilder} {w : Ω}
    {e : Error} {t : PlanBuilder × Ω} (h : op.run host req (b, w) = (.error e, t)) : t.1 = b := by
  have hspec := (spec_run host req op b w).run
  rw [h] at hspec
  exact hspec.2 e rfl

/-- A call that succeeds is a move, one that fails changes nothing. -/
theorem Op.moves_or_eq {host : Host Ω} {req : Context Ω} {op : Op} {b : PlanBuilder} {w : Ω}
    {r : Except Error Unit} {t : PlanBuilder × Ω} (h : op.run host req (b, w) = (r, t)) :
    Moves host.usizeMax req b op t.1 ∨ t.1 = b := by
  cases r with
  | error e => exact .inr (Op.run_error h)
  | ok _ =>
    have hspec := (spec_run host req op b w).run
    rw [h] at hspec
    exact .inl (hspec.1 _ rfl)

variable {host : Host Ω} {calls : Context Ω → Op → Prop} {req : Context Ω} {b : PlanBuilder}

theorem Planned.sound (h : Planned host calls req b) : Sound host.usizeMax b := by
  induction h with
  | new => exact ⟨rfl, Nat.zero_le _, rfl, fun _ he => nomatch he⟩
  | call _ _ _ hrun ihb ihchild =>
    rcases Op.moves_or_eq hrun with hmoves | hsame
    · refine hmoves.sound ihb fun other offset hop => ihchild other ?_
      rw [hop]
      rfl
    · rwa [hsame]

theorem Planned.bounded (h : Planned host calls req b) : Bounded req b := by
  induction h with
  | new => exact ⟨Nat.zero_le _, Nat.zero_le _, Nat.zero_le _, fun _ hi => nomatch hi⟩
  | call _ _ _ hrun ihb _ =>
    rcases Op.moves_or_eq hrun with hmoves | hsame
    · exact hmoves.bounded ihb
    · rwa [hsame]

theorem Planned.copied (h : Planned host calls req b)
    (hcalls : ∀ req op, calls req op → ∀ s, op.given = some s → s.Within req.input) :
    Copied b := by
  induction h with
  | new => exact fun _ hs => nomatch hs
  | call _ hcall _ hrun ihb ihchild =>
    rcases Op.moves_or_eq hrun with hmoves | hsame
    · refine hmoves.copied ihb (hcalls _ _ hcall) fun other offset hop => ihchild other ?_
      rw [hop]
      rfl
    · rwa [hsame]

/-- Summing the parts does not overflow when the sum is addressable. -/
theorem foldlM_checkedAdd (host : Host Ω) (parts : List Cow) (n : ℕ)
    (h : n + (parts.map Cow.len).sum ≤ host.usizeMax) :
    parts.foldlM (fun size part => checkedAdd host size part.len) n =
      some (n + (parts.map Cow.len).sum) := by
  induction parts generalizing n with
  | nil => rfl
  | cons part parts ih =>
    rw [List.map_cons, List.sum_cons] at h ⊢
    have hadd : checkedAdd host n part.len = some (n + part.len) := if_pos (by omega)
    rw [List.foldlM_cons, hadd, Option.bind_eq_bind, Option.bind_some, ih _ (by omega),
      Nat.add_assoc]

/-- A sound builder finishes, with the size it has counted. -/
theorem Sound.finish (h : Sound host.usizeMax b) :
    b.finish host = .ok ⟨b.parts, b.entries, b.size⟩ := by
  have hranges : ¬ b.entries.any (fun e => decide (e.range.stop < e.range.start)
      || decide (b.input.elim 0 Slice.len < e.range.stop)) := by
    simp only [List.any_eq_true, Bool.or_eq_true, decide_eq_true_eq]
    rintro ⟨e, he, hlt⟩
    have := h.ranges e he
    omega
  have hsum : b.parts.foldlM (fun size part => checkedAdd host size part.len) 0 = some b.size := by
    have haddr := h.addressable
    rw [h.size] at haddr ⊢
    rw [foldlM_checkedAdd host b.parts 0 (by omega), Nat.zero_add]
  have hplan : Plan.fromParts host (b.input.elim 0 Slice.len) b.parts b.entries =
      .ok ⟨b.parts, b.entries, b.size⟩ := by
    rw [Plan.fromParts, if_neg hranges, hsum]
  rw [PlanBuilder.finish, hplan]
  exact if_pos rfl

/-! ### The planner -/

/-- **The planner's invariants.** Whatever the calls: the planned size is the sum of the parts
and, like the generated bytes and the report, within its limit; every reported range lies in
the input, and so does every copied one if the bytes that callers lend to `record` do; a call
that fails changes nothing; and `finish` succeeds. -/
theorem planner_invariants (h : Planned host calls req b) :
    b.size = (b.parts.map Cow.len).sum ∧ b.size ≤ req.maxOutput ∧
    b.rewritten = (b.parts.map Cow.ownedLen).sum ∧ b.rewritten ≤ req.maxMetadata ∧
    b.entries.length ≤ req.maxCarriers ∧
    (∀ e ∈ b.entries, e.range.start ≤ e.range.stop ∧ e.range.stop ≤ req.input.len) ∧
    ((∀ req op, calls req op → ∀ s, op.given = some s → s.Within req.input) →
      ∀ s, Cow.borrowed s ∈ b.parts → s.Within req.input) ∧
    (∀ op w e t, Op.run host req op (b, w) = (.error e, t) → t.1 = b) ∧
    b.finish host = .ok ⟨b.parts, b.entries, b.size⟩ := by
  have hs := h.sound
  have hb := h.bounded
  refine ⟨hs.size, hb.size, hs.rewritten, hb.rewritten, hb.entries, fun e he => ?_,
    fun hcalls s hmem => ?_, fun _ _ _ _ => Op.run_error, hs.finish⟩
  · obtain ⟨hstart, hstop⟩ := hs.ranges e he
    refine ⟨hstart, hstop.trans ?_⟩
    cases hi : b.input with
    | none => exact Nat.zero_le _
    | some input => rw [hb.input input hi, Option.elim_some]
  · obtain ⟨input, hi, hwithin⟩ := h.copied hcalls s hmem
    rwa [hb.input input hi] at hwithin

/-- Planning over four bytes at address 16, with room for eight bytes and two carriers. -/
def fourBytes : Context Unit :=
  { input := ⟨16, 4⟩, maxInput := 4, maxOutput := 8, maxMetadata := 8, maxCarriers := 2,
    pulse := none }

/-- A host that always has memory. -/
def roomyHost : Host Unit := ⟨255, fun w => (true, w)⟩

theorem planned_keep :
    Planned roomyHost (fun _ _ => True) fourBytes
      ⟨[.borrowed ⟨16, 2⟩], [⟨⟨0, 2⟩, "head", .keep⟩], 2, 0, some ⟨16, 4⟩⟩ :=
  @Planned.call _ _ _ _ fourBytes (.keep ⟨0, 2⟩ "head") _ () _ (_, ()) .new trivial
    (fun _ h => nomatch h) rfl

theorem planner_invariants_keep :
    let b : PlanBuilder := ⟨[.borrowed ⟨16, 2⟩], [⟨⟨0, 2⟩, "head", .keep⟩], 2, 0, some ⟨16, 4⟩⟩
    b.size ≤ 8 ∧ b.finish roomyHost = .ok ⟨b.parts, b.entries, b.size⟩ := by
  obtain ⟨_, hsize, _, _, _, _, _, _, hfinish⟩ := planner_invariants planned_keep
  exact ⟨hsize, hfinish⟩

/-- `record` takes borrowed bytes on trust: these lie behind the input. -/
theorem planner_copies_foreign_bytes :
    ¬ ∀ (host : Host Unit) (req : Context Unit) (b : PlanBuilder),
      Planned host (fun _ _ => True) req b →
        ∀ s, Cow.borrowed s ∈ b.parts → s.Within req.input := by
  intro hclaim
  have hplanned : Planned roomyHost (fun _ _ => True) fourBytes
      ⟨[.borrowed ⟨64, 2⟩], [⟨⟨0, 0⟩, "extra", .rewrite⟩], 2, 0, some ⟨16, 4⟩⟩ :=
    @Planned.call _ _ _ _ fourBytes
      (.record ⟨0, 0⟩ "extra" .rewrite (some (.borrowed ⟨64, 2⟩))) _ () _ (_, ()) .new trivial
      (fun _ h => nomatch h) rfl
  have hwithin := hclaim _ _ _ hplanned ⟨64, 2⟩ (List.mem_singleton.mpr rfl)
  revert hwithin
  decide

end Zencodec.Rewrite
