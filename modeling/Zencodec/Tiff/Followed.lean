/-
Which directories a walk marks as followed.

The rules are asked whether the decoder rejects a directory when it is recorded, and not when
another pointer reaches it again. `step_marks_iff` says when one step marks only what the
rules let pass; `followed_passed` says it of whole walks.
-/
import Zencodec.Tiff.Visits

open Slices StableSort Tiling

namespace Zencodec

namespace Tiff

/-! ### Roles -/

/-- A page chain that comes back to a page. -/
def Ifd.loops (ifd : Ifd) : Kind → Bool
  | .page _ => ifd.page.isSome
  | _ => false

/-- A path that reaches the directory as `kind` has or gets a role there: it is no page loop,
and its kind is known or there is room for it. -/
def Ifd.takes (ifd : Ifd) (kind : Kind) : Bool :=
  !ifd.loops kind &&
    (ifd.roles.any (fun r => r.1 = kind) || decide (ifd.roles.length < maxRoles))

theorem reach_roles (ifd : Ifd) (p : Pending) : (reach ifd p).1.roles =
    match ifd.roles.findIdx? fun r => r.1 = p.kind with
    | some r => if ifd.loops p.kind then ifd.roles
      else ifd.roles.modify r fun k => (k.1, k.2 || p.followed)
    | none => if !ifd.loops p.kind && decide (ifd.roles.length < maxRoles) then
        ifd.roles ++ [(p.kind, p.followed)] else ifd.roles := by
  rw [reach]
  dsimp only
  generalize hlooped : (_ && ifd.page.isSome) = looped
  have hloops : looped = ifd.loops p.kind := by
    rw [← hlooped]
    cases p.kind <;> rfl
  rw [hloops]
  cases ifd.roles.findIdx? fun r => decide (r.1 = p.kind) with
  | none => simp only [Option.isNone_none, Bool.and_true]
  | some r => rfl

/-- Reaching a directory again has it followed as before, and as the kind of a followed path
that has a role there. -/
theorem followedAs_reach_iff (ifd : Ifd) (p : Pending) (k : Kind) :
    (reach ifd p).1.followedAs k = true ↔
      ifd.followedAs k = true ∨ k = p.kind ∧ p.followed = true ∧ ifd.takes k = true := by
  rw [Ifd.followedAs, reach_roles, Ifd.followedAs]
  cases hrole : ifd.roles.findIdx? fun r => decide (r.1 = p.kind) with
  | none =>
    have hnew : ifd.roles.any (fun r => decide (r.1 = p.kind)) = false := by
      rw [List.findIdx?_eq_none_iff] at hrole
      simpa using hrole
    have htakes : ifd.takes p.kind =
        (!ifd.loops p.kind && decide (ifd.roles.length < maxRoles)) := by
      rw [Ifd.takes, hnew, Bool.false_or]
    dsimp only
    rw [← htakes]
    cases htake : ifd.takes p.kind with
    | false =>
      rw [if_neg Bool.false_ne_true]
      refine ⟨Or.inl, fun h => h.elim id fun ⟨hk, _, htakes'⟩ => ?_⟩
      rw [hk, htake] at htakes'
      cases htakes'
    | true =>
      rw [if_pos rfl, List.any_append, List.any_cons, List.any_nil, Bool.or_false,
        Bool.or_eq_true, Bool.and_eq_true, decide_eq_true_eq]
      refine or_congr_right ⟨fun ⟨hk, hf⟩ => ⟨hk.symm, hf, hk ▸ htake⟩, fun ⟨hk, hf, _⟩ =>
        ⟨hk.symm, hf⟩⟩
  | some r =>
    obtain ⟨hr, hkind, -⟩ := List.findIdx?_eq_some_iff_getElem.mp hrole
    obtain ⟨l, a, l', hl, hlen, hmod⟩ :=
      List.exists_of_modify (fun k : Kind × Bool => (k.1, k.2 || p.followed)) hr
    have hknown : ifd.roles.any (fun r => decide (r.1 = p.kind)) = true :=
      List.any_eq_true.mpr ⟨_, List.getElem_mem hr, hkind⟩
    have hkinda : a.1 = p.kind := by
      have ha : ifd.roles[r]? = some a := by simp [hl, ← hlen]
      have heq : ifd.roles[r] = a := by simpa [List.getElem?_eq_getElem hr] using ha
      simpa [heq] using hkind
    have htakes : ifd.takes p.kind = !ifd.loops p.kind := by
      rw [Ifd.takes, hknown, Bool.true_or, Bool.and_true]
    dsimp only
    cases hloops : ifd.loops p.kind with
    | true =>
      rw [if_pos rfl]
      refine ⟨Or.inl, fun h => h.elim id fun ⟨hk, _, htakes'⟩ => ?_⟩
      rw [hk, htakes, hloops] at htakes'
      cases htakes'
    | false =>
      rw [if_neg Bool.false_ne_true, hmod, hl]
      simp only [List.any_append, List.any_cons, Bool.or_eq_true, Bool.and_eq_true,
        decide_eq_true_eq, hkinda]
      constructor
      · rintro (h | ⟨hk, h | h⟩ | h)
        · exact .inl (.inl h)
        · exact .inl (.inr (.inl ⟨hk, h⟩))
        · exact .inr ⟨hk.symm, h, by rw [← hk, htakes, hloops]; rfl⟩
        · exact .inl (.inr (.inr h))
      · rintro ((h | ⟨hk, h⟩ | h) | ⟨hk, h, -⟩)
        · exact .inl h
        · exact .inr (.inl ⟨hk, .inl h⟩)
        · exact .inr (.inr h)
        · exact .inr (.inl ⟨hk.symm, .inr h⟩)

/-! ### One step -/

/-- Some directory at `pos` is followed as `k`. -/
def Walk.FollowedAt (w : Walk) (pos : ℕ) (k : Kind) : Prop :=
  ∃ ifd ∈ w.ifds, ifd.pos = pos ∧ ifd.followedAs k = true

theorem Walk.Same.followedAt_iff {w w' : Walk} (h : w.Same w') (pos : ℕ) (k : Kind) :
    w'.FollowedAt pos k ↔ w.FollowedAt pos k := by
  have hmap := h.map_eq (f := fun ifd => (ifd.pos, ifd.followedAs k)) fun _ => rfl
  have hmem : ∀ w : Walk, w.FollowedAt pos k ↔
      (pos, true) ∈ w.ifds.map fun ifd => (ifd.pos, ifd.followedAs k) := by
    intro w
    simp only [Walk.FollowedAt, List.mem_map, Prod.mk.injEq]
  rw [hmem, hmem, hmap]

/-- Changing the directory at an index changes what is followed there. -/
theorem followedAt_modifyIfd {w : Walk} {idx : ℕ} {ifd ifd' : Ifd}
    (hifd : w.ifds[idx]? = some ifd) {pos : ℕ} {k : Kind} :
    (w.modifyIfd idx fun _ => ifd').FollowedAt pos k →
      w.FollowedAt pos k ∨ ifd'.pos = pos ∧ ifd'.followedAs k = true := by
  obtain ⟨l, l', hl, hmod⟩ := Walk.modifyIfd_ifds hifd ifd'
  rintro ⟨x, hx, hpos, hk⟩
  rw [hmod] at hx
  rcases List.mem_append.mp hx with hx | hx
  · exact .inl ⟨x, hl ▸ List.mem_append_left _ hx, hpos, hk⟩
  · rcases List.mem_cons.mp hx with rfl | hx
    · exact .inr ⟨hpos, hk⟩
    · exact .inl ⟨x, hl ▸ List.mem_append_right _ (List.mem_cons_of_mem _ hx), hpos, hk⟩

/-- What the rules say of a pending directory when it is handled; of a new one they are asked
once its overlap has been remarked. -/
def rejection (rules : Rules) (st : Queue) (p : Pending) (pos : ℕ) : Option String :=
  if ∃ b ∈ st.w.byAt, b.1 = pos then rules.rejects st.w.polled pos p.kind
  else rules.rejects (st.w.checked p pos) pos p.kind

/-- Handling a pending directory marks the one at `pos` as followed as `k`. -/
def Marks (rules : Rules) (s : Queue × Pending) (pos : ℕ) (k : Kind) : Prop :=
  (step rules s.1 s.2).1.w.FollowedAt pos k ∧ ¬s.1.w.FollowedAt pos k

/-- A followed pointer leads to a recorded directory that the rules reject for its kind; the
directory is not yet followed as that kind, and the path has a role there. -/
def Revives (rules : Rules) (s : Queue × Pending) : Prop :=
  ∃ ifd ∈ s.1.w.ifds, s.2.pos = some ifd.pos ∧ s.2.followed = true ∧
    rules.cancelled s.1.w.polls = false ∧ ifd.followedAs s.2.kind = false ∧
    ifd.takes s.2.kind = true ∧ rules.rejects s.1.w.polled ifd.pos s.2.kind ≠ none

instance decidableRevives (rules : Rules) (s : Queue × Pending) : Decidable (Revives rules s) :=
  inferInstanceAs (Decidable (∃ ifd ∈ s.1.w.ifds, s.2.pos = some ifd.pos ∧ s.2.followed = true ∧
    rules.cancelled s.1.w.polls = false ∧ ifd.followedAs s.2.kind = false ∧
    ifd.takes s.2.kind = true ∧ rules.rejects s.1.w.polled ifd.pos s.2.kind ≠ none))

/-- What a step marks is the directory that it handles, for a followed pointer; the rules let
it pass, unless it was recorded before. -/
theorem step_marks {rules : Rules} {st : Queue} {p : Pending} (h : Indexed st.w) {pos : ℕ}
    {k : Kind} (hmarks : Marks rules (st, p) pos k) (hno : ¬Revives rules (st, p)) :
    p.pos = some pos ∧ p.kind = k ∧ p.followed = true ∧ rejection rules st p pos = none := by
  obtain ⟨hafter, hbefore⟩ := hmarks
  have heffect := step_effect rules st p
  generalize hout : (step rules st p).1.w = w' at heffect
  rw [show (step rules (st, p).1 (st, p).2).1.w = w' from hout] at hafter
  cases heffect with
  | nothing hsame => exact absurd ((hsame.followedAt_iff pos k).mp hafter) hbefore
  | @again pos' idx ifd hpos hgo hidx hifd hsame =>
    have hpos' : ifd.pos = pos' := h.pos_eq hidx hifd
    rcases followedAt_modifyIfd hifd ((hsame.followedAt_iff pos k).mp hafter) with
      hold | ⟨hat, hnew⟩
    · exact absurd hold hbefore
    have hwas : ¬ifd.followedAs k = true := fun hk =>
      hbefore ⟨ifd, List.mem_of_getElem? hifd, hat, hk⟩
    rcases (followedAs_reach_iff ifd p k).mp hnew with hk | ⟨rfl, hfollowed, htakes⟩
    · exact absurd hk hwas
    have hsome : p.pos = some pos := hpos.trans (congrArg some (hpos'.symm.trans hat))
    refine ⟨hsome, rfl, hfollowed, ?_⟩
    rw [rejection, if_pos ⟨_, hidx, hpos'.symm.trans hat⟩]
    by_contra hreject
    refine hno ⟨ifd, List.mem_of_getElem? hifd, hsome.trans (congrArg some hat.symm), hfollowed,
      hgo, by simpa using hwas, htakes, ?_⟩
    exact (show ifd.pos = pos from hat).symm ▸ hreject
  | @fresh pos' left ifd ifd' hpos hnew hover hparse hbare hsame =>
    obtain ⟨hipos, hroles, -⟩ := parseIfd_spec hparse
    have hipos' : ifd'.pos = pos' := (congrArg Ifd.pos hbare).trans hipos
    have hroles' : ifd'.roles = _ := (congrArg Ifd.roles hbare).trans hroles
    obtain ⟨x, hx, hat, hk⟩ := (hsame.followedAt_iff pos k).mp hafter
    rcases List.mem_append.mp hx with hx | hx
    · exact absurd ⟨x, hx, hat, hk⟩ hbefore
    obtain rfl := List.mem_singleton.mp hx
    obtain rfl : pos' = pos := hipos'.symm.trans hat
    rw [Ifd.followedAs, hroles'] at hk
    obtain ⟨hkind, hchecked⟩ : p.kind = k ∧ _ := by simpa using hk
    obtain ⟨hfollowed, hreject⟩ := checkReject_eq_true.mp hchecked
    refine ⟨hpos, hkind, hfollowed, ?_⟩
    rw [rejection, if_neg fun ⟨b, hb, hbpos⟩ => hnew b hb hbpos]
    exact hreject

/-- A recorded directory is found in the index. -/
theorem Indexed.find {w : Walk} (h : Indexed w) {ifd : Ifd} (hifd : ifd ∈ w.ifds) :
    ∃ idx, (w.byAt.find? fun b => b.1 = ifd.pos) = some (ifd.pos, idx) ∧
      w.ifds[idx]? = some ifd := by
  have hmem : ∃ b ∈ w.byAt, b.1 = ifd.pos := by
    obtain ⟨i, hi, hget⟩ := List.mem_iff_getElem.mp hifd
    refine ⟨(ifd.pos, i), ?_, rfl⟩
    rw [h.byAt, List.mem_zipIdx_iff_getElem?, List.getElem?_map,
      List.getElem?_eq_some_iff.mpr ⟨hi, hget⟩]
    rfl
  cases hfind : w.byAt.find? fun b => decide (b.1 = ifd.pos) with
  | none =>
    obtain ⟨b, hb, hpos⟩ := hmem
    exact absurd (by simpa using hpos) (List.find?_eq_none.mp hfind b hb)
  | some b =>
    have hb : b.1 = ifd.pos := by simpa using List.find?_some hfind
    have hbmem := List.mem_of_find?_eq_some hfind
    rw [h.byAt, List.mem_zipIdx_iff_getElem?, List.getElem?_map] at hbmem
    obtain ⟨ifd', hifd', hpos'⟩ := Option.map_eq_some_iff.mp hbmem
    have heq : ifd' = ifd :=
      List.inj_on_of_nodup_map h.nodup (List.mem_of_getElem? hifd') hifd (hpos'.trans hb)
    exact ⟨b.2, by rw [← hb], heq ▸ hifd'⟩

/-- A step that revives a directory marks it in spite of the rules. -/
theorem Revives.marks {rules : Rules} {st : Queue} {p : Pending} (h : Indexed st.w)
    (hrevives : Revives rules (st, p)) :
    ∃ pos, Marks rules (st, p) pos p.kind ∧ rejection rules st p pos ≠ none := by
  obtain ⟨ifd, hifd, hpos, hfollowed, hgo, hwas, htakes, hreject⟩ := hrevives
  obtain ⟨idx, hfind, hget⟩ := h.find hifd
  have hidx : (ifd.pos, idx) ∈ st.w.byAt := List.mem_of_find?_eq_some hfind
  have hstep : (step rules st p).1 =
      (revisit rules { st with w := st.w.polled } p ifd.pos idx).1 := by
    rw [step, hpos]
    dsimp only
    rw [hgo, if_neg Bool.false_ne_true, hfind]
    rfl
  refine ⟨ifd.pos, ⟨?_, ?_⟩, by rwa [rejection, if_pos ⟨_, hidx, rfl⟩]⟩
  · show (step rules st p).1.w.FollowedAt ifd.pos p.kind
    rw [hstep, (revisit_same rules st p ifd.pos hget).followedAt_iff]
    obtain ⟨l, l', -, hmod⟩ := Walk.modifyIfd_ifds hget (reach ifd p).1
    refine ⟨(reach ifd p).1, hmod ▸ List.mem_append_right _ List.mem_cons_self, rfl, ?_⟩
    exact (followedAs_reach_iff ifd p p.kind).mpr (.inr ⟨rfl, hfollowed, htakes⟩)
  · rintro ⟨other, hother, hat, hk⟩
    obtain rfl := List.inj_on_of_nodup_map h.nodup hother hifd hat
    rw [show other.followedAs p.kind = false from hwas] at hk
    cases hk

/-- A step marks only what the rules let pass if and only if it revives nothing. -/
theorem step_marks_iff {rules : Rules} {st : Queue} {p : Pending} (h : Indexed st.w) :
    (∀ pos k, Marks rules (st, p) pos k → rejection rules st p pos = none) ↔
      ¬Revives rules (st, p) := by
  refine ⟨fun hall hrevives => ?_, fun hno pos k hmarks => (step_marks h hmarks hno).2.2.2⟩
  obtain ⟨pos, hmarks, hreject⟩ := hrevives.marks h
  exact hreject (hall pos p.kind hmarks)

/-! ### The mark of a directory -/

/-- A directory marked as followed is followed as some kind. -/
def Walk.Marked (w : Walk) : Prop :=
  ∀ ifd ∈ w.ifds, ifd.followed = true → ∃ k, ifd.followedAs k = true

theorem Walk.Marked.of_same {w w' : Walk} (h : w.Marked) (hw : w.Same w') : w'.Marked := by
  intro ifd hifd hfollowed
  obtain ⟨ifd₀, hifd₀, hbare⟩ := List.mem_map.mp (hw.ifds ▸ List.mem_map_of_mem hifd)
  obtain ⟨k, hk⟩ := h ifd₀ hifd₀ ((congrArg Ifd.followed hbare).trans hfollowed)
  exact ⟨k, (congrArg (Ifd.followedAs · k) hbare).symm.trans hk⟩

/-- A directory reached again is newly marked only as the kind of the path. -/
theorem reach_followed {ifd : Ifd} {p : Pending} (h : (reach ifd p).1.followed = true) :
    ifd.followed = true ∨ (reach ifd p).1.followedAs p.kind = true := by
  rw [followedAs_reach_iff]
  by_cases hwas : ifd.followed = true
  · exact .inl hwas
  refine .inr (.inr ⟨rfl, ?_⟩)
  have hwas' : ifd.followed = false := by simpa using hwas
  rw [reach] at h
  dsimp only at h
  generalize hlooped : (_ && ifd.page.isSome) = looped at h
  have hloops : looped = ifd.loops p.kind := by
    rw [← hlooped]
    cases p.kind <;> rfl
  rw [hwas', hloops, Bool.false_or] at h
  split at h
  · next hchanged =>
    refine ⟨h, ?_⟩
    rw [Ifd.takes]
    rcases (Bool.or_eq_true _ _).mp hchanged with hnew | hup
    · simp only [Bool.and_eq_true] at hnew ⊢
      exact ⟨hnew.1.1, by simp [hnew.2]⟩
    · simp only [Bool.and_eq_true] at hup ⊢
      refine ⟨hup.1.1, ?_⟩
      cases hrole : ifd.roles.findIdx? fun r => decide (r.1 = p.kind) with
      | none => simp [hrole] at hup
      | some r =>
        obtain ⟨hr, hkind, -⟩ := List.findIdx?_eq_some_iff_getElem.mp hrole
        rw [List.any_eq_true.mpr ⟨_, List.getElem_mem hr, hkind⟩, Bool.true_or]
  · cases h

theorem Effect.marked {rules : Rules} {st : Queue} {p : Pending} {w' : Walk}
    (h : st.w.Marked) (he : Effect rules st p w') : w'.Marked := by
  cases he with
  | nothing hsame => exact h.of_same hsame
  | @again pos idx ifd hpos hgo hidx hifd hsame =>
    refine Walk.Marked.of_same ?_ hsame
    obtain ⟨l, l', hl, hmod⟩ := Walk.modifyIfd_ifds hifd (reach ifd p).1
    intro x hx hfollowed
    rw [hmod] at hx
    rcases List.mem_append.mp hx with hx | hx
    · exact h x (hl ▸ List.mem_append_left _ hx) hfollowed
    rcases List.mem_cons.mp hx with rfl | hx
    · rcases reach_followed hfollowed with hwas | hk
      · obtain ⟨k, hk⟩ := h ifd (List.mem_of_getElem? hifd) hwas
        exact ⟨k, (followedAs_reach_iff ifd p k).mpr (.inl hk)⟩
      · exact ⟨p.kind, hk⟩
    · exact h x (hl ▸ List.mem_append_right _ (List.mem_cons_of_mem _ hx)) hfollowed
  | @fresh pos left ifd ifd' hpos hnew hover hparse hbare hsame =>
    refine Walk.Marked.of_same ?_ hsame
    intro x hx hfollowed
    rcases List.mem_append.mp hx with hx | hx
    · exact h x hx hfollowed
    obtain rfl := List.mem_singleton.mp hx
    have hifd : ifd.followed = true := (congrArg Ifd.followed hbare).symm.trans hfollowed
    refine ⟨p.kind, ?_⟩
    have hroles : x.roles = ifd.roles := (congrArg Ifd.roles hbare : x.bare.roles = _)
    rw [Ifd.followedAs, hroles, (parseIfd_spec hparse).2.1, ← parseIfd_followed hparse, hifd]
    simp

/-! ### Runs -/

/-- What is followed in the end was followed at the start, or marked by a step. -/
theorem Handled.marks {rules : Rules} {st₀ st : Queue} {l : List (Queue × Pending)}
    (h : Handled rules st₀ l st) {pos : ℕ} {k : Kind} (hend : st.w.FollowedAt pos k) :
    st₀.w.FollowedAt pos k ∨ ∃ s ∈ l, Marks rules s pos k := by
  induction h with
  | start => exact .inl hend
  | @step l st p rest _ _ ih =>
    by_cases hbefore : st.w.FollowedAt pos k
    · refine (ih hbefore).imp_right fun ⟨s, hs, hmarks⟩ => ?_
      exact ⟨s, List.mem_append_left _ hs, hmarks⟩
    · exact .inr ⟨_, List.mem_append_right _ (List.mem_singleton.mpr rfl), hend, hbefore⟩

/-- In a walk that revives nothing, every directory marked as followed was marked, as each of
its followed kinds, by a followed pointer of this kind that the rules let pass. -/
theorem followed_passed {rules : Rules} {data : Bytes} {base limit : ℕ} {st₀ st : Queue}
    {l : List (Queue × Pending)} (hstart : Starts rules data base limit st₀)
    (hrun : Handled rules st₀ l st) (hno : ∀ s ∈ l, ¬Revives rules s) :
    ∀ ifd ∈ st.w.ifds,
      (∀ k, ifd.followedAs k = true → ∃ s ∈ l, Marks rules s ifd.pos k ∧
        s.2.pos = some ifd.pos ∧ s.2.kind = k ∧ s.2.followed = true ∧
          rejection rules s.1 s.2 ifd.pos = none) ∧
      (ifd.followed = true → ∃ k, ifd.followedAs k = true) := by
  obtain ⟨hempty, hindexed, -⟩ := hstart.fresh
  intro ifd hifd
  have hmarked : st₀.w.Marked := by
    intro x hx
    rw [hempty] at hx
    cases hx
  have hmark := hrun.keeps (P := Walk.Marked) (fun st p hst => (step_effect rules st p).marked hst)
  refine ⟨fun k hk => ?_, (hmark hmarked).1 ifd hifd⟩
  rcases hrun.marks ⟨ifd, hifd, rfl, hk⟩ with hstart | ⟨s, hs, hmarks⟩
  · obtain ⟨x, hx, -⟩ := hstart
    rw [hempty] at hx
    cases hx
  · have hpassed := step_marks ((hrun.indexed hindexed).2 s hs) hmarks (hno s hs)
    exact ⟨s, hs, hmarks, hpassed⟩

/-- Rules that reject the directory at 40. -/
def rejectingRules : Rules :=
  { plainRules with
    rejects := fun _ pos _ => if pos = 40 then some "too many entries" else none }

/-- The second pointer to the sub-directory at 40 has it followed: the walk has the rejected
directory marked, as a kind that the rules reject. -/
theorem tripledSubIfd_revived :
    ((walk tripledSubIfd 0 46 rejectingRules).ifds.map fun ifd =>
        (ifd.pos, ifd.followed, ifd.followedAs .sub)) = [(8, true, false), (40, true, true)] ∧
      ∀ w k, rejectingRules.rejects w 40 k ≠ none := by
  refine ⟨by decide +kernel, fun w k => ?_⟩
  exact Option.some_ne_none _

/-- A TIFF whose first directory, at 8, has one `SubIFDs` pointer, to 26. -/
def singleSubIfd : Bytes :=
  [0x49, 0x49, 42, 0, 8, 0, 0, 0,
    1, 0, 0x4A, 0x01, 4, 0, 1, 0, 0, 0, 26, 0, 0, 0, 0, 0, 0, 0,
    0, 0, 0, 0, 0, 0]

/-- Rules that reject the directory at 26. -/
def rejectingOnce : Rules :=
  { plainRules with
    rejects := fun _ pos _ => if pos = 26 then some "too many entries" else none }

/-- The state in which the walk over `singleSubIfd` starts. -/
def singleStart : Queue :=
  let w := headed (readHeader singleSubIfd 0 32 rejectingOnce).1 rejectingOnce
  ⟨w, [⟨w.abs 8, .page 0, "IFD0", true, .header, 0⟩]⟩

theorem starts_singleStart : Starts rejectingOnce singleSubIfd 0 32 singleStart :=
  Starts.header (Prod.ext rfl (by decide +kernel))

theorem followed_passed_singleSubIfd :
    (runQueue rejectingOnce 5 singleStart).1.w.ifds.map (fun ifd => (ifd.pos, ifd.followed)) =
        [(8, true), (26, false)] ∧
      ∀ ifd ∈ (runQueue rejectingOnce 5 singleStart).1.w.ifds,
        (∀ k, ifd.followedAs k = true → ∃ s ∈ handled rejectingOnce 5 singleStart,
          Marks rejectingOnce s ifd.pos k ∧ s.2.pos = some ifd.pos ∧ s.2.kind = k ∧
            s.2.followed = true ∧ rejection rejectingOnce s.1 s.2 ifd.pos = none) ∧
        (ifd.followed = true → ∃ k, ifd.followedAs k = true) :=
  ⟨by decide +kernel,
    followed_passed starts_singleStart (runQueue_handled _ _ _) (by decide +kernel)⟩

end Tiff

end Zencodec
