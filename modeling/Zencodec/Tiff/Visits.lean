/-
The states that the chain walk goes through.

`Handled rules st₀ l st` says that the loop, started with `st₀`, has handled the pending
directories in `l`, each with the state it was taken from, and has come to `st`.

* `walk_handled`, `walkIfd_handled`: whole walks end in such a state;
* `step_effect`: what handling one pending directory does to the recorded ones, with the
  checks that let it;
* `Handled.indexed`: the index and the tables of the walk are those of its directories.
-/
import Zencodec.Tiff.Bounds

open Slices StableSort Tiling

namespace Zencodec

namespace Tiff

/-- The loop has handled the pending directories of `l`. -/
inductive Handled (rules : Rules) (st₀ : Queue) : List (Queue × Pending) → Queue → Prop
  | start : Handled rules st₀ [] st₀
  | step {l : List (Queue × Pending)} {st : Queue} {p : Pending} {rest : List Pending} :
      Handled rules st₀ l st → st.queue = p :: rest →
      Handled rules st₀ (l ++ [({ st with queue := rest }, p)])
        (step rules { st with queue := rest } p).1

theorem Handled.trans {rules : Rules} {st₀ st₁ st₂ : Queue} {l l' : List (Queue × Pending)}
    (h : Handled rules st₀ l st₁) (h' : Handled rules st₁ l' st₂) :
    Handled rules st₀ (l ++ l') st₂ := by
  induction h' with
  | start => rwa [List.append_nil]
  | step _ hqueue ih =>
    rw [← List.append_assoc]
    exact ih.step hqueue

/-- What so many rounds of the loop handle. -/
def handled (rules : Rules) : ℕ → Queue → List (Queue × Pending)
  | 0, _ => []
  | fuel + 1, st =>
    match st.queue with
    | [] => []
    | p :: rest =>
      ({ st with queue := rest }, p) ::
        handled rules fuel (step rules { st with queue := rest } p).1

/-- The loop goes through such states only. -/
theorem runQueue_handled (rules : Rules) (fuel : ℕ) (st : Queue) :
    Handled rules st (handled rules fuel st) (runQueue rules fuel st).1 := by
  induction fuel generalizing st with
  | zero => exact .start
  | succ fuel ih =>
    cases hqueue : st.queue with
    | nil =>
      rw [runQueue, handled, hqueue]
      exact .start
    | cons p rest =>
      rw [runQueue, handled, hqueue]
      exact ((Handled.start : Handled rules st [] st).step hqueue).trans (ih _)

/-- What every step keeps is true of all walks that the loop goes through. -/
theorem Handled.keeps {rules : Rules} {st₀ st : Queue} {l : List (Queue × Pending)}
    {P : Walk → Prop} (h : Handled rules st₀ l st)
    (hstep : ∀ st p, P st.w → P (Tiff.step rules st p).1.w) (h₀ : P st₀.w) :
    P st.w ∧ ∀ s ∈ l, P s.1.w := by
  induction h with
  | start => exact ⟨h₀, List.forall_mem_nil _⟩
  | @step l st p rest _ _ ih =>
    refine ⟨hstep { st with queue := rest } p ih.1, fun s hs => ?_⟩
    rcases List.mem_append.mp hs with hs | hs
    · exact ih.2 s hs
    · obtain rfl := List.mem_singleton.mp hs
      exact ih.1

/-! ### One step, with its checks -/

/-- The walk as it is after the stop token was read. -/
def Walk.polled (w : Walk) : Walk := { w with polls := w.polls + 1 }

/-- The walk that the checks of a new directory are asked about. -/
def Walk.checked (w : Walk) (p : Pending) (pos : ℕ) : Walk := (checkOverlap w.polled p pos).2

theorem Walk.same_polled (w : Walk) : w.Same w.polled := w.same_flags _ _ _ _

theorem Walk.same_checked (w : Walk) (p : Pending) (pos : ℕ) : w.Same (w.checked p pos) :=
  w.same_polled.trans (checkOverlap_same _ _ _)

/-- What handling a pending directory does to the recorded ones. -/
inductive Effect (rules : Rules) (st : Queue) (p : Pending) (w' : Walk) : Prop
  /-- Nothing. -/
  | nothing : st.w.Same w' → Effect rules st p w'
  /-- A recorded directory is reached again. -/
  | again {pos idx : ℕ} {ifd : Ifd} : p.pos = some pos →
      rules.cancelled st.w.polls = false → (pos, idx) ∈ st.w.byAt → st.w.ifds[idx]? = some ifd →
      (st.w.modifyIfd idx fun _ => (reach ifd p).1).Same w' → Effect rules st p w'
  /-- A new directory is recorded. -/
  | fresh {pos left : ℕ} {ifd ifd' : Ifd} : p.pos = some pos →
      (∀ b ∈ st.w.byAt, b.1 ≠ pos) → (checkOverlap st.w.polled p pos).1 = true →
      parseIfd st.w.d st.w.lay pos p.kind p.name
        (checkReject rules (st.w.checked p pos) p pos).1 st.w.entriesLeft = some (ifd, left) →
      ifd'.bare = { ifd.bare with parent := ifd'.parent, depth := ifd'.depth } →
      (record { st.w with entriesLeft := left } ifd' pos).Same w' → Effect rules st p w'

theorem Effect.of_same {rules : Rules} {st : Queue} {p : Pending} {w' w'' : Walk}
    (h : Effect rules st p w') (hw : w'.Same w'') : Effect rules st p w'' := by
  cases h with
  | nothing hsame => exact .nothing (hsame.trans hw)
  | again hpos hgo hidx hifd hsame => exact .again hpos hgo hidx hifd (hsame.trans hw)
  | fresh hpos hnew hover hparse hbare hsame =>
    exact .fresh hpos hnew hover hparse hbare (hsame.trans hw)

/-- The same directory recorded in walks that differ in remarks. -/
theorem record_same {w w' : Walk} (h : w.Same w') (left : ℕ) (ifd : Ifd) (pos : ℕ) :
    (record { w with entriesLeft := left } ifd pos).Same
      (record { w' with entriesLeft := left } ifd pos) := by
  have hifds : (w'.ifds ++ [ifd]).map Ifd.bare = (w.ifds ++ [ifd]).map Ifd.bare := by
    rw [List.map_append, List.map_append, h.ifds]
  refine ⟨hifds, h.d, h.base, h.lay, h.header, h.headerOk, h.headerExt, rfl, ?_, ?_⟩
  · show w'.byAt ++ _ = w.byAt ++ _
    rw [h.byAt, h.length_ifds]
  · show w'.tables ++ _ = w.tables ++ _
    rw [h.tables]

theorem visit_effect (rules : Rules) (st : Queue) (p : Pending) {pos : ℕ}
    (hpos : p.pos = some pos) (hnew : ∀ b ∈ st.w.byAt, b.1 ≠ pos) :
    Effect rules st p (visit rules { st with w := st.w.polled } p pos).1.w := by
  rw [visit]
  split
  · refine .nothing ((st.w.same_polled.trans ?_).trans (note_same _ _ _))
    exact Walk.same_flags _ _ true _ _
  · have hchecked := st.w.same_checked p pos
    have hreject := hchecked.trans (checkReject_same rules (st.w.checked p pos) p pos)
    dsimp only
    split
    · exact .nothing hchecked
    · next hgo =>
      split
      · refine .nothing ((hreject.trans ?_).trans (note_same _ _ _))
        exact Walk.same_flags _ _ _ _ _
      · next ifd left hparse =>
        obtain ⟨ifd', hbare, hsame, -⟩ := admit_stepTo rules
          ⟨(checkReject rules (st.w.checked p pos) p pos).2, st.queue⟩ p pos ifd left
        refine .fresh hpos hnew (by simpa using hgo) ?_ hbare
          ((record_same hreject left ifd' pos).trans hsame)
        rw [← hreject.d, ← hreject.lay, ← hreject.entriesLeft]
        exact hparse

/-- A directory reached again has its roles changed, and nothing else is. -/
theorem revisit_same (rules : Rules) (st : Queue) (p : Pending) (pos : ℕ) {idx : ℕ} {ifd : Ifd}
    (hifd : st.w.ifds[idx]? = some ifd) :
    (st.w.modifyIfd idx fun _ => (reach ifd p).1).Same
      (revisit rules { st with w := st.w.polled } p pos idx).1.w := by
  have hmod : (st.w.modifyIfd idx fun _ => (reach ifd p).1).Same
      (Walk.modifyIfd st.w.polled idx fun _ => (reach ifd p).1) :=
    ⟨rfl, rfl, rfl, rfl, rfl, rfl, rfl, rfl, rfl, rfl⟩
  have hq : ∀ w, Queued { st with w := w } (enqueue rules { st with w := w } idx p.kind) :=
    fun w => enqueue_queued rules _ idx p.kind
  have hpolled : st.w.polled.ifds[idx]? = some ifd := hifd
  rw [revisit, hpolled]
  dsimp only
  split
  · exact hmod.trans ((note_same _ _ _).trans (hq _).same)
  · exact hmod.trans (note_same _ _ _)

theorem checkReject_eq_true {rules : Rules} {w : Walk} {p : Pending} {pos : ℕ} :
    (checkReject rules w p pos).1 = true ↔
      p.followed = true ∧ rules.rejects w pos p.kind = none := by
  rw [checkReject]
  cases p.followed with
  | false => simp
  | true => cases rules.rejects w pos p.kind <;> simp

/-- What one step does, with the checks that let it. -/
theorem step_effect (rules : Rules) (st : Queue) (p : Pending) :
    Effect rules st p (step rules st p).1.w := by
  rw [step]
  split
  · exact .nothing (note_same _ _ _)
  · next pos hpos =>
    dsimp only
    split
    · exact .nothing (st.w.same_flags true _ _ _)
    · next hgo =>
      split
      · next b hfind =>
        have hb : b.1 = pos := by simpa using List.find?_some hfind
        have hmem : (pos, b.2) ∈ st.w.byAt := hb ▸ List.mem_of_find?_eq_some hfind
        cases hifd : st.w.ifds[b.2]? with
        | none =>
          have hnone : st.w.polled.ifds[b.2]? = none := hifd
          show Effect rules st p (revisit rules { st with w := st.w.polled } p pos b.2).1.w
          rw [revisit, hnone]
          exact .nothing st.w.same_polled
        | some ifd =>
          exact .again hpos (by simpa using hgo) hmem hifd (revisit_same rules st p pos hifd)
      · next hfind =>
        have hnew : ∀ b ∈ st.w.byAt, b.1 ≠ pos := by simpa using hfind
        exact visit_effect rules st p hpos hnew

/-! ### The index of a walk -/

/-- The index and the tables of a walk are those of its directories. -/
structure Indexed (w : Walk) : Prop where
  byAt : w.byAt = (w.ifds.map Ifd.pos).zipIdx
  tables : w.tables = w.ifds.map fun ifd => (ifd.pos, ifd.stop)
  nodup : (w.ifds.map Ifd.pos).Nodup

theorem Indexed.of_same {w w' : Walk} (h : Indexed w) (hw : w.Same w') : Indexed w' where
  byAt := by rw [hw.byAt, h.byAt, hw.map_eq (f := Ifd.pos) fun _ => rfl]
  tables := by
    rw [hw.tables, h.tables, hw.map_eq (f := fun ifd => (ifd.pos, ifd.stop)) fun _ => rfl]
  nodup := hw.map_eq (f := Ifd.pos) (fun _ => rfl) ▸ h.nodup

theorem Indexed.pos_eq {w : Walk} (h : Indexed w) {pos idx : ℕ} {ifd : Ifd}
    (hidx : (pos, idx) ∈ w.byAt) (hifd : w.ifds[idx]? = some ifd) : ifd.pos = pos := by
  rw [h.byAt, List.mem_zipIdx_iff_getElem?, List.getElem?_map, hifd] at hidx
  exact Option.some_inj.mp hidx

theorem Effect.indexed {rules : Rules} {st : Queue} {p : Pending} {w' : Walk}
    (h : Indexed st.w) (he : Effect rules st p w') : Indexed w' := by
  cases he with
  | nothing hsame => exact h.of_same hsame
  | @again pos idx ifd hpos hgo hidx hifd hsame =>
    refine Indexed.of_same ?_ hsame
    obtain ⟨l, l', hl, hmod⟩ := Walk.modifyIfd_ifds hifd (reach ifd p).1
    have hpositions : (st.w.modifyIfd idx fun _ => (reach ifd p).1).ifds.map Ifd.pos =
        st.w.ifds.map Ifd.pos := by
      rw [hmod, hl, List.map_append, List.map_append]
      rfl
    refine ⟨?_, ?_, ?_⟩
    · rw [hpositions]
      exact h.byAt
    · have hmap : (st.w.modifyIfd idx fun _ => (reach ifd p).1).ifds.map
          (fun ifd => (ifd.pos, ifd.stop)) = st.w.ifds.map fun ifd => (ifd.pos, ifd.stop) := by
        rw [hmod, hl, List.map_append, List.map_append]
        rfl
      rw [hmap]
      exact h.tables
    · rw [hpositions]
      exact h.nodup
  | @fresh pos left ifd ifd' hpos hnew hover hparse hbare hsame =>
    refine Indexed.of_same ?_ hsame
    have hipos : ifd'.pos = pos := (congrArg Ifd.pos hbare).trans (parseIfd_spec hparse).1
    refine ⟨by simp [record, h.byAt, hipos, List.zipIdx_append], by simp [record, h.tables], ?_⟩
    simp only [record, List.map_append, List.map_cons, List.map_nil, hipos]
    refine List.nodup_append.mpr ⟨h.nodup, List.nodup_singleton _, fun a ha b hb heq => ?_⟩
    obtain rfl := List.mem_singleton.mp hb
    obtain ⟨i, hi, hai⟩ := List.mem_iff_getElem.mp ha
    refine hnew (a, i) ?_ heq
    rw [h.byAt, List.mem_zipIdx_iff_getElem?]
    exact List.getElem?_eq_some_iff.mpr ⟨hi, hai⟩

theorem Handled.indexed {rules : Rules} {st₀ st : Queue} {l : List (Queue × Pending)}
    (h : Handled rules st₀ l st) (h₀ : Indexed st₀.w) :
    Indexed st.w ∧ ∀ s ∈ l, Indexed s.1.w :=
  h.keeps (fun st p hst => (step_effect rules st p).indexed hst) h₀

/-- The states in which a walk over `data` up to `limit` starts. -/
inductive Starts (rules : Rules) (data : Bytes) (base limit : ℕ) : Queue → Prop
  /-- From the header. -/
  | header {w : Walk} {ifd0 : ℕ} : readHeader data base limit rules = (w, some ifd0) →
      Starts rules data base limit ⟨headed w rules,
        [⟨(headed w rules).abs ifd0, .page 0, "IFD0", true, .header, 0⟩]⟩
  /-- From a directory. -/
  | ifd (lay : Layout) (pos : ℕ) (kind : Kind) (name : String) (depth : UInt8) :
      Starts rules data base limit ⟨Walk.start data base limit lay ⟨pos, pos⟩ true,
        [⟨some pos, kind, name, true, .header, depth⟩]⟩

/-- A whole walk ends in a state that the loop comes to, unless its header is not read. -/
theorem walk_handled (rules : Rules) (data : Bytes) (base limit : ℕ) :
    (readHeader data base limit rules).2 = none ∨ ∃ st₀, Starts rules data base limit st₀ ∧
      Handled rules st₀ (handled rules queueFuel st₀) (walkTraced data base limit rules).1 := by
  rw [walkTraced]
  split
  · next hheader => exact .inl (congrArg Prod.snd hheader)
  · next hheader => exact .inr ⟨_, .header hheader, runQueue_handled rules queueFuel _⟩

theorem walkIfd_handled (rules : Rules) (data : Bytes) (base limit : ℕ) (lay : Layout) (pos : ℕ)
    (kind : Kind) (name : String) (depth : UInt8) :
    ∃ st₀, Starts rules data base limit st₀ ∧ Handled rules st₀ (handled rules queueFuel st₀)
      (walkIfdTraced data base limit lay pos kind name depth rules).1 :=
  ⟨_, .ifd lay pos kind name depth, runQueue_handled rules queueFuel _⟩

/-- Reading the header records no table and keeps the input. -/
theorem readHeader_tables (data : Bytes) (base limit : ℕ) (rules : Rules) :
    (readHeader data base limit rules).1.tables = [] ∧
      (readHeader data base limit rules).1.d = data.take (min limit data.length) := by
  rw [readHeader]
  dsimp only
  repeat' split
  all_goals exact ⟨rfl, rfl⟩

theorem headed_tables (w : Walk) (rules : Rules) :
    (headed w rules).tables = w.tables ∧ (headed w rules).d = w.d := by
  rw [headed]
  dsimp only
  repeat' split
  all_goals exact ⟨rfl, rfl⟩

/-- A walk starts with nothing recorded, on the input up to the limit. -/
theorem Starts.fresh {rules : Rules} {data : Bytes} {base limit : ℕ} {st₀ : Queue}
    (h : Starts rules data base limit st₀) :
    st₀.w.ifds = [] ∧ Indexed st₀.w ∧ st₀.w.d = data.take (min limit data.length) := by
  cases h with
  | @header w ifd0 hheader =>
    obtain ⟨hifds, hbyAt, -⟩ := readHeader_fresh data base limit rules
    obtain ⟨htables, hd⟩ := readHeader_tables data base limit rules
    rw [hheader] at hifds hbyAt htables hd
    obtain ⟨hifds', hbyAt', -⟩ := headed_fresh w rules
    obtain ⟨htables', hd'⟩ := headed_tables w rules
    have hnone : (headed w rules).ifds = [] := hifds'.trans hifds
    refine ⟨hnone, ⟨?_, ?_, by rw [hnone]; exact List.nodup_nil⟩, hd'.trans hd⟩
    · rw [hbyAt', hbyAt, hnone]
      rfl
    · rw [htables', htables, hnone]
      rfl
  | ifd lay pos kind name depth => exact ⟨rfl, ⟨rfl, rfl, List.nodup_nil⟩, rfl⟩

end Tiff

end Zencodec
