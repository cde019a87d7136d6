/-
What one step of the chain walk does.

Remarks, flags and counters of readings aside, a step either changes nothing, adds a role
to a recorded directory, or records a new one; in the last two cases the pointers of that
directory are queued.

* `enqueue_spec` — queueing changes remarks only, and leaves at most `maxIfds` pending
  directories when it adds any;
* `step_cases` — the three things a step can do.
-/
import Zencodec.Tiff.Queue

open Slices StableSort Tiling

namespace Zencodec

namespace Tiff

/-! ### Remarks change nothing else -/

/-- An entry without its remarks. -/
def Entry.bare (e : Entry) : Entry := { e with notes := [] }

/-- A directory without its remarks. -/
def Ifd.bare (ifd : Ifd) : Ifd :=
  { ifd with entries := ifd.entries.map Entry.bare, notes := [] }

/-- `w'` is `w` with other remarks, flags and counters of readings. -/
structure Walk.Same (w w' : Walk) : Prop where
  ifds : w'.ifds.map Ifd.bare = w.ifds.map Ifd.bare
  d : w'.d = w.d
  base : w'.base = w.base
  lay : w'.lay = w.lay
  header : w'.header = w.header
  headerOk : w'.headerOk = w.headerOk
  headerExt : w'.headerExt = w.headerExt
  entriesLeft : w'.entriesLeft = w.entriesLeft
  byAt : w'.byAt = w.byAt
  tables : w'.tables = w.tables

namespace Walk

theorem Same.refl (w : Walk) : Same w w := ⟨rfl, rfl, rfl, rfl, rfl, rfl, rfl, rfl, rfl, rfl⟩

theorem Same.trans {u v w : Walk} (h : Same u v) (h' : Same v w) : Same u w :=
  ⟨h'.ifds.trans h.ifds, h'.d.trans h.d, h'.base.trans h.base, h'.lay.trans h.lay,
    h'.header.trans h.header, h'.headerOk.trans h.headerOk,
    h'.headerExt.trans h.headerExt, h'.entriesLeft.trans h.entriesLeft,
    h'.byAt.trans h.byAt, h'.tables.trans h.tables⟩

theorem Same.length_ifds {w w' : Walk} (h : Same w w') : w'.ifds.length = w.ifds.length := by
  simpa using congrArg List.length h.ifds

theorem Same.getElem? {w w' : Walk} (h : Same w w') (i : ℕ) :
    w'.ifds[i]?.map Ifd.bare = w.ifds[i]?.map Ifd.bare := by
  rw [← List.getElem?_map, ← List.getElem?_map, h.ifds]

/-- Flags and counters of readings. -/
theorem same_flags (w : Walk) (cancelled budgetHit : Bool) (pointerReads polls : ℕ) :
    Same w { w with cancelled, budgetHit, pointerReads, polls } :=
  ⟨rfl, rfl, rfl, rfl, rfl, rfl, rfl, rfl, rfl, rfl⟩

/-- Changing remarks of one directory. -/
theorem modifyIfd_same (w : Walk) (i : ℕ) {f : Ifd → Ifd}
    (hf : ∀ ifd, (f ifd).bare = ifd.bare) : Same w (w.modifyIfd i f) := by
  refine ⟨?_, rfl, rfl, rfl, rfl, rfl, rfl, rfl, rfl, rfl⟩
  refine List.ext_getElem? fun k => ?_
  rw [List.getElem?_map, List.getElem?_map, modifyIfd, List.getElem?_modify]
  cases w.ifds[k]? with
  | none => rfl
  | some ifd => by_cases hik : i = k <;> simp [hik, hf]

end Walk

theorem bare_noteEntry (ifd : Ifd) (e : ℕ) (text : String) :
    (ifd.noteEntry e text).bare = ifd.bare := by
  have hmap : (ifd.entries.modify e fun en =>
      { en with notes := addNote en.notes text }).map Entry.bare =
        ifd.entries.map Entry.bare := by
    refine List.ext_getElem? fun k => ?_
    rw [List.getElem?_map, List.getElem?_map, List.getElem?_modify]
    cases ifd.entries[k]? with
    | none => rfl
    | some en => by_cases hek : e = k <;> simp [hek, Entry.bare]
  show Ifd.bare { ifd with entries := _ } = ifd.bare
  rw [Ifd.bare, hmap]
  rfl

theorem bare_noteNext (ifd : Ifd) (text : String) :
    (ifd.noteNext text).bare = ifd.bare := rfl

theorem note_same (w : Walk) (src : From) (text : String) : w.Same (note w src text) := by
  cases src with
  | header => exact ⟨rfl, rfl, rfl, rfl, rfl, rfl, rfl, rfl, rfl, rfl⟩
  | entry i e => exact w.modifyIfd_same i fun ifd => bare_noteEntry ifd e text
  | next i => exact w.modifyIfd_same i fun ifd => bare_noteNext ifd text

/-! ### Queueing -/

/-- What queueing may do: it appends pending directories, and none once the queue and the
recorded directories have reached the cap. -/
structure Queued (st st' : Queue) : Prop where
  same : st.w.Same st'.w
  length_le : st'.queue.length ≤ max st.queue.length maxIfds

theorem Queued.refl (st : Queue) : Queued st st := ⟨.refl _, le_max_left _ _⟩

theorem Queued.trans {st st' st'' : Queue} (h : Queued st st') (h' : Queued st' st'') :
    Queued st st'' :=
  ⟨h.same.trans h'.same, h'.length_le.trans (max_le h.length_le (le_max_right _ _))⟩

theorem Queued.of_same {st : Queue} {w : Walk} (h : st.w.Same w) :
    Queued st { st with w := w } :=
  ⟨h, le_max_left _ _⟩

/-- One pending directory fits while there is room. -/
theorem Queued.push {st : Queue} (h : st.full = false) (p : Pending) :
    Queued st { st with queue := st.queue ++ [p] } := by
  have hroom : st.queue.length + st.w.ifds.length < maxIfds := by
    simpa [Queue.full] using h
  refine ⟨.refl _, ?_⟩
  show (st.queue ++ [p]).length ≤ _
  rw [List.length_append, List.length_singleton]
  omega

theorem pushPointers_queued (idx ei : ℕ) (kind : Kind) (label baseName : String)
    (followed numbered : Bool) (depth : UInt8) (ptrs : List ℕ) :
    ∀ (k : ℕ) (st : Queue), Queued st
      (pushPointers idx ei kind label baseName followed numbered depth k ptrs st) := by
  induction ptrs with
  | nil => exact fun k st => .refl st
  | cons off rest ih =>
    intro k st
    simp only [pushPointers]
    split
    · exact .of_same ((st.w.same_flags _ true _ _).trans
        (Walk.modifyIfd_same _ idx fun ifd => bare_noteEntry ifd ei _))
    · next hroom =>
      exact (Queued.push (by simpa using hroom) _).trans (ih _ _)

theorem enqueueEntry_queued (rules : Rules) (idx : ℕ) (kind : Kind) (baseName : String)
    (followedHere : Bool) (st : Queue) (ei : ℕ) :
    Queued st (enqueueEntry rules idx kind baseName followedHere st ei) := by
  rw [enqueueEntry]
  split
  · exact .refl st
  · split
    · exact .refl st
    · split
      · exact .refl st
      · dsimp only
        split
        · exact .of_same ((st.w.same_flags _ true _ _).trans
            (Walk.modifyIfd_same _ idx fun ifd => bare_noteEntry ifd ei _))
        · refine Queued.trans (.of_same ?_) (pushPointers_queued _ _ _ _ _ _ _ _ _ _ _)
          split
          · exact (st.w.same_flags _ _ _ _).trans
              (Walk.modifyIfd_same _ idx fun ifd => bare_noteEntry ifd ei _)
          · exact st.w.same_flags _ _ _ _

theorem enqueueNext_queued (rules : Rules) (idx : ℕ) (kind : Kind) (baseName : String)
    (followedHere : Bool) (st : Queue) :
    Queued st (enqueueNext rules idx kind baseName followedHere st) := by
  rw [enqueueNext]
  split
  · exact .refl st
  · split
    · exact .refl st
    · split
      · exact .of_same ((st.w.same_flags _ true _ _).trans
          (Walk.modifyIfd_same _ idx fun ifd => bare_noteNext ifd _))
      · next hroom => exact .push (by simpa using hroom) _

theorem enqueue_queued (rules : Rules) (st : Queue) (idx : ℕ) (kind : Kind) :
    Queued st (enqueue rules st idx kind) := by
  have hfold : ∀ (f : Queue → ℕ → Queue), (∀ st ei, Queued st (f st ei)) →
      ∀ (l : List ℕ) (st : Queue), Queued st (l.foldl f st) := by
    intro f hf l
    induction l with
    | nil => exact fun st => .refl st
    | cons ei l ih => exact fun st => (hf st ei).trans (ih _)
  rw [enqueue]
  split
  · exact .refl st
  · exact (hfold _ (enqueueEntry_queued rules idx kind _ _) _ st).trans
      (enqueueNext_queued rules idx kind _ _ _)

/-! ### One step -/

/-- What a step does to the walk and the queue, and whose pointers it queues. -/
inductive StepTo (st : Queue) (p : Pending) : Queue → Option (ℕ × Kind) → Prop
  /-- Remarks only. -/
  | skip {st' : Queue} : st.w.Same st'.w → st'.queue.length ≤ st.queue.length →
      StepTo st p st' none
  /-- A recorded directory gets a role, or a role of it is followed now. -/
  | reach {st' : Queue} {did : Option (ℕ × Kind)} {pos idx : ℕ} {ifd : Ifd} :
      p.pos = some pos → (pos, idx) ∈ st.w.byAt → st.w.ifds[idx]? = some ifd →
      (st.w.modifyIfd idx fun _ => (Tiff.reach ifd p).1).Same st'.w →
      (did = none ∧ st'.queue.length ≤ st.queue.length ∨
        did = some (ifd.pos, p.kind) ∧
          ((Tiff.reach ifd p).2.1 = true ∨ (Tiff.reach ifd p).2.2 = true) ∧
          st'.queue.length ≤ max st.queue.length maxIfds) →
      StepTo st p st' did
  /-- A new directory is recorded. -/
  | record {st' : Queue} {did : Option (ℕ × Kind)} {pos left : ℕ} {ifd ifd' : Ifd}
      {followed : Bool} {w : Walk} :
      p.pos = some pos → (∀ b ∈ st.w.byAt, b.1 ≠ pos) → st.w.ifds.length < maxIfds →
      st.w.Same w →
      parseIfd w.d w.lay pos p.kind p.name followed w.entriesLeft = some (ifd, left) →
      ifd'.bare = { ifd.bare with parent := ifd'.parent, depth := ifd'.depth } →
      (Tiff.record { w with entriesLeft := left } ifd' pos).Same st'.w →
      (did = none ∧ st'.queue.length ≤ st.queue.length ∨
        did = some (ifd'.pos, p.kind) ∧ st'.queue.length ≤ max st.queue.length maxIfds) →
      StepTo st p st' did

theorem revisit_stepTo (rules : Rules) (st : Queue) (p : Pending) {pos idx : ℕ}
    (hpos : p.pos = some pos) (hidx : (pos, idx) ∈ st.w.byAt) :
    StepTo st p (revisit rules st p pos idx).1 (revisit rules st p pos idx).2 := by
  rw [revisit]
  split
  · exact .skip (.refl _) le_rfl
  · next ifd hifd =>
    dsimp only
    split
    · next hdid =>
      have hq : ∀ w, Queued { st with w := w } (enqueue rules { st with w := w } idx p.kind) :=
        fun w => enqueue_queued rules _ idx p.kind
      refine .reach hpos hidx hifd ((note_same _ _ _).trans (hq _).same)
        (Or.inr ⟨rfl, ?_, (hq _).length_le⟩)
      simpa using (Bool.and_eq_true_iff.mp hdid).1
    · exact .reach hpos hidx hifd (note_same _ _ _) (Or.inl ⟨rfl, le_rfl⟩)

theorem checkOverlap_same (w : Walk) (p : Pending) (pos : ℕ) :
    w.Same (checkOverlap w p pos).2 := by
  rw [checkOverlap]
  split
  · exact .refl w
  · split
    · exact note_same _ _ _
    · exact note_same _ _ _

theorem checkReject_same (rules : Rules) (w : Walk) (p : Pending) (pos : ℕ) :
    w.Same (checkReject rules w p pos).2 := by
  rw [checkReject]
  split
  · split
    · exact note_same _ _ _
    · exact .refl w
  · exact .refl w

/-- What `recordIfd` records. -/
theorem admit_stepTo (rules : Rules) (st : Queue) (p : Pending) (pos : ℕ) (ifd : Ifd)
    (left : ℕ) : ∃ ifd' : Ifd,
      ifd'.bare = { ifd.bare with parent := ifd'.parent, depth := ifd'.depth } ∧
      (record { st.w with entriesLeft := left } ifd' pos).Same
        (recordIfd rules st p pos ifd left).1.w ∧
      ((recordIfd rules st p pos ifd left).2 = none ∧
          (recordIfd rules st p pos ifd left).1.queue.length ≤ st.queue.length ∨
        (recordIfd rules st p pos ifd left).2 = some (ifd'.pos, p.kind) ∧
          (recordIfd rules st p pos ifd left).1.queue.length ≤ max st.queue.length maxIfds) := by
  have hrec : ∀ (ifd' : Ifd) (fatal : Option String) (budgetHit : Bool),
      (record { st.w with entriesLeft := left } ifd' pos).Same
        (record { st.w with entriesLeft := left, fatal, budgetHit } ifd' pos) :=
    fun ifd' fatal budgetHit => ⟨rfl, rfl, rfl, rfl, rfl, rfl, rfl, rfl, rfl, rfl⟩
  have hq : ∀ w idx, Queued { st with w := w } (enqueue rules { st with w := w } idx p.kind) :=
    fun w idx => enqueue_queued rules _ idx p.kind
  rw [recordIfd]
  dsimp only
  split
  · exact ⟨_, rfl, (hrec _ _ _).trans (hq _ _).same, Or.inr ⟨rfl, (hq _ _).length_le⟩⟩
  · exact ⟨_, rfl, hrec _ _ _, Or.inl ⟨rfl, le_rfl⟩⟩

theorem visit_stepTo (rules : Rules) (st : Queue) (p : Pending) {pos : ℕ}
    (hpos : p.pos = some pos) (hnew : ∀ b ∈ st.w.byAt, b.1 ≠ pos) :
    StepTo st p (visit rules st p pos).1 (visit rules st p pos).2 := by
  rw [visit]
  split
  · exact .skip ((st.w.same_flags _ true _ _).trans (note_same _ _ _)) le_rfl
  · next hlt =>
    have hover := checkOverlap_same st.w p pos
    have hreject := checkReject_same rules (checkOverlap st.w p pos).2 p pos
    dsimp only
    split
    · exact .skip hover le_rfl
    · split
      · refine .skip ((hover.trans hreject).trans (.trans ?_ (note_same _ _ _))) le_rfl
        exact Walk.same_flags _ _ _ _ _
      · next ifd left hparse =>
        obtain ⟨ifd', hbare, hsame, hdid⟩ := admit_stepTo rules
          { st with w := (checkReject rules (checkOverlap st.w p pos).2 p pos).2 } p pos ifd
          left
        exact .record hpos hnew (not_le.mp hlt) (hover.trans hreject) hparse hbare hsame hdid

/-- Reading the stop token changes nothing else. -/
theorem StepTo.polled {st st' : Queue} {p : Pending} {did : Option (ℕ × Kind)} {n : ℕ}
    (h : StepTo { st with w := { st.w with polls := n } } p st' did) : StepTo st p st' did := by
  have hflags := st.w.same_flags st.w.cancelled st.w.budgetHit st.w.pointerReads n
  cases h with
  | skip hsame hq => exact .skip (hflags.trans hsame) hq
  | @reach _ pos idx ifd hpos hidx hifd hsame hdid =>
    have hmod : (st.w.modifyIfd idx fun _ => (Tiff.reach ifd p).1).Same
        (Walk.modifyIfd { st.w with polls := n } idx fun _ => (Tiff.reach ifd p).1) :=
      ⟨rfl, rfl, rfl, rfl, rfl, rfl, rfl, rfl, rfl, rfl⟩
    exact .reach hpos hidx hifd (hmod.trans hsame) hdid
  | record hpos hnew hlt hsame hparse hbare hrec hdid =>
    exact .record hpos hnew hlt (hflags.trans hsame) hparse hbare hrec hdid

/-- **What one step does**: nothing, a role for a recorded directory, or a new one. -/
theorem step_cases (rules : Rules) (st : Queue) (p : Pending) :
    StepTo st p (step rules st p).1 (step rules st p).2 := by
  rw [step]
  split
  · exact .skip (note_same _ _ _) le_rfl
  · next pos hpos =>
    dsimp only
    split
    · exact .skip (st.w.same_flags true _ _ _) (Nat.zero_le _)
    · split
      · next b hfind =>
        have hb : b.1 = pos := by simpa using List.find?_some hfind
        have hmem : (pos, b.2) ∈ st.w.byAt := hb ▸ List.mem_of_find?_eq_some hfind
        exact (revisit_stepTo rules { st with w := { st.w with polls := st.w.polls + 1 } } p
          hpos hmem).polled
      · next hfind =>
        have hnew : ∀ b ∈ st.w.byAt, b.1 ≠ pos := by simpa using hfind
        exact (visit_stepTo rules { st with w := { st.w with polls := st.w.polls + 1 } } p
          hpos hnew).polled

end Tiff

end Zencodec
