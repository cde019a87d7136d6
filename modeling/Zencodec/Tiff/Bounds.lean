/-
The work of a chain walk.

The walk ends whatever the file says: cyclic chains, directories that name themselves and
directories reached along several paths only add kinds of path, and a directory has at
most `maxRoles` of them.  `weight` counts how far the paths to the directory at an offset
have got (1 for a kind of path, 2 once it is followed); each queueing of pointers raises
it, and `potential` puts that increase above the at most `maxIfds` directories queued.

* `step_bounded` — one step keeps the caps and takes from the potential;
* `walkTraced_bounded` — what holds at the end of every walk.
-/
import Zencodec.Tiff.Steps

open Slices StableSort Tiling

namespace Zencodec

namespace Tiff

/-! ### Weights -/

/-- How far one kind of path has got. -/
def roleWeight (role : Kind × Bool) : ℕ := if role.2 then 2 else 1

/-- How far the paths of one kind have got. -/
def kindWeight (kind : Kind) (roles : List (Kind × Bool)) : ℕ :=
  ((roles.filter fun r => r.1 = kind).map roleWeight).sum

/-- How far all paths have got. -/
def fullWeight (roles : List (Kind × Bool)) : ℕ := (roles.map roleWeight).sum

theorem roleWeight_pos (role : Kind × Bool) : 0 < roleWeight role := by
  rw [roleWeight]
  split <;> omega

theorem roleWeight_le (role : Kind × Bool) : roleWeight role ≤ 2 := by
  rw [roleWeight]
  split <;> omega

@[simp]
theorem kindWeight_append (kind : Kind) (l l' : List (Kind × Bool)) :
    kindWeight kind (l ++ l') = kindWeight kind l + kindWeight kind l' := by
  simp [kindWeight]

theorem kindWeight_cons (kind : Kind) (r : Kind × Bool) (l : List (Kind × Bool)) :
    kindWeight kind (r :: l) = (if r.1 = kind then roleWeight r else 0) + kindWeight kind l := by
  by_cases h : r.1 = kind <;> simp [kindWeight, h]

@[simp]
theorem kindWeight_nil (kind : Kind) : kindWeight kind [] = 0 := rfl

@[simp]
theorem fullWeight_append (l l' : List (Kind × Bool)) :
    fullWeight (l ++ l') = fullWeight l + fullWeight l' := by
  simp [fullWeight]

@[simp]
theorem fullWeight_cons (r : Kind × Bool) (l : List (Kind × Bool)) :
    fullWeight (r :: l) = roleWeight r + fullWeight l := by
  simp [fullWeight]

@[simp]
theorem fullWeight_nil : fullWeight [] = 0 := rfl

theorem fullWeight_le (roles : List (Kind × Bool)) : fullWeight roles ≤ 2 * roles.length := by
  induction roles with
  | nil => exact le_rfl
  | cons r l ih =>
    have := roleWeight_le r
    rw [fullWeight_cons, List.length_cons]
    omega

theorem kindWeight_eq_zero {kind : Kind} {roles : List (Kind × Bool)}
    (h : kind ∉ roles.map Prod.fst) : kindWeight kind roles = 0 := by
  have hnone : (roles.filter fun r => r.1 = kind) = [] := by
    rw [List.filter_eq_nil_iff]
    intro r hr heq
    exact h (List.mem_map.mpr ⟨r, hr, by simpa using heq⟩)
  rw [kindWeight, hnone]
  rfl

/-- Distinct kinds: a kind of path is listed once. -/
theorem kindWeight_le {roles : List (Kind × Bool)} (h : (roles.map Prod.fst).Nodup)
    (kind : Kind) : kindWeight kind roles ≤ 2 := by
  induction roles with
  | nil => exact Nat.zero_le 2
  | cons r l ih =>
    obtain ⟨hr, hl⟩ := List.nodup_cons.mp h
    rw [kindWeight_cons]
    split
    · next heq =>
      rw [kindWeight_eq_zero (heq ▸ hr)]
      exact roleWeight_le r
    · rw [Nat.zero_add]
      exact ih hl

/-! ### Reaching a directory again -/

/-- What reaching a directory along a path does to its roles. -/
inductive RolesTo (p : Pending) (roles : List (Kind × Bool)) :
    List (Kind × Bool) → Bool → Bool → Prop
  /-- A loop, or no room for another kind of path. -/
  | keep : RolesTo p roles roles false false
  /-- A new kind of path. -/
  | add : p.kind ∉ roles.map Prod.fst → roles.length < maxRoles →
      RolesTo p roles (roles ++ [(p.kind, p.followed)]) true false
  /-- A known kind of path, which may be followed from now on. -/
  | follow {l l' : List (Kind × Bool)} {f upgraded : Bool} :
      roles = l ++ (p.kind, f) :: l' → (upgraded = true → f = false ∧ p.followed = true) →
      RolesTo p roles (l ++ (p.kind, f || p.followed) :: l') false upgraded

theorem reach_rolesTo (ifd : Ifd) (p : Pending) :
    RolesTo p ifd.roles (reach ifd p).1.roles (reach ifd p).2.1 (reach ifd p).2.2 := by
  rw [reach]
  dsimp only
  generalize (_ && ifd.page.isSome) = looped
  cases hrole : ifd.roles.findIdx? fun r => decide (r.1 = p.kind) with
  | none =>
    have hnew : p.kind ∉ ifd.roles.map Prod.fst := by
      rw [List.findIdx?_eq_none_iff] at hrole
      intro hmem
      obtain ⟨r, hr, heq⟩ := List.mem_map.mp hmem
      simpa [heq] using hrole r hr
    cases looped with
    | true => exact .keep
    | false =>
      by_cases hroom : ifd.roles.length < maxRoles
      · simpa [hroom] using RolesTo.add hnew hroom
      · have hkeep : RolesTo p ifd.roles ifd.roles false false := .keep
        simpa [hroom] using hkeep
  | some r =>
    obtain ⟨hr, hkind, -⟩ := List.findIdx?_eq_some_iff_getElem.mp hrole
    obtain ⟨l, a, l', hl, hlen, hmod⟩ :=
      List.exists_of_modify (fun k : Kind × Bool => (k.1, k.2 || p.followed)) hr
    have ha : ifd.roles[r]? = some a := by simp [hl, ← hlen]
    have hkinda : a.1 = p.kind := by
      have : ifd.roles[r] = a := by simpa [List.getElem?_eq_getElem hr] using ha
      simpa [this] using hkind
    cases looped with
    | true => exact .keep
    | false =>
      have hfollow : RolesTo p ifd.roles (l ++ (p.kind, a.2 || p.followed) :: l') false
          (p.followed && !a.2) := .follow (hkinda ▸ hl) fun h => by simpa [and_comm] using h
      simpa [ha, hmod, hkinda] using hfollow

namespace RolesTo

variable {p : Pending} {roles roles' : List (Kind × Bool)} {newKind upgraded : Bool}

theorem length_le (h : RolesTo p roles roles' newKind upgraded)
    (hlen : roles.length ≤ maxRoles) : roles'.length ≤ maxRoles := by
  cases h with
  | keep => exact hlen
  | add _ hroom => simpa using hroom
  | follow hroles _ => simpa [hroles] using hlen

theorem nodup (h : RolesTo p roles roles' newKind upgraded)
    (hnodup : (roles.map Prod.fst).Nodup) : (roles'.map Prod.fst).Nodup := by
  cases h with
  | keep => exact hnodup
  | add hnew _ =>
    rw [List.map_append, List.nodup_append]
    refine ⟨hnodup, List.nodup_singleton _, ?_⟩
    intro k hk k' hk' heq
    obtain rfl : k' = p.kind := by simpa using hk'
    exact hnew (heq ▸ hk)
  | follow hroles _ => simpa [hroles] using hnodup

theorem roleWeight_follow (k : Kind) (f g : Bool) :
    roleWeight (k, f) ≤ roleWeight (k, f || g) := by
  cases f <;> cases g <;> simp [roleWeight]

/-- No path gets less far. -/
theorem kindWeight_mono (h : RolesTo p roles roles' newKind upgraded) (kind : Kind) :
    kindWeight kind roles ≤ kindWeight kind roles' := by
  cases h with
  | keep => exact le_rfl
  | add => exact (kindWeight_append kind _ _) ▸ Nat.le_add_right _ _
  | @follow l l' f _ hroles _ =>
    have := roleWeight_follow p.kind f p.followed
    rw [hroles, kindWeight_append, kindWeight_append, kindWeight_cons, kindWeight_cons]
    dsimp only
    split <;> omega

theorem fullWeight_mono (h : RolesTo p roles roles' newKind upgraded) :
    fullWeight roles ≤ fullWeight roles' := by
  cases h with
  | keep => exact le_rfl
  | add => exact (fullWeight_append _ _) ▸ Nat.le_add_right _ _
  | @follow l l' f _ hroles _ =>
    have := roleWeight_follow p.kind f p.followed
    rw [hroles, fullWeight_append, fullWeight_append, fullWeight_cons, fullWeight_cons]
    omega

/-- A path whose pointers get queued has got further. -/
theorem kindWeight_lt (h : RolesTo p roles roles' newKind upgraded)
    (hdid : newKind = true ∨ upgraded = true) :
    kindWeight p.kind roles < kindWeight p.kind roles' := by
  cases h with
  | keep => simp at hdid
  | add =>
    have := roleWeight_pos (p.kind, p.followed)
    rw [kindWeight_append, kindWeight_cons, if_pos rfl, kindWeight_nil]
    omega
  | @follow l l' f _ hroles hup =>
    obtain ⟨hf, hfollowed⟩ := hup (by simpa using hdid)
    rw [hroles, kindWeight_append, kindWeight_append, kindWeight_cons, kindWeight_cons, hf,
      hfollowed]
    simp [roleWeight]

theorem fullWeight_lt (h : RolesTo p roles roles' newKind upgraded)
    (hdid : newKind = true ∨ upgraded = true) : fullWeight roles < fullWeight roles' := by
  cases h with
  | keep => simp at hdid
  | add =>
    have := roleWeight_pos (p.kind, p.followed)
    rw [fullWeight_append, fullWeight_cons, fullWeight_nil]
    omega
  | @follow l l' f _ hroles hup =>
    obtain ⟨hf, hfollowed⟩ := hup (by simpa using hdid)
    rw [hroles, fullWeight_append, fullWeight_append, fullWeight_cons, fullWeight_cons, hf,
      hfollowed]
    simp [roleWeight]

end RolesTo

/-! ### Caps -/

/-- How far the paths of one kind to the directory at an offset have got. -/
def Walk.weight (w : Walk) (off : ℕ) (kind : Kind) : ℕ :=
  (w.ifds.map fun ifd => if ifd.pos = off then kindWeight kind ifd.roles else 0).sum

/-- How far all paths have got. -/
def Walk.fullWeight (w : Walk) : ℕ := (w.ifds.map fun ifd => Tiff.fullWeight ifd.roles).sum

/-- The caps a walk keeps: `budget` is the entry budget it started with, and `queued` lists
whose pointers have been queued, as which kind. -/
structure Bounded (budget : ℕ) (w : Walk) (queued : List (ℕ × Kind)) : Prop where
  ifds_le : w.ifds.length ≤ maxIfds
  byAt_eq : w.byAt = (w.ifds.map Ifd.pos).zipIdx
  nodup : (w.ifds.map Ifd.pos).Nodup
  roles_le : ∀ roles ∈ w.ifds.map Ifd.roles, roles.length ≤ maxRoles
  roles_nodup : ∀ roles ∈ w.ifds.map Ifd.roles, (roles.map Prod.fst).Nodup
  entries_eq : (w.ifds.map fun ifd => ifd.entries.length).sum + w.entriesLeft = budget
  queued_le : ∀ off kind, queued.count (off, kind) ≤ w.weight off kind

/-- A property of directories that ignores remarks. -/
theorem Walk.Same.map_eq {α : Type} {w w' : Walk} (h : w.Same w') {f : Ifd → α}
    (hf : ∀ ifd, f ifd.bare = f ifd) : w'.ifds.map f = w.ifds.map f := by
  have hmap : ∀ l : List Ifd, l.map f = (l.map Ifd.bare).map f := by
    intro l
    rw [List.map_map]
    exact List.map_congr_left fun ifd _ => (hf ifd).symm
  rw [hmap, hmap w.ifds, h.ifds]

theorem bare_entries_length (ifd : Ifd) : ifd.bare.entries.length = ifd.entries.length :=
  List.length_map ..

theorem Walk.Same.weight_eq {w w' : Walk} (h : w.Same w') (off : ℕ) (kind : Kind) :
    w'.weight off kind = w.weight off kind := by
  rw [Walk.weight, Walk.weight, h.map_eq fun _ => rfl]

theorem Walk.Same.fullWeight_eq {w w' : Walk} (h : w.Same w') :
    w'.fullWeight = w.fullWeight := by
  rw [Walk.fullWeight, Walk.fullWeight, h.map_eq fun _ => rfl]

theorem Bounded.of_same {budget : ℕ} {w w' : Walk} {queued : List (ℕ × Kind)}
    (h : Bounded budget w queued) (hw : w.Same w') : Bounded budget w' queued where
  ifds_le := hw.length_ifds ▸ h.ifds_le
  byAt_eq := by rw [hw.byAt, h.byAt_eq, hw.map_eq (f := Ifd.pos) fun _ => rfl]
  nodup := hw.map_eq (f := Ifd.pos) (fun _ => rfl) ▸ h.nodup
  roles_le := hw.map_eq (f := Ifd.roles) (fun _ => rfl) ▸ h.roles_le
  roles_nodup := hw.map_eq (f := Ifd.roles) (fun _ => rfl) ▸ h.roles_nodup
  entries_eq := by
    rw [hw.map_eq (f := fun ifd => ifd.entries.length) bare_entries_length, hw.entriesLeft]
    exact h.entries_eq
  queued_le off kind := by
    rw [hw.weight_eq]
    exact h.queued_le off kind

/-! ### Reaching a recorded directory -/

theorem Walk.modifyIfd_ifds {w : Walk} {i : ℕ} {ifd : Ifd} (hifd : w.ifds[i]? = some ifd)
    (ifd' : Ifd) : ∃ l l', w.ifds = l ++ ifd :: l' ∧
      (w.modifyIfd i fun _ => ifd').ifds = l ++ ifd' :: l' := by
  obtain ⟨hi, -⟩ := List.getElem?_eq_some_iff.mp hifd
  obtain ⟨l, a, l', hl, hlen, hmod⟩ := List.exists_of_modify (fun _ : Ifd => ifd') hi
  obtain rfl : a = ifd := by simpa [hl, ← hlen] using hifd
  exact ⟨l, l', hl, hmod⟩

theorem Bounded.drop_last {budget : ℕ} {w : Walk} {queued : List (ℕ × Kind)}
    {x : ℕ × Kind} (h : Bounded budget w (queued ++ [x])) : Bounded budget w queued :=
  { h with
    queued_le := fun off kind =>
      ((List.sublist_append_left _ _).count_le _).trans (h.queued_le off kind) }

section Reach

variable {budget : ℕ} {w : Walk} {queued : List (ℕ × Kind)} {p : Pending} {idx : ℕ} {ifd : Ifd}

theorem weight_reach (hifd : w.ifds[idx]? = some ifd) (off : ℕ) (kind : Kind) :
    w.weight off kind ≤ (w.modifyIfd idx fun _ => (reach ifd p).1).weight off kind := by
  obtain ⟨l, l', hl, hmod⟩ := Walk.modifyIfd_ifds hifd (reach ifd p).1
  have hmono := (reach_rolesTo ifd p).kindWeight_mono kind
  have hpos : (reach ifd p).1.pos = ifd.pos := rfl
  rw [Walk.weight, Walk.weight, hl, hmod]
  simp only [List.map_append, List.map_cons, List.sum_append, List.sum_cons, hpos]
  split <;> omega

theorem weight_reach_lt (hifd : w.ifds[idx]? = some ifd)
    (hdid : (reach ifd p).2.1 = true ∨ (reach ifd p).2.2 = true) :
    w.weight ifd.pos p.kind <
      (w.modifyIfd idx fun _ => (reach ifd p).1).weight ifd.pos p.kind := by
  obtain ⟨l, l', hl, hmod⟩ := Walk.modifyIfd_ifds hifd (reach ifd p).1
  have hlt := (reach_rolesTo ifd p).kindWeight_lt hdid
  have hpos : (reach ifd p).1.pos = ifd.pos := rfl
  rw [Walk.weight, Walk.weight, hl, hmod]
  simp only [List.map_append, List.map_cons, List.sum_append, List.sum_cons, hpos, if_true]
  omega

theorem fullWeight_reach (hifd : w.ifds[idx]? = some ifd) :
    w.fullWeight ≤ (w.modifyIfd idx fun _ => (reach ifd p).1).fullWeight := by
  obtain ⟨l, l', hl, hmod⟩ := Walk.modifyIfd_ifds hifd (reach ifd p).1
  have hmono := (reach_rolesTo ifd p).fullWeight_mono
  rw [Walk.fullWeight, Walk.fullWeight, hl, hmod]
  simp only [List.map_append, List.map_cons, List.sum_append, List.sum_cons]
  omega

theorem fullWeight_reach_lt (hifd : w.ifds[idx]? = some ifd)
    (hdid : (reach ifd p).2.1 = true ∨ (reach ifd p).2.2 = true) :
    w.fullWeight < (w.modifyIfd idx fun _ => (reach ifd p).1).fullWeight := by
  obtain ⟨l, l', hl, hmod⟩ := Walk.modifyIfd_ifds hifd (reach ifd p).1
  have hlt := (reach_rolesTo ifd p).fullWeight_lt hdid
  rw [Walk.fullWeight, Walk.fullWeight, hl, hmod]
  simp only [List.map_append, List.map_cons, List.sum_append, List.sum_cons]
  omega

/-- Reaching a directory again keeps the caps. -/
theorem Bounded.reach (h : Bounded budget w queued) (hifd : w.ifds[idx]? = some ifd) :
    Bounded budget (w.modifyIfd idx fun _ => (Tiff.reach ifd p).1) queued := by
  obtain ⟨l, l', hl, hmod⟩ := Walk.modifyIfd_ifds hifd (Tiff.reach ifd p).1
  have hroles := reach_rolesTo ifd p
  have hposs : (w.modifyIfd idx fun _ => (Tiff.reach ifd p).1).ifds.map Ifd.pos =
      w.ifds.map Ifd.pos := by
    rw [hl, hmod]
    simp only [List.map_append, List.map_cons]
    rfl
  have hmem : ifd.roles ∈ w.ifds.map Ifd.roles := by simp [hl]
  constructor
  case ifds_le =>
    have := h.ifds_le
    rw [hl] at this
    simpa [hmod] using this
  case byAt_eq =>
    rw [hposs]
    exact h.byAt_eq
  case nodup => exact hposs ▸ h.nodup
  case roles_le =>
    intro roles hmem'
    rw [hmod, List.map_append, List.map_cons, List.mem_append, List.mem_cons] at hmem'
    rcases hmem' with hmem' | rfl | hmem'
    · exact h.roles_le roles (by simp [hl, hmem'])
    · exact hroles.length_le (h.roles_le _ hmem)
    · exact h.roles_le roles (by simp [hl, hmem'])
  case roles_nodup =>
    intro roles hmem'
    rw [hmod, List.map_append, List.map_cons, List.mem_append, List.mem_cons] at hmem'
    rcases hmem' with hmem' | rfl | hmem'
    · exact h.roles_nodup roles (by simp [hl, hmem'])
    · exact hroles.nodup (h.roles_nodup _ hmem)
    · exact h.roles_nodup roles (by simp [hl, hmem'])
  case entries_eq =>
    rw [← h.entries_eq, hl, hmod]
    simp only [List.map_append, List.map_cons]
    rfl
  case queued_le => exact fun off kind => (h.queued_le off kind).trans (weight_reach hifd off kind)

/-- One more queueing, once the path it is for has got further. -/
theorem Bounded.queue {w' : Walk} {off : ℕ} {kind : Kind} (h : Bounded budget w queued)
    (h' : Bounded budget w' queued) (hmono : ∀ off kind, w.weight off kind ≤ w'.weight off kind)
    (hlt : w.weight off kind < w'.weight off kind) :
    Bounded budget w' (queued ++ [(off, kind)]) where
  __ := h'
  queued_le off' kind' := by
    have hq := h.queued_le off' kind'
    rw [List.count_append, List.count_singleton]
    split
    · next heq =>
      obtain ⟨rfl, rfl⟩ := Prod.mk.inj (beq_iff_eq.mp heq)
      omega
    · have := hmono off' kind'
      omega

end Reach

/-! ### Recording a directory -/

section Record

variable {budget : ℕ} {w : Walk} {queued : List (ℕ × Kind)} {ifd : Ifd} {pos left : ℕ}
  {kind : Kind} {followed : Bool}

theorem readEntries_length (d : Bytes) (lay : Layout) (n : ℕ) : ∀ pos budget : ℕ,
    (readEntries d lay n pos budget).1.length + (readEntries d lay n pos budget).2.1 =
      budget := by
  induction n with
  | zero => exact fun pos budget => Nat.zero_add budget
  | succ n ih =>
    intro pos budget
    rw [readEntries]
    split
    · next h => exact h.symm
    · split
      · exact Nat.zero_add budget
      · have hrest := ih (pos + lay.entryLen) (budget - 1)
        generalize readEntries d lay n (pos + lay.entryLen) (budget - 1) = rest at hrest ⊢
        obtain ⟨es, left, spent⟩ := rest
        dsimp only at hrest ⊢
        rw [List.length_cons]
        omega

/-- A parsed directory takes its entries from the budget. -/
theorem parseIfd_spec {d : Bytes} {lay : Layout} {name : String} {budget : ℕ}
    (h : parseIfd d lay pos kind name followed budget = some (ifd, left)) :
    ifd.pos = pos ∧ ifd.roles = [(kind, followed)] ∧ ifd.entries.length + left = budget := by
  rw [parseIfd] at h
  split at h
  · simp at h
  · split at h
    · obtain ⟨rfl, rfl⟩ : _ ∧ _ := by simpa using h
      exact ⟨rfl, rfl, Nat.zero_add _⟩
    · next count _ =>
      have hlen := readEntries_length d lay count (pos + lay.countLen) budget
      dsimp only at h
      obtain ⟨rfl, rfl⟩ : _ ∧ _ := by simpa using h
      refine ⟨?_, ?_, hlen⟩ <;> dsimp only <;> split <;> rfl

theorem parseIfd_followed {d : Bytes} {lay : Layout} {name : String} {budget : ℕ}
    (h : parseIfd d lay pos kind name followed budget = some (ifd, left)) :
    ifd.followed = followed := by
  rw [parseIfd] at h
  split at h
  · simp at h
  · split at h
    · obtain ⟨rfl, -⟩ : _ ∧ _ := by simpa using h
      rfl
    · dsimp only at h
      obtain ⟨rfl, -⟩ : _ ∧ _ := by simpa using h
      dsimp only
      split <;> rfl

/-- Recording a directory at a new offset keeps the caps. -/
theorem Bounded.record (h : Bounded budget w queued) (hroom : w.ifds.length < maxIfds)
    (hnew : ∀ b ∈ w.byAt, b.1 ≠ pos) (hpos : ifd.pos = pos)
    (hroles : ifd.roles = [(kind, followed)])
    (hentries : ifd.entries.length + left = w.entriesLeft) :
    Bounded budget (Tiff.record { w with entriesLeft := left } ifd pos)
      (queued ++ [(pos, kind)]) := by
  have hnew' : pos ∉ w.ifds.map Ifd.pos := by
    intro hmem
    obtain ⟨i, hi, heq⟩ := List.mem_iff_getElem.mp hmem
    refine hnew (pos, i) ?_ rfl
    rw [h.byAt_eq, List.mem_zipIdx_iff_getElem?]
    exact List.getElem?_eq_some_iff.mpr ⟨hi, heq⟩
  have hweight : ∀ off kind', (Tiff.record { w with entriesLeft := left } ifd pos).weight off
      kind' = w.weight off kind' + if pos = off then kindWeight kind' ifd.roles else 0 := by
    intro off kind'
    simp [Walk.weight, Tiff.record, hpos]
  constructor
  case ifds_le => simpa [Tiff.record] using hroom
  case byAt_eq => simp [Tiff.record, h.byAt_eq, hpos, List.zipIdx_append]
  case nodup =>
    simp only [Tiff.record, List.map_append, List.map_cons, List.map_nil, hpos]
    exact List.nodup_append.mpr ⟨h.nodup, List.nodup_singleton _,
      fun a ha b hb heq => hnew' (by simp_all)⟩
  case roles_le =>
    intro roles hmem
    simp only [Tiff.record, List.map_append, List.mem_append] at hmem
    rcases hmem with hmem | hmem
    · exact h.roles_le roles hmem
    · obtain rfl : roles = ifd.roles := by simpa using hmem
      rw [hroles]
      exact Nat.succ_le_of_lt (by decide)
  case roles_nodup =>
    intro roles hmem
    simp only [Tiff.record, List.map_append, List.mem_append] at hmem
    rcases hmem with hmem | hmem
    · exact h.roles_nodup roles hmem
    · obtain rfl : roles = ifd.roles := by simpa using hmem
      rw [hroles]
      exact List.nodup_singleton _
  case entries_eq =>
    have := h.entries_eq
    simp only [Tiff.record, List.map_append, List.map_cons, List.map_nil, List.sum_append,
      List.sum_singleton]
    omega
  case queued_le =>
    intro off kind'
    have hq := h.queued_le off kind'
    rw [hweight, List.count_append, List.count_singleton]
    split
    · next heq =>
      obtain ⟨rfl, rfl⟩ := Prod.mk.inj (beq_iff_eq.mp heq)
      have := roleWeight_pos (kind, followed)
      simp only [hroles, if_true, kindWeight_cons, kindWeight_nil]
      omega
    · omega

theorem fullWeight_record (hroles : ifd.roles = [(kind, followed)]) :
    w.fullWeight < (Tiff.record { w with entriesLeft := left } ifd pos).fullWeight := by
  have := roleWeight_pos (kind, followed)
  simpa [Walk.fullWeight, Tiff.record, hroles] using this

end Record

/-! ### Steps and runs -/

/-- What a step does to the potential: it changes the weights and the queue is not longer,
or some path gets further. -/
structure Progress (st st' : Queue) : Prop where
  mono : st.w.fullWeight ≤ st'.w.fullWeight
  lt_or : st.w.fullWeight < st'.w.fullWeight ∨ st'.queue.length ≤ st.queue.length
  queue_le : st'.queue.length ≤ max st.queue.length maxIfds

/-- **One step** keeps the caps and takes from the potential. -/
theorem step_bounded {budget : ℕ} {queued : List (ℕ × Kind)} (rules : Rules) (st : Queue)
    (p : Pending) (h : Bounded budget st.w queued) :
    Bounded budget (step rules st p).1.w (queued ++ (step rules st p).2.toList) ∧
      Progress st (step rules st p).1 := by
  have hcases := step_cases rules st p
  generalize step rules st p = out at hcases
  obtain ⟨st', did⟩ := out
  cases hcases with
  | skip hsame hq =>
    refine ⟨by simpa using h.of_same hsame, ⟨hsame.fullWeight_eq.ge, Or.inr hq, ?_⟩⟩
    exact hq.trans (le_max_left _ _)
  | @reach _ pos idx ifd hpos hidx hifd hsame hdid =>
    have hmono := (fullWeight_reach (p := p) hifd).trans hsame.fullWeight_eq.ge
    rcases hdid with ⟨rfl, hq⟩ | ⟨rfl, hdid, hq⟩
    · refine ⟨by simpa using (h.reach hifd).of_same hsame, ⟨hmono, Or.inr hq, ?_⟩⟩
      exact hq.trans (le_max_left _ _)
    · have hlt := (fullWeight_reach_lt hifd hdid).trans_le hsame.fullWeight_eq.ge
      refine ⟨?_, hmono, Or.inl hlt, hq⟩
      exact (h.queue (h.reach hifd) (weight_reach hifd) (weight_reach_lt hifd hdid)).of_same hsame
  | @record _ pos left ifd ifd' followed w hpos hnew hlt hsame hparse hbare hrec hdid =>
    obtain ⟨hipos, hroles, hentries⟩ := parseIfd_spec hparse
    have hipos' : ifd'.pos = pos := (congrArg Ifd.pos hbare).trans hipos
    have hroles' : ifd'.roles = [(p.kind, followed)] := (congrArg Ifd.roles hbare).trans hroles
    have hentries' : ifd'.entries.length + left = w.entriesLeft := by
      rw [← hentries, ← bare_entries_length, hbare]
      exact congrArg (· + left) (bare_entries_length ifd)
    have hbounded : Bounded budget st'.w (queued ++ [(ifd'.pos, p.kind)]) := by
      rw [hipos']
      exact ((h.of_same hsame).record (hsame.length_ifds ▸ hlt) (hsame.byAt ▸ hnew) hipos'
        hroles' hentries').of_same hrec
    have hfull : st.w.fullWeight < st'.w.fullWeight := by
      rw [← hsame.fullWeight_eq, hrec.fullWeight_eq]
      exact fullWeight_record hroles'
    rcases hdid with ⟨rfl, hq⟩ | ⟨rfl, hq⟩
    · refine ⟨by simpa using hbounded.drop_last, ⟨hfull.le, Or.inr hq, ?_⟩⟩
      exact hq.trans (le_max_left _ _)
    · exact ⟨hbounded, hfull.le, Or.inl hfull, hq⟩

/-- What is left to do: the weights still to come, each worth more than a full queue, and
the directories pending. -/
def potential (st : Queue) : ℕ :=
  (2 * maxRoles * maxIfds - st.w.fullWeight) * (maxIfds + 1) + st.queue.length

theorem Bounded.fullWeight_le {budget : ℕ} {w : Walk} {queued : List (ℕ × Kind)}
    (h : Bounded budget w queued) : w.fullWeight ≤ 2 * maxRoles * maxIfds := by
  have hsum : ∀ l : List Ifd, (∀ roles ∈ l.map Ifd.roles, roles.length ≤ maxRoles) →
      (l.map fun ifd => Tiff.fullWeight ifd.roles).sum ≤ 2 * maxRoles * l.length := by
    intro l
    induction l with
    | nil => exact fun _ => Nat.zero_le _
    | cons ifd l ih =>
      intro hroles
      have hifd := hroles ifd.roles (by simp)
      have hrest := ih fun roles hmem => hroles roles (by simp_all)
      have hweight := Tiff.fullWeight_le ifd.roles
      rw [List.map_cons, List.sum_cons, List.length_cons, Nat.mul_succ]
      omega
  exact (hsum _ h.roles_le).trans (Nat.mul_le_mul_left _ h.ifds_le)

/-- A step takes from the potential. -/
theorem Progress.potential_lt {st st' : Queue} {p : Pending} (h : Progress st st')
    (hqueue : st.queue.length < maxIfds) (hfull : st'.w.fullWeight ≤ 2 * maxRoles * maxIfds) :
    potential st' < potential { st with queue := p :: st.queue } := by
  have hmono := h.mono
  have hq := h.queue_le
  rw [max_eq_right hqueue.le] at hq
  rw [potential, potential, List.length_cons]
  dsimp only
  rcases h.lt_or with hlt | hle
  · -- A heavier path pays for the whole queue.
    have hleft : 2 * maxRoles * maxIfds - st'.w.fullWeight + 1 ≤
        2 * maxRoles * maxIfds - st.w.fullWeight := by omega
    have hpay := Nat.mul_le_mul_right (maxIfds + 1) hleft
    rw [Nat.succ_mul] at hpay
    omega
  · have hleft : 2 * maxRoles * maxIfds - st'.w.fullWeight ≤
        2 * maxRoles * maxIfds - st.w.fullWeight := by omega
    have hpay := Nat.mul_le_mul_right (maxIfds + 1) hleft
    omega

/-- **A run** keeps the caps, and empties the queue when it has fuel for the potential. -/
theorem runQueue_bounded {budget : ℕ} (rules : Rules) : ∀ (fuel : ℕ) (st : Queue)
    (queued : List (ℕ × Kind)), Bounded budget st.w queued → st.queue.length ≤ maxIfds →
    potential st ≤ fuel →
    Bounded budget (runQueue rules fuel st).1.w (queued ++ (runQueue rules fuel st).2) ∧
      (runQueue rules fuel st).1.queue = [] := by
  intro fuel
  induction fuel with
  | zero =>
    intro st queued h _ hfuel
    have hqueue : st.queue = [] := by
      rw [← List.length_eq_zero_iff]
      rw [potential] at hfuel
      omega
    rw [runQueue, List.append_nil]
    exact ⟨h, hqueue⟩
  | succ fuel ih =>
    intro st queued h hlen hfuel
    rw [runQueue]
    split
    · next hqueue =>
      rw [List.append_nil]
      exact ⟨h, hqueue⟩
    · next p rest hqueue =>
      obtain ⟨hstep, hprog⟩ := step_bounded rules { st with queue := rest } p h
      have hrest : rest.length < maxIfds := by
        rw [hqueue] at hlen
        exact hlen
      have hst : ({ st with queue := p :: rest } : Queue) = st := by rw [← hqueue]
      have hlt := hprog.potential_lt (p := p) hrest hstep.fullWeight_le
      dsimp only at hlt ⊢
      rw [hst] at hlt
      have hrun := ih _ _ hstep (hprog.queue_le.trans (max_le hrest.le le_rfl)) (by omega)
      rwa [List.append_assoc] at hrun

/-- What holds when a walk over `limit` bytes has ended: the queue is empty, no more
directories than the cap were parsed, none twice, the pointers of none were queued more
than twice for one kind of path, and the entries read are within the budget. -/
structure WithinCaps (limit : ℕ) (run : Queue × List (ℕ × Kind)) : Prop where
  finished : run.1.queue = []
  ifds_le : run.1.w.ifds.length ≤ maxIfds
  nodup : (run.1.w.ifds.map Ifd.pos).Nodup
  queued_le : ∀ off kind, run.2.count (off, kind) ≤ 2
  entries_le : (run.1.w.ifds.map fun ifd => ifd.entries.length).sum ≤ limit / 12 + maxIfds

/-- Distinct offsets: the paths to one offset are those of one directory. -/
theorem Bounded.weight_le {budget : ℕ} {w : Walk} {queued : List (ℕ × Kind)}
    (h : Bounded budget w queued) (off : ℕ) (kind : Kind) : w.weight off kind ≤ 2 := by
  have hsum : ∀ l : List Ifd, (l.map Ifd.pos).Nodup →
      (∀ roles ∈ l.map Ifd.roles, (roles.map Prod.fst).Nodup) →
      (l.map fun ifd => if ifd.pos = off then kindWeight kind ifd.roles else 0).sum ≤
        if off ∈ l.map Ifd.pos then 2 else 0 := by
    intro l
    induction l with
    | nil => exact fun _ _ => le_rfl
    | cons ifd l ih =>
      intro hnodup hroles
      obtain ⟨hfresh, hnodup⟩ := List.nodup_cons.mp hnodup
      have hifd := kindWeight_le (hroles ifd.roles (by simp)) kind
      have hrest := ih hnodup fun roles hmem => hroles roles (by simp_all)
      rw [List.map_cons, List.sum_cons, List.map_cons]
      by_cases hpos : ifd.pos = off
      · rw [if_neg (hpos ▸ hfresh)] at hrest
        rw [if_pos hpos, if_pos (by simp [hpos])]
        omega
      · rw [if_neg hpos, Nat.zero_add]
        refine hrest.trans ?_
        split
        · next hmem => rw [if_pos (List.mem_cons_of_mem _ hmem)]
        · exact Nat.zero_le _
  refine (hsum _ h.nodup h.roles_nodup).trans ?_
  split <;> omega

theorem Bounded.withinCaps {limit : ℕ} {run : Queue × List (ℕ × Kind)}
    (h : Bounded (entryBudget limit) run.1.w run.2) (hqueue : run.1.queue = []) :
    WithinCaps limit run where
  finished := hqueue
  ifds_le := h.ifds_le
  nodup := h.nodup
  queued_le off kind := (h.queued_le off kind).trans (h.weight_le off kind)
  entries_le := by
    have := h.entries_eq
    rw [entryBudget] at this
    rw [maxIfds]
    omega

theorem WithinCaps.mono {limit limit' : ℕ} {run : Queue × List (ℕ × Kind)}
    (h : WithinCaps limit run) (hle : limit ≤ limit') : WithinCaps limit' run :=
  { h with
    entries_le := h.entries_le.trans
      (Nat.add_le_add_right (Nat.div_le_div_right hle) maxIfds) }

/-- A walk that has read nothing keeps the caps. -/
theorem Bounded.initial {w : Walk} (hifds : w.ifds = []) (hbyAt : w.byAt = []) :
    Bounded w.entriesLeft w [] where
  ifds_le := hifds ▸ Nat.zero_le _
  byAt_eq := by rw [hbyAt, hifds]; rfl
  nodup := hifds ▸ List.nodup_nil
  roles_le := by simp [hifds]
  roles_nodup := by simp [hifds]
  entries_eq := by simp [hifds]
  queued_le := fun _ _ => Nat.zero_le _

theorem walkFrom_withinCaps (rules : Rules) {limit : ℕ} {w : Walk} (hifds : w.ifds = [])
    (hbyAt : w.byAt = []) (hleft : w.entriesLeft = entryBudget limit) (first : Option ℕ)
    (kind : Kind) (name : String) (depth : UInt8) :
    WithinCaps limit (walkFrom rules w first kind name depth) := by
  have hfuel : potential ⟨w, [⟨first, kind, name, true, .header, depth⟩]⟩ ≤ queueFuel := by
    have hle : (2 * maxRoles * maxIfds - w.fullWeight) * (maxIfds + 1) ≤
        2 * maxRoles * maxIfds * (maxIfds + 1) := Nat.mul_le_mul_right _ (Nat.sub_le _ _)
    have hcap : 1 ≤ maxIfds := by decide
    rw [potential, queueFuel, List.length_singleton]
    dsimp only
    omega
  have hcap : 1 ≤ maxIfds := by decide
  obtain ⟨hrun, hqueue⟩ := runQueue_bounded rules queueFuel
    ⟨w, [⟨first, kind, name, true, .header, depth⟩]⟩ [] (hleft ▸ Bounded.initial hifds hbyAt)
    hcap hfuel
  exact hrun.withinCaps hqueue

@[simp]
theorem Walk.start_entriesLeft (data : Bytes) (base limit : ℕ) (lay : Layout)
    (header : Span ℕ) (headerOk : Bool) :
    (Walk.start data base limit lay header headerOk).entriesLeft =
      entryBudget (min limit data.length) := rfl

/-- Reading the header parses no directory. -/
theorem readHeader_fresh (data : Bytes) (base limit : ℕ) (rules : Rules) :
    (readHeader data base limit rules).1.ifds = [] ∧
      (readHeader data base limit rules).1.byAt = [] ∧
      (readHeader data base limit rules).1.entriesLeft =
        entryBudget (min limit data.length) := by
  rw [readHeader]
  dsimp only
  repeat' split
  all_goals exact ⟨rfl, rfl, rfl⟩

theorem headed_fresh (w : Walk) (rules : Rules) : (headed w rules).ifds = w.ifds ∧
    (headed w rules).byAt = w.byAt ∧ (headed w rules).entriesLeft = w.entriesLeft := by
  rw [headed]
  dsimp only
  repeat' split
  all_goals exact ⟨rfl, rfl, rfl⟩

/-- **Every walk ends within its caps**, whether it starts at a header or at a directory,
and whatever the data and the rules are. -/
theorem walk_withinCaps (data : Bytes) (base limit : ℕ) (rules : Rules) :
    WithinCaps limit (walkTraced data base limit rules) ∧
      ∀ (lay : Layout) (pos : ℕ) (kind : Kind) (name : String) (depth : UInt8),
        WithinCaps limit (walkIfdTraced data base limit lay pos kind name depth rules) := by
  constructor
  · obtain ⟨hifds, hbyAt, hleft⟩ := readHeader_fresh data base limit rules
    refine WithinCaps.mono ?_ (min_le_left limit data.length)
    rw [walkTraced]
    split
    · next w hheader =>
      rw [hheader] at hifds hbyAt hleft
      exact Bounded.withinCaps (hleft ▸ Bounded.initial hifds hbyAt) rfl
    · next w ifd0 hheader =>
      rw [hheader] at hifds hbyAt hleft
      obtain ⟨hifds', hbyAt', hleft'⟩ := headed_fresh w rules
      exact walkFrom_withinCaps rules (hifds'.trans hifds) (hbyAt'.trans hbyAt)
        (hleft'.trans hleft) _ _ _ _
  · intro lay pos kind name depth
    exact WithinCaps.mono (walkFrom_withinCaps rules rfl rfl rfl _ _ _ _)
      (min_le_left limit data.length)

/-- Rules that read everything and remark on nothing. -/
def plainRules : Rules where
  magic := fun _ => false
  headerExtension := fun _ => none
  valueTail := fun _ _ _ => none
  chunkUse := fun w _ _ _ _ => ([], w.scanLeft)
  pointer := defaultPointer
  pointerOffsets := fun w e max => w.uints e max
  follows := fun _ _ _ _ => true
  followsNext := fun _ _ _ => true
  ifd := fun _ _ => .new .structure
  entry := fun _ _ _ => .new .structure
  value := fun _ _ _ => .new .structure
  cancelled := fun _ => false
  rejects := fun _ _ _ => none
  extents := defaultExtents (fun _ _ => .new .imageData) (fun _ _ => .new .imageData)
    fun _ _ _ => defaultJpegTable

/-- A little-endian TIFF whose first directory, at 8, has one `SubIFDs` entry, with the
offset 40 three times; the next pointer names the directory itself. -/
def tripledSubIfd : Bytes :=
  [0x49, 0x49, 42, 0, 8, 0, 0, 0,
    1, 0, 0x4A, 0x01, 4, 0, 3, 0, 0, 0, 26, 0, 0, 0, 8, 0, 0, 0,
    40, 0, 0, 0, 40, 0, 0, 0, 40, 0, 0, 0, 0, 0,
    0, 0, 0, 0, 0, 0]

/-- One pointer entry puts a directory on the queue as often as it names it. -/
theorem runQueue_tripledSubIfd :
    (runQueue plainRules 1
      ⟨headed (readHeader tripledSubIfd 0 46 plainRules).1 plainRules,
        [⟨some 8, .page 0, "IFD0", true, .header, 0⟩]⟩).1.queue.countP
          (fun p => p.pos = some 40 ∧ p.kind = .sub) = 3 ∧
      (readHeader tripledSubIfd 0 46 plainRules).2 = some 8 := by
  decide

end Tiff

end Zencodec
