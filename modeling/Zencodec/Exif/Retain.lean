/-
Retention: which bytes of a blob a policy keeps.

`retainReconciled` drops the blob, returns it untouched, patches its orientation in
place, or prunes the tree and writes it anew.  On the pruning route:

* `retain_prune` — the result is the pruned tree, written, and it is read back;
* `entriesOf_filtered` — a pruned directory is the source directory with the entries
  of kept categories that the placement and type rules admit;
* `retain_sound_complete` — no other category reaches the output, and every such
  entry does.
-/
import Zencodec.Exif.Patch

open Slices StableSort

namespace Zencodec.Exif

variable {src d : Bytes} {order : ByteOrder} {O : Type} [Orientation O]

def u32Max : ℕ := 2 ^ 32 - 1

/-- What retention returns: the source itself, or a rewritten blob. -/
inductive Retained
  | borrowed
  | owned (bytes : Bytes)
  deriving DecidableEq, Repr

def Retained.bytes (data : Bytes) : Retained → Bytes
  | .borrowed => data
  | .owned b => b

/-- The pruned tree, its orientation tag reconciled to `want`. -/
def prune (x : Exif src) (policy : ExifPolicy) (want : Option O) : Exif src :=
  match want with
  | some o => (x.filtered policy).setOrientationTag o
  | none => x.filtered policy

@[simp] theorem prune_none (x : Exif src) (policy : ExifPolicy) :
    x.prune policy (none : Option O) = x.filtered policy := rfl

@[simp] theorem prune_some (x : Exif src) (policy : ExifPolicy) (o : O) :
    x.prune policy (some o) = (x.filtered policy).setOrientationTag o := rfl

/-- No directory with anything in it. -/
def nothingLeft (x : Exif src) : Bool :=
  x.ifd0.isEmpty && x.exifIfd.isNone && x.gpsIfd.isNone && x.ifd1.isNone

/-- The most a rewrite of `n` bytes may take. -/
def sizeCap (n : ℕ) : ℕ := min (n * 2 + 1024) u32Max

/-- Apply a policy to a blob and reconcile the orientation tag to `want`. -/
def retainReconciled [DecidableEq O] (data : Bytes) (policy : ExifPolicy) (want : Option O) :
    Option Retained :=
  if policy.discardsEverything then none
  else if policy.keepsEverything && want.isNone then some .borrowed
  else if u32Max < data.length then if policy.keepsEverything then some .borrowed else none
  else
    match parse data with
    | none => if policy.keepsEverything then some .borrowed else none
    | some x =>
      if policy.keepsEverything then
        match want with
        | none => some .borrowed
        | some o =>
          if x.orientation = some o then some .borrowed
          else
            match setOrientationWith data x o with
            | some v => some (.owned v)
            | none => some .borrowed
      else
        let pruned := x.prune policy want
        if pruned.nothingLeft then none
        else if sizeCap data.length < pruned.serializedLen then none
        else some (.owned pruned.toBytes)

/-! ### Placement and type rules -/

/-- The rules a rewrite puts on an entry of IFD0, IFD1 or the Exif IFD, whatever the
policy. -/
def admits (order : ByteOrder) (exifDirectory : Bool) (e : Entry src) : Bool :=
  if e.tag ∈ offsetTags then false
  else if e.tag = tagMakerNote then false
  else if e.tag = tagOrientation then
    !exifDirectory && e.count = 1 && (e.kind = tiffShort || e.kind = tiffLong)
      && (readUint e order).any fun v => 1 ≤ v && v ≤ 8
  else if e.tag = tagColorSpace then exifDirectory && e.kind = tiffShort && e.count = 1
  else if e.tag = tagGamma then
    exifDirectory && e.kind = tiffRational && e.count = 1
      && (rd32 e.value.bytes 0 order).any (· ≠ 0) && (rd32 e.value.bytes 4 order).any (· ≠ 0)
  else if e.tag ∈ [tagCopyright, tagArtist, tagPhotographer, tagImageEditor] then
    exifDirectory = (e.tag = tagPhotographer || e.tag = tagImageEditor)
      && (e.kind = tiffAscii || e.kind = tiffUtf8)
  else true

/-- The filter keeps what the rules admit of the categories kept. -/
theorem keep_eq (policy : ExifPolicy) (dir : Bool) (e : Entry src) :
    keep policy order dir e = (admits order dir e && policy.keeps (classify e.tag)) := by
  unfold keep admits
  by_cases hoff : e.tag ∈ offsetTags
  · simp only [if_pos hoff, Bool.false_and]
  rw [if_neg hoff, if_neg hoff]
  by_cases hmaker : e.tag = tagMakerNote
  · simp only [if_pos hmaker, Bool.false_and]
  rw [if_neg hmaker, if_neg hmaker]
  by_cases horient : e.tag = tagOrientation
  · have hc : policy.keeps (classify e.tag) = policy.orientation.keeps := by rw [horient]; rfl
    rw [if_pos horient, if_pos horient, hc]
    cases policy.orientation.keeps <;> simp
  rw [if_neg horient, if_neg horient]
  by_cases hspace : e.tag = tagColorSpace
  · have hc : policy.keeps (classify e.tag) = policy.color.keeps := by rw [hspace]; rfl
    rw [if_pos hspace, if_pos hspace, hc]
    cases policy.color.keeps <;> simp
  rw [if_neg hspace, if_neg hspace]
  by_cases hgamma : e.tag = tagGamma
  · have hc : policy.keeps (classify e.tag) = policy.color.keeps := by rw [hgamma]; rfl
    rw [if_pos hgamma, if_pos hgamma, hc]
    cases policy.color.keeps <;> simp
  rw [if_neg hgamma, if_neg hgamma]
  by_cases hrights : e.tag ∈ [tagCopyright, tagArtist, tagPhotographer, tagImageEditor]
  · have hc : policy.keeps (classify e.tag) = policy.rights.keeps := by
      simp only [List.mem_cons, List.not_mem_nil, or_false] at hrights
      rcases hrights with h | h | h | h <;> rw [h] <;> rfl
    rw [if_pos hrights, if_pos hrights, hc]
    cases policy.rights.keeps <;> simp
  · rw [if_neg hrights, if_neg hrights, Bool.true_and]

/-! ### Directories by name -/

/-- The directories of a tree. -/
inductive Ifd
  | ifd0
  | exif
  | interop
  | gps
  | ifd1
  deriving DecidableEq, Repr

/-- The entries of a directory, none when it is absent. -/
def entriesOf (x : Exif src) : Ifd → List (Entry src)
  | .ifd0 => x.ifd0
  | .exif => x.exifIfd.getD []
  | .interop => x.interopIfd.getD []
  | .gps => x.gpsIfd.getD []
  | .ifd1 => x.ifd1.getD []

/-- Whether the policy keeps the category of an entry: the Interop IFD is colour
signalling, the GPS IFD and IFD1 go as a whole. -/
def ExifPolicy.keepsIn (policy : ExifPolicy) (ifd : Ifd) (e : Entry src) : Bool :=
  match ifd with
  | .ifd0 => policy.keeps (classify e.tag)
  | .exif => policy.keeps (classify e.tag)
  | .interop => policy.color.keeps
  | .gps => policy.gps.keeps
  | .ifd1 => policy.thumbnail.keeps && policy.keeps (classify e.tag)

/-- The placement and type rules of a directory. -/
def admitsIn (order : ByteOrder) (ifd : Ifd) (e : Entry src) : Bool :=
  match ifd with
  | .ifd0 => admits order false e
  | .exif => admits order true e
  | .interop => keepInterop e
  | .gps => true
  | .ifd1 => admits order false e

theorem getD_filter_isEmpty (o : Option (List (Entry src))) (b : Bool) :
    (o.filter fun l => !l.isEmpty || b).getD [] = o.getD [] := by
  cases o with
  | none => rfl
  | some l =>
    cases l with
    | nil => cases b <;> rfl
    | cons e l => rfl

theorem getD_map_filter (o : Option (List (Entry src))) (p : Entry src → Bool) :
    (o.map (List.filter p)).getD [] = (o.getD []).filter p := by
  cases o <;> rfl

/-- A pruned directory: the entries of kept categories that the rules admit. -/
theorem entriesOf_filtered {x : Exif src} (h : Reproducible x) (policy : ExifPolicy)
    (ifd : Ifd) : (x.filtered policy).entriesOf ifd =
      (x.entriesOf ifd).filter fun e => admitsIn x.order ifd e && policy.keepsIn ifd e := by
  cases ifd with
  | ifd0 => exact List.filter_congr fun e _ => keep_eq policy false e
  | exif =>
    simp only [entriesOf, filtered]
    rw [getD_filter_isEmpty, getD_map_filter]
    exact List.filter_congr fun e _ => keep_eq policy true e
  | interop =>
    simp only [entriesOf, filtered, admitsIn, ExifPolicy.keepsIn]
    cases hc : policy.color.keeps with
    | false => simp
    | true =>
      cases hx : x.exifIfd with
      | none =>
        have hi : x.interopIfd = none := by
          have := h.interopParent
          rw [hx] at this
          simpa using this
        simp [hi]
      | some e =>
        simp only [Option.isSome_some, Bool.and_self, if_true, Bool.and_true]
        have := getD_filter_isEmpty (x.interopIfd.map (List.filter keepInterop)) false
        simp only [Bool.or_false] at this
        rw [this, getD_map_filter]
  | gps =>
    simp only [entriesOf, filtered, admitsIn, ExifPolicy.keepsIn, Bool.true_and]
    cases policy.gps.keeps <;> simp
  | ifd1 =>
    simp only [entriesOf, filtered, admitsIn, ExifPolicy.keepsIn]
    cases policy.thumbnail.keeps with
    | false => simp
    | true =>
      simp only [if_true, Bool.true_and]
      rw [getD_map_filter]
      exact List.filter_congr fun e _ => keep_eq policy false e

/-! ### Editing one entry -/

section EditFirst

variable {tag : UInt16} {f : Entry src → Entry src}

theorem length_editFirst (es : List (Entry src)) :
    (editFirst tag f es).length = es.length := by
  induction es with
  | nil => rfl
  | cons e es ih =>
    rw [editFirst]
    split <;> simp [ih]

theorem isEmpty_editFirst (es : List (Entry src)) :
    (editFirst tag f es).isEmpty = es.isEmpty := by
  cases es with
  | nil => rfl
  | cons e es =>
    rw [editFirst]
    split <;> rfl

theorem mem_editFirst {es : List (Entry src)} {e : Entry src} (h : e ∈ editFirst tag f es) :
    e ∈ es ∨ ∃ e0, es.find? (fun e => e.tag = tag) = some e0 ∧ e = f e0 := by
  induction es with
  | nil => exact absurd h (by simp [editFirst])
  | cons a es ih =>
    rw [editFirst] at h
    split at h
    · next ha =>
      rcases List.mem_cons.mp h with rfl | h
      · exact .inr ⟨a, by rw [List.find?_cons_of_pos (by simpa using ha)], rfl⟩
      · exact .inl (List.mem_cons_of_mem _ h)
    · next ha =>
      rcases List.mem_cons.mp h with rfl | h
      · exact .inl List.mem_cons_self
      · rw [List.find?_cons_of_neg (by simpa using ha)]
        exact (ih h).imp_left (List.mem_cons_of_mem _)

theorem find?_editFirst (hf : ∀ e, e.tag = tag → (f e).tag = tag) (es : List (Entry src)) :
    (editFirst tag f es).find? (fun e => e.tag = tag) =
      (es.find? fun e => e.tag = tag).map f := by
  induction es with
  | nil => rfl
  | cons a es ih =>
    rw [editFirst]
    split
    · next ha =>
      rw [List.find?_cons_of_pos (by simpa using hf a ha),
        List.find?_cons_of_pos (by simpa using ha), Option.map_some]
    · next ha =>
      rw [List.find?_cons_of_neg (by simpa using ha),
        List.find?_cons_of_neg (by simpa using ha), ih]

theorem eraseP_editFirst (hf : ∀ e, e.tag = tag → (f e).tag = tag) (es : List (Entry src)) :
    (editFirst tag f es).eraseP (fun e => e.tag = tag) =
      es.eraseP fun e => e.tag = tag := by
  induction es with
  | nil => rfl
  | cons a es ih =>
    rw [editFirst]
    split
    · next ha =>
      rw [List.eraseP_cons_of_pos (by simpa using hf a ha),
        List.eraseP_cons_of_pos (by simpa using ha)]
    · next ha =>
      rw [List.eraseP_cons_of_neg (by simpa using ha),
        List.eraseP_cons_of_neg (by simpa using ha), ih]

theorem filter_editFirst (hf : ∀ e, e.tag = tag → (f e).tag = tag) {t : UInt16} (ht : t ≠ tag)
    (es : List (Entry src)) :
    (editFirst tag f es).filter (fun e => e.tag = t) = es.filter fun e => e.tag = t := by
  induction es with
  | nil => rfl
  | cons a es ih =>
    rw [editFirst]
    split
    · next ha =>
      rw [List.filter_cons_of_neg (by simpa [hf a ha] using ht.symm),
        List.filter_cons_of_neg (by simpa [ha] using ht.symm)]
    · rw [List.filter_cons, List.filter_cons, ih]

/-- An edit that shows in no image of the entry shows in no image of the list. -/
theorem map_editFirst {β : Type} {g : Entry src → β} {es : List (Entry src)}
    (h : ∀ e, es.find? (fun e => e.tag = tag) = some e → g (f e) = g e) :
    (editFirst tag f es).map g = es.map g := by
  induction es with
  | nil => rfl
  | cons a es ih =>
    rw [editFirst]
    split
    · next ha =>
      rw [List.map_cons, List.map_cons, h a (List.find?_cons_of_pos (by simpa using ha))]
    · next ha =>
      rw [List.map_cons, List.map_cons, ih fun e he => h e (by
        rwa [List.find?_cons_of_neg (by simpa using ha)])]

end EditFirst

@[simp] theorem Entry.setInt_tag (e : Entry src) (v : UInt32) : (e.setInt v order).tag = e.tag := by
  unfold Entry.setInt
  split <;> rfl

theorem Entry.setInt_tag_of {e : Entry src} {v : UInt32} {t : UInt16} (h : e.tag = t) :
    (e.setInt v order).tag = t := (e.setInt_tag v).trans h

theorem intBytes_length {kind : UInt16} {v : UInt32} {b : Bytes}
    (h : intBytes kind v order = some b) : typeSize kind = some b.length ∧ b.length ≤ 4 := by
  unfold intBytes at h
  split at h
  · next hk =>
    obtain rfl := Option.some_inj.mp h
    rw [hk, wordBytes_length]
    exact ⟨typeSize_short, by omega⟩
  · split at h
    · next hk =>
      obtain rfl := Option.some_inj.mp h
      rw [hk, wordBytes_length]
      exact ⟨typeSize_long, by omega⟩
    · exact absurd h (by simp)

theorem Entry.Sound.setInt {e : Entry src} (h : e.Sound) (v : UInt32) :
    (e.setInt v order).Sound := by
  unfold Entry.setInt
  split
  · next b hb => exact ⟨b.length, (intBytes_length hb).1, by simp [Cow.bytes]⟩
  · exact h

/-- Whether a pointer tag is safe depends on the entries with that tag. -/
theorem PointerOk.of_filter {β : Type} {child : Option β} {tag : UInt16}
    {es es' : List (Entry src)} (h : PointerOk child tag es)
    (hfilter : es'.filter (fun e => e.tag = tag) = es.filter fun e => e.tag = tag) :
    PointerOk child tag es' := by
  refine ⟨fun hc e he heq => ?_, fun hc => ?_⟩
  · have hmem : e ∈ es'.filter fun e => e.tag = tag :=
      List.mem_filter.mpr ⟨he, by simpa using heq⟩
    rw [hfilter] at hmem
    exact h.1 hc e (List.mem_filter.mp hmem).1 heq
  · exact FirstShort.of_fields (by rw [hfilter]) (h.2 hc)

theorem setOrientationTag_reproducible {x : Exif src} (h : Reproducible x) (o : O) :
    Reproducible (x.setOrientationTag o) := by
  have hptr : ∀ {β : Type} (child : Option β) (tag : UInt16), tag ≠ tagOrientation →
      PointerOk child tag x.ifd0 → PointerOk child tag (x.setOrientationTag o).ifd0 := by
    intro β child tag hne hp
    exact hp.of_filter (filter_editFirst (fun _ => Entry.setInt_tag_of) hne x.ifd0)
  refine { h with
    ifd0Ok := ⟨fun e he => ?_, ?_⟩
    exifPtr := hptr _ _ (by decide) h.exifPtr
    gpsPtr := hptr _ _ (by decide) h.gpsPtr }
  · rcases mem_editFirst he with he | ⟨e0, he0, rfl⟩
    · exact h.ifd0Ok.sound e he
    · exact (h.ifd0Ok.sound e0 (List.mem_of_find?_eq_some he0)).setInt _
  · rw [setOrientationTag, length_editFirst]
    exact h.ifd0Ok.room

theorem prune_reproducible {x : Exif src} (h : Reproducible x) (policy : ExifPolicy)
    (want : Option O) : Reproducible (x.prune policy want) := by
  cases want with
  | none => exact filtered_reproducible h policy
  | some o => exact setOrientationTag_reproducible (filtered_reproducible h policy) o

/-! ### The pruning route -/

/-- What the pruning route returns, when it returns a blob. -/
structure Pruned (data : Bytes) (policy : ExifPolicy) (x : Exif (tiffOf data))
    (want : Option O) : Prop where
  parsed : parse data = some x
  kept : policy.discardsEverything = false
  left : (x.prune policy want).nothingLeft = false
  small : data.length ≤ u32Max
  cap : (x.prune policy want).serializedLen ≤ sizeCap data.length

theorem retain_prune [DecidableEq O] {data : Bytes} {policy : ExifPolicy} {want : Option O}
    {r : Retained} (hk : policy.keepsEverything = false)
    (h : retainReconciled data policy want = some r) :
    ∃ x, Pruned data policy x want ∧ r = .owned (x.prune policy want).toBytes := by
  unfold retainReconciled at h
  simp only [hk, Bool.false_and, Bool.false_eq_true, if_false] at h
  split at h
  · exact absurd h (by simp)
  · next hd =>
    split at h
    · exact absurd h (by simp)
    · next hlen =>
      split at h
      · exact absurd h (by simp)
      · next x hx =>
        split at h
        · exact absurd h (by simp)
        · next hleft =>
          split at h
          · exact absurd h (by simp)
          · next hcap =>
            exact ⟨x, ⟨hx, by simpa using hd, by simpa using hleft, by omega, by omega⟩,
              (Option.some_inj.mp h).symm⟩

theorem Pruned.lt {data : Bytes} {policy : ExifPolicy} {x : Exif (tiffOf data)}
    {want : Option O} (h : Pruned data policy x want) :
    (x.prune policy want).serializedLen < 2 ^ 32 := by
  have := h.cap
  unfold sizeCap u32Max at this
  omega

theorem Pruned.reproducible {data : Bytes} {policy : ExifPolicy} {x : Exif (tiffOf data)}
    {want : Option O} (h : Pruned data policy x want) : Reproducible (x.prune policy want) :=
  prune_reproducible (parseTiff_reproducible h.parsed) policy want

/-- The blob that was written is read back. -/
theorem Pruned.parse_toBytes {data : Bytes} {policy : ExifPolicy} {x : Exif (tiffOf data)}
    {want : Option O} (h : Pruned data policy x want) :
    ∃ y, parse (x.prune policy want).toBytes = some y ∧ Rereads (x.prune policy want) y :=
  Exif.parse_toBytes h.reproducible h.lt

theorem Rereads.fields_entriesOf {x : Exif src} {y : Exif d} (h : Rereads x y) (ifd : Ifd) :
    fields (y.entriesOf ifd) = canonicalDir (fields (x.entriesOf ifd)) := by
  have hopt : ∀ {ptrVals : List (UInt16 × UInt32)} {off : ℕ} {a : Option (List (Entry src))}
      {b : Option (List (Entry d))}, Option.Rel (SameDir x.order ptrVals off 0) a b →
      fields (b.getD []) = canonicalDir (fields (a.getD [])) := by
    intro ptrVals off a b hab
    cases hab with
    | none => rfl
    | some hr => exact hr.fields_eq
  cases ifd with
  | ifd0 => exact h.ifd0.fields_eq
  | exif => exact hopt h.exif
  | interop => exact hopt h.interop
  | gps => exact hopt h.gps
  | ifd1 => exact hopt h.ifd1

theorem mem_canonicalDir {fs : List Field} {f : Field} : f ∈ canonicalDir fs ↔ f ∈ fs :=
  mem_sortBy

theorem perm_cons_eraseP {α : Type} {p : α → Bool} {l : List α} {a : α}
    (h : l.find? p = some a) : l.Perm (a :: l.eraseP p) := by
  induction l with
  | nil => exact absurd h (by simp)
  | cons b l ih =>
    by_cases hb : p b
    · rw [List.find?_cons_of_pos hb] at h
      obtain rfl := Option.some_inj.mp h
      rw [List.eraseP_cons_of_pos hb]
    · rw [List.find?_cons_of_neg hb] at h
      rw [List.eraseP_cons_of_neg hb]
      exact ((ih h).cons b).trans (List.Perm.swap _ _ _)

/-- Sorting keeps which fields stand behind the first with a tag. -/
theorem perm_eraseP_canonicalDir (tag : UInt16) (fs : List Field) :
    ((canonicalDir fs).eraseP fun f => f.tag = tag).Perm (fs.eraseP fun f => f.tag = tag) := by
  have hperm : (canonicalDir fs).Perm fs := sortBy_perm _ _
  have hfind : (canonicalDir fs).find? (fun f => f.tag = tag) =
      fs.find? fun f => f.tag = tag := by
    rw [← List.head?_filter, ← List.head?_filter, canonicalDir, filter_sortBy,
      sortBy_of_const (k := tag.toNat) fun f hf =>
        congrArg UInt16.toNat (by simpa using (List.mem_filter.mp hf).2)]
  cases h : fs.find? fun f => f.tag = tag with
  | none =>
    rw [h] at hfind
    rwa [List.eraseP_of_forall_not fun f hf => by simpa using List.find?_eq_none.mp hfind f hf,
      List.eraseP_of_forall_not fun f hf => by simpa using List.find?_eq_none.mp h f hf]
  | some f =>
    rw [h] at hfind
    exact (List.perm_cons f).mp ((perm_cons_eraseP hfind).symm.trans
      (hperm.trans (perm_cons_eraseP h)))

theorem fields_eraseP (tag : UInt16) (es : List (Entry src)) :
    fields (es.eraseP fun e => e.tag = tag) = (fields es).eraseP fun f => f.tag = tag := by
  unfold fields
  rw [List.eraseP_map]
  rfl

/-- The entries of a directory, without the one a reconciled orientation stands in. -/
def entriesBut (x : Exif src) (reconciled : Bool) (ifd : Ifd) : List (Entry src) :=
  if ifd = .ifd0 ∧ reconciled then x.ifd0.eraseP fun e => e.tag = tagOrientation
  else x.entriesOf ifd

theorem entriesOf_prune {x : Exif src} {policy : ExifPolicy} {want : Option O} {ifd : Ifd}
    (h : ¬ (ifd = .ifd0 ∧ want.isSome)) :
    (x.prune policy want).entriesOf ifd = (x.filtered policy).entriesOf ifd := by
  cases want with
  | none => rfl
  | some o => cases ifd <;> first | rfl | exact absurd ⟨rfl, rfl⟩ h

theorem entriesBut_prune (x : Exif src) (policy : ExifPolicy) (want : Option O) (ifd : Ifd) :
    (x.prune policy want).entriesBut want.isSome ifd =
      (x.filtered policy).entriesBut want.isSome ifd := by
  unfold entriesBut
  split
  · next h =>
    obtain ⟨o, rfl⟩ := Option.isSome_iff_exists.mp h.2
    exact eraseP_editFirst (fun _ => Entry.setInt_tag_of) _
  · next h => exact entriesOf_prune h

theorem entriesBut_sublist (x : Exif src) (reconciled : Bool) (ifd : Ifd) :
    (x.entriesBut reconciled ifd).Sublist (x.entriesOf ifd) := by
  unfold entriesBut
  split
  · next h =>
    rw [h.1]
    exact List.eraseP_sublist
  · exact List.Sublist.refl _

theorem Rereads.perm_entriesBut {x : Exif src} {y : Exif d} (h : Rereads x y)
    (reconciled : Bool) (ifd : Ifd) :
    (fields (y.entriesBut reconciled ifd)).Perm (fields (x.entriesBut reconciled ifd)) := by
  unfold entriesBut
  split
  · rw [fields_eraseP, fields_eraseP, h.ifd0.fields_eq]
    exact perm_eraseP_canonicalDir _ _
  · rw [h.fields_entriesOf]
    exact sortBy_perm _ _

/-- An entry is the orientation entry that is reconciled, or one of the others. -/
theorem mem_entriesBut (reconciled : Bool) {x : Exif src} {ifd : Ifd} {e : Entry src}
    (h : e ∈ x.entriesOf ifd) : e ∈ x.entriesBut reconciled ifd ∨
      reconciled ∧ ifd = .ifd0 ∧ x.orientationEntry = some e := by
  unfold entriesBut
  split
  · next hi =>
    obtain ⟨rfl, hr⟩ := hi
    cases hfind : x.orientationEntry with
    | none =>
      refine .inl ?_
      rwa [List.eraseP_of_forall_not fun f hf => by
        simpa using List.find?_eq_none.mp hfind f hf]
    | some f =>
      rcases List.mem_cons.mp ((perm_cons_eraseP hfind).mem_iff.mp h) with rfl | he
      · exact .inr ⟨hr, rfl, rfl⟩
      · exact .inl he
  · exact .inl h

/-- The first entry with a tag is read back as the first one. -/
theorem Rereads.find?_ifd0 {x : Exif src} {y : Exif d} (h : Rereads x y) (t : UInt16) :
    (y.ifd0.find? fun e => e.tag = t).map Entry.field =
      (x.ifd0.find? fun e => e.tag = t).map Entry.field := by
  have hf := congrArg (List.find? fun f : Field => f.tag = t) h.ifd0.fields_eq
  rw [canonicalDir, ← List.head?_filter, ← List.head?_filter, filter_sortBy,
    sortBy_of_const (k := t.toNat) fun f hf =>
      congrArg UInt16.toNat (by simpa using (List.mem_filter.mp hf).2)] at hf
  rw [List.head?_filter, List.head?_filter, fields, fields, List.find?_map, List.find?_map] at hf
  exact hf

/-- The reconciled orientation entry is the first one kept, with the new value. -/
theorem Rereads.orientationEntry {x : Exif src} {y : Exif d} (h : Rereads x y) :
    y.orientationEntry.map Entry.field = x.orientationEntry.map Entry.field :=
  h.find?_ifd0 tagOrientation

theorem keepsIn_of_tag {policy : ExifPolicy} {ifd : Ifd} {e : Entry src} {e' : Entry d}
    (h : e'.tag = e.tag) : policy.keepsIn ifd e' = policy.keepsIn ifd e := by
  cases ifd <;> simp only [ExifPolicy.keepsIn, h]

theorem mem_fields {f : Field} {es : List (Entry src)} :
    f ∈ fields es ↔ ∃ e ∈ es, e.field = f := List.mem_map

/-- Every entry of a pruned tree is of a kept category. -/
theorem keepsIn_prune {x : Exif src} (h : Reproducible x) {policy : ExifPolicy}
    {want : Option O} {ifd : Ifd} {e : Entry src}
    (he : e ∈ (x.prune policy want).entriesOf ifd) : policy.keepsIn ifd e := by
  have hfiltered : ∀ f ∈ (x.filtered policy).entriesOf ifd, policy.keepsIn ifd f := by
    intro f hf
    rw [entriesOf_filtered h] at hf
    have := (List.mem_filter.mp hf).2
    rw [Bool.and_eq_true] at this
    exact this.2
  by_cases hi : ifd = .ifd0 ∧ want.isSome
  · obtain ⟨rfl, hw⟩ := hi
    obtain ⟨o, rfl⟩ := Option.isSome_iff_exists.mp hw
    rcases mem_editFirst he with he | ⟨e0, he0, rfl⟩
    · exact hfiltered e he
    · rw [keepsIn_of_tag (e0.setInt_tag _)]
      exact hfiltered e0 (List.mem_of_find?_eq_some he0)
  · rw [entriesOf_prune hi] at he
    exact hfiltered e he

/-- The value of a reconciled orientation. -/
theorem orientationEntry_prune {x : Exif src} {policy : ExifPolicy} {o : O} {e : Entry src}
    (h : (x.prune policy (some o)).orientationEntry = some e) :
    ∃ e0, (x.filtered policy).orientationEntry = some e0 ∧ e0 ∈ x.ifd0 ∧
      e0.tag = tagOrientation ∧ e.kind = e0.kind ∧ e.count = 1 ∧
      intBytes e.kind (Orientation.toExif o).toUInt32 x.order = some e.value.bytes := by
  unfold orientationEntry at h
  rw [prune, setOrientationTag, find?_editFirst fun _ => Entry.setInt_tag_of] at h
  obtain ⟨e0, he0, rfl⟩ := Option.map_eq_some_iff.mp h
  have hmem := List.mem_filter.mp (List.mem_of_find?_eq_some he0)
  have htag : e0.tag = tagOrientation := by simpa using List.find?_some he0
  refine ⟨e0, he0, hmem.1, htag, ?_⟩
  -- The filter kept it, so it is a SHORT or a LONG.
  have hkind : e0.kind = tiffShort ∨ e0.kind = tiffLong := by
    have hk := hmem.2
    rw [keep, if_neg (by rw [htag]; decide), if_neg (by rw [htag]; decide), if_pos htag] at hk
    simp only [Bool.and_eq_true, Bool.or_eq_true, decide_eq_true_eq] at hk
    exact hk.1.2
  obtain ⟨b, hb⟩ : ∃ b, intBytes e0.kind (Orientation.toExif o).toUInt32 x.order = some b := by
    rcases hkind with hkind | hkind <;> rw [hkind]
    · exact ⟨_, rfl⟩
    · exact ⟨_, rfl⟩
  have hset : e0.setInt (Orientation.toExif o).toUInt32 (x.filtered policy).order =
      { e0 with value := .owned b, count := 1 } := by
    rw [Entry.setInt, show (x.filtered policy).order = x.order from rfl, hb]
  rw [hset]
  exact ⟨rfl, rfl, hb⟩

/-- **Retention is sound and complete.**  On the pruning route the blob returned is read
back, nothing of a discarded category is in it, every entry but the reconciled orientation
is an entry of the source, and every source entry of a kept category that the placement and
type rules admit is in it. -/
theorem retain_sound_complete [DecidableEq O] (data : Bytes) (policy : ExifPolicy)
    (want : Option O) (x : Exif (tiffOf data)) (r : Retained) (hx : parse data = some x)
    (hk : policy.keepsEverything = false) (hr : retainReconciled data policy want = some r) :
    ∃ y, parse (r.bytes data) = some y ∧
      (∀ ifd, ∀ e ∈ y.entriesOf ifd, policy.keepsIn ifd e) ∧
      (policy.gps.keeps = false → y.gpsIfd = none) ∧
      (policy.thumbnail.keeps = false → y.thumbnail = none ∧ y.ifd1 = none) ∧
      (∀ ifd, ∀ e ∈ y.entriesBut want.isSome ifd, e.field ∈ fields (x.entriesOf ifd)) ∧
      (∀ o, want = some o → ∀ e, y.orientationEntry = some e → ∃ e0 ∈ x.ifd0,
        e0.tag = tagOrientation ∧ e.kind = e0.kind ∧ e.count = 1 ∧
        intBytes e.kind (Orientation.toExif o).toUInt32 y.order = some e.value.bytes) ∧
      (∀ ifd, ∀ e ∈ x.entriesOf ifd, policy.keepsIn ifd e → admitsIn x.order ifd e →
        e.field ∈ fields (y.entriesOf ifd) ∨
          want.isSome ∧ ifd = .ifd0 ∧ (x.filtered policy).orientationEntry = some e ∧
            y.orientationEntry.isSome) ∧
      (policy.thumbnail.keeps → y.thumbnail.map Slice.bytes = x.thumbnail.map Slice.bytes) := by
  obtain ⟨x', hp, rfl⟩ := retain_prune hk hr
  obtain rfl := Option.some_inj.mp (hx.symm.trans hp.parsed)
  obtain ⟨y, hy, hreads⟩ := hp.parse_toBytes
  have hrep : Reproducible x := parseTiff_reproducible hx
  have hthumb : (x.prune policy want).thumbnail = (x.filtered policy).thumbnail := by
    cases want <;> rfl
  have hgps : (x.prune policy want).gpsIfd = (x.filtered policy).gpsIfd := by
    cases want <;> rfl
  have hifd1 : (x.prune policy want).ifd1 = (x.filtered policy).ifd1 := by
    cases want <;> rfl
  dsimp only [Retained.bytes]
  refine ⟨y, hy, fun ifd e he => ?_, fun hg => ?_, fun ht => ⟨?_, ?_⟩, fun ifd e he => ?_,
    fun o ho e he => ?_, fun ifd e he hcat hadm => ?_, fun ht => ?_⟩
  · have hf : e.field ∈ fields ((x.prune policy want).entriesOf ifd) :=
      mem_canonicalDir.mp (hreads.fields_entriesOf ifd ▸ mem_fields.mpr ⟨e, he, rfl⟩)
    obtain ⟨e1, he1, hfield⟩ := mem_fields.mp hf
    have htag : e.tag = e1.tag := (congrArg Field.tag hfield).symm
    rw [keepsIn_of_tag htag]
    exact keepsIn_prune hrep he1
  · have hsome := isSome_of_rel hreads.gps
    rw [hgps, filtered] at hsome
    simpa [hg] using hsome
  · have hmap := hreads.thumbnail
    rw [hthumb, filtered] at hmap
    simpa [ht] using hmap
  · have hsome := isSome_of_rel hreads.ifd1
    rw [hifd1, filtered] at hsome
    simpa [ht] using hsome
  · have hf : e.field ∈ fields ((x.filtered policy).entriesBut want.isSome ifd) := by
      rw [← entriesBut_prune]
      exact (hreads.perm_entriesBut _ ifd).mem_iff.mp (mem_fields.mpr ⟨e, he, rfl⟩)
    obtain ⟨e1, he1, hfield⟩ := mem_fields.mp hf
    have hmem := (entriesBut_sublist _ _ _).subset he1
    rw [entriesOf_filtered hrep] at hmem
    exact mem_fields.mpr ⟨e1, (List.mem_filter.mp hmem).1, hfield⟩
  · subst ho
    have hmap := hreads.orientationEntry
    rw [he, Option.map_some] at hmap
    obtain ⟨e1, he1, hfield⟩ := Option.map_eq_some_iff.mp hmap.symm
    obtain ⟨e0, -, hmem, htag, hkind, hcount, hval⟩ := orientationEntry_prune he1
    have hk1 : e1.kind = e.kind := congrArg Field.kind hfield
    have hc1 : e1.count = e.count := congrArg Field.count hfield
    have hv1 : e1.value.bytes = e.value.bytes := congrArg Field.value hfield
    have horder : y.order = x.order := hreads.order_eq
    refine ⟨e0, hmem, htag, hk1 ▸ hkind, hc1 ▸ hcount, ?_⟩
    rw [horder, ← hk1, ← hv1]
    exact hval
  · have hmem : e ∈ (x.filtered policy).entriesOf ifd := by
      rw [entriesOf_filtered hrep]
      exact List.mem_filter.mpr ⟨he, by rw [hadm, hcat]; rfl⟩
    rcases mem_entriesBut want.isSome hmem with hbut | ⟨hw, rfl, hfirst⟩
    · rw [← entriesBut_prune] at hbut
      have hf := (hreads.perm_entriesBut want.isSome ifd).mem_iff.mpr
        (mem_fields.mpr ⟨e, hbut, rfl⟩)
      obtain ⟨e1, he1, hfield⟩ := mem_fields.mp hf
      exact .inl (mem_fields.mpr ⟨e1, (entriesBut_sublist _ _ _).subset he1, hfield⟩)
    · refine .inr ⟨hw, rfl, hfirst, ?_⟩
      obtain ⟨o, rfl⟩ := Option.isSome_iff_exists.mp hw
      have hmap := congrArg Option.isSome hreads.orientationEntry
      rw [Option.isSome_map, Option.isSome_map] at hmap
      rw [hmap, orientationEntry, prune, setOrientationTag,
        find?_editFirst fun _ => Entry.setInt_tag_of, Option.isSome_map]
      exact Option.isSome_of_eq_some hfirst
  · rw [hreads.thumbnail, hthumb, filtered]
    simp [ht]

theorem retain_sampleBlob : (retainReconciled sampleBlob .attributedOrientation
    (some Turn.identity)).isSome := by decide

theorem retain_sound_complete_sample :
    ∃ x r y, parse sampleBlob = some x ∧
      retainReconciled sampleBlob .attributedOrientation (some Turn.identity) = some r ∧
      parse (r.bytes sampleBlob) = some y ∧ y.gpsIfd = none := by
  have hx := (Option.some_get parse_sampleBlob).symm
  have hr := (Option.some_get retain_sampleBlob).symm
  obtain ⟨y, hy, -, hgps, -⟩ := retain_sound_complete sampleBlob .attributedOrientation
    (some Turn.identity) _ _ hx (by decide) hr
  exact ⟨_, _, y, hx, hr, hy, hgps (by decide)⟩

end Zencodec.Exif
