/-
Slices of lists and fixed-width words in lists of bytes.

`slice d a b` is the checked slice `d[a..b]`.  `HasAt d o bs` says that `bs`
stands in `d` from offset `o` on; it splits along `++` (`hasAt_append`), so a
reader and a writer meet at the pieces the writer appended.  `wordBytes` and
`wordValue` are the two directions of a fixed-width word in either byte order.
-/
import Mathlib

namespace Slices

variable {α : Type*}

/-- The elements of `d` from `a` up to `b`, when `a ≤ b ≤ d.length`. -/
def slice (d : List α) (a b : ℕ) : Option (List α) :=
  if a ≤ b ∧ b ≤ d.length then some ((d.drop a).take (b - a)) else none

/-- `bs` stands in `d` at offset `o`. -/
def HasAt (d : List α) (o : ℕ) (bs : List α) : Prop :=
  slice d o (o + bs.length) = some bs

theorem slice_eq_some {d bs : List α} {a b : ℕ} :
    slice d a b = some bs ↔ a ≤ b ∧ b ≤ d.length ∧ (d.drop a).take (b - a) = bs := by
  unfold slice
  split
  · next h => simp [h]
  · next h =>
    constructor
    · intro h'
      exact absurd h' (by simp)
    · rintro ⟨ha, hb, -⟩
      exact absurd ⟨ha, hb⟩ h

theorem slice_length {d bs : List α} {a b : ℕ} (h : slice d a b = some bs) :
    bs.length = b - a := by
  obtain ⟨ha, hb, rfl⟩ := slice_eq_some.mp h
  simp only [List.length_take, List.length_drop]
  omega

theorem hasAt_iff {d bs : List α} {o : ℕ} :
    HasAt d o bs ↔ o + bs.length ≤ d.length ∧ (d.drop o).take bs.length = bs := by
  unfold HasAt
  rw [slice_eq_some, Nat.add_sub_cancel_left]
  exact and_iff_right (Nat.le_add_right _ _)

theorem hasAt_of_slice {d bs : List α} {a b : ℕ} (h : slice d a b = some bs) :
    HasAt d a bs := by
  have hlen := slice_length h
  have hab := (slice_eq_some.mp h).1
  unfold HasAt
  rw [hlen, show a + (b - a) = b by omega]
  exact h

theorem HasAt.slice {d bs : List α} {o e : ℕ} (h : HasAt d o bs)
    (he : e = o + bs.length) : slice d o e = some bs := by
  subst he
  exact h

theorem HasAt.le {d bs : List α} {o : ℕ} (h : HasAt d o bs) :
    o + bs.length ≤ d.length := (hasAt_iff.mp h).1

theorem hasAt_self (d : List α) : HasAt d 0 d := by
  rw [hasAt_iff]
  simp

/-- What stands at an offset stands there piece by piece. -/
theorem hasAt_append {d a b : List α} {o : ℕ} :
    HasAt d o (a ++ b) ↔ HasAt d o a ∧ HasAt d (o + a.length) b := by
  rw [hasAt_iff, hasAt_iff, hasAt_iff, List.length_append]
  constructor
  · rintro ⟨hlen, heq⟩
    have ha : (d.drop o).take a.length = a := by
      have h := congrArg (List.take a.length) heq
      rw [List.take_take, Nat.min_eq_left (by omega), List.take_left] at h
      exact h
    have hb : (d.drop (o + a.length)).take b.length = b := by
      have h := congrArg (List.drop a.length) heq
      rw [List.drop_take, List.drop_drop, List.drop_left,
        show a.length + b.length - a.length = b.length by omega] at h
      exact h
    exact ⟨⟨by omega, ha⟩, by omega, hb⟩
  · rintro ⟨⟨-, ha⟩, hlen, hb⟩
    refine ⟨by omega, ?_⟩
    rw [List.take_add, ha, List.drop_drop, hb]

theorem hasAt_append_left {pre d bs : List α} {o : ℕ} :
    HasAt (pre ++ d) (pre.length + o) bs ↔ HasAt d o bs := by
  rw [hasAt_iff, hasAt_iff, List.length_append, List.drop_append]
  rw [show List.drop (pre.length + o) pre = [] from List.drop_eq_nil_of_le (by omega),
    List.nil_append, Nat.add_sub_cancel_left]
  constructor
  · rintro ⟨h1, h2⟩
    exact ⟨by omega, h2⟩
  · rintro ⟨h1, h2⟩
    exact ⟨by omega, h2⟩

/-- What stands inside a piece stands inside the whole. -/
theorem HasAt.trans {d m bs : List α} {o i : ℕ} (h : HasAt d o m) (hm : HasAt m i bs) :
    HasAt d (o + i) bs := by
  rw [hasAt_iff] at *
  obtain ⟨h1, h2⟩ := h
  obtain ⟨h3, h4⟩ := hm
  refine ⟨by omega, ?_⟩
  rw [← h2, List.drop_take, List.take_take, List.drop_drop] at h4
  rwa [Nat.min_eq_left (by omega)] at h4

/-- Of two lists at one offset the shorter starts the longer. -/
theorem HasAt.sub {d m bs : List α} {o : ℕ} (h : HasAt d o m) (hb : HasAt d o bs)
    (hlen : bs.length ≤ m.length) : HasAt m 0 bs := by
  rw [hasAt_iff] at h hb ⊢
  refine ⟨by omega, ?_⟩
  rw [List.drop_zero, ← h.2, List.take_take, Nat.min_eq_left hlen]
  exact hb.2

/-- Appending to a list moves nothing in it. -/
theorem HasAt.mono {a c bs : List α} {o : ℕ} (h : HasAt a o bs) (hac : a <+: c) :
    HasAt c o bs := by
  obtain ⟨t, rfl⟩ := hac
  have hself := (hasAt_append.mp (hasAt_self (a ++ t))).1
  simpa using hself.trans h

theorem hasAt_append_self (a b : List α) : HasAt (a ++ b) a.length b := by
  simpa using (hasAt_append.mp (hasAt_self (a ++ b))).2

/-- Two lists at one offset, of one length, are equal. -/
theorem HasAt.eq {d a b : List α} {o : ℕ} (ha : HasAt d o a) (hb : HasAt d o b)
    (h : a.length = b.length) : a = b := by
  rw [← (hasAt_iff.mp ha).2, ← (hasAt_iff.mp hb).2, h]

theorem hasAt_take_drop {d : List α} {o k : ℕ} (h : o + k ≤ d.length) :
    HasAt d o ((d.drop o).take k) := by
  have hlen : ((d.drop o).take k).length = k := by
    rw [List.length_take, List.length_drop]
    omega
  exact hasAt_iff.mpr ⟨by omega, by rw [hlen]⟩

/-! ### Overwriting -/

/-- `d` with `bs` written over what stands at offset `o`. -/
def splice (d : List α) (o : ℕ) (bs : List α) : Option (List α) :=
  if o + bs.length ≤ d.length then some (d.take o ++ bs ++ d.drop (o + bs.length)) else none

theorem splice_eq_some {d bs d' : List α} {o : ℕ} :
    splice d o bs = some d' ↔
      o + bs.length ≤ d.length ∧ d' = d.take o ++ bs ++ d.drop (o + bs.length) := by
  unfold splice
  split
  · next h => simp [h, eq_comm]
  · next h => simp [h]

theorem length_splice {d bs d' : List α} {o : ℕ} (h : splice d o bs = some d') :
    d'.length = d.length := by
  obtain ⟨hle, rfl⟩ := splice_eq_some.mp h
  simp only [List.length_append, List.length_take, List.length_drop]
  omega

/-- What was written stands there. -/
theorem hasAt_splice {d bs d' : List α} {o : ℕ} (h : splice d o bs = some d') :
    HasAt d' o bs := by
  obtain ⟨hle, rfl⟩ := splice_eq_some.mp h
  have hlen : (d.take o).length = o := by
    rw [List.length_take]
    omega
  have hat := hasAt_append_self (d.take o) bs
  rw [hlen] at hat
  exact hat.mono (List.prefix_append _ _)

theorem getElem?_splice {d bs d' : List α} {o : ℕ} (h : splice d o bs = some d') {i : ℕ}
    (hi : i < o ∨ o + bs.length ≤ i) : d'[i]? = d[i]? := by
  obtain ⟨hle, rfl⟩ := splice_eq_some.mp h
  have hlen : (d.take o).length = o := by
    rw [List.length_take]
    omega
  rcases hi with hi | hi
  · rw [List.append_assoc, List.getElem?_append_left (by omega), List.getElem?_take, if_pos hi]
  · rw [List.getElem?_append_right (by rw [List.length_append]; omega), List.length_append, hlen,
      List.getElem?_drop]
    congr 1
    omega

/-- A slice that misses what was written is unchanged. -/
theorem slice_splice {d bs d' : List α} {o a b : ℕ} (h : splice d o bs = some d')
    (hab : b ≤ o ∨ o + bs.length ≤ a) : slice d' a b = slice d a b := by
  unfold slice
  rw [length_splice h]
  congr 2
  refine List.ext_getElem? fun i => ?_
  rw [List.getElem?_take, List.getElem?_take]
  split
  · rw [List.getElem?_drop, List.getElem?_drop]
    exact getElem?_splice h (by omega)
  · rfl

theorem take_splice {d bs d' : List α} {o n : ℕ} (h : splice d o bs = some d') (hn : n ≤ o) :
    d'.take n = d.take n := by
  refine List.ext_getElem? fun i => ?_
  rw [List.getElem?_take, List.getElem?_take]
  split
  · exact getElem?_splice h (by omega)
  · rfl

theorem drop_splice {d bs d' : List α} {o n : ℕ} (h : splice d (n + o) bs = some d') :
    splice (d.drop n) o bs = some (d'.drop n) := by
  obtain ⟨hle, rfl⟩ := splice_eq_some.mp h
  refine splice_eq_some.mpr ⟨by rw [List.length_drop]; omega, ?_⟩
  have hlen : (d.take (n + o)).length = n + o := by
    rw [List.length_take]
    omega
  rw [List.append_assoc, List.drop_append_of_le_length (by omega), List.drop_take,
    Nat.add_sub_cancel_left, List.drop_drop, List.append_assoc, Nat.add_assoc]

/-- Writing twice in one place is writing the second time. -/
theorem splice_splice {d bs bs' d' : List α} {o : ℕ} (h : splice d o bs = some d')
    (hlen : bs'.length = bs.length) : splice d' o bs' = splice d o bs' := by
  have hle := (splice_eq_some.mp h).1
  have hd := length_splice h
  unfold splice
  rw [if_pos (by omega), if_pos (by omega), take_splice h le_rfl]
  congr 2
  refine List.ext_getElem? fun i => ?_
  rw [List.getElem?_drop, List.getElem?_drop]
  exact getElem?_splice h (by omega)

/-- Writing what stands there changes nothing. -/
theorem splice_of_hasAt {d bs : List α} {o : ℕ} (h : HasAt d o bs) : splice d o bs = some d := by
  obtain ⟨hle, hbs⟩ := hasAt_iff.mp h
  refine splice_eq_some.mpr ⟨hle, ?_⟩
  calc d = d.take o ++ d.drop o := (List.take_append_drop o d).symm
    _ = d.take o ++ ((d.drop o).take bs.length ++ (d.drop o).drop bs.length) := by
      rw [List.take_append_drop bs.length (d.drop o)]
    _ = d.take o ++ bs ++ d.drop (o + bs.length) := by
      rw [hbs, List.drop_drop, List.append_assoc]

/-- Writing over a piece exchanges the piece. -/
theorem splice_append {a b b' : List α} (c : List α) (h : b'.length = b.length) :
    splice (a ++ b ++ c) a.length b' = some (a ++ b' ++ c) := by
  refine splice_eq_some.mpr ⟨by simp only [List.length_append]; omega, ?_⟩
  rw [h, ← List.length_append, List.drop_left, List.append_assoc a b c, List.take_left]

/-! ### Records of one size -/

/-- The first `n` pieces of `k` elements. -/
def chunks (k n : ℕ) (l : List α) : List (List α) :=
  (List.range n).map fun i => (l.drop (i * k)).take k

theorem flatten_chunks (k n : ℕ) (l : List α) : (chunks k n l).flatten = l.take (n * k) := by
  unfold chunks
  induction n with
  | zero => simp
  | succ n ih =>
    rw [List.range_succ, List.map_append, List.flatten_append, ih, List.map_singleton,
      List.flatten_singleton, Nat.succ_mul, List.take_add]

theorem length_of_mem_chunks {k n : ℕ} {l bs : List α} (h : n * k ≤ l.length)
    (hbs : bs ∈ chunks k n l) : bs.length = k := by
  obtain ⟨i, hi, rfl⟩ := List.mem_map.mp hbs
  have hmul : (i + 1) * k ≤ n * k := Nat.mul_le_mul_right k (List.mem_range.mp hi)
  rw [Nat.succ_mul] at hmul
  rw [List.length_take, List.length_drop]
  omega

/-- Record `i` stands at `i` times the size. -/
theorem hasAt_flatMap {β : Type*} {f : β → List α} {k i : ℕ} {l : List β} {b : β}
    (hf : ∀ b ∈ l, (f b).length = k) (hi : l[i]? = some b) :
    HasAt (l.flatMap f) (i * k) (f b) := by
  induction l generalizing i with
  | nil => simp at hi
  | cons a l ih =>
    rw [List.flatMap_cons]
    cases i with
    | zero =>
      obtain rfl : a = b := Option.some_inj.mp hi
      simpa using (hasAt_append.mp (hasAt_self (f a ++ l.flatMap f))).1
    | succ i =>
      have hrest := ih (fun b' hb' => hf b' (List.mem_cons_of_mem _ hb')) hi
      rw [show (i + 1) * k = (f a).length + i * k by
        rw [hf a List.mem_cons_self, Nat.succ_mul, Nat.add_comm]]
      exact hasAt_append_left.mpr hrest

theorem length_flatMap_of_length {β : Type*} {f : β → List α} {k : ℕ} {l : List β}
    (hf : ∀ b ∈ l, (f b).length = k) : (l.flatMap f).length = l.length * k := by
  induction l with
  | nil => simp
  | cons a l ih =>
    rw [List.flatMap_cons, List.length_append, hf a List.mem_cons_self,
      ih fun b hb => hf b (List.mem_cons_of_mem _ hb), List.length_cons, Nat.succ_mul, Nat.add_comm]

/-! ### Words -/

/-- A byte string. -/
abbrev Bytes := List UInt8

/-- The byte order of a stored word. -/
inductive ByteOrder
  | little
  | big
  deriving DecidableEq, Repr

/-- The `n` low bytes of `v`, least significant first. -/
def leBytes : ℕ → ℕ → Bytes
  | 0, _ => []
  | n + 1, v => UInt8.ofNat v :: leBytes n (v / 256)

/-- The number a list of bytes spells, least significant byte first. -/
def leValue : Bytes → ℕ
  | [] => 0
  | b :: bs => b.toNat + 256 * leValue bs

/-- The `n` low bytes of `v` in the given order. -/
def wordBytes (order : ByteOrder) (n v : ℕ) : Bytes :=
  match order with
  | .little => leBytes n v
  | .big => (leBytes n v).reverse

/-- The number a list of bytes spells in the given order. -/
def wordValue (order : ByteOrder) (bs : Bytes) : ℕ :=
  match order with
  | .little => leValue bs
  | .big => leValue bs.reverse

@[simp] theorem leBytes_length (n v : ℕ) : (leBytes n v).length = n := by
  induction n generalizing v with
  | zero => rfl
  | succ n ih => simp [leBytes, ih]

@[simp] theorem wordBytes_length (order : ByteOrder) (n v : ℕ) :
    (wordBytes order n v).length = n := by
  cases order <;> simp [wordBytes]

theorem leValue_leBytes (n v : ℕ) : leValue (leBytes n v) = v % 256 ^ n := by
  induction n generalizing v with
  | zero => simp [leBytes, leValue, Nat.mod_one]
  | succ n ih =>
    have hmul : v % (256 * 256 ^ n) = v % 256 + 256 * (v / 256 % 256 ^ n) := Nat.mod_mul
    rw [leBytes, leValue, ih, UInt8.toNat_ofNat', show 256 ^ (n + 1) = 256 * 256 ^ n from
      Nat.pow_succ']
    exact hmul.symm

theorem leBytes_leValue (bs : Bytes) : leBytes bs.length (leValue bs) = bs := by
  induction bs with
  | nil => rfl
  | cons b bs ih =>
    have hb : UInt8.ofNat (b.toNat + 256 * leValue bs) = b := by
      refine UInt8.toNat_inj.mp ?_
      rw [UInt8.toNat_ofNat']
      have := b.toNat_lt
      omega
    have hdiv : (b.toNat + 256 * leValue bs) / 256 = leValue bs := by
      have := b.toNat_lt
      omega
    rw [leValue, List.length_cons, leBytes, hb, hdiv, ih]

theorem leValue_lt (bs : Bytes) : leValue bs < 256 ^ bs.length := by
  induction bs with
  | nil => simp [leValue]
  | cons b bs ih =>
    have hb := b.toNat_lt
    rw [leValue, List.length_cons, Nat.pow_succ']
    omega

theorem wordValue_wordBytes (order : ByteOrder) (n v : ℕ) :
    wordValue order (wordBytes order n v) = v % 256 ^ n := by
  cases order <;> simp [wordValue, wordBytes, leValue_leBytes]

/-- Bytes are the word they spell. -/
theorem wordBytes_wordValue (order : ByteOrder) (bs : Bytes) :
    wordBytes order bs.length (wordValue order bs) = bs := by
  cases order
  · exact leBytes_leValue bs
  · have h := leBytes_leValue bs.reverse
    rw [List.length_reverse] at h
    simp only [wordBytes, wordValue, h, List.reverse_reverse]

theorem wordValue_lt (order : ByteOrder) (bs : Bytes) :
    wordValue order bs < 256 ^ bs.length := by
  cases order
  · exact leValue_lt bs
  · simpa [wordValue] using leValue_lt bs.reverse

end Slices
