/-
Where a PackBits strip ends.

A PackBits stream is a sequence of runs: a header below 128 announces that many
bytes and one more, copied as they stand; a header above 128 announces one byte,
repeated; the header 128 does nothing.  `unpack` is the decoding, with the bytes
present of a run that the data cuts off.

`packbitsEnd` walks the headers and stops as soon as enough bytes are produced.
`packbitsEnd_eq_some` and `packbitsEnd_eq_none` say what it finds: the end of the
shortest prefix that decodes to enough bytes, and that there is none.
-/
import Zencodec.Lib.Slices

namespace Zencodec.PackBits

open Slices

/-- `b as i8` -/
def asI8 (b : UInt8) : ℤ := if b.toNat < 128 then b.toNat else b.toNat - 256

/-- The loop: `pos` bytes are read, and `out` bytes produced. -/
def packbitsEndFrom (data : Bytes) (need pos out : ℕ) : Option ℕ :=
  if out < need then
    match _hb : data[pos]? with
    | none => none
    | some b =>
      let h := asI8 b
      if h = -128 then packbitsEndFrom data need (pos + 1) out
      else if h < 0 then
        match data[pos + 1]? with
        | none => none
        | some _ => packbitsEndFrom data need (pos + 2) (out + (1 - h).toNat)
      else
        let take := min (h.toNat + 1) (need - out)
        if pos + 1 + take > data.length then none
        else packbitsEndFrom data need (pos + 1 + take) (out + take)
  else some pos
termination_by data.length + 1 - pos
decreasing_by
  all_goals
    have hpos : pos < data.length := 
      (List.getElem?_eq_some_iff.mp ‹data[pos]? = some _›).1
    omega

/-- Where a PackBits stream at `data` has produced `need` decoded bytes. -/
def packbitsEnd (data : Bytes) (need : ℕ) : Option ℕ := packbitsEndFrom data need 0 0

/-- PackBits decoding. -/
def unpack : Bytes → Bytes
  | [] => []
  | b :: rest =>
    if asI8 b = -128 then unpack rest
    else if asI8 b < 0 then
      match rest with
      | [] => []
      | v :: rest => List.replicate (1 - asI8 b).toNat v ++ unpack rest
    else rest.take ((asI8 b).toNat + 1) ++ unpack (rest.drop ((asI8 b).toNat + 1))
termination_by data => data.length

/-- The number of bytes a stream decodes to. -/
def yield (data : Bytes) : ℕ := (unpack data).length

/-! ### What each run yields -/

section Runs

variable {b : UInt8} {rest : Bytes}

@[simp] theorem yield_nil : yield [] = 0 := by
  rw [yield, unpack]
  rfl

theorem yield_noop (h : asI8 b = -128) : yield (b :: rest) = yield rest := by
  rw [yield, unpack.eq_def]
  simp [h, yield]

theorem yield_header (h : asI8 b < 0) (h' : asI8 b ≠ -128) : yield [b] = 0 := by
  rw [yield, unpack.eq_def]
  simp [h, h']

theorem yield_repeat (h : asI8 b < 0) (h' : asI8 b ≠ -128) (v : UInt8) :
    yield (b :: v :: rest) = (1 - asI8 b).toNat + yield rest := by
  rw [yield, unpack.eq_def]
  simp [h, h', yield]

theorem yield_literal (h : 0 ≤ asI8 b) :
    yield (b :: rest) =
      min ((asI8 b).toNat + 1) rest.length + yield (rest.drop ((asI8 b).toNat + 1)) := by
  have h₁ : asI8 b ≠ -128 := by omega
  rw [yield, unpack.eq_def]
  simp [h₁, not_lt.mpr h, yield]

end Runs

/-- A longer prefix yields no less. -/
theorem yield_take_le (data : Bytes) : ∀ p, yield (data.take p) ≤ yield data := by
  induction data using unpack.induct with
  | case1 => intro p; simp
  | case2 b rest h ih =>
    intro p
    cases p with
    | zero => simp
    | succ p =>
      rw [List.take_succ_cons, yield_noop h, yield_noop h]
      exact ih p
  | case3 b h' h =>
    intro p
    cases p with
    | zero => simp
    | succ p => rw [List.take_succ_cons, List.take_nil]
  | case4 b h' h v rest ih =>
    intro p
    match p with
    | 0 => simp
    | 1 =>
      rw [List.take_succ_cons, List.take_zero, yield_header h h']
      exact Nat.zero_le _
    | p + 2 =>
      rw [List.take_succ_cons, List.take_succ_cons, yield_repeat h h', yield_repeat h h']
      exact Nat.add_le_add_left (ih p) _
  | case5 b rest h' h ih =>
    intro p
    have hnonneg : 0 ≤ asI8 b := not_lt.mp h
    cases p with
    | zero => simp
    | succ p =>
      rw [List.take_succ_cons, yield_literal hnonneg, yield_literal hnonneg, List.length_take,
        List.drop_take]
      have hrest := ih (p - ((asI8 b).toNat + 1))
      omega

/-! ### The end of the shortest prefix that yields enough -/

/-- `p` is the length of the shortest prefix of `data` that yields `need` bytes. -/
structure Ends (data : Bytes) (need p : ℕ) : Prop where
  le_length : p ≤ data.length
  enough : need ≤ yield (data.take p)
  shortest : ∀ q < p, yield (data.take q) < need

theorem Ends.unique {data : Bytes} {need p q : ℕ} (hp : Ends data need p)
    (hq : Ends data need q) : p = q := by
  rcases lt_trichotomy p q with hlt | heq | hlt
  · exact absurd hp.enough (not_le.mpr (hq.shortest p hlt))
  · exact heq
  · exact absurd hq.enough (not_le.mpr (hp.shortest q hlt))

theorem ends_zero (data : Bytes) : Ends data 0 0 :=
  ⟨Nat.zero_le _, Nat.zero_le _, fun _ h => absurd h (Nat.not_lt_zero _)⟩

theorem Ends.of_zero {data : Bytes} {p : ℕ} (h : Ends data 0 p) : p = 0 :=
  h.unique (ends_zero data)

section Steps

variable {b : UInt8} {rest : Bytes} {need k : ℕ}

theorem Ends.noop (hb : asI8 b = -128) (hneed : 0 < need) (h : Ends rest need k) :
    Ends (b :: rest) need (k + 1) where
  le_length := Nat.succ_le_succ h.le_length
  enough := by
    rw [List.take_succ_cons, yield_noop hb]
    exact h.enough
  shortest q hq := by
    cases q with
    | zero => simpa using hneed
    | succ q =>
      rw [List.take_succ_cons, yield_noop hb]
      exact h.shortest q (Nat.lt_of_succ_lt_succ hq)

theorem Ends.repeat (hb : asI8 b < 0) (hb' : asI8 b ≠ -128) (v : UInt8) (hneed : 0 < need)
    (h : Ends rest (need - (1 - asI8 b).toNat) k) : Ends (b :: v :: rest) need (k + 2) where
  le_length := Nat.succ_le_succ (Nat.succ_le_succ h.le_length)
  enough := by
    have henough := h.enough
    rw [List.take_succ_cons, List.take_succ_cons, yield_repeat hb hb']
    omega
  shortest q hq := by
    match q with
    | 0 => simpa using hneed
    | 1 =>
      rw [List.take_succ_cons, List.take_zero, yield_header hb hb']
      exact hneed
    | q + 2 =>
      have hlt := h.shortest q (by omega)
      rw [List.take_succ_cons, List.take_succ_cons, yield_repeat hb hb']
      omega

/-- A literal run, cut at the bytes needed: the next run is reached only when all of this
one is needed. -/
theorem Ends.literal (hb : 0 ≤ asI8 b) (hneed : 0 < need) {t : ℕ}
    (ht : t = min ((asI8 b).toNat + 1) need) (hlen : t ≤ rest.length)
    (h : Ends (rest.drop t) (need - t) k) : Ends (b :: rest) need (k + t + 1) := by
  have hle := h.le_length
  rw [List.length_drop] at hle
  constructor
  · rw [List.length_cons]
    omega
  · have henough := h.enough
    rw [List.take_succ_cons, yield_literal hb, List.length_take, List.drop_take]
    rcases Nat.lt_or_ge need ((asI8 b).toNat + 1) with hcut | hall
    · omega
    · obtain rfl : t = (asI8 b).toNat + 1 := by omega
      rw [show k + ((asI8 b).toNat + 1) - ((asI8 b).toNat + 1) = k by omega]
      omega
  · intro q hq
    cases q with
    | zero => simpa using hneed
    | succ q =>
      rw [List.take_succ_cons, yield_literal hb, List.length_take, List.drop_take]
      rcases Nat.lt_or_ge q t with hqt | hqt
      · -- within the run: only the bytes present count
        rw [show q - ((asI8 b).toNat + 1) = 0 by omega, List.take_zero, yield_nil]
        omega
      · rcases Nat.lt_or_ge need ((asI8 b).toNat + 1) with hcut | hall
        · obtain rfl : t = need := by omega
          rw [Nat.sub_self] at h
          have hk := h.of_zero
          omega
        · obtain rfl : t = (asI8 b).toNat + 1 := by omega
          have hlt := h.shortest (q - ((asI8 b).toNat + 1)) (by omega)
          omega

end Steps

/-- What the loop finds from a position on. -/
def Found (rest : Bytes) (need pos : ℕ) : Option ℕ → Prop
  | some p => ∃ k, p = pos + k ∧ Ends rest need k
  | none => yield rest < need

/-- A run in front: what is found behind it carries over. -/
theorem Found.behind {rest rest' : Bytes} {need need' pos pos' d : ℕ} {r : Option ℕ}
    (h : Found rest' need' pos' r) (hpos : pos' = pos + d)
    (hends : ∀ k, Ends rest' need' k → Ends rest need (k + d))
    (hyield : yield rest' < need' → yield rest < need) : Found rest need pos r := by
  cases r with
  | none => exact hyield h
  | some p =>
    obtain ⟨k, hp, hk⟩ := h
    exact ⟨k + d, by omega, hends k hk⟩

/-- From every position at a header, the loop finds the end for the bytes still needed. -/
theorem packbitsEndFrom_found (data : Bytes) (need pos out : ℕ) (hpos : pos ≤ data.length) :
    Found (data.drop pos) (need - out) pos (packbitsEndFrom data need pos out) := by
  fun_induction packbitsEndFrom data need pos out with
  | case1 pos out hlt hb =>
    -- the data ends before a header
    have hnil : data.drop pos = [] := List.drop_eq_nil_iff.mpr (List.getElem?_eq_none_iff.mp hb)
    rw [hnil]
    simp only [Found, yield_nil]
    omega
  | case2 pos out hlt b hb h hnoop ih =>
    obtain ⟨hlen, rfl⟩ := List.getElem?_eq_some_iff.mp hb
    rw [List.drop_eq_getElem_cons hlen]
    refine (ih (by omega)).behind rfl (fun k hk => hk.noop hnoop (by omega)) fun hlt => ?_
    rwa [yield_noop hnoop]
  | case3 pos out hlt b hb h hnoop hneg hv =>
    -- the data ends before the repeated byte
    obtain ⟨hlen, rfl⟩ := List.getElem?_eq_some_iff.mp hb
    have hnil : data.drop (pos + 1) = [] :=
      List.drop_eq_nil_iff.mpr (List.getElem?_eq_none_iff.mp hv)
    rw [List.drop_eq_getElem_cons hlen, hnil]
    simp only [Found, yield_header hneg hnoop]
    omega
  | case4 pos out hlt b hb h hnoop hneg v hv ih =>
    obtain ⟨hlen, rfl⟩ := List.getElem?_eq_some_iff.mp hb
    obtain ⟨hlen', rfl⟩ := List.getElem?_eq_some_iff.mp hv
    rw [List.drop_eq_getElem_cons hlen, List.drop_eq_getElem_cons hlen']
    have hfound := ih (by omega)
    rw [← Nat.sub_sub] at hfound
    refine hfound.behind rfl (fun k hk => hk.repeat hneg hnoop _ (by omega)) fun hlt => ?_
    rw [yield_repeat hneg hnoop]
    exact Nat.add_lt_of_lt_sub' hlt
  | case5 pos out hlt b hb h hnoop hneg take hcut =>
    -- the data ends within a literal run
    obtain ⟨hlen, rfl⟩ := List.getElem?_eq_some_iff.mp hb
    have hnonneg : 0 ≤ asI8 data[pos] := not_lt.mp hneg
    have htake : take = min ((asI8 data[pos]).toNat + 1) (need - out) := rfl
    have hrest : (data.drop (pos + 1)).drop ((asI8 data[pos]).toNat + 1) = [] := by
      rw [List.drop_eq_nil_iff, List.length_drop]
      omega
    rw [List.drop_eq_getElem_cons hlen]
    simp only [Found]
    rw [yield_literal hnonneg, hrest, List.length_drop, yield_nil]
    omega
  | case6 pos out hlt b hb h hnoop hneg take hfit ih =>
    obtain ⟨hlen, rfl⟩ := List.getElem?_eq_some_iff.mp hb
    have hnonneg : 0 ≤ asI8 data[pos] := not_lt.mp hneg
    have htake : take = min ((asI8 data[pos]).toNat + 1) (need - out) := rfl
    have hrest : take ≤ (data.drop (pos + 1)).length := by
      rw [List.length_drop]
      omega
    rw [List.drop_eq_getElem_cons hlen]
    have hfound := ih (by omega)
    rw [← Nat.sub_sub, ← List.drop_drop] at hfound
    refine hfound.behind (d := take + 1) (by omega)
      (fun k hk => hk.literal hnonneg (by omega) htake hrest) fun hlt => ?_
    obtain hall : take = (asI8 data[pos]).toNat + 1 := by omega
    rw [yield_literal hnonneg, ← hall]
    omega
  | case7 pos out hge =>
    rw [show need - out = 0 by omega]
    exact ⟨0, rfl, ends_zero _⟩

theorem packbitsEnd_found (data : Bytes) (need : ℕ) :
    Found data need 0 (packbitsEnd data need) :=
  packbitsEndFrom_found data need 0 0 (Nat.zero_le _)

/-- A stream decodes to at most 64 bytes for each of its own, so the count of the loop is
far from the end of its 64 bits for every stream that fits in memory. -/
theorem yield_le (data : Bytes) : yield data ≤ 64 * data.length := by
  induction data using unpack.induct with
  | case1 => simp
  | case2 b rest h ih =>
    rw [yield_noop h, List.length_cons]
    omega
  | case3 b h' h =>
    rw [yield_header h h']
    exact Nat.zero_le _
  | case4 b h' h v rest ih =>
    have hb : -128 ≤ asI8 b := by
      unfold asI8
      split <;> omega
    rw [yield_repeat h h', List.length_cons, List.length_cons]
    omega
  | case5 b rest h' h ih =>
    rw [yield_literal (not_lt.mp h), List.length_cons]
    rw [List.length_drop] at ih
    omega

/-- **The loop finds the end of the shortest prefix that decodes to enough bytes, and
nothing precisely when the whole data decodes to fewer.** -/
theorem packbitsEnd_exact (data : Bytes) (need : ℕ) :
    (∀ p, packbitsEnd data need = some p ↔
      IsLeast {q | q ≤ data.length ∧ need ≤ (unpack (data.take q)).length} p) ∧
    (packbitsEnd data need = none ↔ (unpack data).length < need) := by
  have hfound := packbitsEnd_found data need
  cases hr : packbitsEnd data need with
  | none =>
    rw [hr] at hfound
    refine ⟨fun p => ⟨(fun h => nomatch h), fun h => ?_⟩, fun _ => hfound, fun _ => rfl⟩
    -- no prefix yields more than the whole
    exact absurd (h.1.2.trans (yield_take_le data p)) (not_le.mpr hfound)
  | some k =>
    rw [hr] at hfound
    obtain ⟨j, hj, hends⟩ := hfound
    obtain rfl : k = j := by omega
    refine ⟨fun p => ?_, ⟨(fun h => nomatch h), fun h => ?_⟩⟩
    · constructor
      · intro h
        obtain rfl := Option.some.inj h
        refine ⟨⟨hends.le_length, hends.enough⟩, fun q hq => ?_⟩
        by_contra hlt
        exact absurd hq.2 (not_le.mpr (hends.shortest q (not_le.mp hlt)))
      · intro h
        have hp : Ends data need p := by
          refine ⟨h.1.1, h.1.2, fun q hq => not_le.mp fun hle => ?_⟩
          exact absurd (h.2 ⟨hq.le.trans h.1.1, hle⟩) (not_le.mpr hq)
        rw [hends.unique hp]
    · exact absurd (hends.enough.trans (yield_take_le data k)) (not_le.mpr h)

end Zencodec.PackBits
