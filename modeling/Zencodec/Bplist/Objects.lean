/-
The reader's view of an object.

The reader takes slices of the whole file, at offsets that it checks for overflow; the format
(`shapeOf`) goes over the bytes that follow a marker. The two agree on every object
(`leaf_eq_shapeOf`, `array_eq_shapeOf`, `dict_eq_shapeOf`).
-/
import Zencodec.Bplist.Reference

open Slices

namespace Zencodec.Bplist

variable {Ω F β : Type} {env : Env Ω F} {c : Ctx} {off : ℕ} {m : UInt8} {body : Bytes}

/-! ### Checked offsets -/

theorem Env.usize_of_le {n : ℕ} (h : n ≤ env.usizeMax) : env.usize n = some n := if_pos h

theorem Env.add_of_le {a b : ℕ} (h : a + b ≤ env.usizeMax) : env.add a b = some (a + b) := if_pos h

theorem Env.add_eq_some {a b s : ℕ} (h : env.add a b = some s) : s = a + b := by
  unfold Env.add Env.usize at h
  split at h
  · exact (Option.some_inj.mp h).symm
  · cases h

theorem Env.mul_eq_some {a b s : ℕ} (h : env.mul a b = some s) : s = a * b := by
  unfold Env.mul Env.usize at h
  split at h
  · exact (Option.some_inj.mp h).symm
  · cases h

theorem front_eq_none {n : ℕ} {l : Bytes} (h : l.length < n) : front n l = none :=
  if_neg (Nat.not_le.mpr h)

/-- A slice whose end is checked for overflow holds the bytes that follow its start. -/
theorem slice_eq_front {p : Bytes} (hp : p.length ≤ env.usizeMax) {base n : ℕ}
    (hbase : base ≤ p.length) :
    ((env.add base n).bind fun stop => slice p base stop) = front n (p.drop base) := by
  by_cases hn : base + n ≤ p.length
  · rw [Env.add_of_le (hn.trans hp), Option.bind_some, slice, if_pos ⟨Nat.le_add_right _ _, hn⟩,
      Nat.add_sub_cancel_left, front, if_pos (by rw [List.length_drop]; omega)]
  · rw [front_eq_none (by rw [List.length_drop]; omega)]
    refine Option.bind_eq_none_iff.mpr fun stop hstop => ?_
    rw [Env.add_eq_some hstop, slice, if_neg (by omega)]

theorem readUintBe_eq_front {p : Bytes} {base n : ℕ} (hn : 1 ≤ n ∧ n ≤ 8)
    (hbase : base ≤ p.length) :
    readUintBe p base n = (front n (p.drop base)).map (wordValue .big) := by
  rw [readUintBe, if_neg (by omega), slice, front, List.length_drop, Nat.add_sub_cancel_left]
  by_cases h : base + n ≤ p.length
  · rw [if_pos ⟨Nat.le_add_right _ _, h⟩, if_pos (by omega)]
  · rw [if_neg (by omega), if_neg (by omega)]

/-! ### After the marker -/

/-- The object at `off` starts with `m` and goes on with `body`. -/
structure Stands (env : Env Ω F) (c : Ctx) (off : ℕ) (m : UInt8) (body : Bytes) : Prop where
  fits : c.payload.length ≤ env.usizeMax
  drop : c.payload.drop off = m :: body

namespace Stands

theorem lt (h : Stands env c off m body) : off < c.payload.length := by
  by_contra hnot
  have hdrop := h.drop
  rw [List.drop_eq_nil_of_le (Nat.not_lt.mp hnot)] at hdrop
  cases hdrop

theorem body_eq (h : Stands env c off m body) : c.payload.drop (off + 1) = body := by
  rw [← List.drop_drop, h.drop, List.drop_succ_cons, List.drop_zero]

theorem length (h : Stands env c off m body) : body.length = c.payload.length - (off + 1) := by
  rw [← h.body_eq, List.length_drop]

theorem marker (h : Stands env c off m body) : c.payload[off]? = some m := by
  rw [← Nat.add_zero off, ← List.getElem?_drop, h.drop, List.getElem?_cons_zero]

theorem bytesAt (h : Stands env c off m body) (n : ℕ) : c.bytesAt env off n = front n body := by
  have hlt := h.lt
  have hfits := h.fits
  unfold Ctx.bytesAt
  rw [Env.add_of_le (by omega)]
  exact (slice_eq_front hfits (by omega)).trans (by rw [h.body_eq])

theorem uintAt (h : Stands env c off m body) {n : ℕ} (hn : 1 ≤ n) :
    c.uintAt env off n = (front n body).map low64 := by
  unfold Ctx.uintAt
  rw [h.bytesAt]
  by_cases hle : n ≤ body.length
  · have hlen : (body.take n).length = n := List.length_take_of_le hle
    rw [front, if_pos hle, Option.map_some]
    show readUintBe (body.take n) (n - 8) (min n 8) = _
    rw [readUintBe_eq_front ⟨by omega, by omega⟩ (by omega), front,
      if_pos (by rw [List.length_drop]; omega), Option.map_some, List.take_of_length_le
        (by rw [List.length_drop]; omega), low64, hlen]
  · rw [front_eq_none (by omega)]
    rfl

theorem realAt (h : Stands env c off m body) (lo : ℕ) :
    c.realAt env off lo =
      if lo = 2 then (front 4 body).map fun bytes => env.ofF32 (wordValue .big bytes)
      else if lo = 3 then (front 8 body).map fun bytes => env.ofF64 (wordValue .big bytes)
      else none := by
  have hfour : 2 ^ lo = 4 ↔ lo = 2 := Nat.pow_right_inj (m := lo) (n := 2) (le_refl 2)
  have height : 2 ^ lo = 8 ↔ lo = 3 := Nat.pow_right_inj (m := lo) (n := 3) (le_refl 2)
  unfold Ctx.realAt
  dsimp only
  rw [h.bytesAt]
  by_cases htwo : lo = 2
  · subst htwo
    cases front 4 body <;> rfl
  · by_cases hthree : lo = 3
    · subst hthree
      cases front 8 body <;> rfl
    · simp only [hfour, height, htwo, hthree, if_false]
      cases front (2 ^ lo) body <;> rfl

theorem dateAt (h : Stands env c off m body) :
    c.dateAt env off m.toNat =
      if m.toNat = 0x33 then (front 8 body).map fun bytes => env.ofF64 (wordValue .big bytes)
      else none := by
  have hlt := h.lt
  have hslice : ((env.add (off + 1) 8).bind fun stop => slice c.payload (off + 1) stop) =
      front 8 (c.payload.drop (off + 1)) := slice_eq_front h.fits (by omega)
  unfold Ctx.dateAt
  by_cases hm : m.toNat = 0x33
  · rw [if_neg (not_not.mpr hm), if_pos hm, ← h.body_eq, ← hslice]
    rw [show env.add (off + 1) 8 = env.add off 9 by unfold Env.add; congr 1]
    cases env.add off 9 with
    | none => rfl
    | some stop => cases hs : slice c.payload (off + 1) stop <;> simp [hs]
  · rw [if_pos hm, if_neg hm]

/-! ### Counts -/

/-- What is done with a count, where it needs as many bytes, can be said of the bytes that
follow. -/
theorem readCount_bind (h : Stands env c off m body) (lo : ℕ) {f : ℕ → ℕ → Option β}
    {g : ℕ → Bytes → Option β}
    (hfg : ∀ n base, base ≤ c.payload.length → f n base = g n (c.payload.drop base))
    (hnone : ∀ n rest, rest.length < n → g n rest = none) :
    ((c.readCount env off lo).bind fun p => f p.1 p.2) =
      (countOf lo body).bind fun p => g p.1 p.2 := by
  have hlt := h.lt
  have hfits := h.fits
  unfold Ctx.readCount countOf
  by_cases hlo : lo ≠ 0xF
  · rw [if_pos hlo, if_pos hlo, Option.bind_some, Option.bind_some, hfg _ _ (by omega), h.body_eq]
  rw [if_neg hlo, if_neg hlo, Env.add_of_le (by omega), Option.bind_eq_bind, Option.bind_some]
  have hbody := h.body_eq
  have hlength := h.length
  rw [← Nat.add_zero (off + 1), ← List.getElem?_drop, hbody]
  cases body with
  | nil => rfl
  | cons s rest =>
    rw [List.length_cons] at hlength
    have hrest : c.payload.drop (off + 2) = rest := by
      rw [show off + 2 = off + 1 + 1 from rfl, ← List.drop_drop, hbody, List.drop_succ_cons,
        List.drop_zero]
    rw [List.getElem?_cons_zero, Option.bind_eq_bind, Option.bind_some]
    dsimp only
    by_cases hs : s.toNat / 16 = 1
    · rw [if_neg (not_not.mpr hs)]
      by_cases hn : 8 < 2 ^ (s.toNat % 16)
      · rw [if_pos hn, if_neg (fun hboth => Nat.not_lt.mpr hboth.2 hn)]
        rfl
      · have hpos : 1 ≤ 2 ^ (s.toNat % 16) := Nat.one_le_two_pow
        generalize 2 ^ (s.toNat % 16) = n at hn hpos ⊢
        rw [if_neg hn, if_pos ⟨hs, Nat.not_lt.mp hn⟩,
          readUintBe_eq_front ⟨hpos, Nat.not_lt.mp hn⟩ (by omega), hrest]
        by_cases hle : n ≤ rest.length
        · rw [front, if_pos hle, Option.map_some, Option.map_some, Option.bind_some,
            Option.bind_some]
          have hdrop : c.payload.drop (off + 2 + n) = rest.drop n := by
            rw [← List.drop_drop, hrest]
          have hlen : (rest.drop n).length ≤ env.usizeMax := by
            rw [List.length_drop]
            omega
          by_cases hcount : wordValue .big (rest.take n) ≤ env.usizeMax
          · rw [Env.usize_of_le hcount, Env.add_of_le (by omega)]
            simp only [Option.bind_some]
            rw [Env.add_of_le (by omega), Option.bind_some, Option.bind_some,
              hfg _ _ (by omega), hdrop]
          · have hlong := hnone _ (rest.drop n) (hlen.trans_lt (Nat.not_le.mp hcount))
            rw [Env.usize, if_neg hcount, hlong]
            rfl
        · rw [front_eq_none (by omega)]
          rfl
    · rw [if_pos hs, if_neg (fun hboth => hs hboth.1)]
      rfl

/-! ### Leaves -/

theorem dataAt (h : Stands env c off m body) (lo : ℕ) :
    c.dataAt env off lo =
      (countOf lo body).bind fun p => (front p.1 p.2).map fun bytes => (bytes, p.1) := by
  refine h.readCount_bind lo
    (f := fun count base => do
      let stop ← env.add base count
      let bytes ← slice c.payload base stop
      some (bytes, count))
    (g := fun n rest => (front n rest).map fun bytes => (bytes, n))
    (fun n base hbase => ?_) (fun n rest hlong => by rw [front_eq_none hlong]; rfl)
  rw [← slice_eq_front h.fits hbase]
  cases env.add base n with
  | none => rfl
  | some stop => cases hs : slice c.payload base stop <;> simp [hs]

theorem asciiAt (h : Stands env c off m body) (lo : ℕ) :
    c.asciiAt env off lo =
      (countOf lo body).bind fun p => (front p.1 p.2).bind fun bytes =>
        (fromUtf8 bytes).map fun text => (text, p.1) := by
  unfold Ctx.asciiAt
  rw [h.dataAt]
  cases countOf lo body with
  | none => rfl
  | some p =>
    cases hf : front p.1 p.2 with
    | none => simp [hf]
    | some bytes => cases hu : fromUtf8 bytes <;> simp [hf, hu]

/-- The capacity of a string, which is half as long again as its bytes, does not overflow. -/
theorem utf16At (h : Stands env c off m body) (hroom : 2 * c.payload.length ≤ env.usizeMax)
    (lo : ℕ) :
    c.utf16At env off lo =
      (countOf lo body).bind fun p => (front (p.1 * 2) p.2).map fun bytes =>
        (String.ofList (decodeUtf16 (units bytes)), p.1 * 3) := by
  refine h.readCount_bind lo
    (f := fun count base => do
      let n ← env.mul count 2
      let stop ← env.add base n
      let bytes ← slice c.payload base stop
      let capacity ← env.mul count 3
      some (String.ofList (decodeUtf16 (units bytes)), capacity))
    (g := fun n rest => (front (n * 2) rest).map fun bytes =>
      (String.ofList (decodeUtf16 (units bytes)), n * 3))
    (fun n base hbase => ?_) (fun n rest hlong => by rw [front_eq_none (by omega)]; rfl)
  by_cases hn : n * 2 ≤ (c.payload.drop base).length
  · have hdrop : (c.payload.drop base).length = c.payload.length - base := List.length_drop
    rw [← slice_eq_front h.fits hbase, Env.mul, Env.usize_of_le (by omega), Env.mul,
      Env.usize_of_le (by omega)]
    cases ha : env.add base (n * 2) with
    | none => simp [ha]
    | some stop => cases hs : slice c.payload base stop <;> simp [ha, hs]
  · rw [front_eq_none (Nat.not_le.mp hn)]
    cases hmul : env.mul n 2 with
    | none => rfl
    | some size =>
      obtain rfl := Env.mul_eq_some hmul
      have hslice := slice_eq_front h.fits (n := n * 2) hbase
      rw [front_eq_none (Nat.not_le.mp hn)] at hslice
      cases hadd : env.add base (n * 2) with
      | none => simp [hadd]
      | some stop =>
        rw [hadd, Option.bind_some] at hslice
        simp [hadd, hslice]

/-- A leaf, with the bytes that it allocates. -/
theorem leaf_eq_shapeOf (h : Stands env c off m body) (hroom : 2 * c.payload.length ≤ env.usizeMax)
    (harray : m.toNat / 16 ≠ 0xA) (hset : m.toNat / 16 ≠ 0xC) (hdict : m.toNat / 16 ≠ 0xD) :
    (c.leafAt env off m.toNat).map (fun p => Shape.leaf p.1 (p.2.getD 0)) =
      shapeOf env.reals c.refSize m.toNat body := by
  have hlt : m.toNat / 16 < 16 := by
    have := m.toNat_lt
    omega
  have hthirty : m.toNat / 16 = 3 → (m.toNat = 0x33 ↔ m.toNat % 16 = 3) := by omega
  unfold Ctx.leafAt shapeOf
  dsimp only
  rw [h.uintAt Nat.one_le_two_pow, h.uintAt (Nat.le_add_left 1 _), h.realAt, h.dateAt, h.dataAt,
    h.asciiAt, h.utf16At hroom]
  generalize m.toNat / 16 = hi at harray hset hdict hlt hthirty ⊢
  interval_cases hi
  · split_ifs <;> rfl
  · cases front (2 ^ (m.toNat % 16)) body <;> rfl
  · by_cases htwo : m.toNat % 16 = 2
    · rw [if_pos htwo, if_pos htwo]
      cases front 4 body <;> rfl
    · rw [if_neg htwo, if_neg htwo]
      by_cases hthree : m.toNat % 16 = 3
      · rw [if_pos hthree, if_pos hthree]
        cases front 8 body <;> rfl
      · rw [if_neg hthree, if_neg hthree]
        rfl
  · simp only [hthirty rfl]
    split_ifs
    · cases front 8 body <;> rfl
    · rfl
  · cases countOf (m.toNat % 16) body with
    | none => rfl
    | some p => cases hf : front p.1 p.2 <;> simp [hf]
  · cases countOf (m.toNat % 16) body with
    | none => rfl
    | some p =>
      cases hf : front p.1 p.2 with
      | none => simp [hf]
      | some bytes => cases hu : fromUtf8 bytes <;> simp [hf, hu]
  · cases countOf (m.toNat % 16) body with
    | none => rfl
    | some p => cases hf : front (p.1 * 2) p.2 <;> simp [hf]
  · rfl
  · cases front (m.toNat % 16 + 1) body <;> rfl
  · rfl
  · exact absurd rfl harray
  · rfl
  · exact absurd rfl hset
  · exact absurd rfl hdict
  · rfl
  · rfl

/-! ### Containers -/

theorem refsOf_take {r n k : ℕ} (l : Bytes) (h : n * r ≤ k) :
    refsOf r n (l.take k) = refsOf r n l := by
  unfold refsOf
  refine List.map_congr_left fun i hi => ?_
  have hmul : (i + 1) * r ≤ n * r := Nat.mul_le_mul_right r (List.mem_range.mp hi)
  rw [Nat.succ_mul] at hmul
  rw [List.drop_take, List.take_take, Nat.min_eq_left (by omega)]

/-- The references of an array or set. -/
theorem array_eq_shapeOf (h : Stands env c off m body) (hr : 1 ≤ c.refSize)
    (hm : m.toNat / 16 = 0xA ∨ m.toNat / 16 = 0xC) :
    (c.arrayAt env off (m.toNat % 16)).map
        (fun p => Shape.array (refsOf c.refSize p.1 (c.payload.drop p.2))) =
      shapeOf env.reals c.refSize m.toNat body := by
  have hshape : shapeOf env.reals c.refSize m.toNat body =
      (countOf (m.toNat % 16) body).bind fun p => (front (p.1 * c.refSize) p.2).map fun bytes =>
        .array (refsOf c.refSize p.1 bytes) := by
    unfold shapeOf
    rcases hm with hm | hm <;> simp only [hm]
  rw [hshape, Ctx.arrayAt, Option.bind_eq_bind, Option.map_bind]
  refine h.readCount_bind (m.toNat % 16)
    (f := fun count base => (do
      let size ← env.mul count c.refSize
      let stop ← env.add base size
      let _ ← slice c.payload base stop
      some (count, base)).map fun p : ℕ × ℕ =>
        Shape.array (refsOf c.refSize p.1 (c.payload.drop p.2)))
    (g := fun n rest => (front (n * c.refSize) rest).map fun bytes =>
      .array (refsOf c.refSize n bytes))
    (fun n base hbase => ?_) (fun n rest hlong => ?_)
  · by_cases hn : base + n * c.refSize ≤ c.payload.length
    · have hfits := h.fits
      rw [front, if_pos (by rw [List.length_drop]; omega), Option.map_some,
        refsOf_take _ (le_refl _), Env.mul, Env.usize_of_le (by omega)]
      simp only [Option.bind_eq_bind, Option.bind_some]
      rw [Env.add_of_le (by omega), Option.bind_some, slice,
        if_pos ⟨Nat.le_add_right _ _, hn⟩, Option.bind_some, Option.map_some]
    · rw [front_eq_none (by rw [List.length_drop]; omega), Option.map_none, Option.map_eq_none_iff]
      refine Option.eq_none_iff_forall_ne_some.mpr fun p hp => ?_
      obtain ⟨size, hsize, hp⟩ := Option.bind_eq_some_iff.mp hp
      obtain ⟨stop, hstop, hp⟩ := Option.bind_eq_some_iff.mp hp
      obtain ⟨bytes, hbytes, -⟩ := Option.bind_eq_some_iff.mp hp
      rw [Env.mul_eq_some hsize] at hstop
      rw [Env.add_eq_some hstop] at hbytes
      exact hn (slice_eq_some.mp hbytes).2.1
  · rw [front_eq_none (hlong.trans_le (Nat.le_mul_of_pos_right n hr))]
    rfl

/-- The references of a dictionary: those to the keys come before those to the values. -/
theorem dict_eq_shapeOf (h : Stands env c off m body) (hr : 1 ≤ c.refSize)
    (hm : m.toNat / 16 = 0xD) :
    (c.dictAt env off (m.toNat % 16)).map
        (fun p => Shape.dict ((refsOf c.refSize p.1 (c.payload.drop p.2.1)).zip
          (refsOf c.refSize p.1 (c.payload.drop p.2.2)))) =
      shapeOf env.reals c.refSize m.toNat body := by
  have hshape : shapeOf env.reals c.refSize m.toNat body =
      (countOf (m.toNat % 16) body).bind fun p =>
        (front (p.1 * c.refSize + p.1 * c.refSize) p.2).map fun bytes =>
          .dict ((refsOf c.refSize p.1 bytes).zip
            (refsOf c.refSize p.1 (bytes.drop (p.1 * c.refSize)))) := by
    unfold shapeOf
    simp only [hm]
  rw [hshape, Ctx.dictAt, Option.bind_eq_bind, Option.map_bind]
  refine h.readCount_bind (m.toNat % 16)
    (f := fun count base => (do
      let size ← env.mul count c.refSize
      let valsBase ← env.add base size
      let stop ← env.add valsBase size
      let _ ← slice c.payload base stop
      some (count, base, valsBase)).map fun p : ℕ × ℕ × ℕ =>
        Shape.dict ((refsOf c.refSize p.1 (c.payload.drop p.2.1)).zip
          (refsOf c.refSize p.1 (c.payload.drop p.2.2))))
    (g := fun n rest => (front (n * c.refSize + n * c.refSize) rest).map fun bytes =>
      .dict ((refsOf c.refSize n bytes).zip (refsOf c.refSize n (bytes.drop (n * c.refSize)))))
    (fun n base hbase => ?_) (fun n rest hlong => ?_)
  · by_cases hn : base + n * c.refSize + n * c.refSize ≤ c.payload.length
    · have hfits := h.fits
      rw [front, if_pos (by rw [List.length_drop]; omega), Option.map_some,
        refsOf_take _ (Nat.le_add_right _ _), List.drop_take, Nat.add_sub_cancel,
        refsOf_take _ (le_refl _), List.drop_drop, Env.mul, Env.usize_of_le (by omega)]
      simp only [Option.bind_eq_bind, Option.bind_some]
      rw [Env.add_of_le (by omega), Option.bind_some, Env.add_of_le (by omega), Option.bind_some,
        slice, if_pos ⟨by omega, hn⟩, Option.bind_some, Option.map_some]
    · rw [front_eq_none (by rw [List.length_drop]; omega), Option.map_none, Option.map_eq_none_iff]
      refine Option.eq_none_iff_forall_ne_some.mpr fun p hp => ?_
      obtain ⟨size, hsize, hp⟩ := Option.bind_eq_some_iff.mp hp
      obtain ⟨vals, hvals, hp⟩ := Option.bind_eq_some_iff.mp hp
      obtain ⟨stop, hstop, hp⟩ := Option.bind_eq_some_iff.mp hp
      obtain ⟨bytes, hbytes, -⟩ := Option.bind_eq_some_iff.mp hp
      rw [Env.add_eq_some hvals, Env.mul_eq_some hsize] at hstop
      rw [Env.add_eq_some hstop] at hbytes
      exact hn (slice_eq_some.mp hbytes).2.1
  · rw [front_eq_none (hlong.trans_le ((Nat.le_mul_of_pos_right n hr).trans
      (Nat.le_add_right _ _)))]
    rfl

end Stands

/-- Reference `i` of those that start at `base`. -/
theorem readRef_eq {count base i : ℕ} (hr : 1 ≤ c.refSize ∧ c.refSize ≤ 8)
    (hfit : base + count * c.refSize ≤ c.payload.length) (hi : i < count) :
    c.readRef env (base + i * c.refSize) = env.usize (wordValue .big
      (((c.payload.drop base).drop (i * c.refSize)).take c.refSize)) := by
  have hmul : (i + 1) * c.refSize ≤ count * c.refSize := Nat.mul_le_mul_right _ hi
  rw [Nat.succ_mul] at hmul
  unfold Ctx.readRef
  rw [readUintBe_eq_front hr (by omega), front, if_pos (by rw [List.length_drop]; omega),
    List.drop_drop, Option.map_some, Option.bind_some]

theorem arrayAt_fits {lo : ℕ} {p : ℕ × ℕ} (h : c.arrayAt env off lo = some p) :
    p.2 + p.1 * c.refSize ≤ c.payload.length := by
  obtain ⟨⟨count, base⟩, -, h⟩ := Option.bind_eq_some_iff.mp h
  obtain ⟨size, hsize, h⟩ := Option.bind_eq_some_iff.mp h
  obtain ⟨stop, hstop, h⟩ := Option.bind_eq_some_iff.mp h
  obtain ⟨bytes, hbytes, h⟩ := Option.bind_eq_some_iff.mp h
  obtain rfl := Option.some_inj.mp h
  rw [Env.mul_eq_some hsize] at hstop
  rw [Env.add_eq_some hstop] at hbytes
  exact (slice_eq_some.mp hbytes).2.1

theorem dictAt_fits {lo : ℕ} {p : ℕ × ℕ × ℕ} (h : c.dictAt env off lo = some p) :
    p.2.2 = p.2.1 + p.1 * c.refSize ∧ p.2.2 + p.1 * c.refSize ≤ c.payload.length := by
  obtain ⟨⟨count, base⟩, -, h⟩ := Option.bind_eq_some_iff.mp h
  obtain ⟨size, hsize, h⟩ := Option.bind_eq_some_iff.mp h
  obtain ⟨vals, hvals, h⟩ := Option.bind_eq_some_iff.mp h
  obtain ⟨stop, hstop, h⟩ := Option.bind_eq_some_iff.mp h
  obtain ⟨bytes, hbytes, h⟩ := Option.bind_eq_some_iff.mp h
  obtain rfl := Option.some_inj.mp h
  rw [Env.mul_eq_some hsize] at hvals hstop
  rw [Env.add_eq_some hstop] at hbytes
  exact ⟨Env.add_eq_some hvals, (slice_eq_some.mp hbytes).2.1⟩

end Zencodec.Bplist
