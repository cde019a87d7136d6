/-
Physical density and pixel aspect.

A resolution has two numbers of 64 bits and a unit. In a physical unit it stands for a density,
and in the unknown unit for an aspect ratio. `isEquivalentTo_eq` says that two resolutions are
compared exactly, and `tryIntegerDensity_eq` that a carrier gets exact integers, whatever the
floating estimate that locates them. `density_exact` puts both together.
-/
import Zencodec.Lib.Overflow
import Zencodec.Lib.Binary64
import Zencodec.Time.Clock

open Binary

namespace Zencodec.PixelDensity

inductive ResolutionUnit where
  | unknown
  | inch
  | centimeter
  | meter
  deriving DecidableEq, Repr

structure Resolution where
  x : F64
  y : F64
  unit : ResolutionUnit
  deriving DecidableEq

inductive ResolutionError where
  | invalidValue
  | unitMismatch
  | notRepresentable
  | unsupported
  deriving DecidableEq, Repr

/-! ### The code -/

def validate (r : Resolution) : Except ResolutionError Unit :=
  if r.x.Finite ∧ r.y.Finite ∧ r.x.Positive ∧ r.y.Positive then .ok () else .error .invalidValue

/-- Exact pixels-per-metre factors: one inch is 127/5000 metre. -/
def factor : ResolutionUnit → Option (ℕ × ℕ)
  | .inch => some (5000, 127)
  | .centimeter => some (100, 1)
  | .meter => some (1, 1)
  | .unknown => none

def parts (v : F64) : ℕ × ℤ :=
  let exponent := (v.bits >>> 52 &&& 0x7ff).toNat
  let fraction := (v.bits &&& ((1 : UInt64) <<< 52 - 1)).toNat
  if exponent = 0 then (fraction, -1074) else (fraction ||| 2 ^ 52, exponent - 1023 - 52)

/-- Of a number of 128 bits. -/
def trailingZeros (m : ℕ) : ℕ := if m = 0 then 128 else padicValNat 2 m

def normalized (o : Overflow) (mantissa : ℕ) (exponent : ℤ) : Option (ℕ × ℤ) := do
  let zeros := trailingZeros mantissa
  let m ← o.shr 128 mantissa zeros
  let e ← o.int 32 (exponent + zeros)
  some (m, e)

def scaled (o : Overflow) (v : F64) (factor : ℕ) : Option (ℕ × ℤ) := do
  let m ← o.nat 128 ((parts v).1 * factor)
  normalized o m (parts v).2

def product (o : Overflow) (a b : F64) : Option (ℕ × ℤ) := do
  let m ← o.nat 128 ((parts a).1 * (parts b).1)
  let e ← o.int 32 ((parts a).2 + (parts b).2)
  normalized o m e

/-- A comparison of two numbers, scaled by a product of factors. -/
def sameScaled (o : Overflow) (v w : F64) (an ad bn bd : ℕ) : Option Bool := do
  let m ← o.nat 32 (an * bd)
  let l ← scaled o v m
  let n ← o.nat 32 (bn * ad)
  let r ← scaled o w n
  some (l = r)

def isEquivalentTo (o : Overflow) (a b : Resolution) : Option Bool :=
  if validate a ≠ .ok () ∨ validate b ≠ .ok () then some false
  else
    match factor a.unit, factor b.unit with
    | none, none => do
      let l ← product o a.x b.y
      let r ← product o b.x a.y
      some (l = r)
    | some f, some g => do
      if ← sameScaled o a.x b.x f.1 f.2 g.1 g.2 then sameScaled o a.y b.y f.1 f.2 g.1 g.2
      else some false
    | _, _ => some false

/-- A conversion ends well, with an error, or in a panic. -/
abbrev Checked := Except (Abort ResolutionError)

/-- The first candidate that is exact. -/
def firstExact (o : Overflow) (v : F64) (n d max : ℕ) : List ℕ → Checked ℕ
  | [] => .error (.refused .notRepresentable)
  | c :: cs =>
    if c ≠ 0 ∧ c ≤ max then do
      let l ← Abort.ofOption (scaled o v n)
      let r ← Abort.ofOption (scaled o (F64.ofNat c) d)
      if l = r then .ok c else firstExact o v n d max cs
    else firstExact o v n d max cs

/-- A floating estimate only locates candidates. -/
def integer (o : Overflow) (t : FloatArith) (v : F64) (n d max : ℕ) : Checked ℕ :=
  let candidate := (t.div (t.mul v (F64.ofNat n)) (F64.ofNat d)).truncate 32
  firstExact o v n d max [candidate, min (candidate + 1) (2 ^ 32 - 1), candidate - 1]

def integerRatio (o : Overflow) (x y : F64) (max : ℕ) : Checked (ℕ × ℕ) := do
  let l ← Abort.ofOption (scaled o x 1)
  let r ← Abort.ofOption (scaled o y 1)
  let a := Time.gcdLoop l.1 r.1
  let x := l.1 / a
  let y := r.1 / a
  let shift ← Abort.ofOption (o.int 32 (l.2 - r.2))
  if 32 ≤ shift.natAbs then .error (.refused .notRepresentable)
  else
    let p ←
      if 0 ≤ shift then do
        let x ← Abort.ofOption (o.shl 128 x shift.toNat)
        .ok (x, y)
      else do
        let k ← Abort.ofOption (o.int 32 (-shift))
        let y ← Abort.ofOption (o.shl 128 y k.toNat)
        .ok (x, y)
    if max < p.1 ∨ max < p.2 then .error (.refused .notRepresentable)
    else .ok (p.1 % 2 ^ 32, p.2 % 2 ^ 32)

def tryIntegerDensity (o : Overflow) (t : FloatArith) (r : Resolution) (unit : ResolutionUnit)
    (max : UInt32) : Checked (ℕ × ℕ) :=
  match validate r with
  | .error e => .error (.refused e)
  | .ok () =>
    match factor r.unit, factor unit with
    | none, none => integerRatio o r.x r.y max.toNat
    | some s, some f => do
      let x ← integer o t r.x (← Abort.ofOption (o.nat 32 (s.1 * f.2)))
        (← Abort.ofOption (o.nat 32 (s.2 * f.1))) max.toNat
      let y ← integer o t r.y (← Abort.ofOption (o.nat 32 (s.1 * f.2)))
        (← Abort.ofOption (o.nat 32 (s.2 * f.1))) max.toNat
      .ok (x, y)
    | _, _ => .error (.refused .unitMismatch)

/-! ### What a resolution stands for -/

/-- Pixels per metre on both axes, or the ratio of the axes. -/
inductive Density where
  | physical (x y : ℚ)
  | aspect (ratio : ℚ)
  deriving DecidableEq

/-- One of a unit, in pixels per metre. -/
def perMetre : ResolutionUnit → Option ℚ
  | .inch => some (5000 / 127)
  | .centimeter => some 100
  | .meter => some 1
  | .unknown => none

def Density.of (unit : ResolutionUnit) (x y : ℚ) : Density :=
  match perMetre unit with
  | some f => .physical (x * f) (y * f)
  | none => .aspect (x / y)

def density (r : Resolution) : Density := .of r.unit r.x.value r.y.value

/-- Two integers that stand for the same in another unit; an aspect ratio is in lowest terms. -/
structure IntegerDensity (r : Resolution) (unit : ResolutionUnit) (max : ℕ) (p : ℕ × ℕ) :
    Prop where
  exact : density r = .of unit p.1 p.2
  lowest : perMetre unit = none → Nat.Coprime p.1 p.2
  le : p.1 ≤ max ∧ p.2 ≤ max

theorem perMetre_eq (unit : ResolutionUnit) :
    perMetre unit = (factor unit).map fun f => (f.1 : ℚ) / f.2 := by
  cases unit <;> simp [perMetre, factor]

/-- The factors are small. -/
theorem factor_le {unit : ResolutionUnit} {f : ℕ × ℕ} (h : factor unit = some f) :
    0 < f.1 ∧ f.1 ≤ 5000 ∧ 0 < f.2 ∧ f.2 ≤ 127 := by
  cases unit <;> simp only [factor, Option.some.injEq, reduceCtorEq] at h <;> subst h <;> decide

theorem validate_eq_ok {r : Resolution} : validate r = .ok () ↔ r.x.Valid ∧ r.y.Valid := by
  unfold validate F64.Valid
  split
  · next h => exact iff_of_true rfl ⟨⟨h.1, h.2.2.1⟩, h.2.1, h.2.2.2⟩
  · next h =>
    exact iff_of_false (fun hok => by cases hok) fun hv => h ⟨hv.1.1, hv.2.1, hv.1.2, hv.2.2⟩

/-! ### Exact comparison -/

theorem parts_eq (v : F64) : parts v = (v.significand, v.exponent) := by
  have hfield : (v.bits >>> 52 &&& 0x7ff).toNat = v.field := by
    rw [UInt64.toNat_and, UInt64.toNat_shiftRight, Nat.shiftRight_eq_div_pow]
    exact Nat.and_two_pow_sub_one_eq_mod _ 11
  have hfraction : (v.bits &&& ((1 : UInt64) <<< 52 - 1)).toNat = v.fraction := by
    rw [UInt64.toNat_and]
    exact Nat.and_two_pow_sub_one_eq_mod _ 52
  have hlt : v.fraction < 2 ^ 52 := Nat.mod_lt _ (by decide)
  rw [parts, hfield, hfraction, F64.significand, F64.exponent]
  split
  · rfl
  · have hor := Nat.two_pow_add_eq_or_of_lt hlt 1
    rw [mul_one] at hor
    rw [Nat.or_comm, ← hor, Nat.add_comm]

theorem normalized_eq (o : Overflow) {m : ℕ} {e : ℤ} (hm : 0 < m) (hlt : m < 2 ^ 128)
    (he : |e| ≤ 2 ^ 30) : normalized o m e = some (reduce m e) := by
  have hzeros : padicValNat 2 m < 128 := padicValNat_lt hm hlt
  have habs := abs_le.mp he
  rw [normalized, trailingZeros, if_neg hm.ne', o.shr_of_lt hzeros]
  show (o.int 32 (e + padicValNat 2 m)).bind _ = _
  rw [o.int_of_mem (by omega) (by omega)]
  rfl

theorem exponent_abs_le (v : F64) : |v.exponent| ≤ 2 ^ 29 :=
  abs_le.mpr ⟨(by decide : -2 ^ 29 ≤ (-1074 : ℤ)).trans v.exponent_ge,
    v.exponent_le.trans (by decide)⟩

/-- A number of 53 bits times one of 32 bits fits, with room. -/
theorem scaled_eq (o : Overflow) {v : F64} (hv : v.Valid) {n : ℕ} (hn : 0 < n)
    (hlt : n < 2 ^ 32) : scaled o v n = some (reduce (v.significand * n) v.exponent) := by
  have hfits : v.significand * n < 2 ^ 128 :=
    (Nat.mul_lt_mul'' v.significand_lt hlt).trans (by decide)
  rw [scaled, parts_eq, o.nat_of_lt hfits]
  exact normalized_eq o (Nat.mul_pos hv.significand_pos hn) hfits
    ((exponent_abs_le v).trans (by decide))

theorem product_eq (o : Overflow) {a b : F64} (ha : a.Valid) (hb : b.Valid) :
    product o a b = some (reduce (a.significand * b.significand) (a.exponent + b.exponent)) := by
  have hfits : a.significand * b.significand < 2 ^ 128 :=
    (Nat.mul_lt_mul'' a.significand_lt b.significand_lt).trans (by decide)
  have hexp : |a.exponent + b.exponent| ≤ 2 ^ 30 :=
    (abs_add_le _ _).trans (add_le_add (exponent_abs_le a) (exponent_abs_le b))
  have habs := abs_le.mp hexp
  rw [product, parts_eq, parts_eq, o.nat_of_lt hfits]
  show (o.int 32 (a.exponent + b.exponent)).bind _ = _
  rw [o.int_of_mem (by omega) (by omega)]
  exact normalized_eq o (Nat.mul_pos ha.significand_pos hb.significand_pos) hfits hexp

theorem reduce_scaled_iff {v w : F64} (hv : v.Valid) (hw : w.Valid) {m n : ℕ} (hm : 0 < m)
    (hn : 0 < n) : reduce (v.significand * m) v.exponent = reduce (w.significand * n) w.exponent ↔
      v.value * m = w.value * n := by
  rw [reduce_eq_iff (Nat.mul_pos hv.significand_pos hm) (Nat.mul_pos hw.significand_pos hn),
    F64.value, F64.value, value_mul_natCast, value_mul_natCast]

theorem reduce_product_iff {a b c d : F64} (ha : a.Valid) (hb : b.Valid) (hc : c.Valid)
    (hd : d.Valid) :
    reduce (a.significand * b.significand) (a.exponent + b.exponent) =
        reduce (c.significand * d.significand) (c.exponent + d.exponent) ↔
      a.value * b.value = c.value * d.value := by
  rw [reduce_eq_iff (Nat.mul_pos ha.significand_pos hb.significand_pos)
    (Nat.mul_pos hc.significand_pos hd.significand_pos), F64.value, F64.value, F64.value,
    F64.value, value_mul, value_mul]

theorem sameScaled_eq (o : Overflow) {v w : F64} (hv : v.Valid) (hw : w.Valid)
    {s t : ResolutionUnit} {f g : ℕ × ℕ} (hs : factor s = some f) (ht : factor t = some g) :
    sameScaled o v w f.1 f.2 g.1 g.2 =
      some (decide (v.value * (f.1 / f.2 : ℚ) = w.value * (g.1 / g.2 : ℚ))) := by
  obtain ⟨hf, hf', hd, hd'⟩ := factor_le hs
  obtain ⟨hg, hg', he, he'⟩ := factor_le ht
  have hfg : f.1 * g.2 < 2 ^ 32 := (Nat.mul_le_mul hf' he').trans_lt (by decide)
  have hgf : g.1 * f.2 < 2 ^ 32 := (Nat.mul_le_mul hg' hd').trans_lt (by decide)
  have hq : (0 : ℚ) < f.2 := Nat.cast_pos.mpr hd
  have hq' : (0 : ℚ) < g.2 := Nat.cast_pos.mpr he
  rw [sameScaled, o.nat_of_lt hfg]
  show (scaled o v (f.1 * g.2)).bind _ = _
  rw [scaled_eq o hv (Nat.mul_pos hf he) hfg]
  show (o.nat 32 (g.1 * f.2)).bind _ = _
  rw [o.nat_of_lt hgf]
  show (scaled o w (g.1 * f.2)).bind _ = _
  rw [scaled_eq o hw (Nat.mul_pos hg hd) hgf]
  refine congrArg some (decide_eq_decide.mpr ?_)
  rw [reduce_scaled_iff hv hw (Nat.mul_pos hf he) (Nat.mul_pos hg hd), ← mul_div_assoc,
    ← mul_div_assoc, div_eq_div_iff hq.ne' hq'.ne', Nat.cast_mul, Nat.cast_mul, mul_assoc,
    mul_assoc]

/-- Two valid resolutions are equivalent exactly when they stand for the same. -/
theorem isEquivalentTo_eq (o : Overflow) {a b : Resolution} (ha : validate a = .ok ())
    (hb : validate b = .ok ()) : isEquivalentTo o a b = some (decide (density a = density b)) := by
  obtain ⟨hax, hay⟩ := validate_eq_ok.mp ha
  obtain ⟨hbx, hby⟩ := validate_eq_ok.mp hb
  rw [isEquivalentTo, if_neg (by simp [ha, hb])]
  cases hf : factor a.unit with
  | none =>
    cases hg : factor b.unit with
    | none =>
      show (product o a.x b.y).bind _ = _
      rw [product_eq o hax hby]
      show (product o b.x a.y).bind _ = _
      rw [product_eq o hbx hay]
      refine congrArg some (decide_eq_decide.mpr ?_)
      rw [reduce_product_iff hax hby hbx hay, density, density, Density.of, Density.of,
        perMetre_eq, perMetre_eq, hf, hg]
      show _ ↔ Density.aspect _ = Density.aspect _
      rw [Density.aspect.injEq, div_eq_div_iff hay.value_pos.ne' hby.value_pos.ne']
    | some g => simp [density, Density.of, perMetre_eq, hf, hg]
  | some f =>
    cases hg : factor b.unit with
    | none => simp [density, Density.of, perMetre_eq, hf, hg]
    | some g =>
      simp only [sameScaled_eq o hax hbx hf hg, sameScaled_eq o hay hby hf hg, density,
        Density.of, perMetre_eq, hf, hg, Option.map_some, Option.bind_eq_bind, Option.bind_some,
        decide_eq_true_eq, Density.physical.injEq]
      by_cases hx : a.x.value * (f.1 / f.2 : ℚ) = b.x.value * (g.1 / g.2 : ℚ)
      · simp [hx]
      · simp [hx]

/-! ### Integers -/

/-- `c` of one unit is `v` of another. -/
def IsInteger (v : F64) (n d max c : ℕ) : Prop := c ≠ 0 ∧ c ≤ max ∧ v.value * n = c * d

instance (v : F64) (n d max c : ℕ) : Decidable (IsInteger v n d max c) :=
  inferInstanceAs (Decidable (_ ∧ _))

variable {t : FloatArith} {v : F64} {n d max : ℕ}

theorem IsInteger.unique {c c' : ℕ} (hd : 0 < d) (h : IsInteger v n d max c)
    (h' : IsInteger v n d max c') : c = c' := by
  have heq : (c : ℚ) * d = c' * d := by rw [← h.2.2, h'.2.2]
  exact_mod_cast mul_right_cancel₀ (Nat.cast_ne_zero.mpr hd.ne') heq

/-- Where arithmetic is exact, the estimate of an integer is the integer. -/
theorem candidate_eq (ht : t.Exact) (hv : v.Valid) (hn : 0 < n) (hn' : n < 2 ^ 20) (hd : 0 < d)
    (hd' : d < 2 ^ 20) {c : ℕ} (hc : 0 < c) (hc' : c < 2 ^ 32) (h : v.value * n = c * d) :
    (t.div (t.mul v (F64.ofNat n)) (F64.ofNat d)).truncate 32 = c := by
  have hn53 : n < 2 ^ 53 := hn'.trans (by decide)
  have hd53 : d < 2 ^ 53 := hd'.trans (by decide)
  have hc53 : c < 2 ^ 53 := hc'.trans (by decide)
  have hcd : 0 < c * d := Nat.mul_pos hc hd
  have hcd53 : c * d < 2 ^ 53 := (Nat.mul_lt_mul'' hc' hd').trans (by decide)
  have hmul : t.mul v (F64.ofNat n) = F64.ofNat (c * d) := by
    refine ht.mul _ _ _ hv (F64.ofNat_valid hn hn53) (F64.ofNat_valid hcd hcd53) ?_
    rw [F64.value_ofNat hn hn53, F64.value_ofNat hcd hcd53, h, Nat.cast_mul]
  have hdiv : t.div (F64.ofNat (c * d)) (F64.ofNat d) = F64.ofNat c := by
    refine ht.div _ _ _ (F64.ofNat_valid hcd hcd53) (F64.ofNat_valid hd hd53)
      (F64.ofNat_valid hc hc53) ?_
    rw [F64.value_ofNat hcd hcd53, F64.value_ofNat hd hd53, F64.value_ofNat hc hc53, Nat.cast_mul,
      mul_div_cancel_right₀ _ (Nat.cast_ne_zero.mpr hd.ne')]
  rw [hmul, hdiv, F64.truncate_ofNat (by decide) hc hc']

theorem firstExact_eq (hv : v.Valid) (hn : 0 < n) (hn' : n < 2 ^ 32) (hd : 0 < d)
    (hd' : d < 2 ^ 32) (o : Overflow) : ∀ cs : List ℕ, (∀ c ∈ cs, c < 2 ^ 32) →
      firstExact o v n d max cs =
        match cs.find? fun c => decide (IsInteger v n d max c) with
        | some c => .ok c
        | none => .error (.refused .notRepresentable)
  | [], _ => rfl
  | c :: cs, hcs => by
    have ih := firstExact_eq hv hn hn' hd hd' o cs fun c hc => hcs c (List.mem_cons_of_mem _ hc)
    have hlt : c < 2 ^ 32 := hcs c List.mem_cons_self
    rw [firstExact, List.find?_cons]
    by_cases hc : c ≠ 0 ∧ c ≤ max
    · have hpos : 0 < c := Nat.pos_of_ne_zero hc.1
      have hlt' : c < 2 ^ 53 := hlt.trans (by decide)
      have hvalid := F64.ofNat_valid hpos hlt'
      rw [if_pos hc, scaled_eq o hv hn hn']
      show ((Abort.ofOption (scaled o (F64.ofNat c) d)).bind fun r => _) = _
      rw [scaled_eq o hvalid hd hd']
      show (if _ = _ then _ else _) = _
      rw [ih]
      by_cases heq : v.value * n = c * d
      · have hint : IsInteger v n d max c := ⟨hc.1, hc.2, heq⟩
        rw [if_pos, decide_eq_true hint]
        rw [reduce_scaled_iff hv hvalid hn hd, F64.value_ofNat hpos hlt']
        exact heq
      · rw [if_neg, decide_eq_false fun hint => heq hint.2.2]
        rw [reduce_scaled_iff hv hvalid hn hd, F64.value_ofNat hpos hlt']
        exact heq
    · rw [if_neg hc, ih, decide_eq_false fun hint => hc ⟨hint.1, hint.2.1⟩]

/-- The exact integer, whatever the estimate; and found where arithmetic is exact. -/
theorem integer_eq (t : FloatArith) (hv : v.Valid) (hn : 0 < n) (hn' : n < 2 ^ 20) (hd : 0 < d)
    (hd' : d < 2 ^ 20) (hmax : max < 2 ^ 32) : ∃ res : Except ResolutionError ℕ,
      (∀ o, integer o t v n d max = res.mapError .refused) ∧
      (∀ c, res = .ok c → IsInteger v n d max c) ∧
      (t.Exact → ∀ c, IsInteger v n d max c → res = .ok c) := by
  set candidate := (t.div (t.mul v (F64.ofNat n)) (F64.ofNat d)).truncate 32 with hcandidate
  have hlt : candidate < 2 ^ 32 := F64.truncate_lt 32 _
  set cs := [candidate, min (candidate + 1) (2 ^ 32 - 1), candidate - 1] with hcs
  have hall : ∀ c ∈ cs, c < 2 ^ 32 := by
    intro c hc
    simp only [hcs, List.mem_cons, List.not_mem_nil, or_false] at hc
    omega
  have hrun (o : Overflow) : integer o t v n d max = _ :=
    firstExact_eq hv hn (hn'.trans (by decide)) hd (hd'.trans (by decide)) o cs hall
  cases hfind : cs.find? fun c => decide (IsInteger v n d max c) with
  | some c =>
    have hc : IsInteger v n d max c := by simpa using List.find?_some hfind
    refine ⟨.ok c, fun o => by rw [hrun o, hfind]; rfl, fun c' hok => ?_, fun _ c' hc' => ?_⟩
    · obtain rfl := Except.ok.inj hok
      exact hc
    · exact congrArg Except.ok (hc.unique hd hc')
  | none =>
    refine ⟨.error .notRepresentable, fun o => by rw [hrun o, hfind]; rfl,
      (fun c hok => by cases hok), fun hexact c hc => ?_⟩
    -- the exact estimate is the integer itself
    have heq : candidate = c := by
      have hcpos : 0 < c := Nat.pos_of_ne_zero hc.1
      have hclt : c < 2 ^ 32 := hc.2.1.trans_lt hmax
      exact candidate_eq hexact hv hn hn' hd hd' hcpos hclt hc.2.2
    have hno := List.find?_eq_none.mp hfind candidate List.mem_cons_self
    rw [heq] at hno
    exact absurd (decide_eq_true hc) hno

/-! ### Aspect ratios -/

theorem fits_eq {p : ℕ × ℕ} (hmax : max < 2 ^ 32) :
    (if max < p.1 ∨ max < p.2 then .error (.refused .notRepresentable)
      else .ok (p.1 % 2 ^ 32, p.2 % 2 ^ 32) : Checked (ℕ × ℕ)) =
      if max < p.1 ∨ max < p.2 then .error (.refused .notRepresentable) else .ok p := by
  split
  · rfl
  · next hfit =>
    rw [not_or, not_lt, not_lt] at hfit
    rw [Nat.mod_eq_of_lt (hfit.1.trans_lt hmax), Nat.mod_eq_of_lt (hfit.2.trans_lt hmax)]

/-- The ratio of two reduced numbers, in lowest terms, where both fit. -/
theorem ratio_of_scaled {x y : F64} {l r : ℕ × ℤ} {o : Overflow} (hx : scaled o x 1 = some l)
    (hy : scaled o y 1 = some r) (hl : 0 < l.1 ∧ l.1 < 2 ^ 53) (hr : 0 < r.1 ∧ r.1 < 2 ^ 53)
    (he : |l.2 - r.2| < 2 ^ 31) (hmax : max < 2 ^ 32) :
    integerRatio o x y max =
      if max < (lowestTerms l r).1 ∨ max < (lowestTerms l r).2 then
        .error (.refused .notRepresentable)
      else .ok (lowestTerms l r) := by
  have habs := abs_lt.mp he
  have hgcd : 0 < Nat.gcd l.1 r.1 := Nat.gcd_pos_of_pos_left _ hl.1
  set a := l.1 / Nat.gcd l.1 r.1 with ha
  set b := r.1 / Nat.gcd l.1 r.1 with hb
  have hapos : 0 < a := Nat.div_pos (Nat.le_of_dvd hl.1 (Nat.gcd_dvd_left _ _)) hgcd
  have hbpos : 0 < b := Nat.div_pos (Nat.le_of_dvd hr.1 (Nat.gcd_dvd_right _ _)) hgcd
  have halt : a < 2 ^ 53 := (Nat.div_le_self _ _).trans_lt hl.2
  have hblt : b < 2 ^ 53 := (Nat.div_le_self _ _).trans_lt hr.2
  have hterms : lowestTerms l r = (a * 2 ^ (l.2 - r.2).toNat, b * 2 ^ (r.2 - l.2).toNat) := rfl
  rw [integerRatio, hx]
  show ((Abort.ofOption (scaled o y 1)).bind fun r => _) = _
  rw [hy]
  show ((Abort.ofOption (o.int 32 (l.2 - r.2))).bind fun shift => _) = _
  rw [o.int_of_abs_lt he]
  show (if 32 ≤ (l.2 - r.2).natAbs then _ else _) = _
  simp only [Time.gcdLoop_eq, ← ha, ← hb, hterms]
  split
  · next hfar =>
    -- so far apart, the power of two alone is too large
    have hbig {c k : ℕ} (hc : 0 < c) (hk : 32 ≤ k) : max < c * 2 ^ k :=
      hmax.trans_le ((Nat.pow_le_pow_right two_pos hk).trans (Nat.le_mul_of_pos_left _ hc))
    rw [if_pos]
    rcases le_total 0 (l.2 - r.2) with hle | hle
    · exact .inl (hbig hapos (by omega))
    · exact .inr (hbig hbpos (by omega))
  · next hnear =>
    have hfits {c k : ℕ} (hc : c < 2 ^ 53) (hk : k < 32) : c * 2 ^ k < 2 ^ 128 :=
      (Nat.mul_lt_mul'' hc (Nat.pow_lt_pow_right one_lt_two hk)).trans (by decide)
    by_cases hle : 0 ≤ l.2 - r.2
    · have hzero : (r.2 - l.2).toNat = 0 := by omega
      rw [if_pos hle, o.shl_of_lt (by omega) (hfits halt (by omega)), hzero, pow_zero, mul_one]
      exact fits_eq hmax
    · have hzero : (l.2 - r.2).toNat = 0 := by omega
      rw [if_neg hle, o.int_of_mem (by omega) (by omega), neg_sub]
      show ((Abort.ofOption (o.shl 128 b (r.2 - l.2).toNat)).bind fun y => _) = _
      rw [o.shl_of_lt (by omega) (hfits hblt (by omega)), hzero, pow_zero, mul_one]
      exact fits_eq hmax

/-- The ratio of two numbers, in lowest terms, where both fit. -/
theorem integerRatio_eq {x y : F64} (hx : x.Valid) (hy : y.Valid) (hmax : max < 2 ^ 32) :
    ∃ p : ℕ × ℕ, Nat.Coprime p.1 p.2 ∧ 0 < p.2 ∧ x.value / y.value = p.1 / p.2 ∧
      ∀ o, integerRatio o x y max =
        if max < p.1 ∨ max < p.2 then .error (.refused .notRepresentable) else .ok p := by
  have hreduce {v : F64} (hv : v.Valid) : Odd (reduce (v.significand * 1) v.exponent).1 ∧
      (reduce (v.significand * 1) v.exponent).1 < 2 ^ 53 ∧
      Binary.value (reduce (v.significand * 1) v.exponent).1
        (reduce (v.significand * 1) v.exponent).2 = v.value := by
    refine ⟨reduce_odd (Nat.mul_pos hv.significand_pos one_pos), ?_, ?_⟩
    · exact (Nat.div_le_self _ _).trans_lt ((mul_one v.significand).symm ▸ v.significand_lt)
    · rw [reduce_value, mul_one]
      rfl
  obtain ⟨hlodd, hllt, hlval⟩ := hreduce hx
  obtain ⟨hrodd, hrlt, hrval⟩ := hreduce hy
  have hexp : |(reduce (x.significand * 1) x.exponent).2 -
      (reduce (y.significand * 1) y.exponent).2| < 2 ^ 31 := by
    have hx' := abs_le.mp (exponent_abs_le x)
    have hy' := abs_le.mp (exponent_abs_le y)
    have hxz : padicValNat 2 (x.significand * 1) < 53 :=
      padicValNat_lt (Nat.mul_pos hx.significand_pos one_pos) (by
        rw [mul_one]; exact x.significand_lt)
    have hyz : padicValNat 2 (y.significand * 1) < 53 :=
      padicValNat_lt (Nat.mul_pos hy.significand_pos one_pos) (by
        rw [mul_one]; exact y.significand_lt)
    rw [abs_lt, reduce, reduce]
    constructor <;> dsimp only <;> omega
  refine ⟨_, lowestTerms_coprime hlodd hrodd, lowestTerms_pos hrodd.pos, ?_, fun o =>
    ratio_of_scaled (scaled_eq o hx one_pos (by decide)) (scaled_eq o hy one_pos (by decide))
      ⟨hlodd.pos, hllt⟩ ⟨hrodd.pos, hrlt⟩ hexp hmax⟩
  rw [← lowestTerms_ratio hrodd.pos, hlval, hrval]

/-! ### Integer densities -/

/-- A conversion that is the same in every build, and ends with the integers in `P` or an error. -/
def Converts (c : Overflow → Checked (ℕ × ℕ)) (P : ℕ × ℕ → Prop) (exact : Prop) : Prop :=
  ∃ res : Except ResolutionError (ℕ × ℕ), (∀ o, c o = res.mapError .refused) ∧
    (∀ p, res = .ok p → P p) ∧ (exact → (∃ p, P p) → ∃ p, res = .ok p)

variable {r : Resolution} {unit : ResolutionUnit} {limit : UInt32}

theorem isInteger_iff (hv : v.Valid) {s s' : ResolutionUnit} {f g : ℕ × ℕ} {c : ℕ}
    (hs : factor s = some f) (hg : factor s' = some g) :
    IsInteger v (f.1 * g.2) (f.2 * g.1) max c ↔
      c ≤ max ∧ v.value * (f.1 / f.2 : ℚ) = c * (g.1 / g.2 : ℚ) := by
  obtain ⟨hf, -, hd, -⟩ := factor_le hs
  obtain ⟨hg, -, he, -⟩ := factor_le hg
  have hfq : (0 : ℚ) < f.1 := Nat.cast_pos.mpr hf
  have hq : (0 : ℚ) < f.2 := Nat.cast_pos.mpr hd
  have hq' : (0 : ℚ) < g.2 := Nat.cast_pos.mpr he
  have hcross : v.value * (f.1 * g.2 : ℕ) = c * (f.2 * g.1 : ℕ) ↔
      v.value * (f.1 / f.2 : ℚ) = c * (g.1 / g.2 : ℚ) := by
    rw [← mul_div_assoc, ← mul_div_assoc, div_eq_div_iff hq.ne' hq'.ne', Nat.cast_mul,
      Nat.cast_mul, mul_assoc, mul_assoc, mul_comm (f.2 : ℚ)]
  unfold IsInteger
  rw [hcross]
  refine ⟨fun h => h.2, fun h => ⟨?_, h⟩⟩
  rintro rfl
  have hpos : 0 < v.value * (f.1 / f.2 : ℚ) := mul_pos hv.value_pos (div_pos hfq hq)
  rw [h.2, Nat.cast_zero, zero_mul] at hpos
  exact lt_irrefl _ hpos

theorem tryIntegerDensity_aspect (t : FloatArith) (hr : validate r = .ok ())
    (hs : factor r.unit = none) (hf : factor unit = none) :
    Converts (fun o => tryIntegerDensity o t r unit limit)
      (IntegerDensity r unit limit.toNat) t.Exact := by
  obtain ⟨hx, hy⟩ := validate_eq_ok.mp hr
  obtain ⟨p, hcop, hpos, hratio, hrun⟩ := integerRatio_eq hx hy limit.toNat_lt
  have hdensity : density r = .of unit p.1 p.2 := by
    rw [density, Density.of, Density.of, perMetre_eq, perMetre_eq, hs, hf, ← hratio]
    rfl
  have hcode (o : Overflow) : tryIntegerDensity o t r unit limit =
      integerRatio o r.x r.y limit.toNat := by
    rw [tryIntegerDensity, hr, hs, hf]
  by_cases hfit : limit.toNat < p.1 ∨ limit.toNat < p.2
  · refine ⟨.error .notRepresentable, fun o => ?_, (fun q hq => by cases hq), fun _ hex => ?_⟩
    · refine (hcode o).trans ?_
      rw [hrun, if_pos hfit]
      rfl
    · -- lowest terms are unique
      obtain ⟨q, hq⟩ := hex
      have haspect : Density.of unit p.1 p.2 = .of unit q.1 q.2 := hdensity.symm.trans hq.exact
      rw [Density.of, Density.of, perMetre_eq, hf] at haspect
      have hnone : perMetre unit = none := by rw [perMetre_eq, hf]; rfl
      have hqcop := hq.lowest hnone
      have heq : (p.1 : ℚ) / p.2 = q.1 / q.2 := Density.aspect.inj haspect
      have hqpos : 0 < q.2 := by
        by_contra hzero
        rw [Nat.eq_zero_of_not_pos hzero, Nat.cast_zero, div_zero, ← hratio] at heq
        exact absurd heq (div_pos hx.value_pos hy.value_pos).ne'
      obtain ⟨h1, h2⟩ := Rat.div_int_inj (a := p.1) (b := p.2) (c := q.1) (d := q.2)
        (by exact_mod_cast hpos) (by exact_mod_cast hqpos) (by simpa using hcop)
        (by simpa using hqcop) (by simpa only [Int.cast_natCast] using heq)
      have := hq.le
      omega
  · refine ⟨.ok p, fun o => ?_, fun q hq => ?_, fun _ _ => ⟨p, rfl⟩⟩
    · refine (hcode o).trans ?_
      rw [hrun, if_neg hfit]
      rfl
    · obtain rfl := Except.ok.inj hq
      rw [not_or, not_lt, not_lt] at hfit
      exact ⟨hdensity, fun _ => hcop, hfit⟩

theorem tryIntegerDensity_physical (t : FloatArith) (hr : validate r = .ok ()) {f g : ℕ × ℕ}
    (hs : factor r.unit = some f) (hg : factor unit = some g) :
    Converts (fun o => tryIntegerDensity o t r unit limit)
      (IntegerDensity r unit limit.toNat) t.Exact := by
  obtain ⟨hx, hy⟩ := validate_eq_ok.mp hr
  obtain ⟨hf1, hf1', hf2, hf2'⟩ := factor_le hs
  obtain ⟨hg1, hg1', hg2, hg2'⟩ := factor_le hg
  have hn : f.1 * g.2 < 2 ^ 20 := (Nat.mul_le_mul hf1' hg2').trans_lt (by decide)
  have hd : f.2 * g.1 < 2 ^ 20 := (Nat.mul_le_mul hf2' hg1').trans_lt (by decide)
  have hconv {v : F64} (hv : v.Valid) := integer_eq t hv (Nat.mul_pos hf1 hg2) hn
    (Nat.mul_pos hf2 hg1) hd limit.toNat_lt
  obtain ⟨x, hxrun, hxok, hxfound⟩ := hconv hx
  obtain ⟨y, hyrun, hyok, hyfound⟩ := hconv hy
  have hn32 (o : Overflow) : o.nat 32 (f.1 * g.2) = some (f.1 * g.2) :=
    o.nat_of_lt (hn.trans (by decide))
  have hd32 (o : Overflow) : o.nat 32 (f.2 * g.1) = some (f.2 * g.1) :=
    o.nat_of_lt (hd.trans (by decide))
  have hcode (o : Overflow) : tryIntegerDensity o t r unit limit =
      (x.mapError .refused).bind fun x => (y.mapError .refused).bind fun y => .ok (x, y) := by
    rw [← hxrun o, ← hyrun o]
    simp only [tryIntegerDensity, hr, hs, hg, hn32, hd32]
    rfl
  have hiff (p : ℕ × ℕ) : IntegerDensity r unit limit.toNat p ↔
      IsInteger r.x (f.1 * g.2) (f.2 * g.1) limit.toNat p.1 ∧
        IsInteger r.y (f.1 * g.2) (f.2 * g.1) limit.toNat p.2 := by
    rw [isInteger_iff hx hs hg, isInteger_iff hy hs hg]
    have hsome : perMetre unit ≠ none := by rw [perMetre_eq, hg]; exact Option.some_ne_none _
    have hexact : density r = .of unit p.1 p.2 ↔
        r.x.value * (f.1 / f.2 : ℚ) = p.1 * (g.1 / g.2 : ℚ) ∧
          r.y.value * (f.1 / f.2 : ℚ) = p.2 * (g.1 / g.2 : ℚ) := by
      simp only [density, Density.of, perMetre_eq, hs, hg, Option.map_some, Density.physical.injEq]
    constructor
    · intro h
      obtain ⟨h1, h2⟩ := hexact.mp h.exact
      exact ⟨⟨h.le.1, h1⟩, h.le.2, h2⟩
    · rintro ⟨⟨hle1, h1⟩, hle2, h2⟩
      exact ⟨hexact.mpr ⟨h1, h2⟩, fun hnone => absurd hnone hsome, hle1, hle2⟩
  refine ⟨x.bind fun x => y.bind fun y => .ok (x, y), fun o => ?_, fun p hp => ?_,
    fun hexact ⟨p, hp⟩ => ⟨p, ?_⟩⟩
  · refine (hcode o).trans ?_
    cases x with
    | error e => rfl
    | ok a => cases y <;> rfl
  · cases hxr : x with
    | error e => rw [hxr] at hp; cases hp
    | ok a =>
      cases hyr : y with
      | error e => rw [hxr, hyr] at hp; cases hp
      | ok b =>
        rw [hxr, hyr] at hp
        obtain rfl := Except.ok.inj hp
        exact (hiff (a, b)).mpr ⟨hxok a hxr, hyok b hyr⟩
  · obtain ⟨h1, h2⟩ := (hiff p).mp hp
    rw [hxfound hexact p.1 h1, hyfound hexact p.2 h2]
    rfl

theorem tryIntegerDensity_eq (t : FloatArith) (hr : validate r = .ok ()) :
    Converts (fun o => tryIntegerDensity o t r unit limit)
      (IntegerDensity r unit limit.toNat) t.Exact := by
  cases hs : factor r.unit with
  | none =>
    cases hg : factor unit with
    | none => exact tryIntegerDensity_aspect t hr hs hg
    | some g =>
      refine ⟨.error .unitMismatch, fun o => ?_, (fun p hp => by cases hp), fun _ hex => ?_⟩
      · simp only [tryIntegerDensity, hr, hs, hg]
        rfl
      · obtain ⟨p, hp⟩ := hex
        have := hp.exact
        simp only [density, Density.of, perMetre_eq, hs, hg, Option.map_some, Option.map_none,
          reduceCtorEq] at this
  | some f =>
    cases hg : factor unit with
    | none =>
      refine ⟨.error .unitMismatch, fun o => ?_, (fun p hp => by cases hp), fun _ hex => ?_⟩
      · simp only [tryIntegerDensity, hr, hs, hg]
        rfl
      · obtain ⟨p, hp⟩ := hex
        have := hp.exact
        simp only [density, Density.of, perMetre_eq, hs, hg, Option.map_some, Option.map_none,
          reduceCtorEq] at this
    | some g => exact tryIntegerDensity_physical t hr hs hg

/-! ### The result -/

/-- Comparison is exact and an equivalence, and conversion gives exact integers, in every build. -/
structure DensityExact : Prop where
  compares : ∀ o a b, validate a = .ok () → validate b = .ok () →
    ∃ same : Bool, isEquivalentTo o a b = some same ∧ (same = true ↔ density a = density b)
  equivalence : ∀ o, Equivalence fun a b : { r : Resolution // validate r = .ok () } =>
    isEquivalentTo o a.1 b.1 = some true
  /-- Whatever the arithmetic, only exact integers are accepted; where it is exact, all are. -/
  converts : ∀ t r unit limit, validate r = .ok () →
    Converts (fun o => tryIntegerDensity o t r unit limit)
      (IntegerDensity r unit limit.toNat) t.Exact

/-- The conversions and comparisons are exact. -/
theorem density_exact : DensityExact where
  compares o a b ha hb := ⟨_, isEquivalentTo_eq o ha hb, decide_eq_true_iff⟩
  equivalence o := by
    have hiff (a b : { r : Resolution // validate r = .ok () }) :
        isEquivalentTo o a.1 b.1 = some true ↔ density a.1 = density b.1 := by
      rw [isEquivalentTo_eq o a.2 b.2, Option.some_inj, decide_eq_true_iff]
    refine ⟨fun a => (hiff a a).mpr rfl, fun h => ?_, fun h h' => ?_⟩
    · exact (hiff _ _).mpr ((hiff _ _).mp h).symm
    · exact (hiff _ _).mpr (((hiff _ _).mp h).trans ((hiff _ _).mp h'))
  converts t _ _ _ hr := tryIntegerDensity_eq t hr

/-- Dots per inch that are whole pixels per metre. -/
theorem density_exact_inch : ∃ p, tryIntegerDensity .panics .ideal
    ⟨F64.ofNat 254, F64.ofNat 127, .inch⟩ .meter 10000 = .ok p := by
  have hx := F64.value_ofNat (n := 254) (by decide) (by decide)
  have hy := F64.value_ofNat (n := 127) (by decide) (by decide)
  have hvalid : validate ⟨F64.ofNat 254, F64.ofNat 127, .inch⟩ = .ok () :=
    validate_eq_ok.mpr ⟨F64.ofNat_valid (by decide) (by decide),
      F64.ofNat_valid (by decide) (by decide)⟩
  obtain ⟨res, hrun, -, hfound⟩ := density_exact.converts .ideal _ .meter 10000 hvalid
  obtain ⟨p, hp⟩ := hfound FloatArith.ideal_exact ⟨(10000, 5000), by
    simp only [density, Density.of, perMetre, hx, hy]
    norm_num, (fun hnone => by cases hnone), by decide⟩
  exact ⟨p, (hrun .panics).trans (by rw [hp]; rfl)⟩

end Zencodec.PixelDensity
