/-
Property lists within the budgets.

`parseBplist` returns the reference decoding of a well-formed list that fits the budgets, and
nothing else (`parseBplist_some`, `parseBplist_of_decode`). Of the bounds that its description
promises, one is missed: a list whose innermost container is empty is accepted with one
container more than the 32 that may be nested, and only such a list is
(`parseBplist_faithful_iff`).
-/
import Zencodec.Bplist.Budgets
import Zencodec.Bplist.Decoded

open Slices Act

namespace Zencodec.Bplist

variable {Ω F : Type}

/-- The host with another allocator. -/
def Env.withAllocator (env : Env Ω F) (tryReserve : Ω → Bool × Ω) : Env Ω F :=
  { env with tryReserve }

/-- What is promised of a file: a value is the decoding of the objects from the root on, within
the bounds, and there is none where a cycle lies below the root or a bound would be exceeded.
Objects are those of the area (`Layout.object`). -/
structure Faithful (env : Env Ω F) (data : Bytes) (w : Ω) : Prop where
  decodes : ∀ tryReserve v, parseBplist (env.withAllocator tryReserve) data w = some v →
    ∃ L : Layout, L.WellFormed ∧ L.bytes = data ∧
      (∃ d, decode (L.object env.reals) d L.root = some v) ∧
      v.visits ≤ maxNodes ∧ v.nesting ≤ maxDepth ∧ v.payload ≤ maxBytes
  refuses : ∀ L : Layout, L.WellFormed → L.bytes = data →
    (Cyclic (L.object env.reals) L.root ∨
      ∃ d v, decode (L.object env.reals) d L.root = some v ∧
        (maxNodes < v.visits ∨ maxDepth < v.nesting ∨ maxBytes < v.payload)) →
    ∀ tryReserve, parseBplist (env.withAllocator tryReserve) data w = none

/-- A list that the budgets allow has an empty container as many references below its root as
containers may be nested. -/
def DeepEmpty (env : Env Ω F) (data : Bytes) : Prop :=
  ∃ L : Layout, L.WellFormed ∧ L.bytes = data ∧
    EmptyBelow (L.object env.reals) maxDepth L.root ∧
    (decode (L.object env.reals) (maxDepth + 1) L.root).isSome ∧
    env.price (L.object env.reals) (maxDepth + 1) L.root ≤ (maxNodes, maxBytes)

section Parsing

variable {env : Env Ω F} {L : Layout} {v : PlistValue F} {w : Ω}

theorem Layout.WellFormed.fits (h : L.WellFormed) (hword : 2 ^ 32 ≤ env.usizeMax + 1) :
    2 * L.bytes.length ≤ env.usizeMax := by
  have hlen := h.length
  have hmax : maxBytes = 16777216 := rfl
  omega

theorem Layout.WellFormed.reads (h : L.WellFormed) (hword : 2 ^ 32 ≤ env.usizeMax + 1) :
    Reads env L.ctx (L.object env.reals) where
  refSize := h.refSize
  room := by
    have hlen := h.length_bytes
    have hfits := h.fits hword
    rw [L.payload_ctx, List.length_append]
    show 2 * (8 + L.area.length) ≤ env.usizeMax
    omega
  small := by
    intro r hr
    have hlen := h.length_bytes
    have hfits := h.fits hword
    have hcount := Nat.le_mul_of_pos_right L.offsets.length h.offsetSize.1
    unfold Layout.object
    rw [List.getElem?_eq_none (by omega)]
    rfl
  cases := h.object_cases (by have := h.fits hword; omega)

theorem parseBplist_layout (h : L.WellFormed) (hword : 2 ^ 32 ≤ env.usizeMax + 1) :
    parseBplist env L.bytes w =
      (L.ctx.readObject env (maxDepth + 1) L.root (⟨maxNodes, maxBytes⟩, w)).1.toOption := by
  unfold parseBplist
  rw [h.readTrailer (by have := h.fits hword; omega)]
  rfl

theorem exists_layout_of_parse {data : Bytes}
    (h : parseBplist env data w = some v) : ∃ L : Layout, L.WellFormed ∧ L.bytes = data := by
  obtain ⟨⟨c, top⟩, hread, -⟩ := Option.bind_eq_some_iff.mp h
  have hacc := accepted_of_readTrailer hread
  exact ⟨_, hacc.wellFormed, hacc.bytes_eq⟩

/-- A value is the decoding of the root, and was paid for. -/
theorem parseBplist_some (hwf : L.WellFormed) (hword : 2 ^ 32 ≤ env.usizeMax + 1)
    (h : parseBplist env L.bytes w = some v) :
    decode (L.object env.reals) (maxDepth + 1) L.root = some v ∧
      env.price (L.object env.reals) (maxDepth + 1) L.root ≤ (maxNodes, maxBytes) := by
  have hmax : maxBytes = 16777216 := rfl
  have hspec := takes_readObject (hwf.reads hword) (maxDepth + 1) L.root (⟨maxNodes, maxBytes⟩, w)
    (show maxBytes ≤ env.usizeMax by omega)
  rw [parseBplist_layout hwf hword] at h
  generalize hrun : L.ctx.readObject env (maxDepth + 1) L.root (⟨maxNodes, maxBytes⟩, w) = run
    at h
  have hok := hspec.run.1
  rw [hrun] at hok
  obtain ⟨r, t⟩ := run
  cases r with
  | error e => cases h
  | ok u =>
    obtain rfl : u = v := Option.some_inj.mp h
    have hpaid := hok u rfl
    refine ⟨hpaid.value, ?_⟩
    have hleft : ((maxNodes, maxBytes) : ℕ × ℕ) = left t + _ := hpaid.paid
    rw [hleft]
    exact le_add_self

/-- The decoding of the root is returned, where it fits the budgets and the allocator succeeds. -/
theorem parseBplist_of_decode (hwf : L.WellFormed) (hword : 2 ^ 32 ≤ env.usizeMax + 1)
    (hcalm : Generous env.toHost)
    (hdecode : decode (L.object env.reals) (maxDepth + 1) L.root = some v)
    (hprice : env.price (L.object env.reals) (maxDepth + 1) L.root ≤ (maxNodes, maxBytes)) :
    parseBplist env L.bytes w = some v := by
  have hmax : maxBytes = 16777216 := rfl
  have hspec := takes_readObject (hwf.reads hword) (maxDepth + 1) L.root (⟨maxNodes, maxBytes⟩, w)
    (show maxBytes ≤ env.usizeMax by omega)
  rw [parseBplist_layout hwf hword]
  have hok := hspec.run.1
  have herr := hspec.run.2
  generalize L.ctx.readObject env (maxDepth + 1) L.root (⟨maxNodes, maxBytes⟩, w) = run
    at hok herr ⊢
  obtain ⟨r, t⟩ := run
  cases r with
  | error e => exact absurd hprice (herr e rfl hcalm (by rw [hdecode]; rfl))
  | ok u =>
    have hvalue := (hok u rfl).value
    rw [hdecode] at hvalue
    exact hvalue.symm

theorem leaf_of_object {reals : Reals F} {i n : ℕ}
    (h : L.object reals i = some (.leaf v n)) : v.IsContainer = false ∧ v.leafBytes ≤ n := by
  unfold Layout.object at h
  obtain ⟨off, -, h⟩ := Option.bind_eq_some_iff.mp h
  split at h
  · split at h
    · cases h
    · exact leaf_of_shapeOf h
  · cases h

/-- What a list within the budgets holds is within the bounds. -/
theorem bounds_of_price {d : ℕ} (hdecode : decode (L.object env.reals) d L.root = some v)
    (hprice : env.price (L.object env.reals) d L.root ≤ (maxNodes, maxBytes)) :
    v.visits ≤ maxNodes ∧ v.payload ≤ maxBytes := by
  refine ⟨?_, ?_⟩
  · rw [visits_decode (fun i u n hu => (leaf_of_object hu).1) hdecode]
    exact hprice.1
  · exact (payload_decode env.valueSize env.entrySize (fun i u n hu => leaf_of_object hu)
      hdecode).trans hprice.2

end Parsing

/-- The promise is kept on every file but those with an empty container at the deepest level. -/
theorem parseBplist_faithful_iff (env : Env Ω F) (hword : 2 ^ 32 ≤ env.usizeMax + 1)
    (data : Bytes) (w : Ω) : Faithful env data w ↔ ¬ DeepEmpty env data := by
  constructor
  · rintro hfaithful ⟨L, hwf, rfl, hempty, hsome, hprice⟩
    obtain ⟨v, hv⟩ := Option.isSome_iff_exists.mp hsome
    have hparse : parseBplist (env.withAllocator fun w => (true, w)) L.bytes w = some v :=
      parseBplist_of_decode hwf hword (fun _ => rfl) hv hprice
    obtain ⟨-, -, -, -, -, hnesting, -⟩ := hfaithful.decodes _ v hparse
    have hdeep := (nesting_decode (fun i u n hu => (leaf_of_object hu).1) hv).2.mpr hempty
    omega
  · intro hnot
    have hshallow : ∀ L : Layout, L.WellFormed → L.bytes = data → ∀ tryReserve v,
        parseBplist (env.withAllocator tryReserve) data w = some v →
        decode (L.object env.reals) (maxDepth + 1) L.root = some v ∧
          v.visits ≤ maxNodes ∧ v.nesting ≤ maxDepth ∧ v.payload ≤ maxBytes := by
      rintro L hwf rfl tryReserve v hparse
      have hword : 2 ^ 32 ≤ (env.withAllocator tryReserve).usizeMax + 1 := hword
      obtain ⟨hdecode, hprice⟩ := parseBplist_some hwf hword hparse
      obtain ⟨hvisits, hpayload⟩ := bounds_of_price hdecode hprice
      have hnesting := nesting_decode (fun i u n hu => (leaf_of_object hu).1) hdecode
      have hne : v.nesting ≠ maxDepth + 1 := fun hdeep =>
        hnot ⟨L, hwf, rfl, hnesting.2.mp hdeep, Option.isSome_iff_exists.mpr ⟨v, hdecode⟩, hprice⟩
      exact ⟨hdecode, hvisits, by have := hnesting.1; omega, hpayload⟩
    refine ⟨fun tryReserve v hparse => ?_, fun L hwf hL hbad tryReserve => ?_⟩
    · obtain ⟨L, hwf, hL⟩ := exists_layout_of_parse hparse
      obtain ⟨hdecode, hbounds⟩ := hshallow L hwf hL tryReserve v hparse
      exact ⟨L, hwf, hL, ⟨_, hdecode⟩, hbounds⟩
    · cases hparse : parseBplist (env.withAllocator tryReserve) data w with
      | none => rfl
      | some v =>
        obtain ⟨hdecode, hvisits, hnesting, hpayload⟩ := hshallow L hwf hL tryReserve v hparse
        rcases hbad with hcyclic | ⟨d, u, hu, hover⟩
        · rw [decode_eq_none_of_cyclic hcyclic] at hdecode
          cases hdecode
        · -- Both decodings are the same value, which is within the bounds.
          have hmax := decode_mono (Nat.le_max_left d (maxDepth + 1)) hu
          rw [decode_mono (Nat.le_max_right d (maxDepth + 1)) hdecode] at hmax
          obtain rfl := Option.some_inj.mp hmax
          omega

/-- A host of 64 bits. The floating-point numbers are kept as their bits. -/
def host64 : Env Unit ℕ :=
  { usizeMax := 2 ^ 64 - 1, tryReserve := fun w => (true, w), ofF32 := id, ofF64 := id,
    valueSize := 32, entrySize := 56 }

/-- Arrays in one another, of which only the innermost is empty. -/
def nestedArrays (n : ℕ) : Bytes :=
  let objects := (List.range n).flatMap fun i => [0xA1, UInt8.ofNat (i + 1)]
  let offsets := (List.range (n + 1)).map fun i => UInt8.ofNat (8 + 2 * i)
  header ++ objects ++ [0xA0] ++ offsets ++ [0, 0, 0, 0, 0, 0, 1, 1] ++
    wordBytes .big 8 (n + 1) ++ wordBytes .big 8 0 ++ wordBytes .big 8 (8 + 2 * n + 1)

theorem nestedArrays_two_faithful :
    Faithful host64 (nestedArrays 2) () ↔ ¬ DeepEmpty host64 (nestedArrays 2) :=
  parseBplist_faithful_iff host64 (by decide) (nestedArrays 2) ()

/-- Of 33 arrays in one another, the reader accepts all. -/
theorem nestedArrays_unfaithful : ¬ Faithful host64 (nestedArrays 32) () := by
  intro hfaithful
  have hdeep : (parseBplist (host64.withAllocator fun w => (true, w)) (nestedArrays 32) ()).map
      PlistValue.nesting = some 33 := by decide +kernel
  obtain ⟨v, hparse, hnesting⟩ := Option.map_eq_some_iff.mp hdeep
  obtain ⟨-, -, -, -, -, hbound, -⟩ := hfaithful.decodes _ v hparse
  have hmax : maxDepth = 32 := rfl
  omega

end Zencodec.Bplist
