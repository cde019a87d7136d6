/-
What a decoded list holds.

The decoding of an object has as many values as its unfolding (`visits_decode`), and no more text
and data than was allocated for it (`payload_decode`): a UTF-16 unit becomes three bytes of UTF-8
at most.
-/
import Zencodec.Bplist.Reference

open Slices

namespace Zencodec.Bplist

variable {F : Type}

/-! ### Text -/

theorem utf8ByteSize_ofList (l : List Char) :
    (String.ofList l).utf8ByteSize = (l.map Char.utf8Size).sum := by
  induction l with
  | nil => rfl
  | cons c l ih =>
    rw [String.ofList_cons]
    simp [ih]

/-- A unit makes a character of three bytes or fewer. -/
theorem utf8Size_ofNat {u : ℕ} (h : u < 0x10000) : (Char.ofNat u).utf8Size ≤ 3 := by
  have hval : (Char.ofNat u).val ≤ 0xFFFF := by
    rw [UInt32.le_iff_toNat_le]
    unfold Char.ofNat
    split
    · show (UInt32.ofNatLT u _).toNat ≤ _
      simp
      omega
    · decide
  unfold Char.utf8Size
  dsimp only
  split_ifs with hone htwo hthree
  · decide
  · decide
  · decide
  · exact absurd hval hthree

theorem size_decodeUtf16 {l : List ℕ} (h : ∀ u ∈ l, u < 0x10000) :
    ((decodeUtf16 l).map Char.utf8Size).sum ≤ l.length * 3 := by
  have hreplacement : replacement.utf8Size = 3 := by decide
  fun_induction decodeUtf16 l with
  | case1 => exact le_refl 0
  | case2 u hu =>
    have hsize := utf8Size_ofNat (h u List.mem_cons_self)
    simpa using hsize
  | case3 u hu => simp [hreplacement]
  | case4 u v rest hu ih =>
    have hsize := utf8Size_ofNat (h u List.mem_cons_self)
    have hrest := ih fun w hw => h w (List.mem_cons_of_mem _ hw)
    rw [List.map_cons, List.sum_cons, List.length_cons]
    omega
  | case5 u v rest hu hpair ih =>
    have hsize := (Char.ofNat (0x10000 + (u - 0xD800) * 0x400 + (v - 0xDC00))).utf8Size_le_four
    have hrest := ih fun w hw => h w (List.mem_cons_of_mem _ (List.mem_cons_of_mem _ hw))
    rw [List.map_cons, List.sum_cons, List.length_cons, List.length_cons]
    omega
  | case6 u v rest hu hpair ih =>
    have hrest := ih fun w hw => h w (List.mem_cons_of_mem _ hw)
    rw [List.map_cons, List.sum_cons, List.length_cons, hreplacement]
    omega

theorem units_lt {bytes : Bytes} : ∀ u ∈ units bytes, u < 0x10000 := by
  fun_induction units bytes with
  | case1 a b rest ih =>
    intro u hu
    rcases List.mem_cons.mp hu with rfl | hu
    · have := a.toNat_lt
      have := b.toNat_lt
      omega
    · exact ih u hu
  | case2 => intro u hu; cases hu

theorem length_units (bytes : Bytes) : (units bytes).length = bytes.length / 2 := by
  fun_induction units bytes with
  | case1 a b rest ih =>
    simp only [List.length_cons, ih]
    omega
  | case2 l h =>
    cases l with
    | nil => rfl
    | cons a l =>
      cases l with
      | nil => simp
      | cons b l => exact absurd rfl (h a b l)

theorem size_fromUtf8 {bytes : Bytes} {text : String} (h : fromUtf8 bytes = some text) :
    text.utf8ByteSize = bytes.length := by
  unfold fromUtf8 String.fromUTF8? at h
  split at h
  · obtain rfl := Option.some_inj.mp h
    rfl
  · cases h

/-! ### Leaves -/

theorem length_of_front {n : ℕ} {l bytes : Bytes} (h : front n l = some bytes) :
    bytes.length = n := by
  unfold front at h
  split at h
  · next hle =>
    obtain rfl := Option.some_inj.mp h
    exact List.length_take_of_le hle
  · cases h

/-- A leaf is no container, and holds no more than it costs. -/
theorem leaf_of_shapeOf {reals : Reals F} {r m n : ℕ} {body : Bytes} {v : PlistValue F}
    (h : shapeOf reals r m body = some (.leaf v n)) : v.IsContainer = false ∧ v.leafBytes ≤ n := by
  unfold shapeOf at h
  dsimp only at h
  split at h
  · split at h
    · cases h
      exact ⟨rfl, le_refl 0⟩
    split at h
    · cases h
      exact ⟨rfl, le_refl 0⟩
    · cases h
  · obtain ⟨bytes, -, h⟩ := Option.map_eq_some_iff.mp h
    cases h
    exact ⟨rfl, le_refl 0⟩
  · split at h
    · obtain ⟨bytes, -, h⟩ := Option.map_eq_some_iff.mp h
      cases h
      exact ⟨rfl, le_refl 0⟩
    split at h
    · obtain ⟨bytes, -, h⟩ := Option.map_eq_some_iff.mp h
      cases h
      exact ⟨rfl, le_refl 0⟩
    · cases h
  · split at h
    · obtain ⟨bytes, -, h⟩ := Option.map_eq_some_iff.mp h
      cases h
      exact ⟨rfl, le_refl 0⟩
    · cases h
  · -- data
    obtain ⟨p, -, h⟩ := Option.bind_eq_some_iff.mp h
    obtain ⟨bytes, hbytes, h⟩ := Option.map_eq_some_iff.mp h
    cases h
    exact ⟨rfl, (length_of_front hbytes).le⟩
  · -- bytes of text
    obtain ⟨p, -, h⟩ := Option.bind_eq_some_iff.mp h
    obtain ⟨bytes, hbytes, h⟩ := Option.bind_eq_some_iff.mp h
    obtain ⟨text, htext, h⟩ := Option.map_eq_some_iff.mp h
    cases h
    exact ⟨rfl, ((size_fromUtf8 htext).trans (length_of_front hbytes)).le⟩
  · -- units of text
    obtain ⟨p, -, h⟩ := Option.bind_eq_some_iff.mp h
    obtain ⟨bytes, hbytes, h⟩ := Option.map_eq_some_iff.mp h
    cases h
    refine ⟨rfl, ?_⟩
    have hunits : ∀ u ∈ units bytes, u < 0x10000 := units_lt
    have hsize := size_decodeUtf16 hunits
    rw [length_units, length_of_front hbytes, Nat.mul_div_cancel _ (by omega)] at hsize
    exact (utf8ByteSize_ofList _).trans_le hsize
  · obtain ⟨bytes, -, h⟩ := Option.map_eq_some_iff.mp h
    cases h
    exact ⟨rfl, le_refl 0⟩
  all_goals
    first
    | cases h
    | (obtain ⟨p, -, h⟩ := Option.bind_eq_some_iff.mp h
       obtain ⟨bytes, -, h⟩ := Option.map_eq_some_iff.mp h
       cases h)

/-! ### Values -/

section Values

variable {object : ℕ → Option (Shape F)} {d i : ℕ} {v : PlistValue F}

/-- A value has as many values as were visited for it. -/
theorem visits_decode (hleafy : Leafy object) (h : decode object d i = some v) :
    v.visits = expansion object d i := by
  induction d generalizing i v with
  | zero => cases h
  | succ d ih =>
    rcases decode_cases h with ⟨n, hobject⟩ | ⟨refs, items, hobject, hitems, rfl⟩ |
      ⟨entries, out, hobject, hout, rfl⟩
    · rw [PlistValue.visits_leaf (hleafy i v n hobject), expansion, hobject]
    · rw [PlistValue.visits_array, expansion, hobject]
      rw [map_of_mapM hitems fun r u hu => ih hu]
    · rw [PlistValue.visits_dict, expansion, hobject]
      have hentry : ∀ (p : ℕ × ℕ) (e : String × PlistValue F), decodeEntry object d p = some e →
          1 + e.2.visits = expansion object d p.1 + expansion object d p.2 := fun p e he => by
        obtain ⟨hkey, hvalue⟩ := decodeEntry_some he
        rw [← ih hkey, ← ih hvalue, PlistValue.visits_leaf (v := .string e.1) rfl]
      rw [map_of_mapM hout hentry]

/-- A value holds no more bytes than were allocated for it. -/
theorem payload_decode (valueSize entrySize : ℕ)
    (hleaf : ∀ i v n, object i = some (.leaf v n) → v.IsContainer = false ∧ v.leafBytes ≤ n)
    (h : decode object d i = some v) : v.payload ≤ cost valueSize entrySize object d i := by
  induction d generalizing i v with
  | zero => cases h
  | succ d ih =>
    rcases decode_cases h with ⟨n, hobject⟩ | ⟨refs, items, hobject, hitems, rfl⟩ |
      ⟨entries, out, hobject, hout, rfl⟩
    · obtain ⟨hnot, hle⟩ := hleaf i v n hobject
      rw [PlistValue.payload_leaf hnot, cost, hobject]
      exact hle
    · rw [PlistValue.payload_array, cost, hobject]
      exact (sum_mapM_le hitems fun r u hu => ih hu).trans (Nat.le_add_left _ _)
    · rw [PlistValue.payload_dict, cost, hobject]
      refine (sum_mapM_le hout fun p e he => ?_).trans (Nat.le_add_left _ _)
      obtain ⟨hkey, hvalue⟩ := decodeEntry_some he
      exact Nat.add_le_add (ih hkey) (ih hvalue)

/-- More levels change no value. -/
theorem decode_mono {e : ℕ} (hde : d ≤ e) (h : decode object d i = some v) :
    decode object e i = some v := by
  induction d generalizing e i v with
  | zero => cases h
  | succ d ih =>
    obtain ⟨e, rfl⟩ : ∃ e', e = e' + 1 := ⟨e - 1, by omega⟩
    have hde := Nat.le_of_succ_le_succ hde
    rcases decode_cases h with ⟨n, hobject⟩ | ⟨refs, items, hobject, hitems, rfl⟩ |
      ⟨entries, out, hobject, hout, rfl⟩
    · exact decode_leaf hobject
    · rw [decode_array hobject, mapM_of_forall hitems fun r u hu => ih hde hu, Option.map_some]
    · rw [decode_dict hobject, mapM_of_forall hout fun p e he =>
        decodeEntry_of (ih hde (decodeEntry_some he).1) (ih hde (decodeEntry_some he).2),
        Option.map_some]

end Values

end Zencodec.Bplist
