/-
A seekable file: its bytes and the position of the next write.

`overwrite` writes at the position and moves it; a write past the end fills the hole with
zeros.

* `overwrite_overwrite` — writes in pieces are one write;
* `overwrite_end` — at the end a write appends;
* `overwrite_splice` — a write in range replaces what stands there.
-/
import Zencodec.Lib.Slices

open Slices

structure ByteFile where
  content : Bytes
  cursor : ℕ
  deriving DecidableEq

namespace ByteFile

/-- A file with the position at its end. -/
def atEnd (content : Bytes) : ByteFile := ⟨content, content.length⟩

def seek (d : ByteFile) (cursor : ℕ) : ByteFile := ⟨d.content, cursor⟩

def overwrite (d : ByteFile) (bytes : Bytes) : ByteFile where
  content := d.content.take d.cursor ++ List.replicate (d.cursor - d.content.length) 0 ++ bytes ++
    d.content.drop (d.cursor + bytes.length)
  cursor := d.cursor + bytes.length

theorem overwrite_of_le {d : ByteFile} (h : d.cursor ≤ d.content.length) (bytes : Bytes) :
    d.overwrite bytes = ⟨d.content.take d.cursor ++ bytes ++
      d.content.drop (d.cursor + bytes.length), d.cursor + bytes.length⟩ := by
  unfold overwrite
  rw [Nat.sub_eq_zero_of_le h, List.replicate_zero, List.append_nil]

theorem overwrite_nil {d : ByteFile} (h : d.cursor ≤ d.content.length) : d.overwrite [] = d := by
  rw [overwrite_of_le h, List.append_nil, List.length_nil, Nat.add_zero, List.take_append_drop]

theorem cursor_overwrite_le {d : ByteFile} (h : d.cursor ≤ d.content.length) (bytes : Bytes) :
    (d.overwrite bytes).cursor ≤ (d.overwrite bytes).content.length := by
  rw [overwrite_of_le h]
  simp only [List.length_append, List.length_take, List.length_drop]
  omega

/-- A write in two pieces. -/
theorem overwrite_overwrite {d : ByteFile} (h : d.cursor ≤ d.content.length) (a b : Bytes) :
    (d.overwrite a).overwrite b = d.overwrite (a ++ b) := by
  rw [overwrite_of_le (cursor_overwrite_le h a), overwrite_of_le h a, overwrite_of_le h (a ++ b)]
  have hfront : (d.content.take d.cursor ++ a).length = d.cursor + a.length := by
    rw [List.length_append, List.length_take]
    omega
  simp only [ByteFile.mk.injEq]
  refine ⟨?_, by rw [List.length_append, Nat.add_assoc]⟩
  rw [← hfront, List.take_left, ← List.drop_drop, List.drop_left, List.drop_drop, hfront,
    List.length_append, Nat.add_assoc, List.append_assoc (d.content.take d.cursor)]

/-- At the end a write appends. -/
theorem overwrite_end (content bytes : Bytes) :
    (atEnd content).overwrite bytes = atEnd (content ++ bytes) := by
  have h : (atEnd content).cursor ≤ (atEnd content).content.length := Nat.le_refl _
  rw [overwrite_of_le h]
  unfold atEnd
  rw [List.take_length, List.drop_eq_nil_of_le (Nat.le_add_right _ _), List.append_nil,
    List.length_append]

/-- A write that fits behind `old` replaces what stands there. -/
theorem overwrite_splice {old s s' bytes : Bytes} {offset : ℕ}
    (h : splice s offset bytes = some s') :
    (ByteFile.mk (old ++ s) (old.length + offset)).overwrite bytes =
      ⟨old ++ s', old.length + offset + bytes.length⟩ := by
  obtain ⟨hle, rfl⟩ := splice_eq_some.mp h
  rw [overwrite_of_le (by simp only [List.length_append]; omega)]
  simp only [ByteFile.mk.injEq, and_true]
  rw [Nat.add_assoc, List.take_length_add_append, List.drop_length_add_append]
  simp only [List.append_assoc]

end ByteFile
