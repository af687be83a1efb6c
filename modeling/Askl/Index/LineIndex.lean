import Mathlib.Data.List.TakeWhile

/-!
# Lines of a file

Lines end with a line feed, and a carriage return before it belongs to its line.

## Main definitions

* `lineToOffset` — where a line begins.
* `nextLineOffset` — where the line of an offset ends.
* `IsLine` — a line of a content, with what is before and after it.

## Main results

* `lineToOffset_le`, `le_nextLineOffset`, `nextLineOffset_le` — lines lie in their file.
* `IsLine.lineToOffset_eq`, `IsLine.nextLineOffset_eq` — **the offsets are those of the line.**
-/

namespace Askl

/-- The loop of `line_to_offset`, from a line and an index on. -/
def lineToOffsetFrom (line : ℕ) : ℕ → ℕ → List UInt8 → Option ℕ
  | _, _, [] => none
  | current, idx, b :: bytes =>
    if b = 10 then
      if current + 1 = line then some (idx + 1)
      else lineToOffsetFrom line (current + 1) (idx + 1) bytes
    else lineToOffsetFrom line current (idx + 1) bytes

/-- `line_to_offset`: the offset of a line, which are counted from 1. -/
def lineToOffset (content : List UInt8) (line : ℕ) : Option ℕ :=
  if line = 0 then none
  else if line = 1 then some 0
  else lineToOffsetFrom line 1 0 content

/-- `next_line_offset`: the offset of the next line feed, or the end of the content. -/
def nextLineOffset (content : List UInt8) (start : ℕ) : ℕ :=
  ((content.drop start).findIdx? (· == 10)).elim content.length (start + ·)

theorem lineToOffsetFrom_le {line current idx k : ℕ} {bytes : List UInt8}
    (h : lineToOffsetFrom line current idx bytes = some k) : k ≤ idx + bytes.length := by
  induction bytes generalizing current idx with
  | nil => cases h
  | cons b bytes ih =>
    have hlength : (b :: bytes).length = bytes.length + 1 := rfl
    rw [lineToOffsetFrom] at h
    split at h
    · split at h
      · obtain rfl := Option.some.inj h
        omega
      · have := ih h
        omega
    · have := ih h
      omega

/-- A line begins in its file, or at the end of it. -/
theorem lineToOffset_le {content : List UInt8} {line k : ℕ}
    (h : lineToOffset content line = some k) : k ≤ content.length := by
  unfold lineToOffset at h
  split at h
  · cases h
  · split at h
    · obtain rfl := Option.some.inj h
      exact Nat.zero_le _
    · simpa using lineToOffsetFrom_le h

/-- A line does not end before it begins. -/
theorem le_nextLineOffset {content : List UInt8} {start : ℕ} (h : start ≤ content.length) :
    start ≤ nextLineOffset content start := by
  unfold nextLineOffset
  cases (content.drop start).findIdx? (· == 10) with
  | none => exact h
  | some i => exact Nat.le_add_right _ _

/-- A line ends in its file. -/
theorem nextLineOffset_le (content : List UInt8) (start : ℕ) :
    nextLineOffset content start ≤ content.length := by
  unfold nextLineOffset
  cases hfind : (content.drop start).findIdx? (· == 10) with
  | none => exact Nat.le_refl _
  | some i =>
    have hlt : i < (content.drop start).length := (List.findIdx?_eq_some_iff_getElem.mp hfind).1
    rw [List.length_drop] at hlt
    show start + i ≤ content.length
    omega

/-! ### What a line is -/

/-- A line of a content, counted from 1: what is before it ends with a line feed, and what is
after it begins with one. -/
structure IsLine (content : List UInt8) (line : ℕ) (before text after : List UInt8) : Prop where
  eq : content = before ++ (text ++ after)
  count : before.count 10 + 1 = line
  before : before = [] ∨ ∃ init, before = init ++ [10]
  text : 10 ∉ text
  after : after = [] ∨ ∃ rest, after = 10 :: rest

/-- Every number up to that of the breaks and one is that of a line. -/
theorem exists_isLine {content : List UInt8} {line : ℕ} (hpos : 0 < line)
    (hline : line ≤ content.count 10 + 1) :
    ∃ before text after, IsLine content line before text after := by
  have hbefore : ∃ before rest, content = before ++ rest ∧ before.count 10 + 1 = line ∧
      (before = [] ∨ ∃ init, before = init ++ [10]) := by
    induction content generalizing line with
    | nil => exact ⟨[], [], rfl, by rw [List.count_nil] at *; omega, .inl rfl⟩
    | cons c content ih =>
      rcases Nat.lt_or_ge 1 line with hlt | hle
      · by_cases hc : c = 10
        · subst hc
          rw [List.count_cons_self] at hline
          obtain ⟨before, rest, rfl, hcount, hends⟩ :=
            ih (show 0 < line - 1 by omega) (by omega)
          refine ⟨10 :: before, rest, rfl, by rw [List.count_cons_self]; omega, .inr ?_⟩
          rcases hends with rfl | ⟨init, rfl⟩
          · exact ⟨[], rfl⟩
          · exact ⟨10 :: init, rfl⟩
        · rw [List.count_cons_of_ne hc] at hline
          obtain ⟨before, rest, rfl, hcount, hends⟩ := ih hpos hline
          refine ⟨c :: before, rest, rfl, by rwa [List.count_cons_of_ne hc], .inr ?_⟩
          rcases hends with rfl | ⟨init, rfl⟩
          · rw [List.count_nil] at hcount
            omega
          · exact ⟨c :: init, rfl⟩
      · exact ⟨[], c :: content, rfl, by rw [List.count_nil]; omega, .inl rfl⟩
  obtain ⟨before, rest, rfl, hcount, hends⟩ := hbefore
  refine ⟨before, rest.takeWhile (· != 10), rest.dropWhile (· != 10),
    by rw [List.takeWhile_append_dropWhile], hcount, hends, fun hmem => ?_, ?_⟩
  · simpa using List.mem_takeWhile_imp hmem
  · cases hdrop : rest.dropWhile (· != 10) with
    | nil => exact .inl rfl
    | cons b after =>
      have hb := List.head_dropWhile_not (· != 10) (l := rest)
        (by rw [hdrop]; exact List.cons_ne_nil b after)
      simp only [hdrop, List.head_cons, bne_eq_false_iff_eq] at hb
      exact .inr ⟨after, by rw [hb]⟩

theorem lineToOffsetFrom_append {line current : ℕ} (idx : ℕ) {bytes : List UInt8}
    (h : bytes.count 10 + current + 1 = line) (bytes' : List UInt8) :
    lineToOffsetFrom line current idx (bytes ++ 10 :: bytes') = some (idx + bytes.length + 1) := by
  induction bytes generalizing current idx with
  | nil =>
    rw [List.count_nil] at h
    rw [List.nil_append, lineToOffsetFrom, if_pos rfl, if_pos (by omega)]
    rfl
  | cons b bytes ih =>
    rw [List.cons_append, lineToOffsetFrom, List.length_cons]
    by_cases hb : b = 10
    · subst hb
      rw [List.count_cons_self] at h
      rw [if_pos rfl, if_neg (by omega), ih (idx + 1) (by omega)]
      congr 1
      omega
    · rw [List.count_cons_of_ne hb] at h
      rw [if_neg hb, ih (idx + 1) h]
      congr 1
      omega

theorem lineToOffsetFrom_eq_none {line current : ℕ} (idx : ℕ) {bytes : List UInt8}
    (h : bytes.count 10 + current < line) : lineToOffsetFrom line current idx bytes = none := by
  induction bytes generalizing current idx with
  | nil => rfl
  | cons b bytes ih =>
    rw [lineToOffsetFrom]
    by_cases hb : b = 10
    · subst hb
      rw [List.count_cons_self] at h
      rw [if_pos rfl, if_neg (by omega), ih (idx + 1) (by omega)]
    · rw [List.count_cons_of_ne hb] at h
      rw [if_neg hb, ih (idx + 1) h]

/-- There is no line after the last. -/
theorem lineToOffset_eq_none {content : List UInt8} {line : ℕ}
    (h : content.count 10 + 1 < line) : lineToOffset content line = none := by
  rw [lineToOffset, if_neg (by omega), if_neg (by omega)]
  exact lineToOffsetFrom_eq_none 0 h

section Line

variable {content before text after : List UInt8} {line : ℕ}

/-- **A line begins after what is before it.** -/
theorem IsLine.lineToOffset_eq (h : IsLine content line before text after) :
    lineToOffset content line = some before.length := by
  obtain ⟨rfl, rfl, hbefore, -, -⟩ := h
  rcases hbefore with rfl | ⟨init, rfl⟩
  · rfl
  · rw [lineToOffset, if_neg (by omega), if_neg (by simp), List.append_assoc, List.singleton_append,
      lineToOffsetFrom_append 0 (by simp), List.length_append, List.length_singleton]
    congr 1
    omega

/-- **It ends before the next line feed.** -/
theorem IsLine.nextLineOffset_eq (h : IsLine content line before text after) :
    nextLineOffset content before.length = before.length + text.length := by
  obtain ⟨rfl, -, -, htext, hafter⟩ := h
  have hnone : text.findIdx? (· == 10) = none := by
    rw [List.findIdx?_eq_none_iff]
    intro b hb
    rw [beq_eq_false_iff_ne]
    rintro rfl
    exact htext hb
  rw [nextLineOffset, List.drop_left, List.findIdx?_append, hnone]
  rcases hafter with rfl | ⟨rest, rfl⟩
  · simp
  · simp [List.findIdx?_cons]

end Line
end Askl
