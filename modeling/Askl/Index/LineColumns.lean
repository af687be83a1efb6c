import Askl.Index.LineIndex
import Mathlib.Data.List.Basic
import Mathlib.Algebra.Group.Nat.Defs

/-!
# Lines and columns

Offsets are shown as lines and columns, found by a search in the table of the offsets at
which lines begin, and lines and columns are read back by a scan of the content.  Both are
compared with the lines themselves.

## Main definitions

* `LineIndex` — the table of a file, from zero upwards.
* `LineIndex.lineOf`, `LineIndex.lineColOf` — the line of an offset, and its column.
* `offsetFromLineCol` — the offset of a line and a column.
* `LineOffsetsAgree` — what the conversions must be to each other.

## Main results

* `IsLine.lineColOf_eq`, `IsLine.offsetFromLineCol_eq` — both are those of the line.
* `lineOffsetsAgree` — the conversions agree on every content below the 32-bit bound.
-/

namespace Askl

/-! ### The table of lines -/

/-- The offsets after the line feeds, from an index on. -/
def lineStartsFrom : ℕ → List UInt8 → List ℕ
  | _, [] => []
  | idx, b :: bytes =>
    if b = 10 then (idx + 1) :: lineStartsFrom (idx + 1) bytes else lineStartsFrom (idx + 1) bytes

theorem lineStartsFrom_append (idx : ℕ) (bytes bytes' : List UInt8) :
    lineStartsFrom idx (bytes ++ bytes') =
      lineStartsFrom idx bytes ++ lineStartsFrom (idx + bytes.length) bytes' := by
  induction bytes generalizing idx with
  | nil => rfl
  | cons b bytes ih =>
    have hlength : idx + (b :: bytes).length = idx + 1 + bytes.length := by
      rw [List.length_cons]
      omega
    rw [List.cons_append, lineStartsFrom, lineStartsFrom, ih, hlength]
    split <;> rfl

theorem length_lineStartsFrom (idx : ℕ) (bytes : List UInt8) :
    (lineStartsFrom idx bytes).length = bytes.count 10 := by
  induction bytes generalizing idx with
  | nil => rfl
  | cons b bytes ih =>
    rw [lineStartsFrom]
    by_cases hb : b = 10
    · rw [if_pos hb, List.length_cons, ih, hb, List.count_cons_self]
    · rw [if_neg hb, ih, List.count_cons_of_ne hb]

/-- A line begins past the index, and not past the end. -/
theorem of_mem_lineStartsFrom {idx start : ℕ} {bytes : List UInt8}
    (h : start ∈ lineStartsFrom idx bytes) : idx < start ∧ start ≤ idx + bytes.length := by
  induction bytes generalizing idx with
  | nil => cases h
  | cons b bytes ih =>
    rw [List.length_cons]
    rw [lineStartsFrom] at h
    split at h
    · rcases List.mem_cons.mp h with rfl | h
      · omega
      · have := ih h
        omega
    · have := ih h
      omega

theorem pairwise_lineStartsFrom (idx : ℕ) (bytes : List UInt8) :
    (lineStartsFrom idx bytes).Pairwise (· < ·) := by
  induction bytes generalizing idx with
  | nil => exact .nil
  | cons b bytes ih =>
    rw [lineStartsFrom]
    split
    · exact .cons (fun start hstart => (of_mem_lineStartsFrom hstart).1) (ih _)
    · exact ih _

/-- `LineIndex`: the offsets at which the lines of a file begin. -/
structure LineIndex where
  lineStarts : List ℕ
  /-- The first line begins with the file. -/
  head : lineStarts.head? = some 0
  /-- The search asks for a sorted table. -/
  increasing : lineStarts.Pairwise (· < ·)

namespace LineIndex

/-- `LineIndex::new`. -/
def new (content : List UInt8) : LineIndex where
  lineStarts := 0 :: lineStartsFrom 0 content
  head := rfl
  increasing := .cons (fun _ hstart => (of_mem_lineStartsFrom hstart).1)
    (pairwise_lineStartsFrom 0 content)

/-- `line_of`: how many lines begin at the offset or before. -/
def lineOf (li : LineIndex) (offset : ℕ) : ℕ :=
  (li.lineStarts.takeWhile (· ≤ offset)).length

variable (li : LineIndex) (offset : ℕ)

/-- The first line begins before every offset. -/
theorem lineOf_pos : 0 < li.lineOf offset := by
  obtain ⟨rest, hrest⟩ := List.head?_eq_some_iff.mp li.head
  rw [lineOf, hrest, List.takeWhile_cons_of_pos (by simp)]
  exact Nat.succ_pos _

/-- The line is one of the table. -/
theorem lineOf_sub_one_lt : li.lineOf offset - 1 < li.lineStarts.length := by
  have hpos := li.lineOf_pos offset
  have hle : li.lineOf offset ≤ li.lineStarts.length :=
    (List.takeWhile_sublist _).length_le
  omega

/-- `line_col_of`. -/
def lineColOf : ℕ × ℕ :=
  let line := li.lineOf offset
  let lineStart := li.lineStarts.get ⟨line - 1, li.lineOf_sub_one_lt offset⟩
  (line, offset - lineStart + 1)

end LineIndex

/-! ### The scan -/

/-- The answer of the scan in a line that begins and ends at offsets; `as i32`. -/
def columnOffset (lineStart lineEnd col : ℕ) : Option ℤ :=
  if col - 1 ≤ lineEnd - lineStart then some (Int.bmod (lineStart + (col - 1) : ℕ) (2 ^ 32))
  else none

/-- The loop of `offset_from_line_col`, past a line feed or not. -/
def offsetFromLineColFrom (line col : ℕ) : ℕ → ℕ → ℕ → List UInt8 → Option ℤ
  | current, idx, lineStart, [] =>
    if current = line then columnOffset lineStart idx col else none
  | current, idx, lineStart, b :: bytes =>
    if b = 10 then
      if current = line then columnOffset lineStart idx col
      else offsetFromLineColFrom line col (current + 1) (idx + 1) (idx + 1) bytes
    else offsetFromLineColFrom line col current (idx + 1) lineStart bytes

/-- `offset_from_line_col`. -/
def offsetFromLineCol (content : List UInt8) (line col : ℕ) : Option ℤ :=
  if line = 0 ∨ col = 0 then none else offsetFromLineColFrom line col 1 0 0 content

/-- The scan passes the lines before the one it looks for. -/
theorem offsetFromLineColFrom_append {line col current idx lineStart : ℕ} {bytes : List UInt8}
    (h : bytes.count 10 + current + 1 = line) (bytes' : List UInt8) :
    offsetFromLineColFrom line col current idx lineStart (bytes ++ 10 :: bytes') =
      offsetFromLineColFrom line col line (idx + bytes.length + 1) (idx + bytes.length + 1)
        bytes' := by
  induction bytes generalizing current idx lineStart with
  | nil =>
    rw [List.count_nil] at h
    rw [List.nil_append, offsetFromLineColFrom, if_pos rfl, if_neg (by omega),
      show current + 1 = line by omega]
    rfl
  | cons b bytes ih =>
    have hlength : idx + (b :: bytes).length + 1 = idx + 1 + bytes.length + 1 := by
      rw [List.length_cons]
      omega
    rw [List.cons_append, offsetFromLineColFrom, hlength]
    by_cases hb : b = 10
    · rw [hb, List.count_cons_self] at h
      rw [if_pos hb, if_neg (by omega), ih (by omega)]
    · rw [List.count_cons_of_ne hb] at h
      rw [if_neg hb, ih h]

/-- In the line it looks for, the scan goes on to the end of it. -/
theorem offsetFromLineColFrom_line {line col idx lineStart : ℕ} {text after : List UInt8}
    (htext : 10 ∉ text) (hafter : after = [] ∨ ∃ rest, after = 10 :: rest) :
    offsetFromLineColFrom line col line idx lineStart (text ++ after) =
      columnOffset lineStart (idx + text.length) col := by
  induction text generalizing idx with
  | nil =>
    rcases hafter with rfl | ⟨rest, rfl⟩
    · rw [List.nil_append, offsetFromLineColFrom, if_pos rfl]
      rfl
    · rw [List.nil_append, offsetFromLineColFrom, if_pos rfl, if_pos rfl]
      rfl
  | cons b text ih =>
    obtain ⟨hb, htext⟩ := not_or.mp (List.mem_cons.not.mp htext)
    have hlength : idx + (b :: text).length = idx + 1 + text.length := by
      rw [List.length_cons]
      omega
    rw [List.cons_append, offsetFromLineColFrom, if_neg (Ne.symm hb), ih htext, hlength]

/-- The scan finds no line past the last. -/
theorem offsetFromLineColFrom_eq_none {line col current idx lineStart : ℕ} {bytes : List UInt8}
    (h : bytes.count 10 + current < line) :
    offsetFromLineColFrom line col current idx lineStart bytes = none := by
  induction bytes generalizing current idx lineStart with
  | nil =>
    rw [List.count_nil] at h
    rw [offsetFromLineColFrom, if_neg (by omega)]
  | cons b bytes ih =>
    rw [offsetFromLineColFrom]
    by_cases hb : b = 10
    · rw [hb, List.count_cons_self] at h
      rw [if_pos hb, if_neg (by omega), ih (by omega)]
    · rw [List.count_cons_of_ne hb] at h
      rw [if_neg hb, ih h]

/-! ### The offsets of a line -/

section Line

variable {content before text after : List UInt8} {line : ℕ}

/-- The table up to a line: the offsets of the lines before it, and its own. -/
theorem IsLine.lineStarts_eq (h : IsLine content line before text after) :
    (LineIndex.new content).lineStarts = (0 :: lineStartsFrom 0 before) ++
      lineStartsFrom (before.length + text.length) after := by
  have htext : lineStartsFrom before.length text = [] := by
    refine List.eq_nil_of_length_eq_zero ?_
    rw [length_lineStartsFrom]
    exact List.count_eq_zero.mpr h.text
  have hcontent := lineStartsFrom_append 0 before (text ++ after)
  rw [← h.eq, lineStartsFrom_append, Nat.zero_add, htext, List.nil_append] at hcontent
  exact congrArg (0 :: ·) hcontent

/-- Its own is the last of them. -/
theorem IsLine.getLast_eq (h : IsLine content line before text after) :
    (0 :: lineStartsFrom 0 before).getLast (List.cons_ne_nil _ _) = before.length := by
  rcases h.before with rfl | ⟨init, rfl⟩
  · rfl
  · have hlast : 0 :: lineStartsFrom 0 (init ++ [10]) =
        (0 :: lineStartsFrom 0 init) ++ [init.length + 1] := by
      rw [lineStartsFrom_append, Nat.zero_add]
      rfl
    simp only [hlast, List.getLast_append_of_ne_nil _ (List.cons_ne_nil _ []),
      List.getLast_singleton, List.length_append, List.length_singleton]

/-- **The offsets of a line, its end included, are in it.** -/
theorem IsLine.lineOf_eq (h : IsLine content line before text after) {j : ℕ}
    (hj : j ≤ text.length) : (LineIndex.new content).lineOf (before.length + j) = line := by
  have hbefore : ∀ start ∈ 0 :: lineStartsFrom 0 before,
      decide (start ≤ before.length + j) = true := by
    intro start hstart
    rw [decide_eq_true_eq]
    rcases List.mem_cons.mp hstart with rfl | hstart
    · exact Nat.zero_le _
    · have := (of_mem_lineStartsFrom hstart).2
      omega
  have hafter : (lineStartsFrom (before.length + text.length) after).takeWhile
      (· ≤ before.length + j) = [] := by
    rw [List.takeWhile_eq_nil_iff]
    intro hpos
    rw [decide_eq_true_eq, not_le]
    refine Nat.lt_of_le_of_lt ?_ (of_mem_lineStartsFrom (List.get_mem _ ⟨0, hpos⟩)).1
    omega
  rw [LineIndex.lineOf, h.lineStarts_eq, List.takeWhile_append_of_pos hbefore, hafter,
    List.append_nil, List.length_cons, length_lineStartsFrom, h.count]

/-- **They are counted from its first.** -/
theorem IsLine.lineColOf_eq (h : IsLine content line before text after) {j : ℕ}
    (hj : j ≤ text.length) :
    (LineIndex.new content).lineColOf (before.length + j) = (line, j + 1) := by
  have hline := h.lineOf_eq hj
  have hstart : (LineIndex.new content).lineStarts[line - 1]? = some before.length := by
    have hlength : (0 :: lineStartsFrom 0 before).length - 1 = line - 1 := by
      rw [List.length_cons, length_lineStartsFrom, h.count]
    rw [h.lineStarts_eq, ← hlength, List.getElem?_append_left (by simp), ← h.getLast_eq,
      List.getLast_eq_getElem, List.getElem?_eq_getElem]
  obtain ⟨hlt, hget⟩ := List.getElem?_eq_some_iff.mp hstart
  rw [LineIndex.lineColOf]
  refine Prod.ext hline ?_
  simp only [List.get_eq_getElem, hline, hget]
  omega

/-- **The scan finds the columns of the line, one past its last included, and no other.** -/
theorem IsLine.offsetFromLineCol_eq (h : IsLine content line before text after) {col : ℕ}
    (hcol : col ≠ 0) :
    offsetFromLineCol content line col =
      if col - 1 ≤ text.length then some (Int.bmod (before.length + (col - 1) : ℕ) (2 ^ 32))
      else none := by
  obtain ⟨rfl, rfl, hbefore, htext, hafter⟩ := h
  rw [offsetFromLineCol, if_neg (not_or.mpr ⟨Nat.succ_ne_zero _, hcol⟩)]
  rcases hbefore with rfl | ⟨init, rfl⟩
  · rw [List.nil_append, List.count_nil, Nat.zero_add, offsetFromLineColFrom_line htext hafter,
      columnOffset, Nat.sub_zero, Nat.zero_add]
    rfl
  · rw [List.append_assoc, List.singleton_append,
      offsetFromLineColFrom_append (by simp), offsetFromLineColFrom_line htext hafter,
      columnOffset, Nat.add_sub_cancel_left]
    simp only [List.length_append, List.length_singleton, Nat.zero_add]

end Line

/-- Every offset is that of a place in a line. -/
theorem exists_isLine_of_le {content : List UInt8} {offset : ℕ} (h : offset ≤ content.length) :
    ∃ line before text after j, IsLine content line before text after ∧ j ≤ text.length ∧
      offset = before.length + j := by
  have hcount : (content.take offset).count 10 ≤ content.count 10 :=
    (List.take_sublist offset content).count_le 10
  obtain ⟨before, text, after, hline⟩ :=
    exists_isLine (Nat.succ_pos ((content.take offset).count 10)) (Nat.succ_le_succ hcount)
  have htaken : (content.take offset).count 10 = before.count 10 :=
    (Nat.succ.inj hline.count).symm
  have heq := hline.eq
  -- the line begins at the offset or before: what is before it ends with a line feed
  have hstart : before.length ≤ offset := by
    rcases hline.before with rfl | ⟨init, rfl⟩
    · exact Nat.zero_le _
    · rw [List.length_append, List.length_singleton]
      by_contra hlt
      rw [heq, List.append_assoc, List.take_append_of_le_length (by omega), List.count_append,
        List.count_singleton_self] at htaken
      have := (List.take_sublist offset init).count_le 10
      omega
  -- and ends there or after: what is after it begins with one
  have hend : offset ≤ before.length + text.length := by
    rcases hline.after with rfl | ⟨rest, rfl⟩
    · rw [heq, List.append_nil, List.length_append] at h
      exact h
    · by_contra hlt
      obtain ⟨k, rfl⟩ : ∃ k, offset = (before ++ (text ++ [10])).length + k :=
        ⟨offset - (before ++ (text ++ [10])).length, by
          simp only [List.length_append, List.length_singleton]
          omega⟩
      rw [heq, show before ++ (text ++ 10 :: rest) = before ++ (text ++ [10]) ++ rest by simp,
        List.take_length_add_append, List.count_append, List.count_append, List.count_append,
        List.count_singleton_self] at htaken
      omega
  exact ⟨_, before, text, after, offset - before.length, hline, by omega, by omega⟩

/-! ### The claim -/

/-- What the conversions must be to each other: an offset shown as a line and a column is read
back, and so is a line and a column that has an offset; a line ends at a line feed, the next
one beginning after it, or with the file, and is then the last; and its offsets, the one it
ends at included, are in it. -/
structure LineOffsetsAgree (content : List UInt8) : Prop where
  offset : ∀ k ≤ content.length, ∃ line col, (LineIndex.new content).lineColOf k = (line, col) ∧
    offsetFromLineCol content line col = some (k : ℤ)
  lineCol : ∀ line col k, offsetFromLineCol content line col = some k →
    0 ≤ k ∧ k ≤ content.length ∧ (LineIndex.new content).lineColOf k.toNat = (line, col)
  lines : ∀ line s, lineToOffset content line = some s → s ≤ nextLineOffset content s ∧
    (content[nextLineOffset content s]? = some 10 ∧
        lineToOffset content (line + 1) = some (nextLineOffset content s + 1) ∨
      nextLineOffset content s = content.length ∧ lineToOffset content (line + 1) = none)
  lineOf : ∀ line s k, lineToOffset content line = some s → s ≤ k →
    k ≤ nextLineOffset content s → (LineIndex.new content).lineOf k = line

/-- The line at an offset is one of the content. -/
theorem isLine_of_lineToOffset {content : List UInt8} {line s : ℕ}
    (h : lineToOffset content line = some s) :
    ∃ before text after, IsLine content line before text after ∧ s = before.length := by
  have hpos : 0 < line := by
    rw [Nat.pos_iff_ne_zero]
    rintro rfl
    cases h
  have hle : line ≤ content.count 10 + 1 := by
    by_contra hlt
    rw [lineToOffset_eq_none (Nat.lt_of_not_le hlt)] at h
    cases h
  obtain ⟨before, text, after, hline⟩ := exists_isLine hpos hle
  rw [hline.lineToOffset_eq] at h
  exact ⟨before, text, after, hline, (Option.some.inj h).symm⟩

/-- The next line begins after the line feed, if there is one. -/
theorem IsLine.next {content before text rest : List UInt8} {line : ℕ}
    (h : IsLine content line before text (10 :: rest)) :
    lineToOffset content (line + 1) = some (before.length + text.length + 1) := by
  have htext : text.count 10 = 0 := List.count_eq_zero.mpr h.text
  rw [h.eq, lineToOffset, if_neg (Nat.succ_ne_zero line), if_neg (by have := h.count; omega),
    ← List.append_assoc, lineToOffsetFrom_append 0 ?_, List.length_append, Nat.zero_add]
  rw [List.count_append, htext, ← h.count]

theorem bmod_of_lt {k : ℕ} (h : k < 2 ^ 31) : Int.bmod (k : ℤ) (2 ^ 32) = k :=
  Int.bmod_eq_of_le (by omega) (by omega)

/-- **The conversions agree on every content below the 32-bit bound.** -/
theorem lineOffsetsAgree {content : List UInt8} (h : content.length < 2 ^ 31) :
    LineOffsetsAgree content where
  offset := by
    intro k hk
    obtain ⟨line, before, text, after, j, hline, hj, rfl⟩ := exists_isLine_of_le hk
    refine ⟨line, j + 1, hline.lineColOf_eq hj, ?_⟩
    rw [hline.offsetFromLineCol_eq (Nat.succ_ne_zero j), Nat.succ_sub_one, if_pos hj,
      bmod_of_lt (by omega)]
  lineCol := by
    intro line col k hk
    have hpos : ¬ (line = 0 ∨ col = 0) := by
      intro hzero
      rw [offsetFromLineCol, if_pos hzero] at hk
      cases hk
    obtain ⟨hline0, hcol0⟩ := not_or.mp hpos
    have hle : line ≤ content.count 10 + 1 := by
      by_contra hlt
      rw [offsetFromLineCol, if_neg hpos, offsetFromLineColFrom_eq_none (by omega)] at hk
      cases hk
    obtain ⟨before, text, after, hline⟩ := exists_isLine (Nat.pos_of_ne_zero hline0) hle
    have hlength := congrArg List.length hline.eq
    rw [List.length_append, List.length_append] at hlength
    rw [hline.offsetFromLineCol_eq hcol0] at hk
    split_ifs at hk with hcol
    rw [bmod_of_lt (by omega), Option.some.injEq] at hk
    subst hk
    refine ⟨by omega, by omega, ?_⟩
    rw [Int.toNat_natCast, hline.lineColOf_eq hcol, Nat.sub_add_cancel (Nat.pos_of_ne_zero hcol0)]
  lines := by
    intro line s hs
    obtain ⟨before, text, after, hline, rfl⟩ := isLine_of_lineToOffset hs
    have heq := hline.eq
    rw [hline.nextLineOffset_eq]
    refine ⟨Nat.le_add_right _ _, ?_⟩
    rcases hline.after with rfl | ⟨rest, rfl⟩
    · right
      refine ⟨by rw [heq, List.append_nil, List.length_append], lineToOffset_eq_none ?_⟩
      rw [heq, List.append_nil, List.count_append, List.count_eq_zero.mpr hline.text,
        ← hline.count]
      exact Nat.lt_succ_self _
    · left
      refine ⟨?_, hline.next⟩
      rw [heq, ← List.append_assoc, ← List.length_append, List.getElem?_append_right (Nat.le_refl _),
        Nat.sub_self]
      rfl
  lineOf := by
    intro line s k hs hsk hke
    obtain ⟨before, text, after, hline, rfl⟩ := isLine_of_lineToOffset hs
    rw [hline.nextLineOffset_eq] at hke
    have := hline.lineOf_eq (j := k - before.length) (by omega)
    rwa [Nat.add_sub_cancel' hsk] at this

/-- The conversions agree on a line with a line feed. -/
theorem lineOffsetsAgree_line : LineOffsetsAgree [97, 10] := lineOffsetsAgree (by decide)

end Askl
