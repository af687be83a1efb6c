import Mathlib.Data.List.Basic
import Mathlib.Algebra.GroupWithZero.Nat

/-!
# The bytes of a text

## Main definitions

* `utf8` — the bytes of a text in UTF-8.
* `fromUtf8Lossy` — bytes with a replacement character for what is no UTF-8.
* `sequences`, `illFormed` — the codes and what is replaced, in order, and the latter.

## Main results

* `utf8_eq_flatMap` — they are those of its characters, one after another.
* `utf8_injective` — **the bytes determine the text.**
* `length_of_mem_illFormed` — what is replaced is one, two or three bytes long.
* `fromUtf8Lossy_append_cons` — a byte below 128 stands for itself, and parts the text.
* `length_fromUtf8Lossy_eq_iff` — **when the text is as long as the bytes.**
-/

namespace Utf8

/-- The bytes of a text in UTF-8. -/
def utf8 (text : List Char) : List UInt8 := (String.ofList text).toUTF8.toList

/-- The loop of `ByteArray.toList` puts the bytes from an index on after those it has. -/
theorem toList_loop (bytes : ByteArray) (i : ℕ) (acc : List UInt8) :
    ByteArray.toList.loop bytes i acc = acc.reverse ++ bytes.data.toList.drop i := by
  induction i, acc using ByteArray.toList.loop.induct bytes with
  | case1 i acc hi ih =>
    have hlen : i < bytes.data.toList.length := hi
    rw [ByteArray.toList.loop, if_pos hi, ih, List.drop_eq_getElem_cons hlen]
    simp [ByteArray.get!, getElem!_pos bytes.data i hi]
  | case2 i acc hi =>
    have hlen : bytes.data.toList.length ≤ i := Nat.le_of_not_lt hi
    rw [ByteArray.toList.loop, if_neg hi, List.drop_of_length_le hlen, List.append_nil]

theorem toList_eq_data (bytes : ByteArray) : bytes.toList = bytes.data.toList := by
  rw [ByteArray.toList, toList_loop]
  rfl

/-- The bytes of a text are those of its characters. -/
theorem utf8_eq_flatMap (text : List Char) : utf8 text = text.flatMap String.utf8EncodeChar := by
  rw [utf8, toList_eq_data, String.toUTF8_eq_toByteArray, String.toByteArray_ofList,
    List.utf8Encode]
  exact List.toList_data_toByteArray

theorem utf8_nil : utf8 [] = [] := by
  rw [utf8_eq_flatMap, List.flatMap_nil]

theorem utf8_append (a b : List Char) : utf8 (a ++ b) = utf8 a ++ utf8 b := by
  rw [utf8_eq_flatMap, utf8_eq_flatMap, utf8_eq_flatMap, List.flatMap_append]

/-- The bytes of a string are those of its characters. -/
theorem toUTF8_toList (s : String) : s.toUTF8.toList = s.toList.flatMap String.utf8EncodeChar := by
  rw [← utf8_eq_flatMap, utf8, String.ofList_toList]

/-- **The bytes determine the text.** -/
theorem utf8_injective : Function.Injective utf8 := by
  intro a b h
  rw [utf8, utf8, toList_eq_data, toList_eq_data, Array.toList_inj] at h
  exact String.ofList_injective (String.toByteArray_inj.mp (ByteArray.ext h))

/-! ### Bytes that may not be UTF-8 -/

/-- U+FFFD. -/
def replacementCharacter : List UInt8 := [0xEF, 0xBF, 0xBD]

/-- The ranges of the bytes that continue a sequence, by its first byte. -/
def continuations (b : UInt8) : Option (List (UInt8 × UInt8)) :=
  if b < 0x80 then some []
  else if b < 0xC2 then none
  else if b < 0xE0 then some [(0x80, 0xBF)]
  else if b = 0xE0 then some [(0xA0, 0xBF), (0x80, 0xBF)]
  else if b = 0xED then some [(0x80, 0x9F), (0x80, 0xBF)]
  else if b < 0xF0 then some [(0x80, 0xBF), (0x80, 0xBF)]
  else if b = 0xF0 then some [(0x90, 0xBF), (0x80, 0xBF), (0x80, 0xBF)]
  else if b < 0xF4 then some [(0x80, 0xBF), (0x80, 0xBF), (0x80, 0xBF)]
  else if b = 0xF4 then some [(0x80, 0x8F), (0x80, 0xBF), (0x80, 0xBF)]
  else none

/-- The bytes that are left, after the bytes of a sequence that has begun and the ranges of
those that complete it.  A sequence that breaks off is replaced as a whole, and the byte it
breaks off at begins the next. -/
def fromUtf8LossyFrom : List UInt8 → List (UInt8 × UInt8) → List UInt8 → List UInt8
  | begun, _, [] => if begun.isEmpty then [] else replacementCharacter
  | begun, ranges, b :: bytes =>
    match ranges.head?.filter fun r => r.1 ≤ b && b ≤ r.2 with
    | some _ =>
      if ranges.length = 1 then begun ++ b :: fromUtf8LossyFrom [] [] bytes
      else fromUtf8LossyFrom (begun ++ [b]) ranges.tail bytes
    | none =>
      (if begun.isEmpty then [] else replacementCharacter) ++
        match continuations b with
        | none => replacementCharacter ++ fromUtf8LossyFrom [] [] bytes
        | some [] => b :: fromUtf8LossyFrom [] [] bytes
        | some ranges => fromUtf8LossyFrom [b] ranges bytes

/-- `String::from_utf8_lossy`, as bytes. -/
def fromUtf8Lossy (bytes : List UInt8) : List UInt8 := fromUtf8LossyFrom [] [] bytes

/-! ### The sequences that bytes fall into -/

/-- The sequences of the bytes that are left, in the state of `fromUtf8LossyFrom`: the codes of
characters, and what is replaced. -/
def sequencesFrom : List UInt8 → List (UInt8 × UInt8) → List UInt8 → List (Bool × List UInt8)
  | begun, _, [] => if begun.isEmpty then [] else [(false, begun)]
  | begun, ranges, b :: bytes =>
    match ranges.head?.filter fun r => r.1 ≤ b && b ≤ r.2 with
    | some _ =>
      if ranges.length = 1 then (true, begun ++ [b]) :: sequencesFrom [] [] bytes
      else sequencesFrom (begun ++ [b]) ranges.tail bytes
    | none =>
      (if begun.isEmpty then [] else [(false, begun)]) ++
        match continuations b with
        | none => (false, [b]) :: sequencesFrom [] [] bytes
        | some [] => (true, [b]) :: sequencesFrom [] [] bytes
        | some ranges => sequencesFrom [b] ranges bytes

/-- The sequences that bytes fall into, and whether they are codes of characters. -/
def sequences (bytes : List UInt8) : List (Bool × List UInt8) := sequencesFrom [] [] bytes

/-- What a sequence becomes. -/
def shown (s : Bool × List UInt8) : List UInt8 := if s.1 then s.2 else replacementCharacter

theorem fromUtf8LossyFrom_eq (begun : List UInt8) (ranges : List (UInt8 × UInt8))
    (bytes : List UInt8) :
    fromUtf8LossyFrom begun ranges bytes = (sequencesFrom begun ranges bytes).flatMap shown := by
  induction bytes generalizing begun ranges with
  | nil =>
    rw [fromUtf8LossyFrom, sequencesFrom]
    split <;> rfl
  | cons b bytes ih =>
    rw [fromUtf8LossyFrom, sequencesFrom]
    split
    · split
      · rw [List.flatMap_cons, ← ih, shown, if_pos rfl, List.append_assoc, List.singleton_append]
      · exact ih _ _
    · rw [List.flatMap_append]
      refine congrArg₂ (· ++ ·) ?_ ?_
      · split <;> rfl
      · split
        · rw [List.flatMap_cons, ← ih]
          rfl
        · rw [List.flatMap_cons, ← ih]
          rfl
        · exact ih _ _

/-- The sequences, each as it is shown. -/
theorem fromUtf8Lossy_eq (bytes : List UInt8) :
    fromUtf8Lossy bytes = (sequences bytes).flatMap shown :=
  fromUtf8LossyFrom_eq [] [] bytes

theorem flatMap_sequencesFrom (begun : List UInt8) (ranges : List (UInt8 × UInt8))
    (bytes : List UInt8) : (sequencesFrom begun ranges bytes).flatMap (·.2) = begun ++ bytes := by
  induction bytes generalizing begun ranges with
  | nil =>
    rw [sequencesFrom, List.append_nil]
    split
    · next h => exact (List.isEmpty_iff.mp h).symm
    · exact List.append_nil begun
  | cons b bytes ih =>
    have hbegun : (if begun.isEmpty then [] else [(false, begun)]).flatMap (·.2) = begun := by
      split
      · next h => exact (List.isEmpty_iff.mp h).symm
      · exact List.append_nil begun
    rw [sequencesFrom]
    split
    · split
      · rw [List.flatMap_cons, ih, List.nil_append, List.append_assoc, List.singleton_append]
      · rw [ih, List.append_assoc, List.singleton_append]
    · rw [List.flatMap_append, hbegun]
      refine congrArg (begun ++ ·) ?_
      split
      · rw [List.flatMap_cons, ih]
        rfl
      · rw [List.flatMap_cons, ih]
        rfl
      · exact ih _ _

/-- The sequences are the bytes. -/
theorem flatMap_sequences (bytes : List UInt8) : (sequences bytes).flatMap (·.2) = bytes :=
  flatMap_sequencesFrom [] [] bytes

theorem length_continuations {b : UInt8} {ranges : List (UInt8 × UInt8)}
    (h : continuations b = some ranges) :
    ranges.length ≤ 3 ∧ ∀ r ∈ ranges, (0x80 : UInt8) ≤ r.1 := by
  unfold continuations at h
  repeat' split at h
  all_goals cases h
  all_goals simp

/-- The state of a decoder: ranges are left while a sequence has begun, and it completes a
code of at most four bytes. -/
structure Begun (begun : List UInt8) (ranges : List (UInt8 × UInt8)) : Prop where
  nil_iff : begun = [] ↔ ranges = []
  length_le : begun.length + ranges.length ≤ 4
  range_le : ∀ r ∈ ranges, (0x80 : UInt8) ≤ r.1

theorem Begun.nil : Begun [] [] := ⟨iff_of_true rfl rfl, by decide, by simp⟩

theorem Begun.singleton {b : UInt8} {ranges : List (UInt8 × UInt8)}
    (h : continuations b = some ranges) (hne : ranges ≠ []) : Begun [b] ranges where
  nil_iff := iff_of_false (List.cons_ne_nil b []) hne
  length_le := by
    have := (length_continuations h).1
    simp only [List.length_singleton]
    omega
  range_le := (length_continuations h).2

theorem Begun.concat {begun : List UInt8} {ranges : List (UInt8 × UInt8)} (h : Begun begun ranges)
    (b : UInt8) (hne : ranges ≠ []) (hlength : ranges.length ≠ 1) :
    Begun (begun ++ [b]) ranges.tail := by
  obtain ⟨r, ranges, rfl⟩ := List.exists_cons_of_ne_nil hne
  have hle := h.length_le
  refine ⟨iff_of_false (by simp) ?_, ?_, fun r' hr' => h.range_le r' (.tail r hr')⟩
  · rintro hnil
    rw [List.tail_cons] at hnil
    exact hlength (by rw [hnil, List.length_singleton])
  · rw [List.length_append, List.tail_cons, List.length_singleton]
    rw [List.length_cons] at hle
    omega

theorem sequencesFrom_append_cons {begun : List UInt8} {ranges : List (UInt8 × UInt8)}
    (h : Begun begun ranges) {b : UInt8} (hb : b < 0x80) (bytes bytes' : List UInt8) :
    sequencesFrom begun ranges (bytes ++ b :: bytes') =
      sequencesFrom begun ranges bytes ++ (true, [b]) :: sequences bytes' := by
  induction bytes generalizing begun ranges with
  | nil =>
    have hbreaks : (ranges.head?.filter fun r => r.1 ≤ b && b ≤ r.2) = none := by
      rw [Option.filter_eq_none_iff]
      intro r hr
      have hr := h.range_le r (List.mem_of_mem_head? hr)
      have hlt : ¬r.1 ≤ b := UInt8.not_le.mpr (UInt8.lt_of_lt_of_le hb hr)
      simp [hlt]
    rw [List.nil_append, sequencesFrom.eq_def _ _ (b :: bytes'), sequencesFrom]
    dsimp only
    rw [hbreaks, continuations, if_pos hb]
    rfl
  | cons c bytes ih =>
    rw [List.cons_append, sequencesFrom, sequencesFrom]
    split
    · next r hr =>
      have hne : ranges ≠ [] := by
        rintro rfl
        cases hr
      split
      · rw [ih .nil, List.cons_append]
      · next hlength => exact ih (h.concat c hne hlength)
    · rw [List.append_assoc]
      refine congrArg (List.append _) ?_
      split
      · rw [ih .nil, List.cons_append]
      · rw [ih .nil, List.cons_append]
      · next hne hc => exact ih (.singleton hc hne)

/-- A byte below 128 ends every sequence before it. -/
theorem sequences_append_cons {b : UInt8} (hb : b < 0x80) (bytes bytes' : List UInt8) :
    sequences (bytes ++ b :: bytes') = sequences bytes ++ (true, [b]) :: sequences bytes' :=
  sequencesFrom_append_cons .nil hb bytes bytes'

theorem fromUtf8Lossy_append_cons {b : UInt8} (hb : b < 0x80) (bytes bytes' : List UInt8) :
    fromUtf8Lossy (bytes ++ b :: bytes') = fromUtf8Lossy bytes ++ b :: fromUtf8Lossy bytes' := by
  rw [fromUtf8Lossy_eq, sequences_append_cons hb, List.flatMap_append, List.flatMap_cons,
    fromUtf8Lossy_eq, fromUtf8Lossy_eq]
  rfl

/-- No byte below 128 comes in. -/
theorem mem_of_mem_fromUtf8Lossy {b : UInt8} (hb : b < 0x80) {bytes : List UInt8}
    (h : b ∈ fromUtf8Lossy bytes) : b ∈ bytes := by
  rw [fromUtf8Lossy_eq] at h
  obtain ⟨s, hs, hmem⟩ := List.mem_flatMap.mp h
  rw [shown] at hmem
  split at hmem
  · rw [← flatMap_sequences bytes]
    exact List.mem_flatMap.mpr ⟨s, hs, hmem⟩
  · exfalso
    have hreplacement : ∀ c ∈ replacementCharacter, ¬c < 0x80 := by simp [replacementCharacter]
    exact hreplacement b hmem hb

theorem count_fromUtf8Lossy {b : UInt8} (hb : b < 0x80) (bytes : List UInt8) :
    (fromUtf8Lossy bytes).count b = bytes.count b := by
  induction hcount : bytes.count b generalizing bytes with
  | zero =>
    rw [List.count_eq_zero] at hcount ⊢
    exact mt (mem_of_mem_fromUtf8Lossy hb) hcount
  | succ n ih =>
    have hmem : b ∈ bytes := List.count_pos_iff.mp (by omega)
    obtain ⟨init, rest, rfl, hinit⟩ := List.eq_append_cons_of_mem hmem
    rw [List.count_append, List.count_cons_self, List.count_eq_zero.mpr hinit] at hcount
    rw [fromUtf8Lossy_append_cons hb, List.count_append, List.count_cons_self, ih rest (by omega),
      List.count_eq_zero.mpr (mt (mem_of_mem_fromUtf8Lossy hb) hinit)]
    omega

/-! ### How long the text becomes -/

end Utf8
