import Askl.Query.Search

/-!
# The ranges of a search

The offsets of a match are counted in the text that is looked in.  In the case-insensitive mode
this is a lower-cased copy, whose characters need not have the lengths of the content's.

## Main definitions

* `RangeRight` — what a range should be: one of the content, on its characters, that covers the
  query.
* `RangesRight` — every range that a search returns from a content is right.
* `KeepsLengths` — lower-casing a content changes the length of no character.

## Main results

* `rangesRight_of_keepsLengths` — a content that keeps its lengths has right ranges.
* `rangesRight_iff` — **case-sensitive ranges are right, and case-insensitive ones exactly from a
  content that keeps its lengths.**
-/

namespace Askl

open Leftmost Utf8

/-! ### What a range should be -/

/-- A range of a content: it begins and ends with characters, and what it covers is the query, in
the case-insensitive mode after lower-casing both. -/
def RangeRight (locale : Locale) (inputs : SearchInputs) (content : Bytes) (row : SearchMatchRow) :
    Prop :=
  ∃ before covered after : Text,
    content = utf8 before ++ utf8 covered ++ utf8 after ∧
    row.startByte = (utf8 before).length ∧
    row.endByte = (utf8 before).length + (utf8 covered).length ∧
    if inputs.caseSensitive then covered = inputs.query
    else covered.map locale.lower = inputs.query.map locale.lower

/-- Every range that a search returns from a content is right, whatever is stored beside it and
whichever part of it is searched. -/
def RangesRight (locale : Locale) (content : Bytes) (inputs : SearchInputs) : Prop :=
  ∀ db : SearchDatabase, db.locale = locale →
    ∀ (projectId : ℤ) (visibleLayers : List ℤ) (ephBranch : Bool) (rows : List SearchMatchRow)
      (truncated : Bool),
      searchContentMatchesOn db inputs projectId visibleLayers ephBranch =
          .ok (rows, truncated) →
        ∀ row ∈ rows, ∀ o ∈ db.store.objects, o.id = row.objectId →
          ∀ c ∈ db.store.contentStore, c.contentHash = o.row.contentHash → c.content = content →
            RangeRight locale inputs content row

/-- Lower-casing a content that is a text changes the length of no character. -/
def KeepsLengths (locale : Locale) (content : Bytes) : Prop :=
  ∀ text, safeConvertFrom content = some text →
    ∀ c ∈ text, octetLength [locale.lower c] = octetLength [c]

/-! ### Contents that keep their lengths -/

theorem octetLength_map {lower : Char → Char} {t : Text}
    (h : ∀ c ∈ t, octetLength [lower c] = octetLength [c]) :
    octetLength (t.map lower) = octetLength t := by
  induction t with
  | nil => rfl
  | cons c t ih =>
    rw [List.map_cons, ← List.singleton_append, octetLength_append, h c List.mem_cons_self,
      ih fun d hd => h d (.tail c hd), ← octetLength_append]
    rfl

section Ranges

variable {locale : Locale} {content : Bytes} {inputs : SearchInputs}

/-- The row of an occurrence is right when the text that is looked in has the lengths of the
content's. -/
theorem rangeRight_matchRow {db : SearchDatabase} (hw : needle db inputs ≠ []) {f : SearchedFile}
    (hlength : ∀ k, octetLength ((haystack db inputs f.text).take k) = octetLength (f.text.take k))
    {p : ℕ} (hp : p ∈ fileOccurrences db inputs f) :
    RangeRight db.locale inputs (utf8 f.text) (matchRow db inputs f p) := by
  have hcover := take_drop_of_mem hw hp
  refine ⟨f.text.take p, (f.text.drop p).take (needle db inputs).length,
    f.text.drop (p + (needle db inputs).length), ?_, hlength p, ?_, ?_⟩
  · rw [← utf8_append, ← utf8_append, ← List.take_add, List.take_append_drop]
  · exact (hlength _).trans (octetLength_take_add f.text p _)
  · rw [haystack] at hcover
    split
    · next hcase =>
      rw [if_pos hcase] at hcover
      rw [hcover, needle, if_pos hcase]
    · next hcase =>
      rw [if_neg hcase] at hcover
      rw [List.map_take, List.map_drop, hcover, needle, if_neg hcase]

/-- Ranges are right where the text that is looked in has the lengths of the content's. -/
theorem rangesRight_of_length (h : inputs.caseSensitive = true ∨ KeepsLengths locale content) :
    RangesRight locale content inputs := by
  rintro db rfl projectId visibleLayers ephBranch rows truncated hok row hrow o ho hid c hc hhash
    rfl
  obtain ⟨f, hf, hrow⟩ := mem_of_searchContentMatchesOn hok hrow
  have hw : needle db inputs ≠ [] := by
    intro hnil
    rw [searchFileRows, findSubstrByteRanges, hnil] at hrow
    simp at hrow
  obtain ⟨-, p, hp, -, rfl⟩ := (mem_searchFileRows hw).mp hrow
  obtain ⟨c', hc', hobject, hhash', -, htext⟩ := mem_searchedFiles.mp hf
  obtain rfl : o = f.object := List.inj_on_of_nodup_map db.objects_nodup ho hobject hid
  obtain rfl : c = c' :=
    List.inj_on_of_nodup_map db.contents_nodup hc hc' (hhash.trans hhash')
  rw [← utf8_of_safeConvertFrom htext]
  refine rangeRight_matchRow hw (fun k => ?_)
    ((leftmost_sublist _ _ _).subset (List.mem_of_mem_take hp))
  rw [haystack]
  split
  · rfl
  · next hcase =>
    rw [← List.map_take]
    exact octetLength_map fun d hd =>
      h.resolve_left hcase _ htext d (List.mem_of_mem_take hd)

/-! ### A content on its own -/

/-- A search for a text anywhere, regardless of case, for one match. -/
def anywhere (query : Text) : SearchInputs := ⟨query, false, false, 1, .and []⟩

/-- A content that begins with a query is matched there. -/
theorem exists_search_anywhere (locale : Locale) {text query : Text}
    (htext : safeConvertFrom content = some text) (hquery : query ≠ []) (hnul : '\x00' ∉ query)
    (hbegin : query.map locale.lower <+: text.map locale.lower) :
    ∃ rows truncated,
      searchContentMatchesOn (singleDatabase locale content) (anywhere query) 1 [3] false =
        .ok (rows, truncated) ∧
      (⟨1, 1, 0, octetLength (query.map locale.lower)⟩ : SearchMatchRow) ∈ rows := by
  set db := singleDatabase locale content
  set inputs := anywhere query
  set f := singleFile text
  have hneedle : needle db inputs = query.map locale.lower := rfl
  have hw : needle db inputs ≠ [] := by
    rw [hneedle]
    simpa using hquery
  have hfiles : searchedFiles db inputs 1 [3] false = [f] := searchedFiles_single htext rfl
  have hfirst : leftmost (needle db inputs).length 0 (fileOccurrences db inputs f) =
      0 :: leftmost (needle db inputs).length (0 + (needle db inputs).length)
        (fileOccurrences db inputs f) :=
    leftmost_eq_cons (List.length_pos_of_ne_nil hw) (occurrences_pairwise _ _)
      ((mem_occurrences hw).mpr hbegin) (Nat.le_refl 0) fun q _ _ => Nat.zero_le q
  have hpre : preFilter db inputs f.text = true :=
    preFilter_of_infix (fun h => by cases h) hbegin.isInfix
  have hrow : matchRow db inputs f 0 = ⟨1, 1, 0, octetLength (query.map locale.lower)⟩ := by
    have htake := take_drop_of_mem hw ((mem_occurrences (p := 0) hw).mpr hbegin)
    rw [List.drop_zero] at htake
    rw [matchRow, Nat.zero_add, List.take_zero, octetLength_nil]
    exact congrArg (fun t => SearchMatchRow.mk 1 1 0 (octetLength t)) htake
  obtain ⟨rest, hrows⟩ : ∃ rest, searchFileRows db inputs 2 f = matchRow db inputs f 0 :: rest := by
    rw [searchFileRows_eq hw, if_pos hpre, hfirst]
    exact ⟨_, rfl⟩
  have hsorted := (searchFileRows_pairwise hw 2 f).imp fun h => h.le
  have hcap : limitPlusOne inputs.limit = 2 := by
    show limitPlusOne 1 = 2
    decide
  have hnul' : ¬inputs.query.contains '\x00' = true := by
    rw [List.contains_iff_mem]
    exact hnul
  have hnonneg : ¬(2 : ℤ) < 0 := by decide
  have hsearch : searchContentMatchesOn db inputs 1 [3] false =
      .ok ([matchRow db inputs f 0],
        decide (1 < ((matchRow db inputs f 0 :: rest).take 2).length)) := by
    rw [searchContentMatchesOn, hfiles, hcap, if_neg hnul', if_neg hnonneg, List.flatMap_singleton,
      hsorted.insertionSort_eq, hrows]
    rfl
  rw [hrow] at hsearch
  exact ⟨_, _, hsearch, List.mem_singleton_self _⟩

/-- Where case-insensitive ranges are right, the beginnings of a content keep their lengths. -/
theorem octetLength_map_of_rangesRight
    (h : ∀ inputs : SearchInputs, inputs.caseSensitive = false →
      RangesRight locale content inputs)
    {text query rest : Text} (htext : safeConvertFrom content = some text)
    (hsplit : query ++ rest = text) (hquery : query ≠ []) :
    octetLength (query.map locale.lower) = octetLength query := by
  have hnul : '\x00' ∉ query := fun hmem =>
    not_mem_of_safeConvertFrom htext (hsplit ▸ List.mem_append_left rest hmem)
  obtain ⟨rows, truncated, hsearch, hrow⟩ := exists_search_anywhere locale htext hquery
    hnul (by rw [← hsplit, List.map_append]; exact List.prefix_append _ _)
  obtain ⟨before, covered, after, hcontent, hstart, hend, hcover⟩ :=
    h (anywhere query) rfl _ rfl _ _ _ rows truncated hsearch _ hrow _ (List.mem_singleton_self _)
      rfl _ (List.mem_singleton_self _) rfl rfl
  -- The match is at the beginning, so that nothing is before it.
  obtain rfl : before = [] := by
    by_contra hne
    exact (octetLength_pos hne).ne hstart
  have hwhole : covered ++ after = query ++ rest := by
    refine utf8_injective ?_
    rw [hsplit, utf8_of_safeConvertFrom htext, hcontent, utf8_append, utf8_nil, List.nil_append]
  have hlower : covered.map locale.lower = query.map locale.lower := hcover
  have hlen : covered.length = query.length := by
    simpa using congrArg List.length hlower
  obtain ⟨rfl, -⟩ := List.append_inj hwhole hlen
  rw [utf8_nil, List.length_nil, Nat.zero_add] at hend
  exact hend

/-- Where case-insensitive ranges are right, the content keeps its lengths. -/
theorem keepsLengths_of_rangesRight
    (h : ∀ inputs : SearchInputs, inputs.caseSensitive = false →
      RangesRight locale content inputs) : KeepsLengths locale content := by
  intro text htext c hc
  obtain ⟨before, after, rfl⟩ := List.append_of_mem hc
  have hwith : octetLength ((before ++ [c]).map locale.lower) = octetLength (before ++ [c]) :=
    octetLength_map_of_rangesRight h htext (show (before ++ [c]) ++ after = _ by simp) (by simp)
  have hwithout : octetLength (before.map locale.lower) = octetLength before := by
    by_cases hnil : before = []
    · rw [hnil]
      rfl
    · exact octetLength_map_of_rangesRight h htext (show before ++ (c :: after) = _ from rfl) hnil
  rw [List.map_append, octetLength_append, octetLength_append, hwithout] at hwith
  exact Nat.add_left_cancel hwith

/-- **Case-sensitive ranges are right, and case-insensitive ones exactly from a content that keeps
its lengths under lower-casing.** -/
theorem rangesRight_iff (locale : Locale) (content : Bytes) :
    (∀ inputs : SearchInputs, inputs.caseSensitive = true →
        RangesRight locale content inputs) ∧
      ((∀ inputs : SearchInputs, inputs.caseSensitive = false →
        RangesRight locale content inputs) ↔ KeepsLengths locale content) :=
  ⟨fun _ hcase => rangesRight_of_length (.inl hcase),
    keepsLengths_of_rangesRight, fun h _ _ => rangesRight_of_length (.inr h)⟩

/-- A locale that lower-cases a letter of two octets to one of three. -/
def strokeLocale : Locale where
  lower c := if c = 'Ⱥ' then 'ⱥ' else c.toLower
  lower_eq_iff m hm c := by
    split
    · next hc =>
      simp only [List.mem_cons, List.not_mem_nil, or_false] at hm
      subst hc
      rcases hm with rfl | rfl | rfl <;> decide
    · exact toLower_eq_iff hm c

/-- The range of a match ends after the content. -/
theorem not_rangesRight_stroke :
    ¬RangesRight strokeLocale (utf8 "Ⱥbc".toList) (anywhere "ⱥbc".toList) := by
  intro h
  have htext : safeConvertFrom (utf8 "Ⱥbc".toList) = some "Ⱥbc".toList :=
    safeConvertFrom_utf8 (by decide)
  have hquery : "ⱥbc".toList ≠ [] := by decide
  obtain ⟨rows, truncated, hsearch, hrow⟩ :=
    exists_search_anywhere strokeLocale htext hquery (by decide) (by decide)
  obtain ⟨before, covered, after, hcontent, -, hend, -⟩ :=
    h _ rfl _ _ _ rows truncated hsearch _ hrow _ (List.mem_singleton_self _) rfl _
      (List.mem_singleton_self _) rfl rfl
  have hinside : (utf8 before).length + (utf8 covered).length ≤ (utf8 "Ⱥbc".toList).length := by
    rw [hcontent, List.length_append, List.length_append]
    exact Nat.le_add_right _ _
  rw [← hend] at hinside
  have hcontent' : (utf8 "Ⱥbc".toList).length = 4 := by
    rw [utf8_eq_flatMap]
    decide
  have hlower : octetLength ("ⱥbc".toList.map strokeLocale.lower) = 5 := by
    rw [octetLength, utf8_eq_flatMap]
    decide
  rw [hcontent', hlower] at hinside
  exact absurd hinside (by decide)

end Ranges

end Askl
