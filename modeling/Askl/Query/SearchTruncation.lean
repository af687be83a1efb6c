import Askl.Query.Search

/-!
# The truncation of a search

A search should return the first matches, as far as its limit, and say whether there are more.  The
database cuts the occurrences of a file before it looks at the boundaries of words, so that it may
stop before the matches.

## Main definitions

* `SearchMatch`, `expectedMatches` — the matches of the files, in order: in each file the leftmost
  occurrences that do not overlap, among those with the boundaries.
* `SearchMatch.Reached` — the database comes as far as a match.
* `SearchReaches` — it comes as far as the first matches, and one more if there is one.

## Main results

* `searchContentMatchesOn_eq` — a search returns the matches that are reached, cut.
* `exists_not_reached` — what is reached is a match, unless a match before it is not reached.
* `searchContentMatchesOn_eq_iff` — **a search returns the first matches and whether there are more
  exactly when it reaches them.**
* `searchReaches_of_substring` — a search for no whole words reaches them.
-/

namespace Askl

open Leftmost Utf8

/-! ### What a search should return -/

/-- A match: an occurrence in a file. -/
structure SearchMatch where
  file : SearchedFile
  position : ℕ
  deriving DecidableEq

/-- What matches are ordered by. -/
def SearchMatch.key (m : SearchMatch) : Lex (ℤ × ℕ) := toLex (m.file.object.id, m.position)

section Search

variable (db : SearchDatabase) (inputs : SearchInputs) (projectId : ℤ) (visibleLayers : List ℤ)
  (ephBranch : Bool)

/-- The row of a match. -/
def SearchMatch.row (m : SearchMatch) : SearchMatchRow := matchRow db inputs m.file m.position

/-- The occurrences in a file that have the boundaries. -/
def wholeOccurrences (f : SearchedFile) : List ℕ :=
  (fileOccurrences db inputs f).filter fun p => wordBoundary inputs f.text (p + 1)

/-- The files, in the order of their objects. -/
def sortedFiles : List SearchedFile :=
  (searchedFiles db inputs projectId visibleLayers ephBranch).insertionSort fun f f' =>
    f.object.id ≤ f'.object.id

/-- The matches that positions of the files are. -/
def matchesAt (positions : SearchedFile → List ℕ) : List SearchMatch :=
  (sortedFiles db inputs projectId visibleLayers ephBranch).flatMap fun f =>
    (positions f).map (SearchMatch.mk f)

/-- The matches, in order. -/
def expectedMatches : List SearchMatch :=
  matchesAt db inputs projectId visibleLayers ephBranch fun f =>
    leftmost (needle db inputs).length 0 (wholeOccurrences db inputs f)

/-- The occurrences that the database takes, whatever their boundaries. -/
def takenOccurrences (f : SearchedFile) : List ℕ :=
  if preFilter db inputs f.text then
    (leftmost (needle db inputs).length 0 (fileOccurrences db inputs f)).take
      (limitPlusOne inputs.limit).toNat
  else []

/-- The matches that the database finds. -/
def reachedMatches : List SearchMatch :=
  matchesAt db inputs projectId visibleLayers ephBranch fun f =>
    (takenOccurrences db inputs f).filter fun p => wordBoundary inputs f.text (p + 1)

/-- The database comes as far as a match. -/
def SearchMatch.Reached (m : SearchMatch) : Prop := m.position ∈ takenOccurrences db inputs m.file

/-- The query can be asked, as far as one match after the limit, and the database comes as far as
the first matches, and when there are more, as far as one more occurrence with the boundaries. -/
def SearchReaches : Prop :=
  let expected := expectedMatches db inputs projectId visibleLayers ephBranch
  '\x00' ∉ inputs.query ∧
  ((min expected.length (inputs.limit + 1) : ℕ) : ℤ) ≤ limitPlusOne inputs.limit ∧
  (∀ m ∈ expected.take inputs.limit, m.Reached db inputs) ∧
  (inputs.limit < expected.length →
    ∃ m : SearchMatch, m.file ∈ searchedFiles db inputs projectId visibleLayers ephBranch ∧
      m.position ∈ wholeOccurrences db inputs m.file ∧ m.Reached db inputs ∧
      m ∉ expected.take inputs.limit)

end Search

section Search

variable {db : SearchDatabase} {inputs : SearchInputs} {projectId : ℤ} {visibleLayers : List ℤ}
  {ephBranch : Bool}

/-! ### The order of matches -/

theorem length_needle : (needle db inputs).length = inputs.query.length := by
  rw [needle]
  split
  · rfl
  · exact List.length_map _

theorem limitPlusOne_eq {limit : ℕ} (h : limit + 1 < 2 ^ 31) :
    limitPlusOne limit = limit + 1 := by
  have hmod : Int.bmod limit (2 ^ 32) = limit := by
    apply Int.bmod_eq_of_le
    · norm_num
    · norm_num
      omega
  have hmin : min ((limit : ℤ) + 1) (2 ^ 31 - 1) = limit + 1 := by omega
  exact (congrArg (fun n => min (n + 1) (2 ^ 31 - 1)) hmod).trans hmin

theorem sortedFiles_pairwise :
    (sortedFiles db inputs projectId visibleLayers ephBranch).Pairwise fun f f' =>
      f.object.id < f'.object.id := by
  have hperm := List.perm_insertionSort (fun f f' : SearchedFile => f.object.id ≤ f'.object.id)
    (searchedFiles db inputs projectId visibleLayers ephBranch)
  have hnodup := List.pairwise_map.mp ((hperm.map (·.object.id)).nodup_iff.mpr nodup_searchedFiles)
  have hsorted := List.pairwise_insertionSort (fun f f' : SearchedFile =>
    f.object.id ≤ f'.object.id) (searchedFiles db inputs projectId visibleLayers ephBranch)
  exact hsorted.imp₂ (fun _ _ hle hne => lt_of_le_of_ne hle hne) hnodup

theorem mem_matchesAt {positions : SearchedFile → List ℕ} {m : SearchMatch} :
    m ∈ matchesAt db inputs projectId visibleLayers ephBranch positions ↔
      m.file ∈ searchedFiles db inputs projectId visibleLayers ephBranch ∧
        m.position ∈ positions m.file := by
  rw [matchesAt, List.mem_flatMap]
  constructor
  · rintro ⟨f, hf, hm⟩
    obtain ⟨p, hp, rfl⟩ := List.mem_map.mp hm
    exact ⟨(List.mem_insertionSort _).mp hf, hp⟩
  · rintro ⟨hf, hp⟩
    exact ⟨m.file, (List.mem_insertionSort _).mpr hf, List.mem_map.mpr ⟨m.position, hp, rfl⟩⟩

/-- Matches are in order when the positions of each file are. -/
theorem matchesAt_pairwise {positions : SearchedFile → List ℕ}
    (h : ∀ f, (positions f).Pairwise (· < ·)) :
    (matchesAt db inputs projectId visibleLayers ephBranch positions).Pairwise fun m m' =>
      m.key < m'.key := by
  rw [matchesAt, List.pairwise_flatMap]
  refine ⟨fun f _ => ?_, sortedFiles_pairwise.imp fun hlt m hm m' hm' => ?_⟩
  · rw [List.pairwise_map]
    refine (h f).imp fun {p q} hlt => ?_
    exact Prod.Lex.toLex_lt_toLex.mpr (.inr ⟨rfl, hlt⟩)
  · obtain ⟨p, -, rfl⟩ := List.mem_map.mp hm
    obtain ⟨p', -, rfl⟩ := List.mem_map.mp hm'
    exact Prod.Lex.toLex_lt_toLex.mpr (.inl hlt)

theorem wholeOccurrences_pairwise (f : SearchedFile) :
    (wholeOccurrences db inputs f).Pairwise (· < ·) :=
  (occurrences_pairwise _ _).filter _

theorem takenOccurrences_sublist (f : SearchedFile) :
    (takenOccurrences db inputs f).Sublist
      (leftmost (needle db inputs).length 0 (fileOccurrences db inputs f)) := by
  rw [takenOccurrences]
  split
  · exact List.take_sublist _ _
  · exact List.nil_sublist _

theorem expectedMatches_pairwise :
    (expectedMatches db inputs projectId visibleLayers ephBranch).Pairwise fun m m' =>
      m.key < m'.key :=
  matchesAt_pairwise fun f => (wholeOccurrences_pairwise f).sublist (leftmost_sublist _ _ _)

theorem reachedMatches_pairwise :
    (reachedMatches db inputs projectId visibleLayers ephBranch).Pairwise fun m m' =>
      m.key < m'.key :=
  matchesAt_pairwise fun f => ((occurrences_pairwise _ _).sublist
    ((takenOccurrences_sublist f).trans (leftmost_sublist _ _ _))).filter _

/-! ### What a search returns -/

/-- The rows of matches are ordered as the matches. -/
theorem row_key_lt (hw : needle db inputs ≠ []) {m m' : SearchMatch}
    (hm : m.file ∈ searchedFiles db inputs projectId visibleLayers ephBranch)
    (hm' : m'.file ∈ searchedFiles db inputs projectId visibleLayers ephBranch)
    (hpos : m'.position ∈ fileOccurrences db inputs m'.file) (hlt : m.key < m'.key) :
    (m.row db inputs).key < (m'.row db inputs).key := by
  rcases Prod.Lex.toLex_lt_toLex.mp hlt with hid | ⟨hid, hp⟩
  · exact Prod.Lex.toLex_lt_toLex.mpr (.inl hid)
  · have hfile : m.file = m'.file :=
      List.inj_on_of_nodup_map nodup_searchedFiles hm hm' hid
    rw [SearchMatch.row, hfile]
    exact matchRow_key_lt hw hpos hp

/-- The rows of the files, in order, are those of the matches that are reached. -/
theorem insertionSort_rows (hw : needle db inputs ≠ []) :
    (((searchedFiles db inputs projectId visibleLayers ephBranch).flatMap
      (searchFileRows db inputs (limitPlusOne inputs.limit))).insertionSort
        fun r r' => r.key ≤ r'.key) =
      (reachedMatches db inputs projectId visibleLayers ephBranch).map
        (SearchMatch.row db inputs) := by
  have hpieces : (reachedMatches db inputs projectId visibleLayers ephBranch).map
      (SearchMatch.row db inputs) =
        (sortedFiles db inputs projectId visibleLayers ephBranch).flatMap
          (searchFileRows db inputs (limitPlusOne inputs.limit)) := by
    rw [reachedMatches, matchesAt, List.map_flatMap]
    refine List.flatMap_congr fun f _ => ?_
    rw [searchFileRows_eq hw, List.map_map, takenOccurrences]
    split
    · rfl
    · rfl
  have hlt : ((reachedMatches db inputs projectId visibleLayers ephBranch).map
      (SearchMatch.row db inputs)).Pairwise fun r r' => r.key < r'.key := by
    rw [List.pairwise_map]
    refine reachedMatches_pairwise.imp_of_mem fun hm hm' hlt => ?_
    obtain ⟨hf, -⟩ := mem_matchesAt.mp hm
    obtain ⟨hf', hpos⟩ := mem_matchesAt.mp hm'
    exact row_key_lt hw hf hf' ((leftmost_sublist _ _ _).subset
      ((takenOccurrences_sublist _).subset (List.mem_of_mem_filter hpos))) hlt
  have hperm : (((searchedFiles db inputs projectId visibleLayers ephBranch).flatMap
      (searchFileRows db inputs (limitPlusOne inputs.limit))).insertionSort
        fun r r' => r.key ≤ r'.key).Perm
          ((reachedMatches db inputs projectId visibleLayers ephBranch).map
            (SearchMatch.row db inputs)) := by
    rw [hpieces]
    exact (List.perm_insertionSort _ _).trans
      ((List.perm_insertionSort _ _).symm.flatMap_right _)
  have hkeys : (((reachedMatches db inputs projectId visibleLayers ephBranch).map
      (SearchMatch.row db inputs)).map SearchMatchRow.key).Nodup :=
    List.pairwise_map.mpr (hlt.imp fun h => h.ne)
  refine List.Perm.eq_of_pairwise (fun r r' hr hr' hle hle' => ?_)
    (List.pairwise_insertionSort _ _) (hlt.imp fun h => h.le) hperm
  exact List.inj_on_of_nodup_map hkeys (hperm.mem_iff.mp hr) hr' (le_antisymm hle hle')

/-- A search that can be asked returns the matches that are reached, cut. -/
theorem searchContentMatchesOn_eq (hw : needle db inputs ≠ []) (hnul : '\x00' ∉ inputs.query)
    (hcap : 0 ≤ limitPlusOne inputs.limit) :
    searchContentMatchesOn db inputs projectId visibleLayers ephBranch =
      let found := (reachedMatches db inputs projectId visibleLayers ephBranch).take
        (limitPlusOne inputs.limit).toNat
      .ok ((found.take inputs.limit).map (SearchMatch.row db inputs),
        decide (inputs.limit < found.length)) := by
  rw [searchContentMatchesOn, if_neg (by rwa [List.contains_iff_mem]), if_neg (not_lt.mpr hcap),
    insertionSort_rows hw]
  simp only [List.map_take, List.length_take, List.length_map]

/-- A match is determined by its key. -/
theorem searchMatch_eq_of_key {m m' : SearchMatch}
    (hm : m.file ∈ searchedFiles db inputs projectId visibleLayers ephBranch)
    (hm' : m'.file ∈ searchedFiles db inputs projectId visibleLayers ephBranch)
    (h : m.key = m'.key) : m = m' := by
  obtain ⟨hid, hp⟩ := Prod.mk.inj (toLex_inj.mp h)
  obtain ⟨f, p⟩ := m
  obtain ⟨f', p'⟩ := m'
  obtain rfl : f = f' := List.inj_on_of_nodup_map nodup_searchedFiles hm hm' hid
  exact congrArg (SearchMatch.mk f) hp

/-- A row determines its match. -/
theorem row_injOn (hw : needle db inputs ≠ []) {m m' : SearchMatch}
    (hm : m.file ∈ searchedFiles db inputs projectId visibleLayers ephBranch)
    (hm' : m'.file ∈ searchedFiles db inputs projectId visibleLayers ephBranch)
    (hpos : m.position ∈ fileOccurrences db inputs m.file)
    (hpos' : m'.position ∈ fileOccurrences db inputs m'.file)
    (h : m.row db inputs = m'.row db inputs) : m = m' := by
  rcases lt_trichotomy m.key m'.key with hlt | heq | hlt
  · exact absurd (congrArg SearchMatchRow.key h) (row_key_lt hw hm hm' hpos' hlt).ne
  · exact searchMatch_eq_of_key hm hm' heq
  · exact absurd (congrArg SearchMatchRow.key h).symm (row_key_lt hw hm' hm hpos hlt).ne

/-! ### When it is what it should be -/

/-- An occurrence that is reached is a match, unless a match before it is not reached. -/
theorem exists_not_reached (hw : needle db inputs ≠ []) {m : SearchMatch}
    (hm : m ∈ reachedMatches db inputs projectId visibleLayers ephBranch)
    (hnot : m ∉ expectedMatches db inputs projectId visibleLayers ephBranch) :
    ∃ m' ∈ expectedMatches db inputs projectId visibleLayers ephBranch,
      m'.key < m.key ∧ m' ∉ reachedMatches db inputs projectId visibleLayers ephBranch := by
  obtain ⟨hf, hpos⟩ := mem_matchesAt.mp hm
  obtain ⟨htaken, hgood⟩ := List.mem_filter.mp hpos
  have hleft := (takenOccurrences_sublist m.file).subset htaken
  rcases mem_leftmost_filter (List.length_pos_of_ne_nil hw) (occurrences_pairwise _ _)
    (fun p => wordBoundary inputs m.file.text (p + 1)) hleft hgood with h | ⟨q, hq, hlt, hq'⟩
  · exact absurd (mem_matchesAt.mpr ⟨hf, h⟩) hnot
  · refine ⟨⟨m.file, q⟩, mem_matchesAt.mpr ⟨hf, hq⟩,
      Prod.Lex.toLex_lt_toLex.mpr (.inr ⟨rfl, hlt⟩), fun hreach => hq' ?_⟩
    exact (takenOccurrences_sublist _).subset
      (List.mem_of_mem_filter (mem_matchesAt.mp hreach).2)

theorem mem_reachedMatches_iff {m : SearchMatch} :
    m ∈ reachedMatches db inputs projectId visibleLayers ephBranch ↔
      m.file ∈ searchedFiles db inputs projectId visibleLayers ephBranch ∧
        m.position ∈ wholeOccurrences db inputs m.file ∧ m.Reached db inputs := by
  rw [reachedMatches, mem_matchesAt, List.mem_filter, wholeOccurrences, List.mem_filter,
    SearchMatch.Reached]
  refine and_congr_right fun _ => ⟨fun h => ⟨⟨?_, h.2⟩, h.1⟩, fun h => ⟨h.2, h.1.2⟩⟩
  exact (leftmost_sublist _ _ _).subset ((takenOccurrences_sublist _).subset h.1)

theorem mem_wholeOccurrences_of_mem {m : SearchMatch}
    (hm : m ∈ expectedMatches db inputs projectId visibleLayers ephBranch) :
    m.file ∈ searchedFiles db inputs projectId visibleLayers ephBranch ∧
      m.position ∈ wholeOccurrences db inputs m.file := by
  obtain ⟨hf, hpos⟩ := mem_matchesAt.mp hm
  exact ⟨hf, (leftmost_sublist _ _ _).subset hpos⟩

/-- What a search should return, of inputs. -/
theorem searchContentMatchesOn_eq_expected_iff (hw : needle db inputs ≠ []) :
    searchContentMatchesOn db inputs projectId visibleLayers ephBranch =
        .ok (((expectedMatches db inputs projectId visibleLayers ephBranch).take
            inputs.limit).map (SearchMatch.row db inputs),
          decide (inputs.limit <
            (expectedMatches db inputs projectId visibleLayers ephBranch).length)) ↔
      SearchReaches db inputs projectId visibleLayers ephBranch := by
  by_cases hnul : '\x00' ∈ inputs.query
  · refine iff_of_false (fun h => ?_) fun h => h.1 hnul
    rw [searchContentMatchesOn, if_pos (List.contains_iff_mem.mpr hnul)] at h
    cases h
  rcases lt_or_ge (limitPlusOne inputs.limit) 0 with hneg | hcap
  · refine iff_of_false (fun h => ?_) fun h => ?_
    · rw [searchContentMatchesOn, if_neg (by rwa [List.contains_iff_mem]), if_pos hneg] at h
      cases h
    · have hle := h.2.1
      omega
  -- The query can be asked: the two lists of matches are sorted, and are compared.
  have hinj : ∀ m ∈ ((reachedMatches db inputs projectId visibleLayers ephBranch).take
        (limitPlusOne inputs.limit).toNat).take inputs.limit,
      ∀ m' ∈ (expectedMatches db inputs projectId visibleLayers ephBranch).take inputs.limit,
        m.row db inputs = m'.row db inputs → m = m' := by
    intro m hm m' hm'
    obtain ⟨hf, hpos, -⟩ :=
      mem_reachedMatches_iff.mp (List.mem_of_mem_take (List.mem_of_mem_take hm))
    obtain ⟨hf', hpos'⟩ := mem_wholeOccurrences_of_mem (List.mem_of_mem_take hm')
    exact row_injOn hw hf hf' (List.mem_of_mem_filter hpos) (List.mem_of_mem_filter hpos')
  have hsame : ∀ m ∈ expectedMatches db inputs projectId visibleLayers ephBranch,
      ∀ m' ∈ reachedMatches db inputs projectId visibleLayers ephBranch,
        m.key = m'.key → m = m' := by
    intro m hm m' hm' hkey
    obtain ⟨hf, -⟩ := mem_matchesAt.mp hm
    obtain ⟨hf', -⟩ := mem_matchesAt.mp hm'
    exact searchMatch_eq_of_key hf hf' hkey
  rw [searchContentMatchesOn_eq hw hnul hcap, Except.ok.injEq, Prod.mk.injEq, decide_eq_decide,
    map_inj_on hinj, take_take_eq_iff expectedMatches_pairwise reachedMatches_pairwise hsame
      fun m hm hnot => exists_not_reached hw hm hnot, SearchReaches]
  refine Iff.trans ?_ (and_iff_right hnul).symm
  refine and_congr (by omega) (and_congr ?_ ?_)
  · refine forall₂_congr fun m hm => ?_
    rw [mem_reachedMatches_iff]
    obtain ⟨hf, hpos⟩ := mem_wholeOccurrences_of_mem (List.mem_of_mem_take hm)
    exact ⟨fun h => h.2.2, fun h => ⟨hf, hpos, h⟩⟩
  · refine imp_congr_right fun _ => exists_congr fun m => ?_
    rw [mem_reachedMatches_iff, and_assoc, and_assoc]

/-- **A search returns the first matches and whether there are more exactly when it reaches
them.** -/
theorem searchContentMatchesOn_eq_iff (db : SearchDatabase) (sel : SearchSelector)
    (filter : CompositeFilter) (projectId : ℤ) (visibleLayers : List ℤ) (ephBranch : Bool) :
    searchContentMatchesOn db (sel.inputs filter) projectId visibleLayers ephBranch =
        .ok (((expectedMatches db (sel.inputs filter) projectId visibleLayers ephBranch).take
            sel.limit).map (SearchMatch.row db (sel.inputs filter)),
          decide (sel.limit <
            (expectedMatches db (sel.inputs filter) projectId visibleLayers ephBranch).length)) ↔
      SearchReaches db (sel.inputs filter) projectId visibleLayers ephBranch := by
  refine searchContentMatchesOn_eq_expected_iff (List.ne_nil_of_length_pos ?_)
  rw [length_needle]
  exact Nat.lt_of_lt_of_le (by decide) sel.three_le

/-- A search for one word, in a content whose first two occurrences are no words. -/
def passedOver : SearchSelector :=
  ⟨"abc".toList, true, true, 1, by decide, Nat.one_pos, one_lt_usize⟩

/-- The word after them is not found. -/
theorem not_search_passedOver :
    ¬searchContentMatchesOn (singleDatabase cLocale (utf8 "xabc xabc abc".toList))
        (passedOver.inputs (.and [])) 1 [3] false =
      .ok (((expectedMatches (singleDatabase cLocale (utf8 "xabc xabc abc".toList))
            (passedOver.inputs (.and [])) 1 [3] false).take 1).map
          (SearchMatch.row (singleDatabase cLocale (utf8 "xabc xabc abc".toList))
            (passedOver.inputs (.and []))),
        decide (1 < (expectedMatches (singleDatabase cLocale (utf8 "xabc xabc abc".toList))
          (passedOver.inputs (.and [])) 1 [3] false).length)) := by
  set db := singleDatabase cLocale (utf8 "xabc xabc abc".toList)
  set inputs := passedOver.inputs (.and [])
  have hfiles : searchedFiles db inputs 1 [3] false = [singleFile "xabc xabc abc".toList] :=
    searchedFiles_single (safeConvertFrom_utf8 (by decide)) rfl
  have hsorted : sortedFiles db inputs 1 [3] false = [singleFile "xabc xabc abc".toList] := by
    rw [sortedFiles, hfiles]
    rfl
  have hexpected : expectedMatches db inputs 1 [3] false =
      [⟨singleFile "xabc xabc abc".toList, 10⟩] := by
    rw [expectedMatches, matchesAt, hsorted]
    decide
  have hcap : limitPlusOne inputs.limit = 2 := limitPlusOne_eq (show 1 + 1 < 2 ^ 31 by decide)
  have hreached : reachedMatches db inputs 1 [3] false = [] := by
    rw [reachedMatches, matchesAt, hsorted, List.flatMap_singleton, takenOccurrences, hcap]
    decide
  rw [searchContentMatchesOn_eq (by decide) (by decide) (by rw [hcap]; decide), hreached, hexpected]
  intro h
  have hrows := (Prod.mk.inj (Except.ok.inj h)).1
  rw [List.take_nil, List.take_nil] at hrows
  cases hrows

/-! ### Searches for no whole words -/

/-- A match among the first ones of a search for no whole words is reached. -/
theorem reached_of_mem_take (hw : needle db inputs ≠ []) (hword : inputs.wholeWord = false)
    {m : SearchMatch} (hm : m ∈ (expectedMatches db inputs projectId visibleLayers ephBranch).take
      (limitPlusOne inputs.limit).toNat) : m.Reached db inputs := by
  have hwhole : wholeOccurrences db inputs m.file = fileOccurrences db inputs m.file :=
    List.filter_eq_self.mpr fun p _ => by rw [wordBoundary, hword]; rfl
  obtain ⟨f, hf, htake⟩ := mem_take_flatMap hm
  rw [← List.map_take, List.mem_map] at htake
  obtain ⟨p, hp, rfl⟩ := htake
  have hoccurs : p ∈ fileOccurrences db inputs f :=
    List.mem_of_mem_filter ((leftmost_sublist _ _ _).subset (List.mem_of_mem_take hp))
  have hpre : preFilter db inputs f.text = true := by
    refine preFilter_of_infix (fun h => absurd h (by simp [hword])) ?_
    exact ((mem_occurrences hw).mp hoccurs).isInfix.trans (List.drop_suffix _ _).isInfix
  rw [SearchMatch.Reached, takenOccurrences, if_pos hpre, ← hwhole]
  exact hp

/-- **A search for no whole words reaches the first matches, below the greatest limits.** -/
theorem searchReaches_of_substring (hw : needle db inputs ≠ []) (hnul : '\x00' ∉ inputs.query)
    (hword : inputs.wholeWord = false) (hlimit : inputs.limit + 1 < 2 ^ 31) :
    SearchReaches db inputs projectId visibleLayers ephBranch := by
  have hcap := limitPlusOne_eq hlimit
  have hreach : ∀ m ∈ (expectedMatches db inputs projectId visibleLayers ephBranch).take
      (inputs.limit + 1), m.Reached db inputs := fun m hm =>
    reached_of_mem_take hw hword (by rwa [hcap])
  refine ⟨hnul, by omega, fun m hm => hreach m ?_, fun hmore => ?_⟩
  · exact List.take_subset_take_left _ (Nat.le_succ _) hm
  · set expected := expectedMatches db inputs projectId visibleLayers ephBranch
    have hget : expected[inputs.limit] ∈ expected.take (inputs.limit + 1) := by
      rw [List.take_succ_eq_append_getElem hmore]
      exact List.mem_append_right _ (List.mem_singleton_self _)
    obtain ⟨hf, hpos⟩ := mem_wholeOccurrences_of_mem (List.getElem_mem hmore)
    refine ⟨_, hf, hpos, hreach _ hget, fun hmem => ?_⟩
    have hsorted : expected.Pairwise fun m m' => m.key < m'.key := expectedMatches_pairwise
    rw [← List.take_append_drop inputs.limit expected, List.pairwise_append] at hsorted
    refine lt_irrefl _ (hsorted.2.2 _ hmem _ ?_)
    rw [List.drop_eq_getElem_cons hmore]
    exact List.mem_cons_self

end Search

end Askl
