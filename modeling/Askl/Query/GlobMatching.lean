import Askl.Library.Wildcards
import Askl.Query.NameFilters
import Askl.Query.Search

/-!
# What globs match

A glob is compiled to a `LIKE` pattern, for the whole name of a symbol or for its leaf name.
A leaf name has been normalised when the symbol was indexed, and so are the literals of the
glob.

## Main definitions

* `globItems` — a glob as a pattern with wildcards.
* `compileLike` — the `LIKE` pattern of a pattern with wildcards.
* `caseEq` — how characters are compared, by the smart case.
* `leafChar` — what the normalisation of a leaf name makes of a character.
* `GlobRight` — what the compiled patterns of a glob must match.

## Main results

* `likeCase_compileLike` — a compiled pattern matches what the pattern does.
* `fullNamePattern_eq`, `globName_eq` — what the two compilers compile.
* `globRight` — **the patterns of every accepted glob are right.**
* `not_matched_kelvin` — a name that is lost, for a letter that leaf names drop.
-/

namespace Askl

open Splitting Wildcards

/-! ### Patterns for `LIKE` -/

/-- The `LIKE` pattern of a pattern with wildcards. -/
def compileLike : List (Item Char) → Text
  | [] => []
  | .any :: items => '%' :: compileLike items
  | .lit c :: items => escapeLike [c] ++ compileLike items

theorem compileLike_append (items items' : List (Item Char)) :
    compileLike (items ++ items') = compileLike items ++ compileLike items' := by
  induction items with
  | nil => rfl
  | cons item items ih =>
    cases item with
    | any => exact congrArg ('%' :: ·) ih
    | lit c =>
      rw [List.cons_append, compileLike, compileLike, ih, List.append_assoc]

theorem compileLike_lits (t : Text) : compileLike (t.map .lit) = escapeLike t := by
  induction t with
  | nil => rfl
  | cons c t ih =>
    rw [List.map_cons, compileLike, ih]
    simp only [escapeLike, List.flatMap_cons, List.flatMap_nil, List.append_nil]

/-- **A compiled pattern matches what the pattern does.** -/
theorem like_compileLike {items : List (Item Char)} {t : Text} :
    like (compileLike items) t = true ↔ Accepts (· = ·) items t := by
  induction items generalizing t with
  | nil =>
    rw [compileLike, accepts_nil_iff]
    cases t <;> simp [like]
  | cons item items ih =>
    cases item with
    | any =>
      rw [compileLike, like, List.any_eq_true, accepts_any_iff]
      simp only [List.mem_tails, ih]
    | lit c =>
      rw [compileLike, like_escapeLike_append, accepts_lit_iff]
      simp only [ih]
      constructor
      · rintro ⟨rest, rfl, h⟩
        exact ⟨c, rest, rfl, rfl, h⟩
      · rintro ⟨d, rest, rfl, rfl, h⟩
        exact ⟨rest, rfl, h⟩

/-- How characters are compared: as they are, or lower-cased. -/
def caseEq (lower : Char → Char) (caseSensitive : Bool) (c d : Char) : Prop :=
  if caseSensitive then c = d else lower c = lower d

/-- Lower-casing a compiled pattern lower-cases what is literal in it. -/
theorem Locale.map_compileLike (l : Locale) (items : List (Item Char)) :
    (compileLike items).map l.lower = compileLike (reduce (fun c => some (l.lower c)) items) := by
  induction items with
  | nil => rfl
  | cons item items ih =>
    cases item with
    | any =>
      rw [compileLike, reduce, compileLike, List.map_cons, ih,
        (l.lower_eq_iff '%' (by simp) '%').mpr rfl]
    | lit c =>
      rw [compileLike, reduce, compileLike, List.map_append, ih, l.map_escapeLike]
      rfl

/-- **A compiled pattern matches what the pattern does**, in either mode. -/
theorem likeCase_compileLike {l : Locale} {db : Database} (hdb : db.lower = l.lower)
    {caseSensitive : Bool} {items : List (Item Char)} {t : Text} :
    FilterLeaf.likeCase db caseSensitive (compileLike items) t = true ↔
      Accepts (caseEq l.lower caseSensitive) items t := by
  cases caseSensitive with
  | true => exact like_compileLike
  | false =>
    show like ((compileLike items).map db.lower) (t.map db.lower) = true ↔ _
    rw [hdb, l.map_compileLike, like_compileLike]
    exact accepts_reduce_map

/-- The characters of a `LIKE` pattern that stand for themselves. -/
def likeLiterals : Text → Text
  | [] => []
  | '%' :: p => likeLiterals p
  | '_' :: p => likeLiterals p
  | '\\' :: c :: p => c :: likeLiterals p
  | c :: p => c :: likeLiterals p

theorem likeLiterals_escapeLike (c : Char) (p : Text) :
    likeLiterals (escapeLike [c] ++ p) = c :: likeLiterals p := by
  rw [escapeLike, List.flatMap_cons, List.flatMap_nil, List.append_nil]
  split
  · exact likeLiterals.eq_4 c p
  · next hplain =>
    simp only [not_or] at hplain
    exact likeLiterals.eq_5 c p hplain.2.1 hplain.2.2 fun _ _ h _ => hplain.1 h

theorem mem_likeLiterals_compileLike {items : List (Item Char)} {c : Char}
    (h : .lit c ∈ items) : c ∈ likeLiterals (compileLike items) := by
  induction items with
  | nil => cases h
  | cons item items ih =>
    cases item with
    | any =>
      rw [compileLike, likeLiterals]
      exact ih (by simpa using h)
    | lit d =>
      rw [compileLike, likeLiterals_escapeLike]
      rcases List.mem_cons.mp h with heq | h
      · obtain rfl := Item.lit.inj heq
        exact List.mem_cons_self
      · exact .tail _ (ih h)

/-! ### Compiling a glob -/

/-- A glob as a pattern with wildcards: a star stands for any run of characters, and everything
else for itself. -/
def globItems (raw : Text) : List (Item Char) :=
  raw.map fun c => if c = '*' then .any else .lit c

/-- What a glob matches: all of the text, or with wildcards around it when it is not anchored. -/
def anchorItems (anchored : Bool) (items : List (Item Char)) : List (Item Char) :=
  if anchored then items else .any :: (items ++ [.any])

theorem fullNamePattern_eq (last : Bool) (raw : Text) :
    fullNamePattern last raw = compileLike (squeeze last (globItems raw)) := by
  induction raw generalizing last with
  | nil => cases last <;> rfl
  | cons c raw ih =>
    rw [fullNamePattern, globItems, List.map_cons]
    by_cases hc : c = '*'
    · rw [if_pos hc, if_pos hc]
      cases last with
      | true => exact ih true
      | false => exact congrArg ('%' :: ·) (ih true)
    · rw [if_neg hc, if_neg hc]
      cases last <;> exact congrArg (escapeLike [c] ++ ·) (ih false)

/-- What the normalisation of a leaf name makes of a character. -/
def leafChar (dotIsSeparator : Bool) (c : Char) : Option Char :=
  let c' := if !dotIsSeparator && c == '.' then '_' else c
  if isLeafChar c' then some c' else none

theorem normalizeLeafFragment_eq (dotIsSeparator : Bool) (t : Text) :
    normalizeLeafFragment t dotIsSeparator = t.filterMap (leafChar dotIsSeparator) := by
  rw [normalizeLeafFragment, replaceDots]
  induction t with
  | nil => cases dotIsSeparator <;> rfl
  | cons c t ih =>
    rw [List.filterMap_cons, ← ih]
    cases dotIsSeparator with
    | true =>
      simp only [leafChar, if_true, Bool.not_true, Bool.false_and, Bool.false_eq_true, if_false]
      by_cases hc : isLeafChar c = true
      · rw [List.filter_cons_of_pos hc, if_pos hc]
      · rw [List.filter_cons_of_neg hc, if_neg hc]
    | false =>
      simp only [leafChar, Bool.false_eq_true, if_false, Bool.not_false, Bool.true_and,
        List.map_cons]
      by_cases hc : isLeafChar (if (c == '.') = true then '_' else c) = true
      · rw [List.filter_cons_of_pos hc, if_pos hc]
      · rw [List.filter_cons_of_neg hc, if_neg hc]

/-- A name is split at a character, for symbols whose dots separate or not. -/
def splitsAt (dotIsSeparator : Bool) (c : Char) : Bool :=
  isSeparator c && (dotIsSeparator || c != '.')

/-- **The indexed leaf name is the last fragment of the name, normalised**, unless nothing of
it is left. -/
theorem extractLeafToken_append {dotIsSeparator : Bool} {qualifier t : Text}
    (hqualifier : qualifier = [] ∨
      ∃ q sep, qualifier = q ++ [sep] ∧ splitsAt dotIsSeparator sep = true)
    (ht : ∀ c ∈ t, splitsAt dotIsSeparator c = false)
    (hne : normalizeLeafFragment t dotIsSeparator ≠ []) :
    extractLeafToken (qualifier ++ t) dotIsSeparator = normalizeLeafFragment t dotIsSeparator := by
  have hplain : ∀ c ∈ replaceDots dotIsSeparator t, isSeparator c = false := by
    intro c hc
    cases dotIsSeparator with
    | true => simpa [splitsAt] using ht c hc
    | false =>
      obtain ⟨d, hd, rfl⟩ := List.mem_map.mp hc
      by_cases hdot : d = '.'
      · subst hdot
        decide
      · have := ht d hd
        simpa [splitsAt, hdot] using this
  have hfragment : pieces isSeparator isLeafChar (replaceDots dotIsSeparator t) =
      [normalizeLeafFragment t dotIsSeparator] := by
    rw [pieces, List.splitOnP_eq_singleton hplain, List.map_singleton]
    exact List.filter_cons_of_pos (by simpa [normalizeLeafFragment] using hne)
  have hreplace : ∀ u v : Text, replaceDots dotIsSeparator (u ++ v) =
      replaceDots dotIsSeparator u ++ replaceDots dotIsSeparator v := by
    intro u v
    cases dotIsSeparator with
    | true => rfl
    | false => exact List.map_append
  have htokens : ∃ tokens, nameTokens dotIsSeparator (qualifier ++ t) =
      tokens ++ [normalizeLeafFragment t dotIsSeparator] := by
    rw [nameTokens, normalizeSymbolTokens_eq_pieces, hreplace]
    rcases hqualifier with rfl | ⟨q, sep, rfl, hsep⟩
    · refine ⟨[], ?_⟩
      cases dotIsSeparator <;> exact hfragment
    · obtain ⟨hsep, hdot⟩ := Bool.and_eq_true_iff.mp hsep
      have hsingle : replaceDots dotIsSeparator [sep] = [sep] := by
        cases dotIsSeparator with
        | true => rfl
        | false =>
          have hne : ¬ sep = '.' := by simpa using hdot
          simp [replaceDots, hne]
      rw [hreplace, hsingle, List.append_assoc, List.singleton_append, pieces_append_cons hsep,
        hfragment]
      exact ⟨_, rfl⟩
  obtain ⟨tokens, htokens⟩ := htokens
  show (nameTokens dotIsSeparator (qualifier ++ t)).getLastD unknownLabel = _
  rw [htokens]
  simp

/-- The pieces of a glob as a pattern with wildcards. -/
def pieceItems (pieces : List GlobPiece) : List (Item Char) :=
  pieces.flatMap fun
    | .lit text => text.map .lit
    | .star => [.any]

theorem squeeze_lits (last : Bool) (t : Text) (items : List (Item Char)) :
    squeeze last (t.map .lit ++ items) = t.map .lit ++ squeeze (t.isEmpty && last) items := by
  induction t generalizing last with
  | nil => rfl
  | cons c t ih =>
    have hlast : (t.isEmpty && false) = false := Bool.and_false _
    cases last <;> exact congrArg (Item.lit c :: ·) ((ih false).trans (by rw [hlast]; rfl))

theorem endsWithAny_lits (last : Bool) (t : Text) (items : List (Item Char)) :
    endsWithAny last (t.map .lit ++ items) = endsWithAny (t.isEmpty && last) items := by
  induction t generalizing last with
  | nil => rfl
  | cons c t ih =>
    have hlast : (t.isEmpty && false) = false := Bool.and_false _
    exact (ih false).trans (by rw [hlast]; rfl)

theorem reduce_lits (dotIsSeparator : Bool) (t : Text) :
    reduce (leafChar dotIsSeparator) (t.map .lit) =
      (normalizeLeafFragment t dotIsSeparator).map .lit := by
  rw [normalizeLeafFragment_eq]
  induction t with
  | nil => rfl
  | cons c t ih =>
    rw [List.map_cons, reduce, List.filterMap_cons, ih]
    cases leafChar dotIsSeparator c <;> rfl

/-- The loop of the compiler for leaf names. -/
theorem globNamePattern_eq (dotIsSeparator last : Bool) (pieces : List GlobPiece) :
    globNamePattern dotIsSeparator last pieces =
      (compileLike (squeeze last (reduce (leafChar dotIsSeparator) (pieceItems pieces))),
        endsWithAny last (reduce (leafChar dotIsSeparator) (pieceItems pieces))) := by
  induction pieces generalizing last with
  | nil => cases last <;> rfl
  | cons piece pieces ih =>
    cases piece with
    | star =>
      rw [globNamePattern, ih true]
      cases last <;> rfl
    | lit text =>
      have hitems : reduce (leafChar dotIsSeparator) (pieceItems (.lit text :: pieces)) =
          (normalizeLeafFragment text dotIsSeparator).map .lit ++
            reduce (leafChar dotIsSeparator) (pieceItems pieces) := by
        rw [← reduce_lits, ← reduce_append]
        rfl
      rw [globNamePattern, ih, hitems, squeeze_lits, endsWithAny_lits, compileLike_append,
        compileLike_lits]

/-- The compiler for leaf names. -/
theorem globName_eq (isUppercase : Char → Bool) (pieces : List GlobPiece)
    (dotIsSeparator anchored : Bool) :
    ∃ caseSensitive, globName isUppercase pieces dotIsSeparator anchored =
      .globName (compileLike (squeeze false (anchorItems anchored
        (reduce (leafChar dotIsSeparator) (pieceItems pieces))))) caseSensitive ∧
      caseSensitive = pieces.any fun
        | .lit text => smartCaseSensitive isUppercase (normalizeLeafFragment text dotIsSeparator)
        | .star => false := by
  refine ⟨_, ?_, rfl⟩
  rw [globName]
  simp only [globNamePattern_eq]
  congr 1
  cases anchored with
  | true => simp [anchorItems]
  | false =>
    simp only [anchorItems, Bool.false_eq_true, if_false, squeeze, squeeze_append_any,
      compileLike, compileLike_append, Bool.not_false, Bool.true_and]
    cases endsWithAny true (reduce (leafChar dotIsSeparator) (pieceItems pieces)) <;> rfl

/-! ### Tokens of a glob -/

/-- The tokens of a glob: its separators, and its runs of other characters without stars. -/
theorem of_mem_parseNamePattern {raw : Text} {token : NameToken}
    (h : token ∈ parseNamePattern raw) :
    (∀ x, token = .separator x → x ∈ raw) ∧
      ∀ s, token = .literal s → ∀ c ∈ s, c ∈ raw ∧ c ≠ '*' := by
  induction raw generalizing token with
  | nil => cases h
  | cons c raw ih =>
    have hrest : ∀ {token}, token ∈ parseNamePattern raw →
        (∀ x, token = .separator x → x ∈ c :: raw) ∧
          ∀ s, token = .literal s → ∀ d ∈ s, d ∈ c :: raw ∧ d ≠ '*' := fun h =>
      ⟨fun x hx => .tail _ ((ih h).1 x hx),
        fun s hs d hd => ⟨.tail _ ((ih h).2 s hs d hd).1, ((ih h).2 s hs d hd).2⟩⟩
    rw [parseNamePattern] at h
    split at h
    · rcases List.mem_cons.mp h with rfl | h
      · exact ⟨fun x hx => (nomatch hx), fun s hs => (nomatch hs)⟩
      · exact hrest h
    next hstar =>
    split at h
    · rcases List.mem_cons.mp h with rfl | h
      · refine ⟨fun x hx => ?_, fun s hs => nomatch hs⟩
        obtain rfl := NameToken.separator.inj hx
        exact List.mem_cons_self
      · exact hrest h
    have hliteral : ∀ {s' : Text}, (∀ d ∈ s', d ∈ c :: raw ∧ d ≠ '*') →
        token = .literal (c :: s') → (∀ x, token = .separator x → x ∈ c :: raw) ∧
          ∀ s, token = .literal s → ∀ d ∈ s, d ∈ c :: raw ∧ d ≠ '*' := by
      rintro s' hs' rfl
      refine ⟨fun x hx => (nomatch hx), fun s hs => ?_⟩
      obtain rfl := NameToken.literal.inj hs
      exact List.forall_mem_cons.mpr ⟨⟨List.mem_cons_self, hstar⟩, hs'⟩
    split at h
    · next s tokens htokens =>
      rcases List.mem_cons.mp h with heq | h
      · exact hliteral (fun d hd => (hrest (htokens ▸ List.mem_cons_self)).2 s rfl d hd) heq
      · exact hrest (htokens ▸ .tail _ h)
    · rcases List.mem_cons.mp h with heq | h
      · exact hliteral (List.forall_mem_nil _) heq
      · exact hrest h

/-- On the route over leaf names, the pieces are the glob. -/
theorem pieceItems_parseNamePattern {raw : Text} (hslash : '/' ∉ raw) (hcolon : ':' ∉ raw) :
    pieceItems ((parseNamePattern raw).filterMap NameToken.piece) = globItems raw := by
  induction raw with
  | nil => rfl
  | cons c raw ih =>
    obtain ⟨hc, hslash⟩ := not_or.mp (List.mem_cons.not.mp hslash)
    obtain ⟨hc', hcolon⟩ := not_or.mp (List.mem_cons.not.mp hcolon)
    have ih := ih hslash hcolon
    rw [globItems, List.map_cons] at *
    rw [parseNamePattern]
    by_cases hstar : c = '*'
    · rw [if_pos hstar, if_pos hstar, ← ih]
      rfl
    rw [if_neg hstar, if_neg hstar]
    by_cases hsep : isSeparator c = true
    · obtain rfl : c = '.' := by
        simp only [isSeparator, Bool.or_eq_true, beq_iff_eq] at hsep
        rcases hsep with (h | h) | h
        · exact h
        · exact absurd h.symm hc
        · exact absurd h.symm hc'
      rw [if_pos hsep]
      exact congrArg (Item.lit '.' :: ·) ih
    · rw [if_neg hsep]
      split
      · next s tokens htokens =>
        rw [htokens] at ih
        exact congrArg (Item.lit c :: ·) ih
      · exact congrArg (Item.lit c :: ·) ih

/-- Whether a glob takes the route over leaf names. -/
def GlobPattern.leafRoute (g : GlobPattern) (dotIsSeparator : Bool) : Bool :=
  let tokens := parseNamePattern g.raw
  !(hasHardSeparator tokens || (hasDot tokens && dotIsSeparator))

theorem separator_mem_parseNamePattern {raw : Text} {c : Char} (hsep : isSeparator c = true)
    (hstar : c ≠ '*') (h : c ∈ raw) : .separator c ∈ parseNamePattern raw := by
  induction raw with
  | nil => cases h
  | cons d raw ih =>
    rw [parseNamePattern]
    rcases List.mem_cons.mp h with rfl | h
    · rw [if_neg hstar, if_pos hsep]
      exact List.mem_cons_self
    · have hrest := ih h
      split
      · exact .tail _ hrest
      split
      · exact .tail _ hrest
      split
      · next htokens =>
        rw [htokens] at hrest
        rcases List.mem_cons.mp hrest with heq | hrest
        · cases heq
        · exact .tail _ hrest
      · exact .tail _ hrest

theorem GlobPattern.not_mem_of_leafRoute {g : GlobPattern} {dotIsSeparator : Bool}
    (h : g.leafRoute dotIsSeparator = true) :
    '/' ∉ g.raw ∧ ':' ∉ g.raw ∧ hasHardSeparator (parseNamePattern g.raw) = false := by
  simp only [leafRoute, Bool.not_eq_true', Bool.or_eq_false_iff] at h
  have hhard := h.1
  rw [hasHardSeparator, Bool.or_eq_false_iff, List.contains_eq_mem, List.contains_eq_mem,
    decide_eq_false_iff_not, decide_eq_false_iff_not] at hhard
  exact ⟨fun hmem => hhard.1 (separator_mem_parseNamePattern (by decide) (by decide) hmem),
    fun hmem => hhard.2 (separator_mem_parseNamePattern (by decide) (by decide) hmem), h.1⟩

/-- An accepted glob has a character that is neither a star nor a separator, and without a
slash or a colon one that leaf names keep. -/
theorem GlobPattern.exists_literal (g : GlobPattern) :
    ∃ c ∈ g.raw, c ≠ '*' ∧
      (hasHardSeparator (parseNamePattern g.raw) = false → isLeafChar c = true) := by
  have hcontent := g.content
  rw [hasContent] at hcontent
  split at hcontent
  · next hhard =>
    obtain ⟨token, htoken, hliteral⟩ := List.any_eq_true.mp hcontent
    cases token with
    | literal s =>
      cases s with
      | nil => cases hliteral
      | cons c s =>
        obtain ⟨hmem, hstar⟩ := (of_mem_parseNamePattern htoken).2 _ rfl c List.mem_cons_self
        exact ⟨c, hmem, hstar, fun hsoft => absurd (hhard.symm.trans hsoft) (by decide)⟩
    | wildcard => cases hliteral
    | separator x => cases hliteral
  · obtain ⟨token, htoken, hliteral⟩ := List.any_eq_true.mp hcontent
    cases token with
    | literal s =>
      obtain ⟨c, hc, hleaf⟩ := List.any_eq_true.mp hliteral
      obtain ⟨hmem, hstar⟩ := (of_mem_parseNamePattern htoken).2 s rfl c hc
      exact ⟨c, hmem, hstar, fun _ => hleaf⟩
    | wildcard => cases hliteral
    | separator x => cases hliteral

theorem lit_mem_globItems {raw : Text} {c : Char} :
    .lit c ∈ globItems raw ↔ c ∈ raw ∧ c ≠ '*' := by
  rw [globItems, List.mem_map]
  constructor
  · rintro ⟨d, hd, heq⟩
    split at heq
    · cases heq
    · next hstar =>
      obtain rfl := Item.lit.inj heq
      exact ⟨hd, hstar⟩
  · rintro ⟨hc, hstar⟩
    exact ⟨c, hc, if_neg hstar⟩

theorem lit_mem_anchorItems {anchored : Bool} {items : List (Item Char)} {c : Char} :
    .lit c ∈ anchorItems anchored items ↔ .lit c ∈ items := by
  cases anchored <;> simp [anchorItems]

theorem reduce_anchorItems (f : Char → Option Char) (anchored : Bool)
    (items : List (Item Char)) :
    reduce f (anchorItems anchored items) = anchorItems anchored (reduce f items) := by
  cases anchored with
  | true => rfl
  | false => exact congrArg (Item.any :: ·) (reduce_append f items [.any])

/-! ### The claim -/

/-- The `LIKE` pattern of a compiled glob. -/
def CompositeFilter.sqlPattern : CompositeFilter → Option Text
  | .leaf (.globName sqlPattern _) => some sqlPattern
  | .leaf (.fullNameGlob sqlPattern _) => some sqlPattern
  | _ => none

/-- The normalisation keeps characters together that agree up to case: in the
case-insensitive mode, a character of the glob and one of the name that are lower-cased to one
another are dropped both, or kept both with the same lower-case form. -/
def FoldsAlike (lower : Char → Char) (dotIsSeparator : Bool) (raw t : Text) : Prop :=
  ∀ c ∈ raw, ∀ d ∈ t, lower c = lower d →
    (leafChar dotIsSeparator c).map lower = (leafChar dotIsSeparator d).map lower

/-- What the compiled patterns of a glob must match: on the route over whole names exactly what
the glob does; on that over leaf names, after both sides are normalised, what it does before;
and there must be a literal character in them. -/
structure GlobRight (db : Database) (lower : Char → Char) (isUppercase : Char → Bool)
    (g : GlobPattern) : Prop where
  fullName : ∀ row : CurrentRow, (g.fullNameFilter isUppercase).keeps db row = true ↔
    Accepts (caseEq lower (smartCaseSensitive isUppercase g.raw)) (globItems g.raw)
      row.symbol.name
  route : ∀ dotIsSeparator anchored, g.leafRoute dotIsSeparator = false →
    g.filter isUppercase dotIsSeparator anchored = g.fullNameFilter isUppercase
  leafName : ∀ dotIsSeparator anchored (row : CurrentRow) (t : Text),
    g.leafRoute dotIsSeparator = true →
    row.symbol.leafName = normalizeLeafFragment t dotIsSeparator →
    (smartCaseSensitive isUppercase g.raw = false → FoldsAlike lower dotIsSeparator g.raw t) →
    Accepts (caseEq lower (smartCaseSensitive isUppercase g.raw))
      (anchorItems anchored (globItems g.raw)) t →
    (g.filter isUppercase dotIsSeparator anchored).keeps db row = true
  literal : ∀ f, (f = g.fullNameFilter isUppercase ∨
      ∃ dotIsSeparator anchored, f = g.filter isUppercase dotIsSeparator anchored) →
    ∃ sqlPattern, f.sqlPattern = some sqlPattern ∧ likeLiterals sqlPattern ≠ []

section Glob

variable {db : Database} {l : Locale} {isUppercase : Char → Bool}

/-- A filter by a pattern keeps the rows whose column matches. -/
theorem keeps_globName {sqlPattern : Text} {caseSensitive : Bool} {row : CurrentRow} :
    (CompositeFilter.leaf (.globName sqlPattern caseSensitive)).keeps db row =
      FilterLeaf.likeCase db caseSensitive sqlPattern row.symbol.leafName := rfl

theorem keeps_fullNameGlob {sqlPattern : Text} {caseSensitive : Bool} {row : CurrentRow} :
    (CompositeFilter.leaf (.fullNameGlob sqlPattern caseSensitive)).keeps db row =
      FilterLeaf.likeCase db caseSensitive sqlPattern row.symbol.name := rfl

/-- The pattern over leaf names of a glob on that route. -/
theorem filter_of_leafRoute {g : GlobPattern} {dotIsSeparator : Bool}
    (isUppercase : Char → Bool) (anchored : Bool)
    (hroute : g.leafRoute dotIsSeparator = true) :
    ∃ caseSensitive, g.filter isUppercase dotIsSeparator anchored =
      .leaf (.globName (compileLike (squeeze false (anchorItems anchored
        (reduce (leafChar dotIsSeparator) (globItems g.raw))))) caseSensitive) ∧
      (caseSensitive = true → ∃ c, .lit c ∈ reduce (leafChar dotIsSeparator) (globItems g.raw) ∧
        isUppercase c = true) := by
  obtain ⟨hslash, hcolon, -⟩ := GlobPattern.not_mem_of_leafRoute hroute
  have hpieces := pieceItems_parseNamePattern hslash hcolon
  obtain ⟨caseSensitive, hglob, hcase⟩ := globName_eq isUppercase
    ((parseNamePattern g.raw).filterMap NameToken.piece) dotIsSeparator anchored
  rw [hpieces] at hglob
  refine ⟨caseSensitive, ?_, fun hsensitive => ?_⟩
  · rw [GlobPattern.filter, if_neg, hglob]
    intro hfull
    simp only [GlobPattern.leafRoute, hfull, Bool.not_true, Bool.false_eq_true] at hroute
  · rw [hcase, List.any_eq_true] at hsensitive
    obtain ⟨piece, hpiece, hupper⟩ := hsensitive
    cases piece with
    | star => cases hupper
    | lit text =>
      obtain ⟨c, hc, hupper⟩ := List.any_eq_true.mp hupper
      refine ⟨c, ?_, hupper⟩
      rw [← hpieces]
      rw [normalizeLeafFragment_eq, List.mem_filterMap] at hc
      obtain ⟨d, hd, hc⟩ := hc
      refine lit_mem_reduce.mpr ⟨d, ?_, hc⟩
      exact List.mem_flatMap.mpr ⟨_, hpiece, List.mem_map_of_mem hd⟩

/-- A character that is kept is its own, or a dot that is part of a name. -/
theorem leafChar_eq_some {dotIsSeparator : Bool} {c d : Char}
    (h : leafChar dotIsSeparator c = some d) : d = c ∨ d = '_' := by
  rw [leafChar] at h
  split at h
  · split at h
    · exact Or.inr (Option.some.inj h).symm
    · cases h
  · split at h
    · exact Or.inl (Option.some.inj h).symm
    · cases h

/-- **A raw leaf name that the glob matches is matched after both sides are normalised**, as
long as the normalisation keeps together what agrees up to case. -/
theorem keeps_filter_of_matches (hdb : db.lower = l.lower) (hunderscore : isUppercase '_' = false)
    {g : GlobPattern} {dotIsSeparator anchored : Bool} {row : CurrentRow} {t : Text}
    (hroute : g.leafRoute dotIsSeparator = true)
    (hleaf : row.symbol.leafName = normalizeLeafFragment t dotIsSeparator)
    (hfolds : smartCaseSensitive isUppercase g.raw = false →
      FoldsAlike l.lower dotIsSeparator g.raw t)
    (h : Accepts (caseEq l.lower (smartCaseSensitive isUppercase g.raw))
      (anchorItems anchored (globItems g.raw)) t) :
    (g.filter isUppercase dotIsSeparator anchored).keeps db row = true := by
  obtain ⟨caseSensitive, hfilter, hupper⟩ :=
    filter_of_leafRoute isUppercase anchored hroute
  rw [hfilter, keeps_globName, likeCase_compileLike hdb, accepts_squeeze, hleaf,
    normalizeLeafFragment_eq, ← reduce_anchorItems]
  refine h.reduce fun c d hc hd hcd => ?_
  have hraw := (lit_mem_globItems.mp (lit_mem_anchorItems.mp hc)).1
  -- what is compiled is case-sensitive only where the glob is
  cases hsmart : smartCaseSensitive isUppercase g.raw with
  | true =>
    rw [hsmart] at hcd
    obtain rfl : c = d := hcd
    cases hleafChar : leafChar dotIsSeparator c with
    | none => exact .none
    | some e =>
      refine .some ?_
      cases caseSensitive with
      | true => exact (rfl : e = e)
      | false => exact (rfl : l.lower e = l.lower e)
  | false =>
    have hinsensitive : caseSensitive = false := by
      rw [Bool.eq_false_iff]
      intro hsensitive
      obtain ⟨e, he, hupper⟩ := hupper hsensitive
      obtain ⟨e', he', heq⟩ := lit_mem_reduce.mp he
      rcases leafChar_eq_some heq with rfl | rfl
      · have := List.any_eq_false.mp hsmart e (lit_mem_globItems.mp he').1
        exact this hupper
      · rw [hunderscore] at hupper
        cases hupper
    rw [hsmart] at hcd
    have hmap := hfolds hsmart c hraw d hd hcd
    rw [hinsensitive]
    cases hc' : leafChar dotIsSeparator c <;> cases hd' : leafChar dotIsSeparator d <;>
      rw [hc', hd'] at hmap
    · exact .none
    · cases hmap
    · cases hmap
    · exact .some (Option.some.inj hmap)

/-- The pattern of a glob has a literal character, on both routes. -/
theorem exists_sqlPattern (g : GlobPattern) {f : CompositeFilter}
    (hf : f = g.fullNameFilter isUppercase ∨
      ∃ dotIsSeparator anchored, f = g.filter isUppercase dotIsSeparator anchored) :
    ∃ sqlPattern, f.sqlPattern = some sqlPattern ∧ likeLiterals sqlPattern ≠ [] := by
  obtain ⟨c, hc, hstar, hleaf⟩ := g.exists_literal
  have hfull : ∃ sqlPattern, (g.fullNameFilter isUppercase).sqlPattern = some sqlPattern ∧
      likeLiterals sqlPattern ≠ [] := by
    refine ⟨_, rfl, List.ne_nil_of_mem (a := c) ?_⟩
    rw [fullNamePattern_eq]
    exact mem_likeLiterals_compileLike (lit_mem_squeeze.mpr (lit_mem_globItems.mpr ⟨hc, hstar⟩))
  rcases hf with rfl | ⟨dotIsSeparator, anchored, rfl⟩
  · exact hfull
  · cases hroute : g.leafRoute dotIsSeparator with
    | true =>
      obtain ⟨caseSensitive, hfilter, -⟩ :=
        filter_of_leafRoute isUppercase anchored hroute
      have hkept := hleaf (GlobPattern.not_mem_of_leafRoute hroute).2.2
      have hchar : leafChar dotIsSeparator c = some c := by
        have hdot : c ≠ '.' := by
          rintro rfl
          exact absurd hkept (by decide)
        simp [leafChar, hdot, hkept]
      rw [hfilter]
      refine ⟨_, rfl, List.ne_nil_of_mem (a := c) ?_⟩
      exact mem_likeLiterals_compileLike (lit_mem_squeeze.mpr (lit_mem_anchorItems.mpr
        (lit_mem_reduce.mpr ⟨c, lit_mem_globItems.mpr ⟨hc, hstar⟩, hchar⟩)))
    | false =>
      rw [GlobPattern.leafRoute, Bool.not_eq_false'] at hroute
      rw [GlobPattern.filter, if_pos hroute]
      exact hfull

/-- **The patterns of every accepted glob are right.** -/
theorem globRight (hdb : db.lower = l.lower) (hunderscore : isUppercase '_' = false)
    (g : GlobPattern) : GlobRight db l.lower isUppercase g where
  fullName row := by
    rw [GlobPattern.fullNameFilter, fullNameGlob, keeps_fullNameGlob, fullNamePattern_eq,
      likeCase_compileLike hdb, accepts_squeeze]
  route dotIsSeparator anchored hroute := by
    rw [GlobPattern.leafRoute, Bool.not_eq_false'] at hroute
    rw [GlobPattern.filter, if_pos hroute]
  leafName _ _ _ _ hroute hleaf hfolds h := keeps_filter_of_matches hdb hunderscore hroute hleaf
    hfolds h
  literal _ hf := exists_sqlPattern g hf

end Glob

/-! ### A letter from outside -/

/-- The Kelvin sign, whose lower-case letter is the plain one. -/
def kelvinSign : Char := Char.ofNat 0x212A

/-- A locale that lower-cases it, besides the letters of ASCII. -/
def kelvinLocale : Locale where
  lower c := if c = kelvinSign then 'k' else c.toLower
  lower_eq_iff m hm c := by
    split
    · next h =>
      subst h
      simp only [List.mem_cons, List.not_mem_nil, or_false] at hm
      rcases hm with rfl | rfl | rfl <;> decide
    · exact toLower_eq_iff hm c

/-- A database with that locale. -/
def kelvinDatabase : Database :=
  { Database.singleFile [] [] [] (.refl true) (.refl true) (.refl true) with
    lower := kelvinLocale.lower }

/-- A glob of lower-case letters. -/
def kelvinGlob : GlobPattern := ⟨['k', 'x'], by decide⟩

/-- The row of the symbol whose name is the Kelvin sign and a letter, as it is indexed. -/
def kelvinRow : CurrentRow :=
  (Symbol.plain 1 (normalizeLeafFragment [kelvinSign, 'x'] true)).row

/-- The glob of a letter is right in that database, too. -/
theorem globRight_kelvin : GlobRight kelvinDatabase kelvinLocale.lower Char.isUpper kelvinGlob :=
  globRight rfl (by decide) kelvinGlob

/-- **A raw leaf name that the glob matches is lost**: its first letter is lower-cased to that
of the glob, but leaf names drop it. -/
theorem not_matched_kelvin :
    kelvinGlob.leafRoute true = true ∧
    kelvinRow.symbol.leafName = normalizeLeafFragment [kelvinSign, 'x'] true ∧
    Accepts (caseEq kelvinLocale.lower (smartCaseSensitive Char.isUpper kelvinGlob.raw))
      (anchorItems true (globItems kelvinGlob.raw)) [kelvinSign, 'x'] ∧
    ¬ (kelvinGlob.filter Char.isUpper true true).keeps kelvinDatabase kelvinRow = true := by
  refine ⟨by decide, rfl, ?_, by decide⟩
  have hk : kelvinLocale.lower 'k' = kelvinLocale.lower kelvinSign := by decide
  have hx : kelvinLocale.lower 'x' = kelvinLocale.lower 'x' := rfl
  exact .lit hk (.lit hx .nil)

end Askl
