import Askl.Query.Grammar

/-!
# Quoted text

A quoted text is matched by a rule with no modifier.  Where this is reached in the mode of a
query, white space and comments are skipped after the opening quote, though they belong to the
text.  In a named argument and after a prefix, where the mode is another, nothing is.

## Main definitions

* `Skippable` — an input begins with what is skipped.
* `Identifier`, `QuotePlace` — the places a quoted text is written in.

## Main results

* `comment_none_iff`, `whitespace_none_iff` — where nothing is skipped.
* `parses_quotedString_iff` — a quoted text, in a mode.
* `QuotePlace.exact_iff` — **when a quoted text is read as it is written.**
-/

namespace Askl

open Pest Peg

variable {xid : Xid} {m : Mode} {s s' : Text} {ts : List Pair}

/-! ### What is skipped -/

/-- An input begins with a blank, a line comment, or a block comment that ends. -/
def Skippable (s : Text) : Prop :=
  [' '] <+: s ∨ ['\t'] <+: s ∨ ['/', '/'] <+: s ∨
    (['/', '*'] <+: s ∧ ['*', '/'] <:+: s.drop 2)

instance (s : Text) : Decidable (Skippable s) :=
  inferInstanceAs (Decidable (_ ∨ _))

/-- White space does not begin where no blank does. -/
theorem whitespace_none_iff :
    Parses (askl xid).peg (.call (.nonAtomic, .whitespace)) s none ↔
      ¬[' '] <+: s ∧ ¬['\t'] <+: s := by
  constructor
  · intro h
    cases h with
    | callNone h =>
      cases h with
      | catLeft h =>
        cases h with
        | altRight ha hb =>
          cases ha with
          | strNone ha =>
            cases hb with
            | strNone hb => exact ⟨ha, hb⟩
      | catRight _ h => exact absurd h Grammar.not_parses_star_none
  · rintro ⟨hspace, htab⟩
    exact .callNone (.catLeft (.altRight (.strNone hspace) (.strNone htab)))

/-- The characters up to the end of a block. -/
theorem parses_block (s : Text) :
    Parses (askl xid).peg (Grammar.translate (askl xid) .atomic
      (.star (.seq (.no (.str ['*', '/'])) Rule.any))) s
        (some (dropUntil (fun u => decide (['*', '/'] <+: u)) s, [])) := by
  refine Grammar.parses_star_atomic (parses_until (fun s hs => ?_) (fun s hs => ?_) s)
  · obtain ⟨rest, rfl⟩ := of_decide_eq_true hs
    exact ⟨_, .strSome rfl⟩
  · exact .strNone (of_decide_eq_false hs)

/-- A comment does not begin where neither of its marks does, or where a block does not end. -/
theorem comment_none_iff :
    Parses (askl xid).peg (.call (.nonAtomic, .comment)) s none ↔
      ¬['/', '/'] <+: s ∧ ¬(['/', '*'] <+: s ∧ ['*', '/'] <:+: s.drop 2) := by
  have hblock : ∀ {u : Text}, Parses (askl xid).peg (.cat (Grammar.translate (askl xid) .atomic
      (.star (.seq (.no (.str ['*', '/'])) Rule.any))) (.str ['*', '/'])) u none ↔
        ¬['*', '/'] <:+: u := by
    intro u
    rw [← prefix_dropUntil_iff (List.cons_ne_nil _ _)]
    constructor
    · intro h
      cases h with
      | catLeft h => exact absurd h Grammar.not_parses_star_none
      | catRight ha hb =>
        cases ha.eq (parses_block u)
        cases hb with
        | strNone hb => exact hb
    · exact fun h => .catRight (parses_block u) (.strNone h)
  constructor
  · intro h
    cases h with
    | callNone h =>
      cases h with
      | altRight ha hb =>
        constructor
        · cases ha with
          | catLeft ha =>
            cases ha with
            | strNone ha => exact ha
          | catRight _ ha => exact absurd ha Grammar.not_parses_star_none
        · rintro ⟨⟨rest, rfl⟩, hinfix⟩
          cases hb with
          | catLeft hb =>
            cases hb with
            | strNone hb => exact hb ⟨rest, rfl⟩
          | catRight ha hb =>
            obtain ⟨hrest, -⟩ := ha.of_str
            obtain rfl := List.append_cancel_left hrest
            exact hblock.mp hb hinfix
  · rintro ⟨hline, hend⟩
    refine .callNone (.altRight (.catLeft (.strNone hline)) ?_)
    by_cases hopen : ['/', '*'] <+: s
    · obtain ⟨rest, rfl⟩ := hopen
      exact .catRight (.strSome rfl) (hblock.mpr fun h => hend ⟨⟨rest, rfl⟩, h⟩)
    · exact .catLeft (.strNone hopen)

/-- White space and comments are not empty. -/
theorem length_lt_of_skipped {r : Rule}
    (hr : r = (askl xid).whitespace ∨ r = (askl xid).comment)
    (h : Parses (askl xid).peg (.call (.nonAtomic, r)) s (some (s', ts))) :
    s'.length < s.length := by
  obtain ⟨_, us, -, hbody, -⟩ := h.of_call
  have hword : ∀ {w u v : Text} {us vs : List Pair} {e : Peg.Expr (Mode × Rule) Char}, w ≠ [] →
      Parses (askl xid).peg (.str w) s (some (u, us)) →
        Parses (askl xid).peg e u (some (v, vs)) → v.length < s.length := by
    intro w u v us vs e hw hstr he
    obtain ⟨rfl, -⟩ := hstr.of_str
    have hle := he.suffix.length_le
    have hpos := List.length_pos_of_ne_nil hw
    rw [List.length_append]
    omega
  rcases hr with rfl | rfl
  · obtain ⟨u, _, _, hblank, hrest, -⟩ := hbody.of_cat
    cases hblank with
    | altLeft hblank => exact hword (List.cons_ne_nil _ _) hblank hrest
    | altRight _ hblank => exact hword (List.cons_ne_nil _ _) hblank hrest
  · cases hbody with
    | altLeft hline =>
      obtain ⟨u, _, _, hmark, hrest, -⟩ := hline.of_cat
      exact hword (List.cons_ne_nil _ _) hmark hrest
    | altRight _ hblock =>
      obtain ⟨u, _, _, hmark, hrest, -⟩ := hblock.of_cat
      exact hword (List.cons_ne_nil _ _) hmark hrest

/-- What is skipped shows no nodes. -/
theorem trees_skip (h : Parses (askl xid).peg (askl xid).skip s (some (s', ts))) : ts = [] := by
  refine h.trees_nil (P := fun n => n.2 = .whitespace ∨ n.2 = .comment) ?_ ?_
  · rintro ⟨m, r⟩ (hr : r = .whitespace ∨ r = .comment)
    obtain rfl | rfl := hr
    · exact ⟨rfl, fun k hk => by cases hk⟩
    · exact ⟨rfl, fun k hk => by cases hk⟩
  · intro k hk
    have hk : k = (.nonAtomic, .whitespace) ∨ k = (.nonAtomic, .comment) ∨
        k = (.nonAtomic, .whitespace) := by simpa [Grammar.skip, Peg.Expr.calls, askl] using hk
    rcases hk with rfl | rfl | rfl
    · exact .inl rfl
    · exact .inr rfl
    · exact .inl rfl

/-- **Nothing is skipped where nothing that is skipped begins.** -/
theorem parses_skip_self_iff :
    Parses (askl xid).peg (askl xid).skip s (some (s, [])) ↔ ¬Skippable s := by
  have hiff : ¬Skippable s ↔
      Parses (askl xid).peg (.call (.nonAtomic, .whitespace)) s none ∧
        Parses (askl xid).peg (.call (.nonAtomic, .comment)) s none := by
    rw [whitespace_none_iff, comment_none_iff, Skippable]
    tauto
  rw [hiff]
  constructor
  · exact Grammar.fails_of_skip_self fun r hr _ _ => length_lt_of_skipped hr
  · rintro ⟨hw, hc⟩
    exact Grammar.parses_skip_self hw hc

/-! ### The text between quotes -/

theorem not_skippable_quote (post : Text) : ¬Skippable ('"' :: post) := by
  simp [Skippable, List.cons_prefix_cons]

theorem grow_string (hm : m ≠ .atomic) (t : Text) (us : List Pair) :
    (askl xid).peg.grow (m, .string) t us = [.node .string t us] := by
  cases m with
  | atomic => exact absurd rfl hm
  | nonAtomic => rfl
  | compoundAtomic => rfl

/-- The text goes up to the next quote. -/
theorem parses_string (hm : m ≠ .atomic) {t : Text} (ht : '"' ∉ t) (post : Text) :
    Parses (askl xid).peg (.call (m, .string)) (t ++ '"' :: post)
      (some ('"' :: post, [.node .string t []])) := by
  have hbody : Parses (askl xid).peg ((askl xid).peg.body (m, .string)) (t ++ '"' :: post)
      (some (dropUntil (fun u => decide (['"'] <+: u)) (t ++ '"' :: post), [])) := by
    refine Grammar.parses_star_atomic (parses_until (fun s hs => ?_) (fun s hs => ?_) _)
    · obtain ⟨rest, rfl⟩ := of_decide_eq_true hs
      exact ⟨_, .strSome rfl⟩
    · exact .strNone (of_decide_eq_false hs)
  have hdrop : dropUntil (fun u => decide (['"'] <+: u)) (t ++ '"' :: post) = '"' :: post := by
    refine dropUntil_append (fun a u hu => decide_eq_false fun hp => ht ?_) (by simp)
    obtain rfl : '"' = a := (List.cons_prefix_cons.mp hp).1
    exact hu.subset List.mem_cons_self
  rw [hdrop] at hbody
  rw [← grow_string hm]
  exact .callSome hbody rfl

/-- **A quoted text is read as it is written when nothing is skipped before it.** -/
theorem parses_quotedString (hm : m ≠ .atomic) {t : Text} (ht : '"' ∉ t) {post : Text}
    (hskip : m = .nonAtomic → ¬Skippable (t ++ '"' :: post)) :
    Parses (askl xid).peg (.call (m, .quotedString)) ('"' :: (t ++ '"' :: post))
      (some (post, [.node .string t []])) := by
  have hopen : m = .nonAtomic →
      Parses (askl xid).peg (askl xid).skip (t ++ '"' :: post) (some (t ++ '"' :: post, [])) :=
    fun h => parses_skip_self_iff.mpr (hskip h)
  have hclose : m = .nonAtomic →
      Parses (askl xid).peg (askl xid).skip ('"' :: post) (some ('"' :: post, [])) :=
    fun _ => parses_skip_self_iff.mpr (not_skippable_quote post)
  have hbody : Parses (askl xid).peg ((askl xid).peg.body (m, .quotedString))
      ('"' :: (t ++ '"' :: post)) (some (post, [] ++ ([.node .string t []] ++ []))) := by
    have hmode : (askl xid).bodyMode m .quotedString = m := by cases m <;> rfl
    show Parses (askl xid).peg ((askl xid).translate ((askl xid).bodyMode m .quotedString)
      (.seq (.str ['"']) (.seq (.rule .string) (.str ['"'])))) _ _
    rw [hmode]
    exact .catSome (.strSome rfl) (Grammar.parses_gap hopen
      (.catSome (parses_string hm ht post) (Grammar.parses_gap hclose (.strSome rfl))))
  exact .callSome hbody (show _ = ('"' :: (t ++ ['"'])) ++ post by simp)

/-- What is skipped before a quoted text is missing in it. -/
theorem not_skippable_of_quotedString {t post : Text} {cs us : List Pair}
    (h : Parses (askl xid).peg (.call (.nonAtomic, .quotedString)) ('"' :: (t ++ '"' :: post))
      (some (post, .node .string t cs :: us))) : ¬Skippable (t ++ '"' :: post) := by
  obtain ⟨_, _, -, hbody, htrees⟩ := h.of_call
  obtain ⟨r₀, us₀, _, hopen, hrest, rfl⟩ := hbody.of_cat
  obtain ⟨hr₀, rfl⟩ := hopen.of_str
  obtain rfl : t ++ '"' :: post = r₀ := (List.cons.inj hr₀).2
  obtain ⟨r, us₁, _, hskip, -, hcat, rfl⟩ := Grammar.of_gap hrest
  have hskip := hskip rfl
  obtain rfl := trees_skip hskip
  obtain ⟨r₁, _, _, hstring, hclose, rfl⟩ := hcat.of_cat
  obtain ⟨u, vs, rfl, -, rfl⟩ := hstring.of_call
  obtain ⟨r₂, _, _, hskip', -, hquote, rfl⟩ := Grammar.of_gap hclose
  obtain ⟨rfl, -⟩ := hquote.of_str
  -- the text that is read is the one that is written, so that nothing has been skipped
  obtain ⟨htree, -⟩ := List.cons.inj htrees
  obtain ⟨-, rfl, -⟩ := Tree.node.inj htree
  have hle := (hskip' rfl).suffix.length_le
  have hle' := hskip.suffix.length_le
  have hlength : (t ++ r₁).length = (t ++ '"' :: post).length := by
    simp only [List.length_append, List.length_cons, List.length_nil] at hle hle' ⊢
    omega
  rw [hskip.suffix.eq_of_length hlength] at hskip
  exact parses_skip_self_iff.mp hskip

/-! ### The values -/

/-- A prefix does not begin with a quote. -/
theorem prefixedString_none (s : Text) :
    Parses (askl xid).peg (.call (m, .prefixedString)) ('"' :: s) none :=
  .callNone (.catLeft (.callNone (.catLeft (.symNone (by simp)))))

/-- What begins with a quote is a quoted text. -/
theorem parses_value_iff :
    Parses (askl xid).peg (.call (m, .value)) ('"' :: s) (some (s', ts)) ↔
      Parses (askl xid).peg (.call (m, .quotedString)) ('"' :: s) (some (s', ts)) := by
  have hmode : (askl xid).bodyMode m .value = m := by cases m <;> rfl
  have hbody : (askl xid).peg.body (m, .value) =
      .alt (.call (m, .prefixedString)) (.call (m, .quotedString)) := by
    show (askl xid).translate ((askl xid).bodyMode m .value) _ = _
    rw [hmode]
    rfl
  constructor
  · intro h
    obtain ⟨text, us, -, h, rfl⟩ := h.of_call
    rw [hbody] at h
    cases h with
    | altLeft h => exact absurd h (prefixedString_none s).not_some
    | altRight _ h => exact h
  · intro h
    obtain ⟨text, htext⟩ := h.suffix
    have halt : Parses (askl xid).peg ((askl xid).peg.body (m, .value)) ('"' :: s)
        (some (s', ts)) := by
      rw [hbody]
      exact .altRight (prefixedString_none s) h
    exact .callSome halt htext.symm

/-- The node of a plain value. -/
theorem of_build_plain {v : Pair} {t : Text} (h : Value.build v = .ok ⟨.plain, t⟩) :
    ∃ cs, v = .node .string t cs := by
  unfold Value.build at h
  split at h
  · next cs =>
    obtain ⟨-, rfl⟩ := Value.mk.inj (Except.ok.inj h)
    exact ⟨cs, rfl⟩
  · split at h
    · cases h
    · split at h <;> cases h
  · cases h

/-! ### The places -/

/-- A name, as the grammar has it. -/
structure Identifier (xid : Xid) where
  first : Char
  rest : Text
  first_start : first = '_' ∨ xid.isStart first = true
  rest_continue : ∀ c ∈ rest, xid.isContinue c = true

/-- The text of a name. -/
def Identifier.text (name : Identifier xid) : Text := name.first :: name.rest

/-- The places a quoted text is written in. -/
inductive QuotePlace (xid : Xid) where
  /-- `"text"`. -/
  | plainFilter
  /-- `verb("text")`. -/
  | positionalArgument
  /-- `verb(name="text")`. -/
  | namedArgument (name : Identifier xid)
  /-- `g"text"`. -/
  | glob

namespace QuotePlace

/-- The rule that is matched. -/
def rule : QuotePlace xid → Rule
  | plainFilter => .plainFilter
  | positionalArgument => .positionalArgument
  | namedArgument _ => .namedArgument
  | glob => .prefixedString

/-- What is written up to the text. -/
def opening : QuotePlace xid → Text
  | plainFilter | positionalArgument => ['"']
  | namedArgument name => name.text ++ ['=', '"']
  | glob => ['g', '"']

/-- The kind of the value. -/
def kind : QuotePlace xid → StringKind
  | glob => .glob
  | _ => .plain

/-- How the value is read off the node. -/
def value : QuotePlace xid → Pair → Except BuildError Value
  | plainFilter | positionalArgument => innerValue
  | namedArgument _ => fun node => (NamedArgument.build node).map (·.value)
  | glob => Value.build

/-- Nothing that is skipped begins where the mode is that of a query. -/
def NothingSkipped (t post : Text) : QuotePlace xid → Prop
  | plainFilter | positionalArgument => ¬Skippable (t ++ '"' :: post)
  | namedArgument _ | glob => True

instance (t post : Text) (place : QuotePlace xid) : Decidable (place.NothingSkipped t post) := by
  cases place <;> unfold NothingSkipped <;> infer_instance

end QuotePlace

/-- A rule with nothing but a value, in the mode of a query. -/
theorem innerValue_iff {r : Rule} (hr : r = .plainFilter ∨ r = .positionalArgument) {t : Text}
    (ht : '"' ∉ t) (post : Text) :
    (∃ node, Parses (askl xid).peg (.call (.nonAtomic, r)) ('"' :: (t ++ '"' :: post))
        (some (post, [node])) ∧ innerValue node = .ok ⟨.plain, t⟩) ↔
      ¬Skippable (t ++ '"' :: post) := by
  have hgrow : ∀ text us, (askl xid).peg.grow (.nonAtomic, r) text us = [.node r text us] := by
    intro text us
    rcases hr with rfl | rfl <;> rfl
  have hbody : (askl xid).peg.body (.nonAtomic, r) = .call (.nonAtomic, .value) := by
    rcases hr with rfl | rfl <;> rfl
  constructor
  · rintro ⟨node, h, hvalue⟩
    obtain ⟨text, us, -, hfilled, hnode⟩ := h.of_call
    rw [hgrow] at hnode
    obtain rfl := List.singleton_inj.mp hnode
    rw [hbody, parses_value_iff] at hfilled
    cases us with
    | nil => cases hvalue
    | cons v us =>
      obtain ⟨cs, rfl⟩ := of_build_plain hvalue
      exact not_skippable_of_quotedString hfilled
  · intro hskip
    have hquoted : Parses (askl xid).peg (.call (.nonAtomic, .quotedString))
        ('"' :: (t ++ '"' :: post)) (some (post, [.node .string t []])) :=
      parses_quotedString (by decide) ht fun _ => hskip
    refine ⟨.node r ('"' :: (t ++ ['"'])) [.node .string t []], ?_, rfl⟩
    rw [← hgrow]
    refine .callSome ?_ (by simp)
    rw [hbody]
    exact parses_value_iff.mpr hquoted

/-- A name, before the sign of its argument. -/
theorem parses_ident (name : Identifier xid) (rest : Text) :
    Parses (askl xid).peg (.call (.compoundAtomic, .ident)) (name.text ++ '=' :: rest)
      (some ('=' :: rest, [.node .ident name.text []])) := by
  have hfirst : Parses (askl xid).peg (.alt (.str ['_']) (.sym xid.isStart))
      (name.first :: (name.rest ++ '=' :: rest)) (some (name.rest ++ '=' :: rest, [])) := by
    by_cases h : name.first = '_'
    · rw [h]
      exact .altLeft (.strSome rfl)
    · refine .altRight (.strNone fun hp => h (List.cons_prefix_cons.mp hp).1.symm) ?_
      exact .symSome (name.first_start.resolve_left h)
  have hrest : Parses (askl xid).peg (.many (.sym xid.isContinue)) (name.rest ++ '=' :: rest)
      (some ('=' :: rest, [])) :=
    parses_many_sym name.rest_continue (by simpa using xid.isContinue_eq)
  have hbody : Parses (askl xid).peg ((askl xid).peg.body (.compoundAtomic, .ident))
      (name.text ++ '=' :: rest) (some ('=' :: rest, [] ++ [])) :=
    .catSome hfirst (Grammar.parses_star_atomic hrest)
  exact .callSome hbody rfl

/-- A named argument is read as it is written. -/
theorem parses_namedArgument (name : Identifier xid) {t : Text} (ht : '"' ∉ t) (post : Text) :
    Parses (askl xid).peg (.call (m, .namedArgument))
      (name.text ++ ['=', '"'] ++ (t ++ '"' :: post))
      (some (post, [.node .namedArgument (name.text ++ ['=', '"'] ++ (t ++ ['"']))
        [.node .ident name.text [], .node .string t []]])) := by
  have hvalue : Parses (askl xid).peg (.call (.compoundAtomic, .value)) ('"' :: (t ++ '"' :: post))
      (some (post, [.node .string t []])) :=
    parses_value_iff.mpr (parses_quotedString (by decide) ht fun h => by cases h)
  have hbody : Parses (askl xid).peg ((askl xid).peg.body (m, .namedArgument))
      (name.text ++ ['=', '"'] ++ (t ++ '"' :: post))
      (some (post, [.node .ident name.text []] ++ ([] ++ [.node .string t []]))) := by
    rw [List.append_assoc]
    exact .catSome (parses_ident name _) (.catSome (.strSome rfl) hvalue)
  exact .callSome hbody (by simp)

/-- A text after a prefix is read as it is written. -/
theorem parses_glob {t : Text} (ht : '"' ∉ t) (post : Text) :
    Parses (askl xid).peg (.call (m, .prefixedString)) ('g' :: '"' :: (t ++ '"' :: post))
      (some (post, [.node .prefixedString ('g' :: '"' :: (t ++ ['"']))
        [.node .stringPrefix ['g'] [], .node .string t []]])) := by
  have hletter : Parses (askl xid).peg (.call (.compoundAtomic, .stringPrefix))
      ('g' :: '"' :: (t ++ '"' :: post))
      (some ('"' :: (t ++ '"' :: post), [.node .stringPrefix ['g'] []])) := by
    have hletters : Parses (askl xid).peg ((askl xid).peg.body (.compoundAtomic, .stringPrefix))
        ('g' :: '"' :: (t ++ '"' :: post)) (some ('"' :: (t ++ '"' :: post), [] ++ [])) :=
      .catSome (.symSome rfl) (.altRight (.catLeft (.symNone (by simp))) .eps)
    exact .callSome hletters rfl
  have hbody : Parses (askl xid).peg ((askl xid).peg.body (m, .prefixedString))
      ('g' :: '"' :: (t ++ '"' :: post))
      (some (post, [.node .stringPrefix ['g'] []] ++ ([] ++ ([.node .string t []] ++ [])))) :=
    .catSome hletter (.catSome (.strSome rfl)
      (.catSome (parses_string (show Mode.compoundAtomic ≠ .atomic by decide) ht post)
        (.strSome rfl)))
  exact .callSome hbody (by simp)

namespace QuotePlace

/-- **When a quoted text is read as it is written**, wherever a query comes to its place: always
in a named argument and after a prefix, and else when what follows the quote does not begin with
white space or a comment. -/
theorem exact_iff (place : QuotePlace xid) {query t post : Text} {m : Mode} (ht : '"' ∉ t)
    (htries : Tries (askl xid).peg (.call (.nonAtomic, .ask)) query (.call (m, place.rule))
      (place.opening ++ (t ++ '"' :: post))) :
    (∃ node, Parses (askl xid).peg (.call (m, place.rule))
        (place.opening ++ (t ++ '"' :: post)) (some (post, [node])) ∧
      place.value node = .ok ⟨place.kind, t⟩) ↔ place.NothingSkipped t post := by
  have hmatched := matched_of_tries xid htries
  cases place with
  | plainFilter =>
    obtain rfl : m = .nonAtomic := by cases m <;> first | rfl | cases hmatched
    exact innerValue_iff (.inl rfl) ht post
  | positionalArgument =>
    obtain rfl : m = .nonAtomic := by cases m <;> first | rfl | cases hmatched
    exact innerValue_iff (.inr rfl) ht post
  | namedArgument name =>
    exact iff_of_true ⟨_, parses_namedArgument name ht post, rfl⟩ trivial
  | glob => exact iff_of_true ⟨_, parses_glob ht post, rfl⟩ trivial

end QuotePlace

/-! ### A text that begins with a blank -/

/-- A query that begins with a quote begins with a filter. -/
theorem tries_plainFilter (rest : Text) :
    Tries (askl xid).peg (.call (.nonAtomic, .ask)) ('"' :: rest)
      (.call (.nonAtomic, .plainFilter)) ('"' :: rest) := by
  have hskip : Parses (askl xid).peg (askl xid).skip ('"' :: rest) (some ('"' :: rest, [])) :=
    parses_skip_self_iff.mpr (not_skippable_quote rest)
  have hnone : ∀ {c : Char} {w : Text}, c ≠ '"' →
      Parses (askl xid).peg (.str (c :: w)) ('"' :: rest) none := by
    intro c w hc
    exact .strNone fun hp => hc (List.cons_prefix_cons.mp hp).1
  have hterminators : Parses (askl xid).peg (Grammar.translate (askl xid) .nonAtomic
      (.star (.rule .statementTerminator))) ('"' :: rest) (some ('"' :: rest, [])) :=
    .altRight (.catLeft (.callNone (.altRight (hnone (by decide)) (.altRight (hnone (by decide))
      (.altRight (hnone (by decide)) (hnone (by decide))))))) .eps
  have hverb : Tries (askl xid).peg (.call (.nonAtomic, .verb)) ('"' :: rest)
      (.call (.nonAtomic, .plainFilter)) ('"' :: rest) :=
    .call (.altRight (.callNone (.catLeft (hnone (by decide))))
      (.altRight (.callNone (.catLeft (hnone (by decide))))
        (.altRight (.callNone (.catLeft (hnone (by decide))))
          (.altLeft (.call (.altLeft .refl))))))
  have hstatement : Tries (askl xid).peg (.call (.nonAtomic, .statement)) ('"' :: rest)
      (.call (.nonAtomic, .plainFilter)) ('"' :: rest) :=
    .call (.altLeft (.catLeft (.altLeft (.catLeft hverb))))
  have hstatements : Tries (askl xid).peg (.call (.nonAtomic, .statements)) ('"' :: rest)
      (.call (.nonAtomic, .plainFilter)) ('"' :: rest) :=
    .call (.catLeft (.altLeft (.catLeft (.catRight hterminators (.catRight hskip hstatement)))))
  exact .call (.catRight (.strSome rfl) (.catRight hskip (.catLeft hstatements)))

/-- The classes of the characters of an identifier, among those of ASCII. -/
def asciiXid : Xid := ⟨Char.isAlpha, fun c => c.isAlphanum || c == '_', by decide⟩

/-- The filter `"a b"`. -/
theorem QuotePlace.exact_iff_inner :
    ∃ node, Parses (askl asciiXid).peg (.call (.nonAtomic, .plainFilter)) "\"a b\"".toList
        (some ([], [node])) ∧ innerValue node = .ok ⟨.plain, "a b".toList⟩ :=
  (@QuotePlace.exact_iff asciiXid .plainFilter _ "a b".toList [] .nonAtomic (by decide)
    (tries_plainFilter _)).mpr (by decide)

/-- **The text of the filter `" a"` is read as `a`.** -/
theorem not_exact_blank :
    Tries (askl asciiXid).peg (.call (.nonAtomic, .ask)) "\" a\"".toList
        (.call (.nonAtomic, .plainFilter)) "\" a\"".toList ∧
      (∃ verb filter, Parses (askl asciiXid).peg (.call (.nonAtomic, .ask)) "\" a\"".toList
          (some ([], [.node .statement "\" a\"".toList [.node .verb verb [filter]],
            .node .eoi [] []])) ∧
        innerValue filter = .ok ⟨.plain, "a".toList⟩) ∧
      ¬∃ node, Parses (askl asciiXid).peg (.call (.nonAtomic, .plainFilter)) "\" a\"".toList
          (some ([], [node])) ∧ innerValue node = .ok ⟨.plain, " a".toList⟩ := by
  refine ⟨tries_plainFilter _, ⟨_, _, parses_of_run (k := 40) rfl, rfl⟩, ?_⟩
  rintro ⟨node, h, hvalue⟩
  have hrun : Parses (askl asciiXid).peg (.call (.nonAtomic, .plainFilter)) "\" a\"".toList
      (some ([], [.node .plainFilter "\" a\"".toList [.node .string "a".toList []]])) :=
    parses_of_run (k := 40) rfl
  cases h.eq hrun
  cases hvalue

end Askl
