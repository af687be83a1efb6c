import Askl.Library.Peg

/-!
# Grammars of the parser generator

A rule is matched in a mode.  Between the expressions of a sequence, and between those of a
repetition, white space and comments are skipped when the mode is not atomic; a rule passes its
mode on, unless its modifier sets another.

## Main definitions

* `Mode`, `Modifier`, `Expr`, `Grammar` — the grammars.
* `Grammar.skip` — what is skipped.
* `Grammar.peg` — the parsing expressions of the rules, in each of the modes.

## Main results

* `parses_skip_self`, `fails_of_skip_self` — nothing is skipped where neither white space nor a
  comment begins.
-/

namespace Pest

/-- How a rule is matched. -/
inductive Mode where
  | nonAtomic
  | compoundAtomic
  | atomic
  deriving DecidableEq, Repr

/-- The modifiers: none, `_`, `@` and `$`. -/
inductive Modifier where
  | normal
  | silent
  | atomic
  | compoundAtomic
  deriving DecidableEq, Repr

/-- The expressions of rules. -/
inductive Expr (R : Type) where
  | sym (p : Char → Bool)
  | str (w : List Char)
  | rule (r : R)
  | seq (a b : Expr R)
  | choice (a b : Expr R)
  | opt (a : Expr R)
  | star (a : Expr R)
  | no (a : Expr R)

/-- `+`: an expression, and any number of others. -/
def Expr.plus {R : Type} (a : Expr R) : Expr R := .seq a (.star a)

/-- The rules, among them the two that are skipped. -/
structure Grammar (R : Type) where
  modifier : R → Modifier
  body : R → Expr R
  whitespace : R
  comment : R

namespace Grammar

variable {R : Type} (G : Grammar R)

/-- White space, and comments with white space after them. -/
def skip : Peg.Expr (Mode × R) Char :=
  .cat (.many (.call (.nonAtomic, G.whitespace)))
    (.many (.cat (.call (.nonAtomic, G.comment)) (.many (.call (.nonAtomic, G.whitespace)))))

/-- What stands before the next expression of a sequence. -/
def gap (m : Mode) (e : Peg.Expr (Mode × R) Char) : Peg.Expr (Mode × R) Char :=
  if m = .nonAtomic then .cat G.skip e else e

/-- An expression in a mode. -/
def translate (m : Mode) : Expr R → Peg.Expr (Mode × R) Char
  | .sym p => .sym p
  | .str w => .str w
  | .rule r => .call (m, r)
  | .seq a b => .cat (translate m a) (G.gap m (translate m b))
  | .choice a b => .alt (translate m a) (translate m b)
  | .opt a => .alt (translate m a) .eps
  | .star a => .alt (.cat (translate m a) (.many (G.gap m (translate m a)))) .eps
  | .no a => .no (translate m a)

variable [DecidableEq R]

/-- The mode of the body of a rule that is matched in a mode. -/
def bodyMode (m : Mode) (r : R) : Mode :=
  if r = G.whitespace ∨ r = G.comment then .atomic
  else match G.modifier r with
    | .normal | .silent => m
    | .atomic => .atomic
    | .compoundAtomic => .compoundAtomic

/-- The parsing expressions.  A silent rule shows no node, nor does one inside an atomic one. -/
def peg : Peg.Grammar (Mode × R) R Char where
  body n := G.translate (G.bodyMode n.1 n.2) (G.body n.2)
  label n := match G.modifier n.2 with
    | .silent => none
    | .compoundAtomic => some n.2
    | .normal | .atomic => if n.1 = .atomic then none else some n.2

variable {G} {m : Mode} {e : Peg.Expr (Mode × R) Char} {s s' : List Char}
  {ts : List (Peg.Tree R Char)}

/-! ### What is skipped -/

/-- Nothing is skipped where neither white space nor a comment begins. -/
theorem parses_skip_self (hw : Peg.Parses G.peg (.call (.nonAtomic, G.whitespace)) s none)
    (hc : Peg.Parses G.peg (.call (.nonAtomic, G.comment)) s none) :
    Peg.Parses G.peg G.skip s (some (s, [])) :=
  .catSome (.manyNil hw) (.manyNil (.catLeft hc))

/-- Where nothing is skipped, neither begins. -/
theorem fails_of_skip_self
    (hconsumes : ∀ r, r = G.whitespace ∨ r = G.comment → ∀ {u us},
      Peg.Parses G.peg (.call (.nonAtomic, r)) s (some (u, us)) → u.length < s.length)
    (h : Peg.Parses G.peg G.skip s (some (s, ts))) :
    Peg.Parses G.peg (.call (.nonAtomic, G.whitespace)) s none ∧
      Peg.Parses G.peg (.call (.nonAtomic, G.comment)) s none := by
  obtain ⟨u, us, vs, hws, hcs, -⟩ := h.of_cat
  have hu : u = s :=
    hws.suffix.eq_of_length (Nat.le_antisymm hws.suffix.length_le hcs.suffix.length_le)
  subst hu
  refine ⟨hws.of_many_self (hconsumes _ (.inl rfl)), ?_⟩
  have hcat := hcs.of_many_self fun {r us'} hr => by
    obtain ⟨v, us, vs, hv, hrest, -⟩ := hr.of_cat
    exact Nat.lt_of_le_of_lt hrest.suffix.length_le (hconsumes _ (.inr rfl) hv)
  cases hcat with
  | catLeft hc => exact hc
  | catRight _ hmany => exact absurd hmany (by rintro ⟨⟩)

/-- Where nothing is skipped, an expression begins at once. -/
theorem parses_gap {o : Option (List Char × List (Peg.Tree R Char))}
    (hskip : m = .nonAtomic → Peg.Parses G.peg G.skip s (some (s, [])))
    (h : Peg.Parses G.peg e s o) : Peg.Parses G.peg (G.gap m e) s o := by
  rw [gap]
  split
  · next hm =>
    cases o with
    | none => exact .catRight (hskip hm) h
    | some r => exact .catSome (hskip hm) h
  · exact h

/-- An expression begins after what is skipped. -/
theorem of_gap (h : Peg.Parses G.peg (G.gap m e) s (some (s', ts))) :
    ∃ r us vs, (m = .nonAtomic → Peg.Parses G.peg G.skip s (some (r, us))) ∧
      (m ≠ .nonAtomic → r = s ∧ us = []) ∧ Peg.Parses G.peg e r (some (s', vs)) ∧
      ts = us ++ vs := by
  rw [gap] at h
  split at h
  · next hm =>
    obtain ⟨r, us, vs, hskip, he, rfl⟩ := h.of_cat
    exact ⟨r, us, vs, fun _ => hskip, fun hne => absurd hm hne, he, rfl⟩
  · next hm => exact ⟨s, [], ts, fun hm' => absurd hm' hm, fun _ => ⟨rfl, rfl⟩, h, rfl⟩

/-- In an atomic rule, `*` is a repetition. -/
theorem parses_star_atomic {a : Expr R} (h : Peg.Parses G.peg (.many (G.translate .atomic a)) s
    (some (s', ts))) : Peg.Parses G.peg (G.translate .atomic (.star a)) s (some (s', ts)) := by
  cases h with
  | manyNil ha => exact .altRight (.catLeft ha) .eps
  | manyCons ha hmany => exact .altLeft (.catSome ha hmany)

/-- `*` does not fail. -/
theorem not_parses_star_none {a : Expr R} :
    ¬Peg.Parses G.peg (G.translate m (.star a)) s none := by
  intro h
  cases h with
  | altRight _ heps => cases heps

end Grammar

end Pest
