import Mathlib.Data.List.Infix

/-!
# Parsing expressions

A parsing expression is tried at an input: it fails, or it leaves what it does not consume, with
the trees of the nonterminals it has met.  A choice takes its first alternative that does not
fail, and a repetition goes on until its expression fails.

## Main definitions

* `Expr`, `Grammar` — expressions, and nonterminals with their expressions.
* `Tree` — a nonterminal with the text it has matched.
* `Parses` — what an expression makes of an input.
* `Tries` — what a parser tries on the way.
* `run` — a parser, which may need more fuel.

## Main results

* `Parses.suffix` — what is left is the end of the input.
* `Parses.eq` — **an expression makes one thing of an input.**
* `Tries.closed` — a property that bodies hand on holds of every nonterminal that is tried.
* `parses_of_run` — **what the parser answers is so.**
-/

namespace Peg

variable {N R α : Type}

/-- The expressions over nonterminals. -/
inductive Expr (N α : Type) where
  | eps
  | sym (p : α → Bool)
  | str (w : List α)
  | call (n : N)
  | cat (a b : Expr N α)
  | alt (a b : Expr N α)
  | many (a : Expr N α)
  | no (a : Expr N α)

/-- A nonterminal and the text it has matched. -/
inductive Tree (R α : Type) where
  | node (rule : R) (text : List α) (children : List (Tree R α))

/-- Nonterminals with their expressions, and what their nodes show; some show none. -/
structure Grammar (N R α : Type) where
  body : N → Expr N α
  label : N → Option R

/-- The trees of a nonterminal. -/
def Grammar.grow (g : Grammar N R α) (n : N) (text : List α) (trees : List (Tree R α)) :
    List (Tree R α) :=
  match g.label n with
  | none => trees
  | some r => [.node r text trees]

/-- What an expression makes of an input: it fails, or leaves a rest. -/
inductive Parses (g : Grammar N R α) :
    Expr N α → List α → Option (List α × List (Tree R α)) → Prop where
  | eps {s} : Parses g .eps s (some (s, []))
  | symSome {p a s} (h : p a = true) : Parses g (.sym p) (a :: s) (some (s, []))
  | symNone {p s} (h : ∀ a ∈ s.head?, p a = false) : Parses g (.sym p) s none
  | strSome {w s s'} (h : s = w ++ s') : Parses g (.str w) s (some (s', []))
  | strNone {w s} (h : ¬w <+: s) : Parses g (.str w) s none
  | callSome {n s text s' ts} (h : Parses g (g.body n) s (some (s', ts))) (hs : s = text ++ s') :
    Parses g (.call n) s (some (s', g.grow n text ts))
  | callNone {n s} (h : Parses g (g.body n) s none) : Parses g (.call n) s none
  | catSome {a b s s' s'' ts us} (ha : Parses g a s (some (s', ts)))
    (hb : Parses g b s' (some (s'', us))) : Parses g (.cat a b) s (some (s'', ts ++ us))
  | catLeft {a b s} (ha : Parses g a s none) : Parses g (.cat a b) s none
  | catRight {a b s s' ts} (ha : Parses g a s (some (s', ts))) (hb : Parses g b s' none) :
    Parses g (.cat a b) s none
  | altLeft {a b s r} (ha : Parses g a s (some r)) : Parses g (.alt a b) s (some r)
  | altRight {a b s o} (ha : Parses g a s none) (hb : Parses g b s o) : Parses g (.alt a b) s o
  | manyNil {a s} (ha : Parses g a s none) : Parses g (.many a) s (some (s, []))
  | manyCons {a s s' s'' ts us} (ha : Parses g a s (some (s', ts)))
    (hmany : Parses g (.many a) s' (some (s'', us))) :
    Parses g (.many a) s (some (s'', ts ++ us))
  | noSome {a s} (ha : Parses g a s none) : Parses g (.no a) s (some (s, []))
  | noNone {a s r} (ha : Parses g a s (some r)) : Parses g (.no a) s none

/-- Trying an expression at an input leads to trying another at another. -/
inductive Tries (g : Grammar N R α) : Expr N α → List α → Expr N α → List α → Prop where
  | refl {e s} : Tries g e s e s
  | call {n s e' s'} (h : Tries g (g.body n) s e' s') : Tries g (.call n) s e' s'
  | catLeft {a b s e' s'} (h : Tries g a s e' s') : Tries g (.cat a b) s e' s'
  | catRight {a b s r ts e' s'} (ha : Parses g a s (some (r, ts))) (h : Tries g b r e' s') :
    Tries g (.cat a b) s e' s'
  | altLeft {a b s e' s'} (h : Tries g a s e' s') : Tries g (.alt a b) s e' s'
  | altRight {a b s e' s'} (ha : Parses g a s none) (h : Tries g b s e' s') :
    Tries g (.alt a b) s e' s'
  | manyFirst {a s e' s'} (h : Tries g a s e' s') : Tries g (.many a) s e' s'
  | manyNext {a s r ts e' s'} (ha : Parses g a s (some (r, ts)))
    (h : Tries g (.many a) r e' s') : Tries g (.many a) s e' s'
  | no {a s e' s'} (h : Tries g a s e' s') : Tries g (.no a) s e' s'

/-- The nonterminals of an expression. -/
def Expr.calls : Expr N α → List N
  | call n => [n]
  | cat a b | alt a b => a.calls ++ b.calls
  | many a | no a => a.calls
  | _ => []

variable {g : Grammar N R α} {a b e : Expr N α} {s s' : List α} {ts : List (Tree R α)}

/-! ### What is left -/

/-- What is left is the end of the input. -/
theorem Parses.suffix (h : Parses g e s (some (s', ts))) : s' <:+ s := by
  generalize ho : some (s', ts) = o at h
  induction h generalizing s' ts with
  | eps =>
    obtain ⟨rfl, -⟩ := Prod.mk.inj (Option.some.inj ho)
    exact List.suffix_refl _
  | symSome _ =>
    obtain ⟨rfl, -⟩ := Prod.mk.inj (Option.some.inj ho)
    exact List.suffix_cons _ _
  | strSome h =>
    obtain ⟨rfl, -⟩ := Prod.mk.inj (Option.some.inj ho)
    exact ⟨_, h.symm⟩
  | callSome _ hs =>
    obtain ⟨rfl, -⟩ := Prod.mk.inj (Option.some.inj ho)
    exact ⟨_, hs.symm⟩
  | catSome _ _ iha ihb =>
    obtain ⟨rfl, -⟩ := Prod.mk.inj (Option.some.inj ho)
    exact (ihb rfl).trans (iha rfl)
  | altLeft _ ih => exact ih ho
  | altRight _ _ _ ih => exact ih ho
  | manyNil _ =>
    obtain ⟨rfl, -⟩ := Prod.mk.inj (Option.some.inj ho)
    exact List.suffix_refl _
  | manyCons _ _ iha ihmany =>
    obtain ⟨rfl, -⟩ := Prod.mk.inj (Option.some.inj ho)
    exact (ihmany rfl).trans (iha rfl)
  | noSome _ =>
    obtain ⟨rfl, -⟩ := Prod.mk.inj (Option.some.inj ho)
    exact List.suffix_refl _
  | symNone | strNone | callNone | catLeft | catRight | noNone => cases ho

/-- **An expression makes one thing of an input.** -/
theorem Parses.eq {o o' : Option (List α × List (Tree R α))} (h : Parses g e s o)
    (h' : Parses g e s o') : o = o' := by
  induction h generalizing o' with
  | eps =>
    cases h'
    rfl
  | symSome hp =>
    cases h' with
    | symSome _ => rfl
    | symNone hnone => exact absurd (hnone _ rfl) (by simp [hp])
  | symNone hnone =>
    cases h' with
    | symSome hp => exact absurd (hnone _ rfl) (by simp [hp])
    | symNone _ => rfl
  | strSome h =>
    cases h' with
    | strSome h' => rw [List.append_cancel_left (h.symm.trans h')]
    | strNone hnone => exact absurd ⟨_, h.symm⟩ hnone
  | strNone hnone =>
    cases h' with
    | strSome h => exact absurd ⟨_, h.symm⟩ hnone
    | strNone _ => rfl
  | callSome _ hs ih =>
    cases h' with
    | callSome h' hs' =>
      obtain ⟨rfl, rfl⟩ := Prod.mk.inj (Option.some.inj (ih h'))
      rw [List.append_cancel_right (hs.symm.trans hs')]
    | callNone h' => cases ih h'
  | callNone _ ih =>
    cases h' with
    | callSome h' _ => cases ih h'
    | callNone _ => rfl
  | catSome _ _ iha ihb =>
    cases h' with
    | catSome ha hb =>
      obtain ⟨rfl, rfl⟩ := Prod.mk.inj (Option.some.inj (iha ha))
      obtain ⟨rfl, rfl⟩ := Prod.mk.inj (Option.some.inj (ihb hb))
      rfl
    | catLeft ha => cases iha ha
    | catRight ha hb =>
      obtain ⟨rfl, rfl⟩ := Prod.mk.inj (Option.some.inj (iha ha))
      cases ihb hb
  | catLeft _ iha =>
    cases h' with
    | catSome ha _ => cases iha ha
    | catLeft _ => rfl
    | catRight ha _ => cases iha ha
  | catRight _ _ iha ihb =>
    cases h' with
    | catSome ha hb =>
      obtain ⟨rfl, rfl⟩ := Prod.mk.inj (Option.some.inj (iha ha))
      cases ihb hb
    | catLeft ha => cases iha ha
    | catRight _ _ => rfl
  | altLeft _ iha =>
    cases h' with
    | altLeft ha => exact iha ha
    | altRight ha _ => cases iha ha
  | altRight _ _ iha ihb =>
    cases h' with
    | altLeft ha => cases iha ha
    | altRight _ hb => exact ihb hb
  | manyNil _ iha =>
    cases h' with
    | manyNil _ => rfl
    | manyCons ha _ => cases iha ha
  | manyCons _ _ iha ihmany =>
    cases h' with
    | manyNil ha => cases iha ha
    | manyCons ha hmany =>
      obtain ⟨rfl, rfl⟩ := Prod.mk.inj (Option.some.inj (iha ha))
      obtain ⟨rfl, rfl⟩ := Prod.mk.inj (Option.some.inj (ihmany hmany))
      rfl
  | noSome _ iha =>
    cases h' with
    | noSome _ => rfl
    | noNone ha => cases iha ha
  | noNone _ iha =>
    cases h' with
    | noSome ha => cases iha ha
    | noNone _ => rfl

/-- What fails does not succeed. -/
theorem Parses.not_some (h : Parses g e s none) {r : List α × List (Tree R α)} :
    ¬Parses g e s (some r) :=
  fun h' => by cases h.eq h'

/-- What is parsed of a nonterminal with a node. -/
theorem Parses.of_call {n : N} (h : Parses g (.call n) s (some (s', ts))) :
    ∃ text us, s = text ++ s' ∧ Parses g (g.body n) s (some (s', us)) ∧ ts = g.grow n text us := by
  cases h with
  | callSome h hs => exact ⟨_, _, hs, h, rfl⟩

theorem Parses.of_cat (h : Parses g (.cat a b) s (some (s', ts))) :
    ∃ r us vs, Parses g a s (some (r, us)) ∧ Parses g b r (some (s', vs)) ∧ ts = us ++ vs := by
  cases h with
  | catSome ha hb => exact ⟨_, _, _, ha, hb, rfl⟩

theorem Parses.of_str {w : List α} (h : Parses g (.str w) s (some (s', ts))) :
    s = w ++ s' ∧ ts = [] := by
  cases h with
  | strSome h => exact ⟨h, rfl⟩

/-- A repetition that consumes nothing does not begin. -/
theorem Parses.of_many_self {a : Expr N α} (h : Parses g (.many a) s (some (s, ts)))
    (hne : ∀ {r : List α} {us}, Parses g a s (some (r, us)) → r.length < s.length) :
    Parses g a s none := by
  cases h with
  | manyNil ha => exact ha
  | manyCons ha hmany =>
    have hle := hmany.suffix.length_le
    exact absurd (hne ha) (by omega)

/-- Where no nonterminal shows a node, there are no trees. -/
theorem Parses.trees_nil {P : N → Prop}
    (hsilent : ∀ n, P n → g.label n = none ∧ ∀ k ∈ (g.body n).calls, P k)
    (h : Parses g e s (some (s', ts))) (he : ∀ k ∈ e.calls, P k) : ts = [] := by
  generalize ho : some (s', ts) = o at h
  induction h generalizing s' ts with
  | eps | symSome | strSome | manyNil | noSome => exact (Prod.mk.inj (Option.some.inj ho)).2
  | @callSome n s text s' us _ _ ih =>
    obtain ⟨-, rfl⟩ := Prod.mk.inj (Option.some.inj ho)
    obtain ⟨hlabel, hbody⟩ := hsilent _ (he _ (List.mem_singleton_self _))
    rw [Grammar.grow, hlabel]
    exact ih hbody rfl
  | catSome _ _ iha ihb =>
    obtain ⟨-, rfl⟩ := Prod.mk.inj (Option.some.inj ho)
    rw [iha (fun k hk => he k (List.mem_append_left _ hk)) rfl,
      ihb (fun k hk => he k (List.mem_append_right _ hk)) rfl]
    rfl
  | altLeft _ ih => exact ih (fun k hk => he k (List.mem_append_left _ hk)) ho
  | altRight _ _ _ ih => exact ih (fun k hk => he k (List.mem_append_right _ hk)) ho
  | manyCons _ _ iha ihmany =>
    obtain ⟨-, rfl⟩ := Prod.mk.inj (Option.some.inj ho)
    rw [iha he rfl, ihmany he rfl]
    rfl
  | symNone | strNone | callNone | catLeft | catRight | noNone => cases ho

/-- Symbols of a class, and then none. -/
theorem parses_many_sym {p : α → Bool} {w rest : List α} (hw : ∀ a ∈ w, p a = true)
    (hrest : ∀ a ∈ rest.head?, p a = false) :
    Parses g (.many (.sym p)) (w ++ rest) (some (rest, [])) := by
  induction w with
  | nil => exact .manyNil (.symNone hrest)
  | cons a w ih =>
    exact .manyCons (.symSome (hw a List.mem_cons_self)) (ih fun b hb => hw b (.tail a hb))

/-! ### Up to where an expression succeeds -/

/-- The input from where it has a property, if it has. -/
def dropUntil (stop : List α → Bool) : List α → List α
  | [] => []
  | a :: s => if stop (a :: s) then a :: s else dropUntil stop s

theorem dropUntil_suffix (stop : List α → Bool) (s : List α) : dropUntil stop s <:+ s := by
  induction s with
  | nil => exact List.suffix_refl _
  | cons a s ih =>
    rw [dropUntil]
    split
    · exact List.suffix_refl _
    · exact ih.trans (List.suffix_cons a s)

theorem dropUntil_append {stop : List α → Bool} {s rest : List α}
    (hs : ∀ a u, a :: u <:+ s → stop (a :: u ++ rest) = false) (hrest : stop rest = true) :
    dropUntil stop (s ++ rest) = rest := by
  induction s with
  | nil =>
    cases rest with
    | nil => rfl
    | cons a rest => rw [List.nil_append, dropUntil, if_pos hrest]
  | cons a s ih =>
    rw [List.cons_append, dropUntil, if_neg (by simpa using hs a s (List.suffix_refl _))]
    exact ih fun b u hu => hs b u (hu.trans (List.suffix_cons a s))

/-- A word is found where it is. -/
theorem prefix_dropUntil_iff [DecidableEq α] {w s : List α} (hw : w ≠ []) :
    w <+: dropUntil (fun u => decide (w <+: u)) s ↔ w <:+: s := by
  constructor
  · exact fun h => h.isInfix.trans (dropUntil_suffix _ s).isInfix
  · intro h
    induction s with
    | nil => exact absurd (List.infix_nil.mp h) hw
    | cons a s ih =>
      rw [dropUntil]
      split
      · next hp => exact of_decide_eq_true hp
      · next hp =>
        rcases List.infix_cons_iff.mp h with h | h
        · exact absurd (decide_eq_true h) hp
        · exact ih h

/-- All that comes before what an expression succeeds at. -/
theorem parses_until {stop : List α → Bool}
    (hyes : ∀ s, stop s = true → ∃ r, Parses g a s (some r))
    (hno : ∀ s, stop s = false → Parses g a s none) (s : List α) :
    Parses g (.many (.cat (.no a) (.sym fun _ => true))) s (some (dropUntil stop s, [])) := by
  induction s with
  | nil =>
    cases hstop : stop [] with
    | true =>
      obtain ⟨r, hr⟩ := hyes [] hstop
      exact .manyNil (.catLeft (.noNone hr))
    | false => exact .manyNil (.catRight (.noSome (hno [] hstop)) (.symNone (by simp)))
  | cons c s ih =>
    rw [dropUntil]
    cases hstop : stop (c :: s) with
    | true =>
      obtain ⟨r, hr⟩ := hyes _ hstop
      exact .manyNil (.catLeft (.noNone hr))
    | false => exact .manyCons (.catSome (.noSome (hno _ hstop)) (.symSome rfl)) ih

/-! ### What is tried -/

/-- A property that bodies hand on holds of every nonterminal that is tried. -/
theorem Tries.closed {P : N → Prop} (hbody : ∀ n, P n → ∀ k ∈ (g.body n).calls, P k)
    {e e' : Expr N α} {s s' : List α} (h : Tries g e s e' s') (he : ∀ k ∈ e.calls, P k) :
    ∀ k ∈ e'.calls, P k := by
  induction h with
  | refl => exact he
  | call _ ih => exact ih (hbody _ (he _ (List.mem_singleton_self _)))
  | catLeft _ ih | altLeft _ ih => exact ih fun k hk => he k (List.mem_append_left _ hk)
  | catRight _ _ ih | altRight _ _ ih => exact ih fun k hk => he k (List.mem_append_right _ hk)
  | manyFirst _ ih | manyNext _ _ ih | no _ ih => exact ih he

/-! ### A parser -/

section Run

variable [DecidableEq α]

/-- A parser, which may need more fuel. -/
def run (g : Grammar N R α) :
    ℕ → Expr N α → List α → Option (Option (List α × List (Tree R α)))
  | 0, _, _ => none
  | _ + 1, .eps, s => some (some (s, []))
  | _ + 1, .sym _, [] => some none
  | _ + 1, .sym p, a :: s => some (if p a then some (s, []) else none)
  | _ + 1, .str w, s => some (if w <+: s then some (s.drop w.length, []) else none)
  | k + 1, .call n, s =>
    (run g k (g.body n) s).map fun o => o.map fun (s', ts) =>
      (s', g.grow n (s.take (s.length - s'.length)) ts)
  | k + 1, .cat a b, s =>
    (run g k a s).bind fun
      | none => some none
      | some (s', ts) => (run g k b s').map fun o => o.map fun (s'', us) => (s'', ts ++ us)
  | k + 1, .alt a b, s =>
    (run g k a s).bind fun
      | none => run g k b s
      | some r => some (some r)
  | k + 1, .many a, s =>
    (run g k a s).bind fun
      | none => some (some (s, []))
      | some (s', ts) =>
        (run g k (.many a) s').map fun o => o.map fun (s'', us) => (s'', ts ++ us)
  | k + 1, .no a, s =>
    (run g k a s).map fun
      | none => some (s, [])
      | some _ => none

/-- **What the parser answers is so.** -/
theorem parses_of_run {k : ℕ} {o : Option (List α × List (Tree R α))}
    (h : run g k e s = some o) : Parses g e s o := by
  induction k generalizing e s o with
  | zero => cases h
  | succ k ih =>
    cases e with
    | eps =>
      obtain rfl := Option.some.inj h
      exact .eps
    | sym p =>
      cases s with
      | nil =>
        obtain rfl := Option.some.inj h
        exact .symNone (by simp)
      | cons a s =>
        obtain rfl := Option.some.inj h
        split
        · next hp => exact .symSome hp
        · next hp => exact .symNone (by simpa using hp)
    | str w =>
      obtain rfl := Option.some.inj h
      split
      · next hw =>
        obtain ⟨rest, rfl⟩ := hw
        exact .strSome (by rw [List.drop_left])
      · next hw => exact .strNone hw
    | call n =>
      obtain ⟨o', ho', rfl⟩ := Option.map_eq_some_iff.mp h
      have hbody := ih ho'
      cases o' with
      | none => exact .callNone hbody
      | some r =>
        obtain ⟨s', ts⟩ := r
        obtain ⟨text, rfl⟩ := hbody.suffix
        have htext : (text ++ s').take ((text ++ s').length - s'.length) = text := by simp
        show Parses g _ _ (some (s', g.grow n ((text ++ s').take _) ts))
        rw [htext]
        exact .callSome hbody rfl
    | cat a b =>
      obtain ⟨o', ho', h⟩ := Option.bind_eq_some_iff.mp h
      have ha := ih ho'
      cases o' with
      | none =>
        obtain rfl := Option.some.inj h
        exact .catLeft ha
      | some r =>
        obtain ⟨s', ts⟩ := r
        obtain ⟨o'', ho'', rfl⟩ := Option.map_eq_some_iff.mp h
        have hb := ih ho''
        cases o'' with
        | none => exact .catRight ha hb
        | some r => exact .catSome ha hb
    | alt a b =>
      obtain ⟨o', ho', h⟩ := Option.bind_eq_some_iff.mp h
      have ha := ih ho'
      cases o' with
      | none => exact .altRight ha (ih h)
      | some r =>
        obtain rfl := Option.some.inj h
        exact .altLeft ha
    | many a =>
      obtain ⟨o', ho', h⟩ := Option.bind_eq_some_iff.mp h
      have ha := ih ho'
      cases o' with
      | none =>
        obtain rfl := Option.some.inj h
        exact .manyNil ha
      | some r =>
        obtain ⟨s', ts⟩ := r
        obtain ⟨o'', ho'', rfl⟩ := Option.map_eq_some_iff.mp h
        have hmany := ih ho''
        cases o'' with
        | none => cases hmany
        | some r => exact .manyCons ha hmany
    | no a =>
      obtain ⟨o', ho', rfl⟩ := Option.map_eq_some_iff.mp h
      have ha := ih ho'
      cases o' with
      | none => exact .noSome ha
      | some r => exact .noNone ha

end Run

end Peg
