import Mathlib.Data.List.Basic
import Mathlib.Tactic.Common

/-!
# Patterns with wildcards

A pattern is a list of elements and wildcards, a wildcard standing for any run of elements.
Elements are compared by a relation, so that a pattern and what it matches need not be of one
type, nor equal to match.

## Main definitions

* `Item` — an element or a wildcard.
* `Accepts` — what a pattern accepts, for a relation between elements.
* `squeeze` — a pattern without the wildcards that follow another.
* `reduce` — a pattern whose elements are mapped, some of them to nothing.

## Main results

* `accepts_squeeze` — a wildcard after another makes no difference.
* `Accepts.reduce` — **mapping both sides alike keeps a match.**
-/

namespace Wildcards

variable {α β γ δ : Type*}

/-- An element of a pattern, or a wildcard. -/
inductive Item (α : Type*) where
  | any
  | lit (a : α)

/-- What a pattern matches. -/
inductive Accepts (r : α → β → Prop) : List (Item α) → List β → Prop
  | nil : Accepts r [] []
  | any {items : List (Item α)} {l : List β} (run : List β) :
      Accepts r items l → Accepts r (.any :: items) (run ++ l)
  | lit {a : α} {b : β} {items : List (Item α)} {l : List β} :
      r a b → Accepts r items l → Accepts r (.lit a :: items) (b :: l)

variable {r : α → β → Prop} {items items' : List (Item α)} {l : List β}

/-! ### Inversion -/

@[simp] theorem accepts_nil_iff : Accepts r [] l ↔ l = [] := by
  constructor
  · intro h
    cases h
    rfl
  · rintro rfl
    exact .nil

theorem accepts_any_iff :
    Accepts r (.any :: items) l ↔ ∃ rest, rest <:+ l ∧ Accepts r items rest := by
  constructor
  · intro h
    cases h with
    | any run h => exact ⟨_, ⟨run, rfl⟩, h⟩
  · rintro ⟨rest, ⟨run, rfl⟩, h⟩
    exact .any run h

theorem accepts_lit_iff {a : α} :
    Accepts r (.lit a :: items) l ↔ ∃ b rest, l = b :: rest ∧ r a b ∧ Accepts r items rest := by
  constructor
  · intro h
    cases h with
    | lit hab h => exact ⟨_, _, rfl, hab, h⟩
  · rintro ⟨b, rest, rfl, hab, h⟩
    exact .lit hab h

/-- A weaker relation matches more. -/
theorem Accepts.mono {r' : α → β → Prop} (h : Accepts r items l)
    (hr : ∀ a b, .lit a ∈ items → b ∈ l → r a b → r' a b) : Accepts r' items l := by
  induction h with
  | nil => exact .nil
  | any run _ ih =>
    exact .any run (ih fun a b ha hb => hr a b (.tail _ ha) (List.mem_append_right _ hb))
  | lit hab _ ih =>
    exact .lit (hr _ _ List.mem_cons_self List.mem_cons_self hab)
      (ih fun a b ha hb => hr a b (.tail _ ha) (.tail _ hb))

/-! ### Wildcards that follow another -/

/-- A pattern without the wildcards that follow another, nor the first if one came before. -/
def squeeze : Bool → List (Item α) → List (Item α)
  | _, [] => []
  | true, .any :: items => squeeze true items
  | false, .any :: items => .any :: squeeze true items
  | _, .lit a :: items => .lit a :: squeeze false items

theorem accepts_any_any :
    Accepts r (.any :: .any :: items) l ↔ Accepts r (.any :: items) l := by
  simp only [accepts_any_iff]
  constructor
  · rintro ⟨_, hrest, rest, hrest', h⟩
    exact ⟨rest, hrest'.trans hrest, h⟩
  · rintro ⟨rest, hrest, h⟩
    exact ⟨rest, hrest, rest, List.suffix_refl rest, h⟩

theorem accepts_cons_congr {item : Item α}
    (h : ∀ l, Accepts r items l ↔ Accepts r items' l) :
    Accepts r (item :: items) l ↔ Accepts r (item :: items') l := by
  cases item with
  | any => simp only [accepts_any_iff, h]
  | lit a => simp only [accepts_lit_iff, h]

/-- A wildcard after another makes no difference. -/
theorem accepts_any_squeeze (items : List (Item α)) (l : List β) :
    (Accepts r (.any :: squeeze true items) l ↔ Accepts r (.any :: items) l) ∧
      (Accepts r (squeeze false items) l ↔ Accepts r items l) := by
  induction items generalizing l with
  | nil => exact ⟨Iff.rfl, Iff.rfl⟩
  | cons item items ih =>
    cases item with
    | any => exact ⟨(ih l).1.trans accepts_any_any.symm, (ih l).1⟩
    | lit a =>
      have hlit : ∀ l, Accepts r (.lit a :: squeeze false items) l ↔
          Accepts r (.lit a :: items) l := fun l => accepts_cons_congr fun l => (ih l).2
      exact ⟨accepts_cons_congr hlit, hlit l⟩

/-- **A wildcard after another makes no difference.** -/
theorem accepts_squeeze : Accepts r (squeeze false items) l ↔ Accepts r items l :=
  (accepts_any_squeeze items l).2

theorem lit_mem_squeeze {a : α} {last : Bool} :
    .lit a ∈ squeeze last items ↔ .lit a ∈ items := by
  induction items generalizing last with
  | nil => rfl
  | cons item items ih => cases item <;> cases last <;> simp [squeeze, ih]

/-! ### Mapped elements -/

/-- A pattern whose elements are mapped, some of them to nothing. -/
def reduce (f : α → Option γ) : List (Item α) → List (Item γ)
  | [] => []
  | .any :: items => .any :: reduce f items
  | .lit a :: items => match f a with
    | none => reduce f items
    | some c => .lit c :: reduce f items

theorem reduce_append (f : α → Option γ) (items items' : List (Item α)) :
    reduce f (items ++ items') = reduce f items ++ reduce f items' := by
  induction items with
  | nil => rfl
  | cons item items ih =>
    cases item with
    | any => exact congrArg (Item.any :: ·) ih
    | lit a =>
      rw [List.cons_append, reduce, reduce]
      cases f a with
      | none => exact ih
      | some c => exact congrArg (Item.lit c :: ·) ih

theorem lit_mem_reduce {f : α → Option γ} {c : γ} :
    .lit c ∈ reduce f items ↔ ∃ a, .lit a ∈ items ∧ f a = some c := by
  induction items with
  | nil => simp [reduce]
  | cons item items ih =>
    cases item with
    | any => simp [reduce, ih]
    | lit a =>
      rw [reduce]
      cases hfa : f a with
      | none => simp [ih, hfa]
      | some d => simp [ih, hfa, eq_comm]

/-- **Mapping both sides alike keeps a match.** -/
theorem Accepts.reduce {f : α → Option γ} {g : β → Option δ} {r' : γ → δ → Prop}
    (h : Accepts r items l)
    (hfg : ∀ a b, .lit a ∈ items → b ∈ l → r a b → Option.Rel r' (f a) (g b)) :
    Accepts r' (Wildcards.reduce f items) (l.filterMap g) := by
  induction h with
  | nil => exact .nil
  | any run _ ih =>
    rw [List.filterMap_append]
    exact .any _ (ih fun a b ha hb => hfg a b (.tail _ ha) (List.mem_append_right _ hb))
  | @lit a b items l hab _ ih =>
    have hrest := ih fun a b ha hb => hfg a b (.tail _ ha) (.tail _ hb)
    have hhead := hfg a b List.mem_cons_self List.mem_cons_self hab
    rw [Wildcards.reduce, List.filterMap_cons]
    cases hfa : f a <;> cases hgb : g b <;> rw [hfa, hgb] at hhead
    · exact hrest
    · cases hhead
    · cases hhead
    · cases hhead with
      | some hcd => exact .lit hcd hrest

/-- A pattern whose elements are all mapped matches as the elements do when they are. -/
theorem accepts_reduce_map {f : α → γ} {g : β → δ} {r : γ → δ → Prop} :
    Accepts r (reduce (fun a => some (f a)) items) (l.map g) ↔
      Accepts (fun a b => r (f a) (g b)) items l := by
  induction items generalizing l with
  | nil => rw [reduce, accepts_nil_iff, accepts_nil_iff, List.map_eq_nil_iff]
  | cons item items ih =>
    cases item with
    | any =>
      rw [reduce, accepts_any_iff, accepts_any_iff]
      constructor
      · rintro ⟨_, hrest, h⟩
        obtain ⟨rest, hsuffix, rfl⟩ := List.suffix_map_iff.mp hrest
        exact ⟨rest, hsuffix, ih.mp h⟩
      · rintro ⟨rest, hrest, h⟩
        exact ⟨rest.map g, hrest.map g, ih.mpr h⟩
    | lit a =>
      rw [reduce, accepts_lit_iff, accepts_lit_iff]
      constructor
      · rintro ⟨_, _, heq, hab, h⟩
        obtain ⟨b, rest, rfl, rfl, rfl⟩ := List.map_eq_cons_iff.mp heq
        exact ⟨b, rest, rfl, hab, ih.mp h⟩
      · rintro ⟨b, rest, rfl, hab, h⟩
        exact ⟨g b, rest.map g, rfl, hab, ih.mpr h⟩

/-- Whether a pattern ends with a wildcard, or one came before and nothing follows. -/
def endsWithAny : Bool → List (Item α) → Bool
  | last, [] => last
  | _, .any :: items => endsWithAny true items
  | _, .lit _ :: items => endsWithAny false items

/-- A wildcard at the end is left out where it would follow one. -/
theorem squeeze_append_any (last : Bool) (items : List (Item α)) :
    squeeze last (items ++ [.any]) =
      squeeze last items ++ if endsWithAny last items then [] else [.any] := by
  induction items generalizing last with
  | nil => cases last <;> rfl
  | cons item items ih =>
    cases item with
    | any => cases last with
      | true => exact ih true
      | false => exact congrArg (Item.any :: ·) (ih true)
    | lit a => cases last <;> exact congrArg (Item.lit a :: ·) (ih false)

end Wildcards
