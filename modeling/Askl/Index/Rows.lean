import Mathlib.Data.List.Nodup
import Mathlib.Data.List.Basic
import Mathlib.Data.Int.Notation

/-!
# The rows of the index

The tables of the persistent index as `models_diesel.rs` and the migrations
declare them, with the columns the queries read.  Every row of a data table
belongs to a layer: a positive layer id is a project's root layer, a negative
one an ephemeral layer of the query cache.

## Main definitions

* `Int4range` — the `int4range` values of Postgres, empty or half-open.
* `Symbol`, `SymbolInstance`, `SymbolRef`, `Object`, `Project`, `SymbolType` — rows.
* `Database` — the tables, with the primary keys as a field.
* `like`, `ilike`, `escapeLike`, `lqueryMatches`, `ltreeContains` — the text operators of the
  name predicates.

## Main results

* `Int4range.contains_refl`, `Int4range.contains_trans` — containment is a preorder.
* `Database.instance_eq_of_id` and its like — a row is determined by its key.
-/

namespace Askl

/-- A text column. -/
abbrev Text := List Char

/-- A label path (`ltree`). -/
abbrev Ltree := List Text

/-! ### Ranges -/

/-- A canonical `int4range`: empty, or the integers from `lower` up to, not
including, `upper`. -/
inductive Int4range where
  | empty
  | bounded (lower upper : ℤ) (h : lower < upper)
  deriving DecidableEq, Repr

namespace Int4range

/-- `int4range(lower, upper)`: equal bounds give the empty range, and bounds in the
wrong order are an error of the server. -/
def of (lower upper : ℤ) : Option Int4range :=
  if h : lower < upper then some (.bounded lower upper h)
  else if lower = upper then some .empty else none

/-- The operator `@>`. -/
def contains : Int4range → Int4range → Bool
  | _, .empty => true
  | .empty, .bounded _ _ _ => false
  | .bounded l u _, .bounded l' u' _ => decide (l ≤ l') && decide (u' ≤ u)

@[simp] theorem contains_empty (r : Int4range) : r.contains .empty = true := by
  cases r <;> rfl

theorem contains_refl (r : Int4range) : r.contains r = true := by
  cases r <;> simp [contains]

theorem contains_trans {a b c : Int4range} (hab : a.contains b = true)
    (hbc : b.contains c = true) : a.contains c = true := by
  cases c with
  | empty => simp
  | bounded l₃ u₃ h₃ =>
    cases b with
    | empty => simp [contains] at hbc
    | bounded l₂ u₂ h₂ =>
      cases a with
      | empty => simp [contains] at hab
      | bounded l₁ u₁ h₁ =>
        simp only [contains, Bool.and_eq_true, decide_eq_true_eq] at hab hbc ⊢
        omega

end Int4range

/-! ### Tables -/

/-- A row of `symbol_types`. -/
structure SymbolType where
  id : ℤ
  level : ℤ
  deriving DecidableEq, Repr

/-- A row of `symbols`. -/
structure Symbol where
  id : ℤ
  name : Text
  symbolPath : Ltree
  projectId : ℤ
  symbolType : ℤ
  leafName : Text
  layer : ℤ
  deriving DecidableEq, Repr

/-- A row of `symbol_instances`. -/
structure SymbolInstance where
  id : ℤ
  symbol : ℤ
  objectId : ℤ
  offsetRange : Int4range
  instanceType : ℤ
  layer : ℤ
  deriving DecidableEq, Repr

/-- A row of `symbol_refs`. -/
structure SymbolRef where
  id : ℤ
  toSymbol : ℤ
  fromObject : ℤ
  fromOffsetRange : Int4range
  layer : ℤ
  deriving DecidableEq, Repr

/-- A row of `objects`. -/
structure Object where
  id : ℤ
  projectId : ℤ
  filesystemPath : Text
  layer : ℤ
  deriving DecidableEq, Repr

/-- A row of `projects`. -/
structure Project where
  id : ℤ
  projectName : Text
  rootLayerId : ℤ
  deriving DecidableEq, Repr

/-- The tables a query reads, and the lower-case mapping of the database's locale.
The primary keys hold in every state of the server. -/
structure Database where
  projects : List Project
  objects : List Object
  symbolTypes : List SymbolType
  symbols : List Symbol
  symbolInstances : List SymbolInstance
  symbolRefs : List SymbolRef
  lower : Char → Char
  projects_nodup : (projects.map (·.id)).Nodup
  objects_nodup : (objects.map (·.id)).Nodup
  symbolTypes_nodup : (symbolTypes.map (·.id)).Nodup
  symbols_nodup : (symbols.map (·.id)).Nodup
  symbolInstances_nodup : (symbolInstances.map (·.id)).Nodup
  symbolRefs_nodup : (symbolRefs.map (·.id)).Nodup

/-- Two rows of a keyed table with one key are one row. -/
theorem eq_of_key {α : Type*} {key : α → ℤ} {rows : List α} (h : (rows.map key).Nodup)
    {a b : α} (ha : a ∈ rows) (hb : b ∈ rows) (hab : key a = key b) : a = b :=
  List.inj_on_of_nodup_map h ha hb hab

namespace Database

variable (db : Database)

theorem instance_eq_of_id {a b : SymbolInstance} (ha : a ∈ db.symbolInstances)
    (hb : b ∈ db.symbolInstances) (h : a.id = b.id) : a = b :=
  eq_of_key db.symbolInstances_nodup ha hb h

theorem symbol_eq_of_id {a b : Symbol} (ha : a ∈ db.symbols) (hb : b ∈ db.symbols)
    (h : a.id = b.id) : a = b :=
  eq_of_key db.symbols_nodup ha hb h

/-- The database of a project with a single file, in the root layer `1`, whose symbols
all have one type.  Its keys are checked by evaluation. -/
def singleFile (symbols : List Symbol) (instances : List SymbolInstance)
    (refs : List SymbolRef) (hsymbols : decide (symbols.map (·.id)).Nodup)
    (hinstances : decide (instances.map (·.id)).Nodup)
    (hrefs : decide (refs.map (·.id)).Nodup) : Database where
  projects := [⟨1, ['p'], 1⟩]
  objects := [⟨1, 1, ['/', 'f'], 1⟩]
  symbolTypes := [⟨1, 1⟩]
  symbols := symbols
  symbolInstances := instances
  symbolRefs := refs
  lower := id
  projects_nodup := by decide
  objects_nodup := by decide
  symbolTypes_nodup := by decide
  symbols_nodup := of_decide_eq_true hsymbols
  symbolInstances_nodup := of_decide_eq_true hinstances
  symbolRefs_nodup := of_decide_eq_true hrefs

end Database

/-- A symbol of such a project, with a name of one label. -/
def Symbol.plain (id : ℤ) (name : Text) : Symbol := ⟨id, name, [name], 1, 1, name, 1⟩

/-- An instance of such a project's file. -/
def SymbolInstance.plain (id symbol lower upper : ℤ) (h : decide (lower < upper)) :
    SymbolInstance :=
  ⟨id, symbol, 1, .bounded lower upper (of_decide_eq_true h), 1, 1⟩

/-- A reference in such a project's file. -/
def SymbolRef.plain (id toSymbol lower upper : ℤ) (h : decide (lower < upper)) : SymbolRef :=
  ⟨id, toSymbol, 1, .bounded lower upper (of_decide_eq_true h), 1⟩

/-! ### Text operators -/

/-- `LIKE`: `%` stands for any run of characters, `_` for one character, and a
backslash makes the next character literal. -/
def like : Text → Text → Bool
  | [], t => t.isEmpty
  | '%' :: p, t => t.tails.any (like p)
  | '_' :: p, t => match t with
    | [] => false
    | _ :: t => like p t
  | '\\' :: c :: p, t => match t with
    | [] => false
    | d :: t => c == d && like p t
  | c :: p, t => match t with
    | [] => false
    | d :: t => c == d && like p t

/-- `ILIKE`: both sides are lower-cased by the locale first. -/
def ilike (lower : Char → Char) (p t : Text) : Bool := like (p.map lower) (t.map lower)

/-- `escape_like`. -/
def escapeLike (t : Text) : Text :=
  t.flatMap fun c => if c = '\\' ∨ c = '%' ∨ c = '_' then ['\\', c] else [c]

/-- One item of an `lquery`: any number of labels, or one given label. -/
inductive LqueryItem where
  | any
  | label (l : Text)
  deriving DecidableEq, Repr

/-- The operator `ltree ~ lquery`. -/
def lqueryMatches : List LqueryItem → Ltree → Bool
  | [], p => p.isEmpty
  | .any :: q, p => p.tails.any (lqueryMatches q)
  | .label l :: q, p => match p with
    | [] => false
    | l' :: p => l == l' && lqueryMatches q p

/-- The operator `ltree @> ltree`: the left path is an ancestor of, or equal to, the
right one. -/
def ltreeContains (a b : Ltree) : Bool := a.isPrefixOf b

end Askl
