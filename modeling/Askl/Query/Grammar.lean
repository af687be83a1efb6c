import Askl.Library.Pest
import Askl.Query.LayerBlock

/-!
# The grammar of queries

The rules are those of the grammar file, in its order.  The classes of the characters of an
identifier are Unicode's.

## Main definitions

* `Xid` — the classes of the characters of an identifier.
* `Rule`, `askl` — the rules and the grammar.
* `Value.build`, `PositionalArgument.build`, `NamedArgument.build`, `plainFilterValue` — the
  values that are read off the nodes.

## Main results

* `parses_nonAtomic` — **the mode in which a rule is matched, wherever a query comes to it.**
-/

namespace Askl

open Pest

/-- `XID_START` and `XID_CONTINUE`.  The sign of a named argument is no part of a name. -/
structure Xid where
  isStart : Char → Bool
  isContinue : Char → Bool
  isContinue_eq : isContinue '=' = false

/-- The rules. -/
inductive Rule where
  | comment
  | whitespace
  | nl
  | ident
  | string
  | quotedString
  | stringPrefix
  | prefixedString
  | value
  | namedArgument
  | namedArguments
  | positionalArgument
  | positionalArguments
  | verbArguments
  | genericVerb
  | inheritLabelShortcut
  | labelShortcut
  | useShortcut
  | plainFilter
  | forcedVerb
  | specialVerb
  | verb
  | scope
  | statement
  | statementTerminator
  | statements
  | ask
  | eoi
  deriving DecidableEq, Repr

namespace Rule

/-! ### The expressions -/

/-- `ANY`. -/
def any : Pest.Expr Rule := .sym fun _ => true

/-- `NEWLINE`. -/
def newline : Pest.Expr Rule := .choice (.str ['\n']) (.choice (.str ['\r', '\n']) (.str ['\r']))

/-- `SOI`, where `ask` is matched. -/
def soi : Pest.Expr Rule := .str []

/-- One element, and others after a comma. -/
def separated (element : Rule) : Pest.Expr Rule :=
  .seq (.rule element)
    (.star (.seq (.rule nl) (.seq (.str [',']) (.seq (.rule nl) (.rule element)))))

/-- The rules' modifiers. -/
def modifier : Rule → Modifier
  | comment | whitespace | nl | quotedString | value | namedArguments | positionalArguments
  | verbArguments | specialVerb | statementTerminator | statements | ask => .silent
  | ident | string | stringPrefix => .atomic
  | prefixedString | namedArgument | inheritLabelShortcut | labelShortcut | useShortcut =>
    .compoundAtomic
  | positionalArgument | genericVerb | plainFilter | forcedVerb | verb | scope | statement
  | eoi => .normal

/-- The rules' expressions. -/
def body (xid : Xid) : Rule → Pest.Expr Rule
  | comment =>
    .choice (.seq (.str ['/', '/']) (.star (.seq (.no newline) any)))
      (.seq (.str ['/', '*']) (.seq (.star (.seq (.no (.str ['*', '/'])) any)) (.str ['*', '/'])))
  | whitespace => .plus (.choice (.str [' ']) (.str ['\t']))
  | nl => .star newline
  | ident =>
    .seq (.choice (.str ['_']) (.sym xid.isStart)) (.star (.sym xid.isContinue))
  | string => .star (.seq (.no (.str ['"'])) any)
  | quotedString => .seq (.str ['"']) (.seq (.rule string) (.str ['"']))
  | stringPrefix => .plus (.sym Char.isAlpha)
  | prefixedString =>
    .seq (.rule stringPrefix) (.seq (.str ['"']) (.seq (.rule string) (.str ['"'])))
  | value => .choice (.rule prefixedString) (.rule quotedString)
  | namedArgument => .seq (.rule ident) (.seq (.str ['=']) (.rule value))
  | namedArguments => separated namedArgument
  | positionalArgument => .rule value
  | positionalArguments => separated positionalArgument
  | verbArguments =>
    .seq (.rule nl) (.seq
      (.choice
        (.seq (.rule positionalArguments) (.seq (.rule nl)
          (.seq (.str [',']) (.seq (.rule nl) (.rule namedArguments)))))
        (.choice (.rule positionalArguments) (.rule namedArguments)))
      (.rule nl))
  | genericVerb =>
    .seq (.rule ident) (.opt (.seq (.str ['(']) (.seq (.rule verbArguments) (.str [')']))))
  | inheritLabelShortcut => .seq (.str ['@', '@']) (.rule ident)
  | labelShortcut => .seq (.str ['@']) (.rule ident)
  | useShortcut => .seq (.str ['#']) (.rule ident)
  | plainFilter => .rule value
  | forcedVerb => .seq (.str ['!']) (.rule value)
  | specialVerb => .choice (.rule plainFilter) (.rule forcedVerb)
  | verb =>
    .choice (.rule inheritLabelShortcut) (.choice (.rule labelShortcut)
      (.choice (.rule useShortcut) (.choice (.rule specialVerb) (.rule genericVerb))))
  | scope => .seq (.str ['\x7b']) (.seq (.rule statements) (.str ['\x7d']))
  | statement =>
    .choice (.seq (.star (.rule verb)) (.rule scope))
      (.choice (.plus (.rule verb)) (.rule scope))
  | statementTerminator => .choice (.str [';']) newline
  | statements =>
    .seq (.star (.seq (.star (.rule statementTerminator)) (.rule statement)))
      (.star (.rule statementTerminator))
  | ask => .seq soi (.seq (.rule statements) (.rule eoi))
  | eoi => .no any

end Rule

/-- The grammar. -/
def askl (xid : Xid) : Pest.Grammar Rule where
  modifier := Rule.modifier
  body := Rule.body xid
  whitespace := .whitespace
  comment := .comment

variable (xid : Xid)

/-! ### Values -/

/-- How values are not built. -/
inductive BuildError where
  | reservedRegex
  | unknownStringPrefix (other : Text)
  | expectedIdent (found : Rule)
  | panicked
  deriving DecidableEq, Repr

/-- The message, where it is the source's own. -/
def BuildError.message : BuildError → Option String
  | reservedRegex => some "regex strings (re\"...\") are reserved but not supported yet"
  | unknownStringPrefix other =>
    let other := String.ofList other
    some s!"unknown string prefix '{other}' (supported: g\"...\" for glob patterns)"
  | expectedIdent _ => none
  | panicked => none

/-- A node of the syntax tree. -/
abbrev Pair := Peg.Tree Rule Char

/-- `Value::build`. -/
def Value.build : Pair → Except BuildError Value
  | .node .string text _ => .ok ⟨.plain, text⟩
  | .node .prefixedString _ (.node _ stringPrefix _ :: .node _ text _ :: _) =>
    if stringPrefix = ['g'] then .ok ⟨.glob, text⟩
    else if stringPrefix = ['r', 'e'] then .error .reservedRegex
    else .error (.unknownStringPrefix stringPrefix)
  | _ => .error .panicked

/-- `Identifier::build`. -/
def identifierBuild : Pair → Except BuildError Text
  | .node .ident text _ => .ok text
  | .node r _ _ => .error (.expectedIdent r)

/-- `PositionalArgument::build`, and the value of a filter. -/
def innerValue : Pair → Except BuildError Value
  | .node _ _ (value :: _) => Value.build value
  | .node _ _ [] => .error .panicked

/-- `NamedArgument`. -/
structure NamedArgument where
  name : Text
  value : Value
  deriving DecidableEq, Repr

/-- `NamedArgument::build`. -/
def NamedArgument.build : Pair → Except BuildError NamedArgument
  | .node _ _ (ident :: rest) => do
    let name ← identifierBuild ident
    match rest with
    | value :: _ => return ⟨name, ← Value.build value⟩
    | [] => .error .panicked
  | .node _ _ [] => .error .panicked

/-! ### Modes -/

/-- The modes in which rules are matched, when a query is. -/
def Matched : Mode × Rule → Bool
  | (.nonAtomic, _) => true
  | (.compoundAtomic, r) => r == .value || r == .prefixedString || r == .quotedString ||
    r == .string || r == .stringPrefix || r == .ident
  | (.atomic, _) => false

theorem matched_calls {n : Mode × Rule} (h : Matched n = true) :
    (((askl xid).peg.body n).calls.all Matched) = true := by
  obtain ⟨m, r⟩ := n
  cases m <;> cases r <;> first | rfl | cases h

/-- **The modes in which a rule is matched, wherever a query comes to it.** -/
theorem matched_of_tries {query s : Text} {m : Mode} {r : Rule}
    (h : Peg.Tries (askl xid).peg (.call (.nonAtomic, .ask)) query (.call (m, r)) s) :
    Matched (m, r) = true := by
  refine h.closed (P := fun n => Matched n = true) (fun n hn k hk => ?_) (fun k hk => ?_) (m, r)
    (List.mem_singleton_self _)
  · exact List.all_eq_true.mp (matched_calls xid hn) k hk
  · obtain rfl := List.mem_singleton.mp hk
    rfl

end Askl
