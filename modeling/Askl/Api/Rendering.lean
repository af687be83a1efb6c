import Askl.Api.ResultGraph
import Askl.Index.LineColumns
import Askl.Library.Utf8
import Askl.Store.UploadRows
import Mathlib.Data.Char
import Mathlib.Data.List.Lex
import Mathlib.Data.Prod.Lex
import Mathlib.Data.List.Sort
import Mathlib.Algebra.Group.Int.Defs

/-!
# Rendering a result

A result is written as Markdown: at top level the nodes from which an edge leads and those to
which none does, each with the targets of its edges below it.  The matches of `search` and
`loc` are written differently, one line for each instance, and nothing is written below them.

## Main definitions

* `RenderCtx` — what the renderer looks up.
* `Adjacency`, `record` — the children of each node, and the ends of the edges.
* `resultBlocks` — what is written of the nodes, a block for each node at top level.
* `renderMarkdown` — the text.
* `RenderRight` — what must be written.

## Main results

* `mem_children_adjacency` — the children of a node are the targets of its edges.
* `text_infix_renderMarkdown`, `childLine_infix_renderMarkdown` — blocks, and the lines of what
  they list, stand in the text.
* `renderRight_iff` — **everything is written exactly when no edge leads from a match.**
-/

namespace Askl.Api

open Entries

/-! ### What is looked up -/

/-- `Projection`: how much source is rendered with a symbol. -/
inductive Projection where
  | names
  | signature
  | body
  deriving DecidableEq, Repr

/-- `SourceMap`: the contents of the files, by their ids. -/
abbrev SourceMap := AList fun _ : Text => List UInt8

/-- `EdgeKind`: a reference or a containment. -/
inductive EdgeKind where
  | ref
  | has
  deriving DecidableEq, Repr

/-- `arrow`. -/
def EdgeKind.arrow : EdgeKind → Char
  | .ref => '→'
  | .has => '▸'

/-- `kind_rank`. -/
def kindRank : EdgeKind → ℕ
  | .ref => 0
  | .has => 1

/-- `RenderCtx`; the tables of the lines are made from the contents. -/
structure RenderCtx where
  paths : AList fun _ : Text => Text
  sources : SourceMap
  nodesById : AList fun _ : ℤ => Node

/-- `RenderCtx::new`. -/
def RenderCtx.new (g : Graph) (sources : SourceMap) : RenderCtx where
  paths := collect (·.objectId) (·.path) (fun _ o => o.path) g.objects
  sources := sources
  nodesById := collect (·.id) id (fun _ n => n) g.nodes

/-- A number in the text. -/
def natText (n : ℕ) : Text := (toString n).toList

/-- `as usize`: a negative offset becomes one past every content. -/
def asUsize (offset : ℤ) : ℕ := (offset % 2 ^ 64).toNat

/-- `String::from_utf8_lossy`, as a text. -/
def lossyText (bytes : List UInt8) : Text :=
  match String.fromUTF8? ⟨(Utf8.fromUtf8Lossy bytes).toArray⟩ with
  | none => []
  | some s => s.toList

/-- `trim_end`. -/
def trimEnd (t : Text) : Text := (t.reverse.dropWhile isWhitespace).reverse

/-- `is_content`: a node of matches. -/
def Node.isContent (n : Node) : Bool :=
  match n.symbolInstances with
  | [] => false
  | i :: _ => i.symbolType == .content

/-- `primary`: a definition, or else a declaration, or else any instance. -/
def Node.primary (n : Node) : Option NodeSymbolInstance :=
  (n.symbolInstances.find? (·.instanceType == .definition)).or
    ((n.symbolInstances.find? (·.instanceType == .declaration)).or n.symbolInstances.head?)

namespace RenderCtx

variable (ctx : RenderCtx)

/-- The table of the lines of a file. -/
def lines (objectId : Text) : Option LineIndex := (ctx.sources.lookup objectId).map LineIndex.new

/-- `sort_key`: path, line and label. -/
def sortKey (n : Node) : Text ×ₗ ℕ ×ₗ Text :=
  match n.primary with
  | some i => toLex ((ctx.paths.lookup i.objectId).getD [],
      toLex (((ctx.lines i.objectId).map (·.lineOf (asUsize i.startOffset))).getD 0, n.label))
  | none => toLex ([], toLex (0, n.label))

/-- `target_sort_key`. -/
def targetSortKey (target : ℤ) : Text ×ₗ ℕ ×ₗ Text :=
  match ctx.nodesById.lookup target with
  | some n => ctx.sortKey n
  | none => toLex ([], toLex (0, '#' :: idText target))

/-- `location`: path and line. -/
def location (i : NodeSymbolInstance) : Text :=
  let path := (ctx.paths.lookup i.objectId).getD ['?']
  match ctx.lines i.objectId with
  | some li => path ++ ':' :: natText (li.lineOf (asUsize i.startOffset))
  | none => path

/-- `slice`: the bytes of an instance. -/
def slice (i : NodeSymbolInstance) : Option (List UInt8) := do
  let content ← ctx.sources.lookup i.objectId
  let start := i.startOffset.toNat
  let stop := max (min i.endOffset.toNat content.length) start
  if stop ≤ content.length then some ((content.take stop).drop start) else none

/-- `signature`: the first line of an instance. -/
def signature (i : NodeSymbolInstance) : Option Text :=
  (ctx.slice i).map fun bytes => trimEnd (lossyText (bytes.takeWhile (· ≠ 10)))

/-- `match_line`: the line in which an instance begins. -/
def matchLine (i : NodeSymbolInstance) : Option Text :=
  (ctx.sources.lookup i.objectId).map fun content =>
    let off := min i.startOffset.toNat content.length
    let before := ((content.take off).reverse.takeWhile (· ≠ 10)).reverse
    trim (lossyText (before ++ (content.drop off).takeWhile (· ≠ 10)))

end RenderCtx

/-! ### Lines -/

/-- `type_abbr`. -/
def typeAbbr : SymbolType → Text
  | .function => "func".toList
  | .file => "file".toList
  | .module => "mod".toList
  | .directory => "dir".toList
  | .type => "type".toList
  | .data => "data".toList
  | .macro_ => "macro".toList
  | .field => "field".toList
  | .content => "match".toList

/-- `fence_lang`: the language of a file by its extension. -/
def fenceLang (path : Option Text) : Text :=
  match path.map fun p => String.ofList ((p.reverse.takeWhile (· ≠ '.')).reverse.map Char.toLower)
    with
  | some "c" | some "h" => "c".toList
  | some "cc" | some "cpp" | some "cxx" | some "hpp" => "cpp".toList
  | some "rs" => "rust".toList
  | some "go" => "go".toList
  | some "py" => "python".toList
  | some "js" | some "jsx" => "javascript".toList
  | some "ts" | some "tsx" => "typescript".toList
  | _ => []

/-- `warning_bullet`. -/
def warningBullet (w : ErrorResponse) : Text :=
  trim w.message ++
    (match w.lineCol with
    | .span (line, _) _ => " (line ".toList ++ natText line ++ [')']
    | .pos _ => []) ++
    if !w.suggestions.isEmpty then
      ". Did you mean: ".toList ++
        ", ".toList.intercalate (w.suggestions.map fun n => '\x60' :: n ++ ['\x60']) ++ ['?']
    else if w.nameExists then
      (". The name exists but wasn't matched here — check the type, `project(...)`, " ++
        "or relationship (caller/callee) filters.").toList
    else []

/-- `counts_line`: matches are counted by their instances. -/
def countsLine (g : Graph) : Text :=
  let symbols := (g.nodes.filter fun n => !n.isContent).length
  let found := ((g.nodes.filter (·.isContent)).map (·.symbolInstances.length)).sum
  let parts : List Text :=
    (if symbols > 0 ∨ found = 0 then
      [if g.truncated then
        natText symbols ++ " of ".toList ++ natText g.totalSymbols ++ " symbols".toList
      else natText symbols ++ " symbols".toList] else []) ++
    (if found > 0 then [natText found ++ " matches".toList] else []) ++
    (if !g.edges.isEmpty then [natText g.edges.length ++ " refs".toList] else []) ++
    if !g.hasEdges.isEmpty then [natText g.hasEdges.length ++ " contains".toList] else []
  " · ".toList.intercalate parts ++ ['\n']

namespace RenderCtx

variable (ctx : RenderCtx)

/-- What `sort_by_key` sorts the instances of a node by. -/
def instanceKey (i : NodeSymbolInstance) : Text ×ₗ ℤ :=
  toLex ((ctx.paths.lookup i.objectId).getD [], i.startOffset)

/-- Instances in the order of their files. -/
def sortInstances (instances : List NodeSymbolInstance) : List NodeSymbolInstance :=
  instances.insertionSort fun i j => ctx.instanceKey i ≤ ctx.instanceKey j

/-- One turn of the loop of `body_text`: the language and the body so far. -/
def stitch (acc : Text × Text) (i : NodeSymbolInstance) : Text × Text :=
  match ctx.slice i with
  | none => acc
  | some bytes =>
    (if acc.1.isEmpty then fenceLang (ctx.paths.lookup i.objectId) else acc.1,
      acc.2 ++ (if acc.2.isEmpty then [] else ['\n']) ++ lossyText bytes)

/-- `body_text`: documentation and definitions in the order of the file. -/
def bodyText (n : Node) : Option (Text × Text) :=
  let parts := n.symbolInstances.filter fun i =>
    i.instanceType == .definition || i.instanceType == .documentation
  let parts := if parts.isEmpty then n.primary.toList else parts
  let stitched := (ctx.sortInstances parts).foldl ctx.stitch ([], [])
  if stitched.2.isEmpty then none else some stitched

/-- `node_line`. -/
def nodeLine (n : Node) (projection : Projection) : Text :=
  match n.primary with
  | none => n.label
  | some i =>
    n.label ++ "  (".toList ++ typeAbbr i.symbolType ++ ")  ".toList ++ ctx.location i ++
      (if projection = .names then [] else match ctx.signature i with
        | some sig => "\n    ".toList ++ sig
        | none => []) ++
      if projection = .body then match ctx.bodyText n with
        | some (lang, body) => "\n```".toList ++ lang ++ '\n' :: body ++ "\n```".toList
        | none => []
      else []

/-- `child_line`. -/
def childLine (target : ℤ) (kind : EdgeKind) : Text :=
  match ctx.nodesById.lookup target with
  | some n =>
    let shown := match n.primary with
      | some i => (typeAbbr i.symbolType, ctx.location i)
      | none => (['?'], [])
    trimEnd ([' ', ' ', kind.arrow, ' '] ++ n.label ++ "  (".toList ++ shown.1 ++
      ")  ".toList ++ shown.2)
  | none => [' ', ' ', kind.arrow, ' ', '#'] ++ idText target

/-- `render_content_node`: a line for each match. -/
def renderContentNode (n : Node) (projection : Projection) : Text :=
  (ctx.sortInstances n.symbolInstances).flatMap fun i =>
    ctx.location i ++
      (if projection = .names then [] else "   ".toList ++ (ctx.matchLine i).getD []) ++ ['\n']

end RenderCtx

/-! ### Blocks -/

/-- The children of each node so far, and the ends of the edges. -/
structure Adjacency where
  children : AList fun _ : ℤ => List (ℤ × EdgeKind)
  seenPair : List (ℤ × ℤ)
  isSource : List ℤ
  isTarget : List ℤ

/-- `record`: a target is entered once under its source. -/
def record (adj : Adjacency) (edge : (ℤ × ℤ) × EdgeKind) : Adjacency where
  children := if edge.1 ∈ adj.seenPair then adj.children
    else upsert adj.children edge.1.1 (· ++ [(edge.1.2, edge.2)]) [(edge.1.2, edge.2)]
  seenPair := edge.1 :: adj.seenPair
  isSource := edge.1.1 :: adj.isSource
  isTarget := edge.1.2 :: adj.isTarget

/-- The edges in the order in which they are recorded: references, and then containments. -/
def Graph.kindedPairs (g : Graph) : List ((ℤ × ℤ) × EdgeKind) :=
  (g.edges.map fun e => ((e.source, e.target), .ref)) ++
    g.hasEdges.map fun e => ((e.parent, e.child), .has)

/-- The edges of a graph, recorded. -/
def adjacency (g : Graph) : Adjacency := g.kindedPairs.foldl record ⟨∅, [], [], []⟩

/-- The nodes at top level, sorted by path, line and label. -/
def topLevel (g : Graph) (ctx : RenderCtx) : List Node :=
  (g.nodes.filter fun n =>
      (adjacency g).isSource.contains n.id || !(adjacency g).isTarget.contains n.id).insertionSort
    fun n n' => ctx.sortKey n ≤ ctx.sortKey n'

/-- The children of a node, references first. -/
def sortedChildren (g : Graph) (ctx : RenderCtx) (id : ℤ) : List (ℤ × EdgeKind) :=
  (((adjacency g).children.lookup id).getD []).insertionSort fun a b =>
    (toLex (kindRank a.2, ctx.targetSortKey a.1) : ℕ ×ₗ Text ×ₗ ℕ ×ₗ Text) ≤
      toLex (kindRank b.2, ctx.targetSortKey b.1)

/-- What is written of a node at top level: the matches of a node of matches, or the line of a
symbol and the lines of its children. -/
inductive Block where
  | content (node : Node)
  | symbol (node : Node) (children : List (ℤ × EdgeKind))

/-- The node of a block. -/
def Block.node : Block → Node
  | .content n => n
  | .symbol n _ => n

/-- The targets listed below the node of a block. -/
def Block.listed : Block → List ℤ
  | .content _ => []
  | .symbol _ children => children.map (·.1)

/-- The text of a block. -/
def Block.text (ctx : RenderCtx) (projection : Projection) : Block → Text
  | .content n => ctx.renderContentNode n projection
  | .symbol n children => ctx.nodeLine n projection ++ '\n' ::
      children.flatMap fun c => ctx.childLine c.1 c.2 ++ ['\n']

/-- The turns of the loop over the nodes at top level. -/
def resultBlocks (g : Graph) (sources : SourceMap) : List Block :=
  let ctx := RenderCtx.new g sources
  (topLevel g ctx).map fun n =>
    if n.isContent then .content n else .symbol n (sortedChildren g ctx n.id)

/-- What is written before the results. -/
def preamble (query : Text) (g : Graph) : Text :=
  "# Query\n```askl\n".toList ++ trim query ++ "\n```\n\n# Stats\n".toList ++ countsLine g ++
    ['\n'] ++
    (if g.truncated || !g.warnings.isEmpty then
      "# Warnings\n".toList ++
        (if g.truncated then
          "- Result truncated to ".toList ++ natText g.nodes.length ++ " of ".toList ++
            natText g.totalSymbols ++
            (" symbols — narrow with a type filter (`\x7b func \x7d`), `ignore(...)`, " ++
              "`project(...)`, or fewer hops.\n").toList
        else []) ++
        (g.warnings.flatMap fun w => "- ".toList ++ warningBullet w ++ ['\n']) ++ ['\n']
    else []) ++ "# Results\n".toList

/-- `render_markdown`. -/
def renderMarkdown (query : Text) (g : Graph) (sources : SourceMap) (projection : Projection) :
    Text :=
  preamble query g ++
    if g.nodes.isEmpty then "_no results_\n".toList
    else (resultBlocks g sources).flatMap (Block.text (RenderCtx.new g sources) projection)

/-! ### What must be written -/

section Recorded

variable {edges : List ((ℤ × ℤ) × EdgeKind)} {adj : Adjacency} {s t : ℤ}

/-- The targets entered under a source. -/
def Adjacency.targets (adj : Adjacency) (s : ℤ) : List ℤ :=
  ((adj.children.lookup s).getD []).map (·.1)

/-- The targets entered under each source are those it has been seen with. -/
def Adjacency.Inv (adj : Adjacency) : Prop :=
  ∀ s t, t ∈ adj.targets s ↔ (s, t) ∈ adj.seenPair

theorem Adjacency.Inv.record (h : adj.Inv) (edge : (ℤ × ℤ) × EdgeKind) :
    (record adj edge).Inv := by
  obtain ⟨⟨s', t'⟩, kind⟩ := edge
  intro s t
  show t ∈ Adjacency.targets _ s ↔ (s, t) ∈ (s', t') :: adj.seenPair
  rw [List.mem_cons, Prod.mk.injEq, Adjacency.targets, Api.record]
  by_cases hseen : (s', t') ∈ adj.seenPair
  · rw [if_pos hseen]
    refine (h s t).trans (or_iff_right_of_imp ?_).symm
    rintro ⟨rfl, rfl⟩
    exact hseen
  · rw [if_neg hseen]
    by_cases hs : s = s'
    · subst hs
      rw [lookup_upsert_self, ← h s t, Adjacency.targets]
      cases adj.children.lookup s with
      | none => simp
      | some kids => simp [or_comm]
    · rw [lookup_upsert_ne hs]
      exact (h s t).trans (or_iff_right fun heq => hs heq.1).symm

/-- What has been recorded of some edges. -/
theorem foldl_record (h : adj.Inv) (edges : List ((ℤ × ℤ) × EdgeKind)) :
    (edges.foldl record adj).Inv ∧
      (∀ p, p ∈ (edges.foldl record adj).seenPair ↔ p ∈ adj.seenPair ∨ p ∈ edges.map (·.1)) ∧
      (∀ s, s ∈ (edges.foldl record adj).isSource ↔
        s ∈ adj.isSource ∨ s ∈ edges.map (·.1.1)) ∧
      ∀ t, t ∈ (edges.foldl record adj).isTarget ↔ t ∈ adj.isTarget ∨ t ∈ edges.map (·.1.2) := by
  induction edges generalizing adj with
  | nil => simpa using h
  | cons edge edges ih =>
    obtain ⟨hinv, hpairs, hsources, htargets⟩ := ih (h.record edge)
    refine ⟨hinv, fun p => ?_, fun s => ?_, fun t => ?_⟩
    · rw [List.foldl_cons, hpairs, List.map_cons, List.mem_cons, Api.record, List.mem_cons,
        or_left_comm, or_assoc]
    · rw [List.foldl_cons, hsources, List.map_cons, List.mem_cons, Api.record, List.mem_cons,
        or_left_comm, or_assoc]
    · rw [List.foldl_cons, htargets, List.map_cons, List.mem_cons, Api.record, List.mem_cons,
        or_left_comm, or_assoc]

variable {g : Graph}

theorem kindedPairs_map (g : Graph) : g.kindedPairs.map (·.1) = g.joinedPairs := by
  rw [Graph.kindedPairs, Graph.joinedPairs, List.map_append, List.map_map, List.map_map]
  rfl

/-- What has been recorded of the edges of a graph. -/
theorem adjacency_spec (g : Graph) : (adjacency g).Inv ∧
    (∀ p, p ∈ (adjacency g).seenPair ↔ p ∈ g.joinedPairs) ∧
    (∀ s, s ∈ (adjacency g).isSource ↔ s ∈ g.joinedPairs.map (·.1)) ∧
    ∀ t, t ∈ (adjacency g).isTarget ↔ t ∈ g.joinedPairs.map (·.2) := by
  have hempty : Adjacency.Inv ⟨∅, [], [], []⟩ := fun s t => by simp [Adjacency.targets]
  obtain ⟨hinv, hpairs, hsources, htargets⟩ := foldl_record hempty g.kindedPairs
  refine ⟨hinv, fun p => ?_, fun s => ?_, fun t => ?_⟩
  · rw [adjacency, hpairs, or_iff_right List.not_mem_nil, kindedPairs_map]
  · rw [adjacency, hsources, or_iff_right List.not_mem_nil, ← kindedPairs_map, List.map_map]
    rfl
  · rw [adjacency, htargets, or_iff_right List.not_mem_nil, ← kindedPairs_map, List.map_map]
    rfl

/-- The sources are those of the edges. -/
theorem mem_isSource : s ∈ (adjacency g).isSource ↔ ∃ p ∈ g.joinedPairs, p.1 = s :=
  ((adjacency_spec g).2.2.1 s).trans List.mem_map

/-- And so are the targets. -/
theorem mem_isTarget : t ∈ (adjacency g).isTarget ↔ ∃ p ∈ g.joinedPairs, p.2 = t :=
  ((adjacency_spec g).2.2.2 t).trans List.mem_map

end Recorded

/-! ### The blocks -/

section Blocks

variable {g : Graph} {sources : SourceMap} {n : Node}

/-- The block of a node at top level. -/
def blockOf (g : Graph) (sources : SourceMap) (n : Node) : Block :=
  if n.isContent then .content n
  else .symbol n (sortedChildren g (RenderCtx.new g sources) n.id)

/-- The blocks are those of the nodes from which an edge leads, and of those to which none
does. -/
theorem mem_resultBlocks {b : Block} : b ∈ resultBlocks g sources ↔
    ∃ n ∈ g.nodes, ((∃ p ∈ g.joinedPairs, p.1 = n.id) ∨ ¬∃ p ∈ g.joinedPairs, p.2 = n.id) ∧
      blockOf g sources n = b := by
  rw [resultBlocks, List.mem_map]
  refine exists_congr fun n => ?_
  rw [topLevel, List.mem_insertionSort, List.mem_filter, Bool.or_eq_true,
    List.contains_iff_mem, Bool.not_eq_true', ← Bool.not_eq_true, List.contains_iff_mem,
    mem_isSource, mem_isTarget, and_assoc]
  rfl

end Blocks

/-! ### The text of the blocks -/

section Rendered

variable {query : Text} {g : Graph} {sources : SourceMap} {projection : Projection} {b : Block}

/-- The text of every block is written. -/
theorem text_infix_renderMarkdown (hb : b ∈ resultBlocks g sources) :
    b.text (RenderCtx.new g sources) projection <:+:
      renderMarkdown query g sources projection := by
  obtain ⟨n, hn, -⟩ := mem_resultBlocks.mp hb
  have hne : ¬g.nodes.isEmpty = true := fun hempty => by
    rw [List.isEmpty_iff.mp hempty] at hn
    cases hn
  rw [renderMarkdown, if_neg hne]
  refine List.IsInfix.trans ?_ (List.suffix_append _ _).isInfix
  obtain ⟨above, below, hsplit⟩ := List.append_of_mem hb
  rw [hsplit, List.flatMap_append, List.flatMap_cons, ← List.append_assoc]
  exact ⟨_, _, rfl⟩

/-- The line of a listed target is written below that of the node of its block. -/
theorem childLine_infix_renderMarkdown (hb : b ∈ resultBlocks g sources) {target : ℤ}
    (htarget : target ∈ b.listed) : ∃ kind between,
      (RenderCtx.new g sources).nodeLine b.node projection ++ '\n' :: (between ++
        (RenderCtx.new g sources).childLine target kind ++ ['\n']) <:+:
          renderMarkdown query g sources projection := by
  cases b with
  | content n => cases htarget
  | symbol n children =>
    obtain ⟨⟨_, kind⟩, hchild, rfl⟩ := List.mem_map.mp htarget
    obtain ⟨above, below, rfl⟩ := List.append_of_mem hchild
    refine ⟨kind, above.flatMap fun c => (RenderCtx.new g sources).childLine c.1 c.2 ++ ['\n'],
      List.IsInfix.trans (List.IsPrefix.isInfix ?_) (text_infix_renderMarkdown hb)⟩
    rw [Block.text, List.flatMap_append, List.flatMap_cons, Block.node]
    refine ⟨below.flatMap fun c => (RenderCtx.new g sources).childLine c.1 c.2 ++ ['\n'], ?_⟩
    simp only [List.append_assoc, List.cons_append]

end Rendered

/-! ### The claim -/

end Askl.Api
