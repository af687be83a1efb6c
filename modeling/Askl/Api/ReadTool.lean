import Askl.Api.Rendering
import Askl.Query.LocLines
import Askl.Query.Search

/-!
# Reading lines of a file

`askl_read` finds a file by its path or by a part of it that ends it, and shows some of its
lines.  The database hands out at most fifty of the files that match, those with the very path
first and the others in any order; the server sorts them and reads the first.

## Main definitions

* `sourceFiles`, `Loaded`, `resolveSourceFile` — the files that match, what the database may
  answer, and how the server sorts it.
* `fileLines` — the lines of a content, each with its line feed.
* `readSlice`, `toolAsklRead` — the lines that are asked for, and the tool.
* `Best` — what the file that is read is among those that match.

## Main results

* `best_of_loaded` — **which file is read**, however the database orders the others.
* `lineToOffset_fileLines`, `readSlice_eq` — **the bytes that are read are the lines.**
* `toolAsklRead_eq` — **what the tool answers.**
-/

namespace Askl

open Utf8 Keyed
open Api (natText lossyText)

/-! ### Lines -/

/-- The lines of a content: each but the last ends with a line feed. -/
def fileLines : Bytes → List Bytes
  | [] => [[]]
  | b :: bytes => if b = 10 then [b] :: fileLines bytes else (fileLines bytes).modifyHead (b :: ·)

theorem fileLines_ne_nil : ∀ content, fileLines content ≠ []
  | [] => List.cons_ne_nil _ _
  | b :: bytes => by
    rw [fileLines]
    split
    · exact List.cons_ne_nil _ _
    · intro h
      exact fileLines_ne_nil bytes (List.modifyHead_eq_nil_iff.mp h)

theorem fileLines_cons_of_ne {b : UInt8} (hb : b ≠ 10) (bytes : Bytes) :
    ∃ line rest, fileLines bytes = line :: rest ∧ fileLines (b :: bytes) = (b :: line) :: rest := by
  obtain ⟨line, rest, hrest⟩ := List.exists_cons_of_ne_nil (fileLines_ne_nil bytes)
  exact ⟨line, rest, hrest, by rw [fileLines, if_neg hb, hrest, List.modifyHead_cons]⟩

/-- The lines are the content. -/
theorem flatten_fileLines (content : Bytes) : (fileLines content).flatten = content := by
  induction content with
  | nil => rfl
  | cons b bytes ih =>
    by_cases hb : b = 10
    · rw [fileLines, if_pos hb, List.flatten_cons, ih]
      rfl
    · obtain ⟨line, rest, hrest, hcons⟩ := fileLines_cons_of_ne hb bytes
      rw [hrest] at ih
      rw [hcons, List.flatten_cons, List.cons_append, ← List.flatten_cons, ih]

theorem length_fileLines (content : Bytes) : (fileLines content).length = content.count 10 + 1 := by
  induction content with
  | nil => rfl
  | cons b bytes ih =>
    by_cases hb : b = 10
    · rw [fileLines, if_pos hb, List.length_cons, ih, hb, List.count_cons_self]
    · obtain ⟨line, rest, hrest, hcons⟩ := fileLines_cons_of_ne hb bytes
      rw [hrest] at ih
      rw [hcons, List.length_cons, List.count_cons_of_ne hb, ← ih, List.length_cons]

theorem lineToOffsetFrom_fileLines {content : Bytes} {k : ℕ} (hk : k ≠ 0)
    (hle : k ≤ content.count 10) (current idx : ℕ) :
    lineToOffsetFrom (current + k) current idx content =
      some (idx + ((fileLines content).take k).flatten.length) := by
  induction content generalizing k current idx with
  | nil =>
    rw [List.count_nil] at hle
    omega
  | cons b bytes ih =>
    obtain ⟨k, rfl⟩ : ∃ j, k = j + 1 := ⟨k - 1, by omega⟩
    rw [lineToOffsetFrom]
    by_cases hb : b = 10
    · rw [if_pos hb, fileLines, if_pos hb, List.take_succ_cons, List.flatten_cons]
      rw [hb, List.count_cons_self] at hle
      cases k with
      | zero => rw [if_pos rfl]; rfl
      | succ k =>
        rw [if_neg (by omega), show current + (k + 1 + 1) = current + 1 + (k + 1) by omega,
          ih (k := k + 1) (by omega) (by omega)]
        simp only [List.length_append, List.length_singleton, Option.some.injEq]
        omega
    · obtain ⟨line, rest, hrest, hcons⟩ := fileLines_cons_of_ne hb bytes
      rw [List.count_cons_of_ne hb] at hle
      rw [if_neg hb, ih hk hle, hrest, hcons]
      simp only [List.take_succ_cons, List.flatten_cons, List.length_append, List.length_cons,
        Option.some.injEq]
      omega

/-- **A line begins after the lines before it.** -/
theorem lineToOffset_fileLines {content : Bytes} {k : ℕ} (hk : k < (fileLines content).length) :
    lineToOffset content (k + 1) = some ((fileLines content).take k).flatten.length := by
  rw [length_fileLines] at hk
  rw [lineToOffset, if_neg (Nat.succ_ne_zero k)]
  cases k with
  | zero => rfl
  | succ k =>
    rw [if_neg (by omega), show k + 1 + 1 = 1 + (k + 1) by omega,
      lineToOffsetFrom_fileLines (Nat.succ_ne_zero k) (by omega), Nat.zero_add]

/-! ### Files -/

/-- `ResolvedSourceFile`. -/
structure ResolvedSourceFile where
  objectId : ℤ
  projectName : Text
  filesystemPath : Text
  deriving DecidableEq, Repr

/-- The rows that the query of `resolve_source_file` selects. -/
def sourceFiles (s : Store) (path : Text) (projectName : Option Text) : List ResolvedSourceFile :=
  ((join s.objects s.projects fun o p => p.id == o.row.projectId).filter fun r =>
    decide (0 < r.2.id) && matchesPath path r.1.row.filesystemPath &&
      projectName.all (r.2.projectName == ·)).map
    fun r => ⟨r.1.id, r.2.projectName, r.1.row.filesystemPath⟩

/-- `RESOLVE_SOURCE_FILE_LIMIT`. -/
def resolveSourceFileLimit : ℕ := 50

/-- What the database may answer: the rows with the very path first, all else in any order, as
far as the limit. -/
def Loaded (path : Text) (files rows : List ResolvedSourceFile) : Prop :=
  ∃ order : List ResolvedSourceFile, order.Perm files ∧
    order.Pairwise (fun a b => b.filesystemPath = path → a.filesystemPath = path) ∧
    rows = order.take resolveSourceFileLimit

/-- What the files are sorted by: the very path, the length in bytes, and the path. -/
def ResolvedSourceFile.key (path : Text) (r : ResolvedSourceFile) : ℕ ×ₗ ℕ ×ₗ Text :=
  toLex (if r.filesystemPath = path then 0 else 1,
    toLex ((utf8 r.filesystemPath).length, r.filesystemPath))

/-- The end of `resolve_source_file`. -/
def resolveSourceFile (path : Text) (rows : List ResolvedSourceFile) : List ResolvedSourceFile :=
  rows.insertionSort fun a b => a.key path ≤ b.key path

/-- The path is the one asked for, or ends with it after a slash. -/
def OnBoundary (path filesystemPath : Text) : Prop :=
  filesystemPath = path ∨ ∃ dir, filesystemPath = dir ++ '/' :: path

/-- The file that is read is one of those that match, the very path if there is one, and the
first of all in the order of the server unless the database leaves some out. -/
structure Best (path : Text) (files : List ResolvedSourceFile) (best : ResolvedSourceFile) :
    Prop where
  mem : best ∈ files
  exact : ∀ f ∈ files, f.filesystemPath = path → best.filesystemPath = path
  least : files.length ≤ resolveSourceFileLimit → ∀ f ∈ files, best.key path ≤ f.key path

theorem like_percent_iff {p t : Text} :
    like ('%' :: p) t = true ↔ ∃ pre rest, t = pre ++ rest ∧ like p rest = true := by
  rw [like, List.any_eq_true]
  constructor
  · rintro ⟨rest, hrest, hlike⟩
    obtain ⟨pre, rfl⟩ := (List.mem_tails _ _).mp hrest
    exact ⟨pre, rest, rfl, hlike⟩
  · rintro ⟨pre, rest, rfl, hlike⟩
    exact ⟨rest, (List.mem_tails _ _).mpr ⟨pre, rfl⟩, hlike⟩

/-- **The pattern finds the paths on a boundary**, whatever characters the path has. -/
theorem matchesPath_iff {path filesystemPath : Text} :
    matchesPath path filesystemPath = true ↔ OnBoundary path filesystemPath := by
  rw [matchesPath, Bool.or_eq_true, beq_iff_eq, like_percent_iff]
  refine or_congr_right ?_
  have hslash : ∀ rest, like ('/' :: escapeLike path) rest = true ↔ rest = '/' :: path := by
    intro rest
    have happend := like_escapeLike_append ('/' :: path) [] rest
    rw [List.append_nil, show escapeLike ('/' :: path) = '/' :: escapeLike path from rfl] at happend
    rw [happend]
    constructor
    · rintro ⟨tail, rfl, htail⟩
      rw [like, List.isEmpty_iff] at htail
      rw [htail, List.append_nil]
    · rintro rfl
      exact ⟨[], (List.append_nil _).symm, rfl⟩
  simp only [hslash]
  constructor
  · rintro ⟨pre, rest, h, rfl⟩
    exact ⟨pre, h⟩
  · rintro ⟨dir, h⟩
    exact ⟨dir, _, h, rfl⟩

theorem mem_sourceFiles {s : Store} {path : Text} {projectName : Option Text}
    {f : ResolvedSourceFile} : f ∈ sourceFiles s path projectName ↔
      ∃ o ∈ s.objects, ∃ p ∈ s.projects, p.id = o.row.projectId ∧ 0 < p.id ∧
        OnBoundary path o.row.filesystemPath ∧ (∀ name ∈ projectName, name = p.projectName) ∧
        f = ⟨o.id, p.projectName, o.row.filesystemPath⟩ := by
  rw [sourceFiles, List.mem_map]
  constructor
  · rintro ⟨⟨o, p⟩, hr, rfl⟩
    obtain ⟨hjoin, hr⟩ := List.mem_filter.mp hr
    obtain ⟨ho, hp, hid⟩ := mem_join.mp hjoin
    rw [Bool.and_eq_true, Bool.and_eq_true, decide_eq_true_eq, matchesPath_iff] at hr
    refine ⟨o, ho, p, hp, by simpa using hid, hr.1.1, hr.1.2, fun name hname => ?_, rfl⟩
    have hall := hr.2
    rw [Option.mem_def.mp hname] at hall
    exact (beq_iff_eq.mp hall).symm
  · rintro ⟨o, ho, p, hp, hid, hpos, hpath, hname, rfl⟩
    refine ⟨(o, p), List.mem_filter.mpr ⟨mem_join.mpr ⟨ho, hp, by simpa using hid⟩, ?_⟩, rfl⟩
    rw [Bool.and_eq_true, Bool.and_eq_true, decide_eq_true_eq, matchesPath_iff]
    refine ⟨⟨hpos, hpath⟩, ?_⟩
    cases projectName with
    | none => rfl
    | some name => exact beq_iff_eq.mpr (hname name rfl).symm

section Resolve

variable {path : Text} {files rows : List ResolvedSourceFile}

/-- A path that is asked for is among the rows, whichever are left out. -/
theorem Loaded.exists_exact (h : Loaded path files rows) {f : ResolvedSourceFile} (hf : f ∈ files)
    (hexact : f.filesystemPath = path) : ∃ r ∈ rows, r.filesystemPath = path := by
  obtain ⟨order, hperm, hfirst, rfl⟩ := h
  cases order with
  | nil => cases hperm.symm.subset hf
  | cons first order =>
    refine ⟨first, List.mem_cons_self, ?_⟩
    rcases List.mem_cons.mp (hperm.symm.subset hf) with rfl | hf
    · exact hexact
    · exact (List.pairwise_cons.mp hfirst).1 f hf hexact

theorem Loaded.subset (h : Loaded path files rows) : rows ⊆ files := by
  obtain ⟨order, hperm, -, rfl⟩ := h
  exact List.Subset.trans (List.take_subset _ _) hperm.subset

theorem Loaded.perm (h : Loaded path files rows)
    (hle : files.length ≤ resolveSourceFileLimit) : rows.Perm files := by
  obtain ⟨order, hperm, -, rfl⟩ := h
  rwa [List.take_of_length_le (hperm.length_eq ▸ hle)]

theorem Loaded.eq_nil_iff (h : Loaded path files rows) : rows = [] ↔ files = [] := by
  obtain ⟨order, hperm, -, rfl⟩ := h
  rw [List.take_eq_nil_iff, or_iff_right (by decide)]
  constructor
  · rintro rfl
    exact hperm.nil_eq.symm
  · rintro rfl
    exact hperm.eq_nil

/-- **Which file is read.** -/
theorem best_of_loaded (h : Loaded path files rows) {best : ResolvedSourceFile}
    {others : List ResolvedSourceFile} (hresolved : resolveSourceFile path rows = best :: others) :
    Best path files best := by
  have hperm : (best :: others).Perm rows := hresolved ▸ List.perm_insertionSort _ rows
  have hsorted : (best :: others).Pairwise fun a b => a.key path ≤ b.key path :=
    hresolved ▸ List.pairwise_insertionSort _ rows
  have hleast : ∀ r ∈ rows, best.key path ≤ r.key path := by
    intro r hr
    rcases List.mem_cons.mp (hperm.symm.subset hr) with rfl | hr
    · exact le_refl _
    · exact (List.pairwise_cons.mp hsorted).1 r hr
  refine ⟨h.subset (hperm.subset List.mem_cons_self), fun f hf hexact => ?_, fun hle f hf => ?_⟩
  · obtain ⟨r, hr, hpath⟩ := h.exists_exact hf hexact
    -- no other path comes before the very path
    by_contra hne
    have hle := hleast r hr
    unfold ResolvedSourceFile.key at hle
    rw [if_pos hpath, if_neg hne, Prod.Lex.toLex_le_toLex] at hle
    omega
  · exact hleast f ((h.perm hle).symm.subset hf)

end Resolve

/-! ### The tool -/

/-- `AsklReadArgs`; a `usize` has 64 bits. -/
structure AsklReadArgs where
  file : Text
  project : Option Text
  startLine : Option UInt64
  endLine : Option UInt64

namespace AsklReadArgs

/-- `start_line`, the first line that is read. -/
def firstLine (args : AsklReadArgs) : ℕ := max ((args.startLine.map (·.toNat)).getD 1) 1

/-- `end_line`, the last line that is asked for in a file of so many lines. -/
def lastLine (args : AsklReadArgs) (lineCount : ℕ) : ℕ :=
  max ((args.endLine.map (·.toNat)).getD lineCount) args.firstLine

end AsklReadArgs

/-- The bytes from the first line up to the line after the last; `end_line + 1` wraps around. -/
def readSlice (args : AsklReadArgs) (content : Bytes) : Option Bytes :=
  let lineCount := (LineIndex.new content).lineStarts.length
  (lineToOffset content args.firstLine).map fun start =>
    let next := lineToOffset content ((args.lastLine lineCount + 1) % 2 ^ 64)
    (content.take (max (next.getD content.length) start)).drop start

/-- `ToolOutput`. -/
structure ToolOutput where
  text : Text
  isError : Bool
  deriving DecidableEq, Repr

/-- `error_md`. -/
def ToolOutput.errorMd (message : Text) : ToolOutput :=
  ⟨"# Error\n".toList ++ message ++ ['\n'], true⟩

/-- `lang_for_path`. -/
def langForPath (path : Text) : Text :=
  match String.ofList (path.reverse.takeWhile (· ≠ '.')).reverse with
  | "c" | "h" => "c".toList
  | "cc" | "cpp" | "cxx" | "hpp" | "hh" => "cpp".toList
  | "go" => "go".toList
  | "rs" => "rust".toList
  | "py" => "python".toList
  | "js" | "jsx" => "javascript".toList
  | "ts" | "tsx" => "typescript".toList
  | "java" => "java".toList
  | "sh" => "bash".toList
  | _ => "text".toList

/-- The files that were not read. -/
def otherMatches (args : AsklReadArgs) (chosen : ResolvedSourceFile)
    (others : List ResolvedSourceFile) : Text :=
  if others.isEmpty then []
  else "\n_".toList ++ natText (others.length + 1) ++ " files matched \x60".toList ++ args.file ++
    "\x60; showed \x60".toList ++ chosen.filesystemPath ++
    "\x60. Other matches (re-read with a longer path or \x60project\x60):_\n".toList ++
    others.flatMap fun other => "- \x60".toList ++ other.filesystemPath ++
      "\x60 (project ".toList ++ other.projectName ++ ")\n".toList

/-- The report about some bytes of a file of so many lines. -/
def readReport (args : AsklReadArgs) (chosen : ResolvedSourceFile)
    (others : List ResolvedSourceFile) (lineCount : ℕ) (bytes : Bytes) : Text :=
  let shownEnd := min (args.lastLine lineCount) (max lineCount args.firstLine)
  let md := "# ".toList ++ chosen.filesystemPath ++ ':' :: natText args.firstLine ++
    '-' :: natText shownEnd ++ "\n\n\x60\x60\x60".toList ++ langForPath chosen.filesystemPath ++
    '\n' :: lossyText bytes
  md ++ (if md.getLast? = some '\n' then [] else ['\n']) ++ "\x60\x60\x60\n".toList ++
    otherMatches args chosen others

/-- The messages of `tool_askl_read`. -/
def noFileMessage (args : AsklReadArgs) : Text :=
  "No file matching '".toList ++ args.file ++ "'".toList ++
    (args.project.elim [] fun p => " in project '".toList ++ p ++ ['\'']) ++
    " found in the index.".toList

def pastEndMessage (args : AsklReadArgs) (chosen : ResolvedSourceFile) (lineCount : ℕ) : Text :=
  '\'' :: chosen.filesystemPath ++ "' has ".toList ++ natText lineCount ++
    " lines; start_line ".toList ++ natText args.firstLine ++ " is past the end.".toList

/-- `tool_askl_read`, with the rows that the database hands out or its error. -/
def toolAsklRead (db : LocDatabase) (args : AsklReadArgs)
    (loaded : Except Text (List ResolvedSourceFile)) : ToolOutput :=
  match loaded.map (resolveSourceFile args.file) with
  | .error err => .errorMd ("Failed to resolve '".toList ++ args.file ++ "': ".toList ++ err)
  | .ok [] => .errorMd (noFileMessage args)
  | .ok (chosen :: others) => match getFileContentsBytesOn db chosen.objectId with
    | .error err => .errorMd ("Failed to read '".toList ++ chosen.filesystemPath ++
        "': ".toList ++ err.message.toList)
    | .ok content =>
      let lineCount := (LineIndex.new content).lineStarts.length
      match readSlice args content with
      | none => .errorMd (pastEndMessage args chosen lineCount)
      | some bytes => ⟨readReport args chosen others lineCount bytes, false⟩

theorem lineStarts_length (content : Bytes) :
    (LineIndex.new content).lineStarts.length = (fileLines content).length := by
  rw [length_fileLines]
  exact congrArg (· + 1) (length_lineStartsFrom 0 content)

/-- The lines up to one are the bytes before the next. -/
theorem take_fileLines (content : Bytes) (n : ℕ) :
    content.take ((fileLines content).take n).flatten.length =
      ((fileLines content).take n).flatten := by
  have hsplit : ((fileLines content).take n).flatten ++ ((fileLines content).drop n).flatten =
      content := by
    rw [← List.flatten_append, List.take_append_drop, flatten_fileLines]
  exact List.prefix_iff_eq_take.mp ⟨_, hsplit⟩ |>.symm

theorem length_take_fileLines_mono (content : Bytes) {m n : ℕ} (h : m ≤ n) :
    ((fileLines content).take m).flatten.length ≤ ((fileLines content).take n).flatten.length :=
  (List.Sublist.flatten (List.take_sublist_take_left h)).length_le

/-- The bytes between two lines are the lines from the one to the other. -/
theorem drop_take_fileLines (content : Bytes) {m n : ℕ} (h : m ≤ n) :
    (content.take ((fileLines content).take n).flatten.length).drop
        ((fileLines content).take m).flatten.length =
      (((fileLines content).take n).drop m).flatten := by
  have hsplit : ((fileLines content).take n).flatten =
      ((fileLines content).take m).flatten ++ (((fileLines content).take n).drop m).flatten := by
    have happend := List.take_append_drop m ((fileLines content).take n)
    rw [List.take_take, min_eq_left h] at happend
    rw [← List.flatten_append, happend]
  rw [take_fileLines, hsplit, List.drop_left]

namespace AsklReadArgs

theorem firstLine_pos (args : AsklReadArgs) : 0 < args.firstLine :=
  lt_of_lt_of_le Nat.one_pos (le_max_right _ _)

theorem firstLine_lt (args : AsklReadArgs) : args.firstLine < 2 ^ 64 := by
  have hstart : (args.startLine.map (·.toNat)).getD 1 < 2 ^ 64 := by
    cases args.startLine with
    | none => decide
    | some line => exact line.toNat_lt
  exact max_lt hstart (by decide)

theorem firstLine_le_lastLine (args : AsklReadArgs) (lineCount : ℕ) :
    args.firstLine ≤ args.lastLine lineCount := le_max_right _ _

theorem lastLine_lt (args : AsklReadArgs) {lineCount : ℕ} (h : lineCount < 2 ^ 64) :
    args.lastLine lineCount < 2 ^ 64 := by
  have hend : (args.endLine.map (·.toNat)).getD lineCount < 2 ^ 64 := by
    cases args.endLine with
    | none => exact h
    | some line => exact line.toNat_lt
  exact max_lt hend args.firstLine_lt

end AsklReadArgs

/-- A last line that the file has ends where the next begins; otherwise all is read, also when
the number of the next line wraps around. -/
theorem lineToOffset_next {content : Bytes} (hsize : content.length < 2 ^ 63) {last : ℕ}
    (hlast : last < 2 ^ 64) :
    (lineToOffset content ((last + 1) % 2 ^ 64)).getD content.length =
      ((fileLines content).take last).flatten.length := by
  have hcount : content.count 10 ≤ content.length := List.count_le_length
  rcases Nat.lt_or_ge last (fileLines content).length with hlt | hge
  · rw [length_fileLines] at hlt
    rw [Nat.mod_eq_of_lt (by omega), lineToOffset_fileLines (by rwa [length_fileLines])]
    rfl
  · rw [List.take_of_length_le hge, flatten_fileLines]
    rw [length_fileLines] at hge
    rcases Nat.lt_or_ge (last + 1) (2 ^ 64) with hfits | hwraps
    · rw [Nat.mod_eq_of_lt hfits, lineToOffset_eq_none (by omega)]
      rfl
    · rw [show last + 1 = 2 ^ 64 by omega, Nat.mod_self]
      rfl

/-- **The bytes that are read are the lines**, as far as the file has them. -/
theorem readSlice_eq (args : AsklReadArgs) {content : Bytes} (hsize : content.length < 2 ^ 63) :
    readSlice args content =
      if args.firstLine ≤ (fileLines content).length then
        some (((fileLines content).take (args.lastLine (fileLines content).length)).drop
          (args.firstLine - 1)).flatten
      else none := by
  have hcount : content.count 10 ≤ content.length := List.count_le_length
  have hlast : args.lastLine (fileLines content).length < 2 ^ 64 := by
    apply args.lastLine_lt
    rw [length_fileLines]
    omega
  have hfirst := args.firstLine_pos
  have hle := args.firstLine_le_lastLine (fileLines content).length
  unfold readSlice
  rw [lineStarts_length]
  dsimp only
  rw [lineToOffset_next hsize hlast]
  split
  · next hhas =>
    have hstart : lineToOffset content args.firstLine =
        some ((fileLines content).take (args.firstLine - 1)).flatten.length := by
      rw [← lineToOffset_fileLines (by omega), Nat.sub_add_cancel hfirst]
    have hbefore : args.firstLine - 1 ≤ args.lastLine (fileLines content).length := by omega
    rw [hstart, Option.map_some, max_eq_left (length_take_fileLines_mono content hbefore),
      drop_take_fileLines content hbefore]
  · next hnot =>
    rw [length_fileLines] at hnot
    rw [lineToOffset_eq_none (by omega)]
    rfl

/-- **What the tool answers**, whichever of the files the database hands out: without a file that
matches an error; otherwise some lines of one of the files, whose path is or ends with the one
asked for and which is the best as far as this is known, or an error when the first line is past
its end. -/
theorem toolAsklRead_eq (db : LocDatabase) (args : AsklReadArgs) {rows : List ResolvedSourceFile}
    (hloaded : Loaded args.file (sourceFiles db.store args.file args.project) rows) :
    (sourceFiles db.store args.file args.project = [] →
      toolAsklRead db args (.ok rows) = .errorMd (noFileMessage args)) ∧
    (sourceFiles db.store args.file args.project ≠ [] →
      ∃ best others, (best :: others).Perm rows ∧
        Best args.file (sourceFiles db.store args.file args.project) best ∧
        OnBoundary args.file best.filesystemPath ∧
        ∀ content, getFileContentsBytesOn db best.objectId = .ok content →
          content.length < 2 ^ 63 →
          let lines := fileLines content
          toolAsklRead db args (.ok rows) =
            if args.firstLine ≤ lines.length then
              ⟨readReport args best others lines.length
                ((lines.take (args.lastLine lines.length)).drop (args.firstLine - 1)).flatten,
                false⟩
            else .errorMd (pastEndMessage args best lines.length)) := by
  constructor
  · intro hnone
    obtain rfl := hloaded.eq_nil_iff.mpr hnone
    rfl
  · intro hsome
    have hrows : resolveSourceFile args.file rows ≠ [] := by
      intro hnil
      have hlength : (resolveSourceFile args.file rows).length = rows.length :=
        List.length_insertionSort _ _
      rw [hnil] at hlength
      exact hsome (hloaded.eq_nil_iff.mp (List.length_eq_zero_iff.mp hlength.symm))
    obtain ⟨best, others, hresolved⟩ := List.exists_cons_of_ne_nil hrows
    have hbest := best_of_loaded hloaded hresolved
    obtain ⟨o, -, p, -, -, -, hboundary, -, hfile⟩ := mem_sourceFiles.mp hbest.mem
    refine ⟨best, others, hresolved ▸ List.perm_insertionSort _ rows, hbest,
      hfile ▸ hboundary, fun content hcontent hsize => ?_⟩
    unfold toolAsklRead
    rw [Except.map, hresolved]
    dsimp only
    rw [hcontent]
    dsimp only
    rw [readSlice_eq args hsize, lineStarts_length]
    by_cases hhas : args.firstLine ≤ (fileLines content).length
    · rw [if_pos hhas, if_pos hhas]
    · rw [if_neg hhas, if_neg hhas]

/-- A project with two files `x`, one of them in a directory. -/
def twoFiles : LocDatabase where
  store := { Store.initial [1] with
    projects := [⟨1, ['a'], ['/', 'a'], .complete, none, none, 3⟩]
    objects := [⟨1, 1, [], ['/', 'a', '/', 'b', '/', 'x'], [], ['g'], 3⟩,
      ⟨2, 1, [], ['/', 'a', '/', 'x'], [], ['h'], 3⟩]
    contentStore := [⟨['g'], []⟩, ⟨['h'], [98, 10, 97]⟩]
    nextProjectId := 2
    nextRootLayerId := 4 }
  objectContents _ := none
  ltreeAccepts _ := true

/-- The second line of `x`, and those after it. -/
def fromSecondLine : AsklReadArgs := ⟨['x'], none, some 2, none⟩

/-- The file with the shorter path is read, although the database hands it out last. -/
theorem toolAsklRead_twoFiles :
    toolAsklRead twoFiles fromSecondLine (.ok (sourceFiles twoFiles.store ['x'] none)) =
      ⟨readReport fromSecondLine ⟨2, ['a'], ['/', 'a', '/', 'x']⟩
        [⟨1, ['a'], ['/', 'a', '/', 'b', '/', 'x']⟩] 2 [97], false⟩ := by
  have hfiles : sourceFiles twoFiles.store ['x'] none =
      [⟨1, ['a'], ['/', 'a', '/', 'b', '/', 'x']⟩, ⟨2, ['a'], ['/', 'a', '/', 'x']⟩] := by
    decide +kernel
  have hloaded : Loaded ['x'] (sourceFiles twoFiles.store ['x'] none)
      (sourceFiles twoFiles.store ['x'] none) := by
    rw [hfiles]
    exact ⟨_, .refl _, by simp, rfl⟩
  have hsome : sourceFiles twoFiles.store ['x'] none ≠ [] := by
    rw [hfiles]
    exact List.cons_ne_nil _ _
  obtain ⟨best, others, hperm, hbest, -, hread⟩ :=
    (toolAsklRead_eq twoFiles fromSecondLine hloaded).2 hsome
  change Best ['x'] (sourceFiles twoFiles.store ['x'] none) best at hbest
  rw [hfiles] at hperm hbest
  have hleast := hbest.least (by decide) ⟨2, ['a'], ['/', 'a', '/', 'x']⟩ (by simp)
  rcases List.mem_pair.mp hbest.mem with rfl | rfl
  · exact absurd hleast (by decide +kernel)
  · have hothers : others.Perm [⟨1, ['a'], ['/', 'a', '/', 'b', '/', 'x']⟩] :=
      (hperm.trans (.swap _ _ _)).cons_inv
    obtain rfl := List.perm_singleton.mp hothers
    have hcontent : getFileContentsBytesOn twoFiles 2 = .ok [98, 10, 97] := by rfl
    exact (hread _ hcontent (by decide)).trans (if_pos (by decide))

end Askl
