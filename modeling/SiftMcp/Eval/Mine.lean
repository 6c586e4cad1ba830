import SiftMcp.Indexing.Chunker
import SiftMcp.Retrieval.Lexical

/-!
# Labels from documentation

`mine_docstrings` takes first lines of documentation for queries, and `build_held_out_index` stores
the chunks without their documentation, so that a query is not in what it is to find.

Of the lines of a comment only those of two kinds are removed; `heldOut_iff` says for which chunks
this is enough.
-/

namespace SiftMcp
open Text

inductive LabelSource
  | commitSubject | docstring
deriving DecidableEq

structure Label where
  query : String
  /-- Expected answers as (file, qualified symbol), matching ChunkRecord. -/
  expected : List (String × String)
  source : LabelSource
  /-- Commit hash, or file:symbol for docstrings. -/
  provenance : String
deriving DecidableEq

/-- Why a commit was rejected. -/
inductive RejectReason
  | merge
  | tooManySymbols (count : Nat)
  | subjectTooShort (words : Nat)
  | maintenancePattern (pattern : String)
  | noSymbolsTouched
  | symbolsNotIndexed (missing : Nat)

def RejectReason.ruleName : RejectReason → String
  | merge => "merge"
  | tooManySymbols _ => "too_many_symbols"
  | subjectTooShort _ => "subject_too_short"
  | maintenancePattern _ => "maintenance_pattern"
  | noSymbolsTouched => "no_symbols_touched"
  | symbolsNotIndexed _ => "symbols_not_indexed"

structure MiningReport where
  commitsExamined : Nat
  labelsAccepted : Nat
  rejected : List (String × Nat)
deriving DecidableEq

namespace MiningReport

def new : MiningReport := ⟨0, 0, []⟩

def reject (report : MiningReport) (reason : RejectReason) : MiningReport :=
  { report with rejected := bump report.rejected }
where
  bump : List (String × Nat) → List (String × Nat)
    | [] => [(reason.ruleName, 1)]
    | (rule, n) :: rest =>
      if rule = reason.ruleName then (rule, n + 1) :: rest else (rule, n) :: bump rest

end MiningReport

/-! ## Queries -/

/-- The query that is taken from a record. -/
def docstringQuery (rec : ChunkRecord) : Option String :=
  if rec.symbol = String.ofList preludeSymbol then none else rec.docFirstLine

/-- Where the loops of `mine_docstrings` stand. -/
structure Mining where
  report : MiningReport
  labels : List Label
  seen : List (String × String)

namespace Mining

def push (m : Mining) (rec : ChunkRecord) (doc : String) : Mining :=
  let key := (rec.file, rec.symbol)
  { report := { m.report with labelsAccepted := m.report.labelsAccepted + 1 }
    labels := m.labels ++ [{
      query := doc
      expected := [key]
      source := .docstring
      provenance := s!"{rec.file}:{rec.symbol}" }]
    seen := key :: m.seen }

def examine (m : Mining) : Mining :=
  { m with report := { m.report with commitsExamined := m.report.commitsExamined + 1 } }

/-- A turn of the loop over the live rows; `none` is a row without a record. -/
def row (m : Mining) : Option ChunkRecord → Mining
  | none => m.examine
  | some rec =>
    if rec.symbol = String.ofList preludeSymbol then m.examine
    else
      match rec.docFirstLine with
      | none => { m.examine with report := m.examine.report.reject .noSymbolsTouched }
      | some doc => if (rec.file, rec.symbol) ∈ m.seen then m.examine else m.examine.push rec doc

/-- A turn of the loop over the chunks of the worktree. -/
def chunk (m : Mining) (rec : ChunkRecord) : Mining :=
  if rec.symbol = String.ofList preludeSymbol then m
  else
    match rec.docFirstLine with
    | none => m
    | some doc => if (rec.file, rec.symbol) ∈ m.seen then m else m.examine.push rec doc

end Mining

/-- The labels of the live rows of a store and of the chunks of the worktree. -/
def mineDocstrings (rows : List (Option ChunkRecord)) (chunks : List FragmentChunk) :
    List Label × MiningReport :=
  let m := rows.foldl Mining.row ⟨.new, [], []⟩
  let m := chunks.foldl (fun m c => m.chunk c.record) m
  (m.labels.insertionSort fun a b => a.provenance ≤ b.provenance, m.report)

/-! ## The held-out index -/

namespace Mine

def isDocCommentLine (line : Text) : Bool :=
  "///".toList.isPrefixOf (trimStart line) || "//!".toList.isPrefixOf (trimStart line)

/-- Strip doc-comment lines so docstring queries are not present in the index. -/
def stripDocComments (body : Text) : Text :=
  joinLines ((lines body).filter fun line => !isDocCommentLine line)

end Mine

/-- What the held-out index takes over of a chunk: its record and its text. -/
def heldOutEntry (c : FragmentChunk) : Option (ChunkRecord × String) :=
  let body := Mine.stripDocComments c.body.toList
  if trim body = [] then none
  else some ({ c.record with docFirstLine := none }, String.ofList body)

def heldOutDoc (entry : ChunkRecord × String) : LexicalDoc :=
  { symbol := entry.1.symbol
    signature := entry.1.signature
    docFirstLine := none
    file := entry.1.file
    body := entry.2 }

/-- No line of what is stored of a chunk is the query that is taken from it. -/
def HeldOut (c : FragmentChunk) : Prop :=
  ∀ query entry, docstringQuery c.record = some query → heldOutEntry c = some entry →
    ∀ l ∈ (heldOutDoc entry).body.toList.splitOn '\n', trim l ≠ query.toList

/-! ## Where queries come from -/

variable {m : Mining} {rec : ChunkRecord} {rows : List (Option ChunkRecord)}
  {chunks : List FragmentChunk} {label : Label} {l body : Text}

/-! ## What is stripped -/

namespace Mine

/-- Blanks at the end do not matter to a mark without blanks. -/
theorem isPrefixOf_append_blank {mark w : Text} (hmark : mark.any isWhitespace = false)
    (hw : Blank w) : mark.isPrefixOf (l ++ w) = mark.isPrefixOf l := by
  rw [Bool.eq_iff_iff, List.isPrefixOf_iff_prefix, List.isPrefixOf_iff_prefix]
  refine ⟨fun h => ?_, fun h => h.trans (List.prefix_append l w)⟩
  by_cases hlen : mark.length ≤ l.length
  · exact List.prefix_of_prefix_length_le h (List.prefix_append l w) hlen
  · obtain ⟨y, rfl⟩ := List.prefix_of_prefix_length_le (List.prefix_append l w) h (by omega)
    cases y with
    | nil => exact absurd (Nat.le_of_eq (by rw [List.append_nil])) hlen
    | cons c y =>
      have hc := Bool.eq_false_iff.mpr (List.any_eq_false.mp hmark c (by simp))
      obtain ⟨r, hr⟩ := (List.prefix_append_right_inj l).mp h
      rw [hw c (by rw [← hr]; exact List.mem_cons_self)] at hc
      cases hc

theorem isDocCommentLine_trim : isDocCommentLine (trim l) = isDocCommentLine l := by
  obtain ⟨w, hw, hl⟩ := @exists_trimEnd (trimStart l)
  have hl : trimStart l = trim l ++ w := hl
  unfold isDocCommentLine
  rw [trimStart_trim, hl, isPrefixOf_append_blank (by decide) hw,
    isPrefixOf_append_blank (by decide) hw]

/-- The lines of what is left are the lines that are not stripped. -/
theorem splitOn_stripDocComments (h : stripDocComments body ≠ []) :
    (stripDocComments body).splitOn '\n' = (lines body).filter fun line =>
      !isDocCommentLine line := by
  unfold stripDocComments joinLines at h ⊢
  apply List.splitOn_intercalate
  · intro l hl
    exact lineFeed_not_mem_lines (List.mem_of_mem_filter hl)
  · intro hnil
    rw [hnil] at h
    exact h rfl

end Mine

/-- The lines that are stored of a chunk are those that are not stripped. -/
theorem eq_of_heldOutEntry {c : FragmentChunk} {entry : ChunkRecord × String}
    (h : heldOutEntry c = some entry) : entry.1 = { c.record with docFirstLine := none } ∧
      entry.2.toList.splitOn '\n' =
        (lines c.body.toList).filter fun line => !Mine.isDocCommentLine line := by
  unfold heldOutEntry at h
  dsimp only at h
  split at h
  · cases h
  · next hne =>
    obtain rfl := Option.some.inj h
    have hstored : Mine.stripDocComments c.body.toList ≠ [] := by
      intro hnil
      rw [hnil] at hne
      exact hne rfl
    refine ⟨rfl, ?_⟩
    rw [String.toList_ofList, Mine.splitOn_stripDocComments hstored]

/-- The query is held out exactly if it begins like a line that is stripped, or is no line of the
chunk in the first place. -/
theorem heldOut_iff (c : FragmentChunk) : HeldOut c ↔
    ∀ query entry, docstringQuery c.record = some query → heldOutEntry c = some entry →
      Mine.isDocCommentLine query.toList = true ∨
        ∀ l ∈ lines c.body.toList, trim l ≠ query.toList := by
  refine forall₄_congr fun query entry _ hentry => ?_
  show (∀ l ∈ entry.2.toList.splitOn '\n', _) ↔ _
  rw [(eq_of_heldOutEntry hentry).2]
  constructor
  · intro h
    by_cases hdoc : Mine.isDocCommentLine query.toList = true
    · exact .inl hdoc
    · refine .inr fun l hl heq => h l (List.mem_filter.mpr ⟨hl, ?_⟩) heq
      rw [← Mine.isDocCommentLine_trim, heq]
      simpa using hdoc
  · rintro (hdoc | h) l hl heq
    · have hkept := (List.mem_filter.mp hl).2
      rw [← Mine.isDocCommentLine_trim, heq, hdoc] at hkept
      cases hkept
    · exact h l (List.mem_of_mem_filter hl) heq

/-! ## A comment that is not stripped -/

/-- A Python function with a comment above it. -/
def commentSource : Text := "# adds one\ndef f(x):\n    return x + 1\n".toList

def commentTree : SyntaxTree commentSource where
  root := .plain "module" 0 38 [.plain "comment" 0 10 [], .plain "function_definition" 11 37 [
    .plain "identifier" 15 16 [], .plain "parameters" 16 19 [],
    .plain "block" 25 37 [.plain "return_statement" 25 37 []]]]
  spans := SyntaxNode.forall_within_iff.mpr (by decide +kernel)

def commentParser : TreeSitter :=
  commentTree.parser [[⟨"def", [1], [[0]]⟩, ⟨"name", [1, 0], []⟩]]

def commentChunk : FragmentChunk where
  record := {
    repository := ""
    file := "a.py"
    language := "python"
    symbol := "f"
    symbolType := "function"
    signature := "def f(x):"
    docFirstLine := some "# adds one"
    lineStart := 1
    lineEnd := 3
    contentHash := ⟨0⟩ }
  body := "# adds one\ndef f(x):\n    return x + 1"
  fragment := none

theorem comment_not_heldOut :
    chunkFile (fun _ => ⟨0⟩) "a.py" .python commentParser commentSource =
      some ⟨[commentChunk], []⟩ ∧
    ¬HeldOut commentChunk := by
  refine ⟨by decide +kernel, fun h => ?_⟩
  have hline := h "# adds one" _ rfl (show heldOutEntry commentChunk =
    some ({ commentChunk.record with docFirstLine := none }, commentChunk.body) by decide +kernel)
    "# adds one".toList (by decide +kernel)
  exact hline (by decide)

end SiftMcp
