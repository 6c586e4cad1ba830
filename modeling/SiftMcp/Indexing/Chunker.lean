import SiftMcp.Indexing.Collect
import SiftMcp.Indexing.Hash
import SiftMcp.Indexing.SyntaxTree
import Mathlib.Algebra.GroupWithZero.Nat
import Mathlib.Data.List.Sort

/-!
# The chunker

`chunk_file` and its helpers, on the tree that the parser gives for the text. A slice that is out of
bounds or not at the boundaries of characters panics: `none` is the panic. The offsets of the parser
have 32 bits, so that line numbers fit as well, and the quotient of the error check is exact.
-/

namespace SiftMcp
open Text StackSearch
open String (utf8Len)

/-- Character-count approximation of the model's 512-token context. -/
def oversizeCharThreshold : Nat := 2048

/-- Minimum size for a synthetic `file_prelude` chunk. -/
def filePreludeMinChars : Nat := 80

/-- A chunk as the chunker gives it. `fragment` is the number of the piece where a symbol was
split. -/
structure FragmentChunk extends Chunk where
  fragment : Option Nat
deriving DecidableEq

structure ChunkedFile where
  chunks : List FragmentChunk
  diagnostics : List String
deriving DecidableEq

structure SymbolHit where
  kind : String
  name : Text
  /-- With the attached documentation. -/
  range : ByteRange
  nodeRange : ByteRange
  startLine : Nat
  endLine : Nat
  docFirstLine : Option Text
  isContainer : Bool
deriving DecidableEq

/-! ## Kinds of nodes -/

def containerKinds : Language → List String
  | .rust => ["impl_item", "mod_item", "struct_item", "trait_item", "enum_item"]
  | .python => ["class_definition"]
  | .typeScript | .javaScript => ["class_declaration"]
  | .go => ["type_declaration", "type_spec"]
  | .c => ["struct_specifier"]
  | .cpp => ["class_specifier", "struct_specifier"]

def statementKinds : Language → List String
  | .rust => ["let_declaration", "expression_statement", "return_expression", "if_expression",
      "match_expression", "for_expression", "while_expression", "loop_expression"]
  | .python => ["expression_statement", "return_statement", "if_statement", "for_statement",
      "while_statement", "with_statement", "assignment"]
  | .typeScript | .javaScript => ["expression_statement", "return_statement", "if_statement",
      "for_statement", "while_statement", "lexical_declaration", "variable_declaration"]
  | .go => ["expression_statement", "return_statement", "if_statement", "for_statement",
      "short_var_declaration", "assignment_statement"]
  | .c | .cpp => ["expression_statement", "return_statement", "if_statement", "for_statement",
      "while_statement", "declaration"]

def mapKind (kind : String) : String :=
  if kind ∈ ["function_item", "function_definition", "function_declaration", "method_definition",
    "method_declaration", "function"] then "function"
  else if kind ∈ ["struct_item", "struct_specifier"] then "struct"
  else if kind ∈ ["type_declaration", "type_spec"] then "type"
  else if kind ∈ ["class_definition", "class_declaration", "class_specifier"] then "class"
  else if kind = "impl_item" then "impl"
  else if kind ∈ ["mod_item", "module", "internal_module"] then "module"
  else if kind ∈ ["enum_item", "enum_specifier"] then "enum"
  else if kind ∈ ["trait_item", "interface_declaration"] then "trait"
  else kind

/-! ## Lines of offsets -/

def byteToLine (source : Text) (byte : Nat) : Option Nat :=
  (source.slice? 0 (min byte (utf8Len source))).map fun t => t.count '\n' + 1

def lineSpan (source : Text) (start stop : Nat) : Option (Nat × Nat) := do
  let startLine ← byteToLine source start
  let endLine ← if stop = 0 then some startLine else byteToLine source (max (stop - 1) start)
  return (startLine, endLine)

/-! ## Attached documentation -/

def isDocCommentLine (line : Text) : Bool :=
  ["///", "//!", "/**", "/*!", "*", "*/", "/*", "//", "#"].any fun mark =>
    mark.toList.isPrefixOf line

/-- The loop over the bytes at the end takes only bytes that are characters of their own. -/
def trimBlanks (before : Text) : Text :=
  before.rdropWhile fun c => c = ' ' ∨ c = '\t' ∨ c = '\n' ∨ c = '\r'

/-- The loop over the lines from the last one up: the lines above those it has taken, from below,
and those it has taken, in order. -/
def takeCommentLines : List Text → List Text → List Text × List Text
  | [], taken => ([], taken)
  | l :: above, taken =>
    if trim l = [] ∧ taken = [] then takeCommentLines above taken
    else if isDocCommentLine (trim l) then takeCommentLines above (l :: taken)
    else (l :: above, taken)

/-- The offset of line `idx` as the code adds it up. `size` is the length of all of the text. -/
def lineOffset (size : Nat) : Nat → List Text → Nat → Option Nat
  | _, [], _ => none
  | 0, _ :: _, off => some off
  | idx + 1, l :: ls, off =>
    lineOffset size idx ls (if off + utf8Len l < size then off + utf8Len l + 1 else off + utf8Len l)

def isComment (kind : String) : Bool := (rfind? "comment".toList kind.toList).isSome

/-- Fallback using tree sibling comments. -/
def siblingDoc (source : Text) (firstLine : Option Text) :
    List SyntaxNode → Option (Option Nat × Option Text)
  | [] => some (none, firstLine)
  | p :: before =>
    if isComment p.kind then do
      let text ← p.byteRange.slice? source
      if before.head?.any (isComment ·.kind) then siblingDoc source firstLine before
      else return (some p.startByte, (lines text).head?.map trim)
    else some (none, firstLine)

/-- The start of the documentation, and its first line. -/
def attachedDoc (source : Text) (startByte : Nat) (prev : List SyntaxNode) :
    Option (Option Nat × Option Text) := do
  let before ← source.slice? 0 startByte
  let slice := trimBlanks before
  let ls := lines slice
  let (above, taken) := takeCommentLines ls.reverse []
  let (docStart, firstLine) :=
    match taken with
    | [] => (none, none)
    | first :: _ =>
      if (rfind? first slice).isSome then
        (lineOffset (utf8Len before) above.length ls 0, some (trim first))
      else (none, none)
  if docStart.isNone then siblingDoc source firstLine prev else return (docStart, firstLine)

/-! ## Symbols -/

/-- `n.rsplit("::").next()` -/
def lastSegment (name : Text) : Text := (upTo name.reverse).reverse
where
  upTo : Text → Text
    | ':' :: ':' :: _ => []
    | c :: t => c :: upTo t
    | [] => []

/-- What the captures of a match have given so far. -/
structure Captured where
  name : Option Text
  recv : Option Text
  definition : Option (SyntaxNode × List SyntaxNode)

def takeCapture {source : Text} {tree : SyntaxTree source} (m : Captured) (cap : Capture tree) :
    Option Captured :=
  match cap.name with
  | "name" => do return { m with name := some (← cap.node.byteRange.slice? source) }
  | "recv" => do return { m with recv := some (← cap.node.byteRange.slice? source) }
  | "def" => some { m with definition := some (cap.node, cap.before) }
  | _ => some m

/-- The symbol of a definition. -/
def hitOf (language : Language) (source name : Text) (node : SyntaxNode)
    (before : List SyntaxNode) : Option SymbolHit := do
  let (docStart, docFirst) ← attachedDoc source node.startByte before
  let startByte := docStart.getD node.startByte
  let startLine ← byteToLine source startByte
  let endLine ← byteToLine source (max (node.endByte - 1) startByte)
  return {
    kind := mapKind node.kind
    name
    range := ⟨startByte, node.endByte⟩
    nodeRange := node.byteRange
    startLine, endLine
    docFirstLine := docFirst
    isContainer := decide (node.kind ∈ containerKinds language) }

/-- The symbol of a match; a match without a name or a definition has none. -/
def matchHit (language : Language) {source : Text} {tree : SyntaxTree source}
    (captures : List (Capture tree)) : Option (Option SymbolHit) := do
  let m ← captures.foldlM takeCapture ⟨none, none, none⟩
  match m.definition, m.name with
  | some (node, before), some name =>
    let name := match m.recv with
      | some recv => recv ++ "::".toList ++ name
      | none => name
    return some (← hitOf language source name node before)
  | _, _ => return none

/-- The simple names of the enclosing containers, the outermost first, before the simple name. -/
def qualifyName (hits : List SymbolHit) (hit : SymbolHit) : SymbolHit :=
  let parents := hits.filter fun p => p.isContainer ∧ p.range.start ≤ hit.range.start ∧
    hit.range.stop ≤ p.range.stop ∧ p.range ≠ hit.range
  let parents := parents.insertionSort fun p q => p.range.start ≤ q.range.start
  if parents = [] then hit
  else
    let simple := parents.map (lastSegment ·.name) ++ [lastSegment hit.name]
    { hit with name := List.intercalate "::".toList simple }

def qualifyNames (hits : List SymbolHit) : List SymbolHit := hits.map (qualifyName hits)

def collectSymbols (ts : TreeSitter) (language : Language) {source : Text}
    (tree : SyntaxTree source) : Option (List SymbolHit) := do
  let hits ← (ts.queryMatches language tree).mapM (matchHit language)
  return qualifyNames (hits.filterMap id)

def orderWithContainers (hits : List SymbolHit) : List SymbolHit :=
  hits.insertionSort fun p q =>
    p.range.start < q.range.start ∨ p.range.start = q.range.start ∧ p.range.stop ≤ q.range.stop

/-! ## Bodies -/

def rangeContains (outer inner : ByteRange) : Bool :=
  outer.start ≤ inner.start && inner.stop ≤ outer.stop && outer ≠ inner

/-- The members of a construct among the symbols. -/
def memberRanges (ordered : List SymbolHit) (hit : SymbolHit) : List ByteRange :=
  (ordered.filter fun m => m.range ≠ hit.range && rangeContains hit.range m.range).map (·.range)

/-- The loop over the members, from `cursor` on. -/
def cutMembers (source : Text) (stop : Nat) : List ByteRange → Nat → Option Text
  | [], cursor => if cursor < stop then source.slice? cursor stop else some []
  | m :: ms, cursor => do
    let piece ← if m.start > cursor ∧ m.start ≤ stop then source.slice? cursor m.start else some []
    let rest ← cutMembers source stop ms (max cursor m.stop)
    return piece ++ rest

def bodyMinusMembers (source : Text) (outer : ByteRange) (members : List ByteRange) : Option Text :=
  cutMembers source outer.stop (members.insertionSort fun p q => p.start ≤ q.start) outer.start

def firstSignatureLine (source : Text) (nodeRange : ByteRange) : Option Text := do
  let text ← nodeRange.slice? source
  return trim ((((lines text).map trimEnd).find? (trim · ≠ [])).getD [])

def bodyOfHit (source : Text) (ordered : List SymbolHit) (hit : SymbolHit) : Option Text :=
  let members := memberRanges ordered hit
  if hit.isContainer ∧ members ≠ [] then bodyMinusMembers source hit.range members
  else hit.range.slice? source

/-! ## Splitting -/

def prefixSig (signature body : Text) : Text :=
  if signature.isPrefixOf body then body else signature ++ '\n' :: body

def stripSigPrefix (text signature : Text) : Text :=
  match stripPrefix? signature text with
  | some s => (stripPrefix? ['\n'] s).getD s
  | none => text

/-- The buffer of the loop over the lines, and the fragments it has given out. -/
def hardSplitLines (signature : Text) : List Text → Text → List Text → List Text × Text
  | [], buf, out => (out, buf)
  | l :: ls, buf, out =>
    let full := buf ≠ [] ∧ buf.length + l.length + 1 > oversizeCharThreshold
    let out := if full then out ++ [prefixSig signature buf] else out
    let buf := if full then [] else buf
    let buf := if buf ≠ [] then buf ++ ['\n'] else buf
    hardSplitLines signature ls (buf ++ l) out

def hardSplit (body signature : Text) : List Text :=
  let (out, buf) := hardSplitLines signature (lines body) [] []
  let out := if buf ≠ [] then out ++ [prefixSig signature buf] else out
  if out = [] then [prefixSig signature body] else out

/-- The state of the loop over the statement ends. -/
structure Cutter where
  fragments : List Text
  start : Nat
  lastCut : Nat

/-- A turn of the loop, for a statement that ends at `stop`. -/
def Cutter.turn (full signature : Text) (c : Cutter) (stop : Nat) : Option Cutter :=
  if stop ≤ c.start ∨ stop > utf8Len full then some c
  else do
    let candidate ← full.slice? c.start stop
    if oversizeCharThreshold / 2 ≤ candidate.length ∧ candidate.length ≤ oversizeCharThreshold then
      return ⟨c.fragments ++ [prefixSig signature candidate], stop, stop⟩
    else if candidate.length > oversizeCharThreshold then
      let c ← if c.lastCut > c.start then do
          let piece ← full.slice? c.start c.lastCut
          some ⟨c.fragments ++ [prefixSig signature piece], c.lastCut, c.lastCut⟩
        else some c
      let piece ← full.slice? c.start stop
      return ⟨c.fragments ++ [prefixSig signature piece], stop, stop⟩
    else return { c with lastCut := stop }

/-- What is left behind the last cut: a small rest is merged into the last fragment. -/
def Cutter.finish (full signature : Text) (c : Cutter) : Option (List Text) :=
  if c.start < utf8Len full then do
    let tail ← full.slice? c.start (utf8Len full)
    let rest := trim tail
    if rest = [] then return c.fragments
    else
      match c.fragments.getLast? with
      | some last =>
        if last.length + rest.length ≤ oversizeCharThreshold then
          return c.fragments.dropLast ++
            [prefixSig signature (stripSigPrefix last signature ++ rest)]
        else return c.fragments ++ [prefixSig signature tail]
      | none => return [prefixSig signature tail]
  else some c.fragments

def splitAtEnds (full body signature : Text) (ends : List Nat) : Option (List Text) := do
  let c ← ends.foldlM (Cutter.turn full signature) ⟨[], 0, 0⟩
  let fragments ← c.finish full signature
  return if fragments = [] then hardSplit body signature else fragments

/-- The offsets in the text at which a statement of the subtree ends. -/
def statementEnds (language : Language) (nodeRange : ByteRange) (node : SyntaxNode) : List Nat :=
  let found := node.collect SyntaxNode.children fun n =>
    if n.kind ∈ statementKinds language ∧ n.startByte ≥ nodeRange.start ∧ n.endByte ≤ nodeRange.stop
    then [n.endByte] else []
  (found.insertionSort (· ≤ ·)).dedup

def splitIfOversize (ts : TreeSitter) (language : Language) {source : Text}
    (tree : SyntaxTree source) (hit : SymbolHit) (body signature : Text) : Option (List Text) :=
  if body.length ≤ oversizeCharThreshold then some [body]
  else
    let node :=
      (ts.descendantForByteRange tree hit.nodeRange.start hit.nodeRange.stop).getD tree.root
    let ends := statementEnds language hit.nodeRange node
    if ends = [] then some (hardSplit body signature)
    else do
      let full ← hit.range.slice? source
      splitAtEnds full body signature (ends.map (· - hit.range.start))

/-! ## Prelude -/

def preludeSpan (source : Text) (covered : List ByteRange) : Option ByteRange :=
  match covered.insertionSort fun p q => p.start ≤ q.start with
  | [] => if trim source = [] then none else some ⟨0, utf8Len source⟩
  | first :: _ => if first.start = 0 then none else some ⟨0, first.start⟩

def filePrelude (source : Text) (covered : List ByteRange) : Option (Option Text) :=
  match preludeSpan source covered with
  | none => some none
  | some span => do
    let text := trim (← span.slice? source)
    return if text.length ≥ filePreludeMinChars then some text else none

/-! ## Files -/

/-- At least half of the bytes belong to error nodes. -/
def tooManyErrors (root : SyntaxNode) : Bool :=
  let bad (n : SyntaxNode) := n.isError || n.isMissing
  let found := root.collect (fun n => if bad n then [] else n.children) fun n =>
    if bad n then [n.endByte - n.startByte] else []
  2 * found.sum ≥ max root.endByte 1

section
variable (blake3 : List UInt8 → ContentHash) (relPath : String) (language : Language)

def recordOf (symbol : Text) (symbolType : String) (signature : Text) (docFirstLine : Option Text)
    (lineStart lineEnd : Nat) (body : Text) : ChunkRecord :=
  { repository := ""
    file := replaceBackslash relPath
    language := language.asStr
    symbol := String.ofList symbol
    symbolType
    signature := String.ofList signature
    docFirstLine := docFirstLine.map String.ofList
    lineStart, lineEnd
    contentHash := contentHash blake3 language symbol body }

/-- The chunks of a symbol; `none` within when its body is blank. -/
def chunksOfHit (ts : TreeSitter) {source : Text} (tree : SyntaxTree source)
    (ordered : List SymbolHit) (hit : SymbolHit) : Option (Option (List FragmentChunk)) := do
  let body ← bodyOfHit source ordered hit
  if trim body = [] then return none
  let signature ← firstSignatureLine source hit.nodeRange
  let split := decide (body.length > oversizeCharThreshold)
  let fragments ← splitIfOversize ts language tree hit body signature
  return some (fragments.mapIdx fun i fragBody => {
    record := recordOf blake3 relPath language hit.name hit.kind signature hit.docFirstLine
      hit.startLine hit.endLine fragBody
    body := String.ofList fragBody
    fragment := if split then some i else none })

def preludeSymbol : Text := "<file_prelude>".toList

/-- The chunk of the prelude, where there is one. -/
def preludeChunk (source : Text) (covered : List ByteRange) : Option (List FragmentChunk) := do
  match ← filePrelude source covered with
  | none => return []
  | some prelude =>
    let span := (preludeSpan source covered).getD ⟨0, utf8Len source⟩
    let (startLine, endLine) ← lineSpan source span.start span.stop
    return [{
      record := recordOf blake3 relPath language preludeSymbol "file_prelude"
        [] none startLine endLine prelude
      body := String.ofList prelude
      fragment := none }]

def chunkFile (ts : TreeSitter) (source : Text) : Option ChunkedFile :=
  if !ts.setLanguage language then some ⟨[], [s!"failed to set language for {relPath}"]⟩
  else
    match ts.parse language source with
    | none => some ⟨[], [s!"parse returned no tree for {relPath}"]⟩
    | some tree =>
      if tooManyErrors tree.root then
        some ⟨[], [s!"parse failed for {relPath}: too many error nodes"]⟩
      else do
        let ordered := orderWithContainers (← collectSymbols ts language tree)
        let parts ← ordered.mapM (chunksOfHit blake3 relPath language ts tree ordered)
        let covered := ((ordered.zip parts).filter (·.2.isSome)).map (·.1.range)
        let prelude ← preludeChunk blake3 relPath language source covered
        return ⟨prelude ++ parts.flatMap (·.getD []), []⟩

end

end SiftMcp
