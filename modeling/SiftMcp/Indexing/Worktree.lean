import Mathlib.Data.List.DropRight
import SiftMcp.Storage.Dir

/-!
# Files and languages

A directory tree as the indexer walks it, paths in it, and the language of a path. A path is
relative to the repository root. One that is absolute, or climbs with `..`, leaves the tree: `host`
is what stands there.
-/

namespace SiftMcp

mutual
/-- `other` is neither a file nor a directory. A symbolic link counts as what it points to. -/
inductive FsNode
  | file (bytes : ByteArray)
  | dir (entries : FsEntries)
  | other

/-- The entries of a directory, in the order `read_dir` lists them. -/
inductive FsEntries
  | nil
  | cons (name : String) (node : FsNode) (rest : FsEntries)
end

def FsEntries.toList : FsEntries → List (String × FsNode)
  | nil => []
  | cons name node rest => (name, node) :: rest.toList

def FsEntries.find (name : String) (es : FsEntries) : Option FsNode := es.toList.lookup name

/-- The node at the end of a chain of names. -/
def FsEntries.descend (es : FsEntries) : List String → Option FsNode
  | [] => some (.dir es)
  | [name] => es.find name
  | name :: rest =>
    match es.find name with
    | some (.dir es') => es'.descend rest
    | _ => none

mutual
/-- Number of directories at or below a node. -/
def FsNode.dirs : FsNode → Nat
  | .dir es => es.dirs + 1
  | .file _ | .other => 0

def FsEntries.dirs : FsEntries → Nat
  | .nil => 0
  | .cons _ node rest => node.dirs + rest.dirs
end

/-! ## Paths -/

def Component.name? : Component → Option String
  | .normal name => some name
  | _ => none

/-- `Path::file_name` -/
def pathFileName (path : String) : Option String := (pathComponents path).getLast?.bind (·.name?)

/-- `Path::extension`: what follows the last dot of the file name, unless that dot begins it. -/
def pathExtension (path : String) : Option String := do
  let name ← pathFileName path
  let ext := (name.toList.reverse.takeWhile (· ≠ '.')).reverse
  if name.toList.length ≤ ext.length + 1 then none else some (String.ofList ext)

/-- `str::replace('\\', "/")` -/
def replaceBackslash (s : String) : String :=
  String.ofList (s.toList.map fun c => if c = '\\' then '/' else c)

theorem replaceBackslash_idem (s : String) :
    replaceBackslash (replaceBackslash s) = replaceBackslash s := by
  simp only [replaceBackslash, String.toList_ofList, List.map_map]
  refine congrArg _ (List.map_congr_left fun c _ => ?_)
  simp only [Function.comp_apply]
  split <;> rfl

theorem replaceBackslash_of_not_mem {s : String} (h : '\\' ∉ s.toList) :
    replaceBackslash s = s := by
  have hmap : s.toList.map (fun c => if c = '\\' then '/' else c) = s.toList.map id := by
    refine List.map_congr_left fun c hc => if_neg fun heq => ?_
    subst heq
    exact h hc
  rw [replaceBackslash, hmap, List.map_id, String.ofList_toList]

def pathJoin (dir name : String) : String := if dir = "" then name else dir ++ "/" ++ name

/-- `Path::is_absolute` -/
def pathIsAbsolute (path : String) : Bool := path.toList.head? = some '/'

/-- `Path::join`. An absolute path replaces what it is joined to. -/
def pathAt (root path : String) : String :=
  if pathIsAbsolute path || root = "" then path
  else if root.toList.getLast? = some '/' then root ++ path
  else root ++ "/" ++ path

/-- A piece between two slashes that is no component of an absolute path. -/
def isPadding (piece : List Char) : Bool := piece = [] || piece = ['.']

/-- The pieces of a path behind the components that it is to begin with. -/
def piecesBehind : List (List Char) → List (List Char) → Option (List (List Char))
  | [], pieces => some pieces
  | _ :: _, [] => none
  | c :: base, piece :: pieces =>
    if isPadding piece then piecesBehind (c :: base) pieces
    else if piece = c then piecesBehind base pieces
    else none

/-- `Path::strip_prefix` of an absolute path. What is left neither begins nor ends with padding. -/
def pathStripPrefix (path base : String) : Option String :=
  if pathIsAbsolute base then
    (piecesBehind ((base.toList.splitOn '/').filter (!isPadding ·)) (path.toList.splitOn '/')).map
      fun pieces => String.ofList
        (List.intercalate ['/'] ((pieces.dropWhile isPadding).rdropWhile isPadding))
  else none

/-- The node a path leads to. A file has no entry behind it, not even an empty one. -/
def FsEntries.resolve (tree : FsEntries) (host : String → Option FsNode) (path : String) :
    Option FsNode :=
  let components := pathComponents path
  if components.contains .rootDir || components.contains .parentDir then host path
  else
    match tree.descend (components.filterMap (·.name?)) with
    | some (.file bytes) => if path.toList.getLast? = some '/' then none else some (.file bytes)
    | node => node

/-! ## Languages -/

inductive Language
  | rust | python | typeScript | javaScript | go | c | cpp
deriving DecidableEq

namespace Language

/-- By extension only. -/
def fromPath (path : String) : Option Language :=
  match pathExtension path with
  | some "rs" => some rust
  | some "py" => some python
  | some "ts" | some "tsx" => some typeScript
  | some "js" | some "jsx" | some "mjs" | some "cjs" => some javaScript
  | some "go" => some go
  | some "c" | some "h" => some c
  | some "cc" | some "cpp" | some "cxx" | some "hpp" | some "hh" | some "hxx" => some cpp
  | _ => none

def asStr : Language → String
  | rust => "rust"
  | python => "python"
  | typeScript => "typescript"
  | javaScript => "javascript"
  | go => "go"
  | c => "c"
  | cpp => "cpp"

end Language

end SiftMcp
