import SiftMcp.Indexing.Worktree

/-!
# Exclusions

Which paths the indexer refuses, and why. `Exclusions.checkPath` is asked about a path that begins
with the root of the repository, which is taken off again only if it is absolute. How a glob matches
a path and how a `.gitignore` is read are left to the crates that do it: `globMatches` and the rules
that `forRepository` is given.
-/

namespace SiftMcp

/-- Files larger than this are refused. -/
def maxFileBytes : Nat := 1048576

/-- How many leading bytes are looked at for binary content. -/
def headSniffBytes : Nat := 8192

inductive SkipReason
  | secretPattern (pattern : String)
  | vendorDirectory (pattern : String)
  | generatedPattern (pattern : String)
  | gitIgnored
  | tooLarge (bytes limit : Nat)
  | binaryContent
  | unsupportedLanguage
deriving DecidableEq

/-- The rules of a `.gitignore`: whether the path, a directory or not, or a parent is ignored. The
path begins with the root. -/
abbrev Gitignore := String → Bool → Bool

/-- Globs with the pattern that is reported for each. -/
abbrev GlobSet := List (String × String)

structure Exclusions where
  root : String
  globMatches : String → String → Bool
  gitignore : Option Gitignore

namespace Exclusions

def secretGlobs : GlobSet :=
  [(".env", ".env"), (".env.*", ".env.*"), ("**/.env", ".env"), ("**/.env.*", ".env.*"),
    ("*.pem", "*.pem"), ("**/*.pem", "*.pem"), ("*.key", "*.key"), ("**/*.key", "*.key"),
    ("id_rsa*", "id_rsa*"), ("**/id_rsa*", "id_rsa*"),
    ("credentials.*", "credentials.*"), ("**/credentials.*", "credentials.*"),
    ("secrets.*", "secrets.*"), ("**/secrets.*", "secrets.*")]

def vendorGlobs : GlobSet :=
  ["node_modules", "vendor", "target", "dist", ".venv"].flatMap fun name =>
    [(name, name ++ "/"), ("**/" ++ name, name ++ "/"), ("**/" ++ name ++ "/**", name ++ "/")]

def generatedGlobs : GlobSet :=
  [("*_pb2.py", "*_pb2.py"), ("**/*_pb2.py", "*_pb2.py"),
    ("*.generated.*", "*.generated.*"), ("**/*.generated.*", "*.generated.*")]

def vendorNames : List String := ["node_modules", "vendor", "target", "dist", ".venv"]

/-- `gitignore` is what becomes of the `.gitignore` of the root: its rules, if there is such a file,
or why they cannot be read. -/
def forRepository (globMatches : String → String → Bool)
    (gitignore : Except String (Option Gitignore)) (root : String) : Except String Exclusions := do
  return ⟨root, globMatches, ← gitignore⟩

/-- The pattern reported for the first glob of the set that matches. -/
def firstMatch (ex : Exclusions) (globs : GlobSet) (path : String) : Option String :=
  (globs.find? fun g => ex.globMatches g.1 path).map (·.2)

/-- Of the whole path, else of the file name alone. -/
def firstMatchOrName (ex : Exclusions) (globs : GlobSet) (path : String) : Option String :=
  (ex.firstMatch globs path).or ((pathFileName path).bind (ex.firstMatch globs))

/-- What the built-in rules are asked about: only an absolute path loses the root. -/
def relative (ex : Exclusions) (path : String) : String :=
  if pathIsAbsolute path then (pathStripPrefix path ex.root).getD path else path

/-- What the rules of `.gitignore` are asked about. -/
def absolute (ex : Exclusions) (path : String) : String :=
  if pathIsAbsolute path then path else pathAt ex.root path

/-- A path-only decision, made before the file is opened. `isDir` is whether `ex.absolute path` is a
directory. -/
def checkPath (ex : Exclusions) (isDir : Bool) (path : String) : Option SkipReason :=
  let rel := ex.relative path
  match ex.firstMatchOrName secretGlobs rel with
  | some pattern => some (.secretPattern pattern)
  | none =>
    match (pathComponents rel).findSome? fun c => c.name?.filter (· ∈ vendorNames) with
    | some name => some (.vendorDirectory (name ++ "/"))
    | none =>
      match ex.firstMatch vendorGlobs rel with
      | some pattern => some (.vendorDirectory pattern)
      | none =>
        match ex.firstMatchOrName generatedGlobs rel with
        | some pattern => some (.generatedPattern pattern)
        | none =>
          match ex.gitignore with
          | none => none
          | some ignored =>
            let abs := ex.absolute path
            if ignored abs (isDir || abs.toList.getLast? = some '/') then some .gitIgnored
            else none

def checkSize (bytes : Nat) : Option SkipReason :=
  if bytes > maxFileBytes then some (.tooLarge bytes maxFileBytes) else none

/-- On the first bytes only. -/
def checkHead (head : List UInt8) : Option SkipReason :=
  if 0 ∈ head then some .binaryContent else none

end Exclusions

/-- How globset matches the globs above, which have no other wildcards: `*` matches any characters,
`/` among them, and `**/` any number of directories. -/
def globset : List Char → List Char → Bool
  | [], path => path.isEmpty
  | '*' :: '*' :: '/' :: glob, path =>
    globset glob path || path.tails.any fun rest =>
      match rest with
      | '/' :: rest => globset glob rest
      | _ => false
  | '*' :: glob, path => path.tails.any (globset glob)
  | c :: glob, d :: path => c = d && globset glob path
  | _ :: _, [] => false

/-- What becomes of the bytes of a file that a path check has let through. -/
def sourceText (bytes : ByteArray) : Option String :=
  if (Exclusions.checkSize bytes.size).isSome then none
  else if (Exclusions.checkHead (bytes.toList.take headSniffBytes)).isSome then none
  else String.fromUTF8? bytes

end SiftMcp
