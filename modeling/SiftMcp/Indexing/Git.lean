import SiftMcp.Indexing.Worktree

/-!
# The git repository

What the indexer asks of git: the commit of HEAD, the changes between two commits, whether the
worktree is dirty and where, and the bytes of a path in HEAD. Computing the difference of two trees,
resolving a revision and listing the status are git's own work; `RepoGit` holds the answers.
-/

namespace SiftMcp

inductive EntryMode
  | tree | blob | blobExecutable | link | commit
deriving DecidableEq

namespace EntryMode

def isBlob : EntryMode → Bool
  | blob | blobExecutable => true
  | _ => false

def isLink (m : EntryMode) : Bool := m = link

end EntryMode

/-- A difference of two trees, as gix lists it. -/
inductive ChangeDetached
  | addition (location : List UInt8) (entryMode : EntryMode)
  | deletion (location : List UInt8) (entryMode : EntryMode)
  | modification (location : List UInt8) (previousEntryMode entryMode : EntryMode)
  | rewrite (sourceLocation location : List UInt8) (sourceEntryMode entryMode : EntryMode)

inductive FileChange
  | added (path : String)
  | modified (path : String)
  | deleted (path : String)
  | renamed (source dest : String)
deriving DecidableEq

def decodeUtf8 (bytes : List UInt8) : Option String := String.fromUTF8? ⟨bytes.toArray⟩

/-- How many bytes of a text that does not begin with a character are replaced together: those that
begin one which breaks off, and else one. -/
def replacedLength (bytes : List UInt8) : Nat :=
  let begins (k : Nat) (missing : List UInt8) : Bool :=
    k ≤ bytes.length && (decodeUtf8 (bytes.take k ++ missing)).isSome
  if begins 3 [0x80] then 3
  else if begins 2 [0x80] || begins 2 [0x80, 0x80] then 2
  else 1

/-- `String::from_utf8_lossy` -/
def utf8Lossy : Nat → List UInt8 → List Char
  | 0, _ | _, [] => []
  | n + 1, b :: bs =>
    let char := [1, 2, 3, 4].findSome? fun k =>
      (decodeUtf8 ((b :: bs).take k)).map fun s => (s.toList, k)
    match char with
    | some (cs, k) => cs ++ utf8Lossy n ((b :: bs).drop k)
    | none => '\uFFFD' :: utf8Lossy n ((b :: bs).drop (replacedLength (b :: bs)))

example : utf8Lossy 9 [0xE2, 0x82, 97, 0x82, 0xF0, 0x9F, 0x98] =
    ['\uFFFD', 'a', '\uFFFD', '\uFFFD'] := by
  decide +kernel

def locationToString (location : List UInt8) : Option String :=
  match decodeUtf8 location with
  | none => none
  | some s => if s = "" then none else some (replaceBackslash s)

/-- A change that touches neither a blob nor a link is dropped. -/
def changeToFileChange : ChangeDetached → Option FileChange
  | .addition location mode =>
    if mode.isBlob || mode.isLink then (locationToString location).map .added else none
  | .deletion location mode =>
    if mode.isBlob || mode.isLink then (locationToString location).map .deleted else none
  | .modification location previous mode =>
    if mode.isBlob || mode.isLink || previous.isBlob || previous.isLink then
      (locationToString location).map .modified
    else none
  | .rewrite source location sourceMode mode =>
    if mode.isBlob || mode.isLink || sourceMode.isBlob || sourceMode.isLink then do
      let source ← locationToString source
      let dest ← locationToString location
      return .renamed source dest
    else none

structure RepoGit where
  headId : Except String String
  headTree : Except String FsEntries
  /-- The tree of the commit that a revision names. -/
  revTree : String → Except String FsEntries
  diffTrees : FsEntries → FsEntries → Except String (List ChangeDetached)
  isDirty : Except String Bool
  /-- Standard output of `git status --porcelain -z`. -/
  status : Except String (List UInt8)

namespace RepoGit

def changesSince (git : RepoGit) (base : String) : Except String (List FileChange) := do
  let oldTree ← (git.revTree base).mapError fun e => s!"resolve base {base}: {e}"
  let newTree ← git.headTree
  let changes ← git.diffTrees oldTree newTree
  return changes.filterMap changeToFileChange

/-- The first three bytes of an entry are its status. The old path of a rename is an entry of its
own, without a status, and loses its first three bytes as well. -/
def dirtyPaths (git : RepoGit) : Except String (List String) := do
  let stdout ← git.status
  let entries := (stdout.splitOn 0).filter (·.length ≥ 3)
  let paths := entries.map fun entry => String.ofList (utf8Lossy entry.length (entry.drop 3))
  return paths.filter (· ≠ "")

def listing (rel : String) (es : FsEntries) : List Char :=
  s!"tree HEAD:{rel}\n\n".toList ++ es.toList.flatMap fun (name, node) =>
    name.toList ++ (match node with | .dir _ => ['/', '\n'] | _ => ['\n'])

/-- Standard output of `git show HEAD:rel`, if it succeeds. Of a directory it shows the names. -/
def «show» (git : RepoGit) (rel : String) : Option ByteArray :=
  match git.headTree with
  | .error _ => none
  | .ok tree =>
    match tree.descend ((rel.toList.splitOn '/').map String.ofList) with
    | some (.file bytes) => some bytes
    | some (.dir es) => some (String.ofList (listing rel es)).toUTF8
    | _ => none

end RepoGit

end SiftMcp
