import SiftMcp.Indexing.Worktree
import SiftMcp.Lib.Utf8Text
import SiftMcp.Storage.Record

/-!
# Content hashes

Normalization of a body, and the bytes that are hashed. The hash function itself is a parameter.
-/

namespace SiftMcp
open Text

/-- Version of the normalization rules. -/
def hashSchemeVersion : Nat := 1

/-- `body.replace("\r\n", "\n").replace('\r', "\n")` -/
def normalizeLineEnds : Text → Text
  | '\r' :: '\n' :: t => '\n' :: normalizeLineEnds t
  | c :: t => (if c = '\r' then '\n' else c) :: normalizeLineEnds t
  | [] => []

/-- Common leading indentation of the lines that are not empty. -/
def commonIndent (ls : List Text) : Nat :=
  ((ls.filter (· ≠ [])).map fun l => (l.takeWhile fun c => c = ' ' ∨ c = '\t').length).min?.getD 0

/-- Trailing whitespace stripped per line, line endings normalized, leading and trailing blank lines
and common leading indentation removed. -/
def normalizeBody (body : Text) : Text :=
  let ls := ((normalizeLineEnds body).splitOn '\n').map trimEnd
  let ls := (ls.rdropWhile (· = [])).dropWhile (· = [])
  joinLines (ls.map (·.drop (commonIndent ls)))

/-- blake3 over the scheme version, the language, the symbol name and the normalized body. -/
def contentHash (blake3 : List UInt8 → ContentHash) (language : Language) (symbol body : Text) :
    ContentHash :=
  let utf8 (t : Text) : List UInt8 := (String.ofList t).toUTF8.toList
  blake3 ([UInt8.ofNat hashSchemeVersion, 0, 0, 0] ++ [0xff] ++ utf8 language.asStr.toList ++
    [0xff] ++ utf8 symbol ++ [0xff] ++ utf8 (normalizeBody body))

end SiftMcp
