import SiftMcp.Indexing.Slices

/-!
# What the fragments of a symbol hold

The fragments of a construct that is split hold its text, up to a signature that is lost where the
text doubles it.

`oversize_splitsInto` states it of all symbols above the limit that are no containers.
-/

namespace SiftMcp
open Text StackSearch
open String (utf8Len)

variable {source text signature : Text} {tree : SyntaxTree source} {ts : TreeSitter}
  {language : Language} {hits : List SymbolHit} {hit : SymbolHit}

theorem sound_of_ordered (hhits : collectSymbols ts language tree = some hits)
    (hhit : hit ∈ orderWithContainers hits) : hit.Sound source :=
  sound_of_collectSymbols hhits hit (mem_orderWithContainers.mp hhit)

/-- An oversize construct is split into fragments that hold its text, each with the signature at its
start, unless the last one doubles the signature. If that one is the only one, then they do not. -/
theorem oversize_splitsInto (hhits : collectSymbols ts language tree = some hits)
    (hhit : hit ∈ orderWithContainers hits) (hkind : hit.isContainer = false)
    (htext : bodyOfHit source (orderWithContainers hits) hit = some text)
    (hsignature : firstSignatureLine source hit.nodeRange = some signature)
    (hlong : oversizeCharThreshold < text.length) :
    ∃ fragments, splitIfOversize ts language tree hit text signature = some fragments ∧
      ((∀ c, ¬EndDoublesSignature ts language tree hit text signature c) →
        SplitsInto text signature fragments) ∧
      ∀ c, EndDoublesSignature ts language tree hit text signature c → c.fragments.length = 1 →
        ¬SplitsInto text signature fragments :=
  splitIfOversize_splitsInto (sound_of_ordered hhits hhit) hkind htext hsignature hlong

/-! ## A function under its return type -/

/-- A C function with its return type on a line of its own, and a name of six characters. -/
def returnSource (name : String) : Text :=
  ("int\n" ++ name ++ "(void) \x7b\n    f(").toList ++ List.replicate 1100 '0' ++ ");\n".toList ++
    List.replicate 1000 '\n' ++ ['}']

def returnRoot : SyntaxNode :=
  .plain "translation_unit" 0 2129 [.plain "function_definition" 0 2129 [
    .plain "primitive_type" 0 3 [],
    .plain "function_declarator" 4 16
      [.plain "identifier" 4 10 [], .plain "parameter_list" 10 16 []],
    .plain "compound_statement" 17 2129 [.plain "expression_statement" 23 1127 [
      .plain "call_expression" 23 1126 [.plain "identifier" 23 24 [],
        .plain "argument_list" 24 1126 [.plain "number_literal" 25 1125 []]]]]]]

def returnCaptures : List (List CapturePath) := [[⟨"def", [0], []⟩, ⟨"name", [0, 1, 0], []⟩]]

def mainTree : SyntaxTree (returnSource "f_main") where
  root := returnRoot
  spans := SyntaxNode.forall_within_iff.mpr (by decide +kernel)

/-- The name of the function begins with its return type. -/
def doubledTree : SyntaxTree (returnSource "int_fn") where
  root := returnRoot
  spans := SyntaxNode.forall_within_iff.mpr (by decide +kernel)

def returnHit (name : String) : SymbolHit where
  kind := "function"
  name := name.toList
  range := ⟨0, 2129⟩
  nodeRange := ⟨0, 2129⟩
  startLine := 1
  endLine := 1004
  docFirstLine := none
  isContainer := false

theorem oversize_splitsInto_main : ∃ fragments,
    splitIfOversize (mainTree.parser returnCaptures) .c mainTree (returnHit "f_main")
      (returnSource "f_main") "int".toList = some fragments ∧
    SplitsInto (returnSource "f_main") "int".toList fragments := by
  have hhits : collectSymbols (mainTree.parser returnCaptures) .c mainTree =
    some [returnHit "f_main"] := by decide +kernel
  have htext : bodyOfHit (returnSource "f_main") (orderWithContainers [returnHit "f_main"])
    (returnHit "f_main") = some (returnSource "f_main") := by decide +kernel
  have hsignature : firstSignatureLine (returnSource "f_main") (returnHit "f_main").nodeRange =
    some "int".toList := by decide +kernel
  obtain ⟨fragments, hsplit, hinto, -⟩ := oversize_splitsInto hhits
    (mem_orderWithContainers.mpr (List.mem_singleton_self _)) rfl htext hsignature
    (by decide +kernel)
  refine ⟨fragments, hsplit, hinto fun c hc => ?_⟩
  have hall :
      ∀ c ∈ (symbolEnds (mainTree.parser returnCaptures) .c mainTree (returnHit "f_main")).foldlM
      (Cutter.turn (returnSource "f_main") "int".toList) ⟨[], 0, 0⟩,
      ¬c.DoublesSignature (returnSource "f_main") "int".toList := by decide +kernel
  exact hall c hc.1 hc.2

/-- Of `int` and `int_fn`, the fragment has one `int` only. -/
theorem doubled_not_splitsInto : ∃ hit fragments,
    collectSymbols (doubledTree.parser returnCaptures) .c doubledTree = some [hit] ∧
    hit.isContainer = false ∧
    bodyOfHit (returnSource "int_fn") [hit] hit = some (returnSource "int_fn") ∧
    firstSignatureLine (returnSource "int_fn") hit.nodeRange = some "int".toList ∧
    oversizeCharThreshold < (returnSource "int_fn").length ∧
    splitIfOversize (doubledTree.parser returnCaptures) .c doubledTree hit (returnSource "int_fn")
      "int".toList = some fragments ∧
    ¬SplitsInto (returnSource "int_fn") "int".toList fragments := by
  refine ⟨returnHit "int_fn", [("int_fn(void) \x7b\n    f(").toList ++ List.replicate 1100 '0' ++
    ");\x7d".toList], by
      decide +kernel, rfl, by decide +kernel, by decide +kernel, by decide +kernel,
    by decide +kernel, fun h => ?_⟩
  have hle := h.length_le
  revert hle
  decide +kernel

end SiftMcp
