import SiftMcp.Indexing.Worktree
import SiftMcp.Lib.StackSearch
import SiftMcp.Lib.Utf8Text

/-!
# Syntax trees

What the parser gives for a text, and what its queries capture in it. Every node spans a piece of
the text that begins and ends between two characters. Grammars and queries belong to the parser.
-/

namespace SiftMcp
open StackSearch

/-- A `Range<usize>` of byte offsets. -/
structure ByteRange where
  start : Nat
  stop : Nat
deriving DecidableEq

/-- `source[range]` -/
def ByteRange.slice? (range : ByteRange) (source : Text) : Option Text :=
  source.slice? range.start range.stop

structure SyntaxNode where
  kind : String
  isError : Bool
  isMissing : Bool
  startByte : Nat
  endByte : Nat
  children : List SyntaxNode

namespace SyntaxNode

/-- The number of nodes of the subtree. -/
def size : SyntaxNode → Nat
  | ⟨_, _, _, _, _, children⟩ => sizes children + 1
where
  sizes : List SyntaxNode → Nat
    | [] => 0
    | n :: ns => n.size + sizes ns

/-- A node without errors. -/
def plain (kind : String) (startByte endByte : Nat) (children : List SyntaxNode) : SyntaxNode :=
  ⟨kind, false, false, startByte, endByte, children⟩

def byteRange (n : SyntaxNode) : ByteRange := ⟨n.startByte, n.endByte⟩

/-- The node belongs to the subtree of the other. -/
def Within (n root : SyntaxNode) : Prop := Reached children [root] n

/-- The span of the node is a piece of the text. -/
structure SpanIn (source : Text) (n : SyntaxNode) : Prop where
  le : n.startByte ≤ n.endByte
  start : source.IsBoundary n.startByte
  stop : source.IsBoundary n.endByte

instance {source : Text} {n : SyntaxNode} : Decidable (n.SpanIn source) :=
  decidable_of_iff (n.startByte ≤ n.endByte ∧ source.IsBoundary n.startByte ∧
    source.IsBoundary n.endByte) ⟨fun h => ⟨h.1, h.2.1, h.2.2⟩, fun h => ⟨h.le, h.start, h.stop⟩⟩

/-- What a loop with a stack finds in the subtree. -/
def collect {β : Type} (next : SyntaxNode → List SyntaxNode) (out : SyntaxNode → List β)
    (root : SyntaxNode) : List β := (turns next out [root] root.size).2

end SyntaxNode

structure SyntaxTree (source : Text) where
  root : SyntaxNode
  spans : ∀ n : SyntaxNode, n.Within root → n.SpanIn source

/-- A node that a query captures, with the named siblings before it, the nearest first. -/
structure Capture {source : Text} (tree : SyntaxTree source) where
  name : String
  node : SyntaxNode
  before : List SyntaxNode
  node_within : node.Within tree.root
  before_within : ∀ p ∈ before, p.Within tree.root ∧ p.endByte ≤ node.startByte

/-- The parser with its grammars and queries. `descendantForByteRange` is the smallest node that
spans a range, where there is one. -/
structure TreeSitter where
  setLanguage : Language → Bool
  parse : Language → (source : Text) → Option (SyntaxTree source)
  queryMatches : Language → {source : Text} → (tree : SyntaxTree source) →
    List (List (Capture tree))
  descendantForByteRange : {source : Text} → SyntaxTree source → Nat → Nat → Option SyntaxNode
  descendant_within : ∀ {source : Text} (tree : SyntaxTree source) a b n,
    descendantForByteRange tree a b = some n → n.Within tree.root

/-! ## The loop with a stack -/

namespace SyntaxNode

variable {β : Type} {next : SyntaxNode → List SyntaxNode} {out : SyntaxNode → List β}
  {n root : SyntaxNode}

theorem size_eq : n.size = size.sizes n.children + 1 := by
  cases n
  rw [size]

theorem sizes_append {a b : List SyntaxNode} :
    size.sizes (a ++ b) = size.sizes a + size.sizes b := by
  induction a with
  | nil => simp [size.sizes]
  | cons n a ih => simp [size.sizes, ih, Nat.add_assoc]

theorem sizes_reverse {a : List SyntaxNode} : size.sizes a.reverse = size.sizes a := by
  induction a with
  | nil => rfl
  | cons n a ih =>
    rw [List.reverse_cons, sizes_append, ih]
    simp [size.sizes, Nat.add_comm]

/-- Each turn takes a node off, and pushes no more than what was below it. -/
theorem sizes_turns (hnext : ∀ n, size.sizes (next n) ≤ size.sizes n.children) {k : Nat} :
    size.sizes (turns next out [root] k).1 ≤ root.size - k := by
  induction k with
  | zero => simp [turns, size.sizes]
  | succ k ih =>
    cases ht : top next out [root] k with
    | none =>
      rw [turns_of_no_top ht]
      have hnil : (turns next out [root] k).1 = [] := List.head?_eq_none_iff.mp ht
      rw [hnil]
      exact Nat.zero_le _
    | some a =>
      obtain ⟨stack, hstack, hturn⟩ := turns_of_top ht
      rw [hstack, size.sizes, size_eq] at ih
      rw [hturn, sizes_append, sizes_reverse]
      have := hnext a
      omega

theorem turns_end (hnext : ∀ n, size.sizes (next n) ≤ size.sizes n.children) :
    (turns next out [root] root.size).1 = [] := by
  have h := @sizes_turns β next out root hnext root.size
  rw [Nat.sub_self] at h
  cases hs : (turns next out [root] root.size).1 with
  | nil => rfl
  | cons n ns =>
    rw [hs, size.sizes, size_eq] at h
    omega

theorem mem_collect_iff {x : β} :
    x ∈ root.collect children out ↔ ∃ n, n.Within root ∧ x ∈ out n :=
  mem_found_iff (turns_end fun _ => Nat.le_refl _)

/-- What holds of every node that the loop comes upon holds of every node of the subtree. -/
theorem forall_within_iff {P : SyntaxNode → Prop} :
    (∀ n : SyntaxNode, n.Within root → P n) ↔ ∀ n ∈ root.collect children fun n => [n], P n := by
  constructor
  · intro h n hn
    obtain ⟨m, hm, hmem⟩ := mem_collect_iff.mp hn
    obtain rfl := List.mem_singleton.mp hmem
    exact h n hm
  · intro h n hn
    exact h n (mem_collect_iff.mpr ⟨n, hn, List.mem_singleton_self n⟩)

theorem Within.trans {m : SyntaxNode} (h : m.Within n) (hn : n.Within root) : m.Within root := by
  induction h with
  | start h =>
    obtain rfl := List.mem_singleton.mp h
    exact hn
  | next _ hb ih => exact .next ih hb

end SyntaxNode

/-! ## A parser that knows one tree -/

namespace SyntaxNode

/-- The node at the end of a chain of child numbers. -/
def nodeAt : List Nat → SyntaxNode → Option SyntaxNode
  | [], n => some n
  | i :: path, n => n.children[i]?.bind (nodeAt path)

theorem nodeAt_within {path : List Nat} (h : nodeAt path root = some n) : n.Within root := by
  induction path generalizing root with
  | nil =>
    obtain rfl := Option.some.inj h
    exact .start (List.mem_singleton_self _)
  | cons i path ih =>
    obtain ⟨m, hm, h⟩ := Option.bind_eq_some_iff.mp h
    refine (ih h).trans (.next (.start (List.mem_singleton_self _)) ?_)
    exact List.mem_of_getElem? hm

end SyntaxNode

/-- A capture by the places of its nodes. -/
structure CapturePath where
  name : String
  node : List Nat
  before : List (List Nat)

def CapturePath.capture {source : Text} (tree : SyntaxTree source) (p : CapturePath) :
    Option (Capture tree) :=
  match hn : tree.root.nodeAt p.node with
  | none => none
  | some node =>
    let before := p.before.filterMap (tree.root.nodeAt ·)
    if h : ∀ q ∈ before, q.endByte ≤ node.startByte then
      some {
        name := p.name
        node, before
        node_within := SyntaxNode.nodeAt_within hn
        before_within := fun q hq =>
          have ⟨_, _, hpath⟩ := List.mem_filterMap.mp hq
          ⟨SyntaxNode.nodeAt_within hpath, h q hq⟩ }
    else none

/-- The parser that gives the tree for its text, with the captures at the places that are listed. -/
def SyntaxTree.parser {source : Text} (tree : SyntaxTree source)
    (captures : List (List CapturePath)) : TreeSitter where
  setLanguage _ := true
  parse _ s := if h : source = s then some (h ▸ tree) else none
  queryMatches _ _ t := captures.map fun ps => ps.filterMap (·.capture t)
  descendantForByteRange t a b :=
    (t.root.collect SyntaxNode.children fun n =>
      if n.startByte ≤ a ∧ b ≤ n.endByte then [n] else []).getLast?
  descendant_within t a b n h := by
    obtain ⟨m, hm, hn⟩ := SyntaxNode.mem_collect_iff.mp (List.mem_of_getLast? h)
    split at hn
    · obtain rfl := List.mem_singleton.mp hn
      exact hm
    · cases hn

end SiftMcp
