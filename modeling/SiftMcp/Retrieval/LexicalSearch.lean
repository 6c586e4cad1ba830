import SiftMcp.Retrieval.DenseSearch
import SiftMcp.Retrieval.Lexical
import Mathlib.Data.Prod.Lex

/-!
# Searching the lexical index

`RowTopCollector` gathers the best documents of each segment, and then the best of those. What
gathers them is tantivy's `TopNComputer`, which is given by its calls here, as are the segments and
the scores that their documents have for a query.

The main result is `lexical_ranking`: segments and the order of their documents make no difference.
-/

namespace SiftMcp
open Least

structure DocAddress where
  segmentOrd : Nat
  docId : Nat
deriving DecidableEq

/-- What a document is ranked under beside its score. -/
abbrev DocKey := RowId × DocAddress

/-- `Vec<(Score, (u64, DocAddress))>` -/
abbrev Fruit (σ : Type) := List (σ × DocKey)

/-- The calls of `TopNComputer<Score, (u64, DocAddress)>`. -/
structure TopNComputer (σ : Type) where
  State : Type
  new : Nat → State
  push : State → σ → DocKey → State
  intoSortedVec : State → Fruit σ

/-- A segment as one query sees it: its column of rows, or why there is none, and the documents that
match with their scores, as they are collected. -/
structure Segment (σ : Type) where
  rows : Except String (Nat → RowId)
  matching : List (Nat × σ)

structure RowTopSegmentCollector {σ : Type} (T : TopNComputer σ) where
  top : T.State
  rows : Nat → RowId
  segmentOrd : Nat

variable {σ : Type} (T : TopNComputer σ)

namespace RowTopSegmentCollector

variable {T}

def collect (self : RowTopSegmentCollector T) (doc : Nat) (score : σ) : RowTopSegmentCollector T :=
  { self with top := T.push self.top score (self.rows doc, ⟨self.segmentOrd, doc⟩) }

def harvest (self : RowTopSegmentCollector T) : Fruit σ := T.intoSortedVec self.top

end RowTopSegmentCollector

namespace RowTopCollector

def forSegment (limit segmentLocalId : Nat) (segment : Segment σ) :
    Except RetrievalError (RowTopSegmentCollector T) := do
  let rows ← segment.rows.mapError .tantivy
  return { top := T.new limit, rows, segmentOrd := segmentLocalId }

def mergeFruits (limit : Nat) (segmentFruits : List (Fruit σ)) : Fruit σ :=
  T.intoSortedVec <| segmentFruits.foldl
    (fun top fruit => fruit.foldl (fun top p => T.push top p.1 p.2) top) (T.new limit)

/-- What becomes of one segment. -/
def segmentFruit (limit : Nat) (p : Segment σ × Nat) : Except RetrievalError (Fruit σ) := do
  let child ← forSegment T limit p.2 p.1
  return (p.1.matching.foldl (fun child q => child.collect q.1 q.2) child).harvest

end RowTopCollector

/-- The rows of the documents, as `search` lists them. -/
def Fruit.scoredRows (fruit : Fruit σ) : List (ScoredRow σ) := fruit.map fun p => ⟨p.2.1, p.1⟩

/-- `parsed` are the segments as the parsed query sees them. The searcher may have their fruits
merged in any order. -/
def LexicalSearchHandle.search (reorder : List (Fruit σ) → List (Fruit σ))
    (parsed : Option (List (Segment σ))) (limit : Nat) :
    Except RetrievalError (List (ScoredRow σ)) :=
  if limit = 0 then .ok []
  else
    match parsed with
    | none => .ok []
    | some segments => do
      let fruits ← segments.zipIdx.mapM (RowTopCollector.segmentFruit T limit)
      return (RowTopCollector.mergeFruits T limit (reorder fruits)).scoredRows

/-! ## What is gathered -/

section

variable {T} [LinearOrder σ] {limit : Nat} {entries : Fruit σ} {fruits fruits' : List (Fruit σ)}
  {segments : List (Segment σ)} {s : Segment σ} {docs rows : List (ScoredRow σ)}
  {parts : List (List (ScoredRow σ))}

/-- Greater scores come first, and then lower keys. -/
def entryKey (p : σ × DocKey) : σᵒᵈ ×ₗ ℕ ×ₗ ℕ ×ₗ ℕ :=
  toLex (OrderDual.toDual p.1, toLex (p.2.1, toLex (p.2.2.segmentOrd, p.2.2.docId)))

/-- Whatever is pushed, the greatest entries come out. -/
structure TopNComputer.Lawful (T : TopNComputer σ) : Prop where
  best (limit : Nat) (entries : Fruit σ) :
    ∃ sorted : Fruit σ, sorted.Perm entries ∧ sorted.Pairwise (fun a b => entryKey a ≤ entryKey b) ∧
      T.intoSortedVec (entries.foldl (fun top p => T.push top p.1 p.2) (T.new limit)) =
        sorted.take limit

theorem scoredRow_le {a b : σ × DocKey} (h : entryKey a ≤ entryKey b) :
    (⟨a.2.1, a.1⟩ : ScoredRow σ) ≤ ⟨b.2.1, b.1⟩ := by
  rw [entryKey, entryKey, Prod.Lex.toLex_le_toLex, Prod.Lex.toLex_le_toLex] at h
  apply ScoredRow.le_iff.mpr
  rcases h with h | ⟨hscore, h⟩
  · exact .inl h
  · exact .inr ⟨hscore, h.elim Nat.le_of_lt fun h => Nat.le_of_eq h.1⟩

/-- As far as rows and scores go, the least in their order come out. -/
theorem TopNComputer.Lawful.scoredRows (hT : T.Lawful) :
    (T.intoSortedVec (entries.foldl (fun top p => T.push top p.1 p.2) (T.new limit))).scoredRows =
      least limit entries.scoredRows := by
  obtain ⟨sorted, hperm, hsorted, heq⟩ := hT.best limit entries
  have hrows : sorted.scoredRows.Pairwise (· ≤ ·) :=
    List.pairwise_map.mpr (hsorted.imp scoredRow_le)
  have hscored : sorted.scoredRows.Perm entries.scoredRows := hperm.map _
  rw [heq, ← least_perm hscored, least_eq_self hrows]
  exact List.map_take

namespace RowTopCollector

omit [LinearOrder σ] in
theorem mergeFruits_eq : mergeFruits T limit fruits =
    T.intoSortedVec (fruits.flatten.foldl (fun top p => T.push top p.1 p.2) (T.new limit)) := by
  rw [mergeFruits, List.foldl_flatten]

omit [LinearOrder σ] in
theorem foldl_collect {matching : List (Nat × σ)} {child : RowTopSegmentCollector T} :
    (matching.foldl (fun child q => child.collect q.1 q.2) child).top =
      (matching.map fun q => (q.2, (child.rows q.1, (⟨child.segmentOrd, q.1⟩ : DocAddress)))).foldl
        (fun top p => T.push top p.1 p.2) child.top := by
  induction matching generalizing child with
  | nil => rfl
  | cons q matching ih =>
    rw [List.foldl_cons, List.map_cons, List.foldl_cons]
    exact ih

end RowTopCollector

/-- These are the documents of a segment, its rows being there. -/
def Segment.Holds (s : Segment σ) (docs : List (ScoredRow σ)) : Prop :=
  ∃ rows, s.rows = .ok rows ∧ s.matching.map (fun q => ⟨rows q.1, q.2⟩) = docs

theorem Segment.Holds.segmentFruit (hT : T.Lawful) (h : s.Holds docs) (i : Nat) :
    ∃ fruit, RowTopCollector.segmentFruit T limit (s, i) = .ok fruit ∧
      fruit.scoredRows = least limit docs := by
  obtain ⟨rows, hrows, rfl⟩ := h
  refine ⟨T.intoSortedVec
    ((s.matching.map fun q => (q.2, (rows q.1, (⟨i, q.1⟩ : DocAddress)))).foldl
    (fun top p => T.push top p.1 p.2) (T.new limit)), ?_, ?_⟩
  · rw [RowTopCollector.segmentFruit, RowTopCollector.forSegment, hrows]
    exact congrArg (fun top => Except.ok (T.intoSortedVec top)) RowTopCollector.foldl_collect
  · rw [hT.scoredRows, Fruit.scoredRows, List.map_map]
    rfl

/-- Each segment gives the least of its own documents. -/
theorem mapM_segmentFruit (hT : T.Lawful) (h : List.Forall₂ Segment.Holds segments parts)
    (i : Nat) :
    ∃ fruits, (segments.zipIdx i).mapM (RowTopCollector.segmentFruit T limit) = .ok fruits ∧
      fruits.map Fruit.scoredRows = parts.map (least limit) := by
  induction h generalizing i with
  | nil => exact ⟨[], rfl, rfl⟩
  | cons hs _ ih =>
    obtain ⟨fruit, hfruit, hleast⟩ := hs.segmentFruit hT i
    obtain ⟨fruits, hfruits, hrest⟩ := ih (i + 1)
    refine ⟨fruit :: fruits, ?_, ?_⟩
    · rw [List.zipIdx_cons, List.mapM_cons, hfruit]
      exact congrArg (fun rest => rest.bind fun bs => Except.ok (fruit :: bs)) hfruits
    · rw [List.map_cons, List.map_cons, hleast, hrest]

/-- Cutting off in each segment and again at the end leaves what cutting off once would. -/
theorem RowTopCollector.scoredRows_mergeFruits (hT : T.Lawful)
    (h : fruits.map Fruit.scoredRows = parts.map (least limit)) (hperm : fruits'.Perm fruits) :
    (mergeFruits T limit fruits').scoredRows = least limit parts.flatten := by
  have hflat : Fruit.scoredRows fruits.flatten = (fruits.map Fruit.scoredRows).flatten :=
    List.map_flatten
  have hrows : (Fruit.scoredRows fruits'.flatten).Perm (Fruit.scoredRows fruits.flatten) :=
    hperm.flatten.map _
  rw [mergeFruits_eq, hT.scoredRows, least_perm hrows, hflat, h, ← least_flatten]

theorem least_eq_take : least limit docs = (sortRows docs).take limit := by
  rw [sortRows, ScoredRow.mergeSort_eq, least]

/-- A search finds the best of all documents, however they are divided among segments. -/
theorem LexicalSearchHandle.search_eq (hT : T.Lawful)
    (h : List.Forall₂ Segment.Holds segments parts) (hdocs : parts.flatten.Perm docs)
    {reorder : List (Fruit σ) → List (Fruit σ)}
    (hreorder : ∀ fruits, (reorder fruits).Perm fruits) :
    search T reorder (some segments) limit = .ok ((sortRows docs).take limit) := by
  obtain ⟨fruits, hfruits, hleast⟩ := @mapM_segmentFruit _ T _ limit _ _ hT h 0
  rw [search]
  split
  · next hlimit => rw [hlimit, List.take_zero]
  · rw [← least_eq_take, ← least_perm hdocs,
      ← RowTopCollector.scoredRows_mergeFruits hT hleast (hreorder fruits)]
    exact congrArg (fun fs => fs.bind fun fruits => Except.ok
      (RowTopCollector.mergeFruits T limit (reorder fruits)).scoredRows) hfruits

/-- What is collected from segments is all their documents by score and then by row, up to the
limit, in whatever order they are collected and merged; so merging segments changes no result. -/
theorem lexical_ranking (hT : T.Lawful) (h : List.Forall₂ Segment.Holds segments parts)
    (hdocs : parts.flatten.Perm docs) (limit : Nat) :
    Ranks docs (sortRows docs) ∧
    (∃ fruits, segments.zipIdx.mapM (RowTopCollector.segmentFruit T limit) = .ok fruits ∧
      ∀ fruits', fruits'.Perm fruits →
        (RowTopCollector.mergeFruits T limit fruits').scoredRows = (sortRows docs).take limit) ∧
    ∀ reorder : List (Fruit σ) → List (Fruit σ), (∀ fruits, (reorder fruits).Perm fruits) →
      LexicalSearchHandle.search T reorder (some segments) limit =
        .ok ((sortRows docs).take limit) ∧
      ∀ (merged : List (Segment σ)) (parts' : List (List (ScoredRow σ))),
        List.Forall₂ Segment.Holds merged parts' → parts'.flatten.Perm parts.flatten →
        LexicalSearchHandle.search T reorder (some merged) limit =
          LexicalSearchHandle.search T reorder (some segments) limit := by
  refine ⟨ranks_sortRows, ?_, fun reorder hreorder => ⟨?_, ?_⟩⟩
  · obtain ⟨fruits, hfruits, hleast⟩ := @mapM_segmentFruit _ T _ limit _ _ hT h 0
    refine ⟨fruits, hfruits, fun fruits' hperm => ?_⟩
    rw [RowTopCollector.scoredRows_mergeFruits hT hleast hperm, least_perm hdocs, least_eq_take]
  · exact LexicalSearchHandle.search_eq hT h hdocs hreorder
  · intro merged parts' hmerged hparts
    rw [LexicalSearchHandle.search_eq hT h hdocs hreorder,
      LexicalSearchHandle.search_eq hT hmerged (hparts.trans hdocs) hreorder]

end

/-- Entries of any scores that are kept until they are asked for. -/
def sortingTop (σ : Type) [LinearOrder σ] : TopNComputer σ where
  State := Nat × Fruit σ
  new limit := (limit, [])
  push top score doc := (top.1, top.2 ++ [(score, doc)])
  intoSortedVec top := (top.2.mergeSort fun a b => decide (entryKey a ≤ entryKey b)).take top.1

section

variable {σ : Type} [LinearOrder σ]

theorem sortingTop_pushed {entries : Fruit σ} {top : Nat × Fruit σ} :
    entries.foldl (fun top p => (sortingTop σ).push top p.1 p.2) top =
      (top.1, top.2 ++ entries) := by
  induction entries generalizing top with
  | nil => exact Prod.ext rfl (List.append_nil _).symm
  | cons p entries ih =>
    exact (@ih (top.1, top.2 ++ [p])).trans (Prod.ext rfl (List.append_assoc ..))

theorem sortingTop_lawful : (sortingTop σ).Lawful where
  best limit entries := by
    refine ⟨entries.mergeSort fun a b => decide (entryKey a ≤ entryKey b),
      List.mergeSort_perm _ _, ?_, ?_⟩
    · have htrans : ∀ a b c : σ × DocKey, decide (entryKey a ≤ entryKey b) →
        decide (entryKey b ≤ entryKey c) →
          decide (entryKey a ≤ entryKey c) :=
        fun a b c hab hbc => decide_eq_true ((of_decide_eq_true hab).trans (of_decide_eq_true hbc))
      have htotal :
          ∀ a b : σ × DocKey,
          (decide (entryKey a ≤ entryKey b) || decide (entryKey b ≤ entryKey a)) = true := by
        intro a b
        rw [← Bool.decide_or]
        exact decide_eq_true (le_total _ _)
      exact (List.pairwise_mergeSort htrans htotal entries).imp of_decide_eq_true
    · exact congrArg (sortingTop σ).intoSortedVec sortingTop_pushed

end

theorem lexical_ranking_two_segments :
    LexicalSearchHandle.search (sortingTop Int) List.reverse
      (some [⟨.ok (· + 5), [(1, 2), (0, 2)]⟩, ⟨.ok (· + 1), [(0, 2)]⟩]) 2 =
        .ok [⟨1, 2⟩, ⟨5, 2⟩] := by
  have h : List.Forall₂ Segment.Holds
      [(⟨.ok (· + 5), [(1, (2 : Int)), (0, 2)]⟩ : Segment Int), ⟨.ok (· + 1), [(0, 2)]⟩]
      [[⟨6, 2⟩, ⟨5, 2⟩], [⟨1, 2⟩]] :=
    .cons ⟨_, rfl, rfl⟩ (.cons ⟨_, rfl, rfl⟩ .nil)
  have hranked := ((lexical_ranking sortingTop_lawful h (.refl _) 2).2.2 List.reverse
    List.reverse_perm).1
  rw [hranked, sortRows, ScoredRow.mergeSort_eq]
  decide +kernel

end SiftMcp
