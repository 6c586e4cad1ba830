import SiftMcp.Eval.Commits
import SiftMcp.Daemon.Search
import SiftMcp.Lib.Counting
import SiftMcp.Lib.ExceptSteps
import Mathlib.Algebra.BigOperators.Group.List.Basic
import Mathlib.Algebra.Order.Field.Rat
import Mathlib.Tactic.FieldSimp
import Mathlib.Tactic.Positivity

/-!
# Evaluation runs

`evaluate` searches for the queries of labels under three configurations of the fusion, and counts
how often and how early what a label expects is found. Numbers are exact here, and how long a search
takes is left out.

The main result is `evaluate_reports`: which means the figures of a report are, and how those of its
parts add up.
-/

namespace SiftMcp
open Text

/-! ## Metrics -/

/-- A hit is an expected (file, symbol) appearing in the top n results. -/
structure Metrics where
  /-- Reported beside every figure, per the spec. -/
  labelsScored : Nat
  /-- Expected symbols absent from the index. -/
  labelsDiscarded : Nat
  top1 : ℚ
  top3 : ℚ
  top10 : ℚ
  mrr : ℚ

def reciprocalRank (ranked expected : Pairs) : ℚ :=
  match ranked.findIdx? fun candidate => expected.any fun e => e == candidate with
  | some index => 1 / (index + 1)
  | none => 0

/-- What is expected appears in the top `k`. -/
def hitsWithin (k : Nat) (ranked expected : Pairs) : Bool :=
  (ranked.take k).any fun candidate => expected.any fun e => e == candidate

inductive RunError
  | store (text : String)
  | retrieval (text : String)
  | panic
deriving DecidableEq

/-- Fraction of labels whose expected symbol appears in the top `k` ranked results. -/
def topKAccuracy (rankings expected : List Pairs) (k : Nat) : Except RunError ℚ :=
  if rankings.length ≠ expected.length then .error .panic
  else if rankings.isEmpty then .ok 0
  else .ok (((rankings.zip expected).countP fun p => hitsWithin k p.1 p.2) / rankings.length)

/-! ## Runs -/

/-- The three configurations the design bets on. No reranking anywhere. -/
inductive Ablation
  | lexicalOnly | denseOnly | fused
deriving DecidableEq

def Ablation.fusionConfig : Ablation → FusionConfig
  | lexicalOnly => ⟨50, 0⟩
  | denseOnly => ⟨0, 50⟩
  | fused => ⟨50, 50⟩

inductive LengthBucket
  | short | medium | long
deriving DecidableEq

def LengthBucket.fromQuery (query : String) : LengthBucket :=
  let words := (splitWhitespace query.toList).length
  if words ≤ 4 then .short else if words ≤ 10 then .medium else .long

/-- Partition labels into scorable vs discarded (expected symbols absent from index). `rows` are the
live rows with their records. -/
def partitionLabels (rows : Except String (List (Option ChunkRecord))) (labels : List Label) :
    Except RunError (List Label × Nat) := do
  let rows ← rows.mapError RunError.store
  let indexed := rows.filterMap fun row => row.map fun rec => (rec.file, rec.symbol)
  return labels.foldl (fun s label =>
    if label.expected.all indexed.contains && !label.expected.isEmpty then (s.1 ++ [label], s.2)
    else (s.1, s.2 + 1)) ([], 0)

def SearchError.display : SearchError → String
  | gpuUnavailable detail => s!"inference error: GPU unavailable: {detail}"
  | other text => text

/-- What a loop over labels has come to. -/
structure RunState where
  rankings : List Pairs
  expected : List Pairs
  rrSum : ℚ

section

variable (B : Backends) (searcher : Searcher)

/-- A turn of that loop. -/
def searchLabel (config : FusionConfig) (s : RunState) (label : Label) :
    Except RunError RunState := do
  let response ← (searcher.search { B with fusion := config } label.query 10).mapError fun e =>
      .retrieval e.display
  let ranked := response.results.map fun r => (r.file, r.symbol)
  return {
    rankings := s.rankings ++ [ranked]
    expected := s.expected ++ [label.expected]
    rrSum := s.rrSum + reciprocalRank ranked label.expected }

def runAblation (labels : List Label) (ablation : Ablation) (discarded : Nat) :
    Except RunError Metrics :=
  let config := ablation.fusionConfig
  if labels.isEmpty then .ok ⟨0, discarded, 0, 0, 0, 0⟩
  else do
    let s ← labels.foldlM (searchLabel B searcher config) ⟨[], [], 0⟩
    return {
      labelsScored := labels.length
      labelsDiscarded := discarded
      top1 := ← topKAccuracy s.rankings s.expected 1
      top3 := ← topKAccuracy s.rankings s.expected 3
      top10 := ← topKAccuracy s.rankings s.expected 10
      mrr := s.rrSum / labels.length }

/-- The loop of both breakdowns: the labels of each kind, if there are any. -/
def breakdown {κ : Type} [DecidableEq κ] (kind : Label → κ) (kinds : List κ) (labels : List Label)
    (ablation : Ablation) (discarded : Nat) : Except RunError (List (κ × Metrics)) :=
  kinds.foldlM (fun map k => do
    let subset := labels.filter fun l => kind l = k
    if subset.isEmpty then return map
    else return map ++ [(k, ← runAblation B searcher subset ablation discarded)]) []

def breakdownBySource (labels : List Label) (ablation : Ablation) (discarded : Nat) :
    Except RunError (List (LabelSource × Metrics)) :=
  breakdown B searcher (fun l => l.source) [.commitSubject, .docstring] labels ablation discarded

def breakdownByLength (labels : List Label) (ablation : Ablation) (discarded : Nat) :
    Except RunError (List (LengthBucket × Metrics)) :=
  breakdown B searcher (fun l => LengthBucket.fromQuery l.query) [.short, .medium, .long] labels
    ablation discarded

structure EvalRun where
  perAblation : List (Ablation × Metrics)
  bySource : List (LabelSource × Metrics)
  byQueryLength : List (LengthBucket × Metrics)

/-- `BTreeMap::insert`, as far as lookups go. -/
def insertMetrics (map : List (Ablation × Metrics)) (ablation : Ablation) (m : Metrics) :
    List (Ablation × Metrics) :=
  map.filter (·.1 ≠ ablation) ++ [(ablation, m)]

def evaluate (rows : Except String (List (Option ChunkRecord))) (labels : List Label)
    (ablations : List Ablation) : Except RunError EvalRun := do
  let (scored, discarded) ← partitionLabels rows labels
  let perAblation ← ablations.foldlM (fun map ablation => do
    return insertMetrics map ablation (← runAblation B searcher scored ablation discarded)) []
  let bySource ← breakdownBySource B searcher scored .fused discarded
  let byQueryLength ← breakdownByLength B searcher scored .fused discarded
  return ⟨perAblation, bySource, byQueryLength⟩

end

/-! ## Figures of a ranking -/

/-- What a search ranks for a label. -/
def rankedFor (B : Backends) (searcher : Searcher) (config : FusionConfig) (label : Label) :
    Except RunError Pairs :=
  ((searcher.search { B with fusion := config } label.query 10).mapError fun e =>
    RunError.retrieval e.display).map fun response => response.results.map fun r =>
      (r.file, r.symbol)

def mean (f : Label → ℚ) (labels : List Label) : ℚ := (labels.map f).sum / labels.length

/-- One if what a label expects is among the first `k`, and otherwise nothing. -/
def hit (rank : Label → Pairs) (k : Nat) (label : Label) : ℚ :=
  if hitsWithin k (rank label) label.expected then 1 else 0

/-- The figures are means over the labels. -/
def metricsOf (rank : Label → Pairs) (labels : List Label) (discarded : Nat) : Metrics where
  labelsScored := labels.length
  labelsDiscarded := discarded
  top1 := mean (hit rank 1) labels
  top3 := mean (hit rank 3) labels
  top10 := mean (hit rank 10) labels
  mrr := mean (fun label => reciprocalRank (rank label) label.expected) labels

section

variable {B : Backends} {searcher : Searcher} {config : FusionConfig} {label : Label}
  {labels : List Label} {s s' : RunState} {rank : Label → Pairs} {k k' discarded : Nat}
  {m : Metrics} {ranked expected : Pairs}

theorem searchLabel_eq :
    searchLabel B searcher config s label = (rankedFor B searcher config label).map fun ranked =>
    ⟨s.rankings ++ [ranked], s.expected ++ [label.expected], s.rrSum +
      reciprocalRank ranked label.expected⟩ := by
  unfold searchLabel rankedFor
  cases searcher.search { B with fusion := config } label.query 10 with
  | error e | ok response => rfl

/-- The loop goes through the labels, with what `rank` says of each. -/
theorem foldlM_searchLabel (hrank : ∀ l ranked, rankedFor B searcher config l = .ok ranked →
    rank l = ranked) (h : labels.foldlM (searchLabel B searcher config) s = .ok s') :
    s' = ⟨s.rankings ++ labels.map rank, s.expected ++ labels.map fun l => l.expected,
      s.rrSum + (labels.map fun l => reciprocalRank (rank l) l.expected).sum⟩ ∧
    ∀ l ∈ labels, rankedFor B searcher config l = .ok (rank l) := by
  induction labels generalizing s with
  | nil =>
    obtain rfl := Except.ok.inj h
    simp
  | cons l labels ih =>
    rw [List.foldlM_cons, searchLabel_eq] at h
    cases hl : rankedFor B searcher config l with
    | error e =>
      rw [hl] at h
      cases h
    | ok ranked =>
      rw [hl] at h
      obtain ⟨rfl, hall⟩ := ih h
      obtain rfl := hrank l ranked hl
      refine ⟨?_, List.forall_mem_cons.mpr ⟨hl, hall⟩⟩
      simp only [List.map_cons, List.sum_cons, List.append_assoc, List.singleton_append, add_assoc]

theorem mean_nil {f : Label → ℚ} : mean f [] = 0 := by
  rw [mean, List.map_nil, List.sum_nil, zero_div]

theorem sum_hit : (labels.map (hit rank k)).sum =
    (labels.countP fun l => hitsWithin k (rank l) l.expected : ℕ) := by
  induction labels with
  | nil => rfl
  | cons l labels ih =>
    rw [List.map_cons, List.sum_cons, ih, List.countP_cons, hit]
    split
    · rw [Nat.cast_add, Nat.cast_one, add_comm]
    · rw [zero_add, Nat.add_zero]

theorem topKAccuracy_map : topKAccuracy (labels.map rank) (labels.map fun l => l.expected) k =
    .ok (mean (hit rank k) labels) := by
  have hzip : ((labels.map rank).zip (labels.map fun l => l.expected)).countP
      (fun p => hitsWithin k p.1 p.2) =
      labels.countP fun l => hitsWithin k (rank l) l.expected := by
    rw [List.zip_map', List.countP_map]
    rfl
  rw [topKAccuracy, if_neg (not_not.mpr (by rw [List.length_map, List.length_map])), hzip, mean,
    sum_hit, List.length_map]
  split
  · next hnil =>
    rw [List.isEmpty_iff, List.map_eq_nil_iff] at hnil
    rw [hnil, List.length_nil, Nat.cast_zero, div_zero]
  · rfl

/-- A run that ends well reports the means of what it has ranked. -/
theorem runAblation_eq {ablation : Ablation}
    (hrank : ∀ l ranked, rankedFor B searcher ablation.fusionConfig l = .ok ranked →
      rank l = ranked)
    (h : runAblation B searcher labels ablation discarded = .ok m) :
    m = metricsOf rank labels discarded ∧
      ∀ l ∈ labels, rankedFor B searcher ablation.fusionConfig l = .ok (rank l) := by
  rw [runAblation] at h
  split at h
  · next hnil =>
    obtain rfl := Except.ok.inj h
    rw [List.isEmpty_iff.mp hnil]
    refine ⟨?_, nofun⟩
    simp only [metricsOf, mean_nil, List.length_nil]
  · obtain ⟨s, hs, h⟩ := Except.bind_eq_ok.mp h
    obtain ⟨rfl, hall⟩ := foldlM_searchLabel hrank hs
    simp only [List.nil_append, zero_add, topKAccuracy_map] at h
    obtain rfl := Except.ok.inj h
    exact ⟨rfl, hall⟩

/-! ## Bounds -/

theorem mean_le_mean {f g : Label → ℚ} (h : ∀ l ∈ labels, f l ≤ g l) :
    mean f labels ≤ mean g labels :=
  div_le_div_of_nonneg_right (List.sum_le_sum h) (Nat.cast_nonneg _)

theorem mean_le_one {f : Label → ℚ} (h : ∀ l ∈ labels, f l ≤ 1) : mean f labels ≤ 1 := by
  refine div_le_one_of_le₀ ?_ (Nat.cast_nonneg _)
  have hsum := List.sum_le_card_nsmul (labels.map f) 1 (List.forall_mem_map.mpr h)
  rwa [List.length_map, nsmul_one] at hsum

theorem hitsWithin_mono (h : k ≤ k') (hk : hitsWithin k ranked expected = true) :
    hitsWithin k' ranked expected = true := by
  obtain ⟨candidate, hmem, hexpected⟩ := List.any_eq_true.mp hk
  exact List.any_eq_true.mpr ⟨candidate, List.take_subset_take_left _ h hmem, hexpected⟩

theorem hit_le_hit (h : k ≤ k') : hit rank k label ≤ hit rank k' label := by
  unfold hit
  split
  · next hk => rw [if_pos (hitsWithin_mono h hk)]
  · split
    · exact zero_le_one
    · exact le_refl _

theorem hit_le_hit_of_subset {rank' : Label → Pairs} (hlength : (rank' label).length ≤ k)
    (h : rank label ⊆ rank' label) : hit rank k label ≤ hit rank' k label := by
  unfold hit
  split
  · next hk =>
    obtain ⟨candidate, hmem, hexpected⟩ := List.any_eq_true.mp hk
    have hk' : hitsWithin k (rank' label) label.expected = true := by
      refine List.any_eq_true.mpr ⟨candidate, ?_, hexpected⟩
      rw [List.take_of_length_le hlength]
      exact h (List.mem_of_mem_take hmem)
    rw [if_pos hk']
  · split
    · exact zero_le_one
    · exact le_refl _

theorem hit_le_one : hit rank k label ≤ 1 := by
  unfold hit
  split
  · exact le_refl _
  · exact zero_le_one

theorem hit_nonneg : 0 ≤ hit rank k label := by
  unfold hit
  split
  · exact zero_le_one
  · exact le_refl _

theorem reciprocalRank_nonneg : 0 ≤ reciprocalRank ranked expected := by
  unfold reciprocalRank
  split
  · positivity
  · exact le_refl _

/-- To be first is to have the reciprocal rank one. -/
theorem hit_one_le : hit rank 1 label ≤ reciprocalRank (rank label) label.expected := by
  unfold hit
  split
  · next hfirst =>
    obtain ⟨candidate, hmem, hexpected⟩ := List.any_eq_true.mp hfirst
    cases hranked : rank label with
    | nil =>
      rw [hranked] at hmem
      cases hmem
    | cons c rest =>
      rw [hranked] at hmem
      obtain rfl := List.mem_singleton.mp hmem
      rw [reciprocalRank, List.findIdx?_cons, if_pos hexpected]
      norm_num
  · exact reciprocalRank_nonneg

/-- What has a reciprocal rank is a hit among all that is ranked. -/
theorem reciprocalRank_le (h : (rank label).length ≤ k) :
    reciprocalRank (rank label) label.expected ≤ hit rank k label := by
  unfold reciprocalRank
  split
  · next index hindex =>
    have hsome :
        ((rank label).findIdx? fun candidate => label.expected.any fun e =>
        e == candidate).isSome := by
      rw [hindex]
      rfl
    have hhit : hitsWithin k (rank label) label.expected = true := by
      rw [hitsWithin, List.take_of_length_le h]
      rwa [List.findIdx?_isSome] at hsome
    rw [hit, if_pos hhit]
    exact div_le_one_of_le₀ (le_add_of_nonneg_left (Nat.cast_nonneg _)) (by positivity)
  · exact hit_nonneg

/-- What may be said of any figures: more is found further down, and a reciprocal rank lies between
being first and being found. -/
structure Metrics.Sound (m : Metrics) : Prop where
  nonneg : 0 ≤ m.top1
  top3 : m.top1 ≤ m.top3
  top10 : m.top3 ≤ m.top10
  le_one : m.top10 ≤ 1
  first : m.top1 ≤ m.mrr
  found : m.mrr ≤ m.top10

theorem mean_nonneg {f : Label → ℚ} (h : ∀ l ∈ labels, 0 ≤ f l) : 0 ≤ mean f labels :=
  div_nonneg (List.sum_nonneg (List.forall_mem_map.mpr h)) (Nat.cast_nonneg _)

theorem sound_metricsOf (h : ∀ l ∈ labels, (rank l).length ≤ 10) :
    (metricsOf rank labels discarded).Sound where
  nonneg := mean_nonneg fun _ _ => hit_nonneg
  top3 := mean_le_mean fun _ _ => hit_le_hit (by decide)
  top10 := mean_le_mean fun _ _ => hit_le_hit (by decide)
  le_one := mean_le_one fun _ _ => hit_le_one
  first := mean_le_mean fun _ _ => hit_one_le
  found := mean_le_mean fun l hl => reciprocalRank_le (h l hl)

theorem length_assemble {store : ChunkStore} {lexical : LexicalIndex} {fused : List (FusedRow F32)}
    {topK : Nat} {results : List SearchResult}
    (h : Searcher.assemble B store lexical fused topK = .ok results) : results.length ≤ topK := by
  unfold Searcher.assemble at h
  split at h
  · cases h
  · cases h
  · obtain rfl := Except.ok.inj h
    exact (List.length_filterMap_le _ _).trans (List.length_take_le _ _)

/-- What stands behind a search that ends well. -/
theorem Searcher.search_ok {text : String} {topK : Nat} {response : SearchResponse}
    (h : searcher.search B text topK = .ok response) :
    ∃ vector, B.embed searcher.embedder .query text = .ok vector ∧
      let lexical := B.lexicalSearch searcher.lexical.reader text B.fusion.lexicalDepth
      let dense := B.denseSearch searcher.dense vector searcher.embedder.modelId B.fusion.denseDepth
      Searcher.assemble B searcher.store searcher.lexical
        (fuse B.scoring B.fusion (rowsOf lexical) (rowsOf dense)) topK = .ok response.results := by
  obtain ⟨vector, hvector, h⟩ := Except.mapError_bind_eq_ok.mp h
  refine ⟨vector, hvector, ?_⟩
  have hdispatch : ∀ request : DispatchRequest, request.runLexical = true →
      dispatchSequential B request = dispatchConcurrent B request := by
    intro request hrun
    rw [dispatchSequential, if_pos hrun]
    rfl
  dsimp only at h
  rw [hdispatch _ rfl, ite_self] at h
  dsimp only [dispatchConcurrent] at h
  split at h
  · cases h
  · obtain ⟨results, hresults, h⟩ := Except.bind_eq_ok.mp h
    obtain rfl := Except.ok.inj h
    exact hresults

/-- A search has no more results than it is asked for. -/
theorem length_rankedFor (h : rankedFor B searcher config label = .ok ranked) :
    ranked.length ≤ 10 := by
  obtain ⟨response, hresponse, rfl⟩ := Except.map_eq_ok.mp h
  obtain ⟨vector, -, hresults⟩ := Searcher.search_ok (Except.mapError_eq_ok.mp hresponse)
  rw [List.length_map]
  exact length_assemble hresults

end

/-! ## Reports -/

/-- The label is one that can be scored: something is expected, and all of it is indexed. -/
def Label.scorable (rows : List (Option ChunkRecord)) (label : Label) : Bool :=
  label.expected.all
    (rows.filterMap fun row => row.map fun rec => (rec.file, rec.symbol)).contains &&
    !label.expected.isEmpty

/-- What a search ranks, and nothing where it fails. -/
def rankOf (B : Backends) (searcher : Searcher) (ablation : Ablation) (label : Label) : Pairs :=
  (rankedFor B searcher ablation.fusionConfig label).toOption.getD []

/-- The figures of the parts, each weighed by the labels that it is about, are together those of the
whole. -/
structure Metrics.Pools {κ : Type} (parts : List (κ × Metrics)) (m : Metrics) : Prop where
  labelsScored : (parts.map fun p => p.2.labelsScored).sum = m.labelsScored
  top1 : (parts.map fun p => (p.2.labelsScored : ℚ) * p.2.top1).sum = m.labelsScored * m.top1
  top3 : (parts.map fun p => (p.2.labelsScored : ℚ) * p.2.top3).sum = m.labelsScored * m.top3
  top10 : (parts.map fun p => (p.2.labelsScored : ℚ) * p.2.top10).sum = m.labelsScored * m.top10
  mrr : (parts.map fun p => (p.2.labelsScored : ℚ) * p.2.mrr).sum = m.labelsScored * m.mrr

section

variable {B : Backends} {searcher : Searcher} {labels scored : List Label} {rank : Label → Pairs}
  {discarded : Nat} {m : Metrics} {κ : Type} [DecidableEq κ] {kind : Label → κ} {kinds : List κ}
  {parts : List (κ × Metrics)} {ablation : Ablation} {ablations : List Ablation} {label : Label}
  {rows : Except String (List (Option ChunkRecord))} {live : List (Option ChunkRecord)}

theorem foldl_partition {keeps : Label → Bool} {s : List Label × Nat} :
    labels.foldl (fun s label => if keeps label then (s.1 ++ [label], s.2) else (s.1, s.2 + 1)) s =
      (s.1 ++ labels.filter keeps, s.2 + labels.countP (!keeps ·)) := by
  induction labels generalizing s with
  | nil => rw [List.foldl_nil, List.filter_nil, List.append_nil, List.countP_nil, Nat.add_zero]
  | cons l labels ih =>
    rw [List.foldl_cons, ih, List.filter_cons, List.countP_cons]
    cases keeps l with
    | true => simp
    | false => simp [Nat.add_assoc, Nat.add_comm 1]

theorem partitionLabels_ok (h : partitionLabels rows labels = .ok (scored, discarded)) :
    ∃ live, rows = .ok live ∧ scored = labels.filter (Label.scorable live) ∧
      scored.length + discarded = labels.length := by
  obtain ⟨live, hlive, h⟩ := Except.mapError_bind_eq_ok.mp h
  have hfold := (@foldl_partition labels (Label.scorable live) ([], 0)).symm.trans (Except.ok.inj h)
  obtain ⟨rfl, rfl⟩ := Prod.mk.inj hfold
  refine ⟨live, hlive, List.nil_append _, ?_⟩
  rw [List.nil_append, Nat.zero_add, ← List.countP_eq_length_filter,
    List.length_eq_countP_add_countP (Label.scorable live)]
  simp only [Bool.not_eq_true, Bool.decide_eq_false]

theorem rank_rankOf (l : Label) (ranked : Pairs)
    (h : rankedFor B searcher ablation.fusionConfig l = .ok ranked) :
    rankOf B searcher ablation l = ranked := by
  rw [rankOf, h]
  rfl

/-- Each kind that has labels is reported, and nothing else. -/
theorem foldlM_breakdown {map : List (κ × Metrics)} (h : kinds.foldlM (fun map k => do
      let subset := labels.filter fun l => kind l = k
      if subset.isEmpty then return map
      else return map ++ [(k, ← runAblation B searcher subset ablation discarded)]) map =
        .ok parts) :
    parts = map ++
      ((kinds.filter fun k => !(labels.filter fun l => kind l = k).isEmpty).map fun k =>
      (k, metricsOf (rankOf B searcher ablation) (labels.filter fun l => kind l = k) discarded)) ∧
    ∀ l ∈ labels, kind l ∈ kinds →
      rankedFor B searcher ablation.fusionConfig l = .ok (rankOf B searcher ablation l) := by
  induction kinds generalizing map with
  | nil =>
    obtain rfl := Except.ok.inj h
    refine ⟨?_, fun _ _ hkind => nomatch hkind⟩
    rw [List.filter_nil, List.map_nil, List.append_nil]
  | cons k kinds ih =>
    rw [List.foldlM_cons] at h
    obtain ⟨map', hmap, h⟩ := Except.bind_eq_ok.mp h
    obtain ⟨rfl, hranked⟩ := ih h
    rw [List.filter_cons]
    dsimp only at hmap
    split at hmap
    · next hempty =>
      obtain rfl := Except.ok.inj hmap
      rw [hempty]
      refine ⟨rfl, fun l hl hkind =>
        hranked l hl ((List.mem_cons.mp hkind).resolve_left fun hk => ?_)⟩
      have hmem : l ∈ labels.filter fun l => kind l = k :=
        List.mem_filter.mpr ⟨hl, decide_eq_true hk⟩
      rw [List.isEmpty_iff.mp hempty] at hmem
      cases hmem
    · next hsome =>
      obtain ⟨m, hm, hmap⟩ := Except.bind_eq_ok.mp hmap
      obtain rfl := Except.ok.inj hmap
      obtain ⟨rfl, hpart⟩ := runAblation_eq rank_rankOf hm
      rw [Bool.not_eq_true] at hsome
      rw [hsome, Bool.not_false, if_pos rfl, List.map_cons, List.append_assoc]
      refine ⟨rfl, fun l hl hkind => ?_⟩
      rcases List.mem_cons.mp hkind with hk | hk
      · exact hpart l (List.mem_filter.mpr ⟨hl, decide_eq_true hk⟩)
      · exact hranked l hl hk

theorem length_mul_mean {f : Label → ℚ} :
    (labels.length : ℚ) * mean f labels = (labels.map f).sum := by
  cases labels with
  | nil => rw [mean_nil, mul_zero, List.map_nil, List.sum_nil]
  | cons l labels =>
    refine mul_div_cancel₀ _ (Nat.cast_ne_zero.mpr ?_)
    rw [List.length_cons]
    exact Nat.succ_ne_zero _

/-- A part without labels adds nothing. -/
theorem sum_kinds {M : Type} [AddCommMonoid M] {g : List Label → M} (hg : g [] = 0) :
    ((kinds.filter fun k => !(labels.filter fun l => kind l = k).isEmpty).map fun k =>
      g (labels.filter fun l => kind l = k)).sum =
        (kinds.map fun k => g (labels.filter fun l => kind l = k)).sum := by
  induction kinds with
  | nil => rfl
  | cons k kinds ih =>
    rw [List.filter_cons, List.map_cons, List.sum_cons, ← ih]
    cases hpart : labels.filter fun l => kind l = k with
    | nil =>
      rw [hg, zero_add]
      rfl
    | cons l part =>
      have hsome : (!(l :: part).isEmpty) = true := rfl
      rw [if_pos hsome, List.map_cons, List.sum_cons, hpart]

theorem sum_figures (hnodup : kinds.Nodup) (hkinds : ∀ l ∈ labels, kind l ∈ kinds) {f : Label → ℚ} :
    ((kinds.filter fun k => !(labels.filter fun l => kind l = k).isEmpty).map fun k =>
      ((labels.filter fun l => kind l = k).length : ℚ) * mean f
      (labels.filter fun l => kind l = k)).sum =
      (labels.length : ℚ) * mean f labels := by
  rw [@sum_kinds labels _ _ kind kinds ℚ _ (fun part => (part.length : ℚ) * mean f part)
    (by rw [mean_nil, mul_zero])]
  simp only [length_mul_mean]
  exact sum_map_filter_kinds hnodup hkinds

theorem pools_breakdown (hnodup : kinds.Nodup) (hkinds : ∀ l ∈ labels, kind l ∈ kinds) :
    Metrics.Pools ((kinds.filter fun k => !(labels.filter fun l => kind l = k).isEmpty).map fun k =>
      (k, metricsOf rank (labels.filter fun l => kind l = k) discarded))
        (metricsOf rank labels discarded) where
  labelsScored := by
    rw [List.map_map]
    refine (sum_kinds (g := List.length) rfl).trans ?_
    have h := @sum_map_filter_kinds _ labels _ _ _ _ kind (fun _ => 1) kinds hnodup hkinds
    simp only [List.map_const', List.sum_replicate, nsmul_eq_mul, Nat.cast_id, mul_one] at h
    exact h
  top1 := by
    rw [List.map_map]
    exact sum_figures hnodup hkinds
  top3 := by
    rw [List.map_map]
    exact sum_figures hnodup hkinds
  top10 := by
    rw [List.map_map]
    exact sum_figures hnodup hkinds
  mrr := by
    rw [List.map_map]
    exact sum_figures hnodup hkinds

theorem mem_breakdown {k : κ} :
    (k, m) ∈ (kinds.filter fun k => !(labels.filter fun l => kind l = k).isEmpty).map (fun k =>
      (k, metricsOf rank (labels.filter fun l => kind l = k) discarded)) ↔
    k ∈ kinds ∧ (∃ l ∈ labels, kind l = k) ∧
      m = metricsOf rank (labels.filter fun l => kind l = k) discarded := by
  rw [List.mem_map]
  constructor
  · rintro ⟨k', hk', heq⟩
    obtain ⟨rfl, rfl⟩ := Prod.mk.inj heq
    obtain ⟨hk', hsome⟩ := List.mem_filter.mp hk'
    rw [Bool.not_eq_true', List.isEmpty_eq_false_iff_exists_mem] at hsome
    obtain ⟨l, hl⟩ := hsome
    obtain ⟨hl, hkind⟩ := List.mem_filter.mp hl
    exact ⟨hk', ⟨l, hl, of_decide_eq_true hkind⟩, rfl⟩
  · rintro ⟨hk, ⟨l, hl, hkind⟩, rfl⟩
    refine ⟨k, List.mem_filter.mpr ⟨hk, ?_⟩, rfl⟩
    rw [Bool.not_eq_true', List.isEmpty_eq_false_iff_exists_mem]
    exact ⟨l, List.mem_filter.mpr ⟨hl, decide_eq_true hkind⟩⟩

theorem mem_insertMetrics {map : List (Ablation × Metrics)} {a : Ablation} {m' : Metrics} :
    (a, m) ∈ insertMetrics map ablation m' ↔ a = ablation ∧ m = m' ∨ a ≠ ablation ∧
    (a, m) ∈ map := by
  rw [insertMetrics, List.mem_append, List.mem_filter, List.mem_singleton, Prod.mk.injEq,
    decide_eq_true_iff]
  tauto

/-- Every ablation that is asked for has its figures, however often it is. -/
theorem foldlM_insertMetrics {map map' : List (Ablation × Metrics)}
    (h : ablations.foldlM (fun map ablation => do
      return insertMetrics map ablation (← runAblation B searcher labels ablation discarded)) map =
        .ok map') :
    (∀ a m, (a, m) ∈ map' ↔
      a ∈ ablations ∧ m = metricsOf (rankOf B searcher a) labels discarded ∨ a ∉ ablations ∧
        (a, m) ∈ map) ∧
    ∀ a ∈ ablations, ∀ l ∈ labels, rankedFor B searcher a.fusionConfig l =
      .ok (rankOf B searcher a l) := by
  induction ablations generalizing map with
  | nil =>
    obtain rfl := Except.ok.inj h
    simp
  | cons ablation ablations ih =>
    rw [List.foldlM_cons] at h
    obtain ⟨map₁, hmap, h⟩ := Except.bind_eq_ok.mp h
    obtain ⟨m₁, hm, hmap⟩ := Except.bind_eq_ok.mp hmap
    obtain rfl := Except.ok.inj hmap
    obtain ⟨rfl, hranked⟩ := runAblation_eq rank_rankOf hm
    obtain ⟨hmem, hall⟩ := ih h
    refine ⟨fun a m => ?_, List.forall_mem_cons.mpr ⟨hranked, hall⟩⟩
    rw [hmem, mem_insertMetrics, List.mem_cons]
    by_cases ha : a = ablation
    · subst ha
      tauto
    · tauto

/-- What a run reports, where `rank` is what the searches have ranked. -/
structure EvalRun.Reports (run : EvalRun) (rank : Ablation → Label → Pairs)
    (ablations : List Ablation) (scored : List Label) (discarded : Nat) : Prop where
  perAblation (ablation : Ablation) (m : Metrics) : (ablation, m) ∈ run.perAblation ↔
    ablation ∈ ablations ∧ m = metricsOf (rank ablation) scored discarded
  bySource (source : LabelSource) (m : Metrics) : (source, m) ∈ run.bySource ↔
    (∃ l ∈ scored, l.source = source) ∧
      m = metricsOf (rank .fused) (scored.filter fun l => l.source = source) discarded
  byQueryLength (bucket : LengthBucket) (m : Metrics) : (bucket, m) ∈ run.byQueryLength ↔
    (∃ l ∈ scored, LengthBucket.fromQuery l.query = bucket) ∧
    m = metricsOf (rank .fused) (scored.filter fun l => LengthBucket.fromQuery l.query = bucket)
      discarded
  sourcesPool : Metrics.Pools run.bySource (metricsOf (rank .fused) scored discarded)
  lengthsPool : Metrics.Pools run.byQueryLength (metricsOf (rank .fused) scored discarded)

theorem length_rankOf : (rankOf B searcher ablation label).length ≤ 10 := by
  rw [rankOf]
  cases h : rankedFor B searcher ablation.fusionConfig label with
  | error e => exact Nat.zero_le 10
  | ok ranked => exact length_rankedFor h

theorem EvalRun.Reports.sound {run : EvalRun}
    (h : run.Reports (rankOf B searcher) ablations scored discarded) :
    (∀ a m, (a, m) ∈ run.perAblation → m.Sound) ∧
    (∀ source m, (source, m) ∈ run.bySource → m.Sound) ∧
      ∀ bucket m, (bucket, m) ∈ run.byQueryLength → m.Sound := by
  refine ⟨fun a m hm => ?_, fun source m hm => ?_, fun bucket m hm => ?_⟩
  · rw [((h.perAblation a m).mp hm).2]
    exact sound_metricsOf fun _ _ => length_rankOf
  · rw [((h.bySource source m).mp hm).2]
    exact sound_metricsOf fun _ _ => length_rankOf
  · rw [((h.byQueryLength bucket m).mp hm).2]
    exact sound_metricsOf fun _ _ => length_rankOf

/-- What a run that ends well has scored, searched for and reported. -/
theorem evaluate_ok {run : EvalRun} (h : evaluate B searcher rows labels ablations = .ok run) :
    ∃ live scored discarded, rows = .ok live ∧ scored = labels.filter (Label.scorable live) ∧
      scored.length + discarded = labels.length ∧
      (∀ ablation ∈ .fused :: ablations, ∀ l ∈ scored,
        rankedFor B searcher ablation.fusionConfig l = .ok (rankOf B searcher ablation l)) ∧
      run.Reports (rankOf B searcher) ablations scored discarded := by
  obtain ⟨⟨scored, discarded⟩, hparts, h⟩ := Except.bind_eq_ok.mp h
  obtain ⟨live, hlive, hscored, hcount⟩ := partitionLabels_ok hparts
  obtain ⟨perAblation, hper, h⟩ := Except.bind_eq_ok.mp h
  obtain ⟨bySource, hsource, h⟩ := Except.bind_eq_ok.mp h
  obtain ⟨byQueryLength, hlength, h⟩ := Except.bind_eq_ok.mp h
  obtain rfl := Except.ok.inj h
  obtain ⟨hmem, hall⟩ := foldlM_insertMetrics hper
  have hsources : ∀ l ∈ scored, l.source ∈ [LabelSource.commitSubject, .docstring] := by
    intro l _
    cases l.source with
    | commitSubject | docstring => decide
  have hbuckets : ∀ l ∈ scored, LengthBucket.fromQuery l.query ∈
      [LengthBucket.short, .medium, .long] := by
    intro l _
    cases LengthBucket.fromQuery l.query with
    | short | medium | long => decide
  obtain ⟨rfl, hranked⟩ := foldlM_breakdown hsource
  obtain ⟨rfl, -⟩ := foldlM_breakdown hlength
  have hreports : EvalRun.Reports ⟨perAblation, _, _⟩ (rankOf B searcher) ablations scored
      discarded := {
    perAblation := fun a m => by
      rw [hmem]
      simp
    bySource := fun source m => by
      refine mem_breakdown.trans ⟨fun h => h.2, fun h => ⟨?_, h⟩⟩
      obtain ⟨⟨l, hl, rfl⟩, -⟩ := h
      exact hsources l hl
    byQueryLength := fun bucket m => by
      refine mem_breakdown.trans ⟨fun h => h.2, fun h => ⟨?_, h⟩⟩
      obtain ⟨⟨l, hl, rfl⟩, -⟩ := h
      exact hbuckets l hl
    sourcesPool := pools_breakdown (by decide) hsources
    lengthsPool := pools_breakdown (by decide) hbuckets }
  exact ⟨live, scored, discarded, hlive, hscored, hcount,
    List.forall_mem_cons.mpr ⟨fun l hl => hranked l hl (hsources l hl), hall⟩, hreports⟩

/-- A run that ends well has scored or discarded each label, and all that it has scored has been
searched for. What it reports of each ablation are means over these labels, what it reports of their
parts adds up to that, and none of its figures contradicts another. -/
theorem evaluate_reports {run : EvalRun} (h : evaluate B searcher rows labels ablations = .ok run) :
    ∃ live scored discarded, rows = .ok live ∧ scored = labels.filter (Label.scorable live) ∧
      scored.length + discarded = labels.length ∧
      (∀ ablation ∈ .fused :: ablations, ∀ l ∈ scored,
        rankedFor B searcher ablation.fusionConfig l = .ok (rankOf B searcher ablation l)) ∧
      run.Reports (rankOf B searcher) ablations scored discarded ∧
      (∀ a m, (a, m) ∈ run.perAblation → m.Sound) ∧
      (∀ source m, (source, m) ∈ run.bySource → m.Sound) ∧
      ∀ bucket m, (bucket, m) ∈ run.byQueryLength → m.Sound := by
  obtain ⟨live, scored, discarded, hlive, hscored, hcount, hranked, hreports⟩ := evaluate_ok h
  exact ⟨live, scored, discarded, hlive, hscored, hcount, hranked, hreports, hreports.sound⟩

end

end SiftMcp
