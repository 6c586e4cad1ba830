import SiftMcp.Daemon.Matches
import SiftMcp.Eval.Metrics
import SiftMcp.Eval.Reports

/-!
# What the ablations compare

Over an index that the daemon has built, one retriever alone ranks what it is to find: the chunks
that have a term of the query, or the chunks nearest to it. Where few chunks have a term, the fused
ranking finds all that the words find.

* `Served.ablations_alone`: what each retriever ranks by itself.
* `evaluate_fused_keeps`: the figures of words alone and of both.
* `evaluate_mined`: labels mined from an index, evaluated over it.
-/

namespace SiftMcp
open Durable

/-- A search over what a resident has. -/
def Resident.searcher (r : Resident) : Searcher := .new r.lexical r.dense r.store r.embedder

/-- The record under the row is of the file and of the symbol. -/
def Resident.Names (r : Resident) (row : RowId) (pair : String × String) : Prop :=
  ∃ record, r.store.get row = some record ∧ pair = (record.file, record.symbol)

/-- The configuration of an ablation. -/
abbrev Backends.ablated (B : Backends) (ablation : Ablation) : Backends :=
  { B with fusion := ablation.fusionConfig }

section

variable {B : Backends} {cfg : DaemonConfig}
  {allowed : List IndexRequest → Resident → IndexRequest → Prop}
  {qs : List IndexRequest} {r : Resident} {E : Embedder} {X : Tantivy F32} {ablation : Ablation}
  {label : Label} {ranked : Pairs} {x : FusedRow F32} {result : SearchResult}
  {lexical dense : Scored} {labels : List Label} {row : RowId} {p q : String × String}

theorem Backends.Lawful.ablated (hB : B.Lawful) : (B.ablated ablation).Lawful :=
  ⟨hB.scoring, hB.tantivy, hB.scores⟩

theorem Resident.names_of_shows (h : r.Shows x result) :
    r.Names x.row (result.file, result.symbol) := by
  cases h with
  | mk record body hget _ _ => exact ⟨record, hget, rfl⟩

theorem Resident.Names.unique (hp : r.Names row p) (hq : r.Names row q) : p = q := by
  obtain ⟨record, hget, rfl⟩ := hp
  obtain ⟨record', hget', rfl⟩ := hq
  obtain rfl := Option.some.inj (hget.symm.trans hget')
  rfl

theorem rankedFor_ok (h : rankedFor B r.searcher ablation.fusionConfig label = .ok ranked) :
    ∃ vector, B.embed r.embedder .query label.query = .ok vector ∧
      ranked = ((B.ablated ablation).hits r 10
        (rowsOf ((B.ablated ablation).lexicalOutcome r label.query .query))
        (rowsOf ((B.ablated ablation).denseOutcome r vector))).map fun x => (x.file, x.symbol) := by
  obtain ⟨response, hresponse, rfl⟩ := Except.map_eq_ok.mp h
  have hrun := (@run_retrieval (B.ablated ablation) r .query label.query 10).symm.trans
    (Except.mapError_eq_ok.mp hresponse)
  obtain ⟨vector, hvector, hfound⟩ := Except.mapError_bind_eq_ok.mp hrun
  obtain ⟨-, -, -, rfl⟩ := found_ok.mp hfound
  exact ⟨vector, hvector, rfl⟩

/-! ## One retriever alone -/

/-- Of a lexical ranking alone, the rows come back in its order. -/
theorem Resident.Backed.forall₂_lexical (hr : r.Backed E) (hS : B.scoring.Lawful)
    (hdesc : B.scoring.Descends B.fusion.lexicalDepth) (hrows : (lexical.map (·.row)).Nodup)
    (hl : ∀ y ∈ lexical, y.row ∈ DocIndex.keys r.lexical.reader)
    (hd : ∀ y ∈ dense, y.row ∈ r.store.liveRows) (hdense : dense.take B.fusion.denseDepth = [])
    {topK : Nat} : List.Forall₂ (fun x result => r.Names x.row (result.file, result.symbol))
      (lexical.take (min topK B.fusion.lexicalDepth)) (B.hits r topK lexical dense) := by
  have hshown := @forall₂_hits B r E topK lexical dense hr hl hd
  rw [fuse_of_lexical hS hdesc hrows hdense, ← List.map_take, List.take_take,
    List.forall₂_map_left_iff] at hshown
  exact hshown.imp fun _ _ => names_of_shows

variable [LinearOrder F32] {X : Tantivy F32} {F : DenseMachine F32} {ls ds : Pairs}

/-- With the words alone, the chunks that have a term of the query are ranked. -/
theorem Served.lexical_alone (hserved : Served cfg allowed qs r) (hB : B.Lawful) (hlive : B.Live)
    (hX : B.OnTantivy X) (hlawful : X.Lawful) (hdesc : B.scoring.Descends 50)
    (h : rankedFor B r.searcher Ablation.lexicalOnly.fusionConfig label = .ok ranked)
    (hok : B.lexicalSearch r.lexical.reader label.query 50 = .ok lexical) :
    ∃ all : Scored, r.RanksMeeting label.query all ∧
      List.Forall₂ r.Names ((all.take 10).map fun x => x.row) ranked := by
  have hr := hserved.backed
  obtain ⟨vector, -, rfl⟩ := rankedFor_ok h
  have hrows : (B.ablated .lexicalOnly).lexicalOutcome r label.query .query = .ok lexical := hok
  rw [hrows]
  have hkeys : ∀ y ∈ lexical, y.row ∈ DocIndex.keys r.lexical.reader :=
    (Backends.lexicalSearch_ok hB hok).2
  obtain ⟨all, hranks, rfl⟩ :=
    @Backends.OnTantivy.ranks (B.ablated .lexicalOnly) r _ label.query X _ hX hlawful hr _ hrows
  have hshown := @Resident.Backed.forall₂_lexical (B.ablated .lexicalOnly) r _ _
    (rowsOf ((B.ablated .lexicalOnly).denseOutcome r vector)) hr hB.scoring hdesc
    ((hranks.nodup hr).sublist ((List.take_sublist _ _).map _)) hkeys
    (fun _ => (B.ablated .lexicalOnly).mem_denseOutcome hlive hserved.dense_eq) (List.take_zero) 10
  refine ⟨all, hranks, List.forall₂_map_left_iff.mpr (List.forall₂_map_right_iff.mpr ?_)⟩
  rw [List.take_take] at hshown
  exact hshown

/-- With the vectors alone, the chunks nearest to the query are. -/
theorem Served.dense_alone (hserved : Served cfg allowed qs r) (hB : B.Lawful) (hcpu : B.OnCpu F)
    (hdesc : B.scoring.Descends 50) {vector : List F16}
    (hvector : B.embed cfg.embedder .query label.query = .ok vector)
    (h : rankedFor B r.searcher Ablation.denseOnly.fusionConfig label = .ok ranked)
    (hok : B.denseSearch r.dense vector r.embedder.modelId 50 = .ok dense) :
    ∃ a, Repr r.store a ∧
      List.Forall₂ r.Names (((a.nearest F vector).take 10).map fun x => x.row) ranked := by
  have hr := hserved.backed
  obtain ⟨vector', hvector', rfl⟩ := rankedFor_ok h
  rw [hr.1] at hvector'
  obtain rfl := Except.ok.inj (hvector.symm.trans hvector')
  have hshown : List.Forall₂ r.ShowsScored
      ((rowsOf ((B.ablated .denseOnly).denseOutcome r vector)).take (min 10 50))
      ((B.ablated .denseOnly).hits r 10
        (rowsOf ((B.ablated .denseOnly).lexicalOutcome r label.query .query))
        (rowsOf ((B.ablated .denseOnly).denseOutcome r vector))) :=
    @Resident.Backed.forall₂_dense (B.ablated .denseOnly) r _ 10 _ _ hr hB.scoring hdesc
      (Backends.denseSearch_nodup hB.ablated) (fun _ => Backends.mem_lexicalOutcome hB.ablated)
      (fun _ => @Backends.mem_denseOutcome (B.ablated .denseOnly) r vector hcpu.live
        hserved.dense_eq _) List.take_zero
  have hrows : (B.ablated .denseOnly).denseOutcome r vector = .ok dense := hok
  obtain ⟨a, hrepr, rfl⟩ :=
    @Backends.OnCpu.nearest (B.ablated .denseOnly) r _ _ vector _ F hcpu hr hserved.dense_eq hrows
  refine ⟨a, hrepr, List.forall₂_map_left_iff.mpr (List.forall₂_map_right_iff.mpr ?_)⟩
  have hlength : ((a.nearest F vector).take 50).take (min 10 50) = (a.nearest F vector).take 10 :=
    List.take_take
  rw [hrows] at hshown ⊢
  refine (hlength ▸ hshown).imp fun x result hx => ?_
  obtain ⟨y, hrow, -, -, hy⟩ := hx
  exact hrow ▸ Resident.names_of_shows hy

/-- Each retriever alone ranks what it is to find, as far as it does not fail: the chunks that have
a term of the query, or the chunks that are nearest to it. -/
theorem Served.ablations_alone (hserved : Served cfg allowed qs r) (hB : B.Lawful)
    (hX : B.OnTantivy X) (hlawful : X.Lawful) (hcpu : B.OnCpu F) (hdesc : B.scoring.Descends 50)
    {vector : List F16} (hvector : B.embed cfg.embedder .query label.query = .ok vector)
    (hl : rankedFor B r.searcher Ablation.lexicalOnly.fusionConfig label = .ok ls)
    (hd : rankedFor B r.searcher Ablation.denseOnly.fusionConfig label = .ok ds) :
    ((∃ found, B.lexicalSearch r.lexical.reader label.query 50 = .ok found) → ∃ all : Scored,
      r.RanksMeeting label.query all ∧ List.Forall₂ r.Names ((all.take 10).map fun x => x.row) ls) ∧
    ((∃ found, B.denseSearch r.dense vector r.embedder.modelId 50 = .ok found) → ∃ a,
      Repr r.store a ∧
        List.Forall₂ r.Names (((a.nearest F vector).take 10).map fun x => x.row) ds) := by
  refine ⟨fun hok => ?_, fun hok => ?_⟩
  · obtain ⟨found, hfound⟩ := hok
    exact hserved.lexical_alone hB hcpu.live hX hlawful hdesc hl hfound
  · obtain ⟨found, hfound⟩ := hok
    exact hserved.dense_alone hB hcpu hdesc hvector hd hfound

/-! ## Both together -/

/-- Where few chunks have a term of the query, both rankings together have all that the words alone
find. -/
theorem Served.subset_fused (hserved : Served cfg allowed qs r) (hB : B.Lawful) (hlive : B.Live)
    (hX : B.OnTantivy X) (hlawful : X.Lawful) (hdesc : B.scoring.Descends 50)
    (hok : B.lexicalSearch r.lexical.reader label.query 50 = .ok lexical)
    (hfew : (r.meeting label.query).length ≤ 5)
    (hl : rankedFor B r.searcher Ablation.lexicalOnly.fusionConfig label = .ok ls)
    (hf : rankedFor B r.searcher Ablation.fused.fusionConfig label = .ok ds) : ls ⊆ ds := by
  intro pair hpair
  obtain ⟨all, hranks, hnames⟩ := hserved.lexical_alone hB hlive hX hlawful hdesc hl hok
  obtain ⟨row, hrow, hname⟩ := forall₂_right hnames pair hpair
  have hmeets : row ∈ r.meeting label.query := by
    apply hranks.meets.mem_iff.mp
    obtain ⟨x, hx, rfl⟩ := List.mem_map.mp hrow
    exact List.mem_map_of_mem (List.mem_of_mem_take hx)
  obtain ⟨vector, -, rfl⟩ := rankedFor_ok hf
  have hrows : (B.ablated .fused).lexicalOutcome r label.query .query = .ok lexical := hok
  obtain ⟨x, result, rfl, hshown, hresult⟩ :=
    @Served.mem_hits_of_meeting (B.ablated .fused) _ _ _ _ _ 10 5 _ _ _
    hserved hB.ablated hlive hX hlawful hdesc _ vector hrows hfew (show 5 ≤ 50 by decide)
      (by decide) hmeets
  rw [hname.unique (Resident.names_of_shows hshown), hrows]
  exact List.mem_map_of_mem hresult

/-- Where few chunks have a term of a query, a run never reports more answers of the words alone,
among the first ten results, than of both rankings together. -/
theorem evaluate_fused_keeps (hserved : Served cfg allowed qs r) (hB : B.Lawful) (hlive : B.Live)
    (hX : B.OnTantivy X) (hlawful : X.Lawful) (hdesc : B.scoring.Descends 50)
    (hok : ∀ l ∈ labels, ∃ found, B.lexicalSearch r.lexical.reader l.query 50 = .ok found)
    (hfew : ∀ l ∈ labels, (r.meeting l.query).length ≤ 5)
    {rows : Except String (List (Option ChunkRecord))} {ablations : List Ablation} {run : EvalRun}
    {m m' : Metrics} (h : evaluate B r.searcher rows labels ablations = .ok run)
    (hm : (.lexicalOnly, m) ∈ run.perAblation) (hm' : (.fused, m') ∈ run.perAblation) :
    m.labelsScored = m'.labelsScored ∧ m.top10 ≤ m'.top10 := by
  obtain ⟨live, scored, discarded, -, rfl, -, hranked, hreports⟩ := evaluate_ok h
  obtain ⟨hlexical, rfl⟩ := (hreports.perAblation _ _).mp hm
  obtain ⟨-, rfl⟩ := (hreports.perAblation _ _).mp hm'
  refine ⟨rfl, mean_le_mean fun l hl => hit_le_hit_of_subset length_rankOf ?_⟩
  have hmem := List.mem_of_mem_filter hl
  obtain ⟨found, hfound⟩ := hok l hmem
  exact hserved.subset_fused hB hlive hX hlawful hdesc hfound (hfew l hmem)
    (hranked _ (List.mem_cons_of_mem _ hlexical) l hl) (hranked _ List.mem_cons_self l hl)

end

/-! ## Labels of commits -/

section

variable {Tree : Type} {repo : MinedRepo Tree} {blake3 : List UInt8 → ContentHash} {ts : TreeSitter}
  {config : MiningConfig} {indexed : Pairs} {maintenance : List (String × (Text → Bool))}
  {m m' : CommitMining} {id : String} {rows : Except String (List (Option ChunkRecord))}
  {live : List (Option ChunkRecord)} {chunker : Except String Unit} {labels : List Label}
  {report : MiningReport}

/-- The label expects something, and only what is indexed. -/
def Label.IndexedIn (label : Label) (indexed : Pairs) : Prop :=
  label.expected ≠ [] ∧ label.expected ⊆ indexed

theorem indexedIn_mineCommit (hm : ∀ label ∈ m.labels, label.IndexedIn indexed)
    (h : mineCommit repo blake3 ts config indexed maintenance m id = .ok m') :
    ∀ label ∈ m'.labels, label.IndexedIn indexed := by
  obtain ⟨commit, -, h⟩ := Except.bind_eq_ok.mp h
  dsimp only at h
  split at h
  · obtain rfl := Except.ok.inj h
    exact hm
  obtain ⟨subject, -, h⟩ := Except.bind_eq_ok.mp h
  split at h
  · obtain rfl := Except.ok.inj h
    exact hm
  split at h
  · obtain rfl := Except.ok.inj h
    exact hm
  obtain ⟨parent, -, h⟩ := Except.bind_eq_ok.mp h
  obtain ⟨touched, -, h⟩ := Except.bind_eq_ok.mp h
  split at h
  · obtain rfl := Except.ok.inj h
    exact hm
  split at h
  · obtain rfl := Except.ok.inj h
    exact hm
  split at h
  · obtain rfl := Except.ok.inj h
    exact hm
  · next hsome _ hmissing =>
    obtain rfl := Except.ok.inj h
    refine List.forall_mem_append.mpr
      ⟨hm, List.forall_mem_singleton.mpr ⟨hsome, fun pair hpair => ?_⟩⟩
    by_contra hne
    refine hmissing (List.length_pos_of_mem (List.mem_filter.mpr ⟨hpair, ?_⟩))
    rw [Bool.not_eq_true', ← Bool.not_eq_true, List.contains_iff_mem]
    exact hne

theorem indexedIn_mineWalk {walk : List (Except String String)}
    (hm : ∀ label ∈ m.labels, label.IndexedIn indexed)
    (h : mineWalk repo blake3 ts config indexed maintenance m walk = .ok m') :
    ∀ label ∈ m'.labels, label.IndexedIn indexed := by
  induction walk generalizing m with
  | nil =>
    obtain rfl := Except.ok.inj h
    exact hm
  | cons info walk ih =>
    obtain ⟨id, -, h⟩ := Except.bind_eq_ok.mp h
    split at h
    · obtain rfl := Except.ok.inj h
      exact hm
    · obtain ⟨next, hnext, h⟩ := Except.bind_eq_ok.mp h
      exact ih (indexedIn_mineCommit hm hnext) h

theorem Label.IndexedIn.scorable {label : Label} (h : label.IndexedIn (indexedSymbolSet live)) :
    label.scorable live = true := by
  obtain ⟨hne, hsub⟩ := h
  rw [Label.scorable, Bool.and_eq_true, List.all_eq_true]
  refine ⟨fun pair hpair => List.contains_iff_mem.mpr ?_, ?_⟩
  · obtain ⟨row, hrow, hsymbol⟩ := List.mem_filterMap.mp (hsub hpair)
    obtain ⟨rec, rfl, hrec⟩ := Option.bind_eq_some_iff.mp hsymbol
    refine List.mem_filterMap.mpr ⟨some rec, hrow, ?_⟩
    split at hrec
    · cases hrec
    · exact hrec
  · rw [Bool.not_eq_true', List.isEmpty_eq_false_iff]
    exact hne

/-- What is mined of an index can be scored over it. -/
theorem scorable_mineCommits
    (h : mineCommits repo blake3 ts config (.ok live) chunker = .ok (labels, report)) :
    ∀ label ∈ labels, label.scorable live = true := by
  obtain ⟨-, -, h⟩ := Except.bind_eq_ok.mp h
  obtain ⟨-, -, h⟩ := Except.bind_eq_ok.mp h
  obtain ⟨tip, -, h⟩ := Except.bind_eq_ok.mp h
  obtain ⟨rows, hrows, h⟩ := Except.bind_eq_ok.mp h
  obtain rfl := Except.ok.inj (Except.mapError_eq_ok.mp hrows)
  obtain ⟨-, -, h⟩ := Except.bind_eq_ok.mp h
  obtain ⟨maintenance, -, h⟩ := Except.bind_eq_ok.mp h
  obtain ⟨walk, -, h⟩ := Except.bind_eq_ok.mp h
  obtain ⟨m, hm, h⟩ := Except.bind_eq_ok.mp h
  obtain ⟨rfl, -⟩ := Prod.mk.inj (Except.ok.inj h)
  have hstart : ∀ label ∈ (CommitMining.mk .new []).labels, label.IndexedIn
      (indexedSymbolSet live) :=
    List.forall_mem_nil _
  intro label hlabel
  exact (indexedIn_mineWalk hstart hm label ((List.mem_insertionSort _).mp hlabel)).scorable

/-- An evaluation over the index that its labels have been mined of discards none of them: each
ablation is judged by all of them. -/
theorem evaluate_mined {B : Backends} {searcher : Searcher} {ablations : List Ablation}
    {run : EvalRun}
    (hmined : mineCommits repo blake3 ts config (.ok live) chunker = .ok (labels, report))
    (h : evaluate B searcher (.ok live) labels ablations = .ok run) {ablation : Ablation}
    {m : Metrics} (hm : (ablation, m) ∈ run.perAblation) :
    m = metricsOf (rankOf B searcher ablation) labels 0 ∧
      m.labelsScored = report.labelsAccepted := by
  obtain ⟨live', scored, discarded, hlive, rfl, hcount, -, hreports⟩ := evaluate_ok h
  obtain rfl := Except.ok.inj hlive
  rw [List.filter_eq_self.mpr (scorable_mineCommits hmined)] at hcount hreports
  obtain rfl := Nat.add_eq_left.mp hcount
  obtain ⟨-, rfl⟩ := (hreports.perAblation _ _).mp hm
  exact ⟨rfl, (reconciles_mineCommits hmined).2.symm⟩

end

/-! ## Sample evaluations -/

/-- Scores that fall with every place that is looked at. -/
def placesScoring : Scoring F32 :=
  { sampleScoring with reciprocal := fun rank => 0x3c864b8a - (min rank 99).toUInt32 }

theorem placesScoring_descends : placesScoring.Descends 50 := by
  have h : ∀ n < 50, ∀ m < n, ¬placesScoring.le (placesScoring.total [m + 1])
      (placesScoring.total [n + 1]) := by
    decide +kernel
  exact fun m n hmn hn => h n hn m hmn

theorem placesScoring_reciprocal {n : Nat} :
    placesScoring.reciprocal n = placesScoring.reciprocal (min n 99) := by
  simp only [placesScoring, Nat.min_assoc, Nat.min_self]

theorem Scoring.total_singleton {σ : Type} {S : Scoring σ} {n : Nat} :
    S.total [n] = S.add S.zero (S.reciprocal n) := rfl

theorem placesScoring_grows {ns : List Nat} {n : Nat} :
    placesScoring.le (placesScoring.total ns) (placesScoring.total (ns ++ [n])) := by
  rw [Fuses.total_concat]
  apply decide_eq_true
  show placesScoring.total ns ≤ if _ then _ else _
  split
  · next h => exact h.2
  · split
    · assumption
    · exact UInt32.le_refl _

theorem placesScoring_first {n : Nat} :
    ¬placesScoring.le (placesScoring.total [1]) (placesScoring.total [n + 2]) := by
  have h : ∀ k < 100, 1 < k →
      ¬placesScoring.le (placesScoring.total [1]) (placesScoring.total [k]) := by
    decide +kernel
  rw [@Scoring.total_singleton _ _ (n + 2), placesScoring_reciprocal, ← Scoring.total_singleton]
  exact h _ (Nat.lt_succ_of_le (Nat.min_le_right _ _))
    (Nat.lt_min.mpr ⟨Nat.le_add_left 2 n, by decide⟩)

theorem placesScoring_lawful : placesScoring.Lawful :=
  ⟨sampleScoring_lawful.total, sampleScoring_lawful.trans, fun _ _ => placesScoring_grows, fun _ =>
    placesScoring_first⟩

/-- The retrievers of the repository, over the sample indexes. -/
def repositoryBackends : Backends :=
  { segmentBackends with
    scores := cpuBackends.scores
    scoring := placesScoring }

theorem repositoryBackends_lawful : repositoryBackends.Lawful :=
  ⟨placesScoring_lawful, segmentBackends_lawful.tantivy, cpuBackends_lawful.scores⟩

/-- The functions of the two files, and one that is not there. -/
def firstLabels : List Label :=
  [⟨"f", [("a.rs", "f")], .docstring, "a.rs:f"⟩, ⟨"h", [("c.rs", "h")], .commitSubject, "c1"⟩,
    ⟨"g", [("a.rs", "g")], .commitSubject, "c2"⟩]

def firstRows : List (Option ChunkRecord) :=
  firstResident.store.liveRows.map firstResident.store.get

/-- Two labels are scored, and one is discarded. -/
theorem evaluate_reports_first : ∃ run,
    evaluate repositoryBackends firstResident.searcher (.ok firstRows) firstLabels
      [.lexicalOnly, .fused] = .ok run ∧
    (run.perAblation.map fun p => (p.1, p.2.labelsScored, p.2.labelsDiscarded)) =
      [(.lexicalOnly, 2, 1), (.fused, 2, 1)] ∧
    ∀ a m, (a, m) ∈ run.perAblation → m.Sound := by
  have hok : (evaluate repositoryBackends firstResident.searcher (.ok firstRows) firstLabels
      [.lexicalOnly, .fused]).toOption.map (fun run =>
        run.perAblation.map fun p => (p.1, p.2.labelsScored, p.2.labelsDiscarded)) =
        some [(.lexicalOnly, 2, 1), (.fused, 2, 1)] := by
    decide +kernel
  obtain ⟨run, hrun, hkeys⟩ := Option.map_eq_some_iff.mp hok
  have h := Except.toOption_eq_some.mp hrun
  obtain ⟨live, scored, discarded, -, -, -, -, -, hsound, -⟩ := evaluate_reports h
  exact ⟨run, h, hkeys, hsound⟩

theorem reported_of_keys {run : EvalRun} {keys : List Ablation} {a : Ablation}
    (hkeys : run.perAblation.map (·.1) = keys) (ha : a ∈ keys) : ∃ m, (a, m) ∈ run.perAblation := by
  obtain ⟨p, hp, rfl⟩ := List.mem_map.mp (hkeys.symm ▸ ha)
  exact ⟨p.2, hp⟩

theorem firstResident_kept : Served sampleConfig (fun _ _ _ => True) [firstRequest] firstResident :=
  firstResident_served trivial

/-- The second file is looked for, by its name and by a vector. -/
theorem Served.ablations_alone_first : ∃ (all : Scored) (a : Contents) (ls ds : Pairs),
    @Resident.RanksMeeting F32 totalOrder firstResident "h" all ∧
    List.Forall₂ firstResident.Names ((all.take 10).map fun x => x.row) ls ∧
    List.Forall₂ firstResident.Names
      (((@Contents.nearest F32 totalOrder bitMachine a [0, 0]).take 10).map fun x => x.row) ds := by
  have hlexical :
      (rankedFor repositoryBackends firstResident.searcher Ablation.lexicalOnly.fusionConfig
      ⟨"h", [], .docstring, ""⟩).isOk = true := by
    decide +kernel
  have hdense : (rankedFor repositoryBackends firstResident.searcher Ablation.denseOnly.fusionConfig
      ⟨"h", [], .docstring, ""⟩).isOk = true := by
    decide +kernel
  have hwords : (repositoryBackends.lexicalSearch firstResident.lexical.reader "h" 50).isOk =
      true := by decide +kernel
  have hvectors :
      (repositoryBackends.denseSearch firstResident.dense [0, 0]
        firstResident.embedder.modelId 50).isOk = true := by
    decide +kernel
  obtain ⟨ls, hls⟩ := Except.isOk_iff.mp hlexical
  obtain ⟨ds, hds⟩ := Except.isOk_iff.mp hdense
  obtain ⟨hl, hd⟩ :=
    @Served.ablations_alone repositoryBackends _ _ _ _ ⟨"h", [], .docstring, ""⟩ totalOrder
    (@oneSegment F32 totalOrder 0) bitMachine _ _ firstResident_kept repositoryBackends_lawful
    segmentBackends_onTantivy (@oneSegment_lawful F32 totalOrder 0) cpuBackends_onCpu
      placesScoring_descends [0, 0]
    rfl hls hds
  obtain ⟨all, hall, hnames⟩ := hl (Except.isOk_iff.mp hwords)
  obtain ⟨a, -, hnear⟩ := hd (Except.isOk_iff.mp hvectors)
  exact ⟨all, a, ls, ds, hall, hnames, hnear⟩

/-- The two labels are among few chunks. -/
theorem evaluate_fused_keeps_first : ∃ (run : EvalRun) (m m' : Metrics),
    evaluate repositoryBackends firstResident.searcher (.ok firstRows) firstLabels
      [.lexicalOnly, .fused] = .ok run ∧
    (.lexicalOnly, m) ∈ run.perAblation ∧ (.fused, m') ∈ run.perAblation ∧ m.top10 ≤ m'.top10 := by
  have hok : (evaluate repositoryBackends firstResident.searcher (.ok firstRows) firstLabels
      [.lexicalOnly, .fused]).toOption.map (fun run => run.perAblation.map (·.1)) =
        some [.lexicalOnly, .fused] := by
    decide +kernel
  have hwords : ∀ l ∈ firstLabels,
      (repositoryBackends.lexicalSearch firstResident.lexical.reader l.query 50).isOk = true := by
    decide +kernel
  have hfew : ∀ l ∈ firstLabels, (firstResident.meeting l.query).length ≤ 5 := by decide +kernel
  obtain ⟨run, hrun, hkeys⟩ := Option.map_eq_some_iff.mp hok
  have h := Except.toOption_eq_some.mp hrun
  obtain ⟨m, hm⟩ := reported_of_keys hkeys List.mem_cons_self
  obtain ⟨m', hm'⟩ := reported_of_keys hkeys (List.mem_cons_of_mem _ List.mem_cons_self)
  exact ⟨run, m, m', h, hm, hm',
    (@evaluate_fused_keeps repositoryBackends _ _ _ _ firstLabels totalOrder
    (@oneSegment F32 totalOrder 0) firstResident_kept repositoryBackends_lawful
    (@Backends.OnCpu.live _ totalOrder _ cpuBackends_onCpu) segmentBackends_onTantivy
    (@oneSegment_lawful F32 totalOrder 0) placesScoring_descends
    (fun l hl => Except.isOk_iff.mp (hwords l hl)) hfew
    _ _ _ _ _ h hm hm').2⟩

/-- A history of one commit, which adds a function. -/
def addingRepo : MinedRepo Unit where
  opened := .ok ()
  headCommit := .ok "a"
  headId := .ok "a"
  revWalk _ := .ok [.ok "a"]
  commit _ := .ok ⟨"a", [], .ok "Add a first function".toList, .ok ()⟩
  diffTreeToTree _ _ := .ok [.addition (utf8Bytes "a.py".toList) .blob]
  lookupEntryByPath _ _ := .ok (some ⟨.blob, "new"⟩)
  findObject _ := .ok (utf8Bytes commentSource)
  diffLines _ _ := []
  maintenanceRegex _ := .ok fun _ => false

def addingConfig : MiningConfig := { MiningConfig.default with enforcePinnedRevision := false }

def addingLabel : Label := ⟨"Add a first function", [("a.py", "f")], .commitSubject, "a"⟩

/-- The label of that commit is scored. -/
theorem evaluate_mined_adding : ∃ run m,
    mineCommits addingRepo (fun _ => ⟨0⟩) commentParser addingConfig
      (.ok [some commentChunk.record]) (.ok ()) =
      .ok ([addingLabel], ⟨1, 1, []⟩) ∧
    evaluate sampleBackends sampleResident.searcher (.ok [some commentChunk.record]) [addingLabel]
      [.fused] = .ok run ∧
    (.fused, m) ∈ run.perAblation ∧ m.labelsScored = 1 := by
  have hmined :
      (mineCommits addingRepo (fun _ => ⟨0⟩) commentParser addingConfig
      (.ok [some commentChunk.record]) (.ok ())).toOption = some ([addingLabel], ⟨1, 1, []⟩) := by
    decide +kernel
  have hok :
      (evaluate sampleBackends sampleResident.searcher (.ok [some commentChunk.record])
      [addingLabel] [.fused]).toOption.map (fun run => run.perAblation.map (·.1)) =
        some [.fused] := by
    decide +kernel
  obtain ⟨run, hrun, hkeys⟩ := Option.map_eq_some_iff.mp hok
  have hmined := Except.toOption_eq_some.mp hmined
  have h := Except.toOption_eq_some.mp hrun
  obtain ⟨m, hm⟩ := reported_of_keys hkeys List.mem_cons_self
  exact ⟨run, m, hmined, h, hm, (evaluate_mined hmined h hm).2⟩

end SiftMcp
