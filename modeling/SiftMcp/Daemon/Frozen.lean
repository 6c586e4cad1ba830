import SiftMcp.Daemon.Search
import SiftMcp.Daemon.Ownership

/-!
# The frozen view against the resident

A query is answered from a frozen view while an index runs, and from a resident at other times. The
view has copies of the records, the bodies and the vectors, and the reader of the lexical index.

`FrozenSearch.answer_eq_iff` says for which queries both give one answer.
-/

namespace SiftMcp
open Durable

/-- Store and lexical index agree. -/
def Resident.Consistent (r : Resident) : Prop :=
  ∃ a : Contents, Repr r.store a ∧ Agree a.table r.lexical.reader

/-- What is documented of tantivy, and what holds of the scores and of the best of them. -/
structure Backends.Lawful (B : Backends) : Prop where
  scoring : B.scoring.Lawful
  tantivy (docs : List (RowId × LexicalDoc)) (query : String) (limit : Nat) (rows : Scored) :
    B.tantivy docs query limit = .ok rows → rows.length ≤ limit ∧
      ∀ x ∈ rows, x.row ∈ DocIndex.keys docs
  scores (d : DenseIndex) (query : List F16) (limit : Nat) (rows : Scored) :
    B.scores d query limit = .ok rows → (rows.map (·.row)).Nodup

namespace Backends

variable (B : Backends) (r : Resident)

/-- What a resident finds in the lexical index, when it searches for a role. -/
def lexicalOutcome (text : String) : Role → Except String Scored
  | .query => B.lexicalSearch r.lexical.reader text B.fusion.lexicalDepth
  | .document => .ok []

def denseOutcome (vector : List F16) : Except String Scored :=
  B.denseSearch r.dense vector r.embedder.modelId B.fusion.denseDepth

/-- What is shown of the best of the hits. -/
def hits (topK : Nat) (lexical dense : Scored) : List SearchResult :=
  ((fuse B.scoring B.fusion lexical dense).take topK).filterMap fun row =>
    (r.store.get row.row).map fun record =>
      searchResult record (bodyOf r.lexical.reader row.row) row

/-- The embedder finds no GPU; or the text is embedded, nothing fails when the results are
assembled, and the two searches end as `P` says. -/
def Embeds (role : Role) (text : String) (P : Except String Scored → Except String Scored → Prop) :
    Prop :=
  (∃ detail, B.embed r.embedder role text = .error (.gpuUnavailable detail)) ∨
    ∃ vector, B.embed r.embedder role text = .ok vector ∧ B.getManyError = none ∧
      B.bodiesError = none ∧
      P (B.lexicalSearch r.lexical.reader text B.fusion.lexicalDepth) (B.denseOutcome r vector)

/-- Lexical hits that make no difference: there are none, none is asked for, or the one that is
asked for is another. -/
def Ignored (topK : Nat) (lexical dense : Scored) : Prop :=
  lexical = [] ∨ topK = 0 ∨ topK = 1 ∧
    ∀ x ∈ (fuse B.scoring B.fusion lexical dense).take 1, x.Unseen B.fusion lexical

/-- What matches, as the error says it that lists several. -/
def candidates (file symbol : String) (records : List (RowId × ChunkRecord)) : List String :=
  (records.filter fun p => p.2.file = file ∧ p.2.symbol = symbol).map fun p =>
    s!"{p.2.file}:{p.2.signature}"

/-- The condition under which the frozen view of `r` answers as `r`. -/
def Agrees (host : Host) (q : Query) : Prop :=
  (∃ e, r.identity.checkStillValid host = .error e) ∨
    match q with
    | .search query _ => B.Embeds r .query query fun lexical dense =>
      errorOf lexical = none ∨ errorOf dense = none
    | .searchSimilar code topK => B.Embeds r .document code fun lexical dense =>
      ∃ rows, lexical = .ok rows ∧ B.Ignored topK rows (rowsOf dense)
    | .getSymbol file symbol =>
      candidates file symbol (B.mapOrder r.freeze.records) = candidates file symbol r.freeze.records

end Backends

variable {B : Backends} {r : Resident} {host : Host} {role : Role} {text : String} {topK : Nat}
  {q : Query} {row : RowId} {record : ChunkRecord} {lexical dense : Scored}

/-! ## The copies -/

/-- A map that has been filled by a function, for keys at which the function has a value at most. -/
theorem lookup_filterMap {κ α : Type} [DecidableEq κ] {g : κ → Option α} {k : κ} (ks : List κ)
    (h : k ∉ ks → g k = none) : (ks.filterMap fun k => (g k).map fun a => (k, a)).lookup k =
      g k := by
  induction ks with
  | nil => exact (h List.not_mem_nil).symm
  | cons k' ks ih =>
    have hrest : k ≠ k' → k ∉ ks → g k = none := by
      intro hne hnot
      apply h
      rw [List.mem_cons, not_or]
      exact ⟨hne, hnot⟩
    by_cases hk : k = k'
    · subst hk
      cases hg : g k with
      | none =>
        rw [List.filterMap_cons, hg, Option.map_none]
        exact (ih fun _ => hg).trans hg
      | some a => rw [List.filterMap_cons, hg, Option.map_some, List.lookup_cons_self]
    · have hne : (k == k') = false := beq_eq_false_iff_ne.mpr hk
      cases hg : g k' with
      | none =>
        rw [List.filterMap_cons, hg, Option.map_none]
        exact ih (hrest hk)
      | some a =>
        rw [List.filterMap_cons, hg, Option.map_some, List.lookup_cons, hne]
        exact ih (hrest hk)

theorem ChunkStore.get_none {s : ChunkStore} (h : row ∉ s.liveRows) : s.get row = none := by
  rw [ChunkStore.get, Db.get, Option.map_eq_none_iff, List.find?_eq_none]
  intro c hc heq
  exact h (List.mem_map.mpr ⟨c, hc, of_decide_eq_true heq⟩)

theorem freeze_records : r.freeze.records.lookup row = r.store.get row :=
  lookup_filterMap r.store.liveRows ChunkStore.get_none

theorem freeze_bodies (h : r.store.get row = some record) :
    r.freeze.bodies.lookup row = bodyOf r.lexical.reader row := by
  have hkeys : r.freeze.bodies = (r.freeze.records.map (·.1)).filterMap fun row =>
      (bodyOf r.lexical.reader row).map fun b => (row, b) := by
    rw [List.filterMap_map]
    rfl
  have hrow : row ∈ r.store.liveRows := by
    by_contra hrow
    rw [ChunkStore.get_none hrow] at h
    cases h
  have hmem : row ∈ r.freeze.records.map (·.1) := by
    refine List.mem_map.mpr ⟨(row, record), List.mem_filterMap.mpr ⟨row, hrow, ?_⟩, rfl⟩
    rw [h]
    rfl
  rw [hkeys]
  exact lookup_filterMap _ fun hnot => absurd hmem hnot

/-! ## Hits -/

theorem Backends.lexicalSearch_ok (hB : B.Lawful) {docs : List (RowId × LexicalDoc)} {limit : Nat}
    (h : B.lexicalSearch docs text limit = .ok lexical) :
    lexical.length ≤ limit ∧ ∀ x ∈ lexical, x.row ∈ DocIndex.keys docs := by
  unfold Backends.lexicalSearch at h
  split at h
  · obtain rfl := Except.ok.inj h
    exact ⟨Nat.zero_le _, nofun⟩
  · exact hB.tantivy _ _ _ _ h

theorem Backends.denseSearch_nodup (hB : B.Lawful) {d : DenseIndex} {vector : List F16}
    {modelId : String} {limit : Nat} :
    ((rowsOf (B.denseSearch d vector modelId limit)).map (·.row)).Nodup := by
  cases h : B.denseSearch d vector modelId limit with
  | error e => exact .nil
  | ok rows =>
    unfold Backends.denseSearch at h
    split at h
    · cases h
    · split at h
      · cases h
      · split at h
        · obtain rfl := Except.ok.inj h
          exact .nil
        · exact hB.scores _ _ _ _ h

/-- A lexical hit has a record. -/
theorem Resident.Consistent.get (hr : r.Consistent) (h : row ∈ DocIndex.keys r.lexical.reader) :
    ∃ record, r.store.get row = some record := by
  obtain ⟨a, hrepr, hagree⟩ := hr
  obtain ⟨doc, hdoc⟩ := DocIndex.mem_keys.mp h
  obtain ⟨entry, hentry, -⟩ := hagree.sound row doc hdoc
  exact ⟨entry.1, hrepr.pair.db.get_of_mem hentry⟩

namespace Backends

theorem mem_hits {result : SearchResult} : result ∈ B.hits r topK lexical dense ↔
    ∃ x ∈ (fuse B.scoring B.fusion lexical dense).take topK, ∃ record, r.store.get x.row =
      some record ∧ searchResult record (bodyOf r.lexical.reader x.row) x = result := by
  unfold hits
  rw [List.mem_filterMap]
  simp only [Option.map_eq_some_iff]

/-- One of the first rows is a lexical hit, unless those make no difference. -/
theorem seen_of_not_ignored (hB : B.Lawful) (hlength : lexical.length ≤ B.fusion.lexicalDepth)
    (hdense : (dense.map (·.row)).Nodup) (h : ¬B.Ignored topK lexical dense) :
    ∃ x ∈ (fuse B.scoring B.fusion lexical dense).take topK, ¬x.Unseen B.fusion lexical := by
  unfold Ignored at h
  rw [not_or, not_or] at h
  obtain ⟨hne, hzero, hone⟩ := h
  by_cases htwo : 2 ≤ topK
  · cases hl : lexical with
    | nil => exact absurd hl hne
    | cons l rest =>
      have htake : lexical.take B.fusion.lexicalDepth = l :: rest := by
        rw [List.take_of_length_le hlength, hl]
      obtain ⟨x, hx, hseen⟩ :=
        lexical_first_two hB.scoring (hdense.sublist ((List.take_sublist _ _).map _)) htake
      rw [← hl]
      exact ⟨x, List.take_subset_take_left _ htwo hx, hseen⟩
  · obtain rfl : topK = 1 := by omega
    by_contra hnone
    exact hone ⟨rfl, fun x hx => by_contra fun hseen => hnone ⟨x, hx, hseen⟩⟩

theorem hits_eq_of_ignored (hB : B.Lawful) (hlength : lexical.length ≤ B.fusion.lexicalDepth)
    (hdense : (dense.map (·.row)).Nodup) (h : B.Ignored topK lexical dense) :
    B.hits r topK lexical dense = B.hits r topK [] dense := by
  rcases h with rfl | rfl | ⟨rfl, hunseen⟩
  · rfl
  · unfold hits
    rw [List.take_zero, List.take_zero]
  · cases hl : lexical with
    | nil => rfl
    | cons l rest =>
      have htake : lexical.take B.fusion.lexicalDepth = l :: rest := by
        rw [List.take_of_length_le hlength, hl]
      rw [← hl]
      unfold hits
      rw [take_one_fuse hB.scoring (hdense.sublist ((List.take_sublist _ _).map _)) htake hunseen]

/-- Among the hits that are shown is a lexical one, unless those make no difference. -/
theorem ignored_of_hits_eq (hB : B.Lawful) (hr : r.Consistent)
    (hlexical : B.lexicalSearch r.lexical.reader text B.fusion.lexicalDepth = .ok lexical)
    (hdense : (dense.map (·.row)).Nodup)
    (h : B.hits r topK lexical dense = B.hits r topK [] dense) : B.Ignored topK lexical dense := by
  obtain ⟨hlength, hkeys⟩ := lexicalSearch_ok hB hlexical
  by_contra hnot
  obtain ⟨x, hx, hseen⟩ := seen_of_not_ignored hB hlength hdense hnot
  have hrow : x.row ∈ lexical.map (·.row) := by
    unfold FusedRow.Unseen at hseen
    rwa [not_not, List.take_of_length_le hlength] at hseen
  obtain ⟨l, hl, hlrow⟩ := List.mem_map.mp hrow
  obtain ⟨record, hget⟩ := hr.get (hlrow ▸ hkeys l hl)
  have hmem : searchResult record (bodyOf r.lexical.reader x.row) x ∈ B.hits r topK [] dense :=
    h ▸ mem_hits.mpr ⟨x, hx, record, hget, rfl⟩
  obtain ⟨y, hy, record', -, hresult⟩ := mem_hits.mp hmem
  have hunseen : y.Unseen B.fusion [] := by
    rw [FusedRow.Unseen, List.take_nil]
    exact List.not_mem_nil
  rw [FusedRow.unseen_iff (List.mem_of_mem_take hx)] at hseen
  rw [FusedRow.unseen_iff (List.mem_of_mem_take hy)] at hunseen
  have hscore : y.lexical.score = x.lexical.score := congrArg (·.lexicalScore) hresult
  exact hseen (hscore ▸ hunseen)

end Backends

/-! ## Searches -/

/-- What a resident answers when the text has been embedded. -/
def Backends.found (B : Backends) (r : Resident) (role : Role) (text : String) (topK : Nat)
    (vector : List F16) : Except SearchError SearchResponse :=
  let lexical := B.lexicalOutcome r text role
  let dense := B.denseOutcome r vector
  match errorOf lexical, errorOf dense with
  | some l, some d => throw (.other s!"both retrievers failed: lexical={l}; dense={d}")
  | _, _ => do
    let results ← Searcher.assemble B r.store r.lexical
      (fuse B.scoring B.fusion (rowsOf lexical) (rowsOf dense)) topK
    return ⟨results, diagnosticsOf lexical dense⟩

theorem run_retrieval : B.retrieval.run r.lexical r.dense r.store r.embedder role text topK =
    (B.embed r.embedder role text).mapError searchInferErr >>= B.found r role text topK := by
  cases role with
  | query | document => rfl

theorem assemble_ok {fused : List (FusedRow F32)} {results : List SearchResult} :
    Searcher.assemble B r.store r.lexical fused topK = .ok results ↔
      B.getManyError = none ∧ B.bodiesError = none ∧
        results = (fused.take topK).filterMap fun row =>
        (r.store.get row.row).map fun record =>
          searchResult record (bodyOf r.lexical.reader row.row) row := by
  unfold Searcher.assemble
  cases B.getManyError with
  | some e => exact iff_of_false nofun nofun
  | none =>
    cases B.bodiesError with
    | some e => exact iff_of_false nofun nofun
    | none =>
      rw [Except.ok.injEq]
      exact ⟨fun h => ⟨rfl, rfl, h.symm⟩, fun h => h.2.2.symm⟩

theorem found_ok {vector : List F16} {resp : SearchResponse} :
    B.found r role text topK vector = .ok resp ↔
      (errorOf (B.lexicalOutcome r text role) = none ∨ errorOf (B.denseOutcome r vector) = none) ∧
      B.getManyError = none ∧ B.bodiesError = none ∧
      resp = ⟨B.hits r topK (rowsOf (B.lexicalOutcome r text role))
        (rowsOf (B.denseOutcome r vector)), diagnosticsOf (B.lexicalOutcome r text role)
        (B.denseOutcome r vector)⟩ := by
  have hassemble : ∀ lexical dense : Except String Scored,
      (do
        let results ← Searcher.assemble B r.store r.lexical
          (fuse B.scoring B.fusion (rowsOf lexical) (rowsOf dense)) topK
        return (⟨results, diagnosticsOf lexical dense⟩ : SearchResponse)) = .ok resp ↔
      B.getManyError = none ∧ B.bodiesError = none ∧
        resp = ⟨B.hits r topK (rowsOf lexical) (rowsOf dense), diagnosticsOf lexical dense⟩ := by
    intro lexical dense
    constructor
    · intro h
      obtain ⟨results, hresults, h⟩ := Except.bind_eq_ok.mp h
      obtain ⟨hmany, hbodies, rfl⟩ := assemble_ok.mp hresults
      exact ⟨hmany, hbodies, (Except.ok.inj h).symm⟩
    · intro h
      obtain ⟨hmany, hbodies, rfl⟩ := h
      rw [assemble_ok.mpr ⟨hmany, hbodies, rfl⟩]
      rfl
  unfold Backends.found
  generalize B.lexicalOutcome r text role = lexical
  generalize B.denseOutcome r vector = dense
  cases lexical with
  | ok rows => exact (hassemble _ dense).trans ⟨fun h => ⟨.inl rfl, h⟩, fun h => h.2⟩
  | error l =>
    cases dense with
    | ok rows => exact (hassemble _ _).trans ⟨fun h => ⟨.inr rfl, h⟩, fun h => h.2⟩
    | error d => exact iff_of_false nofun fun h => h.1.elim nofun nofun

/-- The answer of a view, whose reader is at `docs`, when the text has been embedded. -/
def Backends.seen (B : Backends) (r : Resident) (docs : List (RowId × LexicalDoc)) (text : String)
    (topK : Nat) (vector : List F16) : SearchResponse :=
  let lexical := B.lexicalSearch docs text B.fusion.lexicalDepth
  let dense := B.denseOutcome r vector
  ⟨B.hits r topK (rowsOf lexical) (rowsOf dense), diagnosticsOf lexical dense⟩

theorem searchWithParts_seeing {docs : List (RowId × LexicalDoc)} :
    searchWithParts B (r.freeze.seeing docs) role text topK =
      ((B.embed r.embedder role text).mapError mapInferErr).map (B.seen r docs text topK) := by
  have hresults : ∀ rows : List (FusedRow F32), (rows.filterMap fun row =>
      (r.freeze.records.lookup row.row).map fun record =>
        searchResult record (r.freeze.bodies.lookup row.row) row) =
      rows.filterMap fun row =>
        (r.store.get row.row).map fun record =>
          searchResult record (bodyOf r.lexical.reader row.row) row := by
    intro rows
    refine List.filterMap_congr fun row _ => ?_
    rw [freeze_records]
    cases hget : r.store.get row.row with
    | none => rfl
    | some record => rw [Option.map_some, Option.map_some, freeze_bodies hget]
  have hembedder : (r.freeze.seeing docs).embedder = r.embedder := rfl
  rw [searchWithParts, hembedder]
  cases B.embed r.embedder role text with
  | error e => rfl
  | ok vector =>
    have hseen : (⟨_, _⟩ : SearchResponse) = B.seen r docs text topK vector :=
      congrArg (SearchResponse.mk · _) (hresults _)
    exact congrArg Except.ok hseen

/-- Where the text is embedded, the two answer alike if neither way to fail is that of one alone,
and the hits and what is said of the lexical search are the same. -/
theorem seen_eq_found {vector : List F16} :
    (Except.ok (.search (B.seen r r.lexical.reader text topK vector)) :
      Except DaemonError Response) =
      ((B.found r role text topK vector).mapError mapRetrievalErr).map .search ↔
    B.getManyError = none ∧ B.bodiesError = none ∧
      let lexical := B.lexicalSearch r.lexical.reader text B.fusion.lexicalDepth
      let before := B.lexicalOutcome r text role
      let dense := B.denseOutcome r vector
      (errorOf before = none ∨ errorOf dense = none) ∧ errorOf lexical = errorOf before ∧
        B.hits r topK (rowsOf lexical) (rowsOf dense) = B.hits r topK (rowsOf before)
          (rowsOf dense) := by
  have hfound : (Except.ok (.search (B.seen r r.lexical.reader text topK vector)) :
      Except DaemonError Response) =
        ((B.found r role text topK vector).mapError mapRetrievalErr).map .search ↔
      B.found r role text topK vector = .ok (B.seen r r.lexical.reader text topK vector) := by
    cases B.found r role text topK vector with
    | error e => exact iff_of_false nofun nofun
    | ok resp =>
      constructor
      · intro h
        rw [Response.search.inj (Except.ok.inj h)]
      · intro h
        rw [Except.ok.inj h]
        rfl
  rw [hfound, found_ok]
  unfold Backends.seen
  rw [SearchResponse.mk.injEq]
  have hdiagnostics : ∀ lexical before dense : Except String Scored,
      diagnosticsOf lexical dense = diagnosticsOf before dense ↔
        errorOf lexical = errorOf before := by
    intro lexical before dense
    constructor
    · exact fun h => congrArg (·.lexicalError) h
    · intro h
      unfold diagnosticsOf
      rw [h]
  rw [hdiagnostics]
  tauto

theorem internal_ne {text context : String} (h : context ≠ "") :
    DaemonError.internal text ≠ .internal (context ++ text) := by
  intro heq
  have hlength := congrArg String.length (DaemonError.internal.inj heq)
  rw [String.length_append] at hlength
  have hzero : context.length = 0 := by omega
  exact h (String.length_eq_zero_iff.mp hzero)

theorem freeze_search (hcheck : r.identity.checkStillValid host = .ok ()) :
    r.freeze.search B.retrieval host role text topK =
      ((B.embed r.embedder role text).mapError mapInferErr).map fun vector =>
        .search (B.seen r r.lexical.reader text topK vector) := by
  have hidentity : r.freeze.identity = r.identity := rfl
  have hparts : B.retrieval.searchWithParts r.freeze role text topK = _ :=
    @searchWithParts_seeing B r role text topK r.lexical.reader
  rw [FrozenSearch.search, hidentity, hcheck, hparts]
  cases B.embed r.embedder role text with
  | error e => rfl
  | ok vector => rfl

theorem resident_search (hcheck : r.identity.checkStillValid host = .ok ()) :
    r.search B.retrieval host role text topK =
      (((B.embed r.embedder role text).mapError searchInferErr >>=
        B.found r role text topK).mapError mapRetrievalErr).map .search := by
  rw [Resident.search, hcheck, run_retrieval]
  rfl

/-- A search is answered alike, on the same conditions for both roles. -/
theorem search_iff (hcheck : r.identity.checkStillValid host = .ok ()) :
    r.freeze.search B.retrieval host role text topK = r.search B.retrieval host role text topK ↔
      B.Embeds r role text fun lexical dense =>
        (errorOf (B.lexicalOutcome r text role) = none ∨ errorOf dense = none) ∧
        errorOf lexical = errorOf (B.lexicalOutcome r text role) ∧
        B.hits r topK (rowsOf lexical) (rowsOf dense) =
          B.hits r topK (rowsOf (B.lexicalOutcome r text role)) (rowsOf dense) := by
  rw [freeze_search hcheck, resident_search hcheck, Backends.Embeds]
  cases B.embed r.embedder role text with
  | error e =>
    cases e with
    | gpuUnavailable detail => exact iff_of_true rfl (.inl ⟨detail, rfl⟩)
    | other detail =>
      refine iff_of_false (fun h => ?_) fun h => ?_
      · have hdetail : DaemonError.internal detail = .internal ("inference error: " ++ detail) :=
          Except.error.inj h
        exact @internal_ne detail "inference error: " (by decide) hdetail
      · rcases h with ⟨_, h⟩ | ⟨_, h, -⟩
        · cases h
        · cases h
  | ok vector =>
    refine seen_eq_found.trans ⟨fun h => .inr ⟨vector, rfl, h⟩, fun h => ?_⟩
    rcases h with ⟨_, h⟩ | ⟨vector', h, hrest⟩
    · cases h
    · obtain rfl := Except.ok.inj h
      exact hrest

theorem Backends.Embeds.mono {P Q : Except String Scored → Except String Scored → Prop}
    (hPQ : ∀ vector, P (B.lexicalSearch r.lexical.reader text B.fusion.lexicalDepth)
      (B.denseOutcome r vector) →
      Q (B.lexicalSearch r.lexical.reader text B.fusion.lexicalDepth) (B.denseOutcome r vector))
    (h : B.Embeds r role text P) : B.Embeds r role text Q := by
  rcases h with h | ⟨vector, hembed, hmany, hbodies, h⟩
  · exact .inl h
  · exact .inr ⟨vector, hembed, hmany, hbodies, hPQ vector h⟩

theorem search_query_iff (hcheck : r.identity.checkStillValid host = .ok ()) :
    r.freeze.search B.retrieval host .query text topK = r.search B.retrieval host .query text topK ↔
      B.Embeds r .query text fun lexical dense => errorOf lexical = none ∨
        errorOf dense = none := by
  rw [search_iff hcheck]
  constructor
  · exact Backends.Embeds.mono fun _ h => h.1
  · exact Backends.Embeds.mono fun _ h => ⟨h, rfl, rfl⟩

theorem search_document_eq (hB : B.Lawful) (hcheck : r.identity.checkStillValid host = .ok ())
    (h : B.Embeds r .document text fun lexical dense =>
      ∃ rows, lexical = .ok rows ∧ B.Ignored topK rows (rowsOf dense)) :
    r.freeze.search B.retrieval host .document text topK =
      r.search B.retrieval host .document text topK := by
  apply (search_iff hcheck).mpr
  refine Backends.Embeds.mono (fun vector h => ?_) h
  obtain ⟨rows, hrows, hignored⟩ := h
  have hlength := (Backends.lexicalSearch_ok hB hrows).1
  rw [hrows]
  exact ⟨.inl rfl, rfl, Backends.hits_eq_of_ignored hB hlength (Backends.denseSearch_nodup hB)
    hignored⟩

theorem search_document_iff (hB : B.Lawful) (hr : r.Consistent)
    (hcheck : r.identity.checkStillValid host = .ok ()) :
    r.freeze.search B.retrieval host .document text topK =
      r.search B.retrieval host .document text topK ↔
      B.Embeds r .document text fun lexical dense =>
        ∃ rows, lexical = .ok rows ∧ B.Ignored topK rows (rowsOf dense) := by
  refine ⟨fun h => ?_, search_document_eq hB hcheck⟩
  refine Backends.Embeds.mono (fun vector h => ?_) ((search_iff hcheck).mp h)
  obtain ⟨-, herror, hhits⟩ := h
  cases hlexical : B.lexicalSearch r.lexical.reader text B.fusion.lexicalDepth with
  | error e =>
    rw [hlexical] at herror
    cases herror
  | ok rows =>
    rw [hlexical] at hhits
    exact ⟨rows, rfl, Backends.ignored_of_hits_eq hB hr hlexical
      (Backends.denseSearch_nodup hB) hhits⟩

/-! ## Symbols -/

/-- No two live rows have one id. -/
def Resident.Keyed (r : Resident) : Prop := r.store.liveRows.Nodup

theorem Resident.Consistent.keyed (hr : r.Consistent) : r.Keyed := by
  obtain ⟨a, hrepr, -⟩ := hr
  have hrows : r.store.liveRows = a.table.rows := hrepr.pair.db.liveRows
  rw [Resident.Keyed, hrows]
  exact a.table.nodup_rows

theorem Resident.Keyed.get (hr : r.Keyed) {c : ChunkRow} (hc : c ∈ r.store.conn.live) :
    r.store.get c.rowid = some c.record := by
  rw [ChunkStore.get, Db.get]
  cases hfind : r.store.conn.live.find? (·.rowid = c.rowid) with
  | none => exact absurd (decide_eq_true rfl) (List.find?_eq_none.mp hfind c hc)
  | some c' =>
    have hrow : c'.rowid = c.rowid := by simpa using List.find?_some hfind
    rw [List.inj_on_of_nodup_map hr (List.mem_of_find?_eq_some hfind) hc hrow]
    rfl

theorem freeze_records_eq (hr : r.Keyed) :
    r.freeze.records = r.store.conn.live.map fun c => (c.rowid, c.record) := by
  show (r.store.liveRows.filterMap fun row => (r.store.get row).map fun rec => (row, rec)) = _
  have hrows : r.store.liveRows = r.store.conn.live.map (·.rowid) := rfl
  rw [hrows, List.filterMap_map, ← List.filterMap_eq_map]
  refine List.filterMap_congr fun c hc => ?_
  rw [Function.comp_apply, hr.get hc]
  rfl

/-- The rows of a file with the symbol are those of the records that match. -/
theorem resolve_found (hr : r.Keyed) {file symbol : String} :
    ((r.store.rowsForFile file).filterMap fun row =>
      (r.store.get row).bind fun rec => if rec.symbol = symbol then some (row, rec) else none) =
    r.freeze.records.filter fun p => p.2.file = file ∧ p.2.symbol = symbol := by
  have hrows : r.store.rowsForFile file =
      (r.store.conn.live.filter (·.record.file = file)).map (·.rowid) := rfl
  rw [freeze_records_eq hr, hrows, List.filterMap_map, List.filter_map, List.filterMap_filter,
    ← List.filterMap_eq_map, List.filterMap_filter]
  refine List.filterMap_congr fun c hc => ?_
  rw [Function.comp_apply, Function.comp_apply, hr.get hc]
  by_cases hfile : c.record.file = file
  · by_cases hsymbol : c.record.symbol = symbol
    · simp [hfile, hsymbol]
    · simp [hsymbol]
  · simp [hfile]

theorem oneSymbol_eq {file symbol : String} {found found' : List (RowId × ChunkRecord)}
    {body body' : RowId → Option String} (hperm : found'.Perm found)
    (hbody : ∀ p ∈ found, body' p.1 = body p.1) :
    oneSymbol file symbol found' body' = oneSymbol file symbol found body ↔
      (found'.map fun p => s!"{p.2.file}:{p.2.signature}") =
        found.map fun p => s!"{p.2.file}:{p.2.signature}" := by
  cases found with
  | nil =>
    obtain rfl := hperm.eq_nil
    exact iff_of_true rfl rfl
  | cons p rest =>
    cases rest with
    | nil =>
      obtain rfl := List.perm_singleton.mp hperm
      refine iff_of_true ?_ rfl
      unfold oneSymbol
      dsimp only
      rw [hbody p List.mem_cons_self]
    | cons p' rest =>
      have hlength := hperm.length_eq
      cases found' with
      | nil => cases hlength
      | cons q qs =>
        cases qs with
        | nil => cases hlength
        | cons q' qs =>
          constructor
          · intro h
            exact (DaemonError.symbolAmbiguous.inj (Except.error.inj h)).2.2
          · intro h
            exact congrArg
              (fun names => Except.error (DaemonError.symbolAmbiguous file symbol names)) h

theorem getSymbol_iff (hr : r.Keyed) (hcheck : r.identity.checkStillValid host = .ok ())
    {file symbol : String} :
    r.freeze.getSymbol B.retrieval host file symbol = r.getSymbol host file symbol ↔
      Backends.candidates file symbol (B.mapOrder r.freeze.records) =
        Backends.candidates file symbol r.freeze.records := by
  have hidentity : r.freeze.identity = r.identity := rfl
  have hbodies : ∀ p ∈ r.freeze.records.filter fun p => p.2.file = file ∧ p.2.symbol = symbol,
      r.freeze.bodies.lookup p.1 = bodyOf r.lexical.reader p.1 := by
    intro p hp
    have hmem := (List.mem_filter.mp hp).1
    rw [freeze_records_eq hr] at hmem
    obtain ⟨c, hc, rfl⟩ := List.mem_map.mp hmem
    exact freeze_bodies (hr.get hc)
  have hsymbol := @oneSymbol_eq file symbol _ _ (bodyOf r.lexical.reader)
    (fun row => r.freeze.bodies.lookup row) ((B.mapOrder_perm r.freeze.records).filter _) hbodies
  rw [FrozenSearch.getSymbol, Resident.getSymbol, hidentity, hcheck, resolveSymbol,
    resolve_found hr]
  exact hsymbol

/-! ## Every query -/

namespace FrozenSearch

/-- The condition is enough, whatever is in the lexical index. -/
theorem answer_eq (hB : B.Lawful) (hr : r.Keyed) (h : B.Agrees r host q) :
    r.freeze.answer B.retrieval host q = r.answer B.retrieval host q := by
  cases hcheck : r.identity.checkStillValid host with
  | error e => exact (answer_stale (f := r.freeze) hcheck).trans (Resident.answer_stale hcheck).symm
  | ok _ =>
    have hvalid : ¬∃ e, r.identity.checkStillValid host = .error e := by
      rw [hcheck]
      exact nofun
    have h := h.resolve_left hvalid
    cases q with
    | search query topK => exact (search_query_iff hcheck).mpr h
    | searchSimilar code topK => exact search_document_eq hB hcheck h
    | getSymbol file symbol => exact (getSymbol_iff hr hcheck).mpr h

/-- And it is needed, where store and lexical index agree. -/
theorem agrees_of_answer_eq (hB : B.Lawful) (hr : r.Consistent)
    (h : r.freeze.answer B.retrieval host q = r.answer B.retrieval host q) : B.Agrees r host q := by
  cases hcheck : r.identity.checkStillValid host with
  | error e => exact .inl ⟨e, hcheck⟩
  | ok _ =>
    right
    cases q with
    | search query topK => exact (search_query_iff hcheck).mp h
    | searchSimilar code topK => exact (search_document_iff hB hr hcheck).mp h
    | getSymbol file symbol => exact (getSymbol_iff hr.keyed hcheck).mp h

/-- A view that the resident has just been split into answers a query as the resident does, exactly
on the condition that `Agrees` states. -/
theorem answer_eq_iff {fails : SplitCall → Option String} {f : FrozenSearch} {store : ChunkStore}
    {repoDir : String} {embedder : Embedder} (hB : B.Lawful) (hr : r.Consistent)
    (hsplit : splitForIndex fails r = .ok (f, store, repoDir, embedder)) :
    f.answer B.retrieval host q = r.answer B.retrieval host q ↔ B.Agrees r host q := by
  obtain ⟨rfl, -, -⟩ := splitForIndex_ok hsplit
  exact ⟨agrees_of_answer_eq hB hr, answer_eq hB hr.keyed⟩

end FrozenSearch

/-! ## Sample backends -/

/-- The bits of 1/61 and 1/62, and the sums that two ranks give; in other places, something
lower. -/
def sampleScoring : Scoring F32 where
  zero := 0
  add a b :=
    if a = b ∧ a ≤ a + 0x00800000 then a + 0x00800000 else if a ≤ b then b else a
  reciprocal rank := if rank = 1 then 0x3c864b8a else if rank = 2 then 0x3c842108 else 0x3c820821
  le a b := a ≤ b

theorem sampleScoring_lawful : sampleScoring.Lawful where
  total a b := by
    rw [Bool.or_eq_true]
    exact (UInt32.le_total a b).imp decide_eq_true decide_eq_true
  trans a b c hab hbc :=
    decide_eq_true (UInt32.le_trans (of_decide_eq_true hab) (of_decide_eq_true hbc))
  grows ns n := by
    rw [Fuses.total_concat]
    apply decide_eq_true
    show sampleScoring.total ns ≤ if _ then _ else _
    split
    · rename_i h
      exact h.2
    · split
      · assumption
      · exact UInt32.le_refl _
  first n := by
    have hrest : sampleScoring.total [n + 2] = sampleScoring.add 0 0x3c842108 ∨
        sampleScoring.total [n + 2] = sampleScoring.add 0 0x3c820821 := by
      cases n with
      | zero => exact .inl rfl
      | succ n => exact .inr rfl
    rcases hrest with h | h
    · rw [h]
      decide
    · rw [h]
      decide

/-- Every document whose symbol is the text matches, and every live row. -/
def sampleBackends : Backends where
  embed e _ text := match e.embed [text] with
    | x :: _ => .ok x.vector
    | [] => .error (.other "no embedding")
  tantivy docs text limit :=
    .ok (((docs.filter (·.2.symbol = text)).take limit).map fun p => ⟨p.1, 0x3f800000⟩)
  scores d _ limit :=
    .ok ((((List.range d.rows).filter fun row => d.live.getD row false).take limit).map fun row =>
      ⟨row, 0⟩)
  scoring := sampleScoring
  fusion := ⟨50, 50⟩
  getManyError := none
  bodiesError := none
  mapOrder := sampleRetrieval.mapOrder
  mapOrder_perm := sampleRetrieval.mapOrder_perm

theorem sampleBackends_lawful : sampleBackends.Lawful where
  scoring := sampleScoring_lawful
  tantivy docs text limit rows h := by
    obtain rfl := Except.ok.inj h
    refine ⟨?_, fun x hx => ?_⟩
    · rw [List.length_map, List.length_take]
      exact Nat.min_le_left _ _
    · obtain ⟨p, hp, rfl⟩ := List.mem_map.mp hx
      exact List.mem_map_of_mem (List.mem_filter.mp (List.mem_of_mem_take hp)).1
  scores d query limit rows h := by
    obtain rfl := Except.ok.inj h
    rw [List.map_map]
    exact (List.map_id _).symm ▸ ((List.nodup_range.filter _).sublist (List.take_sublist _ _))

/-- A store with one chunk, the first half of whose vector has these bits. -/
def oneStore (bits : Nat) : ChunkStore :=
  sampleStore.runOps [.insertBatch (fun _ => false) [sampleChunk bits]]

theorem oneStore_reached (bits : Nat) : Reached (oneStore bits) :=
  (Reached.create rfl sampleStore_created).op _ trivial
    (StoreOp.undone_of_length (List.forall_mem_singleton.mpr sampleChunk_length) (.inl nofun))

def liveResident (bits : Nat) : Resident :=
  { sampleResident with
    store := oneStore bits
    lexical := .open [(0, ⟨"f", "fn f()", none, "a.rs", "fn f() {}"⟩)]
    dense := ⟨[UInt16.ofNat bits, 0], 1, 2, "model", [true]⟩ }

theorem liveResident_consistent {bits : Nat} (h : (oneStore bits).liveChunks =
    [(0, (sampleChunk bits).1, .ok (sampleChunk bits).2)]) : (liveResident bits).Consistent := by
  obtain ⟨a, ha⟩ := (oneStore_reached bits).repr
  obtain ⟨p, hlive, hp⟩ := List.map_eq_singleton_iff.mp (ha.liveChunks.symm.trans h)
  obtain ⟨row, record, vector⟩ := p
  obtain ⟨rfl, hrest⟩ := Prod.mk.inj hp
  obtain ⟨rfl, -⟩ := Prod.mk.inj hrest
  simp only [Resident.Consistent, liveResident]
  refine ⟨a, ha, List.nodup_singleton _, fun row d hd => ?_, fun row e he => ?_⟩
  · obtain ⟨rfl, rfl⟩ := Prod.mk.inj (List.mem_singleton.mp hd)
    exact ⟨_, hlive ▸ List.mem_singleton_self _, rfl⟩
  · rw [hlive] at he
    obtain ⟨rfl, rfl⟩ := Prod.mk.inj (List.mem_singleton.mp he)
    exact ⟨_, List.mem_singleton_self _, rfl⟩

/-- A split in which nothing fails. -/
theorem splitForIndex_none : splitForIndex (fun _ => none) r =
    .ok (r.freeze, r.store, r.repoDir, r.embedder) := rfl

/-- What a search shows of the chunk. -/
def oneHit (lexicalScore : Option F32) (fusedScore : F32) : SearchResult :=
  ⟨"a.rs", "f", "fn f()", none, "fn f() {}", (1, 2), lexicalScore, some 0, fusedScore⟩

/-- Both retrievers find the chunk. -/
theorem FrozenSearch.answer_eq_iff_sample :
    (liveResident 1).freeze.answer sampleBackends.retrieval sampleHost (.search "f" 5) =
        (liveResident 1).answer sampleBackends.retrieval sampleHost (.search "f" 5) ∧
      (liveResident 1).answer sampleBackends.retrieval sampleHost (.search "f" 5) =
        .ok (.search ⟨[oneHit (some 0x3f800000) 0x3d064b8a], true, true, none, none⟩) :=
  ⟨(FrozenSearch.answer_eq_iff sampleBackends_lawful (liveResident_consistent (by decide +kernel))
    splitForIndex_none).mpr (.inr (.inr ⟨[0, 0], rfl, rfl, rfl, .inl rfl⟩)), by decide +kernel⟩

/-- The lexical search fails, and the dense one at a live row whose vector has an infinite
component. -/
def sampleFailing : Backends :=
  { sampleBackends with
    tantivy := fun _ _ _ => .error "tantivy error: index is corrupt"
    scores := fun d query limit =>
      match (List.range d.rows).find? fun row =>
        d.live.getD row false ∧ 0x7c00 ∈ (d.matrix.drop (row * d.dims)).take d.dims with
      | some row => .error s!"dense index error: non-finite score for row {row}"
      | none => sampleBackends.scores d query limit }

theorem sampleFailing_lawful : sampleFailing.Lawful where
  scoring := sampleScoring_lawful
  tantivy _ _ _ _ := nofun
  scores d query limit rows h := by
    change (match (List.range d.rows).find? _ with
      | some row => .error s!"dense index error: non-finite score for row {row}"
      | none => sampleBackends.scores d query limit) = Except.ok rows at h
    split at h
    · cases h
    · exact sampleBackends_lawful.scores d query limit rows h

/-- The resident reports an error, and the view no hits. -/
theorem both_failing_answered :
    sampleFailing.Lawful ∧ (liveResident 0x7c00).Consistent ∧
      (liveResident 0x7c00).store.liveRows = [0] ∧
      splitForIndex (fun _ => none) (liveResident 0x7c00) = .ok ((liveResident 0x7c00).freeze,
        (liveResident 0x7c00).store, (liveResident 0x7c00).repoDir,
        (liveResident 0x7c00).embedder) ∧
      (liveResident 0x7c00).freeze.answer sampleFailing.retrieval sampleHost (.search "f" 5) =
        .ok (.search ⟨[], false, false, some "tantivy error: index is corrupt",
          some "dense index error: non-finite score for row 0"⟩) ∧
      (liveResident 0x7c00).answer sampleFailing.retrieval sampleHost (.search "f" 5) =
        .error (.internal ("both retrievers failed: lexical=tantivy error: index is corrupt; " ++
          "dense=dense index error: non-finite score for row 0")) := by
  refine ⟨sampleFailing_lawful, liveResident_consistent (by decide +kernel), by decide +kernel,
    splitForIndex_none, ?_, ?_⟩
  · decide +kernel
  · decide +kernel

end SiftMcp
