import SiftMcp.Daemon.Searches
import SiftMcp.Retrieval.LexicalQuery

/-!
# What a search finds by its words

A chunk that has a term of the query is not lost among those that only their vectors speak for:
where few chunks have one, all of these are among the first results, whatever the embedder makes of
the query.

The main results are `Served.mem_hits_of_meeting`, for any query, and `Served.matches_shown`, for
the spellings of a name too.
-/

namespace SiftMcp
open Durable Text

/-- What a chunk is indexed as. -/
def ChunkRecord.document (record : ChunkRecord) (body : String) : LexicalDoc where
  symbol := record.symbol
  signature := record.signature
  docFirstLine := record.docFirstLine
  file := record.file
  body

/-- The live row has a term of the query, in its record or in the body that is stored with it. -/
def Resident.meetsAt (r : Resident) (query : String) (row : RowId) : Bool :=
  match r.store.get row, bodyOf r.lexical.reader row with
  | some record, some body => (record.document body).meets query
  | _, _ => false

/-- The live rows that have one. -/
def Resident.meeting (r : Resident) (query : String) : List RowId :=
  r.store.liveRows.filter (r.meetsAt query)

/-- The lexical retriever is that of the repository, over a tantivy. -/
def Backends.OnTantivy (B : Backends) (X : Tantivy F32) : Prop :=
  ∀ (docs : List (RowId × LexicalDoc)) (query : String) (limit : Nat) (rows : Scored),
    B.tantivy docs query limit = .ok rows →
    LexicalSearchHandle.searchText X docs query limit = some (.ok rows)

section

variable {B : Backends} {cfg : DaemonConfig}
  {allowed : List IndexRequest → Resident → IndexRequest → Prop}
  {qs : List IndexRequest} {r : Resident} {E : Embedder} {host : Host} {text : String}
  {topK n : Nat} {X : Tantivy F32} {found : SearchResponse} {row : RowId} {record : ChunkRecord}
  {d : LexicalDoc}

theorem ChunkRecord.document_body (h : d.shown = record.shown) : record.document d.body = d := by
  obtain ⟨symbol, signature, line, file, body⟩ := d
  obtain ⟨rfl, rfl, rfl, rfl⟩ := Shown.mk.inj h
  rfl

/-- The documents that meet a query are those of the live rows that do. -/
theorem Resident.Backed.perm_meeting (hr : r.Backed E) :
    ((r.lexical.reader.filter fun p => p.2.meets text).map (·.1)).Perm (r.meeting text) := by
  obtain ⟨-, a, docs, S⟩ := hr
  have hagree := S.agree trivial
  have hlive : r.store.liveRows = a.table.rows := S.repr.pair.db.liveRows
  have hreader : r.lexical.reader = docs := congrArg DocIndex.reader S.lexical
  have hmeets : ∀ row e d, (row, e) ∈ a.table.live → (row, d) ∈ docs → d.shown = e.1.shown →
      r.meetsAt text row = d.meets text := by
    intro row e d he hd hshown
    have hget : r.store.get row = some e.1 := S.repr.pair.db.get_of_mem he
    have hbody : bodyOf r.lexical.reader row = some d.body := by
      rw [hreader, bodyOf, hagree.unique.load hd]
      rfl
    rw [meetsAt, hget, hbody]
    exact congrArg (LexicalDoc.meets text) (ChunkRecord.document_body hshown)
  refine (List.perm_ext_iff_of_nodup ?_ ?_).mpr fun row => ?_
  · rw [hreader]
    exact hagree.unique.sublist (List.filter_sublist.map _)
  · rw [meeting, hlive]
    exact a.table.nodup_rows.filter _
  · rw [hreader, meeting, List.mem_filter, hlive, List.mem_map]
    constructor
    · rintro ⟨⟨row, d⟩, hd, rfl⟩
      obtain ⟨hd, hmeeting⟩ := List.mem_filter.mp hd
      obtain ⟨e, he, hshown⟩ := hagree.sound row d hd
      exact ⟨List.mem_map_of_mem he, (hmeets row e d he hd hshown).trans hmeeting⟩
    · rintro ⟨hrow, hmeeting⟩
      obtain ⟨⟨row, e⟩, he, rfl⟩ := List.mem_map.mp hrow
      obtain ⟨d, hd, hshown⟩ := hagree.complete row e he
      exact ⟨(row, d), List.mem_filter.mpr ⟨hd, (hmeets row e d he hd hshown).symm.trans hmeeting⟩,
        rfl⟩

/-- A chunk of a name meets every spelling of it. -/
theorem Resident.Backed.mem_meeting (hr : r.Backed E) {words : List Text} (hne : words ≠ [])
    (hwords : ∀ w ∈ words, IsWord w) (hjoined : joined words = words)
    (htext : Spells words text.toList) (hget : r.store.get row = some record)
    (hsymbol : Spells words record.symbol.toList) : row ∈ r.meeting text := by
  have hrow : row ∈ r.store.liveRows := by
    by_contra hdead
    rw [ChunkStore.get_none hdead] at hget
    cases hget
  obtain ⟨-, a, docs, S⟩ := hr
  have hlive : r.store.liveRows = a.table.rows := S.repr.pair.db.liveRows
  obtain ⟨⟨row, e⟩, he, rfl⟩ := List.mem_map.mp (hlive ▸ hrow)
  obtain ⟨d, hd, -⟩ := (S.agree trivial).complete row e he
  have hbody : bodyOf r.lexical.reader row = some d.body := by
    have hreader : r.lexical.reader = docs := congrArg DocIndex.reader S.lexical
    rw [hreader, bodyOf, (S.agree trivial).unique.load hd]
    rfl
  refine List.mem_filter.mpr ⟨hrow, ?_⟩
  rw [meetsAt, hget, hbody]
  exact LexicalDoc.meets_of_spells hne hwords hjoined htext List.mem_cons_self hsymbol

variable [LinearOrder F32]

/-- The ranking is of what meets the query, by its scores. -/
structure Resident.RanksMeeting {σ : Type} [LinearOrder σ] (r : Resident) (query : String)
    (ranked : List (ScoredRow σ)) : Prop where
  ordered : ranked.Pairwise fun a b => b.score < a.score ∨ a.score = b.score ∧ a.row ≤ b.row
  meets : (ranked.map (·.row)).Perm (r.meeting query)

/-- What the lexical retriever returns is the beginning of such a ranking. -/
theorem Backends.OnTantivy.ranks (hX : B.OnTantivy X) (hlawful : X.Lawful) (hr : r.Backed E)
    {rows : Scored} (h : B.lexicalOutcome r text .query = .ok rows) :
    ∃ ranked, r.RanksMeeting text ranked ∧ rows = ranked.take B.fusion.lexicalDepth := by
  obtain ⟨ranked, hordered, hperm, hsearch⟩ :=
    LexicalSearchHandle.searchText_eq hlawful r.lexical.reader text
  refine ⟨ranked, ⟨hordered, hperm.trans hr.perm_meeting⟩, ?_⟩
  rw [lexicalOutcome, lexicalSearch] at h
  split at h
  · next hdepth =>
    rw [hdepth, List.take_zero]
    exact (Except.ok.inj h).symm
  · have hsame := (hX _ _ _ _ h).symm.trans (hsearch _)
    exact Except.ok.inj (Option.some.inj hsame)

theorem Resident.RanksMeeting.nodup {ranked : Scored} (h : r.RanksMeeting text ranked)
    (hr : r.Backed E) : (ranked.map (·.row)).Nodup := by
  obtain ⟨-, a, docs, S⟩ := hr
  have hrows : r.store.liveRows = a.table.rows := S.repr.pair.db.liveRows
  refine h.meets.nodup_iff.mpr (List.Nodup.filter _ ?_)
  rw [hrows]
  exact a.table.nodup_rows

/-- Where few live chunks meet the query, all of them are among the first hits. -/
theorem Served.mem_hits_of_meeting (hserved : Served cfg allowed qs r) (hB : B.Lawful)
    (hlive : B.Live) (hX : B.OnTantivy X) (hlawful : X.Lawful)
    (hdesc : B.scoring.Descends B.fusion.denseDepth) {rows : Scored}
    {vector : List F16} (hrows : B.lexicalOutcome r text .query = .ok rows)
    (hfew : (r.meeting text).length ≤ n) (hn : n ≤ B.fusion.lexicalDepth) (htop : 2 * n ≤ topK)
    (hrow : row ∈ r.meeting text) : ∃ x result, x.row = row ∧ r.Shows x result ∧
      result ∈ B.hits r topK rows (rowsOf (B.denseOutcome r vector)) := by
  have hr := hserved.backed
  have hlexical : ∀ y ∈ rows, y.row ∈ DocIndex.keys r.lexical.reader := by
    intro y hy
    refine @B.mem_lexicalOutcome r .query text hB y ?_
    rw [hrows]
    exact hy
  have hdense : ((rowsOf (B.denseOutcome r vector)).map (·.row)).Nodup := B.denseSearch_nodup hB
  have hshown : List.Forall₂ r.Shows
      ((fuse B.scoring B.fusion rows (rowsOf (B.denseOutcome r vector))).take topK) _ :=
    hr.forall₂_hits hlexical fun _ => B.mem_denseOutcome hlive hserved.dense_eq
  obtain ⟨ranked, hranks, rfl⟩ := hX.ranks hlawful hr hrows
  have hlength : ranked.length ≤ n := by
    have hlength := hranks.meets.length_eq
    rw [List.length_map] at hlength
    rwa [hlength]
  rw [List.take_of_length_le (hlength.trans hn)] at hshown ⊢
  have hplace := lexical_mem_take hB.scoring hdesc (hranks.nodup hr) hdense hlength hn
    (hranks.meets.mem_iff.mpr hrow)
  obtain ⟨x, hx, rfl⟩ := List.mem_map.mp hplace
  obtain ⟨result, hresult, hxshown⟩ := forall₂_left hshown x (List.take_subset_take_left _ htop hx)
  exact ⟨x, result, rfl, hxshown, hresult⟩

/-- Whatever has been indexed, and whatever the embedder makes of the query: if no more than `n`
live chunks have a term of it, all of these are among the first `2 * n` results of a search. To
these belong all chunks of a name that is asked for in one of its spellings. -/
theorem Served.matches_shown (hserved : Served cfg allowed qs r) (hB : B.Lawful) (hlive : B.Live)
    (hX : B.OnTantivy X) (hlawful : X.Lawful) (hdesc : B.scoring.Descends B.fusion.denseDepth)
    (h : r.search B.retrieval host .query text topK = .ok (.search found))
    (hok : found.diagnostics.lexicalOk = true) (hfew : (r.meeting text).length ≤ n)
    (hn : n ≤ B.fusion.lexicalDepth) (htop : 2 * n ≤ topK) :
    (∀ row ∈ r.meeting text, ∃ x result, x.row = row ∧ r.Shows x result ∧ result ∈ found.results) ∧
    ∀ words, words ≠ [] → (∀ w ∈ words, IsWord w) → joined words = words →
      Spells words text.toList →
      ∀ row record, r.store.get row = some record → Spells words record.symbol.toList →
        row ∈ r.meeting text := by
  have hr := hserved.backed
  refine ⟨fun row hrow => ?_, fun words hne hwords hjoined htext row record hget hsymbol =>
    hr.mem_meeting hne hwords hjoined htext hget hsymbol⟩
  obtain ⟨vector, -, found', hfound, heq⟩ := search_eq_ok h
  obtain rfl := Response.search.inj heq
  obtain ⟨-, -, -, rfl⟩ := found_ok.mp hfound
  cases hlexical : B.lexicalOutcome r text .query with
  | error e =>
    rw [hlexical] at hok
    cases hok
  | ok rows =>
    exact hserved.mem_hits_of_meeting hB hlive hX hlawful hdesc hlexical hfew hn htop hrow

end

/-! ## A sample search -/

/-- The lexical retriever is that of the repository, over one segment. -/
def segmentBackends : Backends :=
  { sampleBackends with
    tantivy := fun docs query limit =>
      match LexicalSearchHandle.searchText (@oneSegment F32 totalOrder 0) docs query limit with
      | some (.ok rows) => .ok rows
      | some (.error _) => .error "tantivy error"
      | none => .error "panicked"
    fusion := ⟨2, 2⟩ }

theorem segmentBackends_onTantivy : segmentBackends.OnTantivy (@oneSegment F32 totalOrder 0) := by
  intro docs query limit rows h
  change (match LexicalSearchHandle.searchText (@oneSegment F32 totalOrder 0) docs query limit with
    | some (.ok rows) => .ok rows
    | some (.error _) => .error "tantivy error"
    | none => .error "panicked") = Except.ok rows at h
  split at h
  · next hrows => rw [hrows, Except.ok.inj h]
  · cases h
  · cases h

theorem segmentBackends_lawful : segmentBackends.Lawful where
  scoring := sampleScoring_lawful
  tantivy docs query limit rows h := by
    obtain ⟨ranked, -, hperm, hsearch⟩ :=
      @LexicalSearchHandle.searchText_eq F32 totalOrder _ (@oneSegment_lawful F32 totalOrder 0)
        docs query
    obtain rfl :=
      Except.ok.inj
      (Option.some.inj ((segmentBackends_onTantivy _ _ _ _ h).symm.trans (hsearch limit)))
    refine ⟨List.length_take_le _ _, fun x hx => ?_⟩
    have hrow := hperm.mem_iff.mp (List.mem_map_of_mem (List.mem_of_mem_take hx))
    obtain ⟨p, hp, hpx⟩ := List.mem_map.mp hrow
    exact List.mem_map.mpr ⟨p, List.mem_of_mem_filter hp, hpx⟩
  scores := sampleBackends_lawful.scores

/-- The second of two files is found by the name that only it has. -/
theorem Served.matches_shown_second : ∃ found x result,
    firstResident.search segmentBackends.retrieval sampleHost .query "h" 2 = .ok (.search found) ∧
    x.row = 1 ∧ firstResident.Shows x result ∧ result ∈ found.results := by
  have hok : ((firstResident.search segmentBackends.retrieval sampleHost .query "h" 2).toOption.bind
      Response.diagnostics).map (·.lexicalOk) = some true := by
    decide +kernel
  cases h : firstResident.search segmentBackends.retrieval sampleHost .query "h" 2 with
  | error e =>
    rw [h] at hok
    cases hok
  | ok resp =>
    rw [h] at hok
    cases resp with
    | hello | symbol | indexProgress | indexDone | status | error => cases hok
    | search found =>
      have hserved : Served sampleConfig (fun _ _ _ => True) [firstRequest] firstResident :=
        firstResident_served trivial
      have hdesc : segmentBackends.scoring.Descends segmentBackends.fusion.denseDepth := by
        intro m n hmn hn
        obtain rfl : m = 0 := Nat.lt_one_iff.mp (hmn.trans_le (Nat.le_of_lt_succ hn))
        obtain rfl : n = 1 := Nat.le_antisymm (Nat.le_of_lt_succ hn) hmn
        decide
      have hmeeting : firstResident.meeting "h" = [1] := by decide +kernel
      have hfew : (firstResident.meeting "h").length ≤ 1 := by rw [hmeeting]; exact Nat.le_refl 1
      have hrow : 1 ∈ firstResident.meeting "h" := by rw [hmeeting]; exact List.mem_singleton_self 1
      obtain ⟨x, result, hx, hshown, hresult⟩ :=
        (@Served.matches_shown segmentBackends _ _ _ _ _ _ _ _ _ _ totalOrder
        hserved segmentBackends_lawful sampleBackends_live segmentBackends_onTantivy
        (@oneSegment_lawful F32 totalOrder 0) hdesc h (Option.some.inj hok) hfew (by decide)
        (by decide)).1 1 hrow
      exact ⟨found, x, result, rfl, hx, hshown, hresult⟩

end SiftMcp
