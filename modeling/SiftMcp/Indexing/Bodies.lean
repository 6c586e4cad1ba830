import SiftMcp.Indexing.Invariants

/-!
# Bodies

The document of a live row holds the body of a chunk, and the record of the row its hash. A run puts
the body of each chunk that it takes up behind the hash of the chunk, and leaves the bodies behind
the hashes of the rows that it keeps, wherever their rows and files go.
-/

namespace SiftMcp
open Durable DocIndex Indexer

/-- A live row with the hash, and a document of the row with the body. -/
def Stored (a : Contents) (docs : Docs) (k : ContentHash) (body : String) : Prop :=
  ∃ row e d, (row, e) ∈ a.table.live ∧ e.hash = k ∧ (row, d) ∈ docs ∧ d.body = body

/-- The same, as the daemon sees it. -/
def IndexState.Stores (t : IndexState) (k : ContentHash) (body : String) : Prop :=
  ∃ row ∈ t.store.liveRows, ∃ r d, t.store.get row = some r ∧ r.contentHash = k ∧
    (row, d) ∈ t.lexical.reader ∧ d.body = body

variable {ix : Indexer} {E : Embedder} {H : Prop} {plan : Plan} {a b : Contents} {docs docs' : Docs}
  {t u : IndexState} {k : ContentHash} {body : String}

theorem Holds.stores_iff (S : Holds E H a docs t) : t.Stores k body ↔ Stored a docs k body := by
  have hreader : t.lexical.reader = docs := congrArg DocIndex.reader S.lexical
  rw [IndexState.Stores, liveRows_eq S, hreader]
  constructor
  · rintro ⟨row, hrow, r, d, hr, hk, hd, hbody⟩
    obtain ⟨⟨row', e⟩, he, rfl⟩ := List.mem_map.mp hrow
    obtain rfl : e.1 = r := Option.some.inj ((S.repr.pair.db.get_of_mem he).symm.trans hr)
    exact ⟨row', e, d, he, hk, hd, hbody⟩
  · rintro ⟨row, e, d, he, hk, hd, hbody⟩
    exact ⟨row, List.mem_map_of_mem he, e.1, d, S.repr.pair.db.get_of_mem he, hk, hd, hbody⟩

theorem Stored.unique (H : Agree a.table docs) {body' : String} (h : Stored a docs k body)
    (h' : Stored a docs k body') : body = body' := by
  obtain ⟨row, e, d, he, hk, hd, rfl⟩ := h
  obtain ⟨row', e', d', he', hk', hd', rfl⟩ := h'
  obtain rfl : row = row' := congrArg Prod.fst (RowTable.eq_of_key he he' (hk.trans hk'.symm))
  rw [H.unique.eq hd hd']

theorem exists_stored (H : Agree a.table docs) (h : k ∈ a.table.keys) :
    ∃ body, Stored a docs k body := by
  obtain ⟨⟨row, e⟩, he, hk⟩ := RowTable.mem_keys.mp h
  obtain ⟨d, hd, -⟩ := H.complete row e he
  exact ⟨d.body, row, e, d, he, hk, hd, rfl⟩

theorem Stored.mem_keys (h : Stored a docs k body) : k ∈ a.table.keys := by
  obtain ⟨row, e, d, he, hk, -⟩ := h
  exact RowTable.mem_keys.mpr ⟨(row, e), he, hk⟩

/-! ## What a step leaves -/

theorem Stored.of_tombstone {rows : List RowId}
    (h : Stored (a.tombstone rows) (deleteAll rows docs) k body) : Stored a docs k body := by
  obtain ⟨row, e, d, he, hk, hd, hbody⟩ := h
  exact ⟨row, e, d, (RowTable.mem_retire.mp he).1, hk, (mem_deleteAll.mp hd).1, hbody⟩

theorem Stored.of_rekeyFile {source dest : String} {rows : List RowId}
    (h : Stored (a.rekeyFile source dest)
      (moveAll docs ((rows.map fun row => (row, dest)).map LexicalIndex.pathMove) docs) k body) :
    Stored a docs k body := by
  obtain ⟨row, e', d, he', hk, hd, hbody⟩ := h
  obtain ⟨e, he, rfl⟩ := Agree.mem_rekeyTable.mp he'
  rw [Contents.hash_rekeyEntry] at hk
  rcases mem_of_mem_moveAll hd with hd | ⟨m, hm, d', hd', heq⟩
  · exact ⟨row, e, d, he, hk, hd, hbody⟩
  · obtain ⟨p, hp, rfl⟩ := List.mem_map.mp hm
    obtain ⟨rfl, rfl⟩ := Prod.mk.inj heq
    exact ⟨p.1, e, d', he, hk, hd', hbody⟩

/-- The documents of a batch, side by side with its chunks. -/
theorem mem_zip_lexicalDoc {T : ChunkTable} {ids : List RowId} {cs : List Chunk}
    (hids : List.Forall₂ (RowOf T) ids (ix.batchOf cs)) {row : RowId} {d : LexicalDoc}
    (h : (row, d) ∈ ids.zip (cs.map lexicalDoc)) :
    ∃ c ∈ cs, d = lexicalDoc c ∧ ∃ e, (row, e) ∈ T.live ∧ e.hash = c.record.contentHash := by
  have hrows : List.Forall₂ (fun row (c : Chunk) => ∃ e, (row, e) ∈ T.live ∧
      e.hash = c.record.contentHash) ids cs := by
    rw [← List.forall₂_map_right_iff (R := fun row k => ∃ e, (row, e) ∈ T.live ∧ e.hash = k),
      ← hashesOf, ← ix.batchOf_hashes, List.forall₂_map_right_iff]
    exact hids
  rw [List.zip_map_right] at h
  obtain ⟨⟨row', c⟩, hc, heq⟩ := List.mem_map.mp h
  obtain ⟨rfl, rfl⟩ := Prod.mk.inj heq
  exact ⟨c, (List.of_mem_zip hc).2, rfl, List.forall₂_zip hrows hc⟩

theorem Stored.of_insertBatch (H : Agree a.table docs) {cs : List Chunk} {ids : List RowId}
    (hids : List.Forall₂ (RowOf (a.insertBatch (ix.batchOf cs)).table) ids (ix.batchOf cs))
    (h : Stored (a.insertBatch (ix.batchOf cs)) (putAll (ids.zip (cs.map lexicalDoc)) docs)
      k body) :
    Stored a docs k body ∨ ∃ c ∈ cs, c.record.contentHash = k ∧ c.body = body := by
  obtain ⟨row, e, d, he, hk, hd, hbody⟩ := h
  rcases mem_of_mem_putAll hd with hd | hd
  · obtain ⟨c, hc, rfl, e', he', hh⟩ := mem_zip_lexicalDoc hids hd
    rw [RowTable.entry_eq he' he, hk] at hh
    exact .inr ⟨c, hc, hh.symm, hbody⟩
  · -- A document that was there belongs to a row that was.
    obtain ⟨e', he', -⟩ := H.sound row d hd
    have heq : e = e' := RowTable.entry_eq he (RowTable.mem_insertAll_of_mem he')
    exact .inl ⟨row, e', d, he', heq ▸ hk, hd, hbody⟩

theorem Stored.of_compact (H : Agree a.table docs)
    (h : Stored a.compact (moveAll docs (a.table.mapping.map LexicalIndex.rowMove) docs) k body) :
    Stored a docs k body := by
  obtain ⟨row, e, d, he, hk, hd, hbody⟩ := h
  obtain ⟨old, hold, he⟩ := RowTable.mem_compact.mp he
  obtain ⟨old', hold', hd⟩ := (mem_moveAll_mapping H.unique H.keys).mp hd
  have heq : old = old' := by
    have h := List.mem_zipIdx_iff_getElem?.mp hold
    rw [List.mem_zipIdx_iff_getElem?.mp hold'] at h
    exact (Option.some.inj h).symm
  exact ⟨old, e, d, he, hk, heq ▸ hd, hbody⟩

/-! ## What a run leaves -/

/-- Only bodies that `B` allows are stored behind the hashes. -/
def Bodies (B : ContentHash → String → Prop) (t : IndexState) : Prop :=
  ∀ k body, t.Stores k body → B k body

variable {B : ContentHash → String → Prop}

theorem Bodies.of_stored (h : Bodies B t) (S : Holds E H a docs t) (S' : Holds E H b docs' u)
    (hback : ∀ k body, Stored b docs' k body → Stored a docs k body ∨ B k body) : Bodies B u := by
  intro k body hs
  rcases hback k body (S'.stores_iff.mp hs) with hs | hB
  · exact h k body (S.stores_iff.mpr hs)
  · exact hB

theorem retiring_bodies : Retiring ix True (Bodies B) (fun _ => True) fun _ => True := by
  refine ⟨fun h hs hl k body => ?_, fun _ _ => trivial, fun {b docs t} rows S h => ?_⟩
  · rw [IndexState.Stores, hs, hl]
    exact h k body
  · refine (retire_wp (P := True) S rows).mono (fun _ u hu => ?_) (fun _ _ _ => trivial)
      (fun _ _ _ => trivial)
    exact h.of_stored S.toHolds hu.1.toHolds fun _ _ hs => .inl hs.of_tombstone

theorem changing_bodies : Changing ix True plan a (Bodies B) (fun _ => True) fun _ => True := by
  refine ⟨retiring_bodies, fun {done source dest rest docs t} _ S h => ?_⟩
  refine (renameFile_wp (P := True) S source dest).mono (fun _ u hu => ?_) (fun _ _ _ => trivial)
    (fun _ _ _ => trivial)
  exact h.of_stored S.toHolds hu.2.1.toHolds fun _ _ hs => .inl hs.of_rekeyFile

theorem working_bodies (htakes : ∀ c ∈ ix.consumed plan a.records, B c.record.contentHash c.body) :
    Working ix True plan a (Bodies B) (fun _ => True) fun _ => True := by
  refine ⟨retiring_bodies, fun {b docs t pending} hpend hnovel hdistinct S h => ?_,
    fun {b docs t} dirty S h => ?_, fun {b docs t} S h => ?_⟩
  · refine (flushBatch_wp (P := True) S hnovel hdistinct).mono (fun _ u hu => ?_)
      (fun _ _ _ => trivial) (fun _ _ _ => trivial)
    obtain ⟨⟨ids, hids, S'⟩, -⟩ := hu
    refine h.of_stored S.toHolds S'.toHolds fun k body hs => ?_
    refine (hs.of_insertBatch (S.agree trivial) hids).imp_right ?_
    rintro ⟨c, hc, rfl, rfl⟩
    exact htakes c (hpend c hc)
  · refine (recordCommit_wp (P := True) S dirty fun _ => trivial).mono (fun _ u hu => ?_)
      (fun _ _ _ => trivial) (fun _ _ _ => trivial)
    exact h.of_stored S.toHolds hu.1.toHolds fun _ _ hs => .inl hs
  · refine (maybeCompact_wp (P := True) S).mono (fun _ u hu => ?_) (fun _ _ _ => trivial)
      (fun _ _ _ => trivial)
    obtain ⟨⟨b', docs', hcomp, S'⟩, -⟩ := hu
    refine h.of_stored S.toHolds S' fun k body hs => .inl ?_
    rcases hcomp with ⟨-, rfl, rfl⟩ | ⟨-, rfl, rfl⟩
    · exact hs
    · exact hs.of_compact (S.agree trivial)

/-- Behind a hash that the changes leave in the store stands the body that stood there, and behind
one that is new the body of the chunk that is taken up. -/
theorem bodies_of_run (S : Synced ix True a docs t) {kind : RunKind}
    (hplan : plan = ix.plan kind a.indexedCommit) :
    Prog.Ensures (ix.run kind) (fun _ => Bodies fun k body =>
      (k ∈ recordHashes (plan.diff a.records) ∧ t.Stores k body) ∨
        ∃ c ∈ ix.takes plan a.records, c.record.contentHash = k ∧ c.body = body) t := by
  subst hplan
  by_cases hparses : ¬ix.Parses (ix.plan kind a.indexedCommit).work
  · -- Such a run does not return.
    refine Prog.ensures_mono ((run_wp S kind).mono (fun _ _ h => h) (fun _ _ _ => trivial)
      (fun _ _ _ => trivial)) fun _ u hu => ?_
    obtain ⟨-, c, docs', -, -, hcount⟩ := hu
    exact absurd hcount.parsed hparses
  rw [not_not] at hparses
  refine Invariant.run ⟨changing_bodies, fun {docs' u} S' h k body hs => .inl ⟨?_, h k body hs⟩,
    working_bodies fun c hc => .inr ⟨c, consumed_of_parses hparses ▸ hc, rfl, rfl⟩⟩ S
      (fun k body hs => hs)
  rw [Plan.diff, ← Contents.records_applyChanges, ← Contents.keys_eq]
  exact (S'.stores_iff.mp hs).mem_keys

section history

variable {allowed : Stop → Prop} {kind : RunKind}

theorem History.holds_good (Hs : History E allowed t)
    (hgood : ∀ stop, allowed stop → GoodStop stop) : ∃ a docs, Holds E True a docs t := by
  obtain ⟨a, docs, S⟩ := Hs.holds
  exact ⟨a, docs, S.repr, S.lexical, S.dims, S.modelId, fun _ => S.agree hgood⟩

/-- The bodies behind the hashes of a run's records: those from before, and those of the new
chunks. -/
theorem History.run_stores (Hs : History E allowed t) (hgood : ∀ stop, allowed stop → GoodStop stop)
    (hE : ix.embedder = E) (hf : FreshGeneration t.store ix.pid ix.nanos)
    (hok : (ix.run kind t).result.isOk = true) :
    let plan := ix.plan kind t.store.indexedCommit
    (∀ k ∈ recordHashes (plan.diff t.records), k ∈ (ix.run kind t).state.hashes →
      ∀ body, (ix.run kind t).state.Stores k body ↔ t.Stores k body) ∧
    ∀ c ∈ ix.takes plan t.records, ∀ body,
      (ix.run kind t).state.Stores c.record.contentHash body ↔ c.body = body := by
  intro plan
  obtain ⟨a, docs, S⟩ := Hs.holds_good hgood
  subst hE
  have hplan : plan = ix.plan kind a.indexedCommit := by rw [← indexedCommit_eq S]
  cases hr : (ix.run kind t).result with
  | error e => rw [hr] at hok; cases hok
  | ok r =>
    obtain ⟨-, b, docs', S', hran, -⟩ := (run_wp ⟨S, hf⟩ kind).ok hr
    have hbodies := (bodies_of_run ⟨S, hf⟩ hplan).ok hr
    rw [← hplan] at hran
    have hagree := S'.agree trivial
    have hkeys : (ix.run kind t).state.hashes = b.table.keys := by
      rw [IndexState.hashes, S'.records, b.keys_eq]
    have hfound : ∀ k ∈ (ix.run kind t).state.hashes, ∃ body, (ix.run kind t).state.Stores k
        body := by
      intro k hk
      obtain ⟨body, h⟩ := exists_stored hagree (hkeys ▸ hk)
      exact ⟨body, S'.stores_iff.mpr h⟩
    have hunknown : ∀ c ∈ ix.takes plan a.records,
        c.record.contentHash ∉ recordHashes (plan.diff a.records) := fun c hc =>
      @firsts.not_mem_known Chunk _ _ (·.record.contentHash) _ c _ hc
    rw [S.records]
    refine ⟨fun k hk hkept body => ?_, fun c hc body => ?_⟩
    · -- A chunk that is taken up has another hash.
      have hold : ∀ body, (ix.run kind t).state.Stores k body → t.Stores k body := by
        intro body hs
        rcases hbodies k body hs with hbefore | hnew
        · exact hbefore.2
        · obtain ⟨c, hc, hck, -⟩ := hnew
          exact absurd (hck ▸ hk) (hunknown c hc)
      refine ⟨hold body, fun hs => ?_⟩
      obtain ⟨body', hs'⟩ := hfound k hkept
      have heq := (S.stores_iff.mp (hold body' hs')).unique (S.agree trivial) (S.stores_iff.mp hs)
      exact heq ▸ hs'
    · have hnew : ∀ body, (ix.run kind t).state.Stores c.record.contentHash body →
        c.body = body := by
        intro body hs
        rcases hbodies _ body hs with ⟨hk, -⟩ | ⟨c', hc', hck, rfl⟩
        · exact absurd hk (hunknown c hc)
        · have hnodup : (hashesOf (ix.takes plan a.records)).Nodup := firsts.nodup
          rw [List.inj_on_of_nodup_map hnodup hc' hc hck]
      refine ⟨hnew body, fun hs => ?_⟩
      obtain ⟨body', hs'⟩ := hfound c.record.contentHash (by
        rw [IndexState.hashes, S'.records, hran.records, outcome, recordHashes]
        exact List.mem_map_of_mem (List.mem_append_right _ (List.mem_map_of_mem hc)))
      rw [← hs, hnew body' hs']
      exact hs'

end history

end SiftMcp
