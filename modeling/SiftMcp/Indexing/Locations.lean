import SiftMcp.Indexing.Coverage

/-!
# Where the code stands

Lines, symbol and signature of the live records after a run. The content hash leaves them out, so
that a row whose hash is still in its file is kept with the place that it was inserted with.

`History.located_iff` says when all of them are right.
-/

namespace SiftMcp
open Durable Indexer

/-- Lines, symbol and signature. -/
def ChunkRecord.place (r : ChunkRecord) : Nat × Nat × String × String :=
  (r.lineStart, r.lineEnd, r.symbol, r.signature)

namespace Indexer

/-- Chunking the file of the record, as it is now, gives a chunk with its hash at its place. -/
def Locates (ix : Indexer) (r : ChunkRecord) : Prop :=
  ∃ item, ix.Indexes item ∧ item.rel = r.file ∧ ∃ cs, ix.chunks item = some cs ∧
    ∃ c ∈ cs, c.record.contentHash = r.contentHash ∧ c.record.place = r.place

/-- Each live record is at its place, save where parsing a file has failed in the run. -/
def Located (ix : Indexer) (plan : Plan) (t : IndexState) : Prop :=
  ∀ r ∈ t.records, ix.Locates r ∨ ix.unparsed plan.work r.file = true

end Indexer

variable {E : Embedder} {ix : Indexer} {t : IndexState} {plan : Plan} {rs : List ChunkRecord}

/-- A chunk that is taken up comes with the place that chunking has just found. -/
theorem locates_of_taken (hwork : ∀ item ∈ plan.work, ix.Indexes item) {c : Chunk}
    (hc : c ∈ ix.takes plan rs) : ix.Locates c.record := by
  obtain ⟨item, hitem, cs, hcs, hc⟩ := mem_chunksOf.mp (takes_subset hc)
  have hindexes : ix.Indexes item := hwork item hitem
  obtain ⟨hfile, -⟩ := yields_of_mem hindexes hcs hc
  exact ⟨item, hindexes, hfile.symm, cs, hcs, c, hc, rfl, rfl⟩

theorem leaves_located_iff (hwork : ∀ item ∈ plan.work, ix.Indexes item) :
    Leaves ix plan rs (fun r => ix.Locates r ∨ ix.unparsed plan.work r.file = true) ↔
      ∀ r ∈ plan.diff rs, ix.retires plan.work r = false →
        ix.Locates r ∨ ix.unparsed plan.work r.file = true :=
  ⟨fun h => h.kept, fun h => ⟨h, fun _ hc => .inl (locates_of_taken hwork hc)⟩⟩

section history

variable {allowed : Stop → Prop} {kind : RunKind}

/-- After a successful run from any state that a history reaches, each live record is at its place,
exactly when this is so of the rows that the changes leave and that are not retired, as they are
before the run. -/
theorem History.located_iff (Hs : History E allowed t) (hE : ix.embedder = E)
    (hf : FreshGeneration t.store ix.pid ix.nanos) (hok : (ix.run kind t).result.isOk = true) :
    let plan := ix.plan kind t.store.indexedCommit
    ix.Located plan (ix.run kind t).state ↔
      ∀ r ∈ plan.diff t.records, ix.retires plan.work r = false →
        ix.Locates r ∨ ix.unparsed plan.work r.file = true := by
  intro plan
  obtain ⟨hrec, -, -⟩ := Hs.run_records hE hf hok
  rw [Located, hrec, leaves_iff]
  exact leaves_located_iff fun item hitem => plan_indexes hitem

/-- A function is changed where it stands. -/
theorem History.located_iff_edited :
    let before := sampleTree [("a.rs", "fn f() {}")]
    let after := sampleTree [("a.rs", "\nfn g() {}")]
    let t := ((sampleIndexer before (sampleGit "c1" before []) 1).run .indexAll sampleStart).state
    let ix := sampleIndexer after (sampleGit "c2" after
      [.modification "a.rs".toUTF8.toList .blob .blob]) 2
    ix.Located (ix.plan .update t.store.indexedCommit) (ix.run .update t).state := by
  intro before after t ix
  have Hs : History sampleEmbedder (fun _ => False) t :=
    sampleIndexed_history
  apply Iff.mpr (@History.located_iff _ ix _ _ .update Hs rfl
    sampleIndexed_fresh (by decide +kernel))
  intro r hr hret
  have hgone : ∀ r ∈ (ix.plan .update t.store.indexedCommit).diff t.records,
      ix.retires (ix.plan .update t.store.indexedCommit).work r = true := by decide +kernel
  rw [hgone r hr] at hret
  cases hret

theorem replaceBackslash_eq {path s : String} (h : replaceBackslash path = s)
    (hs : '/' ∉ s.toList) : path = s := by
  subst h
  have hmap : ∀ c ∈ path.toList, (if c = '\\' then '/' else c) = c := by
    intro c hc
    split
    · rename_i hb
      refine absurd ?_ hs
      rw [replaceBackslash, String.toList_ofList]
      exact List.mem_map.mpr ⟨c, hc, if_pos hb⟩
    · rfl
  rw [replaceBackslash, List.map_congr_left hmap, List.map_id', String.ofList_toList]

/-- A line is inserted above a function. The file has the hashes it had, and is skipped. -/
theorem update_keeps_lines :
    let before := sampleTree [("a.rs", "fn f() {}")]
    let after := sampleTree [("a.rs", "\nfn f() {}")]
    let t := ((sampleIndexer before (sampleGit "c1" before []) 1).run .indexAll sampleStart).state
    let ix := sampleIndexer after (sampleGit "c2" after
      [.modification "a.rs".toUTF8.toList .blob .blob]) 2
    History sampleEmbedder (fun _ => False) t ∧ (ix.run .update t).result.isOk = true ∧
      (ix.run .update t).state.records.map (fun r => (r.file, r.lineStart)) = [("a.rs", 1)] ∧
      ¬ix.Located (ix.plan .update t.store.indexedCommit) (ix.run .update t).state := by
  intro before after t ix
  have hlines : (ix.run .update t).state.records.map (fun r => (r.file, r.lineStart)) =
      [("a.rs", 1)] := by decide +kernel
  refine ⟨sampleIndexed_history, by decide +kernel, hlines, fun h => ?_⟩
  obtain ⟨r, hr, hline⟩ := List.mem_map.mp (hlines ▸ List.mem_singleton_self ("a.rs", 1))
  obtain ⟨hfile, hline⟩ := Prod.mk.inj hline
  -- Whichever way the file is taken up, its function is on the second line.
  have hread : ∀ item, ix.Indexes item → item.rel = "a.rs" → ∀ cs, ix.chunks item = some cs →
      ∀ c ∈ cs, c.record.lineStart = 2 := by
    have hall : ∀ item ∈ ix.walked ++ (ix.itemAt "a.rs").toList,
        ∀ c ∈ (ix.chunks item).getD [], c.record.lineStart = 2 := by decide +kernel
    intro item hitem hrel cs hcs c hc
    refine hall item ?_ c (by rw [hcs]; exact hc)
    rcases hitem with hitem | ⟨path, hitem⟩
    · exact List.mem_append_left _ hitem
    · obtain rfl := replaceBackslash_eq ((itemAt_rel hitem).symm.trans hrel) (by decide)
      exact List.mem_append_right _ (Option.mem_toList.mpr hitem)
  rcases h r hr with ⟨item, hitem, hrel, cs, hcs, c, hc, -, hplace⟩ | hun
  · have htwo := hread item hitem (hrel.trans hfile) cs hcs c hc
    rw [ChunkRecord.place, ChunkRecord.place, Prod.mk.injEq, htwo, hline] at hplace
    exact absurd hplace.1 (by decide)
  · have hparsed : ix.unparsed (ix.plan .update t.store.indexedCommit).work "a.rs" = false := by
      decide +kernel
    rw [hfile, hparsed] at hun
    cases hun

end history

end SiftMcp
