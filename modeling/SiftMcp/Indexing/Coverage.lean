import SiftMcp.Indexing.Histories
import SiftMcp.Indexing.Walks

/-!
# What a run leaves in the index

The live records after a successful run, as a function of its plan and of the live records before
it. From this follows when the index has every chunk of the files, and nothing else: a run retires
rows by file and hash, but takes up a chunk only when no row bears its hash as the run begins.

* `History.complete_iff`: every chunk is there.
* `History.sound_iff`: nothing else is.
* `History.truthful_iff`: both, for the commit that the marker names.
-/

namespace SiftMcp
open Durable Indexer

/-- The live records, in row order. -/
def IndexState.records (t : IndexState) : List ChunkRecord := t.store.conn.live.map (·.record)

def recordHashes (rs : List ChunkRecord) : List ContentHash := rs.map (·.contentHash)

def IndexState.hashes (t : IndexState) : List ContentHash := recordHashes t.records

/-- What a change does to the records at once. A file that is added or modified is read again. -/
def FileChange.apply (rs : List ChunkRecord) : FileChange → List ChunkRecord
  | .deleted path => rs.filter (·.file ≠ path)
  | .renamed source dest => rs.map fun r => if r.file = source then { r with file := dest } else r
  | .added _ | .modified _ => rs

namespace Indexer

/-- The records behind the changes of the plan. -/
def Plan.diff (plan : Plan) (rs : List ChunkRecord) : List ChunkRecord :=
  plan.changes.foldl FileChange.apply rs

/-- The chunks that a run takes up: the first delivered of each hash that no record bears. -/
def takes (ix : Indexer) (plan : Plan) (rs : List ChunkRecord) : List Chunk :=
  taken (recordHashes (plan.diff rs)) (ix.chunksOf (ix.schedule plan.work))

def outcome (ix : Indexer) (plan : Plan) (rs : List ChunkRecord) : List ChunkRecord :=
  (plan.diff rs).filter (!ix.retires plan.work ·) ++ (ix.takes plan rs).map (·.record)

end Indexer

variable {E : Embedder} {ix : Indexer} {H : Prop} {a b c : Contents} {docs : Docs}
  {t u : IndexState} {plan : Plan} {rs : List ChunkRecord}

/-! ## Records of the contents -/

def Contents.records (a : Contents) : List ChunkRecord := a.table.vals.map (·.1)

theorem Contents.keys_eq (a : Contents) : a.table.keys = recordHashes a.records := by
  rw [RowTable.keys_eq_map_vals, recordHashes, Contents.records, List.map_map]
  rfl

theorem Contents.records_eq (a : Contents) : a.records = a.table.live.map fun p => p.2.1 := by
  rw [Contents.records, RowTable.vals, List.map_map]
  rfl

theorem Repr.records {s : ChunkStore} (R : Repr s a) : s.conn.live.map (·.record) = a.records := by
  have h := congrArg (List.map fun p : RowId × ChunkRecord => p.2) R.pair.db.live
  rw [List.map_map, List.map_map] at h
  rw [a.records_eq]
  exact h

theorem Holds.records (S : Holds E H a docs t) : t.records = a.records := S.repr.records

theorem Contents.records_applyChange (a : Contents) (change : FileChange) :
    (a.applyChange change).records = change.apply a.records := by
  cases change with
  | added path | modified path => rfl
  | deleted path =>
    rw [Contents.records_eq, a.records_eq, FileChange.apply, List.filter_map]
    refine congrArg _ (List.filter_congr fun p hp => ?_)
    have h := @Agree.mem_rowsOf a.table path p.1 p.2 hp
    simp only [Function.comp_apply, ne_eq, h]
  | renamed source dest =>
    rw [Contents.records_eq, a.records_eq, FileChange.apply, List.map_map]
    show (a.table.live.map _).map _ = _
    rw [List.map_map]
    refine List.map_congr_left fun p _ => ?_
    simp only [Function.comp_apply, Contents.rekeyEntry]
    split <;> rfl

theorem Contents.records_applyChanges (a : Contents) (changes : List FileChange) :
    (a.applyChanges changes).records = changes.foldl FileChange.apply a.records := by
  induction changes generalizing a with
  | nil => rfl
  | cons change changes ih =>
    rw [List.foldl_cons, ← a.records_applyChange]
    exact ih (a.applyChange change)

theorem retires_perm {work work' : List WorkItem} (h : work.Perm work') (r : ChunkRecord) :
    ix.retires work r = ix.retires work' r := by
  rw [Bool.eq_iff_iff, retires, retires, List.any_eq_true, List.any_eq_true]
  exact exists_congr fun item => and_congr_left fun _ => h.mem_iff

theorem Processed.records {work : List WorkItem} {cs : List Chunk}
    (h : Processed ix a (ix.schedule work) cs b) :
    b.records = a.records.filter (!ix.retires work ·) ++ cs.map (·.record) := by
  obtain ⟨new, hlive, hrec, -⟩ := h.live
  rw [b.records_eq, hlive, List.map_append, ← hrec, a.records_eq, List.filter_map]
  congr 2
  exact List.filter_congr fun p _ => by
    rw [Function.comp_apply, retires_perm (ix.schedule_perm work)]

theorem Ran.records (h : Ran ix plan a c) : c.records = ix.outcome plan a.records := by
  obtain ⟨b, head, dirty, -, -, hb, hsame⟩ := h
  have hdiff : (a.applyChanges plan.changes).records = plan.diff a.records :=
    a.records_applyChanges plan.changes
  have hc : c.records = b.records := congrArg (List.map fun e : Entry => e.1) hsame.vals
  rw [hc, hb.records, outcome, takes, ← hdiff, ← Contents.keys_eq]

theorem Holds.hashes_nodup (S : Holds E H a docs t) (plan : Plan) :
    (recordHashes (plan.diff t.records)).Nodup := by
  rw [S.records, Plan.diff, ← a.records_applyChanges, ← Contents.keys_eq]
  exact (a.applyChanges plan.changes).table.distinct

section run

variable {allowed : Stop → Prop} {kind : RunKind}

/-- The live records after a successful run, from any state that a history reaches, and the commit
marker. -/
theorem History.run_records (Hs : History E allowed t) (hE : ix.embedder = E)
    (hf : FreshGeneration t.store ix.pid ix.nanos) (hok : (ix.run kind t).result.isOk = true) :
    let plan := ix.plan kind t.store.indexedCommit
    (ix.run kind t).state.records = ix.outcome plan t.records ∧
      (recordHashes (plan.diff t.records)).Nodup ∧
      ∃ head dirty, ix.git.isDirty = .ok dirty ∧ ix.git.headId = .ok head ∧
        (ix.run kind t).state.store.indexedCommit = some (ix.commitMarker dirty head) := by
  obtain ⟨a, docs, S⟩ := Hs.holds
  subst hE
  cases hr : (ix.run kind t).result with
  | error e => rw [hr] at hok; cases hok
  | ok r =>
    obtain ⟨-, c, docs', S', hran, -⟩ := (run_wp ⟨S, hf⟩ kind).ok hr
    rw [indexedCommit_eq S]
    refine ⟨by rw [S'.records, S.records]; exact hran.records, S.hashes_nodup _, ?_⟩
    obtain ⟨b, head, dirty, hd, hh, -, hsame⟩ := hran
    exact ⟨head, dirty, hd, hh, (indexedCommit_eq S').trans hsame.commit⟩

end run

/-! ## Which hashes and which records are left -/

theorem mem_recordHashes {k : ContentHash} : k ∈ recordHashes rs ↔ ∃ r ∈ rs, r.contentHash = k :=
  List.mem_map

theorem hashesOf_perm {work work' : List WorkItem} (h : work.Perm work') (k : ContentHash) :
    k ∈ hashesOf (ix.chunksOf work) ↔ k ∈ hashesOf (ix.chunksOf work') :=
  ((h.flatMap_right _).map _).mem_iff

/-- The chunks that are taken up are those of files that are read. -/
theorem takes_subset {c : Chunk} (hc : c ∈ ix.takes plan rs) : c ∈ ix.chunksOf plan.work :=
  ((ix.schedule_perm plan.work).flatMap_right _).mem_iff.mp (firsts.sublist.subset hc)

theorem mem_hashes_outcome {k : ContentHash} : k ∈ recordHashes (ix.outcome plan rs) ↔
    (∃ r ∈ plan.diff rs, r.contentHash = k ∧ ix.retires plan.work r = false) ∨
      k ∉ recordHashes (plan.diff rs) ∧ k ∈ hashesOf (ix.chunksOf plan.work) := by
  have htakes : k ∈ recordHashes ((ix.takes plan rs).map (·.record)) ↔
      k ∉ recordHashes (plan.diff rs) ∧ k ∈ hashesOf (ix.chunksOf plan.work) := by
    rw [recordHashes, List.map_map, hashesOf_perm (ix.schedule_perm plan.work).symm]
    exact firsts.mem_keys
  rw [← htakes, outcome, recordHashes, List.map_append, List.mem_append]
  refine or_congr_left ?_
  constructor
  · intro h
    obtain ⟨r, hr, hk⟩ := List.mem_map.mp h
    obtain ⟨hr, hret⟩ := List.mem_filter.mp hr
    exact ⟨r, hr, hk, by simpa using hret⟩
  · intro ⟨r, hr, hk, hret⟩
    exact List.mem_map.mpr ⟨r, List.mem_filter.mpr ⟨hr, by simpa using hret⟩, hk⟩

/-- When a run leaves live records of some hashes: those that the store has are not retired, and the
others are in files that are read. -/
structure Covers (ix : Indexer) (plan : Plan) (rs : List ChunkRecord) (hashes : List ContentHash) :
    Prop where
  retired : ∀ r ∈ plan.diff rs, ix.retires plan.work r = true → r.contentHash ∉ hashes
  read : ∀ k ∈ hashes, k ∉ recordHashes (plan.diff rs) → k ∈ hashesOf (ix.chunksOf plan.work)

theorem covers_iff (hd : (recordHashes (plan.diff rs)).Nodup) {hashes : List ContentHash} :
    (∀ k ∈ hashes, k ∈ recordHashes (ix.outcome plan rs)) ↔ Covers ix plan rs hashes := by
  constructor
  · intro h
    refine ⟨fun r hr hret hk => ?_, fun k hk hnew => ?_⟩
    · rcases mem_hashes_outcome.mp (h _ hk) with ⟨r', hr', hh, hret'⟩ | ⟨hnew, -⟩
      · rw [List.inj_on_of_nodup_map hd hr' hr hh, hret] at hret'
        cases hret'
      · exact hnew (mem_recordHashes.mpr ⟨r, hr, rfl⟩)
    · rcases mem_hashes_outcome.mp (h k hk) with ⟨r, hr, rfl, -⟩ | ⟨-, hread⟩
      · exact absurd (mem_recordHashes.mpr ⟨r, hr, rfl⟩) hnew
      · exact hread
  · intro h k hk
    rw [mem_hashes_outcome]
    by_cases hold : k ∈ recordHashes (plan.diff rs)
    · obtain ⟨r, hr, rfl⟩ := mem_recordHashes.mp hold
      refine .inl ⟨r, hr, rfl, ?_⟩
      by_contra hret
      exact h.retired r hr (by simpa using hret) hk
    · exact .inr ⟨hold, h.read k hk hold⟩

/-- When a run leaves only records with a property: those that are not retired have it, and those of
the chunks that are taken up. -/
structure Leaves (ix : Indexer) (plan : Plan) (rs : List ChunkRecord) (P : ChunkRecord → Prop) :
    Prop where
  kept : ∀ r ∈ plan.diff rs, ix.retires plan.work r = false → P r
  taken : ∀ c ∈ ix.takes plan rs, P c.record

theorem leaves_iff {P : ChunkRecord → Prop} :
    (∀ r ∈ ix.outcome plan rs, P r) ↔ Leaves ix plan rs P := by
  constructor
  · intro h
    refine ⟨fun r hr hret => h r ?_, fun c hc => h _ ?_⟩
    · exact List.mem_append_left _ (List.mem_filter.mpr ⟨hr, by simpa using hret⟩)
    · exact List.mem_append_right _ (List.mem_map_of_mem hc)
  · intro h r hr
    rcases List.mem_append.mp hr with hr | hr
    · obtain ⟨hr, hret⟩ := List.mem_filter.mp hr
      exact h.kept r hr (by simpa using hret)
    · obtain ⟨c, hc, rfl⟩ := List.mem_map.mp hr
      exact h.taken c hc

/-! ## The files of the indexed tree -/

namespace Indexer

/-- The indexer on a tree that is checked out. -/
def onTree (ix : Indexer) (tree : FsEntries) : Indexer :=
  { ix with
    worktree := tree
    host := fun _ => none
    config := { ix.config with dirtyWorktree := .indexWorktree } }

/-- The files of the commit of HEAD that can be indexed. -/
def headFiles (ix : Indexer) : List WorkItem :=
  match ix.git.headTree with
  | .ok tree => (ix.onTree tree).walked
  | .error _ => []

/-- The files that can be indexed under the policy. -/
def indexable (ix : Indexer) : List WorkItem :=
  if ix.config.dirtyWorktree = .indexCommitOnly then ix.headFiles else ix.walked

/-- The file is taken up by a walk, or when its path is looked at. -/
def Indexes (ix : Indexer) (item : WorkItem) : Prop :=
  item ∈ ix.walked ∨ ∃ path, ix.itemAt path = some item

/-- Chunking some file that is taken up gives a chunk with the file name and the hash of the
record. -/
def Yields (ix : Indexer) (r : ChunkRecord) : Prop :=
  ∃ item, ix.Indexes item ∧ ∃ cs, ix.chunks item = some cs ∧
    ∃ c ∈ cs, c.record.file = r.file ∧ c.record.contentHash = r.contentHash

/-- Parsing a file of the name fails. -/
def unparsed (ix : Indexer) (items : List WorkItem) (file : String) : Bool :=
  items.any fun item => item.rel = file && (ix.chunks item).isNone

/-- Each hash that an indexable file yields has a live record. -/
def Complete (ix : Indexer) (t : IndexState) : Prop :=
  ∀ k ∈ hashesOf (ix.chunksOf ix.indexable), k ∈ t.hashes

/-- Each live record is one that its file yields, save where parsing a file has failed in the
run. -/
def Sound (ix : Indexer) (plan : Plan) (t : IndexState) : Prop :=
  ∀ r ∈ t.records, ix.Yields r ∨ ix.unparsed plan.work r.file = true

/-- A file of the name is parsed. -/
def parsed (ix : Indexer) (items : List WorkItem) (file : String) : Bool :=
  items.any fun item => item.rel = file && (ix.chunks item).isSome

/-- The record is a chunk of the commit of HEAD, or it was left behind because its file there cannot
be parsed. -/
def Committed (ix : Indexer) (plan : Plan) (r : ChunkRecord) : Prop :=
  r.contentHash ∈ hashesOf (ix.chunksOf ix.headFiles) ∨
    ix.unparsed ix.headFiles r.file = true ∧ ix.parsed plan.work r.file = false

/-- The live hashes are those of the commit of HEAD. -/
def Truthful (ix : Indexer) (plan : Plan) (t : IndexState) : Prop :=
  (∀ k ∈ hashesOf (ix.chunksOf ix.headFiles), k ∈ t.hashes) ∧
    ∀ r ∈ t.records, ix.Committed plan r

/-- What the rows behind the diff and the files that the run reads must have in common with the
commit of HEAD: the run covers its hashes, a row whose file is not read and parsed is a chunk of it
or of a file there that cannot be parsed, and a chunk that is read is a chunk of it, unless a row of
another file bears the same hash. -/
structure Upholds (ix : Indexer) (plan : Plan) (rs : List ChunkRecord) : Prop where
  covers : Covers ix plan rs (hashesOf (ix.chunksOf ix.headFiles))
  unread : ∀ r ∈ plan.diff rs, ix.parsed plan.work r.file = false →
    r.contentHash ∈ hashesOf (ix.chunksOf ix.headFiles) ∨ ix.unparsed ix.headFiles r.file = true
  read : ∀ c ∈ ix.chunksOf plan.work,
    (∀ r ∈ plan.diff rs, r.contentHash = c.record.contentHash →
      r.file = c.record.file ∧ ix.retires plan.work r = false) →
    c.record.contentHash ∈ hashesOf (ix.chunksOf ix.headFiles)

end Indexer

/-! ## What is read -/

theorem itemAt_rel {path : String} {item : WorkItem} (h : ix.itemAt path = some item) :
    item.rel = replaceBackslash path := by
  unfold itemAt workItemForPath at h
  split at h
  · cases h
  · split at h
    · cases h
    · split at h
      · cases h
      · rw [← Option.some.inj h]

theorem Indexer.Indexes.rel {item : WorkItem} (h : ix.Indexes item) :
    replaceBackslash item.rel = item.rel := by
  rcases h with h | ⟨path, h⟩
  · obtain ⟨path, language, source, -, -, -, -, rfl⟩ := mem_walked_iff.mp h
    exact replaceBackslash_idem path
  · rw [itemAt_rel h, replaceBackslash_idem]

theorem plan_indexes {kind : RunKind} {marker : Option String} {item : WorkItem}
    (h : item ∈ (ix.plan kind marker).work) : ix.Indexes item := by
  unfold Indexer.plan at h
  split at h
  · obtain ⟨path, -, hitem⟩ := List.mem_filterMap.mp (mem_dedupWork h)
    exact .inr ⟨path, hitem⟩
  · exact .inl h

/-- A chunk of a file that is read bears its name. -/
theorem yields_of_mem {item : WorkItem} (hitem : ix.Indexes item) {cs : List Chunk}
    (hcs : ix.chunks item = some cs) {c : Chunk} (hc : c ∈ cs) :
    c.record.file = item.rel ∧ ix.Yields c.record := by
  refine ⟨?_, item, hitem, cs, hcs, c, hc, rfl, rfl⟩
  obtain ⟨file, hfile, hmem⟩ : ∃ file ∈ ix.chunker.chunkFile item.rel item.language item.source,
      c ∈ file.chunks := by
    unfold Indexer.chunks at hcs
    split at hcs
    · cases hcs
    · obtain ⟨file, hfile, hchunks⟩ := Option.bind_eq_some_iff.mp hcs
      split at hchunks
      · cases hchunks
      · exact ⟨file, hfile, Option.some.inj hchunks ▸ hc⟩
  rw [ix.chunker.file _ _ _ file hfile c hmem, hitem.rel]

/-- A row is retired only when its file is read. -/
theorem retires_of_unread {work : List WorkItem} {r : ChunkRecord}
    (h : ∀ item ∈ work, item.rel ≠ r.file) : ix.retires work r = false := by
  rw [retires, List.any_eq_false]
  exact fun item hitem hv => h item hitem (vanishes_rel hv).symm

/-- The rows of files that are read again are in order: they are retired otherwise. -/
theorem leaves_sound_iff (hwork : ∀ item ∈ plan.work, ix.Indexes item) :
    Leaves ix plan rs (fun r => ix.Yields r ∨ ix.unparsed plan.work r.file = true) ↔
      ∀ r ∈ plan.diff rs, r.file ∉ plan.work.map (·.rel) → ix.Yields r := by
  constructor
  · intro h r hr hread
    have hne : ∀ item ∈ plan.work, item.rel ≠ r.file := fun item hitem he =>
      hread (List.mem_map.mpr ⟨item, hitem, he⟩)
    refine (h.kept r hr (retires_of_unread hne)).resolve_right fun hun => ?_
    obtain ⟨item, hitem, hp⟩ := List.any_eq_true.mp hun
    rw [Bool.and_eq_true, decide_eq_true_eq] at hp
    exact hne item hitem hp.1
  · intro h
    constructor
    · intro r hr hret
      by_cases hread : r.file ∈ plan.work.map (·.rel)
      · obtain ⟨item, hitem, hrel⟩ := List.mem_map.mp hread
        cases hcs : ix.chunks item with
        | none =>
          refine .inr (List.any_eq_true.mpr ⟨item, hitem, ?_⟩)
          simp [hrel, hcs]
        | some cs =>
          have hv := List.any_eq_false.mp hret item hitem
          simp only [vanishes, hcs, hrel, decide_eq_true_eq, true_and, Decidable.not_not] at hv
          obtain ⟨c, hc, hhash⟩ := List.mem_map.mp hv
          obtain ⟨hfile, -⟩ := yields_of_mem (hwork item hitem) hcs hc
          exact .inl ⟨item, hwork item hitem, cs, hcs, c, hc, hfile.trans hrel, hhash⟩
      · exact .inl (h r hr hread)
    · intro c hc
      obtain ⟨item, hitem, cs, hcs, hc⟩ := mem_chunksOf.mp (takes_subset hc)
      exact .inl (yields_of_mem (hwork item hitem) hcs hc).2

theorem parsed_eq_true {items : List WorkItem} {file : String} : ix.parsed items file = true ↔
    ∃ item ∈ items, item.rel = file ∧ ∃ cs, ix.chunks item = some cs := by
  simp only [Indexer.parsed, List.any_eq_true, Bool.and_eq_true, decide_eq_true_eq,
    Option.isSome_iff_exists]

/-- A file that loses rows is parsed. -/
theorem retires_of_not_parsed {work : List WorkItem} {r : ChunkRecord}
    (h : ix.parsed work r.file = false) : ix.retires work r = false := by
  rw [retires, List.any_eq_false]
  intro item hitem hv
  have hrel := vanishes_rel hv
  unfold vanishes at hv
  split at hv
  · cases hv
  · rename_i cs hcs
    rw [parsed_eq_true.mpr ⟨item, hitem, hrel.symm, cs, hcs⟩] at h
    cases h

/-- A row of a file that is parsed, and does not lose it, is a chunk of the file. -/
theorem mem_chunksOf_of_parsed {work : List WorkItem} {r : ChunkRecord}
    (hwork : ∀ item ∈ work, ix.Indexes item) (hparsed : ix.parsed work r.file = true)
    (hret : ix.retires work r = false) :
    ∃ c ∈ ix.chunksOf work, c.record.file = r.file ∧ c.record.contentHash = r.contentHash := by
  obtain ⟨item, hitem, hrel, cs, hcs⟩ := parsed_eq_true.mp hparsed
  have hv := List.any_eq_false.mp hret item hitem
  simp only [vanishes, hcs, hrel, decide_eq_true_eq, true_and, Decidable.not_not] at hv
  obtain ⟨c, hc, hhash⟩ := List.mem_map.mp hv
  have hfile := (yields_of_mem (hwork item hitem) hcs hc).1
  exact ⟨c, mem_chunksOf.mpr ⟨item, hitem, cs, hcs, hc⟩, hfile.trans hrel, hhash⟩

/-- The file of a chunk that is read has been parsed. -/
theorem parsed_of_mem_chunksOf {work : List WorkItem} (hwork : ∀ item ∈ work, ix.Indexes item)
    {c : Chunk} (hc : c ∈ ix.chunksOf work) : ix.parsed work c.record.file = true := by
  obtain ⟨item, hitem, cs, hcs, hc⟩ := mem_chunksOf.mp hc
  exact parsed_eq_true.mpr ⟨item, hitem, (yields_of_mem (hwork item hitem) hcs hc).1.symm, cs, hcs⟩

/-- Only what the commit of HEAD has is left, in terms of the rows behind the diff and of the
files. -/
theorem leaves_committed_iff (hwork : ∀ item ∈ plan.work, ix.Indexes item)
    (hd : (recordHashes (plan.diff rs)).Nodup)
    (hcovers : Covers ix plan rs (hashesOf (ix.chunksOf ix.headFiles))) :
    Leaves ix plan rs (ix.Committed plan) ↔ Upholds ix plan rs := by
  constructor
  · intro h
    refine ⟨hcovers, fun r hr hp => ?_, fun c hc hrow => ?_⟩
    · exact (h.kept r hr (retires_of_not_parsed hp)).imp_right And.left
    · have hparsed := parsed_of_mem_chunksOf hwork hc
      by_cases hold : c.record.contentHash ∈ recordHashes (plan.diff rs)
      · -- The row that bears the hash is of the same file, and kept.
        obtain ⟨r, hr, hhash⟩ := mem_recordHashes.mp hold
        obtain ⟨hfile, hret⟩ := hrow r hr hhash
        rcases h.kept r hr hret with hk | ⟨-, hp⟩
        · rwa [hhash] at hk
        · rw [hfile, hparsed] at hp
          cases hp
      · -- A chunk with the hash is taken up, of whichever file is delivered first.
        have htaken : c.record.contentHash ∈ hashesOf (ix.takes plan rs) :=
          firsts.mem_keys.mpr ⟨hold, (hashesOf_perm (ix.schedule_perm plan.work) _).mpr
            (List.mem_map_of_mem hc)⟩
        obtain ⟨c', hc', hhash⟩ := List.mem_map.mp htaken
        rcases h.taken c' hc' with hk | ⟨-, hp⟩
        · rwa [hhash] at hk
        · rw [parsed_of_mem_chunksOf hwork (takes_subset hc')] at hp
          cases hp
  · intro h
    refine ⟨fun r hr hret => ?_, fun c hc => .inl ?_⟩
    · cases hp : ix.parsed plan.work r.file with
      | false => exact (h.unread r hr hp).imp_right fun hun => ⟨hun, hp⟩
      | true =>
        obtain ⟨c, hc, hfile, hhash⟩ := mem_chunksOf_of_parsed hwork hp hret
        refine .inl (hhash ▸ h.read c hc fun r' hr' hhash' => ?_)
        obtain rfl := List.inj_on_of_nodup_map hd hr' hr (hhash'.trans hhash)
        exact ⟨hfile.symm, hret⟩
    · have hfirst : c ∈ firsts (fun c : Chunk => c.record.contentHash)
          (recordHashes (plan.diff rs)) _ := hc
      have hnew := firsts.not_mem_known hfirst
      refine h.read c (takes_subset hc) fun r hr hhash => ?_
      exact absurd (mem_recordHashes.mpr ⟨r, hr, hhash⟩) hnew

/-- This is so when the worktree has the files that the run reads as the commit has them, the rows
behind the diff are for the other files what they are in the commit, and no chunk has been moved to
another file. -/
theorem upholds_of_clean (hclean : ∀ item ∈ plan.work, item ∈ ix.headFiles)
    (hrows : ∀ r ∈ plan.diff rs, r.file ∉ plan.work.map (·.rel) →
      r.contentHash ∈ hashesOf (ix.chunksOf ix.headFiles))
    (hrest : ∀ item ∈ ix.headFiles, item ∉ plan.work →
      ∀ k ∈ hashesOf (ix.chunksOf [item]), k ∈ recordHashes (plan.diff rs))
    (hmoved : ∀ r ∈ plan.diff rs, ix.retires plan.work r = true →
      r.contentHash ∉ hashesOf (ix.chunksOf ix.headFiles)) : Upholds ix plan rs := by
  refine ⟨⟨hmoved, fun k hk hnew => ?_⟩, fun r hr hp => ?_, fun c hc _ => ?_⟩
  · obtain ⟨c, hc, rfl⟩ := List.mem_map.mp hk
    obtain ⟨item, hitem, cs, hcs, hc⟩ := mem_chunksOf.mp hc
    by_cases hread : item ∈ plan.work
    · exact List.mem_map_of_mem (mem_chunksOf.mpr ⟨item, hread, cs, hcs, hc⟩)
    · refine absurd (hrest item hitem hread _ (List.mem_map_of_mem ?_)) hnew
      exact mem_chunksOf.mpr ⟨item, List.mem_singleton_self item, cs, hcs, hc⟩
  · by_cases hread : r.file ∈ plan.work.map (·.rel)
    · -- The file has been read but not parsed, and cannot be parsed in the commit either.
      obtain ⟨item, hitem, hrel⟩ := List.mem_map.mp hread
      refine .inr (List.any_eq_true.mpr ⟨item, hclean item hitem, ?_⟩)
      cases hcs : ix.chunks item with
      | none => simp [hrel]
      | some cs =>
        rw [parsed_eq_true.mpr ⟨item, hitem, hrel, cs, hcs⟩] at hp
        cases hp
    · exact .inl (hrows r hr hread)
  · obtain ⟨item, hitem, cs, hcs, hc⟩ := mem_chunksOf.mp hc
    exact List.mem_map_of_mem (mem_chunksOf.mpr ⟨item, hclean item hitem, cs, hcs, hc⟩)

section history

variable {allowed : Stop → Prop} {kind : RunKind}

/-- After a successful run from any state that a history reaches, each chunk of an indexable file
has a live record, exactly when no row that the run retires bears the hash of a chunk that is still
in some indexable file, and the run reads the files of the hashes that the store does not have. -/
theorem History.complete_iff (Hs : History E allowed t) (hE : ix.embedder = E)
    (hf : FreshGeneration t.store ix.pid ix.nanos) (hok : (ix.run kind t).result.isOk = true) :
    ix.Complete (ix.run kind t).state ↔
      Covers ix (ix.plan kind t.store.indexedCommit) t.records
        (hashesOf (ix.chunksOf ix.indexable)) := by
  obtain ⟨hrec, hd, -⟩ := Hs.run_records hE hf hok
  rw [Complete, IndexState.hashes, hrec]
  exact covers_iff hd

/-- The first run over a repository takes up what it reads. -/
theorem History.complete_iff_first :
    let tree := sampleTree [("a.rs", "fn f() {}")]
    let ix := sampleIndexer tree (sampleGit "c1" tree []) 1
    ix.Complete (ix.run .indexAll sampleStart).state := by
  intro tree ix
  have Hs : History sampleEmbedder (fun _ => False) sampleStart := sampleStart_history
  refine (@History.complete_iff _ ix _ _ .indexAll Hs rfl sampleStart_fresh
    (by decide +kernel)).mpr ⟨?_, ?_⟩
  · have hnone : (ix.plan .indexAll sampleStart.store.indexedCommit).diff sampleStart.records =
      [] := by
      decide +kernel
    rw [hnone]
    exact nofun
  · intro k hk _
    exact hk

/-- A function is moved to another file. The row is retired for the file that has lost it, and its
hash counts as known when the other file is read. -/
theorem update_loses_moved :
    let before := sampleTree [("a.rs", "fn f() {}\nfn g() {}"), ("b.rs", "fn h() {}")]
    let after := sampleTree [("a.rs", "fn g() {}"), ("b.rs", "fn h() {}\nfn f() {}")]
    let t := ((sampleIndexer before (sampleGit "c1" before []) 1).run .indexAll sampleStart).state
    let ix := sampleIndexer after (sampleGit "c2" after
      [.modification "a.rs".toUTF8.toList .blob .blob,
        .modification "b.rs".toUTF8.toList .blob .blob]) 2
    History sampleEmbedder (fun _ => False) t ∧ (ix.run .update t).result.isOk = true ∧
      ¬ix.Complete (ix.run .update t).state := by
  intro before after t ix
  refine ⟨sampleStart_history.returned _ .indexAll rfl sampleStart_fresh
    (by decide +kernel), by decide +kernel, ?_⟩
  unfold Complete
  decide +kernel

/-- After a successful run from any state that a history reaches, each live record is a chunk of its
file, exactly when this is so of the rows that the changes leave in files that the run does not
read. -/
theorem History.sound_iff (Hs : History E allowed t) (hE : ix.embedder = E)
    (hf : FreshGeneration t.store ix.pid ix.nanos) (hok : (ix.run kind t).result.isOk = true) :
    let plan := ix.plan kind t.store.indexedCommit
    ix.Sound plan (ix.run kind t).state ↔
      ∀ r ∈ plan.diff t.records, r.file ∉ plan.work.map (·.rel) → ix.Yields r := by
  intro plan
  obtain ⟨hrec, -, -⟩ := Hs.run_records hE hf hok
  rw [Sound, hrec, leaves_iff]
  exact leaves_sound_iff fun item hitem => plan_indexes hitem

/-- A file that is read again. -/
theorem History.sound_iff_read :
    let before := sampleTree [("a.rs", "fn f() {}")]
    let after := sampleTree [("a.rs", "fn g() {}")]
    let t := ((sampleIndexer before (sampleGit "c1" before []) 1).run .indexAll sampleStart).state
    let ix := sampleIndexer after (sampleGit "c2" after []) 2
    ix.Sound (ix.plan .indexAll t.store.indexedCommit) (ix.run .indexAll t).state := by
  intro before after t ix
  have Hs : History sampleEmbedder (fun _ => False) t :=
    sampleIndexed_history
  refine (@History.sound_iff _ ix _ _ .indexAll Hs rfl
    sampleIndexed_fresh (by decide +kernel)).mpr fun r hr hread => ?_
  have hfiles : ∀ r ∈ (ix.plan .indexAll t.store.indexedCommit).diff t.records,
      r.file ∈ (ix.plan .indexAll t.store.indexedCommit).work.map (·.rel) := by decide +kernel
  exact absurd (hfiles r hr) hread

theorem FsEntries.descend_nil (names : List String) :
    FsEntries.nil.descend names = if names = [] then some (.dir .nil) else none := by
  cases names with
  | nil => rfl
  | cons name names => cases names <;> rfl

/-- Nothing is found in an empty worktree. -/
theorem itemAt_empty {git : RepoGit} {nanos : Nat} (path : String) :
    (sampleIndexer .nil git nanos).itemAt path = none := by
  have hread : (sampleIndexer .nil git nanos).readSource path = none := by
    unfold readSource nodeAt FsEntries.resolve
    rw [if_neg (by exact DirtyPolicy.noConfusion)]
    dsimp only [sampleIndexer]
    rw [FsEntries.descend_nil]
    cases (pathComponents path).contains .rootDir || (pathComponents path).contains .parentDir with
    | true => rfl
    | false => by_cases h : (pathComponents path).filterMap (·.name?) = [] <;> simp [h]
  unfold itemAt workItemForPath
  rw [hread]
  split
  · rfl
  · split <;> rfl

/-- A file vanishes; a full index reads the files that are there, and keeps its rows. -/
theorem indexAll_keeps_vanished :
    let before := sampleTree [("a.rs", "fn f() {}")]
    let t := ((sampleIndexer before (sampleGit "c1" before []) 1).run .indexAll sampleStart).state
    let ix := sampleIndexer .nil (sampleGit "c2" .nil []) 2
    History sampleEmbedder (fun _ => False) t ∧ (ix.run .indexAll t).result.isOk = true ∧
      (ix.run .indexAll t).state.records.map (·.file) = ["a.rs"] ∧
      ¬ix.Sound (ix.plan .indexAll t.store.indexedCommit) (ix.run .indexAll t).state := by
  intro before t ix
  have hfiles : (ix.run .indexAll t).state.records.map (·.file) = ["a.rs"] := by decide +kernel
  refine ⟨sampleIndexed_history, by decide +kernel, hfiles, fun h => ?_⟩
  obtain ⟨r, hr, -⟩ := List.mem_map.mp (hfiles ▸ List.mem_singleton_self "a.rs")
  rcases h r hr with ⟨item, hitem | ⟨path, hitem⟩, -⟩ | hun
  · have hwalk : ix.walked = [] := by decide +kernel
    rw [hwalk] at hitem
    cases hitem
  · rw [itemAt_empty] at hitem
    cases hitem
  · have hwork : (ix.plan .indexAll t.store.indexedCommit).work = [] := by decide +kernel
    rw [hwork] at hun
    cases hun

theorem baseOf_dirty (head : String) : (baseOf (head ++ dirtyCommitSuffix)).2 = true := by
  have hdrop : (head ++ dirtyCommitSuffix).toList.drop
      ((head ++ dirtyCommitSuffix).toList.length - dirtyCommitSuffix.length) =
        dirtyCommitSuffix.toList := by
    rw [String.toList_append, List.length_append, ← String.length_toList, Nat.add_sub_cancel]
    exact List.drop_left
  simp only [baseOf, if_pos hdrop]

/-- A run that records a commit without the dirty suffix records HEAD. The live hashes are then
those of its tree, exactly when the rows behind the diff and the files that are read uphold it. -/
theorem History.truthful_iff (Hs : History E allowed t) (hE : ix.embedder = E)
    (hf : FreshGeneration t.store ix.pid ix.nanos) (hok : (ix.run kind t).result.isOk = true)
    {commit : String} (hc : (ix.run kind t).state.store.indexedCommit = some commit)
    (hclean : (baseOf commit).2 = false) :
    let plan := ix.plan kind t.store.indexedCommit
    ix.git.headId = .ok commit ∧
      (ix.Truthful plan (ix.run kind t).state ↔ Upholds ix plan t.records) := by
  intro plan
  obtain ⟨hrec, hd, head, dirty, -, hhead, hmarker⟩ := Hs.run_records hE hf hok
  constructor
  · obtain rfl : commit = ix.commitMarker dirty head := by
      rw [hmarker] at hc
      exact (Option.some.inj hc).symm
    unfold commitMarker at hclean ⊢
    split at hclean
    · rw [baseOf_dirty] at hclean
      cases hclean
    · rename_i h
      rw [if_neg h, hhead]
  · have hwork : ∀ item ∈ plan.work, ix.Indexes item := fun _ => plan_indexes
    rw [Truthful, IndexState.hashes, hrec, covers_iff hd, leaves_iff]
    constructor
    · intro h
      exact (leaves_committed_iff hwork hd h.1).mp h.2
    · intro h
      exact ⟨h.covers, (leaves_committed_iff hwork hd h.covers).mpr h⟩

/-- A function is added and committed, and the next update reads its file. -/
theorem History.truthful_iff_grown :
    let before := sampleTree [("a.rs", "fn f() {}"), ("b.rs", "fn h() {}")]
    let after := sampleTree [("a.rs", "fn f() {}\nfn g() {}"), ("b.rs", "fn h() {}")]
    let t := ((sampleIndexer before (sampleGit "c1" before []) 1).run .indexAll sampleStart).state
    let ix := sampleIndexer after (sampleGit "c2" after
      [.modification "a.rs".toUTF8.toList .blob .blob]) 2
    ix.git.headId = .ok "c2" ∧
      ix.Truthful (ix.plan .update t.store.indexedCommit) (ix.run .update t).state := by
  intro before after t ix
  have Hs : History sampleEmbedder (fun _ => False) t :=
    sampleStart_history.returned _ .indexAll rfl sampleStart_fresh (by decide +kernel)
  have hf : FreshGeneration t.store ix.pid ix.nanos :=
    .first (by decide +kernel) (by decide +kernel)
  obtain ⟨hhead, hiff⟩ := @History.truthful_iff _ ix _ _ .update Hs rfl hf (by decide +kernel) "c2"
    (by decide +kernel) (by decide)
  refine ⟨hhead, hiff.mpr (upholds_of_clean ?_ ?_ ?_ ?_)⟩
  · decide +kernel
  · decide +kernel
  · decide +kernel
  · decide +kernel

/-- A file is edited, indexed, and reverted. Neither the difference of the commits nor the status
lists it then, and the marker loses its suffix. -/
theorem update_keeps_reverted :
    let tree := sampleTree [("a.rs", "fn f() {}")]
    let edited := sampleTree [("a.rs", "fn g() {}")]
    let dirty := { sampleGit "c1" tree [] with
      isDirty := .ok true
      status := .ok " M a.rs\x00".toUTF8.toList }
    let t := ((sampleIndexer tree (sampleGit "c1" tree []) 1).run .indexAll sampleStart).state
    let u := ((sampleIndexer edited dirty 2).run .update t).state
    let ix := sampleIndexer tree (sampleGit "c1" tree []) 3
    History sampleEmbedder (fun _ => False) u ∧ (ix.run .update u).result.isOk = true ∧
      (ix.run .update u).state.store.indexedCommit = some "c1" ∧
      ¬ix.Truthful (ix.plan .update u.store.indexedCommit) (ix.run .update u).state := by
  intro tree edited dirty t u ix
  have h1 : History sampleEmbedder (fun _ => False) t :=
    sampleIndexed_history
  have h2 : History sampleEmbedder (fun _ => False) u :=
    h1.returned _ .update rfl sampleIndexed_fresh (by decide +kernel)
  refine ⟨h2, by decide +kernel, by decide +kernel, fun h => ?_⟩
  exact absurd h.1 (by decide +kernel)

end history

end SiftMcp
