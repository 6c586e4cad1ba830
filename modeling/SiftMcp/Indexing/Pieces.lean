import SiftMcp.Indexing.Bodies
import SiftMcp.Indexing.Constructs

/-!
# Constructs in the index

A run leaves under the name of a construct the rows that it keeps of that name, and a row for each
piece of the construct that it takes up. One of them alone has the whole text of the construct
exactly if nothing is kept and one piece is taken up, which is all of the text, or if one row is
kept that has it already.

* `Construct.ReadBy.run_has`: the run that reads the construct.
* `History.run_has`: a run that spares its file.
-/

namespace SiftMcp
open Text Indexer

/-- The records of a file that are those of a symbol. -/
def recordsNamed (file symbol : String) (rs : List ChunkRecord) : List ChunkRecord :=
  rs.filter fun r => r.file = file ∧ r.symbol = symbol

def ChunkedFile.toFileChunks (file : ChunkedFile) : FileChunks :=
  ⟨file.chunks.map (·.toChunk), file.diagnostics⟩

/-- The chunker is `chunk_file`. -/
def Chunker.Follows (chunker : Chunker) (blake3 : List UInt8 → ContentHash) (ts : TreeSitter) :
    Prop :=
  chunker.ready = true ∧ ∀ rel language source, chunker.chunkFile rel language source =
    (SiftMcp.chunkFile blake3 rel language ts source.toList).map (·.toFileChunks)

def chunkerOf (blake3 : List UInt8 → ContentHash) (ts : TreeSitter) : Chunker where
  ready := true
  chunkFile rel language source :=
    (chunkFile blake3 rel language ts source.toList).map (·.toFileChunks)
  file rel language source out hout c hc := by
    obtain ⟨file, hfile, rfl⟩ := Option.map_eq_some_iff.mp hout
    obtain ⟨f, hf, rfl⟩ := List.mem_map.mp hc
    obtain ⟨name, hrec⟩ := chunkFile_records hfile hf
    exact hrec.file

theorem follows_chunkerOf (blake3 : List UInt8 → ContentHash) (ts : TreeSitter) :
    (chunkerOf blake3 ts).Follows blake3 ts := ⟨rfl, fun _ _ _ => rfl⟩

/-- A construct of a file that is no container. Its text begins with its documentation. -/
structure Construct (blake3 : List UInt8 → ContentHash) (ts : TreeSitter) (item : WorkItem) where
  source : Text
  file : ChunkedFile
  tree : SyntaxTree source
  hits : List SymbolHit
  hit : SymbolHit
  text : Text
  reads : item.source.toList = source
  chunked : chunkFile blake3 item.rel item.language ts source = some file
  language : ts.setLanguage item.language = true
  parsed : ts.parse item.language source = some tree
  clean : tooManyErrors tree.root = false
  collected : collectSymbols ts item.language tree = some hits
  mem : hit ∈ hits
  plain : hit.isContainer = false
  whole : hit.range.slice? source = some text

variable {blake3 : List UInt8 → ContentHash} {ts : TreeSitter} {item : WorkItem} {ix : Indexer}
  {plan : Plan} {rs : List ChunkRecord} {t : IndexState}

namespace Construct

variable (c : Construct blake3 ts item)

/-- The qualified name. -/
def name : String := String.ofList c.hit.name

def body : String := String.ofList c.text

/-- The chunks that the construct is cut into. -/
def pieces : List Chunk :=
  ((chunksOfHit blake3 item.rel item.language ts c.tree (orderWithContainers c.hits)
    c.hit).join.getD []).map (·.toChunk)

/-- A run reads the file, and no other construct has the name. -/
structure ReadBy (ix : Indexer) (plan : Plan) : Prop where
  follows : ix.chunker.Follows blake3 ts
  mem : item ∈ plan.work
  only : ∀ item' ∈ plan.work, item'.rel = item.rel → item' = item
  named : c.hit.name ≠ preludeSymbol
  unique : ∀ hit ∈ c.hits, hit.name = c.hit.name → hit = c.hit

/-- The records of the name that the changes leave and that are not retired. -/
def kept (ix : Indexer) (plan : Plan) (rs : List ChunkRecord) : List ChunkRecord :=
  recordsNamed item.rel c.name ((plan.diff rs).filter (!ix.retires plan.work ·))

/-- The run takes up a single piece, that is all of the construct, and keeps no row of the name; or
it takes up none, and keeps a single row, behind whose hash all of the construct is stored. -/
inductive Whole (ix : Indexer) (plan : Plan) (t : IndexState) : Prop
  | new (d : Chunk) : c.kept ix plan t.records = [] → d ∈ c.pieces →
    (∀ p ∈ c.pieces, p ∈ ix.takes plan t.records ↔ p = d) → d.body = c.body → Whole ix plan t
  | old (r : ChunkRecord) : c.kept ix plan t.records = [r] →
    (∀ p ∈ c.pieces, p ∉ ix.takes plan t.records) →
    t.Stores r.contentHash c.body → Whole ix plan t

end Construct

variable {c : Construct blake3 ts item}

/-! ## Pieces -/

section

variable {file : ChunkedFile}

theorem Chunker.Follows.eq_of_chunks (h : ix.chunker.Follows blake3 ts)
    (hfile : SiftMcp.chunkFile blake3 item.rel item.language ts item.source.toList = some file)
    {cs : List Chunk} (hcs : ix.chunks item = some cs) : cs = file.chunks.map (·.toChunk) := by
  rw [Indexer.chunks, if_neg (not_not.mpr h.1), h.2, hfile] at hcs
  dsimp only [Option.map_some, Option.bind_some] at hcs
  split at hcs
  · cases hcs
  · exact (Option.some.inj hcs).symm

theorem Chunker.Follows.chunks_eq (h : ix.chunker.Follows blake3 ts)
    (hfile : SiftMcp.chunkFile blake3 item.rel item.language ts item.source.toList = some file)
    (hne : file.chunks ≠ []) : ix.chunks item = some (file.chunks.map (·.toChunk)) := by
  rw [Indexer.chunks, if_neg (not_not.mpr h.1), h.2, hfile]
  exact if_neg fun hnone => hne (List.map_eq_nil_iff.mp hnone.2)

end

theorem Construct.exists_of_mem_pieces {d : Chunk} (hd : d ∈ c.pieces) :
    ∃ chunks : List FragmentChunk, chunksOfHit blake3 item.rel item.language ts c.tree
      (orderWithContainers c.hits) c.hit = some (some chunks) ∧ ∃ f ∈ chunks, f.toChunk = d := by
  obtain ⟨f, hf, rfl⟩ := List.mem_map.mp hd
  cases hchunks :
      (chunksOfHit blake3 item.rel item.language ts c.tree (orderWithContainers c.hits)
        c.hit).join with
  | none =>
    rw [hchunks] at hf
    cases hf
  | some chunks =>
    rw [hchunks] at hf
    exact ⟨chunks, Option.join_eq_some_iff.mp hchunks, f, hf, rfl⟩

/-- A piece is recorded under the construct. -/
theorem Construct.recorded {d : Chunk} (hd : d ∈ c.pieces) :
    RecordedAs blake3 item.rel item.language c.hit.name d := by
  obtain ⟨chunks, hchunks, f, hf, rfl⟩ := exists_of_mem_pieces hd
  exact chunksOfHit_records hchunks f hf

theorem ofList_ne {a b : Text} (h : a ≠ b) : String.ofList a ≠ String.ofList b :=
  fun heq => h (String.ofList_injective heq)

/-- The chunks of the name are the pieces. -/
theorem Construct.ReadBy.mem_pieces (h : c.ReadBy ix plan)
    (hwork : ∀ item' ∈ plan.work, ix.Indexes item') {d : Chunk} (hd : d ∈ ix.chunksOf plan.work)
    (hfile : d.record.file = item.rel) (hsymbol : d.record.symbol = c.name) : d ∈ c.pieces := by
  obtain ⟨item', hitem', cs, hcs, hdcs⟩ := mem_chunksOf.mp hd
  obtain rfl :=
    h.only item' hitem' ((yields_of_mem (hwork item' hitem') hcs hdcs).1.symm.trans hfile)
  obtain rfl := h.follows.eq_of_chunks (c.reads.symm ▸ c.chunked) hcs
  obtain ⟨f, hf, rfl⟩ := List.mem_map.mp hdcs
  obtain ⟨hits, parts, prelude, hhits, hparts, hprelude, hchunks⟩ :=
    chunkFile_spec c.language c.parsed c.clean c.chunked
  obtain rfl := Option.some.inj (c.collected.symm.trans hhits)
  rw [hchunks, List.mem_append] at hf
  rcases hf with hf | hf
  · -- No construct has the name of the prelude.
    have hname := (preludeChunk_records hprelude f hf).symbol
    exact absurd (hname.symm.trans hsymbol) (ofList_ne h.named.symm)
  · obtain ⟨hit, hhit, chunks, hof, hmem⟩ := exists_of_mem_parts hparts hf
    have hname := (chunksOfHit_records hof f hmem).symbol
    obtain rfl :=
      h.unique hit (mem_orderWithContainers.mp hhit)
      (String.ofList_injective (hname.symm.trans hsymbol))
    refine List.mem_map_of_mem ?_
    rw [Option.join_eq_some_iff.mpr hof]
    exact hmem

/-! ## Rows of the name -/

theorem recordsNamed_append (file symbol : String) (rs rs' : List ChunkRecord) :
    recordsNamed file symbol (rs ++ rs') = recordsNamed file symbol rs ++
      recordsNamed file symbol rs' :=
  List.filter_append _ _

theorem eq_singleton_iff {α : Type} {l : List α} {a : α} (hl : l.Nodup) :
    l = [a] ↔ ∀ x, x ∈ l ↔ x = a := by
  constructor
  · rintro rfl x
    exact List.mem_singleton
  · intro h
    have hperm := (List.perm_ext_iff_of_nodup hl (List.nodup_singleton a)).mpr fun x => by
      rw [h, List.mem_singleton]
    exact List.perm_singleton.mp hperm

namespace Construct

/-- The pieces that the run takes up, in the order of their rows. -/
def fresh (c : Construct blake3 ts item) (ix : Indexer) (plan : Plan) (rs : List ChunkRecord) :
    List Chunk :=
  (ix.takes plan rs).filter fun d => d.record.file = item.rel ∧ d.record.symbol = c.name

theorem records_fresh : recordsNamed item.rel c.name (ix.outcome plan rs) =
    c.kept ix plan rs ++ (c.fresh ix plan rs).map (·.record) := by
  have htakes : recordsNamed item.rel c.name ((ix.takes plan rs).map (·.record)) =
      (c.fresh ix plan rs).map (·.record) := List.filter_map
  rw [outcome, recordsNamed_append, htakes, kept]

theorem nodup_fresh : (c.fresh ix plan rs).Nodup := by
  have hnodup : (hashesOf (ix.takes plan rs)).Nodup := firsts.nodup
  exact (List.Nodup.of_map _ hnodup).filter _

theorem ReadBy.mem_fresh (h : c.ReadBy ix plan) (hwork : ∀ item' ∈ plan.work, ix.Indexes item')
    {d : Chunk} : d ∈ c.fresh ix plan rs ↔ d ∈ c.pieces ∧ d ∈ ix.takes plan rs := by
  rw [fresh, List.mem_filter, decide_eq_true_iff]
  constructor
  · rintro ⟨hd, hfile, hsymbol⟩
    exact ⟨h.mem_pieces hwork (takes_subset hd) hfile hsymbol, hd⟩
  · rintro ⟨hpiece, hd⟩
    have hrec := recorded hpiece
    exact ⟨hd, hrec.file.trans (hwork item h.mem).rel, hrec.symbol⟩

/-- A single row of the name is left, and all of the construct is stored behind its hash. -/
theorem ReadBy.whole_iff (h : c.ReadBy ix plan) (hwork : ∀ item' ∈ plan.work, ix.Indexes item')
    {stores : ContentHash → String → Prop}
    (hkept : ∀ r ∈ c.kept ix plan t.records, stores r.contentHash c.body ↔
      t.Stores r.contentHash c.body)
    (hfresh : ∀ d ∈ ix.takes plan t.records, stores d.record.contentHash c.body ↔ d.body = c.body) :
    (∃ r, recordsNamed item.rel c.name (ix.outcome plan t.records) = [r] ∧
      stores r.contentHash c.body) ↔
      c.Whole ix plan t := by
  have hmem : ∀ d, d ∈ c.fresh ix plan t.records ↔ d ∈ c.pieces ∧ d ∈ ix.takes plan t.records :=
    fun _ => h.mem_fresh hwork
  rw [records_fresh]
  constructor
  · rintro ⟨r, hr, hstores⟩
    rcases List.append_eq_singleton_iff.mp hr with ⟨hnone, hone⟩ | ⟨hone, hnone⟩
    · obtain ⟨d, hd, rfl⟩ := List.map_eq_singleton_iff.mp hone
      obtain ⟨hpiece, htakes⟩ := (hmem d).mp (hd ▸ List.mem_singleton_self d)
      have hall := (eq_singleton_iff nodup_fresh).mp hd
      refine .new d hnone hpiece (fun p hp => ?_) ((hfresh d htakes).mp hstores)
      rw [← hall, hmem, and_iff_right hp]
    · have hnone := List.map_eq_nil_iff.mp hnone
      refine .old r hone (fun p hp htakes => ?_)
        ((hkept r (hone ▸ List.mem_singleton_self r)).mp hstores)
      exact List.not_mem_nil (hnone ▸ (hmem p).mpr ⟨hp, htakes⟩)
  · intro hwhole
    cases hwhole with
    | new d hnone hpiece hone hbody =>
      have hd : c.fresh ix plan t.records = [d] := by
        refine (eq_singleton_iff nodup_fresh).mpr fun p => ?_
        rw [hmem]
        refine ⟨fun hp => (hone p hp.1).mp hp.2, ?_⟩
        rintro rfl
        exact ⟨hpiece, (hone p hpiece).mpr rfl⟩
      refine ⟨d.record, by rw [hnone, hd]; rfl, (hfresh d ?_).mpr hbody⟩
      exact (hone d hpiece).mpr rfl
    | old r hone hnone hstores =>
      have hd : c.fresh ix plan t.records = [] :=
        List.eq_nil_iff_forall_not_mem.mpr fun p hp => hnone p ((hmem p).mp hp).1 ((hmem p).mp hp).2
      refine ⟨r, by rw [hone, hd]; rfl, (hkept r ?_).mpr hstores⟩
      rw [hone]
      exact List.mem_singleton_self r

/-- Pieces that are not all of the construct do not make up for it, if no row is kept. -/
theorem not_whole_of_split (hkept : c.kept ix plan t.records = [])
    (hsplit : ∀ p ∈ c.pieces, p.body ≠ c.body) : ¬c.Whole ix plan t := by
  intro h
  cases h with
  | new d _ hpiece _ hbody => exact hsplit d hpiece hbody
  | old r hone => exact List.cons_ne_nil r [] (hone.symm.trans hkept)

end Construct

/-! ## Runs that leave a file alone -/

/-- A single live row has the name, and the body is stored behind its hash. -/
def IndexState.Has (t : IndexState) (file symbol body : String) : Prop :=
  ∃ r, recordsNamed file symbol t.records = [r] ∧ t.Stores r.contentHash body

def FileChange.Spares (file : String) : FileChange → Prop
  | .deleted path => path ≠ file
  | .renamed source dest => source ≠ file ∧ dest ≠ file
  | .added _ | .modified _ => True

/-- No change moves rows from the file or to it, and it is not read. -/
structure Indexer.Plan.Spares (plan : Plan) (file : String) : Prop where
  changes : ∀ change ∈ plan.changes, change.Spares file
  work : ∀ item ∈ plan.work, item.rel ≠ file

/-- Runs that return and leave the file alone, and openings, since `t`. -/
inductive Since (E : Embedder) (file : String) (t : IndexState) : IndexState → Prop
  | refl : Since E file t t
  | run {u} (ix : Indexer) (kind : RunKind) {r} : Since E file t u → ix.embedder = E →
    FreshGeneration u.store ix.pid ix.nanos → (ix.plan kind u.store.indexedCommit).Spares file →
    (ix.run kind u).result = .ok r → Since E file t (ix.run kind u).state
  | reopen {u} (ix : Indexer) {v} : Since E file t u → ix.embedder = E → ix.reopen u = .ok v →
    Since E file t v

section

variable {file symbol body : String}

theorem FileChange.Spares.recordsNamed {change : FileChange} (h : change.Spares file) :
    recordsNamed file symbol (change.apply rs) = recordsNamed file symbol rs := by
  cases change with
  | added path | modified path => rfl
  | deleted path =>
    rw [apply, SiftMcp.recordsNamed, List.filter_filter]
    refine List.filter_congr fun r _ => ?_
    rw [← Bool.decide_and]
    refine decide_eq_decide.mpr ⟨And.left, fun hr => ⟨hr, ?_⟩⟩
    rw [hr.1]
    exact Ne.symm h
  | renamed source dest =>
    obtain ⟨hsource, hdest⟩ := h
    rw [apply, SiftMcp.recordsNamed, List.filter_map, SiftMcp.recordsNamed]
    have hsame :
        rs.filter ((fun r : ChunkRecord => decide (r.file = file ∧ r.symbol = symbol)) ∘ fun r =>
        if r.file = source then { r with file := dest } else r) =
          rs.filter fun r => r.file = file ∧ r.symbol = symbol := by
      refine List.filter_congr fun r _ => ?_
      rw [Function.comp_apply]
      split
      · next heq => simp [heq, hsource, hdest]
      · rfl
    rw [hsame]
    refine (List.map_congr_left fun r hr => ?_).trans (List.map_id _)
    have hfile := (of_decide_eq_true (List.mem_filter.mp hr).2).1
    exact if_neg (hfile.trans_ne hsource.symm)

theorem Indexer.Plan.Spares.diff (h : plan.Spares file) :
    recordsNamed file symbol (plan.diff rs) = recordsNamed file symbol rs := by
  have hfold : ∀ changes : List FileChange, (∀ change ∈ changes, change.Spares file) → ∀ rs,
      recordsNamed file symbol (changes.foldl FileChange.apply rs) =
        recordsNamed file symbol rs := by
    intro changes
    induction changes with
    | nil => exact fun _ _ => rfl
    | cons change changes ih =>
      intro hchanges rs
      obtain ⟨hchange, hrest⟩ := List.forall_mem_cons.mp hchanges
      rw [List.foldl_cons, ih hrest, hchange.recordsNamed]
  exact hfold plan.changes h.changes rs

/-- The rows of the file stay. -/
theorem Indexer.Plan.Spares.outcome (h : plan.Spares file)
    (hwork : ∀ item ∈ plan.work, ix.Indexes item) :
    recordsNamed file symbol (ix.outcome plan rs) = recordsNamed file symbol rs := by
  have hnone : recordsNamed file symbol ((ix.takes plan rs).map (·.record)) = [] := by
    refine List.filter_eq_nil_iff.mpr fun r hr hnamed => ?_
    obtain ⟨d, hd, rfl⟩ := List.mem_map.mp hr
    obtain ⟨item, hitem, cs, hcs, hdcs⟩ := mem_chunksOf.mp (takes_subset hd)
    have hfile := (yields_of_mem (hwork item hitem) hcs hdcs).1
    exact h.work item hitem (hfile.symm.trans (of_decide_eq_true hnamed).1)
  have hkept : recordsNamed file symbol ((plan.diff rs).filter (!ix.retires plan.work ·)) =
      recordsNamed file symbol (plan.diff rs) := by
    rw [recordsNamed, List.filter_filter]
    refine List.filter_congr fun r _ => ?_
    rw [Bool.and_eq_left_iff_imp]
    intro hnamed
    rw [retires_of_unread fun item hitem hrel =>
      h.work item hitem (hrel.trans (of_decide_eq_true hnamed).1)]
    rfl
  rw [Indexer.outcome, recordsNamed_append, hnone, List.append_nil, hkept, h.diff]

end

/-! ## Histories -/

section history

variable {E : Embedder} {allowed : Stop → Prop} {kind : RunKind} {u : IndexState}
  {file symbol body : String}

theorem mem_of_recordsNamed {r : ChunkRecord} (h : recordsNamed file symbol rs = [r]) : r ∈ rs :=
  (List.mem_filter.mp (h ▸ List.mem_singleton_self r)).1

/-- A run that leaves the file alone. -/
theorem History.run_has (Hs : History E allowed t) (hgood : ∀ stop, allowed stop → GoodStop stop)
    (hE : ix.embedder = E) (hf : FreshGeneration t.store ix.pid ix.nanos)
    (hok : (ix.run kind t).result.isOk = true)
    (hspares : (ix.plan kind t.store.indexedCommit).Spares file) :
    (ix.run kind t).state.Has file symbol body ↔ t.Has file symbol body := by
  obtain ⟨hrecords, -, -⟩ := Hs.run_records hE hf hok
  obtain ⟨hstores, -⟩ := Hs.run_stores hgood hE hf hok
  have hsame : recordsNamed file symbol (ix.run kind t).state.records =
      recordsNamed file symbol t.records := by
    rw [hrecords, hspares.outcome fun _ => plan_indexes]
  rw [IndexState.Has, IndexState.Has, hsame]
  refine exists_congr fun r => and_congr_right fun hr => ?_
  have hdiff : r ∈ (ix.plan kind t.store.indexedCommit).diff t.records :=
    mem_of_recordsNamed (hspares.diff.trans hr)
  have hafter : r ∈ (ix.run kind t).state.records := mem_of_recordsNamed (hsame.trans hr)
  exact hstores _ (List.mem_map_of_mem hdiff) (List.mem_map_of_mem hafter) body

theorem IndexState.Has.congr {a : Contents} {docs : Docs} {H : Prop} (S : Holds E H a docs t)
    (S' : Holds E H a docs u) : u.Has file symbol body ↔ t.Has file symbol body := by
  rw [IndexState.Has, IndexState.Has, S.records, S'.records]
  refine exists_congr fun r => and_congr_right fun _ => ?_
  rw [S.stores_iff, S'.stores_iff]

/-- The directories are opened again as they are. -/
theorem History.reopen_has (Hs : History E allowed t) (hE : ix.embedder = E)
    (hu : ix.reopen t = .ok u) : u.Has file symbol body ↔ t.Has file symbol body := by
  obtain ⟨a, docs, S⟩ := Hs.holds
  have hdurable : t.lexical.durable = docs := by
    rw [S.lexical]
    rfl
  have S' : Holds E _ a docs u :=
    hdurable ▸ reopen_holds S.repr.recovers S.dims S.modelId hE hu fun h _ => hdurable.symm ▸
      S.agree h
  exact IndexState.Has.congr S S'

theorem History.since (Hs : History E allowed t) (hgood : ∀ stop, allowed stop → GoodStop stop)
    (h : Since E file t u) : History E allowed u ∧
    (u.Has file symbol body ↔ t.Has file symbol body) := by
  induction h with
  | refl => exact ⟨Hs, Iff.rfl⟩
  | @run v ix kind _ _ hE hf hspares hr ih =>
    have hok : (ix.run kind v).result.isOk = true := by
      rw [hr]
      rfl
    exact ⟨ih.1.run ix kind hE hf hr, (ih.1.run_has hgood hE hf hok hspares).trans ih.2⟩
  | reopen ix _ hE hv ih => exact ⟨ih.1.reopen ix hE hv, (ih.1.reopen_has hE hv).trans ih.2⟩

/-- The run that reads the construct. -/
theorem Construct.ReadBy.run_has (h : c.ReadBy ix (ix.plan kind t.store.indexedCommit))
    (Hs : History E allowed t) (hgood : ∀ stop, allowed stop → GoodStop stop) (hE : ix.embedder = E)
    (hf : FreshGeneration t.store ix.pid ix.nanos) (hok : (ix.run kind t).result.isOk = true) :
    (ix.run kind t).state.Has item.rel c.name c.body ↔
      c.Whole ix (ix.plan kind t.store.indexedCommit) t := by
  obtain ⟨hrecords, -, -⟩ := Hs.run_records hE hf hok
  obtain ⟨hkept, hfresh⟩ := Hs.run_stores hgood hE hf hok
  rw [IndexState.Has, hrecords]
  refine h.whole_iff (fun _ => plan_indexes) (fun r hr => ?_) fun d hd => hfresh d hd c.body
  obtain ⟨hr, -⟩ := List.mem_filter.mp hr
  have hafter : r ∈ (ix.run kind t).state.records := by
    rw [hrecords]
    exact List.mem_append_left _ hr
  exact hkept _ (List.mem_map_of_mem (List.mem_filter.mp hr).1) (List.mem_map_of_mem hafter) c.body

end history

end SiftMcp
