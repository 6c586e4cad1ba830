import SiftMcp.Indexing.Counters
import SiftMcp.Indexing.Pruning

/-!
# Indexing a commit beside a worktree

Under the commit-only policy the text of each file is that of the commit of HEAD. Which files there
are, and which of them are excluded, is still asked of the worktree: `indexAll_isolated_iff` says
for which two worktrees of a commit this makes no difference.
-/

namespace SiftMcp
open Durable Indexer

variable {ix ix' : Indexer} {t u : IndexState}

/-- File and content hash of the live records. -/
def IndexState.pairs (t : IndexState) : List (String × ContentHash) :=
  t.records.map fun r => (r.file, r.contentHash)

/-- Two indexers of one commit, with one configuration, each beside a worktree of its own. -/
structure SameCommit (ix ix' : Indexer) : Prop where
  headId : ix.git.headId = ix'.git.headId
  headTree : ix.git.headTree = ix'.git.headTree
  config : ix.config = ix'.config
  chunker : ix.chunker = ix'.chunker
  embedder : ix.embedder = ix'.embedder

/-- Both read the same text behind a path. -/
theorem SameCommit.read (h : SameCommit ix ix')
    (hpolicy : ix.config.dirtyWorktree = .indexCommitOnly) (path : String) : ix.readSource path =
      ix'.readSource path := by
  have hshow : ix.git.show path = ix'.git.show path := by
    rw [RepoGit.show, RepoGit.show, h.headTree]
  rw [readSource, readSource, if_pos hpolicy, if_pos (h.config ▸ hpolicy), hshow]

/-- Their runs parse alike. -/
theorem SameCommit.chunks (h : SameCommit ix ix') (item : WorkItem) :
    ix.chunks item = ix'.chunks item := by
  rw [Indexer.chunks, Indexer.chunks, h.chunker]

/-! ## What is selected -/

/-- The worktree has a file behind the names, neither the file nor a directory above it is excluded
there, and HEAD has the text of an item for it. -/
structure Indexer.Selects (ix : Indexer) (names : List String) (item : WorkItem) : Prop where
  file : ∃ bytes, ix.worktree.Has names (.file bytes)
  git : ".git" ∉ names
  above : ∀ dir, dir <+: names → dir ≠ [] → dir ≠ names → ix.checkEntry true (pathOf dir) = none
  itself : ix.checkPath (pathOf names) = none
  text : ∃ language source, Language.fromPath (pathOf names) = some language ∧
    (ix.git.show (replaceBackslash (pathOf names))).bind sourceText = some source ∧
    item = ⟨replaceBackslash (pathOf names), language, source⟩

/-- A selected file whose text in HEAD has a chunk with the hash. -/
def Indexer.HasChunk (ix : Indexer) (file : String) (k : ContentHash) : Prop :=
  ∃ names item, ix.Selects names item ∧ item.rel = file ∧
    ∃ cs, ix.chunks item = some cs ∧ ∃ c ∈ cs, c.record.contentHash = k

/-- Both worktrees select the same of the files for which HEAD has chunks, and no chunk is in two of
them. -/
structure SelectAlike (ix ix' : Indexer) : Prop where
  files : ∀ file, (∃ k, ix.HasChunk file k) ↔ ∃ k, ix'.HasChunk file k
  unshared : ∀ file file' k, ix.HasChunk file k → ix.HasChunk file' k → file = file'

theorem mem_walked_selects_iff (hpolicy : ix.config.dirtyWorktree = .indexCommitOnly)
    (hlisted : ix.worktree.Listed) {item : WorkItem} :
    item ∈ ix.walked ↔ ∃ names, ix.Selects names item := by
  have hread : ∀ path, ix.readSource path = (ix.git.show path).bind sourceText := fun path =>
    if_pos hpolicy
  rw [mem_walked_has_iff]
  refine exists_congr fun names => ?_
  constructor
  · intro ⟨⟨bytes, hfile⟩, hgit, ⟨hcome, hcheck⟩, language, source, hlang, hsource, hitem⟩
    rw [hread] at hsource
    exact ⟨⟨bytes, hfile⟩, hgit, (comesUpon_pathOf_iff hlisted hfile hgit).mp hcome, hcheck,
      language, source, hlang, hsource, hitem⟩
  · intro h
    obtain ⟨bytes, hfile⟩ := h.file
    obtain ⟨language, source, hlang, hsource, hitem⟩ := h.text
    rw [← hread] at hsource
    exact ⟨⟨bytes, hfile⟩, h.git,
      ⟨(comesUpon_pathOf_iff hlisted hfile h.git).mpr h.above, h.itself⟩,
      language, source, hlang, hsource, hitem⟩

theorem hasChunk_iff (hpolicy : ix.config.dirtyWorktree = .indexCommitOnly)
    (hlisted : ix.worktree.Listed) {file : String} {k : ContentHash} : ix.HasChunk file k ↔
      ∃ item ∈ ix.walked, item.rel = file ∧ ∃ cs, ix.chunks item = some cs ∧
        ∃ c ∈ cs, c.record.contentHash = k := by
  constructor
  · intro ⟨names, item, hsel, h⟩
    exact ⟨item, (mem_walked_selects_iff hpolicy hlisted).mpr ⟨names, hsel⟩, h⟩
  · intro ⟨item, hitem, h⟩
    obtain ⟨names, hsel⟩ := (mem_walked_selects_iff hpolicy hlisted).mp hitem
    exact ⟨names, item, hsel, h⟩

/-- Items that two worktrees select under one name are the same. -/
theorem SameCommit.item_unique (h : SameCommit ix ix') (hlisted : ix.worktree.Listed)
    (hlisted' : ix'.worktree.Listed) {names names' : List String} {item item' : WorkItem}
    (hsel : ix.Selects names item) (hsel' : ix'.Selects names' item')
    (hrel : item.rel = item'.rel) : item = item' := by
  obtain ⟨bytes, hfile⟩ := hsel.file
  obtain ⟨bytes', hfile'⟩ := hsel'.file
  obtain ⟨language, source, hlang, hsource, rfl⟩ := hsel.text
  obtain ⟨language', source', hlang', hsource', rfl⟩ := hsel'.text
  have hrel : replaceBackslash (pathOf names) = replaceBackslash (pathOf names') := hrel
  have hshow : ix.git.show = ix'.git.show := by
    funext path
    rw [RepoGit.show, RepoGit.show, h.headTree]
  rw [hrel, hshow, hsource'] at hsource
  rw [hrel, Option.some.inj hsource, fromPath_unique (hfile.listed hlisted).1
    (hfile'.listed hlisted').1 hfile.ne_nil hfile'.ne_nil hlang hlang' hrel]

theorem SelectAlike.hasChunk (hsel : SelectAlike ix ix') (h : SameCommit ix ix')
    (hlisted : ix.worktree.Listed) (hlisted' : ix'.worktree.Listed) (file : String)
    (k : ContentHash) : ix.HasChunk file k ↔ ix'.HasChunk file k := by
  constructor
  · intro ⟨names, item, hitem, hrel, cs, hcs, c, hc, hk⟩
    obtain ⟨-, names', item', hitem', hrel', -⟩ :=
      (hsel.files file).mp ⟨k, names, item, hitem, hrel, cs, hcs, c, hc, hk⟩
    obtain rfl := h.item_unique hlisted hlisted' hitem hitem' (hrel.trans hrel'.symm)
    exact ⟨names', item, hitem', hrel, cs, h.chunks item ▸ hcs, c, hc, hk⟩
  · intro ⟨names', item', hitem', hrel', cs, hcs, c, hc, hk⟩
    obtain ⟨-, names, item, hitem, hrel, -⟩ :=
      (hsel.files file).mpr ⟨k, names', item', hitem', hrel', cs, hcs, c, hc, hk⟩
    obtain rfl := h.item_unique hlisted hlisted' hitem hitem' (hrel.trans hrel'.symm)
    exact ⟨names, item, hitem, hrel, cs, (h.chunks item).symm ▸ hcs, c, hc, hk⟩

/-! ## Orders of delivery -/

section delivers

variable {schedule : List WorkItem → List WorkItem} {hs : ∀ work, (schedule work).Perm work}

theorem chunksOf_delivers : (ix.delivers schedule hs).chunksOf = ix.chunksOf := rfl

/-- The walk does not depend on the order. -/
theorem walked_delivers : (ix.delivers schedule hs).walked = ix.walked :=
  @walked_same (ix.delivers schedule hs) ix ⟨fun _ => rfl, fun _ => rfl, fun _ => rfl⟩ rfl

theorem hasChunk_delivers (hpolicy : ix.config.dirtyWorktree = .indexCommitOnly)
    (hlisted : ix.worktree.Listed) {file : String} {k : ContentHash} :
    (ix.delivers schedule hs).HasChunk file k ↔ ix.HasChunk file k := by
  rw [@hasChunk_iff (ix.delivers schedule hs) hpolicy hlisted, hasChunk_iff hpolicy hlisted,
    walked_delivers]
  rfl

end delivers

/-! ## The file that a hash is taken from -/

/-- The file that comes first with a chunk of the hash, as the files of the walk are delivered. -/
def Indexer.firstFile (ix : Indexer) (k : ContentHash) : Option String :=
  ((ix.chunksOf (ix.schedule ix.walked)).find? (·.record.contentHash = k)).map (·.record.file)

/-- It is a file that has the hash. -/
theorem hasChunk_of_firstFile (hpolicy : ix.config.dirtyWorktree = .indexCommitOnly)
    (hlisted : ix.worktree.Listed) {file : String} {k : ContentHash}
    (h : ix.firstFile k = some file) : ix.HasChunk file k := by
  obtain ⟨c, hfind, rfl⟩ := Option.map_eq_some_iff.mp h
  obtain ⟨item, hitem, cs, hcs, hc⟩ := mem_chunksOf.mp (List.mem_of_find?_eq_some hfind)
  have hwalked : item ∈ ix.walked := (ix.schedule_perm ix.walked).mem_iff.mp hitem
  exact (hasChunk_iff hpolicy hlisted).mpr
    ⟨item, hwalked, (yields_of_mem (.inl hwalked) hcs hc).1.symm, cs,
    hcs, c, hc, by simpa using List.find?_some hfind⟩

/-- A hash that no two files share comes first in the file that has it. -/
theorem firstFile_eq_some_iff (hpolicy : ix.config.dirtyWorktree = .indexCommitOnly)
    (hlisted : ix.worktree.Listed)
    (hone : ∀ file file' k, ix.HasChunk file k → ix.HasChunk file' k → file = file') {file : String}
    {k : ContentHash} : ix.firstFile k = some file ↔ ix.HasChunk file k := by
  refine ⟨hasChunk_of_firstFile hpolicy hlisted, fun h => ?_⟩
  obtain ⟨item, hitem, -, cs, hcs, c, hc, hk⟩ := (hasChunk_iff hpolicy hlisted).mp h
  have hmem : c ∈ ix.chunksOf (ix.schedule ix.walked) :=
    mem_chunksOf.mpr ⟨item, (ix.schedule_perm ix.walked).mem_iff.mpr hitem, cs, hcs, hc⟩
  have hsome : (ix.firstFile k).isSome = true := by
    rw [firstFile, Option.isSome_map, List.find?_isSome]
    exact ⟨c, hmem, by simpa using hk⟩
  obtain ⟨file', hfirst⟩ := Option.isSome_iff_exists.mp hsome
  rw [hfirst, hone file' file k (hasChunk_of_firstFile hpolicy hlisted hfirst) h]

/-- The parser threads deliver one of the files before the others. -/
def foremost (item : WorkItem) (work : List WorkItem) : List WorkItem :=
  if item ∈ work then item :: work.erase item else work

theorem foremost_perm (item : WorkItem) (work : List WorkItem) :
    (foremost item work).Perm work := by
  unfold foremost
  split
  · exact (List.perm_cons_erase ‹_›).symm
  · exact .refl work

/-- Each file that has a hash comes first with it in some order. -/
theorem firstFile_foremost {item : WorkItem} (hitem : item ∈ ix.walked) {cs : List Chunk}
    (hcs : ix.chunks item = some cs) {c : Chunk} (hc : c ∈ cs) :
    (ix.delivers (foremost item) (foremost_perm item)).firstFile c.record.contentHash =
      some item.rel := by
  have hchunks : ix.chunksOf (foremost item ix.walked) = cs ++
      ix.chunksOf (ix.walked.erase item) := by
    rw [foremost, if_pos hitem, ← List.singleton_append, chunksOf_append]
    simp [chunksOf, hcs]
  have hfirst : (cs.find? (·.record.contentHash = c.record.contentHash)).isSome = true := by
    rw [List.find?_isSome]
    exact ⟨c, hc, by simp⟩
  obtain ⟨c', hfind⟩ := Option.isSome_iff_exists.mp hfirst
  rw [firstFile, walked_delivers, chunksOf_delivers]
  show ((ix.chunksOf (foremost item ix.walked)).find? _).map _ = _
  rw [hchunks, List.find?_append, hfind]
  exact congrArg some (yields_of_mem (.inl hitem) hcs (List.mem_of_find?_eq_some hfind)).1

/-- A file that has a hash is the one it is taken from in some order. -/
theorem exists_firstFile (hpolicy : ix.config.dirtyWorktree = .indexCommitOnly)
    (hlisted : ix.worktree.Listed) {file : String} {k : ContentHash} (h : ix.HasChunk file k) :
    ∃ schedule hs, (ix.delivers schedule hs).firstFile k = some file := by
  obtain ⟨item, hitem, rfl, cs, hcs, c, hc, rfl⟩ := (hasChunk_iff hpolicy hlisted).mp h
  exact ⟨_, _, firstFile_foremost hitem hcs hc⟩

/-- In any order, a hash that no two files share is taken from the file that has it. -/
theorem firstFile_delivers_iff (hpolicy : ix.config.dirtyWorktree = .indexCommitOnly)
    (hlisted : ix.worktree.Listed)
    (hone : ∀ file file' k, ix.HasChunk file k → ix.HasChunk file' k → file = file')
    {schedule : List WorkItem → List WorkItem} {hs : ∀ work, (schedule work).Perm work}
    {file : String} {k : ContentHash} :
    (ix.delivers schedule hs).firstFile k = some file ↔ ix.HasChunk file k := by
  rw [@firstFile_eq_some_iff (ix.delivers schedule hs) hpolicy hlisted,
    hasChunk_delivers hpolicy hlisted]
  intro file file' k
  rw [hasChunk_delivers hpolicy hlisted, hasChunk_delivers hpolicy hlisted]
  exact hone file file' k

/-- When a hash comes first, in every order, in the file that another worktree takes it from, each
file that has it is one that the other selects. -/
theorem hasChunk_of_firstFile_eq (hpolicy : ix.config.dirtyWorktree = .indexCommitOnly)
    (hpolicy' : ix'.config.dirtyWorktree = .indexCommitOnly) (hlisted : ix.worktree.Listed)
    (hlisted' : ix'.worktree.Listed) {file : String} {k : ContentHash}
    (hfirst : ∀ schedule hs, (ix.delivers schedule hs).firstFile k =
      (ix'.delivers id .refl).firstFile k)
    (hfile : ix.HasChunk file k) : ix'.HasChunk file k := by
  obtain ⟨schedule, hs, hforemost⟩ := exists_firstFile hpolicy hlisted hfile
  rw [hfirst] at hforemost
  exact (hasChunk_delivers hpolicy' hlisted').mp
    (@hasChunk_of_firstFile (ix'.delivers id .refl) hpolicy' hlisted' _ _ hforemost)

/-- A full index into a new store takes a hash up from the file that comes first with it. -/
theorem mem_takes_new {file : String} {k : ContentHash} :
    (file, k) ∈ (ix.takes ⟨[], ix.walked⟩ []).map (fun c => (c.record.file, c.record.contentHash)) ↔
      ix.firstFile k = some file := by
  rw [List.mem_map, firstFile, Option.map_eq_some_iff]
  refine exists_congr fun c => ?_
  rw [takes, show recordHashes (Plan.diff ⟨[], ix.walked⟩ []) = [] from rfl, taken, firsts.mem_iff,
    List.find?_eq_some_iff_append, Prod.mk.injEq]
  constructor
  · intro h
    obtain ⟨⟨_, before, after, hchunks, hbefore⟩, hfile, hk⟩ := h
    refine ⟨⟨by simpa using hk, before, after, hchunks, fun b hb => ?_⟩, hfile⟩
    rw [← hk]
    simpa using hbefore b hb
  · intro h
    obtain ⟨⟨hk, before, after, hchunks, hbefore⟩, hfile⟩ := h
    have hk : c.record.contentHash = k := by simpa using hk
    refine ⟨⟨List.not_mem_nil, before, after, hchunks, fun b hb => ?_⟩, hfile, hk⟩
    rw [hk]
    simpa using hbefore b hb

section new

variable {E : Embedder} {d : Dir} {fails : ChunkStore.CreateStoreStep → Bool} {s : ChunkStore}

/-- What a full index into a new store leaves, and the commit that it records. -/
theorem indexAll_new (hd : d manifestName = none)
    (hs : (ChunkStore.create fails E.dims E.modelId d).result = .ok s) (hE : ix.embedder = E)
    (hf : FreshGeneration s ix.pid ix.nanos) (hpolicy : ix.config.dirtyWorktree = .indexCommitOnly)
    (hok : (ix.run .indexAll (freshState s)).result.isOk = true) :
    (∀ file k, (file, k) ∈ (ix.run .indexAll (freshState s)).state.pairs ↔
        ix.firstFile k = some file) ∧
      ∃ head, ix.git.headId = .ok head ∧
        (ix.run .indexAll (freshState s)).state.store.indexedCommit = some head := by
  have Hs : History E (fun _ => False) (freshState s) := .create hd hs
  have hnil : (freshState s).records = [] := (records_freshState hd hs).records
  obtain ⟨hrecords, -, head, dirty, -, hhead, hcommit⟩ := Hs.run_records hE hf hok
  constructor
  · intro file k
    rw [← mem_takes_new, IndexState.pairs, hrecords, hnil, outcome]
    simp only [plan, Plan.diff, List.foldl_nil, List.filter_nil, List.nil_append, List.map_map]
    rfl
  · refine ⟨head, hhead, ?_⟩
    rw [hcommit, commitMarker, hpolicy, if_neg fun h => by cases h.2]

/-- Whatever order the files are delivered in, two runs that return leave the same files and hashes
under the same commit. -/
def Isolated (ix ix' : Indexer) (t : IndexState) : Prop :=
  ∀ schedule hs schedule' hs',
    ((ix.delivers schedule hs).run .indexAll t).result.isOk = true →
    ((ix'.delivers schedule' hs').run .indexAll t).result.isOk = true →
      let u := ((ix.delivers schedule hs).run .indexAll t).state
      let u' := ((ix'.delivers schedule' hs').run .indexAll t).state
      (∀ p, p ∈ u.pairs ↔ p ∈ u'.pairs) ∧ u.store.indexedCommit = u'.store.indexedCommit

/-- Two worktrees of one commit are indexed under the commit-only policy, each into a new store. The
files and hashes of the live records are the same in any order if both select the same of the files
for which HEAD has chunks, and no chunk is in two of them, and, where the runs return in every
order, only then. -/
theorem indexAll_isolated_iff (h : SameCommit ix ix')
    (hpolicy : ix.config.dirtyWorktree = .indexCommitOnly) (hE : ix.embedder = E)
    (hlisted : ix.worktree.Listed) (hlisted' : ix'.worktree.Listed) (hd : d manifestName = none)
    (hs : (ChunkStore.create fails E.dims E.modelId d).result = .ok s)
    (hf : FreshGeneration s ix.pid ix.nanos) (hf' : FreshGeneration s ix'.pid ix'.nanos) :
    (SelectAlike ix ix' → Isolated ix ix' (freshState s)) ∧
      ((∀ schedule hs,
          ((ix.delivers schedule hs).run .indexAll (freshState s)).result.isOk = true) →
        (∀ schedule hs,
          ((ix'.delivers schedule hs).run .indexAll (freshState s)).result.isOk = true) →
        (Isolated ix ix' (freshState s) ↔ SelectAlike ix ix')) := by
  have hpolicy' : ix'.config.dirtyWorktree = .indexCommitOnly := h.config ▸ hpolicy
  have hE' : ix'.embedder = E := h.embedder ▸ hE
  have hnew :=
    fun schedule hp => @indexAll_new (ix.delivers schedule hp) E d fails s hd hs hE hf hpolicy
  have hnew' :=
    fun schedule hp => @indexAll_new (ix'.delivers schedule hp) E d fails s hd hs hE' hf' hpolicy'
  have halike : SelectAlike ix ix' → Isolated ix ix' (freshState s) := by
    intro hsel schedule hp schedule' hp' hok hok'
    obtain ⟨hpairs, head, hhead, hcommit⟩ := hnew schedule hp hok
    obtain ⟨hpairs', head', hhead', hcommit'⟩ := hnew' schedule' hp' hok'
    have hheads : head = head' := Except.ok.inj (hhead.symm.trans (h.headId.trans hhead'))
    have hshared := hsel.hasChunk h hlisted hlisted'
    refine ⟨fun ⟨file, k⟩ => ?_, by rw [hcommit, hcommit', hheads]⟩
    rw [hpairs, hpairs', firstFile_delivers_iff hpolicy hlisted hsel.unshared,
      firstFile_delivers_iff hpolicy' hlisted', hshared]
    intro file file' k hfile hfile'
    exact hsel.unshared file file' k ((hshared file k).mpr hfile) ((hshared file' k).mpr hfile')
  refine ⟨halike, fun hok hok' => ⟨fun hiso => ?_, halike⟩⟩
  -- any two orders agree on the file that comes first
  have hfirst : ∀ schedule hp schedule' hp' k,
      (ix.delivers schedule hp).firstFile k = (ix'.delivers schedule' hp').firstFile k := by
    intro schedule hp schedule' hp' k
    obtain ⟨hsame, -⟩ := hiso schedule hp schedule' hp' (hok _ _) (hok' _ _)
    apply Option.ext
    intro file
    rw [← (hnew schedule hp (hok _ _)).1, ← (hnew' schedule' hp' (hok' _ _)).1]
    exact hsame (file, k)
  refine ⟨fun file => ⟨?_, ?_⟩, ?_⟩
  · intro ⟨k, hfile⟩
    exact ⟨k, hasChunk_of_firstFile_eq hpolicy hpolicy' hlisted hlisted'
      (fun schedule hp => hfirst schedule hp id .refl k) hfile⟩
  · intro ⟨k, hfile⟩
    exact ⟨k, hasChunk_of_firstFile_eq hpolicy' hpolicy hlisted' hlisted
      (fun schedule hp => (hfirst id .refl schedule hp k).symm) hfile⟩
  · intro file file' k hfile hfile'
    obtain ⟨schedule, hp, hforemost⟩ := exists_firstFile hpolicy hlisted hfile
    obtain ⟨schedule', hp', hforemost'⟩ := exists_firstFile hpolicy hlisted hfile'
    rw [hfirst schedule hp id .refl, ← hfirst schedule' hp' id .refl, hforemost'] at hforemost
    exact (Option.some.inj hforemost).symm

end new

/-- The text of a file is edited, and a file is added that is in no commit. -/
theorem indexAll_isolated_iff_edited :
    let tree := sampleTree [("a.rs", "fn f() {}")]
    let edited := sampleTree [("a.rs", "fn g() {}"), ("b.rs", "fn h() {}")]
    let dirty := { sampleGit "c1" tree [] with
      isDirty := .ok true
      status := .ok " M a.rs\x00?? b.rs\x00".toUTF8.toList }
    let config : IndexConfig := ⟨32, fun s => s.dead * 5 > s.live + s.dead, .indexCommitOnly⟩
    let ix := { sampleIndexer tree (sampleGit "c1" tree []) 1 with config }
    let ix' := { sampleIndexer edited dirty 2 with config }
    let u := ((ix.delivers id .refl).run .indexAll sampleStart).state
    let u' := ((ix'.delivers List.reverse List.reverse_perm).run .indexAll sampleStart).state
    (∀ p, p ∈ u.pairs ↔ p ∈ u'.pairs) ∧ u.store.indexedCommit = u'.store.indexedCommit := by
  intro tree edited dirty config ix ix' u u'
  have hlisted : ix.worktree.Listed := ⟨by decide, trivial, trivial⟩
  have hlisted' : ix'.worktree.Listed := ⟨by decide, trivial, by decide, trivial, trivial⟩
  have hwalked : ix.walked = ix'.walked := by decide +kernel
  have hrel : ∀ item ∈ ix.walked, item.rel = "a.rs" := by decide +kernel
  have halike : SelectAlike ix ix' := by
    refine ⟨fun file => exists_congr fun k => ?_, fun file file' k hfile hfile' => ?_⟩
    · rw [hasChunk_iff rfl hlisted, hasChunk_iff rfl hlisted', hwalked]
      rfl
    · obtain ⟨item, hitem, rfl, -⟩ := (hasChunk_iff rfl hlisted).mp hfile
      obtain ⟨item', hitem', rfl, -⟩ := (hasChunk_iff rfl hlisted).mp hfile'
      rw [hrel item hitem, hrel item' hitem']
  have hiso : Isolated ix ix' sampleStart :=
    (@indexAll_isolated_iff ix ix' _ _ _ _ ⟨rfl, rfl, rfl, rfl, rfl⟩ rfl rfl hlisted hlisted' rfl
      sampleStore_created sampleStart_fresh sampleStart_fresh).1 halike
  exact hiso id .refl List.reverse List.reverse_perm (by decide +kernel) (by decide +kernel)

/-- A file of the commit is deleted in the worktree. The walk does not come upon it, and its chunks
go missing under the same commit. -/
theorem indexAll_misses_deleted :
    let tree := sampleTree [("a.rs", "fn f() {}")]
    let dirty := { sampleGit "c1" tree [] with
      isDirty := .ok true
      status := .ok " D a.rs\x00".toUTF8.toList }
    let config : IndexConfig := ⟨32, fun s => s.dead * 5 > s.live + s.dead, .indexCommitOnly⟩
    let ix := { sampleIndexer tree (sampleGit "c1" tree []) 1 with config }
    let ix' := { sampleIndexer .nil dirty 2 with config }
    let u := (ix.run .indexAll sampleStart).state
    let u' := (ix'.run .indexAll sampleStart).state
    SameCommit ix ix' ∧ (ix.run .indexAll sampleStart).result.isOk = true ∧
      (ix'.run .indexAll sampleStart).result.isOk = true ∧ u.pairs.map (·.1) = ["a.rs"] ∧
      u'.pairs = [] ∧ u.store.indexedCommit = some "c1" ∧ u'.store.indexedCommit = some "c1" ∧
      ¬∀ p, p ∈ u.pairs ↔ p ∈ u'.pairs := by
  intro tree dirty config ix ix' u u'
  have hfiles : u.pairs.map (·.1) = ["a.rs"] := by decide +kernel
  have hnone : u'.pairs = [] := by decide +kernel
  refine ⟨⟨rfl, rfl, rfl, rfl, rfl⟩, by decide +kernel, by decide +kernel, hfiles, hnone,
    by decide +kernel, by decide +kernel, fun hsame => ?_⟩
  obtain ⟨p, hp, -⟩ := List.mem_map.mp (hfiles ▸ List.mem_singleton_self "a.rs")
  have hp := (hsame p).mp hp
  rw [hnone] at hp
  cases hp

end SiftMcp
