import SiftMcp.Daemon.Protocol
import SiftMcp.Eval.Commits
import SiftMcp.Indexing.Histories
import SiftMcp.Lib.Batches
import SiftMcp.Lib.ExceptSteps
import SiftMcp.Storage.Compaction

/-!
# The held-out index

`build_held_out_index` writes the chunks of a repository without their documentation into a store
that it creates and into the lexical index beside it. Chunks of one text share a row: its record is
that of the first of them, its document that of the last.

`buildHeldOutIndex_holdsOut` says what is in both when the call has succeeded.
-/

namespace SiftMcp
open Text Durable

/-! ## Building -/

/-- A file that `list_source_files` lists: its path below the repository, and its text. -/
structure SourceFile where
  path : String
  text : Except String Text

/-- What the build meets, and which of its calls fail. -/
structure HeldOutEnv where
  dir : Dir
  createFails : ChunkStore.CreateStoreStep → Bool
  /-- The documents of a lexical index that is in the directory already. -/
  docs : Docs
  lexicalError : Option String
  chunkerError : Option String
  files : Except String (List SourceFile)
  embedError : Option String
  insertFails : InsertStep → Bool
  lexicalFails : LexicalCall → Bool

def evalStoreFailure : Failure → MiningFailure
  | .error e => .error (.store e.display)
  | .panic _ => .panic

def refuse (error : String → EvalError) : Option String → Except MiningFailure Unit
  | some e => .error (.error (error e))
  | none => .ok ()

section

variable (blake3 : List UInt8 → ContentHash) (ts : TreeSitter)

/-- The turn of the loop over the files. -/
def heldOutFile (pending : List (ChunkRecord × String)) (file : SourceFile) :
    Except MiningFailure (List (ChunkRecord × String)) :=
  match Language.fromPath file.path with
  | none => return pending
  | some lang => do
    let text ← file.text.mapError fun e => .error (.io e)
    let chunks ← chunkFileOr blake3 ts (replaceBackslash file.path) lang text
    return pending ++ chunks.chunks.filterMap heldOutEntry

def writeHeldOut (fails : LexicalCall → Bool) (docs : Docs) : LexicalIndex.LexProg Unit := do
  LexicalIndex.addBatch fails docs
  LexicalIndex.commit fails

/-- The store, and the lexical index as it is left. -/
def buildHeldOutIndex (E : Embedder) (env : HeldOutEnv) :
    Except MiningFailure (ChunkStore × LexicalIndex) := do
  let store ← (ChunkStore.create env.createFails E.dims E.modelId env.dir).result.mapError
      evalStoreFailure
  let _ ← refuse .retrieval env.lexicalError
  let _ ← refuse .index env.chunkerError
  let files ← env.files.mapError fun e => .error (.io e)
  let pending ← files.foldlM (heldOutFile blake3 ts) []
  if pending = [] then return (store, .open env.docs)
  else
    let _ ← refuse .message env.embedError
    let embeddings := E.embed (pending.map (·.2))
    let batch := (pending.map (·.1)).zip (embeddings.map (·.vector))
    let inserted := ChunkStore.insertBatch env.insertFails batch store
    let ids ← inserted.result.mapError evalStoreFailure
    let written := writeHeldOut env.lexicalFails (ids.zip (pending.map heldOutDoc)) (.open env.docs)
    let _ ← written.result.mapError fun e => .error (.retrieval e.display)
    return (inserted.state, written.state)

end

/-! ## What is written -/

variable {blake3 : List UInt8 → ContentHash} {ts : TreeSitter} {E : Embedder} {env : HeldOutEnv}
  {c : FragmentChunk} {entry : ChunkRecord × String}
  {pending pending' : List (ChunkRecord × String)} {store t : ChunkStore} {x : LexicalIndex}
  {file : SourceFile} {files : List SourceFile}

/-- No documentation is in the fields, and no line of the body is a doc comment. -/
def LexicalDoc.Undocumented (d : LexicalDoc) : Prop :=
  d.docFirstLine = none ∧ ∀ l ∈ d.body.toList.splitOn '\n', Mine.isDocCommentLine l = false

theorem undocumented_of_heldOutEntry (h : heldOutEntry c = some entry) :
    entry.1.docFirstLine = none ∧ (heldOutDoc entry).Undocumented := by
  obtain ⟨hrec, hlines⟩ := eq_of_heldOutEntry h
  refine ⟨by rw [hrec], rfl, fun l hl => ?_⟩
  have hl : l ∈ entry.2.toList.splitOn '\n' := hl
  rw [hlines] at hl
  simpa using (List.mem_filter.mp hl).2

theorem mem_heldOutFile (h : heldOutFile blake3 ts pending file = .ok pending')
    (he : entry ∈ pending') : entry ∈ pending ∨ ∃ c, heldOutEntry c = some entry := by
  unfold heldOutFile at h
  split at h
  · obtain rfl := Except.ok.inj h
    exact .inl he
  · obtain ⟨text, -, h⟩ := Except.mapError_bind_eq_ok.mp h
    obtain ⟨chunks, -, h⟩ := Except.bind_eq_ok.mp h
    obtain rfl := Except.ok.inj h
    rcases List.mem_append.mp he with he | he
    · exact .inl he
    · obtain ⟨c, -, hc⟩ := List.mem_filterMap.mp he
      exact .inr ⟨c, hc⟩

theorem mem_heldOutFiles (h : files.foldlM (heldOutFile blake3 ts) pending = .ok pending')
    (he : entry ∈ pending') : entry ∈ pending ∨ ∃ c, heldOutEntry c = some entry := by
  induction files generalizing pending with
  | nil =>
    obtain rfl := Except.ok.inj h
    exact .inl he
  | cons file files ih =>
    rw [List.foldlM_cons] at h
    obtain ⟨next, hnext, h⟩ := Except.bind_eq_ok.mp h
    exact (ih h).elim (mem_heldOutFile hnext) .inr

/-- The records of the rows, from the first chunks of their texts. -/
def heldOutRows (pending : List (ChunkRecord × String)) : List ChunkRecord :=
  firsts (·.contentHash) [] (pending.map (·.1))

/-- Rows and documents are those of the chunks. A document of another row was there before. -/
structure HoldsOut (pending : List (ChunkRecord × String)) (old : Docs) (store : ChunkStore)
    (docs : Docs) : Prop where
  rows : ∀ row, store.get row = (heldOutRows pending)[row]?
  last : ∀ row rec, store.get row = some rec → ∃ entry ∈ pending,
    pending.reverse.find? (·.1.contentHash = rec.contentHash) = some entry ∧
      DocIndex.load row docs = some (heldOutDoc entry)
  mem : ∀ row d, (row, d) ∈ docs → (∃ entry ∈ pending, d = heldOutDoc entry) ∨
    (row, d) ∈ old ∧ store.get row = none

/-- The rows that a batch is told, for a row of the table. -/
theorem rows_of_batch {batch : List Entry} {ids : List RowId}
    (hids : List.Forall₂ (RowOf (RowTable.empty.insertAll batch)) ids batch) (row : RowId) :
    List.Forall₂ (fun id e => id = row ↔
      ∃ v, (firsts Entry.hash [] batch)[row]? = some v ∧ Entry.hash e = v.hash) ids batch := by
  refine hids.imp fun id e h => ?_
  obtain ⟨v, hv, hhash⟩ := h
  constructor
  · rintro rfl
    exact ⟨v, RowTable.mem_insertAll_empty.mp hv, hhash.symm⟩
  · rintro ⟨v', hv', he⟩
    exact congrArg Prod.fst
      (RowTable.eq_of_key hv (RowTable.mem_insertAll_empty.mpr hv') (hhash.trans he))

theorem heldOutRows_eq {batch : List Entry} (hbatch : batch.map (·.1) = pending.map (·.1)) :
    heldOutRows pending = (firsts Entry.hash [] batch).map (·.1) := by
  rw [heldOutRows, ← hbatch, firsts.map]
  rfl

theorem exists_of_mem_heldOutRows {rec : ChunkRecord} (h : rec ∈ heldOutRows pending) :
    ∃ entry ∈ pending, entry.1 = rec :=
  List.mem_map.mp (firsts.sublist.subset h)

section batch

variable {batch : List Entry} {ids : List RowId} {old : Docs}

/-- The elements of a batch that share a row are those with the hash of its record. -/
theorem ids_of_batch (hbatch : batch.map (·.1) = pending.map (·.1))
    (hids : List.Forall₂ (RowOf (RowTable.empty.insertAll batch)) ids batch) (row : RowId) :
    List.Forall₂ (fun id entry => id = row ↔
      ∃ rec, (heldOutRows pending)[row]? = some rec ∧ entry.1.contentHash = rec.contentHash) ids
        pending := by
  have hrec : List.Forall₂ (fun id (rec : ChunkRecord) => id = row ↔
      ∃ rec', (heldOutRows pending)[row]? = some rec' ∧ rec.contentHash = rec'.contentHash) ids
      (batch.map (·.1)) := by
    refine List.forall₂_map_right_iff.mpr ((rows_of_batch hids row).imp fun id e h => h.trans ?_)
    rw [heldOutRows_eq hbatch, List.getElem?_map]
    constructor
    · rintro ⟨v, hv, he⟩
      exact ⟨v.1, by rw [hv]; rfl, he⟩
    · rintro ⟨rec, hrec, he⟩
      obtain ⟨v, hv, rfl⟩ := Option.map_eq_some_iff.mp hrec
      exact ⟨v, hv, he⟩
  rw [hbatch] at hrec
  have hpending := List.forall₂_map_right_iff.mp hrec
  exact hpending

theorem get_of_batch (hbatch : batch.map (·.1) = pending.map (·.1))
    (hdb : t.conn.Repr (RowTable.empty.insertAll batch)) (row : RowId) :
    t.get row = (heldOutRows pending)[row]? := by
  rw [heldOutRows_eq hbatch, List.getElem?_map, ← RowTable.find?_insertAll_empty, Option.map_map]
  exact hdb.get row

theorem holdsOut_of_batch (hbatch : batch.map (·.1) = pending.map (·.1))
    (hdb : t.conn.Repr (RowTable.empty.insertAll batch))
    (hids : List.Forall₂ (RowOf (RowTable.empty.insertAll batch)) ids batch) :
    HoldsOut pending old t (DocIndex.putAll (ids.zip (pending.map heldOutDoc)) old) where
  rows := get_of_batch hbatch hdb
  last row rec hrec := by
    rw [get_of_batch hbatch hdb] at hrec
    obtain ⟨entry, hentry, hfst⟩ := exists_of_mem_heldOutRows (List.mem_of_getElem? hrec)
    have hload : DocIndex.load row (ids.zip (pending.map heldOutDoc)).reverse =
        (pending.reverse.find? (·.1.contentHash = rec.contentHash)).map heldOutDoc :=
      DocIndex.load_reverse_zip
        ((ids_of_batch hbatch hids row).imp fun id entry h => h.trans (by simp [hrec]))
    have hsome : (pending.reverse.find? (·.1.contentHash = rec.contentHash)).isSome = true :=
      List.find?_isSome.mpr
        ⟨entry, List.mem_reverse.mpr hentry, by rw [hfst]; exact decide_eq_true rfl⟩
    obtain ⟨last, hlast⟩ := Option.isSome_iff_exists.mp hsome
    refine ⟨last, List.mem_reverse.mp (List.mem_of_find?_eq_some hlast), hlast, ?_⟩
    rw [DocIndex.load_putAll, hload, hlast]
    rfl
  mem row d hd := by
    rcases DocIndex.mem_putAll_or hd with hd | ⟨hd, hrow⟩
    · have hdoc := (List.of_mem_zip hd).2
      obtain ⟨entry, hentry, rfl⟩ := List.mem_map.mp hdoc
      exact .inl ⟨entry, hentry, rfl⟩
    · refine .inr ⟨hd, ?_⟩
      rw [get_of_batch hbatch hdb]
      cases hrec : (heldOutRows pending)[row]? with
      | none => rfl
      | some rec =>
        -- The row was told to the chunk that its record is of.
        obtain ⟨entry, hentry, rfl⟩ := exists_of_mem_heldOutRows (List.mem_of_getElem? hrec)
        obtain ⟨id, hid, h⟩ := forall₂_right (ids_of_batch hbatch hids row) entry hentry
        obtain rfl := h.mpr ⟨_, hrec, rfl⟩
        have hkeys : DocIndex.keys (ids.zip (pending.map heldOutDoc)) = ids :=
          List.map_fst_zip
            (by rw [List.length_map]; exact (ids_of_batch hbatch hids id).length_eq.le)
        rw [hkeys] at hrow
        exact absurd hid hrow

end batch

/-! ## The whole build -/

theorem writeHeldOut_ok {fails : LexicalCall → Bool} {docs : Docs}
    (h : (writeHeldOut fails docs x).result = .ok ()) :
    (writeHeldOut fails docs x).state = .open (DocIndex.putAll docs x.staged) := by
  have hwp : Prog.wp (writeHeldOut fails docs)
      (fun _ y => y = .open (DocIndex.putAll docs x.staged)) (fun _ _ => True)
      (fun _ _ => True) x := by
    simp only [writeHeldOut, Prog.wp_bind]
    refine (LexicalIndex.addBatch_wp fails docs).mono ?_ (fun _ _ _ => trivial)
      (fun _ _ _ => trivial)
    rintro _ _ rfl
    exact (LexicalIndex.commit_wp fails).mono (fun _ _ h => h) (fun _ _ _ => trivial)
      (fun _ _ _ => trivial)
  exact hwp.ok h

theorem map_fst_batch (E : Embedder) : ((pending.map (·.1)).zip
    ((E.embed (pending.map (·.2))).map (·.vector))).map (·.1) = pending.map (·.1) := by
  refine List.map_fst_zip (Nat.le_of_eq ?_)
  rw [List.length_map, List.length_map, E.length, List.length_map]

/-- What the build leaves is without documentation, but for documents of rows that the store does
not have. -/
theorem buildHeldOutIndex_holdsOut (h : buildHeldOutIndex blake3 ts E env = .ok (store, x)) :
    ∃ files pending, env.files = .ok files ∧ files.foldlM (heldOutFile blake3 ts) [] = .ok pending ∧
      HoldsOut pending env.docs store x.durable ∧
      (∀ row rec, store.get row = some rec → rec.docFirstLine = none) ∧
      ∀ row d, (row, d) ∈ x.durable → d.Undocumented ∨ (row, d) ∈ env.docs ∧
        store.get row = none := by
  unfold buildHeldOutIndex at h
  obtain ⟨created, hcreated, h⟩ := Except.mapError_bind_eq_ok.mp h
  obtain ⟨_, -, h⟩ := Except.bind_eq_ok.mp h
  obtain ⟨_, -, h⟩ := Except.bind_eq_ok.mp h
  obtain ⟨files, hfiles, h⟩ := Except.mapError_bind_eq_ok.mp h
  obtain ⟨pending, hpending, h⟩ := Except.bind_eq_ok.mp h
  have hempty : Usable created (.none E.dims E.modelId) := ((create_empty_wp _ _ _).ok hcreated).1
  have hholds : HoldsOut pending env.docs store x.durable := by
    split at h
    · next hnil =>
      subst hnil
      obtain ⟨rfl, rfl⟩ := Prod.mk.inj (Except.ok.inj h)
      exact @holdsOut_of_batch [] created [] [] env.docs rfl hempty.pair.db .nil
    · obtain ⟨_, -, h⟩ := Except.bind_eq_ok.mp h
      obtain ⟨ids, hids, h⟩ := Except.mapError_bind_eq_ok.mp h
      obtain ⟨_, hwritten, h⟩ := Except.mapError_bind_eq_ok.mp h
      obtain ⟨rfl, rfl⟩ := Prod.mk.inj (Except.ok.inj h)
      obtain ⟨husable, -, -, hrows, -⟩ := (insertBatch_wp hempty _ _).ok hids
      rw [writeHeldOut_ok hwritten]
      exact holdsOut_of_batch (map_fst_batch E) husable.pair.db hrows
  have hentries : ∀ entry ∈ pending, ∃ c, heldOutEntry c = some entry := fun entry he =>
    (mem_heldOutFiles hpending he).resolve_left List.not_mem_nil
  refine ⟨files, pending, hfiles, hpending, hholds, fun row rec hrec => ?_, fun row d hd => ?_⟩
  · rw [hholds.rows] at hrec
    obtain ⟨entry, he, rfl⟩ := exists_of_mem_heldOutRows (List.mem_of_getElem? hrec)
    obtain ⟨c, hc⟩ := hentries entry he
    exact (undocumented_of_heldOutEntry hc).1
  · rcases hholds.mem row d hd with ⟨entry, he, rfl⟩ | hold
    · obtain ⟨c, hc⟩ := hentries entry he
      exact .inl (undocumented_of_heldOutEntry hc).2
    · exact .inr hold

/-- Two files with the same function. -/
def twoFiles : HeldOutEnv where
  dir := fun _ => none
  createFails := fun _ => false
  docs := []
  lexicalError := none
  chunkerError := none
  files := .ok [⟨"a.py", .ok commentSource⟩, ⟨"b.py", .ok commentSource⟩]
  embedError := none
  insertFails := fun _ => false
  lexicalFails := fun _ => false

/-- The record of the row is from the first file, its document from the second. -/
theorem buildHeldOutIndex_holdsOut_two : ∃ store x,
    buildHeldOutIndex (fun _ => ⟨0⟩) commentParser sampleEmbedder twoFiles = .ok (store, x) ∧
    (store.get 0).map (·.file) = some "a.py" ∧
    (DocIndex.load 0 x.durable).map (·.file) = some "b.py" ∧
    ∀ row d, (row, d) ∈ x.durable → d.Undocumented := by
  have hok : (buildHeldOutIndex (fun _ => ⟨0⟩) commentParser sampleEmbedder twoFiles).toOption.map
      (fun built =>
        ((built.1.get 0).map (·.file), (DocIndex.load 0 built.2.durable).map (·.file))) =
      some (some "a.py", some "b.py") := by
    decide +kernel
  cases h : buildHeldOutIndex (fun _ => ⟨0⟩) commentParser sampleEmbedder twoFiles with
  | error e =>
    rw [h] at hok
    cases hok
  | ok built =>
    rw [h] at hok
    obtain ⟨hfirst, hlast⟩ := Prod.mk.inj (Option.some.inj hok)
    obtain ⟨_, _, -, -, -, -, hdocs⟩ := buildHeldOutIndex_holdsOut h
    exact ⟨built.1, built.2, rfl, hfirst, hlast,
      fun row d hd => (hdocs row d hd).resolve_right fun h => List.not_mem_nil h.1⟩

end SiftMcp
