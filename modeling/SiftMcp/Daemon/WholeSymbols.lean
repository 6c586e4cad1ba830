import SiftMcp.Daemon.Frozen
import SiftMcp.Indexing.Pieces
import SiftMcp.Indexing.Recovery
import SiftMcp.Lib.Utf8Bytes

/-!
# Whole symbols

A symbol is answered with a text exactly if a single live row has its name and the text is stored
behind the hash of that row, from a resident or from a view of it. So a construct is answered as a
whole exactly if the run that has read its file has left it whole (`Construct.getSymbol_whole_iff`).
-/

namespace SiftMcp
open Durable Indexer

section

variable {R : Retrieval} {host : Host} {r : Resident} {E : Embedder} {a : Contents} {docs : Docs}
  {t : IndexState} {file symbol body : String}

theorem oneSymbol_eq_ok {found : List (RowId × ChunkRecord)} {bodies : RowId → Option String} :
    (∃ rec, oneSymbol file symbol found bodies = .ok (symbolResponse rec body)) ↔
      ∃ p, found = [p] ∧ (bodies p.1).getD "" = body := by
  constructor
  · rintro ⟨rec, h⟩
    cases found with
    | nil => cases h
    | cons p rest =>
      cases rest with
      | nil => exact ⟨p, rfl, (Response.symbol.inj (Except.ok.inj h)).2.2.2.2.2⟩
      | cons q rest => cases h
  · rintro ⟨p, rfl, rfl⟩
    exact ⟨p.2, rfl⟩

/-- The body of a live row is stored behind its hash, and no other. -/
theorem bodyOf_eq_iff (S : Holds E True a docs t) {row : RowId} {rec : ChunkRecord}
    (hrow : (row, rec) ∈ t.store.conn.live.map fun c => (c.rowid, c.record)) :
    (bodyOf t.lexical.reader row).getD "" = body ↔ t.Stores rec.contentHash body := by
  have hagree := S.agree trivial
  rw [S.repr.pair.db.live] at hrow
  obtain ⟨⟨row', e⟩, he, heq⟩ := List.mem_map.mp hrow
  obtain ⟨rfl, rfl⟩ := Prod.mk.inj heq
  obtain ⟨d, hd, -⟩ := hagree.complete row' e he
  have hreader : t.lexical.reader = docs := congrArg DocIndex.reader S.lexical
  have hbody : bodyOf t.lexical.reader row' = some d.body := by
    rw [hreader, bodyOf, hagree.unique.load hd]
    rfl
  have hstored : Stored a docs e.1.contentHash d.body := ⟨row', e, d, he, rfl, hd, rfl⟩
  rw [hbody, S.stores_iff]
  constructor
  · rintro rfl
    exact hstored
  · exact fun h => hstored.unique hagree h

theorem keyed_of_holds (S : Holds E True a docs t) (hstore : r.store = t.store) : r.Keyed := by
  have hrows : r.store.liveRows = a.table.rows := by
    rw [hstore]
    exact S.repr.pair.db.liveRows
  rw [Resident.Keyed, hrows]
  exact a.table.nodup_rows

/-- The rows of the name that a resident finds. -/
theorem found_iff (S : Holds E True a docs t) (hstore : r.store = t.store)
    (hlexical : r.lexical.reader = t.lexical.reader) :
    (∃ p, (r.freeze.records.filter fun p => p.2.file = file ∧ p.2.symbol = symbol) = [p] ∧
      (bodyOf r.lexical.reader p.1).getD "" = body) ↔ t.Has file symbol body := by
  have hrecords := freeze_records_eq (keyed_of_holds S hstore)
  have hnamed : (r.freeze.records.filter fun p => p.2.file = file ∧ p.2.symbol = symbol).map (·.2) =
      recordsNamed file symbol t.records := by
    rw [hrecords, hstore, List.filter_map, List.map_map, IndexState.records, recordsNamed,
      List.filter_map]
    rfl
  rw [hlexical, IndexState.Has, ← hnamed]
  have hmem : ∀ p, (r.freeze.records.filter fun p => p.2.file = file ∧ p.2.symbol = symbol) = [p] →
      p ∈ t.store.conn.live.map fun c => (c.rowid, c.record) := by
    intro p hp
    have hp := (List.mem_filter.mp (hp ▸ List.mem_singleton_self p)).1
    rw [hrecords, hstore] at hp
    exact hp
  constructor
  · rintro ⟨p, hp, hbody⟩
    exact ⟨p.2, by rw [hp]; rfl, (bodyOf_eq_iff S (hmem p hp)).mp hbody⟩
  · rintro ⟨rec, hrec, hstores⟩
    obtain ⟨p, hp, rfl⟩ := List.map_eq_singleton_iff.mp hrec
    exact ⟨p, hp, (bodyOf_eq_iff S (hmem p hp)).mpr hstores⟩

/-- What a resident answers with a text. -/
theorem getSymbol_eq_ok (S : Holds E True a docs t) (hstore : r.store = t.store)
    (hlexical : r.lexical.reader = t.lexical.reader)
    (hcheck : r.identity.checkStillValid host = .ok ()) :
    (∃ rec, r.getSymbol host file symbol = .ok (symbolResponse rec body)) ↔
      t.Has file symbol body := by
  have hget : r.getSymbol host file symbol = oneSymbol file symbol
      (r.freeze.records.filter fun p => p.2.file = file ∧ p.2.symbol = symbol)
      (bodyOf r.lexical.reader) := by
    rw [Resident.getSymbol, hcheck, resolveSymbol, resolve_found (keyed_of_holds S hstore)]
    rfl
  rw [hget, oneSymbol_eq_ok, found_iff S hstore hlexical]

/-- What its view answers. -/
theorem freeze_getSymbol_eq_ok (S : Holds E True a docs t) (hstore : r.store = t.store)
    (hlexical : r.lexical.reader = t.lexical.reader)
    (hcheck : r.identity.checkStillValid host = .ok ()) :
    (∃ rec, r.freeze.getSymbol R host file symbol = .ok (symbolResponse rec body)) ↔
      t.Has file symbol body := by
  have hkeyed := keyed_of_holds S hstore
  have hget : r.freeze.getSymbol R host file symbol = oneSymbol file symbol
      ((R.mapOrder r.freeze.records).filter fun p => p.2.file = file ∧ p.2.symbol = symbol)
      fun row => r.freeze.bodies.lookup row := by
    have hidentity : r.freeze.identity = r.identity := rfl
    rw [FrozenSearch.getSymbol, hidentity, hcheck]
    rfl
  have hperm := (R.mapOrder_perm r.freeze.records).filter fun p => p.2.file = file ∧
      p.2.symbol = symbol
  rw [hget, oneSymbol_eq_ok, ← found_iff S hstore hlexical]
  refine exists_congr fun p => ?_
  have hone :
      ((R.mapOrder r.freeze.records).filter fun p => p.2.file = file ∧ p.2.symbol = symbol) = [p] ↔
      (r.freeze.records.filter fun p => p.2.file = file ∧ p.2.symbol = symbol) = [p] := by
    rw [← List.perm_singleton, ← List.perm_singleton]
    exact ⟨hperm.symm.trans, hperm.trans⟩
  rw [hone]
  refine and_congr_right fun hp => ?_
  have hmem := (List.mem_filter.mp (hp ▸ List.mem_singleton_self p)).1
  rw [freeze_records_eq hkeyed] at hmem
  obtain ⟨row, hrow, rfl⟩ := List.mem_map.mp hmem
  rw [freeze_bodies (hkeyed.get hrow)]

end

section history

variable {blake3 : List UInt8 → ContentHash} {ts : TreeSitter} {item : WorkItem}
  {c : Construct blake3 ts item} {R : Retrieval} {host : Host} {r : Resident} {ix : Indexer}
  {kind : RunKind} {E : Embedder} {allowed : Stop → Prop} {t u : IndexState}

end history

/-- Behind the run that reads it, every construct of whose name there are only its own rows in the
index is answered with its whole text. -/
def AnswersWhole : Prop :=
  ∀ {blake3 : List UInt8 → ContentHash} {ts : TreeSitter} {item : WorkItem}
    (c : Construct blake3 ts item) {E : Embedder} {allowed : Stop → Prop} {t : IndexState}
    {ix : Indexer} {kind : RunKind} {host : Host} (r : Resident),
    (∀ stop, allowed stop → GoodStop stop) → History E allowed t → ix.embedder = E →
    FreshGeneration t.store ix.pid ix.nanos → (ix.run kind t).result.isOk = true →
    c.ReadBy ix (ix.plan kind t.store.indexedCommit) →
    (∀ rec ∈ (ix.run kind t).state.records, rec.symbol = c.name → ∃ p ∈ c.pieces, p.record = rec) →
    r.store = (ix.run kind t).state.store →
    r.lexical.reader = (ix.run kind t).state.lexical.reader →
    r.identity.checkStillValid host = .ok () →
    ∃ rec, r.getSymbol host item.rel c.name = .ok (symbolResponse rec c.body)

/-! ## A new store with one file -/

section

variable {blake3 : List UInt8 → ContentHash} {ts : TreeSitter} {text : Text}

theorem sourceText_toUTF8 (hzero : '\x00' ∉ text) (hsize : 4 * text.length ≤ maxFileBytes) :
    sourceText (String.ofList text).toUTF8 = some (String.ofList text) := by
  have hbytes : (String.ofList text).toUTF8.toList = utf8Bytes text := toList_toUTF8
  have hlength : (String.ofList text).toUTF8.size = (utf8Bytes text).length := by
    rw [toUTF8_ofList]
    rfl
  have hle : (utf8Bytes text).length ≤ 4 * text.length := length_utf8Bytes_le
  have hhead : 0 ∉ (utf8Bytes text).take headSniffBytes := fun h =>
    zero_not_mem_utf8Bytes hzero (List.mem_of_mem_take h)
  have hsmall : Exclusions.checkSize (String.ofList text).toUTF8.size = none :=
    if_neg (by rw [hlength]; omega)
  have htext :
      Exclusions.checkHead ((String.ofList text).toUTF8.toList.take headSniffBytes) = none :=
    if_neg (by rw [hbytes]; exact hhead)
  rw [sourceText, hsmall, htext, toUTF8_ofList, fromUTF8?_utf8Bytes]
  rfl

def oneItem (text : Text) : WorkItem := ⟨"a.c", .c, String.ofList text⟩

/-- A directory with one file, which `chunk_file` cuts. -/
def oneFile (blake3 : List UInt8 → ContentHash) (ts : TreeSitter) (text : Text) : Indexer :=
  let tree := sampleTree [("a.c", String.ofList text)]
  { sampleIndexer tree (sampleGit "c1" tree []) 1 with chunker := chunkerOf blake3 ts }

theorem walked_oneFile (hzero : '\x00' ∉ text) (hsize : 4 * text.length ≤ maxFileBytes) :
    (oneFile blake3 ts text).walked = [oneItem text] := by
  have hread : (oneFile blake3 ts text).readSource "a.c" = some (String.ofList text) :=
    sourceText_toUTF8 hzero hsize
  have hcheck : ∀ isDir, Exclusions.checkPath ⟨".", fun _ _ => false, none⟩ isDir
      (pathAt "." "a.c") = none := by
    decide +kernel
  have hpath : (oneFile blake3 ts text).checkPath "a.c" = none :=
    hcheck ((oneFile blake3 ts text).dirAsked ((oneFile blake3 ts text).isDir "a.c") "a.c")
  have hjoin : pathJoin "" "a.c" = "a.c" := by decide +kernel
  have hlanguage : Language.fromPath "a.c" = some .c := by decide +kernel
  have hslash : replaceBackslash "a.c" = "a.c" := by decide +kernel
  have hgit : ¬"a.c" = ".git" := by decide
  rw [walked_singleton rfl, visitEntry, if_neg hgit]
  simp only [hjoin, visitFile, hpath, hlanguage, hslash, hread, List.nil_append]
  rfl

theorem oneFile_not_refuses : ¬(oneFile blake3 ts text).Refuses := by
  rintro (⟨e, h⟩ | ⟨h, -⟩ | ⟨e, h⟩)
  · cases h
  · cases h
  · cases h

/-- The run returns if `chunk_file` does. -/
theorem oneFile_isOk (hzero : '\x00' ∉ text) (hsize : 4 * text.length ≤ maxFileBytes)
    (hchunked : (chunkFile blake3 "a.c" .c ts text).isSome = true) :
    ((oneFile blake3 ts text).run .indexAll sampleStart).result.isOk = true := by
  have hparses : (oneFile blake3 ts text).Parses (oneFile blake3 ts text).walked := by
    intro item hitem
    rw [walked_oneFile hzero hsize] at hitem
    obtain rfl := List.mem_singleton.mp hitem
    have hsome :
        ((chunkFile blake3 "a.c" .c ts (String.ofList text).toList).map (·.toFileChunks)).isSome =
        true := by
      rwa [Option.isSome_map, String.toList_ofList]
    exact hsome
  exact indexAll_fresh_isOk (records_freshState rfl sampleStore_created) sampleStart_fresh
    ⟨rfl, rfl⟩ oneFile_not_refuses hparses

/-- The one symbol of the file. -/
theorem Construct.readBy_oneFile (c : Construct blake3 ts (oneItem text)) (hzero : '\x00' ∉ text)
    (hsize : 4 * text.length ≤ maxFileBytes) (hname : c.hit.name ≠ preludeSymbol)
    (hhits : c.hits = [c.hit]) :
    c.ReadBy (oneFile blake3 ts text) ⟨[], (oneFile blake3 ts text).walked⟩ where
  follows := follows_chunkerOf blake3 ts
  mem := by
    rw [walked_oneFile hzero hsize]
    exact List.mem_singleton_self _
  only item' hitem' _ := by
    rw [walked_oneFile hzero hsize] at hitem'
    exact List.mem_singleton.mp hitem'
  named := hname
  unique hit hhit _ := by
    rw [hhits] at hhit
    exact List.mem_singleton.mp hhit

/-- The daemon behind the run. -/
def oneResident (blake3 : List UInt8 → ContentHash) (ts : TreeSitter) (text : Text) : Resident :=
  { sampleResident with
    store := ((oneFile blake3 ts text).run .indexAll sampleStart).state.store
    lexical := ((oneFile blake3 ts text).run .indexAll sampleStart).state.lexical }

theorem oneResident_valid :
    (oneResident blake3 ts text).identity.checkStillValid sampleHost = .ok () := by
  show sampleResident.identity.checkStillValid sampleHost = .ok ()
  decide +kernel

end

/-! ## A function of two calls -/

/-- A C function of two calls, each with a number of `n` digits. -/
def callsSource (n : Nat) : Text :=
  "int f(void) \x7b\n    g(".toList ++ List.replicate n '0' ++ ");\n    g(".toList ++
    List.replicate n '0' ++ ");\n\x7d".toList

def callsRoot (n : Nat) : SyntaxNode :=
  .plain "translation_unit" 0 (33 + 2 * n) [.plain "function_definition" 0 (33 + 2 * n) [
    .plain "primitive_type" 0 3 [],
    .plain "function_declarator" 4 11 [.plain "identifier" 4 5 [], .plain "parameter_list" 5 11 []],
    .plain "compound_statement" 12 (33 + 2 * n) [.plain "expression_statement" 18 (22 + n) [],
      .plain "expression_statement" (27 + n) (31 + 2 * n) []]]]

def callsCaptures : List (List CapturePath) := [[⟨"def", [0], []⟩, ⟨"name", [0, 1, 0], []⟩]]

def shortCalls : SyntaxTree (callsSource 1) where
  root := callsRoot 1
  spans := SyntaxNode.forall_within_iff.mpr (by decide +kernel)

def longCalls : SyntaxTree (callsSource 1100) where
  root := callsRoot 1100
  spans := SyntaxNode.forall_within_iff.mpr (by decide +kernel)

def callsHit (n : Nat) : SymbolHit where
  kind := "function"
  name := ['f']
  range := ⟨0, 33 + 2 * n⟩
  nodeRange := ⟨0, 33 + 2 * n⟩
  startLine := 1
  endLine := 4
  docFirstLine := none
  isContainer := false

/-- The bytes as a number. -/
def sampleHash (bytes : List UInt8) : ContentHash :=
  ⟨BitVec.ofNat 256 (bytes.foldl (fun n b => 256 * n + b.toNat) 0)⟩

/-- What the parser and the chunker make of the function. -/
structure CallsChunked (n : Nat) (tree : SyntaxTree (callsSource n)) (file : ChunkedFile) :
    Prop where
  chunked : chunkFile sampleHash "a.c" .c (tree.parser callsCaptures) (callsSource n) = some file
  clean : tooManyErrors tree.root = false
  collected : collectSymbols (tree.parser callsCaptures) .c tree = some [callsHit n]
  whole : (callsHit n).range.slice? (callsSource n) = some (callsSource n)

section

variable {n : Nat} {tree : SyntaxTree (callsSource n)} {file : ChunkedFile}

def CallsChunked.construct (h : CallsChunked n tree file) :
    Construct sampleHash (tree.parser callsCaptures) (oneItem (callsSource n)) where
  source := callsSource n
  file
  tree
  hits := [callsHit n]
  hit := callsHit n
  text := callsSource n
  reads := String.toList_ofList
  chunked := h.chunked
  language := rfl
  parsed := dif_pos rfl
  clean := h.clean
  collected := h.collected
  mem := List.mem_singleton_self _
  plain := rfl
  whole := h.whole

/-- A function that is not split is taken up as one piece. -/
theorem CallsChunked.whole_construct (h : CallsChunked n tree file) (hzero : '\x00' ∉ callsSource n)
    (hsize : 4 * (callsSource n).length ≤ maxFileBytes)
    (hshort : (callsSource n).length ≤ oversizeCharThreshold)
    (hprelude : filePrelude (callsSource n) (coveredRanges (callsSource n) [callsHit n]) =
      some none)
    (hbody : bodyOfHit (callsSource n) [callsHit n] (callsHit n) = some (callsSource n))
    (hsome : (chunksOfHit sampleHash "a.c" .c (tree.parser callsCaptures) tree [callsHit n]
      (callsHit n)).join.isSome = true) :
    h.construct.Whole (oneFile sampleHash (tree.parser callsCaptures) (callsSource n))
      ⟨[], (oneFile sampleHash (tree.parser callsCaptures) (callsSource n)).walked⟩
        sampleStart := by
  have horder : orderWithContainers [callsHit n] = [callsHit n] := rfl
  have hparse : (tree.parser callsCaptures).parse .c (callsSource n) = some tree := dif_pos rfl
  obtain ⟨hits, parts, prelude, hhits, hparts, hnone, hchunks⟩ :=
    chunkFile_spec rfl hparse h.clean h.chunked
  obtain rfl := Option.some.inj (h.collected.symm.trans hhits)
  rw [horder] at hparts hnone
  obtain ⟨chunks, hof⟩ := Option.isSome_iff_exists.mp hsome
  have hof := Option.join_eq_some_iff.mp hof
  obtain ⟨body, signature, hbody', -, hsplit⟩ := fragments_of_chunksOfHit hof
  obtain rfl := Option.some.inj (hbody.symm.trans hbody')
  rw [splitIfOversize, if_pos hshort, Option.some_inj] at hsplit
  obtain ⟨f, rfl, hf⟩ := List.map_eq_singleton_iff.mp hsplit.symm
  have hfile : file.chunks = [f] := by
    rw [List.mapM_cons, hof] at hparts
    rw [preludeChunk, hprelude] at hnone
    obtain rfl := Option.some.inj hparts
    obtain rfl := Option.some.inj hnone
    exact hchunks
  have hpieces : h.construct.pieces = [f.toChunk] := by
    show ((chunksOfHit sampleHash "a.c" .c (tree.parser callsCaptures) tree
      (orderWithContainers [callsHit n]) (callsHit n)).join.getD []).map (·.toChunk) = _
    rw [horder, hof]
    rfl
  have hdelivered : (oneFile sampleHash (tree.parser callsCaptures) (callsSource n)).chunks
      (oneItem (callsSource n)) = some [f.toChunk] := by
    have hfollows : (oneFile sampleHash (tree.parser callsCaptures) (callsSource n)).chunker.Follows
      sampleHash (tree.parser callsCaptures) := follows_chunkerOf _ _
    have hne : file.chunks ≠ [] := hfile ▸ List.cons_ne_nil _ _
    rw [hfollows.chunks_eq (h.construct.reads.symm ▸ h.chunked) hne, hfile]
    rfl
  have htakes : (oneFile sampleHash (tree.parser callsCaptures) (callsSource n)).takes
      ⟨[], (oneFile sampleHash (tree.parser callsCaptures) (callsSource n)).walked⟩
        sampleStart.records =
        [f.toChunk] := by
    have hchunks : (oneFile sampleHash (tree.parser callsCaptures) (callsSource n)).chunksOf
        (oneFile sampleHash (tree.parser callsCaptures) (callsSource n)).walked = [f.toChunk] := by
      rw [walked_oneFile hzero hsize, chunksOf, List.flatMap_singleton, hdelivered]
      rfl
    show taken [] (chunksOf _ (Indexer.walked _)) = _
    rw [hchunks]
    rfl
  refine .new f.toChunk rfl (hpieces ▸ List.mem_singleton_self _) (fun p hp => ?_) ?_
  · rw [htakes, List.mem_singleton]
  · rw [← String.ofList_toList (s := f.body), hf]
    rfl

/-- Fragments that are shorter than the function are not the function. -/
theorem CallsChunked.pieces_ne (h : CallsChunked n tree file) {signature : Text}
    (hbody : bodyOfHit (callsSource n) [callsHit n] (callsHit n) = some (callsSource n))
    (hsignature : firstSignatureLine (callsSource n) (callsHit n).nodeRange = some signature)
    (hshort : (splitIfOversize (tree.parser callsCaptures) .c tree (callsHit n)
      (callsSource n) signature).all (·.all (·.length < (callsSource n).length)) = true) :
    ∀ p ∈ h.construct.pieces, p.body ≠ h.construct.body := by
  intro p hp heq
  obtain ⟨chunks, hchunks, f, hf, rfl⟩ := Construct.exists_of_mem_pieces hp
  obtain ⟨body, signature', hbody', hsignature', hsplit⟩ := fragments_of_chunksOfHit hchunks
  obtain rfl := Option.some.inj (hbody.symm.trans hbody')
  obtain rfl := Option.some.inj (hsignature.symm.trans hsignature')
  have hsplit : splitIfOversize (tree.parser callsCaptures) .c tree (callsHit n)
      (callsSource n) signature =
    some (chunks.map (·.body.toList)) := hsplit
  rw [hsplit, Option.all_some, List.all_eq_true] at hshort
  have hlength := of_decide_eq_true (hshort f.body.toList (List.mem_map_of_mem hf))
  have hsame : f.body.toList = callsSource n :=
    (congrArg String.toList heq).trans String.toList_ofList
  rw [hsame] at hlength
  exact Nat.lt_irrefl _ hlength

theorem CallsChunked.not_answersWhole (h : CallsChunked n tree file)
    (hzero : '\x00' ∉ callsSource n) (hsize : 4 * (callsSource n).length ≤ maxFileBytes)
    (hpieces : ∀ p ∈ h.construct.pieces, p.body ≠ h.construct.body) : ¬AnswersWhole := by
  intro hall
  have hname : ['f'] ≠ preludeSymbol := by decide +kernel
  have hread := h.construct.readBy_oneFile hzero hsize hname rfl
  have hgood : ∀ stop, False → GoodStop stop := fun _ h => h.elim
  have hs : History sampleEmbedder (fun _ => False) sampleStart := sampleStart_history
  have hok : ((oneFile sampleHash (tree.parser callsCaptures) (callsSource n)).run .indexAll
    sampleStart).result.isOk = true := oneFile_isOk hzero hsize (Option.isSome_of_eq_some h.chunked)
  obtain ⟨a, docs, S⟩ := (hs.returned _ .indexAll rfl sampleStart_fresh hok).holds_good hgood
  have hown :
      ∀ rec ∈ ((oneFile sampleHash (tree.parser callsCaptures) (callsSource n)).run .indexAll
      sampleStart).state.records, rec.symbol = h.construct.name →
        ∃ p ∈ h.construct.pieces, p.record = rec := by
    intro rec hrec hsymbol
    rw [(hs.run_records rfl sampleStart_fresh hok).1] at hrec
    obtain ⟨d, hd, rfl⟩ := List.mem_map.mp hrec
    have hd := takes_subset hd
    rw [plan_indexAll] at hd
    obtain ⟨item, hitem, cs, hcs, hdcs⟩ := mem_chunksOf.mp hd
    have hfile := (yields_of_mem (.inl hitem) hcs hdcs).1
    rw [walked_oneFile hzero hsize] at hitem
    obtain rfl := List.mem_singleton.mp hitem
    exact ⟨d, hread.mem_pieces (fun _ hitem' => .inl hitem') hd hfile hsymbol, rfl⟩
  have hanswer :=
    hall h.construct (oneResident sampleHash (tree.parser callsCaptures) (callsSource n))
    hgood hs rfl sampleStart_fresh hok hread hown rfl rfl (@oneResident_valid _ _ _)
  have hwhole := (hread.run_has hs hgood rfl sampleStart_fresh hok).mp
    ((getSymbol_eq_ok S rfl rfl oneResident_valid).mp hanswer)
  exact Construct.not_whole_of_split rfl hpieces hwhole

end

theorem exists_shortCalls : ∃ file, CallsChunked 1 shortCalls file := by
  have hfile :
      (chunkFile sampleHash "a.c" .c (shortCalls.parser callsCaptures) (callsSource 1)).isSome =
      true := by
    decide +kernel
  obtain ⟨file, hfile⟩ := Option.isSome_iff_exists.mp hfile
  exact ⟨file, hfile, by decide +kernel, by decide +kernel, by decide +kernel⟩

theorem exists_longCalls : ∃ file, CallsChunked 1100 longCalls file := by
  have hfile :
      (chunkFile sampleHash "a.c" .c (longCalls.parser callsCaptures) (callsSource 1100)).isSome =
      true := by
    decide +kernel
  obtain ⟨file, hfile⟩ := Option.isSome_iff_exists.mp hfile
  exact ⟨file, hfile, by decide +kernel, by decide +kernel, by decide +kernel⟩

end SiftMcp
