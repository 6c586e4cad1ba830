import SiftMcp.Eval.Reports
import SiftMcp.Indexing.Constructs
import SiftMcp.Indexing.Coverage
import SiftMcp.Lib.Utf8Bytes

/-!
# Touched symbols

A symbol is touched if the difference of the two texts inserts a line among those of the symbol in
the new text (`touched_iff_inserted`). A line that is only deleted touches nothing.
-/

namespace SiftMcp
open Text

/-! ## Changed lines -/

section

variable {changes : List LineChange} {i n : Nat} {c : LineChange} {value : Text}

/-- The changes that have a line of the new text. -/
def newSide (changes : List LineChange) : List LineChange := changes.filter (·.tag ≠ .delete)

/-- The changes that have a line of the old text. -/
def oldSide (changes : List LineChange) : List LineChange := changes.filter (·.tag ≠ .insert)

theorem foldl_turn {acc : List Nat} : (changes.foldl newSideChangedLines.turn (acc, n)).1 =
    acc ++ ((newSide changes).zipIdx n).filterMap fun p => if p.1.tag = .insert then some (p.2 + 1)
      else none := by
  induction changes generalizing acc n with
  | nil => exact (List.append_nil acc).symm
  | cons c changes ih =>
    obtain ⟨tag, value⟩ := c
    cases tag with
    | delete => exact ih
    | equal => exact ih
    | insert =>
      refine (@ih (n + 1) (acc ++ [n + 1])).trans ?_
      rw [List.append_assoc]
      rfl

/-- The changed lines are the inserted ones, by their numbers in the new text. -/
theorem mem_newSideChangedLines : n ∈ newSideChangedLines changes ↔
    ∃ i value, (newSide changes)[i]? = some ⟨.insert, value⟩ ∧ n = i + 1 := by
  rw [newSideChangedLines, foldl_turn, List.nil_append, List.mem_filterMap]
  constructor
  · intro h
    obtain ⟨⟨⟨tag, value⟩, i⟩, hmem, heq⟩ := h
    dsimp only at heq
    split at heq
    · next htag =>
      refine ⟨i, value, ?_, (Option.some.inj heq).symm⟩
      rw [List.mk_mem_zipIdx_iff_getElem?.mp hmem, htag]
    · cases heq
  · intro h
    obtain ⟨i, value, hi, rfl⟩ := h
    exact ⟨(⟨.insert, value⟩, i), List.mk_mem_zipIdx_iff_getElem?.mpr hi, rfl⟩

/-- A line of the new text that is no line of the old one is inserted. -/
theorem inserted_of_not_mem (hi : (newSide changes)[i]? = some c)
    (hold : c.value ∉ (oldSide changes).map (·.value)) : c.tag = .insert := by
  by_contra hne
  obtain ⟨hmem, -⟩ := List.mem_filter.mp (List.mem_of_getElem? hi)
  exact hold (List.mem_map.mpr ⟨c, List.mem_filter.mpr ⟨hmem, decide_eq_true hne⟩, rfl⟩)

end

/-! ## Touched symbols -/

section

variable {Tree : Type} {repo : MinedRepo Tree} {blake3 : List UInt8 → ContentHash} {ts : TreeSitter}
  {oldTree : Option Tree} {newTree : Tree} {lines : List Nat} {touched touched' : Pairs}
  {chunks : List FragmentChunk} {path : String} {x : String × String}

/-- The chunk is that of a symbol, and one of the lines is its own. -/
structure Reaches (lines : List Nat) (c : FragmentChunk) (x : String × String) : Prop where
  symbol : c.record.symbol ≠ String.ofList preludeSymbol
  line : ∃ l ∈ lines, c.record.lineStart ≤ l ∧ l ≤ c.record.lineEnd
  named : x = (c.record.file, c.record.symbol)

theorem mem_touchChunk {c : FragmentChunk} : x ∈ touchChunk lines touched c ↔ x ∈ touched ∨
    Reaches lines c x := by
  unfold touchChunk
  split
  · next h => exact (or_iff_left fun hx => hx.symbol h).symm
  · next hsymbol =>
    split
    · next h =>
      obtain ⟨l, hl, hline⟩ := List.any_eq_true.mp h
      rw [List.mem_insert_iff, or_comm]
      exact or_congr_right
        ⟨fun hx => ⟨hsymbol, ⟨l, hl, of_decide_eq_true hline⟩, hx⟩, Reaches.named⟩
    · next h =>
      refine (or_iff_left fun hx => h ?_).symm
      obtain ⟨l, hl, hline⟩ := hx.line
      exact List.any_eq_true.mpr ⟨l, hl, decide_eq_true hline⟩

theorem mem_foldl_touchChunk :
    x ∈ chunks.foldl (touchChunk lines) touched ↔ x ∈ touched ∨
      ∃ c ∈ chunks, Reaches lines c x := by
  induction chunks generalizing touched with
  | nil => simp
  | cons c chunks ih => rw [List.foldl_cons, ih, mem_touchChunk, List.exists_mem_cons_iff, or_assoc]

/-- At this path of the new tree is a file with a chunk that a changed line reaches. -/
structure TouchedAt (repo : MinedRepo Tree) (blake3 : List UInt8 → ContentHash) (ts : TreeSitter)
    (oldTree : Option Tree) (newTree : Tree) (path : String) (x : String × String) (lang : Language)
    (oldText newText : Text) (file : ChunkedFile) : Prop where
  language : Language.fromPath path = some lang
  after : blobAtTree repo newTree path = .ok (some newText)
  before : oldTextAt repo oldTree path = .ok oldText
  chunked : chunkFile blake3 path lang ts newText = some file
  reached : ∃ c ∈ file.chunks, Reaches (changedLines repo oldText newText) c x

theorem chunkFileOr_eq_ok {lang : Language} {text : Text} {file : ChunkedFile} :
    chunkFileOr blake3 ts path lang text = .ok file ↔
      chunkFile blake3 path lang ts text = some file := by
  unfold chunkFileOr
  cases chunkFile blake3 path lang ts text with
  | none => exact iff_of_false (fun h => by cases h) fun h => by cases h
  | some file' =>
    exact ⟨fun h => congrArg some (Except.ok.inj h), fun h =>
      congrArg Except.ok (Option.some.inj h)⟩

theorem mem_touchPath (h : touchPath repo blake3 ts oldTree newTree touched path = .ok touched') :
    x ∈ touched' ↔ x ∈ touched ∨ ∃ lang oldText newText file,
      TouchedAt repo blake3 ts oldTree newTree path x lang oldText newText file := by
  unfold touchPath at h
  cases hlang : Language.fromPath path with
  | none =>
    rw [hlang] at h
    cases h
    refine (or_iff_left fun hx => ?_).symm
    obtain ⟨lang, _, _, _, hx⟩ := hx
    cases hlang.symm.trans hx.language
  | some lang =>
    rw [hlang] at h
    obtain ⟨blob, hblob, h⟩ := Except.bind_eq_ok.mp h
    cases blob with
    | none =>
      cases h
      refine (or_iff_left fun hx => ?_).symm
      obtain ⟨_, _, _, _, hx⟩ := hx
      cases hblob.symm.trans hx.after
    | some newText =>
      obtain ⟨oldText, hold, h⟩ := Except.bind_eq_ok.mp h
      dsimp only at h
      split at h
      · next hnone =>
        cases h
        refine (or_iff_left fun hx => ?_).symm
        obtain ⟨_, oldText', newText', _, hx⟩ := hx
        obtain rfl := Option.some.inj (Except.ok.inj (hblob.symm.trans hx.after))
        obtain rfl := Except.ok.inj (hold.symm.trans hx.before)
        obtain ⟨c, -, hreach⟩ := hx.reached
        obtain ⟨l, hl, -⟩ := hreach.line
        rw [hnone] at hl
        exact List.not_mem_nil hl
      · obtain ⟨file, hfile, h⟩ := Except.bind_eq_ok.mp h
        cases h
        rw [mem_foldl_touchChunk]
        have hchunk := chunkFileOr_eq_ok.mp hfile
        refine or_congr_right
          ⟨fun hx => ⟨lang, oldText, newText, file, hlang, hblob, hold, hchunk, hx⟩, ?_⟩
        intro hx
        obtain ⟨lang', oldText', newText', file', hx⟩ := hx
        obtain rfl := Option.some.inj (hlang.symm.trans hx.language)
        obtain rfl := Option.some.inj (Except.ok.inj (hblob.symm.trans hx.after))
        obtain rfl := Except.ok.inj (hold.symm.trans hx.before)
        obtain rfl := Option.some.inj (hchunk.symm.trans hx.chunked)
        exact hx.reached

theorem mem_foldlM_touchPath {paths : List String}
    (h : paths.foldlM (touchPath repo blake3 ts oldTree newTree) touched = .ok touched') :
    x ∈ touched' ↔ x ∈ touched ∨ ∃ path ∈ paths, ∃ lang oldText newText file,
      TouchedAt repo blake3 ts oldTree newTree path x lang oldText newText file := by
  induction paths generalizing touched with
  | nil =>
    cases h
    simp
  | cons path paths ih =>
    rw [List.foldlM_cons] at h
    obtain ⟨next, hnext, h⟩ := Except.bind_eq_ok.mp h
    rw [ih h, mem_touchPath hnext, List.exists_mem_cons_iff, or_assoc]

theorem mem_changedPaths {changes : List ChangeDetached} {paths : List String}
    (hdiff : repo.diffTreeToTree oldTree newTree = .ok changes)
    (h : changedPaths repo oldTree newTree = .ok paths) :
    path ∈ paths ↔ ∃ change ∈ changes, locationToString (changeLocation change) = some path := by
  rw [changedPaths, gitCall, hdiff] at h
  obtain rfl := Except.ok.inj h
  rw [List.mem_dedup, List.mem_mergeSort, List.mem_filterMap]

/-- A path that is listed has no backslash left. -/
theorem replaceBackslash_of_location {location : List UInt8}
    (h : locationToString location = some path) : replaceBackslash path = path := by
  unfold locationToString at h
  split at h
  · cases h
  · split at h
    · cases h
    · rw [← Option.some.inj h]
      exact replaceBackslash_idem _

theorem TouchedAt.file_eq {lang : Language} {oldText newText : Text} {file : ChunkedFile}
    (h : TouchedAt repo blake3 ts oldTree newTree path x lang oldText newText file) :
    x.1 = replaceBackslash path := by
  obtain ⟨c, hc, hreach⟩ := h.reached
  obtain ⟨name, hname⟩ := chunkFile_records h.chunked hc
  rw [hreach.named]
  exact hname.file

/-- A commit with one parent and a file of both, of which the trees differ in. -/
structure EditedFile (repo : MinedRepo Tree) (commit parent : Commit Tree) (old new : Tree)
    (path : String) (lang : Language) (oldText newText : Text) : Prop where
  oneParent : commit.parentIds = [parent.id]
  parentTree : parent.tree = .ok old
  commitTree : commit.tree = .ok new
  supported : Language.fromPath path = some lang
  before : blobAtTree repo old path = .ok (some oldText)
  after : blobAtTree repo new path = .ok (some newText)
  named : path ≠ ""
  listed : ∃ changes, repo.diffTreeToTree (some old) new = .ok changes ∧
    ∃ change ∈ changes, changeLocation change = utf8Bytes path.toList

variable {commit parent : Commit Tree} {old new : Tree} {lang : Language} {oldText newText : Text}
  {file : ChunkedFile} {symbol : String}

theorem EditedFile.mem_touched
    (he : EditedFile repo commit parent old new path lang oldText newText)
    (h : touchedSymbols repo blake3 ts commit (some parent) = .ok touched) :
    (replaceBackslash path, symbol) ∈ touched ↔ ∃ lang oldText newText file,
      TouchedAt repo blake3 ts (some old) new (replaceBackslash path)
        (replaceBackslash path, symbol) lang oldText newText file := by
  obtain ⟨changes, hdiff, hlisted⟩ := he.listed
  rw [touchedSymbols, gitCall, he.commitTree] at h
  obtain ⟨_, hnew, h⟩ := Except.bind_eq_ok.mp h
  obtain rfl := Except.ok.inj hnew
  obtain ⟨oldTree, hold, h⟩ := Except.bind_eq_ok.mp h
  have hold' : (some parent).mapM (fun p => gitCall p.tree) = Except.ok (some old) := by
    rw [Option.mapM_some, gitCall, he.parentTree]
    rfl
  obtain rfl := Except.ok.inj (hold'.symm.trans hold)
  obtain ⟨paths, hpaths, h⟩ := Except.bind_eq_ok.mp h
  obtain ⟨found, hfound, h⟩ := Except.bind_eq_ok.mp h
  obtain rfl := Except.ok.inj h
  rw [List.mem_mergeSort, mem_foldlM_touchPath hfound, or_iff_right List.not_mem_nil]
  constructor
  · intro hx
    obtain ⟨q, hq, lang, oldText, newText, file, hx⟩ := hx
    obtain ⟨change, -, hlocation⟩ := (mem_changedPaths hdiff hpaths).mp hq
    have hfile := hx.file_eq
    rw [replaceBackslash_of_location hlocation] at hfile
    obtain rfl : replaceBackslash path = q := hfile
    exact ⟨lang, oldText, newText, file, hx⟩
  · intro hx
    obtain ⟨change, hchange, hbytes⟩ := hlisted
    refine ⟨_, (mem_changedPaths hdiff hpaths).mpr ⟨change, hchange, ?_⟩, hx⟩
    rw [locationToString, decodeUtf8, hbytes, fromUTF8?_utf8Bytes, String.ofList_toList]
    exact if_neg he.named

/-- Where the path has no backslash, it is inserted lines of the file itself that touch its
symbols. -/
theorem EditedFile.touchedAt_iff
    (he : EditedFile repo commit parent old new path lang oldText newText)
    (hpath : '\\' ∉ path.toList) (hne : oldText ≠ [])
    (hfile : chunkFile blake3 path lang ts newText = some file) :
    (∃ lang oldText newText file, TouchedAt repo blake3 ts (some old) new (replaceBackslash path)
      (replaceBackslash path, symbol) lang oldText newText file) ↔
    symbol ≠ String.ofList preludeSymbol ∧ ∃ c ∈ file.chunks, c.record.symbol = symbol ∧
      ∃ i value, (newSide (repo.diffLines oldText newText))[i]? = some ⟨.insert, value⟩ ∧
        c.record.lineStart ≤ i + 1 ∧ i + 1 ≤ c.record.lineEnd := by
  have hslash := replaceBackslash_of_not_mem hpath
  have hbefore : oldTextAt repo (some old) path = .ok oldText := by
    rw [oldTextAt, he.before]
    rfl
  rw [hslash]
  constructor
  · intro hx
    obtain ⟨lang', oldText', newText', file', hx⟩ := hx
    obtain rfl := Option.some.inj (he.supported.symm.trans hx.language)
    obtain rfl := Option.some.inj (Except.ok.inj (he.after.symm.trans hx.after))
    obtain rfl := Except.ok.inj (hbefore.symm.trans hx.before)
    obtain rfl := Option.some.inj (hfile.symm.trans hx.chunked)
    obtain ⟨c, hc, hreach⟩ := hx.reached
    obtain ⟨l, hl, hstart, hend⟩ := hreach.line
    rw [changedLines, if_neg hne] at hl
    obtain ⟨i, value, hi, rfl⟩ := mem_newSideChangedLines.mp hl
    have hsymbol : symbol = c.record.symbol := congrArg Prod.snd hreach.named
    exact ⟨hsymbol ▸ hreach.symbol, c, hc, hsymbol.symm, i, value, hi, hstart, hend⟩
  · intro hx
    obtain ⟨hsymbol, c, hc, rfl, i, value, hi, hstart, hend⟩ := hx
    obtain ⟨name, hname⟩ := chunkFile_records hfile hc
    refine ⟨lang, oldText, newText, file, he.supported, he.after, hbefore, hfile, c, hc,
      hsymbol, ?_, ?_⟩
    · refine ⟨i + 1, ?_, hstart, hend⟩
      rw [changedLines, if_neg hne]
      exact mem_newSideChangedLines.mpr ⟨i, value, hi, rfl⟩
    · rw [hname.file, hslash]

/-- A symbol of an edited file is reported exactly if the difference of the two texts that are found
inserts a line of it. So it is where the path has no backslash and the symbol has a line that the
old text has not. -/
theorem touched_iff_inserted (he : EditedFile repo commit parent old new path lang oldText newText)
    (h : touchedSymbols repo blake3 ts commit (some parent) = .ok touched) (symbol : String) :
    ((replaceBackslash path, symbol) ∈ touched ↔ ∃ lang oldText newText file,
      TouchedAt repo blake3 ts (some old) new (replaceBackslash path)
        (replaceBackslash path, symbol) lang oldText newText file) ∧
    ∀ file, '\\' ∉ path.toList → oldText ≠ [] → chunkFile blake3 path lang ts newText = some file →
      symbol ≠ String.ofList preludeSymbol →
      ((replaceBackslash path, symbol) ∈ touched ↔ ∃ c ∈ file.chunks, c.record.symbol = symbol ∧
        ∃ i value, (newSide (repo.diffLines oldText newText))[i]? = some ⟨.insert, value⟩ ∧
          c.record.lineStart ≤ i + 1 ∧ i + 1 ≤ c.record.lineEnd) ∧
      ((∃ c ∈ file.chunks, c.record.symbol = symbol ∧ ∃ i change,
        (newSide (repo.diffLines oldText newText))[i]? = some change ∧ c.record.lineStart ≤ i + 1 ∧
          i + 1 ≤ c.record.lineEnd ∧
            change.value ∉ (oldSide (repo.diffLines oldText newText)).map (·.value)) →
        (replaceBackslash path, symbol) ∈ touched) := by
  refine ⟨he.mem_touched h, fun file hpath hne hfile hsymbol => ?_⟩
  have hiff : (replaceBackslash path, symbol) ∈ touched ↔ _ :=
    (he.mem_touched h).trans (he.touchedAt_iff hpath hne hfile)
  rw [and_iff_right hsymbol] at hiff
  refine ⟨hiff, fun hx => hiff.mpr ?_⟩
  obtain ⟨c, hc, hname, i, change, hi, hstart, hend, hold⟩ := hx
  have htag := inserted_of_not_mem hi hold
  obtain ⟨tag, value⟩ := change
  obtain rfl : tag = .insert := htag
  exact ⟨c, hc, hname, i, value, hi, hstart, hend⟩

end

/-! ## A deleted line -/

/-- The symbol is that of one construct of the text, which reads `full`. -/
def OccursOnce (ts : TreeSitter) (lang : Language) (source : Text) (symbol : String) (full : Text) :
    Prop :=
  ∃ (tree : SyntaxTree source) (hits : List SymbolHit) (hit : SymbolHit), ts.parse lang source =
    some tree ∧ collectSymbols ts lang tree = some hits ∧
    hits.filter (fun h => h.name = symbol.toList) = [hit] ∧
    hit.range.slice? source = some full

/-- Without the lines that are deleted and with those that are inserted, one text is the other. -/
def DiffsCorrectly (diffLines : Text → Text → List LineChange) : Prop :=
  ∀ old new, (oldSide (diffLines old new)).flatMap (·.value) = old ∧
    (newSide (diffLines old new)).flatMap (·.value) = new

/-- A Python function that calls another first. -/
def callingSource : Text := "def f():\n    g()\n    return 1".toList

def callingTree : SyntaxTree callingSource where
  root := .plain "module" 0 29 [.plain "function_definition" 0 29 [.plain "identifier" 4 5 [],
    .plain "block" 13 29
      [.plain "expression_statement" 13 16 [], .plain "return_statement" 21 29 []]]]
  spans := SyntaxNode.forall_within_iff.mpr (by decide +kernel)

/-- The function without the call. -/
def returningSource : Text := "def f():\n    return 1".toList

def returningTree : SyntaxTree returningSource where
  root := .plain "module" 0 21 [.plain "function_definition" 0 21 [.plain "identifier" 4 5 [],
    .plain "block" 13 21 [.plain "return_statement" 13 21 []]]]
  spans := SyntaxNode.forall_within_iff.mpr (by decide +kernel)

/-- A parser that knows both versions. -/
def versionsParser : TreeSitter :=
  { callingTree.parser [[⟨"def", [0], []⟩, ⟨"name", [0, 0], []⟩]] with
    parse := fun _ s =>
      if h : callingSource = s then some (h ▸ callingTree)
      else if h : returningSource = s then some (h ▸ returningTree)
      else none }

/-- A history of two commits: the second deletes the call. -/
def deletingRepo : MinedRepo Bool where
  opened := .ok ()
  headCommit := .ok "b"
  headId := .ok "b"
  revWalk _ := .ok [.ok "b", .ok "a"]
  commit id :=
    .ok (if id = "b" then ⟨"b", ["a"], .ok [], .ok true⟩ else ⟨"a", [], .ok [], .ok false⟩)
  diffTreeToTree _ _ := .ok [.modification (utf8Bytes "a.py".toList) .blob .blob]
  lookupEntryByPath tree _ := .ok (some ⟨.blob, if tree then "new" else "old"⟩)
  findObject oid := .ok (utf8Bytes (if oid = "new" then returningSource else callingSource))
  diffLines old new :=
    if old = callingSource ∧ new = returningSource then
      [⟨.equal, "def f():\n".toList⟩, ⟨.delete, "    g()\n".toList⟩,
        ⟨.equal, "    return 1".toList⟩]
    else [⟨.delete, old⟩, ⟨.insert, new⟩]
  maintenanceRegex _ := .ok fun _ => false

def deletingCommit : Commit Bool := ⟨"b", ["a"], .ok [], .ok true⟩

def callingCommit : Commit Bool := ⟨"a", [], .ok [], .ok false⟩

theorem deletingRepo_diffsCorrectly : DiffsCorrectly deletingRepo.diffLines := by
  intro old new
  by_cases h : old = callingSource ∧ new = returningSource
  · obtain ⟨rfl, rfl⟩ := h
    decide +kernel
  · have hdiff : deletingRepo.diffLines old new = [⟨.delete, old⟩, ⟨.insert, new⟩] := if_neg h
    rw [hdiff]
    simp [oldSide, newSide]

theorem blobAtTree_deletingRepo (tree : Bool) : blobAtTree deletingRepo tree "a.py" =
    .ok (some (if tree then returningSource else callingSource)) := by
  have hdecode : ∀ t : Text, (decodeUtf8 (utf8Bytes t)).map (·.toList) = some t := by
    intro t
    rw [decodeUtf8, fromUTF8?_utf8Bytes, Option.map_some, String.toList_ofList]
  cases tree with
  | true => exact congrArg Except.ok (hdecode returningSource)
  | false => exact congrArg Except.ok (hdecode callingSource)

theorem deletingRepo_edits :
    EditedFile deletingRepo deletingCommit callingCommit false true "a.py" .python
    callingSource returningSource where
  oneParent := rfl
  parentTree := rfl
  commitTree := rfl
  supported := by decide
  before := blobAtTree_deletingRepo false
  after := blobAtTree_deletingRepo true
  named := by decide
  listed := ⟨_, rfl, _, List.mem_singleton_self _, rfl⟩

theorem touchedSymbols_deletingRepo (blake3 : List UInt8 → ContentHash) :
    touchedSymbols deletingRepo blake3 versionsParser deletingCommit (some callingCommit) =
      .ok [] := by
  have hlocation : locationToString (utf8Bytes "a.py".toList) = some "a.py" := by
    rw [locationToString, decodeUtf8, fromUTF8?_utf8Bytes, String.ofList_toList]
    decide
  have hpaths : changedPaths deletingRepo (some false) true = .ok ["a.py"] := by
    have hmap : [ChangeDetached.modification (utf8Bytes "a.py".toList) .blob .blob].filterMap
        (fun change => locationToString (changeLocation change)) = ["a.py"] := by
      have hfirst : locationToString (changeLocation
          (.modification (utf8Bytes "a.py".toList) .blob .blob)) = some "a.py" := hlocation
      rw [List.filterMap_cons, hfirst]
      rfl
    show Except.ok ((List.mergeSort (List.filterMap _ _) _).dedup) = _
    rw [hmap, List.mergeSort_singleton]
    rfl
  have hchanged : changedLines deletingRepo callingSource returningSource = [] := by decide +kernel
  have htouch : touchPath deletingRepo blake3 versionsParser (some false) true [] "a.py" =
      .ok [] := by
    have hlang : Language.fromPath "a.py" = some .python := by decide
    rw [touchPath, hlang]
    dsimp only
    rw [blobAtTree_deletingRepo, oldTextAt, blobAtTree_deletingRepo]
    show (if changedLines deletingRepo callingSource returningSource = [] then Except.ok [] else do
      let file ← chunkFileOr blake3 versionsParser "a.py" .python returningSource
      pure (file.chunks.foldl (touchChunk (changedLines deletingRepo callingSource returningSource))
        [])) = _
    exact if_pos hchanged
  have hfold : ["a.py"].foldlM (touchPath deletingRepo blake3 versionsParser (some false) true) [] =
      Except.ok [] := by
    rw [List.foldlM_cons, htouch]
    rfl
  have hrun : touchedSymbols deletingRepo blake3 versionsParser deletingCommit
      (some callingCommit) =
      (changedPaths deletingRepo (some false) true).bind fun paths =>
        (paths.foldlM (touchPath deletingRepo blake3 versionsParser (some false) true) []).bind
          fun touched =>
          .ok (touched.mergeSort pairLe) := rfl
  rw [hrun, hpaths]
  exact (congrArg (fun e => Except.bind e fun touched => Except.ok (touched.mergeSort pairLe))
    hfold).trans (congrArg Except.ok List.mergeSort_nil)

theorem touched_iff_inserted_deleting : ¬∃ lang oldText newText file,
    TouchedAt deletingRepo (fun _ => ⟨0⟩) versionsParser (some false) true (replaceBackslash "a.py")
      (replaceBackslash "a.py", "f") lang oldText newText file := fun h =>
  List.not_mem_nil
    ((touched_iff_inserted deletingRepo_edits (touchedSymbols_deletingRepo fun _ => ⟨0⟩) "f").1.mpr
    h)

/-- The function, as a symbol of either version. -/
def versionHit (stop endLine : Nat) : SymbolHit where
  kind := "function"
  name := ['f']
  range := ⟨0, stop⟩
  nodeRange := ⟨0, stop⟩
  startLine := 1
  endLine := endLine
  docFirstLine := none
  isContainer := false

/-- The function that has lost the call is not reported. -/
theorem deletion_not_touched :
    ¬∀ (Tree : Type) (repo : MinedRepo Tree) (blake3 : List UInt8 → ContentHash)
    (ts : TreeSitter) (commit parent : Commit Tree) (old new : Tree) (path : String)
    (lang : Language) (oldText newText : Text) (symbol : String) (before after : Text)
    (touched : Pairs),
    EditedFile repo commit parent old new path lang oldText newText →
    DiffsCorrectly repo.diffLines →
    OccursOnce ts lang oldText symbol before → OccursOnce ts lang newText symbol after →
    before ≠ after →
    touchedSymbols repo blake3 ts commit (some parent) = .ok touched →
    (replaceBackslash path, symbol) ∈ touched := by
  intro h
  have hold : OccursOnce versionsParser .python callingSource "f" callingSource :=
    ⟨callingTree, [versionHit 29 3], versionHit 29 3, rfl, by decide +kernel, rfl, by
      decide +kernel⟩
  have hnew : OccursOnce versionsParser .python returningSource "f" returningSource :=
    ⟨returningTree, [versionHit 21 2], versionHit 21 2, rfl, by decide +kernel, rfl, by
      decide +kernel⟩
  have htouched :=
    h Bool deletingRepo (fun _ => ⟨0⟩) versionsParser deletingCommit callingCommit false true "a.py"
    .python callingSource returningSource "f" callingSource returningSource [] deletingRepo_edits
    deletingRepo_diffsCorrectly hold hnew (by decide) (touchedSymbols_deletingRepo _)
  exact List.not_mem_nil htouched


end SiftMcp
