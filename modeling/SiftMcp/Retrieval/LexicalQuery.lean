import SiftMcp.Retrieval.LexicalSearch
import SiftMcp.Retrieval.Tokenize
import Mathlib.Data.Rat.Defs

/-!
# Queries of the lexical index

What a document is stored as, what a query is parsed to, and which documents a search lists for it.
tantivy is given by what it does with a parsed query: its segments have the documents that match,
under scores of its own.

`lexical_ranks_meeting` says which documents these are, and which spellings of a name are met.
-/

namespace SiftMcp
open Text

/-! ## Documents -/

/-- The fields of the schema. -/
inductive LexicalField
  | row | symbol | signature | doc | file | body
deriving DecidableEq

inductive FieldValue
  | u64 (n : Nat)
  | str (text : String)
deriving DecidableEq

def FieldValue.asStr : FieldValue → Option String
  | str text => some text
  | u64 _ => none

/-- The values of a document, in the order in which they have been added. -/
abbrev TantivyDocument := List (LexicalField × FieldValue)

namespace TantivyDocument

def getFirst (document : TantivyDocument) (field : LexicalField) : Option FieldValue :=
  document.lookup field

/-- The column of the rows. -/
def rowId (document : TantivyDocument) : RowId :=
  match document.getFirst .row with
  | some (.u64 n) => n
  | _ => 0

end TantivyDocument

def toDocument (row : RowId) (doc : LexicalDoc) : TantivyDocument :=
  [(.row, .u64 row), (.symbol, .str doc.symbol), (.signature, .str doc.signature)] ++
    (doc.docFirstLine.map fun line => (LexicalField.doc, FieldValue.str line)).toList ++
    [(.file, .str doc.file), (.body, .str doc.body)]

def TantivyDocument.lexicalDoc (document : TantivyDocument) : Option LexicalDoc := do
  return {
    symbol := ← (← document.getFirst .symbol).asStr
    signature := ← (← document.getFirst .signature).asStr
    docFirstLine := (document.getFirst .doc).bind FieldValue.asStr
    file := ← (← document.getFirst .file).asStr
    body := ← (← document.getFirst .body).asStr }

@[simp] theorem rowId_toDocument {row : RowId} {doc : LexicalDoc} :
    (toDocument row doc).rowId = row := rfl

/-- What is stored of a document is all of it. -/
@[simp] theorem lexicalDoc_toDocument {row : RowId} {doc : LexicalDoc} :
    (toDocument row doc).lexicalDoc = some doc := by
  obtain ⟨symbol, signature, line, file, body⟩ := doc
  cases line with
  | none | some line => rfl

/-! ## Queries -/

/-- BM25 boost applied to symbol-name matches. -/
def symbolBoost : ℚ := 4

/-- BM25 boost applied to signature matches. -/
def signatureBoost : ℚ := 3

/-- BM25 boost applied to documentation matches. -/
def docBoost : ℚ := 2

/-- BM25 boost applied to body matches. -/
def bodyBoost : ℚ := 1

/-- BM25 boost applied to file-path matches. -/
def fileBoost : ℚ := 1 / 2

def fieldBoosts : List (LexicalField × ℚ) :=
  [(.symbol, symbolBoost), (.signature, signatureBoost), (.doc, docBoost), (.body, bodyBoost),
    (.file, fileBoost)]

/-- `Occur::Should`, and a term of a field with the boost of it. -/
structure Clause where
  field : LexicalField
  term : Text
  boost : ℚ

def pushToken (terms : List Text) (token : Token) : List Text :=
  if terms.any fun term => term == token.text then terms else terms ++ [token.text]

/-- Every term under every field; there is nothing to search for if there are no terms. -/
def clausesOf (terms : List Text) : Option (List Clause) :=
  if terms.isEmpty then none
  else some (terms.flatMap fun term => fieldBoosts.map fun p => ⟨p.1, term, p.2⟩)

def buildQuery (query : String) : Option (Option (List Clause)) := do
  let tokens ← tokenStream query.toList
  return clausesOf (tokens.foldl pushToken [])

/-! ## Matches -/

/-- The terms under which a text is indexed. -/
def termsOf (text : String) : List Text :=
  ((tokenStream text.toList).getD []).map fun token => token.text

/-- The document has the term of the clause under its field. -/
def Clause.matches (clause : Clause) (document : TantivyDocument) : Bool :=
  document.any fun p => decide (p.1 = clause.field) &&
    (p.2.asStr.any fun text => (termsOf text).contains clause.term)

def matchesAny (clauses : List Clause) (document : TantivyDocument) : Bool :=
  clauses.any fun clause => clause.matches document

/-- tantivy, as a search calls it: its collector, the segments that a parsed query sees of the
documents, and the order in which what they give is merged. -/
structure Tantivy (σ : Type) where
  computer : TopNComputer σ
  segments : List TantivyDocument → List Clause → List (Segment σ)
  merge : List (Fruit σ) → List (Fruit σ)

/-- Alternatives match the documents that match one of them. -/
structure Tantivy.Lawful {σ : Type} [LinearOrder σ] (X : Tantivy σ) : Prop where
  computer : X.computer.Lawful
  merge (fruits : List (Fruit σ)) : (X.merge fruits).Perm fruits
  segments (documents : List TantivyDocument) (clauses : List Clause) :
    ∃ (score : TantivyDocument → σ) (parts : List (List (ScoredRow σ))),
      List.Forall₂ Segment.Holds (X.segments documents clauses) parts ∧
      parts.flatten.Perm ((documents.filter (matchesAny clauses)).map fun d => ⟨d.rowId, score d⟩)

/-- The documents as they are stored. -/
def stored (docs : List (RowId × LexicalDoc)) : List TantivyDocument :=
  docs.map fun p => toDocument p.1 p.2

/-- The search, of a reader that sees the documents. -/
def LexicalSearchHandle.searchText {σ : Type} (X : Tantivy σ) (docs : List (RowId × LexicalDoc))
    (query : String) (limit : Nat) : Option (Except RetrievalError (List (ScoredRow σ))) :=
  if limit = 0 then some (.ok [])
  else do
    let parsed ← buildQuery query
    return search X.computer X.merge
      (parsed.map fun clauses => X.segments (stored docs) clauses) limit

/-! ## What is met -/

def LexicalDoc.texts (d : LexicalDoc) : List String :=
  [d.symbol, d.signature] ++ d.docFirstLine.toList ++ [d.file, d.body]

/-- Some text of the document has a term of the query. -/
def LexicalDoc.meets (query : String) (d : LexicalDoc) : Bool :=
  d.texts.any fun text => (termsOf query).any fun term => (termsOf text).contains term

section

variable {terms : List Text} {tokens : List Token} {x : Text} {text query : String} {row : RowId}
  {doc : LexicalDoc} {clauses : List Clause} {docs : List (RowId × LexicalDoc)} {words : List Text}
  {spelled : Text}

theorem mem_foldl_pushToken :
    x ∈ tokens.foldl pushToken terms ↔ x ∈ terms ∨ x ∈ tokens.map fun token => token.text := by
  induction tokens generalizing terms with
  | nil => simp
  | cons token tokens ih =>
    have hstep : x ∈ pushToken terms token ↔ x ∈ terms ∨ x = token.text := by
      unfold pushToken
      split
      · next h =>
        obtain ⟨term, hterm, heq⟩ := List.any_eq_true.mp h
        refine ⟨.inl, fun hx => hx.elim id fun hx => ?_⟩
        rw [hx, ← eq_of_beq heq]
        exact hterm
      · rw [List.mem_append, List.mem_singleton]
    rw [List.foldl_cons, ih, hstep, List.map_cons, List.mem_cons, or_assoc]

theorem mem_termsOf : x ∈ termsOf text ↔ Emits text.toList x := by
  obtain ⟨tokens, htokens, -, -⟩ := tokenStream_spans text.toList
  rw [termsOf, htokens, Option.getD_some, List.mem_map]
  constructor
  · exact fun h => ⟨tokens, htokens, h⟩
  · rintro ⟨tokens', htokens', h⟩
    rwa [Option.some.inj (htokens.symm.trans htokens')]

theorem clausesOf_eq : match clausesOf terms with
    | none => terms = []
    | some clauses => ∀ field term,
      (∃ clause ∈ clauses, clause.field = field ∧ clause.term = term) ↔ field ≠ .row ∧
        term ∈ terms := by
  by_cases hempty : terms.isEmpty
  · rw [clausesOf, if_pos hempty]
    exact List.isEmpty_iff.mp hempty
  rw [clausesOf, if_neg hempty]
  intro field term
  simp only [List.mem_flatMap, List.mem_map]
  constructor
  · rintro ⟨_, ⟨x, hx, ⟨f, boost⟩, hboost, rfl⟩, rfl, rfl⟩
    refine ⟨?_, hx⟩
    rintro rfl
    simp [fieldBoosts] at hboost
  · rintro ⟨hfield, hterm⟩
    have hboost : ∃ p ∈ fieldBoosts, p.1 = field := by
      cases field with
      | row => exact absurd rfl hfield
      | symbol | signature | doc | file | body => simp [fieldBoosts]
    obtain ⟨p, hp, rfl⟩ := hboost
    exact ⟨_, ⟨term, hterm, p, hp, rfl⟩, rfl, rfl⟩

theorem filterMap_asStr : (toDocument row doc).filterMap (fun p => p.2.asStr) = doc.texts := by
  obtain ⟨symbol, signature, line, file, body⟩ := doc
  cases line with
  | none | some line => rfl

theorem ne_row_of_mem {p : LexicalField × FieldValue} (hp : p ∈ toDocument row doc)
    (h : p.2.asStr = some text) : p.1 ≠ .row := by
  have hall : ∀ p ∈ toDocument row doc, p.1 = .row → p.2.asStr = none := by
    obtain ⟨symbol, signature, line, file, body⟩ := doc
    cases line with
    | none | some line => simp [toDocument, FieldValue.asStr]
  intro hrow
  rw [hall p hp hrow] at h
  cases h

/-- The texts of a document are what it has under the fields of text. -/
theorem mem_texts : text ∈ doc.texts ↔
    ∃ p ∈ toDocument row doc, p.1 ≠ .row ∧ p.2.asStr = some text := by
  rw [← filterMap_asStr, List.mem_filterMap]
  refine exists_congr fun p => and_congr_right fun hp => ?_
  exact ⟨fun h => ⟨ne_row_of_mem hp h, h⟩, And.right⟩

/-- The clauses of a query match a document if it meets the query. -/
theorem matchesAny_toDocument
    (h : ∀ field term, (∃ clause ∈ clauses, clause.field = field ∧ clause.term = term) ↔
    field ≠ .row ∧ term ∈ termsOf query) : matchesAny clauses (toDocument row doc) =
      doc.meets query := by
  apply Bool.eq_iff_iff.mpr
  simp only [matchesAny, Clause.matches, LexicalDoc.meets, List.any_eq_true, Bool.and_eq_true,
    decide_eq_true_eq, Option.any_eq_true, List.contains_iff_mem]
  constructor
  · rintro ⟨clause, hclause, p, hp, hfield, text, htext, hterm⟩
    obtain ⟨hrow, hquery⟩ := (h _ _).mp ⟨clause, hclause, rfl, rfl⟩
    exact ⟨text, mem_texts.mpr ⟨p, hp, hfield ▸ hrow, htext⟩, clause.term, hquery, hterm⟩
  · rintro ⟨text, htext, term, hquery, hterm⟩
    obtain ⟨p, hp, hrow, hvalue⟩ := mem_texts.mp htext
    obtain ⟨clause, hclause, hfield, rfl⟩ := (h _ _).mpr ⟨hrow, hquery⟩
    exact ⟨clause, hclause, p, hp, hfield.symm, text, hvalue, hterm⟩

/-- The documents that match are those that meet the query. -/
theorem map_filter_stored
    (h : ∀ field term, (∃ clause ∈ clauses, clause.field = field ∧ clause.term = term) ↔
    field ≠ .row ∧ term ∈ termsOf query) : ((stored docs).filter (matchesAny clauses)).map
      (fun d => d.rowId) =
      (docs.filter fun p => p.2.meets query).map (·.1) := by
  rw [stored, List.filter_map, List.map_map]
  have hmeets : docs.filter (matchesAny clauses ∘ fun p => toDocument p.1 p.2) =
      docs.filter fun p => p.2.meets query :=
    List.filter_congr fun p _ => matchesAny_toDocument h
  rw [hmeets]
  rfl

/-- A name in one of its spellings. -/
def Spells (words : List Text) (t : Text) : Prop :=
  t = camelCase words ∨ t = snakeCase words ∨ t = spaceSeparated words

theorem Spells.emits (h : Spells words spelled) (hne : words ≠ []) (hwords : ∀ w ∈ words, IsWord w)
    (hjoined : joined words = words) (hx : x ∈ words) : Emits spelled x := by
  rcases h with rfl | rfl | rfl
  · exact (emits_camelCase hne hwords).mpr (.inl (hjoined.symm ▸ hx))
  · exact (emits_snakeCase hne hwords).mpr (.inl hx)
  · exact (emits_spaceSeparated hne hwords).mpr hx

/-- Whatever the spelling is that a document has of a name, it meets every other. -/
theorem LexicalDoc.meets_of_spells (hne : words ≠ []) (hwords : ∀ w ∈ words, IsWord w)
    (hjoined : joined words = words) (hquery : Spells words query.toList) (htext : text ∈ doc.texts)
    (hspells : Spells words text.toList) : doc.meets query = true := by
  obtain ⟨w, ws, rfl⟩ := List.exists_cons_of_ne_nil hne
  apply List.any_eq_true.mpr
  refine ⟨text, htext, List.any_eq_true.mpr ⟨w, ?_, List.contains_iff_mem.mpr ?_⟩⟩
  · exact mem_termsOf.mpr (hquery.emits hne hwords hjoined List.mem_cons_self)
  · exact mem_termsOf.mpr (hspells.emits hne hwords hjoined List.mem_cons_self)

variable {σ : Type} [LinearOrder σ] {X : Tantivy σ}

namespace LexicalSearchHandle

/-- For a query, documents are ranked once and for all: those that meet it, and no others. -/
theorem searchText_eq (hX : X.Lawful) (docs : List (RowId × LexicalDoc)) (query : String) :
    ∃ ranked : List (ScoredRow σ),
      (ranked.Pairwise fun a b => b.score < a.score ∨ a.score = b.score ∧ a.row ≤ b.row) ∧
      (ranked.map (·.row)).Perm ((docs.filter fun p => p.2.meets query).map (·.1)) ∧
      ∀ limit, searchText X docs query limit = some (.ok (ranked.take limit)) := by
  obtain ⟨tokens, htokens, -, -⟩ := tokenStream_spans query.toList
  have hterms : ∀ x, x ∈ tokens.foldl pushToken [] ↔ x ∈ termsOf query := by
    intro x
    rw [mem_foldl_pushToken, termsOf, htokens, Option.getD_some]
    exact or_iff_right List.not_mem_nil
  have hquery : buildQuery query = some (clausesOf (tokens.foldl pushToken [])) := by
    rw [buildQuery, htokens]
    rfl
  -- What the search does with what the query is parsed to.
  have hsearch : ∀ limit, searchText X docs query limit =
      some (search X.computer X.merge ((clausesOf (tokens.foldl pushToken [])).map fun clauses =>
        X.segments (stored docs) clauses) limit) := by
    intro limit
    rw [searchText, hquery]
    split
    · next hlimit =>
      rw [search.eq_def, if_pos hlimit]
    · rfl
  have hclauses := @clausesOf_eq (tokens.foldl pushToken [])
  cases h : clausesOf (tokens.foldl pushToken []) with
  | none =>
    rw [h] at hclauses hsearch
    have hnone : ∀ p ∈ docs, ¬(p.2.meets query = true) := by
      intro p _ hp
      obtain ⟨text, -, htext⟩ := List.any_eq_true.mp hp
      obtain ⟨term, hterm, -⟩ := List.any_eq_true.mp htext
      rw [← hterms, hclauses] at hterm
      exact List.not_mem_nil hterm
    refine ⟨[], .nil, ?_, fun limit => ?_⟩
    · rw [List.filter_eq_nil_iff.mpr hnone]
      exact .refl _
    · rw [hsearch, Option.map_none, search, List.take_nil]
      split
      · rfl
      · rfl
  | some clauses =>
    rw [h] at hclauses hsearch
    obtain ⟨score, parts, hholds, hperm⟩ := hX.segments (stored docs) clauses
    have hranks := @ranks_sortRows _ _ (((stored docs).filter (matchesAny clauses)).map fun d =>
      (⟨d.rowId, score d⟩ : ScoredRow σ))
    refine ⟨_, hranks.ordered, ?_, fun limit => ?_⟩
    · have hrows := hranks.perm.map (·.row)
      rw [List.map_map] at hrows
      refine hrows.trans (.of_eq ?_)
      refine map_filter_stored fun field term => ?_
      rw [hclauses, hterms]
    · rw [hsearch]
      exact congrArg some (search_eq hX.computer hholds hperm hX.merge)

end LexicalSearchHandle

/-- A search ranks the documents that have a term of the query, and no others, and lists the first
of them; among them are those with a name that the query spells in another way. -/
theorem lexical_ranks_meeting (hX : X.Lawful) (docs : List (RowId × LexicalDoc)) (query : String) :
    ∃ ranked : List (ScoredRow σ),
      (ranked.Pairwise fun a b => b.score < a.score ∨ a.score = b.score ∧ a.row ≤ b.row) ∧
      (ranked.map (·.row)).Perm ((docs.filter fun p => p.2.meets query).map (·.1)) ∧
      (∀ limit, LexicalSearchHandle.searchText X docs query limit =
        some (.ok (ranked.take limit))) ∧
      ∀ words, words ≠ [] → (∀ w ∈ words, IsWord w) → joined words = words →
        Spells words query.toList →
        ∀ p ∈ docs, ∀ text ∈ p.2.texts, Spells words text.toList → p.1 ∈ ranked.map (·.row) := by
  obtain ⟨ranked, hordered, hperm, hsearch⟩ := LexicalSearchHandle.searchText_eq hX docs query
  refine ⟨ranked, hordered, hperm, hsearch,
    fun words hne hwords hjoined hquery p hp text htext hspells => ?_⟩
  apply hperm.mem_iff.mpr
  have hmeets := LexicalDoc.meets_of_spells hne hwords hjoined hquery htext hspells
  exact List.mem_map_of_mem (List.mem_filter.mpr ⟨hp, hmeets⟩)

end

/-! ## A sample index -/

/-- One segment, of documents that are all alike in score. -/
def oneSegment (σ : Type) [LinearOrder σ] (score : σ) : Tantivy σ where
  computer := sortingTop σ
  segments documents clauses :=
    [⟨.ok fun i => (documents[i]?.map fun d => d.rowId).getD 0,
      (documents.zipIdx.filter fun p => matchesAny clauses p.1).map fun p => (p.2, score)⟩]
  merge fruits := fruits

theorem oneSegment_lawful {σ : Type} [LinearOrder σ] {score : σ} : (oneSegment σ score).Lawful where
  computer := sortingTop_lawful
  merge _ := .refl _
  segments documents clauses := by
    refine ⟨fun _ => score, [(documents.filter (matchesAny clauses)).map fun d => ⟨d.rowId, score⟩],
      .cons ⟨_, rfl, ?_⟩ .nil, ?_⟩
    · have hfst : (documents.zipIdx.filter fun p => matchesAny clauses p.1).map (·.1) =
          documents.filter (matchesAny clauses) := by
        have h := @List.filter_map _ _ (fun p : TantivyDocument × Nat => p.1)
            (matchesAny clauses) documents.zipIdx
        rw [List.zipIdx_map_fst] at h
        exact h.symm
      rw [← hfst, List.map_map, List.map_map]
      refine List.map_congr_left fun p hp => ?_
      have hplace := List.mem_zipIdx_iff_getElem?.mp (List.mem_of_mem_filter hp)
      show (⟨(documents[p.2]?.map fun d => d.rowId).getD 0, score⟩ : ScoredRow σ) =
          ⟨p.1.rowId, score⟩
      rw [hplace]
      rfl
    · rw [List.flatten_singleton]

def namedDoc (symbol : String) : LexicalDoc := ⟨symbol, "", none, "", ""⟩

/-- A name in camel case is found by its words. -/
theorem lexical_ranks_meeting_named : ∃ ranked : List (ScoredRow Int), 5 ∈ ranked.map (·.row) ∧
    ∀ limit, LexicalSearchHandle.searchText (oneSegment Int 0)
      [(5, namedDoc "readBom"), (7, namedDoc "write")] "read bom" limit =
        some (.ok (ranked.take limit)) := by
  have hlawful : (oneSegment Int 0).Lawful := oneSegment_lawful
  obtain ⟨ranked, -, -, hsearch, hspells⟩ := lexical_ranks_meeting hlawful
    [(5, namedDoc "readBom"), (7, namedDoc "write")] "read bom"
  have hwords : ∀ w ∈ ["read".toList, "bom".toList], IsWord w := by
    intro w hw
    simp only [List.mem_cons, List.not_mem_nil, or_false] at hw
    rcases hw with rfl | rfl
    · exact ⟨'r', "ead".toList, rfl, rfl, List.cons_ne_nil _ _, plain_of_all rfl⟩
    · exact ⟨'b', "om".toList, rfl, rfl, List.cons_ne_nil _ _, plain_of_all rfl⟩
  refine ⟨ranked, hspells _ (List.cons_ne_nil _ _) hwords rfl (.inr (.inr rfl)) _ List.mem_cons_self
    "readBom" List.mem_cons_self (.inl rfl), hsearch⟩

end SiftMcp
