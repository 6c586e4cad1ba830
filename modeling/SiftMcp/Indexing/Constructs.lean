import SiftMcp.Indexing.Prelude

/-!
# Chunks of a construct

Each chunk of a file is recorded under the file and under one name, with the hash of its own text:
the chunks of a symbol under the symbol's, and that of the prelude under the prelude's.
-/

namespace SiftMcp
open Text

section

variable {blake3 : List UInt8 → ContentHash} {relPath : String} {language : Language}
  {ts : TreeSitter} {source : Text} {tree : SyntaxTree source} {ordered : List SymbolHit}
  {hit : SymbolHit}

/-- What the record says of a chunk besides its place. -/
structure RecordedAs (blake3 : List UInt8 → ContentHash) (relPath : String) (language : Language)
    (name : Text) (c : Chunk) : Prop where
  file : c.record.file = replaceBackslash relPath
  symbol : c.record.symbol = String.ofList name
  contentHash : c.record.contentHash = contentHash blake3 language name c.body.toList

theorem chunksOfHit_records {chunks : List FragmentChunk}
    (h : chunksOfHit blake3 relPath language ts tree ordered hit = some (some chunks)) :
    ∀ c ∈ chunks, RecordedAs blake3 relPath language hit.name c.toChunk := by
  obtain ⟨body, -, h⟩ := Option.bind_eq_some_iff.mp h
  split at h
  · cases h
  · obtain ⟨signature, -, h⟩ := Option.bind_eq_some_iff.mp h
    obtain ⟨fragments, -, h⟩ := Option.bind_eq_some_iff.mp h
    obtain rfl := Option.some.inj (Option.some.inj h)
    intro c hc
    obtain ⟨i, hi, rfl⟩ := List.mem_mapIdx.mp hc
    exact ⟨rfl, rfl, congrArg (contentHash blake3 language hit.name) String.toList_ofList.symm⟩

theorem preludeChunk_records {covered : List ByteRange} {chunks : List FragmentChunk}
    (h : preludeChunk blake3 relPath language source covered = some chunks) :
    ∀ c ∈ chunks, RecordedAs blake3 relPath language preludeSymbol c.toChunk := by
  obtain ⟨prelude, -, h⟩ := Option.bind_eq_some_iff.mp h
  cases prelude with
  | none =>
    obtain rfl := Option.some.inj h
    exact fun c hc => absurd hc List.not_mem_nil
  | some prelude =>
    obtain ⟨⟨startLine, endLine⟩, -, h⟩ := Option.bind_eq_some_iff.mp h
    obtain rfl := Option.some.inj h
    intro c hc
    obtain rfl := List.mem_singleton.mp hc
    exact ⟨rfl, rfl, congrArg (contentHash blake3 language preludeSymbol) String.toList_ofList.symm⟩

/-- Every chunk of a file is recorded under it. -/
theorem chunkFile_records {file : ChunkedFile} {c : FragmentChunk}
    (h : chunkFile blake3 relPath language ts source = some file) (hc : c ∈ file.chunks) :
    ∃ name, RecordedAs blake3 relPath language name c.toChunk := by
  have hnone : ∀ diagnostics, some (⟨[], diagnostics⟩ : ChunkedFile) = some file → False := by
    intro diagnostics heq
    obtain rfl := Option.some.inj heq
    exact List.not_mem_nil hc
  cases hlang : ts.setLanguage language with
  | false =>
    rw [chunkFile, hlang] at h
    exact (hnone _ h).elim
  | true =>
    cases hparse : ts.parse language source with
    | none =>
      rw [chunkFile, hlang, hparse] at h
      exact (hnone _ h).elim
    | some tree =>
      cases herr : tooManyErrors tree.root with
      | true =>
        rw [chunkFile, hlang, hparse] at h
        simp only [Bool.not_true, Bool.false_eq_true, if_false, herr, if_true] at h
        exact (hnone _ h).elim
      | false =>
        obtain ⟨hits, parts, prelude, -, hparts, hprelude, hchunks⟩ :=
          chunkFile_spec hlang hparse herr h
        rw [hchunks, List.mem_append] at hc
        rcases hc with hc | hc
        · exact ⟨_, preludeChunk_records hprelude c hc⟩
        · obtain ⟨hit, -, chunks, hof, hmem⟩ := exists_of_mem_parts hparts hc
          exact ⟨_, chunksOfHit_records hof c hmem⟩

end

end SiftMcp
