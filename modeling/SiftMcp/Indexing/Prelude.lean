import SiftMcp.Indexing.Members

/-!
# Text outside the symbols

The stretches of a file that no chunk of a symbol covers. The prelude is the one at the start of the
file; the others are in no chunk.

Where there is nothing of substance in the others, a file keeps all its top-level text
(`keepsTopLevel_of_onlyPrelude`).
-/

namespace SiftMcp
open Text StackSearch
open String (utf8Len)

/-- A maximal stretch of the text that is not covered, with what stands before and behind it. -/
structure Uncovered (source : Text) (covered : List ByteRange) (before x after : Text) : Prop where
  text : before ++ x ++ after = source
  free : ∀ b, utf8Len before ≤ b → b < utf8Len (before ++ x) → ∀ r ∈ covered, ¬r.Holds b
  left : ∀ p c, before = p ++ [c] → ∃ r ∈ covered, r.Holds (utf8Len p)
  right : ∀ c s, after = c :: s → ∃ r ∈ covered, r.Holds (utf8Len (before ++ x))

/-- As long as a prelude has to be. -/
def Substantial (x : Text) : Prop := filePreludeMinChars ≤ (trim x).length

instance {x : Text} : Decidable (Substantial x) := inferInstanceAs (Decidable (_ ≤ _))

/-- Every substantial stretch outside the symbols is in a chunk. -/
def KeepsTopLevel (source : Text) (covered : List ByteRange) (chunks : List FragmentChunk) : Prop :=
  ∀ before x after, Uncovered source covered before x after → Substantial x →
    ∃ chunk ∈ chunks, trim x <:+: chunk.body.toList

/-- Nothing substantial stands between the symbols or behind them. -/
def OnlyPrelude (source : Text) (covered : List ByteRange) : Prop :=
  ∀ before x after, Uncovered source covered before x after → Substantial x → before = []

/-- A substantial stretch behind a symbol has a character that is nowhere else in the file. -/
def LosesCharacter (source : Text) (covered : List ByteRange) : Prop :=
  ∃ before x after, Uncovered source covered before x after ∧ Substantial x ∧ before ≠ [] ∧
    ∃ c ∈ trim x, isWhitespace c = false ∧ c ∉ before ∧ c ∉ after

variable {source body signature before x after text : Text} {tree : SyntaxTree source}
  {ts : TreeSitter} {language : Language} {hits ordered : List SymbolHit} {hit : SymbolHit}
  {covered : List ByteRange} {blake3 : List UInt8 → ContentHash} {relPath : String}
  {chunks : List FragmentChunk} {r : ByteRange}

theorem length_le_utf8Len_of_substantial (h : Substantial x) : filePreludeMinChars ≤ utf8Len x := by
  obtain ⟨a, b, -, -, hab⟩ := @exists_trim x
  have hlen := congrArg List.length hab
  simp only [List.length_append] at hlen
  have := @length_le_utf8Len x
  unfold Substantial at h
  omega

/-! ## The chunks of a file -/

/-- What a file that is not turned away is chunked into. -/
theorem chunkFile_spec {file : ChunkedFile} (hlang : ts.setLanguage language = true)
    (hparse : ts.parse language source = some tree) (herr : tooManyErrors tree.root = false)
    (hfile : chunkFile blake3 relPath language ts source = some file) :
    ∃ hits parts prelude, collectSymbols ts language tree = some hits ∧
      (orderWithContainers hits).mapM
        (chunksOfHit blake3 relPath language ts tree (orderWithContainers hits)) = some parts ∧
      preludeChunk blake3 relPath language source
        (coveredRanges source (orderWithContainers hits)) =
        some prelude ∧
      file.chunks = prelude ++ parts.flatMap (·.getD []) := by
  unfold chunkFile at hfile
  rw [hlang, hparse] at hfile
  simp only [Bool.not_true, Bool.false_eq_true, if_false, herr] at hfile
  obtain ⟨hits, hhits, hfile⟩ := Option.bind_eq_some_iff.mp hfile
  obtain ⟨parts, hparts, hfile⟩ := Option.bind_eq_some_iff.mp hfile
  obtain ⟨prelude, hprelude, hfile⟩ := Option.bind_eq_some_iff.mp hfile
  rw [covered_eq hparts] at hprelude
  obtain rfl := Option.some.inj hfile
  exact ⟨hits, parts, prelude, hhits, hparts, hprelude, rfl⟩

theorem exists_of_mem_parts {parts : List (Option (List FragmentChunk))} {chunk : FragmentChunk}
    (hparts : ordered.mapM (chunksOfHit blake3 relPath language ts tree ordered) = some parts)
    (h : chunk ∈ parts.flatMap (·.getD [])) : ∃ hit ∈ ordered, ∃ chunks,
      chunksOfHit blake3 relPath language ts tree ordered hit = some (some chunks) ∧
        chunk ∈ chunks := by
  obtain ⟨part, hpart, hchunk⟩ := List.mem_flatMap.mp h
  obtain ⟨hit, hhit, heq⟩ := OptionList.exists_of_mem_mapM hparts hpart
  cases part with
  | none => cases hchunk
  | some chunks => exact ⟨hit, hhit, chunks, heq, hchunk⟩

/-! ## The prelude -/

/-- A symbol that has chunks spans a piece of the text. -/
theorem coveredRanges_spec (hsound : ∀ h ∈ ordered, SymbolHit.Sound source h)
    (h : r ∈ coveredRanges source ordered) : r.start < r.stop ∧ r.stop ≤ utf8Len source := by
  obtain ⟨hit, hhit, rfl⟩ := List.mem_map.mp h
  obtain ⟨hmem, hbody⟩ := List.mem_filter.mp hhit
  rw [Option.any_eq_true] at hbody
  obtain ⟨body, hbody, hne⟩ := hbody
  refine ⟨?_, (hsound hit hmem).stop.le⟩
  by_contra hle
  have hsub := bodyOfHit_subset hsound hmem hbody
  rw [keepAt_none fun b _ _ => decide_eq_false (by unfold ByteRange.Holds; omega)] at hsub
  rw [List.subset_nil.mp hsub] at hne
  cases hne

theorem start_le_of_insertionSort {first : ByteRange} {rest : List ByteRange}
    (hsort : (covered.insertionSort fun p q => p.start ≤ q.start) = first :: rest) :
    ∀ r ∈ covered, first.start ≤ r.start := by
  intro r hr
  have hsorted := List.pairwise_insertionSort (fun p q : ByteRange => p.start ≤ q.start) covered
  rw [← List.mem_insertionSort fun p q : ByteRange => p.start ≤ q.start, hsort] at hr
  rw [hsort] at hsorted
  rcases List.mem_cons.mp hr with rfl | hr
  · exact Nat.le_refl _
  · exact (List.pairwise_cons.mp hsorted).1 r hr

/-- The stretch at the start of the file is what the prelude is made of. -/
theorem preludeSpan_of_uncovered
    (hcovered : ∀ r ∈ covered, r.start < r.stop ∧ r.stop ≤ utf8Len source)
    (h : Uncovered source covered [] x after) (hx : Substantial x) :
    preludeSpan source covered = some ⟨0, utf8Len x⟩ := by
  have hne : x ≠ [] := by
    rintro rfl
    revert hx
    decide
  have htext : x ++ after = source := h.text
  unfold preludeSpan
  cases hsort : covered.insertionSort fun p q => p.start ≤ q.start with
  | nil =>
    have hnil : covered = [] := by
      have := List.length_insertionSort (fun p q : ByteRange => p.start ≤ q.start) covered
      rw [hsort] at this
      exact List.length_eq_zero_iff.mp this.symm
    have hafter : after = [] := by
      cases after with
      | nil => rfl
      | cons c s =>
        obtain ⟨r, hr, -⟩ := h.right c s rfl
        rw [hnil] at hr
        cases hr
    rw [hafter, List.append_nil] at htext
    subst htext
    have htrim : trim x ≠ [] := by
      intro hnil
      rw [Substantial, hnil] at hx
      revert hx
      decide
    exact if_neg htrim
  | cons first rest =>
    have hmem : first ∈ covered := by
      rw [← List.mem_insertionSort fun p q : ByteRange => p.start ≤ q.start, hsort]
      exact List.mem_cons_self
    have hpos : 0 < utf8Len x := by
      have := @utf8Len_lt_of_ne_nil [] x hne
      simpa using this
    -- The first symbol begins where the stretch ends.
    have hge : utf8Len x ≤ first.start := by
      by_contra hlt
      exact h.free first.start (Nat.zero_le _) (by simpa using hlt) first hmem
        ⟨Nat.le_refl _, (hcovered first hmem).1⟩
    have hle : first.start ≤ utf8Len x := by
      cases after with
      | nil =>
        rw [List.append_nil] at htext
        subst htext
        exact Nat.le_trans (Nat.le_of_lt (hcovered first hmem).1) (hcovered first hmem).2
      | cons c s =>
        obtain ⟨r, hr, hstart, -⟩ := h.right c s rfl
        exact Nat.le_trans (start_le_of_insertionSort hsort r hr) hstart
    dsimp only
    rw [if_neg (by omega), Nat.le_antisymm hle hge]

/-- The chunk of the prelude is the stretch at the start of the file. -/
theorem mem_preludeChunk {prelude : List FragmentChunk} {span : ByteRange}
    (hspan : preludeSpan source covered = some span) (htext : span.slice? source = some text)
    (hlong : Substantial text)
    (hprelude : preludeChunk blake3 relPath language source covered = some prelude) :
    ∃ chunk ∈ prelude, chunk.body.toList = trim text := by
  unfold preludeChunk at hprelude
  unfold Substantial at hlong
  rw [filePrelude_of_span hspan htext, if_pos hlong, Option.bind_eq_bind,
    Option.bind_some] at hprelude
  obtain ⟨⟨startLine, endLine⟩, -, hprelude⟩ := Option.bind_eq_some_iff.mp hprelude
  obtain rfl := Option.some.inj hprelude
  refine ⟨_, List.mem_singleton_self _, ?_⟩
  exact String.toList_ofList

theorem exists_of_mem_preludeChunk {prelude : List FragmentChunk} {chunk : FragmentChunk}
    (hprelude : preludeChunk blake3 relPath language source covered = some prelude)
    (h : chunk ∈ prelude) : ∃ span text, preludeSpan source covered = some span ∧
      span.slice? source = some text ∧ chunk.body.toList = trim text := by
  unfold preludeChunk at hprelude
  obtain ⟨found, hfound, hprelude⟩ := Option.bind_eq_some_iff.mp hprelude
  cases found with
  | none =>
    obtain rfl := Option.some.inj hprelude
    cases h
  | some body =>
    obtain ⟨⟨startLine, endLine⟩, -, hprelude⟩ := Option.bind_eq_some_iff.mp hprelude
    obtain rfl := Option.some.inj hprelude
    obtain rfl := List.mem_singleton.mp h
    cases hspan : preludeSpan source covered with
    | none =>
      unfold filePrelude at hfound
      rw [hspan] at hfound
      cases hfound
    | some span =>
      have htext : ∃ text, span.slice? source = some text := by
        unfold filePrelude at hfound
        rw [hspan] at hfound
        obtain ⟨text, htext, -⟩ := Option.bind_eq_some_iff.mp hfound
        exact ⟨text, htext⟩
      obtain ⟨text, htext⟩ := htext
      rw [filePrelude_of_span hspan htext, Option.some_inj] at hfound
      refine ⟨span, text, rfl, htext, ?_⟩
      split at hfound
      · obtain rfl := Option.some.inj hfound
        exact String.toList_ofList
      · cases hfound

theorem trim_subset {t : Text} : trim t ⊆ t := by
  obtain ⟨a, b, -, -, hab⟩ := @exists_trim t
  intro c hc
  rw [hab]
  exact List.mem_append_left _ (List.mem_append_right _ hc)

/-- A prelude is made of text before every symbol. -/
theorem subset_of_mem_preludeChunk {prelude : List FragmentChunk} {chunk : FragmentChunk}
    (hr : r ∈ covered) (hbefore : before ++ after = source) (hle : r.start ≤ utf8Len before)
    (hprelude : preludeChunk blake3 relPath language source covered = some prelude)
    (h : chunk ∈ prelude) : chunk.body.toList ⊆ before := by
  obtain ⟨span, text, hspan, htext, heq⟩ := exists_of_mem_preludeChunk hprelude h
  have hstop : span.start = 0 ∧ span.stop ≤ utf8Len before := by
    unfold preludeSpan at hspan
    cases hsort : covered.insertionSort fun p q => p.start ≤ q.start with
    | nil =>
      rw [← List.mem_insertionSort fun p q : ByteRange => p.start ≤ q.start, hsort] at hr
      cases hr
    | cons first rest =>
      rw [hsort] at hspan
      dsimp only at hspan
      split at hspan
      · cases hspan
      · obtain rfl := Option.some.inj hspan
        exact ⟨rfl, Nat.le_trans (start_le_of_insertionSort hsort r hr) hle⟩
  obtain ⟨p, s, hsource, hp, hlen⟩ := slice?_eq_some_iff.mp htext
  rw [hstop.1] at hp
  obtain rfl := String.utf8Len_eq_zero.mp hp
  rw [List.nil_append] at hsource
  obtain ⟨m, rfl, -⟩ := exists_between (hsource.trans hbefore.symm) (by
    have : utf8Len ([] : Text) = 0 := rfl
    omega)
  rw [heq]
  exact List.Subset.trans trim_subset (List.subset_append_left ..)

/-! ## Where the characters of a chunk come from -/

section
variable {full pending tail : Text} {pieces : List Text} {c : Cutter} {ends : List Nat}

theorem solid_subset_iff {t : Text} : solid t ⊆ full ↔ ∀ ch ∈ t, isWhitespace ch = false →
    ch ∈ full :=
  ⟨fun h _ hch hsolid => h (mem_solid.mpr ⟨hch, hsolid⟩),
    fun h _ hch => h _ (mem_solid.mp hch).1 (mem_solid.mp hch).2⟩

theorem solid_subset {t : Text} (h : t ⊆ full) : solid t ⊆ full :=
  solid_subset_iff.mpr fun _ hch _ => h hch

theorem solid_prefixSig_subset {t : Text} (hs : signature ⊆ full) (ht : solid t ⊆ full) :
    solid (prefixSig signature t) ⊆ full := by
  unfold prefixSig
  split
  · exact ht
  · rw [solid_signature_append]
    exact List.append_subset_of_subset_of_subset (solid_subset hs) ht

theorem stripSigPrefix_suffix {t : Text} : stripSigPrefix t signature <:+ t := by
  unfold stripSigPrefix
  cases hs : stripPrefix? signature t with
  | none => exact List.suffix_refl t
  | some s =>
    rw [stripPrefix?_eq_some_iff.mp hs]
    dsimp only
    cases hr : stripPrefix? ['\n'] s with
    | none => exact List.suffix_append ..
    | some r =>
      rw [stripPrefix?_eq_some_iff.mp hr]
      exact ((List.suffix_append ['\n'] r).trans (List.suffix_append ..))

theorem solid_hardSplit_subset (hs : signature ⊆ full) (hb : body ⊆ full) :
    ∀ f ∈ hardSplit body signature, solid f ⊆ full := by
  refine fun f hf => solid_subset_iff.mpr fun ch hch hsolid => ?_
  have hlf : '\n' ∉ [ch] := by
    rw [List.mem_singleton]
    rintro rfl
    cases hsolid
  rcases madeOf_hardSplit f hf [ch] hlf ((List.singleton_infix_iff _ _).mpr hch) with h | h
  · exact hs ((List.singleton_infix_iff _ _).mp h)
  · exact hb ((List.singleton_infix_iff _ _).mp h)

theorem solid_splitAtEnds_subset {fragments : List Text} (hs : signature ⊆ full) (hb : body ⊆ full)
    (hends : ∀ e ∈ ends, full.IsBoundary e) (hsorted : ends.Pairwise (· ≤ ·))
    (h : splitAtEnds full body signature ends = some fragments) :
    ∀ f ∈ fragments, solid f ⊆ full := by
  obtain ⟨c, pieces, pending, tail, hrun, hc⟩ := (@Cutter.covers_start full signature).run
    (fun e he => ⟨hends e he, Nat.zero_le e⟩) hsorted
  have hpieces : ∀ p ∈ pieces, p ⊆ full := fun p hp ch hch => by
    rw [hc.text]
    exact List.mem_append_left _ (List.mem_flatten.mpr ⟨p, hp, hch⟩)
  have hrest : pending ++ tail ⊆ full := fun ch hch => by
    rw [hc.text]
    exact List.mem_append_right _ hch
  have hmap : ∀ ps : List Text, (∀ p ∈ ps, p ⊆ full) →
      ∀ f ∈ ps.map (prefixSig signature), solid f ⊆ full := by
    intro ps hps f hf
    obtain ⟨p, hp, rfl⟩ := List.mem_map.mp hf
    exact solid_prefixSig_subset hs (solid_subset (hps p hp))
  suffices hfin : ∃ found, c.finish full signature = some found ∧ ∀ f ∈ found, solid f ⊆ full by
    obtain ⟨found, hfin, hall⟩ := hfin
    rw [splitAtEnds_eq hrun hfin] at h
    obtain rfl := Option.some.inj h
    split
    · exact solid_hardSplit_subset hs hb
    · exact hall
  rcases hc.finish with ⟨-, hfin⟩ | ⟨-, ⟨ps, p, rfl, -, hfin⟩ | ⟨-, hfin⟩⟩
  · exact ⟨_, hfin, hc.fragments ▸ hmap pieces hpieces⟩
  · obtain ⟨hps, hp⟩ := List.forall_mem_append.mp hpieces
    have hp := List.forall_mem_singleton.mp hp
    refine ⟨_, hfin, List.forall_mem_append.mpr ⟨hmap ps hps, List.forall_mem_singleton.mpr ?_⟩⟩
    apply solid_prefixSig_subset hs
    rw [solid_append, solid_trim]
    refine List.append_subset_of_subset_of_subset (solid_subset_iff.mpr fun ch hch hsolid => ?_)
      (solid_subset hrest)
    exact solid_subset_iff.mp (solid_prefixSig_subset hs (solid_subset hp)) ch
      (stripSigPrefix_suffix.subset hch) hsolid
  · refine ⟨_, hfin, List.forall_mem_append.mpr ⟨hc.fragments ▸ hmap pieces hpieces,
      List.forall_mem_singleton.mpr ?_⟩⟩
    exact solid_prefixSig_subset hs (solid_subset hrest)

end

theorem firstSignatureLine_subset (h : firstSignatureLine source r = some signature)
    (htext : r.slice? source = some text) : signature ⊆ text := by
  unfold firstSignatureLine at h
  rw [htext] at h
  obtain rfl := Option.some.inj h
  refine List.Subset.trans trim_subset ?_
  cases hf : ((lines text).map trimEnd).find? (trim · ≠ []) with
  | none => exact List.nil_subset _
  | some l =>
    obtain ⟨l', hl', rfl⟩ := List.mem_map.mp (List.mem_of_find?_eq_some hf)
    exact List.Subset.trans (List.rdropWhile_prefix _ _).subset (infix_of_mem_lines hl').subset

/-- Besides whitespace, a chunk of a symbol holds characters of what the symbol spans. -/
theorem solid_chunk_subset {chunk : FragmentChunk}
    (hsound : ∀ h ∈ ordered, SymbolHit.Sound source h) (hhit : hit ∈ ordered)
    (h : chunksOfHit blake3 relPath language ts tree ordered hit = some (some chunks))
    (hchunk : chunk ∈ chunks) :
    solid chunk.body.toList ⊆ source.keepAt (fun b => hit.range.Holds b) 0 := by
  have hown := hsound hit hhit
  obtain ⟨body, signature, hbody, hsignature, hsplit⟩ := fragments_of_chunksOfHit h
  obtain ⟨full, hfull⟩ := Option.isSome_iff_exists.mp hown.isSome_slice?
  have hb := bodyOfHit_subset hsound hhit hbody
  have hkeep : source.keepAt (fun b => hit.range.Holds b) 0 = full := keepAt_of_slice? hfull
  rw [hkeep] at hb ⊢
  have hs : signature ⊆ full := by
    have hslice : (hit.nodeRange.slice? source).isSome = true :=
      isSome_slice?_iff.mpr ⟨hown.node_le, hown.nodeStart, hown.node_stop ▸ hown.stop⟩
    obtain ⟨text, htext⟩ := Option.isSome_iff_exists.mp hslice
    refine List.Subset.trans (firstSignatureLine_subset hsignature htext) ?_
    rw [← hkeep, ← keepAt_of_slice? htext]
    refine keepAt_subset fun b hb => decide_eq_true ?_
    obtain ⟨hstart, hstop⟩ := of_decide_eq_true hb
    exact ⟨Nat.le_trans hown.doc_le hstart, hown.node_stop ▸ hstop⟩
  have hmem : chunk.body.toList ∈ chunks.map (·.body.toList) := List.mem_map_of_mem hchunk
  generalize chunks.map (·.body.toList) = fragments at hsplit hmem
  revert hmem
  generalize chunk.body.toList = f
  intro hmem
  by_cases hlong : oversizeCharThreshold < body.length
  · rw [splitIfOversize_eq hlong, hfull, Option.bind_some] at hsplit
    split at hsplit
    · obtain rfl := Option.some.inj hsplit
      exact solid_hardSplit_subset hs hb f hmem
    · exact solid_splitAtEnds_subset hs hb (fun e he => mem_symbolEnds hown hfull he)
        pairwise_symbolEnds hsplit f hmem
  · unfold splitIfOversize at hsplit
    rw [if_pos (Nat.le_of_not_lt hlong)] at hsplit
    obtain rfl := Option.some.inj hsplit
    rw [List.mem_singleton.mp hmem]
    exact solid_subset hb

/-! ## Stretches and chunks -/

/-- What stands in a covered range stands outside every uncovered stretch. -/
theorem mem_of_covered {ch : Char} (h : Uncovered source covered before x after) (hr : r ∈ covered)
    (hch : ch ∈ source.keepAt (fun b => r.Holds b) 0) : ch ∈ before ∨ ch ∈ after := by
  have hnone : x.keepAt (fun b => r.Holds b) (0 + utf8Len before) = [] := by
    refine keepAt_none fun b hle hlt => decide_eq_false (h.free b (by omega) ?_ r hr)
    rw [String.utf8Len_append]
    omega
  rw [← h.text, keepAt_append, keepAt_append, hnone, List.append_nil] at hch
  rcases List.mem_append.mp hch with hch | hch
  · exact .inl (keepAt_subset_self hch)
  · exact .inr (keepAt_subset_self hch)

/-- All substantial text outside the symbols is in a chunk if there is none behind the first symbol.
If there is, and one of its characters is nowhere else, then it is not. -/
theorem keepsTopLevel_of_onlyPrelude {file : ChunkedFile} (hlang : ts.setLanguage language = true)
    (hparse : ts.parse language source = some tree) (herr : tooManyErrors tree.root = false)
    (hhits : collectSymbols ts language tree = some hits)
    (hfile : chunkFile blake3 relPath language ts source = some file) :
    (OnlyPrelude source (coveredRanges source (orderWithContainers hits)) →
      KeepsTopLevel source (coveredRanges source (orderWithContainers hits)) file.chunks) ∧
    (LosesCharacter source (coveredRanges source (orderWithContainers hits)) →
      ¬KeepsTopLevel source (coveredRanges source (orderWithContainers hits)) file.chunks) := by
  obtain ⟨hits', parts, prelude, hhits', hparts, hprelude, hchunks⟩ :=
    chunkFile_spec hlang hparse herr hfile
  rw [hhits] at hhits'
  obtain rfl := Option.some.inj hhits'
  have hsound : ∀ h ∈ orderWithContainers hits, SymbolHit.Sound source h :=
    fun _ => sound_of_ordered hhits
  have hcovered : ∀ r ∈ coveredRanges source (orderWithContainers hits),
      r.start < r.stop ∧ r.stop ≤ utf8Len source := fun r => coveredRanges_spec hsound
  constructor
  · intro honly before x after hstretch hx
    obtain rfl := honly before x after hstretch hx
    have hslice : source.slice? 0 (utf8Len x) = some x :=
      slice?_eq_some_iff.mpr ⟨[], after, hstretch.text, rfl, by simp⟩
    obtain ⟨chunk, hchunk, hbody⟩ := mem_preludeChunk
      (preludeSpan_of_uncovered hcovered hstretch hx) hslice hx hprelude
    refine ⟨chunk, ?_, hbody ▸ List.infix_rfl⟩
    rw [hchunks]
    exact List.mem_append_left _ hchunk
  · rintro ⟨before, x, after, hstretch, hx, hne, ch, hch, hsolid, hnb, hna⟩ hkeeps
    obtain ⟨chunk, hchunk, hin⟩ := hkeeps before x after hstretch hx
    have hmem : ch ∈ solid chunk.body.toList := mem_solid.mpr ⟨hin.subset hch, hsolid⟩
    rw [hchunks] at hchunk
    rcases List.mem_append.mp hchunk with hchunk | hchunk
    · -- The stretch begins behind a symbol, so that the prelude ends before it.
      obtain ⟨p, c, rfl⟩ := (List.eq_nil_or_concat before).resolve_left hne
      rw [List.concat_eq_append] at hstretch hnb
      obtain ⟨r, hr, hstart, -⟩ := hstretch.left p c rfl
      have hsub :=
        @subset_of_mem_preludeChunk source p ((c :: x) ++ after) language _ blake3 relPath r
        prelude chunk hr (by rw [← hstretch.text]; simp) hstart hprelude hchunk
      exact hnb (List.mem_append_left _ (hsub (mem_solid.mp hmem).1))
    · obtain ⟨hit, hhit, chunks, hof, hchunk⟩ := exists_of_mem_parts hparts hchunk
      have hsub := solid_chunk_subset hsound hhit hof hchunk hmem
      have hrange : hit.range ∈ coveredRanges source (orderWithContainers hits) :=
        List.mem_map_of_mem (List.mem_filter.mpr ⟨hhit, (isSome_chunks_iff hof).symm⟩)
      rcases mem_of_covered hstretch hrange hsub with h | h
      · exact hnb h
      · exact hna h

/-! ## Code before and behind a function -/

/-- A Python file with a statement of 89 characters before its function. -/
def headSource : Text :=
  "print(\"".toList ++ List.replicate 80 '0' ++ "\")\ndef f():\n    return 1".toList

def headTree : SyntaxTree headSource where
  root := .plain "module" 0 111 [.plain "expression_statement" 0 89 [],
    .plain "function_definition" 90 111 [.plain "identifier" 94 95 [],
      .plain "block" 103 111 [.plain "return_statement" 103 111 []]]]
  spans := SyntaxNode.forall_within_iff.mpr (by decide +kernel)

def headParser : TreeSitter := headTree.parser [[⟨"def", [1], [[0]]⟩, ⟨"name", [1, 0], []⟩]]

/-- The same statement behind the function. -/
def tailSource : Text :=
  "def f():\n    return 1\nprint(\"".toList ++ List.replicate 80 '0' ++ "\")".toList

def tailTree : SyntaxTree tailSource where
  root := .plain "module" 0 111 [.plain "function_definition" 0 21 [.plain "identifier" 4 5 [],
      .plain "block" 13 21 [.plain "return_statement" 13 21 []]],
    .plain "expression_statement" 22 111 []]
  spans := SyntaxNode.forall_within_iff.mpr (by decide +kernel)

def tailParser : TreeSitter := tailTree.parser [[⟨"def", [0], []⟩, ⟨"name", [0, 0], []⟩]]

/-- The symbol of the function. -/
def moduleHit (startByte line : Nat) : SymbolHit where
  kind := "function"
  name := ['f']
  range := ⟨startByte, startByte + 21⟩
  nodeRange := ⟨startByte, startByte + 21⟩
  startLine := line
  endLine := line + 1
  docFirstLine := none
  isContainer := false

theorem keepsTopLevel_head : ∃ file,
    chunkFile (fun _ => ⟨0⟩) "a.py" .python headParser headSource = some file ∧
    KeepsTopLevel headSource (coveredRanges headSource (orderWithContainers [moduleHit 90 2]))
      file.chunks := by
  have hhits : collectSymbols headParser .python headTree = some [moduleHit 90 2] := by
    decide +kernel
  have hsome : (chunkFile (fun _ => ⟨0⟩) "a.py" .python headParser headSource).isSome = true := by
    decide +kernel
  obtain ⟨file, hfile⟩ := Option.isSome_iff_exists.mp hsome
  have hparse : headParser.parse .python headSource = some headTree := rfl
  refine ⟨file, hfile, (keepsTopLevel_of_onlyPrelude rfl hparse ?_ hhits hfile).1 ?_⟩
  · decide +kernel
  · have hcovered : coveredRanges headSource (orderWithContainers [moduleHit 90 2]) =
      [⟨90, 111⟩] := by
      decide +kernel
    intro before x after h hx
    rw [hcovered] at h
    rcases List.eq_nil_or_concat before with hnil | ⟨p, c, rfl⟩
    · exact hnil
    · -- Behind the function begins, there is no room for another stretch.
      rw [List.concat_eq_append] at h
      obtain ⟨r, hr, hstart, -⟩ := h.left p c rfl
      obtain rfl := List.mem_singleton.mp hr
      have hstart : 90 ≤ utf8Len p := hstart
      have hlen : utf8Len (p ++ [c] ++ x ++ after) = 111 := by
        rw [h.text]
        decide +kernel
      have hx := length_le_utf8Len_of_substantial hx
      simp only [String.utf8Len_append] at hlen
      unfold filePreludeMinChars at hx
      omega

/-- The statement behind the function is in no chunk. -/
theorem not_keepsTopLevel_tail : ∃ file,
    collectSymbols tailParser .python tailTree = some [moduleHit 0 1] ∧
    chunkFile (fun _ => ⟨0⟩) "a.py" .python tailParser tailSource = some file ∧
    ¬KeepsTopLevel tailSource (coveredRanges tailSource (orderWithContainers [moduleHit 0 1]))
      file.chunks := by
  have hsome : (chunkFile (fun _ => ⟨0⟩) "a.py" .python tailParser tailSource).map
      (·.chunks.map (·.body)) = some ["def f():\n    return 1"] := by decide +kernel
  obtain ⟨file, hfile, hbodies⟩ := Option.map_eq_some_iff.mp hsome
  refine ⟨file, by decide +kernel, hfile, fun h => ?_⟩
  have hcovered : coveredRanges tailSource (orderWithContainers [moduleHit 0 1]) = [⟨0, 21⟩] := by
    decide +kernel
  rw [hcovered] at h
  obtain ⟨chunk, hchunk, hin⟩ := h "def f():\n    return 1".toList
    ("\nprint(\"".toList ++ List.replicate 80 '0' ++ "\")".toList) [] {
      text := by decide +kernel
      free := by
        intro b hb _ r hr hold
        obtain rfl := List.mem_singleton.mp hr
        exact Nat.not_lt_of_le hb hold.2
      left := by
        intro p c hp
        refine ⟨⟨0, 21⟩, List.mem_singleton_self _, Nat.zero_le _, ?_⟩
        have := congrArg utf8Len hp
        rw [String.utf8Len_append, String.utf8Len_cons] at this
        have hlen : utf8Len "def f():\n    return 1".toList = 21 := by decide +kernel
        have := c.utf8Size_pos
        show utf8Len p < 21
        omega
      right := fun c s hs => nomatch hs } (by decide +kernel)
  have hmem : chunk.body ∈ file.chunks.map (·.body) := List.mem_map_of_mem hchunk
  rw [hbodies] at hmem
  rw [List.mem_singleton.mp hmem] at hin
  have hle := hin.length_le
  revert hle
  decide +kernel

end SiftMcp
