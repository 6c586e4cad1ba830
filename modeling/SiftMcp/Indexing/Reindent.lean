import SiftMcp.Indexing.HashInput
import SiftMcp.Indexing.Normalize
import SiftMcp.Indexing.Slices

/-!
# Indenting a construct

A file with marks at the starts of lines is two files: the one without the marks, and the one with
an indentation at every mark. The symbols of both are given by their places in the marked file. A
chunk begins where its construct begins, which is behind the indentation of its first line, or where
the documentation above it begins, which is before one; so the first line of the body may be without
the indentation that all others get.

`symbolHashes_indented_iff` says when this shows in the hashes.
-/

namespace SiftMcp
open Text
open String (utf8Len)

/-- A symbol by its places in a marked file. -/
structure PlacedSymbol where
  hit : SymbolHit
  first : Nat
  last : Nat
  nodeFirst : Nat
  nodeLast : Nat

/-- The range between two places. -/
def rangeIn (w : Text) (m : Marked) (r : Nat × Nat) : ByteRange := ⟨offset w m r.1, offset w m r.2⟩

namespace PlacedSymbol

def range (p : PlacedSymbol) : Nat × Nat := (p.first, p.last)

/-- The symbol in the file with `w` at the marks. -/
def inFile (w : Text) (m : Marked) (p : PlacedSymbol) : SymbolHit :=
  { p.hit with
    range := rangeIn w m p.range
    nodeRange := rangeIn w m (p.nodeFirst, p.nodeLast) }

end PlacedSymbol

/-- The symbols of the file lie in it, and stay where they are in the tree when the marked lines are
indented: none ends before a mark, and no two of them begin or end on either side of one. -/
structure Layout (m : Marked) (ps : List PlacedSymbol) : Prop where
  lines : LineMarks m
  le : ∀ p ∈ ps, p.first ≤ p.last
  node_le : ∀ p ∈ ps, p.nodeFirst ≤ p.nodeLast
  ends : ∀ p ∈ ps, m[p.last]? ≠ some none
  first_first : ∀ p ∈ ps, ∀ q ∈ ps, offset [] m p.first = offset [] m q.first → p.first = q.first
  last_last : ∀ p ∈ ps, ∀ q ∈ ps, offset [] m p.last = offset [] m q.last → p.last = q.last

/-! ## Bodies -/

/-- The places of the members of a symbol. -/
def memberPlaces (ps : List PlacedSymbol) (p : PlacedSymbol) : List (Nat × Nat) :=
  (ps.filter fun q => q.range ≠ p.range ∧ p.first ≤ q.first ∧ q.last ≤ p.last).map (·.range)

/-- What is left between the members, from `cursor` on. -/
def cutPlaces (m : Marked) (stop : Nat) : List (Nat × Nat) → Nat → Marked
  | [], cursor => between m cursor stop
  | r :: rs, cursor =>
    (if cursor < r.1 then between m cursor r.1 else []) ++ cutPlaces m stop rs (max cursor r.2)

/-- The body of a symbol, with its marks. -/
def markedBody (m : Marked) (ps : List PlacedSymbol) (p : PlacedSymbol) : Marked :=
  let members := memberPlaces ps p
  if p.hit.isContainer ∧ members ≠ [] then
    cutPlaces m p.last (members.insertionSort fun r s => r.1 ≤ s.1) p.first
  else between m p.first p.last

variable {w : Text} {m : Marked} {ps : List PlacedSymbol} {p q : PlacedSymbol}

namespace Layout

theorem range_eq_iff (H : Layout m ps) (hp : p ∈ ps) (hq : q ∈ ps) :
    (q.inFile w m).range = (p.inFile w m).range ↔ q.range = p.range := by
  simp only [PlacedSymbol.inFile, rangeIn, PlacedSymbol.range, ByteRange.mk.injEq, Prod.mk.injEq]
  have hfirst := fun i j => @offset_le_iff w m i j
  constructor
  · intro ⟨h1, h2⟩
    exact ⟨Nat.le_antisymm ((hfirst _ _ (H.first_first q hq p hp)).mp h1.le)
      ((hfirst _ _ (H.first_first p hp q hq)).mp h1.ge),
      Nat.le_antisymm ((hfirst _ _ (H.last_last q hq p hp)).mp h2.le)
      ((hfirst _ _ (H.last_last p hp q hq)).mp h2.ge)⟩
  · intro ⟨h1, h2⟩
    rw [h1, h2]
    exact ⟨rfl, rfl⟩

theorem memberRanges_inFile (H : Layout m ps) (hp : p ∈ ps) :
    memberRanges (ps.map (·.inFile w m)) (p.inFile w m) =
      (memberPlaces ps p).map (rangeIn w m) := by
  unfold memberRanges memberPlaces
  rw [List.filter_map, List.map_map, List.map_map]
  congr 1
  refine List.filter_congr fun q hq => ?_
  have hrange := H.range_eq_iff (w := w) hp hq
  have hfirst := @offset_le_iff w m p.first q.first (H.first_first p hp q hq)
  have hlast := @offset_le_iff w m q.last p.last (H.last_last q hq p hp)
  rw [Bool.eq_iff_iff]
  simp only [Function.comp_apply, rangeContains, Bool.and_eq_true, decide_eq_true_eq, ne_eq]
  constructor
  · intro ⟨hne, ⟨h1, h2⟩, _⟩
    exact ⟨fun h => hne (hrange.mpr h), hfirst.mp h1, hlast.mp h2⟩
  · intro ⟨hne, h1, h2⟩
    exact ⟨fun h => hne (hrange.mp h), ⟨hfirst.mpr h1, hlast.mpr h2⟩, fun h =>
      hne (hrange.mp h.symm)⟩

/-- What the members lie in, and how they are ordered. -/
theorem sorted_members (H : Layout m ps) :
    ((memberPlaces ps p).map (rangeIn w m)).insertionSort (fun r s => r.start ≤ s.start) =
      ((memberPlaces ps p).insertionSort fun r s => r.1 ≤ s.1).map (rangeIn w m) := by
  refine (List.map_insertionSort _ _ (rangeIn w m) (memberPlaces ps p) fun r hr s hs => ?_).symm
  have hplace : ∀ r ∈ memberPlaces ps p, ∃ q ∈ ps, q.range = r := by
    intro r hr
    obtain ⟨q, hq, hrange⟩ := List.mem_map.mp hr
    exact ⟨q, (List.mem_filter.mp hq).1, hrange⟩
  obtain ⟨q, hq, rfl⟩ := hplace r hr
  obtain ⟨q', hq', rfl⟩ := hplace s hs
  exact (offset_le_iff (H.first_first q hq q' hq')).symm

/-- A member ends inside the symbol, and not before a mark. -/
theorem member (H : Layout m ps) {r : Nat × Nat} (hr : r ∈ memberPlaces ps p) :
    p.first ≤ r.1 ∧ r.1 ≤ r.2 ∧ r.2 ≤ p.last ∧ m[r.2]? ≠ some none := by
  obtain ⟨q, hq, rfl⟩ := List.mem_map.mp hr
  obtain ⟨hq, hin⟩ := List.mem_filter.mp hq
  obtain ⟨-, hfirst, hlast⟩ := of_decide_eq_true hin
  exact ⟨hfirst, H.le q hq, hlast, H.ends q hq⟩

end Layout

theorem cutMembers_render {stop : Nat} {rs : List (Nat × Nat)} {cursor : Nat}
    (hrs : ∀ r ∈ rs, r.1 ≤ stop ∧ r.2 ≤ stop) (hcursor : cursor ≤ stop) :
    cutMembers (render w m) (offset w m stop) (rs.map (rangeIn w m)) (offset w m cursor) =
      some (render w (cutPlaces m stop rs cursor)) := by
  induction rs generalizing cursor with
  | nil =>
    rw [List.map_nil, cutMembers, cutPlaces]
    split
    · exact slice?_render hcursor
    · next hnot =>
      have hadd := @offset_add w m cursor stop hcursor
      have hnil : render w (between m cursor stop) = [] := by
        apply String.utf8Len_eq_zero.mp
        omega
      rw [hnil]
  | cons r rs ih =>
    obtain ⟨⟨h1, h2⟩, hrs⟩ := List.forall_mem_cons.mp hrs
    have hpiece : (if (rangeIn w m r).start > offset w m cursor ∧
        (rangeIn w m r).start ≤ offset w m stop then
          (render w m).slice? (offset w m cursor) (rangeIn w m r).start else some []) =
        some (render w (if cursor < r.1 then between m cursor r.1 else [])) := by
      by_cases hlt : cursor < r.1
      · rw [if_pos hlt]
        split
        · exact slice?_render hlt.le
        · next hnot =>
          have hadd := @offset_add w m cursor r.1 hlt.le
          have hle : offset w m r.1 ≤ offset w m stop := offset_le h1
          have hnil : render w (between m cursor r.1) = [] := by
            apply String.utf8Len_eq_zero.mp
            have : ¬offset w m r.1 > offset w m cursor := fun h => hnot ⟨h, hle⟩
            omega
          rw [hnil]
      · rw [if_neg hlt, if_neg]
        · rfl
        · rintro ⟨h, -⟩
          exact absurd (@offset_le w m r.1 cursor (Nat.le_of_not_lt hlt)) (Nat.not_le.mpr h)
    have hmax : max (offset w m cursor) (rangeIn w m r).stop = offset w m (max cursor r.2) := by
      rcases Nat.le_total cursor r.2 with h | h
      · rw [Nat.max_eq_right h]
        exact Nat.max_eq_right (offset_le h)
      · rw [Nat.max_eq_left h]
        exact Nat.max_eq_left (offset_le h)
    rw [List.map_cons, cutMembers_cons, hpiece, hmax, ih hrs (Nat.max_le.mpr ⟨hcursor, h2⟩),
      cutPlaces, render_append]
    rfl

/-- The body of a symbol is its marked body, with the indentation at the marks. -/
theorem Layout.bodyOfHit_inFile (H : Layout m ps) (hp : p ∈ ps) :
    bodyOfHit (render w m) (ps.map (·.inFile w m)) (p.inFile w m) =
      some (render w (markedBody m ps p)) := by
  unfold bodyOfHit markedBody
  rw [H.memberRanges_inFile hp]
  dsimp only
  by_cases h : p.hit.isContainer = true ∧ memberPlaces ps p ≠ []
  · rw [if_pos h, if_pos ⟨h.1, mt List.map_eq_nil_iff.mp h.2⟩, bodyMinusMembers, H.sorted_members]
    refine cutMembers_render (fun r hr => ?_) (H.le p hp)
    obtain ⟨-, h1, h2, -⟩ := H.member ((List.mem_insertionSort _).mp hr)
    exact ⟨h1.trans h2, h2⟩
  · rw [if_neg h, if_neg fun h' => h ⟨h'.1, mt List.map_eq_nil_iff.mpr h'.2⟩]
    exact slice?_render (H.le p hp)

/-- A piece begins with a mark only where one stands at its first place. -/
theorem head?_between_ne {i j : Nat} (h : m[i]? ≠ some none) :
    (between m i j).head? ≠ some none := by
  rcases Nat.lt_or_ge i j with hij | hij
  · rwa [head?_between hij]
  · have hnil : between m i j = [] := by
      rw [between, List.drop_eq_nil_iff, List.length_take]
      omega
    rw [hnil]
    simp

theorem cutPlaces_lineMarks (H : LineMarks m) {stop : Nat} {rs : List (Nat × Nat)} {cursor : Nat}
    (hrs : ∀ r ∈ rs, r.1 ≤ r.2 ∧ m[r.2]? ≠ some none) : LineMarks (cutPlaces m stop rs cursor) ∧
      (m[cursor]? ≠ some none → (cutPlaces m stop rs cursor).head? ≠ some none) := by
  induction rs generalizing cursor with
  | nil => exact ⟨H.between, head?_between_ne⟩
  | cons r rs ih =>
    obtain ⟨⟨hle, hend⟩, hrs⟩ := List.forall_mem_cons.mp hrs
    obtain ⟨hlines, hhead⟩ := @ih (max cursor r.2) hrs
    rw [cutPlaces]
    by_cases hlt : cursor < r.1
    · rw [Nat.max_eq_right (hlt.le.trans hle)] at hlines hhead ⊢
      rw [if_pos hlt]
      refine ⟨H.between.append hlines (hhead hend), fun hcursor => ?_⟩
      rw [List.head?_append]
      cases hpiece : (between m cursor r.1).head? with
      | none => exact hhead hend
      | some c =>
        rw [Option.some_or, ← hpiece]
        exact head?_between_ne hcursor
    · rw [if_neg hlt, List.nil_append]
      refine ⟨hlines, fun hcursor => hhead ?_⟩
      rcases Nat.le_total cursor r.2 with h | h
      · rwa [Nat.max_eq_right h]
      · rwa [Nat.max_eq_left h]

theorem Layout.body_lineMarks (H : Layout m ps) : LineMarks (markedBody m ps p) := by
  unfold markedBody
  dsimp only
  split
  · refine (cutPlaces_lineMarks H.lines fun r hr => ?_).1
    obtain ⟨-, hle, -, hend⟩ := H.member ((List.mem_insertionSort _).mp hr)
    exact ⟨hle, hend⟩
  · exact H.lines.between

/-! ## Hashes -/

/-- All lines of the body that are not blank are marked, or none is. -/
def Uniform (m : Marked) : Prop :=
  (∀ l ∈ markedLines m, ¬Blank l.2 → l.1 = true) ∨ ∀ l ∈ markedLines m, ¬Blank l.2 → l.1 = false

theorem render_nil_lines (H : LineMarks m) : linesOf (render [] m) = (markedLines m).map (·.2) := by
  rw [linesOf_render endFree_nil H]
  exact List.map_congr_left fun p _ => by simp [renderLine]

theorem normalizeBody_render_iff (hw : Indentation w) (H : LineMarks m) :
    normalizeBody (render w m) = normalizeBody (render [] m) ↔ w = [] ∨ Uniform m := by
  have hlines := render_nil_lines H
  have hfree : ∀ p ∈ markedLines m, EndFree p.2 := fun p hp => by
    apply endFree_of_mem_linesOf (t := render [] m)
    rw [hlines]
    exact List.mem_map_of_mem hp
  rw [normalizeBody_eq, normalizeBody_eq, hlines, linesOf_render hw.endFree H]
  exact normalizeLines_renderLine_iff hw hfree

/-- The hashes of the chunks of a symbol. -/
def hashesOfHit (blake3 : List UInt8 → ContentHash) (relPath : String) (language : Language)
    (ts : TreeSitter) {source : Text} (tree : SyntaxTree source) (ordered : List SymbolHit)
    (hit : SymbolHit) : Option (List ContentHash) :=
  (chunksOfHit blake3 relPath language ts tree ordered hit).map fun chunks =>
    (chunks.getD []).map (·.record.contentHash)

/-- A symbol whose body is not blank and below the limit has one chunk with all of its body. -/
theorem hashesOfHit_inFile (H : Layout m ps) (hp : p ∈ ps)
    (hsmall : (render w (markedBody m ps p)).length ≤ oversizeCharThreshold)
    (blake3 : List UInt8 → ContentHash) (relPath : String) (language : Language) (ts : TreeSitter)
    (tree : SyntaxTree (render w m)) :
    hashesOfHit blake3 relPath language ts tree (ps.map (·.inFile w m)) (p.inFile w m) =
      some (if trim (render w (markedBody m ps p)) = [] then []
        else [contentHash blake3 language p.hit.name (render w (markedBody m ps p))]) := by
  obtain ⟨signature, hsignature⟩ : ∃ signature,
      firstSignatureLine (render w m) (p.inFile w m).nodeRange = some signature := by
    have hslice : (p.inFile w m).nodeRange.slice? (render w m) =
        some (render w (between m p.nodeFirst p.nodeLast)) := slice?_render (H.node_le p hp)
    exact ⟨_, by rw [firstSignatureLine, hslice]; rfl⟩
  by_cases hblank : trim (render w (markedBody m ps p)) = []
  · simp [hashesOfHit, chunksOfHit, H.bodyOfHit_inFile hp, hblank]
  · simp only [hashesOfHit, chunksOfHit, H.bodyOfHit_inFile hp, hsignature, splitIfOversize,
      if_pos hsmall, if_neg hblank, Option.bind_eq_bind, Option.bind_some]
    rfl

theorem blank_render_iff (hw : Blank w) : Blank (render w m) ↔ Blank (render [] m) := by
  induction m with
  | nil => exact Iff.rfl
  | cons c m ih =>
    cases c with
    | none => exact (blank_append.trans (and_iff_right hw)).trans ih
    | some c =>
      rw [render_cons_some, render_cons_some]
      unfold Blank at ih ⊢
      rw [List.forall_mem_cons, List.forall_mem_cons, ih]

theorem uniform_of_blank (H : LineMarks m) (h : Blank (render [] m)) : Uniform m := by
  refine .inl fun l hl hne => absurd ?_ hne
  apply blank_of_mem_linesOf h
  rw [render_nil_lines H]
  exact List.mem_map_of_mem hl

theorem length_render_nil_le : (render [] m).length ≤ (render w m).length := by
  induction m with
  | nil => exact Nat.le_refl _
  | cons c m ih =>
    cases c with
    | none =>
      have hle : (render [] m).length ≤ (w ++ render w m).length := by
        rw [List.length_append]
        exact ih.trans (Nat.le_add_left _ _)
      exact hle
    | some c => exact Nat.succ_le_succ ih

/-- The trees of the file and of the indented file have the same symbols, at the places `ps`. -/
structure Reindented (ts : TreeSitter) (language : Language) (w : Text) (m : Marked)
    (ps : List PlacedSymbol) (tree : SyntaxTree (render [] m)) (tree' : SyntaxTree (render w m)) :
    Prop where
  layout : Layout m ps
  before : (collectSymbols ts language tree).map orderWithContainers =
    some (ps.map (·.inFile [] m))
  after : (collectSymbols ts language tree').map orderWithContainers =
    some (ps.map (·.inFile w m))

/-- The hashes of the chunks that `chunk_file` makes of the symbol with number `i`. -/
def symbolHashes (blake3 : List UInt8 → ContentHash) (relPath : String) (language : Language)
    (ts : TreeSitter) {source : Text} (tree : SyntaxTree source) (i : Nat) :
    Option (List ContentHash) := do
  let ordered ← (collectSymbols ts language tree).map orderWithContainers
  let hit ← ordered[i]?
  hashesOfHit blake3 relPath language ts tree ordered hit

theorem symbolHashes_inFile {ts : TreeSitter} {language : Language} {tree : SyntaxTree (render w m)}
    (H : Layout m ps) (hsymbols : (collectSymbols ts language tree).map orderWithContainers =
      some (ps.map (·.inFile w m))) {i : Nat} (hp : ps[i]? = some p)
    (hsmall : (render w (markedBody m ps p)).length ≤ oversizeCharThreshold)
    {blake3 : List UInt8 → ContentHash} {relPath : String} :
    symbolHashes blake3 relPath language ts tree i =
      some (if trim (render w (markedBody m ps p)) = [] then []
        else [contentHash blake3 language p.hit.name (render w (markedBody m ps p))]) := by
  rw [symbolHashes, hsymbols]
  simp only [Option.bind_eq_bind, Option.bind_some, List.getElem?_map, hp, Option.map_some]
  exact hashesOfHit_inFile H (List.mem_of_getElem? hp) hsmall blake3 relPath language ts tree

/-- A symbol below the limit keeps its hash exactly when its lines are indented alike: all lines of
the body that are not blank, or none. -/
theorem symbolHashes_indented_iff {ts : TreeSitter} {language : Language}
    {tree : SyntaxTree (render [] m)} {tree' : SyntaxTree (render w m)} (hw : Indentation w)
    (H : Reindented ts language w m ps tree tree') {i : Nat} (hp : ps[i]? = some p)
    (hsmall : (render w (markedBody m ps p)).length ≤ oversizeCharThreshold)
    (blake3 : List UInt8 → ContentHash) (relPath : String) :
    symbolHashes blake3 relPath language ts tree i =
      symbolHashes blake3 relPath language ts tree' i ↔
      (w = [] ∨ Uniform (markedBody m ps p)) ∨
        Collides blake3 (hashInput language p.hit.name (render [] (markedBody m ps p)))
          (hashInput language p.hit.name (render w (markedBody m ps p))) := by
  have hlines := H.layout.body_lineMarks (p := p)
  have hsmall' := (@length_render_nil_le w (markedBody m ps p)).trans hsmall
  rw [symbolHashes_inFile H.layout H.before hp hsmall',
    symbolHashes_inFile H.layout H.after hp hsmall, Option.some.injEq]
  by_cases hblank : Blank (render [] (markedBody m ps p))
  · have hblank' := (blank_render_iff hw.blank).mpr hblank
    rw [if_pos (trim_eq_nil_iff.mpr hblank), if_pos (trim_eq_nil_iff.mpr hblank')]
    exact iff_of_true rfl (.inl (.inr (uniform_of_blank hlines hblank)))
  · have hblank' := mt (blank_render_iff hw.blank).mp hblank
    rw [if_neg (mt trim_eq_nil_iff.mp hblank), if_neg (mt trim_eq_nil_iff.mp hblank'),
      ← normalizeBody_render_iff hw hlines, List.cons.injEq, and_iff_left rfl]
    rw [contentHash_eq_iff, SameContent]
    simp only [true_and, eq_comm]

/-! ## A function with documentation, and one without -/

/-- A Rust function below a comment, with all of its lines to be indented. -/
def docRows : List (Bool × Text) :=
  [(true, "/// Calls g.\n".toList), (true, "fn f() \x7b\n".toList), (true, "    g();\n".toList),
    (true, "\x7d\n".toList)]

def docTree : SyntaxTree (render [] (markRows docRows)) where
  root := .plain "source_file" 0 33 [.plain "line_comment" 0 12 [],
    .plain "function_item" 13 32 [.plain "identifier" 16 17 []]]
  spans := SyntaxNode.forall_within_iff.mpr (by decide +kernel)

def docTreeIndented : SyntaxTree (render "    ".toList (markRows docRows)) where
  root := .plain "source_file" 0 49 [.plain "line_comment" 4 16 [],
    .plain "function_item" 21 48 [.plain "identifier" 24 25 []]]
  spans := SyntaxNode.forall_within_iff.mpr (by decide +kernel)

def docSymbol : PlacedSymbol where
  hit := {
    kind := "function"
    name := ['f']
    range := ⟨0, 0⟩
    nodeRange := ⟨0, 0⟩
    startLine := 1
    endLine := 4
    docFirstLine := some "/// Calls g.".toList
    isContainer := false }
  first := 0
  last := 36
  nodeFirst := 15
  nodeLast := 36

def docParser : TreeSitter := docTree.parser [[⟨"def", [1], [[0]]⟩, ⟨"name", [1, 0], []⟩]]

theorem docReindented :
    Reindented docParser .rust "    ".toList (markRows docRows) [docSymbol] docTree
    docTreeIndented where
  layout := {
    lines := lineMarks_markRows fun p hp => by
      have hrows : ∀ p ∈ docRows, p.2.getLast? = some '\n' ∧
          '\n' ∉ p.2.dropLast := by decide +kernel
      obtain ⟨hlast, hfree⟩ := hrows p hp
      exact ⟨p.2.dropLast, hfree, (List.dropLast_append_getLast? _ hlast).symm⟩
    le := by decide
    node_le := by decide
    ends := by decide +kernel
    first_first := by simp
    last_last := by simp }
  before := by decide +kernel
  after := by decide +kernel

/-- The documentation is found line by line, and the body begins with the line of the comment. -/
theorem symbolHashes_indented_doc :
    let blake3 (bytes : List UInt8) : ContentHash := ⟨BitVec.ofNat 256 bytes.length⟩
    symbolHashes blake3 "a.rs" .rust docParser docTree 0 =
      symbolHashes blake3 "a.rs" .rust docParser docTreeIndented 0 := by
  intro blake3
  have huniform : Uniform (markedBody (markRows docRows) [docSymbol] docSymbol) := by
    have hmarked : ∀ l ∈ markedLines (markedBody (markRows docRows) [docSymbol] docSymbol),
        l.1 = true := by decide +kernel
    exact .inl fun l hl _ => hmarked l hl
  have hw : Indentation "    ".toList := fun c hc =>
    .inl (List.eq_of_mem_replicate (show c ∈ List.replicate 4 ' ' from hc))
  exact (symbolHashes_indented_iff hw docReindented rfl (by decide +kernel) blake3 "a.rs").mpr
    (.inl (.inr huniform))

/-- The function without the comment. -/
def bareRows : List (Bool × Text) :=
  [(true, "fn f() \x7b\n".toList), (true, "    g();\n".toList), (true, "\x7d\n".toList)]

def bareTree : SyntaxTree (render [] (markRows bareRows)) where
  root := .plain "source_file" 0 20 [.plain "function_item" 0 19 [.plain "identifier" 3 4 []]]
  spans := SyntaxNode.forall_within_iff.mpr (by decide +kernel)

def bareTreeIndented : SyntaxTree (render "    ".toList (markRows bareRows)) where
  root := .plain "source_file" 0 32 [.plain "function_item" 4 31 [.plain "identifier" 7 8 []]]
  spans := SyntaxNode.forall_within_iff.mpr (by decide +kernel)

/-- A parser that knows both files. -/
def bareParser : TreeSitter :=
  { bareTree.parser [[⟨"def", [0], []⟩, ⟨"name", [0, 0], []⟩]] with
    parse := fun _ s =>
      if h : render [] (markRows bareRows) = s then some (h ▸ bareTree)
      else if h : render "    ".toList (markRows bareRows) = s then some (h ▸ bareTreeIndented)
      else none }

/-- The body begins behind the indentation of the first line, and the other lines keep theirs. -/
theorem chunkFile_indented_bare :
    let hashes (s : Text) := (chunkFile (fun bytes => ⟨BitVec.ofNat 256 bytes.length⟩) "a.rs" .rust
      bareParser s).map fun file => file.chunks.map (·.record.contentHash)
    let bodies (s : Text) := (chunkFile (fun bytes => ⟨BitVec.ofNat 256 bytes.length⟩) "a.rs" .rust
      bareParser s).map fun file => file.chunks.map (·.body)
    bodies "fn f() \x7b\n    g();\n\x7d\n".toList = some ["fn f() \x7b\n    g();\n\x7d"] ∧
      bodies "    fn f() \x7b\n        g();\n    \x7d\n".toList =
        some ["fn f() \x7b\n        g();\n    \x7d"] ∧
      hashes "fn f() \x7b\n    g();\n\x7d\n".toList ≠
        hashes "    fn f() \x7b\n        g();\n    \x7d\n".toList := by decide +kernel

end SiftMcp
