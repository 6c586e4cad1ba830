import SiftMcp.Indexing.AttachedDoc
import SiftMcp.Indexing.Cuts
import SiftMcp.Lib.OptionList

/-!
# The slices of the chunker

Which constructs and which prelude let the chunker take all of its slices in bounds and on
boundaries. The tree gives boundaries only. What the chunker computes from them is the start of a
block of documentation, and the byte before the end of a construct or of the prelude.

`isSome_chunkFile_iff` collects the conditions for a whole file.
-/

namespace SiftMcp
open Text StackSearch
open String (utf8Len)

/-! ## Constructs -/

/-- The first of the comments right before a construct. -/
def siblingStart : List SyntaxNode → Option Nat
  | [] => none
  | p :: before =>
    if isComment p.kind then
      if before.head?.any (isComment ·.kind) then siblingStart before else some p.startByte
    else none

/-- Where the chunker takes a construct to begin with its documentation. Lines above a block that
end with a carriage return pull the start of the block forward by a byte each. -/
def docStart (before : Text) (siblings : List SyntaxNode) : Nat :=
  if attachedBlock before ≠ [] then
    utf8Len (aboveBlock before).flatten - crlfs (aboveBlock before)
  else (siblingStart siblings).getD (utf8Len before)

def textBefore (source : Text) (startByte : Nat) : Text := (source.slice? 0 startByte).getD []

/-- The start falls between two characters, and the last character is a single byte. -/
structure OnBoundaries (source : Text) (node : SyntaxNode) (siblings : List SyntaxNode) : Prop where
  start : source.IsBoundary (docStart (textBefore source node.startByte) siblings)
  stop : docStart (textBefore source node.startByte) siblings = node.endByte ∨
    source.EndsInByte node.endByte

/-- The definition that a match captures, if it captures a name as well. -/
def construct {source : Text} {tree : SyntaxTree source} (captures : List (Capture tree)) :
    Option (Capture tree) :=
  if captures.any (·.name = "name") then (captures.filter (·.name = "def")).getLast? else none

variable {source before rest : Text} {node : SyntaxNode} {siblings : List SyntaxNode}
  {language : Language} {firstLine : Option Text}

theorem siblingDoc_spec (h : ∀ p ∈ siblings, SyntaxNode.SpanIn source p) :
    ∃ first, siblingDoc source firstLine siblings = some (siblingStart siblings, first) := by
  induction siblings with
  | nil => exact ⟨firstLine, rfl⟩
  | cons p siblings ih =>
    obtain ⟨hp, hrest⟩ := List.forall_mem_cons.mp h
    have hslice : (p.byteRange.slice? source).isSome = true :=
      isSome_slice?_iff.mpr ⟨hp.le, hp.start, hp.stop⟩
    obtain ⟨text, htext⟩ := Option.isSome_iff_exists.mp hslice
    unfold siblingDoc siblingStart
    by_cases hc : isComment p.kind = true
    · rw [if_pos hc, if_pos hc, htext]
      by_cases hnext : siblings.head?.any (isComment ·.kind) = true
      · obtain ⟨first, hfirst⟩ := ih hrest
        refine ⟨first, ?_⟩
        rw [if_pos hnext, ← hfirst]
        exact if_pos hnext
      · refine ⟨(lines text).head?.map trim, ?_⟩
        rw [if_neg hnext]
        exact if_neg hnext
    · exact ⟨firstLine, by rw [if_neg hc, if_neg hc]⟩

theorem siblingStart_mem {b : Nat} (h : siblingStart siblings = some b) :
    ∃ p ∈ siblings, b = SyntaxNode.startByte p := by
  induction siblings with
  | nil => cases h
  | cons p siblings ih =>
    unfold siblingStart at h
    split at h
    · split at h
      · obtain ⟨q, hq, hb⟩ := ih h
        exact ⟨q, List.mem_cons_of_mem _ hq, hb⟩
      · exact ⟨p, List.mem_cons_self, (Option.some.inj h).symm⟩
    · cases h

/-- The text before a node, and what follows it. -/
theorem textBefore_spec (h : node.SpanIn source) :
    ∃ rest, textBefore source node.startByte ++ rest = source ∧
      utf8Len (textBefore source node.startByte) = node.startByte := by
  obtain ⟨p, s, hsource, hp⟩ := h.start
  have hslice : source.slice? 0 node.startByte = some p :=
    slice?_eq_some_iff.mpr ⟨[], s, hsource, rfl, by simpa using hp⟩
  have htext : textBefore source node.startByte = p := by rw [textBefore, hslice]; rfl
  rw [htext]
  exact ⟨s, hsource, hp⟩

/-- `attached_doc` never panics, and begins where `docStart` says. -/
theorem attachedDoc_spec (hnode : node.SpanIn source)
    (hsib : ∀ p ∈ siblings, SyntaxNode.SpanIn source p) :
    ∃ doc first, attachedDoc source node.startByte siblings = some (doc, first) ∧
      doc.getD node.startByte = docStart (textBefore source node.startByte) siblings := by
  obtain ⟨rest, hsource, hlen⟩ := textBefore_spec hnode
  generalize textBefore source node.startByte = before at hsource hlen ⊢
  rw [← hlen, ← hsource]
  by_cases hblock : attachedBlock before = []
  · rw [attachedDoc_of_no_block hblock]
    obtain ⟨first, hfirst⟩ := @siblingDoc_spec (before ++ rest) siblings none (hsource ▸ hsib)
    refine ⟨siblingStart siblings, first, hfirst, ?_⟩
    rw [docStart, if_neg (not_not_intro hblock)]
  · refine ⟨_, _, attachedDoc_of_block hblock, ?_⟩
    rw [docStart, if_pos hblock]
    rfl

theorem docStart_le (hnode : node.SpanIn source)
    (hsib : ∀ p ∈ siblings, SyntaxNode.SpanIn source p ∧ p.endByte ≤ node.startByte) :
    docStart (textBefore source node.startByte) siblings ≤ node.startByte := by
  obtain ⟨rest, -, hlen⟩ := textBefore_spec hnode
  have habove := @utf8Len_aboveBlock_le (textBefore source node.startByte)
  unfold docStart
  split
  · omega
  · cases hs : siblingStart siblings with
    | none => exact Nat.le_of_eq hlen
    | some b =>
      obtain ⟨p, hp, rfl⟩ := siblingStart_mem hs
      obtain ⟨hspan, hle⟩ := hsib p hp
      exact Nat.le_trans hspan.le hle

theorem isSome_byteToLine_iff {b : Nat} (h : b ≤ utf8Len source) :
    (byteToLine source b).isSome = true ↔ source.IsBoundary b := by
  rw [byteToLine, Option.isSome_map, Nat.min_eq_left h, isSome_slice?_iff]
  exact ⟨fun h => h.2.2, fun h => ⟨Nat.zero_le b, isBoundary_zero, h⟩⟩

/-- The symbol of a construct on boundaries; off them there is a panic. -/
theorem hitOf_cases {name : Text} (hnode : node.SpanIn source)
    (hsib : ∀ p ∈ siblings, SyntaxNode.SpanIn source p ∧ p.endByte ≤ node.startByte) :
    (OnBoundaries source node siblings ∧ ∃ hit, hitOf language source name node siblings =
      some hit ∧ hit.range = ⟨docStart (textBefore source node.startByte) siblings, node.endByte⟩ ∧
      hit.nodeRange = node.byteRange) ∨
    (¬OnBoundaries source node siblings ∧ hitOf language source name node siblings = none) := by
  obtain ⟨doc, first, hdoc, hstart⟩ := attachedDoc_spec hnode fun p hp => (hsib p hp).1
  have hle := docStart_le hnode hsib
  have hend := hnode.stop.le
  have hspan := hnode.le
  generalize hb : docStart (textBefore source node.startByte) siblings = b at hstart hle
  have hfirst := @isSome_byteToLine_iff source b (by omega)
  have hlast := @isSome_byteToLine_iff source (max (node.endByte - 1) b) (by omega)
  have hlastIff : source.IsBoundary b →
      (source.IsBoundary (max (node.endByte - 1) b) ↔ b = node.endByte ∨
        source.EndsInByte node.endByte) := by
    intro hbound
    by_cases heq : b = node.endByte
    · rw [Nat.max_eq_right (by omega)]
      exact ⟨fun _ => .inl heq, fun _ => hbound⟩
    · rw [Nat.max_eq_left (by omega), isBoundary_sub_one_iff hnode.stop]
      exact ⟨.inr, fun h => h.resolve_left heq⟩
  have hcond : OnBoundaries source node siblings ↔
      source.IsBoundary b ∧ source.IsBoundary (max (node.endByte - 1) b) := by
    constructor
    · intro h
      have hs := hb ▸ h.start
      exact ⟨hs, (hlastIff hs).mpr (hb ▸ h.stop)⟩
    · intro ⟨hs, he⟩
      exact ⟨hb.symm ▸ hs, hb.symm ▸ (hlastIff hs).mp he⟩
  rw [hcond, ← hfirst, ← hlast]
  simp only [hitOf, hdoc, hstart, Option.bind_eq_bind, Option.bind_some]
  cases byteToLine source b with
  | none => exact .inr ⟨by simp, rfl⟩
  | some l =>
    cases byteToLine source (max (node.endByte - 1) b) with
    | none => exact .inr ⟨by simp, rfl⟩
    | some l' => exact .inl ⟨⟨rfl, rfl⟩, _, rfl, rfl, rfl⟩

/-! ## Matches -/

section
variable {tree : SyntaxTree source} {captures : List (Capture tree)} {ts : TreeSitter}
  {hits : List SymbolHit} {hit : SymbolHit}

theorem Capture.spanIn (c : Capture tree) : c.node.SpanIn source := tree.spans _ c.node_within

theorem Capture.siblings_spanIn (c : Capture tree) :
    ∀ p ∈ c.before, SyntaxNode.SpanIn source p ∧ p.endByte ≤ c.node.startByte :=
  fun p hp => ⟨tree.spans p (c.before_within p hp).1, (c.before_within p hp).2⟩

theorem exists_capture_slice (c : Capture tree) :
    ∃ t, c.node.byteRange.slice? source = some t :=
  Option.isSome_iff_exists.mp
    (isSome_slice?_iff.mpr ⟨c.spanIn.le, c.spanIn.start, c.spanIn.stop⟩)

theorem takeCapture_spec (m : Captured) (c : Capture tree) : ∃ m', takeCapture m c = some m' ∧
    m'.definition = (if c.name = "def" then some (c.node, c.before) else m.definition) ∧
    m'.name.isSome = (m.name.isSome || decide (c.name = "name")) := by
  obtain ⟨t, ht⟩ := exists_capture_slice c
  unfold takeCapture
  split
  · next h => exact ⟨{ m with name := some t }, by simp [ht], by simp [h], by simp [h]⟩
  · next h => exact ⟨{ m with recv := some t }, by simp [ht], by simp [h], by simp [h]⟩
  · next h => exact ⟨_, rfl, by simp [h], by simp [h]⟩
  · next hname _ hdef =>
    refine ⟨m, rfl, (if_neg hdef).symm, ?_⟩
    rw [decide_eq_false hname, Bool.or_false]

theorem foldlM_takeCapture (m : Captured) : ∃ m', captures.foldlM takeCapture m = some m' ∧
    m'.definition =
      (((captures.filter (·.name = "def")).getLast?.map fun c => (c.node, c.before)).or
        m.definition) ∧
    m'.name.isSome = (m.name.isSome || captures.any (·.name = "name")) := by
  induction captures generalizing m with
  | nil => exact ⟨m, rfl, by simp, by simp⟩
  | cons c captures ih =>
    obtain ⟨m₁, hm₁, hdef₁, hname₁⟩ := takeCapture_spec m c
    obtain ⟨m₂, hm₂, hdef₂, hname₂⟩ := ih m₁
    refine ⟨m₂, by rw [List.foldlM_cons, hm₁]; exact hm₂, ?_, ?_⟩
    · rw [hdef₂, hdef₁]
      by_cases hc : c.name = "def"
      · rw [if_pos hc, List.filter_cons_of_pos (by simpa using hc)]
        cases hl : (captures.filter (·.name = "def")).getLast? with
        | none => simp [List.getLast?_eq_none_iff.mp hl]
        | some d => simp [List.getLast?_cons, hl]
      · rw [if_neg hc, List.filter_cons_of_neg (by simpa using hc)]
    · rw [hname₂, hname₁, List.any_cons, Bool.or_assoc]

/-- A match gives the symbol of its construct, or none. -/
theorem matchHit_cases : (construct captures = none ∧ matchHit language captures = some none) ∨
    ∃ d, construct captures = some d ∧
      ((OnBoundaries source d.node d.before ∧ ∃ hit, matchHit language captures = some (some hit) ∧
        hit.range = ⟨docStart (textBefore source d.node.startByte) d.before, d.node.endByte⟩ ∧
        hit.nodeRange = d.node.byteRange) ∨
      (¬OnBoundaries source d.node d.before ∧ matchHit language captures = none)) := by
  obtain ⟨m, hm, hdef, hname⟩ := @foldlM_takeCapture source tree captures ⟨none, none, none⟩
  rw [Option.or_none] at hdef
  rw [Option.isSome_none, Bool.false_or] at hname
  unfold construct matchHit
  rw [hm]
  by_cases hn : captures.any (·.name = "name") = true
  · rw [hn] at hname
    obtain ⟨name, hname⟩ := Option.isSome_iff_exists.mp hname
    rw [if_pos hn]
    cases hd : (captures.filter (·.name = "def")).getLast? with
    | none =>
      rw [hd] at hdef
      refine .inl ⟨rfl, ?_⟩
      simp only [Option.bind_eq_bind, Option.bind_some, hdef, Option.map_none]
      rfl
    | some d =>
      rw [hd] at hdef
      refine .inr ⟨d, rfl, ?_⟩
      simp only [Option.bind_eq_bind, Option.bind_some, hdef, hname, Option.map_some]
      rcases hitOf_cases d.spanIn d.siblings_spanIn with ⟨hon, hit, hhit, hr⟩ | ⟨hoff, hnone⟩
      · exact .inl ⟨hon, hit, Option.bind_eq_some_iff.mpr ⟨hit, hhit, rfl⟩, hr⟩
      · exact .inr ⟨hoff, Option.bind_eq_none_iff.mpr fun hit h => by rw [hnone] at h; cases h⟩
  · refine .inl ⟨if_neg hn, ?_⟩
    rw [Bool.not_eq_true] at hn
    rw [hn, Option.isSome_eq_false_iff, Option.isNone_iff_eq_none] at hname
    simp only [Option.bind_eq_bind, Option.bind_some, hname]
    cases m.definition <;> rfl

theorem sound_of_matchHit (h : matchHit language captures = some (some hit)) :
    hit.Sound source := by
  rcases @matchHit_cases source language tree captures with
    ⟨-, hnone⟩ | ⟨d, -, ⟨hon, hit', hhit, hrange, hnode⟩ | ⟨-, hnone⟩⟩
  · rw [h] at hnone
    cases hnone
  · rw [h, Option.some_inj, Option.some_inj] at hhit
    subst hhit
    have hspan := d.spanIn
    exact {
      start := by rw [hrange]; exact hon.start
      stop := by rw [hrange]; exact hspan.stop
      nodeStart := by rw [hnode]; exact hspan.start
      doc_le := by
        rw [hrange, hnode]
        exact docStart_le hspan d.siblings_spanIn
      node_le := by rw [hnode]; exact hspan.le
      node_stop := by rw [hrange, hnode]; rfl }
  · rw [h] at hnone
    cases hnone

theorem isSome_matchHit_iff : (matchHit language captures).isSome = true ↔
    ∀ d, construct captures = some d → OnBoundaries source d.node d.before := by
  rcases @matchHit_cases source language tree captures with
    ⟨hnone, hm⟩ | ⟨d, hd, ⟨hon, hit, hm, -⟩ | ⟨hoff, hm⟩⟩
  · rw [hm, hnone]
    exact ⟨fun _ d h => (by cases h), fun _ => rfl⟩
  · rw [hm, hd]
    exact ⟨fun _ d' h => Option.some.inj h ▸ hon, fun _ => rfl⟩
  · rw [hm, hd]
    exact ⟨fun h => (by cases h), fun h => absurd (h d rfl) hoff⟩

/-! ## Symbols -/

theorem isSome_collectSymbols_iff : (collectSymbols ts language tree).isSome = true ↔
    ∀ captures ∈ ts.queryMatches language tree, ∀ d, construct captures = some d →
      OnBoundaries source d.node d.before := by
  have hmap : (collectSymbols ts language tree).isSome =
      ((ts.queryMatches language tree).mapM (matchHit language)).isSome := by
    unfold collectSymbols
    cases (ts.queryMatches language tree).mapM (matchHit language) <;> rfl
  rw [hmap, OptionList.isSome_mapM_iff]
  exact forall₂_congr fun captures _ => isSome_matchHit_iff

theorem SymbolHit.Sound.qualifyName (h : hit.Sound source) :
    (qualifyName hits hit).Sound source := by
  unfold SiftMcp.qualifyName
  dsimp only
  split
  · exact h
  · exact { h with }

theorem sound_of_collectSymbols (h : collectSymbols ts language tree = some hits) :
    ∀ hit ∈ hits, hit.Sound source := by
  obtain ⟨found, hfound, heq⟩ := Option.bind_eq_some_iff.mp h
  obtain rfl := Option.some.inj heq
  intro hit hhit
  obtain ⟨plain, hplain, rfl⟩ := List.mem_map.mp hhit
  obtain ⟨o, ho, rfl⟩ := List.mem_filterMap.mp hplain
  obtain ⟨captures, -, hm⟩ := OptionList.exists_of_mem_mapM hfound ho
  exact (sound_of_matchHit hm).qualifyName

end

/-! ## Bodies and fragments -/

section
variable {tree : SyntaxTree source} {ts : TreeSitter} {hits ordered : List SymbolHit}
  {hit : SymbolHit} {members : List ByteRange} {body signature : Text}

theorem mem_orderWithContainers : hit ∈ orderWithContainers hits ↔ hit ∈ hits :=
  List.mem_insertionSort _

theorem SymbolHit.Sound.le (h : hit.Sound source) : hit.range.start ≤ hit.range.stop :=
  Nat.le_trans h.doc_le (h.node_stop ▸ h.node_le)

theorem SymbolHit.Sound.isSome_slice? (h : hit.Sound source) :
    (hit.range.slice? source).isSome = true :=
  isSome_slice?_iff.mpr ⟨h.le, h.start, h.stop⟩

theorem cutMembers_cons {m : ByteRange} {stop cursor : Nat} :
    cutMembers source stop (m :: members) cursor =
      (if m.start > cursor ∧ m.start ≤ stop then source.slice? cursor m.start else some []).bind
        fun piece => (cutMembers source stop members (max cursor m.stop)).bind
          fun rest => some (piece ++ rest) := by
  rw [cutMembers]
  split <;> rfl

theorem isSome_cutMembers {stop cursor : Nat} (hstop : source.IsBoundary stop)
    (hcursor : source.IsBoundary cursor)
    (h : ∀ m ∈ members, source.IsBoundary m.start ∧ source.IsBoundary m.stop) :
    (cutMembers source stop members cursor).isSome = true := by
  induction members generalizing cursor with
  | nil =>
    unfold cutMembers
    split
    · next hlt => exact isSome_slice?_iff.mpr ⟨Nat.le_of_lt hlt, hcursor, hstop⟩
    · rfl
  | cons m members ih =>
    obtain ⟨hm, hrest⟩ := List.forall_mem_cons.mp h
    have hnext : source.IsBoundary (max cursor m.stop) := by
      rcases Nat.le_total cursor m.stop with hle | hle
      · rw [Nat.max_eq_right hle]
        exact hm.2
      · rw [Nat.max_eq_left hle]
        exact hcursor
    obtain ⟨rest, hsome⟩ := Option.isSome_iff_exists.mp (ih hnext hrest)
    have hpiece : (if m.start > cursor ∧ m.start ≤ stop then source.slice? cursor m.start
        else some []).isSome = true := by
      split
      · next hcond => exact isSome_slice?_iff.mpr ⟨Nat.le_of_lt hcond.1, hcursor, hm.1⟩
      · rfl
    obtain ⟨piece, hp⟩ := Option.isSome_iff_exists.mp hpiece
    rw [cutMembers_cons, hp, hsome]
    rfl

theorem isSome_bodyOfHit (hall : ∀ h ∈ ordered, SymbolHit.Sound source h) (h : hit.Sound source) :
    (bodyOfHit source ordered hit).isSome = true := by
  unfold bodyOfHit
  dsimp only
  split
  · refine isSome_cutMembers h.stop h.start fun m hm => ?_
    obtain ⟨other, hother, rfl⟩ := List.mem_map.mp ((List.mem_insertionSort _).mp hm)
    have hsound := hall other (List.mem_of_mem_filter hother)
    exact ⟨hsound.start, hsound.stop⟩
  · exact h.isSome_slice?

theorem isSome_firstSignatureLine (h : hit.Sound source) :
    (firstSignatureLine source hit.nodeRange).isSome = true := by
  have hslice : (hit.nodeRange.slice? source).isSome = true :=
    isSome_slice?_iff.mpr ⟨h.node_le, h.nodeStart, h.node_stop ▸ h.stop⟩
  obtain ⟨t, ht⟩ := Option.isSome_iff_exists.mp hslice
  rw [firstSignatureLine, ht]
  rfl

theorem isSome_finish {full pending tail : Text} {c : Cutter} {pieces : List Text}
    (h : c.Covers full signature pieces pending tail) :
    (c.finish full signature).isSome = true := by
  rcases h.finish with ⟨-, h⟩ | ⟨-, ⟨_, _, -, -, h⟩ | ⟨-, h⟩⟩ <;>
    exact Option.isSome_iff_exists.mpr ⟨_, h⟩

theorem isSome_splitIfOversize (h : hit.Sound source) :
    (splitIfOversize ts language tree hit body signature).isSome = true := by
  by_cases hlong : oversizeCharThreshold < body.length
  · obtain ⟨full, hfull⟩ := Option.isSome_iff_exists.mp h.isSome_slice?
    rw [splitIfOversize_eq hlong, hfull, Option.bind_some]
    split
    · rfl
    · have hends : ∀ e ∈ symbolEnds ts language tree hit, full.IsBoundary e ∧ 0 ≤ e :=
        fun e he => ⟨mem_symbolEnds h hfull he, Nat.zero_le e⟩
      obtain ⟨c, _, _, _, hrun, hcovers⟩ :=
        (@Cutter.covers_start full signature).run hends pairwise_symbolEnds
      obtain ⟨fragments, hfin⟩ := Option.isSome_iff_exists.mp (isSome_finish hcovers)
      rw [splitAtEnds_eq hrun hfin]
      rfl
  · unfold splitIfOversize
    rw [if_pos (Nat.le_of_not_lt hlong)]
    rfl

theorem isSome_chunksOfHit {blake3 : List UInt8 → ContentHash} {relPath : String}
    (hall : ∀ h ∈ ordered, SymbolHit.Sound source h) (h : hit.Sound source) :
    (chunksOfHit blake3 relPath language ts tree ordered hit).isSome = true := by
  obtain ⟨body, hbody⟩ := Option.isSome_iff_exists.mp (isSome_bodyOfHit hall h)
  obtain ⟨signature, hsig⟩ := Option.isSome_iff_exists.mp (isSome_firstSignatureLine h)
  obtain ⟨fragments, hfrag⟩ := Option.isSome_iff_exists.mp
    (@isSome_splitIfOversize source language tree ts hit body signature h)
  unfold chunksOfHit
  simp only [hbody, hsig, hfrag, Option.bind_eq_bind, Option.bind_some]
  split <;> rfl

end

/-! ## The prelude -/

/-- The spans of the symbols whose text is not blank. -/
def coveredRanges (source : Text) (ordered : List SymbolHit) : List ByteRange :=
  (ordered.filter fun hit => (bodyOfHit source ordered hit).any (trim · ≠ [])).map (·.range)

/-- The text up to the first symbol, if it is long enough to be a prelude, ends with a single
byte. -/
def PreludeEndsInByte (source : Text) (covered : List ByteRange) : Prop :=
  ∀ span text, preludeSpan source covered = some span → span.slice? source = some text →
    filePreludeMinChars ≤ (trim text).length → source.EndsInByte span.stop

section
variable {tree : SyntaxTree source} {ts : TreeSitter} {hits ordered : List SymbolHit}
  {blake3 : List UInt8 → ContentHash} {relPath : String} {covered : List ByteRange}
  {span : ByteRange}

theorem preludeSpan_spec (hcovered : ∀ r ∈ covered, source.IsBoundary r.start)
    (h : preludeSpan source covered = some span) :
    span.start = 0 ∧ span.stop ≠ 0 ∧ source.IsBoundary span.stop := by
  unfold preludeSpan at h
  split at h
  · split at h
    · cases h
    · next hne =>
      obtain rfl := Option.some.inj h
      refine ⟨rfl, ?_, isBoundary_utf8Len⟩
      exact fun hzero => hne (by rw [String.utf8Len_eq_zero.mp hzero]; rfl)
  · next first _ hsorted =>
    split at h
    · cases h
    · next hne =>
      obtain rfl := Option.some.inj h
      refine ⟨rfl, hne, hcovered first ?_⟩
      apply (List.mem_insertionSort fun p q : ByteRange => p.start ≤ q.start).mp
      rw [hsorted]
      exact List.mem_cons_self

theorem isSome_lineSpan_iff {stop : Nat} (hne : stop ≠ 0) (hstop : source.IsBoundary stop) :
    (lineSpan source 0 stop).isSome = true ↔ source.EndsInByte stop := by
  rw [← isBoundary_sub_one_iff hstop, ← isSome_byteToLine_iff (by have := hstop.le; omega)]
  obtain ⟨l, hl⟩ := Option.isSome_iff_exists.mp
    ((isSome_byteToLine_iff (Nat.zero_le _)).mpr (@isBoundary_zero source))
  unfold lineSpan
  rw [hl]
  simp only [Option.bind_eq_bind, Option.bind_some, if_neg hne, Nat.max_zero]
  cases byteToLine source (stop - 1) <;> exact Iff.rfl

theorem filePrelude_of_span {text : Text} (hspan : preludeSpan source covered = some span)
    (htext : span.slice? source = some text) : filePrelude source covered =
      some (if (trim text).length ≥ filePreludeMinChars then some (trim text) else none) := by
  unfold filePrelude
  simp only [hspan, htext, Option.bind_eq_bind, Option.bind_some]
  rfl

theorem isSome_preludeChunk_iff (hcovered : ∀ r ∈ covered, source.IsBoundary r.start) :
    (preludeChunk blake3 relPath language source covered).isSome = true ↔
      PreludeEndsInByte source covered := by
  unfold preludeChunk PreludeEndsInByte
  cases hspan : preludeSpan source covered with
  | none =>
    have hnone : filePrelude source covered = some none := by
      unfold filePrelude
      rw [hspan]
    rw [hnone]
    exact ⟨fun _ span text h => (by cases h), fun _ => rfl⟩
  | some span =>
    obtain ⟨hstart, hne, hstop⟩ := preludeSpan_spec hcovered hspan
    have hslice : (span.slice? source).isSome = true :=
      isSome_slice?_iff.mpr ⟨by omega, hstart ▸ isBoundary_zero, hstop⟩
    obtain ⟨text, htext⟩ := Option.isSome_iff_exists.mp hslice
    have hlines := isSome_lineSpan_iff hne hstop
    rw [filePrelude_of_span hspan htext]
    simp only [Option.bind_eq_bind, Option.bind_some, Option.getD_some, hstart]
    by_cases hlong : (trim text).length ≥ filePreludeMinChars
    · have hiff : (∀ span' text', some span = some span' → span'.slice? source = some text' →
          filePreludeMinChars ≤ (trim text').length → source.EndsInByte span'.stop) ↔
          source.EndsInByte span.stop := by
        constructor
        · exact fun h => h span text rfl htext hlong
        · intro h span' text' heq _ _
          obtain rfl := Option.some.inj heq
          exact h
      rw [hiff, ← hlines, if_pos hlong]
      cases lineSpan source 0 span.stop <;> exact Iff.rfl
    · rw [if_neg hlong]
      refine ⟨fun _ span' text' heq htext' hlong' => ?_, fun _ => rfl⟩
      obtain rfl := Option.some.inj heq
      rw [htext] at htext'
      obtain rfl := Option.some.inj htext'
      exact absurd hlong' hlong

/-! ## The file -/

theorem isSome_chunks_iff {hit : SymbolHit} {part : Option (List FragmentChunk)}
    (h : chunksOfHit blake3 relPath language ts tree ordered hit = some part) :
    part.isSome = (bodyOfHit source ordered hit).any (trim · ≠ []) := by
  obtain ⟨body, hbody, h⟩ := Option.bind_eq_some_iff.mp h
  rw [hbody]
  by_cases hblank : trim body = []
  · rw [if_pos hblank] at h
    obtain rfl := Option.some.inj h
    simp [hblank]
  · rw [if_neg hblank] at h
    obtain ⟨_, _, h⟩ := Option.bind_eq_some_iff.mp h
    obtain ⟨_, _, h⟩ := Option.bind_eq_some_iff.mp h
    obtain rfl := Option.some.inj h
    simp [hblank]

theorem covered_eq {xs : List SymbolHit} {parts : List (Option (List FragmentChunk))}
    (h : xs.mapM (chunksOfHit blake3 relPath language ts tree ordered) = some parts) :
    ((xs.zip parts).filter (·.2.isSome)).map (·.1.range) =
      (xs.filter fun hit => (bodyOfHit source ordered hit).any (trim · ≠ [])).map (·.range) := by
  have hall := OptionList.mapM_eq_some_iff.mp h
  clear h
  induction hall with
  | nil => rfl
  | @cons hit part _ _ hpart _ ih =>
    have hsome := isSome_chunks_iff hpart
    rw [List.zip_cons_cons, List.filter_cons, List.filter_cons]
    dsimp only
    rw [hsome]
    split
    · rw [List.map_cons, List.map_cons, ih]
    · exact ih

/-- What the tree of a file must be like for the chunker not to panic. -/
structure Sliceable (ts : TreeSitter) (language : Language) {source : Text}
    (tree : SyntaxTree source) : Prop where
  constructs : ∀ captures ∈ ts.queryMatches language tree, ∀ d, construct captures = some d →
    OnBoundaries source d.node d.before
  prelude : ∀ hits, collectSymbols ts language tree = some hits →
    PreludeEndsInByte source (coveredRanges source (orderWithContainers hits))

theorem isSome_chunkTree_iff : (do
      let ordered := orderWithContainers (← collectSymbols ts language tree)
      let parts ← ordered.mapM (chunksOfHit blake3 relPath language ts tree ordered)
      let covered := ((ordered.zip parts).filter (·.2.isSome)).map (·.1.range)
      let prelude ← preludeChunk blake3 relPath language source covered
      return (⟨prelude ++ parts.flatMap (·.getD []), []⟩ : ChunkedFile) :
        Option ChunkedFile).isSome =
    true ↔ Sliceable ts language tree := by
  cases hhits : collectSymbols ts language tree with
  | none =>
    refine ⟨fun h => (by cases h), fun h => ?_⟩
    have hsome := isSome_collectSymbols_iff.mpr h.constructs
    rw [hhits] at hsome
    cases hsome
  | some hits =>
    have hconstructs := isSome_collectSymbols_iff.mp (Option.isSome_iff_exists.mpr ⟨hits, hhits⟩)
    have hsound : ∀ h ∈ orderWithContainers hits, SymbolHit.Sound source h :=
      fun h hh => sound_of_collectSymbols hhits h (mem_orderWithContainers.mp hh)
    obtain ⟨parts, hparts⟩ := Option.isSome_iff_exists.mp (OptionList.isSome_mapM_iff.mpr
      fun hit hhit => @isSome_chunksOfHit source language tree ts _ hit blake3 relPath hsound
        (hsound hit hhit))
    have hcovered : ∀ r ∈ coveredRanges source (orderWithContainers hits), source.IsBoundary
        r.start := by
      intro r hr
      obtain ⟨hit, hhit, rfl⟩ := List.mem_map.mp hr
      exact (hsound hit (List.mem_of_mem_filter hhit)).start
    have hprelude := @isSome_preludeChunk_iff source language blake3 relPath _ hcovered
    simp only [Option.bind_eq_bind, Option.bind_some, hparts, covered_eq hparts]
    have hiff : Sliceable ts language tree ↔
        PreludeEndsInByte source (coveredRanges source (orderWithContainers hits)) := by
      refine ⟨fun h => h.prelude hits hhits, fun h => ⟨hconstructs, fun hits' heq => ?_⟩⟩
      rw [hhits] at heq
      exact Option.some.inj heq ▸ h
    rw [hiff, ← hprelude]
    unfold coveredRanges
    cases preludeChunk blake3 relPath language source _ <;> exact Iff.rfl

/-- The chunker does not panic on a file exactly if the tree that it chunks lets it slice. -/
theorem isSome_chunkFile_iff (blake3 : List UInt8 → ContentHash) (relPath : String)
    (language : Language) (ts : TreeSitter) (source : Text) :
    (chunkFile blake3 relPath language ts source).isSome = true ↔
      ∀ tree, ts.setLanguage language = true → ts.parse language source = some tree →
        tooManyErrors tree.root = false → Sliceable ts language tree := by
  unfold chunkFile
  cases hlang : ts.setLanguage language with
  | false => exact ⟨fun _ _ h => (by cases h), fun _ => rfl⟩
  | true =>
    cases hparse : ts.parse language source with
    | none => exact ⟨fun _ _ _ h => (by cases h), fun _ => rfl⟩
    | some tree =>
      cases herr : tooManyErrors tree.root with
      | true =>
        refine ⟨fun _ tree' _ h herr' => ?_, fun _ => by simp [herr]⟩
        obtain rfl := Option.some.inj h
        rw [herr] at herr'
        cases herr'
      | false =>
        have htree := @isSome_chunkTree_iff source language tree ts blake3 relPath
        simp only [Bool.not_true, Bool.false_eq_true, if_false, herr]
        rw [htree]
        refine ⟨fun h tree' _ heq _ => Option.some.inj heq ▸ h, fun h => h tree trivial rfl herr⟩

end

/-! ## A construct that ends with a wide character -/

/-- A Python function whose last character takes two bytes. -/
def accentSource : Text := "def f():\n    return é".toList

def accentTree : SyntaxTree accentSource where
  root := .plain "module" 0 22 [.plain "function_definition" 0 22 [
    .plain "def" 0 3 [], .plain "identifier" 4 5 [], .plain "parameters" 5 7 [],
    .plain "block" 13 22 [.plain "return_statement" 13 22 [.plain "identifier" 20 22 []]]]]
  spans := SyntaxNode.forall_within_iff.mpr (by decide +kernel)

def accentParser : TreeSitter :=
  accentTree.parser [[⟨"def", [0], []⟩, ⟨"name", [0, 1], []⟩]]

theorem chunkFile_panics :
    chunkFile (fun _ => ⟨0⟩) "a.py" .python accentParser accentSource = none := by decide +kernel

end SiftMcp
