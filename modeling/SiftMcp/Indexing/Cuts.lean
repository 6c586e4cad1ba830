import SiftMcp.Indexing.HardSplit
import Mathlib.Data.List.Dedup

/-!
# Splitting at the ends of statements

The loop over the statement ends cuts a text into consecutive pieces and has each of them in a
fragment. The rest behind the last cut is a piece of its own, or joins the last one. Where the text
that it joins, without the signature it begins with, begins with the signature again, that one is
taken for the signature, and the other one is lost.

* `splitAtEnds_splitsInto`: the fragments of a cut hold the text.
* `splitIfOversize_splitsInto`: so do those of a symbol, unless its signature is doubled.
-/

namespace SiftMcp
open Text
open String (utf8Len)

/-- Where the loop stands: the pieces it has cut, what lies between the last cut and the last
statement that was too small to be cut off, and the rest. -/
structure Cutter.Covers (full signature : Text) (c : Cutter) (pieces : List Text)
    (pending tail : Text) : Prop where
  text : full = pieces.flatten ++ (pending ++ tail)
  start : c.start = utf8Len pieces.flatten
  lastCut : c.lastCut = c.start + utf8Len pending
  fragments : c.fragments = pieces.map (prefixSig signature)
  small : pending.length < oversizeCharThreshold / 2
  large : ∀ p, pieces.getLast? = some p → oversizeCharThreshold / 2 ≤ p.length

/-- The offsets of a symbol are boundaries, and its documentation comes before it. -/
structure SymbolHit.Sound (source : Text) (hit : SymbolHit) : Prop where
  start : source.IsBoundary hit.range.start
  stop : source.IsBoundary hit.range.stop
  nodeStart : source.IsBoundary hit.nodeRange.start
  doc_le : hit.range.start ≤ hit.nodeRange.start
  node_le : hit.nodeRange.start ≤ hit.nodeRange.stop
  node_stop : hit.nodeRange.stop = hit.range.stop

variable {full signature pending tail p : Text} {pieces ps : List Text} {c : Cutter} {stop : Nat}
  {ends : List Nat}

theorem Cutter.covers_start : Covers full signature ⟨[], 0, 0⟩ [] [] full :=
  ⟨rfl, rfl, rfl, rfl, by decide, fun p hp => by cases hp⟩

namespace Cutter.Covers

/-- A piece that is cut off. -/
theorem push {rest : Text} (h : Covers full signature c pieces pending tail)
    (htext : full = pieces.flatten ++ (p ++ rest)) (hp : oversizeCharThreshold / 2 ≤ p.length)
    (hstop : stop = c.start + utf8Len p) :
    Covers full signature ⟨c.fragments ++ [prefixSig signature p], stop, stop⟩ (pieces ++ [p])
      [] rest where
  text := by simp [htext]
  start := by simp [hstop, h.start]
  lastCut := by simp
  fragments := by simp [h.fragments]
  small := by decide
  large := by
    intro q hq
    rw [List.getLast?_concat, Option.some_inj] at hq
    exact hq ▸ hp

theorem slice?_pending (h : Covers full signature c pieces pending tail) :
    full.slice? c.start c.lastCut = some pending :=
  slice?_eq_some_iff.mpr ⟨pieces.flatten, tail, by rw [h.text, List.append_assoc], h.start.symm,
    by rw [h.lastCut, h.start]⟩

theorem slice?_rest (h : Covers full signature c pieces pending tail) :
    full.slice? c.start (utf8Len full) = some (pending ++ tail) :=
  slice?_eq_some_iff.mpr ⟨pieces.flatten, [], by rw [h.text, List.append_nil], h.start.symm,
    by rw [← String.utf8Len_append, ← h.text]⟩

/-- A turn of the loop takes its slices on boundaries and goes on covering the text. -/
theorem turn (h : Covers full signature c pieces pending tail) (hstop : full.IsBoundary stop)
    (hcut : c.lastCut ≤ stop) : ∃ c' pieces' pending' tail', c.turn full signature stop = some c' ∧
      Covers full signature c' pieces' pending' tail' ∧ c'.lastCut ≤ stop := by
  by_cases hskip : stop ≤ c.start ∨ stop > utf8Len full
  · exact ⟨c, pieces, pending, tail, if_pos hskip, h, hcut⟩
  · -- The candidate is what is pending and the text up to the end of this statement.
    obtain ⟨q, r, hqr, hq⟩ := hstop
    have hcutLen : c.lastCut = utf8Len (pieces.flatten ++ pending) := by
      rw [h.lastCut, h.start, String.utf8Len_append]
    have hfull : pieces.flatten ++ pending ++ tail = q ++ r := by
      rw [List.append_assoc, ← h.text, hqr]
    obtain ⟨x, rfl, rfl⟩ := exists_between hfull (by omega)
    have hlen : stop = c.start + utf8Len (pending ++ x) := by
      rw [← hq, h.start, List.append_assoc, String.utf8Len_append]
    have htext : full = pieces.flatten ++ ((pending ++ x) ++ r) := by rw [← hqr]; simp
    have hcand : full.slice? c.start stop = some (pending ++ x) :=
      slice?_eq_some_iff.mpr ⟨pieces.flatten, r, by rw [htext, List.append_assoc], h.start.symm,
        by rw [hlen, h.start]⟩
    unfold Cutter.turn
    rw [if_neg hskip, hcand]
    simp only [Option.bind_eq_bind, Option.bind_some]
    by_cases hmid : oversizeCharThreshold / 2 ≤ (pending ++ x).length ∧
        (pending ++ x).length ≤ oversizeCharThreshold
    · rw [if_pos hmid]
      exact ⟨_, _, _, _, rfl, h.push htext hmid.1 hlen, Nat.le_refl _⟩
    · rw [if_neg hmid]
      by_cases hbig : (pending ++ x).length > oversizeCharThreshold
      · rw [if_pos hbig]
        by_cases hpend : c.lastCut > c.start
        · rw [if_pos hpend, h.slice?_pending]
          have hx : full.slice? c.lastCut stop = some x :=
            slice?_eq_some_iff.mpr ⟨pieces.flatten ++ pending, r, hqr, hcutLen.symm,
              by rw [← String.utf8Len_append, hq]⟩
          simp only [Option.bind_some, hx]
          have hxlen : oversizeCharThreshold / 2 ≤ x.length := by
            have := h.small
            rw [List.length_append] at hbig
            unfold oversizeCharThreshold at *
            omega
          refine ⟨_, pieces ++ [pending, x], [], r, rfl, ?_, Nat.le_refl _⟩
          refine ⟨by simp [htext], ?_, by simp, by simp [h.fragments], by decide, ?_⟩
          · rw [hlen, h.start]
            simp
          · intro p hp
            rw [List.getLast?_append_of_ne_nil _ (by simp)] at hp
            cases hp
            exact hxlen
        · rw [if_neg hpend]
          simp only [Option.bind_some, hcand]
          refine ⟨_, _, _, _, rfl, h.push htext ?_ hlen, Nat.le_refl _⟩
          unfold oversizeCharThreshold at *
          omega
      · rw [if_neg hbig]
        refine ⟨_, pieces, pending ++ x, r, rfl, ⟨htext, h.start, hlen, h.fragments, ?_, h.large⟩,
          Nat.le_refl _⟩
        unfold oversizeCharThreshold at *
        omega

/-- The run of the loop over statement ends in ascending order. -/
theorem run (h : Covers full signature c pieces pending tail)
    (hends : ∀ e ∈ ends, full.IsBoundary e ∧ c.lastCut ≤ e) (hsorted : ends.Pairwise (· ≤ ·)) :
    ∃ c' pieces' pending' tail', ends.foldlM (Cutter.turn full signature) c = some c' ∧
      Covers full signature c' pieces' pending' tail' := by
  induction ends generalizing c pieces pending tail with
  | nil => exact ⟨c, pieces, pending, tail, rfl, h⟩
  | cons e ends ih =>
    obtain ⟨⟨he, hcut⟩, hrest⟩ := List.forall_mem_cons.mp hends
    obtain ⟨hle, hsorted⟩ := List.pairwise_cons.mp hsorted
    obtain ⟨c₁, _, _, _, hturn, h₁, hcut₁⟩ := h.turn he hcut
    obtain ⟨c₂, _, _, _, hrun, h₂⟩ :=
      ih h₁ (fun e' he' => ⟨(hrest e' he').1, Nat.le_trans hcut₁ (hle e' he')⟩) hsorted
    exact ⟨c₂, _, _, _, by rw [List.foldlM_cons, hturn]; exact hrun, h₂⟩

end Cutter.Covers

/-! ## The rest behind the last cut -/

/-- The last fragment takes in the rest, and what this makes, without the signature, begins with the
signature. -/
def Cutter.DoublesSignature (full signature : Text) (c : Cutter) : Prop :=
  signature ≠ [] ∧ ∃ last ∈ c.fragments.getLast?, ∃ tail ∈ full.slice? c.start (utf8Len full),
    trim tail ≠ [] ∧ last.length + (trim tail).length ≤ oversizeCharThreshold ∧
      signature <+: stripSigPrefix last signature ++ trim tail

instance : Decidable (c.DoublesSignature full signature) :=
  inferInstanceAs (Decidable (_ ∧ ∃ _ ∈ _, ∃ _ ∈ _, _ ∧ _ ∧ _))

theorem stripSigPrefix_append (t : Text) : stripSigPrefix (signature ++ t) signature =
    (stripPrefix? ['\n'] t).getD t := by
  unfold stripSigPrefix
  rw [stripPrefix?_eq_some_iff.mpr rfl]

theorem solid_stripLineFeed (t : Text) : solid ((stripPrefix? ['\n'] t).getD t) = solid t := by
  cases h : stripPrefix? ['\n'] t with
  | none => rfl
  | some s =>
    rw [stripPrefix?_eq_some_iff.mp h]
    rfl

/-- A prefix no longer than the first part is a prefix of it. -/
theorem prefix_of_length_le {a b : Text} (h : signature <+: a ++ b)
    (hlen : signature.length ≤ a.length) : signature <+: a :=
  List.prefix_of_prefix_length_le h (List.prefix_append a b) hlen

/-- The last piece with the rest, where the signature is not lost. -/
theorem solid_merged {rest : Text} (hsig : IsSignature signature)
    (hlarge : oversizeCharThreshold / 2 ≤ p.length)
    (hsmall : (prefixSig signature p).length + (trim rest).length ≤ oversizeCharThreshold)
    (hdouble : signature = [] ∨
      ¬signature <+: stripSigPrefix (prefixSig signature p) signature ++ trim rest) :
    solid (prefixSig signature (stripSigPrefix (prefixSig signature p) signature ++ trim rest)) =
      solid (prefixSig signature (p ++ rest)) := by
  by_cases hp : signature <+: p
  · obtain ⟨q, rfl⟩ := hp
    have hwhole : signature <+: signature ++ q ++ rest := by
      rw [List.append_assoc]
      exact List.prefix_append ..
    rw [prefixSig_of_starts (List.prefix_append ..), stripSigPrefix_append] at hdouble ⊢
    rw [prefixSig_of_starts hwhole]
    rcases hdouble with rfl | hdouble
    · rw [prefixSig_of_starts List.nil_prefix]
      simp [solid_stripLineFeed, solid_trim]
    · rw [prefixSig_of_not_starts hdouble, solid_signature_append]
      simp [solid_stripLineFeed, solid_trim]
  · rw [prefixSig_of_not_starts hp] at hsmall ⊢
    have hstrip : stripSigPrefix (signature ++ '\n' :: p) signature = p := by
      rw [stripSigPrefix_append]
      rfl
    -- The signature is shorter than the piece, so that it begins neither with the rest nor without.
    have hlen : signature.length ≤ p.length := by
      rw [List.length_append, List.length_cons] at hsmall
      unfold oversizeCharThreshold at *
      omega
    rw [hstrip]
    refine solid_prefixSig (by simp [solid_trim]) ?_
    exact ⟨fun h => absurd (prefix_of_length_le h hlen) hp,
      fun h => absurd (prefix_of_length_le h hlen) hp⟩

theorem forall₂_prefixSig : List.Forall₂ (fun f p => solid f = solid (prefixSig signature p))
    (pieces.map (prefixSig signature)) pieces := by
  induction pieces with
  | nil => exact .nil
  | cons p pieces ih => exact .cons rfl ih

theorem forall_prefixSig : ∀ f ∈ pieces.map (prefixSig signature), signature <+: f := by
  intro f hf
  obtain ⟨p, -, rfl⟩ := List.mem_map.mp hf
  exact prefix_prefixSig

/-- What the end of the loop gives. -/
theorem Cutter.Covers.finish (h : Covers full signature c pieces pending tail) :
    (trim (pending ++ tail) = [] ∧ c.finish full signature = some c.fragments) ∨
    (trim (pending ++ tail) ≠ [] ∧
      ((∃ ps p, pieces = ps ++ [p] ∧
          (prefixSig signature p).length + (trim (pending ++ tail)).length ≤ oversizeCharThreshold ∧
          c.finish full signature = some (ps.map (prefixSig signature) ++
            [prefixSig signature (stripSigPrefix (prefixSig signature p) signature ++
              trim (pending ++ tail))])) ∨
        ((∀ ps p, pieces = ps ++ [p] → oversizeCharThreshold <
            (prefixSig signature p).length + (trim (pending ++ tail)).length) ∧
          c.finish full signature =
            some (c.fragments ++ [prefixSig signature (pending ++ tail)])))) := by
  unfold Cutter.finish
  by_cases hstart : c.start < utf8Len full
  · rw [if_pos hstart, h.slice?_rest]
    simp only [Option.bind_eq_bind, Option.bind_some]
    by_cases hblank : trim (pending ++ tail) = []
    · exact .inl ⟨hblank, if_pos hblank⟩
    · refine .inr ⟨hblank, ?_⟩
      rw [if_neg hblank]
      rcases List.eq_nil_or_concat pieces with rfl | ⟨ps, p, rfl⟩
      · refine .inr ⟨fun ps p hps => absurd hps.symm (by simp), ?_⟩
        rw [h.fragments]
        rfl
      · have hfrag : c.fragments = ps.map (prefixSig signature) ++ [prefixSig signature p] := by
          rw [h.fragments, List.concat_eq_append, List.map_append, List.map_singleton]
        rw [hfrag, List.getLast?_concat, List.dropLast_concat]
        dsimp only
        split
        · next hle => exact .inl ⟨ps, p, List.concat_eq_append, hle, rfl⟩
        · next hle =>
          refine .inr ⟨fun ps' p' hps => ?_, rfl⟩
          rw [List.concat_eq_append] at hps
          obtain ⟨-, hp⟩ := List.append_inj' hps rfl
          obtain rfl := List.singleton_inj.mp hp
          exact Nat.lt_of_not_le hle
  · rw [if_neg hstart]
    have hlen : utf8Len full = c.start + utf8Len (pending ++ tail) := by
      rw [h.start, ← String.utf8Len_append, ← h.text]
    have hnil : pending ++ tail = [] := String.utf8Len_eq_zero.mp (by omega)
    exact .inl ⟨by rw [hnil]; rfl, rfl⟩

theorem splitAtEnds_eq {body : Text} {fragments : List Text}
    (hrun : ends.foldlM (Cutter.turn full signature) ⟨[], 0, 0⟩ = some c)
    (hfin : c.finish full signature = some fragments) : splitAtEnds full body signature ends =
      some (if fragments = [] then hardSplit body signature else fragments) := by
  unfold splitAtEnds
  rw [hrun]
  simp only [Option.bind_eq_bind, Option.bind_some, hfin]
  rfl

/-- The fragments hold the text, as long as the signature is not doubled. -/
theorem splitAtEnds_splitsInto (hsig : IsSignature signature)
    (hends : ∀ e ∈ ends, full.IsBoundary e) (hsorted : ends.Pairwise (· ≤ ·))
    (hdouble : ∀ c, ends.foldlM (Cutter.turn full signature) ⟨[], 0, 0⟩ = some c →
      ¬c.DoublesSignature full signature) :
    ∃ fragments, splitAtEnds full full signature ends = some fragments ∧
      SplitsInto full signature fragments := by
  obtain ⟨c, pieces, pending, tail, hrun, h⟩ := Cutter.covers_start.run
    (fun e he => ⟨hends e he, Nat.zero_le e⟩) hsorted
  have hnot := hdouble c hrun
  rcases h.finish with ⟨hrest, hfin⟩ | ⟨hrest, ⟨ps, p, rfl, hlen, hfin⟩ | ⟨-, hfin⟩⟩
  · by_cases hnil : c.fragments = []
    · exact ⟨_, (splitAtEnds_eq hrun hfin).trans (congrArg some (if_pos hnil)),
        hardSplit_splitsInto hsig⟩
    refine ⟨c.fragments, (splitAtEnds_eq hrun hfin).trans (congrArg some (if_neg hnil)), pieces,
      ?_, ?_, ?_⟩
    · have htext := h.text
      rw [htext, ← List.append_nil pieces, List.flatten_append]
      exact Pieces.append (by simpa using Pieces.flatten) (trim_eq_nil_iff.mp hrest)
    · rw [h.fragments]
      exact forall₂_prefixSig
    · rw [h.fragments]
      exact forall_prefixSig
  · have hlast : c.fragments.getLast? = some (prefixSig signature p) := by
      rw [h.fragments, List.map_append, List.map_singleton, List.getLast?_concat]
    have hlarge : oversizeCharThreshold / 2 ≤ p.length := h.large p List.getLast?_concat
    have hsolid := @solid_merged signature p (pending ++ tail) hsig hlarge hlen (by
      by_cases hnil : signature = []
      · exact .inl hnil
      · exact .inr fun hpre => hnot ⟨hnil, _, hlast, _, h.slice?_rest, hrest, hlen, hpre⟩)
    refine ⟨_, (splitAtEnds_eq hrun hfin).trans (congrArg some (if_neg (by simp))),
      ps ++ [p ++ (pending ++ tail)], ?_, ?_, ?_⟩
    · rw [h.text, List.flatten_append, List.flatten_singleton, List.append_assoc]
      exact Pieces.flatten.append Pieces.single
    · exact List.rel_append forall₂_prefixSig (.cons hsolid .nil)
    · exact List.forall_mem_append.mpr ⟨forall_prefixSig, by simp [prefix_prefixSig]⟩
  · rw [h.fragments] at hfin
    refine ⟨_, (splitAtEnds_eq hrun hfin).trans (congrArg some (if_neg (by simp))),
      pieces ++ [pending ++ tail], ?_, ?_, ?_⟩
    · rw [h.text]
      exact Pieces.flatten.append Pieces.single
    · exact List.rel_append forall₂_prefixSig (.cons rfl .nil)
    · exact List.forall_mem_append.mpr ⟨forall_prefixSig, by simp [prefix_prefixSig]⟩

/-! ## Symbols -/

section
variable {source text : Text} {tree : SyntaxTree source} {hit : SymbolHit} {language : Language}
  {node : SyntaxNode} {nodeRange : ByteRange} {ts : TreeSitter} {ordered : List SymbolHit}

theorem mem_statementEnds {e : Nat} (hnode : node.Within tree.root)
    (h : e ∈ statementEnds language nodeRange node) :
    source.IsBoundary e ∧ nodeRange.start ≤ e ∧ e ≤ nodeRange.stop := by
  rw [statementEnds, List.mem_dedup, List.mem_insertionSort, SyntaxNode.mem_collect_iff] at h
  obtain ⟨n, hn, he⟩ := h
  split at he
  · next hcond =>
    obtain rfl := List.mem_singleton.mp he
    have hspan := tree.spans n (hn.trans hnode)
    exact ⟨hspan.stop, Nat.le_trans hcond.2.1 hspan.le, hcond.2.2⟩
  · cases he

theorem pairwise_statementEnds : (statementEnds language nodeRange node).Pairwise (· ≤ ·) :=
  (List.pairwise_insertionSort (· ≤ ·) _).sublist (List.dedup_sublist _)

/-- The node at which the chunker looks for statements. -/
def splitNode (ts : TreeSitter) {source : Text} (tree : SyntaxTree source) (hit : SymbolHit) :
    SyntaxNode :=
  (ts.descendantForByteRange tree hit.nodeRange.start hit.nodeRange.stop).getD tree.root

theorem splitNode_within : (splitNode ts tree hit).Within tree.root := by
  unfold splitNode
  cases h : ts.descendantForByteRange tree hit.nodeRange.start hit.nodeRange.stop with
  | none => exact .start (List.mem_singleton_self _)
  | some n => exact ts.descendant_within tree _ _ n h

/-- The offsets in the text of a symbol at which its statements end. -/
def symbolEnds (ts : TreeSitter) (language : Language) {source : Text} (tree : SyntaxTree source)
    (hit : SymbolHit) : List Nat :=
  (statementEnds language hit.nodeRange (splitNode ts tree hit)).map (· - hit.range.start)

theorem mem_symbolEnds {e : Nat} (hsound : hit.Sound source)
    (htext : hit.range.slice? source = some text) (h : e ∈ symbolEnds ts language tree hit) :
    text.IsBoundary e := by
  obtain ⟨b, hb, rfl⟩ := List.mem_map.mp h
  obtain ⟨hbound, hstart, hstop⟩ := mem_statementEnds splitNode_within hb
  exact hbound.within htext (Nat.le_trans hsound.doc_le hstart) (hsound.node_stop ▸ hstop)

theorem pairwise_symbolEnds : (symbolEnds ts language tree hit).Pairwise (· ≤ ·) :=
  List.pairwise_map.mpr (pairwise_statementEnds.imp fun h => Nat.sub_le_sub_right h _)

theorem splitIfOversize_eq {body signature : Text} (hlong : oversizeCharThreshold < body.length) :
    splitIfOversize ts language tree hit body signature =
      if symbolEnds ts language tree hit = [] then some (hardSplit body signature)
      else (hit.range.slice? source).bind fun full =>
        splitAtEnds full body signature (symbolEnds ts language tree hit) := by
  unfold splitIfOversize
  rw [if_neg (Nat.not_le_of_lt hlong)]
  simp only [symbolEnds, List.map_eq_nil_iff]
  rfl

theorem isSignature_of_firstSignatureLine
    (h : firstSignatureLine source nodeRange = some signature) : IsSignature signature := by
  obtain ⟨t, -, hs⟩ := Option.bind_eq_some_iff.mp h
  obtain rfl := Option.some.inj hs
  constructor
  · intro hmem
    obtain ⟨a, b, -, -, hab⟩ := @exists_trim ((((lines t).map trimEnd).find? (trim · ≠ [])).getD [])
    have hline : '\n' ∈ (((lines t).map trimEnd).find? (trim · ≠ [])).getD [] := by
      rw [hab]
      exact List.mem_append_left _ (List.mem_append_right _ hmem)
    cases hf : ((lines t).map trimEnd).find? (trim · ≠ []) with
    | none =>
      rw [hf] at hline
      exact List.not_mem_nil hline
    | some l =>
      rw [hf] at hline
      obtain ⟨l', hl', rfl⟩ := List.mem_map.mp (List.mem_of_find?_eq_some hf)
      exact lineFeed_not_mem_lines hl' ((List.rdropWhile_prefix _ _).subset hline)
  · exact trim_trim

theorem bodyOfHit_of_not_container (h : hit.isContainer = false) :
    bodyOfHit source ordered hit = hit.range.slice? source := by
  unfold bodyOfHit
  dsimp only
  rw [if_neg (by simp [h])]

/-- Fragments that hold a text hold at least as much. -/
theorem SplitsInto.length_le {fragments : List Text} (h : SplitsInto text signature fragments) :
    (solid text).length ≤ (fragments.map fun f => (solid f).length).sum := by
  obtain ⟨pieces, hpieces, hall, -⟩ := h
  rw [hpieces.solid_eq, List.length_flatten, List.map_map]
  clear hpieces
  induction hall with
  | nil => exact Nat.le_refl _
  | @cons f p _ _ hf _ ih =>
    rw [List.map_cons, List.map_cons, List.sum_cons, List.sum_cons, hf]
    refine Nat.add_le_add ?_ ih
    by_cases hp : signature <+: p
    · rw [prefixSig_of_starts hp]
      exact Nat.le_refl _
    · rw [prefixSig_of_not_starts hp, solid_signature_append, List.length_append]
      exact Nat.le_add_left ..

theorem solid_ne_nil (hsig : IsSignature signature) (hne : signature ≠ []) :
    solid signature ≠ [] := by
  intro h
  apply hne
  rw [← hsig.trimmed, trim_eq_nil_iff]
  intro c hc
  by_contra hw
  have : c ∈ solid signature := List.mem_filter.mpr ⟨hc, by simpa using hw⟩
  rw [h] at this
  exact List.not_mem_nil this

/-- Where the only fragment doubles the signature, one of the two is lost. -/
theorem not_splitsInto_of_doubles (hsig : IsSignature signature)
    (h : Cutter.Covers full signature c pieces pending tail)
    (hdouble : c.DoublesSignature full signature) (hone : c.fragments.length = 1) :
    ∃ fragments, c.finish full signature = some fragments ∧ fragments ≠ [] ∧
      ¬SplitsInto full signature fragments := by
  obtain ⟨hne, last, hlast, rest, hrest, htrim, hlen, hpre⟩ := hdouble
  rw [h.slice?_rest] at hrest
  obtain rfl := Option.some.inj hrest
  rw [h.fragments, List.length_map] at hone
  obtain ⟨p, rfl⟩ := List.length_eq_one_iff.mp hone
  rw [h.fragments] at hlast
  obtain rfl : prefixSig signature p = last := Option.some.inj hlast
  have hlarge := h.large p rfl
  have hfin : c.finish full signature =
      some [stripSigPrefix (prefixSig signature p) signature ++ trim (pending ++ tail)] := by
    rcases h.finish with ⟨hnil, -⟩ | ⟨-, ⟨ps, q, hps, -, hfin⟩ | ⟨hlong, -⟩⟩
    · exact absurd hnil htrim
    · obtain ⟨rfl, hq⟩ := List.append_eq_singleton_iff.mp hps.symm |>.resolve_right (by simp)
      obtain rfl := List.singleton_inj.mp hq
      rw [prefixSig_of_starts hpre] at hfin
      exact hfin
    · exact absurd hlen (Nat.not_le_of_lt (hlong [] p rfl))
  refine ⟨_, hfin, List.cons_ne_nil _ _, fun hsplit => ?_⟩
  have hle := hsplit.length_le
  have hsolid := List.length_pos_iff.mpr (solid_ne_nil hsig hne)
  -- The piece begins with the signature: otherwise it would be too long for another one to fit in.
  have hp : signature <+: p := by
    by_contra hp
    rw [prefixSig_of_not_starts hp] at hlen hpre
    have hstrip : stripSigPrefix (signature ++ '\n' :: p) signature = p := by
      rw [stripSigPrefix_append]
      rfl
    rw [hstrip] at hpre
    refine hp (prefix_of_length_le hpre ?_)
    rw [List.length_append, List.length_cons] at hlen
    unfold oversizeCharThreshold at *
    omega
  obtain ⟨q, rfl⟩ := hp
  rw [prefixSig_of_starts (List.prefix_append ..), stripSigPrefix_append] at hle
  simp only [h.text, List.flatten_singleton, solid_append, solid_stripLineFeed, solid_trim,
    List.map_singleton, List.sum_singleton, List.length_append] at hle
  omega

/-- The loop over the statement ends of the symbol stops where its end doubles the signature. -/
def EndDoublesSignature (ts : TreeSitter) (language : Language) {source : Text}
    (tree : SyntaxTree source) (hit : SymbolHit) (text signature : Text) (c : Cutter) : Prop :=
  (symbolEnds ts language tree hit).foldlM (Cutter.turn text signature) ⟨[], 0, 0⟩ = some c ∧
    c.DoublesSignature text signature

theorem splitIfOversize_of_finish {ts : TreeSitter} {language : Language} {source text : Text}
    {tree : SyntaxTree source} {hit : SymbolHit} {fragments : List Text}
    (htext : hit.range.slice? source = some text) (hlong : oversizeCharThreshold < text.length)
    (hrun : (symbolEnds ts language tree hit).foldlM (Cutter.turn text signature)
      ⟨[], 0, 0⟩ = some c)
    (hfin : c.finish text signature = some fragments) (hne : c.fragments ≠ [])
    (hsome : fragments ≠ []) :
    splitIfOversize ts language tree hit text signature = some fragments := by
  have hends : symbolEnds ts language tree hit ≠ [] := by
    intro hnil
    rw [hnil] at hrun
    exact hne (Option.some.inj hrun ▸ rfl)
  rw [splitIfOversize_eq hlong, if_neg hends, htext, Option.bind_some, splitAtEnds_eq hrun hfin,
    if_neg hsome]

/-- Splitting a construct keeps its text where the end of the loop does not double the signature; a
lone fragment loses the signature where it does. -/
theorem splitIfOversize_splitsInto {ts : TreeSitter} {language : Language} {source text : Text}
    {tree : SyntaxTree source} {hit : SymbolHit} {ordered : List SymbolHit}
    (hsound : hit.Sound source) (hkind : hit.isContainer = false)
    (htext : bodyOfHit source ordered hit = some text)
    (hsignature : firstSignatureLine source hit.nodeRange = some signature)
    (hlong : oversizeCharThreshold < text.length) :
    ∃ fragments, splitIfOversize ts language tree hit text signature = some fragments ∧
      ((∀ c, ¬EndDoublesSignature ts language tree hit text signature c) →
        SplitsInto text signature fragments) ∧
      ∀ c, EndDoublesSignature ts language tree hit text signature c → c.fragments.length = 1 →
        ¬SplitsInto text signature fragments := by
  rw [bodyOfHit_of_not_container hkind] at htext
  have hsig := isSignature_of_firstSignatureLine hsignature
  have hends : ∀ e ∈ symbolEnds ts language tree hit, text.IsBoundary e ∧ 0 ≤ e :=
    fun e he => ⟨mem_symbolEnds hsound htext he, Nat.zero_le e⟩
  obtain ⟨c, pieces, pending, tail, hrun, h⟩ :=
    Cutter.covers_start.run hends pairwise_symbolEnds
  by_cases hdouble : c.DoublesSignature text signature
  · have hne : c.fragments ≠ [] := by
      obtain ⟨-, last, hlast, -⟩ := hdouble
      intro hnil
      rw [hnil] at hlast
      cases hlast
    by_cases hone : c.fragments.length = 1
    · obtain ⟨fragments, hfin, hsome, hnot⟩ := not_splitsInto_of_doubles hsig h hdouble hone
      refine ⟨fragments, splitIfOversize_of_finish htext hlong hrun hfin hne hsome, fun hall => ?_,
        fun _ _ _ => hnot⟩
      exact absurd ⟨hrun, hdouble⟩ (hall c)
    · obtain ⟨fragments, hfin, hsome⟩ : ∃ fs, c.finish text signature = some fs ∧ fs ≠ [] := by
        rcases h.finish with ⟨-, hfin⟩ | ⟨-, ⟨ps, p, -, -, hfin⟩ | ⟨-, hfin⟩⟩
        · exact ⟨_, hfin, hne⟩
        · exact ⟨_, hfin, by simp⟩
        · exact ⟨_, hfin, by simp⟩
      refine ⟨fragments, splitIfOversize_of_finish htext hlong hrun hfin hne hsome,
        fun hall => ?_, ?_⟩
      · exact absurd ⟨hrun, hdouble⟩ (hall c)
      · intro c' hc' hone'
        rw [EndDoublesSignature, hrun] at hc'
        exact absurd (Option.some.inj hc'.1 ▸ hone') hone
  · have honly : ∀ c', ¬EndDoublesSignature ts language tree hit text signature c' := by
      intro c' hc'
      rw [EndDoublesSignature, hrun] at hc'
      exact hdouble (Option.some.inj hc'.1 ▸ hc'.2)
    rw [splitIfOversize_eq hlong, htext, Option.bind_some]
    split
    · exact ⟨_, rfl, fun _ => hardSplit_splitsInto hsig, fun c' hc' _ => absurd hc' (honly c')⟩
    · obtain ⟨fragments, hsplit, hinto⟩ := splitAtEnds_splitsInto hsig (fun e he => (hends e he).1)
        pairwise_symbolEnds fun c' hc' hd => honly c' ⟨hc', hd⟩
      exact ⟨fragments, hsplit, fun _ => hinto, fun c' hc' _ => absurd hc' (honly c')⟩

end

end SiftMcp
