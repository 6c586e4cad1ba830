import SiftMcp.Indexing.Hash
import SiftMcp.Lib.MarkedText

/-!
# The normal form of a body

`normalize_body` on the lines of the text. Of the lines only those that are not blank count, and
what they have in common at the front is lost, so that blanks at the ends of lines, blank lines at
the ends of the text, the kind of line ends and an indentation of all lines make no difference.

The laws of this normal form are put together in `normalizeBody_canonical`.
-/

namespace SiftMcp
open Text

/-- How many spaces and tabs a line begins with. -/
def indentOf (l : Text) : Nat := (l.takeWhile fun c => c = ' ' ∨ c = '\t').length

/-- Spaces and tabs. -/
def Indentation (w : Text) : Prop := ∀ c ∈ w, c = ' ' ∨ c = '\t'

/-- Without what satisfies `q` at either end. -/
def stripEnds {α : Type} (q : α → Bool) (xs : List α) : List α := (xs.rdropWhile q).dropWhile q

def outdent (ls : List Text) : List Text := ls.map (·.drop (commonIndent ls))

/-- The normal form of a text with these lines. -/
def normalizeLines (ls : List Text) : Text :=
  joinLines (outdent (stripEnds (· = []) (ls.map trimEnd)))

variable {l w t : Text} {ls : List Text} {k : Nat}

/-! ## Lines -/

theorem normalizeLineEnds_append (hl : EndFree l) :
    normalizeLineEnds (l ++ t) = l ++ normalizeLineEnds t := by
  induction l with
  | nil => rfl
  | cons c l ih =>
    obtain ⟨hc, hl⟩ := endFree_cons.mp hl
    rw [List.cons_append, normalizeLineEnds, if_neg hc.2, ih hl, List.cons_append]
    intro t' h _
    exact hc.2 h

theorem normalizeLineEnds_end {e : Text} (he : EndsLine e t) :
    normalizeLineEnds (e ++ t) = '\n' :: normalizeLineEnds t := by
  cases he with
  | lf =>
    rw [List.singleton_append, normalizeLineEnds]
    · rfl
    · intro t' h
      exact absurd h (by decide)
  | crlf => rfl
  | cr h =>
    rw [List.singleton_append, normalizeLineEnds]
    · rfl
    · intro t' _ ht
      rw [ht] at h
      exact h rfl

theorem splitOn_normalizeLineEnds : (normalizeLineEnds t).splitOn '\n' = linesOf t := by
  induction t using line_induction with
  | last l hl =>
    have h := @normalizeLineEnds_append l [] hl
    rw [show normalizeLineEnds [] = [] from rfl, List.append_nil] at h
    rw [h, linesOf_last hl]
    exact List.splitOn_eq_singleton hl.1
  | line l e t hl he ih =>
    rw [List.append_assoc, normalizeLineEnds_append hl, normalizeLineEnds_end he,
      List.splitOn_append_cons_self_of_not_mem hl.1, ih, ← List.append_assoc, linesOf_line hl he]

theorem normalizeBody_eq : normalizeBody t = normalizeLines (linesOf t) := by
  rw [← splitOn_normalizeLineEnds]
  rfl

/-! ## Ends -/

section
variable {α : Type} {q : α → Bool} {xs : List α} {x : α}

theorem mem_of_mem_stripEnds (h : x ∈ stripEnds q xs) : x ∈ xs :=
  (List.rdropWhile_prefix q xs).subset ((List.dropWhile_suffix q).subset h)

theorem mem_stripEnds (h : x ∈ xs) (hx : q x = false) : x ∈ stripEnds q xs := by
  have hfront : x ∈ xs.rdropWhile q := by
    rw [← @List.rdropWhile_append_rtakeWhile _ q xs, List.mem_append] at h
    refine h.resolve_right fun h => ?_
    rw [List.mem_rtakeWhile_imp h] at hx
    cases hx
  rw [← @List.takeWhile_append_dropWhile _ q (xs.rdropWhile q), List.mem_append] at hfront
  refine hfront.resolve_left fun h => ?_
  rw [List.mem_takeWhile_imp h] at hx
  cases hx

theorem stripEnds_eq_nil (h : ∀ x ∈ xs, q x = true) : stripEnds q xs = [] := by
  rw [stripEnds, List.rdropWhile_eq_nil_iff.mpr h]
  rfl

/-- What has been stripped does not begin or end with what is stripped. -/
theorem stripEnds_append {as bs : List α} (ha : ∀ x ∈ as, q x = true) (hb : ∀ x ∈ bs, q x = true) :
    stripEnds q (as ++ xs ++ bs) = stripEnds q xs := by
  have hend : (as ++ xs ++ bs).rdropWhile q = (as ++ xs).rdropWhile q := by
    unfold List.rdropWhile
    rw [List.reverse_append, List.dropWhile_append_of_pos fun x hx => hb x (List.mem_reverse.mp hx)]
  by_cases hx : ∀ x ∈ xs, q x = true
  · rw [stripEnds_eq_nil hx, stripEnds, hend, ← stripEnds]
    exact stripEnds_eq_nil (List.forall_mem_append.mpr ⟨ha, hx⟩)
  · have hfront : (as ++ xs).rdropWhile q = as ++ xs.rdropWhile q := by
      have hne : ¬((xs.reverse.dropWhile q).isEmpty = true) := by
        rw [List.isEmpty_iff, List.dropWhile_eq_nil_iff]
        exact fun h => hx fun x hx => h x (List.mem_reverse.mpr hx)
      unfold List.rdropWhile
      rw [List.reverse_append, List.dropWhile_append, if_neg hne, List.reverse_append,
        List.reverse_reverse]
    rw [stripEnds, hend, hfront, List.dropWhile_append_of_pos ha, stripEnds]

theorem stripEnds_map {β : Type} {f : β → α} {ys : List β} :
    stripEnds q (ys.map f) = (stripEnds (q ∘ f) ys).map f := by
  unfold stripEnds List.rdropWhile
  rw [← List.map_reverse, List.dropWhile_map, ← List.map_reverse, List.dropWhile_map]

theorem stripEnds_stripEnds : stripEnds q (stripEnds q xs) = stripEnds q xs := by
  have h := @stripEnds_append α q (stripEnds q xs) ((xs.rdropWhile q).takeWhile q) (xs.rtakeWhile q)
    (fun _ => List.mem_takeWhile_imp) (fun _ => List.mem_rtakeWhile_imp)
  have hall : (xs.rdropWhile q).takeWhile q ++ stripEnds q xs ++ xs.rtakeWhile q = xs := by
    unfold stripEnds
    rw [List.takeWhile_append_dropWhile, List.rdropWhile_append_rtakeWhile]
  rw [hall] at h
  exact h.symm

end

/-! ## Indentation -/

theorem commonIndent_eq_iff (h : ∃ l ∈ ls, l ≠ []) : commonIndent ls = k ↔
    (∃ l ∈ ls, l ≠ [] ∧ indentOf l = k) ∧ ∀ l ∈ ls, l ≠ [] → k ≤ indentOf l := by
  have hmem : ∀ n, n ∈ (ls.filter (· ≠ [])).map indentOf ↔ ∃ l ∈ ls, l ≠ [] ∧ indentOf l = n := by
    intro n
    simp only [List.mem_map, List.mem_filter, decide_eq_true_eq, and_assoc]
  have hle : (∀ n ∈ (ls.filter (· ≠ [])).map indentOf, k ≤ n) ↔
      ∀ l ∈ ls, l ≠ [] → k ≤ indentOf l := by
    simp only [List.forall_mem_map, List.mem_filter, decide_eq_true_eq, and_imp]
  rw [← hmem, ← hle, ← List.min?_eq_some_iff]
  show ((ls.filter (· ≠ [])).map indentOf).min?.getD 0 = k ↔ _
  cases hmin : ((ls.filter (· ≠ [])).map indentOf).min? with
  | some m => rw [Option.getD_some, Option.some.injEq]
  | none =>
    obtain ⟨l, hl, hne⟩ := h
    have hin := (hmem _).mpr ⟨l, hl, hne, rfl⟩
    rw [List.min?_eq_none_iff.mp hmin] at hin
    cases hin

theorem exists_commonIndent (h : ∃ l ∈ ls, l ≠ []) :
    (∃ l ∈ ls, l ≠ [] ∧ indentOf l = commonIndent ls) ∧
      ∀ l ∈ ls, l ≠ [] → commonIndent ls ≤ indentOf l :=
  (commonIndent_eq_iff h).mp rfl

theorem indentOf_append (hw : Indentation w) : indentOf (w ++ l) = w.length + indentOf l := by
  unfold indentOf
  rw [List.takeWhile_append_of_pos fun c hc => decide_eq_true (hw c hc), List.length_append]

theorem Indentation.blank (hw : Indentation w) : Blank w := by
  intro c hc
  rcases hw c hc with rfl | rfl <;> rfl

theorem Indentation.endFree (hw : Indentation w) : EndFree w := by
  constructor
  · intro h
    exact absurd (hw _ h) (by decide)
  · intro h
    exact absurd (hw _ h) (by decide)

theorem trimEnd_eq_nil_iff : trimEnd l = [] ↔ Blank l := List.rdropWhile_eq_nil_iff

theorem trimEnd_append_left (hl : ¬Blank l) : trimEnd (w ++ l) = w ++ trimEnd l := by
  have hne : ¬((l.reverse.dropWhile isWhitespace).isEmpty = true) := by
    rw [List.isEmpty_iff, List.dropWhile_eq_nil_iff]
    exact fun h => hl fun c hc => h c (List.mem_reverse.mpr hc)
  unfold trimEnd List.rdropWhile
  rw [List.reverse_append, List.dropWhile_append, if_neg hne, List.reverse_append,
    List.reverse_reverse]

theorem trimEnd_trimEnd : trimEnd (trimEnd l) = trimEnd l := List.rdropWhile_idempotent _ _

theorem trimEnd_drop (h : trimEnd l = l) : trimEnd (l.drop k) = l.drop k := by
  apply (List.rdropWhile_eq_self_iff (p := isWhitespace)).mpr
  intro hne
  have hlast := (List.rdropWhile_eq_self_iff (p := isWhitespace)).mp h fun hnil =>
      hne (by simp [hnil])
  rwa [List.getLast_drop]

/-- A line that ends with no blank is not all indentation. -/
theorem indentOf_lt (h : trimEnd l = l) (hne : l ≠ []) : indentOf l < l.length := by
  have hlast := (List.rdropWhile_eq_self_iff (p := isWhitespace)).mp h hne
  refine lt_of_le_of_ne (List.takeWhile_prefix _).length_le fun heq => hlast ?_
  have hall : l.takeWhile (fun c => c = ' ' ∨ c = '\t') = l :=
    (List.takeWhile_prefix _).eq_of_length heq
  have hw : Indentation l := fun c hc => by
    rw [← hall] at hc
    simpa using List.mem_takeWhile_imp hc
  exact hw.blank _ (List.getLast_mem hne)

/-! ## Some lines indented -/

/-- The marked lines, those that are not blank and with the blanks at the end gone. -/
def indentTrimmed (w : Text) (p : Bool × Text) : Text := if p.1 ∧ p.2 ≠ [] then w ++ p.2 else p.2

section
variable {ps : List (Bool × Text)}

theorem trimEnd_renderLine (hw : Indentation w) (p : Bool × Text) :
    trimEnd (renderLine w p) = indentTrimmed w (p.1, trimEnd p.2) := by
  obtain ⟨marked, l⟩ := p
  unfold renderLine indentTrimmed
  cases marked with
  | false => rfl
  | true =>
    by_cases hl : Blank l
    · have hwl : Blank (w ++ l) := blank_append.mpr ⟨hw.blank, hl⟩
      simp [trimEnd_eq_nil_iff.mpr hl, trimEnd_eq_nil_iff.mpr hwl]
    · have hne : trimEnd l ≠ [] := mt trimEnd_eq_nil_iff.mp hl
      simp [hne, trimEnd_append_left hl]

theorem indentTrimmed_eq_nil_iff {p : Bool × Text} : indentTrimmed w p = [] ↔ p.2 = [] := by
  unfold indentTrimmed
  split
  · next h => simp [h.2]
  · exact Iff.rfl

/-- Without the blank lines at the ends, which are the same with the marked lines indented. -/
def strippedMarked (ps : List (Bool × Text)) : List (Bool × Text) :=
  stripEnds (·.2 = []) (ps.map fun p => (p.1, trimEnd p.2))

theorem stripped_renderLine (hw : Indentation w) :
    stripEnds (· = []) ((ps.map (renderLine w)).map trimEnd) =
      (strippedMarked ps).map (indentTrimmed w) := by
  have hmap : (ps.map (renderLine w)).map trimEnd =
      (ps.map fun p => (p.1, trimEnd p.2)).map (indentTrimmed w) := by
    simp only [List.map_map]
    exact List.map_congr_left fun p _ => trimEnd_renderLine hw p
  have hq : (fun l : Text => decide (l = [])) ∘ indentTrimmed w =
      fun p : Bool × Text => decide (p.2 = []) :=
    funext fun p => decide_eq_decide.mpr indentTrimmed_eq_nil_iff
  rw [hmap, stripEnds_map, hq]
  rfl

theorem mem_strippedMarked {p : Bool × Text} (h : p ∈ strippedMarked ps) :
    trimEnd p.2 = p.2 ∧ ∃ l, (p.1, l) ∈ ps ∧ p.2 = trimEnd l := by
  obtain ⟨⟨marked, l⟩, hmem, rfl⟩ := List.mem_map.mp (mem_of_mem_stripEnds h)
  exact ⟨trimEnd_trimEnd, l, hmem, rfl⟩

theorem exists_strippedMarked {p : Bool × Text} (h : p ∈ ps) (hp : ¬Blank p.2) :
    (p.1, trimEnd p.2) ∈ strippedMarked ps := by
  apply mem_stripEnds
  · exact List.mem_map.mpr ⟨p, h, rfl⟩
  · exact decide_eq_false (mt trimEnd_eq_nil_iff.mp hp)

end

theorem normalizeLines_eq_outdent : normalizeLines ls =
    joinLines (outdent (stripEnds (· = []) (ls.map trimEnd))) := rfl

theorem forall_mem_outdent {P : Text → Prop} (h : ∀ l ∈ ls, ∀ k, P (l.drop k)) :
    ∀ l ∈ outdent ls, P l := by
  intro l hl
  obtain ⟨m, hm, rfl⟩ := List.mem_map.mp hl
  exact h m hm _

section
variable {ps qs : List (Bool × Text)}

theorem normalizeLines_renderLine_eq (hw : Indentation w) : normalizeLines (ps.map (renderLine w)) =
    joinLines (outdent ((strippedMarked ps).map (indentTrimmed w))) := by
  rw [normalizeLines_eq_outdent, stripped_renderLine hw]

theorem normalizeLines_map_snd : normalizeLines (ps.map (·.2)) =
    joinLines (outdent ((strippedMarked ps).map (indentTrimmed []))) := by
  have hplain : ps.map (·.2) = ps.map (renderLine []) :=
    List.map_congr_left fun p _ => by simp [renderLine]
  rw [hplain, normalizeLines_renderLine_eq fun c hc => absurd hc List.not_mem_nil]

theorem mark_of_strippedMarked {b : Bool} (h : ∀ p ∈ ps, ¬Blank p.2 → p.1 = b) :
    ∀ p ∈ strippedMarked ps, p.2 ≠ [] → p.1 = b := by
  intro p hp hne
  obtain ⟨-, l, hmem, hl⟩ := mem_strippedMarked hp
  exact h (p.1, l) hmem fun hblank => hne (hl.trans (trimEnd_eq_nil_iff.mpr hblank))

theorem map_indentTrimmed_of_unmarked (h : ∀ p ∈ qs, p.2 ≠ [] → p.1 = false) :
    qs.map (indentTrimmed w) = qs.map (indentTrimmed []) := by
  refine List.map_congr_left fun p hp => ?_
  have hnot : ¬(p.1 = true ∧ p.2 ≠ []) := by
    rintro ⟨hmark, hne⟩
    rw [h p hp hne] at hmark
    cases hmark
  rw [indentTrimmed, if_neg hnot, indentTrimmed, if_neg hnot]

theorem commonIndent_le_indentTrimmed {p : Bool × Text} (hp : p ∈ qs) (hne : p.2 ≠ []) :
    commonIndent (qs.map (indentTrimmed w)) ≤ indentOf (indentTrimmed w p) := by
  have hmem := List.mem_map_of_mem (f := indentTrimmed w) hp
  have hne' := mt (@indentTrimmed_eq_nil_iff w p).mp hne
  exact (exists_commonIndent ⟨_, hmem, hne'⟩).2 _ hmem hne'

/-- The common indentation grows by that of the lines, if all of them are marked. -/
theorem commonIndent_indentTrimmed (hw : Indentation w) (hall : ∀ p ∈ qs, p.2 ≠ [] → p.1 = true)
    (hex : ∃ p ∈ qs, p.2 ≠ []) : commonIndent (qs.map (indentTrimmed w)) =
      w.length + commonIndent (qs.map (indentTrimmed [])) := by
  obtain ⟨p, hp, hne⟩ := hex
  have hline : ∀ v : Text, ∃ l ∈ qs.map (indentTrimmed v), l ≠ [] :=
    fun v => ⟨_, List.mem_map_of_mem hp, mt indentTrimmed_eq_nil_iff.mp hne⟩
  have hone : ∀ v : Text, ∀ p ∈ qs, p.2 ≠ [] → indentTrimmed v p = v ++ p.2 :=
    fun v p hp hne => if_pos ⟨hall p hp hne, hne⟩
  obtain ⟨⟨l, hl, hlne, hleast⟩, -⟩ := exists_commonIndent (hline [])
  refine (commonIndent_eq_iff (hline w)).mpr ⟨?_, ?_⟩
  · obtain ⟨p, hp, rfl⟩ := List.mem_map.mp hl
    have hne := mt indentTrimmed_eq_nil_iff.mpr hlne
    refine ⟨_, List.mem_map_of_mem hp, mt indentTrimmed_eq_nil_iff.mp hne, ?_⟩
    rw [hone w p hp hne, indentOf_append hw, ← hleast, hone [] p hp hne, List.nil_append]
  · intro m hm hmne
    obtain ⟨p, hp, rfl⟩ := List.mem_map.mp hm
    have hne := mt indentTrimmed_eq_nil_iff.mpr hmne
    have hle := @commonIndent_le_indentTrimmed [] _ _ hp hne
    rw [hone [] p hp hne, List.nil_append] at hle
    rw [hone w p hp hne, indentOf_append hw]
    exact Nat.add_le_add_left hle _

theorem outdent_indentTrimmed (hw : Indentation w) (hall : ∀ p ∈ qs, p.2 ≠ [] → p.1 = true) :
    outdent (qs.map (indentTrimmed w)) = outdent (qs.map (indentTrimmed [])) := by
  by_cases hex : ∃ p ∈ qs, p.2 ≠ []
  · unfold outdent
    rw [commonIndent_indentTrimmed hw hall hex, List.map_map, List.map_map]
    refine List.map_congr_left fun p hp => ?_
    show (indentTrimmed w p).drop _ = (indentTrimmed [] p).drop _
    by_cases hne : p.2 = []
    · rw [indentTrimmed_eq_nil_iff.mpr hne, indentTrimmed_eq_nil_iff.mpr hne, List.drop_nil,
        List.drop_nil]
    · have hmarked : p.1 = true ∧ p.2 ≠ [] := ⟨hall p hp hne, hne⟩
      rw [indentTrimmed, if_pos hmarked, indentTrimmed, if_pos hmarked, List.nil_append,
        List.drop_length_add_append]
  · rw [map_indentTrimmed_of_unmarked fun p hp hne => absurd ⟨p, hp, hne⟩ hex]

/-- An indentation of all lines that are not blank, or of none of them, is lost. -/
theorem normalizeLines_renderLine (hw : Indentation w)
    (h : w = [] ∨ (∀ p ∈ ps, ¬Blank p.2 → p.1 = true) ∨ ∀ p ∈ ps, ¬Blank p.2 → p.1 = false) :
    normalizeLines (ps.map (renderLine w)) = normalizeLines (ps.map (·.2)) := by
  rw [normalizeLines_renderLine_eq hw, normalizeLines_map_snd]
  rcases h with rfl | hall | hnone
  · rfl
  · rw [outdent_indentTrimmed hw (mark_of_strippedMarked hall)]
  · rw [map_indentTrimmed_of_unmarked (mark_of_strippedMarked hnone)]

theorem endFree_outdent_indentTrimmed (hw : EndFree w) (hfree : ∀ p ∈ ps, EndFree p.2) :
    ∀ l ∈ outdent ((strippedMarked ps).map (indentTrimmed w)), EndFree l := by
  refine forall_mem_outdent fun l hl k => ?_
  obtain ⟨p, hp, rfl⟩ := List.mem_map.mp hl
  obtain ⟨-, l, hmem, hpl⟩ := mem_strippedMarked hp
  have hpfree : EndFree p.2 := by
    rw [hpl]
    exact (hfree _ hmem).mono (List.rdropWhile_prefix _ _).subset
  have hin : EndFree (indentTrimmed w p) := by
    unfold indentTrimmed
    split
    · exact endFree_append.mpr ⟨hw, hpfree⟩
    · exact hpfree
  exact hin.mono fun c hc => List.mem_of_mem_drop hc

/-- Nothing else is lost: an indentation of some of the lines that are not blank shows. -/
theorem normalizeLines_renderLine_iff (hw : Indentation w) (hfree : ∀ p ∈ ps, EndFree p.2) :
    normalizeLines (ps.map (renderLine w)) = normalizeLines (ps.map (·.2)) ↔
      w = [] ∨ (∀ p ∈ ps, ¬Blank p.2 → p.1 = true) ∨ ∀ p ∈ ps, ¬Blank p.2 → p.1 = false := by
  refine ⟨fun heq => ?_, normalizeLines_renderLine hw⟩
  by_contra hnot
  push Not at hnot
  obtain ⟨hwne, ⟨a, ha, hab, hamark⟩, b, hb, hbb, hbmark⟩ := hnot
  have hain := exists_strippedMarked ha hab
  have hbin := exists_strippedMarked hb hbb
  have hane : trimEnd a.2 ≠ [] := mt trimEnd_eq_nil_iff.mp hab
  have hbne : trimEnd b.2 ≠ [] := mt trimEnd_eq_nil_iff.mp hbb
  have hne : ∀ v : Text, outdent ((strippedMarked ps).map (indentTrimmed v)) ≠ [] := fun v h => by
    have := List.map_eq_nil_iff.mp (List.map_eq_nil_iff.mp h)
    rw [this] at hain
    cases hain
  rw [normalizeLines_renderLine_eq hw, normalizeLines_map_snd] at heq
  have heq := congrArg linesOf heq
  rw [linesOf_joinLines (endFree_outdent_indentTrimmed hw.endFree hfree) (hne w),
    linesOf_joinLines (endFree_outdent_indentTrimmed endFree_nil hfree) (hne [])] at heq
  unfold outdent at heq
  rw [List.map_map, List.map_map, List.map_inj_left] at heq
  -- The line without the mark tells that as much is cut, the marked one that more is.
  have halt := indentOf_lt trimEnd_trimEnd hane
  have hblt := indentOf_lt trimEnd_trimEnd hbne
  have hacut := congrArg List.length (heq _ hain)
  have hbcut := congrArg List.length (heq _ hbin)
  have haw := @commonIndent_le_indentTrimmed w _ _ hain hane
  have hanil := @commonIndent_le_indentTrimmed [] _ _ hain hane
  have hbw := @commonIndent_le_indentTrimmed w _ _ hbin hbne
  have hbnil := @commonIndent_le_indentTrimmed [] _ _ hbin hbne
  simp only [indentTrimmed, hamark, hbmark, hane, hbne, Function.comp, List.length_drop,
    List.nil_append, List.length_append, ne_eq, not_false_eq_true, and_self, if_true,
      Bool.false_eq_true,
    false_and, if_false, ite_self, indentOf_append hw] at hacut hbcut haw hanil hbw hbnil
  have := List.length_pos_of_ne_nil hwne
  omega

end

/-! ## The canonical form -/

/-- A normal form of texts that normalizing does not change, and that does not see the kind of the
line ends, blanks at the ends of lines, blank lines at the ends of the text, and an indentation that
all lines have that are not blank. -/
structure CanonicalForm (norm : Text → Text) : Prop where
  norm_norm : ∀ t, norm (norm t) = norm t
  crlf : ∀ t, '\r' ∉ t → norm (t.flatMap fun c => if c = '\n' then ['\r', '\n'] else [c]) = norm t
  cr : ∀ t, '\r' ∉ t → norm (t.map fun c => if c = '\n' then '\r' else c) = norm t
  lineEnds : ∀ t (pad : Nat → Text), (∀ i, Blank (pad i) ∧ EndFree (pad i)) →
    norm (editLines (fun i l => l ++ pad i) t) = norm t
  blankLines : ∀ t u v, BlankLines u → Blank v → norm (u ++ t ++ v) = norm t
  indented : ∀ t w, Indentation w →
    norm (editLines (fun _ l => if Blank l then l else w ++ l) t) = norm t

theorem linesOf_normalizeBody :
    linesOf (normalizeBody t) = outdent (stripEnds (· = []) ((linesOf t).map trimEnd)) ∨
      normalizeBody t = [] := by
  rw [normalizeBody_eq, normalizeLines]
  generalize hls : outdent (stripEnds (· = []) ((linesOf t).map trimEnd)) = ls
  by_cases hnil : ls = []
  · subst hnil
    exact .inr rfl
  · have hfree : ∀ l ∈ ls, EndFree l := by
      rw [← hls]
      refine forall_mem_outdent fun l hl k => ?_
      obtain ⟨m, hm, rfl⟩ := List.mem_map.mp (mem_of_mem_stripEnds hl)
      exact (endFree_of_mem_linesOf hm).mono fun c hc =>
        (List.rdropWhile_prefix _ _).subset (List.mem_of_mem_drop hc)
    refine .inl ?_
    exact linesOf_joinLines hfree hnil

theorem indentOf_drop_indentOf : indentOf (l.drop (indentOf l)) = 0 := by
  have hdrop : l.drop (indentOf l) = l.dropWhile fun c => c = ' ' ∨ c = '\t' := by
    have hsplit := @List.takeWhile_append_dropWhile _ (fun c : Char => c = ' ' ∨ c = '\t') l
    exact (congrArg (List.drop (indentOf l)) hsplit).symm.trans List.drop_left
  rw [hdrop, indentOf, List.length_eq_zero_iff]
  cases hrest : l.dropWhile fun c => decide (c = ' ' ∨ c = '\t') with
  | nil => rfl
  | cons c rest =>
    have hne : l.dropWhile (fun c => decide (c = ' ' ∨ c = '\t')) ≠ [] := by
      rw [hrest]
      exact List.cons_ne_nil _ _
    have hc := List.head_dropWhile_not (fun c => decide (c = ' ' ∨ c = '\t')) hne
    simp only [hrest, List.head_cons] at hc
    exact List.takeWhile_cons_of_neg (Bool.eq_false_iff.mp hc)

theorem outdent_outdent (h : ∀ l ∈ ls, trimEnd l = l) : outdent (outdent ls) = outdent ls := by
  by_cases hex : ∃ l ∈ ls, l ≠ []
  · obtain ⟨⟨l, hl, hne, hleast⟩, -⟩ := exists_commonIndent hex
    have hmem : l.drop (commonIndent ls) ∈ outdent ls := List.mem_map_of_mem hl
    have hdrop : l.drop (commonIndent ls) ≠ [] := by
      have := indentOf_lt (h l hl) hne
      rw [ne_eq, List.drop_eq_nil_iff]
      omega
    have hzero : commonIndent (outdent ls) = 0 := by
      refine (commonIndent_eq_iff ⟨_, hmem, hdrop⟩).mpr
        ⟨⟨_, hmem, hdrop, ?_⟩, fun _ _ _ => Nat.zero_le _⟩
      rw [← hleast]
      exact indentOf_drop_indentOf
    conv_lhs => rw [outdent, hzero]
    simp
  · have hnil : outdent ls = ls := by
      unfold outdent
      conv_rhs => rw [← List.map_id ls]
      refine List.map_congr_left fun l hl => ?_
      have hnil : l = [] := by
        by_contra hne
        exact hex ⟨l, hl, hne⟩
      rw [hnil, List.drop_nil, id]
    rw [hnil, hnil]

/-- Cutting the common indentation leaves no line empty that was not. -/
theorem outdent_eq_map (h : ∀ l ∈ ls, trimEnd l = l) :
    outdent ls = ls.map fun l => l.drop (min (commonIndent ls) (l.length - 1)) := by
  refine List.map_congr_left fun l hl => ?_
  by_cases hne : l = []
  · rw [hne, List.drop_nil, List.drop_nil]
  · have hle := (exists_commonIndent ⟨l, hl, hne⟩).2 l hl hne
    have hlt := indentOf_lt (h l hl) hne
    rw [Nat.min_eq_left (by omega)]

theorem stripEnds_outdent (h : ∀ l ∈ ls, trimEnd l = l) (hstrip : stripEnds (· = []) ls = ls) :
    stripEnds (· = []) (outdent ls) = outdent ls := by
  have hq : (fun l : Text => decide (l = [])) ∘
      (fun l => l.drop (min (commonIndent ls) (l.length - 1))) = fun l : Text =>
        decide (l = []) := by
    funext l
    refine decide_eq_decide.mpr ?_
    rw [List.drop_eq_nil_iff]
    constructor
    · intro hle
      exact List.length_eq_zero_iff.mp (by omega)
    · rintro rfl
      exact Nat.zero_le _
  rw [outdent_eq_map h, stripEnds_map, hq, hstrip]

theorem normalizeBody_normalizeBody : normalizeBody (normalizeBody t) = normalizeBody t := by
  rcases @linesOf_normalizeBody t with h | h
  · generalize hls : stripEnds (· = []) ((linesOf t).map trimEnd) = ls at h
    have htrim : ∀ l ∈ ls, trimEnd l = l := by
      rw [← hls]
      intro l hl
      obtain ⟨m, -, rfl⟩ := List.mem_map.mp (mem_of_mem_stripEnds hl)
      exact trimEnd_trimEnd
    have hstrip : stripEnds (· = []) ls = ls := by
      rw [← hls]
      exact stripEnds_stripEnds
    have hlines : (outdent ls).map trimEnd = outdent ls := by
      conv_rhs => rw [← List.map_id (outdent ls)]
      exact List.map_congr_left <| forall_mem_outdent fun l hl k => trimEnd_drop (htrim l hl)
    rw [normalizeBody_eq (t := normalizeBody t), h, normalizeLines, hlines,
      stripEnds_outdent htrim hstrip, outdent_outdent htrim, normalizeBody_eq, normalizeLines, hls]
  · rw [h]
    rfl

theorem normalizeLineEnds_of_not_mem (h : '\r' ∉ t) : normalizeLineEnds t = t := by
  induction t with
  | nil => rfl
  | cons c t ih =>
    obtain ⟨hc, ht⟩ := List.ne_and_not_mem_of_not_mem_cons h
    rw [normalizeLineEnds, if_neg (Ne.symm hc), ih ht]
    intro t' hc' _
    exact hc hc'.symm

theorem normalizeBody_congr {t' : Text} (h : linesOf t = linesOf t') :
    normalizeBody t = normalizeBody t' := by
  rw [normalizeBody_eq, normalizeBody_eq, h]

theorem linesOf_crlf (h : '\r' ∉ t) :
    linesOf (t.flatMap fun c => if c = '\n' then ['\r', '\n'] else [c]) = linesOf t := by
  rw [← splitOn_normalizeLineEnds, ← splitOn_normalizeLineEnds, normalizeLineEnds_of_not_mem h]
  congr 1
  induction t with
  | nil => rfl
  | cons c t ih =>
    obtain ⟨hc, ht⟩ := List.ne_and_not_mem_of_not_mem_cons h
    rw [List.flatMap_cons]
    by_cases hlf : c = '\n'
    · subst hlf
      rw [if_pos rfl]
      exact congrArg ('\n' :: ·) (ih ht)
    · rw [if_neg hlf, normalizeLineEnds_append (endFree_cons.mpr ⟨⟨hlf, Ne.symm hc⟩, endFree_nil⟩),
        ih ht]
      rfl

theorem linesOf_cr (h : '\r' ∉ t) :
    linesOf (t.map fun c => if c = '\n' then '\r' else c) = linesOf t := by
  rw [← splitOn_normalizeLineEnds, ← splitOn_normalizeLineEnds, normalizeLineEnds_of_not_mem h]
  congr 1
  induction t with
  | nil => rfl
  | cons c t ih =>
    obtain ⟨hc, ht⟩ := List.ne_and_not_mem_of_not_mem_cons h
    have hhead : ∀ t', t.map (fun c => if c = '\n' then '\r' else c) ≠ '\n' :: t' := by
      intro t' heq
      cases t with
      | nil => cases heq
      | cons d t =>
        have hd : (if d = '\n' then '\r' else d) = '\n' := (List.cons.inj heq).1
        split at hd
        · exact absurd hd (by decide)
        · next hne => exact hne hd
    rw [List.map_cons, normalizeLineEnds, ih ht]
    · by_cases hlf : c = '\n'
      · simp [hlf]
      · simp [hlf, Ne.symm hc]
    · intro t' _ heq
      exact hhead t' heq

theorem normalizeLines_congr {ls' : List Text} (h : ls.map trimEnd = ls'.map trimEnd) :
    normalizeLines ls = normalizeLines ls' := by
  unfold normalizeLines
  rw [h]

theorem normalizeLines_append {as bs : List Text} (ha : ∀ l ∈ as, Blank l)
    (hb : ∀ l ∈ bs, Blank l) : normalizeLines (as ++ ls ++ bs) = normalizeLines ls := by
  have hnil : ∀ xs : List Text, (∀ l ∈ xs, Blank l) →
      ∀ l ∈ xs.map trimEnd, decide (l = []) = true := by
    intro xs hxs
    exact List.forall_mem_map.mpr fun l hl => decide_eq_true (trimEnd_eq_nil_iff.mpr (hxs l hl))
  unfold normalizeLines
  rw [List.map_append, List.map_append, stripEnds_append (hnil as ha) (hnil bs hb)]

theorem normalizeBody_append_blank {v : Text} (hv : Blank v) :
    normalizeBody (t ++ v) = normalizeBody t := by
  obtain ⟨ls, l, b, bs, ht, htv, hb, hbs⟩ := @linesOf_append_blank t v hv
  have hlast : (ls ++ [l ++ b]).map trimEnd = (ls ++ [l]).map trimEnd := by
    rw [List.map_append, List.map_append, List.map_singleton, List.map_singleton,
      trimEnd_append_blank hb]
  have happ : linesOf (t ++ v) = [] ++ (ls ++ [l ++ b]) ++ bs := by
    rw [htv, List.nil_append, List.append_assoc, List.singleton_append]
  rw [normalizeBody_eq, normalizeBody_eq, happ, normalizeLines_append (by simp) hbs,
    normalizeLines_congr hlast, ht]

theorem normalizeBody_blankLines_append {u : Text} (hu : BlankLines u) :
    normalizeBody (u ++ t) = normalizeBody t := by
  obtain ⟨bs, rest, hbs, hut, ht⟩ := @linesOf_blankLines_append t u hu
  have hfront : normalizeBody (u ++ t) = normalizeLines rest := by
    have := @normalizeLines_append rest bs [] hbs (by simp)
    rwa [List.append_nil, ← hut, ← normalizeBody_eq] at this
  rw [hfront, normalizeBody_eq]
  rcases ht with ht | ht
  · rw [ht]
  · have := @normalizeLines_append rest [[]] [] (by simp [Blank]) (by simp)
    rw [List.append_nil] at this
    rw [ht]
    exact this.symm

theorem keepsLines_append {pad : Nat → Text} (h : ∀ i, Blank (pad i) ∧ EndFree (pad i)) :
    KeepsLines fun i l => l ++ pad i where
  endFree i _ hl := endFree_append.mpr ⟨hl, (h i).2⟩
  ne_nil _ _ hl := List.append_ne_nil_of_left_ne_nil hl _

theorem keepsLines_indent (hw : Indentation w) :
    KeepsLines fun _ l => if Blank l then l else w ++ l where
  endFree _ l hl := by
    split
    · exact hl
    · exact endFree_append.mpr ⟨hw.endFree, hl⟩
  ne_nil _ l hl := by
    split
    · exact hl
    · exact List.append_ne_nil_of_right_ne_nil _ hl

/-- `normalize_body` gives a canonical form. -/
theorem normalizeBody_canonical : CanonicalForm normalizeBody where
  norm_norm _ := normalizeBody_normalizeBody
  crlf _ h := normalizeBody_congr (linesOf_crlf h)
  cr _ h := normalizeBody_congr (linesOf_cr h)
  lineEnds t pad h := by
    rw [normalizeBody_eq, normalizeBody_eq, (keepsLines_append h).linesOf_editLines]
    apply normalizeLines_congr
    apply List.ext_getElem?
    intro i
    simp only [List.getElem?_map, List.getElem?_mapIdx, Option.map_map]
    refine congrArg (fun g => Option.map g _) (funext fun l => ?_)
    exact trimEnd_append_blank (h i).1
  blankLines t u v hu hv := by
    rw [normalizeBody_append_blank hv, normalizeBody_blankLines_append hu]
  indented t w hw := by
    rw [normalizeBody_eq, normalizeBody_eq, (keepsLines_indent hw).linesOf_editLines]
    have hmark : (linesOf t).mapIdx (fun _ l => if Blank l then l else w ++ l) =
        ((linesOf t).map fun l => (!decide (Blank l), l)).map (renderLine w) := by
      apply List.mapIdx_eq_iff.mpr
      intro i
      rw [List.getElem?_map, List.getElem?_map, Option.map_map]
      refine congrArg (fun g => Option.map g _) (funext fun l => ?_)
      by_cases hl : Blank l
      · simp [renderLine, hl]
      · simp [renderLine, hl]
    have hplain : linesOf t = ((linesOf t).map fun l => (!decide (Blank l), l)).map (·.2) := by
      rw [List.map_map]
      exact (List.map_id _).symm
    rw [hmark]
    conv_rhs => rw [hplain]
    refine normalizeLines_renderLine hw (.inr (.inl ?_))
    rintro p hp hblank
    obtain ⟨l, -, rfl⟩ := List.mem_map.mp hp
    simpa using hblank

end SiftMcp
