import SiftMcp.Lib.TextLines

/-!
# Texts with marks in them

A text in which places are marked, and the texts that arise when one and the same text is put at all
marks. Pieces of the marked text give pieces of each of them. Where only starts of lines are marked,
the lines arise from those of the text without the marks.
-/

namespace Text
open String (utf8Len)

/-- A text with marks; `none` is a mark. -/
abbrev Marked := List (Option Char)

/-- The text with `w` at every mark. -/
def render (w : Text) (m : Marked) : Text := m.flatMap fun c => c.elim w fun c => [c]

/-- The offset of a place of the marked text. -/
def offset (w : Text) (m : Marked) (i : Nat) : Nat := utf8Len (render w (m.take i))

/-- The marked text from one place to another. -/
def between (m : Marked) (i j : Nat) : Marked := (m.take j).drop i

/-- Marks stand at the start of the text or behind a line feed. -/
def LineMarks (m : Marked) : Prop :=
  ∀ a b, m = a ++ none :: b → a = [] ∨ a.getLast? = some (some '\n')

variable {w : Text} {m m' : Marked} {i j : Nat}

theorem render_append : render w (m ++ m') = render w m ++ render w m' := List.flatMap_append

theorem render_cons_some {c : Char} : render w (some c :: m) = c :: render w m := rfl

/-! ## Pieces -/

theorem take_append_between (h : i ≤ j) : m.take i ++ between m i j = m.take j := by
  have hi : (m.take j).take i = m.take i := by rw [List.take_take, Nat.min_eq_left h]
  rw [between, ← hi]
  exact List.take_append_drop i (m.take j)

theorem offset_add (h : i ≤ j) :
    offset w m i + utf8Len (render w (between m i j)) = offset w m j := by
  rw [offset, offset, ← take_append_between h, render_append, String.utf8Len_append]

theorem offset_le (h : i ≤ j) : offset w m i ≤ offset w m j := by
  rw [← offset_add h]
  exact Nat.le_add_right _ _

/-- Pieces of the marked text are pieces of the text. -/
theorem slice?_render (h : i ≤ j) :
    slice? (render w m) (offset w m i) (offset w m j) = some (render w (between m i j)) := by
  have hsplit : render w m =
      render w (m.take i) ++ render w (between m i j) ++ render w (m.drop j) := by
    rw [← render_append, take_append_between h, ← render_append, List.take_append_drop]
  rw [← offset_add h, hsplit]
  exact slice?_append

theorem render_eq_nil_of_render (h : render w m = []) : render [] m = [] := by
  induction m with
  | nil => rfl
  | cons c m ih =>
    cases c with
    | none => exact ih (List.append_eq_nil_iff.mp h).2
    | some c => cases h

/-- Places that the bare text tells apart are ordered as their offsets are. -/
theorem offset_le_iff (h : offset [] m i = offset [] m j → i = j) :
    offset w m i ≤ offset w m j ↔ i ≤ j := by
  refine ⟨fun hle => ?_, offset_le⟩
  by_contra hlt
  have hji : j ≤ i := Nat.le_of_lt (Nat.lt_of_not_le hlt)
  have hzero : utf8Len (render w (between m j i)) = 0 := by
    have := @offset_add w m j i hji
    omega
  have hnil : render [] (between m j i) = [] :=
    render_eq_nil_of_render (String.utf8Len_eq_zero.mp hzero)
  have heq := @offset_add [] m j i hji
  rw [hnil] at heq
  exact hlt (h heq.symm).le

theorem head?_between (h : i < j) : (between m i j).head? = m[i]? := by
  rw [between, List.head?_drop, List.getElem?_take, if_pos h]

/-! ## Lines -/

theorem LineMarks.between (H : LineMarks m) : LineMarks (between m i j) := by
  intro a b h
  by_cases ha : a = []
  · exact .inl ha
  · right
    have hsplit : m = (m.take i ++ a) ++ none :: (b ++ m.drop j) := by
      by_cases hij : i ≤ j
      · calc m = m.take j ++ m.drop j := (List.take_append_drop j m).symm
          _ = m.take i ++ Text.between m i j ++ m.drop j := by rw [take_append_between hij]
          _ = _ := by rw [h]; simp
      · have hnil : Text.between m i j = [] := by
          rw [Text.between, List.drop_eq_nil_iff, List.length_take]
          omega
        rw [hnil] at h
        cases a <;> cases h
    rcases H _ _ hsplit with hnil | hlast
    · exact absurd (List.append_eq_nil_iff.mp hnil).2 ha
    · rwa [List.getLast?_append_of_ne_nil _ ha] at hlast

/-- A piece that does not begin with a mark may be put behind anything. -/
theorem LineMarks.append (H : LineMarks m) (H' : LineMarks m') (h : m'.head? ≠ some none) :
    LineMarks (m ++ m') := by
  intro a b hab
  rcases List.append_eq_append_iff.mp hab with ⟨c, rfl, hc⟩ | ⟨c, rfl, hc⟩
  · rcases H' c b hc with rfl | hlast
    · rw [hc] at h
      exact absurd rfl h
    · right
      rw [List.getLast?_append_of_ne_nil, hlast]
      rintro rfl
      cases hlast
  · cases c with
    | nil =>
      rw [List.nil_append] at hc
      rw [← hc] at h
      exact absurd rfl h
    | cons x c =>
      obtain ⟨rfl, rfl⟩ := List.cons.inj hc
      exact H a c rfl

/-- Rows with a mark in front of some of them. -/
def markRows (rows : List (Bool × Text)) : Marked :=
  rows.flatMap fun p => (if p.1 then [none] else []) ++ p.2.map some

theorem lineMarks_markRows {rows : List (Bool × Text)} (h : ∀ p ∈ rows, IsRow p.2) :
    LineMarks (markRows rows) := by
  induction rows with
  | nil => exact fun a b hab => by cases a <;> cases hab
  | cons p rows ih =>
    obtain ⟨hp, hrows⟩ := List.forall_mem_cons.mp h
    obtain ⟨l, -, hl⟩ := hp
    intro a b hab
    rw [markRows, List.flatMap_cons] at hab
    have hend : ((if p.1 then [none] else []) ++ p.2.map some).getLast? = some (some '\n') := by
      rw [hl, List.map_append, ← List.append_assoc]
      exact List.getLast?_concat
    rcases List.append_eq_append_iff.mp hab with ⟨c, rfl, hc⟩ | ⟨c, hc, hb⟩
    · right
      rcases ih hrows c b hc with rfl | hlast
      · rwa [List.append_nil]
      · rw [List.getLast?_append_of_ne_nil, hlast]
        rintro rfl
        cases hlast
    · cases c with
      | nil =>
        rw [List.append_nil] at hc
        exact .inr (hc ▸ hend)
      | cons x c =>
        -- The row itself has a mark at its start only.
        obtain rfl := (List.cons.inj hb).1
        left
        by_contra ha
        obtain ⟨y, a, rfl⟩ := List.exists_cons_of_ne_nil ha
        have hmem : none ∈ p.2.map some := by
          split at hc
          · have hrest : p.2.map some = a ++ none :: c := (List.cons.inj hc).2
            rw [hrest]
            exact List.mem_append_right _ List.mem_cons_self
          · rw [List.nil_append] at hc
            rw [hc]
            exact List.mem_append_right _ List.mem_cons_self
        obtain ⟨d, -, hd⟩ := List.mem_map.mp hmem
        cases hd

/-- The lines, each with whether it begins with a mark. -/
def markedLines : Marked → List (Bool × Text)
  | [] => [(false, [])]
  | none :: m =>
    match markedLines m with
    | [] => []
    | p :: ps => (true, p.2) :: ps
  | some '\r' :: some '\n' :: m => (false, []) :: markedLines m
  | some c :: m =>
    if c = '\n' ∨ c = '\r' then (false, []) :: markedLines m
    else
      match markedLines m with
      | [] => []
      | p :: ps => (false, c :: p.2) :: ps

theorem LineMarks.tail {c : Option Char} (H : LineMarks (c :: m)) : LineMarks m := by
  intro a b h
  rcases H (c :: a) b (congrArg _ h) with hnil | hlast
  · cases hnil
  · by_cases ha : a = []
    · exact .inl ha
    · obtain ⟨x, xs, rfl⟩ := List.exists_cons_of_ne_nil ha
      rw [List.getLast?_cons_cons] at hlast
      exact .inr hlast

/-- Nothing but a line feed has a mark behind it. -/
theorem LineMarks.head?_ne {c : Option Char} (H : LineMarks (c :: m)) (hc : c ≠ some '
') :
    m.head? ≠ some none := by
  intro h
  obtain ⟨m', rfl⟩ := List.head?_eq_some_iff.mp h
  rcases H [c] m' rfl with hnil | hlast
  · cases hnil
  · exact hc (Option.some.inj hlast)

theorem linesFrom_eq (l t : Text) :
    ∃ k ls, linesOf t = k :: ls ∧ linesFrom l t = (l ++ k) :: ls := by
  induction t using line_induction with
  | last k hk =>
    refine ⟨k, [], linesOf_last hk, ?_⟩
    have h := @linesFrom_append l k [] hk
    rwa [List.append_nil] at h
  | line k e t hk he ih =>
    refine ⟨k, linesOf t, linesOf_line hk he, ?_⟩
    rw [List.append_assoc, linesFrom_append hk, linesFrom_end he]

theorem linesOf_append_left {l : Text} {ls : List Text} (hw : EndFree w) {t : Text}
    (h : linesOf t = l :: ls) : linesOf (w ++ t) = (w ++ l) :: ls := by
  obtain ⟨k, ks, ht, hl⟩ := linesFrom_eq w t
  rw [h] at ht
  obtain ⟨rfl, rfl⟩ := List.cons.inj ht
  rw [linesOf, linesFrom_append hw, List.nil_append, hl]

/-- A line of the text, with `w` in front of it where it is marked. -/
def renderLine (w : Text) (p : Bool × Text) : Text := if p.1 then w ++ p.2 else p.2

/-- The lines of the text; the first of them is marked only where the text begins with a mark. -/
theorem exists_markedLines (hw : EndFree w) (H : LineMarks m) : ∃ p ps, markedLines m = p :: ps ∧
    (m.head? ≠ some none → p.1 = false) ∧
      linesOf (render w m) = (p :: ps).map (renderLine w) := by
  induction m using markedLines.induct with
  | case1 => exact ⟨_, _, rfl, fun _ => rfl, rfl⟩
  | case2 m h ih =>
    obtain ⟨p, ps, hlines, -⟩ := ih H.tail
    rw [h] at hlines
    cases hlines
  | case3 m p ps h ih =>
    obtain ⟨p', ps', hlines, hfalse, hof⟩ := ih H.tail
    rw [h] at hlines
    obtain ⟨rfl, rfl⟩ := List.cons.inj hlines
    have hp : renderLine w p = p.2 := by
      rw [renderLine, hfalse (H.head?_ne (by decide))]
      rfl
    refine ⟨(true, p.2), ps, by rw [markedLines, h], fun hne => absurd rfl hne, ?_⟩
    rw [List.map_cons, hp] at hof
    exact linesOf_append_left hw hof
  | case4 m ih =>
    obtain ⟨p, ps, hlines, -, hof⟩ := ih H.tail.tail
    refine ⟨(false, []), p :: ps, by rw [markedLines, hlines], fun _ => rfl, ?_⟩
    have hend : linesOf (['\r', '\n'] ++ render w m) = [] :: linesOf (render w m) :=
      linesFrom_end .crlf
    exact hend.trans (congrArg _ hof)
  | case5 c m hm hc ih =>
    obtain ⟨p, ps, hlines, -, hof⟩ := ih H.tail
    have hcons : markedLines (some c :: m) = (false, []) :: markedLines m := by
      rw [markedLines, if_pos hc]
      exact hm
    refine ⟨(false, []), p :: ps, by rw [hcons, hlines], fun _ => rfl, ?_⟩
    have hends : EndsLine [c] (render w m) := by
      by_cases hlf : c = '\n'
      · rw [hlf]
        exact .lf
      · have hcr := hc.resolve_left hlf
        rw [hcr]
        refine .cr fun hhead => ?_
        cases m with
        | nil => cases hhead
        | cons d m =>
          cases d with
          | none => exact H.head?_ne (by rw [hcr]; decide) rfl
          | some d => exact hm m (by rw [Option.some.inj hhead]) hcr
    exact (linesFrom_end hends).trans (congrArg _ hof)
  | case6 c m hm hc h ih =>
    obtain ⟨p, ps, hlines, -⟩ := ih H.tail
    rw [h] at hlines
    cases hlines
  | case7 c m hm hc p ps h ih =>
    obtain ⟨p', ps', hlines, hfalse, hof⟩ := ih H.tail
    rw [h] at hlines
    obtain ⟨rfl, rfl⟩ := List.cons.inj hlines
    have hcons : markedLines (some c :: m) = (false, c :: p.2) :: ps := by
      rw [markedLines, if_neg hc, h]
      exact hm
    have hlf : some c ≠ some '\n' := fun heq => hc (.inl (Option.some.inj heq))
    have hp : renderLine w p = p.2 := by
      rw [renderLine, hfalse (H.head?_ne hlf)]
      rfl
    refine ⟨(false, c :: p.2), ps, hcons, fun _ => rfl, ?_⟩
    rw [List.map_cons, hp] at hof
    obtain ⟨hc1, hc2⟩ := not_or.mp hc
    exact linesOf_append_left (endFree_cons.mpr ⟨⟨hc1, hc2⟩, endFree_nil⟩) hof

theorem linesOf_render (hw : EndFree w) (H : LineMarks m) :
    linesOf (render w m) = (markedLines m).map (renderLine w) := by
  obtain ⟨p, ps, hlines, -, hof⟩ := exists_markedLines hw H
  rw [hlines, hof]

end Text
