import SiftMcp.Lib.Utf8Text

/-!
# Lines with any of three ends

A line ends with a line feed, with a carriage return, or with both. `linesOf` gives the lines
without their ends, `editLines` changes the lines and keeps the ends, and `line_induction` takes a
text line by line.
-/

namespace Text

/-- Neither a line feed nor a carriage return. -/
def EndFree (l : Text) : Prop := '\n' ∉ l ∧ '\r' ∉ l

/-- The end of a line with the text behind it. A carriage return before a line feed is no end of its
own. -/
inductive EndsLine : Text → Text → Prop
  | lf {t} : EndsLine ['\n'] t
  | crlf {t} : EndsLine ['\r', '\n'] t
  | cr {t} : t.head? ≠ some '\n' → EndsLine ['\r'] t

/-- The lines of a text that goes on in a line. -/
def linesFrom (l : Text) : Text → List Text
  | '\r' :: '\n' :: t => l :: linesFrom [] t
  | c :: t => if c = '\n' ∨ c = '\r' then l :: linesFrom [] t else linesFrom (l ++ [c]) t
  | [] => [l]

def linesOf (t : Text) : List Text := linesFrom [] t

/-- The same with the lines changed; the number is that of the line. -/
def editFrom (f : Nat → Text → Text) (i : Nat) (l : Text) : Text → Text
  | '\r' :: '\n' :: t => f i l ++ '\r' :: '\n' :: editFrom f (i + 1) [] t
  | c :: t =>
    if c = '\n' ∨ c = '\r' then f i l ++ c :: editFrom f (i + 1) [] t else editFrom f i (l ++ [c]) t
  | [] => f i l

def editLines (f : Nat → Text → Text) (t : Text) : Text := editFrom f 0 [] t

variable {l l' e t : Text} {c : Char} {f : Nat → Text → Text} {i : Nat}

/-! ## Line by line -/

theorem endFree_cons : EndFree (c :: l) ↔ (c ≠ '\n' ∧ c ≠ '\r') ∧ EndFree l := by
  unfold EndFree
  rw [List.mem_cons, List.mem_cons, not_or, not_or, ne_comm, @ne_comm _ c '\r']
  exact and_and_and_comm

theorem endFree_append : EndFree (l ++ l') ↔ EndFree l ∧ EndFree l' := by
  unfold EndFree
  rw [List.mem_append, List.mem_append, not_or, not_or]
  exact and_and_and_comm

theorem EndFree.mono (h : EndFree l) (hsub : l' ⊆ l) : EndFree l' :=
  ⟨fun hmem => h.1 (hsub hmem), fun hmem => h.2 (hsub hmem)⟩

theorem endFree_nil : EndFree [] := ⟨List.not_mem_nil, List.not_mem_nil⟩

theorem exists_line (t : Text) : EndFree t ∨
    ∃ l e t', EndFree l ∧ EndsLine e t' ∧ t = l ++ e ++ t' := by
  induction t with
  | nil => exact .inl endFree_nil
  | cons c t ih =>
    by_cases hlf : c = '\n'
    · subst hlf
      exact .inr ⟨[], ['\n'], t, endFree_nil, .lf, rfl⟩
    by_cases hcr : c = '\r'
    · subst hcr
      by_cases ht : t.head? = some '\n'
      · obtain ⟨t', rfl⟩ := List.head?_eq_some_iff.mp ht
        exact .inr ⟨[], ['\r', '\n'], t', endFree_nil, .crlf, rfl⟩
      · exact .inr ⟨[], ['\r'], t, endFree_nil, .cr ht, rfl⟩
    rcases ih with h | ⟨l, e, t', hl, he, rfl⟩
    · exact .inl (endFree_cons.mpr ⟨⟨hlf, hcr⟩, h⟩)
    · exact .inr ⟨c :: l, e, t', endFree_cons.mpr ⟨⟨hlf, hcr⟩, hl⟩, he, rfl⟩

theorem EndsLine.length_pos (h : EndsLine e t) : 0 < e.length := by
  cases h <;> exact Nat.succ_pos _

@[elab_as_elim]
theorem line_induction {P : Text → Prop} (last : ∀ l, EndFree l → P l)
    (line : ∀ l e t, EndFree l → EndsLine e t → P t → P (l ++ e ++ t)) (t : Text) : P t := by
  induction h : t.length using Nat.strongRecOn generalizing t with
  | _ n ih =>
    rcases exists_line t with ht | ⟨l, e, t', hl, he, rfl⟩
    · exact last t ht
    · refine line l e t' hl he (ih t'.length ?_ t' rfl)
      have := he.length_pos
      rw [← h, List.length_append, List.length_append]
      omega

theorem linesFrom_cons (hc : c ≠ '\n' ∧ c ≠ '\r') :
    linesFrom l (c :: t) = linesFrom (l ++ [c]) t := by
  rw [linesFrom, if_neg (not_or.mpr hc)]
  intro t' h _
  exact hc.2 h

theorem editFrom_cons (hc : c ≠ '\n' ∧ c ≠ '\r') :
    editFrom f i l (c :: t) = editFrom f i (l ++ [c]) t := by
  rw [editFrom, if_neg (not_or.mpr hc)]
  intro t' h _
  exact hc.2 h

theorem linesFrom_append (hl : EndFree l') : linesFrom l (l' ++ t) = linesFrom (l ++ l') t := by
  induction l' generalizing l with
  | nil => rw [List.nil_append, List.append_nil]
  | cons c l' ih =>
    obtain ⟨hc, hl⟩ := endFree_cons.mp hl
    rw [List.cons_append, linesFrom_cons hc, ih hl, List.append_assoc, List.singleton_append]

theorem editFrom_append (hl : EndFree l') :
    editFrom f i l (l' ++ t) = editFrom f i (l ++ l') t := by
  induction l' generalizing l with
  | nil => rw [List.nil_append, List.append_nil]
  | cons c l' ih =>
    obtain ⟨hc, hl⟩ := endFree_cons.mp hl
    rw [List.cons_append, editFrom_cons hc, ih hl, List.append_assoc, List.singleton_append]

theorem linesFrom_end (he : EndsLine e t) : linesFrom l (e ++ t) = l :: linesOf t := by
  cases he with
  | lf =>
    rw [List.singleton_append, linesFrom, if_pos (.inl rfl)]
    · rfl
    · intro t' h
      exact absurd h (by decide)
  | crlf => rfl
  | cr h =>
    rw [List.singleton_append, linesFrom, if_pos (.inr rfl)]
    · rfl
    · intro t' _ ht
      rw [ht] at h
      exact h rfl

theorem editFrom_end (he : EndsLine e t) :
    editFrom f i l (e ++ t) = f i l ++ e ++ editFrom f (i + 1) [] t := by
  cases he with
  | lf =>
    rw [List.singleton_append, editFrom, if_pos (.inl rfl), List.append_assoc]
    · rfl
    · intro t' h
      exact absurd h (by decide)
  | crlf => rw [List.append_assoc]; rfl
  | cr h =>
    rw [List.singleton_append, editFrom, if_pos (.inr rfl), List.append_assoc]
    · rfl
    · intro t' _ ht
      rw [ht] at h
      exact h rfl

theorem linesOf_last (hl : EndFree l) : linesOf l = [l] := by
  have h := @linesFrom_append [] l [] hl
  rwa [List.append_nil, List.nil_append] at h

theorem linesOf_line (hl : EndFree l) (he : EndsLine e t) :
    linesOf (l ++ e ++ t) = l :: linesOf t := by
  rw [linesOf, List.append_assoc, linesFrom_append hl, linesFrom_end he, List.nil_append]

theorem editFrom_last (hl : EndFree l) : editFrom f i [] l = f i l := by
  have h := @editFrom_append [] l [] f i hl
  rwa [List.append_nil, List.nil_append] at h

theorem editFrom_line (hl : EndFree l) (he : EndsLine e t) :
    editFrom f i [] (l ++ e ++ t) = f i l ++ e ++ editFrom f (i + 1) [] t := by
  rw [List.append_assoc, editFrom_append hl, editFrom_end he, List.nil_append]

theorem linesOf_ne_nil : linesOf t ≠ [] := by
  induction t using line_induction with
  | last l hl =>
    rw [linesOf_last hl]
    exact List.cons_ne_nil _ _
  | line l e t hl he _ =>
    rw [linesOf_line hl he]
    exact List.cons_ne_nil _ _

theorem endFree_of_mem_linesOf (h : l ∈ linesOf t) : EndFree l := by
  induction t using line_induction with
  | last l' hl =>
    rw [linesOf_last hl, List.mem_singleton] at h
    rwa [h]
  | line l' e t hl he ih =>
    rw [linesOf_line hl he, List.mem_cons] at h
    rcases h with rfl | h
    · exact hl
    · exact ih h

/-- Lines that are joined are found again. -/
theorem linesOf_joinLines {ls : List Text} (h : ∀ l ∈ ls, EndFree l) (hne : ls ≠ []) :
    linesOf (joinLines ls) = ls := by
  induction ls with
  | nil => exact absurd rfl hne
  | cons l ls ih =>
    obtain ⟨hl, hls⟩ := List.forall_mem_cons.mp h
    cases ls with
    | nil =>
      rw [joinLines, List.intercalate_singleton]
      exact linesOf_last hl
    | cons l' ls =>
      rw [joinLines, List.intercalate_cons_cons]
      show linesOf (l ++ ['\n'] ++ joinLines (l' :: ls)) = _
      rw [linesOf_line hl .lf, ih hls (List.cons_ne_nil _ _)]

/-! ## Changed lines -/

/-- The change makes no new line and leaves no line empty that was not. -/
structure KeepsLines (f : Nat → Text → Text) : Prop where
  endFree : ∀ i l, EndFree l → EndFree (f i l)
  ne_nil : ∀ i l, l ≠ [] → f i l ≠ []

theorem KeepsLines.head?_editFrom (H : KeepsLines f) (h : t.head? ≠ some '\n') :
    (editFrom f i [] t).head? ≠ some '\n' := by
  have hline : ∀ l rest, EndFree l → f i l ≠ [] → (f i l ++ rest).head? ≠ some '\n' := by
    intro l rest hl hne hhead
    obtain ⟨c, r, hc⟩ := List.exists_cons_of_ne_nil hne
    rw [hc, List.cons_append, List.head?_cons, Option.some.injEq] at hhead
    have hfree := H.endFree i l hl
    rw [hc, hhead] at hfree
    exact hfree.1 List.mem_cons_self
  induction t using line_induction with
  | last l hl =>
    rw [editFrom_last hl]
    intro hhead
    by_cases hne : f i l = []
    · rw [hne] at hhead
      cases hhead
    · have := hline l [] hl hne
      rw [List.append_nil] at this
      exact this hhead
  | line l e t hl he _ =>
    rw [editFrom_line hl he, List.append_assoc]
    by_cases hne : f i l = []
    · have hnil : l = [] := by
        by_contra hl'
        exact H.ne_nil i l hl' hne
      rw [hne, List.nil_append]
      rw [hnil, List.nil_append] at h
      cases he with
      | lf => exact absurd rfl h
      | crlf => simp
      | cr => simp
    · exact hline l _ hl hne

theorem KeepsLines.endsLine (H : KeepsLines f) (he : EndsLine e t) :
    EndsLine e (editFrom f i [] t) := by
  cases he with
  | lf => exact .lf
  | crlf => exact .crlf
  | cr h => exact .cr (H.head?_editFrom h)

theorem KeepsLines.linesOf_editFrom (H : KeepsLines f) :
    linesOf (editFrom f i [] t) = (linesOf t).mapIdx fun k => f (i + k) := by
  induction t using line_induction generalizing i with
  | last l hl =>
    rw [editFrom_last hl, linesOf_last hl, linesOf_last (H.endFree i l hl)]
    rfl
  | line l e t hl he ih =>
    rw [editFrom_line hl he, linesOf_line hl he,
      linesOf_line (H.endFree i l hl) (H.endsLine he), ih, List.mapIdx_cons]
    simp only [Nat.add_zero, Nat.add_assoc, Nat.add_comm 1]

/-- The lines of the changed text are the changed lines. -/
theorem KeepsLines.linesOf_editLines (H : KeepsLines f) :
    linesOf (editLines f t) = (linesOf t).mapIdx f := by
  have h := H.linesOf_editFrom (i := 0) (t := t)
  simp only [Nat.zero_add] at h
  exact h

/-! ## Blank lines at the ends -/

theorem blank_of_mem_linesOf (ht : Blank t) (h : l ∈ linesOf t) : Blank l := by
  induction t using line_induction with
  | last l' hl =>
    rw [linesOf_last hl, List.mem_singleton] at h
    rwa [h]
  | line l' e t hl he ih =>
    obtain ⟨hle, ht⟩ := blank_append.mp ht
    rw [linesOf_line hl he, List.mem_cons] at h
    rcases h with rfl | h
    · exact (blank_append.mp hle).1
    · exact ih ht h

/-- Blanks with the end of a line behind them, or nothing. -/
structure BlankLines (u : Text) : Prop where
  blank : Blank u
  ended : ∀ c, u.getLast? = some c → c = '\n' ∨ c = '\r'

theorem EndsLine.of_append (he : EndsLine e t) (h : t ≠ []) : EndsLine e (t ++ l) := by
  cases he with
  | lf => exact .lf
  | crlf => exact .crlf
  | cr hc =>
    refine .cr ?_
    rwa [List.head?_append_of_ne_nil _ h]

/-- Where an end does not end the line, it is the first half of one that does. -/
theorem EndsLine.or_merges (he : EndsLine e []) (t : Text) :
    EndsLine e t ∨ ∃ t', e = ['\r'] ∧ t = '\n' :: t' := by
  cases he with
  | lf => exact .inl .lf
  | crlf => exact .inl .crlf
  | cr _ =>
    by_cases ht : t.head? = some '\n'
    · obtain ⟨t', rfl⟩ := List.head?_eq_some_iff.mp ht
      exact .inr ⟨t', rfl, rfl⟩
    · exact .inl (.cr ht)

theorem linesOf_lineFeed : linesOf ('\n' :: t) = [] :: linesOf t :=
  linesOf_line endFree_nil .lf

theorem linesOf_merged (hl : EndFree l) : linesOf (l ++ ['\r'] ++ '\n' :: t) = l :: linesOf t := by
  have h := @linesOf_line l ['\r', '\n'] t hl .crlf
  rwa [List.append_assoc] at h ⊢

theorem linesOf_blankLines_append {u : Text} (hu : BlankLines u) :
    ∃ bs rest, (∀ b ∈ bs, Blank b) ∧ linesOf (u ++ t) = bs ++ rest ∧
      (linesOf t = rest ∨ linesOf t = [] :: rest) := by
  induction u using line_induction with
  | last l hl =>
    have hnil : l = [] := by
      by_contra hne
      have hlast := hu.ended _ (List.getLast?_eq_some_getLast hne)
      rcases hlast with h | h
      · exact hl.1 (h ▸ List.getLast_mem hne)
      · exact hl.2 (h ▸ List.getLast_mem hne)
    subst hnil
    exact ⟨[], linesOf t, by simp, rfl, .inl rfl⟩
  | line l e u hl he ih =>
    obtain ⟨hle, hub⟩ := blank_append.mp hu.blank
    have hlb := (blank_append.mp hle).1
    by_cases hnil : u = []
    · subst hnil
      rw [List.append_nil]
      rcases he.or_merges t with he | ⟨t', rfl, rfl⟩
      · exact ⟨[l], linesOf t, by simpa using hlb, linesOf_line hl he, .inl rfl⟩
      · exact ⟨[l], linesOf t', by simpa using hlb, linesOf_merged hl, .inr linesOf_lineFeed⟩
    · have hended : BlankLines u := ⟨hub, fun c hc => hu.ended c (by
        rw [List.getLast?_append_of_ne_nil _ hnil]
        exact hc)⟩
      obtain ⟨bs, rest, hbs, heq, hrest⟩ := ih hended
      refine ⟨l :: bs, rest, List.forall_mem_cons.mpr ⟨hlb, hbs⟩, ?_, hrest⟩
      rw [List.append_assoc, linesOf_line hl (he.of_append hnil), heq]
      rfl

theorem linesOf_append_blank {v : Text} (hv : Blank v) : ∃ ls l b bs, linesOf t = ls ++ [l] ∧
    linesOf (t ++ v) = ls ++ (l ++ b) :: bs ∧ Blank b ∧ ∀ x ∈ bs, Blank x := by
  have hsplit : ∀ s, Blank s → ∃ b bs, linesOf s = b :: bs ∧ Blank b ∧ ∀ x ∈ bs, Blank x := by
    intro s hs
    obtain ⟨b, bs, h⟩ := List.exists_cons_of_ne_nil (@linesOf_ne_nil s)
    have hall : ∀ x ∈ b :: bs, Blank x := fun x hx => blank_of_mem_linesOf hs (h ▸ hx)
    exact ⟨b, bs, h, (List.forall_mem_cons.mp hall).1, (List.forall_mem_cons.mp hall).2⟩
  induction t using line_induction with
  | last l hl =>
    obtain ⟨b, bs, h, hb, hbs⟩ := hsplit v hv
    refine ⟨[], l, b, bs, linesOf_last hl, ?_, hb, hbs⟩
    rcases exists_line v with hfree | ⟨l', e, v', hl', he, rfl⟩
    · rw [linesOf_last hfree] at h
      obtain ⟨rfl, rfl⟩ := List.cons.inj h
      exact linesOf_last (endFree_append.mpr ⟨hl, hfree⟩)
    · rw [linesOf_line hl' he] at h
      obtain ⟨rfl, rfl⟩ := List.cons.inj h
      rw [← List.append_assoc, ← List.append_assoc, linesOf_line (endFree_append.mpr ⟨hl, hl'⟩) he]
      rfl
  | line l e t hl he ih =>
    by_cases hnil : t = []
    · subst hnil
      have hlines : linesOf (l ++ e ++ []) = [l] ++ [[]] := linesOf_line hl he
      rw [List.append_nil] at hlines ⊢
      rcases he.or_merges v with he | ⟨v', rfl, rfl⟩
      · obtain ⟨b, bs, h, hb, hbs⟩ := hsplit v hv
        exact ⟨[l], [], b, bs, hlines, by rw [linesOf_line hl he, h]; rfl, hb, hbs⟩
      · obtain ⟨b, bs, h, hb, hbs⟩ := hsplit v' fun c hc => hv c (List.mem_cons_of_mem _ hc)
        exact ⟨[l], [], b, bs, hlines, by rw [linesOf_merged hl, h]; rfl, hb, hbs⟩
    · obtain ⟨ls, l', b, bs, ht, htv, hb, hbs⟩ := ih
      refine ⟨l :: ls, l', b, bs, ?_, ?_, hb, hbs⟩
      · rw [linesOf_line hl he, ht]
        rfl
      · rw [List.append_assoc, linesOf_line hl (he.of_append hnil), htv]
        rfl

end Text
