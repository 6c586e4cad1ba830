import SiftMcp.Indexing.Chunker

/-!
# Attached documentation

The block of comment lines above a construct, and where `attached_doc` finds it. The code strips
both characters of a line end with a carriage return and counts one, so that it comes out one byte
too early for each such line above the block.

`locatesDoc_iff` says when it comes out right.
-/

namespace SiftMcp
open Text
open String (utf8Len)

/-- The lines before a construct, with their ends but for the last one. -/
def precedingRows (before : Text) : List Text := splitInclusive (trimEnd before)

/-- The line, trimmed, is one that belongs to documentation. -/
def isDocRow (l : Text) : Bool := isDocCommentLine (trim l)

/-- The maximal run of comment lines that ends at the last line. -/
def attachedBlock (before : Text) : List Text :=
  (precedingRows before).rtakeWhile isDocRow

/-- The lines above the run. -/
def aboveBlock (before : Text) : List Text :=
  (precedingRows before).rdropWhile isDocRow

/-- How many of the lines end with a carriage return and a line feed. -/
def crlfs (rows : List Text) : Nat := rows.countP isCrlf

variable {before rest first r w : Text} {ls rows taken : List Text} {prev : List SyntaxNode}
  {size off : Nat}

theorem aboveBlock_append_attachedBlock :
    aboveBlock before ++ attachedBlock before = precedingRows before :=
  List.rdropWhile_append_rtakeWhile

/-! ## The loop over the lines -/

theorem takeCommentLines_blank (h : ∀ l ∈ ls, trim l = []) :
    takeCommentLines (ls ++ rows) [] = takeCommentLines rows [] := by
  induction ls with
  | nil => rfl
  | cons l ls ih =>
    obtain ⟨hl, hls⟩ := List.forall_mem_cons.mp h
    rw [List.cons_append, takeCommentLines, if_pos ⟨hl, rfl⟩, ih hls]

/-- Once the last line is not blank, or a line has been taken, the loop takes the run at the end. -/
theorem takeCommentLines_reverse (h : taken ≠ [] ∨ ∀ l, ls.getLast? = some l → trim l ≠ []) :
    takeCommentLines ls.reverse taken =
      ((ls.rdropWhile isDocRow).reverse,
        (ls.rtakeWhile isDocRow) ++ taken) := by
  induction ls using List.reverseRecOn generalizing taken with
  | nil => rfl
  | append_singleton ls l ih =>
    have hnot : ¬(trim l = [] ∧ taken = []) := by
      rintro ⟨hl, rfl⟩
      rcases h with h | h
      · exact h rfl
      · exact h l List.getLast?_concat hl
    rw [List.reverse_append]
    show takeCommentLines (l :: ls.reverse) taken = _
    rw [takeCommentLines, if_neg hnot]
    by_cases hd : isDocRow l = true
    · rw [if_pos (show isDocCommentLine (trim l) = true from hd), ih (.inl (List.cons_ne_nil _ _)),
        List.rdropWhile_concat_pos _ _ _ hd, List.rtakeWhile_concat_pos _ _ _ hd, List.append_assoc,
          List.singleton_append]
    · rw [if_neg (show ¬isDocCommentLine (trim l) = true from hd),
        List.rdropWhile_concat_neg _ _ _ hd, List.rtakeWhile_concat_neg _ _ _ hd,
        List.reverse_append]
      rfl

theorem lineOffset_append {l : Text} (h : off + (ls.map (utf8Len · + 1)).sum ≤ size) :
    lineOffset size ls.length (ls ++ l :: rows) off =
      some (off + (ls.map (utf8Len · + 1)).sum) := by
  induction ls generalizing off with
  | nil => rfl
  | cons a ls ih =>
    rw [List.map_cons, List.sum_cons] at h ⊢
    rw [List.length_cons, List.cons_append, lineOffset, if_pos (by omega), ih (by omega)]
    congr 1
    omega

/-! ## The lines before a construct -/

/-- A last line with blanks behind it: the line again, and lines that are blank. -/
theorem lines_append_blank (hr : '\n' ∉ r) (hw : Blank w) (hne : r ≠ []) :
    ∃ l bl, lines (r ++ w) = l :: bl ∧ trim l = trim r ∧ ∀ b ∈ bl, trim b = [] := by
  obtain ⟨ws, q, hws, hq, rfl⟩ := exists_rows w
  obtain ⟨hwsb, hqb⟩ := blank_append.mp hw
  have hrowsb : ∀ x ∈ ws, Blank x := fun x hx c hc => hwsb c (List.mem_flatten.mpr ⟨x, hx, hc⟩)
  cases ws with
  | nil =>
    refine ⟨chomp (r ++ q), [], ?_, trim_chomp.trans (trim_append_blank hqb), by simp⟩
    have hmem : '\n' ∉ r ++ q := by simp [hr, hq]
    show (splitInclusive (r ++ q)).map chomp = _
    rw [splitInclusive_of_not_mem hmem, if_neg (by simp [hne])]
    rfl
  | cons x ws =>
    obtain ⟨⟨b, hb, rfl⟩, hrest⟩ := List.forall_mem_cons.mp hws
    obtain ⟨hxb, hrestb⟩ := List.forall_mem_cons.mp hrowsb
    have hrow : IsRow (r ++ (b ++ ['\n'])) := ⟨r ++ b, by simp [hr, hb], by simp⟩
    refine ⟨chomp (r ++ (b ++ ['\n'])), (ws ++ splitInclusive q).map chomp, ?_,
      trim_chomp.trans (trim_append_blank hxb), ?_⟩
    · have happ : r ++ (((b ++ ['\n']) :: ws).flatten ++ q) =
          (r ++ (b ++ ['\n'])) ++ (ws.flatten ++ q) := by simp
      show (splitInclusive _).map chomp = _
      rw [happ, splitInclusive_row_append hrow, splitInclusive_rows_append hrest]
      rfl
    · intro y hy
      obtain ⟨z, hz, rfl⟩ := List.mem_map.mp hy
      rw [trim_chomp, trim_eq_nil_iff]
      rcases List.mem_append.mp hz with hz | hz
      · exact hrestb z hz
      · exact fun c hc => hqb c ((infix_of_mem_splitInclusive hz).subset hc)

theorem exists_trimBlanks : ∃ w, Blank w ∧ trimBlanks before = trimEnd before ++ w := by
  obtain ⟨v, hv, hbefore⟩ := @exists_trimEnd before
  obtain ⟨u, hu, heq⟩ := @exists_rdropWhile before fun c => c = ' ' ∨ c = '\t' ∨ c = '\n' ∨ c = '\r'
  have hub : Blank u := by
    intro c hc
    have := hu c hc
    simp only [decide_eq_true_iff] at this
    rcases this with rfl | rfl | rfl | rfl <;> decide
  have hpre : trimEnd before <+: trimBlanks before := by
    have htrim : trimEnd before = trimEnd (trimBlanks before) := by
      conv_lhs => rw [heq]
      exact trimEnd_append_blank hub
    rw [htrim]
    exact List.rdropWhile_prefix _ _
  obtain ⟨w, hw⟩ := hpre
  refine ⟨w, ?_, hw.symm⟩
  have hsplit : before = trimEnd before ++ (w ++ u) := by
    rw [← List.append_assoc, hw]
    exact heq
  have : w ++ u = v := List.append_cancel_left (hsplit.symm.trans hbefore)
  exact (blank_append.mp (this ▸ hv)).1

/-- There are no lines, or the last one is not blank. -/
theorem precedingRows_cases : (trimEnd before = [] ∧ precedingRows before = []) ∨
    ∃ rows r, (∀ l ∈ rows, IsRow l) ∧ '\n' ∉ r ∧ trim r ≠ [] ∧ trimEnd before = rows.flatten ++ r ∧
      precedingRows before = rows ++ [r] := by
  by_cases ht : trimEnd before = []
  · exact .inl ⟨ht, by rw [precedingRows, ht]; rfl⟩
  · obtain ⟨rows, r, hrows, hr, heq⟩ := exists_rows (trimEnd before)
    have hlast : ¬isWhitespace ((trimEnd before).getLast ht) = true :=
      List.rdropWhile_last_not isWhitespace before ht
    have hne : r ≠ [] := by
      rintro rfl
      rcases List.eq_nil_or_concat rows with rfl | ⟨rows, x, rfl⟩
      · exact ht heq
      · obtain ⟨b, -, rfl⟩ := hrows x (by simp)
        have hend : (trimEnd before).getLast? = some '\n' := by simp [heq]
        rw [List.getLast?_eq_some_getLast ht, Option.some.injEq] at hend
        exact hlast (by rw [hend]; rfl)
    refine .inr ⟨rows, r, hrows, hr, ?_, heq, ?_⟩
    · rw [ne_eq, trim_eq_nil_iff]
      intro hblank
      have hend : (trimEnd before).getLast ht = r.getLast hne := by
        simp [heq, List.getLast_append_of_ne_nil, hne]
      exact hlast (hend ▸ hblank _ (List.getLast_mem hne))
    · rw [precedingRows, heq, splitInclusive_eq hrows hr, if_neg hne]

theorem map_trim_rtakeWhile {xs ys : List Text} (h : xs.map trim = ys.map trim) :
    (xs.rtakeWhile isDocRow).map trim = (ys.rtakeWhile isDocRow).map trim := by
  have hmap (zs : List Text) :
      (zs.rtakeWhile isDocRow).map trim = (zs.map trim).rtakeWhile isDocCommentLine := by
    unfold List.rtakeWhile
    rw [← List.map_reverse (l := zs), List.takeWhile_map, List.map_reverse]
    rfl
  rw [hmap, hmap, h]

theorem length_rdropWhile {xs ys : List Text} (h : xs.map trim = ys.map trim) :
    (xs.rdropWhile isDocRow).length = (ys.rdropWhile isDocRow).length := by
  have hrun := congrArg List.length (map_trim_rtakeWhile h)
  have hall := congrArg List.length h
  have hsplit (zs : List Text) :=
    congrArg List.length (@List.rdropWhile_append_rtakeWhile _ isDocRow zs)
  have hx := hsplit xs
  have hy := hsplit ys
  simp only [List.length_append, List.length_map] at hrun hall hx hy
  omega

/-- What the loop over the lines before a construct takes: the block, line for line up to blanks. -/
theorem takeCommentLines_lines : ∃ above taken,
    takeCommentLines (lines (trimBlanks before)).reverse [] = (above, taken) ∧
      taken.map trim = (attachedBlock before).map trim ∧
      (attachedBlock before ≠ [] → above.length = (aboveBlock before).length ∧
        (∀ l ∈ taken, l ∈ lines (trimBlanks before)) ∧ (∀ l ∈ aboveBlock before, IsRow l) ∧
        ∃ l ls, lines (trimBlanks before) = (aboveBlock before).map chomp ++ l :: ls) := by
  obtain ⟨w, hw, hslice⟩ := @exists_trimBlanks before
  rcases @precedingRows_cases before with ⟨ht, hrows⟩ | ⟨rows, r, hrows, hr, hne, ht, hall⟩
  · have hblock : attachedBlock before = [] := by
      unfold attachedBlock
      rw [hrows]
      rfl
    have hblank : ∀ l ∈ (lines (trimBlanks before)).reverse, trim l = [] := by
      intro l hl
      rw [hslice, ht, List.nil_append] at hl
      exact trim_eq_nil_iff.mpr fun c hc =>
        hw c ((infix_of_mem_lines (List.mem_reverse.mp hl)).subset hc)
    refine ⟨[], [], ?_, by rw [hblock], fun h => absurd hblock h⟩
    have := @takeCommentLines_blank _ [] hblank
    rwa [List.append_nil] at this
  · obtain ⟨l, bl, hlines, hl, hbl⟩ := lines_append_blank hr hw fun h => hne (by rw [h]; rfl)
    have hslices : lines (trimBlanks before) = (rows.map chomp ++ [l]) ++ bl := by
      rw [hslice, ht, List.append_assoc, lines, splitInclusive_rows_append hrows, List.map_append]
      show _ ++ lines (r ++ w) = _
      rw [hlines, List.append_assoc]
      rfl
    have htrims : (rows.map chomp ++ [l]).map trim = (precedingRows before).map trim := by
      rw [hall, List.map_append, List.map_append, List.map_map, List.map_singleton,
        List.map_singleton, hl]
      congr 1
      exact List.map_congr_left fun x _ => trim_chomp
    refine ⟨((rows.map chomp ++ [l]).rdropWhile isDocRow).reverse,
      (rows.map chomp ++ [l]).rtakeWhile isDocRow ++ [], ?_, ?_, fun hblock => ⟨?_, ?_, ?_⟩⟩
    · rw [hslices, List.reverse_append,
        takeCommentLines_blank fun x hx => hbl x (List.mem_reverse.mp hx)]
      refine takeCommentLines_reverse (.inr fun x hx => ?_)
      rw [List.getLast?_concat, Option.some.injEq] at hx
      rwa [← hx, hl]
    · rw [List.append_nil, map_trim_rtakeWhile htrims]
      rfl
    · rw [List.length_reverse]
      exact length_rdropWhile htrims
    · intro x hx
      rw [hslices]
      rw [List.append_nil] at hx
      exact List.mem_append_left _ ((List.rtakeWhile_suffix _ _).subset hx)
    · obtain ⟨d, ds, hcons⟩ := List.exists_cons_of_ne_nil hblock
      have hsplit := (@aboveBlock_append_attachedBlock before).trans hall
      have hpre : aboveBlock before <+: rows := by
        refine List.prefix_of_prefix_length_le ⟨_, hsplit⟩ ⟨_, rfl⟩ ?_
        have := congrArg List.length hsplit
        rw [hcons] at this
        simp only [List.length_append, List.length_cons, List.length_nil] at this
        omega
      obtain ⟨rows', rfl⟩ := hpre
      refine ⟨fun x hx => hrows x (List.mem_append_left _ hx), ?_⟩
      rw [hslices, List.map_append]
      cases rows' with
      | nil => exact ⟨l, bl, by simp⟩
      | cons x xs => exact ⟨chomp x, xs.map chomp ++ l :: bl, by simp⟩

/-! ## The start that is found -/

/-- The lengths that the code adds up for the lines of a block of rows. -/
theorem sum_chomp_rows (h : ∀ l ∈ rows, IsRow l) :
    ((rows.map chomp).map (utf8Len · + 1)).sum + crlfs rows = utf8Len rows.flatten := by
  induction rows with
  | nil => rfl
  | cons l rows ih =>
    obtain ⟨hl, hrows⟩ := List.forall_mem_cons.mp h
    have hrow := utf8Len_chomp_row hl
    have hrest := ih hrows
    unfold crlfs at hrest ⊢
    simp only [List.map_cons, List.sum_cons, List.countP_cons, List.flatten_cons,
      String.utf8Len_append] at hrest ⊢
    omega

theorem utf8Len_aboveBlock_le : utf8Len (aboveBlock before).flatten ≤ utf8Len before := by
  obtain ⟨w, -, hbefore⟩ := @exists_trimEnd before
  have hrows : utf8Len (trimEnd before) = utf8Len (precedingRows before).flatten := by
    rw [precedingRows, splitInclusive_flatten]
  rw [← aboveBlock_append_attachedBlock, List.flatten_append, String.utf8Len_append] at hrows
  conv_rhs => rw [hbefore, String.utf8Len_append]
  omega

theorem slice?_before : (before ++ rest).slice? 0 (utf8Len before) = some before :=
  slice?_eq_some_iff.mpr ⟨[], rest, rfl, rfl, Nat.zero_add _⟩

/-- Above a block the code comes out at its start, less a byte for each carriage return. -/
theorem attachedDoc_of_block (h : attachedBlock before ≠ []) :
    attachedDoc (before ++ rest) (utf8Len before) prev =
      some (some (utf8Len (aboveBlock before).flatten - crlfs (aboveBlock before)),
        (attachedBlock before).head?.map trim) := by
  obtain ⟨above, taken, hloop, htrims, hblock⟩ := @takeCommentLines_lines before
  obtain ⟨hlen, hmem, hrows, l, ls, hlines⟩ := hblock h
  obtain ⟨d, ds, hcons⟩ := List.exists_cons_of_ne_nil h
  rw [hcons] at htrims
  obtain ⟨first, more, rfl, hfirst, -⟩ := List.map_eq_cons_iff.mp htrims
  have hfound : (rfind? first (trimBlanks before)).isSome = true :=
    isSome_rfind?_iff.mpr (infix_of_mem_lines (hmem first List.mem_cons_self))
  have hsum := sum_chomp_rows hrows
  have hoffset : lineOffset (utf8Len before) above.length (lines (trimBlanks before)) 0 =
      some (utf8Len (aboveBlock before).flatten - crlfs (aboveBlock before)) := by
    have hle := @utf8Len_aboveBlock_le before
    rw [hlen, hlines, ← List.length_map (f := chomp), lineOffset_append (by omega)]
    congr 1
    omega
  simp only [attachedDoc, slice?_before, Option.bind_eq_bind, Option.bind_some, hloop, hfound,
    hoffset, hcons, hfirst]
  rfl

/-- Without a block the siblings before the construct decide. -/
theorem attachedDoc_of_no_block (h : attachedBlock before = []) :
    attachedDoc (before ++ rest) (utf8Len before) prev = siblingDoc (before ++ rest) none prev := by
  obtain ⟨above, taken, hloop, htrims, -⟩ := @takeCommentLines_lines before
  rw [h] at htrims
  obtain rfl := List.map_eq_nil_iff.mp htrims
  simp only [attachedDoc, slice?_before, Option.bind_eq_bind, Option.bind_some, hloop]
  rfl

/-- Where there is a block, `attached_doc` gives the place at which its first line begins, and that
line. -/
def LocatesDoc (before rest : Text) (prev : List SyntaxNode) : Prop :=
  attachedBlock before ≠ [] → attachedDoc (before ++ rest) (utf8Len before) prev =
    some (some (utf8Len (aboveBlock before).flatten), (attachedBlock before).head?.map trim)

/-- The block is located exactly if no line above it ends with a carriage return and a line feed. -/
theorem locatesDoc_iff (before rest : Text) (prev : List SyntaxNode) : LocatesDoc before rest prev ↔
    (attachedBlock before ≠ [] → ∀ l ∈ aboveBlock before, isCrlf l = false) := by
  apply imp_congr_right
  intro h
  rw [attachedDoc_of_block h, Option.some_inj, Prod.mk.injEq, Option.some_inj]
  obtain ⟨above, taken, -, -, hblock⟩ := @takeCommentLines_lines before
  have hsum := sum_chomp_rows (hblock h).2.2.1
  have hzero : crlfs (aboveBlock before) = 0 ↔ ∀ l ∈ aboveBlock before, isCrlf l = false := by
    unfold crlfs
    rw [List.countP_eq_zero]
    simp only [Bool.not_eq_true]
  rw [← hzero]
  constructor
  · intro ⟨heq, _⟩
    omega
  · intro hc
    exact ⟨by rw [hc, Nat.sub_zero], rfl⟩

/-- Behind a line with a carriage return the documentation starts at the line feed before it. -/
theorem not_locatesDoc_crlf :
    ¬LocatesDoc "use a;\r\n/// Adds one.\r\n".toList "fn add(x: u8) -> u8 {}".toList [] := by
  intro h
  have hdoc := h (by decide)
  revert hdoc
  decide

end SiftMcp
