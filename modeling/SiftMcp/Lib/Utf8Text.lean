import Mathlib.Data.String.Basic
import Mathlib.Data.List.DropRight
import Mathlib.Data.List.Infix

/-!
# Texts and byte offsets

A text is a list of characters, an offset into it a number of bytes of its UTF-8 form. An offset is
a boundary if it falls between two characters. A cut at an offset that is none has no result, and a
text is cut at an offset in one way only. Lines, blanks and searches follow the string functions of
the standard library that texts with byte offsets are met with.
-/

open String (utf8Len)

abbrev Text := List Char

namespace Text

/-! ## Cuts -/

/-- The parts of a text before and behind an offset. -/
def splitAt? : Text → Nat → Option (Text × Text)
  | t, 0 => some ([], t)
  | [], _ + 1 => none
  | c :: t, b + 1 =>
    if c.utf8Size ≤ b + 1 then (splitAt? t (b + 1 - c.utf8Size)).map fun ps => (c :: ps.1, ps.2)
    else none

/-- `t[a..b]` -/
def slice? (t : Text) (a b : Nat) : Option Text :=
  (splitAt? t a).bind fun ps => if b < a then none else (splitAt? ps.2 (b - a)).map (·.1)

/-- The offset falls between two characters, or at an end. -/
def IsBoundary (t : Text) (b : Nat) : Prop := ∃ p s, p ++ s = t ∧ utf8Len p = b

variable {t p m s : Text} {a b : Nat}

@[simp] theorem splitAt?_zero : splitAt? t 0 = some ([], t) := by
  cases t <;> rfl

theorem splitAt?_append : splitAt? (p ++ s) (utf8Len p) = some (p, s) := by
  induction p with
  | nil => simp
  | cons c p ih =>
    obtain ⟨k, hk⟩ := Nat.exists_eq_succ_of_ne_zero (Nat.ne_of_gt c.utf8Size_pos)
    have hlen : utf8Len (c :: p) = (utf8Len p + k) + 1 := by
      rw [String.utf8Len_cons, hk]
      omega
    have hrest : utf8Len p + k + 1 - c.utf8Size = utf8Len p := by omega
    rw [hlen, List.cons_append, splitAt?, if_pos (by omega), hrest, ih]
    rfl

theorem eq_of_splitAt? (h : splitAt? t b = some (p, s)) : p ++ s = t ∧ utf8Len p = b := by
  induction t, b using splitAt?.induct generalizing p with
  | case1 t =>
    rw [splitAt?_zero] at h
    cases h
    exact ⟨rfl, rfl⟩
  | case2 b => cases h
  | case3 c t b hle ih =>
    rw [splitAt?, if_pos hle, Option.map_eq_some_iff] at h
    obtain ⟨⟨q, r⟩, hq, heq⟩ := h
    cases heq
    obtain ⟨rfl, hlen⟩ := ih hq
    have hlen : utf8Len q = b + 1 - c.utf8Size := hlen
    refine ⟨rfl, ?_⟩
    show utf8Len q + c.utf8Size = b + 1
    omega
  | case4 c t b hle =>
    rw [splitAt?, if_neg hle] at h
    cases h

theorem splitAt?_eq_some_iff : splitAt? t b = some (p, s) ↔ p ++ s = t ∧ utf8Len p = b := by
  constructor
  · exact eq_of_splitAt?
  · rintro ⟨rfl, rfl⟩
    exact splitAt?_append

theorem slice?_append : slice? (p ++ m ++ s) (utf8Len p) (utf8Len p + utf8Len m) = some m := by
  rw [slice?, List.append_assoc, splitAt?_append]
  show (if utf8Len p + utf8Len m < utf8Len p then none else _) = _
  rw [if_neg (by omega), Nat.add_sub_cancel_left, splitAt?_append]
  rfl

theorem slice?_eq_some_iff : slice? t a b = some m ↔
    ∃ p s, p ++ m ++ s = t ∧ utf8Len p = a ∧ utf8Len p + utf8Len m = b := by
  constructor
  · intro h
    obtain ⟨⟨p, r⟩, hp, hm⟩ := Option.bind_eq_some_iff.mp h
    clear h
    obtain ⟨rfl, rfl⟩ := eq_of_splitAt? hp
    by_cases hlt : b < utf8Len p
    · rw [if_pos hlt] at hm
      cases hm
    · rw [if_neg hlt, Option.map_eq_some_iff] at hm
      obtain ⟨⟨m, s⟩, hm, rfl⟩ := hm
      obtain ⟨rfl, hlen⟩ := eq_of_splitAt? hm
      have hlen : utf8Len m = b - utf8Len p := hlen
      exact ⟨p, s, List.append_assoc .., rfl, by show utf8Len p + utf8Len m = b; omega⟩
  · rintro ⟨p, s, rfl, rfl, rfl⟩
    exact slice?_append

/-! ## Boundaries -/

theorem isBoundary_iff_isSome : IsBoundary t b ↔ (splitAt? t b).isSome = true := by
  rw [Option.isSome_iff_exists]
  constructor
  · rintro ⟨p, s, h⟩
    exact ⟨(p, s), splitAt?_eq_some_iff.mpr h⟩
  · rintro ⟨⟨p, s⟩, h⟩
    exact ⟨p, s, splitAt?_eq_some_iff.mp h⟩

instance : Decidable (IsBoundary t b) := decidable_of_iff _ isBoundary_iff_isSome.symm

theorem isBoundary_zero : IsBoundary t 0 := ⟨[], t, rfl, rfl⟩

theorem isBoundary_utf8Len : IsBoundary t (utf8Len t) := ⟨t, [], List.append_nil t, rfl⟩

theorem isBoundary_append : IsBoundary (p ++ s) (utf8Len p) := ⟨p, s, rfl, rfl⟩

theorem IsBoundary.le (h : IsBoundary t b) : b ≤ utf8Len t := by
  obtain ⟨p, s, rfl, rfl⟩ := h
  rw [String.utf8Len_append]
  exact Nat.le_add_right ..

theorem utf8Len_lt_of_ne_nil (h : m ≠ []) : utf8Len p < utf8Len (p ++ m) := by
  rw [String.utf8Len_append]
  have := Nat.pos_of_ne_zero (mt String.utf8Len_eq_zero.mp h)
  omega

theorem length_le_utf8Len : t.length ≤ utf8Len t := by
  induction t with
  | nil => exact Nat.le_refl _
  | cons c t ih =>
    have hc := c.utf8Size_pos
    rw [List.length_cons, String.utf8Len_cons]
    omega

/-- The cut further in is a cut of what is before the cut further out. -/
theorem exists_between {p' s' : Text} (h : p ++ s = p' ++ s') (hle : utf8Len p ≤ utf8Len p') :
    ∃ m, p' = p ++ m ∧ s = m ++ s' := by
  rcases List.append_eq_append_iff.mp h with ⟨m, rfl, rfl⟩ | ⟨m, rfl, rfl⟩
  · exact ⟨m, rfl, rfl⟩
  · have hm : m = [] := by
      by_contra hne
      have := @utf8Len_lt_of_ne_nil p' m hne
      omega
    subst hm
    exact ⟨[], by simp, by simp⟩

theorem isSome_slice?_iff :
    (slice? t a b).isSome = true ↔ a ≤ b ∧ IsBoundary t a ∧ IsBoundary t b := by
  rw [Option.isSome_iff_exists]
  constructor
  · rintro ⟨m, h⟩
    obtain ⟨p, s, rfl, rfl, rfl⟩ := slice?_eq_some_iff.mp h
    refine ⟨Nat.le_add_right .., ?_, ?_⟩
    · rw [List.append_assoc]
      exact isBoundary_append
    · rw [← String.utf8Len_append]
      exact isBoundary_append
  · rintro ⟨hle, ⟨p, s, rfl, rfl⟩, ⟨p', s', h, rfl⟩⟩
    obtain ⟨m, rfl, rfl⟩ := exists_between h.symm hle
    refine ⟨m, ?_⟩
    rw [← List.append_assoc, String.utf8Len_append]
    exact slice?_append

/-- What falls between two characters of a text falls between two characters of the piece it lies
in. -/
theorem IsBoundary.within {c : Nat} (hm : slice? t a b = some m) (hc : IsBoundary t c) (hac : a ≤ c)
    (hcb : c ≤ b) : IsBoundary m (c - a) := by
  obtain ⟨p, s, rfl, rfl, rfl⟩ := slice?_eq_some_iff.mp hm
  obtain ⟨q, r, hq, rfl⟩ := hc
  rw [List.append_assoc] at hq
  obtain ⟨x, rfl, hx⟩ := exists_between hq.symm hac
  have hlen : utf8Len (p ++ x) - utf8Len p = utf8Len x := by simp
  rw [String.utf8Len_append] at hcb
  obtain ⟨y, rfl, -⟩ := exists_between hx.symm (by omega)
  rw [hlen]
  exact isBoundary_append

/-- The character that ends at the offset, if one does, is a single byte. -/
def EndsInByte (t : Text) (b : Nat) : Prop :=
  ∀ p c s, p ++ c :: s = t → utf8Len (p ++ [c]) = b → c.utf8Size = 1

/-- One byte before a boundary is a boundary if the character that ends there is that byte. -/
theorem isBoundary_sub_one_iff (h : IsBoundary t b) : IsBoundary t (b - 1) ↔ EndsInByte t b := by
  constructor
  · rintro ⟨q, r, hqr, hq⟩ p c s hp hb
    by_contra hne
    have hc := c.utf8Size_pos
    have hlen : utf8Len (p ++ [c]) = utf8Len p + c.utf8Size := by simp
    obtain ⟨m, rfl, hm⟩ := exists_between (hp.trans hqr.symm) (by omega)
    rw [String.utf8Len_append] at hq
    cases m with
    | nil =>
      have : utf8Len ([] : Text) = 0 := rfl
      omega
    | cons d m =>
      obtain ⟨rfl, -⟩ := List.cons.inj hm
      rw [String.utf8Len_cons] at hq
      omega
  · intro hend
    obtain ⟨q, s, rfl, rfl⟩ := h
    rcases List.eq_nil_or_concat q with rfl | ⟨p, c, rfl⟩
    · exact isBoundary_zero
    · rw [List.concat_eq_append] at hend ⊢
      have hone := hend p c s (by simp) rfl
      have hlen : utf8Len (p ++ [c]) - 1 = utf8Len p := by simp [hone]
      rw [hlen, List.append_assoc]
      exact isBoundary_append

/-! ## Lines -/

/-- `str::split_inclusive('\n')` -/
def splitInclusive : Text → List Text
  | [] => []
  | c :: t =>
    if c = '\n' then [c] :: splitInclusive t
    else
      match splitInclusive t with
      | [] => [[c]]
      | l :: ls => (c :: l) :: ls

/-- A line without its end, which is a line feed or a carriage return and a line feed. -/
def chomp (l : Text) : Text :=
  match l.reverse with
  | '\n' :: '\r' :: r => r.reverse
  | '\n' :: r => r.reverse
  | _ => l

/-- `str::lines` -/
def lines (t : Text) : List Text := (splitInclusive t).map chomp

/-- `lines.join("\n")` -/
def joinLines (ls : List Text) : Text := List.intercalate ['\n'] ls

/-! ## Blanks -/

/-- `char::is_whitespace`: the property White_Space of Unicode. -/
def isWhitespace (c : Char) : Bool :=
  let n := c.toNat
  (9 ≤ n && n ≤ 13) || n == 0x20 || n == 0x85 || n == 0xA0 || n == 0x1680 ||
    (0x2000 ≤ n && n ≤ 0x200A) || n == 0x2028 || n == 0x2029 || n == 0x202F || n == 0x205F ||
    n == 0x3000

def trimStart (t : Text) : Text := t.dropWhile isWhitespace

def trimEnd (t : Text) : Text := t.rdropWhile isWhitespace

def trim (t : Text) : Text := trimEnd (trimStart t)

/-! ## Searches -/

/-- `str::rfind`: the last place where a text stands in another. -/
def rfind? (pat : Text) : Text → Option Nat
  | [] => if pat = [] then some 0 else none
  | c :: t =>
    match rfind? pat t with
    | some i => some (i + c.utf8Size)
    | none => if pat.isPrefixOf (c :: t) then some 0 else none

/-- `str::strip_prefix` -/
def stripPrefix? : Text → Text → Option Text
  | [], t => some t
  | _ :: _, [] => none
  | c :: pre, d :: t => if c = d then stripPrefix? pre t else none

/-! ## Rows: lines with their ends -/

/-- A line with the line feed at its end. -/
def IsRow (l : Text) : Prop := ∃ b, '\n' ∉ b ∧ l = b ++ ['\n']

/-- The row ends with a carriage return and a line feed. -/
def isCrlf (l : Text) : Bool := ['\r', '\n'].isSuffixOf l

variable {ls rows : List Text} {l r b : Text}

theorem splitInclusive_of_not_mem (h : '\n' ∉ r) :
    splitInclusive r = if r = [] then [] else [r] := by
  induction r with
  | nil => rfl
  | cons c r ih =>
    obtain ⟨hc, hr⟩ := List.ne_and_not_mem_of_not_mem_cons h
    rw [splitInclusive, if_neg (Ne.symm hc), ih hr]
    cases r <;> rfl

theorem splitInclusive_row_append (h : IsRow l) :
    splitInclusive (l ++ t) = l :: splitInclusive t := by
  obtain ⟨b, hb, rfl⟩ := h
  induction b with
  | nil => rfl
  | cons c b ih =>
    obtain ⟨hc, hb⟩ := List.ne_and_not_mem_of_not_mem_cons hb
    rw [List.cons_append, List.cons_append, splitInclusive, if_neg (Ne.symm hc), ih hb]

theorem splitInclusive_rows_append (h : ∀ l ∈ rows, IsRow l) :
    splitInclusive (rows.flatten ++ t) = rows ++ splitInclusive t := by
  induction rows with
  | nil => rfl
  | cons l rows ih =>
    obtain ⟨hl, hrows⟩ := List.forall_mem_cons.mp h
    rw [List.flatten_cons, List.append_assoc, splitInclusive_row_append hl, ih hrows,
      List.cons_append]

/-- A text is a number of rows and a rest without a line feed. -/
theorem exists_rows (t : Text) : ∃ (rows : List Text) (r : Text),
    (∀ l ∈ rows, IsRow l) ∧ '\n' ∉ r ∧ t = rows.flatten ++ r := by
  induction t with
  | nil => exact ⟨[], [], by simp, List.not_mem_nil, rfl⟩
  | cons c t ih =>
    obtain ⟨rows, r, hrows, hr, rfl⟩ := ih
    by_cases hc : c = '\n'
    · subst hc
      refine ⟨['\n'] :: rows, r, ?_, hr, rfl⟩
      exact List.forall_mem_cons.mpr ⟨⟨[], List.not_mem_nil, rfl⟩, hrows⟩
    · cases rows with
      | nil => exact ⟨[], c :: r, by simp, by simp [Ne.symm hc, hr], rfl⟩
      | cons l rows =>
        obtain ⟨⟨b, hb, rfl⟩, hrest⟩ := List.forall_mem_cons.mp hrows
        refine ⟨((c :: b) ++ ['\n']) :: rows, r, ?_, hr, rfl⟩
        exact List.forall_mem_cons.mpr ⟨⟨c :: b, by simp [Ne.symm hc, hb], rfl⟩, hrest⟩

theorem splitInclusive_eq (h : ∀ l ∈ rows, IsRow l) (hr : '\n' ∉ r) :
    splitInclusive (rows.flatten ++ r) = rows ++ if r = [] then [] else [r] := by
  rw [splitInclusive_rows_append h, splitInclusive_of_not_mem hr]

theorem splitInclusive_flatten : (splitInclusive t).flatten = t := by
  obtain ⟨rows, r, hrows, hr, rfl⟩ := exists_rows t
  rw [splitInclusive_eq hrows hr, List.flatten_append]
  split
  · next h => simp [h]
  · simp

theorem chomp_of_not_mem (h : '\n' ∉ l) : chomp l = l := by
  have hr : '\n' ∉ l.reverse := mt List.mem_reverse.mp h
  unfold chomp
  split
  · next heq => simp [heq] at hr
  · next heq => simp [heq] at hr
  · rfl

theorem chomp_row : chomp (b ++ ['\n']) =
    match b.reverse with
    | '\r' :: r => r.reverse
    | _ => b := by
  unfold chomp
  rw [List.reverse_append]
  show (match '\n' :: b.reverse with
    | '\n' :: '\r' :: r => r.reverse
    | '\n' :: r => r.reverse
    | _ => b ++ ['\n']) = _
  cases h : b.reverse with
  | nil => simp_all
  | cons c r =>
    by_cases hc : c = '\r'
    · subst hc
      rfl
    · split <;> simp_all

/-- The length of a line, its line feed and, where there is one, its carriage return. -/
theorem utf8Len_chomp_row (h : IsRow l) :
    utf8Len (chomp l) + 1 + (if isCrlf l then 1 else 0) = utf8Len l := by
  obtain ⟨b, hb, rfl⟩ := h
  rw [chomp_row]
  have hnl : utf8Len ['\n'] = 1 := rfl
  rcases List.eq_nil_or_concat b with rfl | ⟨b, c, rfl⟩
  · rfl
  · rw [List.concat_eq_append]
    have hsuff : isCrlf (b ++ [c] ++ ['\n']) = decide (c = '\r') := by
      unfold isCrlf
      rw [Bool.eq_iff_iff, decide_eq_true_iff, List.isSuffixOf_iff_suffix, List.append_assoc]
      constructor
      · rintro ⟨q, hq⟩
        have := (List.append_inj' hq rfl).2
        exact (List.cons.inj this).1.symm
      · rintro rfl
        exact ⟨b, rfl⟩
    rw [hsuff, List.reverse_append]
    by_cases hc : c = '\r'
    · subst hc
      simp [hnl, Nat.add_assoc]
      rfl
    · simp [hc, hnl, Nat.add_assoc, Nat.add_comm c.utf8Size]

/-! ## Blank texts -/

def Blank (t : Text) : Prop := ∀ c ∈ t, isWhitespace c = true

instance : Decidable (Blank t) := List.decidableBAll (fun c => isWhitespace c = true) t

variable {w : Text}

theorem blank_append : Blank (t ++ w) ↔ Blank t ∧ Blank w := List.forall_mem_append

theorem trimEnd_append_blank (hw : Blank w) : trimEnd (t ++ w) = trimEnd t := by
  unfold trimEnd List.rdropWhile
  rw [List.reverse_append, List.dropWhile_append_of_pos fun c hc => hw c (List.mem_reverse.mp hc)]

theorem trim_blank_append (hw : Blank w) : trim (w ++ t) = trim t := by
  unfold trim trimStart
  rw [List.dropWhile_append_of_pos hw]

theorem trimStart_eq_nil_iff : trimStart t = [] ↔ Blank t := List.dropWhile_eq_nil_iff

theorem trim_append_blank (hw : Blank w) : trim (t ++ w) = trim t := by
  unfold trim
  by_cases ht : trimStart t = []
  · have hblank : Blank (t ++ w) := blank_append.mpr ⟨trimStart_eq_nil_iff.mp ht, hw⟩
    rw [ht, trimStart_eq_nil_iff.mpr hblank]
  · have happ : trimStart (t ++ w) = trimStart t ++ w := by
      unfold trimStart at ht ⊢
      rw [List.dropWhile_append, if_neg (by simpa using ht)]
    rw [happ, trimEnd_append_blank hw]

theorem trim_eq_nil_iff : trim t = [] ↔ Blank t := by
  unfold trim trimEnd
  rw [List.rdropWhile_eq_nil_iff]
  constructor
  · intro h
    apply trimStart_eq_nil_iff.mp
    by_contra hne
    have hfalse : isWhitespace ((trimStart t).head hne) = false :=
      List.head_dropWhile_not isWhitespace hne
    rw [h _ (List.head_mem hne)] at hfalse
    cases hfalse
  · intro h
    rw [trimStart_eq_nil_iff.mpr h]
    exact fun c hc => absurd hc List.not_mem_nil

theorem exists_rdropWhile (q : Char → Bool) :
    ∃ w, (∀ c ∈ w, q c = true) ∧ t = t.rdropWhile q ++ w :=
  ⟨t.rtakeWhile q, fun _ => List.mem_rtakeWhile_imp, List.rdropWhile_append_rtakeWhile.symm⟩

theorem exists_trimEnd : ∃ w, Blank w ∧ t = trimEnd t ++ w := exists_rdropWhile isWhitespace

theorem exists_trim : ∃ a b, Blank a ∧ Blank b ∧ t = a ++ trim t ++ b := by
  obtain ⟨b, hb, hend⟩ := @exists_trimEnd (trimStart t)
  refine ⟨t.takeWhile isWhitespace, b, fun _ => List.mem_takeWhile_imp, hb, ?_⟩
  rw [List.append_assoc]
  show _ = _ ++ (trimEnd (trimStart t) ++ b)
  rw [← hend]
  exact List.takeWhile_append_dropWhile.symm

/-- A line is what it is without its end, and that end. -/
theorem exists_lineEnd : ∃ w, Blank w ∧ l = chomp l ++ w := by
  unfold chomp
  split
  · next r h =>
    exact ⟨['\r', '\n'], by decide, by rw [← List.reverse_reverse l, h]; simp⟩
  · next r _ h =>
    exact ⟨['\n'], by decide, by rw [← List.reverse_reverse l, h]; simp⟩
  · exact ⟨[], by decide, (List.append_nil l).symm⟩

theorem trim_chomp : trim (chomp l) = trim l := by
  obtain ⟨w, hw, heq⟩ := @exists_lineEnd l
  exact (trim_append_blank hw).symm.trans (congrArg trim heq.symm)

theorem trimStart_trim : trimStart (trim t) = trim t := by
  obtain ⟨w, -, hend⟩ := @exists_trimEnd (trimStart t)
  cases ht : trim t with
  | nil => rfl
  | cons c s =>
    have hstart : trimStart t = c :: s ++ w := hend.trans (congrArg (· ++ w) ht)
    have hne : trimStart t ≠ [] := by simp [hstart]
    have hc : isWhitespace ((trimStart t).head hne) = false :=
      List.head_dropWhile_not isWhitespace hne
    simp only [hstart, List.cons_append, List.head_cons] at hc
    exact List.dropWhile_cons_of_neg (by simp [hc])

/-! ## Found texts -/

theorem isSome_rfind?_iff {pat : Text} : (rfind? pat t).isSome = true ↔ pat <:+: t := by
  induction t with
  | nil =>
    unfold rfind?
    split
    · next h => simp [h]
    · next h => simp [h]
  | cons c t ih =>
    unfold rfind?
    cases hr : rfind? pat t with
    | some i =>
      have hin := ih.mp (by rw [hr]; rfl)
      exact ⟨fun _ => hin.trans (List.suffix_cons c t).isInfix, fun _ => rfl⟩
    | none =>
      have hnot : ¬pat <:+: t := fun h => by simp [hr] at ih; exact ih h
      rw [List.infix_cons_iff, ← List.isPrefixOf_iff_prefix]
      show ((if pat.isPrefixOf (c :: t) then some 0 else none : Option Nat).isSome = true) ↔ _
      split
      · next h => simp [h]
      · next h => simp [h, hnot]

theorem stripPrefix?_eq_some_iff {pre : Text} : stripPrefix? pre t = some s ↔ t = pre ++ s := by
  induction pre generalizing t with
  | nil => exact ⟨fun h => Option.some.inj h, fun h => congrArg some h⟩
  | cons c pre ih =>
    cases t with
    | nil => exact ⟨fun h => (by cases h), fun h => (by cases h)⟩
    | cons d t =>
      unfold stripPrefix?
      split
      · next h => simp [h, ih]
      · next h => simp [Ne.symm h]

theorem infix_of_mem_splitInclusive (h : l ∈ splitInclusive t) : l <:+: t := by
  rw [← @splitInclusive_flatten t]
  obtain ⟨as, bs, heq⟩ := List.append_of_mem h
  rw [heq]
  exact ⟨as.flatten, bs.flatten, by simp⟩

theorem infix_of_mem_lines (h : l ∈ lines t) : l <:+: t := by
  obtain ⟨row, hrow, rfl⟩ := List.mem_map.mp h
  obtain ⟨w, -, heq⟩ := @exists_lineEnd row
  exact (List.IsPrefix.isInfix ⟨w, heq.symm⟩).trans (infix_of_mem_splitInclusive hrow)

theorem lineFeed_not_mem_chomp (h : l ∈ splitInclusive t) : '\n' ∉ chomp l := by
  obtain ⟨rows, r, hrows, hr, rfl⟩ := exists_rows t
  rw [splitInclusive_eq hrows hr] at h
  rcases List.mem_append.mp h with h | h
  · obtain ⟨b, hb, rfl⟩ := hrows l h
    rw [chomp_row]
    split
    · next heq =>
      intro hmem
      exact hb (List.mem_reverse.mp (heq ▸ List.mem_cons_of_mem _ (List.mem_reverse.mp hmem)))
    · exact hb
  · split at h
    · cases h
    · obtain rfl := List.mem_singleton.mp h
      rwa [chomp_of_not_mem hr]

theorem lineFeed_not_mem_lines (h : l ∈ lines t) : '\n' ∉ l := by
  obtain ⟨row, hrow, rfl⟩ := List.mem_map.mp h
  exact lineFeed_not_mem_chomp hrow

theorem trim_trim : trim (trim t) = trim t := by
  obtain ⟨a, b, ha, hb, hab⟩ := @exists_trim t
  conv_rhs => rw [hab, trim_append_blank hb, trim_blank_append ha]


/-! ## Characters at chosen offsets -/

/-- The characters at the offsets that are chosen. `b` is the offset of the first one. -/
def keepAt (k : Nat → Bool) : Nat → Text → Text
  | _, [] => []
  | b, c :: t => if k b then c :: keepAt k (b + c.utf8Size) t else keepAt k (b + c.utf8Size) t

section
variable {k k₁ k₂ : Nat → Bool} {n a b : Nat}

theorem keepAt_append : keepAt k b (p ++ s) = keepAt k b p ++ keepAt k (b + utf8Len p) s := by
  induction p generalizing b with
  | nil => rfl
  | cons c p ih =>
    have hlen : b + utf8Len (c :: p) = b + c.utf8Size + utf8Len p := by
      rw [String.utf8Len_cons]
      omega
    rw [List.cons_append, keepAt, keepAt, ih, hlen]
    split <;> rfl

theorem keepAt_all (h : ∀ i, b ≤ i → i < b + utf8Len t → k i = true) : keepAt k b t = t := by
  induction t generalizing b with
  | nil => rfl
  | cons c t ih =>
    have hc := c.utf8Size_pos
    have hlen : utf8Len (c :: t) = utf8Len t + c.utf8Size := String.utf8Len_cons ..
    rw [keepAt, if_pos (h b (Nat.le_refl b) (by omega)),
      ih fun i hi hlt => h i (by omega) (by omega)]

theorem keepAt_none (h : ∀ i, b ≤ i → i < b + utf8Len t → k i = false) : keepAt k b t = [] := by
  induction t generalizing b with
  | nil => rfl
  | cons c t ih =>
    have hc := c.utf8Size_pos
    have hlen : utf8Len (c :: t) = utf8Len t + c.utf8Size := String.utf8Len_cons ..
    rw [keepAt, h b (Nat.le_refl b) (by omega), if_neg Bool.false_ne_true,
      ih fun i hi hlt => h i (by omega) (by omega)]

/-- Choices of which one ends before the other begins. -/
theorem keepAt_or (h₁ : ∀ i, k₁ i = true → i < n) (h₂ : ∀ i, k₂ i = true → n ≤ i) :
    keepAt (fun i => k₁ i || k₂ i) b t = keepAt k₁ b t ++ keepAt k₂ b t := by
  induction t generalizing b with
  | nil => rfl
  | cons c t ih =>
    rw [keepAt, keepAt, keepAt, ih]
    by_cases hk₁ : k₁ b = true
    · have hk₂ : ¬k₂ b = true := fun hk₂ => Nat.not_lt_of_le (h₂ b hk₂) (h₁ b hk₁)
      rw [if_pos (by simp [hk₁]), if_pos hk₁, if_neg hk₂]
      rfl
    · rw [if_neg hk₁]
      by_cases hk₂ : k₂ b = true
      · -- From here on the first choice has nothing left.
        have hnone : keepAt k₁ (b + c.utf8Size) t = [] := by
          apply keepAt_none
          intro i hi _
          have hn := h₂ b hk₂
          by_contra hne
          have := h₁ i (by simpa using hne)
          omega
        rw [if_pos (by simp [hk₂]), if_pos hk₂, hnone]
        rfl
      · rw [if_neg (by simp [hk₁, hk₂]), if_neg hk₂]

theorem keepAt_subset (h : ∀ i, k₁ i = true → k₂ i = true) : keepAt k₁ b t ⊆ keepAt k₂ b t := by
  induction t generalizing b with
  | nil => exact List.Subset.refl _
  | cons c t ih =>
    rw [keepAt, keepAt]
    by_cases hk : k₁ b = true
    · rw [if_pos hk, if_pos (h b hk)]
      exact List.cons_subset_cons c ih
    · rw [if_neg hk]
      split
      · exact List.subset_cons_of_subset c ih
      · exact ih

theorem keepAt_subset_self {k : Nat → Bool} {b : Nat} : keepAt k b t ⊆ t := by
  induction t generalizing b with
  | nil => exact List.Subset.refl _
  | cons c t ih =>
    rw [keepAt]
    split
    · exact List.cons_subset_cons c ih
    · exact List.subset_cons_of_subset c ih

/-- A piece of a text is its characters between two offsets. -/
theorem keepAt_of_slice? (h : slice? t a b = some m) :
    keepAt (fun i => decide (a ≤ i ∧ i < b)) 0 t = m := by
  obtain ⟨p, s, rfl, rfl, rfl⟩ := slice?_eq_some_iff.mp h
  rw [keepAt_append, keepAt_append, Nat.zero_add, Nat.zero_add, String.utf8Len_append]
  have hp : keepAt (fun i => decide (utf8Len p ≤ i ∧ i < utf8Len p + utf8Len m)) 0 p = [] :=
    keepAt_none fun i _ hi => decide_eq_false (by omega)
  have hm : keepAt (fun i => decide (utf8Len p ≤ i ∧ i < utf8Len p + utf8Len m))
      (utf8Len p) m = m :=
    keepAt_all fun i hi hlt => decide_eq_true ⟨hi, hlt⟩
  have hs : keepAt (fun i => decide (utf8Len p ≤ i ∧ i < utf8Len p + utf8Len m))
      (utf8Len p + utf8Len m) s = [] := keepAt_none fun i hi _ => decide_eq_false (by omega)
  rw [hp, hm, hs, List.nil_append, List.append_nil]

end

/-- What stands in one line of a text stands on one side of every line feed. -/
theorem infix_of_not_mem {α : Type*} {c : α} {x y z : List α} (hc : c ∉ x)
    (h : x <:+: y ++ c :: z) : x <:+: y ∨ x <:+: z := by
  obtain ⟨p, s, heq⟩ := h
  rcases List.append_eq_append_iff.mp heq with ⟨q, rfl, -⟩ | ⟨q, hx, hq⟩
  · exact .inl ⟨p, q, rfl⟩
  · cases q with
    | nil =>
      rw [List.append_nil] at hx
      exact .inl ⟨p, [], by rw [List.append_nil, hx]⟩
    | cons d q =>
      obtain ⟨rfl, rfl⟩ := List.cons.inj hq
      rcases List.append_eq_append_iff.mp hx with ⟨r, rfl, hr⟩ | ⟨r, rfl, hr⟩
      · exact absurd (by rw [hr]; simp) hc
      · cases r with
        | nil => exact absurd (by rw [← List.nil_append x, ← hr]; exact List.mem_cons_self) hc
        | cons e r =>
          obtain ⟨-, rfl⟩ := List.cons.inj hr
          exact .inr ⟨r, s, rfl⟩

end Text
