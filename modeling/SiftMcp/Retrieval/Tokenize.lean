import SiftMcp.Lib.Utf8Text
import Mathlib.Data.List.Basic

/-!
# The tokenizer of code

`CodeTokenizer::token_stream` splits a text at white space and each word of it as an identifier. A
word gives the terms of its parts, where an identifier gives itself as well.

`spellings_have_words` says which spellings of a name give the terms of its words.
-/

namespace SiftMcp
open Text
open String (utf8Len)

/-- `char::is_ascii_alphanumeric` -/
def isAlphanumeric (c : Char) : Bool := c.isLower || c.isUpper || c.isDigit

/-- `str::to_ascii_lowercase` -/
def lowercase (t : Text) : Text := t.map Char.toLower

def pushUnique (terms : List Text) (term : Text) : List Text :=
  if term ≠ [] ∧ ¬terms.contains term then terms ++ [term] else terms

/-- Whether a part begins at a character, after `previous` and before `next`. -/
def beginsPart (previous current : Char) (next : Option Char) : Bool :=
  let lowerToUpper := previous.isLower && current.isUpper
  let acronymToWord := previous.isUpper && current.isUpper && next.any Char.isLower
  lowerToUpper || acronymToWord

/-- One turn of the loop over the characters of a component, over the terms and where the part
starts. -/
def splitAtIndex (characters : Text) (s : List Text × Nat) (index : Nat) : List Text × Nat :=
  match characters[index - 1]?, characters[index]? with
  | some previous, some current =>
    if beginsPart previous current characters[index + 1]? then
      (pushUnique s.1 (lowercase ((characters.take index).drop s.2)), index)
    else s
  | _, _ => s

/-- What is done behind the loop: the last part is a term. -/
def closeComponent (characters : Text) (s : List Text × Nat) : List Text :=
  if s.2 < characters.length then pushUnique s.1 (lowercase (characters.drop s.2)) else s.1

def splitComponent (terms : List Text) (characters : Text) : List Text :=
  closeComponent characters <|
    (List.range' 1 (characters.length - 1)).foldl (splitAtIndex characters) (terms, 0)

def isNamespaceSeparator (c : Char) : Bool := !isAlphanumeric c && c != '_' && c != '-'

def isSeparator (c : Char) : Bool := c == '_' || c == '-' || !isAlphanumeric c

/-- The whole identifier followed by its searchable components. -/
def splitIdentifier (token : Text) : List Text :=
  let terms := if token ≠ [] ∧ ¬token.any isNamespaceSeparator then pushUnique [] (lowercase token)
      else []
  (token.splitOnP isSeparator).foldl splitComponent terms

structure Token where
  offsetFrom : Nat
  offsetTo : Nat
  position : Nat
  text : Text
  positionLength : Nat
deriving DecidableEq

/-- `str::find`: the first place where a text stands in another. -/
def find? (pat : Text) : Text → Option Nat
  | [] => if pat = [] then some 0 else none
  | c :: t => if pat.isPrefixOf (c :: t) then some 0 else (find? pat t).map (· + c.utf8Size)

def splitWhitespace (t : Text) : List Text := (t.splitOnP isWhitespace).filter (· ≠ [])

/-- What the loop over the words has come to. -/
structure Scan where
  tokens : List Token
  position : Nat
  searchFrom : Nat

/-- One turn of that loop. There is none if the rest of the text cannot be cut off. -/
def tokenizeWord (text : Text) (s : Scan) (word : Text) : Option Scan := do
  let (_, rest) ← splitAt? text s.searchFrom
  let offsetFrom := ((find? word rest).map (s.searchFrom + ·)).getD s.searchFrom
  let offsetTo := offsetFrom + utf8Len word
  let terms := splitIdentifier word
  if terms.isEmpty then return { s with searchFrom := offsetTo }
  else return {
    tokens := s.tokens ++ terms.map fun term => ⟨offsetFrom, offsetTo, s.position, term, 1⟩
    position := s.position + 1
    searchFrom := offsetTo }

def tokenStream (text : Text) : Option (List Token) := do
  let s ← (splitWhitespace text).foldlM (tokenizeWord text) ⟨[], 0, 0⟩
  return s.tokens

/-! ## Terms -/

section

variable {terms : List Text} {characters cur rest done token : Text} {x : Text}

theorem mem_pushUnique {term : Text} : x ∈ pushUnique terms term ↔ x ∈ terms ∨ x = term ∧
    x ≠ [] := by
  unfold pushUnique
  split
  · next h =>
    rw [List.mem_append, List.mem_singleton]
    exact or_congr_right ⟨fun hx => ⟨hx, hx ▸ h.1⟩, And.left⟩
  · next h =>
    refine ⟨.inl, fun hx => hx.elim id fun hx => ?_⟩
    obtain ⟨rfl, hne⟩ := hx
    exact by_contra fun hmem => h ⟨hne, fun hterm => hmem (List.contains_iff_mem.mp hterm)⟩

theorem mem_foldl_pushUnique {parts : List Text} :
    x ∈ parts.foldl (fun terms part => pushUnique terms (lowercase part)) terms ↔
      x ∈ terms ∨ x ∈ parts.map lowercase ∧ x ≠ [] := by
  induction parts generalizing terms with
  | nil => simp
  | cons part parts ih =>
    rw [List.foldl_cons, ih, mem_pushUnique, List.map_cons, List.mem_cons, or_and_right, or_assoc]

/-- The parts of a component, when `cur` is what has been read of one. -/
def parts (cur : Text) : Text → List Text
  | [] => [cur]
  | c :: rest =>
    if cur.getLast?.any (beginsPart · c rest.head?) then cur :: parts [c] rest
    else parts (cur ++ [c]) rest

/-- One turn of the loop, behind `cur`. -/
theorem splitAtIndex_append {last c : Char} (hlast : cur.getLast? = some last)
    (h : characters = done ++ cur ++ c :: rest) :
    splitAtIndex characters (terms, done.length) (done ++ cur).length =
      if beginsPart last c rest.head? then (pushUnique terms (lowercase cur), (done ++ cur).length)
      else (terms, done.length) := by
  have hne : cur ≠ [] := fun hnil => by rw [hnil] at hlast; cases hlast
  have hprevious : characters[(done ++ cur).length - 1]? = some last := by
    have hpos : 0 < (done ++ cur).length :=
      List.length_pos_of_ne_nil (List.append_ne_nil_of_right_ne_nil _ hne)
    rw [h, List.getElem?_append_left (Nat.sub_one_lt_of_lt hpos), ← List.getLast?_eq_getElem?,
      List.getLast?_append_of_ne_nil _ hne, hlast]
  have hcurrent : characters[(done ++ cur).length]? = some c := by
    rw [h, List.getElem?_append_right (Nat.le_refl _), Nat.sub_self]
    rfl
  have hnext : characters[(done ++ cur).length + 1]? = rest.head? := by
    rw [h, List.getElem?_append_right (Nat.le_add_right _ 1), Nat.add_sub_cancel_left,
      List.head?_eq_getElem?]
    rfl
  have hpart : (characters.take (done ++ cur).length).drop done.length = cur := by
    rw [h, List.take_left, List.drop_left]
  rw [splitAtIndex, hprevious, hcurrent, hnext]
  show (if _ then (pushUnique terms (lowercase ((characters.take _).drop done.length)), _) else _) =
      _
  rw [hpart]

/-- The loop gives the parts one after the other. -/
theorem closeComponent_foldl (hcur : cur ≠ []) (h : characters = done ++ cur ++ rest) :
    closeComponent characters
      ((List.range' (done ++ cur).length rest.length).foldl (splitAtIndex characters)
      (terms, done.length)) =
    (parts cur rest).foldl (fun terms part => pushUnique terms (lowercase part)) terms := by
  induction rest generalizing terms done cur with
  | nil =>
    rw [List.append_nil] at h
    have hlt : done.length < characters.length := by
      rw [h, List.length_append]
      exact Nat.lt_add_of_pos_right (List.length_pos_of_ne_nil hcur)
    show closeComponent characters (terms, done.length) = pushUnique terms (lowercase cur)
    rw [closeComponent, if_pos hlt, h, List.drop_left]
  | cons c rest ih =>
    obtain ⟨last, hlast⟩ := Option.isSome_iff_exists.mp (List.getLast?_isSome.mpr hcur)
    rw [List.length_cons, List.range'_succ, List.foldl_cons, splitAtIndex_append hlast h,
      parts, hlast, Option.any_some]
    split
    · have hrest : characters = done ++ cur ++ [c] ++ rest := by
        rw [h, List.append_assoc _ [c]]; rfl
      have hlen : (done ++ cur ++ [c]).length = (done ++ cur).length + 1 := List.length_append
      rw [List.foldl_cons, ← ih (List.cons_ne_nil _ _) hrest, hlen]
    · have hrest : characters = done ++ (cur ++ [c]) ++ rest := by
        rw [h, List.append_assoc, List.append_assoc, List.append_assoc]
        rfl
      have hlen : (done ++ (cur ++ [c])).length = (done ++ cur).length + 1 := by
        rw [← List.append_assoc, List.length_append]
        rfl
      rw [← ih (List.append_ne_nil_of_right_ne_nil _ (List.cons_ne_nil _ _)) hrest, hlen]

/-- The terms of a component are its parts. -/
theorem splitComponent_eq {c : Char} : splitComponent terms (c :: rest) =
    (parts [c] rest).foldl (fun terms part => pushUnique terms (lowercase part)) terms :=
  @closeComponent_foldl terms (c :: rest) [c] rest [] (List.cons_ne_nil _ _) rfl

/-- The parts of a component that may be empty. -/
def componentParts : Text → List Text
  | [] => []
  | c :: rest => parts [c] rest

theorem mem_foldl_splitComponent {components : List Text} :
    x ∈ components.foldl splitComponent terms ↔
      x ∈ terms ∨ ∃ component ∈ components, x ∈ (componentParts component).map lowercase ∧
        x ≠ [] := by
  induction components generalizing terms with
  | nil => simp
  | cons component components ih =>
    rw [List.foldl_cons, ih, List.exists_mem_cons_iff, ← or_assoc]
    refine or_congr_left ?_
    cases component with
    | nil => simp [splitComponent, closeComponent, componentParts]
    | cons c rest => rw [splitComponent_eq, mem_foldl_pushUnique, componentParts]

/-- The terms of an identifier: itself, unless it has other separators, and its parts. -/
theorem mem_splitIdentifier : x ∈ splitIdentifier token ↔
    (x = lowercase token ∧ x ≠ [] ∧ token.any isNamespaceSeparator = false) ∨
      ∃ component ∈ token.splitOnP isSeparator, x ∈ (componentParts component).map lowercase ∧
        x ≠ [] := by
  rw [splitIdentifier, mem_foldl_splitComponent]
  refine or_congr_left ?_
  split
  · next h =>
    rw [mem_pushUnique, or_iff_right List.not_mem_nil, Bool.not_eq_true] at *
    simp [h.2]
  · next h =>
    refine iff_of_false List.not_mem_nil fun hx => h ⟨?_, Bool.not_eq_true _ ▸ hx.2.2⟩
    rintro rfl
    exact hx.2.1 hx.1

end

/-! ## The stream -/

section

variable {text p gap word rest s : Text} {scan scan' : Scan}

theorem find?_word (hgap : Blank gap) (hne : word ≠ [])
    (hword : ∀ c ∈ word, isWhitespace c = false) :
    find? word (gap ++ (word ++ rest)) = some (utf8Len gap) := by
  obtain ⟨c, w, rfl⟩ := List.exists_cons_of_ne_nil hne
  induction gap with
  | nil => exact if_pos (List.isPrefixOf_iff_prefix.mpr (List.prefix_append (c :: w) rest))
  | cons g gap ih =>
    have hg : g ≠ c := by
      rintro rfl
      exact Bool.noConfusion ((hgap g List.mem_cons_self).symm.trans (hword g List.mem_cons_self))
    have hnot : ¬(c :: w).isPrefixOf (g :: (gap ++ (c :: w ++ rest))) := fun h =>
      hg (List.cons_prefix_cons.mp (List.isPrefixOf_iff_prefix.mp h)).1.symm
    rw [List.cons_append, find?, if_neg hnot, ih fun d hd => hgap d (List.mem_cons_of_mem _ hd),
      Option.map_some, String.utf8Len_cons]

/-- What a token says of the text is so. -/
def Token.Spans (text : Text) (tk : Token) : Prop :=
  ∃ word, slice? text tk.offsetFrom tk.offsetTo = some word ∧ tk.text ∈ splitIdentifier word

/-- A scan that has come behind `p`, whose terms are `terms`. -/
structure Scan.At (text p : Text) (terms : List Text) (scan : Scan) : Prop where
  searchFrom : scan.searchFrom = utf8Len p
  terms : scan.tokens.map (·.text) = terms
  spans : ∀ tk ∈ scan.tokens, tk.Spans text

variable {terms : List Text}

theorem Scan.At.tokenizeWord (h : scan.At text p terms)
    (htext : text = p ++ (gap ++ (word ++ rest))) (hgap : Blank gap) (hne : word ≠ [])
    (hword : ∀ c ∈ word, isWhitespace c = false) :
    ∃ scan', tokenizeWord text scan word = some scan' ∧
      scan'.At text (p ++ (gap ++ word)) (terms ++ splitIdentifier word) := by
  have hcut : splitAt? text scan.searchFrom = some (p, gap ++ (word ++ rest)) := by
    rw [htext, h.searchFrom, splitAt?_append]
  have hslice : slice? text (scan.searchFrom + utf8Len gap)
      (scan.searchFrom + utf8Len gap + utf8Len word) =
      some word := by
    have hsplit : text = p ++ gap ++ word ++ rest := by
      rw [htext, List.append_assoc, List.append_assoc]
    rw [hsplit, h.searchFrom, ← String.utf8Len_append, slice?_append]
  have hend : scan.searchFrom + utf8Len gap + utf8Len word = utf8Len (p ++ (gap ++ word)) := by
    rw [h.searchFrom, String.utf8Len_append, String.utf8Len_append, Nat.add_assoc]
  unfold SiftMcp.tokenizeWord
  rw [hcut, Option.bind_eq_bind, Option.bind_some]
  simp only [find?_word hgap hne hword, Option.map_some, Option.getD_some]
  split
  · next hempty =>
    refine ⟨_, rfl, hend, ?_, h.spans⟩
    rw [List.isEmpty_iff.mp hempty, List.append_nil]
    exact h.terms
  · refine ⟨_, rfl, hend, ?_, ?_⟩
    · show (scan.tokens ++ _).map (·.text) = _
      rw [List.map_append, h.terms, List.map_map]
      exact congrArg _ (List.map_id _)
    · refine List.forall_mem_append.mpr ⟨h.spans, ?_⟩
      intro tk htk
      obtain ⟨term, hterm, rfl⟩ := List.mem_map.mp htk
      exact ⟨word, hslice, hterm⟩

theorem exists_word (s : Text) : ∃ word rest : Text, s = word ++ rest ∧
    (∀ c ∈ word, isWhitespace c = false) ∧
    (rest = [] ∨ ∃ c as, rest = c :: as ∧ isWhitespace c = true) := by
  refine ⟨s.takeWhile fun c => !isWhitespace c, s.dropWhile fun c => !isWhitespace c,
    List.takeWhile_append_dropWhile.symm, fun c hc => ?_, ?_⟩
  · have hkept := List.mem_takeWhile_imp hc
    exact (Bool.not_eq_true' _).mp hkept
  · cases hrest : s.dropWhile fun c => !isWhitespace c with
    | nil => exact .inl rfl
    | cons c as =>
      refine .inr ⟨c, as, rfl, ?_⟩
      have hhead := List.head?_dropWhile_not (fun c => !isWhitespace c) s
      rw [hrest] at hhead
      simpa using hhead

theorem splitWhitespace_word (hword : ∀ c ∈ word, isWhitespace c = false) :
    splitWhitespace word = if word = [] then [] else [word] := by
  rw [splitWhitespace, List.splitOnP_eq_singleton hword]
  split
  · next h => rw [h]; rfl
  · next h => rw [List.filter_singleton, decide_eq_true h]; rfl

theorem splitWhitespace_cons {c : Char} (hword : ∀ c ∈ word, isWhitespace c = false)
    (hc : isWhitespace c = true) : splitWhitespace (word ++ c :: s) =
      if word = [] then splitWhitespace s else word :: splitWhitespace s := by
  rw [splitWhitespace, List.splitOnP_append_cons_of_forall_mem hword c hc, List.filter_cons]
  split
  · next h => rw [if_neg (of_decide_eq_true h)]; rfl
  · next h => rw [if_pos (by simpa using h)]; rfl

/-- The loop comes to the end of the text. -/
theorem Scan.At.foldlM (h : scan.At text p terms) (htext : text = p ++ (gap ++ s))
    (hgap : Blank gap) :
    ∃ scan' p', (splitWhitespace s).foldlM (SiftMcp.tokenizeWord text) scan = some scan' ∧
      scan'.At text p' (terms ++ (splitWhitespace s).flatMap splitIdentifier) := by
  induction hn : s.length using Nat.strong_induction_on generalizing s gap p scan terms with
  | h n ih =>
    obtain ⟨word, rest, rfl, hword, hrest⟩ := exists_word s
    rcases hrest with rfl | ⟨c, as, rfl, hc⟩
    · rw [List.append_nil, splitWhitespace_word hword]
      split
      · exact ⟨scan, p, rfl, by rw [List.flatMap_nil, List.append_nil]; exact h⟩
      · next hne =>
        obtain ⟨scan', hstep, hat⟩ := h.tokenizeWord htext hgap hne hword
        refine ⟨scan', _, ?_, by rw [List.flatMap_singleton]; exact hat⟩
        rw [List.foldlM_cons, hstep]
        rfl
    · have hlen : as.length < n := by
        rw [← hn, List.length_append, List.length_cons]
        omega
      rw [splitWhitespace_cons hword hc]
      split
      · next hnil =>
        have hwide : Blank (gap ++ [c]) :=
          blank_append.mpr ⟨hgap, fun d hd => List.mem_singleton.mp hd ▸ hc⟩
        refine ih _ hlen h ?_ hwide rfl
        rw [htext, hnil, List.append_assoc]
        rfl
      · next hne =>
        obtain ⟨scan', hstep, hat⟩ := h.tokenizeWord htext hgap hne hword
        have hblank : Blank [c] := fun d hd => List.mem_singleton.mp hd ▸ hc
        have hnext : text = p ++ (gap ++ word) ++ ([c] ++ as) := by
          rw [htext, List.append_assoc, List.append_assoc]
          rfl
        obtain ⟨scan'', p'', hrun, hat'⟩ := ih _ hlen hat hnext hblank rfl
        refine ⟨scan'', p'', ?_, ?_⟩
        · rw [List.foldlM_cons, hstep]
          exact hrun
        · rwa [List.flatMap_cons, ← List.append_assoc]

/-- There is a stream for every text, of the terms of its words, each with the place of its word. -/
theorem tokenStream_spans (text : Text) : ∃ tokens, tokenStream text = some tokens ∧
    tokens.map (·.text) = (splitWhitespace text).flatMap splitIdentifier ∧
    ∀ tk ∈ tokens, tk.Spans text := by
  have hstart : Scan.At text [] [] ⟨[], 0, 0⟩ := ⟨rfl, rfl, fun _ h => absurd h List.not_mem_nil⟩
  obtain ⟨scan, p, hrun, hat⟩ := @Scan.At.foldlM text [] [] text ⟨[], 0, 0⟩ [] hstart rfl
    (fun _ h => absurd h List.not_mem_nil)
  refine ⟨scan.tokens, ?_, hat.terms, hat.spans⟩
  rw [tokenStream, hrun]
  rfl

/-- The text has a token of this term. -/
def Emits (text term : Text) : Prop :=
  ∃ tokens, tokenStream text = some tokens ∧ ∃ tk ∈ tokens, tk.text = term

theorem emits_iff {term : Text} :
    Emits text term ↔ ∃ word ∈ splitWhitespace text, term ∈ splitIdentifier word := by
  obtain ⟨tokens, htokens, hterms, -⟩ := tokenStream_spans text
  rw [← List.mem_flatMap, ← hterms, List.mem_map]
  constructor
  · intro h
    obtain ⟨tokens', htokens', hmem⟩ := h
    rwa [Option.some.inj (htokens.symm.trans htokens')]
  · exact fun h => ⟨tokens, htokens, h⟩

end

/-! ## Spellings -/

/-- A lower-case letter and then one or more lower-case letters or digits. -/
def IsWord (w : Text) : Prop :=
  ∃ c rest, w = c :: rest ∧ c.isLower = true ∧ rest ≠ [] ∧ ∀ d ∈ rest, d.isLower = true ∨
  d.isDigit = true

def capitalize : Text → Text
  | [] => []
  | c :: rest => c.toUpper :: rest

def camelCase : List Text → Text
  | [] => []
  | w :: ws => w ++ (ws.map capitalize).flatten

def snakeCase (words : List Text) : Text := ['_'].intercalate words

def spaceSeparated (words : List Text) : Text := [' '].intercalate words

/-- A word that ends in a digit is joined to the next. -/
def joinDigits (cur : Text) : List Text → List Text
  | [] => [cur]
  | w :: ws =>
    if cur.getLast?.any Char.isDigit then joinDigits (cur ++ w) ws else cur :: joinDigits w ws

/-- The words, but for those that are joined after digits. -/
def joined : List Text → List Text
  | [] => []
  | w :: ws => joinDigits w ws

section

variable {words ws : List Text} {cur rest w x : Text} {c : Char}

/-- What holds of the characters up to `z` holds of letters and digits. -/
theorem forall_alphanumeric {P : Char → Prop} (h : ∀ n ∈ List.range 123, P (Char.ofNat n))
    (hc : isAlphanumeric c = true) : P c := by
  have hlt : c.toNat < 123 := by
    rw [isAlphanumeric, Bool.or_eq_true, Bool.or_eq_true] at hc
    have hz : c.val ≤ 'z'.val := by
      rcases hc with (hc | hc) | hc
      · exact of_decide_eq_true (Bool.and_eq_true_iff.mp hc).2
      · exact UInt32.le_trans (of_decide_eq_true hc).2 (by decide)
      · exact UInt32.le_trans (of_decide_eq_true (Bool.and_eq_true_iff.mp hc).2) (by decide)
    exact Nat.lt_succ_of_le (UInt32.le_iff_toNat_le.mp hz)
  exact Char.ofNat_toNat c ▸ h c.toNat (List.mem_range.mpr hlt)

/-- Letters and digits separate nothing. -/
theorem not_separator (h : isAlphanumeric c = true) :
    isWhitespace c = false ∧ isSeparator c = false ∧ isNamespaceSeparator c = false :=
  forall_alphanumeric (P := fun c => isAlphanumeric c = true → isWhitespace c = false ∧
    isSeparator c = false ∧ isNamespaceSeparator c = false) (by decide +kernel) h h

/-- Lower-case letters and digits, which identifiers have in their words. -/
def IsPlain (c : Char) : Prop := c.isLower = true ∨ c.isDigit = true

theorem IsPlain.isAlphanumeric (h : IsPlain c) : isAlphanumeric c = true := by
  rcases h with h | h <;> simp [SiftMcp.isAlphanumeric, h]

theorem IsPlain.lower (h : IsPlain c) :
    c.toLower = c ∧ c.isUpper = false ∧ c.isDigit = !c.isLower :=
  forall_alphanumeric (P := fun c => c.isLower = true ∨ c.isDigit = true → c.toLower = c ∧
    c.isUpper = false ∧ c.isDigit = !c.isLower) (by decide +kernel) h.isAlphanumeric h

theorem toUpper_of_isLower (h : c.isLower = true) :
    c.toUpper.isUpper = true ∧ c.toUpper.toLower = c ∧ SiftMcp.isAlphanumeric c.toUpper = true :=
  forall_alphanumeric (P := fun c => c.isLower = true → c.toUpper.isUpper = true ∧
    c.toUpper.toLower = c ∧ SiftMcp.isAlphanumeric c.toUpper = true) (by decide +kernel)
      (IsPlain.isAlphanumeric (.inl h)) h

def Plain (t : Text) : Prop := ∀ c ∈ t, IsPlain c

theorem plain_of_all (h : (w.all fun c => c.isLower || c.isDigit) = true) : Plain w :=
  fun c hc => Bool.or_eq_true_iff.mp (List.all_eq_true.mp h c hc)

theorem IsWord.plain (h : IsWord w) : Plain w := by
  obtain ⟨c, rest, rfl, hc, -, hrest⟩ := h
  exact List.forall_mem_cons.mpr ⟨.inl hc, hrest⟩

theorem IsWord.ne_nil (h : IsWord w) : w ≠ [] := by
  obtain ⟨c, rest, rfl, -⟩ := h
  exact List.cons_ne_nil _ _

theorem lowercase_plain (h : Plain w) : lowercase w = w := by
  have hmap : w.map Char.toLower = w.map id := List.map_congr_left fun c hc => (h c hc).lower.1
  rw [lowercase, hmap, List.map_id]

theorem IsWord.lowercase_capitalize (h : IsWord w) : lowercase (capitalize w) = w := by
  obtain ⟨c, rest, rfl, hc, -, hrest⟩ := h
  have hlower : lowercase rest = rest := lowercase_plain hrest
  show c.toUpper.toLower :: lowercase rest = c :: rest
  rw [(toUpper_of_isLower hc).2.1, hlower]

/-- No part begins at a lower-case letter or a digit. -/
theorem parts_plain {tail : Text} (h : Plain w) (hcur : cur ≠ []) :
    parts cur (w ++ tail) = parts (cur ++ w) tail := by
  induction w generalizing cur with
  | nil => rw [List.append_nil, List.nil_append]
  | cons c w ih =>
    obtain ⟨hc, hw⟩ := List.forall_mem_cons.mp h
    obtain ⟨last, hlast⟩ := Option.isSome_iff_exists.mp (List.getLast?_isSome.mpr hcur)
    have hnot : beginsPart last c (w ++ tail).head? = false := by
      simp [beginsPart, hc.lower.2.1]
    rw [List.cons_append, parts, hlast, Option.any_some, if_neg (Bool.not_eq_true _ ▸ hnot),
      ih hw (List.append_ne_nil_of_right_ne_nil _ (List.cons_ne_nil _ _)), List.append_assoc]
    rfl

/-- The parts of words that follow each other with capitals are the words joined after digits. -/
theorem lowercase_parts {last : Char} (hlast : cur.getLast? = some last) (hplain : IsPlain last)
    (hws : ∀ w ∈ ws, IsWord w) :
    (parts cur (ws.map capitalize).flatten).map lowercase = joinDigits (lowercase cur) ws := by
  induction ws generalizing cur last with
  | nil => rfl
  | cons w ws ih =>
    obtain ⟨hw, hrestws⟩ := List.forall_mem_cons.mp hws
    have hword := hw.lowercase_capitalize
    obtain ⟨c, rest, rfl, hc, hne, hrest⟩ := hw
    obtain ⟨z, hend⟩ := Option.isSome_iff_exists.mp (List.getLast?_isSome.mpr hne)
    have hzplain : IsPlain z := hrest _ (List.mem_of_getLast? hend)
    have hbegins : beginsPart last c.toUpper (rest ++ (ws.map capitalize).flatten).head? =
        last.isLower := by
      simp [beginsPart, hplain.lower.2.1, (toUpper_of_isLower hc).1]
    have hlowerlast : (lowercase cur).getLast?.any Char.isDigit = !last.isLower := by
      rw [lowercase, List.getLast?_map, hlast, Option.map_some, Option.any_some, hplain.lower.1,
        hplain.lower.2.2]
    have hlist : (((c :: rest) :: ws).map capitalize).flatten =
      c.toUpper :: (rest ++ (ws.map capitalize).flatten) := rfl
    rw [hlist, parts, hlast, Option.any_some, hbegins, joinDigits, hlowerlast]
    cases last.isLower with
    | true =>
      have hlastrest : (c.toUpper :: rest).getLast? = some z := by
        rw [List.getLast?_cons_of_ne_nil hne, hend]
      rw [if_pos rfl, if_neg Bool.noConfusion, List.map_cons,
        parts_plain hrest (List.cons_ne_nil _ _)]
      have hrec := ih hlastrest hzplain hrestws
      rw [show lowercase (c.toUpper :: rest) = c :: rest from hword] at hrec
      exact congrArg _ hrec
    | false =>
      have hlastrest : (cur ++ [c.toUpper] ++ rest).getLast? = some z := by
        rw [List.getLast?_append_of_ne_nil _ hne, hend]
      have hlower : lowercase (cur ++ [c.toUpper] ++ rest) = lowercase cur ++ c :: rest := by
        rw [List.append_assoc, lowercase, List.map_append]
        exact congrArg _ hword
      rw [if_neg Bool.noConfusion, Bool.not_false, if_pos rfl,
        parts_plain hrest (List.append_ne_nil_of_right_ne_nil _ (List.cons_ne_nil _ _)),
        ih hlastrest hzplain hrestws, hlower]

theorem ne_nil_of_mem_joinDigits (hcur : cur ≠ []) (hws : ∀ w ∈ ws, IsWord w)
    (h : x ∈ joinDigits cur ws) : x ≠ [] := by
  induction ws generalizing cur with
  | nil =>
    rw [List.mem_singleton.mp h]
    exact hcur
  | cons w ws ih =>
    obtain ⟨hw, hws⟩ := List.forall_mem_cons.mp hws
    unfold joinDigits at h
    split at h
    · exact ih (List.append_ne_nil_of_left_ne_nil hcur _) hws h
    · rcases List.mem_cons.mp h with rfl | h
      · exact hcur
      · exact ih hw.ne_nil hws h

/-- A text of letters and digits is one word, of one component. -/
theorem emits_alphanumeric (hne : w ≠ []) (h : ∀ c ∈ w, isAlphanumeric c = true) :
    Emits w x ↔ x = lowercase w ∨ x ∈ (componentParts w).map lowercase ∧ x ≠ [] := by
  have hspaces : ∀ c ∈ w, isWhitespace c = false := fun c hc => (not_separator (h c hc)).1
  have hseparators : ∀ c ∈ w, isSeparator c = false := fun c hc => (not_separator (h c hc)).2.1
  have hnamespace : w.any isNamespaceSeparator = false :=
    List.any_eq_false.mpr fun c hc => Bool.not_eq_true _ ▸ (not_separator (h c hc)).2.2
  have hlower : x = lowercase w → x ≠ [] := by
    rintro rfl
    exact mt List.map_eq_nil_iff.mp hne
  rw [emits_iff, splitWhitespace_word hspaces, if_neg hne]
  simp only [List.mem_singleton, exists_eq_left, mem_splitIdentifier, hnamespace, and_true,
    List.splitOnP_eq_singleton hseparators]
  exact or_congr_left ⟨And.left, fun hx => ⟨hx, hlower hx⟩⟩

theorem IsWord.componentParts (h : IsWord w) : (componentParts w).map lowercase = [w] := by
  have hplain := lowercase_plain h.plain
  obtain ⟨c, rest, rfl, -, -, hrest⟩ := h
  have hparts := @parts_plain [c] rest [] hrest (List.cons_ne_nil _ _)
  rw [List.append_nil] at hparts
  rw [SiftMcp.componentParts, hparts]
  exact congrArg (fun t => [t]) hplain

theorem lowercase_camelCase (h : ∀ w ∈ words, IsWord w) :
    lowercase (camelCase words) = words.flatten := by
  cases words with
  | nil => rfl
  | cons w ws =>
    obtain ⟨hw, hws⟩ := List.forall_mem_cons.mp h
    have hrest : (ws.map capitalize).map lowercase = ws := by
      rw [List.map_map]
      exact (List.map_congr_left fun v hv => (hws v hv).lowercase_capitalize).trans (List.map_id ws)
    rw [camelCase, lowercase, List.map_append, List.map_flatten, List.flatten_cons]
    exact congrArg₂ _ (lowercase_plain hw.plain) (congrArg List.flatten hrest)

theorem alphanumeric_camelCase (h : ∀ w ∈ words, IsWord w) :
    ∀ c ∈ camelCase words, isAlphanumeric c = true := by
  cases words with
  | nil => exact fun c hc => absurd hc List.not_mem_nil
  | cons w ws =>
    obtain ⟨hw, hws⟩ := List.forall_mem_cons.mp h
    intro c hc
    rcases List.mem_append.mp hc with hc | hc
    · exact (hw.plain c hc).isAlphanumeric
    · obtain ⟨v, hv, hcv⟩ := List.mem_flatten.mp hc
      obtain ⟨v', hv', rfl⟩ := List.mem_map.mp hv
      obtain ⟨d, rest, rfl, hd, -, hrest⟩ := hws v' hv'
      rcases List.mem_cons.mp hcv with rfl | hcv
      · exact (toUpper_of_isLower hd).2.2
      · exact IsPlain.isAlphanumeric (hrest c hcv)

/-- In camel case, a word that ends in a digit is not told from the next. -/
theorem emits_camelCase (hne : words ≠ []) (h : ∀ w ∈ words, IsWord w) :
    Emits (camelCase words) x ↔ x ∈ joined words ∨ x = words.flatten := by
  obtain ⟨w, ws, rfl⟩ := List.exists_cons_of_ne_nil hne
  obtain ⟨hw, hws⟩ := List.forall_mem_cons.mp h
  have hcamel : camelCase (w :: ws) ≠ [] := List.append_ne_nil_of_left_ne_nil hw.ne_nil _
  have hparts : (componentParts (camelCase (w :: ws))).map lowercase = joinDigits w ws := by
    have hplain := lowercase_plain hw.plain
    have hplainw := hw.plain
    obtain ⟨z, hz⟩ := Option.isSome_iff_exists.mp (List.getLast?_isSome.mpr hw.ne_nil)
    have hzplain := hw.plain z (List.mem_of_getLast? hz)
    obtain ⟨c, rest, rfl, -, -, hrest⟩ := hw
    have hstart := @parts_plain [c] rest (ws.map capitalize).flatten hrest (List.cons_ne_nil _ _)
    show (parts [c] (rest ++ (ws.map capitalize).flatten)).map lowercase = _
    rw [hstart]
    exact (lowercase_parts hz hzplain hws).trans (congrArg (joinDigits · ws) hplain)
  rw [emits_alphanumeric hcamel (alphanumeric_camelCase h), lowercase_camelCase h, hparts, or_comm]
  exact or_congr_left (and_iff_left_of_imp (ne_nil_of_mem_joinDigits hw.ne_nil hws))

theorem splitOnP_intercalate {p : Char → Bool} {sep : Char} (hsep : p sep = true)
    (h : ∀ w ∈ words, ∀ c ∈ w, p c = false) (hne : words ≠ []) :
    ([sep].intercalate words).splitOnP p = words := by
  induction words with
  | nil => exact absurd rfl hne
  | cons w ws ih =>
    obtain ⟨hw, hws⟩ := List.forall_mem_cons.mp h
    by_cases hnil : ws = []
    · rw [hnil, List.intercalate_singleton, List.splitOnP_eq_singleton hw]
    · rw [List.intercalate_cons_of_ne_nil hnil, List.append_assoc, List.singleton_append,
        List.splitOnP_append_cons_of_forall_mem hw sep hsep, ih hws hnil]

theorem mem_intercalate {sep : Char} (h : c ∈ [sep].intercalate words) :
    c = sep ∨ ∃ w ∈ words, c ∈ w := by
  induction words with
  | nil => exact absurd h List.not_mem_nil
  | cons w ws ih =>
    by_cases hnil : ws = []
    · rw [hnil, List.intercalate_singleton] at h
      exact .inr ⟨w, List.mem_cons_self, h⟩
    · rw [List.intercalate_cons_of_ne_nil hnil, List.append_assoc, List.mem_append,
        List.singleton_append, List.mem_cons] at h
      rcases h with h | h | h
      · exact .inr ⟨w, List.mem_cons_self, h⟩
      · exact .inl h
      · exact (ih h).imp_right fun hw => hw.imp fun v hv => ⟨List.mem_cons_of_mem _ hv.1, hv.2⟩

theorem mem_words_iff (h : ∀ w ∈ words, IsWord w) :
    (∃ component ∈ words, x ∈ (componentParts component).map lowercase ∧ x ≠ []) ↔ x ∈ words := by
  constructor
  · intro hx
    obtain ⟨w, hw, hmem, -⟩ := hx
    rw [(h w hw).componentParts] at hmem
    rwa [List.mem_singleton.mp hmem]
  · intro hx
    refine ⟨x, hx, ?_, (h x hx).ne_nil⟩
    rw [(h x hx).componentParts]
    exact List.mem_singleton_self x

/-- In snake case, all words are told apart. -/
theorem emits_snakeCase (hne : words ≠ []) (h : ∀ w ∈ words, IsWord w) :
    Emits (snakeCase words) x ↔ x ∈ words ∨ x = snakeCase words := by
  have hchar : ∀ c ∈ snakeCase words, c = '_' ∨ IsPlain c := fun c hc =>
    (mem_intercalate hc).imp_right fun hw => hw.elim fun w hw => (h w hw.1).plain c hw.2
  have hspaces : ∀ c ∈ snakeCase words, isWhitespace c = false := by
    intro c hc
    rcases hchar c hc with rfl | hplain
    · decide
    · exact (not_separator hplain.isAlphanumeric).1
  have hnamespace : (snakeCase words).any isNamespaceSeparator = false := by
    refine List.any_eq_false.mpr fun c hc => ?_
    rw [Bool.not_eq_true]
    rcases hchar c hc with rfl | hplain
    · decide
    · exact (not_separator hplain.isAlphanumeric).2.2
  have hlower : lowercase (snakeCase words) = snakeCase words := by
    refine (List.map_congr_left fun c hc => ?_).trans (List.map_id _)
    rcases hchar c hc with rfl | hplain
    · rfl
    · exact hplain.lower.1
  have hsplit : (snakeCase words).splitOnP isSeparator = words :=
    splitOnP_intercalate rfl
      (fun w hw c hc => (not_separator ((h w hw).plain c hc).isAlphanumeric).2.1) hne
  have hsnake : snakeCase words ≠ [] := by
    intro hnil
    rw [hnil, List.splitOnP_nil] at hsplit
    exact (h [] (hsplit ▸ List.mem_singleton_self _)).ne_nil rfl
  rw [emits_iff, splitWhitespace_word hspaces, if_neg hsnake]
  simp only [List.mem_singleton, exists_eq_left, mem_splitIdentifier, hnamespace, and_true,
    hlower, hsplit, mem_words_iff h]
  rw [or_comm]
  exact or_congr_right ⟨And.left, fun hx => ⟨hx, hx ▸ hsnake⟩⟩

/-- With spaces between them, there are only the words. -/
theorem emits_spaceSeparated (hne : words ≠ []) (h : ∀ w ∈ words, IsWord w) :
    Emits (spaceSeparated words) x ↔ x ∈ words := by
  have hsplit : splitWhitespace (spaceSeparated words) = words := by
    have hwords := @splitOnP_intercalate words isWhitespace ' ' (by decide)
      (fun w hw c hc => (not_separator ((h w hw).plain c hc).isAlphanumeric).1) hne
    rw [splitWhitespace, spaceSeparated, hwords]
    exact List.filter_eq_self.mpr fun w hw => decide_eq_true (h w hw).ne_nil
  rw [emits_iff, hsplit]
  have hword : ∀ w ∈ words, (x ∈ splitIdentifier w ↔ x = w) := by
    intro w hw
    have hemits := @emits_alphanumeric w x (h w hw).ne_nil fun c hc =>
        ((h w hw).plain c hc).isAlphanumeric
    have hspaces : ∀ c ∈ w, isWhitespace c = false := fun c hc =>
      (not_separator ((h w hw).plain c hc).isAlphanumeric).1
    rw [emits_iff, splitWhitespace_word hspaces, if_neg (h w hw).ne_nil, (h w hw).componentParts,
      lowercase_plain (h w hw).plain] at hemits
    simp only [List.mem_singleton, exists_eq_left] at hemits
    exact hemits.trans (or_iff_left_of_imp And.left)
  constructor
  · intro hx
    obtain ⟨w, hw, hmem⟩ := hx
    rwa [(hword w hw).mp hmem]
  · exact fun hx => ⟨x, hx, (hword x hx).mpr rfl⟩

/-- Joining changes nothing if only the last word may end in a digit. -/
theorem joinDigits_eq (h : ∀ w ∈ (cur :: ws).dropLast, w.getLast?.any Char.isDigit = false) :
    joinDigits cur ws = cur :: ws := by
  induction ws generalizing cur with
  | nil => rfl
  | cons w ws ih =>
    rw [List.dropLast_cons_of_ne_nil (List.cons_ne_nil _ _), List.forall_mem_cons] at h
    rw [joinDigits, if_neg (Bool.not_eq_true _ ▸ h.1), ih h.2]

theorem joined_eq (h : ∀ w ∈ words.dropLast, w.getLast?.any Char.isDigit = false) :
    joined words = words := by
  cases words with
  | nil => rfl
  | cons w ws => exact joinDigits_eq h

/-- The terms of an identifier are its words and itself in both spellings, and its words alone where
these stand apart, exactly if no other words come of joining those that end in a digit to the
next. -/
theorem spellings_have_words (hne : words ≠ []) (h : ∀ w ∈ words, IsWord w) :
    (((∀ x, Emits (camelCase words) x ↔ x ∈ words ∨ x = words.flatten) ∧
      (∀ x, Emits (snakeCase words) x ↔ x ∈ words ∨ x = snakeCase words) ∧
      ∀ x, Emits (spaceSeparated words) x ↔ x ∈ words) ↔
      ∀ x, x ∈ joined words ∨ x = words.flatten ↔ x ∈ words ∨ x = words.flatten) ∧
    ((∀ w ∈ words.dropLast, w.getLast?.any Char.isDigit = false) → joined words = words) := by
  refine ⟨?_, joined_eq⟩
  rw [and_iff_left ⟨fun x => emits_snakeCase hne h, fun x => emits_spaceSeparated hne h⟩]
  exact forall_congr' fun x => by rw [emits_camelCase hne h]

theorem spellings_have_words_two : Emits "readBom8".toList "bom8".toList := by
  have hwords : ∀ w ∈ ["read".toList, "bom8".toList], IsWord w := by
    intro w hw
    simp only [List.mem_cons, List.not_mem_nil, or_false] at hw
    rcases hw with rfl | rfl
    · exact ⟨'r', "ead".toList, rfl, rfl, by decide, plain_of_all rfl⟩
    · exact ⟨'b', "om8".toList, rfl, rfl, by decide, plain_of_all rfl⟩
  have hlaw := spellings_have_words (List.cons_ne_nil _ _) hwords
  have hjoined := hlaw.2 (by decide)
  have hcamel := (hlaw.1.mpr fun x => by rw [hjoined]).1
  exact (hcamel _).mpr (.inl (by decide))

/-- A capital does not begin a part behind a digit. -/
theorem spellings_digit_capital : ¬∀ words : List Text, words ≠ [] → (∀ w ∈ words, IsWord w) →
    ∀ x, Emits (camelCase words) x ↔ x ∈ words ∨ x = words.flatten := by
  intro h
  have hwords : ∀ w ∈ ["utf8".toList, "bom".toList], IsWord w := by
    intro w hw
    simp only [List.mem_cons, List.not_mem_nil, or_false] at hw
    rcases hw with rfl | rfl
    · exact ⟨'u', "tf8".toList, rfl, rfl, by decide, plain_of_all rfl⟩
    · exact ⟨'b', "om".toList, rfl, rfl, by decide, plain_of_all rfl⟩
  have hbom := (h _ (List.cons_ne_nil _ _) hwords "bom".toList).mpr (.inl (by decide))
  rw [emits_camelCase (List.cons_ne_nil _ _) hwords] at hbom
  revert hbom
  decide

end

end SiftMcp
