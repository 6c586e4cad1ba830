import SiftMcp.Indexing.Chunker

/-!
# Splitting by lines

What it means that fragments hold a text, and that `hard_split` keeps the text it is given. A
fragment is compared with a piece of the text up to whitespace; the pieces follow one another and
leave out whitespace only.

The main result is `hardSplit_splitsInto`. It goes line by line; `Reading` is what holds between two
of them.
-/

namespace SiftMcp
open Text
open String (utf8Len)

/-- What a text holds besides whitespace. -/
def solid (t : Text) : Text := t.filter fun c => !isWhitespace c

/-- The pieces follow one another in the text, and what they leave out is whitespace. -/
def Pieces : List Text → Text → Prop
  | [], t => Blank t
  | p :: ps, t => ∃ gap rest, Blank gap ∧ t = gap ++ p ++ rest ∧ Pieces ps rest

/-- The fragments are the pieces of the text in order, each with the signature at its start. -/
def SplitsInto (text signature : Text) (fragments : List Text) : Prop :=
  ∃ pieces, Pieces pieces text ∧
    List.Forall₂ (fun f p => solid f = solid (prefixSig signature p)) fragments pieces ∧
    ∀ f ∈ fragments, signature <+: f

/-- A line that is taken as a signature: trimmed, and without a line feed. -/
structure IsSignature (signature : Text) : Prop where
  lineFeed : '\n' ∉ signature
  trimmed : trim signature = signature

variable {a b t p signature buf body : Text} {ps out ls rows : List Text}

@[simp] theorem solid_append : solid (a ++ b) = solid a ++ solid b := List.filter_append ..

theorem solid_of_blank (h : Blank t) : solid t = [] :=
  List.filter_eq_nil_iff.mpr fun c hc => by rw [h c hc]; decide

theorem solid_trim : solid (trim t) = solid t := by
  obtain ⟨a, b, ha, hb, ht⟩ := @exists_trim t
  conv_rhs => rw [ht]
  rw [solid_append, solid_append, solid_of_blank ha, solid_of_blank hb, List.nil_append,
    List.append_nil]

theorem prefix_prefixSig : signature <+: prefixSig signature t := by
  unfold prefixSig
  split
  · next h => exact List.isPrefixOf_iff_prefix.mp h
  · exact List.prefix_append ..

theorem prefixSig_of_starts (h : signature <+: t) : prefixSig signature t = t :=
  if_pos (List.isPrefixOf_iff_prefix.mpr h)

theorem prefixSig_of_not_starts (h : ¬signature <+: t) :
    prefixSig signature t = signature ++ '\n' :: t :=
  if_neg (mt List.isPrefixOf_iff_prefix.mp h)

theorem solid_signature_append : solid (signature ++ '\n' :: t) = solid signature ++ solid t := by
  rw [solid_append]
  rfl

/-- With and without a signature before them, texts differ in whitespace only. -/
theorem solid_prefixSig (hsolid : solid a = solid b) (hpre : signature <+: a ↔ signature <+: b) :
    solid (prefixSig signature a) = solid (prefixSig signature b) := by
  by_cases h : signature <+: a
  · rw [prefixSig_of_starts h, prefixSig_of_starts (hpre.mp h), hsolid]
  · rw [prefixSig_of_not_starts h, prefixSig_of_not_starts (mt hpre.mpr h), solid_signature_append,
      solid_signature_append, hsolid]

/-! ## Pieces -/

theorem Pieces.of_blank_append (ha : Blank a) (h : Pieces ps t) : Pieces ps (a ++ t) := by
  cases ps with
  | nil => exact blank_append.mpr ⟨ha, h⟩
  | cons p ps =>
    obtain ⟨gap, rest, hgap, rfl, hrest⟩ := h
    exact ⟨a ++ gap, rest, blank_append.mpr ⟨ha, hgap⟩, by simp, hrest⟩

theorem Pieces.append {qs : List Text} (h : Pieces ps a) (h' : Pieces qs b) :
    Pieces (ps ++ qs) (a ++ b) := by
  induction ps generalizing a with
  | nil => exact h'.of_blank_append h
  | cons p ps ih =>
    obtain ⟨gap, rest, hgap, rfl, hrest⟩ := h
    exact ⟨gap, rest ++ b, hgap, by simp, ih hrest⟩

theorem blank_nil : Blank [] := fun _ h => absurd h List.not_mem_nil

theorem Pieces.single : Pieces [t] t := ⟨[], [], blank_nil, by simp, blank_nil⟩

theorem Pieces.flatten : Pieces ps ps.flatten := by
  induction ps with
  | nil => exact blank_nil
  | cons p ps ih => exact ⟨[], ps.flatten, blank_nil, by simp, ih⟩

theorem Pieces.solid_eq (h : Pieces ps t) : solid t = (ps.map solid).flatten := by
  induction ps generalizing t with
  | nil => exact solid_of_blank h
  | cons p ps ih =>
    obtain ⟨gap, rest, hgap, rfl, hrest⟩ := h
    simp [solid_of_blank hgap, ih hrest]

/-! ## Lines and their pieces -/

/-- Nothing, or a text that begins with the end of a line. -/
def Continues (t : Text) : Prop := t = [] ∨ ['\n'] <+: t ∨ ['\r', '\n'] <+: t

/-- A signature that a line and what continues it begin with is at the start of the line. -/
theorem prefix_of_continues (hsig : IsSignature signature) (hb : Continues b)
    (h : signature <+: a ++ b) : signature <+: a := by
  by_contra hnot
  obtain ⟨s, hs⟩ := h
  obtain ⟨x, hx, rest⟩ : ∃ x, signature = a ++ x ∧ x <+: b := by
    rcases List.append_eq_append_iff.mp hs with ⟨x, ha, hx⟩ | ⟨x, hsigx, hx⟩
    · exact absurd ⟨x, ha.symm⟩ hnot
    · exact ⟨x, hsigx, ⟨s, hx.symm⟩⟩
  have hne : x ≠ [] := by
    rintro rfl
    exact hnot (by rw [hx, List.append_nil])
  obtain ⟨c, x, rfl⟩ := List.exists_cons_of_ne_nil hne
  have hlf : '\n' ∉ c :: x := fun h => hsig.lineFeed (by rw [hx]; exact List.mem_append_right _ h)
  rcases hb with rfl | ⟨r, rfl⟩ | ⟨r, rfl⟩
  · exact absurd (List.prefix_nil.mp rest) (List.cons_ne_nil _ _)
  · obtain ⟨rfl, -⟩ := List.cons_prefix_cons.mp rest
    exact hlf List.mem_cons_self
  · obtain ⟨rfl, hrest⟩ := List.cons_prefix_cons.mp rest
    cases x with
    | nil =>
      -- The signature would end with a carriage return, which trimming takes off.
      have htrim := hsig.trimmed
      rw [hx, trim_append_blank (by decide)] at htrim
      have hlen := congrArg List.length htrim
      obtain ⟨u, v, -, -, ha⟩ := @exists_trim a
      have hla := congrArg List.length ha
      simp only [List.length_append, List.length_cons, List.length_nil] at hlen hla
      omega
    | cons d x =>
      obtain ⟨rfl, -⟩ := List.cons_prefix_cons.mp hrest
      exact hlf (List.mem_cons_of_mem _ List.mem_cons_self)

/-- The buffer of the loop against the stretch of the text it was read from: they begin with the
same line and hold the same besides whitespace. -/
inductive Buffers : Text → Text → Prop
  | empty {q : Text} : Blank q → Buffers [] q
  | lines {gap l u v : Text} : Blank gap → l ≠ [] → '\n' ∉ l → Continues u → Continues v →
      solid u = solid v → Buffers (l ++ u) (gap ++ (l ++ v))

/-- Where the loop over the lines stands when it has read `t`. -/
structure Reading (signature t : Text) (out : List Text) (buf : Text) (ps : List Text)
    (t₀ q : Text) : Prop where
  text : t = t₀ ++ q
  pieces : Pieces ps t₀
  fragments : List.Forall₂ (fun f p => solid f = solid (prefixSig signature p)) out ps
  signed : ∀ f ∈ out, signature <+: f
  buffer : Buffers buf q

theorem continues_append (h : Continues a) (hne : a ≠ []) : Continues (a ++ b) := by
  rcases h with rfl | h | h
  · exact absurd rfl hne
  · exact .inr (.inl (h.trans (List.prefix_append ..)))
  · exact .inr (.inr (h.trans (List.prefix_append ..)))

/-- A buffer that is given out: its piece is the stretch without the gap before it. -/
theorem Buffers.flush {q : Text} (hsig : IsSignature signature) (h : Buffers buf q)
    (hne : buf ≠ []) : ∃ gap p, q = gap ++ p ∧ Blank gap ∧
      solid (prefixSig signature buf) = solid (prefixSig signature p) := by
  cases h with
  | empty => exact absurd rfl hne
  | @lines gap l u v hgap hl _ hu hv hsolid =>
    refine ⟨gap, l ++ v, rfl, hgap, solid_prefixSig (by simp [hsolid]) ?_⟩
    constructor
    · intro h
      exact (prefix_of_continues hsig hu h).trans (List.prefix_append ..)
    · intro h
      exact (prefix_of_continues hsig hv h).trans (List.prefix_append ..)

theorem Reading.flush {q t₀ : Text} (hsig : IsSignature signature)
    (h : Reading signature t out buf ps t₀ q) (hne : buf ≠ []) :
    ∃ ps, Reading signature t (out ++ [prefixSig signature buf]) [] ps t [] := by
  obtain ⟨gap, p, hq, hgap, hsolid⟩ := h.buffer.flush hsig hne
  refine ⟨ps ++ [p], (List.append_nil t).symm, ?_, ?_, ?_, .empty blank_nil⟩
  · rw [h.text, hq]
    exact h.pieces.append (Pieces.single.of_blank_append hgap)
  · exact List.rel_append h.fragments (.cons hsolid .nil)
  · exact List.forall_mem_append.mpr ⟨h.signed, by simp [prefix_prefixSig]⟩

/-- A line is read: `e` is its end. -/
theorem Reading.take {q t₀ l e : Text} (h : Reading signature t out buf ps t₀ q)
    (hend : t = [] ∨ t.getLast? = some '\n') (hl : '\n' ∉ l) (he : Continues e) (heb : Blank e) :
    Reading signature (t ++ (l ++ e)) out ((if buf ≠ [] then buf ++ ['\n'] else buf) ++ l) ps t₀
      (q ++ (l ++ e)) := by
  refine ⟨by rw [h.text, List.append_assoc], h.pieces, h.fragments, h.signed, ?_⟩
  have hbuf := h.buffer
  have htext := h.text
  clear h
  cases hbuf with
  | empty hq =>
    rw [if_neg (fun hne => hne rfl)]
    by_cases hln : l = []
    · subst hln
      exact .empty (blank_append.mpr ⟨hq, heb⟩)
    · have := Buffers.lines hq hln hl (.inl rfl) he (solid_of_blank heb).symm
      rwa [List.append_nil] at this
  | @lines gap l₀ u v hgap hne hlf hu hv hsolid =>
    have hvne : v ≠ [] := by
      rintro rfl
      rw [List.append_nil] at htext
      rcases hend with hnil | hlast
      · rw [hnil] at htext
        simp [hne] at htext
      · rw [htext, ← List.append_assoc, List.getLast?_append_of_ne_nil _ hne] at hlast
        exact hlf (List.mem_of_getLast? hlast)
    rw [if_pos (by simp [hne])]
    have hu' : Continues (u ++ ('\n' :: l)) := by
      by_cases hun : u = []
      · subst hun
        exact .inr (.inl ⟨l, rfl⟩)
      · exact continues_append hu hun
    have hsolid' : solid (u ++ ('\n' :: l)) = solid (v ++ (l ++ e)) := by
      rw [solid_append, solid_append, solid_append, hsolid, solid_of_blank heb, List.append_nil]
      rfl
    have := Buffers.lines hgap hne hlf hu' (@continues_append v (l ++ e) hv hvne) hsolid'
    simpa only [List.append_assoc, List.cons_append, List.nil_append] using this

/-- A turn of the loop. -/
theorem Reading.turn {q t₀ l e : Text} (hsig : IsSignature signature)
    (h : Reading signature t out buf ps t₀ q) (hend : t = [] ∨ t.getLast? = some '\n')
    (hl : '\n' ∉ l) (he : Continues e) (heb : Blank e) : ∃ out' buf' ps' t₀' q',
      (∀ ls, hardSplitLines signature (l :: ls) buf out = hardSplitLines signature ls buf' out') ∧
        Reading signature (t ++ (l ++ e)) out' buf' ps' t₀' q' := by
  by_cases hfull : buf ≠ [] ∧ buf.length + l.length + 1 > oversizeCharThreshold
  · obtain ⟨ps', h'⟩ := h.flush hsig hfull.1
    refine ⟨out ++ [prefixSig signature buf], _, ps', t, _, fun ls => ?_, h'.take hend hl he heb⟩
    rw [hardSplitLines]
    simp only [if_pos hfull]
  · refine ⟨out, _, ps, t₀, _, fun ls => ?_, h.take hend hl he heb⟩
    rw [hardSplitLines]
    simp only [if_neg hfull]

theorem getLast?_append_row {r : Text} (h : IsRow r) : (t ++ r).getLast? = some '\n' := by
  obtain ⟨b, -, rfl⟩ := h
  rw [← List.append_assoc, List.getLast?_concat]

theorem row_cases {r : Text} (h : IsRow r) :
    ∃ e, r = chomp r ++ e ∧ '\n' ∉ chomp r ∧ Continues e ∧ Blank e := by
  obtain ⟨b, hb, rfl⟩ := h
  rw [chomp_row]
  rcases List.eq_nil_or_concat b with rfl | ⟨b, c, rfl⟩
  · exact ⟨['\n'], rfl, List.not_mem_nil, .inr (.inl ⟨[], rfl⟩), by decide⟩
  · rw [List.concat_eq_append] at hb ⊢
    have hnot : '\n' ∉ b := fun h => hb (List.mem_append_left _ h)
    rw [List.reverse_append]
    by_cases hc : c = '\r'
    · subst hc
      exact ⟨['\r', '\n'], by simp, by simpa using hnot, .inr (.inr ⟨[], rfl⟩), by decide⟩
    · refine ⟨['\n'], ?_, ?_, .inr (.inl ⟨[], rfl⟩), by decide⟩
      · simp [hc]
      · simpa [hc] using hb

/-- The run of the loop over lines that are all ended. -/
theorem Reading.run {q t₀ : Text} (hsig : IsSignature signature) (hrows : ∀ r ∈ rows, IsRow r)
    (h : Reading signature t out buf ps t₀ q) (hend : t = [] ∨ t.getLast? = some '\n') :
    ∃ out' buf' ps' t₀' q',
      (∀ ls, hardSplitLines signature (rows.map chomp ++ ls) buf out =
        hardSplitLines signature ls buf' out') ∧
      Reading signature (t ++ rows.flatten) out' buf' ps' t₀' q' ∧
      (t ++ rows.flatten = [] ∨ (t ++ rows.flatten).getLast? = some '\n') := by
  induction rows generalizing t out buf ps t₀ q with
  | nil =>
    rw [List.flatten_nil, List.append_nil]
    exact ⟨out, buf, ps, t₀, q, fun ls => rfl, h, hend⟩
  | cons r rows ih =>
    obtain ⟨hr, hrest⟩ := List.forall_mem_cons.mp hrows
    obtain ⟨e, hre, hl, he, heb⟩ := row_cases hr
    obtain ⟨out₁, buf₁, ps₁, t₁, q₁, hturn, h₁⟩ := h.turn hsig hend hl he heb
    rw [← hre] at h₁
    obtain ⟨out₂, buf₂, ps₂, t₂, q₂, hrun, h₂, hend₂⟩ :=
      ih hrest h₁ (.inr (getLast?_append_row hr))
    rw [List.flatten_cons, ← List.append_assoc]
    refine ⟨out₂, buf₂, ps₂, t₂, q₂, fun ls => ?_, h₂, hend₂⟩
    rw [List.map_cons, List.cons_append, hturn, hrun]

/-- The loop over all lines of a text. -/
theorem reading_lines (hsig : IsSignature signature) : ∃ out buf ps t₀ q,
    hardSplitLines signature (lines t) [] [] = (out, buf) ∧
      Reading signature t out buf ps t₀ q := by
  have hstart : Reading signature [] [] [] [] [] [] :=
    ⟨rfl, blank_nil, .nil, fun f hf => absurd hf List.not_mem_nil, .empty blank_nil⟩
  obtain ⟨rows, r, hrows, hr, rfl⟩ := exists_rows t
  obtain ⟨out, buf, ps, t₀, q, hrun, h, hend⟩ := hstart.run hsig hrows (.inl rfl)
  rw [List.nil_append] at h hend
  unfold lines
  rw [splitInclusive_eq hrows hr, List.map_append, hrun]
  by_cases hne : r = []
  · subst hne
    rw [List.append_nil]
    exact ⟨out, buf, ps, t₀, q, rfl, h⟩
  · obtain ⟨out', buf', ps', t₀', q', hturn, h'⟩ := h.turn hsig hend hr (.inl rfl) blank_nil
    rw [List.append_nil] at h'
    refine ⟨out', buf', ps', t₀', q', ?_, h'⟩
    rw [if_neg hne, List.map_singleton, chomp_of_not_mem hr, hturn]
    rfl

/-- Splitting by lines keeps the text. -/
theorem hardSplit_splitsInto (hsig : IsSignature signature) :
    SplitsInto body signature (hardSplit body signature) := by
  obtain ⟨out, buf, ps, t₀, q, hloop, h⟩ := @reading_lines body signature hsig
  unfold hardSplit
  rw [hloop]
  dsimp only
  by_cases hbuf : buf = []
  · subst hbuf
    rw [if_neg (not_not_intro rfl)]
    by_cases hout : out = []
    · rw [if_pos hout]
      exact ⟨[body], Pieces.single, .cons rfl .nil, by simp [prefix_prefixSig]⟩
    · rw [if_neg hout]
      have hbuffer := h.buffer
      generalize hbuf : ([] : Text) = buf at hbuffer
      refine ⟨ps, ?_, h.fragments, h.signed⟩
      cases hbuffer with
      | empty hq =>
        rw [h.text, ← List.append_nil ps]
        exact h.pieces.append hq
      | lines _ hl _ _ _ _ =>
        exact absurd (List.append_eq_nil_iff.mp hbuf.symm).1 hl
  · rw [if_pos hbuf]
    obtain ⟨ps', h'⟩ := h.flush hsig hbuf
    rw [if_neg (by simp)]
    exact ⟨ps', h'.pieces, h'.fragments, h'.signed⟩

end SiftMcp
