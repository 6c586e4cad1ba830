import SiftMcp.Indexing.Fragments

/-!
# Containers without their members

The text of a container outside its members, and what of it the chunks of the container hold. Where
a container is cut at the ends of statements, it is cut with its members.

* `bodyMinusMembers_exact`: the characters that are left of a container.
* `excludesMembers_of_leavesOut`: when its chunks leave the members out, and when they do not.
-/

namespace SiftMcp
open Text StackSearch
open String (utf8Len)

/-! ## Members -/

def ByteRange.Holds (r : ByteRange) (b : Nat) : Prop := r.start ≤ b ∧ b < r.stop

instance {r : ByteRange} {b : Nat} : Decidable (r.Holds b) :=
  inferInstanceAs (Decidable (_ ∧ _))

/-- The construct stands in the other one, with its documentation or without. -/
def SymbolHit.IsMember (hit m : SymbolHit) : Prop :=
  rangeContains hit.range m.range = true ∨ rangeContains hit.nodeRange m.nodeRange = true

instance {hit m : SymbolHit} : Decidable (hit.IsMember m) := inferInstanceAs (Decidable (_ ∨ _))

def membersOf (ordered : List SymbolHit) (hit : SymbolHit) : List SymbolHit :=
  ordered.filter fun m => hit.IsMember m

/-- The text of a construct outside its members. -/
def outsideMembers (source : Text) (ordered : List SymbolHit) (hit : SymbolHit) : Text :=
  source.keepAt (fun b => hit.range.Holds b ∧ ∀ m ∈ membersOf ordered hit, ¬m.range.Holds b) 0

/-- What the chunks have in common with the body of a member stands outside the members as well,
each line of it. -/
def ExcludesMembers (source : Text) (ordered : List SymbolHit) (hit : SymbolHit)
    (chunks : List FragmentChunk) : Prop :=
  ∀ chunk ∈ chunks, ∀ m ∈ membersOf ordered hit, ∀ body, bodyOfHit source ordered m = some body →
    trim body ≠ [] → ∀ x, x <:+: body → x <:+: chunk.body.toList →
      ∀ l ∈ lines x, l <:+: outsideMembers source ordered hit

/-- The chunker leaves the members of the container out, and does not take them in again when it
splits what remains. -/
structure LeavesMembersOut (ts : TreeSitter) (language : Language) {source : Text}
    (tree : SyntaxTree source) (ordered : List SymbolHit) (hit : SymbolHit) : Prop where
  documented : ∀ m ∈ membersOf ordered hit, rangeContains hit.range m.range = true
  split : (outsideMembers source ordered hit).length ≤ oversizeCharThreshold ∨
    symbolEnds ts language tree hit = [] ∧ ∀ signature,
      firstSignatureLine source hit.nodeRange = some signature →
        signature <:+: outsideMembers source ordered hit

/-- The chunker splits the container with its members, and the body of one of them has a character
that is nowhere outside them. -/
structure TakesMembersIn (ts : TreeSitter) (language : Language) {source : Text}
    (tree : SyntaxTree source) (ordered : List SymbolHit) (hit : SymbolHit) : Prop where
  documented : ∀ m ∈ membersOf ordered hit, rangeContains hit.range m.range = true
  long : oversizeCharThreshold < (outsideMembers source ordered hit).length
  ends : symbolEnds ts language tree hit ≠ []
  own : ∃ m ∈ membersOf ordered hit, ∃ body, bodyOfHit source ordered m = some body ∧
    ∃ c ∈ body, isWhitespace c = false ∧ c ∉ outsideMembers source ordered hit

variable {source body signature l : Text} {tree : SyntaxTree source} {ts : TreeSitter}
  {language : Language} {hits ordered : List SymbolHit} {hit m : SymbolHit}
  {members : List ByteRange}

theorem mem_membersOf : m ∈ membersOf ordered hit ↔ m ∈ ordered ∧ hit.IsMember m := by
  rw [membersOf, List.mem_filter, decide_eq_true_iff]

/-! ## What is left of a container -/

/-- What the loop takes before a member: the text between the cursor and the member, if there is
any. -/
theorem eq_keepAt_of_piece {start stop cursor : Nat} {piece : Text} (hle : start ≤ stop)
    (h : (if start > cursor ∧ start ≤ stop then source.slice? cursor start else some []) =
      some piece) :
    piece = source.keepAt (fun b => decide (cursor ≤ b ∧ b < start)) 0 := by
  by_cases hlt : start > cursor
  · rw [if_pos ⟨hlt, hle⟩] at h
    exact (keepAt_of_slice? h).symm
  · rw [if_neg fun hand => hlt hand.1] at h
    obtain rfl := Option.some.inj h
    exact (keepAt_none fun b _ _ => decide_eq_false (by omega)).symm

/-- One step of the loop. What stands outside the members from the cursor on is before the first of
them, or it is outside the others from the end of the first on, or from the cursor on if that is
later. -/
theorem outside_cons_iff {m : ByteRange} {stop cursor b : Nat} (hle : m.start ≤ m.stop)
    (hlast : m.stop ≤ stop) (hfirst : ∀ n ∈ members, m.start ≤ n.start) :
    (cursor ≤ b ∧ b < m.start ∨
      (max cursor m.stop ≤ b ∧ b < stop) ∧ ∀ n ∈ members, ¬n.Holds b) ↔
        (cursor ≤ b ∧ b < stop) ∧ ∀ n ∈ m :: members, ¬n.Holds b := by
  rw [List.forall_mem_cons]
  unfold ByteRange.Holds
  constructor
  · rintro (⟨h₁, h₂⟩ | ⟨⟨h₁, h₂⟩, h₃⟩)
    · refine ⟨⟨h₁, by omega⟩, by omega, fun n hn => ?_⟩
      have := hfirst n hn
      omega
    · exact ⟨⟨by omega, h₂⟩, by omega, h₃⟩
  · rintro ⟨⟨h₁, h₂⟩, h₃, h₄⟩
    by_cases hb : b < m.start
    · exact .inl ⟨h₁, hb⟩
    · exact .inr ⟨⟨by omega, h₂⟩, h₄⟩

/-- Where the loop over the members, in order, comes to an end, it leaves what none of them
holds. -/
theorem eq_of_cutMembers {stop cursor : Nat} {out : Text}
    (hsorted : members.Pairwise fun p q => p.start ≤ q.start)
    (h : ∀ m ∈ members, m.start ≤ m.stop ∧ m.stop ≤ stop)
    (hout : cutMembers source stop members cursor = some out) : out = source.keepAt
      (fun b => (cursor ≤ b ∧ b < stop) ∧ ∀ m ∈ members, ¬m.Holds b) 0 := by
  induction members generalizing cursor out with
  | nil =>
    unfold cutMembers at hout
    simp only [List.not_mem_nil, false_implies, implies_true, and_true]
    split at hout
    · exact (keepAt_of_slice? hout).symm
    · obtain rfl := Option.some.inj hout
      exact (keepAt_none fun b _ _ => decide_eq_false (by omega)).symm
  | cons m members ih =>
    obtain ⟨⟨hle, hlast⟩, hrest⟩ := List.forall_mem_cons.mp h
    obtain ⟨hfirst, hsorted⟩ := List.pairwise_cons.mp hsorted
    rw [cutMembers_cons] at hout
    obtain ⟨piece, hpiece, hout⟩ := Option.bind_eq_some_iff.mp hout
    obtain ⟨rest, hcut, hout⟩ := Option.bind_eq_some_iff.mp hout
    obtain rfl := Option.some.inj hout
    rw [eq_keepAt_of_piece (Nat.le_trans hle hlast) hpiece, ih hsorted hrest hcut,
      ← @keepAt_or _ _ _ (max cursor m.stop)]
    · congr 1
      funext b
      rw [Bool.eq_iff_iff, Bool.or_eq_true, decide_eq_true_iff, decide_eq_true_iff,
        decide_eq_true_iff]
      exact outside_cons_iff hle hlast hfirst
    · intro b hb
      have := of_decide_eq_true hb
      omega
    · intro b hb
      exact (of_decide_eq_true hb).1.1

theorem cutMembers_eq {stop cursor : Nat} (hstop : source.IsBoundary stop)
    (hcursor : source.IsBoundary cursor) (hsorted : members.Pairwise fun p q => p.start ≤ q.start)
    (h : ∀ m ∈ members, source.IsBoundary m.start ∧ source.IsBoundary m.stop ∧ m.start ≤ m.stop ∧
      m.stop ≤ stop) : cutMembers source stop members cursor = some (source.keepAt
      (fun b => (cursor ≤ b ∧ b < stop) ∧ ∀ m ∈ members, ¬m.Holds b) 0) := by
  obtain ⟨out, hout⟩ := Option.isSome_iff_exists.mp
    (isSome_cutMembers hstop hcursor fun m hm => ⟨(h m hm).1, (h m hm).2.1⟩)
  rw [hout, eq_of_cutMembers hsorted (fun m hm => (h m hm).2.2) hout]

/-- The range is a part of the other one. -/
structure ByteRange.Within (r outer : ByteRange) : Prop where
  start : outer.start ≤ r.start
  le : r.start ≤ r.stop
  stop : r.stop ≤ outer.stop

instance {r outer : ByteRange} : Decidable (r.Within outer) :=
  decidable_of_iff (outer.start ≤ r.start ∧ r.start ≤ r.stop ∧ r.stop ≤ outer.stop)
    ⟨fun h => ⟨h.1, h.2.1, h.2.2⟩, fun h => ⟨h.start, h.le, h.stop⟩⟩

/-- The range begins and ends between two characters of the text. -/
structure ByteRange.Aligned (r : ByteRange) (source : Text) : Prop where
  start : source.IsBoundary r.start
  stop : source.IsBoundary r.stop

instance {r : ByteRange} : Decidable (r.Aligned source) :=
  decidable_of_iff (source.IsBoundary r.start ∧ source.IsBoundary r.stop)
    ⟨fun h => ⟨h.1, h.2⟩, fun h => ⟨h.start, h.stop⟩⟩

/-- A range without its members has the characters of the range that no member holds, in the order
of the text, whatever the order of the members and however they overlap. A range that cuts a
character may stop the chunker, but the text is the same if it does not. -/
theorem bodyMinusMembers_exact (source : Text) (outer : ByteRange) (members : List ByteRange)
    (hwithin : ∀ m ∈ members, m.Within outer) :
    (∀ out, bodyMinusMembers source outer members = some out →
      out = source.keepAt (fun b => outer.Holds b ∧ ∀ m ∈ members, ¬m.Holds b) 0) ∧
    (outer.Aligned source → (∀ m ∈ members, m.Aligned source) →
      (bodyMinusMembers source outer members).isSome = true) := by
  constructor
  · intro out hout
    have hsorted := List.pairwise_insertionSort (fun p q : ByteRange => p.start ≤ q.start) members
    have hbounds : ∀ m ∈ members.insertionSort fun p q => p.start ≤ q.start,
        m.start ≤ m.stop ∧ m.stop ≤ outer.stop := by
      intro m hm
      have hin := hwithin m ((List.mem_insertionSort _).mp hm)
      exact ⟨hin.le, hin.stop⟩
    rw [eq_of_cutMembers hsorted hbounds hout]
    congr 1
    funext b
    exact decide_eq_decide.mpr
      (and_congr_right fun _ => forall_congr' fun m => by rw [List.mem_insertionSort])
  · intro houter hmembers
    refine isSome_cutMembers houter.stop houter.start fun m hm => ?_
    have haligned := hmembers m ((List.mem_insertionSort _).mp hm)
    exact ⟨haligned.start, haligned.stop⟩

/-- Members out of order, of which one stands in another, two overlap and two meet. -/
theorem bodyMinusMembers_overlapping :
    bodyMinusMembers ['x', '{', 'a', 'é', 'b', 'c', 'd', 'e', 'f', '}', 'y'] ⟨1, 11⟩
      [⟨8, 9⟩, ⟨3, 7⟩, ⟨5, 6⟩, ⟨6, 8⟩] = some ['{', 'a', 'f', '}'] := by
  obtain ⟨hexact, hsome⟩ := bodyMinusMembers_exact
    ['x', '{', 'a', 'é', 'b', 'c', 'd', 'e', 'f', '}', 'y'] ⟨1, 11⟩
    [⟨8, 9⟩, ⟨3, 7⟩, ⟨5, 6⟩, ⟨6, 8⟩] (by decide)
  obtain ⟨out, hout⟩ := Option.isSome_iff_exists.mp (hsome (by decide) (by decide))
  rw [hout, hexact out hout]
  decide

theorem memberRanges_eq (h : ∀ m ∈ membersOf ordered hit, rangeContains hit.range m.range = true) :
    memberRanges ordered hit = (membersOf ordered hit).map (·.range) := by
  unfold memberRanges membersOf
  congr 1
  refine List.filter_congr fun m hm => ?_
  rw [Bool.eq_iff_iff, Bool.and_eq_true, decide_eq_true_iff, decide_eq_true_iff]
  constructor
  · exact fun hand => .inl hand.2
  · intro hmem
    have hcontains := h m (mem_membersOf.mpr ⟨hm, hmem⟩)
    refine ⟨fun heq => ?_, hcontains⟩
    rw [heq] at hcontains
    simp [rangeContains] at hcontains

/-- The body of a construct is what it spans, a container without what the chunker takes for
members. -/
theorem bodyOfHit_eq_keepAt (hsound : ∀ h ∈ ordered, SymbolHit.Sound source h)
    (hhit : hit ∈ ordered) :
    bodyOfHit source ordered hit = some (source.keepAt (fun b => hit.range.Holds b ∧
      (hit.isContainer = true → ∀ r ∈ memberRanges ordered hit, ¬r.Holds b)) 0) := by
  have hown := hsound hit hhit
  unfold bodyOfHit
  dsimp only
  by_cases hcut : hit.isContainer = true ∧ memberRanges ordered hit ≠ []
  · have hsorted := List.pairwise_insertionSort (fun p q : ByteRange => p.start ≤ q.start)
      (memberRanges ordered hit)
    rw [if_pos hcut, bodyMinusMembers, cutMembers_eq hown.stop hown.start hsorted]
    · simp only [hcut.1, List.mem_insertionSort, ByteRange.Holds, forall_const]
    · intro r hr
      obtain ⟨m, hm, rfl⟩ := List.mem_map.mp ((List.mem_insertionSort _).mp hr)
      obtain ⟨hmem, hcontains⟩ := List.mem_filter.mp hm
      have hsm := hsound m hmem
      simp only [rangeContains, Bool.and_eq_true, decide_eq_true_iff] at hcontains
      exact ⟨hsm.start, hsm.stop, hsm.le, hcontains.2.1.2⟩
  · obtain ⟨text, htext⟩ := Option.isSome_iff_exists.mp hown.isSome_slice?
    rw [if_neg hcut, htext, ← keepAt_of_slice? htext]
    congr 2
    funext b
    rw [Bool.eq_iff_iff, decide_eq_true_iff, decide_eq_true_iff]
    refine (and_iff_left fun hkind r hr => ?_).symm
    exact absurd ⟨hkind, List.ne_nil_of_mem hr⟩ hcut

/-- The body of a container, where its members are left out of it. -/
theorem bodyOfHit_eq_outside (hsound : ∀ h ∈ ordered, SymbolHit.Sound source h)
    (hhit : hit ∈ ordered) (hkind : hit.isContainer = true)
    (h : ∀ m ∈ membersOf ordered hit, rangeContains hit.range m.range = true) :
    bodyOfHit source ordered hit = some (outsideMembers source ordered hit) := by
  rw [bodyOfHit_eq_keepAt hsound hhit, outsideMembers, memberRanges_eq h]
  simp only [hkind, forall_const, List.forall_mem_map]

theorem bodyOfHit_subset (hsound : ∀ h ∈ ordered, SymbolHit.Sound source h) (hhit : hit ∈ ordered)
    (h : bodyOfHit source ordered hit = some body) :
    body ⊆ source.keepAt (fun b => hit.range.Holds b) 0 := by
  rw [bodyOfHit_eq_keepAt hsound hhit] at h
  obtain rfl := Option.some.inj h
  exact keepAt_subset fun b hb => decide_eq_true (of_decide_eq_true hb).1

/-! ## Splitting by lines -/

/-- Each line of the text is a part of a line of the signature or of the body. -/
def MadeOf (signature body t : Text) : Prop :=
  ∀ l, '\n' ∉ l → l <:+: t → l <:+: signature ∨ l <:+: body

theorem MadeOf.of_part {t : Text} (h : t <:+: body) : MadeOf signature body t :=
  fun _ _ hl => .inr (hl.trans h)

theorem MadeOf.lineFeed {a b : Text} (ha : MadeOf signature body a) (hb : MadeOf signature body b) :
    MadeOf signature body (a ++ '\n' :: b) := by
  intro l hl hin
  rcases infix_of_not_mem hl hin with h | h
  · exact ha l hl h
  · exact hb l hl h

theorem MadeOf.prefixSig {t : Text} (h : MadeOf signature body t) :
    MadeOf signature body (prefixSig signature t) := by
  unfold SiftMcp.prefixSig
  split
  · exact h
  · exact MadeOf.lineFeed (fun _ _ hl => .inl hl) h

theorem madeOf_hardSplitLines {ls out : List Text} {buf : Text} (hls : ∀ l ∈ ls, l <:+: body)
    (hbuf : MadeOf signature body buf) (hout : ∀ f ∈ out, MadeOf signature body f) :
    (∀ f ∈ (hardSplitLines signature ls buf out).1, MadeOf signature body f) ∧
      MadeOf signature body (hardSplitLines signature ls buf out).2 := by
  induction ls generalizing buf out with
  | nil => exact ⟨hout, hbuf⟩
  | cons l ls ih =>
    obtain ⟨hl, hrest⟩ := List.forall_mem_cons.mp hls
    have hnil : MadeOf signature body [] := .of_part List.nil_infix
    have hline : ∀ b, MadeOf signature body b →
        MadeOf signature body ((if b ≠ [] then b ++ ['\n'] else b) ++ l) := by
      intro b hb
      by_cases hne : b = []
      · subst hne
        exact .of_part hl
      · rw [if_pos hne, List.append_assoc]
        exact hb.lineFeed (.of_part hl)
    rw [hardSplitLines]
    by_cases hfull : buf ≠ [] ∧ buf.length + l.length + 1 > oversizeCharThreshold
    · simp only [if_pos hfull]
      apply ih hrest (hline [] hnil)
      exact List.forall_mem_append.mpr ⟨hout, List.forall_mem_singleton.mpr hbuf.prefixSig⟩
    · simp only [if_neg hfull]
      exact ih hrest (hline buf hbuf) hout

theorem madeOf_hardSplit : ∀ f ∈ hardSplit body signature, MadeOf signature body f := by
  obtain ⟨hout, hbuf⟩ := @madeOf_hardSplitLines body signature (lines body) [] []
    (fun _ => infix_of_mem_lines) (.of_part List.nil_infix) (List.forall_mem_nil _)
  unfold hardSplit
  generalize hardSplitLines signature (lines body) [] [] = r at hout hbuf ⊢
  obtain ⟨out, buf⟩ := r
  dsimp only at hout hbuf ⊢
  have hall : ∀ f ∈ if buf ≠ [] then out ++ [prefixSig signature buf] else out,
      MadeOf signature body f := by
    split
    · exact List.forall_mem_append.mpr ⟨hout, List.forall_mem_singleton.mpr hbuf.prefixSig⟩
    · exact hout
  generalize (if buf ≠ [] then out ++ [prefixSig signature buf] else out) = fragments at hall ⊢
  split
  · exact List.forall_mem_singleton.mpr (MadeOf.of_part List.infix_rfl).prefixSig
  · exact hall

/-! ## Splitting with the members -/

section
variable {full pending tail p rest : Text} {pieces : List Text} {c : Cutter} {ends : List Nat}
  {ch : Char}

theorem mem_solid {t : Text} : ch ∈ solid t ↔ ch ∈ t ∧ isWhitespace ch = false := by
  rw [solid, List.mem_filter, Bool.not_eq_true']

theorem mem_prefixSig {t : Text} (h : ch ∈ t) : ch ∈ prefixSig signature t := by
  unfold prefixSig
  split
  · exact h
  · exact List.mem_append_right _ (List.mem_cons_of_mem _ h)

theorem mem_trim {t : Text} (h : ch ∈ t) (hch : isWhitespace ch = false) : ch ∈ trim t := by
  have hsolid : ch ∈ solid (trim t) := by
    rw [solid_trim]
    exact mem_solid.mpr ⟨h, hch⟩
  exact (mem_solid.mp hsolid).1

/-- Merging the rest into the last fragment may lose a signature, but no character. -/
theorem mem_merged (h : ch ∈ p ++ rest) (hch : isWhitespace ch = false) :
    ch ∈ prefixSig signature (stripSigPrefix (prefixSig signature p) signature ++ trim rest) := by
  rcases List.mem_append.mp h with hp | hrest
  · by_cases hpre : signature <+: p
    · obtain ⟨q, rfl⟩ := hpre
      rcases List.mem_append.mp hp with hsig | hq
      · exact prefix_prefixSig.subset hsig
      · rw [prefixSig_of_starts (List.prefix_append ..), stripSigPrefix_append]
        apply mem_prefixSig
        apply List.mem_append_left
        have hsolid : ch ∈ solid ((stripPrefix? ['\n'] q).getD q) := by
          rw [solid_stripLineFeed]
          exact mem_solid.mpr ⟨hq, hch⟩
        exact (mem_solid.mp hsolid).1
    · rw [prefixSig_of_not_starts hpre, stripSigPrefix_append]
      exact mem_prefixSig (List.mem_append_left _ hp)
  · exact mem_prefixSig (List.mem_append_right _ (mem_trim hrest hch))

theorem mem_map_prefixSig {ps : List Text} (h : ch ∈ ps.flatten) :
    ∃ f ∈ ps.map (prefixSig signature), ch ∈ f := by
  obtain ⟨q, hq, hch⟩ := List.mem_flatten.mp h
  exact ⟨_, List.mem_map_of_mem hq, mem_prefixSig hch⟩

/-- The fragments that the ends of statements give have every character of the text that is cut. -/
theorem mem_splitAtEnds (hends : ∀ e ∈ ends, full.IsBoundary e) (hsorted : ends.Pairwise (· ≤ ·))
    (h : ch ∈ full) (hch : isWhitespace ch = false) :
    ∃ fragments, splitAtEnds full body signature ends = some fragments ∧
      ∃ f ∈ fragments, ch ∈ f := by
  obtain ⟨c, pieces, pending, tail, hrun, hc⟩ := (@Cutter.covers_start full signature).run
    (fun e he => ⟨hends e he, Nat.zero_le e⟩) hsorted
  have hwhere : ch ∈ pieces.flatten ∨ ch ∈ pending ++ tail := List.mem_append.mp (hc.text ▸ h)
  suffices hfin : ∃ fragments, c.finish full signature = some fragments ∧ ∃ f ∈ fragments, ch ∈ f by
    obtain ⟨fragments, hfin, f, hf, hmem⟩ := hfin
    refine ⟨fragments, ?_, f, hf, hmem⟩
    rw [splitAtEnds_eq hrun hfin, if_neg (List.ne_nil_of_mem hf)]
  rcases hc.finish with ⟨hrest, hfin⟩ | ⟨-, ⟨ps, p, rfl, -, hfin⟩ | ⟨-, hfin⟩⟩
  · refine ⟨_, hfin, ?_⟩
    rw [hc.fragments]
    rcases hwhere with hmem | hmem
    · exact mem_map_prefixSig hmem
    · rw [trim_eq_nil_iff.mp hrest ch hmem] at hch
      cases hch
  · refine ⟨_, hfin, ?_⟩
    rw [List.flatten_append, List.flatten_singleton] at hwhere
    by_cases hps : ch ∈ ps.flatten
    · obtain ⟨f, hf, hmem⟩ := mem_map_prefixSig hps
      exact ⟨f, List.mem_append_left _ hf, hmem⟩
    · have hlast : ch ∈ p ++ (pending ++ tail) := by
        rcases hwhere with hmem | hmem
        · exact List.mem_append_left _ ((List.mem_append.mp hmem).resolve_left hps)
        · exact List.mem_append_right _ hmem
      exact ⟨_, List.mem_append_right _ (List.mem_singleton_self _), mem_merged hlast hch⟩
  · refine ⟨_, hfin, ?_⟩
    rw [hc.fragments]
    rcases hwhere with hmem | hmem
    · obtain ⟨f, hf, hmem⟩ := mem_map_prefixSig hmem
      exact ⟨f, List.mem_append_left _ hf, hmem⟩
    · exact ⟨_, List.mem_append_right _ (List.mem_singleton_self _), mem_prefixSig hmem⟩

end

/-! ## The chunks of a container -/

section
variable {blake3 : List UInt8 → ContentHash} {relPath : String} {chunks : List FragmentChunk}

theorem fragments_of_chunksOfHit
    (h : chunksOfHit blake3 relPath language ts tree ordered hit = some (some chunks)) :
    ∃ body signature, bodyOfHit source ordered hit = some body ∧
      firstSignatureLine source hit.nodeRange = some signature ∧
      splitIfOversize ts language tree hit body signature = some (chunks.map (·.body.toList)) := by
  obtain ⟨body, hbody, h⟩ := Option.bind_eq_some_iff.mp h
  split at h
  · cases h
  · obtain ⟨signature, hsignature, h⟩ := Option.bind_eq_some_iff.mp h
    obtain ⟨fragments, hfragments, h⟩ := Option.bind_eq_some_iff.mp h
    obtain rfl := Option.some.inj (Option.some.inj h)
    refine ⟨body, signature, hbody, hsignature, ?_⟩
    rw [hfragments]
    exact congrArg some (List.ext_getElem (by simp) (by simp))

theorem madeOf_of_leavesMembersOut (h : LeavesMembersOut ts language tree ordered hit)
    (hsignature : firstSignatureLine source hit.nodeRange = some signature)
    {fragments : List Text} (hsplit : splitIfOversize ts language tree hit
      (outsideMembers source ordered hit) signature = some fragments) :
    ∀ f ∈ fragments, ∀ l, '\n' ∉ l → l <:+: f → l <:+: outsideMembers source ordered hit := by
  by_cases hlong : oversizeCharThreshold < (outsideMembers source ordered hit).length
  · obtain ⟨hends, hsig⟩ := h.split.resolve_left (Nat.not_le_of_lt hlong)
    rw [splitIfOversize_eq hlong, if_pos hends] at hsplit
    obtain rfl := Option.some.inj hsplit
    intro f hf l hl hin
    rcases madeOf_hardSplit f hf l hl hin with hin | hin
    · exact hin.trans (hsig signature hsignature)
    · exact hin
  · unfold splitIfOversize at hsplit
    rw [if_pos (Nat.le_of_not_lt hlong)] at hsplit
    obtain rfl := Option.some.inj hsplit
    intro f hf l _ hin
    rwa [List.mem_singleton.mp hf] at hin

/-- The chunks of a container exclude its members if the chunker leaves these out. If it takes them
in again, then the chunks do not. -/
theorem excludesMembers_of_leavesOut (hhits : collectSymbols ts language tree = some hits)
    (hhit : hit ∈ orderWithContainers hits) (hkind : hit.isContainer = true)
    (hchunks : chunksOfHit blake3 relPath language ts tree (orderWithContainers hits) hit =
      some (some chunks)) :
    (LeavesMembersOut ts language tree (orderWithContainers hits) hit →
      ExcludesMembers source (orderWithContainers hits) hit chunks) ∧
    (TakesMembersIn ts language tree (orderWithContainers hits) hit →
      ¬ExcludesMembers source (orderWithContainers hits) hit chunks) := by
  have hsound : ∀ h ∈ orderWithContainers hits, SymbolHit.Sound source h :=
    fun _ => sound_of_ordered hhits
  obtain ⟨body, signature, hbody, hsignature, hsplit⟩ := fragments_of_chunksOfHit hchunks
  constructor
  · intro h
    rw [bodyOfHit_eq_outside hsound hhit hkind h.documented] at hbody
    obtain rfl := Option.some.inj hbody
    intro chunk hchunk m _ body _ _ x _ hx l hl
    exact madeOf_of_leavesMembersOut h hsignature hsplit _ (List.mem_map_of_mem hchunk) l
      (lineFeed_not_mem_lines hl) ((infix_of_mem_lines hl).trans hx)
  · intro h hexcludes
    rw [bodyOfHit_eq_outside hsound hhit hkind h.documented] at hbody
    obtain rfl := Option.some.inj hbody
    obtain ⟨m, hm, body, hbody, c, hc, hsolid, hout⟩ := h.own
    have hown := hsound hit hhit
    obtain ⟨full, hfull⟩ := Option.isSome_iff_exists.mp hown.isSome_slice?
    -- The character is in the text that is cut, so that it is in a fragment.
    have hmem : c ∈ full := by
      have hcontains := h.documented m hm
      simp only [rangeContains, Bool.and_eq_true, decide_eq_true_iff] at hcontains
      rw [← keepAt_of_slice? hfull]
      refine keepAt_subset (fun b hb => ?_)
        (bodyOfHit_subset hsound (mem_membersOf.mp hm).1 hbody hc)
      obtain ⟨hstart, hstop⟩ := of_decide_eq_true hb
      exact decide_eq_true
        ⟨Nat.le_trans hcontains.1.1 hstart, Nat.lt_of_lt_of_le hstop hcontains.1.2⟩
    rw [splitIfOversize_eq h.long, if_neg h.ends, hfull, Option.bind_some] at hsplit
    obtain ⟨fragments, hfragments, f, hf, hcf⟩ := @mem_splitAtEnds (outsideMembers source _ hit)
      signature full _ c (fun e he => mem_symbolEnds hown hfull he) pairwise_symbolEnds hmem hsolid
    rw [hsplit] at hfragments
    obtain rfl := Option.some.inj hfragments
    obtain ⟨chunk, hchunk, rfl⟩ := List.mem_map.mp hf
    have hblank : trim body ≠ [] := fun hnil => by
      rw [trim_eq_nil_iff.mp hnil c hc] at hsolid
      cases hsolid
    have hline : [c] ∈ lines [c] := by
      have hne : c ≠ '\n' := by
        rintro rfl
        cases hsolid
      rw [lines, splitInclusive_of_not_mem (by simpa using Ne.symm hne),
        if_neg (List.cons_ne_nil _ _), List.map_singleton,
          chomp_of_not_mem (by simpa using Ne.symm hne)]
      exact List.mem_singleton_self _
    have hin :=
      hexcludes chunk hchunk m hm body hbody hblank [c] ((List.singleton_infix_iff _ _).mpr hc)
      ((List.singleton_infix_iff _ _).mpr hcf) [c] hline
    exact hout ((List.singleton_infix_iff _ _).mp hin)

end

/-! ## A method behind a long constant -/

/-- An implementation with a constant of `n` characters and a method. -/
def implSource (n : Nat) : Text :=
  "impl T \x7b\n    const S: &str = \"".toList ++ List.replicate n '0' ++
    "\";\n    fn f() \x7b let x = 7; \x7d\n\x7d".toList

def implRoot (n : Nat) : SyntaxNode :=
  .plain "source_file" 0 (60 + n) [.plain "impl_item" 0 (60 + n) [.plain "type_identifier" 5 6 [],
    .plain "declaration_list" 7 (60 + n) [.plain "const_item" 13 (32 + n) [],
      .plain "function_item" (37 + n) (58 + n) [.plain "identifier" (40 + n) (41 + n) [],
        .plain "block" (44 + n) (58 + n) [.plain "let_declaration" (46 + n) (56 + n) []]]]]]

def implCaptures : List (List CapturePath) :=
  [[⟨"def", [0], []⟩, ⟨"name", [0, 0], []⟩],
    [⟨"def", [0, 1, 1], [[0, 1, 0]]⟩, ⟨"name", [0, 1, 1, 0], []⟩]]

def shortTree : SyntaxTree (implSource 10) where
  root := implRoot 10
  spans := SyntaxNode.forall_within_iff.mpr (by decide +kernel)

def longTree : SyntaxTree (implSource 2100) where
  root := implRoot 2100
  spans := SyntaxNode.forall_within_iff.mpr (by decide +kernel)

def implHit (n : Nat) : SymbolHit where
  kind := "impl"
  name := ['T']
  range := ⟨0, 60 + n⟩
  nodeRange := ⟨0, 60 + n⟩
  startLine := 1
  endLine := 4
  docFirstLine := none
  isContainer := true

def methodHit (n : Nat) : SymbolHit where
  kind := "function"
  name := "T::f".toList
  range := ⟨37 + n, 58 + n⟩
  nodeRange := ⟨37 + n, 58 + n⟩
  startLine := 3
  endLine := 3
  docFirstLine := none
  isContainer := false

theorem excludesMembers_short : ∃ chunks,
    chunksOfHit (fun _ => ⟨0⟩) "t.rs" .rust (shortTree.parser implCaptures) shortTree
      (orderWithContainers [implHit 10, methodHit 10]) (implHit 10) = some (some chunks) ∧
    ExcludesMembers (implSource 10) (orderWithContainers [implHit 10, methodHit 10]) (implHit 10)
      chunks := by
  have hhits : collectSymbols (shortTree.parser implCaptures) .rust shortTree =
    some [implHit 10, methodHit 10] := by decide +kernel
  have hhit : implHit 10 ∈ orderWithContainers [implHit 10, methodHit 10] :=
    mem_orderWithContainers.mpr List.mem_cons_self
  have hsome : (chunksOfHit (fun _ => ⟨0⟩) "t.rs" .rust (shortTree.parser implCaptures) shortTree
      (orderWithContainers [implHit 10, methodHit 10]) (implHit 10)).join.isSome = true := by
    decide +kernel
  obtain ⟨chunks, hchunks⟩ := Option.isSome_iff_exists.mp hsome
  have hchunks := Option.join_eq_some_iff.mp hchunks
  refine ⟨chunks, hchunks, (excludesMembers_of_leavesOut hhits hhit rfl hchunks).1 ⟨?_, .inl ?_⟩⟩
  · decide +kernel
  · decide +kernel

/-- The constant makes the rest of the implementation too long, and the first fragment ends with the
statement of the method. -/
theorem not_excludesMembers_long : ∃ chunks,
    collectSymbols (longTree.parser implCaptures) .rust longTree =
      some [implHit 2100, methodHit 2100] ∧
    chunksOfHit (fun _ => ⟨0⟩) "t.rs" .rust (longTree.parser implCaptures) longTree
      (orderWithContainers [implHit 2100, methodHit 2100]) (implHit 2100) = some (some chunks) ∧
    ¬ExcludesMembers (implSource 2100) (orderWithContainers [implHit 2100, methodHit 2100])
      (implHit 2100) chunks := by
  have hsome : (chunksOfHit (fun _ => ⟨0⟩) "t.rs" .rust (longTree.parser implCaptures) longTree
      (orderWithContainers [implHit 2100, methodHit 2100]) (implHit 2100)).join.isSome = true := by
    decide +kernel
  obtain ⟨chunks, hchunks⟩ := Option.isSome_iff_exists.mp hsome
  have hchunks := Option.join_eq_some_iff.mp hchunks
  refine ⟨chunks, by decide +kernel, hchunks, fun h => ?_⟩
  obtain ⟨body, signature, hbody, hsignature, hsplit⟩ := fragments_of_chunksOfHit hchunks
  have hbody' : bodyOfHit (implSource 2100) (orderWithContainers [implHit 2100, methodHit 2100])
      (implHit 2100) = some (outsideMembers (implSource 2100)
        (orderWithContainers [implHit 2100, methodHit 2100]) (implHit 2100)) := by decide +kernel
  have hsignature' : firstSignatureLine (implSource 2100) (implHit 2100).nodeRange =
    some "impl T \x7b".toList := by decide +kernel
  rw [hbody'] at hbody
  rw [hsignature'] at hsignature
  obtain rfl := Option.some.inj hbody
  obtain rfl := Option.some.inj hsignature
  have hfragments : splitIfOversize (longTree.parser implCaptures) .rust longTree (implHit 2100)
      (outsideMembers (implSource 2100) (orderWithContainers [implHit 2100, methodHit 2100])
        (implHit 2100)) "impl T \x7b".toList =
    some [(implSource 2100).take 2156, "impl T \x7b\n \x7d\n\x7d".toList] := by decide +kernel
  rw [hsplit, Option.some_inj] at hfragments
  have hmem : (implSource 2100).take 2156 ∈ chunks.map (·.body.toList) := by
    rw [hfragments]
    exact List.mem_cons_self
  obtain ⟨chunk, hchunk, heq⟩ := List.mem_map.mp hmem
  have hx : "let x = 7;".toList <:+: chunk.body.toList := by
    rw [heq]
    exact ⟨(implSource 2100).take 2146, [], by decide +kernel⟩
  have hmethod : bodyOfHit (implSource 2100) (orderWithContainers [implHit 2100, methodHit 2100])
    (methodHit 2100) = some "fn f() \x7b let x = 7; \x7d".toList := by decide +kernel
  have hline := h chunk hchunk (methodHit 2100) (by decide +kernel) _ hmethod (by decide)
    "let x = 7;".toList (by decide) hx "let x = 7;".toList (by decide)
  rw [← isSome_rfind?_iff] at hline
  revert hline
  decide +kernel

end SiftMcp
