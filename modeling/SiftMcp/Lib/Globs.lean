import SiftMcp.Lib.Utf8Text

/-!
# Globs

A glob is made of characters, stars and `**/`. A star stands for any text, separators among it, and
`**/` for any number of names with a separator behind each. What is matched by a glob whose
characters are no separators can be read off the names of a path one by one.

`NameRule.matches_dirs_iff` does so for a rule behind `**/`.
-/

universe u

inductive GlobPiece (α : Type u)
  | char (c : α)
  | star | dirs
deriving DecidableEq

abbrev Glob (α : Type u) := List (GlobPiece α)

namespace Glob

variable {α : Type u} {sep : α} {g : Glob α} {l n p r : List α} {names rest : List (List α)}

def Matches (sep : α) : Glob α → List α → Prop
  | [], p => p = []
  | .char c :: g, p => ∃ r, p = c :: r ∧ Matches sep g r
  | .star :: g, p => ∃ r, r <:+ p ∧ Matches sep g r
  | .dirs :: g, p => Matches sep g p ∨ ∃ r, sep :: r <:+ p ∧ Matches sep g r

/-- The characters of a text. -/
def literal (l : List α) : Glob α := l.map .char

theorem matches_literal_append : Matches sep (literal l ++ g) p ↔ ∃ r, p = l ++ r ∧
    Matches sep g r := by
  induction l generalizing p with
  | nil => exact ⟨fun h => ⟨p, rfl, h⟩, fun ⟨r, hp, h⟩ => hp ▸ h⟩
  | cons c l ih =>
    show (∃ r, p = c :: r ∧ Matches sep (literal l ++ g) r) ↔ _
    simp only [ih, List.cons_append]
    constructor
    · rintro ⟨_, rfl, r, rfl, h⟩
      exact ⟨r, rfl, h⟩
    · rintro ⟨r, rfl, h⟩
      exact ⟨_, rfl, r, rfl, h⟩

theorem matches_literal : Matches sep (literal l) p ↔ p = l := by
  rw [← List.append_nil (literal l), matches_literal_append]
  constructor
  · rintro ⟨r, rfl, rfl⟩
    exact List.append_nil l
  · rintro rfl
    exact ⟨[], (List.append_nil p).symm, rfl⟩

theorem matches_star : Matches sep [.star] p := ⟨[], List.nil_suffix, rfl⟩

theorem matches_begins : Matches sep (literal l ++ [.star]) p ↔ l <+: p := by
  rw [matches_literal_append]
  constructor
  · rintro ⟨r, rfl, -⟩
    exact List.prefix_append l r
  · rintro ⟨r, rfl⟩
    exact ⟨r, rfl, matches_star⟩

theorem matches_ends : Matches sep (.star :: literal l) p ↔ l <:+ p := by
  constructor
  · rintro ⟨r, hr, h⟩
    rwa [matches_literal.mp h] at hr
  · intro h
    exact ⟨l, h, matches_literal.mpr rfl⟩

theorem matches_contains : Matches sep (.star :: (literal l ++ [.star])) p ↔ l <:+: p := by
  constructor
  · rintro ⟨r, hr, h⟩
    exact (matches_begins.mp h).isInfix.trans hr.isInfix
  · rintro ⟨a, b, rfl⟩
    refine ⟨l ++ b, ?_, matches_begins.mpr (List.prefix_append l b)⟩
    rw [List.append_assoc]
    exact List.suffix_append a (l ++ b)

/-! ## Paths -/

/-- Names with separators between them. -/
abbrev path (sep : α) (names : List (List α)) : List α := List.intercalate [sep] names

theorem path_cons (hne : names ≠ []) : path sep (n :: names) = n ++ sep :: path sep names := by
  rw [path, List.intercalate_cons_of_ne_nil hne, List.append_assoc]
  rfl

theorem path_singleton : path sep [n] = n := List.intercalate_singleton

/-- What follows a separator does not begin in a name before it. -/
theorem cons_suffix_append_iff (h : sep ∉ n) : sep :: r <:+ n ++ p ↔ sep :: r <:+ p := by
  induction n with
  | nil => rfl
  | cons c n ih =>
    obtain ⟨hc, hn⟩ := not_or.mp (mt List.mem_cons.mpr h)
    rw [List.cons_append, List.suffix_cons_iff, ih hn]
    refine ⟨fun h => h.resolve_left fun heq => hc (List.cons.inj heq).1, .inr⟩

theorem not_cons_suffix (h : sep ∉ n) : ¬sep :: r <:+ n := by
  intro hr
  exact h (hr.subset List.mem_cons_self)

/-- `**/` before a glob stands for the names before any name of a path. -/
theorem matches_dirs (h : ∀ n ∈ names, sep ∉ n) (hne : names ≠ []) :
    Matches sep (.dirs :: g) (path sep names) ↔
      ∃ rest, rest <:+ names ∧ rest ≠ [] ∧ Matches sep g (path sep rest) := by
  show (Matches sep g (path sep names) ∨ ∃ r, sep :: r <:+ path sep names ∧ Matches sep g r) ↔ _
  induction names with
  | nil => exact absurd rfl hne
  | cons n names ih =>
    obtain ⟨hn, hnames⟩ := List.forall_mem_cons.mp h
    by_cases hnil : names = []
    · subst hnil
      rw [path_singleton]
      constructor
      · rintro (hg | ⟨r, hr, -⟩)
        · exact ⟨[n], List.suffix_rfl, List.cons_ne_nil n [], by rwa [path_singleton]⟩
        · exact absurd hr (not_cons_suffix hn)
      · rintro ⟨rest, hrest, hne, hg⟩
        rcases List.suffix_cons_iff.mp hrest with rfl | hrest
        · exact .inl (by rwa [path_singleton] at hg)
        · exact absurd (List.suffix_nil.mp hrest) hne
    · have ih := ih hnames hnil
      -- A separator in the path is the one behind the first name, or one of the rest.
      have hstep : ∀ r, sep :: r <:+ path sep (n :: names) ↔
          r = path sep names ∨ sep :: r <:+ path sep names := fun r => by
        rw [path_cons hnil, cons_suffix_append_iff hn, List.suffix_cons_iff, List.cons.injEq]
        simp only [true_and]
      constructor
      · rintro (hg | ⟨r, hr, hg⟩)
        · exact ⟨n :: names, List.suffix_rfl, hne, hg⟩
        · have hbelow : Matches sep g (path sep names) ∨
              ∃ r, sep :: r <:+ path sep names ∧ Matches sep g r := by
            rcases (hstep r).mp hr with rfl | hr
            · exact .inl hg
            · exact .inr ⟨r, hr, hg⟩
          obtain ⟨rest, hrest, hrest'⟩ := ih.mp hbelow
          exact ⟨rest, hrest.trans (List.suffix_cons n names), hrest'⟩
      · rintro ⟨rest, hrest, hrest'⟩
        rcases List.suffix_cons_iff.mp hrest with rfl | hrest
        · exact .inl hrest'.2
        · rcases ih.mpr ⟨rest, hrest, hrest'⟩ with hg | ⟨r, hr, hg⟩
          · exact .inr ⟨_, (hstep _).mpr (.inl rfl), hg⟩
          · exact .inr ⟨r, (hstep r).mpr (.inr hr), hg⟩

/-! ## Names that are matched -/

theorem path_eq_iff [BEq α] [LawfulBEq α] (hl : sep ∉ l) (h : ∀ n ∈ names, sep ∉ n)
    (hne : names ≠ []) : path sep names = l ↔ names = [l] := by
  constructor
  · intro heq
    have hsplit := List.splitOn_intercalate sep h hne
    rwa [show List.intercalate [sep] names = l from heq, List.splitOn_eq_singleton hl,
      eq_comm] at hsplit
  · rintro rfl
    exact path_singleton

/-- A text with a separator behind it begins a path as its first name. -/
theorem eq_of_matches_literal_sep [BEq α] [LawfulBEq α] (hl : sep ∉ l)
    (h : ∀ m ∈ n :: names, sep ∉ m)
    (hm : Matches sep (literal l ++ .char sep :: g) (path sep (n :: names))) : n = l := by
  obtain ⟨_, heq, r, rfl, -⟩ := matches_literal_append.mp hm
  have hsplit := List.splitOn_intercalate sep h (List.cons_ne_nil n names)
  rw [show List.intercalate [sep] (n :: names) = l ++ sep :: r from heq,
    List.splitOn_append_cons_self, List.splitOn_eq_singleton hl] at hsplit
  exact (List.cons.inj hsplit).1.symm

theorem prefix_path_iff (hl : sep ∉ l) : l <+: path sep (n :: names) ↔ l <+: n := by
  by_cases hnil : names = []
  · rw [hnil, path_singleton]
  · rw [path_cons hnil]
    constructor
    · rintro ⟨t, heq⟩
      rcases List.append_eq_append_iff.mp heq with ⟨r, rfl, -⟩ | ⟨r, rfl, hr⟩
      · exact List.prefix_append l r
      · cases r with
        | nil => exact ⟨[], by rw [List.append_nil, List.append_nil]⟩
        | cons c r =>
          obtain ⟨rfl, -⟩ := List.cons.inj hr
          exact absurd (List.mem_append_right _ List.mem_cons_self) hl
    · exact fun h => h.trans (List.prefix_append n _)

theorem suffix_path_iff (hl : sep ∉ l) : l <:+ path sep (names ++ [n]) ↔ l <:+ n := by
  induction names with
  | nil => rw [List.nil_append, path_singleton]
  | cons m names ih =>
    rw [List.cons_append, path_cons (List.append_ne_nil_of_right_ne_nil _ (List.cons_ne_nil n [])),
      ← ih]
    constructor
    · rintro ⟨t, heq⟩
      rcases List.append_eq_append_iff.mp heq with ⟨r, -, rfl⟩ | ⟨r, -, hr⟩
      · exact absurd (List.mem_append_right _ List.mem_cons_self) hl
      · rcases List.suffix_cons_iff.mp ⟨r, hr.symm⟩ with rfl | h
        · exact absurd List.mem_cons_self hl
        · exact h
    · exact fun h => List.suffix_append_of_suffix (List.suffix_cons_iff.mpr (.inr h))

theorem infix_path_iff (hl : sep ∉ l) (hne : names ≠ []) :
    l <:+: path sep names ↔ ∃ n ∈ names, l <:+: n := by
  induction names with
  | nil => exact absurd rfl hne
  | cons n names ih =>
    by_cases hnil : names = []
    · rw [hnil, path_singleton]
      simp
    · rw [path_cons hnil, List.exists_mem_cons_iff, ← ih hnil]
      constructor
      · exact Text.infix_of_not_mem hl
      · rintro (h | h)
        · exact h.trans (List.prefix_append n _).isInfix
        · exact h.trans ((List.suffix_cons sep _).trans (List.suffix_append n _)).isInfix

end Glob

/-! ## Rules for names -/

/-- What a glob without separators says of a name. -/
inductive NameRule (α : Type u)
  | is (l : List α)
  | ends (l : List α)
  | begins (l : List α)
  | contains (l : List α)
deriving DecidableEq

namespace NameRule
open Glob

variable {α : Type u} {sep : α} {rule : NameRule α} {n : List α} {names names' : List (List α)}

def text : NameRule α → List α
  | is l | ends l | begins l | contains l => l

def glob : NameRule α → Glob α
  | is l => literal l
  | ends l => .star :: literal l
  | begins l => literal l ++ [.star]
  | contains l => .star :: (literal l ++ [.star])

def Holds : NameRule α → List α → Prop
  | is l, n => n = l
  | ends l, n => l <:+ n
  | begins l, n => l <+: n
  | contains l, n => l <:+: n

instance [DecidableEq α] : Decidable (rule.Holds n) :=
  match rule with
  | is l => inferInstanceAs (Decidable (n = l))
  | ends l => inferInstanceAs (Decidable (l <:+ n))
  | begins l => inferInstanceAs (Decidable (l <+: n))
  | contains l => inferInstanceAs (Decidable (l <:+: n))

/-- A star at the end of a glob goes over the names that follow, so that any name of the path may be
the one that begins so, or contains the text. -/
def Applies : NameRule α → List (List α) → Prop
  | is l, names => ∃ n, names.getLast? = some n ∧ n = l
  | ends l, names => ∃ n, names.getLast? = some n ∧ l <:+ n
  | begins l, names => ∃ n ∈ names, l <+: n
  | contains l, names => ∃ n ∈ names, l <:+: n

theorem Applies.exists_holds (h : rule.Applies names) : ∃ n ∈ names, rule.Holds n := by
  cases rule with
  | is l | ends l =>
    obtain ⟨n, hlast, hn⟩ := h
    exact ⟨n, List.mem_of_getLast? hlast, hn⟩
  | begins l | contains l => exact h

theorem applies_concat (h : rule.Holds n) : rule.Applies (names ++ [n]) := by
  cases rule with
  | is l | ends l => exact ⟨n, List.getLast?_concat, h⟩
  | begins l | contains l => exact ⟨n, List.mem_append_right _ (List.mem_singleton_self n), h⟩

/-- The rule looks at the end of a path. -/
def atEnd : NameRule α → Bool
  | is _ | ends _ => true
  | begins _ | contains _ => false

theorem applies_concat_iff (hend : rule.atEnd = true) :
    rule.Applies (names ++ [n]) ↔ rule.Holds n := by
  constructor
  · intro h
    cases rule with
    | is l | ends l =>
      obtain ⟨m, hlast, hm⟩ := h
      rw [List.getLast?_concat] at hlast
      exact Option.some.inj hlast ▸ hm
    | begins l | contains l => exact Bool.noConfusion hend
  · exact applies_concat

theorem applies_append_iff (hend : rule.atEnd = false) :
    rule.Applies (names ++ names') ↔ rule.Applies names ∨ rule.Applies names' := by
  cases rule with
  | is l | ends l => exact Bool.noConfusion hend
  | begins l | contains l => simp [Applies, or_and_right, exists_or]

/-- What the glob of a rule matches from some name of a path on. -/
theorem matches_dirs_iff [BEq α] [LawfulBEq α] (hl : sep ∉ rule.text) (h : ∀ n ∈ names, sep ∉ n)
    (hne : names ≠ []) : Matches sep (.dirs :: rule.glob) (path sep names) ↔
      rule.Applies names := by
  rw [matches_dirs h hne]
  cases rule with
  | is l =>
    constructor
    · rintro ⟨rest, hrest, hne, hg⟩
      obtain rfl : rest = [l] :=
        (path_eq_iff hl (fun n hn => h n (hrest.subset hn)) hne).mp (matches_literal.mp hg)
      obtain ⟨front, rfl⟩ := hrest
      exact ⟨l, List.getLast?_concat, rfl⟩
    · rintro ⟨_, hlast, rfl⟩
      obtain ⟨front, rfl⟩ := List.getLast?_eq_some_iff.mp hlast
      refine ⟨_, List.suffix_append front _, List.cons_ne_nil _ [],
        matches_literal.mpr path_singleton⟩
  | ends l =>
    constructor
    · rintro ⟨rest, ⟨front, rfl⟩, hne, hg⟩
      obtain ⟨a, n, rfl⟩ := (List.eq_nil_or_concat' rest).resolve_left hne
      refine ⟨n, ?_, (suffix_path_iff hl).mp (matches_ends.mp hg)⟩
      rw [← List.append_assoc, List.getLast?_concat]
    · rintro ⟨n, hlast, hs⟩
      obtain ⟨front, rfl⟩ := List.getLast?_eq_some_iff.mp hlast
      exact ⟨_, List.suffix_rfl, hne, matches_ends.mpr ((suffix_path_iff hl).mpr hs)⟩
  | begins l =>
    constructor
    · rintro ⟨rest, hrest, hne, hg⟩
      obtain ⟨n, rest, rfl⟩ := List.exists_cons_of_ne_nil hne
      exact ⟨n, hrest.subset List.mem_cons_self, (prefix_path_iff hl).mp (matches_begins.mp hg)⟩
    · rintro ⟨n, hn, hpre⟩
      obtain ⟨a, b, rfl⟩ := List.append_of_mem hn
      exact ⟨n :: b, List.suffix_append a _, List.cons_ne_nil n b,
        matches_begins.mpr ((prefix_path_iff hl).mpr hpre)⟩
  | contains l =>
    constructor
    · rintro ⟨rest, hrest, hne, hg⟩
      obtain ⟨n, hn, hin⟩ := (infix_path_iff hl hne).mp (matches_contains.mp hg)
      exact ⟨n, hrest.subset hn, hin⟩
    · intro hin
      exact ⟨names, List.suffix_rfl, hne, matches_contains.mpr ((infix_path_iff hl hne).mpr hin)⟩

end NameRule
