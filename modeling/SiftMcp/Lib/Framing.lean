import Mathlib.Data.List.Infix
import Mathlib.Data.List.Nodup
import Mathlib.Data.List.Sublists

/-!
# Files behind their names

`feed` puts the files of a directory one after the other, each behind its name and a separator.
Nothing marks where a file ends: one of them may go on with what looks like the later files of
another directory, that is `Spills`. If no name has the separator or ends in another name, then
nothing else is ambiguous.

The main result is `same_iff`: two directories that are fed alike are alike exactly if neither
spills into the other.
-/

universe u v

namespace Framing

variable {ν : Type u} {α : Type v} (spell : ν → List α) (sep : α)

def header (n : ν) : List α := spell n ++ [sep]

def feed (file : ν → Option (List α)) (names : List ν) : List α :=
  names.flatMap fun n => ((file n).map (header spell sep n ++ ·)).getD []

/-- A file of `left` goes on, where the same file of `right` ends, with the header of a later file
of `right`. -/
def Spills (left right : ν → Option (List α)) (names : List ν) : Prop :=
  ∃ n m c d e, [n, m].Sublist names ∧ left n = some c ∧ right n = some d ∧ right m = some e ∧
    d ++ header spell sep m <+: c

structure Spelling (names : List ν) : Prop where
  sep : ∀ n ∈ names, sep ∉ spell n
  suffix : ∀ n ∈ names, ∀ m ∈ names, spell n <:+ spell m → n = m
  nodup : names.Nodup

variable {spell sep} {file left right : ν → Option (List α)} {names : List ν} {n m : ν}
  {a b c x y : List α}

theorem Spelling.tail (h : Spelling spell sep (n :: names)) : Spelling spell sep names where
  sep m hm := h.sep m (List.mem_cons_of_mem _ hm)
  suffix m hm p hp := h.suffix m (List.mem_cons_of_mem _ hm) p (List.mem_cons_of_mem _ hp)
  nodup := h.nodup.of_cons

@[simp] theorem feed_nil : feed spell sep file [] = [] := rfl

theorem feed_cons : feed spell sep file (n :: names) =
    ((file n).map (header spell sep n ++ ·)).getD [] ++ feed spell sep file names :=
      List.flatMap_cons

theorem feed_cons_none (h : file n = none) :
    feed spell sep file (n :: names) = feed spell sep file names := by
  rw [feed_cons, h, Option.map_none, Option.getD_none, List.nil_append]

theorem feed_cons_some (h : file n = some c) : feed spell sep file (n :: names) =
    header spell sep n ++ (c ++ feed spell sep file names) := by
  rw [feed_cons, h, Option.map_some, Option.getD_some, List.append_assoc]

/-- What is fed begins with the first file there is. -/
theorem exists_of_feed_ne_nil (h : feed spell sep file names ≠ []) :
    ∃ n c rest, n ∈ names ∧ file n = some c ∧
      feed spell sep file names = header spell sep n ++ rest := by
  induction names with
  | nil => exact absurd rfl h
  | cons n names ih =>
    cases hn : file n with
    | some c => exact ⟨n, c, _, List.mem_cons_self, hn, feed_cons_some hn⟩
    | none =>
      rw [feed_cons_none hn] at h ⊢
      obtain ⟨m, c, rest, hm, hfile, heq⟩ := ih h
      exact ⟨m, c, rest, List.mem_cons_of_mem _ hm, hfile, heq⟩

/-- Texts without the separator are told apart by what stands before it. -/
theorem eq_of_before_sep (ha : sep ∉ a) (hb : sep ∉ b) (h : a ++ sep :: x = b ++ sep :: y) :
    a = b := by
  induction a generalizing b with
  | nil =>
    cases b with
    | nil => rfl
    | cons t b => exact absurd ((List.cons.inj h).1 ▸ List.mem_cons_self) hb
  | cons s a ih =>
    cases b with
    | nil => exact absurd ((List.cons.inj h).1 ▸ List.mem_cons_self) ha
    | cons t b =>
      obtain ⟨rfl, htail⟩ := List.cons.inj h
      rw [ih (fun hs => ha (List.mem_cons_of_mem _ hs))
        (fun hs => hb (List.mem_cons_of_mem _ hs)) htail]

theorem header_append : header spell sep n ++ x = spell n ++ sep :: x := by
  rw [header, List.append_assoc, List.singleton_append]

/-- Headers are told apart by what they begin. -/
theorem eq_of_header (H : Spelling spell sep names) (hn : n ∈ names) (hm : m ∈ names)
    (h : header spell sep n ++ x = header spell sep m ++ y) : n = m := by
  rw [header_append, header_append] at h
  have hspell := eq_of_before_sep (H.sep n hn) (H.sep m hm) h
  exact H.suffix n hn m hm (hspell ▸ List.suffix_rfl)

/-- What follows a file in one directory and is more than what follows it in the other begins with a
header: the rest of a header is none. -/
theorem spills_of_longer {t d : List α} (H : Spelling spell sep (n :: names))
    (hleft : left n = some (d ++ t)) (hright : right n = some d) (ht : t ≠ [])
    (h : feed spell sep right names = t ++ feed spell sep left names) :
    Spills spell sep left right (n :: names) := by
  obtain ⟨m, e, rest, hm, hfile, hfeed⟩ :=
    exists_of_feed_ne_nil
      (h ▸ List.append_ne_nil_of_left_ne_nil ht _ : feed spell sep right names ≠ [])
  have spill (hheader : header spell sep m <+: t) : Spills spell sep left right (n :: names) :=
    ⟨n, m, d ++ t, d, e, (List.singleton_sublist.mpr hm).cons_cons n, hleft, hright, hfile,
      (List.prefix_append_right_inj d).mpr hheader⟩
  rw [hfeed] at h
  rcases List.append_eq_append_iff.mp h with ⟨s, rfl, -⟩ | ⟨s, hs, hrest⟩
  · exact spill (List.prefix_append _ _)
  rcases List.eq_nil_or_concat s with rfl | ⟨s, z, rfl⟩
  · rw [List.append_nil] at hs
    exact spill (hs ▸ List.prefix_rfl)
  -- The header of `m` ends behind `t`, with the whole name of a file of `left`.
  rw [List.concat_eq_append] at hs hrest
  rw [header, ← List.append_assoc] at hs
  obtain ⟨hspell, hz⟩ := List.append_inj' hs rfl
  obtain rfl := List.singleton_inj.mp hz
  obtain ⟨p, e', rest', hp, -, hfeed'⟩ := exists_of_feed_ne_nil (hrest ▸
    List.append_ne_nil_of_left_ne_nil
      (List.append_ne_nil_of_right_ne_nil _ (List.cons_ne_nil _ _)) _ :
    feed spell sep left names ≠ [])
  rw [hfeed', header_append, List.append_assoc, List.singleton_append] at hrest
  have hsep : sep ∉ s := fun hmem =>
    H.tail.sep m hm (hspell ▸ List.mem_append_right t hmem)
  have hps := eq_of_before_sep (H.tail.sep p hp) hsep hrest
  obtain rfl := H.tail.suffix p hp m hm ⟨t, by rw [hps, hspell]⟩
  rw [hps] at hspell
  exact absurd (List.append_left_eq_self.mp hspell.symm) ht

/-- A file that only one of the directories has shows. -/
theorem feed_ne (H : Spelling spell sep (n :: names)) (hleft : left n = some c)
    (hright : right n = none) :
    feed spell sep left (n :: names) ≠ feed spell sep right (n :: names) := by
  rw [feed_cons_some hleft, feed_cons_none hright]
  intro h
  have hne : feed spell sep right names ≠ [] := by
    rw [← h, header_append]
    exact List.append_ne_nil_of_right_ne_nil _ (List.cons_ne_nil _ _)
  obtain ⟨m, e, rest, hm, -, hfeed⟩ := exists_of_feed_ne_nil hne
  rw [hfeed] at h
  obtain rfl := eq_of_header H List.mem_cons_self (List.mem_cons_of_mem _ hm) h
  exact (List.nodup_cons.mp H.nodup).1 hm

theorem Spills.cons (h : Spills spell sep left right names) :
    Spills spell sep left right (n :: names) := by
  obtain ⟨p, m, c, d, e, hsub, hrest⟩ := h
  exact ⟨p, m, c, d, e, hsub.cons n, hrest⟩

/-- The same is fed of the same files, or a file of the one spills into those of the other. -/
theorem same_or_spills (H : Spelling spell sep names)
    (h : feed spell sep left names = feed spell sep right names) :
    (∀ n ∈ names, left n = right n) ∨ Spills spell sep left right names ∨
      Spills spell sep right left names := by
  induction names with
  | nil => exact .inl fun n hn => absurd hn List.not_mem_nil
  | cons n names ih =>
    have step (hn : left n = right n) (h : feed spell sep left names = feed spell sep right names) :
        (∀ m ∈ n :: names, left m = right m) ∨ Spills spell sep left right (n :: names) ∨
          Spills spell sep right left (n :: names) := by
      rcases ih H.tail h with hsame | hspill | hspill
      · exact .inl (List.forall_mem_cons.mpr ⟨hn, hsame⟩)
      · exact .inr (.inl hspill.cons)
      · exact .inr (.inr hspill.cons)
    cases hleft : left n with
    | none =>
      cases hright : right n with
      | none =>
        rw [feed_cons_none hleft, feed_cons_none hright] at h
        exact step (hleft.trans hright.symm) h
      | some d => exact absurd h.symm (feed_ne H hright hleft)
    | some c =>
      cases hright : right n with
      | none => exact absurd h (feed_ne H hleft hright)
      | some d =>
        rw [feed_cons_some hleft, feed_cons_some hright] at h
        rcases List.append_eq_append_iff.mp (List.append_cancel_left h) with ⟨t, rfl, ht⟩ |
          ⟨t, rfl, ht⟩
        · rcases eq_or_ne t [] with rfl | hne
          · rw [List.append_nil] at hright
            exact step (hleft.trans hright.symm) ht
          · exact .inr (.inr (spills_of_longer H hright hleft hne ht))
        · rcases eq_or_ne t [] with rfl | hne
          · rw [List.append_nil] at hleft
            exact step (hleft.trans hright.symm) ht.symm
          · exact .inr (.inl (spills_of_longer H hleft hright hne ht))

theorem not_spills_of_same (h : ∀ n ∈ names, left n = right n) :
    ¬ Spills spell sep left right names := by
  rintro ⟨n, m, c, d, e, hsub, hleft, hright, -, hheader⟩
  have hcd : c = d := Option.some_inj.mp
    (hleft.symm.trans ((h n (hsub.subset List.mem_cons_self)).trans hright))
  have hlength := hheader.length_le
  rw [hcd, header, List.length_append, List.length_append, List.length_singleton] at hlength
  omega

/-- Of two directories that are fed alike, the files are the same if and only if none spills into
the other. -/
theorem same_iff (H : Spelling spell sep names)
    (h : feed spell sep left names = feed spell sep right names) : (∀ n ∈ names, left n = right n) ↔
      ¬ Spills spell sep left right names ∧ ¬ Spills spell sep right left names := by
  constructor
  · intro hsame
    exact ⟨not_spills_of_same hsame, not_spills_of_same fun n hn => (hsame n hn).symm⟩
  · rintro ⟨hleft, hright⟩
    exact (same_or_spills H h).resolve_right (not_or.mpr ⟨hleft, hright⟩)

end Framing
