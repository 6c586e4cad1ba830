import SiftMcp.Storage.Record
import Mathlib.Data.List.Induction
import Mathlib.Data.List.Sort

/-!
# Rank fusion

Reciprocal rank fusion over lexical and dense rankings. The scores are of any type with the
operations that fusing asks for.

`fuse_eq` gives the entry of each row by its places in both lists.
-/

namespace SiftMcp

variable {σ : Type}

/-- A row ranked by a score. -/
structure ScoredRow (σ : Type) where
  row : RowId
  score : σ
deriving DecidableEq

/-- Candidates taken from the two retrievers. -/
structure FusionConfig where
  lexicalDepth : Nat
  denseDepth : Nat

/-- The arithmetic of fused scores: `0`, `+`, `1 / (k + rank)`, and the order of `total_cmp`. -/
structure Scoring (σ : Type) where
  zero : σ
  add : σ → σ → σ
  reciprocal : Nat → σ
  le : σ → σ → Bool

/-- One retriever's contribution to a fused row. -/
structure Contribution (σ : Type) where
  /-- 1-based within that retriever's list. -/
  rank : Option Nat
  score : Option σ
deriving DecidableEq

structure FusedRow (σ : Type) where
  row : RowId
  lexical : Contribution σ
  dense : Contribution σ
  fusedScore : σ
deriving DecidableEq

/-- `by_row.entry(row).or_insert(..)`, and what is done to the entry. -/
def entry (S : Scoring σ) (row : RowId) (f : FusedRow σ → FusedRow σ) :
    List (FusedRow σ) → List (FusedRow σ)
  | [] => [f ⟨row, ⟨none, none⟩, ⟨none, none⟩, S.zero⟩]
  | r :: rest => if r.row = row then f r :: rest else r :: entry S row f rest

def fuseLexical (S : Scoring σ) (byRow : List (FusedRow σ)) (p : ScoredRow σ × Nat) :
    List (FusedRow σ) :=
  let rank := p.2 + 1
  entry S p.1.row (fun r => { r with
    lexical := ⟨some rank, some p.1.score⟩, fusedScore := S.add r.fusedScore (S.reciprocal rank) })
      byRow

def fuseDense (S : Scoring σ) (byRow : List (FusedRow σ)) (p : ScoredRow σ × Nat) :
    List (FusedRow σ) :=
  let rank := p.2 + 1
  entry S p.1.row (fun r => { r with
    dense := ⟨some rank, some p.1.score⟩, fusedScore := S.add r.fusedScore (S.reciprocal rank) })
      byRow

/-- By score, best first, and then by row. -/
def FusedRow.before (S : Scoring σ) (left right : FusedRow σ) : Bool :=
  !S.le left.fusedScore right.fusedScore ||
    S.le right.fusedScore left.fusedScore && decide (left.row ≤ right.row)

/-- Fuse lexical and dense candidate lists by reciprocal rank. -/
def fuse (S : Scoring σ) (config : FusionConfig) (lexical dense : List (ScoredRow σ)) :
    List (FusedRow σ) :=
  let byRow := (lexical.take config.lexicalDepth).zipIdx.foldl (fuseLexical S) []
  let byRow := (dense.take config.denseDepth).zipIdx.foldl (fuseDense S) byRow
  byRow.mergeSort (FusedRow.before S)

/-! ## The fused rows -/

/-- The score of a row that stands at `ranks`. -/
def Scoring.total (S : Scoring σ) (ranks : List Nat) : σ :=
  ranks.foldl (fun s rank => S.add s (S.reciprocal rank)) S.zero

/-- The ranks at which a numbered list has a row. -/
def ranks (rows : List (ScoredRow σ × Nat)) (row : RowId) : List Nat :=
  (rows.filter (·.1.row = row)).map (·.2 + 1)

/-- The last of the places that a numbered list has for a row. -/
def contribution (rows : List (ScoredRow σ × Nat)) (row : RowId) : Contribution σ :=
  match (rows.filter (·.1.row = row)).getLast? with
  | some p => ⟨some (p.2 + 1), some p.1.score⟩
  | none => ⟨none, none⟩

def fusedRow (S : Scoring σ) (lexical dense : List (ScoredRow σ × Nat)) (row : RowId) :
    FusedRow σ where
  row
  lexical := contribution lexical row
  dense := contribution dense row
  fusedScore := S.total (ranks lexical row ++ ranks dense row)

section

variable {S : Scoring σ} {ls ds : List (ScoredRow σ × Nat)} {p : ScoredRow σ × Nat} {row : RowId}
  {rows : List RowId}

theorem filter_concat_self :
    (ls ++ [p]).filter (·.1.row = p.1.row) = ls.filter (·.1.row = p.1.row) ++ [p] := by
  rw [List.filter_append, List.filter_singleton, decide_eq_true rfl]
  rfl

theorem filter_concat_ne (h : p.1.row ≠ row) :
    (ls ++ [p]).filter (·.1.row = row) = ls.filter (·.1.row = row) := by
  rw [List.filter_append, List.filter_singleton, decide_eq_false h]
  exact List.append_nil _

theorem filter_row_nil (h : row ∉ ls.map (·.1.row)) : ls.filter (·.1.row = row) = [] := by
  apply List.filter_eq_nil_iff.mpr
  intro q hq heq
  exact h (List.mem_map.mpr ⟨q, hq, of_decide_eq_true heq⟩)

/-- Entering a row in a map that has been filled by a function. -/
theorem entry_map {g : RowId → FusedRow σ} {f : FusedRow σ → FusedRow σ}
    (hg : ∀ row, (g row).row = row)
    (hfresh : row ∉ rows → g row = ⟨row, ⟨none, none⟩, ⟨none, none⟩, S.zero⟩) (hrows : rows.Nodup) :
    entry S row f (rows.map g) = (if row ∈ rows then rows else rows ++ [row]).map
      fun r => if r = row then f (g r) else g r := by
  induction rows with
  | nil =>
    rw [if_neg List.not_mem_nil, List.map_nil, List.nil_append, List.map_singleton, if_pos rfl,
      hfresh List.not_mem_nil]
    rfl
  | cons r rest ih =>
    obtain ⟨hr, hrest⟩ := List.nodup_cons.mp hrows
    rw [List.map_cons, entry, hg]
    by_cases h : r = row
    · subst h
      have hsame : rest.map (fun r' => if r' = r then f (g r') else g r') = rest.map g := by
        refine List.map_congr_left fun r' hr' => if_neg fun heq => ?_
        subst heq
        exact hr hr'
      rw [if_pos rfl, if_pos List.mem_cons_self, List.map_cons, if_pos rfl, hsame]
    · have hmem : row ∈ r :: rest ↔ row ∈ rest := by
        rw [List.mem_cons]
        exact or_iff_right (Ne.symm h)
      rw [if_neg h, ih (fun hrow => hfresh (mt hmem.mp hrow)) hrest]
      simp only [hmem]
      split
      · rw [List.map_cons, if_neg h]
      · rw [List.cons_append, List.map_cons, if_neg h]

/-- The map has the rows of both lists, as `fusedRow` says. -/
def Fuses (S : Scoring σ) (ls ds : List (ScoredRow σ × Nat)) (byRow : List (FusedRow σ)) : Prop :=
  ∃ rows : List RowId, rows.Nodup ∧ (∀ row, row ∈ rows ↔ row ∈ (ls ++ ds).map (·.1.row)) ∧
    byRow = rows.map (fusedRow S ls ds)

namespace Fuses

variable {byRow : List (FusedRow σ)}

theorem fusedRow_fresh (h : row ∉ (ls ++ ds).map (·.1.row)) :
    fusedRow S ls ds row = ⟨row, ⟨none, none⟩, ⟨none, none⟩, S.zero⟩ := by
  rw [List.map_append, List.mem_append, not_or] at h
  unfold fusedRow contribution ranks
  rw [filter_row_nil h.1, filter_row_nil h.2]
  rfl

/-- What an entry does for the next place of one of the lists. -/
theorem entry {ls' ds' : List (ScoredRow σ × Nat)} {f : FusedRow σ → FusedRow σ}
    (h : Fuses S ls ds byRow)
    (hrows : ∀ r, r ∈ (ls' ++ ds').map (·.1.row) ↔ r ∈ (ls ++ ds).map (·.1.row) ∨ r = row)
    (hself : f (fusedRow S ls ds row) = fusedRow S ls' ds' row)
    (hother : ∀ r, r ≠ row → fusedRow S ls ds r = fusedRow S ls' ds' r) :
    Fuses S ls' ds' (SiftMcp.entry S row f byRow) := by
  obtain ⟨rows, hnodup, hmem, rfl⟩ := h
  have hfresh : row ∉ rows → fusedRow S ls ds row = ⟨row, ⟨none, none⟩, ⟨none, none⟩, S.zero⟩ :=
    fun hrow => fusedRow_fresh (mt (hmem row).mpr hrow)
  refine ⟨if row ∈ rows then rows else rows ++ [row], ?_, fun r => ?_, ?_⟩
  · split
    · exact hnodup
    · rename_i hrow
      exact List.nodup_append.mpr ⟨hnodup, List.nodup_singleton _, fun a ha b hb hab =>
        hrow (List.mem_singleton.mp hb ▸ hab ▸ ha)⟩
  · rw [hrows, ← hmem]
    split
    · rename_i hrow
      exact ⟨.inl, fun h => h.elim id fun heq => heq ▸ hrow⟩
    · rw [List.mem_append, List.mem_singleton]
  · rw [entry_map (fun _ => rfl) hfresh hnodup]
    refine List.map_congr_left fun r _ => ?_
    split
    · rename_i heq
      subst heq
      exact hself
    · rename_i hne
      exact hother r hne

theorem contribution_concat :
    contribution (ls ++ [p]) p.1.row = ⟨some (p.2 + 1), some p.1.score⟩ := by
  rw [contribution, filter_concat_self, List.getLast?_concat]

theorem contribution_other (h : row ≠ p.1.row) :
    contribution (ls ++ [p]) row = contribution ls row := by
  rw [contribution, filter_concat_ne (Ne.symm h), contribution]

theorem ranks_concat : ranks (ls ++ [p]) p.1.row = ranks ls p.1.row ++ [p.2 + 1] := by
  rw [ranks, filter_concat_self, List.map_append]
  rfl

theorem ranks_other (h : row ≠ p.1.row) : ranks (ls ++ [p]) row = ranks ls row := by
  rw [ranks, filter_concat_ne (Ne.symm h), ranks]

theorem total_concat {ns : List Nat} {n : Nat} :
    S.total (ns ++ [n]) = S.add (S.total ns) (S.reciprocal n) :=
  List.foldl_concat ..

theorem lexical (h : Fuses S ls [] byRow) : Fuses S (ls ++ [p]) [] (fuseLexical S byRow p) := by
  refine h.entry (fun r => ?_) ?_ fun r hr => ?_
  · rw [List.append_nil, List.append_nil, List.map_append, List.mem_append, List.map_singleton,
      List.mem_singleton]
  · have hnil : ranks ([] : List (ScoredRow σ × Nat)) p.1.row = [] := rfl
    unfold fusedRow
    rw [contribution_concat, ranks_concat, hnil, List.append_nil, List.append_nil, total_concat]
  · unfold fusedRow
    rw [contribution_other hr, ranks_other hr]

theorem dense (h : Fuses S ls ds byRow) : Fuses S ls (ds ++ [p]) (fuseDense S byRow p) := by
  refine h.entry (fun r => ?_) ?_ fun r hr => ?_
  · rw [← List.append_assoc, List.map_append, List.mem_append, List.map_singleton,
      List.mem_singleton]
  · unfold fusedRow
    rw [contribution_concat, ranks_concat, ← List.append_assoc, total_concat]
  · unfold fusedRow
    rw [contribution_other hr, ranks_other hr]

theorem lexicals (h : Fuses S ls [] byRow) (rest : List (ScoredRow σ × Nat)) :
    Fuses S (ls ++ rest) [] (rest.foldl (fuseLexical S) byRow) := by
  induction rest generalizing ls byRow with
  | nil => rwa [List.append_nil]
  | cons p rest ih =>
    have hrest := ih (h.lexical (p := p))
    rwa [List.append_assoc] at hrest

theorem denses (h : Fuses S ls ds byRow) (rest : List (ScoredRow σ × Nat)) :
    Fuses S ls (ds ++ rest) (rest.foldl (fuseDense S) byRow) := by
  induction rest generalizing ds byRow with
  | nil => rwa [List.append_nil]
  | cons p rest ih =>
    have hrest := ih (h.dense (p := p))
    rwa [List.append_assoc] at hrest

end Fuses

/-- The places of the lexical list that are looked at. -/
def FusionConfig.lexicalPlaces (config : FusionConfig) (lexical : List (ScoredRow σ)) :
    List (ScoredRow σ × Nat) :=
  (lexical.take config.lexicalDepth).zipIdx

def FusionConfig.densePlaces (config : FusionConfig) (dense : List (ScoredRow σ)) :
    List (ScoredRow σ × Nat) :=
  (dense.take config.denseDepth).zipIdx

variable {config : FusionConfig} {lexical dense : List (ScoredRow σ)} {x y : FusedRow σ}

/-- The ranking is that of the rows of both lists. -/
theorem fuse_eq : ∃ rows : List RowId, rows.Nodup ∧
    (∀ row, row ∈ rows ↔ row ∈ (config.lexicalPlaces lexical ++ config.densePlaces dense).map
      (·.1.row)) ∧
    fuse S config lexical dense =
      (rows.map (fusedRow S (config.lexicalPlaces lexical) (config.densePlaces dense))).mergeSort
        (FusedRow.before S) := by
  have hempty : Fuses S [] [] [] := ⟨[], .nil, fun _ => Iff.rfl, rfl⟩
  obtain ⟨rows, hnodup, hmem, heq⟩ :=
    (hempty.lexicals (config.lexicalPlaces lexical)).denses (config.densePlaces dense)
  exact ⟨rows, hnodup, hmem, congrArg (List.mergeSort · (FusedRow.before S)) heq⟩

theorem mem_fuse : x ∈ fuse S config lexical dense ↔
    x.row ∈ (config.lexicalPlaces lexical ++ config.densePlaces dense).map (·.1.row) ∧
      x = fusedRow S (config.lexicalPlaces lexical) (config.densePlaces dense) x.row := by
  obtain ⟨rows, -, hmem, heq⟩ := @fuse_eq _ S config lexical dense
  rw [heq, List.mem_mergeSort, List.mem_map]
  constructor
  · intro h
    obtain ⟨row, hrow, rfl⟩ := h
    exact ⟨(hmem row).mp hrow, rfl⟩
  · intro h
    exact ⟨x.row, (hmem _).mpr h.1, h.2.symm⟩

theorem nodup_fuse : ((fuse S config lexical dense).map (·.row)).Nodup := by
  obtain ⟨rows, hnodup, -, heq⟩ := @fuse_eq _ S config lexical dense
  have hrows : (rows.map (fusedRow S (config.lexicalPlaces lexical) (config.densePlaces dense))).map
      (·.row) = rows := by
    rw [List.map_map]
    exact List.map_id rows
  rwa [heq, ((List.mergeSort_perm _ _).map _).nodup_iff, hrows]

/-! ## The first places -/

/-- What holds of the scores in `f32`, for the constant of the default configuration: adding a
reciprocal lowers none, and to be first in a list counts more than to be in another place of it. -/
structure Scoring.Lawful (S : Scoring σ) : Prop where
  total (a b : σ) : S.le a b || S.le b a
  trans (a b c : σ) : S.le a b → S.le b c → S.le a c
  grows (ns : List Nat) (n : Nat) : S.le (S.total ns) (S.total (ns ++ [n]))
  first (n : Nat) : ¬S.le (S.total [1]) (S.total [n + 2])

namespace Scoring.Lawful

variable (hS : S.Lawful)
include hS

theorem le_of_not_le {a b : σ} (h : ¬S.le a b) : S.le b a :=
  ((Bool.or_eq_true _ _).mp (hS.total a b)).resolve_left h

theorem le_total_append {ns ms : List Nat} : S.le (S.total ns) (S.total (ns ++ ms)) := by
  induction ms using List.reverseRecOn with
  | nil =>
    rw [List.append_nil]
    by_contra hne
    exact hne (hS.le_of_not_le hne)
  | append_singleton ms m ih =>
    rw [← List.append_assoc]
    exact hS.trans _ _ _ ih (hS.grows _ _)

end Scoring.Lawful

theorem FusedRow.before_iff : x.before S y ↔
    ¬S.le x.fusedScore y.fusedScore ∨ S.le y.fusedScore x.fusedScore ∧ x.row ≤ y.row := by
  rw [before, Bool.or_eq_true, Bool.not_eq_true', Bool.and_eq_true, decide_eq_true_iff,
    Bool.not_eq_true]

namespace FusedRow

variable (hS : S.Lawful)
include hS

theorem le_of_before (h : x.before S y) : S.le y.fusedScore x.fusedScore := by
  rcases before_iff.mp h with h | h
  · exact hS.le_of_not_le h
  · exact h.1

theorem before_trans {z : FusedRow σ} (hxy : x.before S y) (hyz : y.before S z) : x.before S z := by
  have hle := le_of_before hS hyz
  rw [before_iff] at hxy hyz ⊢
  rcases hxy with hxy | ⟨hyx, hrow⟩
  · exact .inl fun hxz => hxy (hS.trans _ _ _ hxz hle)
  · rcases hyz with hyz | ⟨-, hrow'⟩
    · exact .inl fun hxz => hyz (hS.trans _ _ _ hyx hxz)
    · exact .inr ⟨hS.trans _ _ _ hle hyx, Nat.le_trans hrow hrow'⟩

omit hS in
theorem before_total : x.before S y || y.before S x := by
  rw [Bool.or_eq_true, before_iff, before_iff]
  by_cases hxy : S.le x.fusedScore y.fusedScore
  · by_cases hyx : S.le y.fusedScore x.fusedScore
    · exact (Nat.le_total x.row y.row).imp (fun h => .inr ⟨hyx, h⟩) fun h => .inr ⟨hxy, h⟩
    · exact .inr (.inl hyx)
  · exact .inl (.inl hxy)

end FusedRow

theorem pairwise_fuse (hS : S.Lawful) :
    (fuse S config lexical dense).Pairwise fun x y => x.before S y := by
  refine List.pairwise_mergeSort ?_ ?_ _
  · intro x y z
    exact FusedRow.before_trans hS
  · intro x y
    exact FusedRow.before_total

theorem ranks_cons : ranks (p :: ls) row = if p.1.row = row then (p.2 + 1) :: ranks ls row
    else ranks ls row := by
  unfold ranks
  rw [List.filter_cons]
  split
  · rename_i h
    rw [if_pos (of_decide_eq_true h), List.map_cons]
  · rename_i h
    rw [if_neg (mt decide_eq_true h)]

theorem ranks_nil (h : row ∉ ls.map (·.1.row)) : ranks ls row = [] := by
  rw [ranks, filter_row_nil h, List.map_nil]

/-- A row that a list has once has one rank there. -/
theorem ranks_zipIdx {rows : List (ScoredRow σ)} (hrows : (rows.map (·.row)).Nodup)
    (h : row ∈ rows.map (·.row)) (k : Nat) :
    ∃ n, (rows.map (·.row))[n]? = some row ∧ ranks (rows.zipIdx k) row = [k + n + 1] := by
  induction rows generalizing k with
  | nil => cases h
  | cons r rest ih =>
    rw [List.map_cons, List.nodup_cons] at hrows
    rw [List.zipIdx_cons, ranks_cons]
    by_cases hr : r.row = row
    · have hrest : row ∉ (rest.zipIdx (k + 1)).map (·.1.row) := by
        intro hmem
        obtain ⟨q, hq, heq⟩ := List.mem_map.mp hmem
        apply hrows.1
        rw [hr, ← heq]
        exact List.mem_map_of_mem (List.fst_mem_of_mem_zipIdx hq)
      refine ⟨0, congrArg some hr, ?_⟩
      rw [if_pos hr, ranks_nil hrest]
    · rw [List.map_cons, List.mem_cons] at h
      obtain ⟨n, hn, heq⟩ := ih hrows.2 (h.resolve_left (Ne.symm hr)) (k + 1)
      refine ⟨n + 1, hn, ?_⟩
      rw [if_neg hr, heq, Nat.add_right_comm k 1 n, Nat.add_assoc k n 1]

theorem places_rows {rows : List (ScoredRow σ)} {n : Nat} :
    (rows.take n).zipIdx.map (·.1.row) = (rows.take n).map (·.row) := by
  have h := congrArg (List.map (·.row)) (List.zipIdx_map_fst 0 (rows.take n))
  rwa [List.map_map] at h

/-- No row of the lexical list is looked at. -/
def FusedRow.Unseen (config : FusionConfig) (lexical : List (ScoredRow σ)) (x : FusedRow σ) :
    Prop :=
  x.row ∉ (lexical.take config.lexicalDepth).map (·.row)

/-- A row has a lexical score if it is looked at. -/
theorem FusedRow.unseen_iff (hx : x ∈ fuse S config lexical dense) :
    x.Unseen config lexical ↔ x.lexical.score = none := by
  have hscore : x.lexical.score = (contribution (config.lexicalPlaces lexical) x.row).score :=
    congrArg (·.lexical.score) (mem_fuse.mp hx).2
  rw [hscore, Unseen, ← places_rows, ← FusionConfig.lexicalPlaces, contribution]
  cases hlast : ((config.lexicalPlaces lexical).filter (·.1.row = x.row)).getLast? with
  | none =>
    refine iff_of_true (fun h => ?_) rfl
    obtain ⟨q, hq, hrow⟩ := List.mem_map.mp h
    rw [List.getLast?_eq_none_iff] at hlast
    exact List.filter_eq_nil_iff.mp hlast q hq (decide_eq_true hrow)
  | some q =>
    obtain ⟨hq, hrow⟩ := List.mem_filter.mp (List.mem_of_getLast? hlast)
    refine iff_of_false (fun h => h ?_) nofun
    exact List.mem_map.mpr ⟨q, hq, of_decide_eq_true hrow⟩

/-- A row of the dense list alone that comes before one which is first in a list is first in the
dense list. -/
theorem FusedRow.Unseen.first (hS : S.Lawful)
    (hdense : ((dense.take config.denseDepth).map (·.row)).Nodup)
    (hx : x ∈ fuse S config lexical dense) (hunseen : x.Unseen config lexical)
    (hbefore : x.before S y) (hy : S.le (S.total [1]) y.fusedScore) :
    ((dense.take config.denseDepth).map (·.row))[0]? = some x.row := by
  obtain ⟨hrow, heq⟩ := mem_fuse.mp hx
  have hnot : x.row ∉ (config.lexicalPlaces lexical).map (·.1.row) := by
    rw [FusionConfig.lexicalPlaces, places_rows]
    exact hunseen
  rw [List.map_append, List.mem_append, FusionConfig.densePlaces, places_rows] at hrow
  obtain ⟨n, hn, hranks⟩ := ranks_zipIdx hdense (hrow.resolve_left hnot) 0
  have hscore : x.fusedScore = S.total [n + 1] := by
    rw [heq, fusedRow, ranks_nil hnot, FusionConfig.densePlaces, hranks, Nat.zero_add,
      List.nil_append]
  cases n with
  | zero => exact hn
  | succ n =>
    have hle := hS.trans _ _ _ hy (FusedRow.le_of_before hS hbefore)
    rw [hscore] at hle
    exact absurd hle (hS.first n)

section

variable {l : ScoredRow σ} {rest : List (ScoredRow σ)}

/-- The first of the lexical list is in the ranking, with what it has for that at least. -/
theorem first_lexical (hS : S.Lawful) (hl : lexical.take config.lexicalDepth = l :: rest) :
    ∃ y ∈ fuse S config lexical dense, y.row = l.row ∧ S.le (S.total [1]) y.fusedScore := by
  have hplaces : config.lexicalPlaces lexical = (l, 0) :: rest.zipIdx 1 := by
    rw [FusionConfig.lexicalPlaces, hl]
    rfl
  refine ⟨fusedRow S (config.lexicalPlaces lexical) (config.densePlaces dense) l.row, ?_, rfl, ?_⟩
  · refine mem_fuse.mpr ⟨?_, rfl⟩
    rw [hplaces]
    exact List.mem_cons_self
  · rw [fusedRow, hplaces, ranks_cons, if_pos rfl]
    exact @Scoring.Lawful.le_total_append _ _ hS [1] _

/-- A row of the lexical list is one of the first two. -/
theorem lexical_first_two (hS : S.Lawful)
    (hdense : ((dense.take config.denseDepth).map (·.row)).Nodup)
    (hl : lexical.take config.lexicalDepth = l :: rest) :
    ∃ x ∈ (fuse S config lexical dense).take 2, ¬x.Unseen config lexical := by
  obtain ⟨y, hy, hrow, hscore⟩ := @first_lexical _ S config lexical dense _ _ hS hl
  have hseen : ¬y.Unseen config lexical := by
    rw [FusedRow.Unseen, hl, hrow]
    exact fun h => h List.mem_cons_self
  have hsorted := @pairwise_fuse _ S config lexical dense hS
  have hnodup := @nodup_fuse _ S config lexical dense
  have hfirst : ∀ x ∈ fuse S config lexical dense, x.before S y → x.Unseen config lexical → 
      ((dense.take config.denseDepth).map (·.row))[0]? = some x.row :=
    fun x hx hbefore hunseen => hunseen.first hS hdense hx hbefore hscore
  by_contra hseen₂
  have hnone : ∀ x ∈ (fuse S config lexical dense).take 2, x.Unseen config lexical :=
    fun x hx => by_contra fun h => hseen₂ ⟨x, hx, h⟩
  revert hy hsorted hnodup hfirst hnone
  cases fuse S config lexical dense with
  | nil => exact nofun
  | cons a as =>
    intro hy hsorted hnodup hfirst hnone
    have ha := hnone a List.mem_cons_self
    have hya : y ≠ a := fun h => hseen (h ▸ ha)
    cases as with
    | nil => exact hya (List.mem_singleton.mp hy)
    | cons b bs =>
      have hb := hnone b (List.mem_cons_of_mem _ List.mem_cons_self)
      have hyb : y ≠ b := fun h => hseen (h ▸ hb)
      have hmem := (List.mem_cons.mp ((List.mem_cons.mp hy).resolve_left hya)).resolve_left hyb
      obtain ⟨hall, hrest⟩ := List.pairwise_cons.mp hsorted
      have hfa := hfirst a List.mem_cons_self (hall y (List.mem_cons_of_mem _ hmem)) ha
      have hfb := hfirst b (List.mem_cons_of_mem _ List.mem_cons_self)
        ((List.pairwise_cons.mp hrest).1 y hmem) hb
      apply (List.nodup_cons.mp hnodup).1
      exact List.mem_cons.mpr (.inl (Option.some.inj (hfa.symm.trans hfb)))

/-- Without a lexical list, the best row is the first of the dense list. -/
theorem take_one_fuse_nil (hS : S.Lawful)
    (hdense : ((dense.take config.denseDepth).map (·.row)).Nodup)
    (hfirst : ((dense.take config.denseDepth).map (·.row))[0]? = some row) :
    (fuse S config [] dense).take 1 = [fusedRow S [] (config.densePlaces dense) row] := by
  have hplaces : config.lexicalPlaces ([] : List (ScoredRow σ)) = [] := by
    rw [FusionConfig.lexicalPlaces, List.take_nil]
    rfl
  have hmem : fusedRow S [] (config.densePlaces dense) row ∈ fuse S config [] dense := by
    rw [mem_fuse, hplaces, FusionConfig.densePlaces]
    exact ⟨places_rows ▸ List.mem_of_getElem? hfirst, rfl⟩
  have hscore : S.le (S.total [1]) (fusedRow S [] (config.densePlaces dense) row).fusedScore := by
    cases hd : dense.take config.denseDepth with
    | nil =>
      rw [hd] at hfirst
      cases hfirst
    | cons d ds =>
      have hrow : d.row = row := by
        rw [hd] at hfirst
        exact Option.some.inj hfirst
      rw [fusedRow, FusionConfig.densePlaces, hd, List.zipIdx_cons, ranks_cons, if_pos hrow]
      exact @Scoring.Lawful.le_total_append _ _ hS [1] _
  cases hfuse : fuse S config [] dense with
  | nil =>
    rw [hfuse] at hmem
    cases hmem
  | cons b bs =>
    have hb : b ∈ fuse S config [] dense := hfuse ▸ List.mem_cons_self
    have hbeq := (mem_fuse.mp hb).2
    rw [hplaces] at hbeq
    suffices hrow : row = b.row by
      rw [List.take_succ_cons, List.take_zero, hrow]
      exact congrArg (· :: []) hbeq
    rw [hfuse, List.mem_cons] at hmem
    rcases hmem with hz | hz
    · exact congrArg FusedRow.row hz
    · have hsorted := @pairwise_fuse _ S config [] dense hS
      rw [hfuse] at hsorted
      have hunseen : b.Unseen config [] := by
        rw [FusedRow.Unseen, List.take_nil]
        exact List.not_mem_nil
      have hbfirst := hunseen.first hS hdense hb ((List.pairwise_cons.mp hsorted).1 _ hz) hscore
      exact Option.some.inj (hfirst.symm.trans hbfirst)

/-- The best row does not depend on the lexical list, unless it is a row of that. -/
theorem take_one_fuse (hS : S.Lawful) (hdense : ((dense.take config.denseDepth).map (·.row)).Nodup)
    (hl : lexical.take config.lexicalDepth = l :: rest)
    (h : ∀ x ∈ (fuse S config lexical dense).take 1, x.Unseen config lexical) :
    (fuse S config lexical dense).take 1 = (fuse S config [] dense).take 1 := by
  obtain ⟨y, hy, hrow, hscore⟩ := @first_lexical _ S config lexical dense _ _ hS hl
  have hseen : ¬y.Unseen config lexical := by
    rw [FusedRow.Unseen, hl, hrow]
    exact fun h => h List.mem_cons_self
  cases hfuse : fuse S config lexical dense with
  | nil =>
    rw [hfuse] at hy
    cases hy
  | cons a as =>
    have hmem : a ∈ fuse S config lexical dense := hfuse ▸ List.mem_cons_self
    have ha : a.Unseen config lexical := by
      apply h
      rw [hfuse]
      exact List.mem_cons_self
    have hbefore : a.before S y := by
      have hsorted := @pairwise_fuse _ S config lexical dense hS
      rw [hfuse] at hsorted hy
      exact (List.pairwise_cons.mp hsorted).1 y
        ((List.mem_cons.mp hy).resolve_left fun h => hseen (h ▸ ha))
    have hsame : a = fusedRow S [] (config.densePlaces dense) a.row := by
      have hnot : a.row ∉ (config.lexicalPlaces lexical).map (·.1.row) := by
        rw [FusionConfig.lexicalPlaces, places_rows]
        exact ha
      have heq := (mem_fuse.mp hmem).2
      unfold fusedRow contribution at heq
      rwa [filter_row_nil hnot, ranks_nil hnot] at heq
    rw [take_one_fuse_nil hS hdense (ha.first hS hdense hmem hbefore hscore)]
    exact congrArg (· :: []) hsame

end

end

end SiftMcp
