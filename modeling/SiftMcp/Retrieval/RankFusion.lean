import SiftMcp.Retrieval.Fusion
import Mathlib.Algebra.Order.Field.Rat
import Mathlib.Tactic.Linarith
import Mathlib.Tactic.FieldSimp
import Mathlib.Tactic.Positivity

/-!
# Rank fusion in exact arithmetic

What `fuse` returns when its scores are rational numbers, and how a row that both lists have fares
against one that only one of them has. Ranks are numbers here, as they are for all lists of less
than `2 ^ 32` rows.

* `fuse_exact`: the scores, the entries and their order.
* `agreement_dominates`: from which rank on agreement counts for more.
-/

namespace SiftMcp

/-- Exact scores under a damping constant. -/
def exactScores (rrfK : ℚ) : Scoring ℚ where
  zero := 0
  add := (· + ·)
  reciprocal rank := 1 / (rrfK + rank)
  le a b := decide (a ≤ b)

/-! ## The places of a row -/

section

variable {σ : Type} {rows lexical dense : List (ScoredRow σ)} {row : RowId} {c : Contribution σ}

/-- What a list contributes to a row: its rank and score there, or nothing if it does not have the
row. -/
inductive Contributes (rows : List (ScoredRow σ)) (row : RowId) : Contribution σ → Prop
  | place (i : Nat) (score : σ) : rows[i]? = some ⟨row, score⟩ →
    Contributes rows row ⟨some (i + 1), some score⟩
  | absent : row ∉ rows.map (·.row) → Contributes rows row ⟨none, none⟩

theorem filter_zipIdx_absent (k : Nat) (h : row ∉ rows.map (·.row)) :
    (rows.zipIdx k).filter (·.1.row = row) = [] := by
  apply filter_row_nil
  intro hmem
  obtain ⟨q, hq, rfl⟩ := List.mem_map.mp hmem
  exact h (List.mem_map.mpr ⟨q.1, List.fst_mem_of_mem_zipIdx hq, rfl⟩)

/-- A list without repetitions has one place for each of its rows. -/
theorem filter_zipIdx_row (hrows : (rows.map (·.row)).Nodup) (k : Nat)
    (h : row ∈ rows.map (·.row)) : ∃ i score, rows[i]? = some ⟨row, score⟩ ∧
      (rows.zipIdx k).filter (·.1.row = row) = [(⟨row, score⟩, k + i)] := by
  induction rows generalizing k with
  | nil => cases h
  | cons r rest ih =>
    obtain ⟨r, score⟩ := r
    rw [List.map_cons, List.nodup_cons] at hrows
    rw [List.zipIdx_cons, List.filter_cons]
    by_cases hr : r = row
    · subst hr
      refine ⟨0, score, rfl, ?_⟩
      rw [if_pos (decide_eq_true rfl), filter_zipIdx_absent (k + 1) hrows.1]
      rfl
    · rw [List.map_cons, List.mem_cons] at h
      obtain ⟨i, score', hi, heq⟩ := ih hrows.2 (k + 1) (h.resolve_left (Ne.symm hr))
      refine ⟨i + 1, score', hi, ?_⟩
      rw [if_neg (mt of_decide_eq_true hr), heq, Nat.add_right_comm, Nat.add_assoc]

theorem contribution_zipIdx (hrows : (rows.map (·.row)).Nodup) :
    Contributes rows row (contribution rows.zipIdx row) ∧
      ranks rows.zipIdx row = (contribution rows.zipIdx row).rank.toList := by
  by_cases h : row ∈ rows.map (·.row)
  · obtain ⟨i, score, hi, heq⟩ := filter_zipIdx_row hrows 0 h
    rw [Nat.zero_add] at heq
    rw [contribution, ranks, heq]
    exact ⟨.place i score hi, rfl⟩
  · rw [contribution, ranks, filter_zipIdx_absent 0 h]
    exact ⟨.absent h, rfl⟩

theorem Contributes.rank_isSome (h : Contributes rows row c) :
    c.rank.isSome ↔ row ∈ rows.map (·.row) := by
  cases h with
  | place i score hi => exact iff_of_true rfl (List.mem_map.mpr ⟨_, List.mem_of_getElem? hi, rfl⟩)
  | absent hrow => exact iff_of_false Bool.noConfusion hrow

end

/-! ## The ranking -/

section

variable {k : ℚ} {config : FusionConfig} {lexical dense : List (ScoredRow ℚ)} {x y : FusedRow ℚ}
  {rows : List (ScoredRow ℚ)} {row : RowId} {c : Contribution ℚ}

/-- What a contribution adds to a score. -/
def Contribution.share (k : ℚ) (c : Contribution ℚ) : ℚ :=
  match c.rank with
  | some rank => 1 / (k + rank)
  | none => 0

theorem exactScores_total {c c' : Contribution ℚ} :
    (exactScores k).total (c.rank.toList ++ c'.rank.toList) = c.share k + c'.share k := by
  unfold Contribution.share
  cases c.rank <;> cases c'.rank <;> simp [Scoring.total, exactScores]

theorem exactScores_lawful (hk : 0 ≤ k) : (exactScores k).Lawful where
  total a b := by
    show (decide (a ≤ b) || decide (b ≤ a)) = true
    rw [← Bool.decide_or]
    exact decide_eq_true (le_total a b)
  trans a b c hab hbc := decide_eq_true ((of_decide_eq_true hab).trans (of_decide_eq_true hbc))
  grows ns n := by
    rw [Fuses.total_concat]
    have hrank : (0 : ℚ) ≤ 1 / (k + n) := by positivity
    exact decide_eq_true (le_add_of_nonneg_right hrank)
  first n := by
    have hless : 1 / (k + (n + 2 : ℕ)) < 1 / (k + (1 : ℕ)) := by
      apply one_div_lt_one_div_of_lt
      · positivity
      · push_cast
        linarith [(Nat.cast_nonneg n : (0 : ℚ) ≤ n)]
    intro h
    have hle := of_decide_eq_true h
    simp only [Scoring.total, exactScores, List.foldl_cons, List.foldl_nil, zero_add] at hle
    exact absurd hle (not_le.mpr hless)

/-- A fused row is one of both lists, with what they contribute and the sum of that as its score. -/
structure IsFused (k : ℚ) (lexical dense : List (ScoredRow ℚ)) (x : FusedRow ℚ) : Prop where
  lexical : Contributes lexical x.row x.lexical
  dense : Contributes dense x.row x.dense
  score : x.fusedScore = x.lexical.share k + x.dense.share k

theorem isFused_of_mem (hl : ((lexical.take config.lexicalDepth).map (·.row)).Nodup)
    (hd : ((dense.take config.denseDepth).map (·.row)).Nodup)
    (hx : x ∈ fuse (exactScores k) config lexical dense) :
    IsFused k (lexical.take config.lexicalDepth) (dense.take config.denseDepth) x := by
  obtain ⟨hlexical, hlranks⟩ := @contribution_zipIdx _ _ x.row hl
  obtain ⟨hdense, hdranks⟩ := @contribution_zipIdx _ _ x.row hd
  have heq := (mem_fuse.mp hx).2
  rw [heq]
  refine ⟨hlexical, hdense, ?_⟩
  rw [fusedRow, FusionConfig.lexicalPlaces, FusionConfig.densePlaces, hlranks, hdranks]
  exact exactScores_total

theorem mem_rows_fuse : row ∈ (fuse (exactScores k) config lexical dense).map (·.row) ↔
    row ∈ (lexical.take config.lexicalDepth).map (·.row) ∨
      row ∈ (dense.take config.denseDepth).map (·.row) := by
  rw [List.mem_map, ← places_rows, ← places_rows, ← List.mem_append, ← List.map_append]
  constructor
  · intro h
    obtain ⟨x, hx, rfl⟩ := h
    exact (mem_fuse.mp hx).1
  · intro h
    exact ⟨fusedRow _ _ _ row, mem_fuse.mpr ⟨h, rfl⟩, rfl⟩

/-- Greater scores come first, and then lower rows. -/
def FusedRow.Precedes (x y : FusedRow ℚ) : Prop :=
  y.fusedScore < x.fusedScore ∨ x.fusedScore = y.fusedScore ∧ x.row < y.row

theorem FusedRow.precedes_of_before (h : x.before (exactScores k) y) (hne : x.row ≠ y.row) :
    x.Precedes y := by
  rcases before_iff.mp h with h | ⟨h, hrow⟩
  · exact .inl (not_le.mp fun hle => h (decide_eq_true hle))
  · rcases (of_decide_eq_true h : y.fusedScore ≤ x.fusedScore).lt_or_eq with hlt | heq
    · exact .inl hlt
    · exact .inr ⟨heq.symm, lt_of_le_of_ne hrow hne⟩

theorem pairwise_precedes (hk : 0 ≤ k) :
    (fuse (exactScores k) config lexical dense).Pairwise FusedRow.Precedes := by
  have hrows := List.pairwise_map.mp (@nodup_fuse _ (exactScores k) config lexical dense)
  exact ((pairwise_fuse (exactScores_lawful hk)).and hrows).imp fun h =>
    FusedRow.precedes_of_before h.1 h.2

theorem nodup_take (n : Nat) (h : (rows.map (·.row)).Nodup) : ((rows.take n).map (·.row)).Nodup :=
  h.sublist ((List.take_sublist n rows).map _)

/-- Fusing lists without repetitions returns each of their rows once, as far as the lists are looked
at, with what they contribute, and in order. -/
theorem fuse_exact (hk : 0 ≤ k) (hl : (lexical.map (·.row)).Nodup) (hd : (dense.map (·.row)).Nodup)
    (config : FusionConfig) :
    ((fuse (exactScores k) config lexical dense).map (·.row)).Nodup ∧
    (∀ row, row ∈ (fuse (exactScores k) config lexical dense).map (·.row) ↔
      row ∈ (lexical.take config.lexicalDepth).map (·.row) ∨
        row ∈ (dense.take config.denseDepth).map (·.row)) ∧
    (∀ x ∈ fuse (exactScores k) config lexical dense,
      IsFused k (lexical.take config.lexicalDepth) (dense.take config.denseDepth) x) ∧
    (fuse (exactScores k) config lexical dense).Pairwise FusedRow.Precedes :=
  ⟨nodup_fuse, fun _ => mem_rows_fuse, fun _ hx =>
    isFused_of_mem (nodup_take _ hl) (nodup_take _ hd) hx, pairwise_precedes hk⟩

theorem fuse_exact_overlap :
    (fuse (exactScores 60) ⟨2, 1⟩ [⟨3, 9⟩, ⟨1, 8⟩] [⟨1, 7⟩, ⟨2, 6⟩]).Pairwise FusedRow.Precedes :=
  (fuse_exact (by norm_num) (by decide) (by decide) ⟨2, 1⟩).2.2.2

/-! ## Rows of both lists -/

/-- Both lists have contributed to the row. -/
def FusedRow.Agreed (x : FusedRow ℚ) : Prop := x.lexical.rank.isSome ∧ x.dense.rank.isSome

theorem Contributes.share_le (hk : 0 ≤ k) (h : Contributes rows row c) :
    c.share k ≤ 1 / (k + 1) := by
  cases h with
  | place i score _ =>
    apply one_div_le_one_div_of_le
    · positivity
    · push_cast
      linarith [(Nat.cast_nonneg i : (0 : ℚ) ≤ i)]
  | absent _ =>
    show (0 : ℚ) ≤ _
    positivity

/-- Within a depth, a contribution is worth more than half the greatest there can be. -/
theorem Contributes.lt_share {depth : Nat} (hk : 0 ≤ k) (h : Contributes (rows.take depth) row c)
    (hc : c.rank.isSome) (hdepth : depth < k + 2) : 1 / (k + 1) < 2 * c.share k := by
  cases h with
  | absent _ => cases hc
  | place i score hi =>
    have hrank : i + 1 ≤ depth := by
      obtain ⟨hlt, -⟩ := List.getElem?_eq_some_iff.mp hi
      exact hlt.trans_le (List.length_take_le depth rows)
    have hcast : ((i + 1 : ℕ) : ℚ) < k + 2 := lt_of_le_of_lt (Nat.cast_le.mpr hrank) hdepth
    show 1 / (k + 1) < 2 * (1 / (k + (i + 1 : ℕ)))
    have hpos : 0 < k + ((i + 1 : ℕ) : ℚ) := by positivity
    rw [mul_one_div, div_lt_div_iff₀ (by positivity) hpos]
    linarith

/-- A row of both lists has the greater score. -/
theorem IsFused.score_lt (hk : 0 ≤ k) (hldepth : config.lexicalDepth < k + 2)
    (hddepth : config.denseDepth < k + 2)
    (hx : IsFused k (lexical.take config.lexicalDepth) (dense.take config.denseDepth) x)
    (hy : IsFused k (lexical.take config.lexicalDepth) (dense.take config.denseDepth) y)
    (hboth : x.Agreed) (hone : ¬y.Agreed) : y.fusedScore < x.fusedScore := by
  have hl := hx.lexical.lt_share hk hboth.1 hldepth
  have hd := hx.dense.lt_share hk hboth.2 hddepth
  have hle : y.fusedScore ≤ 1 / (k + 1) := by
    rw [hy.score]
    rcases not_and_or.mp hone with hnone | hnone
    · have hzero : y.lexical.share k = 0 := by
        rw [Contribution.share, Option.not_isSome_iff_eq_none.mp hnone]
      rw [hzero, zero_add]
      exact hy.dense.share_le hk
    · have hzero : y.dense.share k = 0 := by
        rw [Contribution.share, Option.not_isSome_iff_eq_none.mp hnone]
      rw [hzero, add_zero]
      exact hy.lexical.share_le hk
  rw [hx.score]
  linarith

/-- Every row that both lists have within their depths comes before every row that only one of them
has. -/
theorem agreement_dominates (hk : 0 ≤ k) (hl : (lexical.map (·.row)).Nodup)
    (hd : (dense.map (·.row)).Nodup)
    (hdepth : (max config.lexicalDepth config.denseDepth : ℕ) < k + 2) {i j : Nat}
    (hi : (fuse (exactScores k) config lexical dense)[i]? = some x)
    (hj : (fuse (exactScores k) config lexical dense)[j]? = some y)
    (hboth : x.row ∈ (lexical.take config.lexicalDepth).map (·.row) ∧
      x.row ∈ (dense.take config.denseDepth).map (·.row))
    (hone : ¬(y.row ∈ (lexical.take config.lexicalDepth).map (·.row) ∧
      y.row ∈ (dense.take config.denseDepth).map (·.row))) : i < j := by
  have hx := isFused_of_mem (nodup_take _ hl) (nodup_take _ hd) (List.mem_of_getElem? hi)
  have hy := isFused_of_mem (nodup_take _ hl) (nodup_take _ hd) (List.mem_of_getElem? hj)
  rw [← hx.lexical.rank_isSome, ← hx.dense.rank_isSome] at hboth
  rw [← hy.lexical.rank_isSome, ← hy.dense.rank_isSome] at hone
  have hlt : y.fusedScore < x.fusedScore := by
    refine IsFused.score_lt hk (lt_of_le_of_lt ?_ hdepth) (lt_of_le_of_lt ?_ hdepth) hx hy
      hboth hone
    · exact Nat.cast_le.mpr (le_max_left _ _)
    · exact Nat.cast_le.mpr (le_max_right _ _)
  by_contra hge
  rcases (not_lt.mp hge).lt_or_eq with hji | rfl
  · -- The one that comes first has no lower score.
    have hprec : y.Precedes x := by
      obtain ⟨hi', rfl⟩ := List.getElem?_eq_some_iff.mp hi
      obtain ⟨hj', rfl⟩ := List.getElem?_eq_some_iff.mp hj
      exact List.pairwise_iff_getElem.mp (pairwise_precedes hk) j i hj' hi' hji
    rcases hprec with h | h
    · exact lt_asymm h hlt
    · exact absurd h.1 hlt.ne
  · obtain rfl := Option.some.inj (hi.symm.trans hj)
    exact lt_irrefl _ hlt

end

theorem agreement_dominates_overlap : ∃ i j : Nat, i < j ∧
    ((fuse (exactScores 60) ⟨2, 2⟩ [⟨3, 9⟩, ⟨1, 8⟩] [⟨1, 7⟩, ⟨2, 6⟩])[i]?).map (·.row) = some 1 ∧
    ((fuse (exactScores 60) ⟨2, 2⟩ [⟨3, 9⟩, ⟨1, 8⟩] [⟨1, 7⟩, ⟨2, 6⟩])[j]?).map (·.row) =
      some 3 := by
  have hmem : ∀ row ∈ [3, 1], ∃ i : Nat, ∃ x,
      (fuse (exactScores 60) ⟨2, 2⟩ [⟨3, 9⟩, ⟨1, 8⟩] [⟨1, 7⟩, ⟨2, 6⟩])[i]? = some x ∧
        x.row = row := by
    intro row hrow
    obtain ⟨x, hx, rfl⟩ := List.mem_map.mp (mem_rows_fuse.mpr (.inl hrow) :
      row ∈ (fuse (exactScores 60) ⟨2, 2⟩ [⟨3, 9⟩, ⟨1, 8⟩] [⟨1, 7⟩, ⟨2, 6⟩]).map (·.row))
    obtain ⟨i, hi⟩ := List.getElem?_of_mem hx
    exact ⟨i, x, hi, rfl⟩
  obtain ⟨i, x, hi, hx⟩ := hmem 1 (by decide)
  obtain ⟨j, y, hj, hy⟩ := hmem 3 (by decide)
  refine ⟨i, j, ?_, by rw [hi, ← hx]; rfl, by rw [hj, ← hy]; rfl⟩
  refine agreement_dominates (by norm_num) (by decide) (by decide) (by norm_num) hi hj ?_ ?_
  · rw [hx]
    decide
  · rw [hy]
    decide

end SiftMcp
