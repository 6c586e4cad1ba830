import SiftMcp.Lib.Least
import SiftMcp.Retrieval.Dense
import SiftMcp.Retrieval.Fusion

/-!
# Searching the dense index

`DenseIndex::search` on the CPU, and the search it is tested against. The scores are of any linear
order, with the operations of `f32` on them, and the allocator is a parameter like them.

The main result is `selectScores_sorts`: the heap selects what sorting all live rows and cutting off
does, exactly when it can be made and the live scores are finite.
-/

namespace SiftMcp
open Least

/-! ## Scored rows -/

section order

variable {σ : Type} [LinearOrder σ] {a b c : ScoredRow σ}

/-- `Candidate` has the fields of a scored row. -/
abbrev Candidate (σ : Type) := ScoredRow σ

/-- `Ord for Candidate`, by which the results are sorted as well. -/
def Candidate.cmp (self other : Candidate σ) : Ordering :=
  (compare other.score self.score).then (compare self.row other.row)

instance : LE (ScoredRow σ) := ⟨fun a b => Candidate.cmp a b ≠ .gt⟩

instance : LT (ScoredRow σ) := ⟨fun a b => Candidate.cmp a b = .lt⟩

instance : DecidableLE (ScoredRow σ) :=
  fun a b => inferInstanceAs (Decidable (Candidate.cmp a b ≠ .gt))

instance : DecidableLT (ScoredRow σ) :=
  fun a b => inferInstanceAs (Decidable (Candidate.cmp a b = .lt))

namespace ScoredRow

theorem le_iff : a ≤ b ↔ b.score < a.score ∨ a.score = b.score ∧ a.row ≤ b.row := by
  show (compare b.score a.score).then (compare a.row b.row) ≠ .gt ↔ _
  rcases lt_trichotomy a.score b.score with h | h | h
  · rw [compare_gt_iff_gt.mpr h]
    simp [Ordering.then, h.ne, h.not_gt]
  · rw [compare_eq_iff_eq.mpr h.symm, Ordering.eq_then, ne_eq, compare_gt_iff_gt, not_lt]
    simp [h]
  · rw [compare_lt_iff_lt.mpr h]
    simp [Ordering.then, h]

theorem lt_iff : a < b ↔ b.score < a.score ∨ a.score = b.score ∧ a.row < b.row := by
  show (compare b.score a.score).then (compare a.row b.row) = .lt ↔ _
  rcases lt_trichotomy a.score b.score with h | h | h
  · rw [compare_gt_iff_gt.mpr h]
    simp [Ordering.then, h.ne, h.not_gt]
  · rw [compare_eq_iff_eq.mpr h.symm, Ordering.eq_then, compare_lt_iff_lt]
    simp [h]
  · rw [compare_lt_iff_lt.mpr h]
    simp [Ordering.then, h]

instance : LinearOrder (ScoredRow σ) where
  le_refl a := le_iff.mpr (.inr ⟨rfl, le_refl _⟩)
  le_trans a b c hab hbc := by
    rw [le_iff] at *
    rcases hab with hab | ⟨hab, hab'⟩
    · rcases hbc with hbc | ⟨hbc, -⟩
      · exact .inl (hbc.trans hab)
      · exact .inl (hbc ▸ hab)
    · rcases hbc with hbc | ⟨hbc, hbc'⟩
      · exact .inl (hab ▸ hbc)
      · exact .inr ⟨hab.trans hbc, hab'.trans hbc'⟩
  le_antisymm a b hab hba := by
    rw [le_iff] at *
    rcases hab with hab | ⟨hscore, hab⟩
    · rcases hba with hba | ⟨hba, -⟩
      · exact absurd hba hab.not_gt
      · exact absurd hba hab.ne
    · rcases hba with hba | ⟨-, hba⟩
      · exact absurd hscore hba.ne
      · obtain ⟨row, score⟩ := a
        obtain rfl : score = b.score := hscore
        obtain rfl : row = b.row := le_antisymm hab hba
        rfl
  le_total a b := by
    rw [le_iff, le_iff]
    rcases lt_trichotomy a.score b.score with h | h | h
    · exact .inr (.inl h)
    · exact (le_total a.row b.row).imp (fun hrow => .inr ⟨h, hrow⟩) fun hrow => .inr ⟨h.symm, hrow⟩
    · exact .inl (.inl h)
  lt_iff_le_not_ge a b := by
    rw [lt_iff, le_iff, le_iff]
    rcases lt_trichotomy a.score b.score with h | h | h
    · simp [h, h.ne, h.not_gt]
    · simp only [h, lt_irrefl, true_and, false_or, not_le]
      exact ⟨fun hlt => ⟨hlt.le, hlt⟩, And.right⟩
    · exact iff_of_true (.inl h) ⟨.inl h, fun hba => hba.elim h.not_gt fun hba => h.ne hba.1⟩
  toDecidableLE := inferInstance
  toDecidableLT := inferInstance

theorem mergeSort_eq {l : List (ScoredRow σ)} :
    l.mergeSort (fun left right => (Candidate.cmp left right).isLE) = l.insertionSort (· ≤ ·) := by
  rw [← List.mergeSort_eq_insertionSort]
  congr 1
  funext left right
  rw [Bool.eq_iff_iff, Ordering.isLE_iff_ne_gt, decide_eq_true_iff]
  rfl

end ScoredRow

end order

/-! ## Selecting -/

/-- What a search runs on: the operations of `f32`, with the value that a sum starts from, and
whether the allocator grants so many bytes. -/
structure DenseMachine (σ : Type) where
  toF32 : F16 → σ
  zero : σ
  add : σ → σ → σ
  mul : σ → σ → σ
  isFinite : σ → Bool
  allocates : Nat → Bool

namespace DenseMachine

variable {σ : Type} (F : DenseMachine σ)

def sum (l : List σ) : σ := l.foldl F.add F.zero

end DenseMachine

def LiveMask.isLive (live : LiveMask) (row : RowId) : Bool := live[row]?.getD false

/-- Whole chunks of a slice, without what is left over. -/
def chunksExact {α : Type} (n : Nat) (l : List α) : List (List α) :=
  (List.range (l.length / n)).map fun i => (l.drop (i * n)).take n

/-- The bytes of a candidate. -/
def candidateSize : Nat := 16

/-- A vector has at most `isize::MAX` bytes. -/
def isizeMax : Nat := 2 ^ 63 - 1

/-- `limit.saturating_add(1)`. -/
def heapCapacity (limit : Nat) : Nat := min (limit + 1) (2 ^ 64 - 1)

/-- `BinaryHeap::with_capacity`. -/
def withCapacity {σ : Type} (F : DenseMachine σ) (capacity : Nat) :
    Except DenseFailure (Heap (ScoredRow σ)) :=
  if isizeMax < capacity * candidateSize then .error (.panic "capacity overflow")
  else if F.allocates (capacity * candidateSize) = false then
    .error (.abort (capacity * candidateSize))
  else .ok []

/-- A heap for one candidate more than the limit can be made. -/
def DenseMachine.HasRoom {σ : Type} (F : DenseMachine σ) (k : Nat) : Prop :=
  (k + 1) * candidateSize ≤ isizeMax ∧ F.allocates ((k + 1) * candidateSize) = true

theorem withCapacity_eq_iff {σ : Type} {F : DenseMachine σ} {k : Nat} {heap : Heap (ScoredRow σ)} :
    withCapacity F (heapCapacity k) = .ok heap ↔ F.HasRoom k ∧ [] = heap := by
  have hsize : isizeMax < heapCapacity k * candidateSize ↔ isizeMax < (k + 1) * candidateSize := by
    unfold isizeMax heapCapacity candidateSize
    omega
  rw [withCapacity, DenseMachine.HasRoom]
  split
  · next h => exact iff_of_false (fun h => by cases h) fun hr => (hsize.mp h).not_ge hr.1.1
  · next h =>
    have hcapacity : heapCapacity k = k + 1 := by
      rw [hsize] at h
      unfold isizeMax candidateSize at h
      unfold heapCapacity
      omega
    rw [hsize, not_lt] at h
    rw [hcapacity]
    split
    · next hrefused =>
      refine iff_of_false (fun h => by cases h) fun hr => ?_
      exact Bool.noConfusion (hrefused.symm.trans hr.1.2)
    · next hgranted =>
      rw [Bool.not_eq_false] at hgranted
      exact ⟨fun h' => ⟨⟨h, hgranted⟩, Except.ok.inj h'⟩, fun h' => congrArg _ h'.2⟩

section

variable {σ : Type} [LinearOrder σ] (F : DenseMachine σ)

/-- One turn of the loop of `select_scores`. -/
def selectScore (live : LiveMask) (limit : Nat) (top : Heap (Candidate σ)) (p : σ × Nat) :
    Except DenseFailure (Heap (Candidate σ)) :=
  let row : RowId := p.2
  if live.isLive row = false then .ok top
  else if F.isFinite p.1 = false then
    .error (.error s!"dense index error: non-finite score for row {row}")
  else .ok (offer limit top ⟨row, p.1⟩)

/-- The order of the results. -/
def sortRows (rows : List (ScoredRow σ)) : List (ScoredRow σ) :=
  rows.mergeSort fun left right => (Candidate.cmp left right).isLE

def selectScores (live : LiveMask) (scores : List σ) (limit : Nat) :
    Except DenseFailure (List (ScoredRow σ)) := do
  let top ← withCapacity F (heapCapacity limit)
  let top ← scores.zipIdx.foldlM (selectScore F live limit) top
  return sortRows top

namespace DenseIndex

/-- The scores of all rows, dead ones as well. -/
def scores (d : DenseIndex) (query : List F16) : List σ :=
  (chunksExact d.dims d.matrix).map fun vector =>
    F.sum ((vector.zip query).map fun p => F.mul (F.toF32 p.1) (F.toF32 p.2))

def searchCpu (d : DenseIndex) (query : List F16) (limit : Nat) :
    Except DenseFailure (List (ScoredRow σ)) :=
  if d.dims = 0 then .error (.panic "chunk size must be non-zero")
  else selectScores F d.live (d.scores F query) limit

def search (d : DenseIndex) (query : List F16) (modelId : String) (limit : Nat) :
    Except DenseFailure (List (ScoredRow σ)) :=
  if query.length ≠ d.dims then
    .error (.error s!"embedding dimension mismatch: expected {d.dims}, got {query.length}")
  else if modelId ≠ d.modelId then
    .error (.error s!"model identity mismatch: expected {d.modelId}, got {modelId}")
  else if limit = 0 then .ok []
  else d.searchCpu F query limit

end DenseIndex

/-- `live.is_live(row).then(..)`. -/
def liveRow (live : LiveMask) (p : σ × Nat) : Option (ScoredRow σ) :=
  if live.isLive p.2 then some ⟨p.2, p.1⟩ else none

/-- The live rows of `reference_search`, with their scores. -/
def referenceRows (live : LiveMask) (scores : List σ) : List (ScoredRow σ) :=
  scores.zipIdx.filterMap (liveRow live)

def referenceSearch (matrix : List σ) (live : LiveMask) (dims : Nat) (query : List σ)
    (limit : Nat) : Except DenseFailure (List (ScoredRow σ)) :=
  if dims = 0 then .error (.panic "dims must be positive")
  else if query.length ≠ dims then .error (.panic "query width must match dims")
  else if matrix.length % dims ≠ 0 then .error (.panic "matrix must contain whole rows")
  else if matrix.length / dims ≠ live.length then
    .error (.panic "assertion `left == right` failed")
  else
    let scores := (chunksExact dims matrix).map fun vector =>
      F.sum ((vector.zip query).map fun p => F.mul p.1 p.2)
    .ok ((sortRows (referenceRows live scores)).take limit)

/-! ## What the heap has selected -/

variable {F} {live : LiveMask} {limit k : Nat} {top rows : List (ScoredRow σ)} {r : ScoredRow σ}
  {scores : List σ} {p : σ × Nat} {ps : List (σ × Nat)}

/-- All rows have a score that can be ranked. -/
def AllFinite (F : DenseMachine σ) (rows : List (ScoredRow σ)) : Prop :=
  ∀ r ∈ rows, F.isFinite r.score

theorem selectScore_dead (h : liveRow live p = none) :
    selectScore F live limit top p = .ok top := by
  unfold liveRow at h
  split at h
  · cases h
  · next hdead => exact if_pos (Bool.not_eq_true _ ▸ hdead)

theorem selectScore_live (h : liveRow live p = some r) : selectScore F live limit top p =
    if F.isFinite r.score then .ok (offer limit top r)
    else .error (.error s!"dense index error: non-finite score for row {p.2}") := by
  unfold liveRow at h
  split at h
  · next hlive =>
    obtain rfl := Option.some.inj h
    rw [selectScore, if_neg (by rw [hlive]; exact Bool.noConfusion)]
    cases F.isFinite p.1 <;> rfl
  · cases h

/-- The loop offers every live row. -/
theorem foldlM_selectScore : ps.foldlM (selectScore F live limit) top = .ok rows ↔
    AllFinite F (ps.filterMap (liveRow live)) ∧
      (ps.filterMap (liveRow live)).foldl (offer limit) top = rows := by
  induction ps generalizing top with
  | nil =>
    exact ⟨fun h => ⟨fun r hr => absurd hr List.not_mem_nil, Except.ok.inj h⟩, fun h =>
      congrArg _ h.2⟩
  | cons p ps ih =>
    rw [List.foldlM_cons]
    cases hp : liveRow live p with
    | none =>
      rw [selectScore_dead hp, List.filterMap_cons_none hp]
      exact ih
    | some r =>
      rw [selectScore_live hp, List.filterMap_cons_some hp, AllFinite, List.forall_mem_cons]
      split
      · next hfinite =>
        rw [List.foldl_cons, and_assoc, and_iff_right hfinite]
        exact ih
      · next hfinite => exact iff_of_false (fun h => by cases h) fun h => hfinite h.1.1

/-- Sorting what the heap has gives the best rows in order. -/
theorem sortRows_foldl_offer : sortRows (rows.foldl (offer k) []) = (sortRows rows).take k := by
  have hempty : ([] : List (ScoredRow σ)).Perm (least k []) := .of_eq List.take_nil.symm
  have hperm : (rows.foldl (offer k) []).Perm (least k rows) := foldl_offer_perm hempty
  rw [sortRows, sortRows, ScoredRow.mergeSort_eq, ScoredRow.mergeSort_eq, insertionSort_perm hperm]
  exact pairwise_least.insertionSort_eq

theorem selectScores_eq_iff : selectScores F live scores k = .ok rows ↔
    F.HasRoom k ∧ AllFinite F (referenceRows live scores) ∧
      (sortRows (referenceRows live scores)).take k = rows := by
  rw [selectScores]
  cases hheap : withCapacity F (heapCapacity k) with
  | error e =>
    refine iff_of_false (fun h => by cases h) fun hr => ?_
    cases hheap.symm.trans (withCapacity_eq_iff.mpr ⟨hr.1, rfl⟩)
  | ok heap =>
    obtain ⟨hroom, rfl⟩ := withCapacity_eq_iff.mp hheap
    rw [and_iff_right hroom, ← sortRows_foldl_offer]
    show (scores.zipIdx.foldlM (selectScore F live k) [] >>= fun top => .ok (sortRows top)) =
      .ok rows ↔ _
    cases htop : scores.zipIdx.foldlM (selectScore F live k) [] with
    | error e =>
      refine iff_of_false (fun h => by cases h) fun hfinite => ?_
      cases htop.symm.trans (foldlM_selectScore.mpr ⟨hfinite.1, rfl⟩)
    | ok top =>
      obtain ⟨hfinite, rfl⟩ := foldlM_selectScore.mp htop
      rw [and_iff_right (show AllFinite F (referenceRows live scores) from hfinite)]
      exact ⟨Except.ok.inj, congrArg _⟩

/-! ## Against the reference -/

/-- The rows by score, best first, and then by number. -/
structure Ranks (rows ranked : List (ScoredRow σ)) : Prop where
  perm : ranked.Perm rows
  ordered : ranked.Pairwise fun a b => b.score < a.score ∨ a.score = b.score ∧ a.row ≤ b.row

theorem ranks_sortRows : Ranks rows (sortRows rows) where
  perm := List.mergeSort_perm _ _
  ordered := by
    rw [sortRows, ScoredRow.mergeSort_eq]
    exact (List.pairwise_insertionSort (· ≤ ·) rows).imp ScoredRow.le_iff.mp

theorem chunksExact_map {α β : Type} {f : α → β} {n : Nat} {l : List α} :
    chunksExact n (l.map f) = (chunksExact n l).map (List.map f) := by
  rw [chunksExact, chunksExact, List.length_map, List.map_map]
  exact List.map_congr_left fun i _ => by rw [Function.comp_apply, List.map_take, List.map_drop]

variable {matrix query : List F16} {n dims : Nat} {modelId : String} {d : DenseIndex}

theorem DenseIndex.prepareSlice_eq_ok (h : prepareSlice matrix n dims modelId live = .ok d) :
    n = live.length ∧ matrix.length = n * dims ∧ d = ⟨matrix, n, dims, modelId, live⟩ := by
  unfold prepareSlice at h
  split at h
  · cases h
  · next hrows =>
    split at h
    · cases h
    · next hlength => exact ⟨not_not.mp hrows, not_not.mp hlength, (Except.ok.inj h).symm⟩

/-- What is prepared passes the assertions of the reference, which has its scores. -/
theorem referenceSearch_prepared (hdims : 0 < dims)
    (hd : DenseIndex.prepareSlice matrix n dims modelId live = .ok d)
    (hquery : query.length = dims) :
    referenceSearch F (matrix.map F.toF32) live dims (query.map F.toF32) k =
      .ok ((sortRows (referenceRows live (d.scores F query))).take k) := by
  obtain ⟨hn, hlength, rfl⟩ := DenseIndex.prepareSlice_eq_ok hd
  have hscores : ((chunksExact dims (matrix.map F.toF32)).map fun vector =>
      F.sum ((vector.zip (query.map F.toF32)).map fun p => F.mul p.1 p.2)) =
      DenseIndex.scores F ⟨matrix, n, dims, modelId, live⟩ query := by
    rw [chunksExact_map, List.map_map, DenseIndex.scores]
    refine List.map_congr_left fun vector _ => ?_
    rw [Function.comp_apply, List.zip_map, List.map_map]
    rfl
  rw [referenceSearch, if_neg hdims.ne', if_neg (by rw [List.length_map]; exact not_not.mpr hquery),
    if_neg, if_neg, hscores]
  · rw [List.length_map, hlength, Nat.mul_div_cancel n hdims]
    exact not_not.mpr hn
  · rw [List.length_map, hlength, Nat.mul_mod_left]
    exact not_not.mpr rfl

theorem DenseIndex.search_prepared (hdims : 0 < dims)
    (hd : prepareSlice matrix n dims modelId live = .ok d) (hquery : query.length = dims) :
    d.search F query modelId k =
      if k = 0 then .ok [] else selectScores F live (d.scores F query) k := by
  obtain ⟨-, -, rfl⟩ := prepareSlice_eq_ok hd
  rw [search, if_neg (not_not.mpr hquery), if_neg (not_not.mpr rfl), searchCpu, if_neg hdims.ne']

/-- Selecting through the heap is sorting and cutting off, and searching is what the reference does,
as long as there is room for the heap and the live rows have finite scores. -/
theorem selectScores_sorts (F : DenseMachine σ) (live : LiveMask) (scores : List σ) (k : Nat) :
    Ranks (referenceRows live scores) (sortRows (referenceRows live scores)) ∧
    (selectScores F live scores k = .ok ((sortRows (referenceRows live scores)).take k) ↔
      F.HasRoom k ∧ AllFinite F (referenceRows live scores)) ∧
    ∀ (matrix query : List F16) (n dims : Nat) (modelId : String) (d : DenseIndex), 0 < dims →
      DenseIndex.prepareSlice matrix n dims modelId live = .ok d → query.length = dims →
      (d.search F query modelId k = referenceSearch F (matrix.map F.toF32) live dims
        (query.map F.toF32) k ↔
        k = 0 ∨ F.HasRoom k ∧ AllFinite F (referenceRows live (d.scores F query))) := by
  have hselect : ∀ scores : List σ,
      (selectScores F live scores k = .ok ((sortRows (referenceRows live scores)).take k) ↔
        F.HasRoom k ∧ AllFinite F (referenceRows live scores)) := by
    intro scores
    rw [selectScores_eq_iff, and_iff_left rfl]
  refine ⟨ranks_sortRows, hselect scores, ?_⟩
  intro matrix query n dims modelId d hdims hd hquery
  rw [referenceSearch_prepared hdims hd hquery, DenseIndex.search_prepared hdims hd hquery]
  split
  · next hk =>
    rw [hk, List.take_zero]
    exact iff_of_true rfl (.inl rfl)
  · next hk => rw [hselect, or_iff_right hk]

end

/-- Exact scores, on a machine with the addresses of forty-seven bits. -/
def wholeScores : DenseMachine Int where
  toF32 x := x.toNat
  zero := 0
  add := (· + ·)
  mul := (· * ·)
  isFinite _ := true
  allocates bytes := bytes < 2 ^ 47

theorem selectScores_sorts_three :
    (DenseIndex.mk [3, 1, 3] 3 1 "m" [true, true, true]).search wholeScores [1] "m" 2 =
      referenceSearch wholeScores [3, 1, 3] [true, true, true] 1 [1] 2 := by
  have hd : DenseIndex.prepareSlice [3, 1, 3] 3 1 "m" [true, true, true] =
      .ok ⟨[3, 1, 3], 3, 1, "m", [true, true, true]⟩ := by decide
  have hfinite : AllFinite wholeScores (referenceRows [true, true, true]
      ((DenseIndex.mk [3, 1, 3] 3 1 "m" [true, true, true]).scores wholeScores [1])) := fun _ _ =>
        rfl
  exact ((selectScores_sorts wholeScores [true, true, true] [] 2).2.2 [3, 1, 3] [1] 3 1 "m" _
    (by decide) hd rfl).mpr (.inr ⟨⟨by decide, by decide⟩, hfinite⟩)

/-- The request for the heap ends the process, or it cannot even be made, though one row is all
there is to select from. -/
theorem selectScores_without_room :
    selectScores wholeScores [true] [1] (2 ^ 58) = .error (.abort (2 ^ 62 + 16)) ∧
    selectScores wholeScores [true] [1] (2 ^ 64 - 1) = .error (.panic "capacity overflow") ∧
    ¬∀ (live : LiveMask) (scores : List Int) (k : Nat), k < 2 ^ 64 →
      selectScores wholeScores live scores k =
        .ok ((sortRows (referenceRows live scores)).take k) := by
  refine ⟨rfl, rfl, fun h => ?_⟩
  cases h [true] [1] (2 ^ 58) (by decide)

end SiftMcp
