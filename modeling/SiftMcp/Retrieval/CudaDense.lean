import SiftMcp.Inference.DenseScorer
import SiftMcp.Retrieval.Nearest

/-!
# The dense index on the device

`DenseIndex` over the backend of CUDA, beside the one of the CPU. The scores come from the device,
and everything else is alike. As long as the device has the matrix, it has the one that an index on
the CPU would have.

* `CudaRun.search_best`: the index finds what one on the CPU finds.
* `CudaRun.refresh_failed`: what a failed refresh leaves of it.
-/

namespace SiftMcp
open Durable Prog
open Inference (CudaDenseScorer Device f16Bytes asI32)

/-- `RetrievalError::Inference` -/
def DenseFailure.ofInfer (e : Inference.InferError) : DenseFailure :=
  .error s!"inference error: {e.display}"

structure CudaDenseIndex where
  scorer : CudaDenseScorer
  rows : Nat
  dims : Nat
  modelId : String
  live : LiveMask
  uploadedBytes : Nat

namespace CudaDenseIndex

variable {σ : Type} [LinearOrder σ] (D : Device σ) (F : DenseMachine σ)

def prepareSlice (matrix : List F16) (rows dims : Nat) (modelId : String) (live : LiveMask) :
    Except DenseFailure CudaDenseIndex :=
  if rows ≠ live.length then
    .error (.error s!"dense index error: live mask has {live.length} rows but matrix has {rows}")
  else if matrix.length ≠ rows * dims then
    .error (.error (s!"dense index error: matrix has {matrix.length} values but shape " ++
      s!"{rows}x{dims} requires {rows * dims}"))
  else do
    let scorer ← (CudaDenseScorer.new D).mapError .ofInfer
    let out := CudaDenseScorer.prepare D matrix rows dims scorer
    out.result.mapError .ofInfer
    return ⟨out.state, rows, dims, modelId, live, out.state.uploadedBytes⟩

def search (c : CudaDenseIndex) (query : List F16) (modelId : String) (limit : Nat) :
    Except DenseFailure (List (ScoredRow σ)) :=
  if query.length ≠ c.dims then
    .error (.error s!"embedding dimension mismatch: expected {c.dims}, got {query.length}")
  else if modelId ≠ c.modelId then
    .error (.error s!"model identity mismatch: expected {c.modelId}, got {modelId}")
  else if limit = 0 then .ok []
  else do
    let scores ← (c.scorer.scoreAll D query).mapError .ofInfer
    selectScores F c.live scores limit

def refresh (m : EmbeddingMatrix) (live : LiveMask) :
    Prog CudaDenseIndex DenseFailure Empty Unit := do
  let c ← .get
  if m.dims ≠ c.dims then
    .fail (.error s!"embedding dimension mismatch: expected {c.dims}, got {m.dims}")
  else if m.modelId ≠ c.modelId then
    .fail (.error s!"model identity mismatch: expected {c.modelId}, got {m.modelId}")
  else if m.rows ≠ live.length then
    .fail (.error s!"dense index error: live mask has {live.length} rows but matrix has {m.rows}")
  else if m.rows < c.rows then
    .fail (.error (s!"dense index error: matrix row count decreased from {c.rows} to {m.rows}; " ++
      "prepare a new index after compaction"))
  else
    let slice ← .ofExcept m.asSlice
    if slice.length < c.rows * c.dims then .fail (.panic "range start index out of range")
    else
      let appended := slice.drop (c.rows * c.dims)
      .focus scorer (fun scorer c => { c with scorer }) .ofInfer id
        (CudaDenseScorer.append D appended)
      .modify fun c => { c with
        uploadedBytes := c.uploadedBytes + appended.length * f16Bytes
        rows := m.rows
        live }

end CudaDenseIndex

/-! ## Beside an index on the CPU -/

/-- The index is the one on the CPU, but for the matrix, which the device has or has lost. -/
structure CudaDenseIndex.Mirrors (c : CudaDenseIndex) (d : DenseIndex) : Prop where
  scorer : c.scorer.Mirrors d.matrix d.dims
  scorerRows : c.scorer.rows = d.rows
  rows : c.rows = d.rows
  dims : c.dims = d.dims
  modelId : c.modelId = d.modelId
  live : c.live = d.live
  uploaded : c.uploadedBytes = c.scorer.residentBytes

section

variable {σ : Type} {D : Device σ} {c : CudaDenseIndex} {d d' : DenseIndex} {s : ChunkStore}
  {live : LiveMask} {matrix : List F16} {rows dims : Nat} {modelId : String}

namespace CudaDenseIndex

theorem prepareSlice_mirrors (hc : prepareSlice D matrix rows dims modelId live = .ok c) :
    ∃ d, DenseIndex.prepareSlice matrix rows dims modelId live = .ok d ∧ c.Mirrors d := by
  unfold prepareSlice at hc
  unfold DenseIndex.prepareSlice
  split at hc
  · cases hc
  · next hlive =>
    split at hc
    · cases hc
    · next hlength =>
      rw [if_neg hlive, if_neg hlength]
      obtain ⟨scorer, -, hc⟩ := Except.bind_eq_ok.mp hc
      obtain ⟨_, hout, hc⟩ := Except.mapError_bind_eq_ok.mp hc
      obtain rfl := Except.ok.inj hc
      obtain ⟨hmirrors, hrows, huploaded⟩ := (CudaDenseScorer.prepare_wp (D := D)).ok hout
      refine ⟨_, rfl, hmirrors, hrows, rfl, rfl, rfl, rfl, ?_⟩
      rw [CudaDenseScorer.residentBytes, hrows, hmirrors.width]
      exact huploaded

/-- A refresh that succeeds is one that the index on the CPU accepts. One that fails leaves the
index as it was, or without a matrix on the device. -/
theorem refresh_wp (h : c.Mirrors d) (H : s.matrix.WF) : wp (refresh D s.matrix live)
    (fun _ c' => ∃ d', d.refresh s.matrix live = .ok d' ∧ c'.Mirrors d' ∧
      (c.scorer.Lost → c'.scorer.Lost))
    (fun _ c' => c' = c ∨ c' = { c with scorer := { c.scorer with matrix := none } })
    (fun _ _ => True) c := by
  have hslice : s.matrix.asSlice = .ok s.denseIndex.matrix := asSlice_eq H
  have hwhole : s.denseIndex.matrix.length = s.matrix.rows * s.matrix.dims := length_asSlice H
  rw [refresh, wp_bind, wp_get, wp_ite]
  refine ⟨fun _ => wp_fail.mpr (.inl rfl), fun hdims => ?_⟩
  rw [wp_ite]
  refine ⟨fun _ => wp_fail.mpr (.inl rfl), fun hmodel => ?_⟩
  rw [wp_ite]
  refine ⟨fun _ => wp_fail.mpr (.inl rfl), fun hlive => ?_⟩
  rw [wp_ite]
  refine ⟨fun _ => wp_fail.mpr (.inl rfl), fun hrows => ?_⟩
  rw [hslice, wp_bind, wp_ofExcept]
  dsimp only
  rw [wp_ite]
  refine ⟨fun _ => wp_fail.mpr (.inl rfl), fun hstart => ?_⟩
  rw [wp_bind, wp_focus]
  refine (CudaDenseScorer.append_wp h.scorer).mono ?_ ?_ (fun _ _ _ => trivial)
  · rintro _ t ⟨hmirrors, htrows, hbytes, hpos, hlost⟩
    have hplain : d.refresh s.matrix live = .ok { d with
        matrix := d.matrix ++ s.denseIndex.matrix.drop (c.rows * c.dims), rows := s.matrix.rows,
          live } := by
      rw [DenseIndex.refresh, ← h.dims, ← h.modelId, ← h.rows, if_neg hdims, if_neg hmodel,
        if_neg hlive, if_neg hrows, hslice]
      exact if_neg hstart
    have hlength : (s.denseIndex.matrix.drop (c.rows * c.dims)).length =
        (s.matrix.rows - d.rows) * d.dims := by
      rw [List.length_drop, hwhole, not_not.mp hdims, h.rows, h.dims, Nat.sub_mul]
    have hgrown : t.rows = s.matrix.rows := by
      have hge := Nat.not_lt.mp hrows
      rw [h.rows] at hge
      rw [htrows, hlength, Nat.mul_div_cancel _ hpos, h.scorerRows, Nat.add_sub_cancel' hge]
    rw [wp_modify]
    refine ⟨_, hplain, ⟨hmirrors, hgrown, rfl, h.dims, h.modelId, rfl, ?_⟩, hlost⟩
    show c.uploadedBytes + (s.denseIndex.matrix.drop (c.rows * c.dims)).length * f16Bytes =
        t.rows * t.dims * f16Bytes
    rw [hlength, h.uploaded, CudaDenseScorer.residentBytes, h.scorerRows, h.scorer.width,
      hmirrors.width, hgrown, ← Nat.add_mul, ← Nat.add_mul,
        Nat.add_sub_cancel' (h.rows ▸ Nat.not_lt.mp hrows)]
  · rintro e t (rfl | rfl)
    · exact .inl rfl
    · exact .inr rfl

end CudaDenseIndex

end

/-! ## Scores of the device -/

/-- The product of cuBLAS, for sizes that fit: one number for each row of the matrix, in their
order. -/
structure Inference.Device.Lawful {σ : Type} (D : Device σ) (dot : List F16 → List F16 → σ) :
    Prop where
  gemmEx (m k : Nat) (matrix query : List F16) (scores : List σ) : 0 < m → 0 < k →
    matrix.length = m * k →
    query.length = k → scores.length = m →
      D.gemmEx m k matrix query scores = (chunksExact k matrix).map (dot · query)

/-- The best of the live rows, under any scores. -/
def DenseIndex.best {σ : Type} [LinearOrder σ] (d : DenseIndex) (score : List F16 → σ)
    (limit : Nat) : List (ScoredRow σ) :=
  (sortRows (referenceRows d.live ((chunksExact d.dims d.matrix).map score))).take limit

section

variable {σ : Type} {D : Device σ} {dot : List F16 → List F16 → σ} {s : CudaDenseScorer}
  {matrix query : List F16} {dims : Nat} {scores : List σ}

theorem asI32_eq {n : Nat} (h : n < 2 ^ 31) : asI32 n = n := by
  have hlow : -(((2 ^ 32 : Nat) : Int) / 2) ≤ (n : Int) := by omega
  have hhigh : (n : Int) < (((2 ^ 32 : Nat) : Int) + 1) / 2 := by omega
  exact Int.bmod_eq_of_le hlow hhigh

namespace Inference.CudaDenseScorer

/-- A scorer that has lost its matrix gives no scores. -/
theorem scoreAll_lost (hquery : query.length = s.dims) (hrows : s.rows ≠ 0) (h : s.Lost) :
    s.scoreAll D query = .error (.runtime "dense scorer is not prepared") := by
  rw [scoreAll, if_neg (not_not.mpr hquery), if_neg hrows, h]

theorem scoreAll_eq (hD : D.Lawful dot) (h : s.Mirrors matrix dims) (hpos : 0 < dims)
    (hrows : s.rows < 2 ^ 31) (hdims : dims < 2 ^ 31) (hok : s.scoreAll D query = .ok scores) :
    scores = (chunksExact dims matrix).map (dot · query) := by
  rw [scoreAll] at hok
  split at hok
  · cases hok
  · next hquery =>
    rw [not_not, h.width] at hquery
    split at hok
    · next hzero =>
      have hnil : matrix = [] := by
        rw [← List.length_eq_zero_iff, h.length, hzero, Nat.zero_mul]
      obtain rfl := Except.ok.inj hok
      rw [hnil, chunksExact, List.length_nil, Nat.zero_div]
      rfl
    · next hnonzero =>
      split at hok
      · cases hok
      · next m hm =>
        obtain rfl := h.matrix m hm
        obtain ⟨_, -, hok⟩ := Except.bind_eq_ok.mp hok
        obtain ⟨_, -, hok⟩ := Except.bind_eq_ok.mp hok
        obtain ⟨_, -, hok⟩ := Except.bind_eq_ok.mp hok
        obtain ⟨_, -, hok⟩ := Except.bind_eq_ok.mp hok
        rw [← Except.ok.inj hok, h.width, asI32_eq hrows, asI32_eq hdims]
        exact hD.gemmEx _ _ _ _ _ (Nat.pos_of_ne_zero hnonzero) hpos h.length hquery
          List.length_replicate

/-- Where nothing fails and the matrix is there, there are scores. -/
theorem scoreAll_isOk (hD : ∀ c, D.fails c = none) (hquery : query.length = s.dims) (h : ¬s.Lost) :
    ∃ scores, s.scoreAll D query = .ok scores := by
  rw [scoreAll, if_neg (not_not.mpr hquery)]
  split
  · exact ⟨_, rfl⟩
  · cases hm : s.matrix with
    | none => exact absurd hm h
    | some m =>
      have hcall : ∀ c, call D c = .ok () := by
        intro c
        rw [call, hD]
      simp only [hcall]
      exact ⟨_, rfl⟩

end Inference.CudaDenseScorer

end

/-! ## Runs -/

/-- An index on the CPU, and one on the device. -/
structure IndexPair where
  plain : DenseIndex
  cuda : CudaDenseIndex

/-- Both are refreshed if the device lets the one succeed, and otherwise neither. -/
inductive CudaStep (σ : Type) : IndexPair → IndexPair → Prop
  | refreshed (D : Device σ) {p} {s : ChunkStore} {live d} : s.matrix.WF →
      (CudaDenseIndex.refresh D s.matrix live p.cuda).result = .ok () →
    p.plain.refresh s.matrix live = .ok d →
      CudaStep σ p ⟨d, (CudaDenseIndex.refresh D s.matrix live p.cuda).state⟩
  | failed (D : Device σ) {p} {s : ChunkStore} {live e} : s.matrix.WF →
      (CudaDenseIndex.refresh D s.matrix live p.cuda).result = .error e →
    CudaStep σ p ⟨p.plain, (CudaDenseIndex.refresh D s.matrix live p.cuda).state⟩

/-- Both are prepared from one matrix, and then go through any steps. -/
inductive CudaRun (σ : Type) : IndexPair → Prop
  | prepared (D : Device σ) {matrix rows dims modelId live d c} :
    DenseIndex.prepareSlice matrix rows dims modelId live = .ok d →
    CudaDenseIndex.prepareSlice D matrix rows dims modelId live = .ok c → CudaRun σ ⟨d, c⟩
  | step {p q} : CudaRun σ p → CudaStep σ p q → CudaRun σ q

section

variable {σ : Type} {p q : IndexPair} {D : Device σ} {dot : List F16 → List F16 → σ}
  {query : List F16} {modelId : String} {limit : Nat} {rows : List (ScoredRow σ)}

theorem CudaStep.mirrors (h : CudaStep σ p q) (hp : p.cuda.Mirrors p.plain) :
    q.cuda.Mirrors q.plain ∧ (p.cuda.scorer.Lost → q.cuda.scorer.Lost) := by
  cases h with
  | refreshed D H hok hd =>
    obtain ⟨d', hd', hmirrors, hlost⟩ := (CudaDenseIndex.refresh_wp hp H).ok hok
    obtain rfl := Except.ok.inj (hd.symm.trans hd')
    exact ⟨hmirrors, hlost⟩
  | failed D H herror =>
    rcases (CudaDenseIndex.refresh_wp hp H).error herror with hsame | htaken
    · rw [hsame]
      exact ⟨hp, id⟩
    · rw [htaken]
      refine ⟨⟨⟨hp.scorer.width, hp.scorer.length, nofun⟩, hp.scorerRows, hp.rows, hp.dims,
        hp.modelId, hp.live, hp.uploaded⟩, fun _ => rfl⟩

theorem CudaRun.mirrors (h : CudaRun σ p) : p.cuda.Mirrors p.plain := by
  induction h with
  | prepared D hd hc =>
    obtain ⟨d', hd', hmirrors⟩ := CudaDenseIndex.prepareSlice_mirrors hc
    obtain rfl := Except.ok.inj (hd.symm.trans hd')
    exact hmirrors
  | step _ hstep ih => exact (hstep.mirrors ih).1

/-- What the step of the pair does is what becomes of the device: where it succeeds, so does the
CPU. -/
theorem CudaRun.steps (h : CudaRun σ p) {s : ChunkStore} (H : s.matrix.WF) (D : Device σ)
    (live : LiveMask) :
    ∃ q, CudaStep σ p q ∧ q.cuda = (CudaDenseIndex.refresh D s.matrix live p.cuda).state := by
  cases hres : (CudaDenseIndex.refresh D s.matrix live p.cuda).result with
  | ok u =>
    obtain ⟨d, hd, -, -⟩ := (CudaDenseIndex.refresh_wp h.mirrors H).ok hres
    exact ⟨_, .refreshed D H hres hd, rfl⟩
  | error e => exact ⟨_, .failed D H hres, rfl⟩

/-- What is lost is not found again. -/
theorem CudaStep.lost_later (h : Relation.ReflTransGen (CudaStep σ) p q)
    (hp : p.cuda.Mirrors p.plain) (hlost : p.cuda.scorer.Lost) : q.cuda.Mirrors q.plain ∧
      q.cuda.scorer.Lost := by
  induction h with
  | refl => exact ⟨hp, hlost⟩
  | tail _ hstep ih =>
    obtain ⟨hmirrors, hlost⟩ := ih
    obtain ⟨hmirrors', hkeeps⟩ := hstep.mirrors hmirrors
    exact ⟨hmirrors', hkeeps hlost⟩

variable {F : DenseMachine σ}

theorem DenseIndex.scores_eq {d : DenseIndex}
    (h : ∀ vector, dot vector query = F.score vector query) :
    (chunksExact d.dims d.matrix).map (dot · query) = d.scores F query :=
  List.map_congr_left fun vector _ => h vector

variable [LinearOrder σ]

theorem CudaDenseIndex.Mirrors.search_eq_ok {c : CudaDenseIndex} {d : DenseIndex} (h : c.Mirrors d)
    (hD : D.Lawful dot) (hpos : 0 < d.dims) (hrows : d.rows < 2 ^ 31) (hdims : d.dims < 2 ^ 31)
    (hok : c.search D F query modelId limit = .ok rows) :
    query.length = d.dims ∧ modelId = d.modelId ∧
      if limit = 0 then rows = []
      else
        selectScores F d.live ((chunksExact d.dims d.matrix).map (dot · query)) limit =
          .ok rows := by
  rw [search, h.dims, h.modelId, h.live] at hok
  split at hok
  · cases hok
  next hquery =>
  split at hok
  · cases hok
  next hmodel =>
  refine ⟨not_not.mp hquery, not_not.mp hmodel, ?_⟩
  split at hok
  · next hlimit =>
    rw [if_pos hlimit]
    exact (Except.ok.inj hok).symm
  · next hlimit =>
    rw [if_neg hlimit]
    obtain ⟨scores, hscores, hok⟩ := Except.mapError_bind_eq_ok.mp hok
    rwa [CudaDenseScorer.scoreAll_eq hD h.scorer hpos (h.scorerRows ▸ hrows) hdims hscores] at hok

/-- Whatever calls of the device have failed, a search that is answered finds the best of the rows
that an index on the CPU has after the same refreshes, under the scores of the device. Where those
are the scores of the CPU, the answer is that of the CPU, and there is one if nothing fails and the
matrix has not been lost. -/
theorem CudaRun.search_best (h : CudaRun σ p) (hD : D.Lawful dot) (hpos : 0 < p.plain.dims)
    (hrows : p.plain.rows < 2 ^ 31) (hdims : p.plain.dims < 2 ^ 31) :
    (∀ rows, p.cuda.search D F query modelId limit = .ok rows →
      rows = p.plain.best (dot · query) limit) ∧
    ((∀ vector, dot vector query = F.score vector query) →
      (∀ rows, p.cuda.search D F query modelId limit = .ok rows →
        p.plain.search F query modelId limit = .ok rows) ∧
      ((∀ c, D.fails c = none) → ¬p.cuda.scorer.Lost →
        p.cuda.search D F query modelId limit = p.plain.search F query modelId limit)) := by
  have hmirrors := h.mirrors
  refine ⟨fun rows hok => ?_, fun hdot => ⟨fun rows hok => ?_, fun hfails hkept => ?_⟩⟩
  · obtain ⟨-, -, hrows⟩ := hmirrors.search_eq_ok hD hpos hrows hdims hok
    split at hrows
    · next hlimit =>
      rw [hrows, DenseIndex.best, hlimit, List.take_zero]
    · exact (selectScores_eq_iff.mp hrows).2.2.symm
  · obtain ⟨hquery, hmodel, hrows⟩ := hmirrors.search_eq_ok hD hpos hrows hdims hok
    rw [DenseIndex.search, if_neg (not_not.mpr hquery), if_neg (not_not.mpr hmodel)]
    split at hrows
    · next hlimit =>
      rw [if_pos hlimit, hrows]
    · next hlimit =>
      rw [if_neg hlimit, DenseIndex.searchCpu, if_neg hpos.ne', ← DenseIndex.scores_eq hdot]
      exact hrows
  · rw [CudaDenseIndex.search, DenseIndex.search, hmirrors.dims, hmirrors.modelId, hmirrors.live]
    refine ite_congr rfl (fun _ => rfl) fun hquery => ite_congr rfl (fun _ => rfl) fun _ =>
      ite_congr rfl (fun _ => rfl) fun _ => ?_
    have hwidth : query.length = p.cuda.scorer.dims :=
      (not_not.mp hquery).trans hmirrors.scorer.width.symm
    obtain ⟨scores, hscores⟩ := CudaDenseScorer.scoreAll_isOk hfails hwidth hkept
    rw [hscores, CudaDenseScorer.scoreAll_eq hD hmirrors.scorer hpos (hmirrors.scorerRows ▸ hrows)
      hdims hscores, DenseIndex.scores_eq hdot, DenseIndex.searchCpu, if_neg hpos.ne']
    rfl

/-- A refresh that fails leaves the index as it was; or every search that asks the device for scores
fails from then on, whatever else is refreshed. -/
theorem CudaRun.refresh_failed (h : CudaRun σ p) {s : ChunkStore} (H : s.matrix.WF)
    {live : LiveMask} {e : DenseFailure}
    (hfailed : (CudaDenseIndex.refresh D s.matrix live p.cuda).result = .error e) :
    (CudaDenseIndex.refresh D s.matrix live p.cuda).state = p.cuda ∨
    ∀ q, Relation.ReflTransGen (CudaStep σ)
      ⟨p.plain, (CudaDenseIndex.refresh D s.matrix live p.cuda).state⟩ q →
      q.cuda.rows ≠ 0 →
        ∀ (D : Device σ) (query : List F16) (limit : Nat), query.length = q.cuda.dims → limit ≠ 0 →
        q.cuda.search D F query q.cuda.modelId limit =
          .error (.error "inference error: runtime error: dense scorer is not prepared") := by
  rcases (CudaDenseIndex.refresh_wp h.mirrors H).error hfailed with hsame | htaken
  · exact .inl hsame
  right
  intro q hq hrows D' query limit hquery hlimit
  have htakes :
      CudaDenseScorer.Lost (CudaDenseIndex.refresh D s.matrix live p.cuda).state.scorer := by
    rw [htaken]
    rfl
  have hlost := CudaStep.lost_later hq ((CudaStep.failed D H hfailed).mirrors h.mirrors).1 htakes
  have hwidth : query.length = q.cuda.scorer.dims := by
    rw [hquery, hlost.1.dims, hlost.1.scorer.width]
  have hnonzero : q.cuda.scorer.rows ≠ 0 := by
    rwa [hlost.1.scorerRows, ← hlost.1.rows]
  rw [CudaDenseIndex.search, if_neg (not_not.mpr hquery), if_neg (not_not.mpr rfl), if_neg hlimit,
    CudaDenseScorer.scoreAll_lost hwidth hnonzero hlost.2]
  rfl

end

/-! ## A sample device -/

/-- Numbers without fractions. -/
def natScores : DenseMachine Nat := 
  ⟨fun x => x.toNat, 0, (· + ·), (· * ·), fun _ => true, fun _ => true⟩

/-- A device with the scores of the CPU. -/
def sampleDevice (fails : Inference.DeviceCall → Option String) : Device Nat where
  context := .ok ()
  blas := .ok ()
  fails
  zero := 0
  gemmEx _ k matrix query _ := (chunksExact k.toNat matrix).map (natScores.score · query)

theorem sampleDevice_lawful {fails : Inference.DeviceCall → Option String} :
    (sampleDevice fails).Lawful natScores.score :=
  ⟨fun _ _ _ _ _ _ _ _ _ _ => rfl⟩

/-- A store of two chunks is prepared on a device. -/
def preparedPair (fails : Inference.DeviceCall → Option String) :
    Except DenseFailure CudaDenseIndex :=
  CudaDenseIndex.prepareSlice (sampleDevice fails) pairStore.denseIndex.matrix 2 2 "model"
    pairStore.denseIndex.live

theorem preparedPair_run : ∃ c, preparedPair (fun _ => none) = .ok c ∧
    CudaRun Nat ⟨pairStore.denseIndex, c⟩ := by
  have hok : ((preparedPair fun _ => none).toOption.map fun _ => ()) = some () := by decide +kernel
  cases hc : preparedPair fun _ => none with
  | error e =>
    rw [hc] at hok
    cases hok
  | ok c => exact ⟨c, rfl, .prepared (sampleDevice fun _ => none) (by decide +kernel) hc⟩

theorem CudaRun.search_best_pair : ∃ c, CudaRun Nat ⟨pairStore.denseIndex, c⟩ ∧
    c.search (sampleDevice fun _ => none) natScores [1, 0] "model" 1 =
      pairStore.denseIndex.search natScores [1, 0] "model" 1 := by
  obtain ⟨c, hc, hrun⟩ := preparedPair_run
  have hkept : ((preparedPair fun _ => none).toOption.map fun c => c.scorer.matrix.isSome) =
      some true := by
    decide +kernel
  rw [hc] at hkept
  have hsizes : 0 < pairStore.denseIndex.dims ∧ pairStore.denseIndex.rows < 2 ^ 31 ∧
      pairStore.denseIndex.dims < 2 ^ 31 := by decide +kernel
  refine ⟨c, hrun, ((CudaRun.search_best hrun sampleDevice_lawful hsizes.1 hsizes.2.1 hsizes.2.2).2
    fun _ => rfl).2 (fun _ => rfl) fun hlost => ?_⟩
  have hsome : c.scorer.matrix.isSome = true := Option.some.inj hkept
  rw [hlost] at hsome
  cases hsome

/-- The store with a third chunk. -/
def tripleStore : ChunkStore := pairStore.runOps [.insertBatch (fun _ => false) [sampleChunk 3]]

theorem tripleStore_wf : tripleStore.matrix.WF := by
  have hwatched : Watched (fun _ _ _ => True) tripleStore pairStore.denseIndex :=
    prepared_pairStore.op (.insertBatch (fun _ => false) [sampleChunk 3]) trivial
      (StoreOp.undone_of_length (by decide +kernel) (.inl nofun)) trivial
  obtain ⟨⟨a, ha⟩, -⟩ := hwatched.whole
  exact ha.matrix

/-- A device without room for more rows. -/
def fullDevice : Device Nat :=
  sampleDevice fun call => if call = .growMatrix then some "out of memory" else none

/-- The refresh that is to give it the third row. -/
def fullRefresh (c : CudaDenseIndex) :=
  CudaDenseIndex.refresh fullDevice tripleStore.matrix [true, true, true] c

theorem CudaRun.refresh_failed_full : ∃ c : CudaDenseIndex, CudaRun Nat ⟨pairStore.denseIndex, c⟩ ∧
    (fullRefresh c).state.search (sampleDevice fun _ => none) natScores [1, 0]
    (fullRefresh c).state.modelId 1 =
      .error (.error "inference error: runtime error: dense scorer is not prepared") := by
  obtain ⟨c, hc, hrun⟩ := preparedPair_run
  have hfull : ((preparedPair fun _ => none).toOption.map fun c =>
      (c.scorer.matrix.isSome, (fullRefresh c).state.scorer.matrix.isSome,
        (fullRefresh c).result.toOption, (fullRefresh c).state.rows, (fullRefresh c).state.dims)) =
          some (true, false, none, 2, 2) := by
    decide +kernel
  rw [hc] at hfull
  simp only [Except.toOption, Option.map_some, Option.some.injEq, Prod.mk.injEq] at hfull
  obtain ⟨hbefore, hafter, hnone, hrows, hdims⟩ := hfull
  refine ⟨c, hrun, ?_⟩
  cases hres : (fullRefresh c).result with
  | ok u =>
    rw [hres] at hnone
    cases hnone
  | error e =>
    rcases CudaRun.refresh_failed hrun tripleStore_wf hres with hsame | hlost
    · replace hsame : (fullRefresh c).state = c := hsame
      rw [hsame, hbefore] at hafter
      cases hafter
    · have hrows' : (fullRefresh c).state.rows ≠ 0 := by
        rw [hrows]
        exact two_ne_zero
      have hdims' : [(1 : F16), 0].length = (fullRefresh c).state.dims := by
        rw [hdims]
        rfl
      have hlater := hlost _ Relation.ReflTransGen.refl
      dsimp only at hlater
      rw [← fullRefresh] at hlater
      exact hlater hrows' _ _ _ hdims' one_ne_zero

end SiftMcp
