import SiftMcp.Inference.Embedder
import SiftMcp.Lib.Prog

/-!
# The scorer on the device

`CudaDenseScorer` has a copy of the matrix on a device. Any call of the device may fail. A copy is
taken out of the scorer before a longer one is made of it, so that a failure on the way leaves none.
-/

namespace SiftMcp.Inference
open Durable Prog

def MetadataError.display : MetadataError → String
  | missingField field => s!"missing or invalid field: {field}"
  | unknownPooling name => s!"unknown pooling strategy: {name}"
  | invalidJson text => s!"invalid metadata JSON: {text}"

def InferError.display : InferError → String
  | modelFilesMissing path => s!"model files missing at {String.ofList path}"
  | gpuUnavailable detail => s!"GPU unavailable: {detail}"
  | allocation requestedBytes => s!"allocation failed for {requestedBytes} bytes"
  | artifactHashMismatch expected got => s!"artifact hash mismatch: expected {expected}, got {got}"
  | tokenizer text => s!"tokenizer error: {text}"
  | runtime text => s!"runtime error: {text}"
  | metadata e => s!"metadata error: {e.display}"

/-- The calls that return a result. -/
inductive DeviceCall
  | uploadMatrix | growMatrix | copyRows | uploadRows | uploadQuery | allocateScores | scoreMatrix
  | downloadScores
deriving DecidableEq

/-- What is said of a call that fails. -/
def DeviceCall.context : DeviceCall → String
  | uploadMatrix => "upload dense matrix"
  | growMatrix => "grow dense matrix"
  | copyRows => "copy prepared dense rows"
  | uploadRows => "upload appended dense rows"
  | uploadQuery => "upload dense query"
  | allocateScores => "allocate dense scores"
  | scoreMatrix => "score dense matrix"
  | downloadScores => "download dense scores"

/-- A device while a method runs: the texts of the calls that fail, and the product of cuBLAS. -/
structure Device (σ : Type) where
  context : Except String Unit
  blas : Except String Unit
  fails : DeviceCall → Option String
  zero : σ
  /-- `gemm_ex` with `m` and `k`, on a matrix, a vector and the numbers that it overwrites. -/
  gemmEx : Int → Int → List F16 → List F16 → List σ → List σ

structure CudaDenseScorer where
  matrix : Option (List F16)
  rows : Nat
  dims : Nat
  uploadedBytes : Nat

/-- `size_of::<f16>()` -/
def f16Bytes : Nat := 2

/-- `as i32` -/
def asI32 (n : Nat) : Int := (n : Int).bmod (2 ^ 32)

namespace CudaDenseScorer

variable {σ : Type} (D : Device σ)

def runtime (context error : String) : InferError := .runtime s!"{context}: {error}"

def new : Except InferError CudaDenseScorer := do
  D.context.mapError .gpuUnavailable
  D.blas.mapError (runtime "create cuBLAS handle")
  return ⟨none, 0, 0, 0⟩

/-- A call, which fails if the device says so. -/
def call (c : DeviceCall) : Except InferError Unit :=
  match D.fails c with
  | some e => .error (runtime c.context e)
  | none => .ok ()

abbrev Method (α : Type) := Prog CudaDenseScorer InferError Empty α

def prepare (matrix : List F16) (rows dims : Nat) : Method Unit := do
  if matrix.length ≠ rows * dims then
    .fail (.runtime s!"dense matrix shape mismatch: {matrix.length} values for {rows}x{dims}")
  else
    .ofExcept (call D .uploadMatrix)
    .modify fun _ => ⟨some matrix, rows, dims, matrix.length * f16Bytes⟩

/-- `self.matrix.take()`, which is to be there. -/
def takeMatrix : Method (List F16) := do
  match (← .get).matrix with
  | none => .fail (.runtime "dense scorer is not prepared")
  | some old =>
    .modify fun s => { s with matrix := none }
    pure old

def append (rows : List F16) : Method Unit := do
  let s ← .get
  if s.dims = 0 ∨ rows.length % s.dims ≠ 0 then
    .fail (.runtime s!"appended dense values {rows.length} do not match width {s.dims}")
  else if rows = [] then pure ()
  else
    let old ← takeMatrix
    .ofExcept (call D .growMatrix)
    .ofExcept (call D .copyRows)
    .ofExcept (call D .uploadRows)
    .modify fun s => { s with
      matrix := some (old ++ rows)
      rows := s.rows + rows.length / s.dims
      uploadedBytes := s.uploadedBytes + rows.length * f16Bytes }

def scoreAll (s : CudaDenseScorer) (query : List F16) : Except InferError (List σ) :=
  if query.length ≠ s.dims then
    .error (.runtime s!"dense query width mismatch: expected {s.dims}, got {query.length}")
  else if s.rows = 0 then .ok []
  else
    match s.matrix with
    | none => .error (.runtime "dense scorer is not prepared")
    | some matrix => do
      call D .uploadQuery
      call D .allocateScores
      call D .scoreMatrix
      let scores :=
        D.gemmEx (asI32 s.rows) (asI32 s.dims) matrix query (List.replicate s.rows D.zero)
      call D .downloadScores
      return scores

def residentBytes (s : CudaDenseScorer) : Nat := s.rows * s.dims * f16Bytes

end CudaDenseScorer

/-! ## What the scorer has -/

/-- Sizes are those of a matrix of so many values, and what is on the device, if anything is, is
that matrix. -/
structure CudaDenseScorer.Mirrors (s : CudaDenseScorer) (matrix : List F16) (dims : Nat) :
    Prop where
  width : s.dims = dims
  length : matrix.length = s.rows * dims
  matrix : ∀ m, s.matrix = some m → m = matrix

/-- Nothing is on the device any more. -/
def CudaDenseScorer.Lost (s : CudaDenseScorer) : Prop := s.matrix = none

section

variable {σ : Type} {D : Device σ} {s : CudaDenseScorer} {matrix rows : List F16} {dims n : Nat}

namespace CudaDenseScorer

theorem prepare_wp {t : CudaDenseScorer} : wp (prepare D matrix n dims)
    (fun _ s => s.Mirrors matrix dims ∧ s.rows = n ∧ s.uploadedBytes = n * dims * f16Bytes)
    (fun _ s => s = t) (fun _ _ => True) t := by
  rw [prepare, wp_ite]
  refine ⟨fun _ => wp_fail.mpr rfl, fun hlength => ?_⟩
  rw [not_not] at hlength
  rw [wp_bind, wp_ofExcept]
  cases call D .uploadMatrix with
  | error e => rfl
  | ok _ =>
    apply wp_modify.mpr
    exact ⟨⟨rfl, hlength, fun m hm => (Option.some.inj hm).symm⟩, rfl,
      congrArg (· * f16Bytes) hlength⟩

theorem takeMatrix_wp {Q : List F16 → CudaDenseScorer → Prop}
    {E : InferError → CudaDenseScorer → Prop}
    (hnone : s.matrix = none → E (.runtime "dense scorer is not prepared") s)
    (hsome : ∀ m, s.matrix = some m → Q m { s with matrix := none }) :
    wp takeMatrix Q E (fun _ _ => True) s := by
  rw [takeMatrix, wp_bind, wp_get]
  cases h : s.matrix with
  | none => exact wp_fail.mpr (hnone h)
  | some m =>
    rw [wp_bind, wp_modify, wp_pure]
    exact hsome m h

/-- An append that succeeds makes the matrix longer. One that fails leaves the scorer as it was, or
takes the matrix out of it. What is lost stays so. -/
theorem append_wp (h : s.Mirrors matrix dims) : wp (append D rows)
    (fun _ t => t.Mirrors (matrix ++ rows) dims ∧ t.rows = s.rows + rows.length / dims ∧
      t.uploadedBytes = s.uploadedBytes + rows.length * f16Bytes ∧ 0 < dims ∧ (s.Lost → t.Lost))
    (fun _ t => t = s ∨ t = { s with matrix := none }) (fun _ _ => True) s := by
  rw [append, wp_bind, wp_get, wp_ite]
  refine ⟨fun _ => wp_fail.mpr (.inl rfl), fun hshape => ?_⟩
  rw [not_or, not_not, h.width] at hshape
  obtain ⟨hdims, hwhole⟩ := hshape
  have hpos : 0 < dims := Nat.pos_of_ne_zero hdims
  rw [wp_ite]
  refine ⟨fun hnil => ?_, fun _ => ?_⟩
  · rw [wp_pure, hnil, List.append_nil, List.length_nil, Nat.zero_div, Nat.zero_mul]
    exact ⟨h, rfl, rfl, hpos, id⟩
  rw [wp_bind]
  refine takeMatrix_wp (fun _ => .inl rfl) fun old hold => ?_
  obtain rfl := h.matrix old hold
  rw [wp_bind, wp_ofExcept]
  cases call D .growMatrix with
  | error e => exact .inr rfl
  | ok _ =>
    rw [wp_bind, wp_ofExcept]
    cases call D .copyRows with
    | error e => exact .inr rfl
    | ok _ =>
      rw [wp_bind, wp_ofExcept]
      cases call D .uploadRows with
      | error e => exact .inr rfl
      | ok _ =>
        rw [wp_modify]
        have hrows : rows.length / dims * dims = rows.length :=
          Nat.div_mul_cancel (Nat.dvd_of_mod_eq_zero hwhole)
        refine ⟨⟨h.width, ?_, fun m hm => (Option.some.inj hm).symm⟩, ?_, rfl, hpos,
          fun hlost => ?_⟩
        · rw [List.length_append, h.length, h.width, Nat.add_mul, hrows]
        · rw [h.width]
        · rw [Lost, hold] at hlost
          cases hlost

end CudaDenseScorer

end

end SiftMcp.Inference
