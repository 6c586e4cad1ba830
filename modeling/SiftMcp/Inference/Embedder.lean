import SiftMcp.Daemon.Resident
import SiftMcp.Lib.ExceptSteps

/-!
# Embedders

The metadata of a model, the errors of inference, and the wrapper that cuts a list of texts into
batches.
-/

namespace SiftMcp.Inference

inductive Pooling
  | lastToken | mean | cls
deriving DecidableEq

inductive Normalize
  | l2 | none
deriving DecidableEq

/-- What `metadata.json` says. -/
structure ModelMetadata where
  modelId : String
  dims : UInt32
  maxSequenceLength : Nat
  pooling : Pooling
  normalize : Normalize
  queryPrefix : Option String
  documentPrefix : Option String
  onnxSha256 : String
  tokenizerSha256 : String
deriving DecidableEq

inductive MetadataError
  | missingField (field : String)
  | unknownPooling (name : String)
  | invalidJson (text : String)
deriving DecidableEq

/-- What `from_json` asks of serde_json. -/
structure SerdeJson (Value : Type) where
  fromStr : String → Except String Value
  get : Value → String → Option Value
  asStr : Value → Option String
  fromValue : Value → Except String ModelMetadata

def ModelMetadata.fromJson {Value : Type} (serde : SerdeJson Value) (json : String) :
    Except MetadataError ModelMetadata := do
  let value ← (serde.fromStr json).mapError .invalidJson
  match (serde.get value "pooling").map serde.asStr with
  | some (some "last_token") | some (some "mean") | some (some "cls") | none => pure ()
  | some (some other) => throw (.unknownPooling other)
  | some none => throw (.invalidJson "pooling must be a string")
  (serde.fromValue value).mapError fun msg =>
    if msg.contains "missing field" then .missingField "required field" else .invalidJson msg

/-- The errors of inference. The daemon only tells a GPU that is not available from the rest. -/
inductive InferError
  | modelFilesMissing (path : List Char)
  | gpuUnavailable (detail : String)
  | allocation (requestedBytes : Nat)
  | artifactHashMismatch (expected got : String)
  | tokenizer (text : String)
  | runtime (text : String)
  | metadata (e : MetadataError)
deriving DecidableEq

inductive InferFailure
  | error (e : InferError)
  | panic
deriving DecidableEq

/-- `slice::chunks` with a positive size. -/
def batches {α : Type} (size : Nat) (hsize : 0 < size) (l : List α) : List (List α) :=
  if _h : l = [] then [] else l.take size :: batches size hsize (l.drop size)
termination_by l.length
decreasing_by
  have := List.length_pos_iff.mpr ‹_›
  rw [List.length_drop]
  omega

/-- `embed_with_batch_limit`, that asserts that the limit is positive. -/
def embedWithBatchLimit {α : Type} (texts : List α) (role : Role) (maxBatch : Nat)
    (embedBatch : List α → Role → Except InferFailure (List Embedding)) :
    Except InferFailure (List Embedding) :=
  if hmax : 0 < maxBatch then
    (batches maxBatch hmax texts).foldlM (fun out chunk => (out ++ ·) <$> embedBatch chunk role) []
  else .error .panic

/-! ## Batches -/

section
variable {α : Type} {size : Nat} {hsize : 0 < size} {l texts : List α} {role : Role} {limit : Nat}
  {embedBatch : List α → Role → Except InferFailure (List Embedding)} {out : List Embedding}

theorem flatten_batches : (batches size hsize l).flatten = l := by
  induction l using batches.induct size hsize with
  | case1 => rw [batches, dif_pos rfl, List.flatten_nil]
  | case2 l h ih => rw [batches, dif_neg h, List.flatten_cons, ih, List.take_append_drop]

theorem mem_of_mem_batches {chunk : List α} {a : α} (hchunk : chunk ∈ batches size hsize l)
    (ha : a ∈ chunk) : a ∈ l := by
  rw [← @flatten_batches _ _ hsize l]
  exact List.mem_flatten_of_mem hchunk ha

/-- What each batch of embeddings has to do with its texts, all of them have to do with all
texts. -/
theorem forall₂_embedWithBatchLimit {R : α → Embedding → Prop}
    (hbatch : ∀ chunk, (∀ a ∈ chunk, a ∈ texts) → ∀ es, embedBatch chunk role = .ok es →
      List.Forall₂ R chunk es)
    (h : embedWithBatchLimit texts role limit embedBatch = .ok out) : List.Forall₂ R texts out := by
  have hloop : ∀ (chunks : List (List α)) (before : List α) (acc : List Embedding),
      (∀ chunk ∈ chunks, ∀ a ∈ chunk, a ∈ texts) → List.Forall₂ R before acc →
      chunks.foldlM (fun out chunk => (out ++ ·) <$> embedBatch chunk role) acc = .ok out →
      List.Forall₂ R (before ++ chunks.flatten) out := by
    intro chunks
    induction chunks with
    | nil =>
      intro before acc _ hacc heq
      obtain rfl := Except.ok.inj heq
      rwa [List.flatten_nil, List.append_nil]
    | cons chunk chunks ih =>
      intro before acc hmem hacc heq
      obtain ⟨hchunk, hmem⟩ := List.forall_mem_cons.mp hmem
      rw [List.foldlM_cons] at heq
      obtain ⟨next, hnext, heq⟩ := Except.bind_eq_ok.mp heq
      obtain ⟨es, hes, hnext⟩ :=
        Except.bind_eq_ok.mp (map_eq_pure_bind _ (embedBatch chunk role) ▸ hnext)
      obtain rfl := Except.ok.inj hnext
      rw [List.flatten_cons, ← List.append_assoc]
      exact ih _ _ hmem (List.rel_append hacc (hbatch chunk hchunk es hes)) heq
  rw [embedWithBatchLimit] at h
  split at h
  · have := hloop _ [] [] (fun chunk hchunk a => mem_of_mem_batches hchunk) .nil h
    rwa [List.nil_append, flatten_batches] at this
  · cases h

/-- A text of its own is a batch of its own. -/
theorem embedWithBatchLimit_singleton {a : α}
    (h : embedWithBatchLimit [a] role limit embedBatch = .ok out) :
    embedBatch [a] role = .ok out := by
  rw [embedWithBatchLimit] at h
  split at h
  · next hlimit =>
    have hnext : batches limit hlimit ([] : List α) = [] := by
      rw [batches, dif_pos rfl]
    rw [batches, dif_neg (List.cons_ne_nil a []), List.take_of_length_le (Nat.succ_le_of_lt hlimit),
      List.drop_of_length_le (Nat.succ_le_of_lt hlimit), hnext, List.foldlM_cons] at h
    obtain ⟨es, hes, h⟩ := Except.bind_eq_ok.mp h
    obtain rfl := Except.ok.inj h
    obtain ⟨es', hes', hes⟩ := Except.bind_eq_ok.mp (map_eq_pure_bind _ (embedBatch [a] role) ▸ hes)
    obtain rfl := Except.ok.inj hes
    exact hes'
  · cases h

theorem exists_embedWithBatchLimit (hlimit : 0 < limit)
    (hbatch : ∀ chunk, (∀ a ∈ chunk, a ∈ texts) → ∃ es, embedBatch chunk role = .ok es) :
    ∃ out, embedWithBatchLimit texts role limit embedBatch = .ok out := by
  have hloop : ∀ (chunks : List (List α))
      (acc : List Embedding), (∀ chunk ∈ chunks, ∀ a ∈ chunk, a ∈ texts) →
      ∃ out, chunks.foldlM (fun out chunk => (out ++ ·) <$> embedBatch chunk role) acc =
        .ok out := by
    intro chunks
    induction chunks with
    | nil => exact fun acc _ => ⟨acc, rfl⟩
    | cons chunk chunks ih =>
      intro acc hmem
      obtain ⟨hchunk, hmem⟩ := List.forall_mem_cons.mp hmem
      obtain ⟨es, hes⟩ := hbatch chunk hchunk
      rw [List.foldlM_cons, hes]
      exact ih _ hmem
  rw [embedWithBatchLimit, dif_pos hlimit]
  exact hloop _ [] fun chunk hchunk a => mem_of_mem_batches hchunk

end

end SiftMcp.Inference
