import SiftMcp.Inference.Pooling

/-!
# Embedding in batches

`encode_batch_padded` pads the tokens of each text to the longest of the batch, the graph gives
hidden states for all positions, and `embed_batch` pools those of each row. The tokenizer and the
runtime of the graph are parameters.

The main result is `OnnxEmbedder.embed_alone`: what a text is embedded as does not depend on the
texts beside it.
-/

namespace SiftMcp.Inference
open RowMajor

/-- A tokenizer: what it encodes a text to, whole or truncated to a length. Errors come as their
texts. -/
structure Tokenizer where
  encode : String → Except String (List UInt32)
  encodeTruncated : Nat → String → Except String (List UInt32)
  /-- The `pad_id` of `get_padding` -/
  getPadding : Option UInt32
  tokenToId : String → Option UInt32

structure TextTokenizer where
  tokenizer : Tokenizer
  metadata : ModelMetadata

structure EncodedInput where
  inputIds : List UInt32
  attentionMask : List UInt32
  truncated : Bool

namespace TextTokenizer

variable (t : TextTokenizer)

def applyPrefix (text : String) : Role → String
  | .query => (t.metadata.queryPrefix.map (· ++ text)).getD text
  | .document => (t.metadata.documentPrefix.map (· ++ text)).getD text

/-- The tokens of a text, and whether there were more than the model takes. -/
def encodeUnpadded (text : String) (role : Role) : Except InferError (List UInt32 × Bool) := do
  let prefixed := t.applyPrefix text role
  let fullIds ← (t.tokenizer.encode prefixed).mapError .tokenizer
  if t.metadata.maxSequenceLength < fullIds.length then
    let ids ← (t.tokenizer.encodeTruncated t.metadata.maxSequenceLength prefixed).mapError
        .tokenizer
    return (ids, true)
  return (fullIds, false)

def padTokenId : UInt32 :=
  t.tokenizer.getPadding.getD
    ((t.tokenizer.tokenToId "<|endoftext|>").getD ((t.tokenizer.tokenToId "[PAD]").getD 0))

/-- `ids[..seq_len]` -/
def kept (ids : List UInt32) : List UInt32 := ids.take (min ids.length t.metadata.maxSequenceLength)

def leftPad : Bool := t.metadata.pooling = .lastToken

/-- One row of a batch, on the left if the last token is pooled. -/
def padRow (maxInBatch : Nat) (ids : List UInt32) (truncated : Bool) : EncodedInput :=
  let pad := maxInBatch - (t.kept ids).length
  let real := List.replicate (t.kept ids).length 1
  if t.leftPad then
    ⟨List.replicate pad t.padTokenId ++ t.kept ids, List.replicate pad 0 ++ real, truncated⟩
  else ⟨t.kept ids ++ List.replicate pad t.padTokenId, real ++ List.replicate pad 0, truncated⟩

/-- The length of the longest row. -/
def maxInBatch (encoded : List (List UInt32 × Bool)) : Nat :=
  encoded.foldl (fun m e => max m (t.kept e.1).length) 0

def padRows (encoded : List (List UInt32 × Bool)) : List EncodedInput :=
  encoded.map fun e => t.padRow (t.maxInBatch encoded) e.1 e.2

def encodeBatchPadded (texts : List String) (role : Role) :
    Except InferError (List EncodedInput) := do
  return t.padRows (← texts.mapM fun text => t.encodeUnpadded text role)

end TextTokenizer

/-- The hidden states that the graph has returned. -/
structure HiddenStates where
  shape : List Nat
  values : List F16

/-- What the runtime answers. Errors come as the texts that they display. -/
structure OnnxSession where
  /-- `Tensor::from_array` of the shape `[batch, seq]`, unless it fails -/
  fromArray : Nat → Nat → List Int → Except String Unit
  poisoned : Bool
  /-- `run` on ids and a mask of the shape `[batch, seq]` -/
  run : Nat → Nat → List Int → List Int → Except String HiddenStates
  /-- `try_extract_array` -/
  tryExtract : HiddenStates → Except String Unit
  lowercase : String → String

structure OnnxEmbedder (σ : Type) where
  session : OnnxSession
  tokenizer : TextTokenizer
  arithmetic : PoolArithmetic σ

namespace OnnxEmbedder

variable {σ : Type} (o : OnnxEmbedder σ)

def metadata : ModelMetadata := o.tokenizer.metadata

def dims : Nat := o.metadata.dims.toNat

def runError (requested : Nat) (text : String) : InferError :=
  let msg := o.session.lowercase text
  if msg.contains "alloc" || msg.contains "memory" || msg.contains "oom" then .allocation requested
  else .runtime text

/-- `Vec::extend` over the rows -/
def flattened (encoded : List EncodedInput) (field : EncodedInput → List UInt32) : List Int :=
  (encoded.flatMap field).map fun x => (x.toNat : Int)

/-- The checks of the shape of the hidden states. -/
def checkShape (batch seq : Nat) (shape : List Nat) : Except InferError Unit :=
  let unexpected := s!"unexpected hidden shape {shape}, expected [{batch}, ?, {o.dims}]"
  match shape with
  | [rows, outSeq, width] =>
    if rows ≠ batch ∨ width ≠ o.dims then .error (.runtime unexpected)
    else if outSeq ≠ seq then
      .error (.runtime s!"sequence length mismatch: encoded {seq} vs hidden {outSeq}")
    else .ok ()
  | _ => .error (.runtime unexpected)

/-- The hidden states of the rows. -/
def hidden (encoded : List EncodedInput) (seq : Nat) : Except InferError (List σ) := do
  let batch := encoded.length
  (o.session.fromArray batch seq (flattened encoded (·.inputIds))).mapError .runtime
  (o.session.fromArray batch seq (flattened encoded (·.attentionMask))).mapError .runtime
  if o.session.poisoned then throw (.runtime "session mutex poisoned")
  let outputs ← (o.session.run batch seq (flattened encoded (·.inputIds))
    (flattened encoded (·.attentionMask))).mapError (o.runError (batch * seq * o.dims * 2))
  (o.session.tryExtract outputs).mapError .runtime
  o.checkShape batch seq outputs.shape
  return outputs.values.map o.arithmetic.toF32

/-- The vectors of the rows, that the metadata may want normalized. -/
def vectors (hidden : List σ) (encoded : List EncodedInput) (seq : Nat) : Option (List σ) := do
  let pooled ← pool o.arithmetic hidden (encoded.flatMap (·.attentionMask)) encoded.length
    seq o.dims o.metadata.pooling
  if o.metadata.normalize = .l2 then l2NormalizeRows o.arithmetic pooled o.dims else return pooled

def rows (hidden : List σ) (encoded : List EncodedInput) (seq : Nat) : Option (List (List σ)) := do
  let pooled ← o.vectors hidden encoded seq
  (List.range encoded.length).mapM fun i => slice pooled (i * o.dims) o.dims

def embedBatch (texts : List String) (role : Role) : Except InferFailure (List Embedding) := do
  if texts = [] then return []
  let encoded ← (o.tokenizer.encodeBatchPadded texts role).mapError .error
  match encoded with
  | [] => throw .panic
  | first :: _ =>
    let seq := first.inputIds.length
    let hidden ← (o.hidden encoded seq).mapError .error
    match o.rows hidden encoded seq with
    | none => throw .panic
    | some rows =>
      return List.zipWith (fun row e => ⟨row.map o.arithmetic.fromF32, e.truncated⟩) rows encoded

end OnnxEmbedder

/-! ## Padded rows -/

section
variable {t : TextTokenizer} {encoded : List (List UInt32 × Bool)} {e : List UInt32 × Bool}
  {ids : List UInt32} {truncated : Bool} {m s b : Nat}

/-- Where the tokens of a row begin. -/
def TextTokenizer.start (t : TextTokenizer) (m : Nat) (ids : List UInt32) : Nat :=
  if t.leftPad then m - (t.kept ids).length else 0

theorem le_foldl_max {l : List Nat} {a n : Nat} (h : a ≤ n ∨ a ∈ l) : a ≤ l.foldl max n := by
  induction l generalizing n with
  | nil => exact h.resolve_right List.not_mem_nil
  | cons x l ih =>
    rcases h with h | h
    · exact ih (.inl (h.trans (le_max_left n x)))
    rcases List.mem_cons.mp h with rfl | h
    · exact ih (.inl (le_max_right n _))
    · exact ih (.inr h)

theorem length_kept_le (he : e ∈ encoded) : (t.kept e.1).length ≤ t.maxInBatch encoded := by
  have hfold : t.maxInBatch encoded = (encoded.map fun e => (t.kept e.1).length).foldl max 0 := by
    rw [List.foldl_map, TextTokenizer.maxInBatch]
  rw [hfold]
  exact le_foldl_max (.inr (List.mem_map_of_mem he))

theorem start_add_le (h : (t.kept ids).length ≤ m) : t.start m ids + (t.kept ids).length ≤ m := by
  rw [TextTokenizer.start]
  split <;> omega

theorem length_inputIds (h : (t.kept ids).length ≤ m) :
    (t.padRow m ids truncated).inputIds.length = m := by
  rw [TextTokenizer.padRow]
  split
  · rw [List.length_append, List.length_replicate, Nat.sub_add_cancel h]
  · rw [List.length_append, List.length_replicate, Nat.add_sub_cancel' h]

theorem length_attentionMask (h : (t.kept ids).length ≤ m) :
    (t.padRow m ids truncated).attentionMask.length = m := by
  rw [TextTokenizer.padRow]
  split
  · rw [List.length_append, List.length_replicate, List.length_replicate, Nat.sub_add_cancel h]
  · rw [List.length_append, List.length_replicate, List.length_replicate, Nat.add_sub_cancel' h]

theorem truncated_padRow : (t.padRow m ids truncated).truncated = truncated := by
  rw [TextTokenizer.padRow]
  split <;> rfl

theorem getElem?_attentionMask (h : (t.kept ids).length ≤ m) (hs : s < m) :
    (t.padRow m ids truncated).attentionMask[s]? =
      some (if t.start m ids ≤ s ∧ s < t.start m ids + (t.kept ids).length then 1 else 0) := by
  rw [TextTokenizer.padRow, TextTokenizer.start]
  split
  · rw [List.getElem?_append, List.length_replicate, List.getElem?_replicate,
      List.getElem?_replicate]
    split_ifs <;> first | rfl | omega
  · rw [List.getElem?_append, List.length_replicate, List.getElem?_replicate,
      List.getElem?_replicate]
    split_ifs <;> first | rfl | omega

theorem getElem?_inputIds {k : Nat} (hk : k < (t.kept ids).length) :
    (t.padRow m ids truncated).inputIds[t.start m ids + k]? = (t.kept ids)[k]? := by
  rw [TextTokenizer.padRow, TextTokenizer.start]
  split
  · rw [List.getElem?_append_right (by rw [List.length_replicate]; omega), List.length_replicate,
      Nat.add_sub_cancel_left]
  · rw [Nat.zero_add, List.getElem?_append_left hk]

end

/-! ## Embedding a batch -/

namespace OnnxEmbedder

variable {σ : Type} {o : OnnxEmbedder σ} {states : List UInt32 → List (List F16)}
  {encoded : List (List UInt32 × Bool)} {e : List UInt32 × Bool} {outputs : HiddenStates}
  {texts : List String} {role : Role} {out : List Embedding} {b : Nat} {row : List σ}

/-- What the session is asked for a batch. -/
def runOf (o : OnnxEmbedder σ) (encoded : List (List UInt32 × Bool)) : Except String HiddenStates :=
  o.session.run encoded.length (o.tokenizer.maxInBatch encoded)
    (flattened (o.tokenizer.padRows encoded) (·.inputIds))
    (flattened (o.tokenizer.padRows encoded) (·.attentionMask))

def shapeOf (o : OnnxEmbedder σ) (encoded : List (List UInt32 × Bool)) : List Nat :=
  [encoded.length, o.tokenizer.maxInBatch encoded, o.dims]

/-- The hidden states at the tokens of a row are those of its tokens, whatever pads them and
whatever the other rows are. -/
def RowsAlone (o : OnnxEmbedder σ) (states : List UInt32 → List (List F16)) : Prop :=
  ∀ encoded outputs, (∀ e ∈ encoded, o.tokenizer.kept e.1 ≠ []) → o.runOf encoded = .ok outputs →
    outputs.shape = o.shapeOf encoded → ∀ b e, encoded[b]? = some e →
      (states (o.tokenizer.kept e.1)).length = (o.tokenizer.kept e.1).length ∧
        ∀ k state, (states (o.tokenizer.kept e.1))[k]? = some state →
          stateAt outputs.values (o.tokenizer.maxInBatch encoded) o.dims b
            (o.tokenizer.start (o.tokenizer.maxInBatch encoded) e.1 + k) = some state

/-- The states of the tokens of a text, in single precision. -/
def statesOf (o : OnnxEmbedder σ) (states : List UInt32 → List (List F16))
    (e : List UInt32 × Bool) :
    List (List σ) := (states (o.tokenizer.kept e.1)).map (·.map o.arithmetic.toF32)

/-- The vector of a text before it is rounded. -/
def finished (o : OnnxEmbedder σ) (row : List σ) : List σ :=
  if o.metadata.normalize = .l2 then l2NormalizeRow o.arithmetic row else row

def vectorOf (o : OnnxEmbedder σ) (states : List UInt32 → List (List F16))
    (e : List UInt32 × Bool) : Option (List σ) :=
  (poolStates o.arithmetic o.dims (o.statesOf states e) o.metadata.pooling).map o.finished

/-- The embedding of a text by the states of its tokens. -/
def embeddingOf (o : OnnxEmbedder σ) (states : List UInt32 → List (List F16))
    (e : List UInt32 × Bool) : Option Embedding :=
  (o.vectorOf states e).map fun row => ⟨row.map o.arithmetic.fromF32, e.2⟩

theorem rowHolds (hstates : o.RowsAlone states) (htokens : ∀ e ∈ encoded, o.tokenizer.kept e.1 ≠ [])
    (hrun : o.runOf encoded = .ok outputs) (hshape : outputs.shape = o.shapeOf encoded)
    (he : encoded[b]? = some e) :
    RowHolds (outputs.values.map o.arithmetic.toF32)
      ((o.tokenizer.padRows encoded).flatMap (·.attentionMask)) (o.tokenizer.maxInBatch encoded)
        o.dims b
      (o.tokenizer.start (o.tokenizer.maxInBatch encoded) e.1) (o.statesOf states e) := by
  obtain ⟨hlength, hstate⟩ := hstates encoded outputs htokens hrun hshape b e he
  have hle := length_kept_le (t := o.tokenizer) (List.mem_of_getElem? he)
  have hcount : (o.statesOf states e).length = (o.tokenizer.kept e.1).length := by
    rw [statesOf, List.length_map, hlength]
  have hmask {s : Nat} (hs : s < o.tokenizer.maxInBatch encoded) :
      ((o.tokenizer.padRows encoded).flatMap (·.attentionMask))[b * o.tokenizer.maxInBatch encoded +
        s]? =
        (o.tokenizer.padRow (o.tokenizer.maxInBatch encoded) e.1 e.2).attentionMask[s]? := by
    rw [List.flatMap_def]
    refine getElem?_flatten (fun row hrow => ?_) ?_ hs
    · obtain ⟨_, hpadded, rfl⟩ := List.mem_map.mp hrow
      obtain ⟨e, he, rfl⟩ := List.mem_map.mp hpadded
      exact length_attentionMask (length_kept_le he)
    · rw [List.getElem?_map, TextTokenizer.padRows, List.getElem?_map, he]
      rfl
  constructor
  · rw [hcount]
    exact start_add_le hle
  · intro s hs hout
    rw [hmask hs, getElem?_attentionMask hle hs, if_neg]
    rw [hcount] at hout
    omega
  · intro s hstart hlt
    rw [hcount] at hlt
    have hs := hlt.trans_le (start_add_le hle)
    rw [hmask hs, getElem?_attentionMask hle hs, if_pos ⟨hstart, hlt⟩]
  · intro k state hk
    obtain ⟨half, hhalf, rfl⟩ := Option.map_eq_some_iff.mp (List.getElem?_map ▸ hk)
    exact slice_map (hstate k half hhalf)

/-- The rows of a batch are the vectors of its texts. Without dimensions there is nothing to
normalize. -/
theorem rows_eq {hidden : List σ} {seq : Nat} (htokens : ∀ e ∈ encoded, o.statesOf states e ≠ [])
    (hholds : ∀ b e, encoded[b]? = some e →
      RowHolds hidden ((o.tokenizer.padRows encoded).flatMap (·.attentionMask)) seq o.dims b
        (o.tokenizer.start seq e.1) (o.statesOf states e)) :
    o.rows hidden (o.tokenizer.padRows encoded) seq =
      if o.metadata.normalize = .l2 ∧ o.dims = 0 then none
      else encoded.mapM (o.vectorOf states) := by
  obtain ⟨pooled, hpooled⟩ := Option.isSome_iff_exists.mp (OptionList.isSome_mapM_iff.mpr
    fun e he => isSome_poolStates (htokens e he) : (encoded.mapM fun e =>
      poolStates o.arithmetic o.dims (o.statesOf states e) o.metadata.pooling).isSome = true)
  have hall := OptionList.mapM_eq_some_iff.mp hpooled
  have hlength : pooled.length = (o.tokenizer.padRows encoded).length := by
    rw [TextTokenizer.padRows, List.length_map, hall.length_eq]
  have hstart (e : List UInt32 × Bool) : o.metadata.pooling = .lastToken ∨
      o.tokenizer.start seq e.1 = 0 := by
    rw [TextTokenizer.start]
    split
    · exact .inl (of_decide_eq_true ‹_›)
    · exact .inr rfl
  have hpool : pool o.arithmetic hidden ((o.tokenizer.padRows encoded).flatMap (·.attentionMask))
      (o.tokenizer.padRows encoded).length seq o.dims o.metadata.pooling = some pooled.flatten := by
    refine pool_eq_some hlength fun b row hrow => ?_
    obtain ⟨e, he, heq⟩ := OptionList.exists_of_getElem?_mapM hpooled hrow
    exact ((hholds b e he).poolRow (htokens e (List.mem_of_getElem? he)) (hstart e)).trans heq
  have hdims : ∀ row ∈ pooled, row.length = o.dims := by
    intro row hrow
    obtain ⟨b, hb⟩ := List.mem_iff_getElem?.mp hrow
    obtain ⟨e, he, heq⟩ := OptionList.exists_of_getElem?_mapM hpooled hb
    exact length_poolStates (hholds b e he).length heq
  have hvectors : encoded.mapM (o.vectorOf states) = some (pooled.map o.finished) := by
    refine OptionList.mapM_eq_some_iff.mpr
      (List.forall₂_map_right_iff.mpr (hall.imp fun e row h => ?_))
    rw [vectorOf, h, Option.map_some]
  rw [rows, vectors, hpool, hvectors, Option.bind_eq_bind, Option.bind_eq_bind, Option.bind_some]
  by_cases hl2 : o.metadata.normalize = .l2
  · have hfinished : o.finished = l2NormalizeRow o.arithmetic := funext fun row => if_pos hl2
    rw [if_pos hl2, hfinished]
    rcases Nat.eq_zero_or_pos o.dims with hzero | hpos
    · rw [if_pos ⟨hl2, hzero⟩, l2NormalizeRows, if_pos (.inl hzero)]
      rfl
    · rw [if_neg fun h => hpos.ne' h.2, l2NormalizeRows_flatten hpos hdims, Option.bind_some]
      refine mapM_slice_flatten (List.forall_mem_map.mpr fun row hrow => ?_)
        (by rw [List.length_map, hlength])
      rw [length_l2NormalizeRow, hdims row hrow]
  · have hfinished : o.finished = id := funext fun row => if_neg hl2
    rw [if_neg hl2, if_neg fun h => hl2 h.1, hfinished, List.map_id]
    exact mapM_slice_flatten hdims hlength.symm

theorem checkShape_eq_ok {batch seq : Nat} {shape : List Nat} {u : Unit} :
    o.checkShape batch seq shape = .ok u ↔ shape = [batch, seq, o.dims] := by
  unfold checkShape
  dsimp only
  split
  · simp only [List.cons.injEq, and_true]
    split_ifs with hrows hseq
    · simp only [false_iff]
      omega
    · simp only [false_iff]
      omega
    · simp only [true_iff]
      omega
  · rename_i hshape
    simp only [reduceCtorEq, false_iff]
    exact hshape _ _ _

theorem hidden_eq_ok {hidden : List σ} :
    o.hidden (o.tokenizer.padRows encoded) (o.tokenizer.maxInBatch encoded) = .ok hidden ↔
      (∀ field ∈ [EncodedInput.inputIds, EncodedInput.attentionMask],
        o.session.fromArray encoded.length (o.tokenizer.maxInBatch encoded)
          (flattened (o.tokenizer.padRows encoded) field) = .ok ()) ∧
      o.session.poisoned = false ∧ ∃ outputs, o.runOf encoded = .ok outputs ∧
        o.session.tryExtract outputs = .ok () ∧ outputs.shape = o.shapeOf encoded ∧
        outputs.values.map o.arithmetic.toF32 = hidden := by
  have hlength : (o.tokenizer.padRows encoded).length = encoded.length := List.length_map _
  rw [OnnxEmbedder.hidden]
  simp only [Except.bind_eq_ok, Except.mapError_eq_ok, Except.if_throw_eq_ok, hlength,
    checkShape_eq_ok, List.forall_mem_cons, List.not_mem_nil, IsEmpty.forall_iff, implies_true,
      and_true, Bool.not_eq_true, pure, Except.pure,
    Except.ok.injEq, runOf, shapeOf]
  constructor
  · rintro ⟨_, hids, _, hmask, hpoisoned, outputs, hrun, _, hextract, _, hshape, heq⟩
    exact ⟨⟨hids, hmask⟩, hpoisoned, outputs, hrun, hextract, hshape, heq⟩
  · rintro ⟨⟨hids, hmask⟩, hpoisoned, outputs, hrun, hextract, hshape, heq⟩
    exact ⟨(), hids, (), hmask, hpoisoned, outputs, hrun, (), hextract, (), hshape, heq⟩

/-- The first row is as long as the longest. -/
theorem embedBatch_eq_ok (hne : texts ≠ []) (hne' : encoded ≠ [])
    (hencoded : texts.mapM (fun text => o.tokenizer.encodeUnpadded text role) = .ok encoded) :
    o.embedBatch texts role = .ok out ↔ ∃ hidden rows,
      o.hidden (o.tokenizer.padRows encoded) (o.tokenizer.maxInBatch encoded) = .ok hidden ∧
      o.rows hidden (o.tokenizer.padRows encoded) (o.tokenizer.maxInBatch encoded) = some rows ∧
      List.zipWith (fun row e => ⟨row.map o.arithmetic.fromF32, e.truncated⟩) rows
        (o.tokenizer.padRows encoded) = out := by
  have hpadded : o.tokenizer.encodeBatchPadded texts role = .ok (o.tokenizer.padRows encoded) := by
    rw [TextTokenizer.encodeBatchPadded, hencoded]
    rfl
  obtain ⟨e, rest, hcons⟩ := List.exists_cons_of_ne_nil hne'
  have hfirst : o.tokenizer.padRows encoded = o.tokenizer.padRow (o.tokenizer.maxInBatch encoded)
      e.1 e.2 ::
      rest.map fun e => o.tokenizer.padRow (o.tokenizer.maxInBatch encoded) e.1 e.2 := by
    rw [TextTokenizer.padRows]
    exact congrArg (List.map _) hcons
  have hseq : (o.tokenizer.padRow (o.tokenizer.maxInBatch encoded) e.1 e.2).inputIds.length =
      o.tokenizer.maxInBatch encoded :=
        length_inputIds (length_kept_le (hcons ▸ List.mem_cons_self))
  rw [embedBatch, if_neg hne, hpadded]
  generalize o.tokenizer.padRows encoded = padded at *
  subst hfirst
  show Except.mapError _ (o.hidden _ (TextTokenizer.padRow _ _ _ _).inputIds.length) >>= _ = _ ↔ _
  rw [hseq, Except.bind_eq_ok]
  simp only [Except.mapError_eq_ok]
  refine exists_congr fun hidden => ?_
  cases o.rows hidden _ _ with
  | none => simp [throw, throwThe, MonadExceptOf.throw]
  | some rows => simp [pure, Except.pure]

end OnnxEmbedder

/-! ## Whatever the batches are -/

/-- A text of which the model sees a token. -/
def TextTokenizer.HasTokens (t : TextTokenizer) (role : Role) (text : String) : Prop :=
  ∃ e, t.encodeUnpadded text role = .ok e ∧ t.kept e.1 ≠ []

namespace OnnxEmbedder

variable {σ : Type} {o : OnnxEmbedder σ} {states : List UInt32 → List (List F16)}
  {encoded : List (List UInt32 × Bool)} {texts : List String} {text : String} {role : Role}
  {out : List Embedding} {x y : Embedding} {limit : Nat}

/-- The embedding of a text by the states of its tokens. -/
def Embeds (o : OnnxEmbedder σ) (states : List UInt32 → List (List F16)) (role : Role)
    (text : String) (x : Embedding) : Prop :=
  ∃ e, o.tokenizer.encodeUnpadded text role = .ok e ∧ o.embeddingOf states e = some x

theorem Embeds.unique (hx : o.Embeds states role text x) (hy : o.Embeds states role text y) :
    x = y := by
  obtain ⟨e, he, hx⟩ := hx
  obtain ⟨e', he', hy⟩ := hy
  obtain rfl := Except.ok.inj (he.symm.trans he')
  exact Option.some_inj.mp (hx.symm.trans hy)

/-- The runtime answers every batch with hidden states of the shape of the batch. -/
structure Answers (o : OnnxEmbedder σ) : Prop where
  dims : 0 < o.dims
  lock : o.session.poisoned = false
  tensors : ∀ encoded, ∀ field ∈ [EncodedInput.inputIds, EncodedInput.attentionMask],
    o.session.fromArray encoded.length (o.tokenizer.maxInBatch encoded)
      (flattened (o.tokenizer.padRows encoded) field) = .ok ()
  run : ∀ encoded, ∃ outputs, o.runOf encoded = .ok outputs ∧
    o.session.tryExtract outputs = .ok () ∧ outputs.shape = o.shapeOf encoded

theorem forall₂_trans {α β γ : Type} {R : α → β → Prop} {S : β → γ → Prop} {T : α → γ → Prop}
    {l : List α} {l' : List β} {l'' : List γ} (h : ∀ a b c, R a b → S b c → T a c)
    (hR : List.Forall₂ R l l') (hS : List.Forall₂ S l' l'') : List.Forall₂ T l l'' := by
  induction hR generalizing l'' with
  | nil =>
    cases hS
    exact .nil
  | cons hab _ ih =>
    cases hS with
    | cons hbc hS => exact .cons (h _ _ _ hab hbc) (ih hS)

theorem exists_encoded (h : ∀ text ∈ texts, o.tokenizer.HasTokens role text) :
    ∃ encoded, List.Forall₂ (fun text e => o.tokenizer.encodeUnpadded text role = .ok e) texts
      encoded ∧ ∀ e ∈ encoded, o.tokenizer.kept e.1 ≠ [] := by
  induction texts with
  | nil => exact ⟨[], .nil, List.forall_mem_nil _⟩
  | cons text texts ih =>
    obtain ⟨⟨e, he, hkept⟩, htexts⟩ := List.forall_mem_cons.mp h
    obtain ⟨encoded, hall, htokens⟩ := ih htexts
    exact ⟨e :: encoded, .cons he hall, List.forall_mem_cons.mpr ⟨hkept, htokens⟩⟩

/-- The rows become the embeddings of the texts. -/
theorem forall₂_zipWith {rows : List (List σ)} {m : Nat}
    (h : List.Forall₂ (fun e row => o.vectorOf states e = some row) encoded rows) :
    List.Forall₂ (fun e x => o.embeddingOf states e = some x) encoded
      (List.zipWith (fun row e => ⟨row.map o.arithmetic.fromF32, e.truncated⟩) rows
        (encoded.map fun e => o.tokenizer.padRow m e.1 e.2)) := by
  induction h with
  | nil => exact .nil
  | cons hrow _ ih =>
    refine .cons ?_ ih
    dsimp only
    rw [embeddingOf, hrow, Option.map_some, truncated_padRow]

/-- The rows of the hidden states of a batch. -/
theorem rows_of_run {hidden : List σ} (hstates : o.RowsAlone states)
    (htokens : ∀ e ∈ encoded, o.tokenizer.kept e.1 ≠ [])
    (hhidden : o.hidden (o.tokenizer.padRows encoded) (o.tokenizer.maxInBatch encoded) =
      .ok hidden) :
    (∀ e ∈ encoded, o.statesOf states e ≠ []) ∧
      o.rows hidden (o.tokenizer.padRows encoded) (o.tokenizer.maxInBatch encoded) =
        if o.metadata.normalize = .l2 ∧ o.dims = 0 then none
        else encoded.mapM (o.vectorOf states) := by
  obtain ⟨-, -, outputs, hrun, -, hshape, rfl⟩ := hidden_eq_ok.mp hhidden
  have hne : ∀ e ∈ encoded, o.statesOf states e ≠ [] := by
    intro e he
    obtain ⟨b, hb⟩ := List.mem_iff_getElem?.mp he
    obtain ⟨hlength, -⟩ := hstates encoded outputs htokens hrun hshape b e hb
    rw [statesOf, ← List.length_pos_iff, List.length_map, hlength]
    exact List.length_pos_iff.mpr (htokens e he)
  exact ⟨hne, rows_eq hne fun b e he => rowHolds hstates htokens hrun hshape he⟩

theorem forall₂_embedBatch (hstates : o.RowsAlone states)
    (htokens : ∀ text ∈ texts, o.tokenizer.HasTokens role text)
    (h : o.embedBatch texts role = .ok out) : List.Forall₂ (o.Embeds states role) texts out := by
  rcases eq_or_ne texts [] with rfl | hne
  · obtain rfl := Except.ok.inj h
    exact .nil
  obtain ⟨encoded, hall, hkept⟩ := exists_encoded htokens
  have hne' : encoded ≠ [] :=
    fun heq => hne (List.length_eq_zero_iff.mp (hall.length_eq.trans (heq ▸ rfl)))
  obtain ⟨hidden, rows, hhidden, hrows, rfl⟩ :=
    (embedBatch_eq_ok hne hne' (Except.mapM_eq_ok hall)).mp h
  obtain ⟨-, hsome⟩ := rows_of_run hstates hkept hhidden
  rw [hsome] at hrows
  split at hrows
  · cases hrows
  exact forall₂_trans (fun text e x he hx => ⟨e, he, hx⟩) hall
    (forall₂_zipWith (OptionList.mapM_eq_some_iff.mp hrows))

theorem exists_embedBatch (hstates : o.RowsAlone states)
    (htokens : ∀ text ∈ texts, o.tokenizer.HasTokens role text) (hanswers : o.Answers) :
    ∃ out, o.embedBatch texts role = .ok out := by
  rcases eq_or_ne texts [] with rfl | hne
  · exact ⟨[], rfl⟩
  obtain ⟨encoded, hall, hkept⟩ := exists_encoded htokens
  have hne' : encoded ≠ [] :=
    fun heq => hne (List.length_eq_zero_iff.mp (hall.length_eq.trans (heq ▸ rfl)))
  obtain ⟨outputs, hrun, hextract, hshape⟩ := hanswers.run encoded
  have hhidden :=
    hidden_eq_ok.mpr ⟨hanswers.tensors encoded, hanswers.lock, outputs, hrun, hextract, hshape, rfl⟩
  obtain ⟨hne'', hsome⟩ := rows_of_run hstates hkept hhidden
  have hvectors : (encoded.mapM (o.vectorOf states)).isSome = true :=
    OptionList.isSome_mapM_iff.mpr fun e he =>
    Option.isSome_map.trans (isSome_poolStates (hne'' e he))
  obtain ⟨rows, hrows⟩ := Option.isSome_iff_exists.mp hvectors
  rw [if_neg fun h => hanswers.dims.ne' h.2, hrows] at hsome
  exact ⟨_, (embedBatch_eq_ok hne hne' (Except.mapM_eq_ok hall)).mpr ⟨_, rows, hhidden, hsome, rfl⟩⟩

/-- A text has the embedding that it has alone, as the one text of a batch, whatever the batches
are; and if the runtime answers, then all texts are embedded. -/
theorem embed_alone (hstates : o.RowsAlone states)
    (htokens : ∀ text ∈ texts, o.tokenizer.HasTokens role text) :
    (∀ out : List Embedding, embedWithBatchLimit texts role limit o.embedBatch = .ok out →
      out.length = texts.length ∧ ∀ (i : Nat) text, texts[i]? = some text → ∀ limit' alone,
        embedWithBatchLimit [text] role limit' o.embedBatch = .ok alone →
          ∃ x, alone = [x] ∧ o.embedBatch [text] role = .ok [x] ∧ out[i]? = some x) ∧
      (o.Answers → 0 < limit →
        (∃ out, embedWithBatchLimit texts role limit o.embedBatch = .ok out) ∧
        ∀ text ∈ texts,
          ∃ alone, embedWithBatchLimit [text] role limit o.embedBatch = .ok alone) := by
  have hall {part : List String} {limit : Nat} {out : List Embedding}
      (hpart : ∀ text ∈ part, text ∈ texts)
      (h : embedWithBatchLimit part role limit o.embedBatch = .ok out) :
      List.Forall₂ (o.Embeds states role) part out :=
    forall₂_embedWithBatchLimit (fun chunk hchunk es => forall₂_embedBatch hstates
      fun text htext => htokens text (hpart text (hchunk text htext))) h
  have hexists {part : List String} (hpart : ∀ text ∈ part, text ∈ texts) (hanswers : o.Answers)
      (hlimit : 0 < limit) : ∃ out, embedWithBatchLimit part role limit o.embedBatch = .ok out :=
    exists_embedWithBatchLimit hlimit fun chunk hchunk =>
      exists_embedBatch hstates (fun text htext => htokens text (hpart text (hchunk text htext)))
        hanswers
  refine ⟨fun out hout => ?_, fun hanswers hlimit =>
    ⟨hexists (fun _ => id) hanswers hlimit, fun text htext =>
    hexists (List.forall_mem_singleton.mpr htext) hanswers hlimit⟩⟩
  have hbatched := hall (fun _ => id) hout
  refine ⟨hbatched.length_eq.symm, fun i text htext limit' alone halone => ?_⟩
  obtain ⟨hi, rfl⟩ := List.getElem?_eq_some_iff.mp htext
  have hi' : i < out.length := hbatched.length_eq ▸ hi
  cases hall (List.forall_mem_singleton.mpr (List.getElem_mem hi)) halone with
  | cons hx hrest =>
    cases hrest
    refine ⟨_, rfl, embedWithBatchLimit_singleton halone, ?_⟩
    rw [List.getElem?_eq_getElem hi']
    exact congrArg some ((hbatched.get hi hi').unique hx)

/-- Tokens are letters, of which the model takes two, and the state of a token is its number. -/
def sample : OnnxEmbedder Rat where
  session :=
    { fromArray := fun _ _ _ => .ok ()
      poisoned := false
      run := fun batch seq ids _ => .ok ⟨[batch, seq, 1], ids.map fun x => UInt16.ofNat x.toNat⟩
      tryExtract := fun _ => .ok ()
      lowercase := id }
  tokenizer :=
    { tokenizer :=
        { encode := fun text => .ok (text.toList.map fun c => UInt32.ofNat c.toNat)
          encodeTruncated :=
            fun n text => .ok ((text.toList.take n).map fun c => UInt32.ofNat c.toNat)
          getPadding := none
          tokenToId := fun _ => none }
      metadata :=
        { modelId := "sample"
          dims := 1
          maxSequenceLength := 2
          pooling := .mean
          normalize := .none
          queryPrefix := none
          documentPrefix := none
          onnxSha256 := ""
          tokenizerSha256 := "" } }
  arithmetic :=
    { zero := 0
      add := (· + ·)
      mul := (· * ·)
      recip := fun n => 1 / n
      recipSqrt := fun x => 1 / x
      isZero := (· = 0)
      toF32 := fun x => x.toNat
      fromF32 := fun x => UInt16.ofNat x.floor.toNat }

def sampleStates (tokens : List UInt32) : List (List F16) :=
  tokens.map fun x => [UInt16.ofNat x.toNat]

theorem sample_rowsAlone : sample.RowsAlone sampleStates := by
  intro encoded outputs _ hrun _ b e he
  obtain rfl := Except.ok.inj hrun
  refine ⟨List.length_map _, fun k state hk => ?_⟩
  obtain ⟨x, hx, rfl⟩ := Option.map_eq_some_iff.mp (List.getElem?_map ▸ hk)
  obtain ⟨hlt, -⟩ := List.getElem?_eq_some_iff.mp hx
  have hle := length_kept_le (t := sample.tokenizer) (List.mem_of_getElem? he)
  have hrows : ∀ row ∈ (sample.tokenizer.padRows encoded).map (·.inputIds),
      row.length = sample.tokenizer.maxInBatch encoded :=
    List.forall_mem_map.mpr
      (List.forall_mem_map.mpr fun e he => length_inputIds (length_kept_le he))
  have hrow : ((sample.tokenizer.padRows encoded).map (·.inputIds))[b]? =
      some (sample.tokenizer.padRow (sample.tokenizer.maxInBatch encoded) e.1 e.2).inputIds := by
    rw [List.getElem?_map, TextTokenizer.padRows, List.getElem?_map, he]
    rfl
  have hid :
      ((sample.tokenizer.padRows encoded).flatMap (·.inputIds))[
        b * sample.tokenizer.maxInBatch encoded +
          (sample.tokenizer.start (sample.tokenizer.maxInBatch encoded) e.1 + k)]? = some x := by
    rw [List.flatMap_def,
      getElem?_flatten hrows hrow ((Nat.add_lt_add_left hlt _).trans_le (start_add_le hle)),
      getElem?_inputIds hlt, hx]
  refine slice_one ?_
  rw [List.getElem?_map, flattened, List.getElem?_map, hid]
  rfl

theorem sample_answers : sample.Answers where
  dims := Nat.one_pos
  lock := rfl
  tensors _ _ _ := rfl
  run _ := ⟨_, rfl, rfl, rfl⟩

theorem embed_alone_sample :
    (∀ out : List Embedding,
      embedWithBatchLimit ["ab", "c", "def"] .document 2 sample.embedBatch = .ok out →
      out.length = 3 ∧ ∀ (i : Nat) text, ["ab", "c", "def"][i]? = some text → ∀ limit' alone,
        embedWithBatchLimit [text] .document limit' sample.embedBatch = .ok alone →
          ∃ x, alone = [x] ∧ sample.embedBatch [text] .document = .ok [x] ∧ out[i]? = some x) ∧
      (∃ out, embedWithBatchLimit ["ab", "c", "def"] .document 2 sample.embedBatch = .ok out) ∧
        ∀ text ∈ ["ab", "c", "def"], ∃ alone,
          embedWithBatchLimit [text] .document 2 sample.embedBatch = .ok alone := by
  have htokens : ∀ text ∈ ["ab", "c", "def"], sample.tokenizer.HasTokens .document text := by
    simp only [List.forall_mem_cons, List.not_mem_nil, IsEmpty.forall_iff, implies_true, and_true]
    exact ⟨⟨_, rfl, by decide⟩, ⟨_, rfl, by decide⟩, ⟨_, rfl, by decide⟩⟩
  exact ⟨(embed_alone sample_rowsAlone htokens).1,
    (embed_alone sample_rowsAlone htokens).2 sample_answers Nat.two_pos⟩

end OnnxEmbedder

end SiftMcp.Inference
