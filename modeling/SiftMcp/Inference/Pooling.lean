import SiftMcp.Inference.Embedder
import SiftMcp.Lib.RowMajor

/-!
# Pooling

`pool` makes one vector of the hidden states of each row of a batch, that lie one after the other,
and `l2_normalize_rows` scales these. The numbers are those of any arithmetic.

By `RowHolds.poolRow` the positions of the padding do not show in the vector of a row.
-/

namespace SiftMcp.Inference
open RowMajor

/-- The arithmetic of `f32`. -/
structure PoolArithmetic (σ : Type) where
  zero : σ
  add : σ → σ → σ
  mul : σ → σ → σ
  /-- `1.0 / n as f32` -/
  recip : Nat → σ
  /-- `1.0 / x.sqrt()` -/
  recipSqrt : σ → σ
  /-- `x == 0.0` -/
  isZero : σ → Bool
  toF32 : F16 → σ
  fromF32 : σ → F16

variable {σ : Type} (F : PoolArithmetic σ)

/-- `row_out[d] += hidden[base + d]` -/
def addRow (row state : List σ) : List σ := List.zipWith F.add row state

/-- `*v *= inv` -/
def scaleRow (row : List σ) (inv : σ) : List σ := row.map (F.mul · inv)

section
variable (hidden : List σ) (mask : List UInt32) (seq dims b : Nat)

/-- The state at a position of a row. -/
def stateAt (s : Nat) : Option (List σ) := slice hidden ((b * seq + s) * dims) dims

/-- The turn of the loop of a mean, that goes over the tokens that are not masked. -/
def addToken (acc : List σ × Nat) (s : Nat) : Option (List σ × Nat) := do
  if (← mask[b * seq + s]?) = 0 then return acc
  return (addRow F acc.1 (← stateAt hidden seq dims b s), acc.2 + 1)

/-- Without a token, all positions are added. -/
def addPosition (row : List σ) (s : Nat) : Option (List σ) := do
  return addRow F row (← stateAt hidden seq dims b s)

def lastToken (idx : Option Nat) (s : Nat) : Option (Option Nat) := do
  return if (← mask[b * seq + s]?) ≠ 0 then some s else idx

/-- The row of `pool` for a row of the batch. It panics where an index is behind the end. -/
def poolRow : Pooling → Option (List σ)
  | .mean => do
    let (row, count) ← (List.range seq).foldlM (addToken F hidden mask seq dims b)
      (List.replicate dims F.zero, 0)
    if 0 < count then return scaleRow F row (F.recip count)
    let row ← (List.range seq).foldlM (addPosition F hidden seq dims b) row
    return if 0 < seq then scaleRow F row (F.recip seq) else row
  | .lastToken => do
    let idx ← (List.range seq).foldlM (lastToken mask seq b) none
    stateAt hidden seq dims b (idx.getD (seq - 1))
  | .cls => stateAt hidden seq dims b 0

end

def pool (hidden : List σ) (mask : List UInt32) (batch seq dims : Nat) (strategy : Pooling) :
    Option (List σ) := do
  return (← (List.range batch).mapM fun b => poolRow F hidden mask seq dims b strategy).flatten

def l2NormalizeRow (row : List σ) : List σ :=
  let sumSq := row.foldl (fun sum v => F.add sum (F.mul v v)) F.zero
  if F.isZero sumSq then row else scaleRow F row (F.recipSqrt sumSq)

/-- `l2_normalize_rows`, that asserts that there are whole rows. -/
def l2NormalizeRows (vectors : List σ) (dims : Nat) : Option (List σ) :=
  if dims = 0 ∨ vectors.length % dims ≠ 0 then none
  else do
    return (← (List.range (vectors.length / dims)).mapM fun r =>
      (slice vectors (r * dims) dims).map (l2NormalizeRow F)).flatten

/-! ## The tokens of a row -/

variable {F} {hidden : List σ} {mask : List UInt32} {seq dims b off n start s : Nat}
  {states : List (List σ)} {state row : List σ} {count : Nat} {acc : List σ × Nat}
  {idx : Option Nat} {strategy : Pooling}

/-- What pooling makes of the states of some tokens. -/
def poolStates (F : PoolArithmetic σ) (dims : Nat) (states : List (List σ)) :
    Pooling → Option (List σ)
  | .mean =>
    scaleRow F (states.foldl (addRow F) (List.replicate dims F.zero)) (F.recip states.length)
  | .lastToken => states.getLast?
  | .cls => states.head?

/-- A row has tokens from the position `off` on, and their states there. -/
structure RowHolds (hidden : List σ) (mask : List UInt32) (seq dims b off : Nat)
    (states : List (List σ)) : Prop where
  fits : off + states.length ≤ seq
  masked : ∀ s < seq, s < off ∨ off + states.length ≤ s → mask[b * seq + s]? = some 0
  token : ∀ s, off ≤ s → s < off + states.length → mask[b * seq + s]? = some 1
  state : ∀ k state, states[k]? = some state → stateAt hidden seq dims b (off + k) = some state

theorem addToken_masked (h : mask[b * seq + s]? = some 0) :
    addToken F hidden mask seq dims b acc s = some acc := by
  rw [addToken, h]
  rfl

theorem addToken_token (h : mask[b * seq + s]? = some 1)
    (hstate : stateAt hidden seq dims b s = some state) :
    addToken F hidden mask seq dims b acc s = some (addRow F acc.1 state, acc.2 + 1) := by
  rw [addToken, h, hstate]
  rfl

theorem lastToken_masked (h : mask[b * seq + s]? = some 0) :
    lastToken mask seq b idx s = some idx := by
  rw [lastToken, h]
  rfl

theorem lastToken_token (h : mask[b * seq + s]? = some 1) :
    lastToken mask seq b idx s = some (some s) := by
  rw [lastToken, h]
  rfl

theorem foldlM_of_forall {α β : Type} {f : β → α → Option β} {l : List α} {b : β}
    (h : ∀ a ∈ l, f b a = some b) : l.foldlM f b = some b := by
  induction l with
  | nil => rfl
  | cons a l ih =>
    rw [List.foldlM_cons, h a List.mem_cons_self]
    exact ih fun a ha => h a (List.mem_cons_of_mem _ ha)

/-- A loop over the positions of a row that passes over those without a token. -/
theorem RowHolds.foldlM_range {β : Type} {f : β → Nat → Option β} {init : β}
    (H : RowHolds hidden mask seq dims b off states)
    (hmasked : ∀ acc s, mask[b * seq + s]? = some 0 → f acc s = some acc) :
    (List.range seq).foldlM f init = (List.range' off states.length).foldlM f init := by
  obtain ⟨after, rfl⟩ := Nat.exists_eq_add_of_le H.fits
  have hseq : List.range (off + states.length + after) = List.range' 0 off ++
      (List.range' off states.length ++ List.range' (off + states.length) after) := by
    have hsplit := List.range'_append_1 (s := 0) (m := off) (n := states.length + after)
    rw [Nat.zero_add] at hsplit
    rw [List.range'_append_1, hsplit, List.range_eq_range', Nat.add_assoc]
  have hbefore : (List.range' 0 off).foldlM f init = some init := by
    refine foldlM_of_forall fun s hs => hmasked _ _ (H.masked s ?_ (.inl ?_))
    all_goals
      have := List.mem_range'_1.mp hs
      omega
  rw [hseq, List.foldlM_append, hbefore, Option.bind_eq_bind, Option.bind_some, List.foldlM_append]
  refine (congrArg _
    (funext fun acc => foldlM_of_forall fun s hs => hmasked _ _ (H.masked s ?_ (.inr ?_)))).trans
    (Option.bind_fun_some _)
  all_goals
    have := List.mem_range'_1.mp hs
    omega

theorem foldlM_addToken (htoken : ∀ k < states.length, mask[b * seq + (start + k)]? = some 1)
    (hstate : ∀ k state, states[k]? = some state →
      stateAt hidden seq dims b (start + k) = some state) :
    (List.range' start states.length).foldlM (addToken F hidden mask seq dims b) (row, count) =
      some (states.foldl (addRow F) row, count + states.length) := by
  induction states generalizing start row count with
  | nil => rfl
  | cons state states ih =>
    rw [List.length_cons, List.range'_succ, List.foldlM_cons,
      addToken_token (s := start) (htoken 0 (Nat.succ_pos _)) (hstate 0 state rfl)]
    refine (ih (fun k hk => ?_) fun k s hs => ?_).trans ?_
    · rw [Nat.add_assoc, Nat.add_comm 1]
      exact htoken (k + 1) (Nat.succ_lt_succ hk)
    · rw [Nat.add_assoc, Nat.add_comm 1]
      exact hstate (k + 1) s hs
    · rw [List.foldl_cons, Nat.add_assoc, Nat.add_comm 1]

theorem foldlM_lastToken (htoken : ∀ s, start ≤ s → s < start + (n + 1) →
    mask[b * seq + s]? = some 1) :
    (List.range' start (n + 1)).foldlM (lastToken mask seq b) idx = some (some (start + n)) := by
  induction n generalizing start idx with
  | zero =>
    exact (congrArg (· >>= _) (lastToken_token (htoken start le_rfl (Nat.lt_succ_self _)))).trans
      rfl
  | succ n ih =>
    rw [List.range'_succ, List.foldlM_cons, lastToken_token (htoken start le_rfl (by omega))]
    refine (ih fun s hs hlt => htoken s (by omega) (by omega)).trans ?_
    rw [Nat.add_assoc, Nat.add_comm 1]

/-- Pooling reads the tokens of a row only. The first token stands first unless the strategy takes
the last. -/
theorem RowHolds.poolRow (H : RowHolds hidden mask seq dims b off states) (hne : states ≠ [])
    (hoff : strategy = .lastToken ∨ off = 0) :
    poolRow F hidden mask seq dims b strategy = poolStates F dims states strategy := by
  have hpos := List.length_pos_iff.mpr hne
  cases strategy with
  | mean =>
    have hfold : (List.range' off states.length).foldlM (addToken F hidden mask seq dims b)
        (List.replicate dims F.zero, 0) =
          some (states.foldl (addRow F) (List.replicate dims F.zero), 0 + states.length) :=
      foldlM_addToken
        (fun k hk => H.token (off + k) (Nat.le_add_right _ _) (Nat.add_lt_add_left hk _)) H.state
    rw [Inference.poolRow, H.foldlM_range fun acc s => addToken_masked, hfold, Nat.zero_add]
    exact if_pos hpos
  | lastToken =>
    obtain ⟨n, hn⟩ := Nat.exists_eq_succ_of_ne_zero hpos.ne'
    rw [Inference.poolRow, H.foldlM_range fun acc s => lastToken_masked, hn,
      foldlM_lastToken fun s hs hlt => H.token s hs (hn ▸ hlt)]
    have hlast : states.getLast? = some (states.getLast hne) := List.getLast?_eq_some_getLast hne
    refine (H.state n (states.getLast hne) ?_).trans hlast.symm
    rw [← hlast, List.getLast?_eq_getElem?, hn, Nat.succ_sub_one]
  | cls =>
    obtain rfl := hoff.resolve_left (by decide)
    obtain ⟨state, rest, rfl⟩ := List.exists_cons_of_ne_nil hne
    exact H.state 0 state rfl

/-! ## The rows of a batch -/

variable {rows : List (List σ)} {batch : Nat}

theorem length_addRow (hrow : row.length = dims) (hstate : state.length = dims) :
    (addRow F row state).length = dims := by
  rw [addRow, List.length_zipWith, hrow, hstate, Nat.min_self]

theorem length_foldl_addRow (hrow : row.length = dims)
    (hstates : ∀ state ∈ states, state.length = dims) :
    (states.foldl (addRow F) row).length = dims := by
  induction states generalizing row with
  | nil => exact hrow
  | cons state states ih =>
    obtain ⟨hstate, hstates⟩ := List.forall_mem_cons.mp hstates
    exact ih (length_addRow hrow hstate) hstates

theorem length_poolStates (hstates : ∀ state ∈ states, state.length = dims)
    (h : poolStates F dims states strategy = some row) : row.length = dims := by
  cases strategy with
  | mean =>
    obtain rfl := Option.some_inj.mp h
    rw [scaleRow, List.length_map, length_foldl_addRow List.length_replicate hstates]
  | lastToken => exact hstates row (List.mem_of_getLast? h)
  | cls => exact hstates row (List.mem_of_head? h)

theorem isSome_poolStates (h : states ≠ []) :
    (poolStates F dims states strategy).isSome = true := by
  obtain ⟨state, rest, rfl⟩ := List.exists_cons_of_ne_nil h
  cases strategy with
  | mean => rfl
  | lastToken => rw [poolStates, List.getLast?_cons, Option.isSome_some]
  | cls => rfl

theorem RowHolds.length (H : RowHolds hidden mask seq dims b off states) :
    ∀ state ∈ states, state.length = dims := by
  intro state hstate
  obtain ⟨k, hk⟩ := List.mem_iff_getElem?.mp hstate
  exact length_of_slice (H.state k state hk)

theorem pool_eq_some (hlength : rows.length = batch)
    (hrows : ∀ b row, rows[b]? = some row → poolRow F hidden mask seq dims b strategy = some row) :
    pool F hidden mask batch seq dims strategy = some rows.flatten := by
  rw [pool, OptionList.mapM_range_eq_some_iff.mpr ⟨hlength, hrows⟩]
  rfl

theorem length_l2NormalizeRow : (l2NormalizeRow F row).length = row.length := by
  rw [l2NormalizeRow]
  split
  · rfl
  · rw [scaleRow, List.length_map]

/-- Each row is scaled by itself. -/
theorem l2NormalizeRows_flatten (hdims : 0 < dims) (hrows : ∀ row ∈ rows, row.length = dims) :
    l2NormalizeRows F rows.flatten dims = some (rows.map (l2NormalizeRow F)).flatten := by
  have hlength := length_flatten hrows
  rw [l2NormalizeRows, if_neg, hlength, Nat.mul_div_cancel _ hdims,
    OptionList.mapM_range_eq_some_iff.mpr
      ⟨List.length_map (l2NormalizeRow F), fun i row hrow => ?_⟩]
  · rfl
  · obtain ⟨before, hbefore, rfl⟩ := Option.map_eq_some_iff.mp (List.getElem?_map ▸ hrow)
    rw [slice_flatten hrows hbefore, Option.map_some]
  · rw [hlength, Nat.mul_mod_left, not_or]
    exact ⟨hdims.ne', not_not.mpr rfl⟩

end SiftMcp.Inference
