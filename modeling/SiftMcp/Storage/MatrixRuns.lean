import SiftMcp.Storage.Compaction
import SiftMcp.Storage.MatrixRefinement

/-!
# Runs of a matrix

What a matrix shows after any number of appends, flushes and reopenings. `MatrixRun m vs` says that
such a run on cells has led to the handle `m`, and that `vs` are the vectors that the file started
with followed by those that have been appended; `ByteRun` says it of runs on bytes. The handle
behaves as the list `vs`.

* `MatrixRun.behaves_cells`: runs on cells.
* `ByteRun.refines`: a run on bytes is one on cells.
* `ByteRun.behaves`: runs on bytes.
-/

namespace SiftMcp
open Durable

inductive MatrixRun : EmbeddingMatrix → List (List F16) → Prop
  | created {fails path dims modelId d m}
      (h : (EmbeddingMatrix.create fails path dims modelId d).result = .ok m) : MatrixRun m []
  /-- A file that compaction has cut to exactly its rows. -/
  | cut {f path m} (hlen : f.cells.length = f.rows * f.dims)
      (h : EmbeddingMatrix.openMut path f = .ok m) : MatrixRun m f.vectors
  | append {m vs fails v row} (R : MatrixRun m vs)
      (h : (EmbeddingMatrix.append fails v m).result = .ok row) :
      MatrixRun (EmbeddingMatrix.append fails v m).state (vs ++ [v])
  | flush {m vs fails} (R : MatrixRun m vs) (h : (EmbeddingMatrix.flush fails m).result = .ok ()) :
      MatrixRun (EmbeddingMatrix.flush fails m).state vs
  | reopen {m vs path m'} (R : MatrixRun m vs) (h : EmbeddingMatrix.openMut path m.file = .ok m') :
      MatrixRun m' vs

/-- The handle behaves as the list. An append or a flush is refused only where a step of it
fails. -/
structure EmbeddingMatrix.Behaves (m : EmbeddingMatrix) (vs : List (List F16)) : Prop where
  rows : m.rows = vs.length
  row : ∀ k v, vs[k]? = some v → m.row k = .ok v
  slice : m.asSlice = .ok vs.flatten
  append : ∀ fails v, v.length = m.dims → Prog.wp (EmbeddingMatrix.append fails v)
    (fun row _ => row = vs.length) (fun _ _ => ∃ f, fails f = true) (fun _ _ => True) m
  refused : ∀ fails v, v.length ≠ m.dims → EmbeddingMatrix.append fails v m =
    ⟨.error (.error (.dimensionMismatch m.dims (v.length % 2 ^ 32))), m, []⟩
  flush : ∀ fails, Prog.wp (EmbeddingMatrix.flush fails) (fun _ t => t = m)
    (fun _ _ => fails = true) (fun _ _ => True) m
  reopen : ∀ path, ∃ m', openMut path m.file = .ok m'

/-- The rows of a file, one behind the other. -/
theorem MatrixFile.flatten_vectors {f : MatrixFile} :
    f.vectors.flatten = f.cells.take (f.rows * f.dims) := by
  unfold vectors
  induction f.rows with
  | zero => simp
  | succ n ih =>
    rw [List.range_succ, List.map_append, List.flatten_append, ih, Nat.succ_mul, List.take_add]
    simp [vector]

theorem MatrixHeader.valid_of_decode {h h' : MatrixHeader} (hd : h.decode = .ok h') :
    h.Valid ∧ h' = h := by
  unfold decode at hd
  split at hd
  · cases hd
  · split at hd
    · cases hd
    · split at hd
      · cases hd
      · rename_i hmagic hversion hmodel
        exact ⟨⟨not_not.mp hmagic, not_not.mp hversion, Nat.not_lt.mp hmodel⟩,
          (Except.ok.inj hd).symm⟩

namespace EmbeddingMatrix

variable {m : EmbeddingMatrix} {vs : List (List F16)}

theorem valid_of_openMut {path : String} {f : MatrixFile} (h : openMut path f = .ok m) :
    f.header.Valid := by
  cases hd : f.header.decode with
  | error e =>
    simp only [openMut, hd] at h
    cases h
  | ok h' => exact (MatrixHeader.valid_of_decode hd).1

theorem behaves_of_wf (H : m.WF) : m.Behaves m.file.vectors where
  rows := by rw [MatrixFile.vectors_length, H.ready.rows]
  row k v hk := by
    obtain ⟨hlt, -⟩ := List.getElem?_eq_some_iff.mp hk
    rw [MatrixFile.vectors_length, ← H.ready.rows] at hlt
    rw [H.row hlt]
    rw [MatrixFile.getElem?_vectors (H.ready.rows ▸ hlt)] at hk
    exact congrArg _ (Option.some.inj hk)
  slice := by
    have hfit : ¬m.map.cells < m.rows * m.dims := by
      rw [H.map, H.ready.rows, H.ready.dims]
      exact Nat.not_lt.mpr H.file.rows
    rw [MatrixFile.flatten_vectors, asSlice]
    rw [if_neg hfit, H.ready.rows, H.ready.dims]
    split
    · rename_i h0
      rw [h0, List.take_zero]
    · rfl
  append fails v hv := by
    refine (append_wp H.ready hv fails).mono ?_ (fun _ _ h => h.2.1.imp fun _ h => h.1)
      fun _ _ _ => trivial
    intro row _ h
    rw [h.1, MatrixFile.vectors_length, H.ready.rows]
  refused fails v hv := append_refused hv fails
  flush fails := (flush_wp H.ready fails).mono (fun _ _ h => h.1) (fun _ _ h => (h.2 H).1)
    fun _ _ _ => trivial
  reopen path := by
    obtain ⟨m', hm', -⟩ := openMut_wf path H.file
    exact ⟨m', hm'⟩

end EmbeddingMatrix

/-- The handle is well formed at every point of a run, and its file holds the list. -/
theorem MatrixRun.wf {m : EmbeddingMatrix} {vs : List (List F16)} (R : MatrixRun m vs) :
    m.WF ∧ m.file.vectors = vs := by
  induction R with
  | @created fails path dims modelId d m h =>
    obtain ⟨hwf, -, hheader, -⟩ := (createMatrix_wp d fails path dims modelId).ok h
    refine ⟨hwf, ?_⟩
    rw [MatrixFile.vectors, MatrixFile.rows, ← hwf.header, hheader]
    rfl
  | @cut f path m hlen h =>
    have hf : f.WF := ⟨EmbeddingMatrix.valid_of_openMut h, ⟨f.rows, by rw [hlen, Nat.mul_comm]⟩,
      hlen.ge⟩
    obtain ⟨m', hm', hwf, -, hfile⟩ := EmbeddingMatrix.openMut_wf path hf
    rw [hm'] at h
    obtain rfl := Except.ok.inj h
    exact ⟨hwf, by rw [hfile]⟩
  | @append m vs fails v row R h ih =>
    have hv : v.length = m.dims := by
      by_contra hv
      rw [EmbeddingMatrix.append_refused hv] at h
      cases h
    obtain ⟨-, -, hwf, -, hvectors⟩ := (EmbeddingMatrix.append_wp ih.1.ready hv fails).ok h
    exact ⟨hwf, by rw [hvectors, ih.2]⟩
  | @flush m vs fails R h ih =>
    obtain ⟨heq, -⟩ := (EmbeddingMatrix.flush_wp ih.1.ready fails).ok h
    rw [heq]
    exact ih
  | @reopen m vs path m' R h ih =>
    obtain ⟨m'', hm'', hwf, -, hfile⟩ := EmbeddingMatrix.openMut_wf path ih.1.file
    rw [hm''] at h
    obtain rfl := Except.ok.inj h
    exact ⟨hwf, by rw [hfile, ih.2]⟩

theorem MatrixRun.behaves_cells {m : EmbeddingMatrix} {vs : List (List F16)} (R : MatrixRun m vs) :
    m.Behaves vs := by
  obtain ⟨hwf, hvectors⟩ := R.wf
  rw [← hvectors]
  exact EmbeddingMatrix.behaves_of_wf hwf

/-! ## Runs on the bytes -/

section bytes

variable {utf8Error : List UInt8 → String} {checks : Bool}

/-- Runs of the matrix over the bytes of its file. Appends are made as long as the rows can be
counted. -/
inductive ByteRun (utf8Error : List UInt8 → String) (checks : Bool) :
    ByteMatrix → List (List F16) → Prop
  | created {dims modelId b} (h : ByteMatrix.create dims modelId = .ok b) :
    ByteRun utf8Error checks b []
  /-- A file that compaction has cut to exactly its rows. -/
  | cut {f b} (hlen : f.bytes.length = headerSize + b.rows * b.dims * 2)
      (h : ByteMatrix.openMut utf8Error f = .ok b) : ByteRun utf8Error checks b b.stored
  | append {b vs fails v row} (R : ByteRun utf8Error checks b vs) (hcounts : b.Counts)
      (h : (ByteMatrix.append checks fails v b).result = .ok row) :
      ByteRun utf8Error checks (ByteMatrix.append checks fails v b).state (vs ++ [v])
  | flush {b vs fails} (R : ByteRun utf8Error checks b vs)
      (h : (ByteMatrix.flush fails b).result = .ok ()) :
      ByteRun utf8Error checks (ByteMatrix.flush fails b).state vs
  | reopen {b vs b'} {f : FileContent} (R : ByteRun utf8Error checks b vs) (hf : f.bytes = b.file)
      (h : ByteMatrix.openMut utf8Error f = .ok b') : ByteRun utf8Error checks b' vs

/-- The handle behaves as the list. An append is refused only where a step of it fails, or where the
file would become longer than a file offset can tell. -/
structure ByteMatrix.Behaves (utf8Error : List UInt8 → String) (checks : Bool) (b : ByteMatrix)
    (vs : List (List F16)) : Prop where
  rows : b.rows = vs.length
  row : ∀ k v, vs[k]? = some v → b.row checks k = .ok v
  slice : b.asSlice checks = .ok vs.flatten
  append : b.Counts → ∀ fails v, v.length = b.dims → Prog.wp (ByteMatrix.append checks fails v)
    (fun row _ => row = vs.length) (fun _ _ => ∃ step, b.growFails fails step = true)
    (fun _ _ => True) b
  refused : ∀ fails v, v.length ≠ b.dims → ByteMatrix.append checks fails v b =
    ⟨.error (.error (.dimensionMismatch b.dims (v.length % 2 ^ 32))), b, []⟩
  flush : ∀ fails, Prog.wp (ByteMatrix.flush fails) (fun _ _ => True) (fun _ _ => fails = true)
    (fun _ _ => True) b
  reopen : ∃ f : FileContent, f.bytes = b.file ∧ ∃ b', ByteMatrix.openMut utf8Error f = .ok b'

theorem ByteMatrix.append_refused {b : ByteMatrix} {v : List F16} (hv : v.length ≠ b.dims)
    (fails : AppendStep → Bool) : ByteMatrix.append checks fails v b =
      ⟨.error (.error (.dimensionMismatch b.dims (v.length % 2 ^ 32))), b, []⟩ := by
  simp [ByteMatrix.append, bind, Prog.get, hv, Prog.fail]

/-- A run on bytes is one on cells. -/
theorem ByteRun.refines {b : ByteMatrix} {vs : List (List F16)}
    (R : ByteRun utf8Error checks b vs) : ∃ m, MatrixRun m vs ∧ Refines utf8Error b m := by
  induction R with
  | @created dims modelId b h =>
    obtain ⟨hmodel, href⟩ := create_refines h "embeddings.bin"
    exact ⟨_, .created (EmbeddingMatrix.create_ok hmodel fun _ => none), href⟩
  | @cut f b hlen h =>
    obtain ⟨g, hg⟩ := stores_of_openMut h ⟨b.rows * b.dims, by omega⟩
    obtain ⟨m, hm, href, hfile, hheader⟩ := hg.openMut h "embeddings.bin"
    refine ⟨m, ?_, href⟩
    have hcut : g.cells.length = g.rows * g.dims := by
      have hrows : b.rows = g.rows := href.rows.trans (congrArg MatrixHeader.rows hheader)
      have hdims : b.dims = g.dims := href.dims.trans (congrArg MatrixHeader.dims hheader)
      have := hg.length
      rw [← hrows, ← hdims]
      omega
    rw [href.stored (hfile ▸ hheader), hfile]
    exact .cut hcut hm
  | @append b vs fails v row R hcounts h ih =>
    obtain ⟨m, hm, href⟩ := ih
    have happend := append_lockstep checks href hm.wf.1 hcounts fails v
    exact ⟨_, hm.append (happend.ok h), happend.state⟩
  | @flush b vs fails R h ih =>
    obtain ⟨m, hm, href⟩ := ih
    have hflush := flush_lockstep href fails
    exact ⟨_, hm.flush (hflush.ok h), hflush.state⟩
  | @reopen b vs b' f R hf h ih =>
    obtain ⟨m, hm, href⟩ := ih
    obtain ⟨m', hm', href', -, -⟩ := (hf ▸ href.file).openMut h "embeddings.bin"
    exact ⟨m', hm.reopen hm', href'⟩

/-- Over the bytes of a file, a matrix behaves as the growing list of its vectors, as long as its
rows can be counted. -/
theorem ByteRun.behaves {b : ByteMatrix} {vs : List (List F16)}
    (R : ByteRun utf8Error checks b vs) : b.Behaves utf8Error checks vs := by
  obtain ⟨m, hm, href⟩ := R.refines
  obtain ⟨hwf, hvectors⟩ := hm.wf
  have hbehaves := hm.behaves_cells
  refine ⟨href.rows.trans hbehaves.rows, fun k v hk => ?_, ?_, fun hcounts fails v hv => ?_,
    fun fails v hv => ByteMatrix.append_refused hv fails, fun fails => ?_, ?_⟩
  · obtain ⟨hlt, -⟩ := List.getElem?_eq_some_iff.mp hk
    rw [href.row hwf (hbehaves.rows ▸ hlt), hbehaves.row k v hk]
  · rw [href.asSlice hwf, ← hvectors, MatrixFile.flatten_vectors, hwf.ready.rows, hwf.ready.dims]
  · have happend := (append_lockstep checks href hwf hcounts fails v).wp
      (hbehaves.append (b.growFails fails) v (hv.trans href.dims))
    refine happend.mono ?_ ?_ fun _ _ _ => trivial
    · intro row _ h
      obtain ⟨_, -, h⟩ := h
      exact h
    · intro _ _ h
      obtain ⟨_, -, h⟩ := h
      exact h
  · refine ((flush_lockstep href fails).wp (hbehaves.flush fails)).mono (fun _ _ _ => trivial) ?_
      fun _ _ _ => trivial
    intro _ _ h
    obtain ⟨_, -, h⟩ := h
    exact h
  · refine ⟨⟨b.file, href.file.length ▸ href.length_lt⟩, rfl, ?_⟩
    exact (show Stores utf8Error (FileContent.bytes ⟨b.file, _⟩) m.file from href.file).openMut_ok

/-- A file cut to its one row is full: the append grows it. -/
theorem ByteRun.behaves_cut :
    let m : ByteMatrix := ⟨ByteMatrix.oneRow, 1, .write 290, ByteMatrix.fullFile.bytes⟩
    let r := ByteMatrix.append true (fun _ => false) [9] m
    r.result = .ok 1 ∧ r.state.Behaves (fun _ => "") true [[7], [9]] := by
  intro m r
  have hopen : ByteMatrix.openMut (fun _ => "") ByteMatrix.fullFile = .ok m := by decide +kernel
  have hcut : ByteRun (fun _ => "") true m m.stored := .cut (by decide +kernel) hopen
  have hok : r.result = .ok 1 := by decide +kernel
  have hstored : m.stored = [[7]] := by decide +kernel
  rw [hstored] at hcut
  exact ⟨hok, ByteRun.behaves (hcut.append (by decide +kernel) hok)⟩

/-- As many rows as can be counted, none of which has a half. -/
def countedOut : RawHeader := ⟨matrixMagic, 1, 0, .ofNat (2 ^ 64 - 1), "", length_matrixMagic⟩

def countedOutFile : FileContent := ⟨countedOut.layout (List.replicate 260 0), by decide +kernel⟩

/-- The file has exactly its rows. One more empty vector makes the counter run over: the append
panics, or counts no rows afterwards. -/
theorem append_countedOut : ∃ b, ByteMatrix.openMut (fun _ => "") countedOutFile = .ok b ∧
    (∀ checks, ByteRun (fun _ => "") checks b b.stored) ∧ b.stored.length = 2 ^ 64 - 1 ∧
      (ByteMatrix.append true (fun _ => false) [] b).result =
        .error (.panic "attempt to add with overflow") ∧
      (ByteMatrix.append false (fun _ => false) [] b).result = .ok (2 ^ 64 - 1) ∧
      (ByteMatrix.append false (fun _ => false) [] b).state.rows = 0 := by
  have hopen : ByteMatrix.openMut (fun _ => "") countedOutFile =
      .ok ⟨countedOut, 0, .write 288, countedOutFile.bytes⟩ := by decide +kernel
  exact ⟨_, hopen, fun checks => .cut (by decide +kernel) hopen,
    ByteMatrix.length_stored.trans (by decide +kernel), by decide +kernel, by decide +kernel,
    by decide +kernel⟩

end bytes

end SiftMcp
