import SiftMcp.Storage.Matrix
import Mathlib.Algebra.Order.Ring.Nat
import Mathlib.Tactic.Ring

/-!
# The matrix as a growing list of vectors

`MatrixFile.vectors` reads the rows the header counts. A file `Extends` another when it still has
all of its rows; every durable step of `append` extends the file (`append_wp`), so a file found
after a kill has lost nothing, and may have gained rows at the end only.
-/

namespace SiftMcp
open Durable

namespace MatrixFile

def rows (f : MatrixFile) : Nat := f.header.rows

def dims (f : MatrixFile) : Nat := f.header.dims

def vector (f : MatrixFile) (k : Nat) : List F16 := (f.cells.drop (k * f.dims)).take f.dims

/-- The rows the header counts. -/
def vectors (f : MatrixFile) : List (List F16) := (List.range f.rows).map f.vector

end MatrixFile

/-- A header that `encode` takes and `decode` gives back. -/
structure MatrixHeader.Valid (h : MatrixHeader) : Prop where
  magic : h.magic = matrixMagic
  version : h.formatVersion = matrixFormatVersion
  modelId : h.modelId.utf8ByteSize ≤ modelIdCapacity

namespace MatrixHeader.Valid

variable {h : MatrixHeader}

theorem withRows (H : h.Valid) (n : Nat) : ({ h with rows := n } : MatrixHeader).Valid :=
  ⟨H.magic, H.version, H.modelId⟩

theorem encode (H : h.Valid) : h.encode = .ok h := by
  have := H.modelId
  simp [MatrixHeader.encode, Nat.not_lt.mpr this]

theorem decode (H : h.Valid) : h.decode = .ok h := by
  have := H.modelId
  simp [MatrixHeader.decode, H.magic, H.version, Nat.not_lt.mpr this]

end MatrixHeader.Valid

/-- A file that can be opened and all of whose rows lie inside it. -/
structure MatrixFile.WF (f : MatrixFile) : Prop where
  header : f.header.Valid
  whole : f.dims ∣ f.cells.length
  rows : f.rows * f.dims ≤ f.cells.length

/-- A handle on such a file, mapped for writing to its end. -/
structure EmbeddingMatrix.WF (m : EmbeddingMatrix) : Prop where
  file : m.file.WF
  header : m.header = m.file.header
  map : m.map = .write m.file.cells.length
  capacity : m.file.cells.length = m.capacityRows * m.dims

theorem EmbeddingMatrix.openMut_wf (path : String) {f : MatrixFile} (H : f.WF) :
    ∃ m, openMut path f = .ok m ∧ m.WF ∧ m.path = path ∧ m.file = f := by
  refine ⟨_, by simp [openMut, H.header.decode, Except.mapError]; rfl, ⟨H, rfl, rfl, ?_⟩, rfl, rfl⟩
  obtain ⟨c, hc⟩ := H.whole
  have hd : f.dims = f.header.dims := rfl
  rw [hd] at hc
  simp only [EmbeddingMatrix.dims]
  by_cases h0 : f.header.dims = 0
  · simp [h0, hc]
  · rw [if_neg h0, hc, Nat.mul_div_cancel_left _ (Nat.pos_of_ne_zero h0), Nat.mul_comm]

/-! ## Reading cells -/

theorem drop_take_overwrite {l v w : List α} {off i n : Nat} (h : i + n ≤ off)
    (ho : off ≤ l.length) : ((l.take off ++ v ++ w).drop i).take n = (l.drop i).take n := by
  have hl : (l.take off).length = off := by simp [ho]
  rw [List.append_assoc, List.drop_append_of_le_length (by omega),
    List.take_append_of_le_length (by simp; omega), List.drop_take, List.take_take]
  congr 1
  omega

theorem drop_take_written {l v w : List α} {off : Nat} (ho : off ≤ l.length) :
    ((l.take off ++ v ++ w).drop off).take v.length = v := by
  have hl : (l.take off).length = off := by simp [ho]
  rw [List.append_assoc, List.drop_append_of_le_length (by omega),
    List.drop_eq_nil_of_le (by omega)]
  simp

/-! ## Extension -/

/-- `g` still has every row of `f`; what it has more lies behind them. -/
structure MatrixFile.Extends (f g : MatrixFile) : Prop where
  wf : g.WF
  header : g.header = { f.header with rows := g.rows }
  rows : f.rows ≤ g.rows
  vector : ∀ k < f.rows, g.vector k = f.vector k

namespace MatrixFile

variable {f g : MatrixFile}

theorem row_end_le {d k n : Nat} (h : k < n) : k * d + d ≤ n * d := by
  rw [← Nat.succ_mul]; exact Nat.mul_le_mul_right d h

theorem Extends.refl (H : f.WF) : f.Extends f := ⟨H, rfl, Nat.le_refl _, fun _ _ => rfl⟩

theorem Extends.trans {k : MatrixFile} (H : f.Extends g) (H' : g.Extends k) : f.Extends k :=
  ⟨H'.wf, by rw [H'.header, H.header], H.rows.trans H'.rows,
    fun i hi => (H'.vector i (hi.trans_le H.rows)).trans (H.vector i hi)⟩

theorem Extends.dims (H : f.Extends g) : g.dims = f.dims := by
  unfold MatrixFile.dims; rw [H.header]

theorem Extends.vectors_of_rows (H : f.Extends g) (h : g.rows = f.rows) :
    g.vectors = f.vectors := by
  unfold vectors
  rw [h]
  exact List.map_congr_left fun k hk => H.vector k (List.mem_range.mp hk)

@[simp] theorem vectors_length : f.vectors.length = f.rows := by simp [vectors]

theorem getElem?_vectors {k : Nat} (h : k < f.rows) : f.vectors[k]? = some (f.vector k) := by
  simp [vectors, h]

/-- Cutting the header's row count back to a prefix cuts the vectors. -/
theorem Extends.cut (H : f.Extends g) :
    ({ g with header := { g.header with rows := f.rows } } : MatrixFile).WF ∧
      ({ g with header := { g.header with rows := f.rows } } : MatrixFile).vectors = f.vectors := by
  refine ⟨⟨H.wf.header.withRows _, H.wf.whole, ?_⟩, ?_⟩
  · exact (Nat.mul_le_mul_right _ H.rows).trans H.wf.rows
  · exact List.map_congr_left fun k hk => H.vector k (List.mem_range.mp hk)

theorem extends_setLen (H : f.WF) {n : Nat} (hn : f.cells.length ≤ n * f.dims) :
    f.Extends (f.setLen (n * f.dims)) := by
  have hc : (f.setLen (n * f.dims)).cells =
      f.cells ++ List.replicate (n * f.dims - f.cells.length) 0 := by
    simp [setLen, List.take_of_length_le hn]
  have hlen : (f.setLen (n * f.dims)).cells.length = n * f.dims := by rw [hc]; simp; omega
  refine ⟨⟨H.header, ?_, ?_⟩, rfl, Nat.le_refl _, fun k hk => ?_⟩
  · rw [hlen]; exact ⟨n, Nat.mul_comm ..⟩
  · rw [hlen]; exact H.rows.trans hn
  · have hk := (row_end_le (d := f.dims) hk).trans H.rows
    have hd : (f.setLen (n * f.dims)).dims = f.dims := rfl
    simp only [vector, hc, hd]
    rw [List.drop_append_of_le_length (by omega)]
    exact List.take_append_of_le_length (by simp; omega)

theorem length_writeCells {n : Nat} {v : List F16} (hv : n + v.length ≤ f.cells.length) :
    (f.writeCells n v).cells.length = f.cells.length := by
  simp only [writeCells, List.length_append, List.length_take, List.length_drop]
  omega

theorem extends_writeCells (H : f.WF) {v : List F16}
    (hv : f.rows * f.dims + v.length ≤ f.cells.length) :
    f.Extends (f.writeCells (f.rows * f.dims) v) := by
  have hlen := length_writeCells hv
  refine ⟨⟨H.header, hlen ▸ H.whole, hlen ▸ H.rows⟩, rfl, Nat.le_refl _, fun k hk => ?_⟩
  exact drop_take_overwrite (row_end_le hk) H.rows

theorem vector_writeCells (H : f.WF) {v : List F16} (hv : v.length = f.dims) :
    (f.writeCells (f.rows * f.dims) v).vector f.rows = v := by
  have h := drop_take_written (v := v) (w := f.cells.drop (f.rows * f.dims + v.length)) H.rows
  simp only [vector, writeCells]
  rw [hv] at h ⊢
  exact h

/-- The header write of `append` adds the row just written. -/
theorem extends_nextRow (H : f.WF) (h : (f.rows + 1) * f.dims ≤ f.cells.length) :
    f.Extends { f with header := { f.header with rows := f.rows + 1 } } :=
  ⟨⟨H.header.withRows _, H.whole, h⟩, rfl, Nat.le_succ _, fun _ _ => rfl⟩

theorem vectors_nextRow :
    ({ f with header := { f.header with rows := f.rows + 1 } } : MatrixFile).vectors =
      f.vectors ++ [f.vector f.rows] := by
  show (List.range (f.rows + 1)).map f.vector = _
  simp [List.range_succ, vectors]

end MatrixFile

/-- A file cut to exactly its rows. -/
theorem MatrixFile.extends_truncate {f : MatrixFile} (H : f.WF) :
    f.Extends (f.setLen (f.rows * f.dims)) := by
  have hc : (f.setLen (f.rows * f.dims)).cells = f.cells.take (f.rows * f.dims) := by
    simp [setLen, Nat.sub_eq_zero_of_le H.rows]
  have hlen : (f.setLen (f.rows * f.dims)).cells.length = f.rows * f.dims := by
    rw [hc, List.length_take, Nat.min_eq_left H.rows]
  refine ⟨⟨H.header, ?_, ?_⟩, rfl, Nat.le_refl _, fun k hk => ?_⟩
  · rw [hlen]; exact ⟨f.rows, Nat.mul_comm ..⟩
  · rw [hlen]; exact Nat.le_refl _
  · have hk := row_end_le (d := f.dims) hk
    have hd : (f.setLen (f.rows * f.dims)).dims = f.dims := rfl
    simp only [vector, hc, hd, List.drop_take, List.take_take]
    congr 1
    omega

/-- The steps that `EmbeddingMatrix` itself makes durable. -/
def Step.OnMatrix (l : Step) : Prop := l = .grow ∨ l = .rowWrite ∨ l = .headerWrite ∨ l = .flush

instance (l : Step) : Decidable l.OnMatrix := inferInstanceAs (Decidable (_ ∨ _))

theorem Step.OnMatrix.ne_sqlCommit {l : Step} (h : l.OnMatrix) : l ≠ .sqlCommit := by
  rintro rfl; exact absurd h (by decide)

/-! ## The programs -/

namespace EmbeddingMatrix

variable {m : EmbeddingMatrix}

/-- What holds of the handle's file at every point of a write that started from `m`. -/
def Kept (m t : EmbeddingMatrix) : Prop := m.file.Extends t.file ∧ t.path = m.path

/-- A handle that `append` can be called on: it is well formed, or a failed `grow` left it with a
map of the header alone and the next `append` will grow the file again. -/
structure Ready (m : EmbeddingMatrix) : Prop where
  file : m.file.WF
  header : m.header = m.file.header
  inside : m.rows * m.dims ≤ m.capacityRows * m.dims
  room : (m.map = .write m.file.cells.length ∧ m.file.cells.length = m.capacityRows * m.dims) ∨
    (m.map = .read 0 ∧ m.rows ≥ m.capacityRows ∧
      m.file.cells.length ≤ (m.capacityRows + growBlockRows) * m.dims)

theorem WF.ready (H : m.WF) : m.Ready := by
  refine ⟨H.file, H.header, ?_, .inl ⟨H.map, H.capacity⟩⟩
  rw [← H.capacity, show m.rows = m.file.rows from congrArg (·.rows) H.header,
    show m.dims = m.file.dims from congrArg (·.dims) H.header]
  exact H.file.rows

theorem Ready.rows (H : m.Ready) : m.rows = m.file.rows := congrArg (·.rows) H.header

theorem Ready.dims (H : m.Ready) : m.dims = m.file.dims := congrArg (·.dims) H.header

theorem Ready.length_le (H : m.Ready) :
    m.file.cells.length ≤ (m.capacityRows + growBlockRows) * m.dims := by
  rcases H.room with ⟨_, h⟩ | ⟨_, _, h⟩
  · rw [h]; exact Nat.mul_le_mul_right _ (Nat.le_add_right ..)
  · exact h

/-- The handle that a failing step of `append` leaves. -/
def AppendFault (m : EmbeddingMatrix) (f : AppendStep) (t : EmbeddingMatrix) : Prop :=
  match f with
  | .growOpenPlaceholder | .growMapPlaceholder => t = m
  | .growOpen | .growSetLen | .growMap => t.Ready ∧ t.header = m.header ∧ t.map = .read 0
  | .headerFlush => t.rows = m.rows + 1

theorem grow_wp (H : m.Ready) (hfull : m.rows ≥ m.capacityRows) (fails : AppendStep → Bool) :
    Prog.wp (grow fails)
      (fun _ t => Kept m t ∧ t.WF ∧ t.header = m.header ∧
        t.capacityRows = m.capacityRows + growBlockRows)
      (fun e t => Kept m t ∧ (∃ f, fails f = true ∧ AppendFault m f t) ∧ e = .injected)
      (fun l t => l.OnMatrix ∧ Kept m t) m := by
  have hd : m.dims = m.file.dims := H.dims
  have hkept : m.file.Extends
      (m.file.setLen ((m.capacityRows + growBlockRows) * m.file.dims)) :=
    MatrixFile.extends_setLen H.file (H.dims ▸ H.length_le)
  have hlen : (m.file.setLen ((m.capacityRows + growBlockRows) * m.file.dims)).cells.length =
      (m.capacityRows + growBlockRows) * m.file.dims := by
    have := H.length_le
    rw [H.dims] at this
    simp [MatrixFile.setLen]; omega
  have hrefl := MatrixFile.Extends.refl H.file
  -- Without its map the handle is ready to grow again, before and after the file is extended.
  have hunmapped : ({ m with map := .read 0 } : EmbeddingMatrix).Ready :=
    ⟨H.file, H.header, H.inside, .inr ⟨rfl, hfull, H.length_le⟩⟩
  have hextended : ({ m with
      map := .read 0
      file := m.file.setLen ((m.capacityRows + growBlockRows) * m.file.dims) } :
      EmbeddingMatrix).Ready :=
    ⟨hkept.wf, by rw [H.header]; rfl, H.inside,
      .inr ⟨rfl, hfull, hlen.le.trans_eq (by rw [← hd]; rfl)⟩⟩
  have hd' : ({ m with map := Map.read 0 } : EmbeddingMatrix).dims = m.file.dims := hd
  simp only [grow, Prog.wp_bind, Prog.wp_get, wp_failAt, Prog.wp_modify, Prog.wp_durable, hd', Kept,
    hrefl, hkept, and_true, true_and]
  refine ⟨fun h => ⟨_, h, rfl⟩, fun _ => ⟨fun h => ⟨_, h, rfl⟩, fun _ =>
    ⟨fun h => ⟨_, h, hunmapped, rfl, rfl⟩, fun _ => ⟨fun h => ⟨_, h, hunmapped, rfl, rfl⟩, fun _ =>
      ⟨by decide, fun h => ⟨_, h, hextended, rfl, rfl⟩, fun _ => ⟨hkept.wf, ?_, rfl, ?_⟩⟩⟩⟩⟩⟩
  · rw [H.header]; rfl
  · rw [hlen, ← hd]; rfl

theorem writeHeader_wp (hv : m.header.Valid) (hmap : m.map = .write m.file.cells.length)
    (fails : Bool) :
    Prog.wp (writeHeader fails)
      (fun _ t => t = { m with file := { m.file with header := m.header } })
      (fun e t => t = { m with file := { m.file with header := m.header } } ∧ fails ∧
        e = .injected)
      (fun l t => l.OnMatrix ∧ t = { m with file := { m.file with header := m.header } }) m := by
  simp [writeHeader, asBytesMut, hv.encode, hmap, Except.mapError, Step.OnMatrix]

theorem writeRow_wp (H : m.WF) {v : List F16} (hv : v.length = m.dims)
    (hr : m.rows < m.capacityRows ∨ m.dims = 0) (fails : Bool) :
    Prog.wp (writeRow fails v)
      (fun r t => r = m.rows ∧ Kept m t ∧ t.WF ∧
        t.header = { m.header with rows := m.rows + 1 } ∧ t.file.vectors = m.file.vectors ++ [v])
      (fun e t => Kept m t ∧ fails ∧ t.rows = m.rows + 1 ∧ e = .injected)
      (fun l t => l.OnMatrix ∧ Kept m t) m := by
  have hd : m.dims = m.file.dims := H.ready.dims
  have hrows : m.rows = m.file.rows := H.ready.rows
  have hroom : (m.rows + 1) * m.dims ≤ m.file.cells.length := by
    rw [H.capacity]
    rcases hr with hr | hr
    · exact Nat.mul_le_mul_right _ hr
    · simp [hr]
  have hfit : m.file.rows * m.file.dims + v.length ≤ m.file.cells.length := by
    rw [hv, hd, ← Nat.succ_mul, ← hrows, ← hd]; exact hroom
  let f := m.file.writeCells (m.file.rows * m.file.dims) v
  have hf : m.file.Extends f := MatrixFile.extends_writeCells H.file hfit
  have hlen : f.cells.length = m.file.cells.length := MatrixFile.length_writeCells hfit
  have hnext := MatrixFile.extends_nextRow hf.wf (f := f)
    (by rw [hlen, show f.rows = m.rows from hrows.symm, show f.dims = m.dims from hd.symm]
        exact hroom)
  have hheader : ({ m.header with rows := m.header.rows + 1 } : MatrixHeader) =
      { f.header with rows := f.rows + 1 } := by rw [H.header]; rfl
  have hkept : Kept m { m with
      header := { m.header with rows := m.header.rows + 1 }
      file := { f with header := { m.header with rows := m.header.rows + 1 } } } :=
    ⟨by rw [hheader]; exact hf.trans hnext, rfl⟩
  have hmap : ¬m.map.cells < m.rows * m.dims + m.dims := by
    rw [H.map, Nat.not_lt, ← Nat.succ_mul]; exact hroom
  have hbytes : asBytesMut m = ⟨.ok (), m, []⟩ := by
    simp only [asBytesMut, bind, Prog.get, H.map]; rfl
  have hw : ∀ Q E C, Q () m → Prog.wp asBytesMut Q E C m := fun Q E C h => by
    rw [Prog.wp, hbytes]; exact ⟨fun _ hl => absurd hl List.not_mem_nil, h⟩
  simp only [writeRow, Prog.wp_bind, Prog.wp_get, Prog.wp_ite, Prog.wp_pure, Prog.wp_fail,
    Prog.wp_durable, Prog.wp_modify]
  apply hw
  refine ⟨fun h => absurd h hmap, fun _ => ?_⟩
  rw [hd, hrows]
  refine ⟨⟨by decide, hf, rfl⟩, ?_⟩
  refine (writeHeader_wp (m := { m with
    file := f, header := { m.header with rows := m.header.rows + 1 } }) ?_ ?_ fails).mono ?_ ?_ ?_
  · show ({ m.header with rows := m.header.rows + 1 } : MatrixHeader).Valid
    rw [hheader]; exact hnext.wf.header
  · rw [H.map]; exact congrArg Map.write hlen.symm
  · rintro _ t rfl
    refine ⟨trivial, hkept, ⟨hkept.1.wf, rfl, ?_, ?_⟩, by rw [← hrows]; rfl, ?_⟩
    · rw [H.map]; exact congrArg Map.write hlen.symm
    · exact hlen.trans H.capacity
    · have hvec : f.vector m.file.rows = v := MatrixFile.vector_writeCells H.file (hv.trans hd)
      have := MatrixFile.vectors_nextRow (f := f)
      rw [hf.vectors_of_rows rfl, show f.rows = m.file.rows from rfl, hvec] at this
      rw [← this]
      exact congrArg (fun h => ({ f with header := h } : MatrixFile).vectors) hheader
  · rintro _ t ⟨rfl, h, he⟩; exact ⟨hkept, h, congrArg (· + 1) hrows, he⟩
  · rintro _ t ⟨hl, rfl⟩; exact ⟨hl, hkept⟩

theorem append_refused {v : List F16} (hv : v.length ≠ m.dims) (fails : AppendStep → Bool) :
    append fails v m =
      ⟨.error (.error (.dimensionMismatch m.dims (v.length % 2 ^ 32))), m, []⟩ := by
  simp [append, bind, Prog.get, hv, Prog.fail]

theorem append_wp (H : m.Ready) {v : List F16} (hv : v.length = m.dims)
    (fails : AppendStep → Bool) :
    Prog.wp (append fails v)
      (fun r t => r = m.rows ∧ Kept m t ∧ t.WF ∧
        t.header = { m.header with rows := m.rows + 1 } ∧ t.file.vectors = m.file.vectors ++ [v])
      (fun e t => Kept m t ∧ (∃ f, fails f = true ∧ AppendFault m f t) ∧ e = .injected)
      (fun l t => l.OnMatrix ∧ Kept m t) m := by
  simp only [append, Prog.wp_bind, Prog.wp_get, Prog.wp_ite, Prog.wp_fail]
  refine ⟨fun h => absurd hv h, fun _ => ⟨fun hfull => ?_, fun hroom => ?_⟩⟩
  · refine (grow_wp H hfull fails).mono ?_ (fun _ _ h => h) (fun _ _ h => h)
    rintro _ t ⟨hkept, hwf, hheader, hcap⟩
    have hrows : t.rows = m.rows := congrArg (·.rows) hheader
    have hdims : t.dims = m.dims := congrArg (·.dims) hheader
    have hvec : t.file.vectors = m.file.vectors :=
      hkept.1.vectors_of_rows (by rw [MatrixFile.rows, ← hwf.header, hheader, H.header]; rfl)
    have hr : t.rows < t.capacityRows ∨ t.dims = 0 := by
      rw [hrows, hdims, hcap]
      refine or_iff_not_imp_right.mpr fun h0 => ?_
      have := Nat.le_of_mul_le_mul_right H.inside (Nat.pos_of_ne_zero h0)
      exact Nat.lt_add_right_iff_pos.mpr (by decide) |>.trans_le' this
    refine (writeRow_wp hwf (hv.trans hdims.symm) hr _).mono ?_
      (fun _ _ h => ⟨⟨hkept.1.trans h.1.1, h.1.2.trans hkept.2⟩, ⟨.headerFlush, h.2.1,
        h.2.2.1.trans (congrArg (· + 1) hrows)⟩, h.2.2.2⟩)
      (fun _ _ h => ⟨h.1, hkept.1.trans h.2.1, h.2.2.trans hkept.2⟩)
    rintro r u ⟨hr, hk, hwf', hh, hv'⟩
    exact ⟨hr.trans hrows, ⟨hkept.1.trans hk.1, hk.2.trans hkept.2⟩, hwf',
      by rw [hh, hheader, hrows], by rw [hv', hvec]⟩
  · obtain ⟨hmap, hcap⟩ := H.room.resolve_right fun h => hroom h.2.1
    exact (writeRow_wp ⟨H.file, H.header, hmap, hcap⟩ hv (.inl (Nat.lt_of_not_le hroom)) _).mono
      (fun _ _ h => h) (fun _ _ h => ⟨h.1, ⟨.headerFlush, h.2.1, h.2.2.1⟩, h.2.2.2⟩)
      (fun _ _ h => h)

theorem Ready.wf_or_unmapped (H : m.Ready) : m.WF ∨ m.map = .read 0 :=
  H.room.imp (fun h => ⟨H.file, H.header, h.1, h.2⟩) fun h => h.1

/-- `flush` changes nothing, and fails on a handle that a failed `grow` left unmapped. -/
theorem flush_wp (H : m.Ready) (fails : Bool) :
    Prog.wp (flush fails) (fun _ t => t = m ∧ m.WF)
      (fun e t => t = m ∧ (m.WF → fails ∧ e = .injected)) (fun l t => l.OnMatrix ∧ t = m) m := by
  have hf : ({ m.file with header := m.header } : MatrixFile) = m.file := by rw [H.header]
  have hm : ({ m with file := { m.file with header := m.header } } : EmbeddingMatrix) = m := by
    rw [hf]
  simp only [flush, Prog.wp_bind, Prog.wp_durable, id]
  have hv : m.header.Valid := H.header ▸ H.file.header
  rcases H.wf_or_unmapped with hwf | hread
  · refine (writeHeader_wp hv hwf.map fails).mono ?_ ?_ ?_
    · rintro _ t rfl; exact ⟨⟨by decide, hm⟩, hm, hwf⟩
    · rintro _ t ⟨rfl, h⟩; exact ⟨hm, fun _ => h⟩
    · rintro _ t ⟨hl, rfl⟩; exact ⟨hl, hm⟩
  · have hunmapped : ¬m.WF := fun h => by cases h.map.symm.trans hread
    simp [writeHeader, asBytesMut, hv.encode, hread, Except.mapError, hunmapped]

/-- Every row below the count can be read, and is the vector of the file. -/
theorem WF.row (H : m.WF) {k : Nat} (hk : k < m.rows) : m.row k = .ok (m.file.vector k) := by
  have hfit : k * m.dims + m.dims ≤ m.file.cells.length := by
    have := H.file.rows
    rw [← H.ready.rows, ← H.ready.dims] at this
    exact (MatrixFile.row_end_le hk).trans this
  have hcells : ¬m.map.cells < k * m.dims + m.dims := by rw [H.map]; exact Nat.not_lt.mpr hfit
  rw [EmbeddingMatrix.row, if_neg (Nat.not_le.mpr hk), if_neg hcells, MatrixFile.vector,
    H.ready.dims]

/-- A row of an unmapped handle cannot be read, unless it is empty. -/
theorem row_unmapped (h : m.map = .read 0) {k : Nat} (hk : k < m.rows) :
    m.row k = if m.dims = 0 then .ok [] else .error (.panic "slice index out of range") := by
  have hcells : m.map.cells = 0 := by rw [h]; rfl
  rw [row, if_neg (Nat.not_le.mpr hk), hcells]
  by_cases hd : m.dims = 0
  · simp [hd]
  · have : 0 < k * m.dims + m.dims := Nat.add_pos_right _ (Nat.pos_of_ne_zero hd)
    simp [hd, this]

end EmbeddingMatrix

end SiftMcp
