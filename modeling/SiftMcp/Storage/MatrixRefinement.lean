import SiftMcp.Lib.Simulation
import SiftMcp.Retrieval.Dense
import SiftMcp.Storage.MatrixAccess
import SiftMcp.Storage.MatrixLemmas

/-!
# The bytes refine the cells

`ByteMatrix` has the file as bytes and its counters in 64-bit words, `EmbeddingMatrix` has the file
as a header and cells and counts without bound. `Refines` relates the two: the same header and
capacity, maps that end at the same cell, and a file whose bytes are a header and, behind it, the
cells. As long as the counters do not run over, an append and a flush of the one run in lockstep
with those of the other, and the same rows are read.

* `ByteMatrix.append_lockstep`, `ByteMatrix.flush_lockstep`: the programs that write.
* `Refines.row`, `Refines.asSlice`: what is read.
-/

namespace SiftMcp
open Durable

/-! ## Cells as bytes -/

section cells

variable {v w : List F16} {n : Nat}

theorem f16SliceAsBytes_append :
    f16SliceAsBytes (v ++ w) = f16SliceAsBytes v ++ f16SliceAsBytes w :=
  List.flatMap_append

theorem f16SliceAsBytes_cons {x : F16} :
    f16SliceAsBytes (x :: v) = leBytes 2 x.toNat ++ f16SliceAsBytes v := List.flatMap_cons

theorem take_f16SliceAsBytes : (f16SliceAsBytes v).take (n * 2) = f16SliceAsBytes (v.take n) := by
  induction v generalizing n with
  | nil => simp [f16SliceAsBytes]
  | cons x v ih =>
    cases n with
    | zero => simp [f16SliceAsBytes]
    | succ n =>
      rw [List.take_succ_cons, f16SliceAsBytes_cons, f16SliceAsBytes_cons, ← ih, List.take_append,
        leBytes_length, List.take_of_length_le (by rw [leBytes_length]; omega)]
      congr 2
      omega

theorem drop_f16SliceAsBytes : (f16SliceAsBytes v).drop (n * 2) = f16SliceAsBytes (v.drop n) := by
  induction v generalizing n with
  | nil => simp [f16SliceAsBytes]
  | cons x v ih =>
    cases n with
    | zero => simp
    | succ n =>
      rw [List.drop_succ_cons, f16SliceAsBytes_cons, ← ih, List.drop_append, leBytes_length,
        List.drop_of_length_le (by rw [leBytes_length]; omega), List.nil_append]
      congr 1
      omega

theorem f16SliceAsBytes_replicate :
    f16SliceAsBytes (List.replicate n 0) = List.replicate (n * 2) 0 := by
  induction n with
  | zero => rfl
  | succ n ih =>
    rw [List.replicate_succ, f16SliceAsBytes_cons, ih, Nat.succ_mul, Nat.add_comm,
      List.replicate_add]
    rfl

/-- The cells are found again. -/
theorem halvesOf_f16SliceAsBytes : halvesOf (f16SliceAsBytes v) = v := by
  induction v with
  | nil => rfl
  | cons x v ih =>
    have hx : leNat (leBytes 2 x.toNat) = x.toNat := leNat_leBytes x.toNat_lt
    rw [f16SliceAsBytes_cons]
    show UInt16.ofNat (leNat (leBytes 2 x.toNat)) :: halvesOf (f16SliceAsBytes v) = _
    rw [hx, ih, UInt16.ofNat_toNat]

/-- Bytes in pairs are the bytes of cells. -/
theorem f16SliceAsBytes_halvesOf : ∀ {bytes : List UInt8}, 2 ∣ bytes.length →
    f16SliceAsBytes (halvesOf bytes) = bytes
  | [], _ => rfl
  | [_], h => absurd h (show ¬2 ∣ 1 by decide)
  | a :: b :: rest, h => by
    have hrest : 2 ∣ rest.length := (Nat.dvd_add_left (Nat.dvd_refl 2)).mp h
    have ha := a.toNat_lt
    have hb := b.toNat_lt
    have hn : leNat [a, b] < 2 ^ 16 := by simp only [leNat]; omega
    rw [halvesOf, f16SliceAsBytes_cons, f16SliceAsBytes_halvesOf hrest,
      UInt16.toNat_ofNat_of_lt' hn]
    have hlow : UInt8.ofNat (leNat [a, b]) = a := by
      apply UInt8.toNat_inj.mp
      simp only [leNat, UInt8.toNat_ofNat']
      omega
    have hhigh : UInt8.ofNat (leNat [a, b] / 256) = b := by
      apply UInt8.toNat_inj.mp
      simp only [leNat, UInt8.toNat_ofNat']
      omega
    show UInt8.ofNat (leNat [a, b]) :: UInt8.ofNat (leNat [a, b] / 256) :: ([] ++ rest) = _
    rw [hlow, hhigh]
    rfl

end cells

/-! ## Headers -/

namespace RawHeader

variable {utf8Error : List UInt8 → String} {h : RawHeader} {front rest : List UInt8}

theorem length_modelBytes : h.modelBytes.length = h.modelId.utf8ByteSize := by
  have hbytes : h.modelId.toByteArray = (utf8Bytes h.modelId.toList).toByteArray := by
    rw [← mk_toArray_eq, ← toUTF8_ofList, String.ofList_toList, String.toUTF8_eq_toByteArray]
  rw [modelBytes, ← String.size_toByteArray, hbytes, List.size_toByteArray]

theorem Current.valid (H : h.Current) : h.header.Valid :=
  ⟨H.magic, H.version, length_modelBytes ▸ H.fits⟩

/-- What stands behind the header does not count. -/
theorem decode_append (hlen : headerSize ≤ front.length) :
    decode utf8Error (front ++ rest) = decode utf8Error front := by
  have hcut : ∀ a b, b ≤ headerSize → (front ++ rest).cut a b = front.cut a b := by
    intro a b hb
    by_cases ha : a ≤ front.length
    · rw [List.cut, List.cut, List.drop_append_of_le_length ha,
        List.take_append_of_le_length (by rw [List.length_drop]; omega)]
    · have hzero : b - a = 0 := by omega
      rw [List.cut, List.cut, hzero, List.take_zero, List.take_zero]
  have h1 : ¬front.length < headerSize := Nat.not_lt.mpr hlen
  have h2 : ¬(front ++ rest).length < headerSize := by rw [List.length_append]; omega
  unfold decode
  rw [dif_neg h1, dif_neg h2]
  simp only [hcut 0 8 (by decide), hcut 8 12 (by decide), hcut 12 16 (by decide),
    hcut 16 24 (by decide), hcut 24 28 (by decide)]
  by_cases hmodel : leNat (front.cut 24 28) > modelIdCapacity
  · simp only [if_pos hmodel]
  · have hle : 28 + leNat (front.cut 24 28) ≤ headerSize := by
      unfold modelIdCapacity at hmodel
      unfold headerSize
      omega
    simp only [hcut 28 _ hle]

end RawHeader

/-! ## Files -/

/-- The bytes are a header and, behind it, the cells. -/
def Stores (utf8Error : List UInt8 → String) (bytes : List UInt8) (f : MatrixFile) : Prop :=
  ∃ (h : RawHeader) (front : List UInt8), front.length = headerSize ∧
    RawHeader.decode utf8Error front = .ok h ∧ f.header = h.header ∧
    bytes = front ++ f16SliceAsBytes f.cells

namespace Stores

variable {utf8Error : List UInt8 → String} {bytes : List UInt8} {f : MatrixFile} {v : List F16}
  {n : Nat}

theorem length (H : Stores utf8Error bytes f) :
    bytes.length = headerSize + f.cells.length * 2 := by
  obtain ⟨h, front, hlen, -, -, rfl⟩ := H
  rw [List.length_append, ByteMatrix.length_f16SliceAsBytes, hlen]

theorem drop (H : Stores utf8Error bytes f) :
    bytes.drop headerSize = f16SliceAsBytes f.cells := by
  obtain ⟨h, front, hlen, -, -, rfl⟩ := H
  rw [← hlen, List.drop_left]

theorem decode (H : Stores utf8Error bytes f) :
    ∃ h, RawHeader.decode utf8Error bytes = .ok h ∧ f.header = h.header := by
  obtain ⟨h, front, hlen, hdec, hheader, rfl⟩ := H
  exact ⟨h, (RawHeader.decode_append hlen.ge).trans hdec, hheader⟩

/-- The bytes of some of the cells. -/
theorem cut (H : Stores utf8Error bytes f) (k : Nat) :
    bytes.cut (headerSize + k * 2) (headerSize + (k + n) * 2) =
      f16SliceAsBytes ((f.cells.drop k).take n) := by
  have hwidth : headerSize + (k + n) * 2 - (headerSize + k * 2) = n * 2 := by omega
  rw [List.cut, hwidth, ← List.drop_drop, H.drop, drop_f16SliceAsBytes, take_f16SliceAsBytes]

theorem setLen (H : Stores utf8Error bytes f) :
    Stores utf8Error (ByteMatrix.setLen (headerSize + n * 2) bytes) (f.setLen n) := by
  obtain ⟨h, front, hlen, hdec, hheader, rfl⟩ := H
  refine ⟨h, front, hlen, hdec, hheader, ?_⟩
  have htake : (front ++ f16SliceAsBytes f.cells).take (headerSize + n * 2) =
      front ++ f16SliceAsBytes (f.cells.take n) := by
    rw [← hlen, List.take_length_add_append, take_f16SliceAsBytes]
  have hzeros : headerSize + n * 2 - (front ++ f16SliceAsBytes f.cells).length =
      (n - f.cells.length) * 2 := by
    rw [List.length_append, ByteMatrix.length_f16SliceAsBytes, hlen]
    omega
  rw [ByteMatrix.setLen, htake, hzeros, MatrixFile.setLen, f16SliceAsBytes_append,
    f16SliceAsBytes_replicate, List.append_assoc]

theorem writeCells (H : Stores utf8Error bytes f) :
    Stores utf8Error (bytes.patch (headerSize + n * 2) (f16SliceAsBytes v)) (f.writeCells n v) := by
  obtain ⟨h, front, hlen, hdec, hheader, rfl⟩ := H
  refine ⟨h, front, hlen, hdec, hheader, ?_⟩
  have hbehind : headerSize + n * 2 + (f16SliceAsBytes v).length =
      front.length + (n + v.length) * 2 := by
    rw [ByteMatrix.length_f16SliceAsBytes, hlen]
    omega
  rw [List.patch, hbehind, ← hlen, List.take_length_add_append, List.drop_length_add_append,
    take_f16SliceAsBytes, drop_f16SliceAsBytes, MatrixFile.writeCells, f16SliceAsBytes_append,
    f16SliceAsBytes_append]
  simp only [List.append_assoc]

theorem writeHeader (H : Stores utf8Error bytes f) {h : RawHeader} {encoded : List UInt8}
    (hlen : encoded.length = headerSize) (hdec : RawHeader.decode utf8Error encoded = .ok h) :
    Stores utf8Error (bytes.patch 0 encoded) { f with header := h.header } := by
  refine ⟨h, encoded, hlen, hdec, rfl, ?_⟩
  rw [List.patch, List.take_zero, List.nil_append, Nat.zero_add, hlen, H.drop]

end Stores

/-! ## Handles -/

/-- The map of as many cells, in bytes. -/
def Map.bytes : Map → ByteMap
  | .read n => .read (headerSize + n * 2)
  | .write n => .write (headerSize + n * 2)

@[simp] theorem Map.len_bytes {map : Map} : map.bytes.len = headerSize + map.cells * 2 := by
  cases map <;> rfl

structure Refines (utf8Error : List UInt8 → String) (b : ByteMatrix) (m : EmbeddingMatrix) :
    Prop where
  header : m.header = b.header.header
  current : b.header.Current
  capacity : m.capacityRows = b.capacityRows
  map : b.map = m.map.bytes
  file : Stores utf8Error b.file m.file
  length_lt : headerSize + m.file.cells.length * 2 < 2 ^ 63

variable {utf8Error : List UInt8 → String} {checks : Bool} {b : ByteMatrix} {m : EmbeddingMatrix}

theorem Refines.rows (H : Refines utf8Error b m) : b.rows = m.rows := by
  rw [EmbeddingMatrix.rows, H.header]
  rfl

theorem Refines.dims (H : Refines utf8Error b m) : b.dims = m.dims := by
  rw [EmbeddingMatrix.dims, H.header]
  rfl

theorem Refines.dims_lt (H : Refines utf8Error b m) : m.dims < 2 ^ 32 :=
  H.dims ▸ b.header.dims.toNat_lt

/-- The bytes that are visible are those of the visible cells. -/
theorem Refines.length_asBytes (H : Refines utf8Error b m)
    (hmap : m.map.cells ≤ m.file.cells.length) :
    b.asBytes.length = headerSize + m.map.cells * 2 := by
  rw [ByteMatrix.asBytes, List.length_take, H.map, Map.len_bytes, H.file.length]
  omega

/-! ## Programs -/

open Prog (Lockstep)

section

variable {α : Type} {f : Unit → Prog ByteMatrix Failure Step α}
  {g : Unit → Prog EmbeddingMatrix Failure Step α}

/-- A call that fails in both or in neither. -/
theorem failAt_bind_lockstep (H : Refines utf8Error b m) {x y : Bool} (hxy : x = y)
    (hk : y = false → Lockstep (Refines utf8Error) (f ()) (g ()) b m) :
    Lockstep (Refines utf8Error) (failAt x >>= f) (failAt y >>= g) b m := by
  subst hxy
  cases x with
  | true => exact Lockstep.fail H
  | false => exact hk rfl

theorem asBytesMut_bind_lockstep (H : Refines utf8Error b m)
    (hk : Lockstep (Refines utf8Error) (f ()) (g ()) b m) :
    Lockstep (Refines utf8Error) (ByteMatrix.asBytesMut >>= f) (EmbeddingMatrix.asBytesMut >>= g) b
      m := by
  unfold ByteMatrix.asBytesMut EmbeddingMatrix.asBytesMut
  rw [Prog.bind_bind, Prog.bind_bind]
  apply Lockstep.get_bind
  rw [H.map]
  cases m.map with
  | read n => exact Lockstep.fail H
  | write n => exact hk

end

theorem failAt_lockstep (H : Refines utf8Error b m) (x : Bool) :
    Lockstep (Refines utf8Error) (failAt x) (failAt x) b m := by
  cases x with
  | true => exact .fail H
  | false => exact .pure H

theorem writeHeader_lockstep (H : Refines utf8Error b m) (fails : Bool) :
    Lockstep (Refines utf8Error) (ByteMatrix.writeHeader fails)
      (EmbeddingMatrix.writeHeader fails) b m := by
  obtain ⟨encoded, henc, hlen, hdec⟩ := H.current.encode utf8Error
  have hdec : RawHeader.decode utf8Error encoded = .ok b.header := by
    have := hdec []
    rwa [List.append_nil] at this
  have hvalid : m.header.encode = .ok m.header := (H.header ▸ H.current.valid).encode
  have hmapped : ¬b.map.len < headerSize := by
    rw [H.map, Map.len_bytes]
    omega
  have hwritten : Refines utf8Error { b with file := b.file.patch 0 encoded }
      { m with file := { m.file with header := m.header } } :=
    ⟨H.header, H.current, H.capacity, H.map, H.header ▸ H.file.writeHeader hlen hdec, H.length_lt⟩
  apply Lockstep.get_bind
  apply Lockstep.ofExcept_left (a := encoded) (by rw [henc]; rfl)
  apply Lockstep.ofExcept_right (a := m.header) (by rw [hvalid]; rfl)
  apply asBytesMut_bind_lockstep H
  apply Lockstep.get_left
  rw [if_neg hmapped]
  exact Lockstep.durable_bind hwritten (failAt_lockstep hwritten fails)

/-- Where `grow` fails: at a step that fails, or because the file would grow too long. -/
def ByteMatrix.growFails (b : ByteMatrix) (fails : AppendStep → Bool) (step : AppendStep) : Bool :=
  fails step || (step = .growSetLen &&
    2 ^ 63 ≤ headerSize + (b.capacityRows + growBlockRows) * b.dims * 2)

theorem grow_lockstep (H : Refines utf8Error b m) (hcap : m.capacityRows + growBlockRows < 2 ^ 64)
    (hoff : headerSize + (m.capacityRows + growBlockRows) * m.dims * 2 < 2 ^ 64)
    (fails : AppendStep → Bool) :
    Lockstep (Refines utf8Error) (ByteMatrix.grow checks fails)
      (EmbeddingMatrix.grow (b.growFails fails)) b m := by
  have hdims := H.dims
  rw [H.capacity] at hcap hoff
  rw [← H.dims] at hoff
  have hfails : ∀ step, step ≠ .growSetLen → fails step = b.growFails fails step := by
    intro step hstep
    simp [ByteMatrix.growFails, hstep]
  -- The map is replaced by one of the header, then the file is extended, then all of it is mapped.
  have hunmapped : Refines utf8Error { b with map := .read headerSize } { m with map := .read 0 } :=
    ⟨H.header, H.current, H.capacity, rfl, H.file, H.length_lt⟩
  have hextended (hshort : headerSize + (b.capacityRows + growBlockRows) * b.dims * 2 < 2 ^ 63) :
      Refines utf8Error
        { b with
          map := .read headerSize
          file := ByteMatrix.setLen (headerSize + (b.capacityRows + growBlockRows) * b.dims * 2)
            b.file }
        { m with
          map := .read 0
          file := m.file.setLen ((m.capacityRows + growBlockRows) * m.dims) } := by
    refine ⟨H.header, H.current, H.capacity, rfl, ?_, ?_⟩
    · rw [H.capacity, ← H.dims]
      exact H.file.setLen
    · rw [H.capacity, ← H.dims]
      have : (m.file.setLen ((b.capacityRows + growBlockRows) * b.dims)).cells.length =
          (b.capacityRows + growBlockRows) * b.dims := by
        simp [MatrixFile.setLen]
        omega
      rwa [this]
  apply Lockstep.get_bind
  apply Lockstep.ofExcept_left (wordAdd_ok hcap)
  apply Lockstep.ofExcept_left (ByteMatrix.rowOffset_ok hoff)
  refine failAt_bind_lockstep H (hfails _ (by decide)) fun _ => ?_
  refine failAt_bind_lockstep H (hfails _ (by decide)) fun _ => ?_
  apply Lockstep.modify_bind
  refine failAt_bind_lockstep hunmapped (hfails _ (by decide)) fun _ => ?_
  refine failAt_bind_lockstep hunmapped (by simp [ByteMatrix.growFails]) fun hset => ?_
  have hextended :=
    hextended (by simpa [ByteMatrix.growFails] using (Bool.or_eq_false_iff.mp hset).2)
  refine Lockstep.durable_bind hextended
    (failAt_bind_lockstep hextended (hfails _ (by decide)) fun _ => ?_)
  apply Lockstep.modify_bind
  apply Lockstep.modify
  refine ⟨H.header, H.current, ?_, ?_, hextended.file, hextended.length_lt⟩
  · rw [H.capacity]
  · exact congrArg ByteMap.write hextended.file.length

theorem writeRow_lockstep (H : Refines utf8Error b m) (hmap : m.map.cells ≤ m.file.cells.length)
    (hoff : headerSize + (m.rows + 1) * m.dims * 2 < 2 ^ 64) (hrows : m.rows + 1 < 2 ^ 64)
    {v : List F16} (hv : v.length = m.dims) (fails : Bool) :
    Lockstep (Refines utf8Error) (ByteMatrix.writeRow checks fails v)
      (EmbeddingMatrix.writeRow fails v) b m := by
  rw [ByteMatrix.rowOffset_succ] at hoff
  have hstart : headerSize + m.rows * m.dims * 2 < 2 ^ 64 := by omega
  have hwidth : m.dims * 2 < 2 ^ 64 := by omega
  have hlen := H.length_asBytes hmap
  have hwritten (hfit : m.rows * m.dims + v.length ≤ m.file.cells.length) : Refines utf8Error
      { b with file := b.file.patch (headerSize + m.rows * m.dims * 2) (f16SliceAsBytes v) }
      { m with file := m.file.writeCells (m.rows * m.dims) v } := by
    refine ⟨H.header, H.current, H.capacity, H.map, H.file.writeCells, ?_⟩
    rw [MatrixFile.length_writeCells hfit]
    exact H.length_lt
  have hcounted {b' : ByteMatrix} {m' : EmbeddingMatrix} (h : Refines utf8Error b' m')
      (hrows' : m'.rows = m.rows) : Refines utf8Error
      { b' with header := { b'.header with rows := .ofNat (m.rows + 1) } }
      { m' with header := { m'.header with rows := m'.header.rows + 1 } } := by
    refine ⟨?_, ⟨h.current.magic, h.current.version, h.current.fits⟩, h.capacity, h.map, h.file,
      h.length_lt⟩
    have hnext : (UInt64.ofNat (m.rows + 1)).toNat = m'.header.rows + 1 :=
      (UInt64.toNat_ofNat_of_lt' hrows).trans (congrArg (· + 1) hrows'.symm)
    rw [h.header] at hnext ⊢
    simp only [RawHeader.header, hnext]
  apply Lockstep.get_bind
  rw [H.rows, H.dims]
  apply Lockstep.ofExcept_left (ByteMatrix.rowOffset_ok hstart)
  apply asBytesMut_bind_lockstep H
  apply Lockstep.ofExcept_left (wordMul_ok hwidth)
  apply Lockstep.ofExcept_left (wordAdd_ok hoff)
  by_cases hfit : m.map.cells < m.rows * m.dims + m.dims
  · -- The bytes of the row are not mapped.
    have hslice : sliceOf b.asBytes (headerSize + m.rows * m.dims * 2)
        (headerSize + m.rows * m.dims * 2 + m.dims * 2) =
          .error (.panic "slice index out of range") := by
      rw [sliceOf, if_pos (.inr (by omega))]
    rw [hslice, if_pos hfit]
    exact Lockstep.fail H
  · rw [if_neg hfit]
    apply Lockstep.ofExcept_left (ByteMatrix.sliceOf_ok (Nat.le_add_right _ _) (by omega))
    have hwritten := hwritten (by omega)
    apply Lockstep.durable_bind hwritten
    apply Lockstep.ofExcept_left (wordAdd_ok hrows)
    apply Lockstep.modify_bind
    have hheader := writeHeader_lockstep (hcounted hwritten rfl) fails
    exact hheader.bind fun _ _ => .pure hheader.state

theorem flush_lockstep (H : Refines utf8Error b m) (fails : Bool) :
    Lockstep (Refines utf8Error) (ByteMatrix.flush fails) (EmbeddingMatrix.flush fails) b m :=
  (writeHeader_lockstep H fails).bind fun _ _ => .durable (writeHeader_lockstep H fails).state

/-- The counters of rows and of the capacity do not run over when a row is appended. With a
dimension the file would be too long before. -/
def ByteMatrix.Counts (b : ByteMatrix) : Prop := b.dims = 0 → b.rows + growBlockRows < 2 ^ 64

instance : Decidable b.Counts := inferInstanceAs (Decidable (_ → _))

theorem Refines.counts (H : Refines utf8Error b m) (hwf : m.WF) (hcounts : b.Counts) :
    m.rows + growBlockRows < 2 ^ 64 := by
  rcases Nat.eq_zero_or_pos m.dims with h0 | hpos
  · exact H.rows ▸ hcounts (H.dims.trans h0)
  · have hcells := H.length_lt
    have hinside := hwf.ready.inside
    rw [hwf.capacity] at hcells
    have hrows := Nat.le_mul_of_pos_right m.rows hpos
    unfold growBlockRows
    omega

/-- As long as the rows can be counted, an append to the bytes is one to the cells. -/
theorem append_lockstep (checks : Bool) (H : Refines utf8Error b m) (hwf : m.WF)
    (hcounts : b.Counts) (fails : AppendStep → Bool) (v : List F16) :
    Lockstep (Refines utf8Error) (ByteMatrix.append checks fails v)
      (EmbeddingMatrix.append (b.growFails fails) v) b m := by
  have hdims := H.dims_lt
  have hcells := H.length_lt
  rw [hwf.capacity] at hcells
  have hrows : m.rows * m.dims ≤ m.capacityRows * m.dims := hwf.ready.inside
  have hcounts := H.counts hwf hcounts
  unfold growBlockRows at hcounts
  have hflush : b.growFails fails .headerFlush = fails .headerFlush := by
    simp [ByteMatrix.growFails]
  apply Lockstep.get_bind
  rw [H.dims, H.rows, hflush]
  refine Lockstep.ite Iff.rfl (fun _ => Lockstep.fail H) fun hv => ?_
  have hv : v.length = m.dims := not_not.mp hv
  rw [← H.capacity]
  refine Lockstep.ite Iff.rfl (fun hfull => ?_) fun hroom => ?_
  · have hcap : m.capacityRows + growBlockRows < 2 ^ 64 := by
      unfold growBlockRows
      omega
    have hoff : headerSize + (m.capacityRows + growBlockRows) * m.dims * 2 < 2 ^ 64 := by
      rw [Nat.add_mul]
      unfold growBlockRows
      omega
    have hgrow := @grow_lockstep _ checks _ _ H hcap hoff fails
    refine hgrow.bind fun _ hok => ?_
    obtain ⟨-, hgrown, hheader, hcap'⟩ :=
      (EmbeddingMatrix.grow_wp hwf.ready hfull (b.growFails fails)).ok hok
    have hrows' : (EmbeddingMatrix.grow (b.growFails fails) m).state.rows = m.rows :=
      congrArg MatrixHeader.rows hheader
    have hdims' : (EmbeddingMatrix.grow (b.growFails fails) m).state.dims = m.dims :=
      congrArg MatrixHeader.dims hheader
    refine writeRow_lockstep hgrow.state (by rw [hgrown.map]; rfl) ?_ (by rw [hrows']; omega)
      (hv.trans hdims'.symm) _
    rw [hrows', hdims']
    -- The rows did not reach beyond the old capacity.
    have hnext : (m.rows + 1) * m.dims ≤ (m.capacityRows + growBlockRows) * m.dims := by
      rw [Nat.add_mul, Nat.add_mul]
      exact Nat.add_le_add hrows (Nat.mul_le_mul_right _ (by decide))
    omega
  · have hnext : (m.rows + 1) * m.dims ≤ m.capacityRows * m.dims :=
      Nat.mul_le_mul_right _ (Nat.lt_of_not_le hroom)
    exact writeRow_lockstep H (by rw [hwf.map]; rfl) (by omega) (by omega) hv _

/-! ## Reading -/

theorem Refines.asBytes (H : Refines utf8Error b m) (hwf : m.WF) : b.asBytes = b.file := by
  have hlen : b.map.len = b.file.length := by
    rw [H.map, Map.len_bytes, H.file.length, hwf.map]
    rfl
  rw [ByteMatrix.asBytes, hlen, List.take_length]

theorem Refines.row (H : Refines utf8Error b m) (hwf : m.WF) {k : Nat} (hk : k < m.rows) :
    b.row checks k = m.row k := by
  have hlen := H.length_lt
  have hrows := hwf.file.rows
  rw [← hwf.ready.rows, ← hwf.ready.dims] at hrows
  have hfit : headerSize + (k + 1) * b.dims * 2 ≤ b.asBytes.length := by
    have : (k + 1) * m.dims ≤ _ := (Nat.mul_le_mul_right m.dims hk).trans hrows
    rw [H.asBytes hwf, H.file.length, H.dims]
    omega
  rw [ByteMatrix.row_ok (H.rows ▸ hk) hfit (by rwa [H.asBytes hwf, H.file.length]), hwf.row hk,
    H.asBytes hwf, H.dims, Nat.succ_mul, H.file.cut, halvesOf_f16SliceAsBytes, MatrixFile.vector,
    ← hwf.ready.dims]

theorem Refines.asSlice (H : Refines utf8Error b m) (hwf : m.WF) :
    b.asSlice checks = .ok (m.file.cells.take (m.rows * m.dims)) := by
  have hlen := H.length_lt
  have hrows := hwf.file.rows
  rw [← hwf.ready.rows, ← hwf.ready.dims] at hrows
  have hfit : headerSize + b.rows * b.dims * 2 ≤ b.asBytes.length := by
    rw [H.asBytes hwf, H.file.length, H.rows, H.dims]
    omega
  have hcut := H.file.cut (n := m.rows * m.dims) 0
  rw [Nat.zero_mul, Nat.add_zero, Nat.zero_add, List.drop_zero] at hcut
  rw [ByteMatrix.asSlice_ok hfit (by rwa [H.asBytes hwf, H.file.length]), H.asBytes hwf,
    H.rows, H.dims, hcut, halvesOf_f16SliceAsBytes]

/-! ## Opening and creating -/

/-- The rows that the header counts, cut out of the bytes. -/
def ByteMatrix.stored (b : ByteMatrix) : List (List F16) :=
  (List.range b.rows).map fun k =>
    halvesOf (b.file.cut (headerSize + k * b.dims * 2) (headerSize + (k * b.dims + b.dims) * 2))

theorem ByteMatrix.length_stored : b.stored.length = b.rows := by
  rw [ByteMatrix.stored, List.length_map, List.length_range]

theorem Refines.stored (H : Refines utf8Error b m) (hheader : m.header = m.file.header) :
    b.stored = m.file.vectors := by
  rw [ByteMatrix.stored, MatrixFile.vectors, H.rows, EmbeddingMatrix.rows, hheader]
  refine List.map_congr_left fun k _ => ?_
  rw [H.dims, EmbeddingMatrix.dims, hheader, H.file.cut, halvesOf_f16SliceAsBytes]
  rfl

section opening

variable {f : FileContent} {g : MatrixFile}

/-- A file whose rows end with a whole cell. -/
theorem stores_of_openMut (h : ByteMatrix.openMut utf8Error f = .ok b)
    (heven : 2 ∣ f.bytes.length - headerSize) : ∃ g, Stores utf8Error f.bytes g := by
  obtain ⟨header, hdec, -⟩ := Except.bind_eq_ok.mp h
  have hlen := (RawHeader.stated_of_decode hdec).2.2
  have hfront : (f.bytes.take headerSize).length = headerSize := by
    rw [List.length_take, Nat.min_eq_left hlen]
  have hdec' : RawHeader.decode utf8Error (f.bytes.take headerSize) = .ok header := by
    have := @RawHeader.decode_append utf8Error _ (f.bytes.drop headerSize) hfront.ge
    rw [List.take_append_drop] at this
    rw [← this, hdec]
  refine ⟨⟨header.header, halvesOf (f.bytes.drop headerSize)⟩, header, _, hfront, hdec', rfl, ?_⟩
  rw [f16SliceAsBytes_halvesOf (by rwa [List.length_drop]), List.take_append_drop]

theorem Stores.openMut_ok (H : Stores utf8Error f.bytes g) :
    ∃ b, ByteMatrix.openMut utf8Error f = .ok b := by
  obtain ⟨h, hdec, -⟩ := H.decode
  rw [ByteMatrix.openMut, hdec]
  exact ⟨_, rfl⟩

/-- Either model opens the file. -/
theorem Stores.openMut (H : Stores utf8Error f.bytes g) (h : ByteMatrix.openMut utf8Error f = .ok b)
    (path : String) :
    ∃ m, EmbeddingMatrix.openMut path g = .ok m ∧ Refines utf8Error b m ∧ m.file = g ∧
      m.header = g.header := by
  obtain ⟨header, hdec, hheader⟩ := H.decode
  obtain ⟨header', hdec', h⟩ := Except.bind_eq_ok.mp h
  obtain rfl : header = header' := Except.ok.inj (hdec.symm.trans hdec')
  obtain rfl := Except.ok.inj h
  have hcurrent := RawHeader.current_of_decode hdec
  have hvalid : g.header.decode = .ok g.header := (hheader ▸ hcurrent.valid).decode
  refine ⟨_, by rw [EmbeddingMatrix.openMut, hvalid]; rfl, ⟨hheader, hcurrent, ?_, ?_, H, ?_⟩,
    rfl, rfl⟩
  · have hcells : f.bytes.length - headerSize = g.cells.length * 2 := by
      rw [H.length]
      omega
    dsimp only
    rw [ByteMatrix.roomFor, hcells, hheader, Nat.mul_div_mul_right _ _ (by decide : 0 < 2)]
    rfl
  · exact congrArg ByteMap.write H.length
  · exact H.length ▸ f.length_lt

/-- The matrix that `create` returns where no call fails. -/
def EmbeddingMatrix.created (path : String) (dims : Nat) (modelId : String) : EmbeddingMatrix :=
  let header : MatrixHeader := ⟨matrixMagic, matrixFormatVersion, dims, 0, modelId⟩
  ⟨path, header, growBlockRows, .write (growBlockRows * dims),
    ⟨header, List.replicate (growBlockRows * dims) 0⟩⟩

theorem EmbeddingMatrix.create_ok {path modelId : String} {dims : Nat}
    (h : modelId.utf8ByteSize ≤ modelIdCapacity) (d : Dir) :
    (EmbeddingMatrix.create (fun _ => false) path dims modelId d).result =
      .ok (.created path dims modelId) := by
  have henc : MatrixHeader.encode ⟨matrixMagic, matrixFormatVersion, dims, 0, modelId⟩ = .ok _ :=
    MatrixHeader.Valid.encode ⟨rfl, rfl, h⟩
  simp only [EmbeddingMatrix.create, failAt, henc, Except.mapError, Prog.ofExcept,
    List.length_replicate, EmbeddingMatrix.created]
  rfl

/-- Either model creates the file. -/
theorem create_refines {dims : UInt32} {modelId : String}
    (h : ByteMatrix.create dims modelId = .ok b) (path : String) : modelId.utf8ByteSize ≤
      modelIdCapacity ∧ Refines utf8Error b (.created path dims.toNat modelId) := by
  obtain ⟨encoded, henc, h⟩ := Except.bind_eq_ok.mp h
  generalize hheader : (⟨matrixMagic, .ofNat matrixFormatVersion, dims, 0, modelId,
      length_matrixMagic⟩ : RawHeader) =
    header at henc h
  obtain rfl := Except.ok.inj h
  have hcurrent : header.Current := by
    subst hheader
    refine ⟨rfl, rfl, ?_⟩
    by_contra hlong
    rw [RawHeader.encode_error (Nat.lt_of_not_le hlong)] at henc
    cases henc
  have hmatrix : (EmbeddingMatrix.created path dims.toNat modelId).header = header.header := by
    subst hheader
    rfl
  obtain ⟨encoded', henc', hlen, hdec⟩ := hcurrent.encode utf8Error
  obtain rfl : encoded = encoded' := Except.ok.inj (henc.symm.trans henc')
  have hdec := hdec []
  rw [List.append_nil] at hdec
  have hdims : dims.toNat < 2 ^ 32 := dims.toNat_lt
  refine ⟨?_, hmatrix, hcurrent, rfl, rfl, ⟨header, encoded, hlen, hdec, hmatrix, ?_⟩, ?_⟩
  · have := hcurrent.valid.modelId
    subst hheader
    exact this
  · show (ByteMatrix.setLen (headerSize + growBlockRows * dims.toNat * 2) []).patch 0 encoded =
      encoded ++ f16SliceAsBytes (List.replicate (growBlockRows * dims.toNat) 0)
    rw [ByteMatrix.setLen, List.take_nil, List.nil_append, List.length_nil, Nat.sub_zero,
      List.patch, List.take_zero, List.nil_append, Nat.zero_add, hlen, List.drop_replicate,
        Nat.add_sub_cancel_left,
      f16SliceAsBytes_replicate]
  · show headerSize + (List.replicate (growBlockRows * dims.toNat) (0 : F16)).length * 2 < 2 ^ 63
    rw [List.length_replicate]
    unfold headerSize growBlockRows
    omega

end opening

end SiftMcp
