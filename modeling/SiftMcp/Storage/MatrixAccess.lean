import SiftMcp.Storage.MatrixBytes
import SiftMcp.Lib.ExceptSteps

/-!
# Files that are safe to read

`open` and `open_mut` take over the header of a file as it stands. `Safe` asks that every row that
the header counts, the whole matrix and one more append stay inside the bytes that are mapped. The
length of the file is compared with the header nowhere: a file whose rows reach behind its end is
accepted, and the row at which its bytes run out panics.

The main result is `ByteMatrix.safe_iff_consistent`: the files on which this cannot happen.
-/

namespace SiftMcp
open Durable

/-- The row count in the header of a file. -/
def statedRows (bytes : List UInt8) : Nat := leNat (bytes.cut 16 24)

/-- The dimension in the header of a file. -/
def statedDims (bytes : List UInt8) : Nat := leNat (bytes.cut 12 16)

namespace RawHeader

theorem leNat_cut_lt {bytes : List UInt8} {a b : Nat} (h : b ≤ bytes.length) :
    leNat (bytes.cut a b) < 256 ^ (b - a) := by
  have := @leNat_lt (bytes.cut a b)
  rwa [List.length_cut h] at this

theorem stated_of_decode {utf8Error : List UInt8 → String} {bytes : List UInt8} {h : RawHeader}
    (hd : decode utf8Error bytes = .ok h) : h.rows.toNat = statedRows bytes ∧
      h.dims.toNat = statedDims bytes ∧ headerSize ≤ bytes.length := by
  unfold decode at hd
  dsimp only at hd
  split at hd
  · cases hd
  · next hlen =>
    have hlen : headerSize ≤ bytes.length := Nat.le_of_not_lt hlen
    split at hd
    · cases hd
    · split at hd
      · cases hd
      · split at hd
        · cases hd
        · split at hd
          · cases hd
          · obtain rfl := Except.ok.inj hd
            have hrows := leNat_cut_lt (a := 16) (Nat.le_trans (by decide) hlen : 24 ≤ bytes.length)
            have hdims := leNat_cut_lt (a := 12) (Nat.le_trans (by decide) hlen : 16 ≤ bytes.length)
            exact ⟨UInt64.toNat_ofNat_of_lt' hrows, UInt32.toNat_ofNat_of_lt' hdims, hlen⟩

end RawHeader

namespace ByteMatrix

variable {utf8Error : List UInt8 → String} {checks : Bool} {f : FileContent} {m : ByteMatrix}

/-! ## Opening -/

/-- A handle just opened on a file. -/
structure Fresh (f : FileContent) (m : ByteMatrix) : Prop where
  header : m.header.Current
  rows : m.rows = statedRows f.bytes
  dims : m.dims = statedDims f.bytes
  capacity : m.capacityRows = roomFor m.dims f.bytes.length
  map : m.map.len = f.bytes.length
  file : m.file = f.bytes
  length : headerSize ≤ f.bytes.length

/-- Either way of opening takes over the header and maps the whole file. -/
theorem fresh_of_decode {header : RawHeader} {map : ByteMap}
    (h : RawHeader.decode utf8Error f.bytes = .ok header) (hmap : map.len = f.bytes.length) :
    Fresh f ⟨header, roomFor header.dims.toNat f.bytes.length, map, f.bytes⟩ := by
  obtain ⟨hrows, hdims, hlen⟩ := RawHeader.stated_of_decode h
  exact ⟨RawHeader.current_of_decode h, hrows, hdims, rfl, hmap, rfl, hlen⟩

theorem fresh_open (h : ByteMatrix.open utf8Error f = .ok m) :
    m.Fresh f ∧ m.map = .read f.bytes.length := by
  obtain ⟨header, hd, h⟩ := Except.bind_eq_ok.mp h
  obtain rfl := Except.ok.inj h
  exact ⟨fresh_of_decode hd rfl, rfl⟩

theorem fresh_openMut (h : ByteMatrix.openMut utf8Error f = .ok m) : m.Fresh f := by
  obtain ⟨header, hd, h⟩ := Except.bind_eq_ok.mp h
  obtain rfl := Except.ok.inj h
  exact fresh_of_decode hd rfl

theorem Fresh.asBytes (H : m.Fresh f) : m.asBytes = f.bytes := by
  rw [ByteMatrix.asBytes, H.map, H.file, List.take_length]

/-- The header's rows lie inside the file exactly when they are no more than the capacity. -/
theorem le_roomFor_iff {dims len n : Nat} (hlen : headerSize ≤ len) (hd : dims ≠ 0) :
    n ≤ roomFor dims len ↔ headerSize + n * dims * 2 ≤ len := by
  rw [roomFor, if_neg hd, Nat.le_div_iff_mul_le (by omega), Nat.mul_assoc]
  omega

/-! ## Reading -/

theorem rowOffset_ok {row dims : Nat} (h : headerSize + row * dims * 2 < 2 ^ 64) :
    rowOffset checks row dims = .ok (headerSize + row * dims * 2) := by
  have h1 : row * dims < 2 ^ 64 := by omega
  have h2 : row * dims * 2 < 2 ^ 64 := by omega
  simp only [rowOffset, wordMul_ok h1, wordMul_ok h2, bind, Except.bind, wordAdd_ok h]

theorem sliceOf_ok {bytes : List UInt8} {a b : Nat} (hab : a ≤ b) (hb : b ≤ bytes.length) :
    sliceOf bytes a b = .ok (bytes.cut a b) := by
  rw [sliceOf, if_neg (by omega)]

theorem bytesAsF16Slice_cut {bytes : List UInt8} {a n : Nat} (h : a + n * 2 ≤ bytes.length) :
    bytesAsF16Slice (bytes.cut a (a + n * 2)) = .ok (halvesOf (bytes.cut a (a + n * 2))) := by
  rw [bytesAsF16Slice, if_neg]
  rw [List.length_cut h]
  omega

theorem rowOffset_succ (r dims : Nat) :
    headerSize + (r + 1) * dims * 2 = headerSize + r * dims * 2 + dims * 2 := by
  rw [Nat.succ_mul]
  omega

theorem row_ok {r : Nat} (hr : r < m.rows)
    (hfit : headerSize + (r + 1) * m.dims * 2 ≤ m.asBytes.length)
    (hlen : m.asBytes.length < 2 ^ 63) : m.row checks r = .ok (halvesOf
      (m.asBytes.cut (headerSize + r * m.dims * 2) (headerSize + (r + 1) * m.dims * 2))) := by
  rw [rowOffset_succ] at hfit ⊢
  have hoff : headerSize + r * m.dims * 2 < 2 ^ 64 := by omega
  have hdims : m.dims * 2 < 2 ^ 64 := by omega
  have hstop : headerSize + r * m.dims * 2 + m.dims * 2 < 2 ^ 64 := by omega
  simp only [row, if_neg (Nat.not_le.mpr hr), rowOffset_ok hoff, wordMul_ok hdims, bind,
    Except.bind, wordAdd_ok hstop, sliceOf_ok (Nat.le_add_right _ _) hfit, bytesAsF16Slice_cut hfit]

theorem asSlice_ok (hfit : headerSize + m.rows * m.dims * 2 ≤ m.asBytes.length)
    (hlen : m.asBytes.length < 2 ^ 63) : m.asSlice checks =
      .ok (halvesOf (m.asBytes.cut headerSize (headerSize + m.rows * m.dims * 2))) := by
  have h1 : m.rows * m.dims < 2 ^ 64 := by omega
  have h2 : m.rows * m.dims * 2 < 2 ^ 64 := by omega
  have h3 : headerSize + m.rows * m.dims * 2 < 2 ^ 64 := by omega
  simp only [asSlice, wordMul_ok h1, bind, Except.bind, pure, Except.pure]
  split
  · rename_i h0
    rw [h0, List.cut, Nat.zero_mul, Nat.add_zero, Nat.sub_self, List.take_zero]
    rfl
  · simp only [wordMul_ok h2, wordAdd_ok h3, sliceOf_ok (Nat.le_add_right _ _) hfit,
      bytesAsF16Slice_cut hfit]

/-! ## Appending -/

/-- An error that is returned, and no panic. -/
def Returned (e : Failure) : Prop := ∃ err, e = .error err

/-- A handle whose map shows the header and ends inside the file. -/
structure Inside (m : ByteMatrix) : Prop where
  header : m.header.Current
  length : headerSize ≤ m.map.len
  map : m.map.len ≤ m.file.length

theorem Inside.asBytes_length (H : m.Inside) : m.asBytes.length = m.map.len := by
  rw [ByteMatrix.asBytes, List.length_take, Nat.min_eq_left H.map]

theorem Fresh.inside (H : m.Fresh f) : m.Inside :=
  ⟨H.header, H.map ▸ H.length, by rw [H.map, H.file]⟩

@[simp] theorem length_f16SliceAsBytes {v : List F16} :
    (f16SliceAsBytes v).length = v.length * 2 := by
  induction v with
  | nil => rfl
  | cons x v ih =>
    have hv : (f16SliceAsBytes v).length = (v.flatMap fun x => leBytes 2 x.toNat).length := rfl
    rw [f16SliceAsBytes, List.flatMap_cons, List.length_append, leBytes_length, List.length_cons]
    omega

section

variable {Q : Unit → ByteMatrix → Prop} {E : Failure → ByteMatrix → Prop}
  {C : Step → ByteMatrix → Prop}

theorem wp_asBytesMut_read (h : ∃ n, m.map = .read n) : Prog.wp asBytesMut Q E C m ↔
    E (.error (.io .permissionDenied "matrix opened read-only")) m := by
  obtain ⟨n, hn⟩ := h
  simp [asBytesMut, hn]

theorem wp_asBytesMut_write (h : ∃ n, m.map = .write n) : Prog.wp asBytesMut Q E C m ↔ Q () m := by
  obtain ⟨n, hn⟩ := h
  simp [asBytesMut, hn]

end

theorem map_cases (m : ByteMatrix) : (∃ n, m.map = .read n) ∨ ∃ n, m.map = .write n := by
  cases m.map with
  | read n => exact .inl ⟨n, rfl⟩
  | write n => exact .inr ⟨n, rfl⟩

theorem writeHeader_wp (H : m.Inside) (fails : Bool) :
    Prog.wp (writeHeader fails) (fun _ t => t.map = m.map ∧ t.file.length = m.file.length)
      (fun e _ => Returned e) (fun _ _ => True) m := by
  obtain ⟨encoded, hencoded, hlen, -⟩ := H.header.encode fun _ => ""
  have hpatch : (m.file.patch 0 encoded).length = m.file.length := by
    apply List.length_patch
    have := H.length.trans H.map
    omega
  simp only [writeHeader, Prog.wp_bind, Prog.wp_get, hencoded, Except.mapError, Prog.wp_ofExcept]
  rcases m.map_cases with hread | hwrite
  · rw [wp_asBytesMut_read hread]
    exact ⟨_, rfl⟩
  · rw [wp_asBytesMut_write hwrite]
    rw [if_neg (Nat.not_lt.mpr H.length)]
    simp only [Prog.wp_bind, Prog.wp_durable, wp_failAt]
    exact ⟨trivial, fun _ => ⟨_, rfl⟩, fun _ => ⟨trivial, hpatch⟩⟩

theorem writeRow_wp (H : m.Inside) {v : List F16} (hv : v.length = m.dims)
    (hfit : headerSize + (m.rows + 1) * m.dims * 2 ≤ m.map.len) (hlen : m.map.len < 2 ^ 63)
    (hrows : checks = true → m.rows + 1 < 2 ^ 64) (fails : Bool) :
    Prog.wp (writeRow checks fails v) (fun row t => row = m.rows ∧ t.asBytes.length = m.map.len)
      (fun e _ => Returned e) (fun _ _ => True) m := by
  rw [rowOffset_succ] at hfit
  have hoff : headerSize + m.rows * m.dims * 2 < 2 ^ 64 := by omega
  have hdims : m.dims * 2 < 2 ^ 64 := by omega
  have hstop : headerSize + m.rows * m.dims * 2 + m.dims * 2 < 2 ^ 64 := by omega
  have hcut : headerSize + m.rows * m.dims * 2 + m.dims * 2 ≤ m.asBytes.length := by
    rw [H.asBytes_length]
    exact hfit
  have hpatch : (m.file.patch (headerSize + m.rows * m.dims * 2) (f16SliceAsBytes v)).length =
      m.file.length := by
    apply List.length_patch
    rw [length_f16SliceAsBytes, hv]
    exact hfit.trans H.map
  obtain ⟨n, hn⟩ : ∃ n, wordAdd checks m.rows 1 = .ok n := by
    unfold wordAdd
    split
    · exact ⟨_, rfl⟩
    · next hover =>
      cases checks with
      | true => exact absurd (hrows rfl) hover
      | false => exact ⟨_, rfl⟩
  simp only [writeRow, Prog.wp_bind, Prog.wp_get, rowOffset_ok hoff, wordMul_ok hdims,
    wordAdd_ok hstop, sliceOf_ok (Nat.le_add_right _ _) hcut, Prog.wp_ofExcept]
  rcases m.map_cases with hread | hwrite
  · rw [wp_asBytesMut_read hread]
    exact ⟨_, rfl⟩
  · rw [wp_asBytesMut_write hwrite]
    simp only [Prog.wp_durable, Prog.wp_modify, hn]
    refine ⟨trivial, (writeHeader_wp (m := { m with
      header := { m.header with rows := .ofNat n }
      file := m.file.patch (headerSize + m.rows * m.dims * 2) (f16SliceAsBytes v) }) ?_ fails).mono
        ?_ (fun _ _ h => h) fun _ _ h => h⟩
    · exact ⟨⟨H.header.magic, H.header.version, H.header.fits⟩, H.length, hpatch ▸ H.map⟩
    · rintro _ t ⟨hmap, hfile⟩
      refine Prog.wp_pure.mpr ⟨rfl, ?_⟩
      rw [ByteMatrix.asBytes, List.length_take, hmap, hfile, hpatch]
      exact Nat.min_eq_left H.map

theorem length_setLen {n : Nat} {bytes : List UInt8} : (setLen n bytes).length = n := by
  rw [setLen, List.length_append, List.length_take, List.length_replicate]
  omega

theorem grow_wp (H : m.Inside) (hcap : m.capacityRows + growBlockRows < 2 ^ 64)
    (hoff : headerSize + (m.capacityRows + growBlockRows) * m.dims * 2 < 2 ^ 64)
    (fails : AppendStep → Bool) :
    Prog.wp (grow checks fails)
      (fun _ t => t.Inside ∧ t.header = m.header ∧ t.map.len < 2 ^ 63 ∧
        t.map.len = headerSize + (m.capacityRows + growBlockRows) * m.dims * 2)
      (fun e _ => Returned e) (fun _ _ => True) m := by
  simp only [grow, Prog.wp_bind, Prog.wp_get, wordAdd_ok hcap, rowOffset_ok hoff, Prog.wp_ofExcept,
    wp_failAt, Prog.wp_modify, Prog.wp_durable]
  refine ⟨fun _ => ⟨_, rfl⟩, fun _ => ⟨fun _ => ⟨_, rfl⟩, fun _ => ⟨fun _ => ⟨_, rfl⟩,
    fun _ => ⟨fun _ => ⟨_, rfl⟩, fun hset => ⟨trivial, fun _ => ⟨_, rfl⟩, fun _ => ?_⟩⟩⟩⟩⟩
  have hshort : headerSize + (m.capacityRows + growBlockRows) * m.dims * 2 < 2 ^ 63 := by
    simpa using (Bool.or_eq_false_iff.mp hset).2
  have hlen := @length_setLen (headerSize + (m.capacityRows + growBlockRows) * m.dims * 2) m.file
  exact ⟨⟨H.header, (Nat.le_add_right _ _).trans hlen.ge, Nat.le_refl _⟩, trivial,
    hlen.trans_lt hshort, hlen⟩

/-- The rows of a file lie inside it, and one more can be counted. -/
structure Consistent (checks : Bool) (f : FileContent) : Prop where
  rows : headerSize + statedRows f.bytes * statedDims f.bytes * 2 ≤ f.bytes.length
  next : checks = true → statedRows f.bytes + 1 < 2 ^ 64

theorem roomFor_lt {dims len : Nat} (h : len < 2 ^ 63) : roomFor dims len < 2 ^ 63 := by
  unfold roomFor
  split
  · exact Nat.two_pow_pos 63
  · have := Nat.div_le_self (len - headerSize) (dims * 2)
    omega

theorem roomFor_mul_le {dims len : Nat} (hlen : headerSize ≤ len) :
    headerSize + roomFor dims len * dims * 2 ≤ len := by
  rcases Nat.eq_zero_or_pos dims with h0 | hpos
  · simpa [h0] using hlen
  · exact (le_roomFor_iff hlen hpos.ne').mp (Nat.le_refl _)

theorem append_wp (H : m.Fresh f) (hf : Consistent checks f) (fails : AppendStep → Bool)
    (v : List F16) :
    Prog.wp (append checks fails v)
      (fun row t => headerSize + (row + 1) * m.dims * 2 ≤ t.asBytes.length)
      (fun e _ => Returned e) (fun _ _ => True) m := by
  have hlen := f.length_lt
  have hrows : headerSize + m.rows * m.dims * 2 ≤ f.bytes.length := by
    rw [H.rows, H.dims]
    exact hf.rows
  have hnext : checks = true → m.rows + 1 < 2 ^ 64 := H.rows ▸ hf.next
  have hdims : m.dims < 2 ^ 32 := m.header.dims.toNat_lt
  simp only [append, Prog.wp_bind, Prog.wp_get, Prog.wp_ite, Prog.wp_fail]
  refine ⟨fun _ => ⟨_, rfl⟩, fun hv => ⟨fun hfull => ?_, fun hroom => ?_⟩⟩
  · have hcap : m.capacityRows < 2 ^ 63 := H.capacity ▸ roomFor_lt hlen
    have hmul : headerSize + m.capacityRows * m.dims * 2 ≤ f.bytes.length :=
      H.capacity ▸ roomFor_mul_le H.length
    have hoff : headerSize + (m.capacityRows + growBlockRows) * m.dims * 2 < 2 ^ 64 := by
      rw [Nat.add_mul]
      unfold growBlockRows
      omega
    refine (grow_wp H.inside (by unfold growBlockRows; omega) hoff fails).mono ?_ (fun _ _ h => h)
      fun _ _ h => h
    rintro _ t ⟨hinside, hheader, hshort, ht⟩
    have htdims : t.dims = m.dims := congrArg (fun h => h.dims.toNat) hheader
    have htrows : t.rows = m.rows := congrArg (fun h => h.rows.toNat) hheader
    -- The rows did not reach beyond the old capacity, so the new one has room for one more.
    have hfit : headerSize + (m.rows + 1) * m.dims * 2 ≤ t.map.len := by
      rw [ht]
      rcases Nat.eq_zero_or_pos m.dims with h0 | hpos
      · simp [h0]
      · have hle : m.rows ≤ m.capacityRows :=
          H.capacity ▸ (le_roomFor_iff H.length hpos.ne').mpr hrows
        have hle' : m.rows + 1 ≤ m.capacityRows + growBlockRows := Nat.add_le_add hle (by decide)
        exact Nat.add_le_add_left (Nat.mul_le_mul_right 2 (Nat.mul_le_mul_right _ hle')) _
    refine (writeRow_wp hinside (htdims ▸ not_not.mp hv) ?_ hshort (htrows ▸ hnext) _).mono ?_
      (fun _ _ h => h) fun _ _ h => h
    · rw [htrows, htdims]
      exact hfit
    · rintro row u ⟨rfl, hu⟩
      rw [hu, htrows]
      exact hfit
  · have hpos : m.dims ≠ 0 := by
      intro h0
      rw [H.capacity, roomFor, if_pos h0] at hroom
      exact hroom (Nat.zero_le _)
    have hfit : headerSize + (m.rows + 1) * m.dims * 2 ≤ m.map.len := by
      rw [H.map]
      exact (le_roomFor_iff H.length hpos).mp (H.capacity ▸ Nat.lt_of_not_le hroom)
    refine (writeRow_wp H.inside (not_not.mp hv) hfit (H.map ▸ hlen) hnext _).mono ?_
      (fun _ _ h => h) fun _ _ h => h
    rintro row u ⟨rfl, hu⟩
    rw [hu]
    exact hfit

/-! ## The property -/

/-- Every row that the header counts, the whole matrix and one more append find their bytes inside
the map. -/
structure Safe (checks : Bool) (m : ByteMatrix) : Prop where
  row : ∀ r < m.rows, m.row checks r = .ok (halvesOf
    (m.asBytes.cut (headerSize + r * m.dims * 2) (headerSize + (r + 1) * m.dims * 2)))
  slice : m.asSlice checks =
    .ok (halvesOf (m.asBytes.cut headerSize (headerSize + m.rows * m.dims * 2)))
  append : ∀ fails v, Prog.wp (append checks fails v)
    (fun row t => headerSize + (row + 1) * m.dims * 2 ≤ t.asBytes.length)
    (fun e _ => Returned e) (fun _ _ => True) m

theorem Fresh.safe (H : m.Fresh f) (hf : Consistent checks f) : m.Safe checks := by
  have hfit : headerSize + m.rows * m.dims * 2 ≤ m.asBytes.length := by
    rw [H.asBytes, H.rows, H.dims]
    exact hf.rows
  have hlen : m.asBytes.length < 2 ^ 63 := H.asBytes ▸ f.length_lt
  refine ⟨fun r hr => row_ok hr ?_ hlen, asSlice_ok hfit hlen, append_wp H hf⟩
  have hle : (r + 1) * m.dims * 2 ≤ m.rows * m.dims * 2 :=
    Nat.mul_le_mul_right 2 (Nat.mul_le_mul_right m.dims hr)
  omega

/-- The first row that the file has no room for panics. -/
theorem Fresh.row_roomFor (H : m.Fresh f) (hd : m.dims ≠ 0) (hr : m.capacityRows < m.rows) :
    m.row checks m.capacityRows = .error (.panic "slice index out of range") := by
  have hlen := f.length_lt
  have hdims : m.dims < 2 ^ 32 := m.header.dims.toNat_lt
  have hmul : headerSize + m.capacityRows * m.dims * 2 ≤ f.bytes.length :=
    H.capacity ▸ roomFor_mul_le H.length
  have hbehind : ¬headerSize + (m.capacityRows + 1) * m.dims * 2 ≤ f.bytes.length := by
    rw [← le_roomFor_iff H.length hd, ← H.capacity]
    exact Nat.not_succ_le_self _
  rw [rowOffset_succ] at hbehind
  have hoff : headerSize + m.capacityRows * m.dims * 2 < 2 ^ 64 := by omega
  have hwidth : m.dims * 2 < 2 ^ 64 := by omega
  have hstop : headerSize + m.capacityRows * m.dims * 2 + m.dims * 2 < 2 ^ 64 := by omega
  have hslice : sliceOf m.asBytes (headerSize + m.capacityRows * m.dims * 2)
      (headerSize + m.capacityRows * m.dims * 2 + m.dims * 2) =
        .error (.panic "slice index out of range") := by
    rw [sliceOf, if_pos]
    rw [H.asBytes]
    omega
  simp only [ByteMatrix.row, if_neg (Nat.not_le.mpr hr), rowOffset_ok hoff, wordMul_ok hwidth, bind,
    Except.bind, wordAdd_ok hstop, hslice]

/-- The first row of a handle that only the header is mapped of. -/
theorem row_unmapped (hr : 0 < m.rows) (hd : m.dims ≠ 0) (hmap : m.map.len = headerSize) :
    m.row checks 0 = .error (.panic "slice index out of range") := by
  have hdims : m.dims < 2 ^ 32 := m.header.dims.toNat_lt
  have hlen : m.asBytes.length ≤ headerSize := by
    rw [ByteMatrix.asBytes, List.length_take, hmap]
    exact Nat.min_le_left _ _
  have hoff : headerSize + 0 * m.dims * 2 < 2 ^ 64 := by rw [Nat.zero_mul]; decide
  have hwidth : m.dims * 2 < 2 ^ 64 := by omega
  have hstop : headerSize + 0 * m.dims * 2 + m.dims * 2 < 2 ^ 64 := by
    unfold headerSize
    omega
  have hslice : sliceOf m.asBytes (headerSize + 0 * m.dims * 2)
      (headerSize + 0 * m.dims * 2 + m.dims * 2) = .error (.panic "slice index out of range") := by
    rw [sliceOf, if_pos]
    omega
  simp only [ByteMatrix.row, if_neg (Nat.not_le.mpr hr), rowOffset_ok hoff, wordMul_ok hwidth, bind,
    Except.bind, wordAdd_ok hstop, hslice]

/-- What fails by a panic only. -/
def Panics {α : Type} (x : Except Failure α) : Prop := ∀ e, x = .error e → ¬Returned e

theorem not_returned_panic {detail : String} : ¬Returned (.panic detail) := fun ⟨_, h⟩ => by cases h

theorem panics_wordAdd {a b : Nat} : Panics (wordAdd checks a b) := by
  intro e h
  unfold wordAdd at h
  split at h
  · cases h
  · split at h
    · obtain rfl := Except.error.inj h
      exact not_returned_panic
    · cases h

theorem panics_wordMul {a b : Nat} : Panics (wordMul checks a b) := by
  intro e h
  unfold wordMul at h
  split at h
  · cases h
  · split at h
    · obtain rfl := Except.error.inj h
      exact not_returned_panic
    · cases h

theorem Panics.bind {α β : Type} {x : Except Failure α} {k : α → Except Failure β} (H : Panics x)
    (hk : ∀ a, Panics (k a)) : Panics (x >>= k) := by
  intro e h
  cases x with
  | error e' => exact H e (congrArg _ (Except.error.inj h))
  | ok a => exact hk a e h

theorem panics_rowOffset {row dims : Nat} : Panics (rowOffset checks row dims) :=
  panics_wordMul.bind fun _ => panics_wordMul.bind fun _ => panics_wordAdd

theorem panics_sliceOf {bytes : List UInt8} {a b : Nat} : Panics (sliceOf bytes a b) := by
  intro e h
  unfold sliceOf at h
  split at h
  · obtain rfl := Except.error.inj h
    exact not_returned_panic
  · cases h

theorem Panics.wp {α : Type} {x : Except Failure α} (H : Panics x) {Q : α → ByteMatrix → Prop}
    {C : Step → ByteMatrix → Prop} (hQ : ∀ a, x = .ok a → Q a m) :
    Prog.wp (.ofExcept x) Q (fun e _ => ¬Returned e) C m := by
  rw [Prog.wp_ofExcept]
  cases x with
  | error e => exact H e rfl
  | ok a => exact hQ a rfl

/-- Without a failing step nothing but a panic keeps a writable handle from the row. -/
theorem writeRow_writable (hmap : ∃ n, m.map = .write n) (hlen : headerSize ≤ m.map.len)
    (hc : m.header.Current) (v : List F16) :
    Prog.wp (writeRow checks false v) (fun _ _ => checks = true → m.rows + 1 < 2 ^ 64)
      (fun e _ => ¬Returned e) (fun _ _ => True) m := by
  simp only [writeRow, Prog.wp_bind, Prog.wp_get]
  refine panics_rowOffset.wp fun offset _ => ?_
  rw [wp_asBytesMut_write hmap]
  refine panics_wordMul.wp fun width _ => panics_wordAdd.wp fun stop _ => panics_sliceOf.wp
    fun _ _ => Prog.wp_durable.mpr ⟨trivial, panics_wordAdd.wp fun n hn => ?_⟩
  have hnext : checks = true → m.rows + 1 < 2 ^ 64 := by
    intro hchecks
    by_contra hover
    rw [show wordAdd checks _ 1 = _ from if_neg hover, if_pos hchecks] at hn
    cases hn
  obtain ⟨encoded, hencoded, -⟩ := RawHeader.Current.encode
    (h := { m.header with rows := .ofNat n }) ⟨hc.magic, hc.version, hc.fits⟩ fun _ => ""
  simp only [Prog.wp_modify, writeHeader, Prog.wp_bind, Prog.wp_get, hencoded, Except.mapError,
    Prog.wp_ofExcept]
  refine (wp_asBytesMut_write (by exact hmap)).mpr ?_
  rw [if_neg (Nat.not_lt.mpr hlen)]
  simp only [Prog.wp_bind, Prog.wp_durable, wp_failAt, Prog.wp_pure]
  exact ⟨trivial, fun h => absurd h Bool.false_ne_true, fun _ => hnext⟩

/-- Without a failing step the file is extended and mapped for writing, unless it would grow too
long. -/
theorem grow_writable (hcap : m.capacityRows + growBlockRows < 2 ^ 64)
    (hoff : headerSize + (m.capacityRows + growBlockRows) * m.dims * 2 < 2 ^ 64) :
    Prog.wp (grow checks fun _ => false)
      (fun _ t => t.header = m.header ∧ headerSize ≤ t.map.len ∧ ∃ n, t.map = .write n)
      (fun _ t => t = { m with map := .read headerSize } ∧
        2 ^ 63 ≤ headerSize + (m.capacityRows + growBlockRows) * m.dims * 2)
      (fun _ _ => True) m := by
  simp only [grow, Prog.wp_bind, Prog.wp_get, wordAdd_ok hcap, rowOffset_ok hoff, Prog.wp_ofExcept,
    wp_failAt, Prog.wp_modify, Prog.wp_durable]
  have hno {P : Prop} (h : false = true) : P := absurd h Bool.false_ne_true
  refine ⟨hno, fun _ => ⟨hno, fun _ => ⟨hno, fun _ => ⟨fun hset => ⟨trivial, ?_⟩, fun _ =>
    ⟨trivial, hno, fun _ => ⟨trivial, ?_, _, rfl⟩⟩⟩⟩⟩⟩
  · simpa using hset
  · exact (Nat.le_add_right _ _).trans length_setLen.ge

/-- An append to a full matrix, with no step that fails: it maps the file for writing, whatever the
map was before. -/
theorem append_full (H : m.Fresh f) (hfull : m.capacityRows ≤ m.rows) {v : List F16}
    (hv : v.length = m.dims) :
    Prog.wp (append checks (fun _ => false) v) (fun _ _ => checks = true → m.rows + 1 < 2 ^ 64)
      (fun e t => Returned e → m.dims ≠ 0 ∧ ∃ r, t.row checks r ≠ m.row checks r)
      (fun _ _ => True) m := by
  have hdims : m.dims < 2 ^ 32 := m.header.dims.toNat_lt
  have hlen := f.length_lt
  have hcap : m.capacityRows < 2 ^ 63 := H.capacity ▸ roomFor_lt hlen
  have hmul : headerSize + m.capacityRows * m.dims * 2 ≤ f.bytes.length :=
    H.capacity ▸ roomFor_mul_le H.length
  have hoff : headerSize + (m.capacityRows + growBlockRows) * m.dims * 2 =
      headerSize + m.capacityRows * m.dims * 2 + m.dims * 2048 := by
    rw [Nat.add_mul]
    unfold growBlockRows
    omega
  simp only [append, Prog.wp_bind, Prog.wp_get, Prog.wp_ite, Prog.wp_fail]
  refine ⟨fun h => absurd hv h, fun _ => ⟨fun _ => ?_, fun h => absurd hfull h⟩⟩
  refine (grow_writable (by unfold growBlockRows; omega) (by omega)).mono ?_ ?_ fun _ _ h => h
  · rintro _ t ⟨hheader, hmap, hwrite⟩
    have hrows : t.rows = m.rows := congrArg (fun h => h.rows.toNat) hheader
    exact (writeRow_writable hwrite hmap (hheader ▸ H.header) v).mono (fun _ _ h => hrows ▸ h)
      (fun _ _ h hret => absurd hret h) fun _ _ h => h
  · -- The file has grown too long: its rows are no longer mapped.
    rintro _ t ⟨rfl, hlong⟩ -
    rw [hoff] at hlong
    have hd : m.dims ≠ 0 := by
      intro h0
      rw [h0, Nat.mul_zero] at hlong
      exact absurd hlong (by decide)
    have hpos : 0 < m.capacityRows := by
      rw [Nat.pos_iff_ne_zero]
      intro h0
      rw [h0, Nat.zero_mul] at hlong
      unfold headerSize at hlong
      omega
    have hroom : headerSize + (0 + 1) * m.dims * 2 ≤ m.asBytes.length := by
      rw [H.asBytes, ← le_roomFor_iff H.length hd, ← H.capacity]
      exact hpos
    have hunmapped : ({ m with map := .read headerSize } : ByteMatrix).row checks 0 =
        .error (.panic "slice index out of range") := row_unmapped (hpos.trans_le hfull) hd rfl
    refine ⟨hd, 0, ?_⟩
    rw [row_ok (hpos.trans_le hfull) hroom (H.asBytes ▸ hlen), hunmapped]
    intro h
    cases h

theorem safe_iff_consistent
    (h : ByteMatrix.open utf8Error f = .ok m ∨ openMut utf8Error f = .ok m) :
    m.Safe checks ↔ Consistent checks f := by
  have H : m.Fresh f := h.elim (fun h => (fresh_open h).1) fresh_openMut
  refine ⟨fun hsafe => ?_, H.safe⟩
  have hrows : headerSize + m.rows * m.dims * 2 ≤ f.bytes.length := by
    rcases Nat.eq_zero_or_pos m.dims with h0 | hpos
    · simpa [h0] using H.length
    · rw [← le_roomFor_iff H.length hpos.ne', ← H.capacity]
      by_contra hlt
      have hrow := hsafe.row _ (Nat.lt_of_not_le hlt)
      rw [H.row_roomFor hpos.ne' (Nat.lt_of_not_le hlt)] at hrow
      cases hrow
  refine ⟨by rw [← H.rows, ← H.dims]; exact hrows, fun hchecks => ?_⟩
  rw [← H.rows]
  by_contra hover
  have hmax : m.rows < 2 ^ 64 := m.header.rows.toNat_lt
  have hfull : m.rows + 1 = 2 ^ 64 := by omega
  have hd : m.dims = 0 := by
    by_contra hd
    have hlen := f.length_lt
    have := Nat.le_mul_of_pos_right m.rows (Nat.pos_of_ne_zero hd)
    omega
  have hcap : m.capacityRows ≤ m.rows := by
    rw [H.capacity, roomFor, if_pos hd]
    exact Nat.zero_le _
  have hwp := (hsafe.append (fun _ => false) []).and
    (append_full H hcap hd.symm)
  cases hr : (append checks (fun _ => false) [] m).result with
  | ok row => exact hover ((hwp.ok hr).2 hchecks)
  | error e => exact ((hwp.error hr).2 (hwp.error hr).1).1 hd

/-- One row of one half. -/
def oneRow : RawHeader := ⟨matrixMagic, 1, 1, 1, "", length_matrixMagic⟩

/-- The file ends behind the header. -/
def truncatedFile : FileContent :=
  ⟨oneRow.layout (List.replicate 260 0), by decide +kernel⟩

theorem not_safe_truncatedFile : ∃ m, ByteMatrix.open (fun _ => "") truncatedFile = .ok m ∧
    ∀ checks, m.row checks 0 = .error (.panic "slice index out of range") ∧ ¬m.Safe checks := by
  have hpanic (checks : Bool) :
      (⟨oneRow, 0, .read 288, truncatedFile.bytes⟩ : ByteMatrix).row checks
        0 = .error (.panic "slice index out of range") := by
    cases checks <;> decide +kernel
  refine ⟨_, by decide +kernel, fun checks => ⟨hpanic checks, fun hsafe => ?_⟩⟩
  have := hsafe.row 0 (by decide)
  rw [hpanic] at this
  cases this

/-- A file cut to exactly its rows, of which there is one. -/
def fullFile : FileContent :=
  ⟨oneRow.layout (List.replicate 260 0 ++ [7, 0]), by decide +kernel⟩

theorem safe_iff_consistent_full : ∃ m, openMut (fun _ => "") fullFile = .ok m ∧ m.Safe true := by
  have h : openMut (fun _ => "") fullFile = .ok ⟨oneRow, 1, .write 290, fullFile.bytes⟩ := by
    decide +kernel
  exact ⟨_, h, (safe_iff_consistent (.inr h)).mpr ⟨by decide +kernel, fun _ => by decide +kernel⟩⟩

end ByteMatrix

end SiftMcp
