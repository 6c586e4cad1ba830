import SiftMcp.Lib.LittleEndian
import SiftMcp.Lib.Utf8Bytes
import SiftMcp.Storage.Matrix

/-!
# The bytes of a matrix header

`MatrixHeader` as its 288 bytes: magic, version, dimension and row count, and the model id behind
its length in an area of 256 bytes. `RawHeader` has the fields in the widths that they have in the
file; `RawHeader.header` is the header that the matrix works with.

A header is read as it has been written, and written as it has been read (`RawHeader.roundTrips`).
-/

namespace SiftMcp

/-- Fixed header size: magic(8) + ver(4) + dims(4) + rows(8) + model_len(4) + model(256) + pad. -/
def headerSize : Nat := 288

theorem length_matrixMagic : matrixMagic.length = 8 := rfl

@[ext] structure RawHeader where
  magic : List UInt8
  formatVersion : UInt32
  dims : UInt32
  rows : UInt64
  modelId : String
  magicLength : magic.length = 8
deriving DecidableEq

namespace RawHeader

def header (h : RawHeader) : MatrixHeader :=
  ⟨h.magic, h.formatVersion.toNat, h.dims.toNat, h.rows.toNat, h.modelId⟩

/-- The bytes of the model id. -/
def modelBytes (h : RawHeader) : List UInt8 := utf8Bytes h.modelId.toList

def encode (h : RawHeader) : Except StoreError (List UInt8) :=
  if h.modelBytes.length > modelIdCapacity then
    .error (.io .invalidInput "model_id exceeds maximum length")
  else
    let buf := List.replicate headerSize 0
    let buf := buf.patch 0 h.magic
    let buf := buf.patch 8 (leBytes 4 h.formatVersion.toNat)
    let buf := buf.patch 12 (leBytes 4 h.dims.toNat)
    let buf := buf.patch 16 (leBytes 8 h.rows.toNat)
    let buf := buf.patch 24 (leBytes 4 h.modelBytes.length)
    .ok (buf.patch 28 h.modelBytes)

/-- `utf8Error` is the text of the error for bytes that are not UTF-8. -/
def decode (utf8Error : List UInt8 → String) (bytes : List UInt8) : Except StoreError RawHeader :=
  if hlen : bytes.length < headerSize then .error (.corrupt (.broken [] [] []))
  else
    let magic := bytes.cut 0 8
    if magic ≠ matrixMagic then .error (.corrupt (.broken [] [] []))
    else
      let formatVersion := leNat (bytes.cut 8 12)
      if formatVersion ≠ matrixFormatVersion then
        .error (.schemaVersion matrixFormatVersion formatVersion)
      else
        let dims := leNat (bytes.cut 12 16)
        let rows := leNat (bytes.cut 16 24)
        let modelLen := leNat (bytes.cut 24 28)
        if modelLen > modelIdCapacity then .error (.corrupt (.broken [] [] []))
        else
          match String.fromUTF8? ⟨(bytes.cut 28 (28 + modelLen)).toArray⟩ with
          | none => .error (.io .invalidData (utf8Error (bytes.cut 28 (28 + modelLen))))
          | some modelId => .ok {
              magic
              formatVersion := .ofNat formatVersion
              dims := .ofNat dims
              rows := .ofNat rows
              modelId
              magicLength := List.length_cut (Nat.le_trans (by decide) (Nat.le_of_not_lt hlen)) }

variable {h : RawHeader} {bytes rest : List UInt8} {utf8Error : List UInt8 → String}

/-! ## The layout -/

/-- The fields one behind the other. -/
def layout (h : RawHeader) (area : List UInt8) : List UInt8 :=
  h.magic ++ (leBytes 4 h.formatVersion.toNat ++ (leBytes 4 h.dims.toNat ++
    (leBytes 8 h.rows.toNat ++ (leBytes 4 h.modelBytes.length ++ (h.modelBytes ++ area)))))

theorem encode_error (hlen : h.modelBytes.length > modelIdCapacity) :
    h.encode = .error (.io .invalidInput "model_id exceeds maximum length") := if_pos hlen

theorem encode_ok (hlen : h.modelBytes.length ≤ modelIdCapacity) :
    h.encode = .ok (h.layout (List.replicate (headerSize - 28 - h.modelBytes.length) 0)) := by
  have hbuf : (List.replicate headerSize (0 : UInt8)) =
      [] ++ (List.replicate 8 0 ++ (List.replicate 4 0 ++ (List.replicate 4 0 ++
        (List.replicate 8 0 ++ (List.replicate 4 0 ++ (List.replicate h.modelBytes.length 0 ++
          List.replicate (headerSize - 28 - h.modelBytes.length) 0)))))) := by
    have hmod : h.modelBytes.length ≤ 256 := hlen
    simp only [List.replicate_append_replicate, List.nil_append, headerSize]
    congr 1
    omega
  rw [encode, if_neg (Nat.not_lt.mpr hlen)]
  dsimp only
  rw [hbuf, List.patch_append, List.patch_append, List.patch_append, List.patch_append,
    List.patch_append, List.patch_append]
  · simp only [layout, List.append_assoc, List.nil_append]
  all_goals simp [h.magicLength]

theorem length_layout {area : List UInt8} :
    (h.layout area).length = 28 + h.modelBytes.length + area.length := by
  simp only [layout, List.length_append, h.magicLength, leBytes_length]
  omega

/-- The fields are cut out where they have been put. -/
theorem cut_layout {area : List UInt8} : (h.layout area).cut 0 8 = h.magic ∧
    (h.layout area).cut 8 12 = leBytes 4 h.formatVersion.toNat ∧
    (h.layout area).cut 12 16 = leBytes 4 h.dims.toNat ∧
    (h.layout area).cut 16 24 = leBytes 8 h.rows.toNat ∧
    (h.layout area).cut 24 28 = leBytes 4 h.modelBytes.length ∧
    (h.layout area).cut 28 (28 + h.modelBytes.length) = h.modelBytes := by
  have hlen := h.magicLength
  refine ⟨?_, ?_, ?_, ?_, ?_, ?_⟩
  · have := @List.cut_append 0 8 UInt8 [] h.magic
    exact this rfl (by rw [hlen])
  · exact List.cut_append hlen (by rw [leBytes_length])
  · rw [layout, ← List.append_assoc]
    exact List.cut_append (by simp [hlen]) (by rw [leBytes_length])
  · rw [layout, ← List.append_assoc, ← List.append_assoc]
    exact List.cut_append (by simp [hlen]) (by rw [leBytes_length])
  · rw [layout, ← List.append_assoc, ← List.append_assoc, ← List.append_assoc]
    exact List.cut_append (by simp [hlen]) (by rw [leBytes_length])
  · rw [layout, ← List.append_assoc, ← List.append_assoc, ← List.append_assoc, ← List.append_assoc]
    exact List.cut_append (by simp [hlen]) rfl

/-! ## Round trips -/

/-- A header that this version of the code writes. -/
structure Current (h : RawHeader) : Prop where
  magic : h.magic = matrixMagic
  version : h.formatVersion.toNat = matrixFormatVersion
  fits : h.modelBytes.length ≤ modelIdCapacity

theorem Current.decode_layout (H : h.Current) {area : List UInt8}
    (harea : headerSize ≤ 28 + h.modelBytes.length + area.length) :
    decode utf8Error (h.layout area) = .ok h := by
  obtain ⟨hmagic, hversion, hdims, hrows, hmodelLen, hmodel⟩ := @cut_layout h area
  have hlen : ¬(h.layout area).length < headerSize := by
    rw [length_layout]
    omega
  have hle : h.modelBytes.length < 256 ^ 4 := Nat.lt_of_le_of_lt H.fits (by decide)
  have hutf8 : String.fromUTF8? ⟨h.modelBytes.toArray⟩ = some h.modelId := by
    rw [fromUTF8?_eq_some_iff]
    rfl
  unfold decode
  rw [dif_neg hlen]
  simp only [hmagic, hversion, hdims, hrows, hmodelLen, leNat_leBytes hle, leNat_leBytes_uInt32,
    leNat_leBytes_uInt64, hmodel, hutf8, H.magic, H.version, ne_eq, not_true_eq_false, if_false,
    Nat.not_lt.mpr H.fits]
  refine congrArg Except.ok (RawHeader.ext H.magic.symm ?_ ?_ ?_ rfl)
  · show UInt32.ofNat (leNat _) = _
    rw [← H.version, leNat_leBytes_uInt32]
    exact UInt32.ofNat_toNat
  · exact UInt32.ofNat_toNat
  · exact UInt64.ofNat_toNat

theorem Current.encode (H : h.Current) (utf8Error : List UInt8 → String) :
    ∃ bytes, h.encode = .ok bytes ∧ bytes.length = headerSize ∧
      ∀ rest, decode utf8Error (bytes ++ rest) = .ok h := by
  have hfits : h.modelBytes.length ≤ 256 := H.fits
  refine ⟨_, encode_ok H.fits, ?_, fun rest => ?_⟩
  · rw [length_layout, List.length_replicate]
    unfold headerSize
    omega
  · have happ (area : List UInt8) : h.layout area ++ rest = h.layout (area ++ rest) := by
      simp only [layout, List.append_assoc]
    rw [happ]
    apply H.decode_layout
    rw [List.length_append, List.length_replicate]
    unfold headerSize
    omega

/-- What is decoded is a header of this version. -/
theorem current_of_decode (hd : decode utf8Error bytes = .ok h) : h.Current := by
  unfold decode at hd
  dsimp only at hd
  split at hd
  · cases hd
  · next hlen =>
    split at hd
    · cases hd
    · next hmagic =>
      split at hd
      · cases hd
      · next hversion =>
        split at hd
        · cases hd
        · next hmodel =>
          split at hd
          · cases hd
          · next modelId hutf8 =>
            obtain rfl := Except.ok.inj hd
            refine ⟨not_not.mp hmagic, ?_, ?_⟩
            · show (UInt32.ofNat (leNat (bytes.cut 8 12))).toNat = _
              rw [not_not.mp hversion]
              rfl
            · have hbytes := fromUTF8?_eq_some_iff.mp hutf8
              show (utf8Bytes modelId.toList).length ≤ _
              rw [← hbytes, List.cut, List.length_take]
              omega

/-- Encoding and decoding a header, with the texts of the errors for what is not UTF-8. -/
structure RoundTrips (utf8Error : List UInt8 → String) : Prop where
  decode_encode : ∀ h : RawHeader, h.magic = matrixMagic →
    h.formatVersion.toNat = matrixFormatVersion →
    h.modelBytes.length ≤ modelIdCapacity →
      ∃ bytes, h.encode = .ok bytes ∧ ∀ rest, decode utf8Error (bytes ++ rest) = .ok h
  rejected : ∀ h : RawHeader, modelIdCapacity < h.modelBytes.length → ∃ e, h.encode = .error e
  encode_decode : ∀ bytes, (∃ e, decode utf8Error bytes = .error e) ∨
    ∃ h bytes', decode utf8Error bytes = .ok h ∧ h.encode = .ok bytes' ∧
      decode utf8Error bytes' = .ok h

theorem roundTrips (utf8Error : List UInt8 → String) : RoundTrips utf8Error where
  decode_encode h hmagic hversion hfits := by
    obtain ⟨bytes, henc, -, hdec⟩ := Current.encode ⟨hmagic, hversion, hfits⟩ utf8Error
    exact ⟨bytes, henc, hdec⟩
  rejected _ hlen := ⟨_, encode_error hlen⟩
  encode_decode bytes := by
    cases hd : decode utf8Error bytes with
    | error e => exact .inl ⟨e, rfl⟩
    | ok h =>
      obtain ⟨bytes', henc, -, hdec⟩ := (current_of_decode hd).encode utf8Error
      have := hdec []
      rw [List.append_nil] at this
      exact .inr ⟨h, bytes', rfl, henc, this⟩

end RawHeader

end SiftMcp
