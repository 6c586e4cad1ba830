import Mathlib.Data.List.Basic
import Mathlib.Data.List.Infix

/-!
# The UTF-8 form of a text

The bytes of a text, which of them can occur, and that a text is found again: from all of its bytes,
and character by character, since no character is complete before its last byte.
-/

def utf8Bytes (t : List Char) : List UInt8 := t.flatMap String.utf8EncodeChar

variable {t t' : List Char} {c : Char} {b : UInt8} {bs rest : List UInt8} {s : String}

namespace ByteArray

theorem toList_loop (a : ByteArray) (i : Nat) (acc : List UInt8) :
    toList.loop a i acc = acc.reverse ++ a.data.toList.drop i := by
  fun_induction toList.loop a i acc with
  | case1 i acc h ih =>
    have hlen : i < a.data.toList.length := h
    have hget : a.get! i = a.data.toList[i] := by
      show a.data[i]! = _
      rw [getElem!_pos a.data i h, Array.getElem_toList]
    rw [ih, List.drop_eq_getElem_cons hlen, hget, List.reverse_cons, List.append_assoc,
      List.singleton_append]
  | case2 i acc h =>
    rw [List.drop_eq_nil_of_le (Nat.le_of_not_lt h), List.append_nil]

theorem toList_eq (a : ByteArray) : a.toList = a.data.toList := by
  rw [toList, toList_loop, List.reverse_nil, List.nil_append, List.drop_zero]

end ByteArray

theorem mk_toArray_eq : (⟨bs.toArray⟩ : ByteArray) = bs.toByteArray := by
  apply ByteArray.ext
  rw [List.data_toByteArray]

theorem utf8Bytes_cons : utf8Bytes (c :: t) = String.utf8EncodeChar c ++ utf8Bytes t :=
  List.flatMap_cons

theorem length_utf8EncodeChar_pos : 0 < (String.utf8EncodeChar c).length := by
  rw [String.length_utf8EncodeChar]
  exact c.utf8Size_pos

theorem length_le_utf8Bytes : t.length ≤ (utf8Bytes t).length := by
  induction t with
  | nil => exact Nat.le_refl _
  | cons c t ih =>
    have := @length_utf8EncodeChar_pos c
    rw [utf8Bytes_cons, List.length_cons, List.length_append]
    omega

theorem utf8Bytes_ne_nil (h : t ≠ []) : utf8Bytes t ≠ [] := by
  intro hnil
  have := @length_le_utf8Bytes t
  have := List.length_pos_of_ne_nil h
  rw [hnil, List.length_nil] at *
  omega

theorem toList_toUTF8 : (String.ofList t).toUTF8.toList = utf8Bytes t := by
  rw [ByteArray.toList_eq, String.toUTF8_eq_toByteArray, String.toByteArray_ofList]
  exact List.toList_data_toByteArray

theorem toUTF8_ofList : (String.ofList t).toUTF8 = ⟨(utf8Bytes t).toArray⟩ := by
  rw [String.toUTF8_eq_toByteArray, String.toByteArray_ofList, mk_toArray_eq]
  rfl

theorem length_utf8Bytes_le : (utf8Bytes t).length ≤ 4 * t.length := by
  induction t with
  | nil => exact Nat.le_refl 0
  | cons c t ih =>
    have hc : (String.utf8EncodeChar c).length ≤ 4 := by
      rw [String.length_utf8EncodeChar]
      exact c.utf8Size_le_four
    rw [utf8Bytes_cons, List.length_append, List.length_cons]
    omega

theorem utf8Bytes_injective (h : utf8Bytes t = utf8Bytes t') : t = t' := by
  apply String.ofList_injective
  apply String.toByteArray_inj.mp
  rw [String.toByteArray_ofList, String.toByteArray_ofList]
  exact congrArg List.toByteArray h

/-! ## Which bytes occur -/

/-- Zero is the byte of the null character only, and 248 and above are in no character. -/
theorem of_mem_utf8EncodeChar (h : b ∈ String.utf8EncodeChar c) :
    b.toNat < 0xf8 ∧ (b.toNat = 0 → c.toNat = 0) := by
  unfold String.utf8EncodeChar at h
  show b.toNat < 0xf8 ∧ (b.toNat = 0 → c.val.toNat = 0)
  dsimp only at h
  generalize c.val.toNat = v at h ⊢
  split at h
  · obtain rfl := List.mem_singleton.mp h
    rw [UInt8.toNat_ofNat']
    omega
  · split at h
    · simp only [List.mem_cons, List.not_mem_nil, or_false] at h
      rcases h with rfl | rfl <;> rw [UInt8.toNat_ofNat'] <;> omega
    · split at h
      · simp only [List.mem_cons, List.not_mem_nil, or_false] at h
        rcases h with rfl | rfl | rfl <;> rw [UInt8.toNat_ofNat'] <;> omega
      · simp only [List.mem_cons, List.not_mem_nil, or_false] at h
        rcases h with rfl | rfl | rfl | rfl <;> rw [UInt8.toNat_ofNat'] <;> omega

theorem not_mem_utf8Bytes (h : 0xf8 ≤ b.toNat) : b ∉ utf8Bytes t := by
  intro hmem
  obtain ⟨c, -, hc⟩ := List.mem_flatMap.mp hmem
  have := (of_mem_utf8EncodeChar hc).1
  omega

theorem zero_not_mem_utf8Bytes (h : '\x00' ∉ t) : 0 ∉ utf8Bytes t := by
  intro hmem
  obtain ⟨c, hc, hzero⟩ := List.mem_flatMap.mp hmem
  have hnull : c.toNat = 0 := (of_mem_utf8EncodeChar hzero).2 rfl
  have : c = '\x00' := Char.ext (UInt32.toNat_inj.mp hnull)
  exact h (this ▸ hc)

/-! ## Decoding -/

theorem fromUTF8?_eq_some_iff : String.fromUTF8? ⟨bs.toArray⟩ = some s ↔
    bs = utf8Bytes s.toList := by
  rw [mk_toArray_eq, String.fromUTF8?]
  constructor
  · intro h
    split at h
    · obtain rfl := Option.some.inj h
      next hvalid =>
      obtain ⟨m, hm⟩ := hvalid
      have hs : String.fromUTF8 bs.toByteArray ⟨m, hm⟩ = String.ofList m := by
        apply String.toByteArray_inj.mp
        rw [String.toByteArray_ofList]
        exact hm
      rw [hs, String.toList_ofList]
      exact List.toByteArray_inj.mp hm
    · cases h
  · rintro rfl
    have hvalid : (utf8Bytes s.toList).toByteArray.IsValidUTF8 := ⟨s.toList, rfl⟩
    rw [dif_pos hvalid, Option.some.injEq]
    apply String.toByteArray_inj.mp
    conv_rhs => rw [← @String.ofList_toList s, String.toByteArray_ofList]
    rfl

theorem fromUTF8?_utf8Bytes : String.fromUTF8? ⟨(utf8Bytes t).toArray⟩ = some (String.ofList t) :=
  fromUTF8?_eq_some_iff.mpr (by rw [String.toList_ofList])

/-- Two texts that begin with the same bytes begin with the same character. -/
theorem head_eq_of_utf8EncodeChar_append {d : Char} {rest' : List UInt8}
    (h : String.utf8EncodeChar c ++ rest = String.utf8EncodeChar d ++ rest') : c = d := by
  have hdecode (x : Char) (r : List UInt8) :
      ((String.utf8EncodeChar x ++ r).toByteArray).utf8DecodeChar? 0 = some x := by
    rw [List.toByteArray_append]
    exact ByteArray.utf8DecodeChar?_utf8EncodeChar_append
  have hc := hdecode c rest
  rw [h, hdecode d rest'] at hc
  exact (Option.some.inj hc).symm

/-- The bytes of a character, not all of them, are no text. -/
theorem fromUTF8?_take_eq_none {k : Nat} (hpos : 0 < k) (hlt : k < c.utf8Size) :
    String.fromUTF8? ⟨((String.utf8EncodeChar c ++ rest).take k).toArray⟩ = none := by
  cases hs : String.fromUTF8? ⟨((String.utf8EncodeChar c ++ rest).take k).toArray⟩ with
  | none => rfl
  | some s =>
    have hbytes := fromUTF8?_eq_some_iff.mp hs
    have hlen := congrArg List.length hbytes
    rw [List.length_take, List.length_append, String.length_utf8EncodeChar] at hlen
    cases hlist : s.toList with
    | nil =>
      rw [hlist] at hlen
      have : (utf8Bytes []).length = 0 := rfl
      omega
    | cons d t =>
      rw [hlist] at hbytes hlen
      have hcons : utf8Bytes (d :: t) = String.utf8EncodeChar d ++ utf8Bytes t := rfl
      have hsplit : String.utf8EncodeChar c ++ rest =
          String.utf8EncodeChar d ++ (utf8Bytes t ++ (String.utf8EncodeChar c ++ rest).drop k) := by
        rw [← List.append_assoc, ← hcons, ← hbytes, List.take_append_drop]
      obtain rfl := head_eq_of_utf8EncodeChar_append hsplit
      rw [hcons, List.length_append, String.length_utf8EncodeChar] at hlen
      omega

theorem fromUTF8?_take_utf8Size :
    String.fromUTF8? ⟨((String.utf8EncodeChar c ++ rest).take c.utf8Size).toArray⟩ =
      some (String.ofList [c]) := by
  rw [← String.length_utf8EncodeChar c, List.take_left]
  exact fromUTF8?_eq_some_iff.mpr (by rw [String.toList_ofList]; exact (List.append_nil _).symm)
