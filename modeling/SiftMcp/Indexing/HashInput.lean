import SiftMcp.Indexing.Hash
import SiftMcp.Lib.Utf8Bytes

/-!
# The bytes that are hashed

`content_hash` feeds its hasher the version, the language, the symbol and the normalized body with a
byte between them that is in no text. So the fields are found again whatever they contain, and two
chunks have one hash if they agree in all three, or else if the hash function collides on their
bytes. This is `contentHash_separates`.
-/

namespace SiftMcp
open Text

/-- What `content_hash` feeds to the hasher. -/
def hashInput (language : Language) (symbol body : Text) : List UInt8 :=
  let utf8 (t : Text) : List UInt8 := (String.ofList t).toUTF8.toList
  [UInt8.ofNat hashSchemeVersion, 0, 0, 0] ++ [0xff] ++ utf8 language.asStr.toList ++ [0xff] ++
    utf8 symbol ++ [0xff] ++ utf8 (normalizeBody body)

/-- Two inputs of a hash function that have one hash. -/
def Collides (blake3 : List UInt8 → ContentHash) (x y : List UInt8) : Prop :=
  x ≠ y ∧ blake3 x = blake3 y

/-- What the hash is to identify: a chunk up to normalization. -/
def SameContent (a b : Language × Text × Text) : Prop :=
  a.1 = b.1 ∧ a.2.1 = b.2.1 ∧ normalizeBody a.2.2 = normalizeBody b.2.2

theorem contentHash_eq (blake3 : List UInt8 → ContentHash) (language : Language)
    (symbol body : Text) :
    contentHash blake3 language symbol body = blake3 (hashInput language symbol body) := rfl

theorem Language.asStr_injective {l l' : Language} (h : l.asStr = l'.asStr) : l = l' := by
  revert h
  cases l <;> cases l' <;> decide

/-- A field ends where the first separator stands. -/
theorem field_inj {t t' : Text} {rest rest' : List UInt8}
    (h : utf8Bytes t ++ 0xff :: rest = utf8Bytes t' ++ 0xff :: rest') : t = t' ∧ rest = rest' := by
  have hmem : ∀ s : Text, (0xff : UInt8) ∉ utf8Bytes s := fun s => not_mem_utf8Bytes (by decide)
  have hsplit := congrArg (List.splitOn 0xff) h
  rw [List.splitOn_append_cons_self_of_not_mem (hmem t),
    List.splitOn_append_cons_self_of_not_mem (hmem t'), List.cons.injEq] at hsplit
  have ht := utf8Bytes_injective hsplit.1
  subst ht
  exact ⟨rfl, (List.cons.inj (List.append_cancel_left h)).2⟩

theorem hashInput_inj {language language' : Language} {symbol symbol' body body' : Text} :
    hashInput language symbol body = hashInput language' symbol' body' ↔
      SameContent (language, symbol, body) (language', symbol', body') := by
  constructor
  · intro h
    simp only [hashInput, toList_toUTF8, List.append_assoc, List.singleton_append] at h
    have h := (List.cons.inj (List.append_cancel_left h)).2
    obtain ⟨hlanguage, h⟩ := field_inj h
    obtain ⟨hsymbol, h⟩ := field_inj h
    exact ⟨Language.asStr_injective (String.toList_inj.mp hlanguage), hsymbol,
      utf8Bytes_injective h⟩
  · rintro ⟨rfl, rfl, h⟩
    unfold hashInput
    dsimp only
    rw [h]

theorem contentHash_eq_iff {blake3 : List UInt8 → ContentHash} {language language' : Language}
    {symbol symbol' body body' : Text} :
    contentHash blake3 language symbol body = contentHash blake3 language' symbol' body' ↔
      SameContent (language, symbol, body) (language', symbol', body') ∨
        Collides blake3 (hashInput language symbol body) (hashInput language' symbol' body') := by
  rw [contentHash_eq, contentHash_eq, ← hashInput_inj]
  constructor
  · intro h
    by_cases heq : hashInput language symbol body = hashInput language' symbol' body'
    · exact .inl heq
    · exact .inr ⟨heq, h⟩
  · rintro (h | h)
    · exact congrArg blake3 h
    · exact h.2

/-- The hashed bytes identify a chunk up to normalization, and so does the hash unless the function
collides on these bytes. -/
theorem contentHash_separates (blake3 : List UInt8 → ContentHash) (language language' : Language)
    (symbol symbol' body body' : Text) :
    (hashInput language symbol body = hashInput language' symbol' body' ↔
        language = language' ∧ symbol = symbol' ∧ normalizeBody body = normalizeBody body') ∧
      (contentHash blake3 language symbol body = contentHash blake3 language' symbol' body' ↔
        SameContent (language, symbol, body) (language', symbol', body') ∨
          Collides blake3 (hashInput language symbol body) (hashInput language' symbol' body')) :=
  ⟨hashInput_inj, contentHash_eq_iff⟩

end SiftMcp
