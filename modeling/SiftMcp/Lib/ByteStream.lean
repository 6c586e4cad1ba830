/-!
# Byte streams

A stream holds the bytes that are still to come, and what a read meets behind them. `readExact`
takes a number of bytes or uses up the stream, `discard` does the same in pieces of a bounded length
and keeps none of them. The little-endian words of four bytes are read as natural numbers.
-/

/-- What a read meets that asks for more bytes than there are: the end of the stream, or an
error. -/
inductive ReadFailure
  | eof
  | other (text : String)
deriving DecidableEq

structure ByteStream where
  bytes : List UInt8
  behind : ReadFailure
deriving DecidableEq

namespace ByteStream

def readExact (n : Nat) (s : ByteStream) : Except ReadFailure (List UInt8) × ByteStream :=
  if n ≤ s.bytes.length then (.ok (s.bytes.take n), { s with bytes := s.bytes.drop n })
  else (.error s.behind, { s with bytes := [] })

/-- Read `n` bytes in pieces of at most `piece + 1`. -/
def discard (piece n : Nat) (s : ByteStream) : Except ReadFailure Unit × ByteStream :=
  if n = 0 then (.ok (), s)
  else
    match s.readExact (min n (piece + 1)) with
    | (.ok _, s) => discard piece (n - min n (piece + 1)) s
    | (.error e, s) => (.error e, s)
termination_by n
decreasing_by omega

variable {s : ByteStream} {bytes rest : List UInt8} {behind : ReadFailure} {piece n : Nat}

theorem readExact_append :
    readExact bytes.length ⟨bytes ++ rest, behind⟩ = (.ok bytes, ⟨rest, behind⟩) := by
  rw [readExact, if_pos (by rw [List.length_append]; omega)]
  simp only [List.take_left', List.drop_left']

/-- Pieces or not, the same bytes are used up. -/
theorem discard_eq :
    s.discard piece n = ((s.readExact n).1.map fun _ => (), (s.readExact n).2) := by
  induction n using Nat.strongRecOn generalizing s with
  | _ n ih =>
    rw [discard]
    by_cases hn : n = 0
    · subst hn
      rfl
    · rw [if_neg hn]
      have hpiece : 0 < min n (piece + 1) := by omega
      by_cases hfirst : min n (piece + 1) ≤ s.bytes.length
      · rw [readExact, if_pos hfirst]
        show discard piece (n - min n (piece + 1)) _ = _
        rw [ih _ (by omega), readExact, readExact]
        have hlen : (n - min n (piece + 1) ≤ (s.bytes.drop (min n (piece + 1))).length) ↔
            n ≤ s.bytes.length := by
          rw [List.length_drop]
          omega
        by_cases hall : n ≤ s.bytes.length
        · rw [if_pos (hlen.mpr hall), if_pos hall]
          simp only [Except.map, List.drop_drop]
          rw [Nat.add_sub_cancel' (Nat.min_le_left ..)]
        · rw [if_neg (mt hlen.mp hall), if_neg hall]
      · have hall : ¬n ≤ s.bytes.length := by omega
        rw [readExact, if_neg hfirst, readExact, if_neg hall]
        rfl

theorem discard_append :
    discard piece bytes.length ⟨bytes ++ rest, behind⟩ = (.ok (), ⟨rest, behind⟩) := by
  rw [discard_eq, readExact_append]
  rfl

end ByteStream

/-! ## Words -/

/-- `u32::to_le_bytes`. -/
def u32ToLeBytes (n : Nat) : List UInt8 :=
  [.ofNat n, .ofNat (n / 256), .ofNat (n / 65536), .ofNat (n / 16777216)]

/-- `u32::from_le_bytes`. -/
def u32FromLeBytes : List UInt8 → Nat
  | [b₀, b₁, b₂, b₃] => b₀.toNat + 256 * b₁.toNat + 65536 * b₂.toNat + 16777216 * b₃.toNat
  | _ => 0

theorem u32ToLeBytes_length (n : Nat) : (u32ToLeBytes n).length = 4 := rfl

theorem u32FromLeBytes_toLeBytes {n : Nat} (h : n < 4294967296) :
    u32FromLeBytes (u32ToLeBytes n) = n := by
  simp only [u32ToLeBytes, u32FromLeBytes, UInt8.toNat_ofNat']
  omega
