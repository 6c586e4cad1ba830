import Mathlib.Data.List.Basic
import Mathlib.Algebra.Order.Ring.Nat
import Mathlib.Tactic.Ring

/-!
# Little-endian words and buffers

Words of any width in bytes, the least byte first, and a buffer that pieces are copied into.
-/

/-- The `k` lowest bytes of a number. -/
def leBytes : Nat → Nat → List UInt8
  | 0, _ => []
  | k + 1, n => .ofNat n :: leBytes k (n / 256)

/-- The number that bytes give. -/
def leNat : List UInt8 → Nat
  | [] => 0
  | b :: bs => b.toNat + 256 * leNat bs

/-- `buf[off..off + bytes.len()].copy_from_slice(bytes)`, inside the buffer. -/
def List.patch {α : Type} (buf : List α) (off : Nat) (bytes : List α) : List α :=
  buf.take off ++ bytes ++ buf.drop (off + bytes.length)

/-- `buf[a..b]`, inside the buffer. -/
def List.cut {α : Type} (buf : List α) (a b : Nat) : List α := (buf.drop a).take (b - a)

variable {k n off a b : Nat} {bs : List UInt8}

@[simp] theorem leBytes_length : (leBytes k n).length = k := by
  induction k generalizing n with
  | zero => rfl
  | succ k ih => rw [leBytes, List.length_cons, ih]

theorem leNat_leBytes (h : n < 256 ^ k) : leNat (leBytes k n) = n := by
  induction k generalizing n with
  | zero =>
    rw [pow_zero] at h
    have hn : n = 0 := by omega
    rw [hn]
    rfl
  | succ k ih =>
    have hdiv : n / 256 < 256 ^ k := Nat.div_lt_of_lt_mul (by rwa [← pow_succ'])
    rw [leBytes, leNat, ih hdiv, UInt8.toNat_ofNat']
    omega

theorem leNat_leBytes_uInt32 (x : UInt32) : leNat (leBytes 4 x.toNat) = x.toNat :=
  leNat_leBytes x.toNat_lt

theorem leNat_leBytes_uInt64 (x : UInt64) : leNat (leBytes 8 x.toNat) = x.toNat :=
  leNat_leBytes x.toNat_lt

theorem leNat_lt : leNat bs < 256 ^ bs.length := by
  induction bs with
  | nil => exact Nat.one_pos
  | cons b bs ih =>
    have := b.toNat_lt
    rw [leNat, List.length_cons, pow_succ']
    omega

/-! ## Buffers -/

section
variable {α : Type} {buf l m r rest : List α}

theorem List.patch_append (h : l.length = off) (hm : m.length = r.length) :
    (l ++ (r ++ rest)).patch off m = l ++ m ++ rest := by
  subst h
  rw [List.patch, List.take_left, hm, ← List.drop_drop, List.drop_left, List.drop_left]

theorem List.cut_append (h : l.length = a) (hm : a + m.length = b) :
    (l ++ (m ++ r)).cut a b = m := by
  subst h
  subst hm
  rw [List.cut, List.drop_left, Nat.add_sub_cancel_left, List.take_left]

theorem List.length_patch (h : off + m.length ≤ buf.length) :
    (buf.patch off m).length = buf.length := by
  rw [List.patch, List.length_append, List.length_append, List.length_take, List.length_drop]
  omega

theorem List.length_cut (h : b ≤ buf.length) : (buf.cut a b).length = b - a := by
  rw [List.cut, List.length_take, List.length_drop]
  omega

end
