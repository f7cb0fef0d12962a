import Mathlib.Algebra.Order.Ring.Int

/-!
# `Lib/LittleEndian.lean` — numbers as bytes

`le k n` is what `memcpy` of a `k`-byte unsigned number gives on a little-endian machine, and
`ofLe` reads it back. Both directions are exact: bytes determine the number, and a number that
fits determines its bytes. One that does not fit loses its upper part and nothing else.

The numbers are `Nat` and the width is an argument, so one pair of functions serves lengths,
integers of eight bytes and the bits of a double. Where the program casts to a narrower type the
cast is written as `% 256 ^ k` at the place where it is made, and `le_mod` says that writing
makes it by itself.
-/

set_option autoImplicit false

namespace Lib

/-- The `k` low bytes of a number, lowest first. -/
def le : Nat → Nat → List UInt8
  | 0, _ => []
  | k + 1, n => UInt8.ofNat n :: le k (n / 256)

def ofLe : List UInt8 → Nat
  | [] => 0
  | b :: bs => b.toNat + 256 * ofLe bs

@[simp] theorem length_le (k n : Nat) : (le k n).length = k := by
  induction k generalizing n with
  | zero => rfl
  | succ k ih => simp [le, ih]

theorem ofLe_lt (bs : List UInt8) : ofLe bs < 256 ^ bs.length := by
  induction bs with
  | nil => simp [ofLe]
  | cons b bs ih =>
    have hb : b.toNat < 256 := b.toNat_lt
    rw [List.length_cons, Nat.pow_succ, ofLe]
    omega

/-- Reading back what was written gives the number, as far as it fits into the width. -/
theorem ofLe_le (k n : Nat) : ofLe (le k n) = n % 256 ^ k := by
  induction k generalizing n with
  | zero => simp [le, ofLe, Nat.mod_one]
  | succ k ih =>
    have hpow : 256 ^ (k + 1) = 256 * 256 ^ k := by rw [Nat.pow_succ, Nat.mul_comm]
    rw [le, ofLe, ih, UInt8.toNat_ofNat', hpow]
    exact Nat.mod_mul.symm

theorem ofLe_le_of_lt {k n : Nat} (h : n < 256 ^ k) : ofLe (le k n) = n := by
  rw [ofLe_le, Nat.mod_eq_of_lt h]

/-- Writing back what was read: the same bytes. -/
theorem le_ofLe (bs : List UInt8) : le bs.length (ofLe bs) = bs := by
  induction bs with
  | nil => rfl
  | cons b bs ih =>
    have hb : b.toNat < 256 := b.toNat_lt
    have h₁ : (b.toNat + 256 * ofLe bs) / 256 = ofLe bs := by omega
    have h₂ : UInt8.ofNat (b.toNat + 256 * ofLe bs) = b := by
      rw [← UInt8.toNat_inj, UInt8.toNat_ofNat']
      omega
    rw [List.length_cons, ofLe, le, h₁, h₂, ih]

theorem le_mod (k n : Nat) : le k (n % 256 ^ k) = le k n := by
  have h := le_ofLe (le k n)
  rwa [length_le, ofLe_le] at h

/-! ## Numbers inside longer data

A parser holds a position into data that goes on. What it reads there is `ofLe` of a slice, and
these are the equations that turn a slice back into the bytes that an encoder has written.
-/

/-- A piece of the data, read as a number and written again. -/
theorem le_slice {data : List UInt8} {pos k : Nat} (h : pos + k ≤ data.length) :
    le k (ofLe ((data.drop pos).take k)) = (data.drop pos).take k := by
  have hlen : ((data.drop pos).take k).length = k := by
    rw [List.length_take, List.length_drop]
    omega
  have hback := le_ofLe ((data.drop pos).take k)
  rwa [hlen] at hback

theorem ofLe_slice_lt (data : List UInt8) (pos k : Nat) :
    ofLe ((data.drop pos).take k) < 256 ^ k :=
  Nat.lt_of_lt_of_le (ofLe_lt _) (Nat.pow_le_pow_right (by decide) (List.length_take_le _ _))

theorem slice_append (data : List UInt8) (pos k : Nat) :
    (data.drop pos).take k ++ data.drop (pos + k) = data.drop pos := by
  rw [← List.drop_drop]
  exact List.take_append_drop k _

theorem le_take_append {data : List UInt8} {k : Nat} (h : k ≤ data.length) :
    le k (ofLe (data.take k)) ++ data.drop k = data := by
  have hback := le_ofLe (data.take k)
  rw [List.length_take, Nat.min_eq_left h] at hback
  rw [hback, List.take_append_drop]

end Lib
