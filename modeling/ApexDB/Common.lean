import Mathlib.Algebra.Order.Ring.Int

/-!
# `Common.lean` — bytes, hashes and scores

What `include/common.h` and the C library give the rest: byte strings, `memcmp`, the FNV hash,
and `double`; and the clamp that the timers of the store and of the event loop have in common.

**A score is a bit pattern, compared as a number.** `str2dbl` lets no NaN into the store, so
`Dbl` has none. What is left is ordered by sign and magnitude, and `0.0` and `-0.0` are two
patterns of one number: `==` and `<` look at `key`, while replies carry the bits. No arithmetic
is done on scores, so none is modelled.

Text is bytes throughout. The source has `std::string`, which may hold a zero, and passes it to
functions that stop at one in a few places; these places call `cText`.
-/

set_option autoImplicit false

namespace ApexDB

/-- `std::string`, and every other run of bytes. -/
abbrev Bytes := List UInt8

/-- `memcmp(a, b, n)`, for `n` no more than either length: the sign is what callers look at. -/
def memcmp : Bytes → Bytes → Nat → Int
  | a :: as, b :: bs, n + 1 => if a = b then memcmp as bs n else (a.toNat : Int) - b.toNat
  | _, _, _ => 0

/-- What a C string keeps of these bytes: those before the first zero. So does `%.*s` of
`printf`, and so does the constructor of a widget's text from `c_str()`. -/
def cText (s : Bytes) : Bytes := s.takeWhile (· ≠ 0)

def strHashRound (h : Nat) (b : UInt8) : Nat := (h ^^^ b.toNat) * 0x01000193 % 2 ^ 32

/-- `str_hash`: FNV-1a on 32 bits. The multiplication wraps, and so does nothing else. -/
def strHash (data : Bytes) : Nat := data.foldl strHashRound 0x811C9DC5

/-- A `double` that is not a NaN, by its bit pattern: the magnitude is at most that of infinity.
-/
structure Dbl where
  bits : Nat
  lt : bits < 2 ^ 64
  notNaN : bits % 2 ^ 63 ≤ 0x7FF0000000000000
  deriving DecidableEq, Repr

namespace Dbl

/-- The place of the number in the order of the doubles: the magnitude with the sign of the
number, so that both zeros are at 0. -/
def key (d : Dbl) : Int :=
  if d.bits < 2 ^ 63 then (d.bits : Int) else -((d.bits : Int) - 2 ^ 63)

def eq (a b : Dbl) : Bool := a.key == b.key

def less (a b : Dbl) : Bool := decide (a.key < b.key)

def zero : Dbl := ⟨0, by decide, by decide⟩

instance : Inhabited Dbl := ⟨zero⟩

example : eq zero ⟨2 ^ 63, by decide, by decide⟩ = true := by decide

end Dbl

/-- How `next_timer_ms` and `next_timer_ms_combined` end: the time from `now` to `nextMs` as a
`uint32_t` that fits an `int`. The largest `uint64_t` is no deadline, and the largest `uint32_t`
no timer. -/
def msUntil (now nextMs : Nat) : Nat :=
  if nextMs = 2 ^ 64 - 1 then 2 ^ 32 - 1
  else if nextMs ≤ now then 0
  else min (nextMs - now) (2 ^ 31 - 1) % 2 ^ 32

end ApexDB
