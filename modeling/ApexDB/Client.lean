import ApexDB.Protocol

/-!
# `Client.lean` — the decoder of `src/client.cpp`

`print_response` walks over one tagged value and returns how many bytes it took, or `-1`. What
it prints is left out. The nesting is bounded by `depth`, which counts up to 64; the model
counts down the levels that are left. Reading past the end, or a `size - arr_bytes` below zero,
is a fault.

The result is an `int32_t`: an array adds up what its elements took in a `size_t`, and casts the
sum. A value of `2 ^ 31` bytes or more would come back as a negative number; that no frame can
hold one is what makes the casts harmless, and is not assumed here. What the client prints is in
`ClientOutput.lean`, over the same walk.
-/

set_option autoImplicit false

namespace ApexDB

open Lib

def toInt32 (n : Nat) : Int := if n % 2 ^ 32 < 2 ^ 31 then (n % 2 ^ 32 : Nat) else (n % 2 ^ 32 : Nat) - 2 ^ 32

def u32At (data : Bytes) (pos : Nat) : Option Nat :=
  if pos + 4 ≤ data.length then some (ofLe ((data.drop pos).take 4)) else none

/-- The branches for errors and strings: the length stands at `pos`, right before the text. -/
def printText (data : Bytes) (pos : Nat) : Option Int :=
  if data.length < pos + 4 then some (-1)
  else do
    let len ← u32At data pos
    return if data.length - (pos + 4) < len then -1 else toInt32 (pos + 4 + len)

def printNumber (data : Bytes) : Option Int := some (if data.length < 1 + 8 then -1 else toInt32 (1 + 8))

/-- The loop over the elements of an array: `n` are left, `arrBytes` are behind. -/
def printElements (print : Bytes → Option Int) (data : Bytes) : Nat → Nat → Option Int
  | 0, arrBytes => some (toInt32 arrBytes)
  | n + 1, arrBytes =>
    if data.length < arrBytes then none
    else do
      let rv ← print (data.drop arrBytes)
      if rv < 0 then return rv
      else printElements print data n (arrBytes + rv.toNat)

/-- `print_response`, with `levels` more levels allowed: how many bytes the value takes, or -1.
What it prints is in `ClientOutput.lean`. -/
def printResponse : Nat → Bytes → Option Int
  | 0, _ => some (-1)
  | levels + 1, data =>
    match data with
    | [] => some (-1)
    | tag :: _ =>
      if tag = Tag.nil.byte then some 1
      else if tag = Tag.err.byte then printText data 5
      else if tag = Tag.str.byte then printText data 1
      else if tag = Tag.int.byte then printNumber data
      else if tag = Tag.dbl.byte then printNumber data
      else if tag = Tag.arr.byte then
        if data.length < 1 + 4 then some (-1)
        else do
          let len ← u32At data 1
          printElements (printResponse levels) data len 5
      else some (-1)

/-- The levels a call from outside allows: depth 0 to 64. -/
def kMaxDepth : Nat := 65

end ApexDB
