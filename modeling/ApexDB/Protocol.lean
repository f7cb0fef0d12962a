import ApexDB.Lib.LittleEndian
import ApexDB.Common

/-!
# `Protocol.lean` — the wire format of `src/protocol.cpp`

A request is a length, a number of strings and the strings, each behind its own length. A
response is a length and one tagged value. Integers are little-endian; a size that goes into a
32-bit field is cut to 32 bits there and nowhere else.

A `Buffer` is the list of its bytes. The writers append to it, and the two that go back and
patch what they wrote (`out_end_arr`, `response_end`) do so at an absolute offset, so that what
was in the buffer before is in view and can be shown to stay.

There is no decoder for responses in the source of the protocol. Each program that reads one has
its own (`Client.lean`, `Ui.lean`, `Proxy.lean`); what they are compared with is
`Spec/Value.lean`, the values that the writers can write.
-/

set_option autoImplicit false

namespace ApexDB

open Lib

abbrev Buffer := Bytes

/-- The bytes of a literal. -/
def bytes (s : String) : Bytes := s.toList.map fun c => UInt8.ofNat c.toNat

def kMaxMsg : Nat := 32 * 2 ^ 20

def kMaxArgs : Nat := 200 * 1000

inductive ErrCode where
  | unknown
  | tooBig
  | badTyp
  | badArg
  deriving DecidableEq, Repr

/-- `ERR_UNKNOWN`, `ERR_TOO_BIG`, `ERR_BAD_TYP`, `ERR_BAD_ARG`. -/
def ErrCode.code : ErrCode → Nat
  | unknown => 1
  | tooBig => 2
  | badTyp => 3
  | badArg => 4

inductive Tag where
  | nil
  | err
  | str
  | int
  | dbl
  | arr
  deriving DecidableEq, Repr

/-- `TAG_NIL` to `TAG_ARR`. -/
def Tag.byte : Tag → UInt8
  | nil => 0
  | err => 1
  | str => 2
  | int => 3
  | dbl => 4
  | arr => 5

/-! ## 1. Requests

`parse_req` is what a server does with the body of a frame, and `encode_request` what a client
sends. The second one gives up on a request that is too large and returns nothing, which its
callers take for an error.
-/

/-- `read_u32`: the number and the rest, if there are four bytes. -/
def readU32 (data : Bytes) : Option (Nat × Bytes) :=
  if data.length < 4 then none else some (ofLe (data.take 4), data.drop 4)

def readStr (data : Bytes) (n : Nat) : Option (Bytes × Bytes) :=
  if data.length < n then none else some (data.take n, data.drop n)

/-- The loop of `parse_req`: this many strings are still to come. -/
def parseStrs : Nat → Bytes → Option (List Bytes × Bytes)
  | 0, data => some ([], data)
  | n + 1, data => do
      let (len, data) ← readU32 data
      let (s, data) ← readStr data len
      let (rest, data) ← parseStrs n data
      return (s :: rest, data)

/-- `parse_req`: `none` for false. There may be no more than `kMaxArgs` strings, and nothing may
be left behind the last one. -/
def parseReq (data : Bytes) : Option (List Bytes) :=
  if data.length < 4 ∨ kMaxMsg < data.length then none
  else do
    let (nstr, data) ← readU32 data
    if kMaxArgs < nstr then none
    else
      let (out, rest) ← parseStrs nstr data
      if rest.isEmpty then some out else none

/-- Subtraction of `size_t`, which wraps. The tests of `encode_request` subtract from the limit,
and are right because of what was tested before. -/
def sizeSub (a b : Nat) : Nat := (a % 2 ^ 64 + 2 ^ 64 - b % 2 ^ 64) % 2 ^ 64

/-- The first loop of `encode_request`, on the `uint32_t` `len`: the length of the body, `none`
when it is over the limit. -/
def requestLen : Nat → List Bytes → Option Nat
  | len, [] => some len
  | len, s :: cmd =>
      if sizeSub kMaxMsg 4 < len ∨ sizeSub (sizeSub kMaxMsg len) 4 < s.length then none
      else requestLen ((len + (4 + s.length % 2 ^ 32)) % 2 ^ 32) cmd

def encodeStr (s : Bytes) : Bytes := le 4 s.length ++ s

/-- `encode_request`: the empty buffer for a request that is too large. -/
def encodeRequest (cmd : List Bytes) : Buffer :=
  if kMaxArgs < cmd.length then []
  else
    match requestLen 4 cmd with
    | none => []
    | some len => le 4 len ++ le 4 cmd.length ++ cmd.flatMap encodeStr

/-! ## 2. Values

A writer appends a tag and the data. Arrays whose length is known start with `out_arr`; the
other ones leave room for it and patch it in, with an assertion on the tag that stands before
it.
-/

def outNil (out : Buffer) : Buffer := out ++ [Tag.nil.byte]

def outStr (out : Buffer) (s : Bytes) : Buffer := out ++ [Tag.str.byte] ++ le 4 s.length ++ s

/-- `out_int`: the two's complement of an `int64_t`. -/
def outInt (out : Buffer) (val : Int) : Buffer :=
  out ++ [Tag.int.byte] ++ le 8 (val % 2 ^ 64).toNat

def outDbl (out : Buffer) (val : Dbl) : Buffer := out ++ [Tag.dbl.byte] ++ le 8 val.bits

def outErr (out : Buffer) (code : ErrCode) (msg : Bytes) : Buffer :=
  out ++ [Tag.err.byte] ++ le 4 code.code ++ le 4 msg.length ++ msg

def outArr (out : Buffer) (n : Nat) : Buffer := out ++ [Tag.arr.byte] ++ le 4 n

def bufPatch (out : Buffer) (pos n : Nat) : Option Buffer :=
  if pos + 4 ≤ out.length then some (out.take pos ++ le 4 n ++ out.drop (pos + 4)) else none

def outBeginArr (out : Buffer) : Buffer × Nat :=
  let out := out ++ [Tag.arr.byte] ++ le 4 0
  (out, out.length - 4)

/-- `out_end_arr`, with its assertion. -/
def outEndArr (out : Buffer) (ctx n : Nat) : Option Buffer :=
  if ctx = 0 ∨ out[ctx - 1]? ≠ some Tag.arr.byte then none else bufPatch out ctx n

/-! ## 3. Responses

The header of a response is written first as zeros and patched at the end, when the size is
known. A body above the limit is thrown away then, and an error is put into its place.
-/

/-- `response_begin`: the buffer and the offset of the header. -/
def responseBegin (out : Buffer) : Buffer × Nat := (out ++ le 4 0, out.length)

/-- `response_size`. The header is part of the buffer, so nothing goes below zero here. -/
def responseSize (out : Buffer) (header : Nat) : Nat := out.length - header - 4

/-- `response_end`: a response that is too big is replaced by an error. -/
def responseEnd (out : Buffer) (header : Nat) : Option Buffer :=
  let out :=
    if kMaxMsg < responseSize out header then
      outErr (out.take (header + 4)) .tooBig (bytes "response is too big.")
    else out
  bufPatch out header (responseSize out header)

end ApexDB
