import ApexDB.Cli
import ApexDB.Ui

/-!
# `ClientOutput.lean` — what `src/client.cpp` prints

`Client.lean` has what `print_response` returns; here is what it prints on the way, a line for
each value and two for an array. `%.*s` ends at a zero byte. What `%g` makes of a double is a
parameter. A precision below zero would be none at all, and is a fault.

The walk is written once more, with the text beside the result, and that it returns the same is
a lemma (`Proof/ClientOutput.lean`). What was printed before an element turned out to be wrong
stays printed, so a failed walk has a text as well.
-/

set_option autoImplicit false

namespace ApexDB

open Lib

/-- The branches for errors and strings, with what stands before the text. -/
def printTextOut (head data : Bytes) (pos : Nat) : Option (Int × Bytes) :=
  if data.length < pos + 4 then some (-1, [])
  else do
    let len ← u32At data pos
    if data.length - (pos + 4) < len then return (-1, [])
    else if toInt32 len < 0 then none
    else return (toInt32 (pos + 4 + len), head ++ cText ((data.drop (pos + 4)).take len) ++ bytes "\n")

def printNumberOut (text : Nat → Bytes) (data : Bytes) : Option (Int × Bytes) :=
  if data.length < 1 + 8 then some (-1, [])
  else some (toInt32 (1 + 8), text (ofLe ((data.drop 1).take 8)) ++ bytes "\n")

/-- The loop over the elements of an array, and the line after it. -/
def printElementsOut (print : Bytes → Option (Int × Bytes)) (data : Bytes) : Nat → Nat → Option (Int × Bytes)
  | 0, arrBytes => some (toInt32 arrBytes, bytes "(arr) end\n")
  | n + 1, arrBytes =>
    if data.length < arrBytes then none
    else do
      let (rv, out) ← print (data.drop arrBytes)
      if rv < 0 then return (rv, out)
      else
        let (rv, rest) ← printElementsOut print data n (arrBytes + rv.toNat)
        return (rv, out ++ rest)

/-- `print_response`: what it returns and what it prints. -/
def printResponseOut (fmtG : Nat → Bytes) : Nat → Bytes → Option (Int × Bytes)
  | 0, _ => some (-1, [])
  | levels + 1, data =>
    match data with
    | [] => some (-1, [])
    | tag :: _ =>
      if tag = Tag.nil.byte then some (1, bytes "(nil)\n")
      else if tag = Tag.err.byte then
        printTextOut (bytes "(err) " ++ toDecimal (toInt32 (ofLe ((data.drop 1).take 4))) ++ bytes " ") data 5
      else if tag = Tag.str.byte then printTextOut (bytes "(str) ") data 1
      else if tag = Tag.int.byte then printNumberOut (fun n => bytes "(int) " ++ toDecimal (toInt64 n)) data
      else if tag = Tag.dbl.byte then printNumberOut (fun n => bytes "(dbl) " ++ fmtG n) data
      else if tag = Tag.arr.byte then
        if data.length < 1 + 4 then some (-1, [])
        else do
          let len ← u32At data 1
          let (rv, out) ← printElementsOut (printResponseOut fmtG levels) data len 5
          return (rv, bytes "(arr) len=" ++ toDecimal len ++ bytes "\n" ++ out)
      else some (-1, [])

/-- The end of `main` of the client, with what `tcp_rpc` returned: the code, and the texts on
`stdout` and `stderr`. -/
def clientRun (fmtG : Nat → Bytes) (response : Option Buffer) : Option (Nat × Bytes × Bytes) :=
  match response with
  | none => some (1, [], bytes "request failed\n")
  | some response =>
    if response.length ≤ 4 then some (1, [], bytes "request failed\n")
    else do
      let (consumed, out) ← printResponseOut fmtG kMaxDepth (response.drop 4)
      if consumed < 0 ∨ consumed.toNat ≠ response.length - 4 then return (1, out, bytes "invalid response\n")
      else return (if response[4]? = some Tag.err.byte then 1 else 0, out, [])

end ApexDB
