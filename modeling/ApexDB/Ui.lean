import ApexDB.Client
import ApexDB.KvStore

/-!
# `Ui.lean` — the exchange of `src/ui.cpp` with the server

`read_res` receives one frame into a buffer of 4100 bytes and makes a text of its body. **The
text is kept as what it is made of**: a fixed text, a number, or a run of bytes of the body,
given by where it starts and how long it is. Whether such a run lies inside the body is what
there is to prove about it, so the model does not look at the bytes in it.

The tests of lengths are on `uint32_t`, and so are the sums in them.

`send_req` fills a buffer of the same size from the front. What would be stored past its end is
a fault.

`do_cmd` shows what `read_res` has returned, and only there are the bytes of the text looked at
(`UiReply.chars`): a text that ends behind the body is a fault, and **the window shows a C
string**, so a text with a zero byte in it is shown up to that byte.

This program has its own copy of the protocol. It does not use `protocol.cpp`, its limits are
other ones, and so are its tests; every function here is therefore modelled for itself and not
taken from `Protocol.lean`.
-/

set_option autoImplicit false

namespace ApexDB

open Lib

/-! ## 1. Responses

What `read` returns is a list of results, and each function says how many of them it has used. A
result of 0 is the end of the connection and counts as an error.
-/

def toInt64 (n : Nat) : Int := if n % 2 ^ 64 < 2 ^ 63 then (n % 2 ^ 64 : Nat) else (n % 2 ^ 64 : Nat) - 2 ^ 64

/-- `k_max_msg` of `read_res`. The server's is 32 MiB. -/
def kUiMaxMsg : Nat := 4096

/-- `read_full` of the user interface, for the results of `read` in their order: the bytes it
returned, or `none` for a result that is negative. The bytes, and the results not used; `none`
for -1. -/
def uiReadFull : List (Option Bytes) → Nat → Option (Bytes × List (Option Bytes))
  | reads, 0 => some ([], reads)
  | [], _ + 1 => none
  | none :: _, _ + 1 => none
  | some chunk :: reads, n + 1 =>
    let buf := chunk.take (n + 1)
    if buf.isEmpty then none
    else (uiReadFull reads (n + 1 - buf.length)).map fun (rest, reads) => (buf ++ rest, reads)

/-- `std::string((char*)&data[offset], slen)`. -/
structure UiText where
  offset : Nat
  slen : Nat
  deriving DecidableEq, Repr

/-- What `read_res` returns. -/
inductive UiReply where
  | fixed (text : String)
  | err (code : Int) (text : UiText)
  | str (text : UiText)
  | int (v : Int)
  | dbl (bits : Nat)
  deriving DecidableEq

def UiReply.bad : UiReply := .fixed "bad response"

/-- The tests for a text whose length stands at `pos`, and the text. -/
def uiText (len : Nat) (data : Bytes) (pos : Nat) : Option UiText :=
  if len < pos + 4 then none
  else
    let slen := ofLe ((data.drop pos).take 4)
    if len < (pos + 4 + slen) % 2 ^ 32 then none else some { offset := pos + 4, slen := slen }

/-- `read_res` from the first test of `len` against 1 on. -/
def uiDecode (len : Nat) (data : Bytes) : UiReply :=
  match data with
  | [] => .bad
  | tag :: _ =>
    if tag = 0 then .fixed "(nil)"
    else if tag = 1 then
      match uiText len data 5 with
      | none => .bad
      | some text => .err (toInt32 (ofLe ((data.drop 1).take 4))) text
    else if tag = 2 then
      match uiText len data 1 with
      | none => .bad
      | some text => .str text
    else if tag = 3 then
      if len < 1 + 8 then .bad else .int (toInt64 (ofLe ((data.drop 1).take 8)))
    else if tag = 4 then
      if len < 1 + 8 then .bad else .dbl (ofLe ((data.drop 1).take 8))
    else if tag = 5 then .fixed "(arr) ..."
    else .bad

/-- `read_res`: the length, the test against the limit, the body, and what it says. -/
def readRes (reads : List (Option Bytes)) : UiReply :=
  match uiReadFull reads 4 with
  | none => .fixed "read header error"
  | some (hdr, reads) =>
    let len := ofLe hdr
    if kUiMaxMsg < len then .fixed "response too long"
    else
      match uiReadFull reads len with
      | none => .fixed "read body error"
      | some (data, _) => uiDecode len data

/-- The body that `read_res` has in its buffer; `[]` where it did not come to read one. -/
def uiBody (reads : List (Option Bytes)) : Bytes :=
  match uiReadFull reads 4 with
  | none => []
  | some (hdr, reads) => if kUiMaxMsg < ofLe hdr then [] else (uiReadFull reads (ofLe hdr)).elim [] Prod.fst

/-- The bytes of a text. Those behind the body are not the program's to read. -/
def UiText.read (text : UiText) (data : Bytes) : Option Bytes :=
  if text.offset + text.slen ≤ data.length then some ((data.drop text.offset).take text.slen) else none

/-- The `std::string` that `read_res` returns. What `std::to_string` makes of a double is a
parameter. -/
def UiReply.chars (fmtF : Nat → Bytes) (data : Bytes) : UiReply → Option Bytes
  | .fixed text => some (bytes text)
  | .err code text => (text.read data).map (bytes "(err) " ++ toDecimal code ++ bytes " " ++ ·)
  | .str text => text.read data
  | .int v => some (bytes "(int) " ++ toDecimal v)
  | .dbl bits => some (bytes "(dbl) " ++ fmtF bits)

/-! ## 2. Requests

The length of the request is summed up in a `uint32_t` before anything is written, and only this
sum is compared with the limit. The buffer is then filled with the strings as they are.
-/

/-- The sum in `send_req`, which wraps after every string. -/
def uiRequestLen (cmd : List Bytes) : Nat := cmd.foldl (fun len s => (len + (4 + s.length % 2 ^ 32)) % 2 ^ 32) 4

/-- `memcpy` to `wbuf` behind what is there already. -/
def uiPut (wbuf data : Bytes) : Option Bytes :=
  if wbuf.length + data.length ≤ 4 + kUiMaxMsg then some (wbuf ++ data) else none

def uiPutStr (wbuf s : Bytes) : Option Bytes := do uiPut (← uiPut wbuf (le 4 s.length)) s

/-- `send_req` up to `write_all`: what is to be written, `none` inside for -1. -/
def sendReq (cmd : List Bytes) : Option (Option Bytes) :=
  let len := uiRequestLen cmd
  if kUiMaxMsg < len then some none
  else do
    let wbuf ← uiPut [] (le 4 len)
    let wbuf ← uiPut wbuf (le 4 cmd.length)
    let wbuf ← cmd.foldlM uiPutStr wbuf
    return some (wbuf.take (4 + len))

/-- `write_all`, for the results of `write` in their order: the number of bytes it took, or
`none` for one that is negative. Whether all was written, and what was. -/
def writeAll : List (Option Nat) → Bytes → Bool × Bytes
  | _, [] => (true, [])
  | [], _ :: _ => (false, [])
  | none :: _, _ :: _ => (false, [])
  | some n :: writes, b :: buf =>
    if n = 0 then (false, [])
    else
      let (all, rest) := writeAll writes ((b :: buf).drop n)
      (all, (b :: buf).take n ++ rest)

/-- `do_cmd`: the text it shows, and what it has written to the server.
`out->value(res.c_str())` ends the text at its first zero byte. -/
def doCmd (fmtF : Nat → Bytes) (connected : Bool) (writes : List (Option Nat)) (reads : List (Option Bytes))
    (cmd : List Bytes) : Option (Bytes × Bytes) :=
  if !connected then some (bytes "connect failed", [])
  else do
    match ← sendReq cmd with
    | none => return (bytes "send failed", [])
    | some wbuf =>
      let (all, written) := writeAll writes wbuf
      if all then
        let res ← (readRes reads).chars fmtF (uiBody reads)
        return (cText res, written)
      else return (bytes "send failed", written)

end ApexDB
