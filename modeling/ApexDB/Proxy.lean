import ApexDB.Avl
import ApexDB.Client
import ApexDB.Sharding
import ApexDB.ServerLoop

/-!
# `Proxy.lean` — the request handler of `src/proxy.cpp`

A command goes to the shard that owns its key, `keys` goes to all of them, and `ping` is
answered here. How a shard is reached is a parameter: `rpc i s cmd` is `tcp_rpc` to shard `i`,
`none` inside for false.

The proxy keeps no state. It passes on the body of a shard's response as it came, without
looking into it; only for `keys` it takes the arrays apart and writes one of its own, and a body
that is no array of strings makes it give up with an error. The shards are asked one after the
other, and the first that fails ends the request.
-/

set_option autoImplicit false

namespace ApexDB

open Lib

variable {τ : Type}

/-- The loop of `merge_key_arrays` over the strings of one body, `n` to come at `off`: where it
ends and the strings. -/
def readKeys (body : Bytes) : Nat → Nat → Option (Nat × List Bytes)
  | 0, off => some (off, [])
  | n + 1, off =>
    if body.length - off < 5 ∨ body[off]? ≠ some Tag.str.byte then none
    else
      let slen := ofLe ((body.drop (off + 1)).take 4)
      if body.length < off + 5 + slen then none
      else do
        let (last, keys) ← readKeys body n (off + 5 + slen)
        return (last, (body.drop (off + 5)).take slen :: keys)

def keyArray (body : Bytes) : Option (List Bytes) :=
  if body.isEmpty ∨ body[0]? ≠ some Tag.arr.byte ∨ body.length < 5 then none
  else do
    let (off, keys) ← readKeys body (ofLe ((body.drop 1).take 4)) 5
    if off ≠ body.length then none else some keys

/-- `merge_key_arrays`: `none` for false. -/
def mergeKeyArrays (bodies : List Bytes) (out : Buffer) : Option Buffer := do
  let keys ← bodies.mapM keyArray
  return keys.flatten.foldl outStr (outArr out (keys.flatten.length % 2 ^ 32))

/-! `merge_key_arrays` once more, **with every expression checked**: a read that is not inside the body, a
difference below zero and a sum that leaves its type are faults. Here `none` inside is false.
-/

/-- A `size_t` expression with this value. -/
def size? (n : Int) : Option Nat := if 0 ≤ n ∧ n < 2 ^ 64 then some n.toNat else none

def slice? (body : Bytes) (off slen : Nat) : Option Bytes :=
  if off + slen ≤ body.length then some ((body.drop off).take slen) else none

def readKeysChecked (body : Bytes) : Nat → Nat → Option (Option (Nat × List Bytes))
  | 0, off => some (some (off, []))
  | n + 1, off => do
    let left ← size? (body.length - off)
    if left < 5 then return none
    else
      let tag ← body[off]?
      if tag ≠ Tag.str.byte then return none
      else
        let slen ← u32At body (off + 1)
        let last ← size? (off + 5 + slen)
        if body.length < last then return none
        else
          let key ← slice? body (off + 5) slen
          let off ← size? (off + (← u32? (5 + slen)))
          let rest ← readKeysChecked body n off
          return rest.map fun r => (r.1, key :: r.2)

def keyArrayChecked (body : Bytes) : Option (Option (List Bytes)) :=
  if body.isEmpty then some none
  else do
    let tag ← body[0]?
    if tag ≠ Tag.arr.byte ∨ body.length < 5 then return none
    else
      let n ← u32At body 1
      let rest ← readKeysChecked body n 5
      return rest.bind fun r => if r.1 ≠ body.length then none else some r.2

/-- The loop over the bodies, left at the first that is refused. -/
def gatherKeysChecked : List Bytes → Option (Option (List Bytes))
  | [] => some (some [])
  | body :: bodies => do
    match ← keyArrayChecked body with
    | none => return none
    | some keys => return (← gatherKeysChecked bodies).map (keys ++ ·)

/-- `merge_key_arrays`, checked: what it returns, and `out` after it. -/
def mergeKeyArraysChecked (bodies : List Bytes) (out : Buffer) : Option (Bool × Buffer) := do
  match ← gatherKeysChecked bodies with
  | none => return (false, out)
  | some keys => return (true, keys.foldl outStr (outArr out (keys.length % 2 ^ 32)))

/-- `extract_response_body`: `none` for false. -/
def extractResponseBody (framed : Buffer) : Option Buffer :=
  if framed.length < 4 then none
  else
    let len := ofLe (framed.take 4)
    if len ≠ framed.length - 4 then none else some ((framed.drop 4).take len)

/-- The body of a shard's response, or what is wrong with it. -/
def shardBody : Option Buffer → Except String Buffer
  | none => .error "shard unreachable"
  | some framed =>
    match extractResponseBody framed with
    | none => .error "bad shard response"
    | some body => .ok body

/-- The loop over the shards, left at the first that fails. -/
def gather (rpc : Nat → τ → List Bytes → Option (τ × Option Buffer)) (cmd : List Bytes) :
    List Nat → τ → Option (τ × Except String (List Buffer))
  | [], s => some (s, .ok [])
  | i :: ids, s => do
    let (s, framed) ← rpc i s cmd
    match shardBody framed with
    | .error msg => return (s, .error msg)
    | .ok body => do
      let (s, bodies) ← gather rpc cmd ids s
      return (s, bodies.map (body :: ·))

/-- `on_request` of the proxy, over so many shards. The answers to `ping`, to a command without
a key and to one whose shard cannot be reached are its own. -/
def proxyOnRequest (shards : Nat) (rpc : Nat → τ → List Bytes → Option (τ × Option Buffer)) :
    RequestHandler τ := fun s cmd out =>
  if (cmd.length = 1 ∨ cmd.length = 2) ∧ cmd[0]? = some (bytes "ping") then
    some (s, outStr out (cmd[1]?.getD (bytes "PONG")))
  else if isScatterGatherCommand cmd then do
    let (s, bodies) ← gather rpc cmd (List.range shards) s
    match bodies with
    | .error msg => return (s, outErr out .unknown (bytes msg))
    | .ok bodies =>
      return (s, (mergeKeyArrays bodies out).getD
        (outErr out .unknown (bytes "failed to merge keys")))
  else
    match routingKeyForCommand cmd with
    | none => some (s, outErr out .unknown (bytes "cannot route command"))
    | some key => do
      let (s, framed) ← rpc (shardForKey key shards) s cmd
      match shardBody framed with
      | .error msg => return (s, outErr out .unknown (bytes msg))
      | .ok body => return (s, out ++ body)

end ApexDB
