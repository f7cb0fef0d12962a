import ApexDB.ServerLoop

/-!
# `TcpRpc.lean` — the caller of `src/tcp_rpc.cpp`, and the wire between it and a server

`tcp_rpc_raw` sends the whole request, reads the four bytes of a length and reads that many
more. It blocks in `send` and `read`, so it is a machine that takes one step each time such a
call returns: `Rpc` is where it stands between two calls. `Net` is the caller, one connection of
a server and the bytes in flight between them; **the two sides take their steps in any order.**

Finding the address and connecting is one `Bool`. The time limits of the socket are errors of
the calls.

The wire loses nothing and keeps the order, as TCP does, but it may stop delivering at any
point, which is an error of `read` or `send` on one side or both. The caller opens a connection
for one request and closes it; so the session of the server that belongs to it sees one request
and no other.
-/

set_option autoImplicit false

namespace ApexDB

open Lib

variable {σ : Type}

/-! ## 1. The caller

`write_full` and `read_full` go on after `EINTR` and give up on any other error. A result of 0
is the end of the connection and counts as an error.
-/

/-- What `send` or `read` returned: `EINTR`, another error, or a number of bytes. -/
inductive Rv where
  | eintr
  | error
  | count (n : Nat)

/-- One turn of `write_full` with `buf` left to send: also the bytes that were sent. -/
def writeFull (rv : Rv) (buf : Bytes) : Turn Bytes Bool × Bytes :=
  match rv with
  | .eintr => (.again buf, [])
  | .error => (.done false, [])
  | .count n =>
    let chunk := buf.take n
    if chunk.isEmpty then (.done false, [])
    else if chunk.length = buf.length then (.done true, chunk)
    else (.again (buf.drop chunk.length), chunk)

/-- One turn of `read_full` with `n` bytes to come behind `buf`: the filled buffer, or `none`
for false; also what is left on the wire. -/
def readFull (rv : Rv) (wire buf : Bytes) (n : Nat) : Turn (Bytes × Nat) (Option Bytes) × Bytes :=
  match rv with
  | .eintr => (.again (buf, n), wire)
  | .error => (.done none, wire)
  | .count k =>
    let chunk := wire.take (min k n)
    if chunk.isEmpty then (.done none, wire)
    else if chunk.length = n then (.done (some (buf ++ chunk)), wire.drop chunk.length)
    else (.again (buf ++ chunk, n - chunk.length), wire.drop chunk.length)

/-- `tcp_rpc_raw` between two calls: in `write_full`, in the first or the second `read_full`, or
back at its caller with a result and `response_out`. -/
inductive Rpc where
  | writing (buf : Bytes)
  | header (hdr : Bytes) (n : Nat)
  | body (out : Buffer) (n : Nat)
  | returned (result : Bool) (out : Buffer)
  deriving DecidableEq

/-- `tcp_rpc_raw` up to its first call of `send`: a request that is too short or too long, or no
connection, and it returns false without a call. -/
def tcpRpcRaw (connected : Bool) (request : Buffer) : Rpc :=
  if request.length < 4 ∨ kMaxMsg < request.length - 4 then .returned false []
  else if connected then .writing request
  else .returned false []

def tcpRpc (connected : Bool) (cmd : List Bytes) : Rpc := tcpRpcRaw connected (encodeRequest cmd)

/-- The header is there: check the length and go on to the body, if there is one. -/
def Rpc.readBody (hdr : Bytes) : Rpc :=
  let len := ofLe hdr
  if kMaxMsg < len then .returned false []
  else if len = 0 then .returned true hdr
  else .body hdr len

/-- A call returned: also the bytes sent and what is left on the wire. When the body breaks off,
the rest of `response_out` is as `resize` left it. -/
def Rpc.step (rv : Rv) (wire : Bytes) : Rpc → Rpc × Bytes × Bytes
  | .writing buf =>
    match writeFull rv buf with
    | (.again buf, sent) => (.writing buf, sent, wire)
    | (.done true, sent) => (.header [] 4, sent, wire)
    | (.done false, sent) => (.returned false [], sent, wire)
  | .header hdr n =>
    match readFull rv wire hdr n with
    | (.again (hdr, n), wire) => (.header hdr n, [], wire)
    | (.done (some hdr), wire) => (.readBody hdr, [], wire)
    | (.done none, wire) => (.returned false [], [], wire)
  | .body out n =>
    match readFull rv wire out n with
    | (.again (out, n), wire) => (.body out n, [], wire)
    | (.done (some out), wire) => (.returned true out, [], wire)
    | (.done none, wire) => (.returned false (out ++ List.replicate n 0), [], wire)
  | .returned result out => (.returned result out, [], wire)

/-! ## 2. The wire

What a side sends is appended to the wire and what the other side reads is taken off the front
of it, as many bytes as the call happens to return.
-/

/-- A caller, a connection of the server, and what is in flight each way. -/
structure Net (σ : Type) where
  rpc : Rpc
  session : Session σ
  toServer : Bytes := []
  toCaller : Bytes := []

def ReadResult.ofWire (wire : Bytes) : ReadResult → ReadResult
  | .data chunk =>
    if (wire.take chunk.length).isEmpty then .again else .data (wire.take chunk.length)
  | r => r

def LoopEvent.ofWire (wire : Bytes) : LoopEvent σ → LoopEvent σ
  | .poll ready => .poll { ready with read := ready.read.ofWire wire }
  | ev => ev

inductive NetEvent (σ : Type) where
  | caller (rv : Rv)
  | server (ev : LoopEvent σ)

def Net.step (h : Handler σ) (N : Net σ) : NetEvent σ → Option (Net σ)
  | .caller rv =>
    let (rpc, sent, rest) := N.rpc.step rv N.toCaller
    some { N with rpc := rpc, toServer := N.toServer ++ sent, toCaller := rest }
  | .server ev => do
    let S ← N.session.step h (ev.ofWire N.toServer)
    return { N with
      session := S
      toServer := N.toServer.drop (S.received.length - N.session.received.length)
      toCaller := N.toCaller ++ S.written.drop N.session.written.length }

end ApexDB
