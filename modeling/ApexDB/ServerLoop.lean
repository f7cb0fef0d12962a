import ApexDB.Lib.Loop
import ApexDB.Protocol

/-!
# `ServerLoop.lean` — one connection of `src/server_loop.cpp`

What the event loop does to a connection that `poll` reports: read once, answer every complete
request, write once, and close if asked to. The outcomes of `read` and `write` are arguments;
what a call hands to the kernel is part of its result.

The request handler is any function that passes on a state of its own; `respond` is the frame
that `try_one_request` puts around it. A `Session` is one connection over many rounds of the
loop, with what was read, what was written and which calls were made of the handler kept beside
it.

The loop itself, with its table of connections and its timers, is `EventLoop.lean`. It calls
`serveConn` for each connection that is ready, so whatever is proved of one connection here
holds for each of many there.
-/

set_option autoImplicit false

namespace ApexDB

open Lib

variable {σ : Type}

/-! ## 1. One round

`handle_read` appends what was read, answers requests until `try_one_request` returns false, and
tries to write at once if there is something to write. `want_read` and `want_write` are set by
what is left to write, and `want_close` by an error or by a request that cannot be read; the
loop looks at the three after each round.
-/

abbrev RequestHandler (σ : Type) := σ → List Bytes → Buffer → Option (σ × Buffer)

/-- `Conn`, as far as requests and responses go. -/
structure Conn where
  wantRead : Bool := false
  wantWrite : Bool := false
  wantClose : Bool := false
  incoming : Buffer := []
  outgoing : Buffer := []

def Conn.new : Conn := { wantRead := true }

/-- `read` returned some bytes, nothing, or an error; `EAGAIN`, `EWOULDBLOCK` and `EINTR` are
one. -/
inductive ReadResult where
  | data (chunk : Bytes)
  | eof
  | again
  | error

/-- `write` took at most this many bytes, or there was an error. -/
inductive WriteResult where
  | wrote (n : Nat)
  | again
  | error

def respond (onRequest : RequestHandler σ) (s : σ) (cmd : List Bytes) (out : Buffer) :
    Option (σ × Buffer) := do
  let (out, header) := responseBegin out
  let (s, out) ← onRequest s cmd out
  return (s, ← responseEnd out header)

/-- `try_one_request`. The sum in the second test is one of `uint32_t`. -/
def tryOneRequest (onRequest : RequestHandler σ) (s : σ) (conn : Conn) : Option (σ × Conn × Bool) :=
  if conn.incoming.length < 4 then some (s, conn, false)
  else
    let len := ofLe (conn.incoming.take 4)
    if kMaxMsg < len then some (s, { conn with wantClose := true }, false)
    else if conn.incoming.length < (4 + len) % 2 ^ 32 then some (s, conn, false)
    else
      match parseReq ((conn.incoming.drop 4).take len) with
      | none => some (s, { conn with wantClose := true }, false)
      | some cmd => do
        let (s, outgoing) ← respond onRequest s cmd conn.outgoing
        return (s, { conn with outgoing := outgoing, incoming := conn.incoming.drop (4 + len) }, true)

def requestTurn (onRequest : RequestHandler σ) (st : σ × Conn) : Option (Turn (σ × Conn) (σ × Conn)) := do
  let (s, conn, more) ← tryOneRequest onRequest st.1 st.2
  return if more then .again (s, conn) else .done (s, conn)

/-- `handle_write`, with its assertion: the connection and the bytes written. -/
def handleWrite (result : WriteResult) (conn : Conn) : Option (Conn × Bytes) :=
  if conn.outgoing.isEmpty then none
  else
    match result with
    | .again => some (conn, [])
    | .error => some ({ conn with wantClose := true }, [])
    | .wrote n =>
      let conn' := { conn with outgoing := conn.outgoing.drop n }
      some (if conn'.outgoing.isEmpty then { conn' with wantRead := true, wantWrite := false }
        else conn', conn.outgoing.take n)

/-- `handle_read`: also the bytes written. -/
def handleRead (onRequest : RequestHandler σ) (result : ReadResult) (write : WriteResult) (s : σ)
    (conn : Conn) : Option (σ × Conn × Bytes) :=
  match result with
  | .again => some (s, conn, [])
  | .error => some (s, { conn with wantClose := true }, [])
  | .eof => some (s, { conn with wantClose := true }, [])
  | .data chunk => do
    let conn := { conn with incoming := conn.incoming ++ chunk }
    let (s, conn) ← loop (requestTurn onRequest) (conn.incoming.length + 1) (s, conn)
    if conn.outgoing.isEmpty then return (s, conn, [])
    else
      let (conn, sent) ← handleWrite write { conn with wantRead := false, wantWrite := true }
      return (s, conn, sent)

/-- What `poll` reports, and the outcomes of the calls that follow: `write` is made from
`handle_read` and `write'` from the loop itself. -/
structure Ready where
  pollin : Bool
  pollout : Bool
  pollerr : Bool
  read : ReadResult
  write : WriteResult
  write' : WriteResult

/-- The body of the loop over the polled connections: also the bytes written and whether
`conn_destroy` was called. -/
def serveConn (onRequest : RequestHandler σ) (ready : Ready) (s : σ) (conn : Conn) :
    Option (σ × Conn × Bytes × Bool) := do
  let (s, conn, sent) ←
    (if ready.pollin then handleRead onRequest ready.read ready.write s conn else some (s, conn, []))
  let (conn, sent') ←
    (if ready.pollout ∧ ¬conn.wantClose ∧ ¬conn.outgoing.isEmpty then handleWrite ready.write' conn
    else some (conn, []))
  return (s, conn, sent ++ sent', ready.pollerr || conn.wantClose)

/-! ## 2. The life of a connection

From one connection nothing of the others is seen but that the state of the handler is another
one when its next request comes. So an event is a round of the loop for this connection, or that
the state has been changed by somebody else, or that the connection is closed because it was
idle.
-/

/-- A handler that answers with bytes and looks at nothing but its state and the command. -/
abbrev Handler (σ : Type) := σ → List Bytes → σ × Bytes

/-- The handler in the server; each call is recorded with the state it finds. The record is not
in the source. -/
def Handler.onRequest (h : Handler σ) : RequestHandler (σ × List (σ × List Bytes)) :=
  fun (s, calls) cmd out => some (((h s cmd).1, calls ++ [(s, cmd)]), out ++ (h s cmd).2)

/-- What the loop does next, seen from one connection. -/
inductive LoopEvent (σ : Type) where
  /-- `poll` reported the connection. -/
  | poll (ready : Ready)
  /-- Another connection or a timer moved the handler's state. -/
  | elsewhere (s : σ)
  /-- `process_timers` found the connection idle. -/
  | timeout

/-- A connection, whether it is still open, and its history. -/
structure Session (σ : Type) where
  state : σ
  conn : Conn := .new
  live : Bool := true
  received : Bytes := []
  written : Bytes := []
  calls : List (σ × List Bytes) := []

/-- The bytes that `read` returned. -/
def ReadResult.chunk : ReadResult → Bytes
  | .data chunk => chunk
  | _ => []

def Ready.chunk (ready : Ready) : Bytes := if ready.pollin then ready.read.chunk else []

/-- One event. A connection that was destroyed is not polled any more. -/
def Session.step (h : Handler σ) (S : Session σ) : LoopEvent σ → Option (Session σ)
  | .elsewhere s => some { S with state := s }
  | .timeout => some { S with live := false }
  | .poll ready =>
    if S.live then do
      let ((s, calls), conn, sent, destroyed) ←
        serveConn h.onRequest ready (S.state, S.calls) S.conn
      return { state := s, conn := conn, live := !destroyed, received := S.received ++ ready.chunk,
               written := S.written ++ sent, calls := calls }
    else some S

end ApexDB
