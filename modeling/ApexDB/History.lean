import ApexDB.EventLoop

/-!
# `History.lean` — the event loop, watched

The clients of a server see the bytes of their connections, and its handlers see the calls that
are made of them. `Watched` runs the loop of `EventLoop.lean` and keeps both. None of this is in
the source, and **watching changes nothing**: the server inside is the one that `iterate` makes.

The calls are in the order in which they were made, over all connections; `callStep` makes one
of them with no event loop around it, into an empty buffer.

A history is what a client could have written down, and it is all that the theorems about many
clients speak of: which bytes came, which bytes went, and in which order the handlers were
called. That the calls for a connection are the requests in its bytes, and the bytes sent to it
the answers of the calls, is proved and not built in here.
-/

set_option autoImplicit false

namespace ApexDB

open Lib

variable {σ : Type}

/-! ## 1. Calls

A call keeps the connection that it was made for. The handler does not see it; the history does.
-/

/-- A call of `on_request` for a connection, or of `on_timer`. -/
inductive LoopCall where
  | request (conn : ConnId) (cmd : List Bytes)
  | timer (now : Nat)
  deriving DecidableEq

def LoopCall.from? (c : ConnId) : LoopCall → Option (List Bytes)
  | .request d cmd => if d = c then some cmd else none
  | .timer _ => none

def requestsOf (c : ConnId) (calls : List LoopCall) : List (List Bytes) := calls.filterMap (LoopCall.from? c)

/-- What these calls answered to one connection, in their order and without anything in between:
the bytes that it should be sent. -/
def responsesTo (c : ConnId) (calls : List LoopCall) (outs : List Bytes) : Bytes :=
  (calls.zip outs).flatMap fun p => if (p.1.from? c).isSome then p.2 else []

/-- One call by itself; a request is answered with a framed response. -/
def callStep (onRequest : RequestHandler σ) (onTimer : σ → Nat → Option σ) (s : σ) :
    LoopCall → Option (σ × Bytes)
  | .request _ cmd => respond onRequest s cmd []
  | .timer now => (onTimer s now).map fun s => (s, [])

/-- The handler, with its calls recorded. -/
def recorded (onRequest : RequestHandler σ) : RequestHandler (σ × List (List Bytes)) := fun s cmd out => do
  let (s', out) ← onRequest s.1 cmd out
  return ((s', s.2 ++ [cmd]), out)

/-! ## 2. The loop

The functions run along with those of the loop and call them. A connection is served a second
time, by the recorded handler and on the same state, to learn which calls were made; what it
writes is taken from there, and what becomes of the server from the first time.
-/

/-- What a connection has read and written since it was accepted. -/
structure Traffic where
  received : Bytes := []
  written : Bytes := []

/-- A server, what its connections carried, and the calls of its handlers. -/
structure Watched (σ : Type) where
  srv : Srv σ
  traffic : ConnId → Traffic := fun _ => {}
  calls : List LoopCall := []

namespace Watched

variable (onRequest : RequestHandler σ) (onTimer : σ → Nat → Option σ)

def carry (w : Watched σ) (c : ConnId) (chunk sent : Bytes) : ConnId → Traffic :=
  Function.update w.traffic c ⟨(w.traffic c).received ++ chunk, (w.traffic c).written ++ sent⟩

/-- `serveFd`. The connection is served once more, with the calls recorded. -/
def serveFd (clk : Nat) (ready : Ready) (w : Watched σ) (fd : Nat) : Option (Watched σ) := do
  let conn ← (← w.srv.fd2conn[fd]?)
  let c ← w.srv.conns.read conn
  let ((_, cmds), _, sent, _) ← serveConn (recorded onRequest) ready (w.srv.state, []) c.toConn
  let srv ← ApexDB.serveFd onRequest clk ready w.srv fd
  return { srv := srv, traffic := w.carry conn ready.chunk sent,
           calls := w.calls ++ cmds.map (.request conn) }

def serveAll (entries : List (PollFd × Option (Nat × Ready))) (w : Watched σ) : Option (Watched σ) :=
  entries.foldlM (fun w entry => entry.2.elim (some w) fun ev => w.serveFd onRequest ev.1 ev.2 entry.1.fd) w

def iterate (w : Watched σ) : Iteration → Option (Watched σ)
  | .interrupted => some w
  | .polled round => do
    let args ← pollArgs w.srv
    let srv ← acceptIfReady round.accept w.srv
    let w ← serveAll onRequest (args.zip round.ready) { w with srv := srv }
    let srv ← srvProcessTimers onTimer round.now w.srv
    return { w with srv := srv, calls := w.calls ++ [.timer round.now] }

end Watched

end ApexDB
