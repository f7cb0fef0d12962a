import ApexDB.Lib.Arena
import ApexDB.Client
import ApexDB.ServerLoop

/-!
# `EventLoop.lean` — the connections of `src/server_loop.cpp`

A `Conn` is reached by its descriptor from `fd2conn` and, in the order of its last activity,
from the circular list that starts at `idle_list` and runs through the `idle_node` of every
connection. The list is one of pointers (`include/list.h`), and **the memory of its nodes is
partial**: an address is that of `idle_list` or of the `idle_node` of a connection, the node of
a connection dies with it, and a step through a null pointer or into a dead node is a fault
(`none`).

What the kernel does is an argument: whether `poll` was interrupted, what `accept` returned,
what was reported for each entry of `poll_args`, what `read` and `write` then returned, and
every reading of the clock. The state keeps what the kernel knows, the descriptors that are open
and the last reading.

The handlers are any functions on a state of their own. What the programs pass for them is in
`Server.lean` and `ProxyLoop.lean`; nothing here depends on it, and the same loop runs under all
three programs.

Which outcomes a kernel can produce is not decided here. A model that ruled out an odd one would
prove less; the hypotheses under which the loop is shown not to fault are stated with the
theorems (`Possible`, in `Proof/EventLoop.lean`).
-/

set_option autoImplicit false

namespace ApexDB

open Lib

variable {α σ : Type}

/-! ## 1. `list.h`

The four functions of the header, assignment by assignment. Each one reads the links it needs
before it stores, in the order of the source, so that a node linked to itself is treated as it
is there.
-/

/-- `DList`; null is `none`. -/
structure DList (α : Type) where
  prev : Option α := none
  next : Option α := none

/-- The nodes that are alive, by address. A node is freed with its connection, and following a
link to it is a fault then. -/
abbrev DListMem (α : Type) := α → Option (DList α)

section DList

variable [DecidableEq α]

def setPrev (mem : DListMem α) (node p : α) : Option (DListMem α) := do
  let d ← mem node
  return Function.update mem node (some { d with prev := some p })

def setNext (mem : DListMem α) (node n : α) : Option (DListMem α) := do
  let d ← mem node
  return Function.update mem node (some { d with next := some n })

def dlistInit (mem : DListMem α) (node : α) : Option (DListMem α) := do
  setPrev (← setNext mem node node) node node

def dlistEmpty (mem : DListMem α) (node : α) : Option Bool := do
  let d ← mem node
  return d.next = some node

def dlistDetach (mem : DListMem α) (node : α) : Option (DListMem α) := do
  let d ← mem node
  let prev ← d.prev
  let next ← d.next
  let mem ← setNext mem prev next
  setPrev mem next prev

def dlistInsertBefore (mem : DListMem α) (target rookie : α) : Option (DListMem α) := do
  let prev ← (← mem target).prev
  let mem ← setNext mem prev rookie
  let mem ← setPrev mem rookie prev
  let mem ← setNext mem rookie target
  setPrev mem target rookie

end DList

/-! ## 2. Connections

`handle_accept` makes a connection and puts it at the end of the idle list; `conn_destroy`
closes the descriptor, takes the connection out of both and frees it. The table `fd2conn` is
indexed by descriptor and grows when it has to.
-/

abbrev ConnId := Nat

/-- `&g_srv.idle_list`, or `&conn->idle_node`. -/
inductive DAddr where
  | idleList
  | idleNode (conn : ConnId)
  deriving DecidableEq

/-- `Conn` without its `idle_node`, whose links are in the `DListMem` of the server. -/
structure LoopConn extends Conn where
  fd : Nat
  lastActiveMs : Nat

/-- `g_srv` and the memory it points into, with the state of the handlers, the descriptors of
connections that are open and the last reading of the clock. The last two are the kernel's and
not the program's. -/
structure Srv (σ : Type) where
  state : σ
  conns : Arena LoopConn := .empty
  links : DListMem DAddr
  fd2conn : List (Option ConnId) := []
  fds : List Nat := []
  clock : Nat := 0

def srvInit (s : σ) : Option (Srv σ) := do
  let links ← dlistInit (Function.update (fun _ => none) .idleList (some {})) .idleList
  return { state := s, links := links }

def kIdleTimeoutMs : Nat := 5 * 1000

def resizeTo (n : Nat) (fd2conn : List (Option ConnId)) : List (Option ConnId) :=
  fd2conn ++ List.replicate (n - fd2conn.length) none

/-- `handle_accept` when `accept` has returned `connfd`, with its assertion that the slot of the
table is free. -/
def handleAccept (connfd clk : Nat) (srv : Srv σ) : Option (Srv σ) := do
  let (conns, conn) := srv.conns.alloc { Conn.new with fd := connfd, lastActiveMs := clk }
  let links := Function.update srv.links (.idleNode conn) (some {})
  let links ← dlistInsertBefore links .idleList (.idleNode conn)
  let fd2conn := if srv.fd2conn.length ≤ connfd then resizeTo (connfd + 1) srv.fd2conn else srv.fd2conn
  if fd2conn[connfd]? ≠ some none then none
  return { srv with conns := conns, links := links, fd2conn := fd2conn.set connfd (some conn),
                    fds := connfd :: srv.fds, clock := clk }

def connDestroy (srv : Srv σ) (conn : ConnId) : Option (Srv σ) := do
  let c ← srv.conns.read conn
  if srv.fd2conn.length ≤ c.fd then none
  let links ← dlistDetach srv.links (.idleNode conn)
  let conns ← srv.conns.free conn
  return { srv with conns := conns, links := Function.update links (.idleNode conn) none,
                    fd2conn := srv.fd2conn.set c.fd none, fds := srv.fds.erase c.fd }

/-! ## 3. One iteration

An iteration asks `poll` for the connections that are open, with the timeout that the nearest
deadline gives, accepts one connection if there is one, serves the entries that are ready in
their order, and then runs the timers. A connection that is served moves to the end of the idle
list first. The timers close the connections at the front of the list that have been idle too
long, and then call the handler's own.
-/

/-- `pollfd` of a connection; `POLLERR` is always asked for. -/
structure PollFd where
  fd : Nat
  pollin : Bool
  pollout : Bool

/-- The entries of `poll_args` after the first, in the order of the table: for each connection
what it waits for. -/
def pollArgs (srv : Srv σ) : Option (List PollFd) :=
  (srv.fd2conn.filterMap id).mapM fun conn => do
    let c ← srv.conns.read conn
    return { fd := c.fd, pollin := c.wantRead, pollout := c.wantWrite }

/-- The deadline that the idle list sets: that of its first connection. The sum is one of
`uint64_t`. -/
def idleDeadline (srv : Srv σ) : Option Nat := do
  if ← dlistEmpty srv.links .idleList then return 2 ^ 64 - 1
  match ← (← srv.links .idleList).next with
  | .idleList => none
  | .idleNode conn => return ((← srv.conns.read conn).lastActiveMs + kIdleTimeoutMs) % 2 ^ 64

/-- `next_timer_ms_combined`; the function for the handlers' own timers may be absent. -/
def nextTimerMsCombined (nextTimer : Option (σ → Nat → Nat)) (now : Nat) (srv : Srv σ) : Option Nat := do
  let nextMs ← idleDeadline srv
  let nextMs :=
    (match nextTimer with
    | none => nextMs
    | some nextTimer =>
      let storeMs := nextTimer srv.state now
      let storeDeadline := (now + storeMs) % 2 ^ 64
      if storeMs ≠ 2 ^ 32 - 1 ∧ storeDeadline < nextMs then storeDeadline else nextMs)
  return msUntil now nextMs

/-- The timeout that `poll` is called with: the time to the nearest deadline, and a second at
most. -/
def pollTimeout (nextTimer : Option (σ → Nat → Nat)) (now : Nat) (srv : Srv σ) : Option Int := do
  return toInt32 (min (← nextTimerMsCombined nextTimer now srv) 1000)

/-- What `accept` returned, and the clock that was read after it. -/
inductive AcceptResult where
  | failed
  | accepted (connfd clk : Nat)

/-- What `poll` reported: for the listening socket, and for the other entries in their order,
`none` where `revents` is 0. With each goes a reading of the clock; the last one is
`process_timers`'s. -/
structure Round where
  accept : Option AcceptResult
  ready : List (Option (Nat × Ready))
  now : Nat

/-- The body of the loop over `poll_args` for an entry that is ready: the connection is the
youngest of the idle list then, and it is served and perhaps destroyed. -/
def serveFd (onRequest : RequestHandler σ) (clk : Nat) (ready : Ready) (srv : Srv σ) (fd : Nat) :
    Option (Srv σ) := do
  let conn ← (← srv.fd2conn[fd]?)
  let c ← srv.conns.read conn
  let links ← dlistDetach srv.links (.idleNode conn)
  let links ← dlistInsertBefore links .idleList (.idleNode conn)
  let (s, c', _, destroyed) ← serveConn onRequest ready srv.state c.toConn
  let conns ← srv.conns.write conn { c' with fd := c.fd, lastActiveMs := clk }
  let srv := { srv with state := s, conns := conns, links := links, clock := clk }
  if destroyed then connDestroy srv conn else return srv

def serveAll (onRequest : RequestHandler σ) (entries : List (PollFd × Option (Nat × Ready)))
    (srv : Srv σ) : Option (Srv σ) :=
  entries.foldlM (fun srv (pfd, ev) =>
    match ev with
    | none => some srv
    | some (clk, ready) => serveFd onRequest clk ready srv pfd.fd) srv

def acceptIfReady (accept : Option AcceptResult) (srv : Srv σ) : Option (Srv σ) :=
  match accept with
  | some (.accepted connfd clk) => handleAccept connfd clk srv
  | _ => some srv

def pollRound (onRequest : RequestHandler σ) (srv : Srv σ) (round : Round) : Option (Srv σ) := do
  let args ← pollArgs srv
  let srv ← acceptIfReady round.accept srv
  serveAll onRequest (args.zip round.ready) srv

/-- One turn of the loop of `process_timers`. The sum is one of `uint64_t`. -/
def idleTurn (now : Nat) (srv : Srv σ) : Option (Turn (Srv σ) (Srv σ)) := do
  if ← dlistEmpty srv.links .idleList then return .done srv
  match ← (← srv.links .idleList).next with
  | .idleList => none
  | .idleNode conn =>
    let c ← srv.conns.read conn
    if now ≤ (c.lastActiveMs + kIdleTimeoutMs) % 2 ^ 64 then return .done srv
    else return .again (← connDestroy srv conn)

def closeIdle (now : Nat) (srv : Srv σ) : Option (Srv σ) :=
  loop (idleTurn now) (srv.conns.next + 1) srv

def srvProcessTimers (onTimer : σ → Nat → Option σ) (now : Nat) (srv : Srv σ) : Option (Srv σ) := do
  let srv ← closeIdle now { srv with clock := now }
  let s ← onTimer srv.state now
  return { srv with state := s }

/-- An iteration of the loop: `poll` was interrupted, or it reported something. -/
inductive Iteration where
  | interrupted
  | polled (round : Round)

def iterate (onRequest : RequestHandler σ) (onTimer : σ → Nat → Option σ) (srv : Srv σ) :
    Iteration → Option (Srv σ)
  | .interrupted => some srv
  | .polled round => do srvProcessTimers onTimer round.now (← pollRound onRequest srv round)

/-! ## 4. After the loop

When a signal has set `stopping` the loop ends, and every connection that is still in the table
is destroyed.
-/

def closeSlot (srv : Srv σ) (i : Nat) : Option (Srv σ) := do
  match ← srv.fd2conn[i]? with
  | none => return srv
  | some conn => connDestroy srv conn

/-- The end of `run_tcp_server`. `conn_destroy` writes to the table that is walked over and does
not change its length. -/
def stopServer (srv : Srv σ) : Option (Srv σ) := do
  let srv ← (List.range srv.fd2conn.length).foldlM closeSlot srv
  return { srv with fd2conn := [] }

end ApexDB
