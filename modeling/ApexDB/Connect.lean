import ApexDB.TcpRpc

/-!
# `Connect.lean` — the sockets of `tcp_rpc_raw`

In `TcpRpc.lean` finding the address and connecting is one `Bool`. Here is the loop over the
addresses that `getaddrinfo` returned, with the results of the calls for each of them, and the
calls that `tcp_rpc_raw` makes on descriptors from the first `socket` to the last `close`, in
their order.

A socket is made non-blocking to connect with a time limit and made blocking again before it is
used; `write_full` and `read_full` take `EAGAIN` for an error, so it matters which of the two it
is.

The list of calls is what there is to check: whether one socket is open at a time, whether it is
closed on every way out and used on none after that, and in which mode it is. The checker is an
automaton of its own (`Proof/Sockets.lean`) and knows nothing of the functions here.
-/

set_option autoImplicit false

namespace ApexDB

open Lib

inductive ConnectRv where
  | connected
  | inProgress
  | failed
  deriving DecidableEq

/-- What the calls for one address return, in their order; those that are not made are not
looked at. `none` is a result below 0, and for `getsockopt` one that is not 0. -/
structure Attempt where
  socket : Option Nat
  getfl : Option Nat
  setNonblock : Bool
  connect : ConnectRv
  pollReady : Bool
  soError : Option Nat
  restore : Bool

/-- `connected` is 0 after the attempt and what follows it: `connect` has succeeded at once, or
it was in progress, `poll` has reported the socket in time and `getsockopt` no error. -/
def Attempt.connects (a : Attempt) : Bool :=
  match a.connect with
  | .connected => true
  | .inProgress => a.pollReady && a.soError == some 0
  | .failed => false

/-- A call on a descriptor, as far as it matters: `other` is one that leaves it as it is
(`setsockopt`, `F_GETFL`, `poll`, `getsockopt`, an `F_SETFL` that failed), `transfer` is `send`
or `read`. -/
inductive SockCall where
  | socket (fd : Nat)
  | other (fd : Nat)
  | setNonblock (fd : Nat)
  | connect (fd : Nat)
  | restore (fd : Nat)
  | transfer (fd : Nat)
  | close (fd : Nat)

/-- From `socket` to `F_GETFL`. -/
def openCalls (fd : Nat) : List SockCall := [.socket fd, .other fd, .other fd, .other fd]

/-- From `F_SETFL` to `getsockopt`. -/
def Attempt.connectCalls (a : Attempt) (fd : Nat) : List SockCall :=
  .setNonblock fd :: .connect fd ::
    (if a.connect = .inProgress then .other fd :: (if a.pollReady then [.other fd] else []) else [])

/-- The loop over the addresses: the descriptor it ends with, and its calls. -/
def connectLoop : List Attempt → Option Nat × List SockCall
  | [] => (none, [])
  | a :: rest =>
    match a.socket with
    | none => connectLoop rest
    | some fd =>
      let (fd', later) := connectLoop rest
      if a.getfl.isNone then (fd', openCalls fd ++ [.close fd] ++ later)
      else if !a.setNonblock then (fd', openCalls fd ++ [.other fd, .close fd] ++ later)
      else if !a.connects then (fd', openCalls fd ++ a.connectCalls fd ++ [.close fd] ++ later)
      else if a.restore then (some fd, openCalls fd ++ a.connectCalls fd ++ [.restore fd])
      else (fd', openCalls fd ++ a.connectCalls fd ++ [.other fd, .close fd] ++ later)

/-! From `write_full` on, for what `send` and `read` return and what is on the wire each time. Each function is a
loop of the source and what follows it; when no more results are given it stands where it
stands. **There is a `close` on every way out**, five of them as in the source.
-/

def transferThen (fd : Nat) (rest : Rpc × List SockCall) : Rpc × List SockCall := (rest.1, .transfer fd :: rest.2)

/-- The second `read_full`. When the body breaks off, the rest of `response_out` is as `resize`
left it. -/
def bodyCalls (fd : Nat) : Buffer → Nat → List (Rv × Bytes) → Rpc × List SockCall
  | out, n, [] => (.body out n, [])
  | out, n, (rv, wire) :: rvs =>
    match (readFull rv wire out n).1 with
    | .again (out, n) => transferThen fd (bodyCalls fd out n rvs)
    | .done none => transferThen fd (.returned false (out ++ List.replicate n 0), [.close fd])
    | .done (some out) => transferThen fd (.returned true out, [.close fd])

/-- The first `read_full`, and the check of the length. `read_full` of no bytes makes no call.
-/
def headerCalls (fd : Nat) : Bytes → Nat → List (Rv × Bytes) → Rpc × List SockCall
  | hdr, n, [] => (.header hdr n, [])
  | hdr, n, (rv, wire) :: rvs =>
    match (readFull rv wire hdr n).1 with
    | .again (hdr, n) => transferThen fd (headerCalls fd hdr n rvs)
    | .done none => transferThen fd (.returned false [], [.close fd])
    | .done (some hdr) =>
      if kMaxMsg < ofLe hdr then transferThen fd (.returned false [], [.close fd])
      else if ofLe hdr = 0 then transferThen fd (.returned true hdr, [.close fd])
      else transferThen fd (bodyCalls fd hdr (ofLe hdr) rvs)

def writeCalls (fd : Nat) : Bytes → List (Rv × Bytes) → Rpc × List SockCall
  | buf, [] => (.writing buf, [])
  | buf, (rv, _) :: rvs =>
    match (writeFull rv buf).1 with
    | .again buf => transferThen fd (writeCalls fd buf rvs)
    | .done false => transferThen fd (.returned false [], [.close fd])
    | .done true => transferThen fd (headerCalls fd [] 4 rvs)

/-- `tcp_rpc_raw`; the addresses are `none` when `getaddrinfo` fails. -/
def tcpRpcRawCalls (addresses : Option (List Attempt)) (request : Buffer) (rvs : List (Rv × Bytes)) :
    Rpc × List SockCall :=
  if request.length < 4 ∨ kMaxMsg < request.length - 4 then (.returned false [], [])
  else
    match addresses with
    | none => (.returned false [], [])
    | some addresses =>
      match connectLoop addresses with
      | (none, calls) => (.returned false [], calls)
      | (some fd, calls) =>
        let (rpc, later) := writeCalls fd request rvs
        (rpc, calls ++ later)

end ApexDB
