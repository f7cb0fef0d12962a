import ApexDB.Lib.Run
import ApexDB.Connect

/-!
# The sockets of a remote call

`tcp_rpc_raw` has seven places where it closes a socket, in a loop that may open several.
**Whatever the calls return, it holds at most one socket at a time, uses no other, and has
closed it when it returns**: its calls are accepted by `sockStep`, which knows the socket that
is open and whether it blocks. `connect` is called on a socket that does not block, so that the
time limit of `poll` holds; `send` and `read` on one that does, since they take `EAGAIN` for an
error.

The other half connects this to `TcpRpc.lean`: the `Bool` there is whether one of the addresses
works.
-/

set_option autoImplicit false

namespace ApexDB

open Lib

/-- The socket that is open, and whether it blocks. -/
abbrev Held := Option (Nat × Bool)

/-- The call is made on the socket that is open. -/
def onHeld (held : Held) (fd : Nat) (next : Bool → Option Held) : Option Held :=
  match held with
  | some (fd', blocking) => if fd = fd' then next blocking else none
  | none => none

/-- **What may be called when.** A call that this refuses is one on a socket that is not open,
on a second one beside it, or in the wrong mode. -/
def sockStep (held : Held) : SockCall → Option Held
  | .socket fd => if held.isNone then some (some (fd, true)) else none
  | .other fd => onHeld held fd fun blocking => some (some (fd, blocking))
  | .setNonblock fd => onHeld held fd fun _ => some (some (fd, false))
  | .connect fd => onHeld held fd fun blocking => if blocking then none else some (some (fd, false))
  | .restore fd => onHeld held fd fun _ => some (some (fd, true))
  | .transfer fd => onHeld held fd fun blocking => if blocking then some (some (fd, true)) else none
  | .close fd => onHeld held fd fun _ => some none

abbrev Accepted : Held → List SockCall → Held → Prop := Takes sockStep

theorem onHeld_self (fd : Nat) (blocking : Bool) (next : Bool → Option Held) :
    onHeld (some (fd, blocking)) fd next = next blocking := if_pos rfl

theorem accepted_open (fd : Nat) : Accepted none (openCalls fd) (some (fd, true)) := by
  simp [Accepted, Takes, openCalls, sockStep, onHeld_self]

theorem accepted_connect (a : Attempt) (fd : Nat) :
    Accepted (some (fd, true)) (a.connectCalls fd) (some (fd, false)) := by
  unfold Accepted Takes Attempt.connectCalls
  split
  · split
    · simp [sockStep, onHeld_self]
    · simp [sockStep, onHeld_self]
  · simp [sockStep, onHeld_self]

theorem accepted_restore (fd : Nat) : Accepted (some (fd, false)) [.restore fd] (some (fd, true)) := by
  simp [Accepted, Takes, sockStep, onHeld_self]

theorem accepted_close (fd : Nat) (blocking : Bool) : Accepted (some (fd, blocking)) [.close fd] none := by
  simp [Accepted, Takes, sockStep, onHeld_self]

theorem accepted_other_close (fd : Nat) (blocking : Bool) :
    Accepted (some (fd, blocking)) [.other fd, .close fd] none := by
  simp [Accepted, Takes, sockStep, onHeld_self]

/-! ## 1. Connecting

The addresses that `getaddrinfo` has returned are tried one after the other. Whatever fails for
one of them, its socket is closed before the next is opened.
-/

/-- The address works: every call for it succeeds. -/
def Attempt.works (a : Attempt) : Bool :=
  a.socket.isSome && a.getfl.isSome && a.setNonblock && a.connects && a.restore

/-- **The loop over the addresses** ends with the socket of the first that works, blocking, and
with no other. -/
theorem connectLoop_spec : ∀ addresses : List Attempt,
    Accepted none (connectLoop addresses).2 ((connectLoop addresses).1.map fun fd => (fd, true)) ∧
    (connectLoop addresses).1 = (addresses.find? Attempt.works).bind Attempt.socket := by
  intro addresses
  induction addresses with
  | nil => exact ⟨rfl, rfl⟩
  | cons a rest ih =>
    obtain ⟨hcalls, hfirst⟩ := ih
    rw [List.find?_cons]
    cases hsocket : a.socket with
    | none =>
      have hworks : a.works = false := by simp [Attempt.works, hsocket]
      simp only [connectLoop, hsocket, hworks]
      exact ⟨hcalls, hfirst⟩
    | some fd =>
      simp only [connectLoop, hsocket]
      split
      · rename_i hgetfl
        have hworks : a.works = false := by simp_all [Attempt.works]
        rw [hworks]
        exact ⟨((accepted_open fd).append (accepted_close fd true)).append hcalls, hfirst⟩
      split
      · rename_i hset
        have hworks : a.works = false := by simp_all [Attempt.works]
        rw [hworks]
        exact ⟨((accepted_open fd).append (accepted_other_close fd true)).append hcalls, hfirst⟩
      have htried := (accepted_open fd).append (accepted_connect a fd)
      split
      · rename_i hconnects
        have hworks : a.works = false := by simp_all [Attempt.works]
        rw [hworks]
        exact ⟨(htried.append (accepted_close fd false)).append hcalls, hfirst⟩
      split
      · rename_i hgetfl hset hconnects hrestore
        have hthere : a.getfl.isSome = true := by simpa [Option.isSome_iff_ne_none] using hgetfl
        have hworks : a.works = true := by simp_all [Attempt.works]
        rw [hworks]
        exact ⟨htried.append (accepted_restore fd), hsocket.symm⟩
      · rename_i hrestore
        have hworks : a.works = false := by simp_all [Attempt.works]
        rw [hworks]
        exact ⟨(htried.append (accepted_other_close fd false)).append hcalls, hfirst⟩

/-- There is a connection exactly if one of the addresses works: an address that does has a
socket. -/
theorem connectLoop_isSome (addresses : List Attempt) :
    (connectLoop addresses).1.isSome = addresses.any Attempt.works := by
  rw [(connectLoop_spec addresses).2]
  cases hfind : addresses.find? Attempt.works with
  | none =>
    rw [Option.bind_none, Option.isSome_none, eq_comm, List.any_eq_false]
    exact List.find?_eq_none.mp hfind
  | some a =>
    have hworks : a.works = true := List.find?_some hfind
    have hsocket : a.socket.isSome = true := by
      simp only [Attempt.works, Bool.and_eq_true] at hworks
      exact hworks.1.1.1.1
    rw [Option.bind_some, hsocket, eq_comm, List.any_eq_true]
    exact ⟨a, List.mem_of_find?_eq_some hfind, hworks⟩

/-! ## 2. The call

The three loops of the transfer, each of which may be left in the middle when the results of the
calls run out; the socket is then still open, and is the one that was connected.
-/

def Rpc.isReturned : Rpc → Bool
  | .returned _ _ => true
  | _ => false

/-- The machine of `TcpRpc.lean`, given the results of its calls one after the other, each with
what is on the wire then. -/
def rpcRun (rpc : Rpc) (rvs : List (Rv × Bytes)) : Rpc := rvs.foldl (fun rpc rv => (rpc.step rv.1 rv.2).1) rpc

theorem rpcRun_returned (result : Bool) (out : Buffer) :
    ∀ rvs : List (Rv × Bytes), rpcRun (.returned result out) rvs = .returned result out := by
  intro rvs
  induction rvs with
  | nil => rfl
  | cons rv rvs ih => exact ih

/-- What the functions of `Connect.lean` are to return: where the machine is, with the socket
open until it has returned and closed then. -/
def Orderly (fd : Nat) (rpc : Rpc) (res : Rpc × List SockCall) : Prop :=
  res.1 = rpc ∧ Accepted (some (fd, true)) res.2 (if rpc.isReturned then none else some (fd, true))

section Orderly

variable {fd : Nat} {rpc : Rpc} {res : Rpc × List SockCall}

theorem Orderly.transfer (h : Orderly fd rpc res) : Orderly fd rpc (transferThen fd res) := by
  have hstep : sockStep (some (fd, true)) (.transfer fd) = some (some (fd, true)) := by simp [sockStep, onHeld_self]
  exact ⟨h.1, Takes.cons hstep h.2⟩

/-- A call that is over closes its socket, and nothing follows. -/
theorem orderly_close (fd : Nat) (result : Bool) (out : Buffer) (rvs : List (Rv × Bytes)) :
    Orderly fd (rpcRun (.returned result out) rvs) (transferThen fd (.returned result out, [.close fd])) := by
  rw [rpcRun_returned]
  exact Orderly.transfer ⟨rfl, accepted_close fd true⟩

end Orderly

theorem bodyCalls_spec (fd : Nat) : ∀ (rvs : List (Rv × Bytes)) (out : Buffer) (n : Nat),
    Orderly fd (rpcRun (.body out n) rvs) (bodyCalls fd out n rvs) := by
  intro rvs
  induction rvs with
  | nil => exact fun out n => ⟨rfl, rfl⟩
  | cons rv rvs ih =>
    intro out n
    rw [rpcRun, List.foldl_cons, bodyCalls, Rpc.step]
    obtain ⟨turn, left⟩ := readFull rv.1 rv.2 out n
    cases turn with
    | again r => exact (ih r.1 r.2).transfer
    | done r =>
      cases r with
      | none => exact orderly_close fd _ _ rvs
      | some out => exact orderly_close fd _ _ rvs

theorem headerCalls_spec (fd : Nat) : ∀ (rvs : List (Rv × Bytes)) (hdr : Bytes) (n : Nat),
    Orderly fd (rpcRun (.header hdr n) rvs) (headerCalls fd hdr n rvs) := by
  intro rvs
  induction rvs with
  | nil => exact fun hdr n => ⟨rfl, rfl⟩
  | cons rv rvs ih =>
    intro hdr n
    rw [rpcRun, List.foldl_cons, headerCalls, Rpc.step]
    obtain ⟨turn, left⟩ := readFull rv.1 rv.2 hdr n
    cases turn with
    | again r => exact (ih r.1 r.2).transfer
    | done r =>
      cases r with
      | none => exact orderly_close fd _ _ rvs
      | some hdr =>
        dsimp only [Rpc.readBody]
        split
        · exact orderly_close fd _ _ rvs
        split
        · exact orderly_close fd _ _ rvs
        · exact (bodyCalls_spec fd rvs hdr (ofLe hdr)).transfer

/-- **From `write_full` on**, the socket is used until the call is over, and closed then. -/
theorem writeCalls_spec (fd : Nat) : ∀ (rvs : List (Rv × Bytes)) (buf : Bytes),
    Orderly fd (rpcRun (.writing buf) rvs) (writeCalls fd buf rvs) := by
  intro rvs
  induction rvs with
  | nil => exact fun buf => ⟨rfl, rfl⟩
  | cons rv rvs ih =>
    intro buf
    rw [rpcRun, List.foldl_cons, writeCalls, Rpc.step]
    obtain ⟨turn, sent⟩ := writeFull rv.1 buf
    cases turn with
    | again buf => exact (ih buf).transfer
    | done ok =>
      cases ok with
      | false => exact orderly_close fd _ _ rvs
      | true => exact (headerCalls_spec fd rvs [] 4).transfer

/-- **A remote call keeps its sockets in order.** Whatever `getaddrinfo`, `socket`, `connect`
and the other calls return: the calls of `tcp_rpc_raw` are accepted, so at most one socket is
open at a time, nothing is done with one that is closed, `connect` finds it non-blocking and
`send` and `read` find it blocking; and a socket is open after them exactly if the call is not
over. What it does with the data is what the machine of `TcpRpc.lean` does, which is connected
exactly if one of the addresses works. -/
theorem rpc_sockets (addresses : Option (List Attempt)) (request : Buffer) (rvs : List (Rv × Bytes)) :
    (tcpRpcRawCalls addresses request rvs).1 =
      rpcRun (tcpRpcRaw ((addresses.getD []).any Attempt.works) request) rvs ∧
    ∃ held, Accepted none (tcpRpcRawCalls addresses request rvs).2 held ∧
      (held = none ↔ (tcpRpcRawCalls addresses request rvs).1.isReturned = true) ∧
      ∀ fd blocking, held = some (fd, blocking) → blocking = true := by
  have hover : ∀ calls, Accepted none calls none → ∃ held, Accepted none calls held ∧
      (held = none ↔ (Rpc.returned false []).isReturned = true) ∧
      ∀ fd blocking, held = some (fd, blocking) → blocking = true :=
    fun calls h => ⟨none, h, ⟨fun _ => rfl, fun _ => rfl⟩, fun _ _ h => by cases h⟩
  have hlast : rpcRun (.returned false []) rvs = .returned false [] := rpcRun_returned false [] rvs
  unfold tcpRpcRawCalls tcpRpcRaw
  by_cases hsize : request.length < 4 ∨ kMaxMsg < request.length - 4
  · rw [if_pos hsize, if_pos hsize]
    exact ⟨hlast.symm, hover [] rfl⟩
  rw [if_neg hsize, if_neg hsize]
  cases addresses with
  | none => exact ⟨hlast.symm, hover [] rfl⟩
  | some addresses =>
    have hcalls := (connectLoop_spec addresses).1
    rw [Option.getD_some, ← connectLoop_isSome]
    dsimp only
    generalize connectLoop addresses = ended at hcalls ⊢
    obtain ⟨fd, calls⟩ := ended
    cases fd with
    | none => exact ⟨hlast.symm, hover calls hcalls⟩
    | some fd =>
      obtain ⟨hsame, hrest⟩ := writeCalls_spec fd rvs request
      refine ⟨hsame, _, hcalls.append hrest, ?_, ?_⟩
      · dsimp only
        rw [hsame]
        cases (rpcRun (.writing request) rvs).isReturned with
        | false => exact ⟨fun h => (by cases h), fun h => (by cases h)⟩
        | true => exact ⟨fun _ => rfl, fun _ => rfl⟩
      · intro fd' blocking h
        split at h
        · cases h
        · cases h
          rfl

end ApexDB
