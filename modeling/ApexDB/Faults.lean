import ApexDB.Cluster
import ApexDB.Spec.RefStore

/-!
# `Faults.lean` — a proxy whose remote calls may fail

`tcp_rpc` has a time limit, and it returns false when anything goes wrong. What the shard has
done by then, or does afterwards, the proxy does not know. A call may be **lost** before the
shard has all of it; the shard may have executed it and the answer is lost (**unanswered**); or
it may have all of it, and come to it only after the proxy has given up (**late**). The proxy
never sends anything twice.

The shards have other things to do in between: requests that are late, clients of their own,
timers and workers. `script` says what happens at every remote call to come. `waiting`, `log`
and `serial` are not in the source: the requests that a shard has not come to yet, what the
shards have done, in order, and the number of the request that the proxy is at.

These are the fates that `Proof/TcpRpc.lean` derives from the bytes on the wire: there a call is
a caller and a server that exchange pieces of frames, here it is one of four cases. When the
script is used up, every call is lost.
-/

set_option autoImplicit false

namespace ApexDB

open Lib

/-- A request of the proxy on its way: its number, the shard and the command. -/
structure Sent where
  serial : Nat
  shard : Nat
  cmd : List Bytes

/-- What a shard has done: for which request of the proxy, if for one, and the frame that it
answered. -/
structure Done where
  serial : Option Nat
  shard : Nat
  event : StoreEvent
  reply : Buffer := []

/-- What becomes of a remote call; `now` and `clk` are the readings of the clock where it is
executed. -/
inductive Fate where
  | lost
  | late
  | unanswered (now clk : Nat)
  | answered (now clk : Nat)

/-- What happens at the shards meanwhile. -/
inductive Meanwhile where
  /-- The shard of the request at this place among those that wait comes to it. -/
  | late (k now clk : Nat)
  /-- It never will. -/
  | forgotten (k : Nat)
  /-- A client of the shard itself. -/
  | direct (shard now clk : Nat) (cmd : List Bytes)
  | processTimers (shard now : Nat)
  | work (shard : Nat)

/-- The shards behind the proxy, and what may become of the calls to them. -/
structure Fabric where
  store : Nat → Store
  waiting : List Sent := []
  log : List Done := []
  serial : Nat := 0
  script : List (List Meanwhile × Fate) := []

namespace Fabric

variable (strtod : Bytes → StrtodResult) (numShards : Nat)

/-- A shard has a whole request. What it refuses does not reach its store. -/
def serve (serial : Option Nat) (shard now clk : Nat) (cmd : List Bytes) (s : Fabric) :
    Option (Fabric × Buffer) := do
  let (st, conn, more) ← tryOneRequest (shardOnRequest strtod shard numShards now clk) (s.store shard)
    { Conn.new with incoming := encodeRequest cmd }
  let log := if more && !rejects shard numShards cmd then
      s.log ++ [⟨serial, shard, .execute now clk cmd, conn.outgoing⟩]
    else s.log
  return ({ s with store := Function.update s.store shard st, log := log }, conn.outgoing)

def meanwhile (s : Fabric) : Meanwhile → Option Fabric
  | .late k now clk =>
    match s.waiting[k]? with
    | none => some s
    | some m => do
      let (s, _) ← serve strtod numShards (some m.serial) m.shard now clk m.cmd
        { s with waiting := s.waiting.eraseIdx k }
      return s
  | .forgotten k => some { s with waiting := s.waiting.eraseIdx k }
  | .direct shard now clk cmd => do
    let (s, _) ← serve strtod numShards none shard now clk cmd s
    return s
  | .processTimers i now => do
    let st ← processTimers now (s.store i)
    return { s with store := Function.update s.store i st, log := s.log ++ [⟨none, i, .processTimers now now, []⟩] }
  | .work i => do
    let st ← work (s.store i)
    return { s with store := Function.update s.store i st, log := s.log ++ [⟨none, i, .work, []⟩] }

/-- `tcp_rpc` to shard `i`: first what happens meanwhile, then the fate of this call. -/
def rpc (i : Nat) (s : Fabric) (cmd : List Bytes) : Option (Fabric × Option Buffer) :=
  match tcpRpc true cmd with
  | .writing _ => do
    let (before, fate) := s.script.headD ([], .lost)
    let s ← before.foldlM (meanwhile strtod numShards) { s with script := s.script.tail }
    match fate with
    | .lost => return (s, none)
    | .late => return ({ s with waiting := s.waiting ++ [⟨s.serial, i, cmd⟩] }, none)
    | .unanswered now clk => do
      let (s, _) ← serve strtod numShards (some s.serial) i now clk cmd s
      return (s, none)
    | .answered now clk => do
      let (s, framed) ← serve strtod numShards (some s.serial) i now clk cmd s
      return (s, some framed)
  | _ => some (s, none)

def onRequest : RequestHandler Fabric := fun s cmd out => do
  let (s, out) ← proxyOnRequest numShards (rpc strtod numShards) s cmd out
  return ({ s with serial := s.serial + 1 }, out)

def step (s : Fabric) (cmd : List Bytes) : Option (Fabric × Bytes) :=
  respond (onRequest strtod numShards) s cmd []

end Fabric

end ApexDB
