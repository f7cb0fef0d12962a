import ApexDB.Server
import ApexDB.TcpRpc
import ApexDB.Proxy

/-!
# `Cluster.lean` — a proxy over shards, beside a single store

`docker-compose.yml` starts three shards, each with its own number and the number of shards, and
lists them in that order at the proxy; here there are any number of them. A single store is
given the same requests at the same readings of the clock, so that the two replies can be
compared. Every store runs its timers and its workers when it likes.

Two systems in one state is how the comparison is made: an event is a request to both, or
something that one of the stores does by itself. The clock is common here, and every remote call
arrives. `ProxyLoop.lean` gives each shard its own clock, and `Faults.lean` lets the calls fail.
-/

set_option autoImplicit false

namespace ApexDB

/-- The stores of the shards, and the commands that were sent to them. -/
structure Shards where
  store : Nat → Store
  sent : List (Nat × List Bytes) := []

/-- `tcp_rpc` to shard `i` when nothing on the way fails: the request is received whole on a new
connection and what waits in `outgoing` comes back whole. -/
def intactRpc (strtod : Bytes → StrtodResult) (numShards now clk i : Nat) (s : Shards)
    (cmd : List Bytes) : Option (Shards × Option Buffer) :=
  match tcpRpc true cmd with
  | .writing request => do
    let (st, conn, _) ← tryOneRequest (shardOnRequest strtod i numShards now clk) (s.store i)
      { Conn.new with incoming := request }
    return ({ store := Function.update s.store i st, sent := s.sent ++ [(i, cmd)] },
      some conn.outgoing)
  | _ => some (s, none)

structure Cluster where
  single : Store
  shards : Shards

/-- One of the stores: a shard, or the single one. -/
def Cluster.store (c : Cluster) : Option Nat → Store
  | none => c.single
  | some i => c.shards.store i

def Cluster.update (c : Cluster) (st : Store) : Option Nat → Cluster
  | none => { c with single := st }
  | some i => { c with shards := { c.shards with store := Function.update c.shards.store i st } }

/-- A request to both, or something that a store does by itself. -/
inductive ClusterEvent where
  | request (now clk : Nat) (cmd : List Bytes)
  | processTimers (node : Option Nat) (now clk : Nat)
  | work (node : Option Nat)

/-- One event; to a request there are two responses, that of the single store and that of the
proxy. -/
def Cluster.step (strtod : Bytes → StrtodResult) (numShards : Nat) (c : Cluster) :
    ClusterEvent → Option (Cluster × Option (Bytes × Bytes))
  | .request now clk cmd => do
    let (single, reply) ← respond (serverOnRequest strtod now clk) c.single cmd []
    let (shards, reply') ←
      respond (proxyOnRequest numShards (intactRpc strtod numShards now clk)) c.shards cmd []
    return (⟨single, shards⟩, some (reply, reply'))
  | .processTimers node now _ => do
    let st ← processTimers now (c.store node)
    return (c.update st node, none)
  | .work node => do
    let st ← work (c.store node)
    return (c.update st node, none)

end ApexDB
