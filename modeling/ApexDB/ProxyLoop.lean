import ApexDB.Cluster

/-!
# `ProxyLoop.lean` — the handler of `src/proxy.cpp` in the event loop

The proxy runs the event loop of `server_loop.cpp` around `on_request`, with no timer of its
own. Every `tcp_rpc` it makes arrives (`Cluster.lean`), and **a shard reads its own clock when
it is asked**: the shards are asked one after the other, so the parts of one `keys` are read at
different times, and nothing says that two shards agree on what the time is. A `ShardTick` comes
before each call: what the shard has done by itself since it was last asked, how long that is
ago on its clock, and how long it is until it reads the clock once more for a deadline. What a
shard does by itself is seen by nobody before it is asked again, so it is put there; the shards
that are not asked are left as they are.
-/

set_option autoImplicit false

namespace ApexDB

/-- What a shard does by itself: a pass of its timers, so many milliseconds before it is asked,
or a worker of its pool takes a job. -/
inductive ShardWork where
  | processTimers (early : Nat)
  | work

structure ShardTick where
  works : List ShardWork := []
  before : Nat := 0
  during : Nat := 0

/-- The shards behind a proxy, the last reading of the clock of each, and the ticks of the calls
to come. -/
structure ServedShards where
  shards : Shards
  clock : Nat → Nat := fun _ => 0
  ticks : List ShardTick := []

/-- A shard does something by itself; `now` is its next reading for a request. -/
def shardWork (now : Nat) (st : Store) : ShardWork → Option Store
  | .processTimers early => processTimers (now - early) st
  | .work => work st

/-- `tcp_rpc` to shard `i` in the event loop of the proxy. The next tick is used up: the shard
does what is in it, reads its clock, and answers as `intactRpc` says. -/
def servedRpc (strtod : Bytes → StrtodResult) (numShards i : Nat) (s : ServedShards) (cmd : List Bytes) :
    Option (ServedShards × Option Buffer) := do
  let tick := s.ticks.headD {}
  let now := s.clock i + tick.before
  let clk := now + tick.during
  let st ← tick.works.foldlM (shardWork now) (s.shards.store i)
  let (shards, framed) ← intactRpc strtod numShards now clk i
    { s.shards with store := Function.update s.shards.store i st } cmd
  return ({ shards := shards, clock := Function.update s.clock i clk, ticks := s.ticks.tail }, framed)

def proxiedOnRequest (strtod : Bytes → StrtodResult) (numShards : Nat) : RequestHandler ServedShards :=
  proxyOnRequest numShards (servedRpc strtod numShards)

/-- The proxy passes no `on_timer`. -/
def proxiedOnTimer (s : ServedShards) (_ : Nat) : Option ServedShards := some s

end ApexDB
