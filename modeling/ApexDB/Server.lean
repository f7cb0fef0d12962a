import ApexDB.KvStore
import ApexDB.EventLoop
import ApexDB.Sharding

/-!
# `Server.lean` — the handlers of `src/server.cpp` and `src/shard_main.cpp`

Both programs run the event loop around one store. A shard first checks that it owns the key.

The store reads the clock on its own, and the pool works beside the loop. `ServedStore` is the
store as the event loop meets it: with the last reading, and with **how long it is until each
reading to come and which works are done by then**.

The ticks are durations and not times, so a clock that goes back cannot be written down; where a
theorem allows it to, it speaks of readings and has the hypothesis. Works are done before a
request and not during it: a worker does not touch what a command touches, which is what
`Proof/PooledStore.lean` is about.
-/

set_option autoImplicit false

namespace ApexDB

def serverOnRequest (strtod : Bytes → StrtodResult) (now clk : Nat) : RequestHandler Store :=
  fun store cmd out => execute strtod now clk cmd store out

/-- The ownership test of a shard: the command names a key of another shard. -/
def rejects (shardId numShards : Nat) (cmd : List Bytes) : Bool :=
  decide (1 < numShards) &&
    match routingKeyForCommand cmd with
    | none => false
    | some key => shardForKey key numShards != shardId

/-- `on_request` of a shard: a command for a key of another shard is answered with an error, and
does not reach the store. -/
def shardOnRequest (strtod : Bytes → StrtodResult) (shardId numShards now clk : Nat) :
    RequestHandler Store :=
  fun store cmd out =>
    if rejects shardId numShards cmd then
      some (store, outErr out .badArg (bytes "key does not belong to this shard"))
    else execute strtod now clk cmd store out

/-- What comes before a request: works that are done, the milliseconds until `execute` reads the
clock, and those until it reads it again. -/
structure Tick where
  works : List EntryId := []
  before : Nat := 0
  during : Nat := 0

/-- A store, its last reading of the clock, and the ticks to come; after these the clock stands
still. -/
structure ServedStore where
  store : Store
  clock : Nat := 0
  ticks : List Tick := []

inductive Program where
  | server
  | shard (shardId numShards : Nat)

def Program.onRequest (strtod : Bytes → StrtodResult) : Program → Nat → Nat → RequestHandler Store
  | .server => serverOnRequest strtod
  | .shard shardId numShards => shardOnRequest strtod shardId numShards

/-- `on_request` in the event loop. The next tick is used up, the works in it are done, and the
clock is read twice. -/
def servedOnRequest (strtod : Bytes → StrtodResult) (program : Program) : RequestHandler ServedStore :=
  fun s cmd out => do
    let tick := s.ticks.headD {}
    let now := s.clock + tick.before
    let clk := now + tick.during
    let store ← tick.works.foldlM workDone s.store
    let (store, out) ← program.onRequest strtod now clk store cmd out
    return ({ store := store, clock := clk, ticks := s.ticks.tail }, out)

def servedOnTimer (s : ServedStore) (now : Nat) : Option ServedStore := do
  return { s with store := ← processTimers now s.store }

def servedNextTimer (s : ServedStore) (now : Nat) : Nat := nextTimerMs now s.store

/-- `main` of both programs once `stopping` is set: `run_tcp_server` returns, and then the store
is destroyed. The works that are left are done in this order. -/
def programExit (order : List EntryId) (srv : Srv ServedStore) : Option (Srv ServedStore × Store) := do
  let srv ← stopServer srv
  let store ← implDestroy order srv.state.store
  return (srv, store)

end ApexDB
