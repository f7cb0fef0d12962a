import ApexDB.Protocol

/-!
# `Sharding.lean` — which shard owns a key (`src/sharding.cpp`)

A key belongs to the shard that its hash is congruent to, so which shard that is depends on the
number of shards and on nothing else. The proxy and the shards compute it with the same two
functions: the proxy to send a command to its shard, a shard to refuse what is not its own.

**What a command's key is, is decided by its name alone.** A command of a known name has its key
in the second place, if there is one; any other command has none. The number of arguments is not
looked at, so a command that the store will not know is still sent to a shard.
-/

set_option autoImplicit false

namespace ApexDB

/-- `shard_for_key`. The hash is one of `uint32_t`, and there is no shard to name if there are
none. -/
def shardForKey (key : Bytes) (numShards : Nat) : Nat :=
  if numShards = 0 then 0 else strHash key % numShards

/-- The commands that name a string key or any key, in the order of the source. -/
def keyCommands : List Bytes :=
  [bytes "get", bytes "set", bytes "del", bytes "pexpire", bytes "pttl", bytes "exists",
    bytes "type", bytes "persist", bytes "incr"]

/-- The commands that name a sorted set. -/
def zsetCommands : List Bytes := [bytes "zadd", bytes "zrem", bytes "zscore", bytes "zquery"]

def routingKeyForCommand (cmd : List Bytes) : Option Bytes :=
  match cmd with
  | [] => none
  | op :: args => if op ∈ keyCommands ∨ op ∈ zsetCommands then args.head? else none

/-- `is_scatter_gather_command`: `keys`, which every shard answers for its part. -/
def isScatterGatherCommand (cmd : List Bytes) : Bool :=
  decide (cmd.length = 1 ∧ cmd.head? = some (bytes "keys"))

end ApexDB
