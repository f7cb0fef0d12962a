import ApexDB.History
import ApexDB.Sharding
import ApexDB.Spec.Frames
import ApexDB.Spec.Readings

/-!
# `Spec/Service.lean` — what a server is for

One reference store, asked by many connections, one request after the other. Of a server nothing
is left here but the order of its calls and the time that passes before each of them.

Two kinds of server are held against it. **A single node has one clock**, which `on_timer` reads
too. Behind a proxy **every shard has a clock of its own**, and a key is due when the clock of
the shard that owns it says so (`RefStore.purgeShard`). There is still one map: a command on a
key asks the owner of the key, `keys` asks all shards in turn, and everything else is answered
without asking. That the shards hold the map in parts is not said here.

What a sorted set is, is left open as in `RefStore.lean`.
-/

set_option autoImplicit false

namespace ApexDB

open Lib

variable {Z : Type}

/-! ## 1. One node

The waits are the durations of the model (`Tick.waits`), so the machine knows at each call what
the clock says. A call of `on_timer` brings its own reading, and the reference has then seen the
later of the two; a request whose reading is before that is not legal.
-/

/-- The reference, the last reading of the clock for a request, and for the requests to come how
long it is until `execute` reads the clock and until it reads it again. -/
structure ServiceState (Z : Type) where
  ref : RefState Z
  clock : Nat := 0
  waits : List (Nat × Nat) := []

def ServiceState.start (waits : List (Nat × Nat)) : ServiceState Z := { ref := ⟨∅, 0⟩, waits := waits }

def ServiceState.now (t : ServiceState Z) : Nat := t.clock + (t.waits.headD (0, 0)).1

def ServiceState.clk (t : ServiceState Z) : Nat := t.now + (t.waits.headD (0, 0)).2

/-- **The reference store as a service.** The clock does not go back, and stands where
`on_timer` has seen it. -/
def nodeService (R : Reading Z) (strtod : Bytes → StrtodResult) : Machine (ServiceState Z) LoopCall Bytes where
  next t
    | .request _ cmd =>
      { ref := ⟨(refCommand R strtod t.clk (t.ref.map.purge t.now) (dispatch cmd)).1, t.clk⟩
        clock := t.clk
        waits := t.waits.tail }
    | .timer now => { t with ref := ⟨t.ref.map, max t.ref.clock now⟩ }
  pre t
    | .request _ _ => t.ref.clock ≤ t.now
    | .timer _ => True
  admits t
    | .request _ cmd, o => ∃ v : Value,
        (refCommand R strtod t.clk (t.ref.map.purge t.now) (dispatch cmd)).2.Admits v ∧ o = frameOf v.encode
    | .timer _, o => o = []

/-! ## 2. Many clocks

Here no call moves a clock but that of the shard which is asked, and the durations leave no way
for one to go back. That two clocks may disagree is the point: a key that is due at its shard is
gone, though another shard's clock says it is too early.
-/

/-- Shard `i` drops what is due by its clock; the keys of the others stay. -/
def RefStore.purgeShard (numShards i now : Nat) (m : RefStore Z) : RefStore Z :=
  ⟨m.entries.filter fun e => ¬(shardForKey e.1 numShards = i ∧ e.2.due now),
    Multiset.nodup_keys.mp (Multiset.nodup_of_le (Multiset.map_le_map (Multiset.filter_le _ _))
      (Multiset.nodup_keys.mpr m.nodupKeys))⟩

/-- One map, the last reading of the clock of every shard, and for the calls to come how long it
is until the shard reads its clock and until it reads it again. -/
structure SplitState (Z : Type) where
  map : RefStore Z
  clock : Nat → Nat := fun _ => 0
  waits : List (Nat × Nat) := []

def SplitState.start (waits : List (Nat × Nat)) : SplitState Z := { map := ∅, waits := waits }

def SplitState.now (t : SplitState Z) (i : Nat) : Nat := t.clock i + (t.waits.headD (0, 0)).1

/-- What it says when it is read for a deadline. -/
def SplitState.clk (t : SplitState Z) (i : Nat) : Nat := t.now i + (t.waits.headD (0, 0)).2

/-- Shard `i` is asked: it drops what is due by its clock, and the clock has been read. -/
def SplitState.ask (numShards : Nat) (t : SplitState Z) (i : Nat) : SplitState Z :=
  { map := t.map.purgeShard numShards i (t.now i)
    clock := Function.update t.clock i (t.clk i)
    waits := t.waits.tail }

/-- The shards that a command makes the proxy ask, in their order. -/
def shardsAsked (numShards : Nat) (cmd : List Bytes) : List Nat :=
  if isScatterGatherCommand cmd then List.range numShards
  else ((routingKeyForCommand cmd).map (shardForKey · numShards)).toList

def SplitState.asked (numShards : Nat) (t : SplitState Z) (cmd : List Bytes) : SplitState Z :=
  (shardsAsked numShards cmd).foldl (SplitState.ask numShards) t

/-- **What a command does and answers**, once they have been asked. A deadline is counted from
the clock of the shard that owns the key. -/
def SplitState.command (R : Reading Z) (strtod : Bytes → StrtodResult) (numShards : Nat) (t : SplitState Z)
    (cmd : List Bytes) : RefStore Z × Expected :=
  let t' := t.asked numShards cmd
  refCommand R strtod (t'.clock ((shardsAsked numShards cmd).headD 0)) t'.map (dispatch cmd)

end ApexDB
