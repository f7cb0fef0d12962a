import ApexDB.Spec.RefStore
import ApexDB.ThreadPool

/-!
# `PooledStore.lean` — the store with the threads of its pool

`KvStore.lean` takes the pool to be a list of works and a call of the store to be one step. Here
the pool is that of `ThreadPool.lean`, and **its workers come in between any two sections of a
call**: `execute` may queue one work after the other while it removes what is due, and workers
take them meanwhile. The owning thread is at one of the points `Pc`; what it does from one point
to the next ends with at most one `thread_pool_queue`, and before that it touches nothing that a
worker touches.

The store hands every large set over, and it is `thread_pool_queue` that runs the work at once
when there are no threads; so `threads` of the store is 1 here whatever the pool has, and its
`queue` only holds the work on the way to the pool. A step that is not possible now leaves
everything as it is; `none` is a fault.

`calls` and `replies` are not in the source: the calls that have returned, and what they wrote.
-/

set_option autoImplicit false

namespace ApexDB

open Lib

/-- Where the owning thread is. -/
inductive Pc where
  /-- Outside of the store. -/
  | idle
  /-- At the test of the loop at the head of `execute`. -/
  | expiring (now clk : Nat) (cmd : List Bytes)
  /-- In the loop of `process_timers`, after so many works; it was called by `execute` or by
  `on_timer`. -/
  | passing (now nworks : Nat) (caller : Option (Nat × List Bytes))
  /-- In `thread_pool_destroy`, or just after it. -/
  | destroying
  /-- After the destructor. -/
  | gone
  deriving DecidableEq

structure PooledStore where
  store : Store := { threads := 1 }
  pool : TheadPool EntryId
  pc : Pc := .idle
  calls : List StoreEvent := []
  replies : List Bytes := []

/-- One of the steps: the owning thread makes a call or goes on with it, a worker takes a step,
or one of them wakes up by itself. `woken` is what `pthread_cond_signal` unblocks, if the step
comes to it. -/
inductive PooledEvent where
  | execute (now clk : Nat) (cmd : List Bytes)
  | processTimers (now : Nat)
  | destroy
  | go (woken : List Nat)
  | worker (i : Nat)
  | spurious (i : Nat)

namespace PooledStore

/-- `thread_pool_queue` of `entry_del_func`. A signal that leaves all asleep is none; then all
are unblocked. -/
def queueWork (woken : List Nat) (c : PooledStore) (e : EntryId) : Option PooledStore := do
  let woken := if signals woken c.pool.threads then woken else List.range c.pool.threads.length
  let pool ← threadPoolQueue c.pool e woken
  let store ← (if pool.threads.isEmpty then entryDelSync c.store e else some c.store)
  return { c with store := store, pool := pool }

/-- What the owning thread did to the store, and the work that it hands over. -/
def handOver (woken : List Nat) (c : PooledStore) (st : Store) : Option PooledStore :=
  st.queue.foldlM (queueWork woken) { c with store := { st with queue := [] } }

def done (c : PooledStore) (call : StoreEvent) (reply : Bytes) : PooledStore :=
  { c with pc := .idle, calls := c.calls ++ [call], replies := c.replies ++ [reply] }

/-- `process_timers` returns to its caller: to the loop of `execute`, which tests the heap
again, or to `on_timer`, which is the end of that call. -/
def passed (c : PooledStore) (now : Nat) (caller : Option (Nat × List Bytes)) : PooledStore :=
  match caller with
  | some (clk, cmd) => { c with pc := .expiring now clk cmd }
  | none => c.done (.processTimers now now) []

/-- The owning thread, up to the end of the next section under the mutex. -/
def go (strtod : Bytes → StrtodResult) (woken : List Nat) (c : PooledStore) : Option PooledStore :=
  match c.pc with
  | .expiring now clk cmd =>
    if c.store.heap.head?.any fun item => decide (item.val ≤ now) then
      some { c with pc := .passing now 0 (some (clk, cmd)) }
    else do
      let (st, out) ← runCommand strtod clk c.store [] (dispatch cmd)
      let c ← handOver woken c st
      return c.done (.execute now clk cmd) out
  | .passing now nworks caller => do
    match ← processTimersTurn now (c.store, nworks) with
    | .again (st, nworks) => handOver woken { c with pc := .passing now nworks caller } st
    | .done st => do
      let c ← handOver woken c st
      return c.passed now caller
  | .destroying =>
    if c.pool.owner = .returned then do
      let st ← implDestroy [] c.store
      return { c with store := st, pc := .gone }
    else some ((threadPoolJoin c.pool).elim c fun pool => { c with pool := pool })
  | _ => some c

/-- One step of a worker. What it runs is `entry_del_sync`. -/
def worker (c : PooledStore) (i : Nat) : Option PooledStore :=
  match workerStep c.pool i with
  | none => some c
  | some pool => do
    let store ← (match c.pool.threads[i]? with
      | some (.running e) => entryDelSync c.store e
      | _ => some c.store)
    return { c with store := store, pool := pool }

def step (strtod : Bytes → StrtodResult) (c : PooledStore) : PooledEvent → Option PooledStore
  | .execute now clk cmd => if c.pc = .idle then some { c with pc := .expiring now clk cmd } else some c
  | .processTimers now => if c.pc = .idle then some { c with pc := .passing now 0 none } else some c
  | .destroy =>
    if c.pc = .idle then (threadPoolDestroy c.pool).map fun pool => { c with pool := pool, pc := .destroying }
    else some c
  | .go woken => c.go strtod woken
  | .worker i => c.worker i
  | .spurious i => some ((c.pool.step (.spurious i)).elim c fun pool => { c with pool := pool })

end PooledStore

end ApexDB
