import ApexDB.Zset
import ApexDB.Heap
import ApexDB.Protocol

/-!
# `KvStore.lean` — the store of `src/kv_store.cpp`

An `Entry` is reached from the hash map by key and, when it has a deadline, from the heap. The
entries are an arena; `heap_idx` is the column `refs` that the heap writes through.

**Time is an argument.** `execute` reads the clock once at the start (`now`) and at most once
more, when a command needs it (`clk`). Both are milliseconds in a `uint64_t`.

**The thread pool is a queue of addresses.** A large set is handed to it instead of being freed
on the spot; `work` is one worker taking the first of them, `workDone` any of them. With no
threads started the pool runs the work at once. The workers of a real pool run in between the
steps of a call as well; that is `PooledStore.lean`, which uses the functions of this file
unchanged.

`strtod` is the C library's and a parameter throughout: what is decided here is which of its
answers are accepted.

A function of `Impl` takes the store and returns it, and `none` is a fault: a dead entry that is
read, a position outside of the heap, an assertion that fails, a loop that does not end. A reply
is appended to a buffer, as in the source, and so are the texts of the errors.
-/

set_option autoImplicit false

namespace ApexDB

open Lib

/-- `T_STR` and `T_ZSET`. -/
inductive EntryType where
  | str
  | zset
  deriving DecidableEq, Repr

/-- `Entry`, without the intrusive node and `heap_idx`, which are in the hash map and in
`HeapRefs`. -/
structure Entry where
  key : Bytes
  type : EntryType
  str : Bytes := []
  zset : ZSet := {}

/-- `KVStore::Impl`: the map, the heap with the positions it has written back, the entries, and
the pool. -/
structure Store where
  db : HMap EntryId := {}
  heap : List HeapItem := []
  refs : HeapRefs := ⟨fun _ => none⟩
  ents : Arena Entry := .empty
  threads : Nat := 0
  queue : List EntryId := []

/-! ## 1. Numbers in text

`str2int` takes what `from_chars` takes and nothing behind it. `str2dbl` checks the same four
things that the source checks after `strtod`: that there is a text, that something was read,
that all of it was, and that it was in range; and a NaN is refused.
-/

def isDigit (b : UInt8) : Bool := 48 ≤ b.toNat && b.toNat ≤ 57

def digitsVal (ds : Bytes) : Nat := ds.foldl (fun n d => n * 10 + (d.toNat - 48)) 0

/-- `std::from_chars` on an `int64_t`: the value and how much was read, `none` on an error. A
minus sign is taken and a plus sign is not, and a number that does not fit is an error whatever
follows it. -/
def fromChars (s : Bytes) : Option (Int × Nat) :=
  let neg := s.head? = some 45
  let ds := (if neg then s.tail else s).takeWhile isDigit
  let v := digitsVal ds
  if ds.isEmpty then none
  else if neg then (if v ≤ 2 ^ 63 then some (-(v : Int), ds.length + 1) else none)
  else (if v < 2 ^ 63 then some ((v : Int), ds.length) else none)

def str2int (s : Bytes) : Option Int :=
  if s.isEmpty then none
  else
    match fromChars s with
    | some (v, n) => if n = s.length then some v else none
    | none => none

def toDecimal (n : Int) : Bytes :=
  let ds := (Nat.toDigits 10 n.natAbs).map fun c => UInt8.ofNat c.toNat
  if n < 0 then 45 :: ds else ds

/-- What `strtod` reports: the number (`none` for a NaN), how much it read, and `ERANGE`. -/
structure StrtodResult where
  value : Option Dbl
  consumed : Nat
  erange : Bool

/-- `str2dbl`. `strtod` sees the string up to its first zero byte. -/
def str2dbl (strtod : Bytes → StrtodResult) (s : Bytes) : Option Dbl :=
  let r := strtod (s.takeWhile (· ≠ 0))
  if !s.isEmpty && r.consumed ≠ 0 && r.consumed = s.length && !r.erange then r.value else none

/-! ## 2. Deadlines

An entry has a deadline exactly if its `heap_idx` is a position of the heap, and a deadline is
removed by moving the last item into its place and repairing the heap from there.
-/

/-- `heap_delete`: the last item takes the place of the one that goes. When it is the last one
that goes there is nothing to repair. -/
def heapDelete (st : Store) (pos : Nat) : Option Store := do
  let back ← st.heap.getLast?
  if st.heap.length ≤ pos then none
  let heap := (st.heap.set pos back).dropLast
  if pos < heap.length then
    let (heap, refs) ← heapUpdate heap st.refs pos heap.length
    return { st with heap := heap, refs := refs }
  else return { st with heap := heap }

/-- `heap_upsert`: a position past the end, `(size_t)-1` included, appends. -/
def heapUpsert (st : Store) (pos : Option Nat) (t : HeapItem) : Option Store := do
  let (heap, pos) :=
    (match pos with
    | some p => if p < st.heap.length then (st.heap.set p t, p) else (st.heap ++ [t], st.heap.length)
    | none => (st.heap ++ [t], st.heap.length))
  let (heap, refs) ← heapUpdate heap st.refs pos heap.length
  return { st with heap := heap, refs := refs }

/-- `entry_set_ttl`. A negative time removes the deadline if there is one, any other sets it.
The sum is one of `uint64_t` and may wrap. -/
def entrySetTtl (clk : Nat) (st : Store) (ent : EntryId) (ttl : Int) : Option Store :=
  if ttl < 0 ∧ (st.refs ent).isSome then do
    let st ← heapDelete st ((st.refs ent).getD 0)
    return { st with refs := st.refs.set ent none }
  else if 0 ≤ ttl then
    heapUpsert st (st.refs ent) { val := (clk + ttl.toNat) % 2 ^ 64, ref := ent }
  else some st

/-! ## 3. Entries

`entry_del` is the one way out for an entry that has left the map: the deadline goes first, so
that the heap does not keep a pointer into it, and then the entry is disposed of here or by the
pool.
-/

/-- `entry_new`, together with the assignments to `key`, and `heap_idx` of a new entry. -/
def entryNew (st : Store) (ent : Entry) : Store × EntryId :=
  let (ents, e) := st.ents.alloc ent
  ({ st with ents := ents, refs := st.refs.set e none }, e)

/-- `entry_del_sync`. The entry is freed as `zset_clear` has left it, so that the arena of the
entries remembers which nodes of its set were freed. -/
def entryDelSync (st : Store) (e : EntryId) : Option Store := do
  let ent ← st.ents.read e
  let zset ← (if ent.type = .zset then zsetClear ent.zset else some ent.zset)
  let ents ← st.ents.write e { ent with zset := zset }
  let ents ← ents.free e
  return { st with ents := ents }

def kLargeContainerSize : Nat := 1000

/-- `entry_del`, with `thread_pool_queue`. A negative time to live needs no clock. -/
def entryDel (st : Store) (e : EntryId) : Option Store := do
  let st ← entrySetTtl 0 st e (-1)
  let ent ← st.ents.read e
  let setSize := if ent.type = .zset then hmSize ent.zset.hmap else 0
  if kLargeContainerSize < setSize ∧ 0 < st.threads then
    return { st with queue := st.queue ++ [e] }
  else entryDelSync st e

/-- One worker of the pool takes the first work, if there is one, and runs it. -/
def work (st : Store) : Option Store :=
  match st.queue with
  | [] => some st
  | e :: queue => entryDelSync { st with queue := queue } e

/-- `entry_eq`: a dead entry matches nothing. -/
def entryEq (ents : Arena Entry) (key : Bytes) (e : EntryId) : Bool :=
  match ents.read e with
  | none => false
  | some ent => ent.key == key

def dbLookup (st : Store) (key : Bytes) : Option (Store × Option EntryId) := do
  let (db, found) ← hmLookup st.db (strHash key) (entryEq st.ents key)
  return ({ st with db := db }, found)

def dbDelete (st : Store) (key : Bytes) : Option (Store × Option EntryId) := do
  let (db, found) ← hmDelete st.db (strHash key) (entryEq st.ents key)
  return ({ st with db := db }, found)

/-- A new entry, put into the map. -/
def dbInsert (st : Store) (ent : Entry) : Option (Store × EntryId) := do
  let (st, e) := entryNew st ent
  let db ← hmInsert st.db { hcode := strHash ent.key, owner := e }
  return ({ st with db := db }, e)

/-! ## 4. Commands on strings and keys

Most of these are one lookup and what follows from it. A command that needs a string and finds a
set answers with an error and changes nothing.
-/

def doGet (st : Store) (key : Bytes) (out : Buffer) : Option (Store × Buffer) := do
  match ← dbLookup st key with
  | (st, none) => return (st, outNil out)
  | (st, some e) =>
    let ent ← st.ents.read e
    if ent.type ≠ .str then return (st, outErr out .badTyp (bytes "not a string value"))
    else return (st, outStr out ent.str)

/-- `do_set`. A string that is there is overwritten in place and loses its deadline. -/
def doSet (st : Store) (key val : Bytes) (out : Buffer) : Option (Store × Buffer) := do
  match ← dbLookup st key with
  | (st, some e) =>
    let ent ← st.ents.read e
    if ent.type ≠ .str then return (st, outErr out .badTyp (bytes "a non-string value exists"))
    else
      let ents ← st.ents.write e { ent with str := val }
      let st ← entrySetTtl 0 { st with ents := ents } e (-1)
      return (st, outStr out (bytes "OK"))
  | (st, none) =>
    let (st, e) ← dbInsert st { key := key, type := .str, str := val }
    let st ← entrySetTtl 0 st e (-1)
    return (st, outStr out (bytes "OK"))

def doDel (st : Store) (key : Bytes) (out : Buffer) : Option (Store × Buffer) := do
  match ← dbDelete st key with
  | (st, none) => return (st, outInt out 0)
  | (st, some e) => return (← entryDel st e, outInt out 1)

/-- `do_expire`. A time that is not positive deletes the key at once, by the same way as
`do_del`. -/
def doExpire (clk : Nat) (st : Store) (key arg : Bytes) (out : Buffer) : Option (Store × Buffer) :=
  match str2int arg with
  | none => some (st, outErr out .badArg (bytes "expect int64"))
  | some ttl => do
    match ← dbLookup st key with
    | (st, none) => return (st, outInt out 0)
    | (st, some e) =>
      if ttl ≤ 0 then
        let (st, _) ← dbDelete st key
        return (← entryDel st e, outInt out 1)
      else return (← entrySetTtl clk st e ttl, outInt out 1)

/-- `do_ttl`: -2 without the key, -1 without a deadline, and otherwise what is left of the time,
at least 0. -/
def doTtl (clk : Nat) (st : Store) (key : Bytes) (out : Buffer) : Option (Store × Buffer) := do
  match ← dbLookup st key with
  | (st, none) => return (st, outInt out (-2))
  | (st, some e) =>
    match st.refs e with
    | none => return (st, outInt out (-1))
    | some idx =>
      let item ← st.heap[idx]?
      return (st, outInt out (if clk < item.val then (item.val - clk : Nat) else 0))

/-- `cb_keys`; the buffer is lost on a read of a dead entry. -/
def cbKeys (ents : Arena Entry) (out : Option Buffer) (e : EntryId) : Option Buffer × Bool :=
  (do
    let out ← out
    let ent ← ents.read e
    return outStr out ent.key, true)

def doKeys (st : Store) (out : Buffer) : Option (Store × Buffer) := do
  let out ← (← hmForeach st.db (cbKeys st.ents) (some (outArr out (hmSize st.db))))
  return (st, out)

def typeName (ent : Option Entry) : Bytes :=
  match ent with
  | none => bytes "none"
  | some ent => if ent.type = .str then bytes "string" else bytes "zset"

def doExists (st : Store) (key : Bytes) (out : Buffer) : Option (Store × Buffer) := do
  let (st, found) ← dbLookup st key
  return (st, outInt out (if found.isSome then 1 else 0))

def doType (st : Store) (key : Bytes) (out : Buffer) : Option (Store × Buffer) := do
  match ← dbLookup st key with
  | (st, none) => return (st, outStr out (typeName none))
  | (st, some e) => return (st, outStr out (typeName (some (← st.ents.read e))))

def doPersist (st : Store) (key : Bytes) (out : Buffer) : Option (Store × Buffer) := do
  match ← dbLookup st key with
  | (st, none) => return (st, outInt out 0)
  | (st, some e) =>
    if (st.refs e).isSome then return (← entrySetTtl 0 st e (-1), outInt out 1)
    else return (st, outInt out 0)

/-- The branch of `execute` for `incr`. The value is text and stays text; the deadline is not
touched. -/
def doIncr (st : Store) (key : Bytes) (out : Buffer) : Option (Store × Buffer) := do
  match ← dbLookup st key with
  | (st, some e) =>
    let ent ← st.ents.read e
    if ent.type ≠ .str then return (st, outErr out .badTyp (bytes "not a string value"))
    else
      match str2int ent.str with
      | none =>
        return (st, outErr out .badArg
          (bytes "value is not an integer or increment would overflow"))
      | some value =>
        if value = 2 ^ 63 - 1 then
          return (st, outErr out .badArg
            (bytes "value is not an integer or increment would overflow"))
        else
          let ents ← st.ents.write e { ent with str := toDecimal (value + 1) }
          return ({ st with ents := ents }, outInt out (value + 1))
  | (st, none) =>
    let (st, _) ← dbInsert st { key := key, type := .str, str := toDecimal 1 }
    return (st, outInt out 1)

/-! ## 5. Commands on sorted sets

`zadd` makes the set if there is none. The others look at the set through `expect_zset`, which
gives them an empty set for a key that is absent, so that they need no case for it.
-/

/-- `do_zadd`. The score is read before the key is looked up, so a bad one makes no set. -/
def doZadd (strtod : Bytes → StrtodResult) (st : Store) (key arg name : Bytes) (out : Buffer) :
    Option (Store × Buffer) :=
  match str2dbl strtod arg with
  | none => some (st, outErr out .badArg (bytes "expect float"))
  | some score => do
    let (st, found) ← dbLookup st key
    let (st, e) ←
      (match found with
      | some e => some (st, e)
      | none => dbInsert st { key := key, type := .zset })
    let ent ← st.ents.read e
    if ent.type ≠ .zset then return (st, outErr out .badTyp (bytes "expect zset"))
    else
      let (zset, added) ← zsetInsert ent.zset name score
      let ents ← st.ents.write e { ent with zset := zset }
      return ({ st with ents := ents }, outInt out (if added then 1 else 0))

/-- What `expect_zset` points at: nothing for a key that holds a string, the constant empty set
for a key that is not there, or the set of an entry. -/
inductive ZSetRef where
  | null
  | emptyZset
  | entry (e : EntryId) (ent : Entry)

/-- `expect_zset`: a set, the constant empty set for an absent key, or null for a string. -/
def expectZset (st : Store) (key : Bytes) : Option (Store × ZSetRef) := do
  match ← dbLookup st key with
  | (st, none) => return (st, .emptyZset)
  | (st, some e) =>
    let ent ← st.ents.read e
    return (st, if ent.type = .zset then .entry e ent else .null)

def ZSetRef.zset : ZSetRef → ZSet
  | .entry _ ent => ent.zset
  | _ => {}

/-- The set after the command. Nothing is ever stored through the pointer to the constant set.
-/
def ZSetRef.store (r : ZSetRef) (st : Store) (zset : ZSet) : Option Store :=
  match r with
  | .entry e ent => do
      let ents ← st.ents.write e { ent with zset := zset }
      return { st with ents := ents }
  | _ => some st

def doZrem (st : Store) (key name : Bytes) (out : Buffer) : Option (Store × Buffer) := do
  match ← expectZset st key with
  | (st, .null) => return (st, outErr out .badTyp (bytes "expect zset"))
  | (st, r) =>
    match ← zsetLookup r.zset name with
    | (zset, none) => return (← r.store st zset, outInt out 0)
    | (zset, some znode) => return (← r.store st (← zsetDelete zset znode), outInt out 1)

def doZscore (st : Store) (key name : Bytes) (out : Buffer) : Option (Store × Buffer) := do
  match ← expectZset st key with
  | (st, .null) => return (st, outErr out .badTyp (bytes "expect zset"))
  | (st, r) =>
    match ← zsetLookup r.zset name with
    | (zset, none) => return (← r.store st zset, outNil out)
    | (zset, some znode) => return (← r.store st zset, outDbl out (← zset.nodes.read znode).score)

/-- One turn of the loop of `do_zquery`; the state is `znode`, `n` and the buffer. -/
def zqueryTurn (zset : ZSet) (limit : Int) (s : Option NodeId × Int × Buffer) :
    Option (Turn (Option NodeId × Int × Buffer) (Int × Buffer)) :=
  match s with
  | (none, n, out) => some (.done (n, out))
  | (some node, n, out) =>
    if n < limit then do
      let znode ← zset.nodes.read node
      let out := outDbl (outStr out znode.name) znode.score
      return .again (← znodeOffset zset (some node) 1, n + 2, out)
    else some (.done (n, out))

/-- The tail of `do_zquery`: seek, skip, and list. The length of the array is patched in when
the members have been written. -/
def zqueryRange (zset : ZSet) (score : Dbl) (name : Bytes) (offset limit : Int) (out : Buffer) :
    Option Buffer := do
  let znode ← zsetSeekge zset score name
  let znode ← znodeOffset zset znode offset
  let (out, ctx) := outBeginArr out
  let (n, out) ← loop (zqueryTurn zset limit) (limit.toNat + 1) (znode, 0, out)
  outEndArr out ctx n.toNat

/-- `do_zquery`: the score is checked first, then the two integers, and all three before the key
is looked up. A limit that is not positive lists nothing. -/
def doZquery (strtod : Bytes → StrtodResult) (st : Store) (key arg name offArg limArg : Bytes)
    (out : Buffer) : Option (Store × Buffer) :=
  match str2dbl strtod arg with
  | none => some (st, outErr out .badArg (bytes "expect fp number"))
  | some score =>
    match str2int offArg, str2int limArg with
    | some offset, some limit => do
      match ← expectZset st key with
      | (st, .null) => return (st, outErr out .badTyp (bytes "expect zset"))
      | (st, r) =>
        if limit ≤ 0 then return (st, outArr out 0)
        else return (st, ← zqueryRange r.zset score name offset limit out)
    | _, _ => some (st, outErr out .badArg (bytes "expect int"))

/-! ## 6. Timers and `execute`

A request first removes what is due and then looks at its arguments. The loop that removes calls
`process_timers` as long as the root of the heap is due, since one call stops after so many
works; and the event loop calls it too, when a timer is up.
-/

def kMaxWorks : Nat := 2000

/-- One turn of the loop of `process_timers`, with its assertion; the state is the store and
`nworks`. The test of `nworks` comes after the work, so one call does up to `kMaxWorks + 1`. -/
def processTimersTurn (now : Nat) (s : Store × Nat) : Option (Turn (Store × Nat) Store) :=
  let (st, nworks) := s
  match st.heap.head? with
  | none => some (.done st)
  | some item =>
    if item.val ≤ now then do
      let ent ← st.ents.read item.ref
      let (db, found) ← hmDelete st.db (strHash ent.key) fun e => e == item.ref
      if found ≠ some item.ref then none
      let st ← entryDel { st with db := db } item.ref
      return if kMaxWorks ≤ nworks then .done st else .again (st, nworks + 1)
    else some (.done st)

def processTimers (now : Nat) (st : Store) : Option Store :=
  loop (processTimersTurn now) (st.heap.length + 1) (st, 0)

/-- `KVStore::next_timer_ms`. Only the root of the heap is looked at. -/
def nextTimerMs (now : Nat) (st : Store) : Nat :=
  let nextMs :=
    (match st.heap.head? with
    | some item => if item.val < 2 ^ 64 - 1 then item.val else 2 ^ 64 - 1
    | none => 2 ^ 64 - 1)
  msUntil now nextMs

def expireTurn (now : Nat) (st : Store) : Option (Turn Store Store) :=
  match st.heap.head? with
  | none => some (.done st)
  | some item => if item.val ≤ now then (processTimers now st).map .again else some (.done st)

/-- The loop at the head of `execute`. Every turn takes at least one item off the heap, so its
length is enough fuel. -/
def expire (now : Nat) (st : Store) : Option Store :=
  loop (expireTurn now) (st.heap.length + 1) st

/-- What a request asks for, after the tests of `execute` on its name and its number of strings.
What none of them accepts is `unknown`. -/
inductive Command where
  | ping (arg : Option Bytes)
  | exists (key : Bytes)
  | type (key : Bytes)
  | persist (key : Bytes)
  | incr (key : Bytes)
  | get (key : Bytes)
  | set (key val : Bytes)
  | del (key : Bytes)
  | pexpire (key arg : Bytes)
  | pttl (key : Bytes)
  | keys
  | zadd (key arg name : Bytes)
  | zrem (key name : Bytes)
  | zscore (key name : Bytes)
  | zquery (key arg name offset limit : Bytes)
  | unknown
  deriving DecidableEq, Repr

/-- `cmd[i]`; every use is behind a test of the size. -/
def argAt (cmd : List Bytes) (i : Nat) : Bytes := cmd.getD i []

/-- The tests of `execute`, in their order. -/
def dispatch (cmd : List Bytes) : Command :=
  let size := cmd.length
  let name := argAt cmd 0
  if (size = 1 ∨ size = 2) ∧ name = bytes "ping" then
    .ping (if size = 2 then some (argAt cmd 1) else none)
  else if size = 2 ∧ name = bytes "exists" then .exists (argAt cmd 1)
  else if size = 2 ∧ name = bytes "type" then .type (argAt cmd 1)
  else if size = 2 ∧ name = bytes "persist" then .persist (argAt cmd 1)
  else if size = 2 ∧ name = bytes "incr" then .incr (argAt cmd 1)
  else if size = 2 ∧ name = bytes "get" then .get (argAt cmd 1)
  else if size = 3 ∧ name = bytes "set" then .set (argAt cmd 1) (argAt cmd 2)
  else if size = 2 ∧ name = bytes "del" then .del (argAt cmd 1)
  else if size = 3 ∧ name = bytes "pexpire" then .pexpire (argAt cmd 1) (argAt cmd 2)
  else if size = 2 ∧ name = bytes "pttl" then .pttl (argAt cmd 1)
  else if size = 1 ∧ name = bytes "keys" then .keys
  else if size = 4 ∧ name = bytes "zadd" then .zadd (argAt cmd 1) (argAt cmd 2) (argAt cmd 3)
  else if size = 3 ∧ name = bytes "zrem" then .zrem (argAt cmd 1) (argAt cmd 2)
  else if size = 3 ∧ name = bytes "zscore" then .zscore (argAt cmd 1) (argAt cmd 2)
  else if size = 6 ∧ name = bytes "zquery" then
    .zquery (argAt cmd 1) (argAt cmd 2) (argAt cmd 3) (argAt cmd 4) (argAt cmd 5)
  else .unknown

/-- The branches of `execute`, on what the tests have found. -/
def runCommand (strtod : Bytes → StrtodResult) (clk : Nat) (st : Store) (out : Buffer) :
    Command → Option (Store × Buffer)
  | .ping arg => some (st, outStr out (arg.getD (bytes "PONG")))
  | .exists key => doExists st key out
  | .type key => doType st key out
  | .persist key => doPersist st key out
  | .incr key => doIncr st key out
  | .get key => doGet st key out
  | .set key val => doSet st key val out
  | .del key => doDel st key out
  | .pexpire key arg => doExpire clk st key arg out
  | .pttl key => doTtl clk st key out
  | .keys => doKeys st out
  | .zadd key arg name => doZadd strtod st key arg name out
  | .zrem key name => doZrem st key name out
  | .zscore key name => doZscore st key name out
  | .zquery key arg name offset limit => doZquery strtod st key arg name offset limit out
  | .unknown => some (st, outErr out .unknown (bytes "unknown command."))

def execute (strtod : Bytes → StrtodResult) (now clk : Nat) (cmd : List Bytes) (st : Store)
    (out : Buffer) : Option (Store × Buffer) := do
  let st ← expire now st
  runCommand strtod clk st out (dispatch cmd)

/-! ## 7. The pool's works and the destructor

The destructor waits for the pool, then walks over both tables and disposes of every entry on
the calling thread. The order in which the pool has finished its works is an argument.
-/

/-- A worker is done with this entry, if it was in the queue. With several workers any of the
works may be the next that is done. -/
def workDone (st : Store) (e : EntryId) : Option Store :=
  if e ∈ st.queue then entryDelSync { st with queue := st.queue.erase e } e else some st

/-- The inner loop of `~Impl`, along one chain; `next` is read before the entry is disposed of.
-/
def destroyChain (st : Store) (chain : List (HNode EntryId)) : Option Store :=
  (chain.map HNode.owner).foldlM entryDelSync st

def destroyTable (st : Store) (table : HTab EntryId) : Option Store :=
  match table.tab with
  | none => some st
  | some tab => (List.range (table.mask + 1)).foldlM (fun st i => do destroyChain st (← tab[i]?)) st

/-- `~Impl`. When `thread_pool_destroy` returns the works that were left are done, in some
order. -/
def implDestroy (order : List EntryId) (st : Store) : Option Store := do
  let st ← order.foldlM workDone st
  let st ← destroyTable st st.db.newer
  let st ← destroyTable st st.db.older
  return { st with db := hmClear st.db }

end ApexDB
