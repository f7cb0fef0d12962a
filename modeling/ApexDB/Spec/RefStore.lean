import Mathlib.Data.Finmap
import ApexDB.Lib.Run
import ApexDB.KvStore
import ApexDB.Spec.Value

/-!
# `Spec/RefStore.lean` — what the store is for

A finite map from keys to values with optional deadlines, and what every command does to it and
answers. Nothing here hashes, balances or sifts.

**What a sorted set is, is left open** (`Reading`). Two readings are used: the tree of members,
which knows everything a reply can depend on, and a finite map from members to scores. A reading
may leave range queries on some sets unspecified (`exact`), and says how a deadline is computed.

Answers are not always one value: `keys` lists the keys in some order. `Expected` says which
values are right.

This is the statement of what the store is for, and it was not translated from the source,
except for the texts of the errors, which are a part of the answers. A key that is due is not
there: when the store really removes it, and which thread frees it, cannot be seen.
-/

set_option autoImplicit false

namespace ApexDB

open Lib

/-- What the sorted sets and the deadlines are taken to be: the operations on a set, which range
queries are decided, and the sum of a clock and a time to live. -/
structure Reading (Z : Type) where
  empty : Z
  score : Z → Bytes → Option Dbl
  add : Z → Bytes → Dbl → Z
  erase : Z → Bytes → Z
  query : Z → Dbl → Bytes → Int → Int → List ZNode
  exact : Z → Prop
  deadline : Nat → Nat → Nat

inductive RefValue (Z : Type) where
  | str (s : Bytes)
  | zset (z : Z)

structure RefEntry (Z : Type) where
  value : RefValue Z
  deadline : Option Nat

abbrev RefStore (Z : Type) := Finmap fun _ : Bytes => RefEntry Z

/-- The right answers to a request: one value, a list of these keys in any order, or one value
provided that the reading is exact there. -/
inductive Expected where
  | value (v : Value)
  | keys (ks : Finset Bytes)
  | valueIf (p : Prop) (v : Value)

def Expected.Admits : Expected → Value → Prop
  | value v, o => o = v
  | keys ks, o => ∃ l : List Bytes, o = .arr (l.map .str) ∧ l.Nodup ∧ l.toFinset = ks
  | valueIf p v, o => (p → o = v) ∧ ∃ vs, o = .arr vs

/-- Members and scores, alternating, as a range query answers them. -/
def memberValues (zs : List ZNode) : List Value :=
  zs.flatMap fun z => [.str z.name, .dbl z.score.bits]

variable {Z : Type}

/-- Is the deadline over at this time? -/
def RefEntry.due (now : Nat) (e : RefEntry Z) : Bool :=
  match e.deadline with
  | none => false
  | some d => decide (d ≤ now)

def RefStore.filter (p : RefEntry Z → Bool) (m : RefStore Z) : RefStore Z :=
  ⟨m.entries.filter fun e => p e.2, Multiset.nodup_keys.mp (Multiset.nodup_of_le
    (Multiset.map_le_map (Multiset.filter_le _ _)) (Multiset.nodup_keys.mpr m.nodupKeys))⟩

/-- The entries not due at this time. A request sees the map after this, whatever the store has
still in memory. -/
def RefStore.purge (now : Nat) (m : RefStore Z) : RefStore Z := m.filter fun e => !e.due now

/-- The remaining time. -/
def remaining (clk deadline : Nat) : Int := if clk < deadline then (deadline - clk : Nat) else 0

def RefValue.typeName : RefValue Z → Bytes
  | .str _ => bytes "string"
  | .zset _ => bytes "zset"

section Commands

variable (R : Reading Z) (strtod : Bytes → StrtodResult) (clk : Nat) (m : RefStore Z)

/-- `incr` of a string that is a number below the largest; a key that is not there counts as 0.
The deadline stays. -/
def refIncr (key : Bytes) : RefStore Z × Expected :=
  match m.lookup key with
  | none => (m.insert key ⟨.str (toDecimal 1), none⟩, .value (.int 1))
  | some ⟨.zset _, _⟩ => (m, .value (.ofErr .badTyp "not a string value"))
  | some ⟨.str s, d⟩ =>
    match str2int s with
    | none => (m, .value (.ofErr .badArg "value is not an integer or increment would overflow"))
    | some v =>
      if v = 2 ^ 63 - 1 then
        (m, .value (.ofErr .badArg "value is not an integer or increment would overflow"))
      else (m.insert key ⟨.str (toDecimal (v + 1)), d⟩, .value (.int (v + 1)))

/-- `pexpire`: a time that is not positive deletes the key. -/
def refExpire (key arg : Bytes) : RefStore Z × Expected :=
  match str2int arg with
  | none => (m, .value (.ofErr .badArg "expect int64"))
  | some ttl =>
    match m.lookup key with
    | none => (m, .value (.int 0))
    | some e =>
      if ttl ≤ 0 then (m.erase key, .value (.int 1))
      else (m.insert key { e with deadline := some (R.deadline clk ttl.toNat) }, .value (.int 1))

def refZadd (key arg name : Bytes) : RefStore Z × Expected :=
  match str2dbl strtod arg with
  | none => (m, .value (.ofErr .badArg "expect float"))
  | some score =>
    match m.lookup key with
    | none => (m.insert key ⟨.zset (R.add R.empty name score), none⟩, .value (.int 1))
    | some ⟨.str _, _⟩ => (m, .value (.ofErr .badTyp "expect zset"))
    | some ⟨.zset z, d⟩ => (m.insert key ⟨.zset (R.add z name score), d⟩,
        .value (.int (if (R.score z name).isNone then 1 else 0)))

def refZrem (key name : Bytes) : RefStore Z × Expected :=
  match m.lookup key with
  | none => (m, .value (.int 0))
  | some ⟨.str _, _⟩ => (m, .value (.ofErr .badTyp "expect zset"))
  | some ⟨.zset z, d⟩ =>
    if (R.score z name).isSome then
      (m.insert key ⟨.zset (R.erase z name), d⟩, .value (.int 1))
    else (m, .value (.int 0))

/-- The set under a key for a reading command; `none` for a string. -/
def refZset (key : Bytes) : Option Z :=
  match m.lookup key with
  | none => some R.empty
  | some ⟨.str _, _⟩ => none
  | some ⟨.zset z, _⟩ => some z

def refZscore (key name : Bytes) : Expected :=
  match refZset R m key with
  | none => .value (.ofErr .badTyp "expect zset")
  | some z =>
    match R.score z name with
    | none => .value .nil
    | some s => .value (.dbl s.bits)

def refZquery (key arg name offArg limArg : Bytes) : Expected :=
  match str2dbl strtod arg with
  | none => .value (.ofErr .badArg "expect fp number")
  | some score =>
    match str2int offArg, str2int limArg with
    | some offset, some limit =>
      match refZset R m key with
      | none => .value (.ofErr .badTyp "expect zset")
      | some z =>
        if limit ≤ 0 then .value (.arr [])
        else .valueIf (R.exact z) (.arr (memberValues (R.query z score name offset limit)))
    | _, _ => .value (.ofErr .badArg "expect int")

/-- **What a command does and answers**, on a map from which what is due is gone. -/
def refCommand : Command → RefStore Z × Expected
  | .ping arg => (m, .value (.str (arg.getD (bytes "PONG"))))
  | .exists key => (m, .value (.int (if (m.lookup key).isSome then 1 else 0)))
  | .type key =>
    (m, .value (.str (match m.lookup key with
      | none => bytes "none"
      | some e => e.value.typeName)))
  | .persist key =>
    match m.lookup key with
    | some ⟨v, some _⟩ => (m.insert key ⟨v, none⟩, .value (.int 1))
    | _ => (m, .value (.int 0))
  | .incr key => refIncr m key
  | .get key =>
    (m, .value (match m.lookup key with
      | none => .nil
      | some ⟨.str s, _⟩ => .str s
      | some ⟨.zset _, _⟩ => .ofErr .badTyp "not a string value"))
  | .set key val =>
    match m.lookup key with
    | some ⟨.zset _, _⟩ => (m, .value (.ofErr .badTyp "a non-string value exists"))
    | _ => (m.insert key ⟨.str val, none⟩, .value (.str (bytes "OK")))
  | .del key => (m.erase key, .value (.int (if (m.lookup key).isSome then 1 else 0)))
  | .pexpire key arg => refExpire R clk m key arg
  | .pttl key =>
    (m, .value (.int (match m.lookup key with
      | none => -2
      | some ⟨_, none⟩ => -1
      | some ⟨_, some d⟩ => remaining clk d)))
  | .keys => (m, .keys m.keys)
  | .zadd key arg name => refZadd R strtod m key arg name
  | .zrem key name => refZrem R m key name
  | .zscore key name => (m, refZscore R m key name)
  | .zquery key arg name offset limit => (m, refZquery R strtod m key arg name offset limit)
  | .unknown => (m, .value (.ofErr .unknown "unknown command."))

end Commands

/-- The map, and the latest reading of the clock. The clock is kept for the proviso that it does
not go back, and no answer depends on it. -/
structure RefState (Z : Type) where
  map : RefStore Z
  clock : Nat

/-- What happens to a store: a request, a pass of the timers, or a worker of the pool at work.
-/
inductive StoreEvent where
  | execute (now clk : Nat) (cmd : List Bytes)
  | processTimers (now clk : Nat)
  | work

/-- **The reference store.** A request removes what is due and then acts; timers and workers are
not seen. The clock never goes back, and timers never look ahead of it. -/
def refMachine (R : Reading Z) (strtod : Bytes → StrtodResult) :
    Machine (RefState Z) StoreEvent Bytes where
  next s
    | .execute now clk cmd =>
      ⟨(refCommand R strtod clk (s.map.purge now) (dispatch cmd)).1, clk⟩
    | .processTimers _ clk => ⟨s.map, clk⟩
    | .work => s
  pre s
    | .execute now clk _ => s.clock ≤ now ∧ now ≤ clk
    | .processTimers now clk => s.clock ≤ clk ∧ now ≤ clk
    | .work => True
  admits s
    | .execute now clk cmd, o => ∃ v : Value, o = v.encode ∧
        (refCommand R strtod clk (s.map.purge now) (dispatch cmd)).2.Admits v
    | .processTimers _ _, o => o = []
    | .work, o => o = []

/-- The clock does not go back, from this reading on, and timers never look ahead of it. -/
def ClockFrom : Nat → List StoreEvent → Prop
  | _, [] => True
  | t, .execute now clk _ :: evs => (t ≤ now ∧ now ≤ clk) ∧ ClockFrom clk evs
  | t, .processTimers now clk :: evs => (t ≤ clk ∧ now ≤ clk) ∧ ClockFrom clk evs
  | t, .work :: evs => ClockFrom t evs

theorem ClockFrom.legal (R : Reading Z) (strtod : Bytes → StrtodResult) : ∀ {evs : List StoreEvent}
    {s : RefState Z}, ClockFrom s.clock evs → (refMachine R strtod).Legal s evs := by
  intro evs
  induction evs with
  | nil => intro s _; trivial
  | cons ev evs ih =>
    intro s h
    cases ev with
    | execute now clk cmd => exact ⟨h.1, ih h.2⟩
    | processTimers now clk => exact ⟨h.1, ih h.2⟩
    | work => exact ⟨trivial, ih h⟩

/-- One event on the store of the source; the output is what `execute` appends to the buffer. -/
def storeStep (strtod : Bytes → StrtodResult) (st : Store) : StoreEvent → Option (Store × Bytes)
  | .execute now clk cmd => execute strtod now clk cmd st []
  | .processTimers now _ => (processTimers now st).map fun st => (st, [])
  | .work => (work st).map fun st => (st, [])

end ApexDB
