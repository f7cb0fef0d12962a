import Mathlib.Data.Multiset.Sort
import ApexDB.Spec.ZTree
import ApexDB.Spec.RefStore

/-!
# `Spec/Readings.lean` — what sorted sets are taken to be

`treeReading` is the finest: a set is its tree, with the 32-bit counters, and every reply is
decided.

`mapReading` is what a user of the store has in mind: a finite map from members to scores, and a
range query is a slice of the members in order. Its queries are given for sets below `2 ^ 32`
members, where the counters are exact; a score equal to the stored one changes nothing, which
only `0.0` and `-0.0` can tell; and a deadline is a sum of `uint64_t`.

`naiveReading` leaves these three provisos out. The store does not follow it, and
`Proof/StoreLimits.lean` has a run for each of the three on which it does not; so each proviso
is there for a reason.
-/

set_option autoImplicit false

namespace ApexDB

open Lib

/-- The deadline as `entry_set_ttl` adds it up. -/
def wrapDeadline (clk ttl : Nat) : Nat := (clk + ttl) % 2 ^ 64

/-- **A set is its tree.** -/
def treeReading : Reading ZTree where
  empty := .nil
  score t name := (t.find name).map ZNode.score
  add := ZTree.add
  erase := ZTree.erase
  query := ZTree.query
  exact _ := True
  deadline := wrapDeadline

abbrev Members := Finmap fun _ : Bytes => Dbl

noncomputable def Members.sorted (z : Members) : List ZNode :=
  (z.entries.toList.map fun e => ⟨e.2, e.1⟩).mergeSort fun a b => decide (a.place ≤ b.place)

def Members.add (z : Members) (name : Bytes) (score : Dbl) : Members :=
  match z.lookup name with
  | none => z.insert name score
  | some old => if old.eq score then z else z.insert name score

/-- **A set is the scores of its members.** -/
noncomputable def mapReading : Reading Members where
  empty := ∅
  score z name := z.lookup name
  add := Members.add
  erase z name := z.erase name
  query z := rangeOf z.sorted
  exact z := z.keys.card < 2 ^ 32
  deadline := wrapDeadline

noncomputable def naiveReading : Reading Members where
  empty := ∅
  score z name := z.lookup name
  add z name score := z.insert name score
  erase z name := z.erase name
  query z := rangeOf z.sorted
  exact _ := True
  deadline clk ttl := clk + ttl

end ApexDB
