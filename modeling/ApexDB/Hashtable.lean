import ApexDB.Lib.Loop

/-!
# `Hashtable.lean` — the incrementally rehashed table of `src/hashtable.cpp`

An `HMap` is two chained tables. Inserts go to `newer`; once `newer` is full it becomes `older`
and every later call moves up to `kRehashingWork` nodes across, so a node may be found in
either.

**What is kept and what is not.** A chain of `next` pointers is the list of its nodes, so the
slot `HNode **from` that `h_lookup` hands to `h_detach` is a bucket index and a position in that
bucket. The object a node is embedded in (`container_of`) travels with the node as `owner`, and
the `eq` callback is applied to it. `tab` stays nullable and every access to it is checked, so
an index past `mask` or a walk over a null table is a fault (`none`), as is a failed `assert`.

Nothing is assumed of the callback, nor of the hash codes: two objects may be equal under
different codes, and `h_lookup` then misses one of them, as it does in the source. The functions
have the names of the source, in camel case; a constant keeps its `k`.
-/

set_option autoImplicit false

namespace ApexDB

open Lib

/-- `HNode`, together with the object that embeds it. -/
structure HNode (ι : Type) where
  hcode : Nat
  owner : ι
  deriving DecidableEq, Repr

/-- `HTab`: a null `tab` is `none`. -/
structure HTab (ι : Type) where
  tab : Option (List (List (HNode ι))) := none
  mask : Nat := 0
  size : Nat := 0
  deriving DecidableEq, Repr

/-- `HMap`, with the two tables and the first bucket of `older` not known to be empty. -/
structure HMap (ι : Type) where
  newer : HTab ι := {}
  older : HTab ι := {}
  migratePos : Nat := 0
  deriving DecidableEq, Repr

def kMaxLoadFactor : Nat := 8

def kRehashingWork : Nat := 128

variable {ι : Type}

/-! ## 1. One table

A table is an array of chains and a mask, one less than the number of chains. `size` is counted
by the functions and not recomputed, as in the source, so that it is a number that could be
wrong.
-/

/-- `h_init`: the assertion is the power-of-two test of the source. -/
def hInit (n : Nat) : Option (HTab ι) :=
  if 0 < n ∧ (n - 1) &&& n = 0 then
    some { tab := some (List.replicate n []), mask := n - 1, size := 0 }
  else none

/-- `h_insert`: push the node in front of its chain. -/
def hInsert (htab : HTab ι) (node : HNode ι) : Option (HTab ι) := do
  let tab ← htab.tab
  let pos := node.hcode &&& htab.mask
  let next ← tab[pos]?
  return { htab with tab := some (tab.set pos (node :: next)), size := htab.size + 1 }

/-- `h_lookup`: the slot that points at the first match, `some none` for a null answer. -/
def hLookup (htab : HTab ι) (hcode : Nat) (eq : ι → Bool) : Option (Option (Nat × Nat)) :=
  match htab.tab with
  | none => some none
  | some tab => do
      let pos := hcode &&& htab.mask
      let chain ← tab[pos]?
      return (chain.findIdx? fun cur => cur.hcode == hcode && eq cur.owner).map fun j => (pos, j)

/-- `h_detach`: unlink the node the slot points at. -/
def hDetach (htab : HTab ι) (slot : Nat × Nat) : Option (HTab ι × HNode ι) := do
  let tab ← htab.tab
  let chain ← tab[slot.1]?
  let node ← chain[slot.2]?
  return ({ htab with
    tab := some (tab.set slot.1 (chain.eraseIdx slot.2)), size := htab.size - 1 }, node)

/-- `*from`, read without unlinking. -/
def hDeref (htab : HTab ι) (slot : Nat × Nat) : Option (HNode ι) := do
  let tab ← htab.tab
  let chain ← tab[slot.1]?
  chain[slot.2]?

/-! ## 2. Moving nodes across

`hm_help_rehashing` is a part of every operation: a lookup and a deletion begin with it, and an
insertion ends with it. It takes nodes from the first chain of `older` that is not empty, each
to the front of its chain in `newer`, until it has moved 128 or `older` is empty; in the second
case it frees `older`. An empty chain costs a turn of the loop but no work.
-/

/-- One turn of the loop of `hm_help_rehashing`; the state is the map and `nwork`. An empty slot
is stepped over without counting as work. -/
def hmHelpRehashingTurn (s : HMap ι × Nat) : Option (Turn (HMap ι × Nat) (HMap ι)) :=
  let (hmap, nwork) := s
  if nwork < kRehashingWork ∧ 0 < hmap.older.size then do
    let tab ← hmap.older.tab
    let chain ← tab[hmap.migratePos]?
    if chain.isEmpty then
      -- an empty slot is skipped and does not count as work
      return .again ({ hmap with migratePos := hmap.migratePos + 1 }, nwork)
    else
      let (older, node) ← hDetach hmap.older (hmap.migratePos, 0)
      let newer ← hInsert hmap.newer node
      return .again ({ hmap with newer := newer, older := older }, nwork + 1)
  else some (.done hmap)

/-- `hm_help_rehashing`. The fuel is one turn for every slot and for every unit of work. -/
def hmHelpRehashing (hmap : HMap ι) : Option (HMap ι) := do
  let hmap ← loop hmHelpRehashingTurn (hmap.older.mask + 1 + kRehashingWork + 1) (hmap, 0)
  if hmap.older.size = 0 ∧ hmap.older.tab.isSome then
    return { hmap with older := {} }
  else return hmap

/-- `hm_trigger_rehashing`, with its assertion that the previous migration is over. -/
def hmTriggerRehashing (hmap : HMap ι) : Option (HMap ι) := do
  if hmap.older.tab.isSome then none
  let newer ← hInit ((hmap.newer.mask + 1) * 2)
  return { newer := newer, older := hmap.newer, migratePos := 0 }

/-! ## 3. The map

A lookup asks `newer` and then `older`. An insertion may start a migration after it has put the
node into `newer`, and moves the first nodes at once.
-/

def hmLookup (hmap : HMap ι) (hcode : Nat) (eq : ι → Bool) : Option (HMap ι × Option ι) := do
  let hmap ← hmHelpRehashing hmap
  match ← hLookup hmap.newer hcode eq with
  | some slot => return (hmap, some (← hDeref hmap.newer slot).owner)
  | none =>
    match ← hLookup hmap.older hcode eq with
    | some slot => return (hmap, some (← hDeref hmap.older slot).owner)
    | none => return (hmap, none)

def hmInsert (hmap : HMap ι) (node : HNode ι) : Option (HMap ι) := do
  let newer ← (if hmap.newer.tab.isNone then hInit 4 else some hmap.newer)
  let newer ← hInsert newer node
  let hmap := { hmap with newer := newer }
  let hmap ←
    (if hmap.older.tab.isNone ∧ (hmap.newer.mask + 1) * kMaxLoadFactor ≤ hmap.newer.size then
      hmTriggerRehashing hmap
    else some hmap)
  hmHelpRehashing hmap

def hmDelete (hmap : HMap ι) (hcode : Nat) (eq : ι → Bool) : Option (HMap ι × Option ι) := do
  let hmap ← hmHelpRehashing hmap
  match ← hLookup hmap.newer hcode eq with
  | some slot =>
    let (newer, node) ← hDetach hmap.newer slot
    return ({ hmap with newer := newer }, some node.owner)
  | none =>
    match ← hLookup hmap.older hcode eq with
    | some slot =>
      let (older, node) ← hDetach hmap.older slot
      return ({ hmap with older := older }, some node.owner)
    | none => return (hmap, none)

/-- `hm_clear`: both tables are freed and the map is value-initialised. -/
def hmClear (_hmap : HMap ι) : HMap ι := {}

def hmSize (hmap : HMap ι) : Nat := hmap.newer.size + hmap.older.size

/-! ## 4. Enumeration

The callback is a state-passing function; its Boolean says whether to go on.
-/

variable {α : Type}

def hForeachChain (f : α → ι → α × Bool) : α → List (HNode ι) → α × Bool
  | acc, [] => (acc, true)
  | acc, node :: rest =>
      match f acc node.owner with
      | (acc', true) => hForeachChain f acc' rest
      | (acc', false) => (acc', false)

/-- The outer loop of `h_foreach`, over the slot numbers still to visit. -/
def hForeachSlots (f : α → ι → α × Bool) (tab : List (List (HNode ι))) :
    List Nat → α → Option (α × Bool)
  | [], acc => some (acc, true)
  | i :: is, acc => do
      let chain ← tab[i]?
      match hForeachChain f acc chain with
      | (acc', true) => hForeachSlots f tab is acc'
      | (acc', false) => return (acc', false)

/-- `h_foreach`: a table of mask 0 is not walked at all. -/
def hForeach (htab : HTab ι) (f : α → ι → α × Bool) (acc : α) : Option (α × Bool) :=
  if htab.mask = 0 then some (acc, true)
  else do
    let tab ← htab.tab
    hForeachSlots f tab (List.range (htab.mask + 1)) acc

/-- `hm_foreach`: `older` is walked only if the walk of `newer` was not cut short. -/
def hmForeach (hmap : HMap ι) (f : α → ι → α × Bool) (acc : α) : Option α := do
  let (acc, more) ← hForeach hmap.newer f acc
  if more then
    let (acc, _) ← hForeach hmap.older f acc
    return acc
  else return acc

end ApexDB
