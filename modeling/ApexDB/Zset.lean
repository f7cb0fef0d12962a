import ApexDB.Lib.Arena
import ApexDB.Common
import ApexDB.Hashtable
import ApexDB.Avl

/-!
# `Zset.lean` — the sorted set of `src/zset.cpp`

A `ZNode` hangs in two structures at once: the hash map finds it by name, the tree keeps it by
score and name. In the source one allocation embeds both intrusive nodes; here its address is
the owner of the hash node and the name of the tree node, and a set carries its own columns: the
objects (`nodes`, where a freed one cannot be read), the tree fields (`tree`) and the map.

No function is ever given two sets, so nothing is lost by giving each its own addresses.

**Every access goes through the arena.** A comparison in the tree reads the score and the name
of the node that a link leads to, so a link to a freed node is a fault, however the tree looks;
and so is a second `free`.
-/

set_option autoImplicit false

namespace ApexDB

open Lib

/-- `ZNode`, without the two intrusive nodes; `len` is the length of `name`. -/
structure ZNode where
  score : Dbl
  name : Bytes
  deriving DecidableEq, Repr, Inhabited

/-- `ZSet`, with the memory of its nodes. -/
structure ZSet where
  root : Option NodeId := none
  hmap : HMap NodeId := {}
  nodes : Arena ZNode := .empty
  tree : AvlMem := ⟨fun _ => {}⟩

namespace ZSet

/-- More turns than any walk over this set can take: a node is passed at most twice, and no set
has more nodes than addresses. -/
def fuel (zset : ZSet) : Nat := 2 * zset.nodes.next + 2

end ZSet

/-! ## 1. Order and equality

The order is by score, then by name, byte by byte, and a name comes before its extensions. The
map compares names only.
-/

/-- `zless` on a node and a pair of score and name. -/
def zless (zl : ZNode) (score : Dbl) (name : Bytes) : Bool :=
  if !zl.score.eq score then zl.score.less score
  else
    let rv := memcmp zl.name name (min zl.name.length name.length)
    if rv ≠ 0 then decide (rv < 0)
    else decide (zl.name.length < name.length)

def zlessNode (zl zr : ZNode) : Bool := zless zl zr.score zr.name

/-- `hcmp`: a dead node matches nothing. -/
def hcmp (nodes : Arena ZNode) (name : Bytes) (node : NodeId) : Bool :=
  match nodes.read node with
  | none => false
  | some znode =>
    if znode.name.length ≠ name.length then false
    else decide (memcmp znode.name name znode.name.length = 0)

/-! ## 2. Lookup and insertion

A name that is there already is found by the map, and if its score changes the node is taken out
of the tree and put back in; its object and its place in the map stay. A new one is put into
both structures.
-/

def zsetLookup (zset : ZSet) (name : Bytes) : Option (ZSet × Option NodeId) :=
  if zset.root.isNone then some (zset, none)
  else do
    let (hmap, found) ← hmLookup zset.hmap (strHash name) (hcmp zset.nodes name)
    return ({ zset with hmap := hmap }, found)

/-- `*from`: `from` is `&zset->root`, or a link of the `parent` it goes with. -/
def derefFrom (zset : ZSet) : Option (NodeId × Side) → Option NodeId
  | none => zset.root
  | some (parent, side) => (zset.tree parent).link side

def treeInsertTurn (zset : ZSet) (znode : ZNode) (slot : Option (NodeId × Side)) :
    Option (Turn (Option (NodeId × Side)) (Option (NodeId × Side))) :=
  match derefFrom zset slot with
  | none => some (.done slot)
  | some parent => do
      let zparent ← zset.nodes.read parent
      return .again (some (parent, if zlessNode znode zparent then .left else .right))

/-- `*from = &node->tree; node->tree.parent = parent`. What is stored through `&zset->root` is
overwritten by the result of `avl_fix` right after. -/
def storeFrom (tree : AvlMem) (slot : Option (NodeId × Side)) (node : NodeId) : AvlMem :=
  match slot with
  | none => tree.setParent node none
  | some (parent, side) => (tree.setLink side parent (some node)).setParent node (some parent)

def treeInsert (zset : ZSet) (node : NodeId) : Option ZSet := do
  let znode ← zset.nodes.read node
  let slot ← loop (treeInsertTurn zset znode) zset.fuel none
  let (tree, root) ← avlFix zset.fuel (storeFrom zset.tree slot node) node
  return { zset with root := some root, tree := tree }

def znodeNew (zset : ZSet) (name : Bytes) (score : Dbl) : ZSet × NodeId :=
  let (nodes, node) := zset.nodes.alloc { score := score, name := name }
  ({ zset with nodes := nodes, tree := avlInit zset.tree node }, node)

/-- `zset_update`: an equal score changes nothing, not even the sign of a zero. -/
def zsetUpdate (zset : ZSet) (node : NodeId) (score : Dbl) : Option ZSet := do
  let znode ← zset.nodes.read node
  if znode.score.eq score then return zset
  else
    let (tree, root) ← avlDel zset.fuel zset.tree node
    let nodes ← zset.nodes.write node { znode with score := score }
    treeInsert { zset with root := root, tree := avlInit tree node, nodes := nodes } node

/-- `zset_insert`: true when the name was not there. -/
def zsetInsert (zset : ZSet) (name : Bytes) (score : Dbl) : Option (ZSet × Bool) := do
  match ← zsetLookup zset name with
  | (zset, some node) => return (← zsetUpdate zset node score, false)
  | (zset, none) =>
    let (zset, node) := znodeNew zset name score
    let hmap ← hmInsert zset.hmap { hcode := strHash name, owner := node }
    return (← treeInsert { zset with hmap := hmap } node, true)

/-! ## 3. Deletion

`zset_delete` takes the node out of the map by its name and code, out of the tree by its
address, and frees it. `zset_clear` frees the nodes along the tree and the map as a whole,
without looking anything up.
-/

/-- `zset_delete`, with its assertion. The hash code is the one `znode_new` stored. -/
def zsetDelete (zset : ZSet) (node : NodeId) : Option ZSet := do
  let znode ← zset.nodes.read node
  let (hmap, found) ← hmDelete zset.hmap (strHash znode.name) (hcmp zset.nodes znode.name)
  if found.isNone then none
  let (tree, root) ← avlDel zset.fuel zset.tree node
  let nodes ← zset.nodes.free node
  return { root := root, hmap := hmap, nodes := nodes, tree := tree }

/-- `tree_dispose`; the depth of the recursion is bounded by the fuel. -/
def treeDispose (tree : AvlMem) : Nat → Arena ZNode → Option NodeId → Option (Arena ZNode)
  | _, nodes, none => some nodes
  | 0, _, some _ => none
  | fuel + 1, nodes, some node => do
      let nodes ← treeDispose tree fuel nodes (tree node).left
      let nodes ← treeDispose tree fuel nodes (tree node).right
      nodes.free node

def zsetClear (zset : ZSet) : Option ZSet := do
  let nodes ← treeDispose zset.tree zset.fuel zset.nodes zset.root
  return { zset with hmap := hmClear zset.hmap, nodes := nodes, root := none }

/-! ## 4. Range queries

A query is a descent to the first member that is not below the pair, and then a walk by rank.
-/

/-- One turn of `zset_seekge`; the state is `node` and `found`. -/
def zsetSeekgeTurn (zset : ZSet) (score : Dbl) (name : Bytes)
    (s : Option NodeId × Option NodeId) :
    Option (Turn (Option NodeId × Option NodeId) (Option NodeId)) :=
  match s with
  | (none, found) => some (.done found)
  | (some node, found) => do
      let znode ← zset.nodes.read node
      if zless znode score name then return .again ((zset.tree node).right, found)
      else return .again ((zset.tree node).left, some node)

/-- `zset_seekge`: the first node not less than the pair. -/
def zsetSeekge (zset : ZSet) (score : Dbl) (name : Bytes) : Option (Option NodeId) :=
  loop (zsetSeekgeTurn zset score name) zset.fuel (zset.root, none)

def znodeOffset (zset : ZSet) (node : Option NodeId) (offset : Int) : Option (Option NodeId) :=
  match node with
  | none => some none
  | some node => avlOffset zset.fuel zset.tree node offset

end ApexDB
