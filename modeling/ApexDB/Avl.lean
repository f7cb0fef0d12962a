import ApexDB.Lib.AvlTree
import ApexDB.Lib.Loop

/-!
# `Avl.lean` — the intrusive AVL tree of `src/avl.cpp`

Nodes are addresses, and the tree *is* the memory: `AvlMem` gives every node its five fields,
and every function below takes a memory and returns the one it leaves behind. A null link is
`none`; following one is a fault, and so is a loop that does not end.

**`cnt` is a `uint32_t` and is kept as one.** Every sum that goes into it, and the `+ 1` that
`avl_offset` makes on the unsigned side before the conversion to `int64_t`, is reduced modulo `2
^ 32`. `height` is a `uint32_t` too, but a height of `2 ^ 32` needs more nodes than there are
addresses, so it is a plain number here.

`rot_left` and `rot_right` are the same text with left and right exchanged, and so are
`avl_fix_left` and `avl_fix_right`; each pair is one definition over a `Side`.

There is no tree in this file, only links that may or may not form one. What tree they form is
said in `Proof/Avl.lean`; a function here works on any memory, and on one that is no tree it
faults or runs out of turns, as the source would follow a wild pointer or not return.
-/

set_option autoImplicit false

namespace ApexDB

open Lib

/-- The address of a tree node. -/
abbrev NodeId := Nat

/-- `AVLNode`: the three links and the two numbers that are kept about the subtree. -/
structure AVLNode where
  parent : Option NodeId := none
  left : Option NodeId := none
  right : Option NodeId := none
  height : Nat := 0
  cnt : Nat := 0
  deriving DecidableEq, Repr

def AVLNode.link (v : AVLNode) : Side → Option NodeId
  | .left => v.left
  | .right => v.right

/-- The tree fields of every node. -/
structure AvlMem where
  cell : NodeId → AVLNode

instance : CoeFun AvlMem fun _ => NodeId → AVLNode := ⟨AvlMem.cell⟩

def u32 (n : Nat) : Nat := n % 2 ^ 32

namespace AvlMem

def set (m : AvlMem) (node : NodeId) (v : AVLNode) : AvlMem :=
  ⟨Function.update m.cell node v⟩

def setParent (m : AvlMem) (node : NodeId) (p : Option NodeId) : AvlMem :=
  m.set node { m node with parent := p }

def setLink (m : AvlMem) (s : Side) (node : NodeId) (p : Option NodeId) : AvlMem :=
  match s with
  | .left => m.set node { m node with left := p }
  | .right => m.set node { m node with right := p }

/-- `if (node) node->parent = p`. -/
def setParent? (m : AvlMem) (node : Option NodeId) (p : Option NodeId) : AvlMem :=
  match node with
  | none => m
  | some n => m.setParent n p

/-- `parent->left == node ? &parent->left : &parent->right`, as the side it picks. -/
def sideOf (m : AvlMem) (parent node : NodeId) : Side :=
  if (m parent).left = some node then .left else .right

end AvlMem

/-! ## 1. Fields

The setters are the assignments of the source. `setParent?` is one under an `if`, which the
source has wherever a link may be null. `avl_update` recomputes both numbers of a node from
those of its children.
-/

def avlInit (m : AvlMem) (node : NodeId) : AvlMem :=
  m.set node { height := 1, cnt := 1 }

/-- The height of a link; a null one has height 0. -/
def avlHeight (m : AvlMem) : Option NodeId → Nat
  | none => 0
  | some n => (m n).height

def avlCnt (m : AvlMem) : Option NodeId → Nat
  | none => 0
  | some n => (m n).cnt

def avlUpdate (m : AvlMem) (node : NodeId) : AvlMem :=
  m.set node { m node with
    height := 1 + max (avlHeight m (m node).left) (avlHeight m (m node).right)
    cnt := u32 (1 + avlCnt m (m node).left + avlCnt m (m node).right) }

/-! ## 2. Rotations

The source passes `AVLNode **from`, the address of the link that points at the node. Here that
is the side it is on, or nothing at the root; and since it is decided before the rotations and
stored through after them, `avlFixTurn` does the same in the same order.
-/

/-- The common text of `rot_left` and `rot_right`: `node` goes down on side `s`. -/
def rot (s : Side) (m : AvlMem) (node : NodeId) : Option (AvlMem × NodeId) := do
  let parent := (m node).parent
  let newNode ← (m node).link s.flip
  let inner := (m newNode).link s
  let m := m.setLink s.flip node inner
  let m := m.setParent? inner (some node)
  let m := m.setParent newNode parent
  let m := m.setLink s newNode (some node)
  let m := m.setParent node (some newNode)
  let m := avlUpdate m node
  let m := avlUpdate m newNode
  return (m, newNode)

def rotLeft : AvlMem → NodeId → Option (AvlMem × NodeId) := rot .left

def rotRight : AvlMem → NodeId → Option (AvlMem × NodeId) := rot .right

/-- The common text of `avl_fix_left` and `avl_fix_right`: side `s` of `node` is two higher. -/
def avlFixSide (s : Side) (m : AvlMem) (node : NodeId) : Option (AvlMem × NodeId) := do
  let child ← (m node).link s
  if avlHeight m ((m child).link s) < avlHeight m ((m child).link s.flip) then
    let (m, child') ← rot s m child
    rot s.flip (m.setLink s node (some child')) node
  else rot s.flip m node

/-- `avl_fix_left`: `rot_left` of the left child if need be, then `rot_right`. -/
def avlFixLeft : AvlMem → NodeId → Option (AvlMem × NodeId) := avlFixSide .left

/-- `avl_fix_right`: `rot_right` of the right child if need be, then `rot_left`. -/
def avlFixRight : AvlMem → NodeId → Option (AvlMem × NodeId) := avlFixSide .right

/-- The middle of the loop of `avl_fix`: bring `node` up to date and rotate it if it is out of
balance by two. The answer is what `*from` points at afterwards. -/
def avlFixNode (m : AvlMem) (node : NodeId) : Option (AvlMem × NodeId) :=
  let m := avlUpdate m node
  let l := avlHeight m (m node).left
  let r := avlHeight m (m node).right
  if l = r + 2 then avlFixLeft m node
  else if l + 2 = r then avlFixRight m node
  else some (m, node)

/-- One turn of the loop of `avl_fix`. Which link `from` is, is decided before the rotations; it
is stored through only after one, and a rotation never returns `node` itself. -/
def avlFixTurn (s : AvlMem × NodeId) : Option (Turn (AvlMem × NodeId) (AvlMem × NodeId)) := do
  let (m, node) := s
  let (m', sub) ← avlFixNode m node
  match (m node).parent with
  | none => return .done (m', sub)
  | some parent =>
    let side := m.sideOf parent node
    return .again (if sub = node then m' else m'.setLink side parent (some sub), parent)

/-- `avl_fix`: up to the root, returning it. Each turn brings the node up to date, rotates if it
is out of balance, and stores the top of its subtree through the link that led to it. -/
def avlFix (fuel : Nat) (m : AvlMem) (node : NodeId) : Option (AvlMem × NodeId) :=
  loop avlFixTurn fuel (m, node)

/-! ## 3. Deletion

With a child missing the other one moves up and the repair starts at the parent. With both, the
leftmost node of the right subtree is detached first, and then overwritten with all the fields
of the node that is to go; the repair has been done by then, on the tree without it.
-/

/-- `avl_del_easy`, with its assertion that one child is missing. The other child, if there is
one, takes the place of the node, and the ancestors are repaired. -/
def avlDelEasy (fuel : Nat) (m : AvlMem) (node : NodeId) : Option (AvlMem × Option NodeId) := do
  if (m node).left.isSome ∧ (m node).right.isSome then none
  let child := if (m node).left.isSome then (m node).left else (m node).right
  let parent := (m node).parent
  let m := m.setParent? child parent
  match parent with
  | none => return (m, child)
  | some p =>
    let (m, root) ← avlFix fuel (m.setLink (m.sideOf p node) p child) p
    return (m, some root)

/-- The loop of `avl_del` that looks for the successor: `while (victim->left) …`. -/
def avlLeftmostTurn (m : AvlMem) (victim : NodeId) : Option (Turn NodeId NodeId) :=
  match (m victim).left with
  | some l => some (.again l)
  | none => some (.done victim)

/-- The end of `avl_del`, from `*victim = *node` on: `victim` gets all the fields of `node`, and
the three links around it are moved over. -/
def avlTakeOver (m : AvlMem) (node victim : NodeId) (root : Option NodeId) :
    AvlMem × Option NodeId :=
  let m := m.set victim (m node)
  let m := m.setParent? (m victim).left (some victim)
  let m := m.setParent? (m victim).right (some victim)
  match (m node).parent with
  | none => (m, some victim)
  | some parent => (m.setLink (m.sideOf parent node) parent (some victim), root)

/-- `avl_del`: the new root, `none` for the empty tree. A node with two children is replaced by
its successor, which is taken out by the easy case and then gets all fields of the node. -/
def avlDel (fuel : Nat) (m : AvlMem) (node : NodeId) : Option (AvlMem × Option NodeId) :=
  match (m node).left, (m node).right with
  | some _, some right => do
      let victim ← loop (avlLeftmostTurn m) fuel right
      let (m, root) ← avlDelEasy fuel m victim
      return avlTakeOver m node victim root
  | _, _ => avlDelEasy fuel m node

/-! ## 4. Walking by rank

`avl_offset` is here twice. The first version computes with `Int`, which is what it computes if
nothing overflows. The second checks every expression against its type and faults where the
source would overflow; that it never does, for trees of fewer than `2 ^ 32` nodes, is a theorem
about both.
-/

def avlOffsetTurn (m : AvlMem) (offset : Int) (s : NodeId × Int) :
    Option (Turn (NodeId × Int) (Option NodeId)) :=
  let (node, pos) := s
  if offset = pos then some (.done (some node))
  else if pos < offset ∧ offset ≤ pos + avlCnt m (m node).right then do
    let node ← (m node).right
    return .again (node, pos + u32 (avlCnt m (m node).left + 1))
  else if offset < pos ∧ pos - avlCnt m (m node).left ≤ offset then do
    let node ← (m node).left
    return .again (node, pos - u32 (avlCnt m (m node).right + 1))
  else
    match (m node).parent with
    | none => some (.done none)
    | some parent =>
      if (m parent).right = some node then
        some (.again (parent, pos - u32 (avlCnt m (m node).left + 1)))
      else
        some (.again (parent, pos + u32 (avlCnt m (m node).right + 1)))

/-- `avl_offset`: `some none` is the null answer. -/
def avlOffset (fuel : Nat) (m : AvlMem) (node : NodeId) (offset : Int) : Option (Option NodeId) :=
  loop (avlOffsetTurn m offset) fuel (node, 0)

/-- An `int64_t` expression with this value; one that does not fit is a fault. -/
def i64? (n : Int) : Option Int := if -2 ^ 63 ≤ n ∧ n < 2 ^ 63 then some n else none

/-- A `uint32_t` expression with this value; here one that wraps is a fault too. -/
def u32? (n : Nat) : Option Nat := if n < 2 ^ 32 then some n else none

/-- The last branch of the loop of `avl_offset`, checked. -/
def avlOffsetUpChecked (m : AvlMem) (node : NodeId) (pos : Int) :
    Option (Turn (NodeId × Int) (Option NodeId)) :=
  match (m node).parent with
  | none => some (.done none)
  | some parent =>
    if (m parent).right = some node then do
      let n ← u32? (avlCnt m (m node).left + 1)
      return .again (parent, ← i64? (pos - n))
    else do
      let n ← u32? (avlCnt m (m node).right + 1)
      return .again (parent, ← i64? (pos + n))

/-- One turn of `avl_offset` in which every expression is checked: it faults where the source
would overflow. The second operand of an `&&` is evaluated only if the first one holds. -/
def avlOffsetTurnChecked (m : AvlMem) (offset : Int) (s : NodeId × Int) :
    Option (Turn (NodeId × Int) (Option NodeId)) :=
  let (node, pos) := s
  if offset = pos then some (.done (some node))
  else if pos < offset then do
    let last ← i64? (pos + avlCnt m (m node).right)
    if offset ≤ last then
      let node ← (m node).right
      let n ← u32? (avlCnt m (m node).left + 1)
      return .again (node, ← i64? (pos + n))
    else avlOffsetUpChecked m node pos
  else do
    let first ← i64? (pos - avlCnt m (m node).left)
    if first ≤ offset then
      let node ← (m node).left
      let n ← u32? (avlCnt m (m node).right + 1)
      return .again (node, ← i64? (pos - n))
    else avlOffsetUpChecked m node pos

def avlOffsetChecked (fuel : Nat) (m : AvlMem) (node : NodeId) (offset : Int) :
    Option (Option NodeId) :=
  loop (avlOffsetTurnChecked m offset) fuel (node, 0)

end ApexDB
