import Mathlib.Data.List.Lex
import Mathlib.Data.Prod.Lex
import ApexDB.Lib.Cursor
import ApexDB.Zset

/-!
# `Spec/ZTree.lean` — the sorted set without pointers

What `src/zset.cpp` computes once addresses, links and the hash map are taken away: a tree of
members, changed by pure functions. It keeps the shape of the tree and the 32-bit counters,
because a range query sees them; it is the finest description of a set that its replies depend
on.

Two layers meet here. Below, `Proof/Zset.lean` shows that the pointers compute these functions;
above, `Proof/Readings.lean` shows that for sets of fewer than `2 ^ 32` members nothing of the
shape is left in the replies, and a set is the finite map from its members to their scores.
`rangeOf` is what a range query asks for when it is read that way, and `query` what it gets.
-/

set_option autoImplicit false

namespace ApexDB

open Lib BinaryTree

/-- A sorted set, as the tree of its members. -/
abbrev ZTree := BinaryTree ZNode

namespace ZTree

def find (t : ZTree) (name : Bytes) : Option ZNode := t.inorder.find? fun z => z.name == name

def insert (t : ZTree) (z : ZNode) : ZTree := fixUp (node z nil nil) (descend (zlessNode z) t [])

def erase (t : ZTree) (name : Bytes) : ZTree :=
  match locate (fun z => z.name == name) t [] with
  | none => t
  | some L => removeAt L.left L.right L.ctx

/-- Give this name this score: a new score moves the member, an equal one leaves it alone. -/
def add (t : ZTree) (name : Bytes) (score : Dbl) : ZTree :=
  match t.find name with
  | none => t.insert ⟨score, name⟩
  | some z => if z.score.eq score then t else (t.erase name).insert ⟨score, name⟩

def seekge (t : ZTree) (score : Dbl) (name : Bytes) : Option (Loc ZNode) :=
  seek (fun z => zless z score name) t [] none

/-- The members at a place and after it, at most `n`. The next place is found by a walk of one
step, as in the source, and not by the order of the list. -/
def collect : Nat → Option (Loc ZNode) → List ZNode
  | 0, _ => []
  | _, none => []
  | n + 1, some L => L.val :: collect n (rankWalk (2 ^ 32) L 1)

/-- The members a range query lists. `limit` counts names and scores, two for each member. -/
def query (t : ZTree) (score : Dbl) (name : Bytes) (offset limit : Int) : List ZNode :=
  collect ((limit.toNat + 1) / 2) ((t.seekge score name).bind fun L => rankWalk (2 ^ 32) L offset)

end ZTree

/-- The slice of a sorted list that a range query asks for. With `p` members below the pair, it
starts `offset` places after them; it is empty when there is nothing to start from. -/
def rangeOf (l : List ZNode) (score : Dbl) (name : Bytes) (offset limit : Int) : List ZNode :=
  let p := l.countP fun z => zless z score name
  if p = l.length ∨ p + offset < 0 ∨ l.length ≤ p + offset then []
  else (l.drop (p + offset).toNat).take ((limit.toNat + 1) / 2)

/-- The place of a member in the order of the set: by score, and then by name. The two zeros
have one place. -/
def ZNode.place (z : ZNode) : Int ×ₗ List Nat := toLex (z.score.key, z.name.map UInt8.toNat)

/-- **What every set keeps**: balanced, in order, and no name twice. -/
structure ZTree.Ok (t : ZTree) : Prop where
  balanced : t.Balanced
  sorted : t.inorder.Pairwise fun a b => a.place < b.place
  names : (t.inorder.map ZNode.name).Nodup

theorem ZTree.ok_nil : ZTree.Ok nil where
  balanced := trivial
  sorted := List.Pairwise.nil
  names := List.nodup_nil

end ApexDB
