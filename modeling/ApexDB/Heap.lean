import ApexDB.Lib.Loop

/-!
# `Heap.lean` — the indexed binary heap of `src/heap.cpp`

An item is a deadline and a pointer to the field `heap_idx` of the entry it belongs to; the heap
writes every item's position back through that pointer whenever the item moves. The array is a
list, and an index past its end is a fault. The fields pointed at are a column of their own,
`HeapRefs`, by the address of the entry; `(size_t)-1`, the value of an entry that has no
deadline, is `none`.

**The item in hand is not in the array.** Both loops copy the item `t` out first, overwrite its
slot with the parent or child that moves, and store `t` at the end. In between one item is there
twice, so the array is a heap only when the loop is over; the loops are modelled that way, and
what is there in between is for their invariants to say.
-/

set_option autoImplicit false

namespace ApexDB

open Lib

/-- The address of an `Entry`. -/
abbrev EntryId := Nat

structure HeapItem where
  val : Nat
  ref : EntryId
  deriving DecidableEq, Repr

/-- The `heap_idx` field of every entry. -/
structure HeapRefs where
  cell : EntryId → Option Nat

instance : CoeFun HeapRefs fun _ => EntryId → Option Nat := ⟨HeapRefs.cell⟩

/-- `*ref = pos`. -/
def HeapRefs.set (refs : HeapRefs) (ref : EntryId) (pos : Option Nat) : HeapRefs :=
  ⟨Function.update refs.cell ref pos⟩

def heapParent (i : Nat) : Nat := (i + 1) / 2 - 1

def heapLeft (i : Nat) : Nat := i * 2 + 1

def heapRight (i : Nat) : Nat := i * 2 + 2

/-- `a[pos] = t; *a[pos].ref = pos`. -/
def heapPlace (a : List HeapItem) (refs : HeapRefs) (pos : Nat) (t : HeapItem) :
    Option (List HeapItem × HeapRefs) :=
  if pos < a.length then some (a.set pos t, refs.set t.ref (some pos)) else none

/-! ## 1. Up

The item rises as long as its parent is larger. At position 0 the formula for the parent is not
evaluated: the test for it comes first.
-/

/-- One turn of the loop of `heap_up`, which holds the item `t` in hand. -/
def heapUpTurn (t : HeapItem) (s : List HeapItem × HeapRefs × Nat) :
    Option (Turn (List HeapItem × HeapRefs × Nat) (List HeapItem × HeapRefs × Nat)) :=
  let (a, refs, pos) := s
  if pos = 0 then some (.done (a, refs, pos))
  else do
    let p ← a[heapParent pos]?
    if t.val < p.val then
      let (a, refs) ← heapPlace a refs pos p
      return .again (a, refs, heapParent pos)
    else return .done (a, refs, pos)

def heapUp (a : List HeapItem) (refs : HeapRefs) (pos : Nat) : Option (List HeapItem × HeapRefs) := do
  let t ← a[pos]?
  let (a, refs, pos) ← loop (heapUpTurn t) (pos + 1) (a, refs, pos)
  heapPlace a refs pos t

/-! ## 2. Down

The item sinks to the smaller of its two kids as long as that one is smaller than the item.
`len` is passed along because `heap_delete` calls this after it has dropped the last item.
-/

/-- `min_pos`: the smallest among `t` and the two kids of `pos`. -/
def heapMinPos (t : HeapItem) (a : List HeapItem) (pos len : Nat) : Option Nat := do
  let l := heapLeft pos
  let r := heapRight pos
  let (minPos, minVal) ← (if l < len then do
      let kid ← a[l]?
      return if kid.val < t.val then (l, kid.val) else (pos, t.val)
    else some (pos, t.val))
  if r < len then do
    let kid ← a[r]?
    return if kid.val < minVal then r else minPos
  else return minPos

def heapDownTurn (t : HeapItem) (len : Nat) (s : List HeapItem × HeapRefs × Nat) :
    Option (Turn (List HeapItem × HeapRefs × Nat) (List HeapItem × HeapRefs × Nat)) := do
  let (a, refs, pos) := s
  let minPos ← heapMinPos t a pos len
  if minPos = pos then return .done (a, refs, pos)
  else
    let kid ← a[minPos]?
    let (a, refs) ← heapPlace a refs pos kid
    return .again (a, refs, minPos)

def heapDown (a : List HeapItem) (refs : HeapRefs) (pos len : Nat) :
    Option (List HeapItem × HeapRefs) := do
  let t ← a[pos]?
  let (a, refs, pos) ← loop (heapDownTurn t len) (len + 1) (a, refs, pos)
  heapPlace a refs pos t

/-! ## 3. Update

One comparison with the parent decides in which direction the item goes.
-/

def heapUpdate (a : List HeapItem) (refs : HeapRefs) (pos len : Nat) :
    Option (List HeapItem × HeapRefs) :=
  if pos = 0 then heapDown a refs pos len
  else do
    let p ← a[heapParent pos]?
    let t ← a[pos]?
    if t.val < p.val then heapUp a refs pos else heapDown a refs pos len

end ApexDB
