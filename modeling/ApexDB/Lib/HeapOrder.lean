import Mathlib.Algebra.Order.Ring.Int

/-!
# `Lib/HeapOrder.lean` — the order of a binary heap with one item out of place

A heap is a list read as a complete binary tree. Every repair starts from a heap with one item
replaced, and swaps that item along a path; what is said here is said of the whole list at each
moment, with the item where it stands.

`Misplaced` is what replacing an item leaves, and it is all that is known before looking at the
item. Comparing it with its parent decides which half of the missing order is there: `Rising`
lacks only the edge above, `Sinking` only the edges below. A swap keeps each, one position
further on.

The order is that of a key of the items, in any linear order, and nothing is said about what
else an item has; a caller whose items point back at their owners keeps that in an invariant of
its own.

- `Rising.swap` and `Sinking.swap` are the two steps;
- `Rising.ordered` and `Sinking.ordered` are the two ways to stop;
- `Ordered.set`, `Ordered.append` and `Misplaced.dropLast` are where an update, an insertion and a removal begin.
-/

set_option autoImplicit false

namespace Lib.Heap

variable {α κ : Type} [LinearOrder κ]

def parent (i : Nat) : Nat := (i + 1) / 2 - 1

theorem parent_lt {i : Nat} (h : 0 < i) : parent i < i := by
  unfold parent
  omega

/-- The items at two positions, if both are there, are in order. A position past the end is in
order with everything, so that the last parent needs no case of its own. -/
def Le (key : α → κ) (v : List α) (i j : Nat) : Prop :=
  ∀ x y, v[i]? = some x → v[j]? = some y → key x ≤ key y

/-- Every item is at most each of its children. -/
def Ordered (key : α → κ) (v : List α) : Prop := ∀ i, 0 < i → Le key v (parent i) i

/-- In order, but for the item at `pos`: every edge that does not touch it is good, and so is
the detour from its parent to its children, which will be edges when it has gone. -/
structure Misplaced (key : α → κ) (v : List α) (pos : Nat) : Prop where
  edges : ∀ i, 0 < i → i ≠ pos → parent i ≠ pos → Le key v (parent i) i
  skip : ∀ i, 0 < i → parent i = pos → 0 < pos → Le key v (parent pos) i

/-- In order, but the item at `pos` may be too small for its parent. It is good with its
children. -/
structure Rising (key : α → κ) (v : List α) (pos : Nat) : Prop extends Misplaced key v pos where
  below : ∀ i, 0 < i → parent i = pos → Le key v pos i

/-- In order, but the item at `pos` may be too large for its children. It is good with its
parent. -/
structure Sinking (key : α → κ) (v : List α) (pos : Nat) : Prop extends Misplaced key v pos where
  above : 0 < pos → Le key v (parent pos) pos

variable {key : α → κ} {v : List α} {pos : Nat}

theorem Rising.ordered (h : Rising key v pos) (hup : 0 < pos → Le key v (parent pos) pos) :
    Ordered key v := by
  intro i hi
  by_cases hip : i = pos
  · exact hip ▸ hup (hip ▸ hi)
  · by_cases hpi : parent i = pos
    · exact hpi ▸ h.below i hi hpi
    · exact h.edges i hi hip hpi

theorem Sinking.ordered (h : Sinking key v pos)
    (hdown : ∀ i, 0 < i → parent i = pos → Le key v pos i) : Ordered key v :=
  Rising.ordered ⟨h.toMisplaced, hdown⟩ h.above

def swap (v : List α) (i j : Nat) (x y : α) : List α := (v.set i y).set j x

theorem getElem?_swap {i j : Nat} {x y : α} (hi : v[i]? = some x) (hj : v[j]? = some y)
    (k : Nat) : (swap v i j x y)[k]? = if k = j then some x else if k = i then some y else v[k]? := by
  have hil : i < v.length := (List.getElem?_eq_some_iff.mp hi).1
  have hjl : j < v.length := (List.getElem?_eq_some_iff.mp hj).1
  unfold swap
  by_cases hkj : k = j
  · subst hkj
    simp [hjl]
  · rw [List.getElem?_set_ne fun h => hkj h.symm, if_neg hkj]
    by_cases hki : k = i
    · subst hki
      simp [hil]
    · rw [List.getElem?_set_ne fun h => hki h.symm, if_neg hki]

theorem cons_set_perm {i : Nat} {x : α} (hi : v[i]? = some x) (y : α) :
    (x :: v.set i y).Perm (y :: v) := by
  induction v generalizing i with
  | nil => exact absurd hi (by simp)
  | cons a v ih =>
    cases i with
    | zero =>
      cases hi
      exact List.Perm.swap _ _ _
    | succ i =>
      rw [List.getElem?_cons_succ] at hi
      calc (x :: a :: v.set i y).Perm (a :: x :: v.set i y) := List.Perm.swap _ _ _
        _ |>.Perm (a :: y :: v) := (ih hi).cons a
        _ |>.Perm (y :: a :: v) := List.Perm.swap _ _ _

theorem swap_perm {i j : Nat} {x y : α} (hij : i ≠ j) (hi : v[i]? = some x) (hj : v[j]? = some y) :
    (swap v i j x y).Perm v := by
  have hj' : (v.set i y)[j]? = some y := by rw [List.getElem?_set_ne hij, hj]
  have h₁ := cons_set_perm hi y
  have h₂ := cons_set_perm hj' x
  exact (h₂.trans h₁).cons_inv

/-- **A swap with a larger parent.** The parent comes down to children that it was good with
already, by the detour, and the item is now where the parent was. -/
theorem Rising.swap (h : Rising key v pos) {t p : α} (hpos : 0 < pos) (ht : v[pos]? = some t)
    (hp : v[parent pos]? = some p) (hlt : key t < key p) :
    Rising key (Heap.swap v pos (parent pos) t p) (parent pos) := by
  have hget := getElem?_swap ht hp
  have hppos := parent_lt hpos
  -- the old parent is at most everything that was below it
  have hold : ∀ i y, 0 < i → i ≠ pos → v[i]? = some y → parent i = parent pos → key p ≤ key y := by
    intro i y hi hip hy hpi
    by_cases hpp : parent i = pos
    · omega
    · exact h.edges i hi hip hpp p y (hpi ▸ hp) hy
  refine ⟨⟨?_, ?_⟩, ?_⟩
  · intro i hi hip hpi x y hx hy
    rw [hget] at hx hy
    have hipos : i ≠ pos := fun hi' => hpi (by rw [hi'])
    rw [if_neg hpi] at hx
    rw [if_neg hip, if_neg hipos] at hy
    split at hx
    · rename_i hpi'
      cases hx
      exact h.skip i hi hpi' hpos p y hp hy
    · rename_i hpi'
      exact h.edges i hi hipos hpi' x y hx hy
  · intro i hi hpi hpp x y hx hy
    rw [hget] at hx hy
    have h₁ : parent (parent pos) ≠ parent pos := Nat.ne_of_lt (parent_lt hpp)
    have h₂ : parent (parent pos) ≠ pos := Nat.ne_of_lt ((parent_lt hpp).trans hppos)
    rw [if_neg h₁, if_neg h₂] at hx
    have hup : key x ≤ key p := h.edges (parent pos) hpp (Nat.ne_of_lt hppos) h₂ x p hx hp
    have hine : i ≠ parent pos := fun hi' => by have := parent_lt hi; omega
    rw [if_neg hine] at hy
    split at hy
    · cases hy
      exact hup
    · rename_i hip
      exact hup.trans (hold i y hi hip hy hpi)
  · intro i hi hpi x y hx hy
    rw [hget] at hx hy
    rw [if_pos rfl] at hx
    cases hx
    have hine : i ≠ parent pos := fun hi' => by have := parent_lt hi; omega
    rw [if_neg hine] at hy
    split at hy
    · cases hy
      exact hlt.le
    · rename_i hip
      exact hlt.le.trans (hold i y hi hip hy hpi)

/-- **A swap with a smaller child**, no other child being smaller still. The child comes up over
its sibling, which is why it has to be the least of them. -/
theorem Sinking.swap (h : Sinking key v pos) {t x : α} {c : Nat} (hc : 0 < c)
    (hpc : parent c = pos) (ht : v[pos]? = some t) (hx : v[c]? = some x) (hlt : key x < key t)
    (hmin : ∀ i, 0 < i → parent i = pos → Le key v c i) :
    Sinking key (Heap.swap v pos c t x) c := by
  have hget := getElem?_swap ht hx
  have hpos : pos < c := hpc ▸ parent_lt hc
  refine ⟨⟨?_, ?_⟩, ?_⟩
  · intro i hi hic hpi y z hy hz
    rw [hget] at hy hz
    rw [if_neg hpi] at hy
    rw [if_neg hic] at hz
    by_cases hip : i = pos
    · -- the edge above the old position: the child that came up is at most what was there
      subst hip
      have hpar : parent i ≠ i := Nat.ne_of_lt (parent_lt hi)
      rw [if_neg hpar] at hy
      rw [if_pos rfl] at hz
      cases hz
      exact h.skip c hc hpc hi y x hy hx
    · rw [if_neg hip] at hz
      split at hy
      · rename_i hpi'
        cases hy
        exact hmin i hi hpi' x z hx hz
      · rename_i hpi'
        exact h.edges i hi hip hpi' y z hy hz
  · intro i hi hpi _ y z hy hz
    rw [hget] at hy hz
    have hi' : c < i := hpi ▸ parent_lt hi
    rw [hpc, if_neg (Nat.ne_of_lt hpos), if_pos rfl] at hy
    rw [if_neg (Nat.ne_of_gt hi'), if_neg (Nat.ne_of_gt (hpos.trans hi'))] at hz
    cases hy
    exact h.edges i hi (Nat.ne_of_gt (hpos.trans hi')) (hpi ▸ Nat.ne_of_gt hpos) x z
      (hpi ▸ hx) hz
  · intro _ y z hy hz
    rw [hget] at hy hz
    rw [hpc, if_neg (Nat.ne_of_lt hpos), if_pos rfl] at hy
    rw [if_pos rfl] at hz
    cases hy
    cases hz
    exact hlt.le

/-! ## Where repairs start

Three operations leave an item out of place, and none of them looks at the item: it is
overwritten, it is appended at the end, or the last one is dropped after it was copied to where
another one was removed.
-/

theorem Ordered.set (h : Ordered key v) (pos : Nat) (t : α) : Misplaced key (v.set pos t) pos := by
  have hne : ∀ {i : Nat}, i ≠ pos → (v.set pos t)[i]? = v[i]? :=
    fun hi => List.getElem?_set_ne fun hp => hi hp.symm
  refine ⟨fun i hi hip hpi x y hx hy => ?_, fun i hi hpi hpos x y hx hy => ?_⟩
  · rw [hne hpi] at hx
    rw [hne hip] at hy
    exact h i hi x y hx hy
  · have hpp := parent_lt hpos
    have hip := parent_lt hi
    rw [hne (Nat.ne_of_lt hpp)] at hx
    rw [hne (by omega)] at hy
    -- through the item that used to be there
    have hlt : pos < v.length := by
      have := (List.getElem?_eq_some_iff.mp hy).1
      omega
    have hold : v[pos]? = some v[pos] := List.getElem?_eq_getElem hlt
    exact (h pos hpos x _ hx hold).trans (h i hi _ y (hpi ▸ hold) hy)

theorem Ordered.append (h : Ordered key v) (t : α) : Misplaced key (v ++ [t]) v.length := by
  have hget : ∀ {i : Nat} {x : α}, i ≠ v.length → (v ++ [t])[i]? = some x → v[i]? = some x := by
    intro i x hi hx
    have hlt := (List.getElem?_eq_some_iff.mp hx).1
    rw [List.length_append, List.length_singleton] at hlt
    rwa [List.getElem?_append_left (by omega)] at hx
  refine ⟨fun i hi hil hpi x y hx hy => h i hi x y (hget hpi hx) (hget hil hy),
    fun i hi hpi _ x y _ hy => ?_⟩
  -- the last position has no children
  have hlt := (List.getElem?_eq_some_iff.mp hy).1
  have := parent_lt hi
  rw [List.length_append, List.length_singleton] at hlt
  omega

theorem Misplaced.dropLast (h : Misplaced key v pos) : Misplaced key v.dropLast pos := by
  have hget : ∀ {i : Nat} {x : α}, v.dropLast[i]? = some x → v[i]? = some x := by
    intro i x hx
    rw [List.getElem?_dropLast] at hx
    split at hx
    · exact hx
    · exact absurd hx (by simp)
  exact ⟨fun i hi hip hpi x y hx hy => h.edges i hi hip hpi x y (hget hx) (hget hy),
    fun i hi hpi hpos x y hx hy => h.skip i hi hpi hpos x y (hget hx) (hget hy)⟩

/-- With the misplaced item gone, nothing is out of place: the case of a removal at the very
end. -/
theorem Misplaced.ordered_of_length_le (h : Misplaced key v pos) (hlen : v.length ≤ pos) :
    Ordered key v := by
  intro i hi x y hx hy
  have hi' := (List.getElem?_eq_some_iff.mp hy).1
  have := parent_lt hi
  exact h.edges i hi (by omega) (by omega) x y hx hy

/-- **The first item is the least**, by induction on the position: its parent is, and it is not
less than its parent. -/
theorem Ordered.head_le (h : Ordered key v) {x : α} (hx : v[0]? = some x) :
    ∀ (i : Nat) (y : α), v[i]? = some y → key x ≤ key y := by
  intro i
  induction i using Nat.strongRecOn with
  | ind i ih =>
    intro y hy
    rcases Nat.eq_zero_or_pos i with rfl | hi
    · rw [hx] at hy
      cases hy
      exact le_refl _
    · have hlt := parent_lt hi
      have hpl : parent i < v.length := hlt.trans (List.getElem?_eq_some_iff.mp hy).1
      have hp : v[parent i]? = some v[parent i] := List.getElem?_eq_getElem hpl
      exact (ih (parent i) hlt _ hp).trans (h i hi _ y hp hy)

end Lib.Heap
