import Mathlib.Algebra.Order.Ring.Int

/-!
# `Lib/Arena.lean` — objects with addresses that die

Addresses are handed out once and never again, so an address that was freed stays dead: reading
it, writing to it or freeing it a second time is a fault (`none`). That an address not handed
out yet holds nothing is a field of the arena and not a hypothesis of every lemma.

**The arena remembers what was freed**, each address with the object it held then. An address is
in that list once, if it was handed out and is dead; so when nothing is alive any more the list
has every address that was handed out, exactly once (`freed_perm`).

A real allocator does use an address again. Here it does not, so a pointer that outlives its
object cannot come to point at another one by accident: what would be a silent confusion is a
fault, and a theorem that a program does not fault says that there was none.
-/

set_option autoImplicit false

namespace Lib

/-- The live objects, the next address, and the objects that were freed, in that order. The
three other fields are its invariant. -/
structure Arena (α : Type) where
  cell : Nat → Option α
  next : Nat
  freed : List (Nat × α)
  fresh : ∀ i, next ≤ i → cell i = none
  dead : ∀ i, i ∈ freed.map Prod.fst ↔ i < next ∧ cell i = none
  once : (freed.map Prod.fst).Nodup

namespace Arena

variable {α : Type}

def empty : Arena α where
  cell := fun _ => none
  next := 0
  freed := []
  fresh := fun _ _ => rfl
  dead := fun i => by simp
  once := List.nodup_nil

/-- The next address is handed out and never again. -/
def alloc (a : Arena α) (v : α) : Arena α × Nat :=
  ({ cell := Function.update a.cell a.next (some v)
     next := a.next + 1
     freed := a.freed
     fresh := fun i hi => by rw [Function.update_of_ne (by omega), a.fresh i (by omega)]
     dead := fun i => by
       by_cases hi : i = a.next
       · rw [hi, Function.update_self, a.dead]
         simp
       · rw [Function.update_of_ne hi, a.dead]
         exact and_congr_left fun _ => by omega
     once := a.once }, a.next)

def read (a : Arena α) (i : Nat) : Option α := a.cell i

/-- Overwrite an object in place. It keeps its address, and a dead one stays dead. -/
def write (a : Arena α) (i : Nat) (v : α) : Option (Arena α) :=
  if h : (a.cell i).isSome then
    some
      { cell := Function.update a.cell i (some v)
        next := a.next
        freed := a.freed
        fresh := fun j hj => by
          have hne : j ≠ i := by
            intro hji
            rw [a.fresh i (by omega)] at h
            exact absurd h (by simp)
          rw [Function.update_of_ne hne, a.fresh j hj]
        dead := fun j => by
          by_cases hji : j = i
          · have hsome := Option.isSome_iff_ne_none.mp h
            rw [hji, Function.update_self, a.dead]
            simp [hsome]
          · rw [Function.update_of_ne hji, a.dead]
        once := a.once }
  else none

/-- The object dies, and is remembered as it was then. -/
def free (a : Arena α) (i : Nat) : Option (Arena α) :=
  match h : a.cell i with
  | none => none
  | some v =>
    some
      { cell := Function.update a.cell i none
        next := a.next
        freed := a.freed ++ [(i, v)]
        fresh := fun j hj => by
          by_cases hji : j = i
          · rw [hji, Function.update_self]
          · rw [Function.update_of_ne hji, a.fresh j hj]
        dead := fun j => by
          rw [List.map_append, List.mem_append, a.dead]
          by_cases hji : j = i
          · have hlt : i < a.next := by
              by_contra hge
              rw [a.fresh i (by omega)] at h
              cases h
            simp [hji, hlt]
          · simp [hji]
        once := by
          rw [List.map_append, List.nodup_append]
          refine ⟨a.once, by simp, ?_⟩
          intro j hj k hk hjk
          rw [List.map_singleton, List.mem_singleton] at hk
          rw [hjk, hk, a.dead, h] at hj
          exact absurd hj.2 (by simp) }

@[simp] theorem read_empty (i : Nat) : (empty : Arena α).read i = none := rfl

@[simp] theorem alloc_snd (a : Arena α) (v : α) : (a.alloc v).2 = a.next := rfl

theorem read_alloc (a : Arena α) (v : α) (i : Nat) :
    (a.alloc v).1.read i = if i = a.next then some v else a.read i := by
  simp only [alloc, read, Function.update_apply]

@[simp] theorem read_next (a : Arena α) : a.read a.next = none := a.fresh _ (Nat.le_refl _)

theorem lt_next {a : Arena α} {i : Nat} {v : α} (h : a.read i = some v) : i < a.next := by
  by_contra hge
  rw [read, a.fresh i (by omega)] at h
  exact absurd h (by simp)

/-- Writing to a live object, as a reader sees it: the object at that address, and what was
there before at every other. -/
theorem write_spec {a : Arena α} {i : Nat} {v : α} (h : a.read i = some v) (v' : α) :
    ∃ a', a.write i v' = some a' ∧ a'.next = a.next ∧
      ∀ j, a'.read j = if j = i then some v' else a.read j := by
  have hsome : (a.cell i).isSome := by rw [show a.cell i = some v from h]; rfl
  refine ⟨_, dif_pos hsome, rfl, fun j => ?_⟩
  simp only [read, Function.update_apply]

theorem read_write_of_ne {a a' : Arena α} {i j : Nat} {v : α} (h : a.write i v = some a') (hne : j ≠ i) :
    a'.read j = a.read j := by
  unfold write at h
  split at h
  · cases h
    exact Function.update_of_ne hne _ _
  · cases h

/-- Freeing a live object, as a reader sees it: nothing at that address, and what was there
before at every other. -/
theorem free_spec {a : Arena α} {i : Nat} {v : α} (h : a.read i = some v) :
    ∃ a', a.free i = some a' ∧ a'.next = a.next ∧
      ∀ j, a'.read j = if j = i then none else a.read j := by
  unfold free
  split
  · rename_i hnone
    rw [read, hnone] at h
    cases h
  · refine ⟨_, rfl, rfl, fun j => ?_⟩
    simp only [read, Function.update_apply]

/-! ## What was freed

The list only grows, by the object that `free` was called on, and `write` leaves it alone. The
two fields of the arena that speak of it (an address is in it exactly if it was handed out and
is dead, and no address is in it twice) are what makes the list say that each object was
disposed of, and disposed of once.
-/

theorem freed_write {a a' : Arena α} {i : Nat} {v : α} (h : a.write i v = some a') :
    a'.freed = a.freed := by
  unfold write at h
  split at h
  · cases h
    rfl
  · cases h

theorem freed_free {a a' : Arena α} {i : Nat} {v : α} (hread : a.read i = some v)
    (h : a.free i = some a') : a'.freed = a.freed ++ [(i, v)] := by
  unfold free at h
  split at h
  · cases h
  · rename_i v' hv
    rw [read, hv] at hread
    cases hread
    cases h
    rfl

/-- **When nothing is alive, every address that was handed out was freed, exactly once.** -/
theorem freed_perm {a : Arena α} (h : ∀ i, a.read i = none) :
    (a.freed.map Prod.fst).Perm (List.range a.next) := by
  rw [List.perm_ext_iff_of_nodup a.once List.nodup_range]
  intro i
  rw [a.dead, List.mem_range]
  exact and_iff_left (h i)

end Arena

end Lib
