import Mathlib.Algebra.Order.Ring.Int
import Mathlib.Data.List.Nodup

/-!
# `Lib/Ring.lean` — circular doubly linked lists

The memory is two partial functions, `next` and `prev`. A `Segment` is a walk along `next` every
step of which `prev` takes back; a `LinkRing` is a segment that ends where it began and passes
no address twice.

**A ring has no first address.** It may be read from any of its addresses (`LinkRing.rotate`),
so taking one out is done at the front of the list, where it is two links, and the list is
turned back after it.

What a program does to such a list is two assignments at a time, each through a pointer that it
has read just before. The lemmas are stated for the functions after these assignments, as nested
updates in the order in which they are made, so that a model of the code meets them without
rearranging anything.
-/

set_option autoImplicit false

namespace Lib

variable {α : Type} {next prev next' prev' : α → Option α} {a b x p n : α} {l r : List α}

/-! ## 1. Segments

A segment is defined by recursion on the list that it passes, and two of them are put together
at any address in between (`segment_append`). A link outside of it may be anything.
-/

/-- From `a` along `l` to `b`: each address of the list is the `next` of the one before it, and
has that one for its `prev`. -/
def Segment (next prev : α → Option α) : α → List α → α → Prop
  | a, [], b => next a = some b ∧ prev b = some a
  | a, x :: l, b => next a = some x ∧ prev x = some a ∧ Segment next prev x l b

theorem segment_append : ∀ {l : List α} {a : α},
    Segment next prev a (l ++ x :: r) b ↔ Segment next prev a l x ∧ Segment next prev x r b := by
  intro l
  induction l with
  | nil =>
    intro a
    simp only [List.nil_append, Segment, and_assoc]
  | cons y l ih =>
    intro a
    simp only [List.cons_append, Segment, ih, and_assoc]

/-- Only the links along the segment matter. -/
theorem Segment.frame : ∀ {l : List α} {a : α}, Segment next prev a l b →
    (∀ y ∈ a :: l, next' y = next y) → (∀ y ∈ l ++ [b], prev' y = prev y) →
    Segment next' prev' a l b := by
  intro l
  induction l with
  | nil =>
    intro a h hnext hprev
    refine ⟨?_, ?_⟩
    · rw [hnext a List.mem_cons_self]
      exact h.1
    · rw [hprev b (by simp)]
      exact h.2
  | cons x l ih =>
    intro a h hnext hprev
    refine ⟨?_, ?_, ih h.2.2 ?_ ?_⟩
    · rw [hnext a List.mem_cons_self]
      exact h.1
    · rw [hprev x (by simp)]
      exact h.2.1
    · exact fun y hy => hnext y (List.mem_cons_of_mem _ hy)
    · exact fun y hy => hprev y (List.mem_cons_of_mem _ hy)

/-! ## 2. Rings

The list does not repeat an address, and that is what the two surgical lemmas rest on: an update
at one address of the ring cannot be seen at another.
-/

/-- The addresses `a :: l`, in a circle. -/
structure LinkRing (next prev : α → Option α) (a : α) (l : List α) : Prop where
  nodup : (a :: l).Nodup
  segment : Segment next prev a l a

namespace LinkRing

theorem congr (h : LinkRing next prev a l) (hnext : ∀ y ∈ a :: l, next' y = next y)
    (hprev : ∀ y ∈ a :: l, prev' y = prev y) : LinkRing next' prev' a l := by
  refine ⟨h.nodup, h.segment.frame hnext fun y hy => hprev y ?_⟩
  rw [List.mem_append, List.mem_singleton] at hy
  exact List.mem_cons.mpr hy.symm

theorem single (hnext : next a = some a) (hprev : prev a = some a) : LinkRing next prev a [] :=
  ⟨by simp, hnext, hprev⟩

/-- **A ring may be read from any of its addresses.** -/
theorem rotate (h : LinkRing next prev a (l ++ x :: r)) : LinkRing next prev x (r ++ a :: l) := by
  constructor
  · have hperm : (x :: (r ++ a :: l)).Perm (a :: (l ++ x :: r)) := by
      rw [← List.cons_append, ← List.cons_append]
      exact List.perm_append_comm
    exact hperm.nodup_iff.mpr h.nodup
  · have hseg := segment_append.mp h.segment
    exact segment_append.mpr hseg.symm

theorem next_first (h : LinkRing next prev a (x :: l)) : next a = some x := h.segment.1

/-- A ring of one is one that points at itself, which is the test that a program makes for an
empty list. -/
theorem next_self (h : LinkRing next prev a l) : next a = some a ↔ l = [] := by
  cases l with
  | nil => exact ⟨fun _ => rfl, fun _ => h.segment.1⟩
  | cons x l =>
    rw [h.next_first, Option.some_inj]
    constructor
    · rintro rfl
      exact absurd List.mem_cons_self (List.nodup_cons.mp h.nodup).1
    · nofun

/-- Every address has both links, and they lead to addresses of the ring. -/
theorem exists_links (h : LinkRing next prev a l) (hx : x ∈ a :: l) :
    ∃ p n, prev x = some p ∧ next x = some n ∧ p ∈ a :: l ∧ n ∈ a :: l := by
  -- it is enough to look at the first address
  have hfirst : ∀ {a : α} {l : List α}, LinkRing next prev a l →
      ∃ p n, prev a = some p ∧ next a = some n ∧ p ∈ a :: l ∧ n ∈ a :: l := by
    intro a l h
    rcases List.eq_nil_or_concat' l with rfl | ⟨l', p, rfl⟩
    · exact ⟨a, a, h.segment.2, h.segment.1, by simp, by simp⟩
    · obtain ⟨hto, hback⟩ := segment_append.mp h.segment
      cases l' with
      | nil => exact ⟨p, p, hback.2, hto.1, by simp, by simp⟩
      | cons y l' => exact ⟨p, y, hback.2, hto.1, by simp, by simp⟩
  rcases List.mem_cons.mp hx with rfl | hx
  · exact hfirst h
  · obtain ⟨l, r, rfl⟩ := List.append_of_mem hx
    obtain ⟨p, n, hp, hn, hmp, hmn⟩ := hfirst h.rotate
    have hmem : ∀ y ∈ x :: (r ++ a :: l), y ∈ a :: (l ++ x :: r) := by
      intro y hy
      simp only [List.mem_cons, List.mem_append] at hy ⊢
      tauto
    exact ⟨p, n, hp, hn, hmem p hmp, hmem n hmn⟩

variable [DecidableEq α]

omit [DecidableEq α] in
theorem ne_last_of_mem {y : α} (h : (a :: (l ++ [p])).Nodup) (hy : y ∈ a :: l) : y ≠ p := by
  rw [← List.cons_append, List.nodup_append] at h
  exact h.2.2 y hy p List.mem_cons_self

/-- **A new address is linked in before `a`**, that is at the end of the list that starts behind
`a`. Four links change: those of the new address, the `next` of the last one and the `prev` of
`a`. -/
theorem insert (h : LinkRing next prev a l) (hx : x ∉ a :: l) (hp : prev a = some p) :
    LinkRing (Function.update (Function.update next p (some x)) x (some a))
      (Function.update (Function.update prev x (some p)) a (some x)) a (l ++ [x]) := by
  have hxa : x ≠ a := fun hxa => hx (hxa ▸ List.mem_cons_self)
  refine ⟨?_, ?_⟩
  · rw [← List.cons_append]
    refine List.nodup_append.mpr ⟨h.nodup, by simp, fun y hy z hz hyz => ?_⟩
    rw [hyz, List.mem_singleton.mp hz] at hy
    exact hx hy
  rcases List.eq_nil_or_concat' l with rfl | ⟨l', q, rfl⟩
  · -- the only address is its own predecessor
    obtain rfl : a = p := by
      rw [h.segment.2] at hp
      exact Option.some.inj hp
    simp [Segment, hxa, hxa.symm]
  · obtain ⟨hto, hback⟩ := segment_append.mp h.segment
    obtain rfl : q = p := by
      rw [hback.2] at hp
      exact Option.some.inj hp
    have hne : ∀ y ∈ a :: (l' ++ [q]), y ≠ x := fun y hy hyx => hx (hyx ▸ hy)
    rw [List.append_assoc, List.singleton_append, segment_append]
    refine ⟨hto.frame ?_ ?_, ?_⟩
    · intro y hy
      have hyx := hne y (List.mem_append_left [q] hy)
      rw [Function.update_of_ne hyx, Function.update_of_ne (ne_last_of_mem h.nodup hy)]
    · intro y hy
      have hya : y ≠ a := fun hya => (List.nodup_cons.mp h.nodup).1 (hya ▸ hy)
      rw [Function.update_of_ne hya, Function.update_of_ne (hne y (List.mem_cons_of_mem _ hy))]
    · have hqx := hne q (by simp)
      simp [Segment, hxa, hqx]

/-- The address that the list is read from is taken out. Its two neighbours are linked with each
other; its own links are left as they were, and are outside of the ring then. -/
theorem tail (h : LinkRing next prev x (n :: l)) (hp : prev x = some p) :
    LinkRing (Function.update next p (some n)) (Function.update prev n (some p)) n l := by
  obtain ⟨-, hnodup⟩ := List.nodup_cons.mp h.nodup
  refine ⟨hnodup, ?_⟩
  obtain ⟨-, -, hseg⟩ := h.segment
  rcases List.eq_nil_or_concat' l with rfl | ⟨l', q, rfl⟩
  · obtain rfl : n = p := by
      rw [hseg.2] at hp
      exact Option.some.inj hp
    simp [Segment]
  · obtain ⟨hto, hback⟩ := segment_append.mp hseg
    obtain rfl : q = p := by
      rw [hback.2] at hp
      exact Option.some.inj hp
    rw [segment_append]
    refine ⟨hto.frame ?_ ?_, ?_⟩
    · intro y hy
      rw [Function.update_of_ne (ne_last_of_mem hnodup hy)]
    · intro y hy
      have hyn : y ≠ n := fun hyn => (List.nodup_cons.mp hnodup).1 (hyn ▸ hy)
      rw [Function.update_of_ne hyn]
    · simp [Segment]

/-- **An address is taken out**, wherever it is. The ring is turned until it is in front, and
turned back. -/
theorem erase (h : LinkRing next prev a l) (hx : x ∈ l) (hp : prev x = some p) (hn : next x = some n) :
    LinkRing (Function.update next p (some n)) (Function.update prev n (some p)) a (l.erase x) := by
  obtain ⟨l₁, l₂, rfl⟩ := List.append_of_mem hx
  have hnodup := (List.nodup_cons.mp h.nodup).2
  have hnot : x ∉ l₁ := fun hmem => (List.nodup_append.mp hnodup).2.2 x hmem x List.mem_cons_self rfl
  rw [List.erase_append_right _ hnot, List.erase_cons_head]
  have hrot := h.rotate
  cases l₂ with
  | nil =>
    obtain rfl : a = n := by
      rw [hrot.next_first] at hn
      exact Option.some.inj hn
    rw [List.append_nil]
    exact hrot.tail hp
  | cons y l₂ =>
    obtain rfl : y = n := by
      rw [List.cons_append] at hrot
      rw [hrot.next_first] at hn
      exact Option.some.inj hn
    exact (hrot.tail hp).rotate

end LinkRing

end Lib
