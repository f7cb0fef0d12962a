import Mathlib.Algebra.Order.Ring.Int

/-!
# `Lib/Stream.lean` — cutting a stream into items

A cutter looks at the head of what has arrived: it cuts off one item, or finds the head to be
wrong, or needs more. What it decides is not changed by what arrives later, and that is all it
takes for the items of a stream not to depend on how the stream was delivered (`drain_append`).

**Stability is a field of the cutter.** A cutter that looked past the end of an item would not
have it; so whoever builds one proves it once, and a reader of a socket that gets ten bytes or
ten thousand at a time needs no further argument. Needing more is the one answer that may
change.

A wrong head stays wrong: nothing is cut behind it. That is what a server does that closes a
connection on the first frame it cannot read.
-/

set_option autoImplicit false

namespace Lib

variable {β ι : Type}

/-- What the head of a stream is: one item and the rest behind it, the front of something
longer, or nothing that can be read. -/
inductive Cut (β ι : Type) where
  | more
  | bad
  | item (i : ι) (rest : List β)

/-- A way of cutting, stable under what follows. An item takes at least one element off the
stream, so cutting ends. -/
structure Cutter (β ι : Type) where
  cut : List β → Cut β ι
  shrinks : ∀ {x i rest}, cut x = .item i rest → rest.length < x.length
  item_append : ∀ {x i rest}, cut x = .item i rest → ∀ y, cut (x ++ y) = .item i (rest ++ y)
  bad_append : ∀ {x}, cut x = .bad → ∀ y, cut (x ++ y) = .bad

/-- The items of a stream, what is left of it, and whether its head is wrong. -/
structure Drained (β ι : Type) where
  items : List ι
  rest : List β
  bad : Bool

namespace Cutter

variable (c : Cutter β ι)

def drain (x : List β) : Drained β ι :=
  match h : c.cut x with
  | .more => ⟨[], x, false⟩
  | .bad => ⟨[], x, true⟩
  | .item i rest =>
    have := c.shrinks h
    let d := drain rest
    ⟨i :: d.items, d.rest, d.bad⟩
termination_by x.length

variable {c} {x : List β}

theorem drain_more (h : c.cut x = .more) : c.drain x = ⟨[], x, false⟩ := by
  rw [drain]
  split <;> simp_all

theorem drain_bad (h : c.cut x = .bad) : c.drain x = ⟨[], x, true⟩ := by
  rw [drain]
  split <;> simp_all

theorem drain_item {i : ι} {rest : List β} (h : c.cut x = .item i rest) :
    c.drain x = ⟨i :: (c.drain rest).items, (c.drain rest).rest, (c.drain rest).bad⟩ := by
  rw [drain]
  split <;> simp_all

/-- Induction along a drain: its end, and one more item in front. -/
theorem drain_induction {motive : List β → Prop} (stop : ∀ x, c.cut x = .more → motive x)
    (wrong : ∀ x, c.cut x = .bad → motive x)
    (item : ∀ x i rest, c.cut x = .item i rest → motive rest → motive x) : ∀ x, motive x := by
  intro x
  induction hn : x.length using Nat.strongRecOn generalizing x with
  | ind n ih =>
    cases h : c.cut x with
    | more => exact stop x h
    | bad => exact wrong x h
    | item i rest => exact item x i rest h (ih _ (hn ▸ c.shrinks h) rest rfl)

/-- What is left of a stream that is not wrong has no item in it, however it was delivered. -/
theorem cut_drain_rest : ∀ x, (c.drain x).bad = false → c.cut (c.drain x).rest = .more := by
  refine drain_induction (c := c) (fun x h hb => ?_) (fun x h hb => ?_) (fun x i rest h ih hb => ?_)
  · rw [drain_more h]
    exact h
  · rw [drain_bad h] at hb
    exact absurd hb (by simp)
  · rw [drain_item h] at hb ⊢
    exact ih hb

/-- **The items do not depend on where the stream was cut**: more of it is drained from what was
left. -/
theorem drain_append (y : List β) : ∀ x, (c.drain x).bad = false →
    c.drain (x ++ y) = ⟨(c.drain x).items ++ (c.drain ((c.drain x).rest ++ y)).items,
      (c.drain ((c.drain x).rest ++ y)).rest, (c.drain ((c.drain x).rest ++ y)).bad⟩ := by
  refine drain_induction (c := c) (fun x h _ => ?_) (fun x h hb => ?_) (fun x i rest h ih hb => ?_)
  · rw [drain_more h]
    rfl
  · rw [drain_bad h] at hb
    exact absurd hb (by simp)
  · rw [drain_item h] at hb
    rw [drain_item (c.item_append h y), drain_item h, ih hb]
    rfl

end Cutter

end Lib
