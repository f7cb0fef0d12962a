import Mathlib.Algebra.Order.Ring.Int

/-!
# `Lib/Loop.lean` — loops that may fault, and the one rule that runs them

A C loop has three ways to end a turn: go round again with a new state, leave with a result, or
do something undefined. `Turn` is the first two and `Option` around it is the third, so a loop
body is a plain function `σ → Option (Turn σ β)` and the loop itself is `loop body fuel`.

**Running out of fuel and faulting are the same answer, `none`.** That is deliberate: a
statement `loop body fuel s = some b` then says at once that every dereference was good *and*
that the loop came to an end, so nobody downstream has to remember which of the two a theorem
forgot. `loop_total` is the only rule that produces such a statement, and it asks for the two
usual things: an invariant, and a measure that each turn brings down.

The other three rules start from a loop that is known to end. `loop_inv` reads off more about
its result, for which no measure is needed any more; `loop_mono` lets two callers disagree about
the fuel; and `loop_lockstep` carries a result from one loop to another that does the same to a
translated state, which is how a loop over addresses is compared with the same loop over the
tree they form.
-/

set_option autoImplicit false

namespace Lib

/-- How one turn of a loop ends when it does not fault: with the state of the next turn, or with
the result of the loop. -/
inductive Turn (σ β : Type) where
  | again (s : σ)
  | done (b : β)

variable {σ β : Type}

/-- `while (true) body`: at most `fuel` turns, `none` on a fault or when they are used up. The
fuel is there for the recursion only; a caller passes what `loop_total` asks for, a number above
the measure of the first state. -/
def loop (body : σ → Option (Turn σ β)) : Nat → σ → Option β
  | 0, _ => none
  | fuel + 1, s =>
      match body s with
      | none => none
      | some (.again s') => loop body fuel s'
      | some (.done b) => some b

theorem loop_again {body : σ → Option (Turn σ β)} {fuel : Nat} {s s' : σ}
    (h : body s = some (.again s')) : loop body (fuel + 1) s = loop body fuel s' := by
  simp only [loop, h]

theorem loop_done {body : σ → Option (Turn σ β)} {fuel : Nat} {s : σ} {b : β}
    (h : body s = some (.done b)) : loop body (fuel + 1) s = some b := by
  simp only [loop, h]

/-- **The rule.** From a state of the invariant every turn either leaves with a good result or
comes back to the invariant with a smaller measure; then enough fuel gives a good result. -/
theorem loop_total (body : σ → Option (Turn σ β)) (Inv : σ → Prop) (μ : σ → Nat) (Q : β → Prop)
    (turn : ∀ s, Inv s →
      (∃ s', body s = some (.again s') ∧ Inv s' ∧ μ s' < μ s) ∨
      (∃ b, body s = some (.done b) ∧ Q b)) :
    ∀ (fuel : Nat) (s : σ), Inv s → μ s < fuel → ∃ b, loop body fuel s = some b ∧ Q b := by
  intro fuel
  induction fuel with
  | zero => intro s _ hlt; omega
  | succ fuel ih =>
    intro s hs hlt
    rcases turn s hs with ⟨s', hb, hs', hμ⟩ | ⟨b, hb, hq⟩
    · rw [loop_again hb]
      exact ih s' hs' (by omega)
    · exact ⟨b, loop_done hb, hq⟩

/-- The rule for a loop that is known to end: what its turns keep holds of the result. -/
theorem loop_inv {body : σ → Option (Turn σ β)} (Inv : σ → Prop) (Q : β → Prop)
    (again : ∀ s s', Inv s → body s = some (.again s') → Inv s')
    (done : ∀ s b, Inv s → body s = some (.done b) → Q b) :
    ∀ {fuel : Nat} {s : σ} {b : β}, Inv s → loop body fuel s = some b → Q b := by
  intro fuel
  induction fuel with
  | zero => intro s b _ h; exact absurd h (by simp [loop])
  | succ fuel ih =>
    intro s b hs h
    simp only [loop] at h
    split at h
    · exact absurd h (by simp)
    · rename_i s' hb
      exact ih (again s s' hs hb) h
    · rename_i hb
      cases h
      exact done s b hs hb

/-- More fuel changes nothing: a loop that has ended has ended. -/
theorem loop_mono {body : σ → Option (Turn σ β)} : ∀ {fuel fuel' : Nat} {s : σ} {b : β},
    loop body fuel s = some b → fuel ≤ fuel' → loop body fuel' s = some b := by
  intro fuel
  induction fuel with
  | zero => intro fuel' s b h _; exact absurd h (by simp [loop])
  | succ fuel ih =>
    intro fuel' s b h hle
    obtain ⟨k, rfl⟩ := Nat.exists_eq_add_of_le' hle
    rw [← Nat.add_assoc]
    simp only [loop] at h ⊢
    split at h
    · exact absurd h (by simp)
    · exact ih h (Nat.le_add_left _ _)
    · exact h

def Turn.map {σ' β' : Type} (f : σ → σ') (g : β → β') : Turn σ β → Turn σ' β'
  | .again s => .again (f s)
  | .done b => .done (g b)

/-- **Two loops in step.** When every turn of one is the translation of a turn of the other, so
is the result. The hypothesis speaks of the states of an invariant only, since a translation is
often right for those and for no others. -/
theorem loop_lockstep {σ' β' : Type} {body : σ → Option (Turn σ β)}
    {body' : σ' → Option (Turn σ' β')} {f : σ → σ'} {g : β → β'} (Inv : σ → Prop)
    (turn : ∀ s, Inv s → body' (f s) = (body s).map (Turn.map f g))
    (keep : ∀ s s', Inv s → body s = some (.again s') → Inv s') :
    ∀ (fuel : Nat) (s : σ), Inv s → loop body' fuel (f s) = (loop body fuel s).map g := by
  intro fuel
  induction fuel with
  | zero => intro s _; rfl
  | succ fuel ih =>
    intro s hs
    have ht := turn s hs
    simp only [loop, ht]
    cases hb : body s with
    | none => rfl
    | some o =>
      cases o with
      | again s' => exact ih s' (keep s s' hs hb)
      | done b => rfl

end Lib
