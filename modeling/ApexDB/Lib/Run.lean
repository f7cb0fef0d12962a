import Mathlib.Algebra.Order.Ring.Int

/-!
# `Lib/Run.lean` — whole runs, and refinement of an abstract machine

An implementation is a partial step function `σ → ε → Option (σ × ω)`; what it is *for* is an
abstract `Machine`: how the abstract state moves, which events it may be given, and which
outputs are right answers. The last one is a relation and not a function on purpose, so that an
abstract machine may leave something open (an order of enumeration, say) without a second layer
of quotients.

`run_refines` is the induction over runs, done once: a simulation relation kept by one step is
kept by every legal run, no step of the run faults, and every output is a right one. `run_inv`
is the same for an invariant, and `foldlM_inv` for steps without outputs.

**Legality is the machine's, not the implementation's.** Which events may come next is asked of
the abstract state, so a run is legal or not whatever the implementation does with it, and a
theorem that assumes it assumes nothing about the code. `Takes` is for the other direction:
there the list of calls is what the code produced, and the automaton that takes them or does not
is the specification.
-/

set_option autoImplicit false

namespace Lib

variable {σ τ ε ω : Type}

/-- Run the events in order and collect the outputs, one for each; `none` as soon as a step
faults. -/
def run (step : σ → ε → Option (σ × ω)) : σ → List ε → Option (σ × List ω)
  | s, [] => some (s, [])
  | s, e :: es => do
      let (s', o) ← step s e
      let (s'', os) ← run step s' es
      return (s'', o :: os)

/-- **What every step keeps, every run keeps**, and no step of it faults. -/
theorem run_inv (step : σ → ε → Option (σ × ω)) (Inv : σ → Prop) (P : ε → Prop)
    (one : ∀ s e, P e → Inv s → ∃ s' o, step s e = some (s', o) ∧ Inv s') :
    ∀ (es : List ε) (s : σ), (∀ e ∈ es, P e) → Inv s →
      ∃ s' os, run step s es = some (s', os) ∧ Inv s' := by
  intro es
  induction es with
  | nil => intro s _ hs; exact ⟨s, [], rfl, hs⟩
  | cons e es ih =>
    intro s hP hs
    obtain ⟨s₁, o, hstep, hs₁⟩ := one s e (hP e List.mem_cons_self) hs
    obtain ⟨s₂, os, hrun, hs₂⟩ := ih s₁ (fun e' he' => hP e' (List.mem_cons_of_mem _ he')) hs₁
    exact ⟨s₂, o :: os, by simp [run, hstep, hrun], hs₂⟩

theorem run_length {step : σ → ε → Option (σ × ω)} : ∀ {es : List ε} {s s' : σ} {os : List ω},
    run step s es = some (s', os) → os.length = es.length := by
  intro es
  induction es with
  | nil =>
    intro s s' os h
    cases h
    rfl
  | cons e es ih =>
    intro s s' os h
    obtain ⟨⟨t, o⟩, -, h⟩ := Option.bind_eq_some_iff.mp h
    obtain ⟨⟨u, os₁⟩, hrun, h⟩ := Option.bind_eq_some_iff.mp h
    cases h
    rw [List.length_cons, List.length_cons, ih hrun]

theorem run_append {step : σ → ε → Option (σ × ω)} {es' : List ε} {s₁ s₂ : σ} {os' : List ω}
    (h' : run step s₁ es' = some (s₂, os')) : ∀ {es : List ε} {s : σ} {os : List ω},
    run step s es = some (s₁, os) → run step s (es ++ es') = some (s₂, os ++ os') := by
  intro es
  induction es with
  | nil =>
    intro s os h
    cases h
    exact h'
  | cons e es ih =>
    intro s os h
    obtain ⟨⟨t, o⟩, hstep, h⟩ := Option.bind_eq_some_iff.mp h
    obtain ⟨⟨u, os₁⟩, hrun, h⟩ := Option.bind_eq_some_iff.mp h
    cases h
    simp [run, hstep, ih hrun]

/-- The same rule for steps without outputs: what every step keeps, every run keeps, and no step
of it faults. The predicate `P` is for events that only some runs have. -/
theorem foldlM_inv {step : σ → ε → Option σ} (Inv : σ → Prop) (P : ε → Prop)
    (one : ∀ s e, P e → Inv s → ∃ s', step s e = some s' ∧ Inv s') :
    ∀ (es : List ε) (s : σ), (∀ e ∈ es, P e) → Inv s → ∃ s', es.foldlM step s = some s' ∧ Inv s' := by
  intro es
  induction es with
  | nil => intro s _ hs; exact ⟨s, rfl, hs⟩
  | cons e es ih =>
    intro s hP hs
    obtain ⟨s₁, hstep, hs₁⟩ := one s e (hP e List.mem_cons_self) hs
    obtain ⟨s₂, hrun, hs₂⟩ := ih s₁ (fun e' he' => hP e' (List.mem_cons_of_mem _ he')) hs₁
    exact ⟨s₂, by rw [List.foldlM_cons, hstep]; exact hrun, hs₂⟩

/-- **A checker of calls**: every call is one that `step` takes where it comes, and the last one
leaves `s'`. -/
def Takes (step : σ → ε → Option σ) (s : σ) (es : List ε) (s' : σ) : Prop := es.foldlM step s = some s'

section Takes

variable {step : σ → ε → Option σ} {s s' s'' : σ} {e : ε} {es es' : List ε}

theorem Takes.cons (h : step s e = some s') (h' : Takes step s' es s'') : Takes step s (e :: es) s'' := by
  rw [Takes, List.foldlM_cons, h]
  exact h'

theorem Takes.append (h : Takes step s es s') (h' : Takes step s' es' s'') : Takes step s (es ++ es') s'' := by
  rw [Takes, List.foldlM_append, h]
  exact h'

end Takes

/-- An abstract machine: its moves, the events it accepts, and the outputs it admits. -/
structure Machine (τ ε ω : Type) where
  next : τ → ε → τ
  pre : τ → ε → Prop
  admits : τ → ε → ω → Prop

namespace Machine

def Legal (M : Machine τ ε ω) : τ → List ε → Prop
  | _, [] => True
  | t, e :: es => M.pre t e ∧ M.Legal (M.next t e) es

/-- Every output of the run is one the machine admits where it comes. That there are as many
outputs as events is a part of it. -/
def Admits (M : Machine τ ε ω) : τ → List ε → List ω → Prop
  | _, [], [] => True
  | t, e :: es, o :: os => M.admits t e o ∧ M.Admits (M.next t e) es os
  | _, _, _ => False

def final (M : Machine τ ε ω) (t : τ) (es : List ε) : τ := es.foldl M.next t

theorem Admits.concat {M : Machine τ ε ω} {e : ε} : ∀ {es : List ε} {t : τ} {os : List ω},
    M.Admits t (es ++ [e]) os → ∃ os' o, os = os' ++ [o] ∧ M.admits (M.final t es) e o := by
  intro es
  induction es with
  | nil =>
    intro t os h
    match os, h with
    | [o], h => exact ⟨[], o, rfl, h.1⟩
  | cons e' es ih =>
    intro t os h
    match os, h with
    | o' :: os, h =>
      obtain ⟨os', o, rfl, ho⟩ := ih h.2
      exact ⟨o' :: os', o, rfl, ho⟩

theorem final_concat (M : Machine τ ε ω) (t : τ) (es : List ε) (e : ε) :
    M.final t (es ++ [e]) = M.next (M.final t es) e := by
  rw [final, List.foldl_append]
  rfl

theorem legal_concat (M : Machine τ ε ω) {e : ε} : ∀ {es : List ε} {t : τ},
    M.Legal t (es ++ [e]) ↔ M.Legal t es ∧ M.pre (M.final t es) e := by
  intro es
  induction es with
  | nil => exact fun {t} => ⟨fun h => ⟨trivial, h.1⟩, fun h => ⟨h.2, trivial⟩⟩
  | cons e' es ih =>
    intro t
    show (M.pre t e' ∧ M.Legal _ (es ++ [e])) ↔ (M.pre t e' ∧ M.Legal _ es) ∧ _
    rw [ih, and_assoc]
    rfl

theorem Admits.snoc {M : Machine τ ε ω} {e : ε} {o : ω} : ∀ {es : List ε} {t : τ} {os : List ω},
    M.Admits t es os → M.admits (M.final t es) e o → M.Admits t (es ++ [e]) (os ++ [o]) := by
  intro es
  induction es with
  | nil =>
    intro t os h ho
    match os, h with
    | [], _ => exact ⟨ho, trivial⟩
  | cons e' es ih =>
    intro t os h ho
    match os, h with
    | o' :: os, h => exact ⟨h.1, ih h.2 ho⟩

/-- **A simulation is kept by whole runs**, also when it is one for some events only and the run
has no others. The abstract state moves as `next` says, whatever was answered; what `admits`
leaves open is the output alone. -/
theorem run_refines_on (M : Machine τ ε ω) {step : σ → ε → Option (σ × ω)} {R : σ → τ → Prop}
    {Q : ε → Prop}
    (one : ∀ s t e, R s t → M.pre t e → Q e →
      ∃ s' o, step s e = some (s', o) ∧ M.admits t e o ∧ R s' (M.next t e)) :
    ∀ (es : List ε) (s : σ) (t : τ), R s t → M.Legal t es → (∀ e ∈ es, Q e) →
      ∃ s' os, run step s es = some (s', os) ∧ M.Admits t es os ∧ R s' (M.final t es) := by
  intro es
  induction es with
  | nil => intro s t hR _ _; exact ⟨s, [], rfl, trivial, hR⟩
  | cons e es ih =>
    intro s t hR hleg hQ
    obtain ⟨s₁, o, hstep, ho, hR₁⟩ := one s t e hR hleg.1 (hQ e List.mem_cons_self)
    obtain ⟨s₂, os, hrun, hos, hR₂⟩ := ih s₁ _ hR₁ hleg.2 fun e' he' => hQ e' (List.mem_cons_of_mem _ he')
    exact ⟨s₂, o :: os, by simp [run, hstep, hrun], ⟨ho, hos⟩, hR₂⟩

theorem run_refines (M : Machine τ ε ω) {step : σ → ε → Option (σ × ω)} {R : σ → τ → Prop}
    (one : ∀ s t e, R s t → M.pre t e →
      ∃ s' o, step s e = some (s', o) ∧ M.admits t e o ∧ R s' (M.next t e))
    (es : List ε) (s : σ) (t : τ) (hR : R s t) (hleg : M.Legal t es) :
    ∃ s' os, run step s es = some (s', os) ∧ M.Admits t es os ∧ R s' (M.final t es) :=
  M.run_refines_on (Q := fun _ => True) (fun s t e hR hp _ => one s t e hR hp) es s t hR hleg
    fun _ _ => trivial

end Machine

end Lib
