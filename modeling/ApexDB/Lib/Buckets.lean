import Mathlib.Algebra.Order.Ring.Int
import Mathlib.Data.List.Perm.Basic

/-!
# `Lib/Buckets.lean` — a list of buckets, read as one bag

What a chained table holds is the concatenation of its chains, in no particular order. The one
fact every update needs is that replacing bucket `i` replaces its share of the bag and nothing
else (`flatten_set`); the rest of the file is what an empty bag says about the buckets.

Permutations and not multisets are used, because the chains themselves are lists whose order a
walk along them sees; only what is said of the table as a whole forgets it.
-/

set_option autoImplicit false

namespace Lib

variable {α : Type}

/-- **One bucket against the rest.** The bag is the bucket and something else, and that
something is the same bag whatever the bucket becomes. So an update that is known on one chain
is known on the table. -/
theorem flatten_set : ∀ {tab : List (List α)} {i : Nat} {c : List α}, tab[i]? = some c →
    ∃ rest, tab.flatten.Perm (c ++ rest) ∧ ∀ c', (tab.set i c').flatten.Perm (c' ++ rest) := by
  intro tab
  induction tab with
  | nil => intro i c h; simp at h
  | cons d tab ih =>
    intro i c h
    cases i with
    | zero =>
      simp only [List.getElem?_cons_zero, Option.some.injEq] at h
      subst h
      exact ⟨tab.flatten, by simp, fun c' => by simp⟩
    | succ i =>
      simp only [List.getElem?_cons_succ] at h
      obtain ⟨rest, h₁, h₂⟩ := ih h
      refine ⟨d ++ rest, ?_, fun c' => ?_⟩
      · rw [List.flatten_cons]
        exact (h₁.append_left d).trans (List.perm_append_comm_assoc d c rest)
      · rw [List.set_cons_succ, List.flatten_cons]
        exact ((h₂ c').append_left d).trans (List.perm_append_comm_assoc d c' rest)

theorem mem_flatten_of_getElem? {tab : List (List α)} {i : Nat} {c : List α} {x : α}
    (h : tab[i]? = some c) (hx : x ∈ c) : x ∈ tab.flatten :=
  List.mem_flatten.mpr ⟨c, List.mem_of_getElem? h, hx⟩

theorem getElem?_of_mem_flatten {tab : List (List α)} {x : α} (h : x ∈ tab.flatten) :
    ∃ (i : Nat) (c : List α), tab[i]? = some c ∧ x ∈ c := by
  obtain ⟨c, hc, hx⟩ := List.mem_flatten.mp h
  obtain ⟨i, hi⟩ := List.mem_iff_getElem?.mp hc
  exact ⟨i, c, hi, hx⟩

theorem flatten_eq_nil_of_empty {tab : List (List α)}
    (h : ∀ (i : Nat) (c : List α), tab[i]? = some c → c = []) : tab.flatten = [] := by
  rw [List.flatten_eq_nil_iff]
  intro c hc
  obtain ⟨i, hi⟩ := List.mem_iff_getElem?.mp hc
  exact h i c hi

/-- Taking the `j`-th element out of a list, as a permutation. -/
theorem eraseIdx_perm {l : List α} {j : Nat} {x : α} (h : l[j]? = some x) :
    l.Perm (x :: l.eraseIdx j) := by
  obtain ⟨hj, rfl⟩ := List.getElem?_eq_some_iff.mp h
  exact (List.getElem_cons_eraseIdx_perm hj).symm

end Lib
