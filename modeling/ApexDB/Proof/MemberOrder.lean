import ApexDB.Spec.ZTree

/-!
# The order of the members

`zless` decides on three levels: the scores, then `memcmp` on the common prefix of the names,
then their lengths. Every search in the tree of a set relies on one fact about it:

> **it is a lexicographic order**, of the scores and then of the names as strings of unsigned bytes.

The fact has nothing to do with what a score is, so it is proved of `zlessOver`, the same
comparison with scores of any linear order (`zlessOver_iff`). Doubles are compared as numbers,
and `0.0` and `-0.0` are one number: `zless` is `zlessOver` on the numbers (`zless_eq_over`),
and so it is **total up to equality of scores**, which is what `==` and `hcmp` together test.

A NaN would destroy this, since it is neither less than, nor greater than, nor equal to
anything. None can get in (`Dbl.notNaN`), and the order is proved for what can.
-/

set_option autoImplicit false

namespace ApexDB

open Lib

universe u

/-! ## 1. Names

`memcmp` compares bytes as unsigned numbers, so the order of names is that of lists of numbers,
and a name comes before any name that it is the beginning of.
-/

theorem map_toNat_lt : ∀ {a b : Bytes}, a.map UInt8.toNat < b.map UInt8.toNat ↔ a < b := by
  intro a
  induction a with
  | nil =>
    intro b
    cases b with
    | nil => simp
    | cons y b => simp
  | cons x a ih =>
    intro b
    cases b with
    | nil => simp
    | cons y b =>
      rw [List.map_cons, List.map_cons, List.cons_lt_cons_iff, List.cons_lt_cons_iff, ih,
        UInt8.lt_iff_toNat_lt, UInt8.toNat_inj]

theorem map_toNat_inj {a b : Bytes} : a.map UInt8.toNat = b.map UInt8.toNat ↔ a = b := by
  have hinj : Function.Injective (List.map UInt8.toNat) :=
    List.map_injective_iff.mpr fun _ _ h => UInt8.toNat_inj.mp h
  exact hinj.eq_iff

theorem memcmp_self : ∀ (a : Bytes) (n : Nat), memcmp a a n = 0 := by
  intro a
  induction a with
  | nil =>
    intro n
    rfl
  | cons x a ih =>
    intro n
    cases n with
    | zero => rfl
    | succ n =>
      rw [memcmp, if_pos rfl]
      exact ih n

/-- Comparing two names the way `zless` does: the common prefix first, then the lengths. -/
theorem memcmp_spec : ∀ (a b : Bytes),
    (memcmp a b (min a.length b.length) < 0 → a < b) ∧
    (0 < memcmp a b (min a.length b.length) → b < a) ∧
    (memcmp a b (min a.length b.length) = 0 →
      (a < b ↔ a.length < b.length) ∧ (a.length = b.length ↔ a = b)) := by
  intro a
  induction a with
  | nil =>
    intro b
    cases b with
    | nil => simp [memcmp]
    | cons y b => simp [memcmp]
  | cons x a ih =>
    intro b
    cases b with
    | nil => simp [memcmp]
    | cons y b =>
      obtain ⟨h₁, h₂, h₃⟩ := ih b
      have hmin : min (x :: a).length (y :: b).length = min a.length b.length + 1 := by
        simp only [List.length_cons]
        omega
      rw [hmin, memcmp, List.cons_lt_cons_iff, List.cons_lt_cons_iff]
      by_cases hxy : x = y
      · subst hxy
        rw [if_pos rfl]
        simp only [UInt8.lt_irrefl, false_or, true_and, List.length_cons, Nat.add_lt_add_iff_right,
          Nat.add_right_cancel_iff, List.cons.injEq]
        exact ⟨h₁, h₂, h₃⟩
      · -- the bytes are compared as unsigned numbers
        have hne : x.toNat ≠ y.toNat := fun h => hxy (UInt8.toNat_inj.mp h)
        rw [if_neg hxy, UInt8.lt_iff_toNat_lt, UInt8.lt_iff_toNat_lt]
        exact ⟨fun h => .inl (by omega), fun h => .inl (by omega), fun h => absurd h (by omega)⟩

theorem hcmp_iff {nodes : Arena ZNode} {i : NodeId} {z : ZNode} (h : nodes.read i = some z)
    (name : Bytes) : hcmp nodes name i = true ↔ z.name = name := by
  simp only [hcmp, h]
  by_cases hlen : z.name.length = name.length
  · rw [if_neg (not_not.mpr hlen), decide_eq_true_iff]
    constructor
    · intro hzero
      have hmin : min z.name.length name.length = z.name.length := by omega
      rw [← hmin] at hzero
      exact ((memcmp_spec z.name name).2.2 hzero).2.mp hlen
    · intro heq
      rw [← heq]
      exact memcmp_self z.name _
  · rw [if_pos hlen]
    exact ⟨fun h => absurd h (by simp), fun h => absurd (by rw [h]) hlen⟩

/-! ## 2. Scores of any linear order

A linear order gives every pair a place, and the comparison is that of the places. Strictness,
transitivity and totality are then those of the linear order, and none of them is proved by
going through the three levels.
-/

/-- **A strict total order up to `same`**: irreflexive, transitive, and of two things one is
less than the other or they are the same. -/
structure StrictTotal {α : Type u} (less same : α → α → Prop) : Prop where
  irrefl : ∀ a, ¬less a a
  trans : ∀ a b c, less a b → less b c → less a c
  trichotomous : ∀ a b, less a b ∨ same a b ∨ less b a
  incomparable : ∀ a b, ¬less a b ∧ ¬less b a ↔ same a b

/-- The order of the places that a linear order gives to things is a strict total one, up to
having the same place. -/
theorem StrictTotal.of_place {α β : Type u} [LinearOrder β] {less same : α → α → Prop} (place : α → β)
    (hless : ∀ a b, less a b ↔ place a < place b) (hsame : ∀ a b, same a b ↔ place a = place b) :
    StrictTotal less same where
  irrefl := by
    intro a
    rw [hless]
    exact lt_irrefl _
  trans := by
    intro a b c
    rw [hless, hless, hless]
    exact lt_trans
  trichotomous := by
    intro a b
    rw [hless, hless, hsame]
    exact lt_trichotomy _ _
  incomparable := by
    intro a b
    rw [hless, hless, hsame, not_lt, not_lt]
    exact ⟨fun h => le_antisymm h.2 h.1, fun h => ⟨h.ge, h.le⟩⟩

section Over

variable {S : Type u}

def pairPlace (a : S × Bytes) : S ×ₗ List Nat := toLex (a.1, a.2.map UInt8.toNat)

theorem pairPlace_inj {a b : S × Bytes} : pairPlace a = pairPlace b ↔ a = b := by
  rw [pairPlace, pairPlace, toLex_inj, Prod.mk.injEq, map_toNat_inj, Prod.ext_iff]

variable [LinearOrder S]

/-- The comparison of `zless` on pairs of a score and a name, for scores of any linear order. -/
def zlessOver (a b : S × Bytes) : Bool :=
  if a.1 ≠ b.1 then decide (a.1 < b.1)
  else
    let rv := memcmp a.2 b.2 (min a.2.length b.2.length)
    if rv ≠ 0 then decide (rv < 0)
    else decide (a.2.length < b.2.length)

theorem pairPlace_lt {a b : S × Bytes} :
    pairPlace a < pairPlace b ↔ a.1 < b.1 ∨ a.1 = b.1 ∧ a.2 < b.2 := by
  rw [pairPlace, pairPlace, Prod.Lex.toLex_lt_toLex, map_toNat_lt]

/-- **The comparison is the order of places.** -/
theorem zlessOver_iff (a b : S × Bytes) : zlessOver a b = true ↔ pairPlace a < pairPlace b := by
  obtain ⟨h₁, h₂, h₃⟩ := memcmp_spec a.2 b.2
  rw [pairPlace_lt, zlessOver]
  by_cases hscore : a.1 = b.1
  · have hasymm : b.2 < a.2 → ¬a.2 < b.2 := by
      rw [← map_toNat_lt, ← map_toNat_lt]
      exact fun h => not_lt_of_gt h
    rw [if_neg (not_not.mpr hscore)]
    simp only [hscore, lt_irrefl, false_or, true_and]
    -- the names differ within the common prefix, or one is a prefix of the other
    by_cases hrv : memcmp a.2 b.2 (min a.2.length b.2.length) = 0
    · rw [if_neg (not_not.mpr hrv), decide_eq_true_iff]
      exact (h₃ hrv).1.symm
    · rw [if_pos hrv, decide_eq_true_iff]
      refine ⟨h₁, fun hlt => ?_⟩
      by_contra hge
      exact hasymm (h₂ (by omega)) hlt
  · rw [if_pos hscore, decide_eq_true_iff]
    simp only [hscore, false_and, or_false]

end Over

/-! ## 3. The two overloads

The source has `zless` for a node and a pair, and for two nodes. The second is the first one at
the second node's score and name.
-/

/-- **`zless` compares doubles as numbers.** -/
theorem zless_eq_over (z : ZNode) (score : Dbl) (name : Bytes) :
    zless z score name = zlessOver (z.score.key, z.name) (score.key, name) := by
  unfold zless zlessOver Dbl.eq Dbl.less
  by_cases hkey : z.score.key = score.key
  · simp [hkey]
  · simp [hkey]

theorem ZNode.place_eq (z : ZNode) : z.place = pairPlace (z.score.key, z.name) := rfl

theorem zless_iff (z : ZNode) (score : Dbl) (name : Bytes) :
    zless z score name = true ↔ z.place < (ZNode.mk score name).place := by
  rw [zless_eq_over, zlessOver_iff, ZNode.place_eq, ZNode.place_eq]

theorem zlessNode_iff (a b : ZNode) : zlessNode a b = true ↔ a.place < b.place :=
  zless_iff a b.score b.name

theorem ZNode.place_eq_iff {a b : ZNode} :
    a.place = b.place ↔ a.score.eq b.score = true ∧ a.name = b.name := by
  rw [ZNode.place_eq, ZNode.place_eq, pairPlace_inj, Prod.mk.injEq, Dbl.eq, beq_iff_eq]

theorem ZNode.place_lt_iff {a b : ZNode} : a.place < b.place ↔
    a.score.less b.score = true ∨ a.score.eq b.score = true ∧ a.name < b.name := by
  rw [ZNode.place_eq, ZNode.place_eq, pairPlace_lt, Dbl.less, Dbl.eq, decide_eq_true_iff, beq_iff_eq]

theorem ZNode.name_eq_of_place_eq {a b : ZNode} (h : a.place = b.place) : a.name = b.name :=
  (ZNode.place_eq_iff.mp h).2

/-- **`zless` is a strict total order that agrees with the equality of keys.** Over scores of
any linear order the comparison is a strict total order on all pairs, and it is the
lexicographic one; so it is on the doubles that are no NaN, where two pairs are the same if the
scores are equal as numbers and the names are equal. Neither of two pairs is less than the other
exactly if the scores are equal and `hcmp` finds the names equal. The overload for two nodes is
the other one at the score and the name of the second. -/
theorem zless_strict_total :
    (∀ (S : Type u) [LinearOrder S],
      StrictTotal (fun a b : S × Bytes => zlessOver a b = true) Eq ∧
      ∀ a b : S × Bytes, zlessOver a b = true ↔ a.1 < b.1 ∨ a.1 = b.1 ∧ a.2 < b.2) ∧
    (∀ z score name, zless z score name = zlessOver (z.score.key, z.name) (score.key, name)) ∧
    StrictTotal (fun a b => zlessNode a b = true)
      (fun a b => a.score.eq b.score = true ∧ a.name = b.name) ∧
    (∀ a b, zlessNode a b = true ↔
      a.score.less b.score = true ∨ a.score.eq b.score = true ∧ a.name < b.name) ∧
    (∀ (nodes : Arena ZNode) (i : NodeId) (z : ZNode), nodes.read i = some z → ∀ score name,
      (zless z score name = false ∧ zless ⟨score, name⟩ z.score z.name = false ↔
        z.score.eq score = true ∧ hcmp nodes name i = true)) ∧
    ∀ a b, zlessNode a b = zless a b.score b.name := by
  have hnodes : StrictTotal (fun a b => zlessNode a b = true)
      (fun a b => a.score.eq b.score = true ∧ a.name = b.name) :=
    .of_place ZNode.place zlessNode_iff fun _ _ => ZNode.place_eq_iff.symm
  refine ⟨fun S _ => ⟨?_, fun a b => ?_⟩, zless_eq_over, hnodes, fun a b => ?_, ?_, fun _ _ => rfl⟩
  · exact .of_place pairPlace zlessOver_iff fun _ _ => pairPlace_inj.symm
  · rw [zlessOver_iff, pairPlace_lt]
  · rw [zlessNode_iff, ZNode.place_lt_iff]
  · intro nodes i z hread score name
    have hsame := hnodes.incomparable z ⟨score, name⟩
    rw [Bool.not_eq_true, Bool.not_eq_true] at hsame
    rw [hcmp_iff hread]
    exact hsame

end ApexDB
