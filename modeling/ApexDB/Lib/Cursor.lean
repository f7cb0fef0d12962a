import Mathlib.Data.Int.ModEq
import ApexDB.Lib.AvlTree
import ApexDB.Lib.Loop

/-!
# `Lib/Cursor.lean` — a place in a tree, and walking by rank

A `Loc` is one node of a tree together with its context: what a pointer into a tree with parent
links is. Three ways of getting one are here: searching for a value (`locate`), the first node
that is not below a key (`seek`), and the walk by rank (`rankWalk`), which goes from a node to
the one `offset` places further on with nothing but the sizes of subtrees.

**The sizes are counters that wrap.** The walk reads `numNodes % w`. With fewer than `w` nodes
it is exact rank arithmetic (`rankWalk_spec`). With more it can miss, but it still ends, and why
is worth a lemma: whatever the counters say, the node one descends to never sends one back up
(`not_ascends_of_descends`), because the interval tested at the parent is covered by the one
tested at the child even after wrapping.

So there are two readings of the same loop. A caller that knows its tree to be small has the
place that the ranks say; one that does not know has only that the walk comes to an end in the
same tree, and after how many turns.
-/

set_option autoImplicit false

namespace BinaryTree

variable {α β : Type}

open Lib

/-- A node in its context: what a pointer to it can reach, downwards and upwards. -/
structure Loc (α : Type) where
  val : α
  left : BinaryTree α
  right : BinaryTree α
  ctx : List (Frame α)

namespace Loc

def sub (L : Loc α) : BinaryTree α := node L.val L.left L.right

def tree (L : Loc α) : BinaryTree α := L.sub.plug L.ctx

def rank (L : Loc α) : Nat := (before L.ctx).length + L.left.numNodes

def map (g : α → β) (L : Loc α) : Loc β :=
  ⟨g L.val, L.left.map g, L.right.map g, L.ctx.map (Frame.map g)⟩

@[simp] theorem map_tree (g : α → β) (L : Loc α) : (L.map g).tree = L.tree.map g := by
  unfold tree
  rw [map_plug]
  rfl

theorem inorder_tree (L : Loc α) :
    L.tree.inorder = (before L.ctx ++ L.left.inorder) ++ L.val :: (L.right.inorder ++ after L.ctx) := by
  rw [tree, inorder_plug, sub, inorder_node]
  simp

theorem length_before (L : Loc α) : (before L.ctx ++ L.left.inorder).length = L.rank := by
  rw [List.length_append, length_inorder, rank]

/-- The value at the rank is the value at the node. With `rank_lt` this is what turns a place
into a position of the list of values, and back. -/
theorem getElem?_rank (L : Loc α) : L.tree.inorder[L.rank]? = some L.val := by
  rw [inorder_tree, ← length_before, List.getElem?_append_right (Nat.le_refl _), Nat.sub_self]
  rfl

theorem rank_lt (L : Loc α) : L.rank < L.tree.numNodes := by
  rw [← length_inorder, inorder_tree, List.length_append, length_before, List.length_cons]
  omega

theorem val_mem (L : Loc α) : L.val ∈ L.tree.inorder :=
  List.mem_of_getElem? L.getElem?_rank

end Loc

/-! ## 1. Searching

A search keeps the path that it came by, so what it returns is a place and not a value, and the
tree of the place is the tree that was searched. `seek` and `descend` go by a test that splits
the order in two; which split, is the caller's.
-/

/-- The first node, in the order of the values, that satisfies `p`. -/
def locate (p : α → Bool) : BinaryTree α → List (Frame α) → Option (Loc α)
  | nil, _ => none
  | node x l r, c =>
      (locate p l (⟨.left, x, r⟩ :: c)).or
        (if p x then some ⟨x, l, r, c⟩ else locate p r (⟨.right, x, l⟩ :: c))

theorem locate_some {p : α → Bool} : ∀ {t : BinaryTree α} {c : List (Frame α)} {L : Loc α},
    locate p t c = some L → L.tree = t.plug c ∧ p L.val = true := by
  intro t
  induction t with
  | nil => intro c L h; cases h
  | node x l r ihl ihr =>
    intro c L h
    simp only [locate, Option.or_eq_some_iff] at h
    rcases h with h | ⟨-, h⟩
    · exact ihl h
    · split at h
      · rename_i hx
        cases h
        exact ⟨rfl, hx⟩
      · exact ihr h

theorem locate_none {p : α → Bool} : ∀ {t : BinaryTree α} {c : List (Frame α)},
    locate p t c = none ↔ ∀ x ∈ t.inorder, p x = false := by
  intro t
  induction t with
  | nil => intro c; simp [locate]
  | node x l r ihl ihr =>
    intro c
    simp only [locate, Option.or_eq_none_iff, ihl, inorder_node, List.mem_append, List.mem_cons]
    cases hx : p x with
    | true =>
      simp only [if_true, reduceCtorEq, and_false, false_iff, not_forall]
      exact ⟨x, .inr (.inl rfl), by simp [hx]⟩
    | false =>
      simp only [Bool.false_eq_true, if_false, ihr]
      constructor
      · intro ⟨hl, hr⟩ y hy
        rcases hy with hy | rfl | hy
        · exact hl y hy
        · exact hx
        · exact hr y hy
      · intro h
        exact ⟨fun y hy => h y (.inl hy), fun y hy => h y (.inr (.inr hy))⟩

theorem locate_map (g : α → β) (p : β → Bool) : ∀ (t : BinaryTree α) (c : List (Frame α)),
    locate p (t.map g) (c.map (Frame.map g)) = (locate (fun x => p (g x)) t c).map (Loc.map g) := by
  intro t
  induction t with
  | nil => intro c; rfl
  | node x l r ihl ihr =>
    intro c
    have hl := ihl (⟨.left, x, r⟩ :: c)
    have hr := ihr (⟨.right, x, l⟩ :: c)
    simp only [List.map_cons, Frame.map] at hl hr
    simp only [map_node, locate, hl, hr]
    cases locate (fun x => p (g x)) l (⟨.left, x, r⟩ :: c) with
    | some L => rfl
    | none =>
      simp only [Option.map_none, Option.none_or]
      split <;> rfl

/-- The first node that does not satisfy `p`, when `p` holds on a first part of the values:
right where it holds, otherwise remember the node and go left. -/
def seek (p : α → Bool) : BinaryTree α → List (Frame α) → Option (Loc α) → Option (Loc α)
  | nil, _, best => best
  | node x l r, c, best =>
      if p x then seek p r (⟨.right, x, l⟩ :: c) best
      else seek p l (⟨.left, x, r⟩ :: c) (some ⟨x, l, r, c⟩)

theorem seek_map (g : α → β) (p : β → Bool) : ∀ (t : BinaryTree α) (c : List (Frame α))
    (best : Option (Loc α)), seek p (t.map g) (c.map (Frame.map g)) (best.map (Loc.map g)) =
      (seek (fun x => p (g x)) t c best).map (Loc.map g) := by
  intro t
  induction t with
  | nil => intro c best; rfl
  | node x l r ihl ihr =>
    intro c best
    simp only [map_node, seek]
    split
    · exact ihr (⟨.right, x, l⟩ :: c) best
    · exact ihl (⟨.left, x, r⟩ :: c) (some ⟨x, l, r, c⟩)

theorem seek_of_forall {p : α → Bool} : ∀ {t : BinaryTree α} {c : List (Frame α)}
    {best : Option (Loc α)}, (∀ x ∈ t.inorder, p x = true) → seek p t c best = best := by
  intro t
  induction t with
  | nil => intro c best _; rfl
  | node x l r _ ihr =>
    intro c best h
    rw [seek, if_pos (h x (by simp)), ihr fun y hy => h y (by simp [hy])]

theorem seek_tree {p : α → Bool} : ∀ {u : BinaryTree α} {c : List (Frame α)}
    {b : Option (Loc α)} {L : Loc α}, (∀ M, b = some M → M.tree = u.plug c) →
    seek p u c b = some L → L.tree = u.plug c := by
  intro u
  induction u with
  | nil => intro c b L hb h; exact hb L h
  | node x l r ihl ihr =>
    intro c b L hb h
    simp only [seek] at h
    split at h
    · exact ihr (c := ⟨.right, x, l⟩ :: c) hb h
    · exact ihl (c := ⟨.left, x, r⟩ :: c) (fun M hM => by cases hM; rfl) h

/-- **What `seek` finds**: the place whose rank is the number of values that satisfy `p`, or
nothing when all of them do. -/
theorem seek_spec {p : α → Bool} : ∀ {t : BinaryTree α} {c : List (Frame α)} {b : Option (Loc α)},
    t.inorder.Pairwise (fun x y => p y = true → p x = true) →
    (∀ L, b = some L → L.tree = t.plug c ∧ L.rank = (before c).length + t.numNodes) →
    (∀ L, seek p t c b = some L →
      L.tree = t.plug c ∧ L.rank = (before c).length + t.inorder.countP p) ∧
    (seek p t c b = none → b = none ∧ t.inorder.countP p = t.numNodes) := by
  intro t
  induction t with
  | nil =>
    intro c b _ hbest
    exact ⟨fun L hL => hbest L hL, fun h => ⟨h, rfl⟩⟩
  | node x l r ihl ihr =>
    intro c b hp hbest
    rw [inorder_node, List.pairwise_append, List.pairwise_cons] at hp
    obtain ⟨hl, ⟨hxr, hr⟩, hlx⟩ := hp
    simp only [seek]
    by_cases hx : p x = true
    · -- everything before `x` satisfies `p` too
      have hall : l.inorder.countP p = l.numNodes := by
        rw [← length_inorder, List.countP_eq_length]
        exact fun y hy => hlx y hy x (by simp) hx
      rw [if_pos hx]
      have hcount : (node x l r).inorder.countP p = l.numNodes + 1 + r.inorder.countP p := by
        rw [inorder_node, List.countP_append, List.countP_cons_of_pos hx, hall]
        omega
      have hlen : (before (⟨.right, x, l⟩ :: c)).length = (before c).length + l.numNodes + 1 := by
        simp [before, length_inorder]
        omega
      obtain ⟨h₁, h₂⟩ := ihr (c := ⟨.right, x, l⟩ :: c) (b := b) hr (fun L hL => by
        obtain ⟨ht, hk⟩ := hbest L hL
        refine ⟨ht, ?_⟩
        rw [hk, hlen, numNodes]
        omega)
      refine ⟨fun L hL => ?_, fun h => ?_⟩
      · obtain ⟨ht, hk⟩ := h₁ L hL
        exact ⟨ht, by rw [hk, hlen, hcount]; omega⟩
      · obtain ⟨hb, hk⟩ := h₂ h
        exact ⟨hb, by rw [hcount, hk, numNodes]; omega⟩
    · -- nothing from `x` on satisfies `p`
      have hnone : r.inorder.countP p = 0 := by
        rw [List.countP_eq_zero]
        exact fun y hy hpy => hx (hxr y hy hpy)
      have hcount : (node x l r).inorder.countP p = l.inorder.countP p := by
        rw [inorder_node, List.countP_append, List.countP_cons_of_neg hx, hnone, Nat.add_zero]
      rw [if_neg hx]
      obtain ⟨h₁, h₂⟩ := ihl (c := ⟨.left, x, r⟩ :: c) (b := some ⟨x, l, r, c⟩) hl (fun L hL => by
        cases hL
        exact ⟨rfl, rfl⟩)
      refine ⟨fun L hL => ?_, fun h => absurd (h₂ h).1 (by simp)⟩
      obtain ⟨ht, hk⟩ := h₁ L hL
      exact ⟨ht, by rw [hk, hcount]; rfl⟩

/-- The empty place a new value goes to: left of the values `lt` holds of, right of the others.
-/
def descend (lt : α → Bool) : BinaryTree α → List (Frame α) → List (Frame α)
  | nil, c => c
  | node x l r, c =>
      if lt x then descend lt l (⟨.left, x, r⟩ :: c) else descend lt r (⟨.right, x, l⟩ :: c)

theorem plug_descend (lt : α → Bool) : ∀ (t : BinaryTree α) (c : List (Frame α)),
    nil.plug (descend lt t c) = t.plug c := by
  intro t
  induction t with
  | nil => intro c; rfl
  | node x l r ihl ihr =>
    intro c
    simp only [descend]
    split
    · exact ihl _
    · exact ihr _

theorem descend_map (g : α → β) (lt : β → Bool) : ∀ (t : BinaryTree α) (c : List (Frame α)),
    descend lt (t.map g) (c.map (Frame.map g)) =
      (descend (fun x => lt (g x)) t c).map (Frame.map g) := by
  intro t
  induction t with
  | nil => intro c; rfl
  | node x l r ihl ihr =>
    intro c
    simp only [map_node, descend]
    split
    · exact ihl (⟨.left, x, r⟩ :: c)
    · exact ihr (⟨.right, x, l⟩ :: c)

/-- When `lt` holds on a last part of the values, the new place stands between the two parts. -/
theorem descend_split {lt : α → Bool} : ∀ {t : BinaryTree α} {c : List (Frame α)},
    t.inorder.Pairwise (fun x y => lt x = true → lt y = true) →
    before (descend lt t c) = before c ++ t.inorder.filter (fun x => !lt x) ∧
      after (descend lt t c) = t.inorder.filter lt ++ after c := by
  intro t
  induction t with
  | nil => intro c _; simp [descend]
  | node x l r ihl ihr =>
    intro c hp
    rw [inorder_node, List.pairwise_append, List.pairwise_cons] at hp
    obtain ⟨hl, ⟨hxr, hr⟩, hlx⟩ := hp
    simp only [descend]
    by_cases hx : lt x = true
    · have hall : ∀ y ∈ r.inorder, lt y = true := fun y hy => hxr y hy hx
      have hnone : r.inorder.filter (fun x => !lt x) = [] :=
        List.filter_eq_nil_iff.mpr fun y hy => by simp [hall y hy]
      rw [if_pos hx]
      obtain ⟨h₁, h₂⟩ := ihl (c := ⟨.left, x, r⟩ :: c) hl
      rw [h₁, h₂]
      simp [before, after, hx, hnone, List.filter_eq_self.mpr hall]
    · have hall : ∀ y ∈ l.inorder, lt y = false := by
        intro y hy
        cases hly : lt y with
        | false => rfl
        | true => exact absurd (hlx y hy x (by simp) hly) hx
      have hnone : l.inorder.filter lt = [] :=
        List.filter_eq_nil_iff.mpr fun y hy => by simp [hall y hy]
      have hself : l.inorder.filter (fun x => !lt x) = l.inorder :=
        List.filter_eq_self.mpr fun y hy => by simp [hall y hy]
      rw [if_neg hx]
      obtain ⟨h₁, h₂⟩ := ihr (c := ⟨.right, x, l⟩ :: c) hr
      rw [h₁, h₂]
      simp [before, after, hx, hnone, hself]

/-! ## 2. The walk by rank

One turn compares the offset with the interval of ranks under the node. If it lies in the right
or the left subtree the walk goes down there, otherwise it goes up, and `pos` is kept at the
distance from the start. Once it has gone down it does not go up again, so it takes at most two
heights of turns (`rankWalk_short`).
-/

section Walk

variable (w : Nat)

/-- The size of a subtree, as the counter holds it. The width `w` is a parameter of the section.
-/
def count (t : BinaryTree α) : Nat := t.numNodes % w

/-- The distance over a subtree to the next node, as the counter gives it. -/
def stride (t : BinaryTree α) : Nat := (count w t + 1) % w

def Loc.down (L : Loc α) (s : Side) : Option (Loc α) :=
  match L.sub.child s with
  | nil => none
  | node x l r => some ⟨x, l, r, ⟨s, L.val, L.sub.child s.flip⟩ :: L.ctx⟩

def Frame.loc (f : Frame α) (t : BinaryTree α) (c : List (Frame α)) : Loc α :=
  match f.side with
  | .left => ⟨f.val, t, f.sibling, c⟩
  | .right => ⟨f.val, f.sibling, t, c⟩

/-- One turn of the walk: at this place, `pos` places from the start. -/
def rankTurn (offset : Int) (s : Loc α × Int) :
    Option (Turn (Loc α × Int) (Option (Loc α))) :=
  let (L, pos) := s
  if offset = pos then some (.done (some L))
  else if pos < offset ∧ offset ≤ pos + count w L.right then do
    let M ← L.down .right
    return .again (M, pos + stride w M.left)
  else if offset < pos ∧ pos - count w L.left ≤ offset then do
    let M ← L.down .left
    return .again (M, pos - stride w M.right)
  else
    match L.ctx with
    | [] => some (.done none)
    | f :: c => some (.again (f.loc L.sub c,
        if f.side = .right then pos - stride w L.left else pos + stride w L.right))

/-- The place `offset` further on. The fuel is more than `remaining` of any place in the tree.
-/
def rankWalk (L : Loc α) (offset : Int) : Option (Loc α) :=
  (loop (rankTurn w offset) (2 * L.tree.numNodes + 2) (L, 0)).join

/-- The turn at this place goes up, or would, if there were an ancestor. -/
def Ascends (offset : Int) (s : Loc α × Int) : Prop :=
  offset ≠ s.2 ∧ ¬(s.2 < offset ∧ offset ≤ s.2 + count w s.1.right) ∧
    ¬(offset < s.2 ∧ s.2 - count w s.1.left ≤ offset)

variable {w}

theorem Loc.tree_down {L M : Loc α} {s : Side} (h : L.down s = some M) :
    M.tree = L.tree ∧ M.sub = L.sub.child s := by
  unfold Loc.down at h
  split at h
  · exact absurd h (by simp)
  · rename_i x l r hc
    cases h
    refine ⟨?_, hc.symm⟩
    have hfill : join s L.val (node x l r) (L.sub.child s.flip) = L.sub := by
      rw [← hc]
      exact (node_eq_join s L.val L.left L.right).symm
    exact congrArg (plug · L.ctx) hfill

theorem Frame.tree_loc (f : Frame α) (t : BinaryTree α) (c : List (Frame α)) :
    (f.loc t c).tree = t.plug (f :: c) ∧ (f.loc t c).sub = f.fill t := by
  obtain ⟨side, x, u⟩ := f
  cases side <;> exact ⟨rfl, rfl⟩

/-- A counter that is not zero counts something, wrapped or not: so the link that the walk
follows is there. -/
theorem Loc.exists_down {L : Loc α} {s : Side} (h : 0 < count w (L.sub.child s)) :
    ∃ M, L.down s = some M := by
  unfold Loc.down
  cases hc : L.sub.child s with
  | nil => rw [hc] at h; exact absurd h (by simp [count])
  | node x l r => exact ⟨_, rfl⟩

/-- How the counters of a node and its subtrees compare, wrapping included. -/
theorem count_node (hw : 0 < w) (x : α) (l r : BinaryTree α) :
    (stride w l = count w l + 1 ∧ count w (node x l r) ≤ count w l + 1 + count w r) ∨
    (stride w l = 0 ∧ count w (node x l r) = count w r) := by
  have hlt : count w l < w := Nat.mod_lt _ hw
  have hsum : count w (node x l r) = (count w l + 1 + count w r) % w := by
    unfold count
    rw [numNodes, Nat.add_right_comm]
    exact (((Nat.mod_modEq l.numNodes w).add_right 1).add (Nat.mod_modEq r.numNodes w)).symm
  rcases Nat.lt_or_ge (count w l + 1) w with h | h
  · refine .inl ⟨Nat.mod_eq_of_lt h, ?_⟩
    rw [hsum]
    exact Nat.mod_le _ _
  · have heq : count w l + 1 = w := by omega
    refine .inr ⟨?_, ?_⟩
    · rw [stride, heq, Nat.mod_self]
    · rw [hsum, heq, Nat.add_mod_left]
      exact Nat.mod_mod _ _

theorem count_node' (hw : 0 < w) (x : α) (l r : BinaryTree α) :
    (stride w r = count w r + 1 ∧ count w (node x l r) ≤ count w r + 1 + count w l) ∨
    (stride w r = 0 ∧ count w (node x l r) = count w l) := by
  have hswap : count w (node x r l) = count w (node x l r) := by
    rw [count, count, numNodes, numNodes, Nat.add_comm r.numNodes]
  have h := count_node hw x r l
  rwa [hswap] at h

/-- **A step down is never taken back.** The interval that was tested at the parent is covered
by the one that is tested at the child, even after wrapping. -/
theorem not_ascends_of_descends (hw : 0 < w) {offset : Int} {L : Loc α} {pos : Int}
    {s' : Loc α × Int} (h : rankTurn w offset (L, pos) = some (.again s'))
    (hd : ¬Ascends w offset (L, pos)) :
    ¬Ascends w offset s' ∧ s'.1.tree = L.tree ∧ s'.1.sub.numNodes < L.sub.numNodes := by
  simp only [rankTurn] at h
  split at h
  · exact absurd h (by simp)
  · split at h
    · rename_i hne hr
      obtain ⟨M, hM, hs'⟩ := Option.bind_eq_some_iff.mp h
      cases hs'
      obtain ⟨htree, hsub⟩ := Loc.tree_down hM
      have hright : L.right = M.sub := hsub.symm
      refine ⟨?_, htree, ?_⟩
      · rintro ⟨h₁, h₂, h₃⟩
        have hc := count_node hw M.val M.left M.right
        rw [hright, Loc.sub] at hr
        simp only at h₁ h₂ h₃
        omega
      · rw [hsub]
        simp only [Loc.sub, child, numNodes]
        omega
    · split at h
      · rename_i hne hr hl
        obtain ⟨M, hM, hs'⟩ := Option.bind_eq_some_iff.mp h
        cases hs'
        obtain ⟨htree, hsub⟩ := Loc.tree_down hM
        have hleft : L.left = M.sub := hsub.symm
        refine ⟨?_, htree, ?_⟩
        · rintro ⟨h₁, h₂, h₃⟩
          have hc := count_node' hw M.val M.left M.right
          rw [hleft, Loc.sub] at hl
          simp only at h₁ h₂ h₃
          omega
        · rw [hsub]
          simp only [Loc.sub, child, numNodes]
          omega
      · rename_i hne hr hl
        exact absurd ⟨hne, hr, hl⟩ hd

instance (offset : Int) (s : Loc α × Int) : Decidable (Ascends w offset s) := by
  unfold Ascends
  infer_instance

/-- What is left of the walk: while it goes up, the rest of the path and any descent after it;
once it goes down, the subtree. -/
def remaining (w : Nat) (offset : Int) (s : Loc α × Int) : Nat :=
  if Ascends w offset s then s.1.tree.numNodes + s.1.ctx.length + 1 else s.1.sub.numNodes

theorem Loc.sub_le_tree (L : Loc α) : L.sub.numNodes + L.ctx.length ≤ L.tree.numNodes := by
  have h := (perm_inorder_plug L.ctx L.sub).length_eq
  rw [List.length_append, length_inorder, length_inorder] at h
  have := length_le_length_outside L.ctx
  rw [Loc.tree]
  omega

theorem remaining_le (offset : Int) (s : Loc α × Int) :
    remaining w offset s ≤ s.1.tree.numNodes + s.1.ctx.length + 1 := by
  have h := s.1.sub_le_tree
  unfold remaining
  split <;> omega

theorem rankTurn_step (hw : 0 < w) (offset : Int) (s : Loc α × Int) :
    (∃ s', rankTurn w offset s = some (.again s') ∧ s'.1.tree = s.1.tree ∧
      remaining w offset s' < remaining w offset s) ∨
    ∃ b, rankTurn w offset s = some (.done b) ∧ ∀ M, b = some M → M.tree = s.1.tree := by
  obtain ⟨L, pos⟩ := s
  by_cases ha : Ascends w offset (L, pos)
  · obtain ⟨h₁, h₂, h₃⟩ := id ha
    simp only at h₁ h₂ h₃
    cases hc : L.ctx with
    | nil =>
      refine .inr ⟨none, ?_, by simp⟩
      simp only [rankTurn, if_neg h₁, if_neg h₂, if_neg h₃, hc]
    | cons f c =>
      obtain ⟨htree, hsub⟩ := f.tree_loc L.sub c
      have heq : (f.loc L.sub c).tree = L.tree := by rw [htree, ← hc, Loc.tree]
      refine .inl ⟨_, by simp only [rankTurn, if_neg h₁, if_neg h₂, if_neg h₃, hc]; rfl, heq, ?_⟩
      have hlen : (f.loc L.sub c).ctx.length = c.length := by
        unfold Frame.loc
        split <;> rfl
      refine Nat.lt_of_le_of_lt (remaining_le offset _) ?_
      rw [remaining, if_pos ha, heq, hlen, hc, List.length_cons]
      exact Nat.lt_succ_self _
  · have hstay : ∀ s', rankTurn w offset (L, pos) = some (.again s') →
        s'.1.tree = L.tree ∧ remaining w offset s' < remaining w offset (L, pos) := by
      intro s' h
      obtain ⟨hna, htree, hlt⟩ := not_ascends_of_descends hw h ha
      unfold remaining
      rw [if_neg hna, if_neg ha]
      exact ⟨htree, hlt⟩
    by_cases h₁ : offset = pos
    · exact .inr ⟨some L, by simp only [rankTurn, if_pos h₁], fun M hM => by cases hM; rfl⟩
    by_cases h₂ : pos < offset ∧ offset ≤ pos + count w L.right
    · obtain ⟨M, hM⟩ := Loc.exists_down (w := w) (L := L) (s := .right) (by
        change 0 < count w L.right
        omega)
      have hturn : rankTurn w offset (L, pos) = some (.again (M, pos + stride w M.left)) := by
        simp only [rankTurn, if_neg h₁, if_pos h₂, hM]
        rfl
      exact .inl ⟨_, hturn, hstay _ hturn⟩
    by_cases h₃ : offset < pos ∧ pos - count w L.left ≤ offset
    · obtain ⟨M, hM⟩ := Loc.exists_down (w := w) (L := L) (s := .left) (by
        change 0 < count w L.left
        omega)
      have hturn : rankTurn w offset (L, pos) = some (.again (M, pos - stride w M.right)) := by
        simp only [rankTurn, if_neg h₁, if_neg h₂, if_pos h₃, hM]
        rfl
      exact .inl ⟨_, hturn, hstay _ hturn⟩
    exact absurd ⟨h₁, h₂, h₃⟩ ha

/-- **The walk ends**, whatever the counters say, and ends in the same tree. -/
theorem rankWalk_total (hw : 0 < w) (L : Loc α) (offset : Int) {fuel : Nat}
    (hfuel : 2 * L.tree.numNodes + 2 ≤ fuel) :
    loop (rankTurn w offset) fuel (L, 0) = some (rankWalk w L offset) ∧
      ∀ M, rankWalk w L offset = some M → M.tree = L.tree := by
  obtain ⟨b, hb, htree⟩ := loop_total (rankTurn w offset) (fun s => s.1.tree = L.tree)
    (remaining w offset) (fun b => ∀ M, b = some M → M.tree = L.tree)
    (fun s hs => by
      rcases rankTurn_step hw offset s with ⟨s', h, ht, hlt⟩ | ⟨b, h, ht⟩
      · exact .inl ⟨s', h, ht.trans hs, hlt⟩
      · exact .inr ⟨b, h, fun M hM => (ht M hM).trans hs⟩)
    (2 * L.tree.numNodes + 2) (L, 0) rfl (by
      have h₁ := remaining_le (w := w) offset (L, 0)
      have h₂ := L.sub_le_tree
      simp only at h₁
      omega)
  have hwalk : rankWalk w L offset = b := by rw [rankWalk, hb, Option.join_some]
  rw [hwalk]
  exact ⟨loop_mono hb hfuel, htree⟩

theorem rankTurn_down {offset : Int} {L : Loc α} {pos : Int} {s' : Loc α × Int}
    (h : rankTurn w offset (L, pos) = some (.again s')) (hd : ¬Ascends w offset (L, pos)) :
    ∃ s, L.down s = some s'.1 := by
  simp only [rankTurn] at h
  split at h
  · exact absurd h (by simp)
  · rename_i hne
    split at h
    · obtain ⟨M, hM, hs'⟩ := Option.bind_eq_some_iff.mp h
      cases hs'
      exact ⟨.right, hM⟩
    · rename_i hr
      split at h
      · obtain ⟨M, hM, hs'⟩ := Option.bind_eq_some_iff.mp h
        cases hs'
        exact ⟨.left, hM⟩
      · rename_i hl
        exact absurd ⟨hne, hr, hl⟩ hd

/-- What is left of the walk, counted in levels of the tree: those up to the root and down again
while it goes up, those below once it goes down. -/
def levels (w : Nat) (offset : Int) (s : Loc α × Int) : Nat :=
  if Ascends w offset s then s.1.tree.height + s.1.ctx.length + 1 else s.1.sub.height

theorem levels_le (offset : Int) (s : Loc α × Int) :
    levels w offset s ≤ s.1.tree.height + s.1.ctx.length + 1 := by
  have h : s.1.sub.height + s.1.ctx.length ≤ s.1.tree.height := height_add_length_le_plug _ _
  unfold levels
  split <;> omega

/-- Every turn of the walk uses up a level. -/
theorem levels_lt (hw : 0 < w) {offset : Int} {s s' : Loc α × Int}
    (h : rankTurn w offset s = some (.again s')) : levels w offset s' < levels w offset s := by
  obtain ⟨L, pos⟩ := s
  by_cases ha : Ascends w offset (L, pos)
  · obtain ⟨h₁, h₂, h₃⟩ := id ha
    simp only [rankTurn, if_neg h₁, if_neg h₂, if_neg h₃] at h
    cases hc : L.ctx with
    | nil => simp only [hc] at h; exact absurd h (by simp)
    | cons f c =>
      simp only [hc, Option.some.injEq, Turn.again.injEq] at h
      obtain ⟨htree, -⟩ := f.tree_loc L.sub c
      have heq : (f.loc L.sub c).tree = L.tree := by rw [htree, ← hc, Loc.tree]
      have hlen : (f.loc L.sub c).ctx.length = c.length := by
        unfold Frame.loc
        split <;> rfl
      subst h
      refine Nat.lt_of_le_of_lt (levels_le offset _) ?_
      rw [levels, if_pos ha, heq, hlen, hc, List.length_cons]
      exact Nat.lt_succ_self _
  · obtain ⟨side, hdown⟩ := rankTurn_down h ha
    obtain ⟨hna, -, -⟩ := not_ascends_of_descends hw h ha
    rw [levels, levels, if_neg hna, if_neg ha, (Loc.tree_down hdown).2]
    cases side with
    | left => exact Nat.lt_succ_of_le (Nat.le_max_left _ _)
    | right => exact Nat.lt_succ_of_le (Nat.le_max_right _ _)

/-- **The walk goes up at most once and down at most once.** -/
theorem rankWalk_short (hw : 0 < w) (L : Loc α) (offset : Int) :
    loop (rankTurn w offset) (2 * L.tree.height + 1) (L, 0) = some (rankWalk w L offset) := by
  have hdepth : L.sub.height + L.ctx.length ≤ L.tree.height := height_add_length_le_plug _ _
  have hsub : 0 < L.sub.height := Nat.succ_pos _
  obtain ⟨b, hb, -⟩ := loop_total (rankTurn w offset) (fun _ => True) (levels w offset) (fun _ => True)
    (fun s _ => by
      rcases rankTurn_step hw offset s with ⟨s', h, -, -⟩ | ⟨b, h, -⟩
      · exact .inl ⟨s', h, trivial, levels_lt hw h⟩
      · exact .inr ⟨b, h, trivial⟩)
    (2 * L.tree.height + 1) (L, 0) trivial (by
      have h := levels_le (w := w) offset (L, 0)
      simp only at h
      omega)
  have hlong := loop_mono hb (Nat.le_add_right _ (2 * L.tree.numNodes + 2))
  rw [(rankWalk_total hw L offset (Nat.le_add_left _ _)).1] at hlong
  rw [hb, ← hlong]

theorem Loc.rank_down_right {L M : Loc α} (h : L.down .right = some M) :
    M.rank = L.rank + (M.left.numNodes + 1) := by
  unfold Loc.down at h
  split at h
  · exact absurd h (by simp)
  · cases h
    simp [Loc.rank, before, Loc.sub, child, length_inorder]
    omega

theorem Loc.rank_down_left {L M : Loc α} (h : L.down .left = some M) :
    L.rank = M.rank + (M.right.numNodes + 1) := by
  have hsub := (Loc.tree_down h).2
  unfold Loc.down at h
  split at h
  · exact absurd h (by simp)
  · cases h
    have hnum := congrArg numNodes hsub
    simp only [Loc.sub, child, numNodes] at hnum
    simp only [Loc.rank, before]
    omega

theorem Frame.rank_loc (f : Frame α) (L : Loc α) (c : List (Frame α)) (h : L.ctx = f :: c) :
    (f.side = .right → L.rank = (f.loc L.sub c).rank + (L.left.numNodes + 1)) ∧
    (f.side = .left → (f.loc L.sub c).rank = L.rank + (L.right.numNodes + 1)) := by
  obtain ⟨side, x, u⟩ := f
  cases side with
  | left =>
    refine ⟨fun hs => absurd hs (by simp), fun _ => ?_⟩
    simp only [Loc.rank, h, before, Frame.loc, Loc.sub, numNodes]
    omega
  | right =>
    refine ⟨fun _ => ?_, fun hs => absurd hs (by simp)⟩
    simp [Loc.rank, h, before, Frame.loc, length_inorder]
    omega

theorem count_of_le {t u : BinaryTree α} (hw : u.numNodes < w) (h : t.numNodes < u.numNodes) :
    count w t = t.numNodes ∧ stride w t = t.numNodes + 1 := by
  have hc : count w t = t.numNodes := Nat.mod_eq_of_lt (by omega)
  exact ⟨hc, by rw [stride, hc]; exact Nat.mod_eq_of_lt (by omega)⟩

/-- From the root the walk never gets as far as the counters go: an offset of `w` or more, in
either direction, finds nothing, whatever is in the tree. -/
theorem rankWalk_root (hw : 0 < w) (x : α) (l r : BinaryTree α) {offset : Int}
    (h : (w : Int) ≤ offset ∨ offset ≤ -(w : Int)) : rankWalk w ⟨x, l, r, []⟩ offset = none := by
  have hl : count w l < w := Nat.mod_lt _ hw
  have hr : count w r < w := Nat.mod_lt _ hw
  have hturn : rankTurn w offset (⟨x, l, r, []⟩, 0) = some (.done none) := by
    rw [rankTurn, if_neg (by omega), if_neg (by dsimp only; omega), if_neg (by dsimp only; omega)]
  rw [rankWalk, loop_done hturn]
  rfl

theorem Loc.children_lt (L : Loc α) : L.left.numNodes + L.right.numNodes < L.tree.numNodes := by
  have h := L.sub_le_tree
  rw [Loc.sub, numNodes] at h
  omega

/-- **`pos` is the difference of the ranks**, as long as the counters can count the nodes. -/
theorem rankTurn_rank {offset r : Int} {s s' : Loc α × Int} (hw : s.1.tree.numNodes < w)
    (hrank : (s.1.rank : Int) = r + s.2) (h : rankTurn w offset s = some (.again s')) :
    s'.1.tree = s.1.tree ∧ (s'.1.rank : Int) = r + s'.2 := by
  obtain ⟨M, pos⟩ := s
  have hM := M.children_lt
  simp only [rankTurn] at h hrank hw
  split at h
  · exact absurd h (by simp)
  · split at h
    · obtain ⟨N, hN, hs'⟩ := Option.bind_eq_some_iff.mp h
      cases hs'
      have hN' := (Loc.tree_down hN).1
      have hlt := N.children_lt
      rw [hN'] at hlt
      have hstride := (count_of_le (t := N.left) hw (by omega)).2
      have hr := Loc.rank_down_right hN
      exact ⟨hN', by simp only; omega⟩
    · split at h
      · obtain ⟨N, hN, hs'⟩ := Option.bind_eq_some_iff.mp h
        cases hs'
        have hN' := (Loc.tree_down hN).1
        have hlt := N.children_lt
        rw [hN'] at hlt
        have hstride := (count_of_le (t := N.right) hw (by omega)).2
        have hr := Loc.rank_down_left hN
        exact ⟨hN', by simp only; omega⟩
      · split at h
        · exact absurd h (by simp)
        · rename_i f c hc
          cases h
          obtain ⟨hright, hleft⟩ := f.rank_loc M c hc
          have hl := (count_of_le (t := M.left) hw (by omega)).2
          have hr := (count_of_le (t := M.right) hw (by omega)).2
          refine ⟨?_, ?_⟩
          · rw [(f.tree_loc M.sub c).1, ← hc]
            rfl
          · simp only
            cases hs : f.side with
            | left => have := hleft hs; simp only [reduceCtorEq, if_false]; omega
            | right => have := hright hs; simp only [if_true]; omega

/-- **With fewer nodes than the counters can count, the walk is rank arithmetic**: the answer is
the node `offset` places on, or nothing when there is none. -/
theorem rankWalk_spec (L : Loc α) (offset : Int) (hw : L.tree.numNodes < w) :
    (∀ M, rankWalk w L offset = some M → M.tree = L.tree ∧ (M.rank : Int) = L.rank + offset) ∧
    (rankWalk w L offset = none → L.rank + offset < 0 ∨ (L.tree.numNodes : Int) ≤ L.rank + offset) := by
  have hpos : 0 < w := by omega
  have htotal := (rankWalk_total hpos L offset (Nat.le_refl _)).1
  have key := loop_inv (fun s : Loc α × Int => s.1.tree = L.tree ∧ (s.1.rank : Int) = L.rank + s.2)
    (fun b : Option (Loc α) => (∀ M, b = some M → M.tree = L.tree ∧ (M.rank : Int) = L.rank + offset) ∧
      (b = none → L.rank + offset < 0 ∨ (L.tree.numNodes : Int) ≤ L.rank + offset))
    ?_ ?_ ⟨rfl, by simp⟩ htotal
  · exact key
  · intro s s' hs h
    obtain ⟨htree, hrank⟩ := rankTurn_rank (hs.1 ▸ hw) hs.2 h
    exact ⟨htree.trans hs.1, hrank⟩
  · intro ⟨M, pos⟩ b ⟨htree, hrank⟩ h
    simp only at htree hrank
    have hM := htree ▸ M.children_lt
    simp only [rankTurn] at h
    split at h
    · rename_i heq
      cases h
      refine ⟨fun N hN => ?_, fun hb => absurd hb (by simp)⟩
      cases hN
      exact ⟨htree, by rw [heq]; exact hrank⟩
    · split at h
      · obtain ⟨N, -, hs'⟩ := Option.bind_eq_some_iff.mp h
        exact absurd hs' (by simp)
      · split at h
        · obtain ⟨N, -, hs'⟩ := Option.bind_eq_some_iff.mp h
          exact absurd hs' (by simp)
        · split at h
          · rename_i hne hnr hnl hc
            cases h
            refine ⟨fun N hN => absurd hN (by simp), fun _ => ?_⟩
            have hl := (count_of_le (t := M.left) hw (by omega)).1
            have hr := (count_of_le (t := M.right) hw (by omega)).1
            have hrk : M.rank = M.left.numNodes := by simp [Loc.rank, hc, before]
            have hnum : L.tree.numNodes = M.left.numNodes + M.right.numNodes + 1 := by
              rw [← htree, Loc.tree, hc, plug_nil, Loc.sub, numNodes]
            omega
          · exact absurd h (by simp)

theorem Loc.down_map (g : α → β) (L : Loc α) (s : Side) :
    (L.map g).down s = (L.down s).map (Loc.map g) := by
  have hchild : (L.map g).sub.child s = (L.sub.child s).map g := map_child g s L.sub
  unfold Loc.down
  rw [hchild]
  cases hc : L.sub.child s with
  | nil => rfl
  | node x l r =>
    simp only [map_node, Option.map_some, Loc.map, List.map_cons, Frame.map, ← map_child]
    rfl

@[simp] theorem count_map (g : α → β) (t : BinaryTree α) : count w (t.map g) = count w t := by
  rw [count, count, numNodes_map]

@[simp] theorem stride_map (g : α → β) (t : BinaryTree α) : stride w (t.map g) = stride w t := by
  rw [stride, stride, count_map]

theorem rankWalk_map (g : α → β) (L : Loc α) (offset : Int) :
    rankWalk w (L.map g) offset = (rankWalk w L offset).map (Loc.map g) := by
  have hturn : ∀ s : Loc α × Int, rankTurn w offset (s.1.map g, s.2) =
      (rankTurn w offset s).map (Turn.map (fun s => (s.1.map g, s.2)) (Option.map (Loc.map g))) := by
    intro ⟨L, pos⟩
    have hl : count w (L.map g).left = count w L.left := count_map g L.left
    have hr : count w (L.map g).right = count w L.right := count_map g L.right
    simp only [rankTurn, hl, hr, Loc.down_map]
    split
    · rfl
    · split
      · cases L.down .right with
        | none => rfl
        | some M => simp [Turn.map, Loc.map]
      · split
        · cases L.down .left with
          | none => rfl
          | some M => simp [Turn.map, Loc.map]
        · cases hc : L.ctx with
          | nil => simp [Loc.map, hc, Turn.map]
          | cons f c =>
            obtain ⟨side, x, u⟩ := f
            cases side <;> simp [Loc.map, hc, Turn.map, Frame.map, Frame.loc, Loc.sub]
  have hlock := loop_lockstep (fun _ => True) (fun s _ => hturn s) (fun _ _ _ _ => trivial)
    (2 * L.tree.numNodes + 2) (L, 0) trivial
  rw [rankWalk, rankWalk, Loc.map_tree, numNodes_map, hlock]
  cases loop (rankTurn w offset) (2 * L.tree.numNodes + 2) (L, 0) with
  | none => rfl
  | some b => rfl

end Walk

end BinaryTree
