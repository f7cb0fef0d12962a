import Mathlib.Algebra.Order.Ring.Int
import Mathlib.Data.Nat.Fib.Basic
import Mathlib.Data.Tree.Basic
import Mathlib.Data.List.Nodup

/-!
# `Lib/AvlTree.lean` — AVL trees with the hole in view

Height-balanced trees in the form an in-place implementation works on them: never from the root
down, always at one node with the path back to the root in hand. That path is a list of
`Frame`s, innermost first, and `plug t c` is the whole tree when `t` stands in the hole of `c`.

Left and right are one notion, `Side`: `join s x t u` is the node with `t` on side `s`, and
every rotation and every lemma about one is stated for a side, so that nothing is proved twice.

**One lemma does insertion and deletion.** `balanced_fixUp` says that if the tree in the hole is
replaced by a balanced one whose height moved by at most one, then rebalancing every ancestor on
the way up gives a balanced tree. A new leaf and a spliced-out node are the two instances, and
nothing is said about *which* rotations happen.

The trees carry values of any type and nothing looks at them. So a tree of addresses and the
tree of what is stored at these addresses are rebalanced alike: every operation commutes with
`BinaryTree.map`, and the order of the values is a matter of `inorder` alone, which no rotation
changes.
-/

set_option autoImplicit false

inductive Side where
  | left
  | right
  deriving DecidableEq, Repr

namespace Side

def flip : Side → Side
  | left => right
  | right => left

@[simp] theorem flip_left : left.flip = right := rfl
@[simp] theorem flip_right : right.flip = left := rfl
@[simp] theorem flip_flip (s : Side) : s.flip.flip = s := by cases s <;> rfl

end Side

namespace BinaryTree

variable {α β : Type}

/-! ## 1. Order of the nodes

`BinaryTree` with its height and its number of nodes is Mathlib's. What is added is the list of
the values from left to right, and that relabelling the nodes is relabelling that list.
-/

/-- The values from left to right. -/
def inorder : BinaryTree α → List α
  | nil => []
  | node x l r => l.inorder ++ x :: r.inorder

@[simp] theorem inorder_nil : (nil : BinaryTree α).inorder = [] := rfl

@[simp] theorem inorder_node (x : α) (l r : BinaryTree α) :
    (node x l r).inorder = l.inorder ++ x :: r.inorder := rfl

theorem length_inorder (t : BinaryTree α) : t.inorder.length = t.numNodes := by
  induction t with
  | nil => rfl
  | node x l r ihl ihr => simp [ihl, ihr]; omega

/-- Every node satisfies `P` with its two subtrees. This is how a field that a node keeps about
its subtree is said to be right. -/
def AllNodes (P : α → BinaryTree α → BinaryTree α → Prop) : BinaryTree α → Prop
  | nil => True
  | node x l r => P x l r ∧ l.AllNodes P ∧ r.AllNodes P

theorem AllNodes.imp {P Q : α → BinaryTree α → BinaryTree α → Prop} : ∀ {t : BinaryTree α},
    t.AllNodes P → (∀ x l r, x ∈ t.inorder → P x l r → Q x l r) → t.AllNodes Q := by
  intro t
  induction t with
  | nil => intro _ _; trivial
  | node x l r ihl ihr =>
    intro h hpq
    refine ⟨hpq x l r (by simp) h.1, ihl h.2.1 ?_, ihr h.2.2 ?_⟩
    · intro y a b hy
      exact hpq y a b (by simp [hy])
    · intro y a b hy
      exact hpq y a b (by simp [hy])

/-- What each node is to be given can be given by a function of its value, when no two nodes
share one. So the memory that makes a given tree can be written down. -/
theorem exists_labelling [DecidableEq α] [Inhabited β] (F : α → BinaryTree α → BinaryTree α → β) :
    ∀ {t : BinaryTree α}, t.inorder.Nodup → ∃ g : α → β, t.AllNodes fun x l r => g x = F x l r := by
  intro t
  induction t with
  | nil => intro _; exact ⟨fun _ => default, trivial⟩
  | node x l r ihl ihr =>
    intro hn
    rw [inorder_node, List.nodup_append, List.nodup_cons] at hn
    obtain ⟨hl, ⟨hxr, hr⟩, hd⟩ := hn
    obtain ⟨gl, hgl⟩ := ihl hl
    obtain ⟨gr, hgr⟩ := ihr hr
    refine ⟨fun z => if z = x then F x l r else if z ∈ l.inorder then gl z else gr z, if_pos rfl,
      hgl.imp ?_, hgr.imp ?_⟩
    · intro y a b hy hg
      dsimp only
      rw [if_neg (hd y hy x (by simp)), if_pos hy]
      exact hg
    · intro y a b hy hg
      have hyx : y ≠ x := fun h => hxr (h ▸ hy)
      have hyl : y ∉ l.inorder := fun h => hd y h y (by simp [hy]) rfl
      dsimp only
      rw [if_neg hyx, if_neg hyl]
      exact hg

@[simp] theorem map_nil (f : α → β) : (nil : BinaryTree α).map f = nil := rfl

@[simp] theorem map_node (f : α → β) (x : α) (l r : BinaryTree α) :
    (node x l r).map f = node (f x) (l.map f) (r.map f) := rfl

theorem inorder_map (f : α → β) (t : BinaryTree α) : (t.map f).inorder = t.inorder.map f := by
  induction t with
  | nil => rfl
  | node x l r ihl ihr => simp [ihl, ihr]

@[simp] theorem height_map (f : α → β) (t : BinaryTree α) : (t.map f).height = t.height := by
  induction t with
  | nil => rfl
  | node x l r ihl ihr => simp [ihl, ihr]

@[simp] theorem numNodes_map (f : α → β) (t : BinaryTree α) :
    (t.map f).numNodes = t.numNodes := by
  induction t with
  | nil => rfl
  | node x l r ihl ihr => simp [ihl, ihr]

/-- A map that fixes every value of the tree fixes the tree. -/
theorem map_congr {f g : α → β} {t : BinaryTree α} (h : ∀ x ∈ t.inorder, f x = g x) :
    t.map f = t.map g := by
  induction t with
  | nil => rfl
  | node x l r ihl ihr =>
    rw [map_node, map_node, h x (by simp), ihl fun y hy => h y (by simp [hy]),
      ihr fun y hy => h y (by simp [hy])]

theorem map_eq_self {f : α → α} {t : BinaryTree α} (h : ∀ x ∈ t.inorder, f x = x) :
    t.map f = t := by
  induction t with
  | nil => rfl
  | node x l r ihl ihr =>
    rw [map_node, h x (by simp), ihl fun y hy => h y (by simp [hy]),
      ihr fun y hy => h y (by simp [hy])]

/-! ## 2. Sides and contexts

A frame is one ancestor with the subtree that the path does not enter. The list of frames from a
hole outwards is what a node with a `parent` link can reach, and `plug` is what is reached when
the walk gets to the root. `before` and `after` are the values on either side of the hole;
`outside` is all of them, in no particular order.
-/

def child (s : Side) : BinaryTree α → BinaryTree α
  | nil => nil
  | node _ l r => match s with
    | .left => l
    | .right => r

/-- The node with `t` on side `s` and `u` on the other. -/
def join (s : Side) (x : α) (t u : BinaryTree α) : BinaryTree α :=
  match s with
  | .left => node x t u
  | .right => node x u t

@[simp] theorem join_left (x : α) (t u : BinaryTree α) : join .left x t u = node x t u := rfl
@[simp] theorem join_right (x : α) (t u : BinaryTree α) : join .right x t u = node x u t := rfl

theorem join_flip (s : Side) (x : α) (t u : BinaryTree α) : join s.flip x t u = join s x u t := by
  cases s <;> rfl

@[simp] theorem child_join (s : Side) (x : α) (t u : BinaryTree α) : (join s x t u).child s = t := by
  cases s <;> rfl

@[simp] theorem child_flip_join (s : Side) (x : α) (t u : BinaryTree α) :
    (join s x t u).child s.flip = u := by
  cases s <;> rfl

theorem node_eq_join (s : Side) (x : α) (l r : BinaryTree α) :
    node x l r = join s x ((node x l r).child s) ((node x l r).child s.flip) := by
  cases s <;> rfl

@[simp] theorem map_join (f : α → β) (s : Side) (x : α) (t u : BinaryTree α) :
    (join s x t u).map f = join s (f x) (t.map f) (u.map f) := by
  cases s <;> rfl

theorem map_child (f : α → β) (s : Side) (t : BinaryTree α) :
    (t.map f).child s = (t.child s).map f := by
  cases t <;> cases s <;> rfl

@[simp] theorem height_join (s : Side) (x : α) (t u : BinaryTree α) :
    (join s x t u).height = max t.height u.height + 1 := by
  cases s with
  | left => rfl
  | right => simp [Nat.max_comm]

@[simp] theorem numNodes_join (s : Side) (x : α) (t u : BinaryTree α) :
    (join s x t u).numNodes = t.numNodes + u.numNodes + 1 := by
  cases s with
  | left => rfl
  | right => simp [Nat.add_comm]

theorem mem_inorder_join {s : Side} {x y : α} {t u : BinaryTree α} :
    y ∈ (join s x t u).inorder ↔ y = x ∨ y ∈ t.inorder ∨ y ∈ u.inorder := by
  cases s <;> simp only [join_left, join_right, inorder_node, List.mem_append, List.mem_cons] <;>
    tauto

/-- The values of a joined node are distinct when its own value is in neither subtree and the
subtrees have distinct values and none in common. -/
theorem nodup_inorder_join {s : Side} {x : α} {t u : BinaryTree α} :
    (join s x t u).inorder.Nodup ↔ x ∉ t.inorder ∧ x ∉ u.inorder ∧ t.inorder.Nodup ∧
      u.inorder.Nodup ∧ ∀ y ∈ t.inorder, y ∉ u.inorder := by
  have key : ∀ t u : BinaryTree α, (node x t u).inorder.Nodup ↔ x ∉ t.inorder ∧ x ∉ u.inorder ∧
      t.inorder.Nodup ∧ u.inorder.Nodup ∧ ∀ y ∈ t.inorder, y ∉ u.inorder := by
    intro t u
    rw [inorder_node, List.nodup_middle, List.nodup_cons, List.mem_append, List.nodup_append]
    constructor
    · rintro ⟨hx, ht, hu, hd⟩
      exact ⟨fun h => hx (.inl h), fun h => hx (.inr h), ht, hu, fun y hy hy' => hd y hy y hy' rfl⟩
    · rintro ⟨h₁, h₂, ht, hu, hd⟩
      refine ⟨fun h => h.elim h₁ h₂, ht, hu, fun y hy z hz hyz => hd y hy (hyz ▸ hz)⟩
  cases s with
  | left => exact key t u
  | right =>
    rw [join_right, key u t]
    exact ⟨fun ⟨h₁, h₂, h₃, h₄, h₅⟩ => ⟨h₂, h₁, h₄, h₃, fun y hy hy' => h₅ y hy' hy⟩,
      fun ⟨h₁, h₂, h₃, h₄, h₅⟩ => ⟨h₂, h₁, h₄, h₃, fun y hy hy' => h₅ y hy' hy⟩⟩

/-- One ancestor: which side the hole is on, its value, and the subtree on the other side. -/
structure Frame (α : Type) where
  side : Side
  val : α
  sibling : BinaryTree α

namespace Frame

/-- The ancestor's subtree, with `t` in the hole. -/
def fill (f : Frame α) (t : BinaryTree α) : BinaryTree α := join f.side f.val t f.sibling

def map (g : α → β) (f : Frame α) : Frame β := ⟨f.side, g f.val, f.sibling.map g⟩

@[simp] theorem map_fill (g : α → β) (f : Frame α) (t : BinaryTree α) :
    (f.fill t).map g = (f.map g).fill (t.map g) := by
  simp [fill, map]

end Frame

/-- The whole tree when `t` stands in the hole. -/
def plug : BinaryTree α → List (Frame α) → BinaryTree α
  | t, [] => t
  | t, f :: c => plug (f.fill t) c

def before : List (Frame α) → List α
  | [] => []
  | ⟨.left, _, _⟩ :: c => before c
  | ⟨.right, x, l⟩ :: c => before c ++ l.inorder ++ [x]

def after : List (Frame α) → List α
  | [] => []
  | ⟨.left, x, r⟩ :: c => x :: r.inorder ++ after c
  | ⟨.right, _, _⟩ :: c => after c

@[simp] theorem plug_nil (t : BinaryTree α) : t.plug [] = t := rfl

@[simp] theorem plug_cons (t : BinaryTree α) (f : Frame α) (c : List (Frame α)) :
    t.plug (f :: c) = (f.fill t).plug c := rfl

theorem plug_append : ∀ (c d : List (Frame α)) (t : BinaryTree α),
    t.plug (c ++ d) = (t.plug c).plug d
  | [], _, _ => rfl
  | f :: c, d, t => plug_append c d (f.fill t)

theorem inorder_fill (f : Frame α) (c : List (Frame α)) (t : BinaryTree α) :
    before c ++ (f.fill t).inorder ++ after c = before (f :: c) ++ t.inorder ++ after (f :: c) := by
  obtain ⟨side, x, u⟩ := f
  cases side <;> simp [Frame.fill, before, after]

/-- **The hole splits the order.** What is in the hole stands between the values of its context.
-/
theorem inorder_plug : ∀ (c : List (Frame α)) (t : BinaryTree α),
    (t.plug c).inorder = before c ++ t.inorder ++ after c := by
  intro c
  induction c with
  | nil => intro t; simp [before, after]
  | cons f c ih => intro t; rw [plug_cons, ih, inorder_fill]

/-- The values of a context: its ancestors and the subtrees beside the path. These are the nodes
that a change in the hole must not touch. -/
def outside (c : List (Frame α)) : List α := c.flatMap fun f => f.val :: f.sibling.inorder

@[simp] theorem outside_nil : outside ([] : List (Frame α)) = [] := rfl

@[simp] theorem outside_cons (f : Frame α) (c : List (Frame α)) :
    outside (f :: c) = f.val :: f.sibling.inorder ++ outside c := rfl

theorem outside_append (c d : List (Frame α)) : outside (c ++ d) = outside c ++ outside d := by
  simp [outside]

theorem length_le_length_outside (c : List (Frame α)) : c.length ≤ (outside c).length := by
  induction c with
  | nil => exact Nat.zero_le _
  | cons f c ih =>
    simp only [outside_cons, List.length_append, List.length_cons]
    omega

theorem perm_inorder_fill (f : Frame α) (t : BinaryTree α) :
    (f.fill t).inorder.Perm (t.inorder ++ f.val :: f.sibling.inorder) := by
  obtain ⟨side, x, u⟩ := f
  cases side with
  | left => exact .refl _
  | right =>
    calc (u.inorder ++ x :: t.inorder).Perm (x :: t.inorder ++ u.inorder) := List.perm_append_comm
      _ |>.Perm (t.inorder ++ x :: u.inorder) := List.perm_middle.symm

/-- Up to order, a plugged tree is the hole's values and the context's. -/
theorem perm_inorder_plug : ∀ (c : List (Frame α)) (t : BinaryTree α),
    (t.plug c).inorder.Perm (t.inorder ++ outside c) := by
  intro c
  induction c with
  | nil => intro t; simp
  | cons f c ih =>
    intro t
    calc (t.plug (f :: c)).inorder.Perm ((f.fill t).inorder ++ outside c) := ih (f.fill t)
      _ |>.Perm (t.inorder ++ f.val :: f.sibling.inorder ++ outside c) :=
          (perm_inorder_fill f t).append_right _
      _ = t.inorder ++ outside (f :: c) := by rw [outside_cons, List.append_assoc]

theorem height_add_length_le_plug (c : List (Frame α)) : ∀ t : BinaryTree α,
    t.height + c.length ≤ (t.plug c).height := by
  induction c with
  | nil => exact fun t => Nat.le_refl _
  | cons f c ih =>
    intro t
    have h := ih (f.fill t)
    rw [Frame.fill, height_join] at h
    rw [plug_cons, List.length_cons]
    exact Nat.le_trans (by omega) h

theorem length_le_height_plug (c : List (Frame α)) (t : BinaryTree α) : c.length ≤ (t.plug c).height :=
  Nat.le_trans (Nat.le_add_left _ _) (height_add_length_le_plug c t)

theorem length_le_numNodes_plug (c : List (Frame α)) (t : BinaryTree α) :
    c.length ≤ (t.plug c).numNodes := by
  rw [← length_inorder, (perm_inorder_plug c t).length_eq, List.length_append]
  exact Nat.le_trans (length_le_length_outside c) (Nat.le_add_left _ _)

theorem map_plug (g : α → β) : ∀ (c : List (Frame α)) (t : BinaryTree α),
    (t.plug c).map g = (t.map g).plug (c.map (Frame.map g)) := by
  intro c
  induction c with
  | nil => intro t; rfl
  | cons f c ih => intro t; rw [plug_cons, ih, Frame.map_fill, List.map_cons, plug_cons]

theorem map_frames_eq_self {g : α → α} : ∀ {c : List (Frame α)}, (∀ x ∈ outside c, g x = x) →
    c.map (Frame.map g) = c := by
  intro c
  induction c with
  | nil => intro _; rfl
  | cons f c ih =>
    intro h
    have hf : f.map g = f := by
      rw [Frame.map, h f.val (by simp), map_eq_self fun x hx => h x (by simp [hx])]
    rw [List.map_cons, hf, ih fun x hx => h x (by simp [hx])]

/-- Every value of a tree is at the top of some subtree. -/
theorem exists_plug_of_mem {t : BinaryTree α} {x : α} (h : x ∈ t.inorder) :
    ∃ l r c, t = (node x l r).plug c := by
  -- the path is found outermost first, so the induction appends the frame it adds
  induction t with
  | nil => cases h
  | node y l r ihl ihr =>
    rw [inorder_node, List.mem_append, List.mem_cons] at h
    rcases h with h | rfl | h
    · obtain ⟨a, b, c, rfl⟩ := ihl h
      exact ⟨a, b, c ++ [⟨.left, y, r⟩], by rw [plug_append]; rfl⟩
    · exact ⟨l, r, [], rfl⟩
    · obtain ⟨a, b, c, rfl⟩ := ihr h
      exact ⟨a, b, c ++ [⟨.right, y, l⟩], by rw [plug_append]; rfl⟩

/-! ## 3. Rotations

A repair is stated once, for the side that is too high. `fixSide` looks at the inner grandchild
and rotates once or twice; `rebalance` decides whether there is anything to repair; `fixUp` does
that for every ancestor. None of the three stops early, as the loop that it is compared with
does not either.
-/

/-- The old top goes down on side `s`, and its child on the other side comes up. A tree without
that child is left as it is, a case that the repair does not come to. -/
def rotate (s : Side) (t : BinaryTree α) : BinaryTree α :=
  match t, t.child s.flip with
  | node x _ _, node y l r =>
      join s y (join s x (t.child s) ((node y l r).child s)) ((node y l r).child s.flip)
  | _, _ => t

@[simp] theorem rotate_join (s : Side) (x y : α) (a b c : BinaryTree α) :
    rotate s (join s x a (join s y b c)) = join s y (join s x a b) c := by
  cases s <;> rfl

@[simp] theorem rotate_flip_join (s : Side) (x y : α) (a b c : BinaryTree α) :
    rotate s.flip (join s x (join s y a b) c) = join s y a (join s x b c) := by
  cases s <;> rfl

/-- Repair a node whose side `s` is two higher than the other: one rotation, or two when the
high child leans inwards. -/
def fixSide (s : Side) : BinaryTree α → BinaryTree α
  | nil => nil
  | node x l r =>
      let high := (node x l r).child s
      let low := (node x l r).child s.flip
      if (high.child s).height < (high.child s.flip).height then
        rotate s.flip (join s x (rotate s high) low)
      else rotate s.flip (join s x high low)

theorem fixSide_join (s : Side) (x : α) (high low : BinaryTree α) :
    fixSide s (join s x high low) =
      if (high.child s).height < (high.child s.flip).height then
        rotate s.flip (join s x (rotate s high) low)
      else rotate s.flip (join s x high low) := by
  cases s <;> rfl

/-- Repair a node that is out of balance by two, and leave any other alone. -/
def rebalance : BinaryTree α → BinaryTree α
  | nil => nil
  | node x l r =>
      if l.height = r.height + 2 then fixSide .left (node x l r)
      else if l.height + 2 = r.height then fixSide .right (node x l r)
      else node x l r

theorem rebalance_join (s : Side) (x : α) (t u : BinaryTree α) :
    rebalance (join s x t u) =
      if t.height = u.height + 2 then fixSide s (join s x t u)
      else if t.height + 2 = u.height then fixSide s.flip (join s x t u)
      else join s x t u := by
  cases s with
  | left => rfl
  | right =>
    simp only [join_right, rebalance, Side.flip_right]
    -- the two tests come in the other order, and exclude each other
    by_cases h₁ : u.height = t.height + 2
    · rw [if_pos h₁, if_neg (by omega), if_pos h₁.symm]
    · rw [if_neg h₁]
      by_cases h₂ : u.height + 2 = t.height
      · rw [if_pos h₂, if_pos h₂.symm]
      · rw [if_neg h₂, if_neg (fun h => h₂ h.symm), if_neg (fun h => h₁ h.symm)]

/-- Repair every ancestor from the hole to the root. -/
def fixUp : BinaryTree α → List (Frame α) → BinaryTree α
  | t, [] => t
  | t, f :: c => fixUp (rebalance (f.fill t)) c

@[simp] theorem inorder_rotate (s : Side) (t : BinaryTree α) : (rotate s t).inorder = t.inorder := by
  match s, t with
  | .left, nil => rfl
  | .right, nil => rfl
  | .left, node _ _ nil => rfl
  | .right, node _ nil _ => rfl
  | .left, node _ _ (node _ _ _) => simp [rotate, child]
  | .right, node _ (node _ _ _) _ => simp [rotate, child]

theorem inorder_fixSide (s : Side) (t : BinaryTree α) : (fixSide s t).inorder = t.inorder := by
  cases t with
  | nil => rfl
  | node x l r =>
    rw [node_eq_join s x l r, fixSide_join]
    split
    · rw [inorder_rotate]
      cases s <;> simp [child]
    · rw [inorder_rotate]

@[simp] theorem inorder_rebalance (t : BinaryTree α) : t.rebalance.inorder = t.inorder := by
  cases t with
  | nil => rfl
  | node x l r =>
    simp only [rebalance]
    split
    · exact inorder_fixSide _ _
    · split
      · exact inorder_fixSide _ _
      · rfl

theorem inorder_fixUp : ∀ (c : List (Frame α)) (t : BinaryTree α),
    (t.fixUp c).inorder = before c ++ t.inorder ++ after c := by
  intro c
  induction c with
  | nil => intro t; simp [fixUp, before, after]
  | cons f c ih => intro t; rw [fixUp, ih, inorder_rebalance, inorder_fill]

theorem map_rotate (g : α → β) (s : Side) (t : BinaryTree α) :
    (rotate s t).map g = rotate s (t.map g) := by
  match s, t with
  | .left, nil => rfl
  | .right, nil => rfl
  | .left, node _ _ nil => rfl
  | .right, node _ nil _ => rfl
  | .left, node _ _ (node _ _ _) => rfl
  | .right, node _ (node _ _ _) _ => rfl

theorem map_fixSide (g : α → β) (s : Side) (t : BinaryTree α) :
    (fixSide s t).map g = fixSide s (t.map g) := by
  cases t with
  | nil => rfl
  | node x l r =>
    rw [node_eq_join s x l r, map_join, fixSide_join, fixSide_join]
    simp only [map_child, height_map]
    split
    · rw [map_rotate, map_join, map_rotate]
    · rw [map_rotate, map_join]

/-- Rebalancing looks at heights only, so relabelling commutes with it. -/
theorem map_rebalance (g : α → β) (t : BinaryTree α) :
    t.rebalance.map g = (t.map g).rebalance := by
  cases t with
  | nil => rfl
  | node x l r =>
    simp only [rebalance, map_node, height_map]
    split
    · exact map_fixSide g _ _
    · split
      · exact map_fixSide g _ _
      · rfl

theorem map_fixUp (g : α → β) : ∀ (c : List (Frame α)) (t : BinaryTree α),
    (t.fixUp c).map g = (t.map g).fixUp (c.map (Frame.map g)) := by
  intro c
  induction c with
  | nil => intro t; rfl
  | cons f c ih => intro t; rw [fixUp, ih, map_rebalance, Frame.map_fill]; rfl

/-- Repair moves nodes about but does not look at their values: wherever the ancestor `x` ends
up, putting `v` there is the same as having had `v` for an ancestor all along. -/
theorem plug_relabel_of_fixUp [DecidableEq α] {x v : α} {s : Side} {w u l r : BinaryTree α}
    {d c e : List (Frame α)} (h : w.fixUp (d ++ ⟨s, x, u⟩ :: c) = (node x l r).plug e)
    (hn : (w.inorder ++ outside (d ++ ⟨s, x, u⟩ :: c)).Nodup) :
    (node v l r).plug e = w.fixUp (d ++ ⟨s, v, u⟩ :: c) := by
  have hid : ∀ {z : α}, z ≠ x → Function.update id x v z = z :=
    fun hzx => Function.update_of_ne hzx _ _
  have hperm : ((node x l r).inorder ++ outside e).Perm
      (w.inorder ++ outside (d ++ ⟨s, x, u⟩ :: c)) := by
    refine (perm_inorder_plug e _).symm.trans ?_
    rw [← h, inorder_fixUp, ← inorder_plug]
    exact perm_inorder_plug _ _
  have hmap := congrArg (BinaryTree.map (Function.update id x v)) h
  rw [map_fixUp, map_plug, map_node, List.map_append, List.map_cons] at hmap
  -- on both sides `x` stands in one place only, and everything else is kept
  obtain ⟨hnl, -, hle⟩ := List.nodup_append.mp (hperm.nodup_iff.mpr hn)
  obtain ⟨hxl, hxr, -⟩ := nodup_inorder_join (s := .left).mp hnl
  obtain ⟨-, hno, hwo⟩ := List.nodup_append.mp hn
  rw [outside_append, outside_cons, List.nodup_append, List.cons_append, List.nodup_cons,
    List.mem_append, not_or] at hno
  obtain ⟨-, ⟨⟨hxu, hxc⟩, -⟩, hdx⟩ := hno
  have hw : ∀ z ∈ w.inorder, z ≠ x :=
    fun z hz hzx => hwo z hz x (by simp [outside_append]) hzx
  rw [map_eq_self fun z hz => hid fun hzx => hxl (hzx ▸ hz),
    map_eq_self fun z hz => hid fun hzx => hxr (hzx ▸ hz),
    map_frames_eq_self (c := e) fun z hz => hid fun hzx => hle x (by simp) z hz hzx.symm,
    map_eq_self fun z hz => hid (hw z hz),
    map_frames_eq_self (c := d) fun z hz => hid (hdx z hz x (by simp)),
    map_frames_eq_self (c := c) fun z hz => hid fun hzx => hxc (hzx ▸ hz), Frame.map,
    map_eq_self fun z hz => hid fun hzx => hxu (hzx ▸ hz), Function.update_self] at hmap
  exact hmap.symm

/-! ## 4. Taking a node out

A node with two children is not taken out where it stands: its successor is, which has no left
child, and then the successor takes the place of the node. Here that is one definition
(`removeAt`), so that the order and the balance of the result are each one lemma.
-/

/-- The leftmost node of `node x l r`: its value, its right subtree and its context. It is the
successor of whatever stands before the tree. -/
def popLeft : BinaryTree α → α → BinaryTree α → α × BinaryTree α × List (Frame α)
  | nil, x, r => (x, r, [])
  | node y a b, x, r =>
      let p := popLeft a y b
      (p.1, p.2.1, p.2.2 ++ [⟨.left, x, r⟩])

theorem plug_popLeft : ∀ (l : BinaryTree α) (x : α) (r : BinaryTree α),
    (node (popLeft l x r).1 nil (popLeft l x r).2.1).plug (popLeft l x r).2.2 = node x l r := by
  intro l
  induction l with
  | nil => intro x r; rfl
  | node y a b iha _ =>
    intro x r
    simp only [popLeft, plug_append, iha]
    rfl

/-- Take the node with these subtrees out of its context: a missing child lets the other one
move up; otherwise the successor takes its place, and repair starts where that came from. -/
def removeAt (l r : BinaryTree α) (c : List (Frame α)) : BinaryTree α :=
  match l, r with
  | nil, r => fixUp r c
  | l, nil => fixUp l c
  | l, node y a b =>
      let p := popLeft a y b
      fixUp p.2.1 (p.2.2 ++ ⟨.right, p.1, l⟩ :: c)

theorem removeAt_nil_left (r : BinaryTree α) (c : List (Frame α)) :
    removeAt nil r c = fixUp r c := by
  cases r <;> rfl

theorem removeAt_nil_right (l : BinaryTree α) (c : List (Frame α)) :
    removeAt l nil c = fixUp l c := by
  cases l <;> rfl

theorem before_append : ∀ (c d : List (Frame α)), before (c ++ d) = before d ++ before c := by
  intro c d
  induction c with
  | nil => simp [before]
  | cons f c ih =>
    obtain ⟨side, x, u⟩ := f
    cases side <;> simp [before, ih]

theorem after_append : ∀ (c d : List (Frame α)), after (c ++ d) = after c ++ after d := by
  intro c d
  induction c with
  | nil => simp [after]
  | cons f c ih =>
    obtain ⟨side, x, u⟩ := f
    cases side <;> simp [after, ih]

theorem before_popLeft : ∀ (l : BinaryTree α) (x : α) (r : BinaryTree α),
    before (popLeft l x r).2.2 = [] := by
  intro l
  induction l with
  | nil => intro x r; rfl
  | node y a b iha _ => intro x r; simp [popLeft, before_append, before, iha]

/-- **Exactly that node is gone**, and the others are in the order they had. -/
theorem inorder_removeAt (l r : BinaryTree α) (c : List (Frame α)) :
    (removeAt l r c).inorder = before c ++ (l.inorder ++ r.inorder) ++ after c := by
  match l, r with
  | nil, r => rw [removeAt_nil_left, inorder_fixUp]; rfl
  | l, nil => rw [removeAt_nil_right, inorder_fixUp]; simp
  | node z e f, node y a b =>
    have hpop := congrArg inorder (plug_popLeft a y b)
    rw [inorder_plug] at hpop
    simp only [removeAt, inorder_fixUp, before_append, after_append, ← hpop]
    simp [before, after, before_popLeft]

theorem map_popLeft (g : α → β) : ∀ (l : BinaryTree α) (x : α) (r : BinaryTree α),
    popLeft (l.map g) (g x) (r.map g) =
      (g (popLeft l x r).1, (popLeft l x r).2.1.map g, (popLeft l x r).2.2.map (Frame.map g)) := by
  intro l
  induction l with
  | nil => intro x r; rfl
  | node y a b iha _ =>
    intro x r
    simp only [map_node, popLeft, iha, List.map_append, List.map_cons, List.map_nil]
    rfl

theorem map_removeAt (g : α → β) (l r : BinaryTree α) (c : List (Frame α)) :
    (removeAt l r c).map g = removeAt (l.map g) (r.map g) (c.map (Frame.map g)) := by
  match l, r with
  | nil, r => rw [removeAt_nil_left, map_nil, removeAt_nil_left, map_fixUp]
  | l, nil => rw [removeAt_nil_right, map_nil, removeAt_nil_right, map_fixUp]
  | node z e f, node y a b =>
    simp only [map_node, removeAt, map_popLeft, map_fixUp, List.map_append, List.map_cons]
    rfl

/-! ## 5. Balance

A tree that was balanced is changed in one place, and its height there by one at most. On the
way up each ancestor sees a child whose height has moved by at most one, so it is out of balance
by at most two; repairing it moves its own height by at most one, and the next ancestor is in
the same position. That is the whole induction.
-/

/-- Sibling heights differ by at most one, everywhere. -/
def Balanced : BinaryTree α → Prop
  | nil => True
  | node _ l r => l.Balanced ∧ r.Balanced ∧ l.height ≤ r.height + 1 ∧ r.height ≤ l.height + 1

theorem balanced_map (g : α → β) (t : BinaryTree α) : (t.map g).Balanced ↔ t.Balanced := by
  induction t with
  | nil => rfl
  | node x l r ihl ihr => simp [Balanced, ihl, ihr]

theorem balanced_join {s : Side} {x : α} {t u : BinaryTree α} :
    (join s x t u).Balanced ↔
      t.Balanced ∧ u.Balanced ∧ t.height ≤ u.height + 1 ∧ u.height ≤ t.height + 1 := by
  cases s with
  | left => rfl
  | right =>
    simp only [join_right, Balanced]
    tauto

theorem Balanced.of_plug : ∀ {c : List (Frame α)} {t : BinaryTree α},
    (t.plug c).Balanced → t.Balanced := by
  intro c
  induction c with
  | nil => intro t h; exact h
  | cons f c ih => intro t h; exact (balanced_join.mp (ih h)).1

/-- **A balanced tree is not deep**: the thinnest ones grow as the Fibonacci numbers do. Every
bound on the number of turns of a loop along a path comes from here. -/
theorem Balanced.fib_height_le {t : BinaryTree α} (h : t.Balanced) :
    Nat.fib (t.height + 2) ≤ t.numNodes + 1 := by
  induction t with
  | nil => exact Nat.le_refl 1
  | node x l r ihl ihr =>
    obtain ⟨hl, hr, hlr, hrl⟩ := h
    have hfl := ihl hl
    have hfr := ihr hr
    -- the higher side has the height of the node less one, the other side at least that less two
    rcases Nat.le_total l.height r.height with hle | hle
    · have hlow : Nat.fib (r.height + 1) ≤ Nat.fib (l.height + 2) := Nat.fib_mono (by omega)
      have hsum : Nat.fib (r.height + 3) = Nat.fib (r.height + 1) + Nat.fib (r.height + 2) := Nat.fib_add_two
      rw [height, Nat.max_eq_right hle, numNodes, Nat.add_right_comm, hsum]
      omega
    · have hlow : Nat.fib (l.height + 1) ≤ Nat.fib (r.height + 2) := Nat.fib_mono (by omega)
      have hsum : Nat.fib (l.height + 3) = Nat.fib (l.height + 1) + Nat.fib (l.height + 2) := Nat.fib_add_two
      rw [height, Nat.max_eq_left hle, numNodes, Nat.add_right_comm, hsum]
      omega

theorem exists_join (s : Side) {t : BinaryTree α} (h : 0 < t.height) :
    ∃ y a b, t = join s y a b := by
  cases t with
  | nil => exact absurd h (Nat.lt_irrefl 0)
  | node y l r => exact ⟨y, _, _, node_eq_join s y l r⟩

/-- One side two higher: one rotation or two give a balanced node whose height is two or three
more than that of the low side. -/
theorem fixSide_spec {s : Side} {x : α} {t u : BinaryTree α} (ht : t.Balanced) (hu : u.Balanced)
    (h : t.height = u.height + 2) :
    (fixSide s (join s x t u)).Balanced ∧ u.height + 2 ≤ (fixSide s (join s x t u)).height ∧
      (fixSide s (join s x t u)).height ≤ u.height + 3 := by
  obtain ⟨y, a, b, rfl⟩ := exists_join s (t := t) (by omega)
  obtain ⟨ha, hb, hab, hba⟩ := balanced_join.mp ht
  rw [height_join] at h
  rw [fixSide_join, child_join, child_flip_join]
  split
  · -- the inner grandchild is the higher one: it comes up past both
    obtain ⟨z, b₁, b₂, rfl⟩ := exists_join s (t := b) (by omega)
    obtain ⟨hb₁, hb₂, h₁₂, h₂₁⟩ := balanced_join.mp hb
    rw [rotate_join, rotate_flip_join]
    simp only [height_join] at *
    refine ⟨balanced_join.mpr ⟨balanced_join.mpr ⟨ha, hb₁, ?_, ?_⟩,
      balanced_join.mpr ⟨hb₂, hu, ?_, ?_⟩, ?_, ?_⟩, ?_, ?_⟩ <;>
      (try simp only [height_join]) <;> omega
  · rw [rotate_flip_join]
    refine ⟨balanced_join.mpr ⟨ha, balanced_join.mpr ⟨hb, hu, ?_, ?_⟩, ?_, ?_⟩, ?_, ?_⟩ <;>
      (try simp only [height_join]) <;> omega

/-- What `rebalance` does to a node out of balance by at most two: the result is balanced, and
its height is that of the higher side or one more; it is one more when there was nothing to
repair. -/
theorem rebalance_spec {s : Side} {x : α} {t u : BinaryTree α} (ht : t.Balanced) (hu : u.Balanced)
    (h₁ : t.height ≤ u.height + 2) (h₂ : u.height ≤ t.height + 2) :
    (rebalance (join s x t u)).Balanced ∧
      max t.height u.height ≤ (rebalance (join s x t u)).height ∧
      (rebalance (join s x t u)).height ≤ max t.height u.height + 1 ∧
      (t.height ≤ u.height + 1 → u.height ≤ t.height + 1 →
        (rebalance (join s x t u)).height = max t.height u.height + 1) := by
  rw [rebalance_join]
  split
  · rename_i h
    obtain ⟨hb, hlo, hhi⟩ := fixSide_spec (s := s) (x := x) ht hu h
    exact ⟨hb, by omega, by omega, by omega⟩
  · split
    · rename_i h
      obtain ⟨hb, hlo, hhi⟩ := fixSide_spec (s := s.flip) (x := x) hu ht h.symm
      rw [join_flip] at hb hlo hhi
      exact ⟨hb, by omega, by omega, by omega⟩
    · refine ⟨balanced_join.mpr ⟨ht, hu, ?_, ?_⟩, ?_, ?_, fun _ _ => height_join ..⟩ <;>
        (try simp only [height_join]) <;> omega

/-- **The lemma for insertion and deletion alike.** The induction is on the context, and what it
carries is that the height of the tree in the hole has moved by at most one. -/
theorem balanced_fixUp : ∀ {c : List (Frame α)} {t₀ t : BinaryTree α}, (t₀.plug c).Balanced →
    t.Balanced → t.height ≤ t₀.height + 1 → t₀.height ≤ t.height + 1 → (t.fixUp c).Balanced := by
  intro c
  induction c with
  | nil => intro t₀ t _ ht _ _; exact ht
  | cons f c ih =>
    intro t₀ t h₀ ht hlo hhi
    rw [plug_cons] at h₀
    obtain ⟨-, hs, h₁, h₂⟩ := balanced_join.mp h₀.of_plug
    obtain ⟨hb, hb₁, hb₂, hb₃⟩ := rebalance_spec (s := f.side) (x := f.val) ht hs
      (by omega) (by omega)
    rw [show join f.side f.val t f.sibling = f.fill t from rfl] at hb hb₁ hb₂ hb₃
    have hold : (f.fill t₀).height = max t₀.height f.sibling.height + 1 := height_join ..
    -- the repaired ancestor is again within one of the old one, so the induction goes on
    refine ih h₀ hb ?_ ?_ <;>
      · rcases Nat.lt_or_ge (f.sibling.height + 1) t.height with h | h <;>
          rcases Nat.lt_or_ge (t.height + 1) f.sibling.height with h' | h' <;> omega

theorem balanced_relabel {x y : α} {l r : BinaryTree α} {c : List (Frame α)}
    (h : ((node x l r).plug c).Balanced) : ((node y l r).plug c).Balanced := by
  rw [← balanced_map fun _ => (), map_plug] at h ⊢
  exact h

theorem balanced_removeAt {x : α} {l r : BinaryTree α} {c : List (Frame α)}
    (h : ((node x l r).plug c).Balanced) : (removeAt l r c).Balanced := by
  have hnode : (node x l r).Balanced := h.of_plug
  match l, r with
  | nil, r =>
    rw [removeAt_nil_left]
    exact balanced_fixUp h hnode.2.1 (by simp; omega) (by simp)
  | l, nil =>
    rw [removeAt_nil_right]
    exact balanced_fixUp h hnode.1 (by simp; omega) (by simp)
  | node z e f, node y a b =>
    have hplug := plug_popLeft a y b
    simp only [removeAt]
    have h' : ((node (popLeft a y b).1 nil (popLeft a y b).2.1).plug
        ((popLeft a y b).2.2 ++ ⟨.right, (popLeft a y b).1, node z e f⟩ :: c)).Balanced := by
      rw [plug_append, hplug]
      exact balanced_relabel (l := node z e f) (r := node y a b) h
    exact balanced_fixUp h' h'.of_plug.2.1 (by simp; omega) (by simp)

theorem balanced_insertAt {x : α} {c : List (Frame α)} (h : ((nil : BinaryTree α).plug c).Balanced) :
    (fixUp (node x nil nil) c).Balanced :=
  balanced_fixUp h (by simp [Balanced]) (by simp) (by simp)

end BinaryTree
