import ApexDB.Proof.Avl

/-!
# What a valid tree is, and that it stays one

`Rep` is the working notion of the proofs: it follows the code into states that no caller sees,
and its counts are what a `uint32_t` holds. Here is the notion that a reader of `avl.hpp` has,
in the words of `avl_verify`: **parent links match child links, every `height` and `cnt` is that
of the subtree, and sibling heights differ by at most one**. With fewer than `2 ^ 32` nodes the
two agree (`rep_iff`).

Insertion makes a tree one node larger, so it is the *new* tree that has to be that small: the
node that fills the tree up to `2 ^ 32` leaves a root that says it has no nodes.

The tree of a valid memory is not an extra argument that could be chosen: the links decide it
(`Shaped.unique`). So a statement about the order of the nodes after a call is one about the
memory.
-/

set_option autoImplicit false

namespace ApexDB

open Lib BinaryTree

/-! ## 1. Valid trees

Three conditions that are independent of each other: the shape is only links, the counts are
only numbers, and the balance is a property of the shape.
-/

/-- The links of the memory are those of the tree, which hangs below `p`. -/
def Shaped (m : AvlMem) : Option NodeId → BinaryTree NodeId → Prop
  | _, nil => True
  | p, node x l r => (m x).parent = p ∧ (m x).left = rootId l ∧ (m x).right = rootId r ∧
      Shaped m (some x) l ∧ Shaped m (some x) r

/-- A tree at `root` whose links match and whose nodes count their subtrees. -/
structure CountedTree (m : AvlMem) (root : Option NodeId) (t : BinaryTree NodeId) : Prop where
  root_eq : root = rootId t
  distinct : t.inorder.Nodup
  shaped : Shaped m none t
  counted : t.AllNodes fun x l r => (m x).cnt = l.numNodes + r.numNodes + 1

structure ValidTree (m : AvlMem) (root : Option NodeId) (t : BinaryTree NodeId) : Prop
    extends CountedTree m root t where
  measured : t.AllNodes fun x l r => (m x).height = max l.height r.height + 1
  balanced : t.Balanced

variable {m m' : AvlMem} {t : BinaryTree NodeId} {root p : Option NodeId} {x y : NodeId}

theorem rep_iff : ∀ {t : BinaryTree NodeId} {p : Option NodeId}, t.numNodes < 2 ^ 32 →
    (Rep m p t ↔ Shaped m p t ∧ (t.AllNodes fun x l r => (m x).cnt = l.numNodes + r.numNodes + 1) ∧
      t.AllNodes fun x l r => (m x).height = max l.height r.height + 1) := by
  intro t
  induction t with
  | nil => intro p _; simp [Rep, Shaped, AllNodes]
  | node x l r ihl ihr =>
    intro p hsize
    rw [numNodes] at hsize
    have hcnt : u32 (node x l r).numNodes = l.numNodes + r.numNodes + 1 := Nat.mod_eq_of_lt hsize
    rw [Rep, hcnt, ihl (by omega), ihr (by omega), Shaped, AllNodes, AllNodes, height]
    tauto

theorem ValidTree.rep (h : ValidTree m root t) (hsize : t.numNodes < 2 ^ 32) : Rep m none t :=
  (rep_iff hsize).mpr ⟨h.shaped, h.counted, h.measured⟩

theorem ValidTree.of_rep (h : Rep m none t) (hn : t.inorder.Nodup) (hb : t.Balanced)
    (hsize : t.numNodes < 2 ^ 32) : ValidTree m (rootId t) t := by
  obtain ⟨hs, hc, hh⟩ := (rep_iff hsize).mp h
  exact ⟨⟨rfl, hn, hs, hc⟩, hh, hb⟩

theorem Shaped.unique : ∀ {t t' : BinaryTree NodeId} {p : Option NodeId}, Shaped m p t → Shaped m p t' →
    rootId t = rootId t' → t = t' := by
  intro t
  induction t with
  | nil =>
    intro t' p _ _ hroot
    cases t' with
    | nil => rfl
    | node y l r => cases hroot
  | node x l r ihl ihr =>
    intro t' p h h' hroot
    cases t' with
    | nil => cases hroot
    | node y l' r' =>
      obtain rfl : x = y := Option.some.inj hroot
      rw [ihl h.2.2.2.1 h'.2.2.2.1 (h.2.1.symm.trans h'.2.1),
        ihr h.2.2.2.2 h'.2.2.2.2 (h.2.2.1.symm.trans h'.2.2.1)]

theorem Rep.shaped : ∀ {t : BinaryTree NodeId} {p : Option NodeId}, Rep m p t → Shaped m p t := by
  intro t
  induction t with
  | nil => intro p _; trivial
  | node x l r ihl ihr =>
    intro p h
    obtain ⟨h₁, h₂, h₃, -, -, h₆, h₇⟩ := h
    exact ⟨h₁, h₂, h₃, ihl h₆, ihr h₇⟩

/-- The links of a node lead to nodes of the tree, or to what the tree hangs below. -/
theorem Shaped.link_mem : ∀ {t : BinaryTree NodeId} {p : Option NodeId}, Shaped m p t →
    ∀ y ∈ t.inorder, ∀ z, (m y).parent = some z ∨ (m y).left = some z ∨ (m y).right = some z →
      z ∈ t.inorder ∨ p = some z := by
  intro t
  induction t with
  | nil => intro p _ y hy; cases hy
  | node x l r ihl ihr =>
    intro p ⟨h₁, h₂, h₃, hl, hr⟩ y hy z hz
    simp only [inorder_node, List.mem_append, List.mem_cons] at hy ⊢
    rcases hy with hy | rfl | hy
    · rcases ihl hl y hy z hz with h | h
      · exact .inl (.inl h)
      · cases h
        exact .inl (.inr (.inl rfl))
    · rcases hz with hz | hz | hz
      · exact .inr (h₁ ▸ hz)
      · refine .inl (.inl ?_)
        by_contra hnot
        exact rootId_ne hnot (h₂.symm.trans hz)
      · refine .inl (.inr (.inr ?_))
        by_contra hnot
        exact rootId_ne hnot (h₃.symm.trans hz)
    · rcases ihr hr y hy z hz with h | h
      · exact .inl (.inr (.inr h))
      · cases h
        exact .inl (.inr (.inl rfl))

/-! ## 2. Insertion

Where a node may be hung in is any null link, or the root of an empty tree. In the order of the
tree it then stands right before or right after the node whose link it was.
-/

/-- A place for a new node: an empty link of a node, or the root of the empty tree. -/
def Vacant (m : AvlMem) (t : BinaryTree NodeId) : Option (NodeId × Side) → Prop
  | none => t = nil
  | some (y, s) => y ∈ t.inorder ∧ (m y).link s = none

/-- Link the node to the place, as `tree_insert` does. -/
def attachAt (m : AvlMem) (x : NodeId) : Option (NodeId × Side) → AvlMem
  | none => m.setParent x none
  | some (y, s) => (m.setLink s y (some x)).setParent x (some y)

/-- The place is between these two parts of the order: right before or right after its node. -/
def Between (pos : Option (NodeId × Side)) (as bs : List NodeId) : Prop :=
  match pos with
  | none => as = [] ∧ bs = []
  | some (y, .left) => bs.head? = some y
  | some (y, .right) => as.getLast? = some y

def placeOf (c : List (Frame NodeId)) : Option (NodeId × Side) :=
  c.head?.map fun f => (f.val, f.side)

theorem attachAt_placeOf (m : AvlMem) (c : List (Frame NodeId)) (x : NodeId) :
    attachAt m x (placeOf c) = attach m c x := by
  cases c <;> rfl

theorem between_placeOf (c : List (Frame NodeId)) : Between (placeOf c) (before c) (after c) := by
  cases c with
  | nil => exact ⟨rfl, rfl⟩
  | cons f c =>
    obtain ⟨side, y, u⟩ := f
    cases side with
    | left => rfl
    | right => exact List.getLast?_concat

theorem Vacant.exists_plug {pos : Option (NodeId × Side)} (h : Rep m none t) (hpos : Vacant m t pos) :
    ∃ c, t = nil.plug c ∧ pos = placeOf c := by
  match pos with
  | none => exact ⟨[], hpos, rfl⟩
  | some (y, s) =>
    obtain ⟨hy, hlink⟩ := hpos
    obtain ⟨l, r, c, rfl⟩ := exists_plug_of_mem hy
    have hsub := (rep_plug.mp h).1
    rw [node_eq_join s y l r, rep_join] at hsub
    have hnil : (node y l r).child s = nil := by
      have hroot := hsub.1.near.symm.trans hlink
      cases hc : (node y l r).child s with
      | nil => rfl
      | node z a b => rw [hc] at hroot; cases hroot
    refine ⟨⟨s, y, (node y l r).child s.flip⟩ :: c, ?_, rfl⟩
    rw [plug_cons, Frame.fill, ← hnil, ← node_eq_join]

theorem exists_vacant (h : Rep m none t) : ∃ pos, Vacant m t pos := by
  have hc := plug_descend (fun _ : NodeId => false) t []
  rw [plug_nil] at hc
  generalize descend (fun _ => false) t [] = c at hc
  subst hc
  cases c with
  | nil => exact ⟨none, rfl⟩
  | cons f c =>
    have hang := (rep_plug.mp h).2.1
    refine ⟨some (f.val, f.side), ?_, hang.2.1⟩
    rw [(perm_inorder_plug _ _).mem_iff]
    simp

/-- **Insertion**, whatever the size: the counts are those of a `uint32_t`. -/
theorem avlFix_attachAt {pos : Option (NodeId × Side)} {fuel : Nat} (h : Rep m none t)
    (hn : t.inorder.Nodup) (hb : t.Balanced) (hx : x ∉ t.inorder) (hpos : Vacant m t pos)
    (hfuel : t.numNodes < fuel) :
    ∃ m' root t' as bs, avlFix fuel (attachAt (avlInit m x) x pos) x = some (m', root) ∧
      rootId t' = some root ∧ Rep m' none t' ∧ t'.Balanced ∧
      t.inorder = as ++ bs ∧ t'.inorder = as ++ x :: bs ∧ Between pos as bs := by
  obtain ⟨c, rfl, rfl⟩ := hpos.exists_plug h
  have hinit : Rep (avlInit m x) none (nil.plug c) :=
    h.frame fun z hz => AvlMem.set_of_ne m _ fun heq => hx (heq ▸ hz)
  have hperm : (nil.plug c).inorder.Perm (outside c) := perm_inorder_plug c nil
  have hnodup : (x :: outside c).Nodup :=
    List.nodup_cons.mpr ⟨fun hmem => hx (hperm.mem_iff.mpr hmem), hperm.nodup_iff.mp hn⟩
  obtain ⟨m', root, hfix, hroot, hrep, -⟩ := avlFix_attach hinit (by simp [avlInit]) hnodup
    (Nat.lt_of_le_of_lt (length_le_numNodes_plug c nil) hfuel)
  rw [← attachAt_placeOf] at hfix
  refine ⟨m', root, _, before c, after c, hfix, hroot, hrep, balanced_insertAt hb, ?_, ?_,
    between_placeOf c⟩
  · rw [inorder_plug]
    simp
  · rw [inorder_fixUp]
    simp

/-! ## 3. Deletion

The node that goes is any node of the tree. That no link of the new tree leads to it is what
allows its owner to free it.
-/

theorem exists_removed {fuel : Nat} (h : Rep m none t) (hn : t.inorder.Nodup) (hb : t.Balanced)
    (hx : x ∈ t.inorder) (hfuel : t.numNodes < fuel) :
    ∃ m' t', avlDel fuel m x = some (m', rootId t') ∧ Rep m' none t' ∧ t'.Balanced ∧
      t'.inorder = t.inorder.erase x := by
  obtain ⟨l, r, c, rfl⟩ := exists_plug_of_mem hx
  obtain ⟨m', hdel, hrep, -⟩ := avlDel_spec h hn hfuel
  refine ⟨m', _, hdel, hrep, balanced_removeAt hb, ?_⟩
  -- the node stands between what is left of it and what is right of it
  have horder := Loc.inorder_tree ⟨x, l, r, c⟩
  simp only [Loc.tree, Loc.sub] at horder
  rw [horder] at hn ⊢
  have hnot : x ∉ before c ++ l.inorder := by
    intro hmem
    exact (List.nodup_append.mp hn).2.2 x hmem x List.mem_cons_self rfl
  rw [inorder_removeAt, List.erase_append_right _ hnot, List.erase_cons_head]
  simp

/-- **Insertion and deletion keep a tree valid.** Insertion at any vacant place puts the node
there in the order; the tree it makes must have fewer than `2 ^ 32` nodes. Deletion takes
exactly the node out, and no link of the new tree leads to it. -/
theorem avl_insert_delete {m : AvlMem} {root : Option NodeId} {t : BinaryTree NodeId}
    (h : ValidTree m root t) :
    (t.numNodes + 1 < 2 ^ 32 → ∀ x pos fuel, x ∉ t.inorder → Vacant m t pos → t.numNodes < fuel →
      ∃ m' root' t' as bs, avlFix fuel (attachAt (avlInit m x) x pos) x = some (m', root') ∧
        ValidTree m' (some root') t' ∧
        t.inorder = as ++ bs ∧ t'.inorder = as ++ x :: bs ∧ Between pos as bs) ∧
    (t.numNodes < 2 ^ 32 → ∀ x fuel, x ∈ t.inorder → t.numNodes < fuel →
      ∃ m' root' t', avlDel fuel m x = some (m', root') ∧ ValidTree m' root' t' ∧
        t'.inorder = t.inorder.erase x ∧ (root' = none ↔ t.inorder = [x]) ∧ root' ≠ some x ∧
        ∀ y ∈ t'.inorder, (m' y).parent ≠ some x ∧ (m' y).left ≠ some x ∧ (m' y).right ≠ some x) := by
  constructor
  · intro hsize x pos fuel hx hpos hfuel
    obtain ⟨m', root', t', as, bs, hfix, hroot, hrep, hbal, hold, hnew, hbetween⟩ :=
      avlFix_attachAt (h.rep (by omega)) h.distinct h.balanced hx hpos hfuel
    have hperm : t'.inorder.Perm (x :: t.inorder) := by
      rw [hnew, hold]
      exact List.perm_middle
    have hlen := hperm.length_eq
    rw [length_inorder, List.length_cons, length_inorder] at hlen
    refine ⟨m', root', t', as, bs, hfix, ?_, hold, hnew, hbetween⟩
    rw [← hroot]
    apply ValidTree.of_rep hrep _ hbal (by omega)
    exact hperm.nodup_iff.mpr (List.nodup_cons.mpr ⟨hx, h.distinct⟩)
  · intro hsize x fuel hx hfuel
    obtain ⟨m', t', hdel, hrep, hbal, horder⟩ :=
      exists_removed (h.rep hsize) h.distinct h.balanced hx hfuel
    have hgone : x ∉ t'.inorder := by
      rw [horder]
      exact h.distinct.not_mem_erase
    have hlen : t'.numNodes = t.numNodes - 1 := by
      rw [← length_inorder, horder, List.length_erase_of_mem hx, length_inorder]
    have hvalid : ValidTree m' (rootId t') t' :=
      .of_rep hrep (horder ▸ h.distinct.erase x) hbal (by omega)
    refine ⟨m', rootId t', t', hdel, hvalid, horder, ?_, rootId_ne hgone, ?_⟩
    · have hsingle : t'.inorder = [] ↔ t.inorder = [x] := by
        rw [horder, List.erase_eq_nil_iff]
        constructor
        · intro hor
          rcases hor with hnil | hone
          · rw [hnil] at hx
            cases hx
          · exact hone
        · exact .inr
      rw [← hsingle]
      cases t' with
      | nil => simp [rootId]
      | node y l r => simp [rootId]
    · intro y hy
      have hlink := hvalid.shaped.link_mem y hy x
      simp only [hgone, reduceCtorEq, or_self, imp_false, not_or] at hlink
      exact hlink

/-- Five nodes in their order, the second one at the root and the right side the higher one. -/
def fiveNodes : AvlMem where
  cell
    | 0 => { parent := some 1, height := 1, cnt := 1 }
    | 1 => { left := some 0, right := some 3, height := 3, cnt := 5 }
    | 2 => { parent := some 3, height := 1, cnt := 1 }
    | 3 => { parent := some 1, left := some 2, right := some 4, height := 2, cnt := 3 }
    | 4 => { parent := some 3, height := 1, cnt := 1 }
    | _ => {}

/-- A sixth node at the right end makes the root rotate; and the root, which has two children,
is deleted and the third node takes its place. -/
theorem avl_insert_delete_five : ∃ t,
    ValidTree fiveNodes (some 1) t ∧ t.inorder = [0, 1, 2, 3, 4] ∧
    (∃ m' t' as bs, avlFix 6 (attachAt (avlInit fiveNodes 5) 5 (some (4, .right))) 5 = some (m', 3) ∧
      ValidTree m' (some 3) t' ∧
      t.inorder = as ++ bs ∧ t'.inorder = as ++ 5 :: bs ∧ Between (some (4, .right)) as bs) ∧
    ∃ m' t', avlDel 6 fiveNodes 1 = some (m', some 2) ∧ ValidTree m' (some 2) t' ∧ t'.inorder = [0, 2, 3, 4] ∧
      ∀ y ∈ t'.inorder, (m' y).parent ≠ some 1 ∧ (m' y).left ≠ some 1 ∧ (m' y).right ≠ some 1 := by
  have hvalid : ValidTree fiveNodes (some 1)
      (node 1 (node 0 nil nil) (node 3 (node 2 nil nil) (node 4 nil nil))) := by
    refine ⟨⟨rfl, by decide, ?_, ?_⟩, ?_, ?_⟩
    · simp [Shaped, fiveNodes, rootId]
    · simp [AllNodes, fiveNodes]
    · simp [AllNodes, fiveNodes]
    · simp [BinaryTree.Balanced]
  obtain ⟨hins, hdel⟩ := avl_insert_delete hvalid
  refine ⟨_, hvalid, rfl, ?_, ?_⟩
  · obtain ⟨m', root', t', as, bs, hrun, hv, hold, hnew, hbetween⟩ :=
      hins (by decide) 5 (some (4, .right)) 6 (by decide) ⟨by decide, rfl⟩ (by decide)
    obtain rfl : root' = 3 :=
      Option.some.inj ((congrArg (Option.map Prod.snd) hrun).symm.trans (by decide +kernel))
    exact ⟨m', t', as, bs, hrun, hv, hold, hnew, hbetween⟩
  · obtain ⟨m', root', t', hrun, hv, horder, -, -, hlinks⟩ := hdel (by decide) 1 6 (by decide) (by decide)
    obtain rfl : root' = some 2 :=
      Option.some.inj ((congrArg (Option.map Prod.snd) hrun).symm.trans (by decide +kernel))
    exact ⟨m', t', hrun, hv, horder, hlinks⟩

/-! ## 4. The largest tree

Trees of every size exist, by insertion one after the other, and the one of `2 ^ 32 - 1` nodes
is valid and cannot take another. It cannot be written down as a term that a kernel evaluates,
so it is obtained by induction.
-/

/-- Nodes inserted one after the other. -/
theorem exists_rep : ∀ n : Nat, ∃ m t, Rep m none t ∧ t.inorder.Nodup ∧ t.Balanced ∧ t.numNodes = n ∧
    ∀ z ∈ t.inorder, z < n := by
  intro n
  induction n with
  | zero => exact ⟨⟨fun _ => {}⟩, nil, trivial, List.nodup_nil, trivial, rfl, by simp⟩
  | succ n ih =>
    obtain ⟨m, t, hrep, hn, hb, hsize, hlt⟩ := ih
    have hx : n ∉ t.inorder := fun hmem => Nat.lt_irrefl n (hlt n hmem)
    obtain ⟨pos, hpos⟩ := exists_vacant hrep
    obtain ⟨m', -, t', as, bs, -, -, hrep', hb', hold, hnew, -⟩ :=
      avlFix_attachAt hrep hn hb hx hpos (Nat.lt_succ_self _)
    have hperm : t'.inorder.Perm (n :: t.inorder) := by
      rw [hnew, hold]
      exact List.perm_middle
    refine ⟨m', t', hrep', hperm.nodup_iff.mpr (List.nodup_cons.mpr ⟨hx, hn⟩), hb', ?_, ?_⟩
    · rw [← length_inorder, hperm.length_eq, List.length_cons, length_inorder, hsize]
    · intro z hz
      rcases List.mem_cons.mp (hperm.mem_iff.mp hz) with rfl | hz
      · exact Nat.lt_succ_self _
      · exact Nat.lt_succ_of_lt (hlt z hz)

/-- **A valid tree of `2 ^ 32 - 1` nodes is full**: wherever the next node is attached,
`avl_fix` returns a root that counts no nodes. -/
theorem avlFix_full : ∃ m t x pos, ValidTree m (rootId t) t ∧ t.numNodes < 2 ^ 32 ∧ x ∉ t.inorder ∧
    Vacant m t pos ∧ ∀ fuel, t.numNodes < fuel → ∃ m' root',
      avlFix fuel (attachAt (avlInit m x) x pos) x = some (m', root') ∧
      (m' root').cnt = 0 ∧ ∀ t', ¬ValidTree m' (some root') t' := by
  obtain ⟨m, t, hrep, hn, hb, hsize, hlt⟩ := exists_rep (2 ^ 32 - 1)
  have hx : 2 ^ 32 - 1 ∉ t.inorder := fun hmem => Nat.lt_irrefl _ (hlt _ hmem)
  obtain ⟨pos, hpos⟩ := exists_vacant hrep
  refine ⟨m, t, 2 ^ 32 - 1, pos, .of_rep hrep hn hb (by omega), by omega, hx, hpos, ?_⟩
  intro fuel hfuel
  obtain ⟨m', root', u, as, bs, hfix, hroot, hrep', -, hold, hnew, -⟩ :=
    avlFix_attachAt hrep hn hb hx hpos hfuel
  have hcnt : (m' root').cnt = 0 := by
    have hu : u.numNodes = 2 ^ 32 := by
      rw [← length_inorder, hnew, List.length_append, List.length_cons, ← Nat.add_assoc,
        ← List.length_append, ← hold, length_inorder, hsize]
      rfl
    have h := hrep'.avlCnt_eq
    rw [hroot, hu] at h
    exact h
  refine ⟨m', root', hfix, hcnt, ?_⟩
  intro t' hvalid
  cases t' with
  | nil => exact absurd hvalid.root_eq (by simp [rootId])
  | node y l r =>
    have hy : root' = y := Option.some.inj hvalid.root_eq
    have hpos := hvalid.counted.1
    rw [← hy, hcnt] at hpos
    omega

/-! ## 5. Walking by rank

The second version of `avl_offset` checks each expression against its type. In a tree of fewer
than `2 ^ 32` nodes all sums stay within `2 ^ 33` of zero, so nothing is refused and both
versions are the same walk.
-/

def nodeAt (t : BinaryTree NodeId) (i : Int) : Option NodeId :=
  if 0 ≤ i then t.inorder[i.toNat]? else none

theorem i64?_of_lt {n : Int} (h : -2 ^ 33 < n ∧ n < 2 ^ 33) : i64? n = some n :=
  if_pos (by omega)

theorem u32?_of_lt {n : Nat} (h : n < 2 ^ 32) : u32? n = some n := if_pos h

theorem Rep.cnt_lt (h : Rep m none t) (hsize : t.numNodes < 2 ^ 32) (hy : y ∈ t.inorder) :
    avlCnt m (m y).left < t.numNodes ∧ avlCnt m (m y).right < t.numNodes := by
  obtain ⟨l, r, c, rfl⟩ := exists_plug_of_mem hy
  have hrep := (rep_plug.mp h).1
  have hlt := Loc.children_lt ⟨y, l, r, c⟩
  simp only [Loc.tree, Loc.sub] at hlt
  have hl : count (2 ^ 32) l ≤ l.numNodes := Nat.mod_le _ _
  have hr : count (2 ^ 32) r ≤ r.numNodes := Nat.mod_le _ _
  rw [hrep.cnt_left, hrep.cnt_right]
  omega

theorem Rep.u32?_cnt {z : NodeId} {q : Option NodeId} (h : Rep m none t)
    (hsize : t.numNodes < 2 ^ 32) (hz : z ∈ t.inorder) (hq : q = (m z).left ∨ q = (m z).right) :
    avlCnt m q < 2 ^ 32 ∧ u32? (avlCnt m q + 1) = some (u32 (avlCnt m q + 1)) ∧
      u32 (avlCnt m q + 1) < 2 ^ 32 := by
  have hlt : avlCnt m q + 1 < 2 ^ 32 := by
    obtain ⟨hl, hr⟩ := h.cnt_lt hsize hz
    rcases hq with rfl | rfl
    · omega
    · omega
  rw [u32, Nat.mod_eq_of_lt hlt]
  exact ⟨by omega, u32?_of_lt hlt, hlt⟩

theorem avlOffsetUpChecked_eq {pos : Int} (h : Rep m none t) (hsize : t.numNodes < 2 ^ 32)
    (hy : y ∈ t.inorder) (hpos : -2 ^ 32 < pos ∧ pos < 2 ^ 32) :
    avlOffsetUpChecked m y pos = (m y).parent.elim (some (.done none)) fun parent =>
      if (m parent).right = some y then
        some (.again (parent, pos - u32 (avlCnt m (m y).left + 1)))
      else some (.again (parent, pos + u32 (avlCnt m (m y).right + 1))) := by
  obtain ⟨-, hul, hul'⟩ := h.u32?_cnt hsize hy (.inl rfl)
  obtain ⟨-, hur, hur'⟩ := h.u32?_cnt hsize hy (.inr rfl)
  unfold avlOffsetUpChecked
  cases (m y).parent with
  | none => rfl
  | some parent =>
    simp only [hul, hur, Option.bind_eq_bind, Option.bind_some]
    rw [i64?_of_lt (by omega), i64?_of_lt (by omega)]
    rfl

/-- A turn within reach of the start overflows nowhere. What is within reach is kept by the turn
itself, as the position is a difference of two ranks. -/
theorem avlOffsetTurnChecked_eq {offset pos : Int} (h : Rep m none t) (hsize : t.numNodes < 2 ^ 32)
    (hy : y ∈ t.inorder) (hpos : -2 ^ 32 < pos ∧ pos < 2 ^ 32) :
    avlOffsetTurnChecked m offset (y, pos) = avlOffsetTurn m offset (y, pos) := by
  have hchild : ∀ z, (m y).left = some z ∨ (m y).right = some z → z ∈ t.inorder := by
    intro z hz
    rcases ((rep_iff hsize).mp h).1.link_mem y hy z (.inr hz) with hmem | hnone
    · exact hmem
    · cases hnone
  obtain ⟨hl, -⟩ := h.u32?_cnt hsize hy (.inl rfl)
  obtain ⟨hr, -⟩ := h.u32?_cnt hsize hy (.inr rfl)
  have hup := avlOffsetUpChecked_eq h hsize hy hpos
  simp only [avlOffsetTurnChecked, avlOffsetTurn]
  by_cases heq : offset = pos
  · rw [if_pos heq, if_pos heq]
  rw [if_neg heq, if_neg heq]
  by_cases hlt : pos < offset
  · rw [if_pos hlt, i64?_of_lt (by omega), Option.bind_eq_bind, Option.bind_some]
    by_cases hin : offset ≤ pos + avlCnt m (m y).right
    · rw [if_pos hin, if_pos ⟨hlt, hin⟩]
      cases hz : (m y).right with
      | none => rfl
      | some z =>
        obtain ⟨-, hu, hu'⟩ := h.u32?_cnt hsize (hchild z (.inr hz)) (.inl rfl)
        simp only [Option.bind_eq_bind, Option.bind_some, hu]
        rw [i64?_of_lt (by omega)]
        rfl
    · rw [if_neg hin, if_neg (fun hc => hin hc.2), if_neg (fun hc => by omega)]
      exact hup.trans (by cases (m y).parent <;> rfl)
  · rw [if_neg hlt, i64?_of_lt (by omega), Option.bind_eq_bind, Option.bind_some]
    by_cases hin : pos - avlCnt m (m y).left ≤ offset
    · rw [if_pos hin, if_neg (fun hc => hlt hc.1), if_pos ⟨by omega, hin⟩]
      cases hz : (m y).left with
      | none => rfl
      | some z =>
        obtain ⟨-, hu, hu'⟩ := h.u32?_cnt hsize (hchild z (.inl hz)) (.inr rfl)
        simp only [Option.bind_eq_bind, Option.bind_some, hu]
        rw [i64?_of_lt (by omega)]
        rfl
    · rw [if_neg hin, if_neg (fun hc => hlt hc.1), if_neg (fun hc => hin hc.2)]
      exact hup.trans (by cases (m y).parent <;> rfl)

theorem avlOffsetChecked_eq {L : Loc NodeId} (h : Rep m none L.tree) (hn : L.tree.inorder.Nodup)
    (hsize : L.tree.numNodes < 2 ^ 32) (offset : Int) {fuel : Nat}
    (hfuel : 2 * L.tree.numNodes + 2 ≤ fuel) :
    avlOffsetChecked fuel m L.val offset = avlOffset fuel m L.val offset := by
  have hturn : ∀ s : Loc NodeId × Int, s.1.tree = L.tree ∧ (s.1.rank : Int) = L.rank + s.2 →
      avlOffsetTurnChecked m offset (s.1.val, s.2) = (rankTurn (2 ^ 32) offset s).map
        (Turn.map (fun s => (s.1.val, s.2)) (Option.map Loc.val)) := by
    intro ⟨M, pos⟩ hs
    have htree : M.tree = L.tree := hs.1
    have hrank : (M.rank : Int) = L.rank + pos := hs.2
    have hM := M.rank_lt
    have hL := L.rank_lt
    rw [htree] at hM
    rw [← avlOffsetTurn_eq (htree ▸ h) (htree ▸ hn)]
    exact avlOffsetTurnChecked_eq h hsize (htree ▸ M.val_mem) (by omega)
  have hlock := loop_lockstep _ hturn
    (fun s s' hs hb => by
      obtain ⟨htree, hrank⟩ := rankTurn_rank (hs.1 ▸ hsize) hs.2 hb
      exact ⟨htree.trans hs.1, hrank⟩)
    fuel (L, 0) ⟨rfl, by simp⟩
  rw [avlOffset_spec h hn offset hfuel, avlOffsetChecked, hlock,
    (rankWalk_total (by decide) L offset hfuel).1, Option.map_some]

theorem avlOffset_nodeAt {L : Loc NodeId} (h : Rep m none L.tree) (hn : L.tree.inorder.Nodup)
    (hsize : L.tree.numNodes < 2 ^ 32) (offset : Int) {fuel : Nat}
    (hfuel : 2 * L.tree.numNodes + 2 ≤ fuel) :
    avlOffset fuel m L.val offset = some (nodeAt L.tree (L.rank + offset)) := by
  rw [avlOffset_spec h hn offset hfuel]
  obtain ⟨hsome, hnone⟩ := rankWalk_spec L offset hsize
  congr 1
  cases hw : rankWalk (2 ^ 32) L offset with
  | none =>
    rcases hnone hw with hlt | hge
    · rw [nodeAt, if_neg (by omega)]
      rfl
    · rw [nodeAt, if_pos (by omega), List.getElem?_eq_none]
      · rfl
      · rw [length_inorder]
        omega
  | some M =>
    obtain ⟨htree, hrank⟩ := hsome M hw
    rw [nodeAt, if_pos (by omega), ← hrank, Int.toNat_natCast, ← htree, M.getElem?_rank]
    rfl

def AvlMem.withHeights (m : AvlMem) (g : NodeId → Nat) : AvlMem :=
  ⟨fun z => { m z with height := g z }⟩

theorem avlOffset_withHeights (m : AvlMem) (g : NodeId → Nat) (fuel : Nat) (x : NodeId)
    (offset : Int) : avlOffset fuel (m.withHeights g) x offset = avlOffset fuel m x offset ∧
      avlOffsetChecked fuel (m.withHeights g) x offset = avlOffsetChecked fuel m x offset :=
  ⟨rfl, rfl⟩

theorem shaped_withHeights (g : NodeId → Nat) : ∀ {t : BinaryTree NodeId} {p : Option NodeId},
    Shaped m p t → Shaped (m.withHeights g) p t := by
  intro t
  induction t with
  | nil => intro p _; trivial
  | node x l r ihl ihr =>
    intro p h
    exact ⟨h.1, h.2.1, h.2.2.1, ihl h.2.2.2.1, ihr h.2.2.2.2⟩

/-- **`avl_offset` is exact rank arithmetic**: it ends, at the node so many places on or at NULL
when there is none, and no expression in it overflows. Neither the heights nor the balance
matter. -/
theorem avl_offset_exact {m : AvlMem} {root : Option NodeId} {t : BinaryTree NodeId}
    (h : CountedTree m root t) (hsize : t.numNodes < 2 ^ 32) {r : Nat} {x : NodeId}
    (hx : t.inorder[r]? = some x) (offset : Int) {fuel : Nat} (hfuel : 2 * t.numNodes + 2 ≤ fuel) :
    avlOffset fuel m x offset = some (nodeAt t (r + offset)) ∧
      avlOffsetChecked fuel m x offset = some (nodeAt t (r + offset)) := by
  obtain ⟨g, hg⟩ := exists_labelling (fun _ l r => max l.height r.height + 1) h.distinct
  have hrep : Rep (m.withHeights g) none t :=
    (rep_iff hsize).mpr ⟨shaped_withHeights g h.shaped, h.counted, hg⟩
  rw [← (avlOffset_withHeights m g fuel x offset).1, ← (avlOffset_withHeights m g fuel x offset).2]
  obtain ⟨l, r', c, rfl⟩ := exists_plug_of_mem (List.mem_of_getElem? hx)
  -- no other position has this node
  have hr : r = Loc.rank ⟨x, l, r', c⟩ :=
    (List.getElem?_inj (List.getElem?_eq_some_iff.mp hx).1 h.distinct).mp
      (hx.trans (Loc.getElem?_rank ⟨x, l, r', c⟩).symm)
  rw [avlOffsetChecked_eq (L := ⟨x, l, r', c⟩) hrep h.distinct hsize offset hfuel,
    avlOffset_nodeAt (L := ⟨x, l, r', c⟩) hrep h.distinct hsize offset hfuel, ← hr]
  exact ⟨rfl, rfl⟩

/-- From the first node of two: as far as the offsets of an `int64_t` go, only `1` leads to the
other. -/
theorem avl_offset_exact_two :
    avlOffset 6 ⟨fun z => if z = 0 then { right := some 1, cnt := 2 } else { parent := some 0, cnt := 1 }⟩
        0 1 = some (some 1) ∧
      avlOffsetChecked 6
        ⟨fun z => if z = 0 then { right := some 1, cnt := 2 } else { parent := some 0, cnt := 1 }⟩
        0 (-2 ^ 63) = some none := by
  have h : CountedTree
      ⟨fun z => if z = 0 then { right := some 1, cnt := 2 } else { parent := some 0, cnt := 1 }⟩
      (some 0) (node 0 nil (node 1 nil nil)) := by
    refine ⟨rfl, by simp, ?_, ?_⟩
    · simp [Shaped, rootId]
    · simp [AllNodes]
  constructor
  · exact (avl_offset_exact (r := 0) h (by decide) rfl 1 (by decide)).1
  · exact (avl_offset_exact (r := 0) h (by decide) rfl (-2 ^ 63) (by decide)).2

end ApexDB
