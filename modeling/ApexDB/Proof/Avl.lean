import ApexDB.Lib.Cursor
import ApexDB.Avl

/-!
# A memory represents a tree

The link between `src/avl.cpp` and `Lib/AvlTree.lean`: `Rep m p t` says that the memory `m`
holds the tree `t` of addresses below the parent `p`, with every link, height and count right,
and the specification of each pointer function is that it turns a representation of `t` into one
of what the library does to `t`.

**A node in the middle of a repair is not represented yet.** `avl_fix` walks through ancestors
whose own `height` and `cnt` are stale while everything around them is in order. That state has
a name, `Linked`, and `avl_update` is precisely the step from `Linked` to `Rep`. The ancestors
above it are `Hangs`: links right, nothing said of their counts.

Every specification ends with a frame: which addresses may have been written to. A tree is
intrusive, so other memory stands right beside it, and a caller needs to know that a node
outside of the tree is as it was. The addresses of a tree are distinct, which is a hypothesis
(`Nodup`) wherever two of its nodes must not be one.
-/

set_option autoImplicit false

namespace ApexDB

open Lib BinaryTree

/-! ## 1. Reading a memory after a write

What each assignment does to the field it writes, and that it leaves the other fields and the
other nodes alone.
-/

section Memory

variable {m : AvlMem} {s : Side} {n z : NodeId} {p q : Option NodeId}

@[simp] theorem AvlMem.set_self (m : AvlMem) (n : NodeId) (v : AVLNode) : (m.set n v) n = v := by
  simp [AvlMem.set]

theorem AvlMem.set_of_ne (m : AvlMem) (v : AVLNode) (h : z ≠ n) : (m.set n v) z = m z := by
  simp [AvlMem.set, h]

theorem AvlMem.setLink_of_ne (m : AvlMem) (s : Side) (p : Option NodeId) (h : z ≠ n) :
    (m.setLink s n p) z = m z := by
  cases s <;> exact AvlMem.set_of_ne m _ h

@[simp] theorem AvlMem.setLink_self (m : AvlMem) (s : Side) (n : NodeId) (p : Option NodeId) :
    ((m.setLink s n p) n).link s = p := by
  cases s <;> simp [AvlMem.setLink, AVLNode.link]

@[simp] theorem AvlMem.setLink_flip (m : AvlMem) (s : Side) (n : NodeId) (p : Option NodeId) :
    ((m.setLink s n p) n).link s.flip = (m n).link s.flip := by
  cases s <;> simp [AvlMem.setLink, AVLNode.link]

@[simp] theorem AvlMem.setLink_parent (m : AvlMem) (s : Side) (n : NodeId) (p : Option NodeId)
    (z : NodeId) : ((m.setLink s n p) z).parent = (m z).parent := by
  by_cases h : z = n
  · subst h
    cases s <;> simp [AvlMem.setLink]
  · rw [AvlMem.setLink_of_ne m s p h]

theorem AvlMem.setLink_eq_self (h : (m n).link s = p) : m.setLink s n p = m := by
  subst h
  cases s <;> simp [AvlMem.setLink, AvlMem.set, AVLNode.link]

theorem AvlMem.setParent_of_ne (m : AvlMem) (p : Option NodeId) (h : z ≠ n) :
    (m.setParent n p) z = m z :=
  AvlMem.set_of_ne m _ h

@[simp] theorem AvlMem.setParent_self (m : AvlMem) (n : NodeId) (p : Option NodeId) :
    (m.setParent n p) n = { m n with parent := p } := by
  simp [AvlMem.setParent]

@[simp] theorem AvlMem.setParent_link (m : AvlMem) (n : NodeId) (p : Option NodeId) (z : NodeId)
    (s : Side) : ((m.setParent n p) z).link s = (m z).link s := by
  by_cases h : z = n
  · subst h
    cases s <;> simp [AVLNode.link]
  · rw [AvlMem.setParent_of_ne m p h]

theorem AvlMem.setParent?_of_ne (m : AvlMem) (q : Option NodeId) (h : p ≠ some z) :
    (m.setParent? p q) z = m z := by
  cases p with
  | none => rfl
  | some n => exact AvlMem.setParent_of_ne m q fun hz => h (by rw [hz])

theorem avlUpdate_of_ne (m : AvlMem) (h : z ≠ n) : (avlUpdate m n) z = m z :=
  AvlMem.set_of_ne m _ h

end Memory

/-! ## 2. Representation

`Rep` is by recursion on the tree, and has the counts as a `uint32_t` holds them. Frames are by
distinctness: a write to an address that is not among those of a tree leaves its representation
alone (`Rep.frame`).
-/

def rootId : BinaryTree NodeId → Option NodeId
  | nil => none
  | node x _ _ => some x

@[simp] theorem rootId_join (s : Side) (x : NodeId) (t u : BinaryTree NodeId) :
    rootId (join s x t u) = some x := by
  cases s <;> rfl

theorem rootId_ne {t : BinaryTree NodeId} {z : NodeId} (h : z ∉ t.inorder) :
    rootId t ≠ some z := by
  cases t with
  | nil => simp [rootId]
  | node x l r =>
    intro heq
    simp only [rootId, Option.some.injEq] at heq
    exact h (by simp [heq])

/-- The memory holds this tree below this parent: the links match in both directions, and every
node has the height and the count of its subtree. -/
def Rep (m : AvlMem) : Option NodeId → BinaryTree NodeId → Prop
  | _, nil => True
  | p, node x l r =>
      (m x).parent = p ∧ (m x).left = rootId l ∧ (m x).right = rootId r ∧
      (m x).height = (node x l r).height ∧ (m x).cnt = u32 (node x l r).numNodes ∧
      Rep m (some x) l ∧ Rep m (some x) r

/-- A node with the right links and represented children, whose own height and count may be out
of date. -/
structure Linked (m : AvlMem) (p : Option NodeId) (s : Side) (x : NodeId)
    (t u : BinaryTree NodeId) : Prop where
  parent : (m x).parent = p
  near : (m x).link s = rootId t
  far : (m x).link s.flip = rootId u
  rep_near : Rep m (some x) t
  rep_far : Rep m (some x) u

variable {m m' : AvlMem} {p q : Option NodeId} {s : Side} {x y : NodeId}
  {t u a b c : BinaryTree NodeId}

theorem Linked.flip (h : Linked m p s x t u) : Linked m p s.flip x u t :=
  ⟨h.parent, h.far, by rw [Side.flip_flip]; exact h.near, h.rep_far, h.rep_near⟩

theorem rep_join : Rep m p (join s x t u) ↔ Linked m p s x t u ∧
    (m x).height = (join s x t u).height ∧ (m x).cnt = u32 (join s x t u).numNodes := by
  cases s with
  | left =>
    exact ⟨fun ⟨h₁, h₂, h₃, h₄, h₅, h₆, h₇⟩ => ⟨⟨h₁, h₂, h₃, h₆, h₇⟩, h₄, h₅⟩,
      fun ⟨⟨h₁, h₂, h₃, h₆, h₇⟩, h₄, h₅⟩ => ⟨h₁, h₂, h₃, h₄, h₅, h₆, h₇⟩⟩
  | right =>
    exact ⟨fun ⟨h₁, h₂, h₃, h₄, h₅, h₆, h₇⟩ => ⟨⟨h₁, h₃, h₂, h₇, h₆⟩, h₄, h₅⟩,
      fun ⟨⟨h₁, h₃, h₂, h₇, h₆⟩, h₄, h₅⟩ => ⟨h₁, h₂, h₃, h₄, h₅, h₆, h₇⟩⟩

theorem Rep.frame : ∀ {t : BinaryTree NodeId} {p : Option NodeId}, Rep m p t →
    (∀ z ∈ t.inorder, m' z = m z) → Rep m' p t := by
  intro t
  induction t with
  | nil => intro p _ _; trivial
  | node x l r ihl ihr =>
    intro p h hf
    obtain ⟨h₁, h₂, h₃, h₄, h₅, h₆, h₇⟩ := h
    have hx : m' x = m x := hf x (by simp)
    exact ⟨hx ▸ h₁, hx ▸ h₂, hx ▸ h₃, hx ▸ h₄, hx ▸ h₅, ihl h₆ fun z hz => hf z (by simp [hz]),
      ihr h₇ fun z hz => hf z (by simp [hz])⟩

/-- Hanging a tree below another parent: one store to its root, and none to the empty tree. -/
theorem Rep.reparent (h : Rep m p t) (hn : t.inorder.Nodup) (q : Option NodeId) :
    Rep (m.setParent? (rootId t) q) q t := by
  cases t with
  | nil => trivial
  | node x l r =>
    obtain ⟨h₁, h₂, h₃, h₄, h₅, h₆, h₇⟩ := h
    obtain ⟨hxl, hxr, -⟩ := nodup_inorder_join (s := .left).mp hn
    have hx : (m.setParent? (rootId (node x l r)) q) x = { m x with parent := q } :=
      AvlMem.setParent_self m x q
    rw [Rep, hx]
    refine ⟨rfl, h₂, h₃, h₄, h₅, h₆.frame fun z hz => ?_, h₇.frame fun z hz => ?_⟩
    · exact AvlMem.setParent_of_ne m q fun hzx => hxl (hzx ▸ hz)
    · exact AvlMem.setParent_of_ne m q fun hzx => hxr (hzx ▸ hz)

theorem Rep.avlHeight_eq (h : Rep m p t) : avlHeight m (rootId t) = t.height := by
  cases t with
  | nil => rfl
  | node x l r => exact h.2.2.2.1

theorem Rep.avlCnt_eq (h : Rep m p t) : avlCnt m (rootId t) = u32 t.numNodes := by
  cases t with
  | nil => rfl
  | node x l r => exact h.2.2.2.2.1

/-- **`avl_update` is the step from `Linked` to `Rep`.** Both subtrees are represented already,
so the numbers that it reads from them are right. -/
theorem Linked.avlUpdate (h : Linked m p s x t u) (hn : (join s x t u).inorder.Nodup) :
    Rep (ApexDB.avlUpdate m x) p (join s x t u) := by
  obtain ⟨hxt, hxu, -⟩ := nodup_inorder_join.mp hn
  -- the two children, read from the sides the source reads them from
  have hheight : max (avlHeight m (m x).left) (avlHeight m (m x).right) = max t.height u.height := by
    rw [← h.rep_near.avlHeight_eq, ← h.rep_far.avlHeight_eq, ← h.near, ← h.far]
    cases s with
    | left => rfl
    | right => exact Nat.max_comm _ _
  have hcnt : u32 (1 + avlCnt m (m x).left + avlCnt m (m x).right) =
      u32 (t.numNodes + u.numNodes + 1) := by
    have h₁ := h.rep_near.avlCnt_eq
    have h₂ := h.rep_far.avlCnt_eq
    rw [← h.near] at h₁
    rw [← h.far] at h₂
    cases s <;> simp only [AVLNode.link, Side.flip] at h₁ h₂ <;> rw [h₁, h₂] <;> unfold u32 <;> omega
  rw [rep_join]
  refine ⟨⟨?_, ?_, ?_, h.rep_near.frame fun z hz => ?_, h.rep_far.frame fun z hz => ?_⟩, ?_, ?_⟩
  · simpa [ApexDB.avlUpdate] using h.parent
  · have := h.near
    cases s <;> simpa [ApexDB.avlUpdate, AVLNode.link] using this
  · have := h.far
    cases s <;> simpa [ApexDB.avlUpdate, AVLNode.link] using this
  · exact avlUpdate_of_ne m fun hzx => hxt (hzx ▸ hz)
  · exact avlUpdate_of_ne m fun hzx => hxu (hzx ▸ hz)
  · rw [height_join, ← hheight, Nat.add_comm]
    simp [ApexDB.avlUpdate]
  · rw [numNodes_join, ← hcnt]
    simp [ApexDB.avlUpdate]

/-! ## 3. Rotations

A rotation is given a node that is `Linked`, because that is what it is given in the source: the
node above has not been brought up to date when its child is rotated. It updates both nodes
itself, the lower one first.
-/

/-- **A rotation of the memory is a rotation of the tree.** The new top is returned and not
stored anywhere; the link to it is the caller's. -/
theorem rot_spec (h : Linked m p s x a (join s y b c))
    (hn : (join s x a (join s y b c)).inorder.Nodup) :
    ∃ m', rot s m x = some (m', y) ∧ Rep m' p (join s y (join s x a b) c) ∧
      ∀ z, z ∉ (join s x a (join s y b c)).inorder → m' z = m z := by
  obtain ⟨hxa, hxu, hna, hnu, had⟩ := nodup_inorder_join.mp hn
  obtain ⟨hyb, hyc, hnb, hnc, hbd⟩ := nodup_inorder_join.mp hnu
  simp only [mem_inorder_join, not_or] at hxu had
  obtain ⟨hxy, hxb, hxc⟩ := hxu
  obtain ⟨hy, -⟩ := rep_join.mp h.rep_far
  have hright : (m x).link s.flip = some y := by rw [h.far, rootId_join]
  -- the memory after the six stores, before the two updates
  obtain ⟨m₅, hm₅⟩ : ∃ m₅ : AvlMem, m₅ = ((((m.setLink s.flip x (rootId b)).setParent? (rootId b)
      (some x)).setParent y p).setLink s y (some x)).setParent x (some y) := ⟨_, rfl⟩
  have hrun : rot s m x = some (ApexDB.avlUpdate (ApexDB.avlUpdate m₅ x) y, y) := by
    simp [rot, hright, h.parent, hy.near, hm₅]
  have hother : ∀ z, z ≠ x → z ≠ y → m₅ z = (m.setParent? (rootId b) (some x)) z := by
    intro z hzx hzy
    rw [hm₅, AvlMem.setParent_of_ne _ _ hzx, AvlMem.setLink_of_ne _ _ _ hzy,
      AvlMem.setParent_of_ne _ _ hzy]
    by_cases hzb : rootId b = some z
    · simp [hzb, AvlMem.setParent?, AvlMem.setLink_of_ne _ _ _ hzx]
    · rw [AvlMem.setParent?_of_ne _ _ hzb, AvlMem.setParent?_of_ne _ _ hzb,
        AvlMem.setLink_of_ne _ _ _ hzx]
  have hkeep : ∀ z, z ≠ x → z ≠ y → z ∉ b.inorder → m₅ z = m z := by
    intro z hzx hzy hzb
    rw [hother z hzx hzy, AvlMem.setParent?_of_ne _ _ (rootId_ne hzb)]
  have hx₅ : Linked m₅ (some y) s x a b := by
    refine ⟨by simp [hm₅], ?_, ?_, h.rep_near.frame fun z hz => ?_, ?_⟩
    · rw [hm₅, AvlMem.setParent_link, AvlMem.setLink_of_ne _ _ _ hxy, AvlMem.setParent_link,
        AvlMem.setParent?_of_ne _ _ (rootId_ne hxb), ← h.near]
      have := AvlMem.setLink_flip m s.flip x (rootId b)
      rwa [Side.flip_flip] at this
    · rw [hm₅, AvlMem.setParent_link, AvlMem.setLink_of_ne _ _ _ hxy, AvlMem.setParent_link,
        AvlMem.setParent?_of_ne _ _ (rootId_ne hxb), AvlMem.setLink_self]
    · have hzd := had z hz
      exact hkeep z (fun hzx => hxa (hzx ▸ hz)) hzd.1 hzd.2.1
    · refine (hy.rep_near.reparent hnb (some x)).frame fun z hz => ?_
      exact hother z (fun hzx => hxb (hzx ▸ hz)) fun hzy => hyb (hzy ▸ hz)
  have hnx : (join s x a b).inorder.Nodup :=
    nodup_inorder_join.mpr ⟨hxa, hxb, hna, hnb, fun z hz => (had z hz).2.1⟩
  have hyx : y ∉ (join s x a b).inorder := by
    rw [mem_inorder_join, not_or, not_or]
    exact ⟨fun hyx => hxy hyx.symm, fun hya => (had y hya).1 rfl, hyb⟩
  have hy₆ : Linked (ApexDB.avlUpdate m₅ x) p s y (join s x a b) c := by
    have hy₅ : ApexDB.avlUpdate m₅ x y = m₅ y := avlUpdate_of_ne m₅ fun hyx => hxy hyx.symm
    refine ⟨?_, ?_, ?_, hx₅.avlUpdate hnx, hy.rep_far.frame fun z hz => ?_⟩
    · rw [hy₅, hm₅, AvlMem.setParent_of_ne _ _ fun hyx => hxy hyx.symm]
      simp
    · rw [hy₅, hm₅, AvlMem.setParent_link, AvlMem.setLink_self, rootId_join]
    · rw [hy₅, hm₅, AvlMem.setParent_link, AvlMem.setLink_flip, AvlMem.setParent_link,
        AvlMem.setParent?_of_ne _ _ (rootId_ne hyb), AvlMem.setLink_of_ne _ _ _ fun hyx => hxy hyx.symm,
        hy.far]
    · have hzx : z ≠ x := fun hzx => hxc (hzx ▸ hz)
      rw [avlUpdate_of_ne m₅ hzx]
      exact hkeep z hzx (fun hzy => hyc (hzy ▸ hz)) fun hzb => hbd z hzb hz
  refine ⟨_, hrun, hy₆.avlUpdate ?_, fun z hz => ?_⟩
  · refine nodup_inorder_join.mpr ⟨hyx, hyc, hnx, hnc, fun z hz => ?_⟩
    rcases mem_inorder_join.mp hz with rfl | hz | hz
    · exact hxc
    · exact (had z hz).2.2
    · exact hbd z hz
  · simp only [mem_inorder_join, not_or] at hz
    obtain ⟨hzx, -, hzy, hzb, -⟩ := hz
    rw [avlUpdate_of_ne _ hzy, avlUpdate_of_ne _ hzx]
    exact hkeep z hzx hzy hzb

/-- **`avl_fix_left` and `avl_fix_right` are `fixSide`**: a single or a double rotation, by
which side of the child is higher. -/
theorem avlFixSide_spec (h : Linked m p s x t u) (hn : (join s x t u).inorder.Nodup)
    (hh : t.height = u.height + 2) :
    ∃ m' sub, avlFixSide s m x = some (m', sub) ∧ rootId (fixSide s (join s x t u)) = some sub ∧
      Rep m' p (fixSide s (join s x t u)) ∧ ∀ z, z ∉ (join s x t u).inorder → m' z = m z := by
  obtain ⟨y, a, b, rfl⟩ := exists_join s (t := t) (by omega)
  obtain ⟨hxt, hxu, hnt, hnu, hd⟩ := nodup_inorder_join.mp hn
  have hy : Linked m (some x) s y a b := (rep_join.mp h.rep_near).1
  have hlink : (m x).link s = some y := by rw [h.near, rootId_join]
  have ha : avlHeight m ((m y).link s) = a.height := by rw [hy.near, hy.rep_near.avlHeight_eq]
  have hb : avlHeight m ((m y).link s.flip) = b.height := by rw [hy.far, hy.rep_far.avlHeight_eq]
  rw [fixSide_join, child_join, child_flip_join]
  unfold avlFixSide
  simp only [hlink, Option.bind_eq_bind, Option.bind_some, ha, hb]
  by_cases hab : a.height < b.height
  · -- first the child is rotated the other way and hung back below `x`
    rw [if_pos hab, if_pos hab]
    obtain ⟨z, b₁, b₂, rfl⟩ := exists_join s (t := b) (by omega)
    obtain ⟨m₁, hrun₁, hrep₁, hf₁⟩ := rot_spec hy hnt
    have hx₁ : m₁ x = m x := hf₁ x hxt
    rw [rotate_join, rotate_flip_join, hrun₁, Option.bind_some]
    have hmem : ∀ w, w ∈ (join s z (join s y a b₁) b₂).inorder ↔
        w ∈ (join s y a (join s z b₁ b₂)).inorder := by
      intro w
      simp only [mem_inorder_join]
      tauto
    have hx₂ : Linked (m₁.setLink s x (some z)) p s x (join s z (join s y a b₁) b₂) u := by
      refine ⟨?_, ?_, ?_, hrep₁.frame fun w hw => ?_, h.rep_far.frame fun w hw => ?_⟩
      · rw [AvlMem.setLink_parent, hx₁, h.parent]
      · rw [AvlMem.setLink_self, rootId_join]
      · rw [AvlMem.setLink_flip, hx₁, h.far]
      · exact AvlMem.setLink_of_ne _ _ _ fun hwx => hxt ((hmem x).mp (hwx ▸ hw))
      · have hwx : w ≠ x := fun hwx => hxu (hwx ▸ hw)
        rw [AvlMem.setLink_of_ne _ _ _ hwx]
        exact hf₁ w fun hwt => hd w hwt hw
    have hn₂ : (join s x (join s z (join s y a b₁) b₂) u).inorder.Nodup := by
      refine nodup_inorder_join.mpr ⟨fun hx => hxt ((hmem x).mp hx), hxu, ?_, hnu,
        fun w hw => hd w ((hmem w).mp hw)⟩
      obtain ⟨hya, hyb, hna, hnb, had⟩ := nodup_inorder_join.mp hnt
      obtain ⟨hzb₁, hzb₂, hnb₁, hnb₂, hbd⟩ := nodup_inorder_join.mp hnb
      simp only [mem_inorder_join, not_or] at hyb had
      refine nodup_inorder_join.mpr ⟨?_, hzb₂, nodup_inorder_join.mpr
        ⟨hya, hyb.2.1, hna, hnb₁, fun w hw => (had w hw).2.1⟩, hnb₂, fun w hw => ?_⟩
      · rw [mem_inorder_join, not_or, not_or]
        exact ⟨fun hzy => hyb.1 hzy.symm, fun hza => (had z hza).1 rfl, hzb₁⟩
      · rcases mem_inorder_join.mp hw with rfl | hw | hw
        · exact hyb.2.2
        · exact (had w hw).2.2
        · exact hbd w hw
    have hx₃ := hx₂.flip
    rw [← join_flip, ← join_flip s z] at hn₂
    rw [← join_flip s z] at hx₃
    obtain ⟨m₂, hrun₂, hrep₂, hf₂⟩ := rot_spec hx₃ hn₂
    rw [join_flip, join_flip] at hrep₂
    refine ⟨m₂, z, hrun₂, by rw [rootId_join], hrep₂, fun w hw => ?_⟩
    simp only [mem_inorder_join, not_or] at hw hf₂ hf₁
    rw [hf₂ w (by tauto), AvlMem.setLink_of_ne _ _ _ hw.1, hf₁ w (by tauto)]
  · rw [if_neg hab, if_neg hab, rotate_flip_join]
    have hx₁ := h.flip
    rw [← join_flip, ← join_flip s y] at hn
    rw [← join_flip s y] at hx₁
    obtain ⟨m₁, hrun₁, hrep₁, hf₁⟩ := rot_spec hx₁ hn
    rw [join_flip, join_flip] at hrep₁
    refine ⟨m₁, y, hrun₁, by rw [rootId_join], hrep₁, fun w hw => hf₁ w ?_⟩
    rwa [join_flip, join_flip]

/-- **The middle of `avl_fix` is `rebalance`**: the update, and a rotation if one side is two
higher than the other. -/
theorem avlFixNode_spec (h : Linked m p s x t u) (hn : (join s x t u).inorder.Nodup) :
    ∃ m' sub, avlFixNode m x = some (m', sub) ∧ rootId (rebalance (join s x t u)) = some sub ∧
      Rep m' p (rebalance (join s x t u)) ∧ ∀ z, z ∉ (join s x t u).inorder → m' z = m z := by
  -- the source tests left against right, whichever side the caller looks from
  obtain ⟨l, r, hjoin, hl⟩ : ∃ l r, join s x t u = join .left x l r ∧ Linked m p .left x l r := by
    cases s with
    | left => exact ⟨t, u, rfl, h⟩
    | right => exact ⟨u, t, rfl, h.flip⟩
  rw [hjoin] at hn ⊢
  have hrep := hl.avlUpdate hn
  have hlink := (rep_join.mp hrep).1
  have hleft : avlHeight (ApexDB.avlUpdate m x) (ApexDB.avlUpdate m x x).left = l.height := by
    rw [show (ApexDB.avlUpdate m x x).left = rootId l from hlink.near, hlink.rep_near.avlHeight_eq]
  have hright : avlHeight (ApexDB.avlUpdate m x) (ApexDB.avlUpdate m x x).right = r.height := by
    rw [show (ApexDB.avlUpdate m x x).right = rootId r from hlink.far, hlink.rep_far.avlHeight_eq]
  have hkeep : ∀ z, z ∉ (join .left x l r).inorder → ApexDB.avlUpdate m x z = m z :=
    fun z hz => avlUpdate_of_ne m fun hzx => hz (mem_inorder_join.mpr (.inl hzx))
  rw [rebalance_join]
  simp only [avlFixNode, hleft, hright]
  split
  · rename_i hh
    obtain ⟨m', sub, hrun, hroot, hrep', hf⟩ := avlFixSide_spec hlink hn hh
    exact ⟨m', sub, hrun, hroot, hrep', fun z hz => (hf z hz).trans (hkeep z hz)⟩
  · split
    · rename_i hh
      rw [← join_flip] at hn
      obtain ⟨m', sub, hrun, hroot, hrep', hf⟩ := avlFixSide_spec hlink.flip hn hh.symm
      rw [join_flip] at hroot hrep' hf
      exact ⟨m', sub, hrun, hroot, hrep', fun z hz => (hf z hz).trans (hkeep z hz)⟩
    · exact ⟨_, x, rfl, rootId_join .., hrep, hkeep⟩

/-! ## 4. Ancestors

A tree in a context is represented when the tree is, and its ancestors hang together, and their
numbers are right (`rep_plug`). The third part is what a change in the hole destroys and what
`avl_fix` restores.
-/

def topOf : List (Frame NodeId) → Option NodeId
  | [] => none
  | f :: _ => some f.val

/-- The ancestors of the hole are linked to each other, to their other subtrees, and to `p` in
the hole. -/
def Hangs (m : AvlMem) : List (Frame NodeId) → Option NodeId → Prop
  | [], _ => True
  | f :: c, p => (m f.val).parent = topOf c ∧ (m f.val).link f.side = p ∧
      (m f.val).link f.side.flip = rootId f.sibling ∧ Rep m (some f.val) f.sibling ∧
      Hangs m c (some f.val)

/-- The ancestors' heights and counts are right for a tree of this height and size in the hole.
-/
def UpToDate (m : AvlMem) : List (Frame NodeId) → Nat → Nat → Prop
  | [], _, _ => True
  | f :: c, h, n => (m f.val).height = max h f.sibling.height + 1 ∧
      (m f.val).cnt = u32 (n + f.sibling.numNodes + 1) ∧
      UpToDate m c (max h f.sibling.height + 1) (n + f.sibling.numNodes + 1)

variable {f : Frame NodeId} {d : List (Frame NodeId)}

@[simp] theorem rootId_fill (f : Frame NodeId) (t : BinaryTree NodeId) :
    rootId (f.fill t) = some f.val :=
  rootId_join ..

/-- The hole and what is around it are represented separately. -/
theorem rep_plug : ∀ {c : List (Frame NodeId)} {t : BinaryTree NodeId}, Rep m none (t.plug c) ↔
    Rep m (topOf c) t ∧ Hangs m c (rootId t) ∧ UpToDate m c t.height t.numNodes := by
  intro c
  induction c with
  | nil => intro t; simp [topOf, Hangs, UpToDate]
  | cons f c ih =>
    intro t
    have hheight : (f.fill t).height = max t.height f.sibling.height + 1 := height_join ..
    have hnum : (f.fill t).numNodes = t.numNodes + f.sibling.numNodes + 1 := numNodes_join ..
    rw [plug_cons, ih, rootId_fill, hheight, hnum, Frame.fill, rep_join, ← Frame.fill, hheight, hnum]
    constructor
    · rintro ⟨⟨hl, hh, hc⟩, hh', hu⟩
      exact ⟨hl.rep_near, ⟨hl.parent, hl.near, hl.far, hl.rep_far, hh'⟩, hh, hc, hu⟩
    · rintro ⟨hr, ⟨h₁, h₂, h₃, h₄, hh'⟩, hh, hc, hu⟩
      exact ⟨⟨⟨h₁, h₂, h₃, hr, h₄⟩, hh, hc⟩, hh', hu⟩

theorem Hangs.frame : ∀ {c : List (Frame NodeId)} {p : Option NodeId}, Hangs m c p →
    (∀ z ∈ outside c, m' z = m z) → Hangs m' c p := by
  intro c
  induction c with
  | nil => intro p _ _; trivial
  | cons f c ih =>
    intro p h hf
    obtain ⟨h₁, h₂, h₃, h₄, h₅⟩ := h
    have hx : m' f.val = m f.val := hf f.val (by simp)
    exact ⟨hx ▸ h₁, hx ▸ h₂, hx ▸ h₃, h₄.frame fun z hz => hf z (by simp [hz]),
      ih h₅ fun z hz => hf z (by simp [hz])⟩

/-- Comparing the left link with the child finds the side the child is on. The source makes this
test to find the link to store through, and it would be wrong for a node that is a child twice.
-/
theorem Hangs.sideOf_eq {c : List (Frame NodeId)} (h : Hangs m (f :: c) (some x))
    (hx : x ∉ f.sibling.inorder) : m.sideOf f.val x = f.side := by
  obtain ⟨-, hlink, hother, -⟩ := h
  unfold AvlMem.sideOf
  cases hs : f.side with
  | left =>
    rw [hs] at hlink
    exact if_pos hlink
  | right =>
    rw [hs] at hother
    refine if_neg fun hl => rootId_ne hx (hother.symm.trans hl)

/-- A new tree in the hole, stored through the link the hole hangs from. -/
theorem Hangs.replace {c : List (Frame NodeId)} (h : Hangs m (f :: c) p)
    (ht : Rep m (some f.val) t) (hf : f.val ∉ t.inorder) (hs : f.val ∉ f.sibling.inorder)
    (hc : f.val ∉ outside c) :
    Linked (m.setLink f.side f.val (rootId t)) (topOf c) f.side f.val t f.sibling ∧
      Hangs (m.setLink f.side f.val (rootId t)) c (some f.val) := by
  obtain ⟨h₁, h₂, h₃, h₄, h₅⟩ := h
  have hne : ∀ {l : List NodeId} {z : NodeId}, f.val ∉ l → z ∈ l →
      (m.setLink f.side f.val (rootId t)) z = m z :=
    fun hl hz => AvlMem.setLink_of_ne _ _ _ fun hzf => hl (hzf ▸ hz)
  refine ⟨⟨?_, ?_, ?_, ht.frame fun z hz => hne hf hz, h₄.frame fun z hz => hne hs hz⟩,
    h₅.frame fun z hz => hne hc hz⟩
  · rw [AvlMem.setLink_parent, h₁]
  · rw [AvlMem.setLink_self]
  · rw [AvlMem.setLink_flip, h₃]

/-! ## 5. `avl_fix`

The loop goes from the hole to the root, so the induction is on the context. In the source one
variable is the address of the link that points at the current node; here it is which frame the
node is in, and that storing through it puts the repaired subtree there is `Hangs.replace`.
-/

/-- **`avl_fix` rebalances every ancestor**, and returns the root. It needs one turn for each,
and one more. -/
theorem avlFix_spec : ∀ {c : List (Frame NodeId)} {m : AvlMem} {s : Side} {x : NodeId}
    {t u : BinaryTree NodeId} {fuel : Nat}, Linked m (topOf c) s x t u → Hangs m c (some x) →
    ((join s x t u).inorder ++ outside c).Nodup → c.length < fuel →
    ∃ m' root, avlFix fuel m x = some (m', root) ∧
      rootId (fixUp (rebalance (join s x t u)) c) = some root ∧
      Rep m' none (fixUp (rebalance (join s x t u)) c) ∧
      ∀ z, z ∉ (join s x t u).inorder → z ∉ outside c → m' z = m z := by
  intro c
  induction c with
  | nil =>
    intro m s x t u fuel hl _ hn hfuel
    obtain ⟨k, rfl⟩ := Nat.exists_eq_add_of_lt hfuel
    rw [outside_nil, List.append_nil] at hn
    obtain ⟨m', sub, hrun, hroot, hrep, hf⟩ := avlFixNode_spec hl hn
    refine ⟨m', sub, loop_done ?_, hroot, hrep, fun z hz _ => hf z hz⟩
    simp [avlFixTurn, hrun, hl.parent, topOf]
  | cons f c ih =>
    intro m s x t u fuel hl hh hn hfuel
    obtain ⟨k, rfl⟩ := Nat.exists_eq_add_of_lt hfuel
    obtain ⟨hnj, hno, hdis⟩ := List.nodup_append.mp hn
    obtain ⟨m₁, sub, hrun, hroot, hrep, hf⟩ := avlFixNode_spec hl hnj
    have hmem : ∀ z, z ∈ (rebalance (join s x t u)).inorder ↔ z ∈ (join s x t u).inorder :=
      fun z => by rw [inorder_rebalance]
    have hout : ∀ z ∈ outside (f :: c), m₁ z = m z :=
      fun z hz => hf z fun hz' => hdis z hz' z hz rfl
    have hxs : x ∉ f.sibling.inorder := fun hx =>
      hdis x (mem_inorder_join.mpr (.inl rfl)) x (by simp [hx]) rfl
    rw [outside_cons, List.cons_append, List.nodup_cons, List.mem_append, not_or] at hno
    have hfj : f.val ∉ (rebalance (join s x t u)).inorder :=
      fun hfv => hdis f.val ((hmem _).mp hfv) f.val (by simp) rfl
    have hh₁ : Hangs m₁ (f :: c) (some x) := hh.frame hout
    obtain ⟨hl₂, hh₂⟩ := hh₁.replace hrep hfj hno.1.1 hno.1.2
    rw [hroot] at hl₂ hh₂
    -- with no rotation the store is skipped, and would have changed nothing
    have hskip : (if sub = x then m₁ else m₁.setLink f.side f.val (some sub)) =
        m₁.setLink f.side f.val (some sub) := by
      split
      · rename_i hsub
        exact (AvlMem.setLink_eq_self (by rw [hh₁.2.1, hsub])).symm
      · rfl
    have hturn : avlFixTurn (m, x) =
        some (.again (m₁.setLink f.side f.val (some sub), f.val)) := by
      simp [avlFixTurn, hrun, hl.parent, topOf, hh.sideOf_eq hxs, hskip]
    have hperm : ((f.fill (rebalance (join s x t u))).inorder ++ outside c).Perm
        ((join s x t u).inorder ++ outside (f :: c)) := by
      refine ((perm_inorder_fill f _).append_right _).trans ?_
      rw [inorder_rebalance, List.append_assoc, outside_cons]
    have hlt : c.length < (f :: c).length + k := by rw [List.length_cons]; omega
    obtain ⟨m₂, root, hrun₂, hroot₂, hrep₂, hf₂⟩ := ih hl₂ hh₂ (hperm.nodup_iff.mpr hn) hlt
    refine ⟨m₂, root, (loop_again hturn).trans hrun₂, hroot₂, hrep₂, fun z hz hzo => ?_⟩
    rw [outside_cons, List.cons_append, List.mem_cons, List.mem_append, not_or, not_or] at hzo
    have hzf : z ∉ (f.fill (rebalance (join s x t u))).inorder := by
      rw [Frame.fill, mem_inorder_join, hmem, not_or, not_or]
      exact ⟨hzo.1, hz, hzo.2.1⟩
    rw [hf₂ z hzf hzo.2.2, AvlMem.setLink_of_ne _ _ _ hzo.1, hf z hz]

/-- The stores that hang the node `x` into the hole: the link of the parent, if there is one,
and the parent link of `x`. -/
def attach (m : AvlMem) (c : List (Frame NodeId)) (x : NodeId) : AvlMem :=
  match c with
  | [] => m.setParent x none
  | f :: _ => (m.setLink f.side f.val (some x)).setParent x (some f.val)

/-- **Insertion.** Hanging an `avl_init`ed node into an empty hole and calling `avl_fix` on it.
-/
theorem avlFix_attach {c : List (Frame NodeId)} {fuel : Nat} (h : Rep m none (nil.plug c))
    (hx : (m x).left = none ∧ (m x).right = none) (hn : (x :: outside c).Nodup)
    (hfuel : c.length < fuel) :
    ∃ m' root, avlFix fuel (attach m c x) x = some (m', root) ∧
      rootId (fixUp (node x nil nil) c) = some root ∧ Rep m' none (fixUp (node x nil nil) c) ∧
      ∀ z, z ≠ x → z ∉ outside c → m' z = m z := by
  obtain ⟨hxc, hnc⟩ := List.nodup_cons.mp hn
  obtain ⟨-, hh, -⟩ := rep_plug.mp h
  have hleaf : rebalance (join .left x nil nil) = node x nil nil := rfl
  have hlink : Linked (attach m c x) (topOf c) .left x nil nil ∧ Hangs (attach m c x) c (some x) := by
    cases c with
    | nil =>
      refine ⟨⟨?_, ?_, ?_, trivial, trivial⟩, trivial⟩
      · simp [attach, topOf]
      · simpa [attach, rootId, AVLNode.link] using hx.1
      · simpa [attach, rootId, AVLNode.link] using hx.2
    | cons f c =>
      obtain ⟨h₁, h₂, h₃, h₄, h₅⟩ := hh
      rw [outside_cons, List.cons_append, List.mem_cons, List.mem_append, not_or, not_or] at hxc
      rw [outside_cons, List.cons_append, List.nodup_cons, List.mem_append, not_or] at hnc
      have hne : ∀ {l : List NodeId} {z : NodeId}, x ∉ l → f.val ∉ l → z ∈ l →
          attach m (f :: c) x z = m z := by
        intro l z hxl hfl hz
        have hzx : z ≠ x := fun hzx => hxl (hzx ▸ hz)
        have hzf : z ≠ f.val := fun hzf => hfl (hzf ▸ hz)
        rw [attach, AvlMem.setParent_of_ne _ _ hzx, AvlMem.setLink_of_ne _ _ _ hzf]
      have hx' : (m.setLink f.side f.val (some x)) x = m x := AvlMem.setLink_of_ne _ _ _ hxc.1
      have hf' : attach m (f :: c) x f.val = (m.setLink f.side f.val (some x)) f.val := by
        rw [attach, AvlMem.setParent_of_ne _ _ fun hfx => hxc.1 hfx.symm]
      refine ⟨⟨?_, ?_, ?_, trivial, trivial⟩, ?_, ?_, ?_, h₄.frame fun z hz => hne hxc.2.1 hnc.1.1 hz,
        h₅.frame fun z hz => hne hxc.2.2 hnc.1.2 hz⟩
      · simp [attach, topOf]
      · simpa [attach, rootId, AVLNode.link, hx'] using hx.1
      · simpa [attach, rootId, AVLNode.link, hx'] using hx.2
      · rw [hf', AvlMem.setLink_parent, h₁]
      · rw [hf', AvlMem.setLink_self]
      · rw [hf', AvlMem.setLink_flip, h₃]
  obtain ⟨m', root, hrun, hroot, hrep, hf⟩ := avlFix_spec hlink.1 hlink.2 (by simpa using hn) hfuel
  rw [hleaf] at hroot hrep
  refine ⟨m', root, hrun, hroot, hrep, fun z hzx hz => ?_⟩
  rw [hf z (by simpa using hzx) hz]
  cases c with
  | nil => exact AvlMem.setParent_of_ne _ _ hzx
  | cons f c =>
    have hzf : z ≠ f.val := fun hzf => hz (by simp [hzf])
    rw [attach, AvlMem.setParent_of_ne _ _ hzx, AvlMem.setLink_of_ne _ _ _ hzf]

/-! ## 6. `avl_del`

With two children three things happen to one memory: the successor is found, it is taken out by
the easy case, and the fields of the node are copied over it. The last step leaves the shape
alone and changes which address stands where, so that it is a relabelling of the tree that the
easy case has left.
-/

/-- **`avl_del_easy` lets the only child move up.** The node taken out keeps its fields. -/
theorem avlDelEasy_spec {c : List (Frame NodeId)} {w : BinaryTree NodeId} {fuel : Nat}
    (h : Rep m none ((join s x nil w).plug c)) (hn : ((join s x nil w).plug c).inorder.Nodup)
    (hfuel : c.length < fuel) :
    ∃ m', avlDelEasy fuel m x = some (m', rootId (fixUp w c)) ∧ Rep m' none (fixUp w c) ∧
      ∀ z, z ∉ w.inorder → z ∉ outside c → m' z = m z := by
  obtain ⟨hx, hh, -⟩ := rep_plug.mp h
  obtain ⟨hl, -⟩ := rep_join.mp hx
  rw [(perm_inorder_plug c _).nodup_iff] at hn
  obtain ⟨hnj, hno, hdis⟩ := List.nodup_append.mp hn
  obtain ⟨-, hxw, -, hnw, -⟩ := nodup_inorder_join.mp hnj
  have hxj : x ∈ (join s x nil w).inorder := mem_inorder_join.mpr (.inl rfl)
  have hwj : ∀ z ∈ w.inorder, z ∈ (join s x nil w).inorder :=
    fun z hz => mem_inorder_join.mpr (.inr (.inr hz))
  -- which link is empty depends on the side; the child found is the root of `w` either way
  have hchild : ¬((m x).left.isSome ∧ (m x).right.isSome) ∧
      (if (m x).left.isSome then (m x).left else (m x).right) = rootId w := by
    have h₁ := hl.near
    have h₂ := hl.far
    cases s with
    | left =>
      simp only [AVLNode.link, Side.flip_left] at h₁ h₂
      rw [h₁, h₂]
      cases w <;> simp [rootId]
    | right =>
      simp only [AVLNode.link, Side.flip_right] at h₁ h₂
      rw [h₁, h₂]
      cases w <;> simp [rootId]
  have hrep := hl.rep_far.reparent hnw (topOf c)
  unfold avlDelEasy
  simp only [if_neg hchild.1, hchild.2, hl.parent, Option.pure_def, Option.bind_eq_bind]
  cases c with
  | nil =>
    exact ⟨_, rfl, hrep, fun z hz _ => AvlMem.setParent?_of_ne _ _ (rootId_ne hz)⟩
  | cons f c =>
    have hfw : f.val ∉ w.inorder := fun hf => hdis f.val (hwj _ hf) f.val (by simp) rfl
    have hxs : x ∉ f.sibling.inorder := fun hx => hdis x hxj x (by simp [hx]) rfl
    have hno' := hno
    rw [outside_cons, List.cons_append, List.nodup_cons, List.mem_append, not_or] at hno'
    have hh₁ : Hangs (m.setParent? (rootId w) (topOf (f :: c))) (f :: c) (some x) := by
      rw [rootId_join] at hh
      refine hh.frame fun z hz => AvlMem.setParent?_of_ne _ _ (rootId_ne fun hzw => ?_)
      exact hdis z (hwj z hzw) z hz rfl
    obtain ⟨hl₂, hh₂⟩ := hh₁.replace hrep hfw hno'.1.1 hno'.1.2
    have hperm : ((join f.side f.val w f.sibling).inorder ++ outside c).Perm
        (w.inorder ++ outside (f :: c)) := by
      refine ((perm_inorder_fill f w).append_right _).trans ?_
      rw [List.append_assoc, outside_cons]
    have hnw' : (w.inorder ++ outside (f :: c)).Nodup :=
      List.nodup_append.mpr ⟨hnw, hno, fun z hz => hdis z (hwj z hz)⟩
    have hlt : c.length < fuel := by rw [List.length_cons] at hfuel; omega
    obtain ⟨m', root, hrun, hroot, hrep', hf⟩ :=
      avlFix_spec hl₂ hh₂ (hperm.nodup_iff.mpr hnw') hlt
    refine ⟨m', ?_, hrep', fun z hzw hzo => ?_⟩
    · simp only [topOf] at hrun hh₁ ⊢
      rw [hh₁.sideOf_eq hxs, hrun, Option.bind_some]
      exact congrArg (fun r => some (m', r)) hroot.symm
    · rw [outside_cons, List.cons_append, List.mem_cons, List.mem_append, not_or, not_or] at hzo
      have hzj : z ∉ (join f.side f.val w f.sibling).inorder := by
        rw [mem_inorder_join, not_or, not_or]
        exact ⟨hzo.1, hzw, hzo.2.1⟩
      rw [hf z hzj hzo.2.2, AvlMem.setLink_of_ne _ _ _ hzo.1,
        AvlMem.setParent?_of_ne _ _ (rootId_ne hzw)]

theorem UpToDate.frame : ∀ {c : List (Frame NodeId)} {h n : Nat}, UpToDate m c h n →
    (∀ f ∈ c, (m' f.val).height = (m f.val).height ∧ (m' f.val).cnt = (m f.val).cnt) →
    UpToDate m' c h n := by
  intro c
  induction c with
  | nil => intro h n _ _; trivial
  | cons f c ih =>
    intro h n hu hf
    obtain ⟨hh, hc⟩ := hf f (by simp)
    exact ⟨hh.trans hu.1, hc.trans hu.2.1, ih hu.2.2 fun g hg => hf g (by simp [hg])⟩

theorem rootId_plug_cons (t u : BinaryTree NodeId) : ∀ {c : List (Frame NodeId)}, c ≠ [] →
    rootId (t.plug c) = rootId (u.plug c) := by
  intro c
  induction c generalizing t u with
  | nil => intro h; exact absurd rfl h
  | cons f c ih =>
    intro _
    cases c with
    | nil => rw [plug_cons, plug_cons, plug_nil, plug_nil, rootId_fill, rootId_fill]
    | cons g c => exact ih (f.fill t) (f.fill u) (by simp)

theorem avlLeftmost_spec : ∀ {l : BinaryTree NodeId} {y : NodeId} {r : BinaryTree NodeId}
    {p : Option NodeId} {fuel : Nat}, Rep m p (node y l r) → (popLeft l y r).2.2.length < fuel →
    loop (avlLeftmostTurn m) fuel y = some (popLeft l y r).1 := by
  intro l
  induction l with
  | nil =>
    intro y r p fuel h hfuel
    obtain ⟨k, rfl⟩ := Nat.exists_eq_add_of_lt hfuel
    refine loop_done ?_
    simp [avlLeftmostTurn, h.2.1, rootId, popLeft]
  | node z a b iha _ =>
    intro y r p fuel h hfuel
    obtain ⟨k, rfl⟩ := Nat.exists_eq_add_of_lt hfuel
    have hturn : avlLeftmostTurn m y = some (.again z) := by simp [avlLeftmostTurn, h.2.1, rootId]
    rw [loop_again hturn]
    refine iha h.2.2.2.2.2.1 ?_
    simp only [popLeft, List.length_append, List.length_cons, List.length_nil]
    omega

/-- The memory before the last store of `avl_del`: `v` has the fields of `x`, and the children
of `x` point to it. -/
def takenOver (m : AvlMem) (x v : NodeId) (l r : BinaryTree NodeId) : AvlMem :=
  ((m.set v (m x)).setParent? (rootId l) (some v)).setParent? (rootId r) (some v)

section TakeOver

variable {l r : BinaryTree NodeId} {v : NodeId} {p : Option NodeId}

theorem takenOver_self (hl : v ∉ l.inorder) (hr : v ∉ r.inorder) : takenOver m x v l r v = m x := by
  rw [takenOver, AvlMem.setParent?_of_ne _ _ (rootId_ne hr),
    AvlMem.setParent?_of_ne _ _ (rootId_ne hl), AvlMem.set_self]

theorem takenOver_of_ne {z : NodeId} (hv : z ≠ v) (hl : z ∉ l.inorder) (hr : z ∉ r.inorder) :
    takenOver m x v l r z = m z := by
  rw [takenOver, AvlMem.setParent?_of_ne _ _ (rootId_ne hr),
    AvlMem.setParent?_of_ne _ _ (rootId_ne hl), AvlMem.set_of_ne _ _ hv]

theorem takenOver_rep (h : Rep m p (node x l r)) (hn : (node x l r).inorder.Nodup)
    (hv : v ∉ (node x l r).inorder) : Rep (takenOver m x v l r) p (node v l r) := by
  obtain ⟨-, -, hnl, hnr, hlr⟩ := nodup_inorder_join (s := .left).mp hn
  rw [inorder_node, List.mem_append, List.mem_cons, not_or, not_or] at hv
  obtain ⟨hvl, -, hvr⟩ := hv
  obtain ⟨h₁, h₂, h₃, h₄, h₅, hrl, hrr⟩ := h
  have hself : takenOver m x v l r v = m x := takenOver_self hvl hvr
  have hl₀ : Rep (m.set v (m x)) (some x) l :=
    hrl.frame fun z hz => AvlMem.set_of_ne _ _ fun hzv => hvl (hzv ▸ hz)
  have hr₀ : Rep ((m.set v (m x)).setParent? (rootId l) (some v)) (some x) r := by
    refine hrr.frame fun z hz => ?_
    have hzv : z ≠ v := fun hzv => hvr (hzv ▸ hz)
    rw [AvlMem.setParent?_of_ne _ _ (rootId_ne fun hzl => hlr z hzl hz), AvlMem.set_of_ne _ _ hzv]
  have hl : Rep (takenOver m x v l r) (some v) l :=
    (hl₀.reparent hnl (some v)).frame fun z hz => by
      rw [takenOver, AvlMem.setParent?_of_ne _ _ (rootId_ne (hlr z hz))]
  have hr : Rep (takenOver m x v l r) (some v) r := hr₀.reparent hnr (some v)
  exact ⟨hself ▸ h₁, hself ▸ h₂, hself ▸ h₃, hself ▸ h₄, hself ▸ h₅, hl, hr⟩

/-- The last store: the link to `x` is turned to `v`, unless `x` is the root. -/
theorem avlTakeOver_eq (h : Rep m p (node x l r)) (hn : (node x l r).inorder.Nodup)
    (hv : v ∉ (node x l r).inorder) (root : Option NodeId) :
    avlTakeOver m x v root = p.elim (takenOver m x v l r, some v) fun parent =>
      ((takenOver m x v l r).setLink ((takenOver m x v l r).sideOf parent x) parent (some v),
        root) := by
  obtain ⟨hxl, hxr, -⟩ := nodup_inorder_join (s := .left).mp hn
  rw [inorder_node, List.mem_append, List.mem_cons, not_or, not_or] at hv
  obtain ⟨hvl, hvx, -⟩ := hv
  obtain ⟨h₁, h₂, h₃, -⟩ := h
  have hright : ((m.set v (m x)).setParent? (rootId l) (some v)) v = m x := by
    rw [AvlMem.setParent?_of_ne _ _ (rootId_ne hvl), AvlMem.set_self]
  have hparent : (takenOver m x v l r x).parent = p := by
    rw [takenOver_of_ne (fun hxv => hvx hxv.symm) hxl hxr, h₁]
  unfold avlTakeOver
  simp only [AvlMem.set_self, h₂, hright, h₃]
  rw [← takenOver, hparent]
  cases p <;> rfl

end TakeOver

/-- The last part of `avl_del` puts `v` where `x` is. -/
theorem avlTakeOver_spec {c : List (Frame NodeId)} {l r : BinaryTree NodeId} {v : NodeId}
    (h : Rep m none ((node x l r).plug c)) (hn : (v :: ((node x l r).plug c).inorder).Nodup) :
    ∃ m', avlTakeOver m x v (rootId ((node x l r).plug c)) =
        (m', rootId ((node v l r).plug c)) ∧ Rep m' none ((node v l r).plug c) ∧
      ∀ z, z ≠ v → z ∉ ((node x l r).plug c).inorder → m' z = m z := by
  have hperm := perm_inorder_plug c (node x l r)
  rw [(hperm.cons v).nodup_iff, List.nodup_cons, List.mem_append, not_or] at hn
  obtain ⟨⟨hvj, hvc⟩, hn⟩ := hn
  obtain ⟨hnj, hno, hdis⟩ := List.nodup_append.mp hn
  obtain ⟨hx, hh, hu⟩ := rep_plug.mp h
  -- what is not in the subtree of `x` and is not `v` is not written before the last store
  have hkeep : ∀ z, z ≠ v → z ∉ (node x l r).inorder → takenOver m x v l r z = m z := by
    intro z hzv hz
    rw [inorder_node, List.mem_append, List.mem_cons, not_or, not_or] at hz
    exact takenOver_of_ne hzv hz.1 hz.2.2
  have hapart : ∀ z ∈ outside c, z ∉ (node x l r).inorder := fun z hz hzj => hdis z hzj z hz rfl
  have hout : ∀ z ∈ outside c, takenOver m x v l r z = m z :=
    fun z hz => hkeep z (fun hzv => hvc (hzv ▸ hz)) (hapart z hz)
  have hv := takenOver_rep hx hnj hvj
  rw [avlTakeOver_eq hx hnj hvj]
  cases c with
  | nil => exact ⟨_, rfl, hv, hkeep⟩
  | cons f c =>
    have hh₃ : Hangs (takenOver m x v l r) (f :: c) (some x) := hh.frame hout
    have hxs : x ∉ f.sibling.inorder := fun hxs => hapart x (by simp [hxs]) (by simp)
    rw [outside_cons, List.cons_append, List.nodup_cons, List.mem_append, not_or] at hno
    have hfj : f.val ∉ (node v l r).inorder := by
      have hfx := hapart f.val (by simp)
      rw [inorder_node, List.mem_append, List.mem_cons, not_or, not_or] at hfx ⊢
      exact ⟨hfx.1, fun hfv => hvc (by simp [hfv]), hfx.2.2⟩
    obtain ⟨hl₄, hh₄⟩ := hh₃.replace hv hfj hno.1.1 hno.1.2
    simp only [topOf, Option.elim, hh₃.sideOf_eq hxs]
    refine ⟨_, Prod.ext rfl (rootId_plug_cons _ _ (by simp)), rep_plug.mpr ⟨hl₄.rep_near,
      ⟨hl₄.parent, hl₄.near, hl₄.far, hl₄.rep_far, hh₄⟩, ?_⟩, fun z hzv hz => ?_⟩
    · refine UpToDate.frame (m := m) hu fun g hg => ?_
      have hg₃ : takenOver m x v l r g.val = m g.val :=
        hout _ (List.mem_flatMap.mpr ⟨g, hg, by simp⟩)
      by_cases hgf : g.val = f.val
      · rw [hgf] at hg₃ ⊢
        cases f.side <;> simp [AvlMem.setLink, hg₃]
      · rw [AvlMem.setLink_of_ne _ _ _ hgf, hg₃]
        exact ⟨rfl, rfl⟩
    · rw [hperm.mem_iff, List.mem_append, not_or, outside_cons, List.cons_append, List.mem_cons,
        not_or] at hz
      rw [AvlMem.setLink_of_ne _ _ _ hz.2.1]
      exact hkeep z hzv hz.1

/-- `avl_del` on a node with two children: the leftmost node of the right subtree is taken out
there, and then put in the place of `x`. -/
theorem avlDel_both_spec {c : List (Frame NodeId)} {z y : NodeId} {a b e f : BinaryTree NodeId}
    {fuel : Nat} (h : Rep m none ((node x (node z a b) (node y e f)).plug c))
    (hn : ((node x (node z a b) (node y e f)).plug c).inorder.Nodup)
    (hfuel : ((node x (node z a b) (node y e f)).plug c).height < fuel) :
    ∃ m', avlDel fuel m x = some (m', rootId (removeAt (node z a b) (node y e f) c)) ∧
      Rep m' none (removeAt (node z a b) (node y e f) c) ∧
      ∀ u, u ∉ ((node x (node z a b) (node y e f)).plug c).inorder → m' u = m u := by
  obtain ⟨⟨-, h₂, h₃, -, -, -, h₇⟩, -⟩ := rep_plug.mp h
  obtain ⟨⟨v, w, d⟩, hp⟩ : ∃ p, popLeft e y f = p := ⟨_, rfl⟩
  have hr : node y e f = (node v nil w).plug d := by rw [← plug_popLeft e y f, hp]
  have htree : (node x (node z a b) (node y e f)).plug c =
      (node v nil w).plug (d ++ ⟨.right, x, node z a b⟩ :: c) := by
    rw [hr, plug_append, plug_cons]
    rfl
  rw [htree] at h hn hfuel
  have hdepth := Nat.lt_of_le_of_lt (length_le_height_plug _ _) hfuel
  have hleft : loop (avlLeftmostTurn m) fuel y = some v := by
    have hd : (popLeft e y f).2.2.length < fuel := by
      rw [List.length_append] at hdepth
      rw [hp]
      exact Nat.lt_of_le_of_lt (Nat.le_add_right _ _) hdepth
    rw [avlLeftmost_spec h₇ hd, hp]
  obtain ⟨m₁, hrun₁, hrep₁, hf₁⟩ := avlDelEasy_spec (s := .left) h hn hdepth
  have hnv := hn
  rw [(perm_inorder_plug _ _).nodup_iff, inorder_node, inorder_nil, List.nil_append,
    List.cons_append, List.nodup_cons, List.mem_append, not_or] at hnv
  obtain ⟨⟨hvw, hvo⟩, hnw⟩ := hnv
  have hperm₁ : (fixUp w (d ++ ⟨.right, x, node z a b⟩ :: c)).inorder.Perm
      (w.inorder ++ outside (d ++ ⟨.right, x, node z a b⟩ :: c)) := by
    rw [inorder_fixUp, ← inorder_plug]
    exact perm_inorder_plug _ _
  have hxo : x ∈ outside (d ++ ⟨.right, x, node z a b⟩ :: c) := by simp [outside_append]
  -- `x` may have moved: find it in the repaired tree
  obtain ⟨l', r', c', hx'⟩ := exists_plug_of_mem (hperm₁.mem_iff.mpr
    (List.mem_append_right _ hxo))
  have hn₁ : (v :: ((node x l' r').plug c').inorder).Nodup := by
    rw [← hx', (hperm₁.cons v).nodup_iff, List.nodup_cons, List.mem_append, not_or]
    exact ⟨⟨hvw, hvo⟩, hnw⟩
  have hrename : (node v l' r').plug c' = removeAt (node z a b) (node y e f) c := by
    simp only [removeAt, hp]
    exact plug_relabel_of_fixUp hx' hnw
  rw [hx'] at hrun₁ hrep₁
  obtain ⟨m₂, hrun₂, hrep₂, hf₂⟩ := avlTakeOver_spec hrep₁ hn₁
  rw [hrename] at hrun₂ hrep₂
  refine ⟨m₂, ?_, hrep₂, fun u hu => ?_⟩
  · unfold avlDel
    rw [h₂, h₃]
    simp only [rootId, hleft, Option.bind_eq_bind, Option.bind_some]
    rw [hrun₁, Option.bind_some, hrun₂]
    rfl
  · rw [htree, (perm_inorder_plug _ _).mem_iff, List.mem_append, inorder_node, inorder_nil,
      List.nil_append, List.mem_cons, not_or, not_or] at hu
    rw [hf₂ u hu.1.1, hf₁ u hu.1.2 hu.2]
    rw [← hx', hperm₁.mem_iff, List.mem_append, not_or]
    exact ⟨hu.1.2, hu.2⟩

/-- **`avl_del` takes exactly that node out**, in as many turns as the tree is high. -/
theorem avlDel_height_spec {c : List (Frame NodeId)} {l r : BinaryTree NodeId} {fuel : Nat}
    (h : Rep m none ((node x l r).plug c)) (hn : ((node x l r).plug c).inorder.Nodup)
    (hfuel : ((node x l r).plug c).height < fuel) :
    ∃ m', avlDel fuel m x = some (m', rootId (removeAt l r c)) ∧ Rep m' none (removeAt l r c) ∧
      ∀ z, z ∉ ((node x l r).plug c).inorder → m' z = m z := by
  obtain ⟨⟨-, h₂, h₃, -⟩, -⟩ := rep_plug.mp h
  have hmem : ∀ z, z ∈ ((node x l r).plug c).inorder ↔
      z ∈ (node x l r).inorder ∨ z ∈ outside c :=
    fun z => by rw [(perm_inorder_plug c _).mem_iff, List.mem_append]
  have hdepth : c.length < fuel := Nat.lt_of_le_of_lt (length_le_height_plug _ _) hfuel
  match l, r with
  | nil, r =>
    obtain ⟨m', hrun, hrep, hf⟩ := avlDelEasy_spec (s := .left) h hn hdepth
    rw [removeAt_nil_left]
    refine ⟨m', ?_, hrep, fun z hz => ?_⟩
    · simp only [avlDel, h₂, rootId]
      exact hrun
    · rw [hmem, not_or] at hz
      exact hf z (fun hzr => hz.1 (by simp [hzr])) hz.2
  | node y a b, nil =>
    obtain ⟨m', hrun, hrep, hf⟩ := avlDelEasy_spec (s := .right) h hn hdepth
    rw [removeAt_nil_right]
    refine ⟨m', ?_, hrep, fun z hz => ?_⟩
    · simp only [avlDel, h₂, h₃, rootId]
      exact hrun
    · rw [hmem, not_or] at hz
      refine hf z (fun hzl => hz.1 ?_) hz.2
      rw [inorder_node]
      exact List.mem_append_left _ hzl
  | node z a b, node y e f => exact avlDel_both_spec h hn hfuel

theorem avlDel_spec {c : List (Frame NodeId)} {l r : BinaryTree NodeId} {fuel : Nat}
    (h : Rep m none ((node x l r).plug c)) (hn : ((node x l r).plug c).inorder.Nodup)
    (hfuel : ((node x l r).plug c).numNodes < fuel) :
    ∃ m', avlDel fuel m x = some (m', rootId (removeAt l r c)) ∧ Rep m' none (removeAt l r c) ∧
      ∀ z, z ∉ ((node x l r).plug c).inorder → m' z = m z :=
  avlDel_height_spec h hn (Nat.lt_of_le_of_lt (height_le_numNodes _) hfuel)

/-! ## 7. `avl_offset`

The walk by rank of the library reads sizes modulo `w`; the source reads `cnt`. In a represented
tree these are the same numbers for `w = 2 ^ 32`, so the two loops run in lockstep, wrapped or
not.
-/

section Counters

variable {l r : BinaryTree NodeId} {p : Option NodeId}

theorem Rep.cnt_left (h : Rep m p (node x l r)) : avlCnt m (m x).left = count (2 ^ 32) l := by
  obtain ⟨-, hlink, -, -, -, hl, -⟩ := h
  rw [hlink, hl.avlCnt_eq]
  rfl

theorem Rep.cnt_right (h : Rep m p (node x l r)) : avlCnt m (m x).right = count (2 ^ 32) r := by
  obtain ⟨-, -, hlink, -, -, -, hr⟩ := h
  rw [hlink, hr.avlCnt_eq]
  rfl

end Counters

/-- One turn of `avl_offset` is one turn of the walk by rank, on counters of 32 bits. -/
theorem avlOffsetTurn_eq {L : Loc NodeId} (h : Rep m none L.tree) (hn : L.tree.inorder.Nodup)
    (offset pos : Int) :
    avlOffsetTurn m offset (L.val, pos) = (rankTurn (2 ^ 32) offset (L, pos)).map
      (Turn.map (fun s => (s.1.val, s.2)) (Option.map Loc.val)) := by
  obtain ⟨hrep, hh, -⟩ := rep_plug.mp h
  have hl : avlCnt m (m L.val).left = count (2 ^ 32) L.left := hrep.cnt_left
  have hr : avlCnt m (m L.val).right = count (2 ^ 32) L.right := hrep.cnt_right
  obtain ⟨h₁, h₂, h₃, -, -, h₆, h₇⟩ := hrep
  simp only [avlOffsetTurn, rankTurn, hl, hr]
  split
  · rfl
  · split
    · rw [h₃]
      unfold Loc.down
      simp only [Loc.sub, child]
      cases hc : L.right with
      | nil => rfl
      | node y a b =>
        rw [hc] at h₇
        simp only [rootId, Option.bind_eq_bind, Option.bind_some, h₇.cnt_left]
        rfl
    · split
      · rw [h₂]
        unfold Loc.down
        simp only [Loc.sub, child]
        cases hc : L.left with
        | nil => rfl
        | node y a b =>
          rw [hc] at h₆
          simp only [rootId, Option.bind_eq_bind, Option.bind_some, h₆.cnt_right]
          rfl
      · rw [h₁]
        cases hc : L.ctx with
        | nil => rfl
        | cons f c =>
          rw [hc] at hh
          obtain ⟨-, hlink, hother, -⟩ := hh
          have hxs : L.val ∉ f.sibling.inorder := by
            intro hx
            rw [Loc.tree, hc, (perm_inorder_plug _ _).nodup_iff, List.nodup_append] at hn
            exact hn.2.2 L.val (by simp [Loc.sub]) L.val (by simp [hx]) rfl
          have hval : (f.loc L.sub c).val = f.val := by
            unfold Frame.loc
            split <;> rfl
          simp only [topOf, Option.map_some, Turn.map, hval]
          cases hs : f.side with
          | left =>
            rw [hs] at hother
            have hne : (m f.val).right ≠ some L.val :=
              fun hr => rootId_ne hxs (hother.symm.trans hr)
            rw [if_neg hne, if_neg (by simp)]
            rfl
          | right =>
            rw [hs] at hlink
            have heq : (m f.val).right = some L.val := hlink
            rw [if_pos heq, if_pos rfl]
            rfl

/-- With any number of turns, `avl_offset` goes where the walk by rank goes. -/
theorem avlOffset_lockstep {L : Loc NodeId} (h : Rep m none L.tree) (hn : L.tree.inorder.Nodup)
    (offset : Int) (fuel : Nat) :
    avlOffset fuel m L.val offset =
      (loop (rankTurn (2 ^ 32) offset) fuel (L, 0)).map (Option.map Loc.val) :=
  loop_lockstep (fun s : Loc NodeId × Int => s.1.tree = L.tree)
    (fun s hs => avlOffsetTurn_eq (hs ▸ h) (hs ▸ hn) offset s.2)
    (fun s s' hs hb => by
      rcases rankTurn_step (w := 2 ^ 32) (by decide) offset s with ⟨s₁, h₁, htree, -⟩ | ⟨b, h₁, -⟩
      · rw [h₁] at hb
        cases hb
        exact htree.trans hs
      · rw [h₁] at hb
        exact absurd hb (by simp))
    fuel (L, 0) rfl

/-- **`avl_offset` is the walk by rank**, and ends, whatever the counters say. -/
theorem avlOffset_spec {L : Loc NodeId} (h : Rep m none L.tree) (hn : L.tree.inorder.Nodup)
    (offset : Int) {fuel : Nat} (hfuel : 2 * L.tree.numNodes + 2 ≤ fuel) :
    avlOffset fuel m L.val offset = some ((rankWalk (2 ^ 32) L offset).map Loc.val) := by
  rw [avlOffset_lockstep h hn, (rankWalk_total (by decide) L offset hfuel).1, Option.map_some]

end ApexDB
