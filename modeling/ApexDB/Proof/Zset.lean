import ApexDB.Proof.Avl
import ApexDB.Proof.Index
import ApexDB.Proof.ZTree

/-!
# The sorted set of the source is the tree of members

`Holds zs ids t`: the set `zs` has the tree `ids` of addresses in its memory, the same addresses
in its hash map, exactly those alive, and reading them gives the tree of members `t`. Every
function of `src/zset.cpp` is then the function of `Spec/ZTree.lean` of the same purpose, with
no fault and no bound on the number of members.

**The tree is in order by the contents, and moves by the addresses.** Both are one tree,
relabelled, and the library's lemmas that relabelling commutes with insertion, removal and the
walk by rank are what carries each call from one to the other.

That no node is alive but those in the tree (`only`) is what makes `zset_clear` complete: it
frees along the tree, and there is nothing else to free.
-/

set_option autoImplicit false

namespace ApexDB

open Lib BinaryTree

def ZSet.at (zs : ZSet) (i : NodeId) : ZNode := (zs.nodes.read i).getD default

/-- The tree part: linked, rooted, and made of live nodes. It says nothing of live nodes outside
of the tree, so it holds in the middle of `zset_update` too. -/
structure ZSet.Tree (zs : ZSet) (ids : BinaryTree NodeId) : Prop where
  rep : Rep zs.tree none ids
  root : zs.root = rootId ids
  nodup : ids.inorder.Nodup
  live : ∀ i ∈ ids.inorder, zs.nodes.read i = some (zs.at i)

/-- **The invariant of a sorted set**: the tree in memory, nothing else alive, the map an index
of the same nodes, and the contents those of a tree that is in order. -/
structure ZSet.Holds (zs : ZSet) (ids : BinaryTree NodeId) (t : ZTree) : Prop extends zs.Tree ids where
  only : ∀ i z, zs.nodes.read i = some z → i ∈ ids.inorder
  index : zs.hmap.Indexes strHash (fun i => (zs.at i).name) ids.inorder
  content : t = ids.map zs.at
  ok : t.Ok

variable {zs : ZSet} {ids : BinaryTree NodeId} {t : ZTree} {name : Bytes} {score : Dbl}

theorem ZSet.holds_empty : ZSet.Holds {} nil nil where
  rep := trivial
  root := rfl
  nodup := List.nodup_nil
  live := fun i hi => by cases hi
  only := fun i z h => by cases h
  index := .empty
  content := rfl
  ok := ZTree.ok_nil

theorem ZSet.at_of_read {i : NodeId} {z : ZNode} (h : zs.nodes.read i = some z) : zs.at i = z := by
  rw [ZSet.at, h]
  rfl

/-- There are never more nodes than allocations, so the fuel is enough. -/
theorem ZSet.Tree.numNodes_le (h : zs.Tree ids) : ids.numNodes ≤ zs.nodes.next := by
  have hsub : ids.inorder ⊆ List.range zs.nodes.next := fun i hi =>
    List.mem_range.mpr (Arena.lt_next (h.live i hi))
  have hle := (List.subperm_of_subset h.nodup hsub).length_le
  rwa [length_inorder, List.length_range] at hle

theorem ZSet.Tree.root_none (h : zs.Tree ids) : zs.root = none ↔ ids = nil := by
  rw [h.root]
  cases ids <;> simp [rootId]

/-! ## 1. Lookup

`zset_lookup` may move a part of the map's migration along, so it returns another set that holds
the same members.
-/

theorem ZSet.Holds.hcmp_iff (h : zs.Holds ids t) (name : Bytes) : ∀ i ∈ ids.inorder,
    strHash (zs.at i).name = strHash name ∧ hcmp zs.nodes name i = true ↔ (zs.at i).name = name := by
  intro i hi
  rw [ApexDB.hcmp_iff (h.live i hi)]
  exact ⟨fun h => h.2, fun h => ⟨by rw [h], h⟩⟩

theorem ZSet.Holds.find_at (h : zs.Holds ids t) {i : NodeId} (hi : i ∈ ids.inorder) :
    t.find (zs.at i).name = some (zs.at i) := by
  rw [h.ok.find_iff, h.content, inorder_map]
  exact ⟨List.mem_map_of_mem hi, rfl⟩

theorem ZSet.Holds.eq_of_name (h : zs.Holds ids t) {i j : NodeId} (hi : i ∈ ids.inorder)
    (hj : j ∈ ids.inorder) (hn : (zs.at i).name = (zs.at j).name) : i = j := by
  have hnames := h.ok.names
  rw [h.content, inorder_map, List.map_map] at hnames
  exact List.inj_on_of_nodup_map hnames hi hj hn

theorem ZSet.Holds.find_none (h : zs.Holds ids t)
    (hmiss : ∀ i ∈ ids.inorder, (zs.at i).name ≠ name) : t.find name = none := by
  rw [ZTree.find_none, h.content, inorder_map]
  intro z hz
  obtain ⟨i, hi, rfl⟩ := List.mem_map.mp hz
  exact hmiss i hi

theorem ZSet.Holds.set_hmap (h : zs.Holds ids t) {hmap : HMap NodeId}
    (hi : hmap.Indexes strHash (fun i => (zs.at i).name) ids.inorder) :
    ZSet.Holds { zs with hmap := hmap } ids t where
  rep := h.rep
  root := h.root
  nodup := h.nodup
  live := h.live
  only := h.only
  index := hi
  content := h.content
  ok := h.ok

/-- **`zset_lookup` finds the member of that name**, by the hash map. The set it returns may
have its migration further along. -/
theorem zsetLookup_spec (h : zs.Holds ids t) (name : Bytes) :
    ∃ hmap r, zsetLookup zs name = some ({ zs with hmap := hmap }, r) ∧
      ZSet.Holds { zs with hmap := hmap } ids t ∧ t.find name = r.map zs.at ∧
      ∀ i, r = some i → i ∈ ids.inorder ∧ (zs.at i).name = name := by
  unfold zsetLookup
  by_cases hroot : zs.root.isNone
  · have hnil := h.toTree.root_none.mp (by simpa using hroot)
    refine ⟨zs.hmap, none, if_pos hroot, h, ?_, by simp⟩
    rw [Option.map_none]
    exact h.find_none fun i hi => by rw [hnil] at hi; cases hi
  · rw [if_neg hroot]
    obtain ⟨hmap, hi, ⟨i, hmem, hname, hrun⟩ | ⟨hrun, hmiss⟩⟩ := h.index.lookup (h.hcmp_iff name)
    · refine ⟨hmap, some i, by simp [hrun], h.set_hmap hi, ?_, fun j hj => ?_⟩
      · rw [Option.map_some, ← h.find_at hmem, hname]
      · cases hj
        exact ⟨hmem, hname⟩
    · exact ⟨hmap, none, by simp [hrun], h.set_hmap hi, h.find_none hmiss, by simp⟩

/-! ## 2. Insertion into the tree

The descent compares the new node with the nodes it passes and remembers the link it followed
last. The hole that `descend` arrives at is that link.
-/

def slotOf : List (Frame NodeId) → Option (NodeId × Side)
  | [] => none
  | f :: _ => some (f.val, f.side)

theorem ZSet.Tree.derefFrom_eq (h : zs.Tree ids) {u : BinaryTree NodeId} {c : List (Frame NodeId)}
    (hu : u.plug c = ids) : derefFrom zs (slotOf c) = rootId u := by
  subst hu
  cases c with
  | nil => exact h.root
  | cons f c => exact (rep_plug.mp h.rep).2.1.2.1

/-- The descent of `tree_insert` follows `descend`. -/
theorem treeInsert_loop (h : zs.Tree ids) (z : ZNode) : ∀ (u : BinaryTree NodeId)
    (c : List (Frame NodeId)) (fuel : Nat), u.plug c = ids → u.numNodes < fuel →
    loop (treeInsertTurn zs z) fuel (slotOf c) =
      some (slotOf (descend (fun i => zlessNode z (zs.at i)) u c)) := by
  intro u
  induction u with
  | nil =>
    intro c fuel hu hfuel
    obtain ⟨k, rfl⟩ := Nat.exists_eq_add_of_lt hfuel
    refine loop_done ?_
    simp only [treeInsertTurn, h.derefFrom_eq hu, rootId]
    rfl
  | node x l r ihl ihr =>
    intro c fuel hu hfuel
    obtain ⟨k, rfl⟩ := Nat.exists_eq_add_of_lt hfuel
    rw [numNodes] at hfuel
    have hx : zs.nodes.read x = some (zs.at x) := by
      refine h.live x ?_
      rw [← hu, inorder_plug]
      simp
    simp only [descend]
    by_cases hless : zlessNode z (zs.at x) = true
    · have hturn : treeInsertTurn zs z (slotOf c) = some (.again (slotOf (⟨.left, x, r⟩ :: c))) := by
        unfold treeInsertTurn
        rw [h.derefFrom_eq hu]
        simp only [rootId, hx, Option.bind_eq_bind, Option.bind_some, if_pos hless]
        rfl
      rw [loop_again hturn, if_pos hless]
      exact ihl _ _ hu (by rw [numNodes]; omega)
    · have hturn : treeInsertTurn zs z (slotOf c) = some (.again (slotOf (⟨.right, x, l⟩ :: c))) := by
        unfold treeInsertTurn
        rw [h.derefFrom_eq hu]
        simp only [rootId, hx, Option.bind_eq_bind, Option.bind_some, if_neg hless]
        rfl
      rw [loop_again hturn, if_neg hless]
      exact ihr _ _ hu (by rw [numNodes]; omega)

/-- **`tree_insert`** of a live node that is not in the tree and has been through `avl_init`. -/
theorem treeInsert_spec (h : zs.Tree ids) {x : NodeId} {z : ZNode}
    (hx : zs.nodes.read x = some z) (hfree : x ∉ ids.inorder)
    (hinit : (zs.tree x).left = none ∧ (zs.tree x).right = none) :
    ∃ tree root ids', treeInsert zs x = some { zs with tree := tree, root := root } ∧
      ids' = fixUp (node x nil nil) (descend (fun i => zlessNode z (zs.at i)) ids []) ∧
      ZSet.Tree { zs with tree := tree, root := root } ids' ∧
      ids'.inorder.Perm (x :: ids.inorder) := by
  obtain ⟨c, hc⟩ : ∃ c, descend (fun i => zlessNode z (zs.at i)) ids [] = c := ⟨_, rfl⟩
  have hplug : nil.plug c = ids := by rw [← hc, plug_descend, plug_nil]
  have hperm : (outside c).Perm ids.inorder := by
    have := perm_inorder_plug c nil
    rw [hplug] at this
    exact this.symm
  have hn : (x :: outside c).Nodup := by
    rw [List.nodup_cons, hperm.mem_iff, hperm.nodup_iff]
    exact ⟨hfree, h.nodup⟩
  have hsize := h.numNodes_le
  have hfuel : c.length < zs.fuel := by
    have := length_le_numNodes_plug c nil
    rw [hplug] at this
    unfold ZSet.fuel
    omega
  have hloop : loop (treeInsertTurn zs z) zs.fuel none = some (slotOf c) := by
    rw [← hc]
    exact treeInsert_loop h z ids [] zs.fuel rfl (by unfold ZSet.fuel; omega)
  obtain ⟨tree, root, hfix, hroot, hrep, -⟩ := avlFix_attach (hplug.symm ▸ h.rep) hinit hn hfuel
  have hstores : storeFrom zs.tree (slotOf c) x = attach zs.tree c x := by cases c <;> rfl
  have hperm' : (fixUp (node x nil nil) c).inorder.Perm (x :: ids.inorder) := by
    rw [inorder_fixUp, ← inorder_plug]
    refine (perm_inorder_plug c _).trans ?_
    exact hperm.cons x
  refine ⟨tree, some root, fixUp (node x nil nil) c, ?_, by rw [hc], ⟨hrep, hroot.symm, ?_, ?_⟩, hperm'⟩
  · simp only [treeInsert, hx, hloop, Option.bind_eq_bind, Option.bind_some, hstores, hfix]
    rfl
  · rw [hperm'.nodup_iff, List.nodup_cons]
    exact ⟨hfree, h.nodup⟩
  · intro i hi
    rcases List.mem_cons.mp (hperm'.mem_iff.mp hi) with rfl | hi
    · exact hx.trans (congrArg some (ZSet.at_of_read hx).symm)
    · exact h.live i hi

theorem map_insert {g : NodeId → ZNode} {x : NodeId} {z : ZNode} (hz : g x = z) :
    (fixUp (node x nil nil) (descend (fun i => zlessNode z (g i)) ids [])).map g =
      ZTree.insert (ids.map g) z := by
  have hd := descend_map g (zlessNode z) ids []
  rw [List.map_nil] at hd
  rw [map_fixUp, map_node, map_nil, hz, ← hd]
  rfl

/-! ## 3. Removal from the tree

`zset_update` takes a node out of the tree and puts it back under its new score; between the two
it is alive, in the map and in no tree, which is why the tree part of the invariant is a
structure of its own (`ZSet.Tree`).
-/

theorem ZSet.Holds.exists_loc (h : zs.Holds ids t) {i : NodeId} (hi : i ∈ ids.inorder) :
    ∃ L : Loc NodeId, L.tree = ids ∧ L.val = i ∧
      t.erase (zs.at i).name = (removeAt L.left L.right L.ctx).map zs.at ∧
      ids.inorder.Perm (i :: (removeAt L.left L.right L.ctx).inorder) := by
  have hmap := locate_map zs.at (fun z => z.name == (zs.at i).name) ids []
  rw [List.map_nil, ← h.content] at hmap
  cases hL : locate (fun j => (zs.at j).name == (zs.at i).name) ids [] with
  | none => exact absurd (locate_none.mp hL i hi) (by simp)
  | some L =>
    obtain ⟨htree, hname⟩ := locate_some hL
    rw [plug_nil] at htree
    have hval : L.val = i := h.eq_of_name (htree ▸ L.val_mem) hi (by simpa using hname)
    refine ⟨L, htree, hval, ?_, ?_⟩
    · rw [hL, Option.map_some] at hmap
      unfold ZTree.erase
      rw [hmap, map_removeAt]
      rfl
    · rw [← htree, L.inorder_tree, inorder_removeAt, hval]
      refine List.perm_middle.trans ?_
      simp

/-- **`avl_del` on a member**: the tree without it, and the memory elsewhere as it was. -/
theorem ZSet.Holds.avlDel_spec (h : zs.Holds ids t) {i : NodeId} (hi : i ∈ ids.inorder) :
    ∃ tree ids', avlDel zs.fuel zs.tree i = some (tree, rootId ids') ∧ Rep tree none ids' ∧
      t.erase (zs.at i).name = ids'.map zs.at ∧ ids.inorder.Perm (i :: ids'.inorder) := by
  obtain ⟨L, htree, hval, herase, hperm⟩ := h.exists_loc hi
  have hsize := h.toTree.numNodes_le
  have hfuel : ids.numNodes < zs.fuel := by unfold ZSet.fuel; omega
  have hrep := h.rep
  have hn := h.nodup
  rw [← htree] at hrep hn hfuel
  obtain ⟨tree, hrun, hrep', -⟩ := ApexDB.avlDel_spec (x := L.val) hrep hn hfuel
  rw [hval] at hrun
  exact ⟨tree, _, hrun, hrep', herase, hperm⟩

theorem Rep.avlInit_frame {m : AvlMem} {p : Option NodeId} {x : NodeId} (h : Rep m p ids)
    (hx : x ∉ ids.inorder) : Rep (avlInit m x) p ids :=
  h.frame fun _ hz => AvlMem.set_of_ne _ _ fun hzx => hx (hzx ▸ hz)

theorem avlInit_links (m : AvlMem) (x : NodeId) :
    (avlInit m x x).left = none ∧ (avlInit m x x).right = none := by
  simp [avlInit]

/-- **`zset_update` moves a member to its new score**, unless that is the old one. -/
theorem zsetUpdate_spec (h : zs.Holds ids t) {i : NodeId} (hi : i ∈ ids.inorder) (score : Dbl) :
    ∃ zs' ids', zsetUpdate zs i score = some zs' ∧
      zs'.Holds ids' (t.add (zs.at i).name score) := by
  have hread := h.live i hi
  have hadd := h.ok.add (zs.at i).name score
  unfold ZTree.add at hadd ⊢
  rw [h.find_at hi] at hadd ⊢
  simp only at hadd ⊢
  by_cases hsame : (zs.at i).score.eq score = true
  · rw [if_pos hsame] at hadd ⊢
    exact ⟨zs, ids, by simp [zsetUpdate, hread, hsame], h⟩
  · rw [if_neg hsame] at hadd ⊢
    obtain ⟨tree, ids₁, hdel, hrep, herase, hperm⟩ := h.avlDel_spec hi
    obtain ⟨nodes, hwrite, -, hnodes⟩ := Arena.write_spec hread { zs.at i with score := score }
    have hnd := hperm.nodup_iff.mp h.nodup
    rw [List.nodup_cons] at hnd
    obtain ⟨zs₁, hzs₁⟩ : ∃ zs₁ : ZSet, zs₁ = { zs with
        root := rootId ids₁, tree := avlInit tree i, nodes := nodes } := ⟨_, rfl⟩
    have hat : ∀ j, j ≠ i → zs₁.at j = zs.at j := by
      intro j hj
      rw [ZSet.at, ZSet.at, hzs₁, hnodes, if_neg hj]
    have hati : zs₁.nodes.read i = some ⟨score, (zs.at i).name⟩ := by rw [hzs₁, hnodes, if_pos rfl]
    have hne : ∀ j ∈ ids₁.inorder, j ≠ i := fun j hj hji => hnd.1 (hji ▸ hj)
    have htree₁ : zs₁.Tree ids₁ := by
      subst hzs₁
      refine ⟨hrep.avlInit_frame hnd.1, rfl, hnd.2, fun j hj => ?_⟩
      rw [hat j (hne j hj), hnodes, if_neg (hne j hj)]
      exact h.live j (hperm.mem_iff.mpr (List.mem_cons_of_mem _ hj))
    obtain ⟨tree₂, root₂, ids₂, hins, hids₂, htree₂, hperm₂⟩ :=
      treeInsert_spec htree₁ hati hnd.1 (by rw [hzs₁]; exact avlInit_links tree i)
    refine ⟨_, ids₂, ?_, { htree₂ with only := ?_, index := ?_, content := ?_, ok := hadd.1 }⟩
    · simp only [zsetUpdate, hread, hsame, hdel, hwrite, Option.bind_eq_bind, Option.bind_some,
        ← hzs₁, hins, Bool.false_eq_true, if_false]
    · intro j z hj
      rw [hperm₂.mem_iff, ← hperm.mem_iff]
      by_cases hji : j = i
      · exact hji ▸ hi
      · simp only [hzs₁, hnodes, if_neg hji] at hj
        exact h.only j z hj
    · have hkeys : ∀ j ∈ ids.inorder, (zs₁.at j).name = (zs.at j).name := by
        intro j _
        by_cases hji : j = i
        · rw [hji, ZSet.at_of_read hati]
        · rw [hat j hji]
      have hmap : zs₁.hmap = zs.hmap := by rw [hzs₁]
      have := (h.index.congr hkeys).of_perm (hperm.trans hperm₂.symm)
      rwa [← hmap] at this
    · show _ = ids₂.map zs₁.at
      rw [hids₂, map_insert (ZSet.at_of_read hati), herase]
      congr 1
      exact map_congr fun j hj => (hat j (hne j hj)).symm

theorem ZSet.Holds.insert_new (h : zs.Holds ids t) (hfind : t.find name = none) (score : Dbl) :
    ∃ hmap zs' ids',
      hmInsert zs.hmap { hcode := strHash name, owner := zs.nodes.next } = some hmap ∧
      treeInsert { (znodeNew zs name score).1 with hmap := hmap } zs.nodes.next = some zs' ∧
      zs'.Holds ids' (t.insert ⟨score, name⟩) := by
  have hfree : zs.nodes.next ∉ ids.inorder := fun hmem => by
    have hread := h.live _ hmem
    rw [Arena.read_next] at hread
    cases hread
  have hread : ∀ j, (znodeNew zs name score).1.nodes.read j =
      if j = zs.nodes.next then some ⟨score, name⟩ else zs.nodes.read j :=
    fun j => Arena.read_alloc _ _ j
  have hold : ∀ j ∈ ids.inorder, (znodeNew zs name score).1.nodes.read j = zs.nodes.read j := by
    intro j hj
    have hjx : j ≠ zs.nodes.next := fun hjx => hfree (hjx ▸ hj)
    rw [hread, if_neg hjx]
  have hat : ∀ j ∈ ids.inorder, (znodeNew zs name score).1.at j = zs.at j := by
    intro j hj
    rw [ZSet.at, ZSet.at, hold j hj]
  have hnew : (znodeNew zs name score).1.nodes.read zs.nodes.next = some ⟨score, name⟩ := by
    rw [hread, if_pos rfl]
  have hatx := ZSet.at_of_read hnew
  obtain ⟨hmap, hins, hindex⟩ := (h.index.congr fun j hj => congrArg ZNode.name (hat j hj)).insert
    zs.nodes.next
  rw [hatx] at hins
  have htree : ZSet.Tree { (znodeNew zs name score).1 with hmap := hmap } ids := by
    refine ⟨h.rep.avlInit_frame hfree, h.root, h.nodup, fun j hj => ?_⟩
    show _ = some ((znodeNew zs name score).1.at j)
    rw [hat j hj, ← h.live j hj]
    exact hold j hj
  obtain ⟨tree, root, ids', hrun, hids', htree', hperm⟩ :=
    treeInsert_spec htree hnew hfree (avlInit_links zs.tree _)
  refine ⟨hmap, _, ids', hins, hrun, { htree' with
    only := fun j z hj => ?_
    index := hindex.of_perm hperm.symm
    content := ?_
    ok := h.ok.insert (z := ⟨score, name⟩) hfind }⟩
  · rw [hperm.mem_iff, List.mem_cons]
    by_cases hjx : j = zs.nodes.next
    · exact .inl hjx
    · refine .inr (h.only j z ?_)
      rw [← hj]
      exact ((hread j).trans (if_neg hjx)).symm
  · rw [hids', h.content, ← map_congr hat]
    exact (map_insert hatx).symm

/-- **`zset_insert` is `add`**, and says whether the name is new. -/
theorem zsetInsert_spec (h : zs.Holds ids t) (name : Bytes) (score : Dbl) :
    ∃ zs' ids', zsetInsert zs name score = some (zs', (t.find name).isNone) ∧
      zs'.Holds ids' (t.add name score) := by
  obtain ⟨hmap, r, hlook, h', hfind, hr⟩ := zsetLookup_spec h name
  cases r with
  | some i =>
    obtain ⟨hi, hname⟩ := hr i rfl
    obtain ⟨zs', ids', hupd, hholds⟩ := zsetUpdate_spec h' hi score
    have hat : ZSet.at { zs with hmap := hmap } i = zs.at i := rfl
    rw [hat, hname] at hholds
    exact ⟨zs', ids', by simp [zsetInsert, hlook, hupd, hfind], hholds⟩
  | none =>
    rw [Option.map_none] at hfind
    obtain ⟨hmap₁, zs', ids', hins, hrun, hholds⟩ := h'.insert_new hfind score
    refine ⟨zs', ids', ?_, ?_⟩
    · simp only [zsetInsert, hlook, Option.bind_eq_bind, Option.bind_some]
      rw [show (znodeNew { zs with hmap := hmap } name score).2 = zs.nodes.next from rfl,
        show (znodeNew { zs with hmap := hmap } name score).1.hmap = hmap from rfl, hins,
        Option.bind_some, hrun, hfind]
      rfl
    · rw [ZTree.add, hfind]
      exact hholds

/-- **`zset_delete` is `erase`**, and its assertion holds. -/
theorem zsetDelete_spec (h : zs.Holds ids t) {i : NodeId} (hi : i ∈ ids.inorder) :
    ∃ zs' ids', zsetDelete zs i = some zs' ∧ zs'.Holds ids' (t.erase (zs.at i).name) := by
  have hread := h.live i hi
  obtain ⟨tree, ids₁, hdel, hrep, herase, hperm⟩ := h.avlDel_spec hi
  obtain ⟨nodes, hfree, -, hnodes⟩ := Arena.free_spec hread
  have hnd := hperm.nodup_iff.mp h.nodup
  rw [List.nodup_cons] at hnd
  have hne : ∀ j ∈ ids₁.inorder, j ≠ i := fun j hj hji => hnd.1 (hji ▸ hj)
  rcases h.index.delete (h.hcmp_iff (zs.at i).name) with
    ⟨hmap, j, ids', hrun, hname, hperm', hindex⟩ | ⟨hmap, -, -, hmiss⟩
  · -- the name is unique, so the node found is the node asked for
    have hji : j = i := h.eq_of_name (hperm'.mem_iff.mpr List.mem_cons_self) hi hname
    subst hji
    obtain ⟨zs₁, hzs₁⟩ : ∃ zs₁ : ZSet, zs₁ =
        { root := rootId ids₁, hmap := hmap, nodes := nodes, tree := tree } := ⟨_, rfl⟩
    have hat : ∀ k ∈ ids₁.inorder, zs₁.at k = zs.at k := by
      intro k hk
      rw [ZSet.at, ZSet.at, hzs₁, hnodes, if_neg (hne k hk)]
    refine ⟨zs₁, ids₁, ?_, ?_⟩
    · simp [zsetDelete, hread, hrun, hdel, hfree, hzs₁]
    · refine ⟨⟨?_, ?_, hnd.2, fun k hk => ?_⟩, fun k z hk => ?_, ?_, ?_, h.ok.erase _⟩
      · rw [hzs₁]
        exact hrep
      · rw [hzs₁]
      · rw [hat k hk, ← h.live k (hperm.mem_iff.mpr (List.mem_cons_of_mem _ hk)), hzs₁, hnodes,
          if_neg (hne k hk)]
      · rw [hzs₁, hnodes] at hk
        split at hk
        · exact absurd hk (by simp)
        · rename_i hkj
          exact ((List.mem_cons.mp (hperm.mem_iff.mp (h.only k z hk))).resolve_left hkj)
      · have hids : ids'.Perm ids₁.inorder := (hperm'.symm.trans hperm).cons_inv
        have hindex' := (hindex.of_perm hids).congr fun k hk => congrArg ZNode.name (hat k hk)
        rw [hzs₁] at hindex' ⊢
        exact hindex'
      · rw [herase]
        exact map_congr fun k hk => (hat k hk).symm
  · exact absurd rfl (hmiss i hi)

/-! ## 4. Range queries

Both functions are loops over links without a store, so they are compared with those of the
library turn by turn.
-/

theorem zsetSeekge_loop (h : zs.Tree ids) (score : Dbl) (name : Bytes) :
    ∀ (u : BinaryTree NodeId) (c : List (Frame NodeId)) (best : Option (Loc NodeId)) (fuel : Nat),
    u.plug c = ids → u.numNodes < fuel →
    loop (zsetSeekgeTurn zs score name) fuel (rootId u, best.map Loc.val) =
      some ((seek (fun i => zless (zs.at i) score name) u c best).map Loc.val) := by
  intro u
  induction u with
  | nil =>
    intro c best fuel _ hfuel
    obtain ⟨k, rfl⟩ := Nat.exists_eq_add_of_lt hfuel
    exact loop_done rfl
  | node x l r ihl ihr =>
    intro c best fuel hu hfuel
    obtain ⟨k, rfl⟩ := Nat.exists_eq_add_of_lt hfuel
    have hx : zs.nodes.read x = some (zs.at x) := by
      refine h.live x ?_
      rw [← hu, inorder_plug]
      simp
    have hrep := h.rep
    rw [← hu] at hrep
    obtain ⟨⟨-, hl, hr, -⟩, -⟩ := rep_plug.mp hrep
    simp only [seek]
    by_cases hless : zless (zs.at x) score name = true
    · have hturn : zsetSeekgeTurn zs score name (rootId (node x l r), best.map Loc.val) =
          some (.again (rootId r, best.map Loc.val)) := by
        simp [zsetSeekgeTurn, rootId, hx, hless, hr]
      rw [loop_again hturn, if_pos hless]
      exact ihr (⟨.right, x, l⟩ :: c) best _ hu (by rw [numNodes]; omega)
    · have hturn : zsetSeekgeTurn zs score name (rootId (node x l r), best.map Loc.val) =
          some (.again (rootId l, (some (Loc.mk x l r c)).map Loc.val)) := by
        simp [zsetSeekgeTurn, rootId, hx, hless, hl]
      rw [loop_again hturn, if_neg hless]
      exact ihl (⟨.left, x, r⟩ :: c) (some ⟨x, l, r, c⟩) _ hu (by rw [numNodes]; omega)

/-- **`zset_seekge` finds the place `seekge` finds**: the first member that is not below the
pair. -/
theorem zsetSeekge_spec (h : zs.Holds ids t) (score : Dbl) (name : Bytes) :
    ∃ r : Option (Loc NodeId), zsetSeekge zs score name = some (r.map Loc.val) ∧
      t.seekge score name = r.map (Loc.map zs.at) ∧ ∀ L, r = some L → L.tree = ids := by
  have hsize := h.toTree.numNodes_le
  refine ⟨seek (fun i => zless (zs.at i) score name) ids [] none, ?_, ?_, fun L hL => ?_⟩
  · unfold zsetSeekge
    rw [h.root]
    exact zsetSeekge_loop h.toTree score name ids [] none zs.fuel rfl (by unfold ZSet.fuel; omega)
  · rw [h.content]
    exact seek_map zs.at _ ids [] none
  · exact seek_tree (c := []) (fun M hM => by cases hM) hL

/-- **`znode_offset` is the walk by rank**, on what the counters of 32 bits hold. -/
theorem znodeOffset_spec (h : zs.Holds ids t) {L : Loc NodeId} (hL : L.tree = ids) (offset : Int) :
    znodeOffset zs (some L.val) offset = some ((rankWalk (2 ^ 32) L offset).map Loc.val) ∧
      rankWalk (2 ^ 32) (L.map zs.at) offset = (rankWalk (2 ^ 32) L offset).map (Loc.map zs.at) ∧
      ∀ M, rankWalk (2 ^ 32) L offset = some M → M.tree = ids := by
  have hsize := h.toTree.numNodes_le
  have hfuel : 2 * L.tree.numNodes + 2 ≤ zs.fuel := by
    rw [hL]
    unfold ZSet.fuel
    omega
  refine ⟨avlOffset_spec (hL ▸ h.rep) (hL ▸ h.nodup) offset hfuel, rankWalk_map zs.at L offset,
    fun M hM => ?_⟩
  rw [(rankWalk_total (by decide) L offset (Nat.le_refl _)).2 M hM, hL]

/-! ## 5. Disposal

The recursion of `tree_dispose` reads the links of a node before it frees it, and its children
first; so no link is read through a node that is dead.
-/

/-- `tree_dispose` frees every node of the tree once, and no other. -/
theorem treeDispose_spec {m : AvlMem} : ∀ {u : BinaryTree NodeId} {p : Option NodeId}
    {nodes : Arena ZNode} {fuel : Nat}, Rep m p u → u.inorder.Nodup →
    (∀ i ∈ u.inorder, ∃ z, nodes.read i = some z) → u.numNodes ≤ fuel →
    ∃ nodes', treeDispose m fuel nodes (rootId u) = some nodes' ∧
      ∀ i, nodes'.read i = if i ∈ u.inorder then none else nodes.read i := by
  intro u
  induction u with
  | nil => intro p nodes fuel _ _ _ _; exact ⟨nodes, by cases fuel <;> rfl, fun i => by simp⟩
  | node x l r ihl ihr =>
    intro p nodes fuel hrep hn hlive hfuel
    obtain ⟨-, hl, hr, -, -, hrl, hrr⟩ := hrep
    obtain ⟨hxl, hxr, hnl, hnr, hlr⟩ := nodup_inorder_join (s := .left).mp hn
    rw [numNodes] at hfuel
    obtain ⟨k, rfl⟩ : ∃ k, fuel = k + 1 := ⟨fuel - 1, by omega⟩
    obtain ⟨nodes₁, hrun₁, h₁⟩ := ihl hrl hnl (fun i hi => hlive i (by simp [hi]))
      (show l.numNodes ≤ k by omega)
    have hlive₁ : ∀ i ∈ r.inorder, ∃ z, nodes₁.read i = some z := by
      intro i hi
      rw [h₁, if_neg fun hil => hlr i hil hi]
      exact hlive i (by simp [hi])
    obtain ⟨nodes₂, hrun₂, h₂⟩ := ihr hrr hnr hlive₁ (show r.numNodes ≤ k by omega)
    obtain ⟨z, hz⟩ := hlive x (by simp)
    have hx : nodes₂.read x = some z := by rw [h₂, if_neg hxr, h₁, if_neg hxl, hz]
    obtain ⟨nodes₃, hrun₃, -, h₃⟩ := Arena.free_spec hx
    refine ⟨nodes₃, ?_, fun i => ?_⟩
    · show treeDispose m (k + 1) nodes (some x) = some nodes₃
      simp only [treeDispose, hl, hr, hrun₁, hrun₂, Option.bind_eq_bind, Option.bind_some]
      exact hrun₃
    · simp only [h₃, h₂, h₁, inorder_node, List.mem_append, List.mem_cons]
      by_cases hix : i = x
      · simp [hix]
      · by_cases hil : i ∈ l.inorder <;> by_cases hir : i ∈ r.inorder <;> simp [hix, hil, hir]

/-- **`zset_clear` frees every member and leaves the empty set.** -/
theorem zsetClear_spec (h : zs.Holds ids t) :
    ∃ zs', zsetClear zs = some zs' ∧ zs'.Holds nil nil := by
  have hsize := h.toTree.numNodes_le
  obtain ⟨nodes, hrun, hnodes⟩ := treeDispose_spec h.rep h.nodup
    (fun i hi => ⟨_, h.live i hi⟩) (show ids.numNodes ≤ zs.fuel by unfold ZSet.fuel; omega)
  refine ⟨_, by simp [zsetClear, h.root, hrun]; rfl, ?_⟩
  refine ⟨⟨trivial, rfl, List.nodup_nil, fun i hi => by cases hi⟩, fun i z hi => ?_, .empty, rfl,
    ZTree.ok_nil⟩
  rw [show ZSet.nodes _ = nodes from rfl, hnodes] at hi
  split at hi
  · exact absurd hi (by simp)
  · rename_i hmem
    exact absurd (h.only i z hi) hmem

end ApexDB
