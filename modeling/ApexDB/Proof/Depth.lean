import Mathlib.Data.Nat.Log
import Mathlib.Tactic.NormNum.NatFib
import ApexDB.Proof.Disposal

/-!
# Every walk over a sorted set or the heap of timers is short

The loops of the model carry more turns than they can need, so that a run that ends says nothing
yet about how long it took. Here the same loops get few turns and end all the same, with the
same result (`EndsWithin`). **In a set of `n` members that is any number of turns `h + 1` with
`fib (h + 2) ≤ n + 1`**: the height that the source keeps in the root is that `h`, because the
balance that `avl_fix` restores forces the number of nodes to grow like the Fibonacci numbers.

`tree_dispose` is the one recursion of the source that follows the data; its depth is the
height, which no number of members that a `size_t` can hold brings past 91.
-/

set_option autoImplicit false

namespace ApexDB

open Lib BinaryTree

/-- With this number of turns there is a result, and the fuel of the model gives the same one.
-/
def EndsWithin {β : Type} (f : Nat → Option β) (turns fuel : Nat) : Prop :=
  ∃ b, f turns = some b ∧ f fuel = some b

theorem EndsWithin.of_loop {σ β : Type} {body : σ → Option (Turn σ β)} {s : σ} {turns fuel : Nat}
    (h : ∃ b, loop body turns s = some b ∧ True) (hle : turns ≤ fuel) :
    EndsWithin (fun n => loop body n s) turns fuel := by
  obtain ⟨b, hb, -⟩ := h
  exact ⟨b, hb, loop_mono hb hle⟩

/-! ## 1. The tree of a set

The height is at the same time the number of turns of a descent, of a climb, and the depth of
the recursion. `avl_del` makes both a descent, to the successor, and a climb. So does
`avl_offset`, in the other order: it climbs until its counters place the target in the subtree
below, and then descends.
-/

/-- **Every walk over this set takes about as many turns as its tree is high.** The new node of
an insertion is one that is not alive yet. -/
structure ZSet.Shallow (zs : ZSet) (h : Nat) : Prop where
  height : avlHeight zs.tree zs.root = h
  members : Nat.fib (h + 2) ≤ hmSize zs.hmap + 1
  insert : ∀ z, EndsWithin (fun n => loop (treeInsertTurn zs z) n none) (h + 1) zs.fuel
  fix : ∀ z slot x, loop (treeInsertTurn zs z) zs.fuel none = some slot → zs.nodes.read x = none →
    EndsWithin (fun n => avlFix n (storeFrom (avlInit zs.tree x) slot x) x) (h + 1) zs.fuel
  del : ∀ x z, zs.nodes.read x = some z → EndsWithin (fun n => avlDel n zs.tree x) (h + 1) zs.fuel
  seek : ∀ score name,
    EndsWithin (fun n => loop (zsetSeekgeTurn zs score name) n (zs.root, none)) (h + 1) zs.fuel
  offset : ∀ x z k, zs.nodes.read x = some z →
    EndsWithin (fun n => avlOffset n zs.tree x k) (2 * h + 1) zs.fuel
  dispose : EndsWithin (fun n => treeDispose zs.tree n zs.nodes zs.root) h zs.fuel

section Walks

variable {zs : ZSet} {ids : BinaryTree NodeId} {t : ZTree}

theorem ZSet.Tree.sub (h : zs.Tree ids) {u : BinaryTree NodeId} {c : List (Frame NodeId)}
    (hu : u.plug c = ids) : Rep zs.tree (topOf c) u :=
  (rep_plug.mp (hu.symm ▸ h.rep)).1

theorem ZSet.Tree.live_root (h : zs.Tree ids) {x : NodeId} {l r : BinaryTree NodeId}
    {c : List (Frame NodeId)} (hu : (node x l r).plug c = ids) :
    zs.nodes.read x = some (zs.at x) := by
  refine h.live x ?_
  rw [← hu, inorder_plug]
  simp

theorem ZSet.Tree.height_lt_fuel (h : zs.Tree ids) : 2 * ids.height + 1 < zs.fuel := by
  have hsize := h.numNodes_le
  have hle := height_le_numNodes ids
  unfold ZSet.fuel
  omega

/-- The descent of `tree_insert` goes one level down with every turn. -/
theorem ZSet.Tree.insert_ends (h : zs.Tree ids) (z : ZNode) :
    EndsWithin (fun n => loop (treeInsertTurn zs z) n none) (ids.height + 1) zs.fuel := by
  refine .of_loop (loop_total (treeInsertTurn zs z)
    (fun slot => ∃ u c, u.plug c = ids ∧ slot = slotOf c)
    (fun slot => avlHeight zs.tree (derefFrom zs slot)) (fun _ => True) ?_ (ids.height + 1) none
    ⟨ids, [], rfl, rfl⟩ ?_) ?_
  · rintro _ ⟨u, c, hu, rfl⟩
    have hderef := h.derefFrom_eq hu
    cases u with
    | nil =>
      refine .inr ⟨slotOf c, ?_, trivial⟩
      simp only [treeInsertTurn, hderef, rootId]
    | node x l r =>
      have hx := h.live_root hu
      have hlow : ∀ (s : Side) (v : BinaryTree NodeId), v.height < (node x l r).height →
          v.plug (⟨s, x, (node x l r).child s.flip⟩ :: c) = ids →
          avlHeight zs.tree (derefFrom zs (slotOf (⟨s, x, (node x l r).child s.flip⟩ :: c))) <
            avlHeight zs.tree (derefFrom zs (slotOf c)) := by
        intro s v hlt hv
        rw [h.derefFrom_eq hv, hderef, (h.sub hv).avlHeight_eq, (h.sub hu).avlHeight_eq]
        exact hlt
      have hturn : treeInsertTurn zs z (slotOf c) =
          some (.again (some (x, if zlessNode z (zs.at x) then .left else .right))) := by
        unfold treeInsertTurn
        rw [hderef]
        simp only [rootId, hx, Option.bind_eq_bind, Option.bind_some]
        rfl
      refine .inl ⟨_, hturn, ?_⟩
      by_cases hless : zlessNode z (zs.at x) = true
      · rw [if_pos hless]
        exact ⟨⟨l, ⟨.left, x, r⟩ :: c, hu, rfl⟩,
          hlow .left l (Nat.lt_succ_of_le (Nat.le_max_left _ _)) hu⟩
      · rw [if_neg hless]
        exact ⟨⟨r, ⟨.right, x, l⟩ :: c, hu, rfl⟩,
          hlow .right r (Nat.lt_succ_of_le (Nat.le_max_right _ _)) hu⟩
  · rw [derefFrom, h.root, h.rep.avlHeight_eq]
    exact Nat.lt_succ_self _
  · exact Nat.le_trans (by omega) (Nat.le_of_lt h.height_lt_fuel)

theorem ZSet.Tree.seek_ends (h : zs.Tree ids) (score : Dbl) (name : Bytes) :
    EndsWithin (fun n => loop (zsetSeekgeTurn zs score name) n (zs.root, none)) (ids.height + 1)
      zs.fuel := by
  refine .of_loop (loop_total (zsetSeekgeTurn zs score name)
    (fun s => ∃ u c, u.plug c = ids ∧ s.1 = rootId u) (fun s => avlHeight zs.tree s.1) (fun _ => True)
    ?_ (ids.height + 1) (zs.root, none) ⟨ids, [], rfl, h.root⟩ ?_) ?_
  · rintro ⟨p, best⟩ ⟨u, c, hu, hp⟩
    simp only at hp
    subst hp
    cases u with
    | nil => exact .inr ⟨best, rfl, trivial⟩
    | node x l r =>
      have hx := h.live_root hu
      obtain ⟨-, hl, hr, -, -, hrl, hrr⟩ := h.sub hu
      have hheight := (h.sub hu).avlHeight_eq
      by_cases hless : zless (zs.at x) score name = true
      · refine .inl ⟨(rootId r, best), ?_, ⟨r, ⟨.right, x, l⟩ :: c, hu, rfl⟩, ?_⟩
        · simp [zsetSeekgeTurn, rootId, hx, hless, hr]
        · rw [hheight, hrr.avlHeight_eq]
          exact Nat.lt_succ_of_le (Nat.le_max_right _ _)
      · refine .inl ⟨(rootId l, some x), ?_, ⟨l, ⟨.left, x, r⟩ :: c, hu, rfl⟩, ?_⟩
        · simp [zsetSeekgeTurn, rootId, hx, hless, hl]
        · rw [hheight, hrl.avlHeight_eq]
          exact Nat.lt_succ_of_le (Nat.le_max_left _ _)
  · rw [h.root, h.rep.avlHeight_eq]
    exact Nat.lt_succ_self _
  · exact Nat.le_trans (by omega) (Nat.le_of_lt h.height_lt_fuel)

theorem ZSet.Tree.insert_slot (h : zs.Tree ids) {z : ZNode} {slot : Option (NodeId × Side)}
    (hslot : loop (treeInsertTurn zs z) zs.fuel none = some slot) :
    ∃ c, slot = slotOf c ∧ nil.plug c = ids := by
  have hloop := treeInsert_loop h z ids [] zs.fuel rfl (by
    have := h.numNodes_le
    unfold ZSet.fuel
    omega)
  refine ⟨_, Option.some.inj (hslot.symm.trans hloop), ?_⟩
  rw [plug_descend, plug_nil]

/-- `avl_fix` goes up from the new leaf. -/
theorem ZSet.Tree.fix_ends (h : zs.Tree ids) {z : ZNode} {slot : Option (NodeId × Side)} {x : NodeId}
    (hslot : loop (treeInsertTurn zs z) zs.fuel none = some slot) (hx : zs.nodes.read x = none) :
    EndsWithin (fun n => avlFix n (storeFrom (avlInit zs.tree x) slot x) x) (ids.height + 1) zs.fuel := by
  obtain ⟨c, rfl, hplug⟩ := h.insert_slot hslot
  have hout : x ∉ ids.inorder := fun hmem => by
    have := h.live x hmem
    rw [hx] at this
    exact absurd this (by simp)
  have hperm : (outside c).Perm ids.inorder := by
    have := perm_inorder_plug c nil
    rw [hplug] at this
    exact this.symm
  have hn : (x :: outside c).Nodup := by
    rw [List.nodup_cons, hperm.mem_iff, hperm.nodup_iff]
    exact ⟨hout, h.nodup⟩
  have hdepth : c.length < ids.height + 1 := by
    have := length_le_height_plug c nil
    rw [hplug] at this
    exact Nat.lt_succ_of_le this
  have hstores : storeFrom (avlInit zs.tree x) (slotOf c) x = attach (avlInit zs.tree x) c x := by
    cases c <;> rfl
  obtain ⟨tree, root, hfix, -⟩ := avlFix_attach (hplug.symm ▸ h.rep.avlInit_frame hout)
    (avlInit_links zs.tree x) hn hdepth
  rw [hstores]
  exact ⟨(tree, root), hfix, loop_mono hfix (Nat.le_trans (by omega) (Nat.le_of_lt h.height_lt_fuel))⟩

theorem avlDelEasy_mono {m : AvlMem} {x : NodeId} {r : AvlMem × Option NodeId} {turns fuel : Nat}
    (h : avlDelEasy turns m x = some r) (hle : turns ≤ fuel) : avlDelEasy fuel m x = some r := by
  by_cases hboth : (m x).left.isSome ∧ (m x).right.isSome
  · rw [avlDelEasy, if_pos hboth] at h
    exact absurd h (by simp)
  · simp only [avlDelEasy, if_neg hboth] at h ⊢
    cases hp : (m x).parent with
    | none =>
      simp only [hp] at h ⊢
      exact h
    | some p =>
      simp only [hp] at h ⊢
      obtain ⟨q, hfix, hq⟩ := Option.bind_eq_some_iff.mp h
      rw [avlFix] at hfix ⊢
      rw [loop_mono hfix hle]
      exact hq

theorem avlDel_mono {m : AvlMem} {x : NodeId} {r : AvlMem × Option NodeId} {turns fuel : Nat}
    (h : avlDel turns m x = some r) (hle : turns ≤ fuel) : avlDel fuel m x = some r := by
  unfold avlDel at h ⊢
  split at h
  · obtain ⟨victim, hvictim, h⟩ := Option.bind_eq_some_iff.mp h
    obtain ⟨q, heasy, hq⟩ := Option.bind_eq_some_iff.mp h
    simp only [loop_mono hvictim hle, avlDelEasy_mono heasy hle, Option.bind_eq_bind, Option.bind_some]
    exact hq
  · exact avlDelEasy_mono h hle

/-- `avl_del` goes down to the successor and up from its parent. -/
theorem ZSet.Holds.del_ends (h : zs.Holds ids t) {x : NodeId} {z : ZNode}
    (hx : zs.nodes.read x = some z) :
    EndsWithin (fun n => avlDel n zs.tree x) (ids.height + 1) zs.fuel := by
  obtain ⟨L, rfl, rfl, -⟩ := h.exists_loc (h.only x z hx)
  have hfuel := h.toTree.height_lt_fuel
  obtain ⟨m, hm, -⟩ := avlDel_height_spec h.rep h.nodup (Nat.lt_succ_self L.tree.height)
  exact ⟨_, hm, avlDel_mono hm (by omega)⟩

/-- `avl_offset` climbs first and descends afterwards, and never climbs again. -/
theorem ZSet.Holds.offset_ends (h : zs.Holds ids t) {x : NodeId} {z : ZNode} (k : Int)
    (hx : zs.nodes.read x = some z) :
    EndsWithin (fun n => avlOffset n zs.tree x k) (2 * ids.height + 1) zs.fuel := by
  obtain ⟨L, rfl, rfl, -⟩ := h.exists_loc (h.only x z hx)
  have hshort : avlOffset (2 * L.tree.height + 1) zs.tree L.val k =
      some ((rankWalk (2 ^ 32) L k).map Loc.val) := by
    rw [avlOffset_lockstep h.rep h.nodup, rankWalk_short (by decide), Option.map_some]
  exact ⟨_, hshort, loop_mono hshort (Nat.le_of_lt h.toTree.height_lt_fuel)⟩

/-- `tree_dispose` recurses as deep as the tree is high, and no deeper. -/
theorem treeDispose_height {m : AvlMem} : ∀ {u : BinaryTree NodeId} {p : Option NodeId}
    {nodes : Arena ZNode} {fuel : Nat}, Rep m p u → u.height ≤ fuel →
    treeDispose m fuel nodes (rootId u) = treeDispose m u.height nodes (rootId u) := by
  intro u
  induction u with
  | nil => intro p nodes fuel _ _; cases fuel <;> rfl
  | node x l r ihl ihr =>
    intro p nodes fuel hrep hfuel
    obtain ⟨-, hl, hr, -, -, hrl, hrr⟩ := hrep
    rw [height] at hfuel
    obtain ⟨k, rfl⟩ := Nat.exists_eq_add_of_le' hfuel
    have hle : ∀ {v : BinaryTree NodeId}, v.height ≤ max l.height r.height →
        v.height ≤ k + max l.height r.height := fun hv => by omega
    have hlmax := Nat.le_max_left l.height r.height
    have hrmax := Nat.le_max_right l.height r.height
    rw [height, ← Nat.add_assoc, rootId, treeDispose, treeDispose, hl, hr]
    rw [ihl hrl (hle hlmax), ihl hrl hlmax]
    refine Option.bind_congr fun nodes' _ => ?_
    rw [ihr hrr (hle hrmax), ihr hrr hrmax]

/-- **A set that is in order is shallow**: every walk in it ends within the height of its tree,
up to a factor of two and a constant. -/
theorem ZSet.Holds.shallow (h : zs.Holds ids t) : zs.Shallow ids.height where
  height := by rw [h.root, h.rep.avlHeight_eq]
  members := by
    have hbal : ids.Balanced := by
      rw [← balanced_map zs.at, ← h.content]
      exact h.ok.balanced
    rw [h.index.size, length_inorder]
    exact hbal.fib_height_le
  insert := h.toTree.insert_ends
  fix := fun _ _ _ => h.toTree.fix_ends
  del := fun _ _ => h.del_ends
  seek := h.toTree.seek_ends
  offset := fun _ _ k => h.offset_ends k
  dispose := by
    have hfuel := h.toTree.height_lt_fuel
    have hsize := h.toTree.numNodes_le
    obtain ⟨nodes, hrun, -⟩ := treeDispose_spec h.rep h.nodup (fun i hi => ⟨_, h.live i hi⟩)
      (show ids.numNodes ≤ zs.fuel by unfold ZSet.fuel; omega)
    refine ⟨nodes, ?_, ?_⟩
    · simp only [h.root]
      rw [← treeDispose_height h.rep (show ids.height ≤ zs.fuel by omega)]
      exact hrun
    · simp only [h.root]
      exact hrun

end Walks

/-- A height that a counter of 64 bits allows. -/
theorem height_le_of_fib {h n : Nat} (hfib : Nat.fib (h + 2) ≤ n + 1) (hn : n < 2 ^ 64) : h ≤ 91 := by
  by_contra hgt
  have hmono : Nat.fib 94 ≤ Nat.fib (h + 2) := Nat.fib_mono (by omega)
  have h94 : Nat.fib 94 = 19740274219868223167 := by norm_num
  omega

/-- **After any run of commands and timers every sorted set is shallow.** -/
theorem sorted_sets_shallow (strtod : Bytes → StrtodResult) (threads : Nat) (evs : List StoreEvent) :
    ∃ st outs, run (storeStep strtod) { threads := threads } evs = some (st, outs) ∧
      ∀ e ent, st.ents.read e = some ent → ent.type = .zset →
        ∃ h, ent.zset.Shallow h ∧ (hmSize ent.zset.hmap < 2 ^ 64 → h ≤ 91) := by
  obtain ⟨st, outs, m, hrun, rows, hholds, -⟩ :=
    store_run_models treeReading_sound strtod evs (Store.models_empty threads)
  refine ⟨st, outs, hrun, fun e ent hread htype => ?_⟩
  obtain ⟨ids, t, hset⟩ := (hholds.sound hread).zset htype
  exact ⟨ids.height, hset.shallow, height_le_of_fib hset.shallow.members⟩

/-! ## 2. The heap of timers

The positions on the way are halved or doubled, so their logarithm changes by one. The order of
the heap plays no part in it.
-/

section Heap

variable {t : HeapItem} {a : List HeapItem} {refs : HeapRefs} {pos : Nat}

/-- The position after a step up has one level less above it. -/
theorem log_heapParent (hpos : 0 < pos) : Nat.log 2 (heapParent pos + 1) < Nat.log 2 (pos + 1) := by
  have hhalf : heapParent pos + 1 = (pos + 1) / 2 := by
    unfold heapParent
    omega
  have hlog : 0 < Nat.log 2 (pos + 1) := Nat.log_pos (by decide) (by omega)
  rw [hhalf, Nat.log_div_base]
  omega

/-- The position after a step down has one level less below it. -/
theorem log_heapChild {len c : Nat} (hc : 0 < c) (hpar : heapParent c = pos) (hlt : c < len) :
    Nat.log 2 (len / (c + 1)) < Nat.log 2 (len / (pos + 1)) := by
  have hdouble : 2 * (pos + 1) ≤ c + 1 := by
    unfold heapParent at hpar
    omega
  have hle : len / (c + 1) ≤ len / (pos + 1) / 2 := by
    rw [Nat.div_div_eq_div_mul, Nat.mul_comm (pos + 1)]
    exact Nat.div_le_div_left hdouble (by omega)
  have hone : 1 ≤ len / (c + 1) := (Nat.one_le_div_iff (by omega)).mpr hlt
  have hlog : 0 < Nat.log 2 (len / (pos + 1)) := Nat.log_pos (by decide) (by omega)
  have hmono := Nat.log_mono_right (b := 2) hle
  rw [Nat.log_div_base] at hmono
  omega

theorem heapUp_ends (hlt : pos < a.length) :
    EndsWithin (fun n => loop (heapUpTurn t) n (a, refs, pos)) (Nat.log 2 (pos + 1) + 1) (pos + 1) := by
  refine .of_loop (loop_total (heapUpTurn t) (fun s => s.2.2 < s.1.length)
    (fun s => Nat.log 2 (s.2.2 + 1)) (fun _ => True) ?_ _ (a, refs, pos) hlt (Nat.lt_succ_self _))
    (Nat.log_lt_self 2 (Nat.succ_ne_zero pos))
  rintro ⟨a, refs, pos⟩ hlt
  simp only at hlt
  by_cases hpos : pos = 0
  · exact .inr ⟨(a, refs, pos), by simp [heapUpTurn, hpos], trivial⟩
  · have hpos' : 0 < pos := Nat.pos_of_ne_zero hpos
    have hpar : heapParent pos < pos := by
      unfold heapParent
      omega
    have hp : a[heapParent pos]? = some a[heapParent pos] := List.getElem?_eq_getElem (hpar.trans hlt)
    by_cases hval : t.val < a[heapParent pos].val
    · refine .inl ⟨(a.set pos a[heapParent pos], refs.set a[heapParent pos].ref (some pos),
        heapParent pos), ?_, ?_, log_heapParent hpos'⟩
      · simp [heapUpTurn, hpos, hp, hval, heapPlace, hlt]
      · simp only [List.length_set]
        exact hpar.trans hlt
    · exact .inr ⟨(a, refs, pos), by simp [heapUpTurn, hpos, hp, hval], trivial⟩

theorem heapDown_ends (hlt : pos < a.length) :
    EndsWithin (fun n => loop (heapDownTurn t a.length) n (a, refs, pos)) (Nat.log 2 a.length + 1)
      (a.length + 1) := by
  refine .of_loop (loop_total (heapDownTurn t a.length)
    (fun s => s.2.2 < s.1.length ∧ s.1.length = a.length)
    (fun s => Nat.log 2 (a.length / (s.2.2 + 1))) (fun _ => True) ?_ _ (a, refs, pos) ⟨hlt, rfl⟩ ?_) ?_
  · rintro ⟨b, refs, pos⟩ ⟨hlt, hlen⟩
    simp only at hlt hlen
    rw [← hlen]
    rcases heapMinPos_spec t b pos with ⟨hmin, -⟩ | ⟨c, x, hmin, hc, hpc, hx, -⟩
    · exact .inr ⟨(b, refs, pos), by simp [heapDownTurn, hmin], trivial⟩
    · have hclt := (List.getElem?_eq_some_iff.mp hx).1
      have hne : c ≠ pos := by
        have := Heap.parent_lt hc
        omega
      refine .inl ⟨(b.set pos x, refs.set x.ref (some pos), c), ?_, ?_, log_heapChild hc hpc hclt⟩
      · simp [heapDownTurn, hmin, hne, hx, heapPlace, hlt]
      · simp only [List.length_set]
        exact ⟨hclt, trivial⟩
  · exact Nat.lt_succ_of_le (Nat.log_mono_right (Nat.div_le_self _ _))
  · exact Nat.succ_le_succ (Nat.log_le_self 2 _)

/-- **`heap_up` and `heap_down` take a number of turns logarithmic in the position and in the
length**, from any position of any array, in order or not. -/
theorem heap_sift_short (t : HeapItem) (a : List HeapItem) (refs : HeapRefs) (pos : Nat)
    (hlt : pos < a.length) :
    EndsWithin (fun n => loop (heapUpTurn t) n (a, refs, pos)) (Nat.log 2 (pos + 1) + 1) (pos + 1) ∧
    EndsWithin (fun n => loop (heapDownTurn t a.length) n (a, refs, pos)) (Nat.log 2 a.length + 1)
      (a.length + 1) :=
  ⟨heapUp_ends hlt, heapDown_ends hlt⟩

/-- In an array of four, from its second position. -/
theorem heap_sift_short_four :
    EndsWithin (fun n => loop (heapUpTurn ⟨1, 9⟩) n
      ([⟨7, 0⟩, ⟨5, 1⟩, ⟨6, 2⟩, ⟨3, 3⟩], ⟨fun _ => none⟩, 1)) 2 2 ∧
    EndsWithin (fun n => loop (heapDownTurn ⟨8, 9⟩ 4) n
      ([⟨7, 0⟩, ⟨5, 1⟩, ⟨6, 2⟩, ⟨3, 3⟩], ⟨fun _ => none⟩, 1)) 3 5 :=
  ⟨(heap_sift_short ⟨1, 9⟩ [⟨7, 0⟩, ⟨5, 1⟩, ⟨6, 2⟩, ⟨3, 3⟩] ⟨fun _ => none⟩ 1 (by decide)).1,
    (heap_sift_short ⟨8, 9⟩ [⟨7, 0⟩, ⟨5, 1⟩, ⟨6, 2⟩, ⟨3, 3⟩] ⟨fun _ => none⟩ 1 (by decide)).2⟩

end Heap

end ApexDB
