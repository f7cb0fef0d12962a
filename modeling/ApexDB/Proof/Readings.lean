import ApexDB.Spec.Readings
import ApexDB.Proof.Commands

/-!
# Both readings of sorted sets are right

For the tree there is nothing to say. For the map it is that a tree in order and without a name
twice is known from the scores of its members: the walk in order is the one sorted list of them.

So the store is proved right once, for any reading, and is then right for both. What the tree of
a set looks like is settled by its history, which a reader of replies has no interest in; the
map from names to scores is what a user believes a sorted set to be.
-/

set_option autoImplicit false

namespace ApexDB

open Lib BinaryTree

theorem treeReading_sound : treeReading.Sound (· = ·) where
  empty := rfl
  score := fun h _ name => by rw [h]; rfl
  add := fun h _ name score => by rw [h]; rfl
  erase := fun h _ name => by rw [h]; rfl
  query := fun h _ _ score name offset limit => by rw [h]; rfl
  deadline := fun _ _ => rfl

def ScoresOf (t : ZTree) (z : Members) : Prop :=
  ∀ name, z.lookup name = (t.find name).map ZNode.score

section Sorted

variable {t : ZTree} {z : Members}

theorem ScoresOf.mem_iff (h : ScoresOf t z) (ht : t.Ok) {m : ZNode} :
    m ∈ t.inorder ↔ z.lookup m.name = some m.score := by
  rw [h m.name, Option.map_eq_some_iff]
  constructor
  · intro hm
    exact ⟨m, ht.find_iff.mpr ⟨hm, rfl⟩, rfl⟩
  · rintro ⟨y, hy, hscore⟩
    obtain ⟨hmem, hname⟩ := ht.find_iff.mp hy
    have : y = m := by
      cases y
      cases m
      simp_all
    exact this ▸ hmem

theorem mem_members {m : ZNode} :
    m ∈ z.entries.toList.map (fun e => (⟨e.2, e.1⟩ : ZNode)) ↔ z.lookup m.name = some m.score := by
  rw [List.mem_map, ← Option.mem_def, Finmap.mem_lookup_iff]
  constructor
  · rintro ⟨⟨name, score⟩, he, rfl⟩
    exact Multiset.mem_toList.mp he
  · intro he
    exact ⟨⟨m.name, m.score⟩, Multiset.mem_toList.mpr he, rfl⟩

theorem nodup_members (z : Members) :
    (z.entries.toList.map fun e => (⟨e.2, e.1⟩ : ZNode)).Nodup := by
  apply List.Nodup.of_map ZNode.name
  rw [List.map_map, ← Multiset.coe_nodup, ← Multiset.map_coe, Multiset.coe_toList]
  exact Multiset.nodup_keys.mpr z.nodupKeys

theorem ScoresOf.perm (h : ScoresOf t z) (ht : t.Ok) :
    (z.entries.toList.map fun e => (⟨e.2, e.1⟩ : ZNode)).Perm t.inorder := by
  rw [List.perm_ext_iff_of_nodup (nodup_members z) (List.Nodup.of_map _ ht.names)]
  intro m
  rw [mem_members, h.mem_iff ht]

theorem ScoresOf.card (h : ScoresOf t z) (ht : t.Ok) : z.keys.card = t.numNodes := by
  rw [← length_inorder, ← (h.perm ht).length_eq, List.length_map, Multiset.length_toList,
    ← Multiset.card_map Sigma.fst]
  rfl

/-- **The walk in order is the sorted list of the members**: it is in order, it has the same
members, and there is only one such list. -/
theorem ScoresOf.sorted_eq (h : ScoresOf t z) (ht : t.Ok) : z.sorted = t.inorder := by
  have hperm : z.sorted.Perm t.inorder := (List.mergeSort_perm _ _).trans (h.perm ht)
  have hsorted : z.sorted.Pairwise fun a b => a.place ≤ b.place := by
    have : z.sorted.Pairwise fun a b => decide (a.place ≤ b.place) = true := List.pairwise_mergeSort
      (fun a b c hab hbc => by
        rw [decide_eq_true_eq] at hab hbc ⊢
        exact hab.trans hbc)
      (fun a b => by
        rw [Bool.or_eq_true, decide_eq_true_eq, decide_eq_true_eq]
        exact le_total _ _)
      _
    exact this.imp fun hab => of_decide_eq_true hab
  refine hperm.eq_of_pairwise (fun a b ha hb hab hba => ?_) hsorted
    (ht.sorted.imp fun hab => le_of_lt hab)
  -- one place is one name, and names are unique
  have hplace : a.place = b.place := le_antisymm hab hba
  have hname : a.name.map UInt8.toNat = b.name.map UInt8.toNat := (Prod.ext_iff.mp hplace).2
  exact List.inj_on_of_nodup_map ht.names (hperm.mem_iff.mp ha) hb
    ((List.map_injective_iff.mpr fun _ _ => UInt8.toNat_inj.mp) hname)

theorem scoresOf_empty : ScoresOf nil ∅ := fun name => by rw [Finmap.lookup_empty]; rfl

/-- A name with no equal score takes the new one, in the tree and in the map. -/
theorem ScoresOf.insert (h : ScoresOf t z) (ht : t.Ok) {name : Bytes} {score : Dbl}
    (hnew : ZTree.newScore (t.find name) score = score) :
    ScoresOf (t.add name score) (z.insert name score) := by
  intro m
  rw [(ht.add name score).2 m]
  by_cases hm : m = name
  · rw [if_pos hm, hm, Finmap.lookup_insert, hnew]
    rfl
  · rw [if_neg hm, Finmap.lookup_insert_of_ne _ hm, h m]

theorem ScoresOf.add (h : ScoresOf t z) (ht : t.Ok) (name : Bytes) (score : Dbl) :
    ScoresOf (t.add name score) (z.add name score) := by
  have hn := h name
  unfold Members.add
  cases hf : t.find name with
  | none =>
    rw [hf, Option.map_none] at hn
    rw [hn]
    exact h.insert ht (by rw [hf]; rfl)
  | some m =>
    rw [hf, Option.map_some] at hn
    rw [hn]
    by_cases heq : m.score.eq score = true
    · have hsame : t.add name score = t := by rw [ZTree.add, hf]; exact if_pos heq
      rw [hsame]
      simpa only [heq, if_true] using h
    · simp only [if_neg heq]
      exact h.insert ht (by rw [hf]; exact if_neg heq)

theorem ScoresOf.erase (h : ScoresOf t z) (ht : t.Ok) (name : Bytes) :
    ScoresOf (t.erase name) (z.erase name) := by
  intro m
  rw [ht.find_erase]
  by_cases hm : m = name
  · rw [if_pos hm, hm, Finmap.lookup_erase]
    rfl
  · rw [if_neg hm, Finmap.lookup_erase_ne hm, h m]

end Sorted

theorem mapReading_sound : mapReading.Sound ScoresOf where
  empty := scoresOf_empty
  score := fun h _ name => h name
  add := fun h ht name score => h.add ht name score
  erase := fun h ht name => h.erase ht name
  query := fun h ht hex score name offset limit => by
    have hsize := h.card ht
    rw [ht.query_eq (hsize.symm.trans_lt hex), ← h.sorted_eq ht]
    rfl
  deadline := fun _ _ => rfl

/-! ## The contents of a store

Read as finite maps, a store has one content: what it stands for is decided by its memory.
-/

/-- A set is in the memory of its nodes, whatever the shape of the tree. -/
theorem ZSet.Holds.mem_inorder_iff {zs : ZSet} {ids : BinaryTree NodeId} {t : ZTree}
    (h : zs.Holds ids t) (z : ZNode) : z ∈ t.inorder ↔ ∃ i, zs.nodes.read i = some z := by
  rw [h.content, inorder_map, List.mem_map]
  constructor
  · rintro ⟨i, hi, rfl⟩
    exact ⟨i, h.live i hi⟩
  · rintro ⟨i, hi⟩
    exact ⟨i, h.only i z hi, ZSet.at_of_read hi⟩

theorem Entry.Denotes.unique {ent : Entry} {v v' : RefValue Members}
    (h : ent.Denotes ScoresOf v) (h' : ent.Denotes ScoresOf v') : v = v' := by
  cases v with
  | str s =>
    cases v' with
    | str s' => rw [← h.2.1, ← h'.2.1]
    | zset z' => exact absurd (h.1.symm.trans h'.1) (by simp)
  | zset z =>
    cases v' with
    | str s' => exact absurd (h.1.symm.trans h'.1) (by simp)
    | zset z' =>
      obtain ⟨-, ids, t, hz, hs⟩ := h
      obtain ⟨-, ids', t', hz', hs'⟩ := h'
      congr 1
      refine Finmap.ext_lookup fun name => ?_
      rw [hs name, hs' name]
      congr 1
      refine Option.ext fun y => ?_
      rw [hz.ok.find_iff, hz'.ok.find_iff, hz.mem_inorder_iff, hz'.mem_inorder_iff]

/-- Every row of one description of a store is a row of the other. -/
theorem Store.Holds.row_mem {st : Store} {rows rows' : List (Row Members)}
    (h : st.Holds ScoresOf rows) (h' : st.Holds ScoresOf rows') {r : Row Members} (hr : r ∈ rows) :
    r ∈ rows' := by
  obtain ⟨r', hr', hid⟩ := List.mem_map.mp
    ((h'.index.mem_nodes (h.index.node_mem (List.mem_map_of_mem hr))).1)
  obtain ⟨⟨ent, hread, hkey, hden⟩, hdl⟩ := h.shows r hr
  obtain ⟨⟨ent', hread', hkey', hden'⟩, hdl'⟩ := h'.shows r' hr'
  simp only [hid] at hread' hdl'
  obtain rfl : ent = ent' := Option.some.inj (hread.symm.trans hread')
  have heq : r' = r := by
    obtain ⟨id, key, v, d⟩ := r
    obtain ⟨id', key', v', d'⟩ := r'
    obtain rfl : id' = id := hid
    obtain rfl : key = key' := hkey.symm.trans hkey'
    obtain rfl : v = v' := hden.unique hden'
    obtain rfl : d = d' := hdl.symm.trans hdl'
    rfl
  exact heq ▸ hr'

/-- **A store stands for one map**, since the rows are decided by the entries, and the members
of a set by the memory of its nodes. -/
theorem Store.Models.unique {st : Store} {m m' : RefStore Members} (h : st.Models ScoresOf m)
    (h' : st.Models ScoresOf m') : m' = m := by
  obtain ⟨rows, h, hc⟩ := h
  obtain ⟨rows', h', hc'⟩ := h'
  refine Finmap.ext_lookup fun key => Option.ext fun re => ?_
  rw [hc' key re, hc key re]
  constructor
  · rintro ⟨r, hr, hk⟩
    exact ⟨r, h'.row_mem h hr, hk⟩
  · rintro ⟨r, hr, hk⟩
    exact ⟨r, h.row_mem h' hr, hk⟩

end ApexDB
