import ApexDB.Proof.Hashtable

/-!
# A hash map as an index

Both users of `HMap`, the store and the sorted set, keep objects in it under a key that is a
field of the object. `Indexes` is what they rely on: the map holds exactly these objects, each
under the hash of its key. The lookups are stated for any callback that picks out the objects of
a predicate `P` among those with the right code; one instance compares keys and the other
addresses.

The key of an object is a function of its address at the moment, read from the arena of the
caller. So an arena may change under the map as long as the keys of its objects stay (`congr`),
which is how a value is overwritten without touching the map.
-/

set_option autoImplicit false

namespace ApexDB

variable {K ι : Type}

/-- The map holds exactly these objects, each under the hash of its key. -/
structure HMap.Indexes (hash : K → Nat) (key : ι → K) (h : HMap ι) (ids : List ι) : Prop where
  ok : h.Ok
  nodes : h.nodes.Perm (ids.map fun i => { hcode := hash (key i), owner := i })

namespace HMap.Indexes

variable {hash : K → Nat} {key : ι → K} {h h' : HMap ι} {ids ids' : List ι}

theorem empty : Indexes hash key ({} : HMap ι) [] := ⟨HMap.ok_empty, .refl _⟩

theorem size (hi : h.Indexes hash key ids) : hmSize h = ids.length := by
  rw [hi.ok.size_nodes, hi.nodes.length_eq, List.length_map]

theorem of_perm (hi : h.Indexes hash key ids) (hp : ids.Perm ids') : h.Indexes hash key ids' :=
  ⟨hi.ok, hi.nodes.trans (hp.map _)⟩

theorem congr {key' : ι → K} (hi : h.Indexes hash key ids) (hk : ∀ i ∈ ids, key' i = key i) :
    h.Indexes hash key' ids := by
  have hmap : ids.map (fun i => HNode.mk (hash (key i)) i) =
      ids.map fun i => HNode.mk (hash (key' i)) i :=
    List.map_congr_left fun i hmem => by rw [hk i hmem]
  exact ⟨hi.ok, hmap ▸ hi.nodes⟩

theorem mem_nodes (hi : h.Indexes hash key ids) {n : HNode ι} (hn : n ∈ h.nodes) :
    n.owner ∈ ids ∧ n.hcode = hash (key n.owner) := by
  obtain ⟨i, hmem, rfl⟩ := List.mem_map.mp (hi.nodes.mem_iff.mp hn)
  exact ⟨hmem, rfl⟩

theorem node_mem (hi : h.Indexes hash key ids) {i : ι} (hmem : i ∈ ids) :
    { hcode := hash (key i), owner := i } ∈ h.nodes :=
  hi.nodes.mem_iff.mpr (List.mem_map.mpr ⟨i, hmem, rfl⟩)

theorem helped (hi : h.Indexes hash key ids) (hh : Helped h h') : h'.Indexes hash key ids :=
  ⟨hh.ok, hh.nodes.trans hi.nodes⟩

theorem misses (hi : h.Indexes hash key ids) {hcode : Nat} {eq : ι → Bool} {P : ι → Prop}
    (hP : ∀ i ∈ ids, hash (key i) = hcode ∧ eq i = true ↔ P i) (hm : h.Misses hcode eq) :
    ∀ i ∈ ids, ¬P i := by
  intro i hmem hp
  obtain ⟨hcode', heq⟩ := (hP i hmem).mpr hp
  have := hm _ (hi.node_mem hmem) hcode'
  rw [heq] at this
  exact absurd this (by simp)

theorem lookup (hi : h.Indexes hash key ids) {hcode : Nat} {eq : ι → Bool} {P : ι → Prop}
    (hP : ∀ i ∈ ids, hash (key i) = hcode ∧ eq i = true ↔ P i) :
    ∃ h', h'.Indexes hash key ids ∧
      ((∃ i ∈ ids, P i ∧ hmLookup h hcode eq = some (h', some i)) ∨
        (hmLookup h hcode eq = some (h', none) ∧ ∀ i ∈ ids, ¬P i)) := by
  obtain ⟨h', hh, ⟨n, hn, hrun, hcode', heq⟩ | ⟨hrun, hm⟩⟩ := hmLookup_spec hi.ok hcode eq
  · obtain ⟨hmem, hn'⟩ := hi.mem_nodes hn
    exact ⟨h', hi.helped hh, .inl ⟨n.owner, hmem, (hP _ hmem).mp ⟨hn' ▸ hcode', heq⟩, hrun⟩⟩
  · exact ⟨h', hi.helped hh, .inr ⟨hrun, hi.misses hP hm⟩⟩

theorem insert (hi : h.Indexes hash key ids) (i : ι) :
    ∃ h', hmInsert h { hcode := hash (key i), owner := i } = some h' ∧
      h'.Indexes hash key (i :: ids) := by
  obtain ⟨h', hrun, hok, hp⟩ := hmInsert_spec hi.ok { hcode := hash (key i), owner := i }
  exact ⟨h', hrun, hok, hp.trans (hi.nodes.cons _)⟩

theorem delete (hi : h.Indexes hash key ids) {hcode : Nat} {eq : ι → Bool} {P : ι → Prop}
    (hP : ∀ i ∈ ids, hash (key i) = hcode ∧ eq i = true ↔ P i) :
    (∃ h' i ids', hmDelete h hcode eq = some (h', some i) ∧ P i ∧ ids.Perm (i :: ids') ∧
      h'.Indexes hash key ids') ∨
    (∃ h', hmDelete h hcode eq = some (h', none) ∧ h'.Indexes hash key ids ∧ ∀ i ∈ ids, ¬P i) := by
  rcases hmDelete_spec hi.ok hcode eq with
    ⟨h', n, hrun, hok, hcode', heq, hp⟩ | ⟨h', hrun, hok, hp, hm⟩
  · have hn : n ∈ h.nodes := hp.mem_iff.mpr List.mem_cons_self
    obtain ⟨hmem, hn'⟩ := hi.mem_nodes hn
    obtain ⟨as, bs, rfl⟩ := List.append_of_mem hmem
    have hperm : (as ++ n.owner :: bs).Perm (n.owner :: (as ++ bs)) := List.perm_middle
    refine .inl ⟨h', n.owner, as ++ bs, hrun, (hP _ hmem).mp ⟨hn' ▸ hcode', heq⟩, hperm, hok, ?_⟩
    have hall := hp.symm.trans (hi.nodes.trans (hperm.map _))
    rw [List.map_cons, ← hn'] at hall
    exact hall.cons_inv
  · exact .inr ⟨h', hrun, ⟨hok, hp.trans hi.nodes⟩, hi.misses hP hm⟩

end HMap.Indexes

end ApexDB
