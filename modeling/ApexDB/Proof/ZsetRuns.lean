import ApexDB.Lib.Run
import ApexDB.Proof.Zset

/-!
# A sorted set over whole runs: two indexes, one set

Any sequence of inserts, deletes and lookups on an empty set leaves the hash map and the tree
with the same nodes, and answers as a finite map from names to scores would. A score is compared
as a number: inserting `-0.0` over `0.0` keeps the old bits, and both are the last score
inserted.

Nothing here bounds the number of members. The 32-bit counters wrap in large sets, but neither
index looks at them.

The calls are those of a user of `zset.hpp`. A node is passed to `zset_delete` only after
`zset_lookup` has returned it, which is how all callers use it and what its assertion relies on.
-/

set_option autoImplicit false

namespace ApexDB

open Lib BinaryTree

/-- The calls a user of a set makes; `delete` is `zset_lookup` and, on a hit, `zset_delete`. -/
inductive ZSetOp where
  | insert (name : Bytes) (score : Dbl)
  | delete (name : Bytes)
  | lookup (name : Bytes)

/-- What a call returns: whether the name is new, or the score of the node found. -/
inductive ZSetOut where
  | added (b : Bool)
  | found (score : Option Dbl)

def zsetScore (zs : ZSet) (name : Bytes) : Option (ZSet × Option (NodeId × Dbl)) := do
  match ← zsetLookup zs name with
  | (zs, none) => return (zs, none)
  | (zs, some znode) => return (zs, some (znode, (← zs.nodes.read znode).score))

def zsetStep (zs : ZSet) : ZSetOp → Option (ZSet × ZSetOut)
  | .insert name score => do
      let (zs, b) ← zsetInsert zs name score
      return (zs, .added b)
  | .delete name => do
      match ← zsetScore zs name with
      | (zs, none) => return (zs, .found none)
      | (zs, some (znode, score)) => return (← zsetDelete zs znode, .found (some score))
  | .lookup name => do
      let (zs, r) ← zsetScore zs name
      return (zs, .found (r.map Prod.snd))

/-- What the set is for: a finite map from names to the scores last inserted. -/
def memberScores : Machine (Bytes → Option Dbl) ZSetOp ZSetOut where
  next m
    | .insert name score => Function.update m name (some score)
    | .delete name => Function.update m name none
    | .lookup _ => m
  pre _ _ := True
  admits m
    | .insert name _, .added b => b = (m name).isNone
    | .delete name, .found s => s.map Dbl.key = (m name).map Dbl.key
    | .lookup name, .found s => s.map Dbl.key = (m name).map Dbl.key
    | _, _ => False

/-- **The two indexes agree**: the tree of nodes in memory, its root, the nodes of the hash map,
and the order of the walk. -/
structure ZSet.DualIndex (zs : ZSet) (ids : BinaryTree NodeId) : Prop where
  tree : Rep zs.tree none ids
  root : zs.root = rootId ids
  live : ∀ i ∈ ids.inorder, zs.nodes.read i = some (zs.at i)
  same : (zs.hmap.nodes.map HNode.owner).Perm ids.inorder
  distinct : ids.inorder.Nodup
  names : (ids.inorder.map fun i => (zs.at i).name).Nodup
  null : zs.root = none ↔ hmSize zs.hmap = 0
  increasing : ids.inorder.Pairwise fun i j => (zs.at i).place < (zs.at j).place

theorem ZSet.Holds.dualIndex {zs : ZSet} {ids : BinaryTree NodeId} {t : ZTree}
    (h : zs.Holds ids t) : zs.DualIndex ids where
  tree := h.rep
  root := h.root
  live := h.live
  same := by
    have howners := h.index.nodes.map HNode.owner
    rw [List.map_map] at howners
    exact howners.trans (.of_eq (List.map_id _))
  distinct := h.nodup
  names := by
    have := h.ok.names
    rwa [h.content, inorder_map, List.map_map] at this
  null := by
    rw [h.toTree.root_none, h.index.size, length_inorder]
    cases ids <;> simp
  increasing := by
    have := h.ok.sorted
    rwa [h.content, inorder_map, List.pairwise_map] at this

def ZSet.Scores (zs : ZSet) (m : Bytes → Option Dbl) : Prop :=
  ∃ ids t, zs.Holds ids t ∧ ∀ name, (t.find name).map (fun z => z.score.key) = (m name).map Dbl.key

theorem zsetScore_spec {zs : ZSet} {ids : BinaryTree NodeId} {t : ZTree} (h : zs.Holds ids t)
    (name : Bytes) :
    ∃ zs' r, zsetScore zs name = some (zs', r) ∧ zs'.Holds ids t ∧
      r.map Prod.snd = (t.find name).map ZNode.score ∧
      ∀ i s, r = some (i, s) → i ∈ ids.inorder ∧ (zs'.at i).name = name := by
  obtain ⟨hmap, r, hrun, h', hfind, hr⟩ := zsetLookup_spec h name
  cases r with
  | none =>
    refine ⟨_, none, by simp [zsetScore, hrun], h', ?_, by simp⟩
    rw [hfind]
    rfl
  | some i =>
    obtain ⟨hi, hname⟩ := hr i rfl
    have hread : zs.nodes.read i = some (zs.at i) := h.live i hi
    refine ⟨_, some (i, (zs.at i).score), by simp [zsetScore, hrun, hread], h', ?_, ?_⟩
    · rw [hfind]
      rfl
    · intro j s hj
      cases hj
      exact ⟨hi, hname⟩

/-- **One call is one step of the finite map.** -/
theorem zsetStep_refines {zs : ZSet} {m : Bytes → Option Dbl} (h : zs.Scores m) (op : ZSetOp) :
    ∃ zs' o, zsetStep zs op = some (zs', o) ∧ memberScores.admits m op o ∧
      zs'.Scores (memberScores.next m op) := by
  obtain ⟨ids, t, hh, hm⟩ := h
  have hnone : ∀ name, (t.find name).isNone = (m name).isNone := by
    intro name
    have := congrArg Option.isNone (hm name)
    simpa using this
  cases op with
  | insert name score =>
    obtain ⟨zs', ids', hrun, hh'⟩ := zsetInsert_spec hh name score
    refine ⟨zs', .added _, by simp [zsetStep, hrun], hnone name, ids', _, hh', fun n => ?_⟩
    rw [(hh.ok.add name score).2 n]
    show _ = (Function.update m name (some score) n).map Dbl.key
    by_cases hn : n = name
    · subst hn
      rw [if_pos rfl, Function.update_self, Option.map_some, Option.map_some]
      -- an equal score keeps the old bits, which are the same number
      unfold ZTree.newScore
      split
      · rfl
      · split
        · rename_i heq
          simpa [Dbl.eq] using heq
        · rfl
    · rw [if_neg hn, Function.update_of_ne hn, hm]
  | delete name =>
    obtain ⟨zs', r, hrun, hh', hfound, hr⟩ := zsetScore_spec hh name
    have hkey : (r.map Prod.snd).map Dbl.key = (m name).map Dbl.key := by
      rw [hfound, Option.map_map, ← hm]
      rfl
    cases r with
    | none =>
      refine ⟨zs', .found none, by simp [zsetStep, hrun], hkey, ids, t, hh', fun n => ?_⟩
      show _ = (Function.update m name none n).map Dbl.key
      have hmiss : m name = none := by simpa using hkey.symm
      rw [← hmiss, Function.update_eq_self, hm]
    | some p =>
      obtain ⟨i, s⟩ := p
      obtain ⟨hi, hname⟩ := hr i s rfl
      obtain ⟨zs'', ids'', hdel, hh''⟩ := zsetDelete_spec hh' hi
      rw [hname] at hh''
      refine ⟨zs'', .found (some s), by simp [zsetStep, hrun, hdel], hkey, ids'', _, hh'', fun n => ?_⟩
      show _ = (Function.update m name none n).map Dbl.key
      rw [hh.ok.find_erase]
      by_cases hn : n = name
      · simp [hn]
      · rw [if_neg hn, Function.update_of_ne hn, hm]
  | lookup name =>
    obtain ⟨zs', r, hrun, hh', hfound, -⟩ := zsetScore_spec hh name
    refine ⟨zs', .found (r.map Prod.snd), by simp [zsetStep, hrun], ?_, ids, t, hh', hm⟩
    show (r.map Prod.snd).map Dbl.key = (m name).map Dbl.key
    rw [hfound, Option.map_map, ← hm]
    rfl

/-- **The sorted set over whole runs.** No call faults, every answer is that of the finite map
from names to last inserted scores, the two indexes agree at the end, and so does a lookup of
any name. -/
theorem zset_run_dual_index (ops : List ZSetOp) :
    ∃ zs outs, run zsetStep {} ops = some (zs, outs) ∧
      memberScores.Admits (fun _ => none) ops outs ∧
      (∃ ids, zs.DualIndex ids) ∧
      ∀ name, ∃ zs' r, zsetScore zs name = some (zs', r) ∧
        (r.map Prod.snd).map Dbl.key =
          (memberScores.final (fun _ => none) ops name).map Dbl.key := by
  have hlegal : ∀ (ops : List ZSetOp) (m : Bytes → Option Dbl), memberScores.Legal m ops := by
    intro ops
    induction ops with
    | nil => intro m; trivial
    | cons op ops ih => intro m; exact ⟨trivial, ih _⟩
  obtain ⟨zs, outs, hrun, hadm, ids, t, hh, hm⟩ := memberScores.run_refines
    (R := ZSet.Scores) (fun s m op hR _ => zsetStep_refines hR op) ops {} (fun _ => none)
    ⟨nil, nil, ZSet.holds_empty, fun _ => rfl⟩ (hlegal ops _)
  refine ⟨zs, outs, hrun, hadm, ⟨ids, hh.dualIndex⟩, fun name => ?_⟩
  obtain ⟨zs', r, hscore, -, hfound, -⟩ := zsetScore_spec hh name
  refine ⟨zs', r, hscore, ?_⟩
  rw [hfound, Option.map_map, ← hm]
  rfl

end ApexDB
