import Mathlib.Data.List.Nodup
import ApexDB.Lib.Run
import ApexDB.Proof.Hashtable

/-!
# The map over whole runs is a finite map

`Proof/Hashtable.lean` says what one call does to the bag of nodes. Here the bag is read as a
finite map from keys to nodes, and the reading survives every run: whatever the hash function,
however many keys collide, wherever the migration happens to stand.

The one thing the callers owe is in `finiteMap.pre`: `hm_insert` is never given a key that is
already there. All three callers look the key up first.

The abstract machine is a function from keys and not a `Finmap`, since all that is asked of it
is what a key maps to. That only finitely many do is a consequence: the bag is its graph.
-/

set_option autoImplicit false

namespace ApexDB

open Lib

variable {K ι : Type} [DecidableEq K]

inductive HMapOp (K ι : Type) where
  | insert (node : ι)
  | lookup (k : K)
  | delete (k : K)

/-- One call, for nodes with a key and a hash of it; the output is the returned node. -/
def hmapStep (key : ι → K) (hash : K → Nat) (h : HMap ι) :
    HMapOp K ι → Option (HMap ι × Option ι)
  | .insert node => do
      let h ← hmInsert h { hcode := hash (key node), owner := node }
      return (h, none)
  | .lookup k => hmLookup h (hash k) fun x => key x == k
  | .delete k => hmDelete h (hash k) fun x => key x == k

/-- What the map is for: a finite map from keys to nodes. -/
def finiteMap (key : ι → K) : Machine (K → Option ι) (HMapOp K ι) (Option ι) where
  next m
    | .insert node => Function.update m (key node) (some node)
    | .lookup _ => m
    | .delete k => Function.update m k none
  pre m
    | .insert node => m (key node) = none
    | .lookup _ => True
    | .delete _ => True
  admits m
    | .insert _, o => o = none
    | .lookup k, o => o = m k
    | .delete k, o => o = m k

/-- The bag of nodes is the graph of the finite map, and hash codes are hashes of keys. No two
nodes have one key, which is why a lookup may stop at the first match. -/
structure HMap.Represents (key : ι → K) (hash : K → Nat) (h : HMap ι) (m : K → Option ι) :
    Prop where
  ok : h.Ok
  hashed : ∀ n ∈ h.nodes, n.hcode = hash (key n.owner)
  nodup : (h.nodes.map fun n => key n.owner).Nodup
  graph : ∀ k x, m k = some x ↔ key x = k ∧ ∃ n ∈ h.nodes, n.owner = x

section

variable {key : ι → K} {hash : K → Nat} {h h' : HMap ι} {m : K → Option ι}

omit [DecidableEq K] in
theorem HMap.represents_empty : HMap.Represents key hash ({} : HMap ι) (fun _ => none) where
  ok := HMap.ok_empty
  hashed := fun n hn => by cases hn
  nodup := List.nodup_nil
  graph := by
    intro k x
    constructor
    · intro hx
      cases hx
    · rintro ⟨-, n, hn, -⟩
      cases hn

omit [DecidableEq K] in
theorem HMap.Represents.of_perm (hr : h.Represents key hash m) (hok : h'.Ok)
    (hp : h'.nodes.Perm h.nodes) : h'.Represents key hash m where
  ok := hok
  hashed := fun n hn => hr.hashed n (hp.mem_iff.mp hn)
  nodup := (hp.map _).nodup_iff.mpr hr.nodup
  graph := fun k x => by simp only [hr.graph, hp.mem_iff]

theorem HMap.Represents.hit (hr : h.Represents key hash m) {n : HNode ι} {k : K}
    (hn : n ∈ h.nodes) (he : (key n.owner == k) = true) : m k = some n.owner :=
  (hr.graph k n.owner).mpr ⟨by simpa using he, n, hn, rfl⟩

theorem HMap.Represents.miss (hr : h.Represents key hash m) {k : K}
    (hm : h.Misses (hash k) fun x => key x == k) : m k = none := by
  cases hk : m k with
  | none => rfl
  | some x =>
    obtain ⟨rfl, n, hn, rfl⟩ := (hr.graph k x).mp hk
    have := hm n hn (hr.hashed n hn)
    simp at this

theorem HMap.Represents.insert (hr : h.Represents key hash m) {x : ι} (hok : h'.Ok)
    (hp : h'.nodes.Perm ({ hcode := hash (key x), owner := x } :: h.nodes))
    (hfree : m (key x) = none) :
    h'.Represents key hash (Function.update m (key x) (some x)) where
  ok := hok
  hashed := by
    intro n hn
    rcases List.mem_cons.mp (hp.mem_iff.mp hn) with rfl | hn
    · rfl
    · exact hr.hashed n hn
  nodup := by
    rw [(hp.map _).nodup_iff, List.map_cons, List.nodup_cons]
    refine ⟨fun hmem => ?_, hr.nodup⟩
    obtain ⟨n, hn, hk⟩ := List.mem_map.mp hmem
    rw [(hr.graph (key x) n.owner).mpr ⟨hk, n, hn, rfl⟩] at hfree
    cases hfree
  graph := by
    intro k y
    simp only [hp.mem_iff, List.mem_cons]
    by_cases hk : k = key x
    · subst hk
      rw [Function.update_self]
      constructor
      · rintro ⟨rfl⟩
        exact ⟨rfl, _, .inl rfl, rfl⟩
      · rintro ⟨hy, n, rfl | hn, rfl⟩
        · rfl
        · rw [(hr.graph _ n.owner).mpr ⟨hy, n, hn, rfl⟩] at hfree
          cases hfree
    · rw [Function.update_of_ne hk, hr.graph]
      refine and_congr_right fun hy => ?_
      constructor
      · rintro ⟨n, hn, rfl⟩
        exact ⟨n, .inr hn, rfl⟩
      · rintro ⟨n, rfl | hn, rfl⟩
        · exact absurd hy.symm hk
        · exact ⟨n, hn, rfl⟩

theorem HMap.Represents.delete (hr : h.Represents key hash m) {n : HNode ι} (hok : h'.Ok)
    (hp : h.nodes.Perm (n :: h'.nodes)) :
    h'.Represents key hash (Function.update m (key n.owner) none) where
  ok := hok
  hashed := fun x hx => hr.hashed x (hp.mem_iff.mpr (List.mem_cons_of_mem _ hx))
  nodup := by
    have := (hp.map fun n => key n.owner).nodup_iff.mp hr.nodup
    rw [List.map_cons, List.nodup_cons] at this
    exact this.2
  graph := by
    have hnd := (hp.map fun n => key n.owner).nodup_iff.mp hr.nodup
    rw [List.map_cons, List.nodup_cons] at hnd
    intro k y
    by_cases hk : k = key n.owner
    · subst hk
      rw [Function.update_self]
      constructor
      · intro hy
        cases hy
      · rintro ⟨hy, n', hn', rfl⟩
        exact absurd (List.mem_map.mpr ⟨n', hn', hy⟩) hnd.1
    · rw [Function.update_of_ne hk, hr.graph]
      refine and_congr_right fun hy => ?_
      constructor
      · rintro ⟨n', hn', rfl⟩
        rcases List.mem_cons.mp (hp.mem_iff.mp hn') with rfl | hn'
        · exact absurd hy.symm hk
        · exact ⟨n', hn', rfl⟩
      · rintro ⟨n', hn', rfl⟩
        exact ⟨n', hp.mem_iff.mpr (List.mem_cons_of_mem _ hn'), rfl⟩

/-- **One call is one step of the finite map**, however far the migration has come. -/
theorem hmapStep_refines (hr : h.Represents key hash m) (op : HMapOp K ι)
    (hpre : (finiteMap key).pre m op) :
    ∃ h' o, hmapStep key hash h op = some (h', o) ∧ (finiteMap key).admits m op o ∧
      h'.Represents key hash ((finiteMap key).next m op) := by
  cases op with
  | insert x =>
    obtain ⟨h', hins, hok, hp⟩ := hmInsert_spec hr.ok { hcode := hash (key x), owner := x }
    exact ⟨h', none, by simp [hmapStep, hins], rfl, hr.insert hok hp hpre⟩
  | lookup k =>
    obtain ⟨h', hh, ⟨n, hn, hlk, -, he⟩ | ⟨hlk, hmiss⟩⟩ :=
      hmLookup_spec hr.ok (hash k) fun x => key x == k
    · exact ⟨h', _, hlk, (hr.hit hn he).symm, hr.of_perm hh.ok hh.nodes⟩
    · exact ⟨h', none, hlk, (hr.miss hmiss).symm, hr.of_perm hh.ok hh.nodes⟩
  | delete k =>
    rcases hmDelete_spec hr.ok (hash k) (fun x => key x == k) with
      ⟨h', n, hdel, hok, -, he, hp⟩ | ⟨h', hdel, hok, hp, hmiss⟩
    · have hkey : key n.owner = k := by simpa using he
      have hn : n ∈ h.nodes := hp.mem_iff.mpr List.mem_cons_self
      refine ⟨h', _, hdel, (hr.hit hn he).symm, ?_⟩
      subst hkey
      exact hr.delete hok hp
    · refine ⟨h', none, hdel, (hr.miss hmiss).symm, ?_⟩
      show h'.Represents key hash (Function.update m k none)
      rw [← hr.miss hmiss, Function.update_eq_self]
      exact hr.of_perm hok hp

omit [DecidableEq K] in
theorem HMap.Represents.owners (hr : h.Represents key hash m) :
    (h.nodes.map HNode.owner).Nodup ∧
      ∀ x, x ∈ h.nodes.map HNode.owner ↔ m (key x) = some x := by
  constructor
  · have := hr.nodup
    rw [show (h.nodes.map fun n => key n.owner) = (h.nodes.map HNode.owner).map key by
      rw [List.map_map]; rfl] at this
    exact List.Nodup.of_map key this
  · intro x
    rw [hr.graph, List.mem_map]
    exact ⟨fun hx => ⟨rfl, hx⟩, fun hx => hx.2⟩

end

/-- **The hash map refines the finite map over whole runs.** Every returned node is the one the
finite map holds; after the run `hm_size` is the number of live nodes, and `hm_foreach` with a
callback that returns true folds it over a list with each live node exactly once. -/
theorem hmap_run_refines (key : ι → K) (hash : K → Nat) (ops : List (HMapOp K ι))
    (hlegal : (finiteMap key).Legal (fun _ => none) ops) :
    ∃ h outs, run (hmapStep key hash) {} ops = some (h, outs) ∧
      (finiteMap key).Admits (fun _ => none) ops outs ∧
      ∃ live : List ι, live.Nodup ∧
        (∀ x, x ∈ live ↔ (finiteMap key).final (fun _ => none) ops (key x) = some x) ∧
        hmSize h = live.length ∧
        ∀ (α : Type) (f : α → ι → α) (acc : α),
          hmForeach h (fun a x => (f a x, true)) acc = some (live.foldl f acc) := by
  obtain ⟨h, outs, hrun, hadm, hr⟩ := (finiteMap key).run_refines
    (R := HMap.Represents key hash)
    (fun s t e hR hp => hmapStep_refines hR e hp) ops {} _ HMap.represents_empty hlegal
  refine ⟨h, outs, hrun, hadm, h.nodes.map HNode.owner, hr.owners.1, hr.owners.2, ?_,
    fun α f acc => hmForeach_spec hr.ok f acc⟩
  rw [hr.ok.size_nodes, List.length_map]

/-- Three nodes whose keys all hash to 7, one of them deleted and looked up again. -/
theorem hmap_run_refines_collisions :
    ∃ h outs, run (hmapStep (ι := Nat × Nat) Prod.fst fun _ => 7) {}
        [.insert (1, 10), .insert (2, 20), .insert (3, 30), .delete 2, .lookup 2, .lookup 3] =
          some (h, outs) ∧
      (finiteMap Prod.fst).Admits (fun _ => none)
        [.insert (1, 10), .insert (2, 20), .insert (3, 30), .delete 2, .lookup 2, .lookup 3]
        outs := by
  obtain ⟨h, outs, hrun, hadm, -⟩ := hmap_run_refines (Prod.fst : Nat × Nat → Nat) (fun _ => 7)
    [.insert (1, 10), .insert (2, 20), .insert (3, 30), .delete 2, .lookup 2, .lookup 3]
    (by simp [Machine.Legal, finiteMap])
  exact ⟨h, outs, hrun, hadm⟩

end ApexDB
