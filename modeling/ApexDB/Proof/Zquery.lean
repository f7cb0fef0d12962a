import ApexDB.Proof.AvlValid
import ApexDB.Proof.StoreLimits

/-!
# What a range query lists

The reply of `zquery` is compared with a slice of the members as they stand in the tree, from
left to right (`Store.InOrder`): the tree is followed by its links, so nothing of the proofs is
in the statement but the pointers of the store.

**The counters of the tree are 32 bits wide**, and so is the count of an array. Below `2 ^ 32`
members the slice is exact; a query in a set past that can miss members that are there.
-/

set_option autoImplicit false

namespace ApexDB

open Lib BinaryTree

/-! ## 1. The members in order, and a slice of them

What a slice is, is said with lists and numbers: drop those below the pair, move by the offset,
which may be negative, and take half of the limit, rounded up, as each member is two elements.
-/

/-- The members under a key from left to right: none for a key that is not there, and those of
the tree for a set. A string has no such list. -/
def Store.InOrder (st : Store) (key : Bytes) (L : List ZNode) : Prop :=
  (¬st.HasKey key ∧ L = []) ∨
  ∃ n ∈ st.db.nodes, ∃ ent ids, st.ents.read n.owner = some ent ∧ ent.key = key ∧ ent.type = .zset ∧
    Shaped ent.zset.tree none ids ∧ ent.zset.root = rootId ids ∧ L = ids.inorder.map ent.zset.at

/-- How many members are strictly below a pair, by score and then by the bytes of the name. -/
def countBelow (L : List ZNode) (score : Dbl) (name : Bytes) : Nat :=
  L.countP fun z => decide (z.place < (ZNode.mk score name).place)

def slicePairs (L : List ZNode) (score : Dbl) (name : Bytes) (offset limit : Int) : Nat :=
  let p := countBelow L score name
  if limit ≤ 0 ∨ p = L.length ∨ p + offset < 0 ∨ L.length ≤ p + offset then 0
  else min ((limit + 1) / 2).toNat (L.length - (p + offset).toNat)

/-- The members at the positions from `p + offset` on. -/
def sliceOf (L : List ZNode) (score : Dbl) (name : Bytes) (offset limit : Int) : List ZNode :=
  (L.drop (countBelow L score name + offset).toNat).take (slicePairs L score name offset limit)

variable {L : List ZNode} {score : Dbl} {name : Bytes} {offset limit : Int}

theorem length_sliceOf (L : List ZNode) (score : Dbl) (name : Bytes) (offset limit : Int) :
    (sliceOf L score name offset limit).length = slicePairs L score name offset limit := by
  rw [sliceOf, List.length_take, List.length_drop, slicePairs]
  split
  · rw [Nat.zero_min]
  · omega

theorem countBelow_eq (L : List ZNode) (score : Dbl) (name : Bytes) :
    countBelow L score name = L.countP fun z => zless z score name := by
  unfold countBelow
  congr 1
  funext z
  rw [Bool.eq_iff_iff, decide_eq_true_iff, zless_iff]

theorem rangeOf_eq (hlim : 0 < limit) :
    rangeOf L score name offset limit = sliceOf L score name offset limit := by
  have hhalf : (limit.toNat + 1) / 2 = ((limit + 1) / 2).toNat := by omega
  simp only [rangeOf, sliceOf, slicePairs, ← countBelow_eq]
  split
  · rename_i hnone
    rw [if_pos (.inr hnone), List.take_zero]
  · rename_i hsome
    rw [if_neg (not_or.mpr ⟨by omega, hsome⟩), List.take_eq_take_min, List.length_drop, hhalf]

theorem sliceOf_nonpos (hlim : limit ≤ 0) : sliceOf L score name offset limit = [] := by
  rw [sliceOf, slicePairs, if_pos (.inl hlim), List.take_zero]

theorem Store.Models.inOrder_iff {st : Store} {m : RefStore ZTree} (h : st.Models (· = ·) m)
    (key : Bytes) (L : List ZNode) : st.InOrder key L ↔
      m.lookup key = none ∧ L = [] ∨ ∃ t d, m.lookup key = some ⟨.zset t, d⟩ ∧ L = t.inorder := by
  have hkey := not_iff_comm.mp (h.hasKey_iff key).symm
  obtain ⟨rows, h, hc⟩ := h
  refine or_congr (and_congr_left fun _ => hkey) ?_
  constructor
  · intro hset
    obtain ⟨n, hn, ent, ids, hread, hent, htype, hshape, hroot, rfl⟩ := hset
    obtain ⟨r, hr, hid⟩ := List.mem_map.mp (h.index.mem_nodes hn).1
    obtain ⟨⟨ent', hread', hk', hden⟩, -⟩ := h.shows r hr
    rw [hid, hread] at hread'
    cases hread'
    have hlook := (hc key r.entry).mpr ⟨r, hr, hk'.symm.trans hent, rfl⟩
    obtain ⟨rid, rkey, v, d⟩ := r
    cases v with
    | str s => exact absurd (hden.1.symm.trans htype) (by simp)
    | zset t =>
      obtain ⟨-, ids', t', hz, rfl⟩ := hden
      -- the links are followed to one tree only
      obtain rfl : ids = ids' := hshape.unique hz.rep.shaped (hroot.symm.trans hz.root)
      exact ⟨t', d, hlook, by rw [hz.content, inorder_map]⟩
  · intro hset
    obtain ⟨t, d, hlook, rfl⟩ := hset
    obtain ⟨r, hr, hk, hre⟩ := (hc key _).mp hlook
    obtain ⟨⟨ent, hread, hent, hden⟩, -⟩ := h.shows r hr
    rw [hre] at hden
    obtain ⟨htype, ids, t', hz, rfl⟩ := hden
    exact ⟨_, h.index.node_mem (List.mem_map_of_mem hr), ent, ids, hread, hent.trans hk, htype,
      hz.rep.shaped, hz.root, by rw [hz.content, inorder_map]⟩

/-! ## 2. Small sets

The walk by rank is exact as long as no counter has wrapped, and the reply is exact as long as
its count has not. Below `2 ^ 32` members both are so.
-/

theorem Store.Models.ok {st : Store} {m : RefStore ZTree} (h : st.Models (· = ·) m) {key : Bytes}
    {t : ZTree} {d : Option Nat} (hlook : m.lookup key = some ⟨.zset t, d⟩) : t.Ok := by
  obtain ⟨rows, h, hc⟩ := h
  obtain ⟨r, hr, -, hre⟩ := (hc key _).mp hlook
  obtain ⟨⟨ent, -, -, hden⟩, -⟩ := h.shows r hr
  rw [hre] at hden
  obtain ⟨-, ids, t', hz, rfl⟩ := hden
  exact hz.ok

theorem refZset_of_inOrder {st : Store} {m : RefStore ZTree} (h : st.Models (· = ·) m) {key : Bytes}
    (hL : st.InOrder key L) :
    ∃ t : ZTree, refZset treeReading m key = some t ∧ L = t.inorder ∧ t.Ok := by
  rcases (h.inOrder_iff key L).mp hL with ⟨hnone, rfl⟩ | ⟨t, d, hsome, rfl⟩
  · exact ⟨nil, by rw [refZset, hnone]; rfl, rfl, ZTree.ok_nil⟩
  · exact ⟨t, by rw [refZset, hsome], rfl, h.ok hsome⟩

/-- What `zquery` appends, by the tree. -/
theorem execute_zquery (strtod : Bytes → StrtodResult) {st : Store} {m : RefStore ZTree}
    (h : st.Models (· = ·) m) {now : Nat} (clk : Nat) {key arg offArg limArg : Bytes} {t : ZTree}
    (hset : refZset treeReading (m.purge now) key = some t) (hscore : str2dbl strtod arg = some score)
    (name : Bytes) (hoff : str2int offArg = some offset) (hlim : str2int limArg = some limit)
    (out : Buffer) :
    ∃ st', execute strtod now clk [bytes "zquery", key, arg, name, offArg, limArg] st out =
      some (st', out ++ (Value.arr (memberValues
        (if limit ≤ 0 then [] else t.query score name offset limit))).encode) := by
  obtain ⟨st', v, hrun, hv, -⟩ := execute_spec treeReading_sound strtod h now clk
    [bytes "zquery", key, arg, name, offArg, limArg] out
  rw [show dispatch [bytes "zquery", key, arg, name, offArg, limArg] =
    .zquery key arg name offArg limArg from rfl] at hv
  simp only [refCommand, refZquery, hscore, hoff, hlim, hset] at hv
  refine ⟨st', ?_⟩
  rw [hrun]
  by_cases hl : limit ≤ 0
  · rw [if_pos hl] at hv
    rw [if_pos hl, show v = _ from hv]
    rfl
  · rw [if_neg hl] at hv
    rw [if_neg hl, hv.1 trivial]
    rfl

theorem execute_zquery_slice (strtod : Bytes → StrtodResult) {st : Store} {m : RefStore ZTree}
    (h : st.Models (· = ·) m) {now : Nat} (clk : Nat) {key arg offArg limArg : Bytes} {t : ZTree}
    (hset : refZset treeReading (m.purge now) key = some t) (hok : t.Ok) (hsize : t.numNodes < 2 ^ 32)
    (hscore : str2dbl strtod arg = some score) (name : Bytes) (hoff : str2int offArg = some offset)
    (hlim : str2int limArg = some limit) (out : Buffer) :
    ∃ st', execute strtod now clk [bytes "zquery", key, arg, name, offArg, limArg] st out =
      some (st', out ++ (Value.arr (memberValues (sliceOf t.inorder score name offset limit))).encode) := by
  obtain ⟨st', hreply⟩ := execute_zquery strtod h clk hset hscore name hoff hlim out
  refine ⟨st', ?_⟩
  rw [hreply]
  by_cases hl : limit ≤ 0
  · rw [if_pos hl, sliceOf_nonpos hl]
  · rw [if_neg hl, hok.query_eq hsize, rangeOf_eq (by omega)]

/-- **`zquery` returns the exact slice** of every reachable set with fewer than `2 ^ 32`
members. -/
theorem zquery_exact (strtod : Bytes → StrtodResult) (threads : Nat) (evs : List StoreEvent)
    (now clk : Nat) (key arg name offArg limArg : Bytes) (score : Dbl) (offset limit : Int)
    (hscore : str2dbl strtod arg = some score) (hoff : str2int offArg = some offset)
    (hlim : str2int limArg = some limit) (out : Buffer) :
    ∃ st outs st₁, run (storeStep strtod) { threads := threads } evs = some (st, outs) ∧
      expire now st = some st₁ ∧
      ∀ L, st₁.InOrder key L → L.length < 2 ^ 32 → ∃ st',
        execute strtod now clk [bytes "zquery", key, arg, name, offArg, limArg] st out =
          some (st', out ++ (Value.arr (memberValues (sliceOf L score name offset limit))).encode) ∧
        (memberValues (sliceOf L score name offset limit)).length =
          2 * slicePairs L score name offset limit := by
  obtain ⟨st, outs, m, hrun, h⟩ :=
    store_run_models treeReading_sound strtod evs (Store.models_empty threads)
  obtain ⟨st₁, hexp, h₁⟩ := expire_spec h now
  refine ⟨st, outs, st₁, hrun, hexp, fun L hL hsize => ?_⟩
  obtain ⟨t, hset, rfl, hok⟩ := refZset_of_inOrder h₁ hL
  rw [length_inorder] at hsize
  obtain ⟨st', hreply⟩ := execute_zquery_slice strtod h clk hset hok hsize hscore name hoff hlim out
  exact ⟨st', hreply, by rw [length_memberValues, length_sliceOf]⟩

/-! ## 3. Large sets

Both limits are real: there are runs of the program that go past them, although nobody has the
patience for one. They are obtained like those of `Proof/StoreLimits.lean`, by following the
reference.
-/

theorem zaddAll_spec (ns : List Bytes) (hns : ns ≠ []) : ∃ st outs st₁ m,
    run (storeStep strtodZero) {} (zaddAll ns) = some (st, outs) ∧ expire 0 st = some st₁ ∧
    st.Models (· = ·) m ∧
    refZset treeReading (RefStore.purge 0 m) (bytes "z") =
      some (ns.foldl (fun t n => ZTree.add t n .zero) nil) ∧
    st₁.InOrder (bytes "z") (ns.foldl (fun t n => ZTree.add t n .zero) nil).inorder := by
  have hevs : zaddAll ns = (ns.map fun n => [bytes "zadd", bytes "z", bytes "0", n]).map (.execute 0 0) := by
    rw [zaddAll, List.map_map]
    rfl
  obtain ⟨st, outs, hrun, -, m, h, hm⟩ := (refMachine treeReading strtodZero).run_refines
    (R := Store.Follows (· = ·))
    (fun _ _ ev h hp => storeStep_refines treeReading_sound strtodZero h ev hp) (zaddAll ns) {} ⟨∅, 0⟩
    (Store.follows_empty 0) (hevs ▸ legal_of_zero treeReading _ _)
  obtain ⟨st₁, hexp, h₁⟩ := expire_spec h 0
  rw [final_zaddAll_empty treeReading hns, purge_oneSet] at hm
  have hlook : (RefStore.purge 0 m).lookup (bytes "z") =
      some ⟨.zset (ns.foldl (fun t n => ZTree.add t n .zero) nil), none⟩ := by
    rw [hm, oneSet, Finmap.lookup_insert]
    rfl
  exact ⟨st, outs, st₁, m, hrun, hexp, h, by rw [refZset, hlook],
    (h₁.inOrder_iff _ _).mpr (.inr ⟨_, none, hlook, rfl⟩)⟩

/-- Two members in a set, and the second of them asked for. -/
theorem zquery_exact_two : ∃ st outs st₁ L st',
    run (storeStep strtodZero) {} (zaddAll [bytes "a", bytes "b"]) = some (st, outs) ∧
    expire 0 st = some st₁ ∧ st₁.InOrder (bytes "z") L ∧ L.length = 2 ∧
    execute strtodZero 0 0 [bytes "zquery", bytes "z", bytes "0", bytes "a", bytes "1", bytes "7"] st [] =
      some (st', [] ++ (Value.arr (memberValues [⟨.zero, bytes "b"⟩])).encode) := by
  obtain ⟨st, outs, st₁, m, hrun, hexp, -, -, hL⟩ :=
    zaddAll_spec [bytes "a", bytes "b"] (by simp)
  obtain ⟨st', outs', st₁', hrun', hexp', hquery⟩ := zquery_exact strtodZero 0
    (zaddAll [bytes "a", bytes "b"]) 0 0 (bytes "z") (bytes "0") (bytes "a") (bytes "1") (bytes "7")
    .zero 1 7 (by decide) (by decide) (by decide) []
  obtain ⟨rfl, rfl⟩ : st' = st ∧ outs' = outs := by
    rw [hrun] at hrun'
    cases hrun'
    exact ⟨rfl, rfl⟩
  obtain rfl : st₁' = st₁ := by
    rw [hexp] at hexp'
    cases hexp'
    rfl
  have hslice : sliceOf ([bytes "a", bytes "b"].foldl (fun t n => ZTree.add t n .zero) nil).inorder .zero
      (bytes "a") 1 7 = [⟨.zero, bytes "b"⟩] := by
    decide +kernel
  obtain ⟨st₂, hreply, -⟩ := hquery _ hL (by decide)
  rw [hslice] at hreply
  exact ⟨st', outs', st₁', _, st₂, hrun, hexp, hL, by decide, hreply⟩

/-- The members of the set `z` in a store that was reached, at time zero. -/
def ReachedSet (st : Store) (L : List ZNode) : Prop :=
  ∃ evs outs st₁, run (storeStep strtodZero) {} evs = some (st, outs) ∧ expire 0 st = some st₁ ∧
    st₁.InOrder (bytes "z") L

/-- In a set of more than `2 ^ 33` members a query misses a member that is there. -/
theorem zquery_misses : ∃ st L name off offset st', ReachedSet st L ∧ str2int off = some offset ∧
    0 < slicePairs L .zero name offset 2 ∧
    execute strtodZero 0 0 [bytes "zquery", bytes "z", bytes "0", name, off, bytes "2"] st [] =
      some (st', (Value.arr []).encode) := by
  have hlen : 2 ^ 33 < ((List.range (2 ^ 33 + 1)).map (le 8)).length := by
    rw [List.length_map, List.length_range]
    omega
  obtain ⟨z, l, r, off, offset, htree, hok, -, hz, hoff, hbig, h₀, h₁⟩ :=
    exists_out_of_reach (nodup_names (by decide)) hlen
  obtain ⟨st, outs, st₁, m, hrun, hexp, h, hset, hL⟩ :=
    zaddAll_spec _ (List.ne_nil_of_length_pos (Nat.lt_of_le_of_lt (Nat.zero_le _) hlen))
  rw [htree] at hL hset
  obtain ⟨st', hreply⟩ := execute_zquery strtodZero h 0 hset str2dbl_zero z.name hoff
    (show str2int (bytes "2") = some 2 by decide) []
  rw [if_neg (by decide), ← hz, query_root_eq_nil hok hbig 2] at hreply
  refine ⟨st, _, z.name, off, offset, st', ⟨_, outs, st₁, hrun, hexp, hL⟩, hoff, ?_, hreply⟩
  rw [← length_sliceOf, ← rangeOf_eq (by decide), ← hz]
  exact List.length_pos_of_ne_nil (rangeOf_root_ne_nil hok h₀ h₁)

/-- A query that lists `2 ^ 31` members says that it lists nothing: the count of the array
wraps. -/
theorem zquery_count_wraps : ∃ st L st' o, ReachedSet st L ∧
    slicePairs L .zero [] 0 4294967296 = 2 ^ 31 ∧
    execute strtodZero 0 0 [bytes "zquery", bytes "z", bytes "0", [], bytes "0", bytes "4294967296"] st [] =
      some (st', o) ∧ (o.drop 1).take 4 = le 4 0 := by
  have hlen : ((List.range (2 ^ 31)).map (le 8)).length = 2 ^ 31 := by
    rw [List.length_map, List.length_range]
  obtain ⟨hok, -, hsize, hzero⟩ := foldl_add_spec ((List.range (2 ^ 31)).map (le 8)) ZTree.ok_nil
    scoresOf_empty (nodup_names (by decide)) (fun _ _ => rfl) (fun x hx => by cases hx)
  obtain ⟨st, outs, st₁, m, hrun, hexp, h, hset, hL⟩ :=
    zaddAll_spec ((List.range (2 ^ 31)).map (le 8)) (List.ne_nil_of_length_pos (by omega))
  generalize List.foldl (fun t n => ZTree.add t n .zero) nil ((List.range (2 ^ 31)).map (le 8)) = t
    at hok hsize hzero hset hL
  rw [numNodes, Nat.zero_add, hlen] at hsize
  obtain ⟨st', hreply⟩ := execute_zquery_slice strtodZero h 0 hset hok (by omega) str2dbl_zero []
    (show str2int (bytes "0") = some 0 by decide)
    (show str2int (bytes "4294967296") = some 4294967296 by decide +kernel) []
  -- no name is below the empty one
  have hbelow : countBelow t.inorder .zero [] = 0 := by
    rw [countBelow, List.countP_eq_zero]
    intro z hz
    rw [decide_eq_true_iff, ZNode.place, ZNode.place, hzero z hz, Prod.Lex.toLex_lt_toLex]
    simp
  have hpairs : slicePairs t.inorder .zero [] 0 4294967296 = 2 ^ 31 := by
    rw [slicePairs, hbelow, length_inorder, hsize]
    decide
  have hcount : (memberValues (sliceOf t.inorder .zero [] 0 4294967296)).length = 2 ^ 32 := by
    rw [length_memberValues, length_sliceOf, hpairs]
    rfl
  refine ⟨st, _, st', _, ⟨_, outs, st₁, hrun, hexp, hL⟩, hpairs, hreply, ?_⟩
  rw [List.nil_append, Value.encode, hcount, List.drop_one, List.tail_cons,
    List.take_append_of_le_length (by rw [length_le])]
  decide

/-- **Both limits of 32 bits can be seen**: the counters of the tree make a query miss a member,
and the count of the array wraps. -/
theorem zquery_limits :
    (∃ st L name off offset st', ReachedSet st L ∧ str2int off = some offset ∧
      0 < slicePairs L .zero name offset 2 ∧
      execute strtodZero 0 0 [bytes "zquery", bytes "z", bytes "0", name, off, bytes "2"] st [] =
        some (st', (Value.arr []).encode)) ∧
    ∃ st L st' o, ReachedSet st L ∧ slicePairs L .zero [] 0 4294967296 = 2 ^ 31 ∧
      execute strtodZero 0 0
          [bytes "zquery", bytes "z", bytes "0", [], bytes "0", bytes "4294967296"] st [] =
        some (st', o) ∧ (o.drop 1).take 4 = le 4 0 :=
  ⟨zquery_misses, zquery_count_wraps⟩

end ApexDB
