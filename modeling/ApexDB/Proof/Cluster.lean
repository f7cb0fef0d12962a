import Mathlib.Algebra.Order.BigOperators.Group.List
import Mathlib.Algebra.Order.Group.Nat
import ApexDB.Cluster
import ApexDB.Proof.Sharding
import ApexDB.Proof.TcpRpc

/-!
# A cluster is a single store

Both sides follow one reference store: the single store as a whole, and shard `i` its slice of
it (`Shards.Follows`). A routed command is answered by the shard that owns its key, on a slice
that says the same about the key as the whole map; the other shards see nothing of it, and what
is due in them they will drop before their next command. The keys of the slices are the keys of
the map, once each, and the limit on a response is met by all of the parts and their union or by
the single response neither.

In this file every remote call succeeds. Calls that fail are the subject of `Proof/Faults.lean`.
-/

set_option autoImplicit false

namespace ApexDB

open Lib

/-! ## 1. Merging arrays of keys

The proxy reads the arrays of the shards and writes one array. It reads them as what they are,
bytes that came from somewhere else, so that an answer that is no array of strings makes it
answer with an error. The answer of a shard that follows its slice is such an array, unless it
was over the limit and the error for that stands in its place.
-/

abbrev keysReply (l : List Bytes) : Value := .arr (l.map .str)

/-- One string off the front, behind a head of any length. -/
theorem readKeys_succ (a k rest : Bytes) (n : Nat) (hk : k.length < 2 ^ 32) :
    readKeys (a ++ ((Value.str k).encode ++ rest)) (n + 1) a.length =
      (readKeys (a ++ ((Value.str k).encode ++ rest)) n (a ++ (Value.str k).encode).length).map
        fun r => (r.1, k :: r.2) := by
  have hlen : (a ++ ((Value.str k).encode ++ rest)).length =
      a.length + 5 + k.length + rest.length := by
    rw [List.length_append, List.length_append, length_encode_str]
    omega
  have htag : (a ++ ((Value.str k).encode ++ rest))[a.length]? = some Tag.str.byte := by
    rw [List.getElem?_append_right (Nat.le_refl _), Nat.sub_self, Value.encode]
    rfl
  have hsize : ((a ++ ((Value.str k).encode ++ rest)).drop (a.length + 1)).take 4 =
      le 4 k.length := by
    rw [← List.drop_drop, List.drop_left, Value.encode]
    simp only [List.cons_append, List.drop_succ_cons, List.drop_zero, List.append_assoc]
    exact List.take_left' (length_le 4 _)
  have htext : ((a ++ ((Value.str k).encode ++ rest)).drop (a.length + 5)).take k.length = k := by
    rw [← List.drop_drop, List.drop_left, Value.encode]
    simp only [List.cons_append, List.drop_succ_cons, List.append_assoc]
    rw [List.drop_left' (length_le 4 _), List.take_left]
  have hnext : (a ++ (Value.str k).encode).length = a.length + 5 + k.length := by
    rw [List.length_append, length_encode_str]
    omega
  rw [readKeys, if_neg (by rw [htag, hlen]; simp; omega), hsize,
    ofLe_le_of_lt (by simpa using hk)]
  dsimp only
  rw [if_neg (by omega), htext, hnext]
  cases readKeys (a ++ ((Value.str k).encode ++ rest)) n (a.length + 5 + k.length) with
  | none => rfl
  | some r => rfl

theorem readKeys_encodeAll : ∀ (l : List Bytes) (a : Bytes),
    (a ++ Value.encodeAll (l.map .str)).length < 2 ^ 32 →
    readKeys (a ++ Value.encodeAll (l.map .str)) l.length a.length =
      some ((a ++ Value.encodeAll (l.map .str)).length, l) := by
  intro l
  induction l with
  | nil =>
    intro a _
    rw [List.map_nil, Value.encodeAll, List.append_nil]
    rfl
  | cons k l ih =>
    intro a hlen
    rw [List.map_cons, Value.encodeAll] at hlen ⊢
    rw [List.length_cons, readKeys_succ a k _ _ (by simp [length_encode_str] at hlen; omega),
      ← List.append_assoc, ih (a ++ (Value.str k).encode) (by rwa [List.append_assoc])]
    rfl

/-- A reply to `keys` that is within the limit is read back; the error in its place is not. -/
theorem keyArray_sent (l : List Bytes) : keyArray (sent (keysReply l)).encode =
    if (keysReply l).encode.length ≤ kMaxMsg then some l else none := by
  unfold sent
  by_cases hfit : (keysReply l).encode.length ≤ kMaxMsg
  · rw [if_pos hfit, if_neg (by omega)]
    have hmax : kMaxMsg < 2 ^ 32 := by decide
    have hbody : (keysReply l).encode =
        (Tag.arr.byte :: le 4 l.length) ++ Value.encodeAll (l.map .str) := by
      rw [Value.encode, List.length_map]
      rfl
    have hcount := Value.length_le_encodeAll (l.map .str)
    rw [hbody] at hfit ⊢
    have hread := readKeys_encodeAll l (Tag.arr.byte :: le 4 l.length) (by omega)
    simp only [List.length_append, List.length_cons, length_le, List.length_map] at hfit hcount
    have hn : ofLe ((((Tag.arr.byte :: le 4 l.length) ++ Value.encodeAll (l.map .str)).drop 1).take 4) =
        l.length := by
      simp only [List.cons_append, List.drop_succ_cons, List.drop_zero]
      rw [List.take_left' (length_le 4 _), ofLe_le_of_lt (by omega)]
    rw [List.length_cons, length_le] at hread
    unfold keyArray
    rw [hn, hread, if_neg (by simp [length_le])]
    simp
  · rw [if_neg hfit, if_pos (by omega)]
    rfl

theorem foldl_outStr : ∀ (l : List Bytes) (out : Buffer),
    l.foldl outStr out = out ++ Value.encodeAll (l.map .str) := by
  intro l
  induction l with
  | nil =>
    intro out
    rw [List.map_nil, Value.encodeAll, List.append_nil]
    rfl
  | cons k l ih =>
    intro out
    rw [List.foldl_cons, ih, outStr_eq, List.map_cons, Value.encodeAll, List.append_assoc]

/-- **Bodies that are all read back are merged into one array.** -/
theorem mergeKeyArrays_eq {bodies : List Bytes} {ls : List (List Bytes)}
    (h : bodies.mapM keyArray = some ls) (out : Buffer) :
    mergeKeyArrays bodies out = some (out ++ (keysReply ls.flatten).encode) := by
  have hcount : outArr out (ls.flatten.length % 2 ^ 32) = outArr out ls.flatten.length := by
    rw [outArr, outArr, show (2 : Nat) ^ 32 = 256 ^ 4 from rfl, le_mod]
  have harr := outArr_eq out (ls.flatten.map Value.str)
  rw [List.length_map] at harr
  simp only [mergeKeyArrays, h, Option.bind_eq_bind, Option.bind_some]
  rw [hcount, foldl_outStr, harr]
  rfl

theorem mapM_keyArray (f : Nat → List Bytes) : ∀ ids : List Nat,
    (ids.map fun i => (sent (keysReply (f i))).encode).mapM keyArray =
      if ∀ i ∈ ids, (keysReply (f i)).encode.length ≤ kMaxMsg then some (ids.map f) else none := by
  intro ids
  induction ids with
  | nil => rfl
  | cons i ids ih =>
    rw [List.map_cons, List.mapM_cons, keyArray_sent, ih]
    simp only [List.forall_mem_cons]
    by_cases hi : (keysReply (f i)).encode.length ≤ kMaxMsg
    · by_cases hids : ∀ j ∈ ids, (keysReply (f j)).encode.length ≤ kMaxMsg
      · rw [if_pos hi, if_pos hids, if_pos ⟨hi, hids⟩]
        rfl
      · rw [if_pos hi, if_neg hids, if_neg fun h => hids h.2]
        rfl
    · rw [if_neg hi, if_neg (not_and_of_not_left _ hi)]
      rfl

/-- **What the proxy makes of the replies of its shards**: one array of all keys, or nothing if
one of the replies was too big. -/
theorem mergeKeyArrays_sent (f : Nat → List Bytes) (ids : List Nat) (out : Buffer) :
    mergeKeyArrays (ids.map fun i => (sent (keysReply (f i))).encode) out =
      if ∀ i ∈ ids, (keysReply (f i)).encode.length ≤ kMaxMsg then
        some (out ++ (keysReply (ids.flatMap f)).encode)
      else none := by
  have hall := mapM_keyArray f ids
  split
  · rename_i hfit
    rw [if_pos hfit] at hall
    rw [mergeKeyArrays_eq hall, List.flatMap_def]
  · rename_i hfit
    rw [if_neg hfit] at hall
    rw [mergeKeyArrays, hall]
    rfl

theorem length_keysReply (l : List Bytes) :
    (keysReply l).encode.length = 5 + (l.map fun k => 5 + k.length).sum := by
  have hall : (Value.encodeAll (l.map .str)).length = (l.map fun k => 5 + k.length).sum := by
    induction l with
    | nil => rfl
    | cons k l ih =>
      rw [List.map_cons, Value.encodeAll, List.length_append, length_encode_str, ih, List.map_cons,
        List.sum_cons]
  rw [Value.encode, List.length_cons, List.length_append, length_le, hall]
  omega

theorem length_keysReply_perm {l l' : List Bytes} (h : l.Perm l') :
    (keysReply l).encode.length = (keysReply l').encode.length := by
  rw [length_keysReply, length_keysReply, (h.map _).sum_eq]

theorem length_keysReply_sublist {l l' : List Bytes} (h : l.Sublist l') :
    (keysReply l).encode.length ≤ (keysReply l').encode.length := by
  rw [length_keysReply, length_keysReply]
  exact Nat.add_le_add_left ((h.map _).sum_le_sum (by simp)) 5

/-! ## 2. Reaching a shard

A request is encoded, goes to the shard, is parsed, checked for its owner and executed, and the
response is framed and comes back. Here each of these steps succeeds, and the result is that of
the store of the shard.
-/

section Rpc

variable {strtod : Bytes → StrtodResult} {numShards now clk : Nat} {s : Shards} {cmd : List Bytes}

theorem tcpRpc_writing (henc : encodeRequest cmd ≠ []) :
    tcpRpc true cmd = .writing (encodeRequest cmd) := by
  have hlen : (encodeRequest cmd).length < 4 ∨ kMaxMsg < (encodeRequest cmd).length - 4 → False := by
    rw [encodeRequest_eq] at henc ⊢
    split
    · rename_i hok
      rw [List.length_append, length_le]
      omega
    · rename_i hbad
      rw [if_neg hbad] at henc
      exact absurd rfl henc
  rw [tcpRpc, tcpRpcRaw, if_neg hlen, if_pos rfl]

/-- **What comes back from a shard is the frame of what its store wrote**, if the shard takes
the command. -/
theorem intactRpc_eq {i : Nat} (henc : encodeRequest cmd ≠ []) (hown : rejects i numShards cmd = false)
    {st : Store} {b : Bytes}
    (hexec : execute strtod now clk cmd (s.store i) (le 4 0) = some (st, le 4 0 ++ b)) :
    intactRpc strtod numShards now clk i s cmd =
      some (⟨Function.update s.store i st, s.sent ++ [(i, cmd)]⟩, some (frameOf b)) := by
  have hresp : respond (shardOnRequest strtod i numShards now clk) (s.store i) cmd [] =
      some (st, frameOf b) := by
    refine respond_spec [] ?_
    rw [shardOnRequest, if_neg (by simp [hown])]
    exact hexec
  rw [intactRpc, tcpRpc_writing henc]
  simp only [tryOneRequest_eq, cutRequest_encode henc]
  simp only [Conn.new, hresp]
  rfl

theorem shardBody_frameOf (b : Bytes) : shardBody (some (frameOf b)) = .ok (bodyOf b) := by
  rw [shardBody, extractResponseBody_frameOf]

/-- **The loop over the shards**, when each of them answers, at readings of the clock of its
own. -/
theorem gather_eq (henc : encodeRequest cmd ≠ []) (now clk : Nat → Nat) (st : Nat → Store)
    (b : Nat → Bytes) : ∀ (ids : List Nat) (s : Shards), ids.Nodup →
    (∀ i ∈ ids, rejects i numShards cmd = false ∧
      execute strtod (now i) (clk i) cmd (s.store i) (le 4 0) = some (st i, le 4 0 ++ b i)) →
    gather (fun i => intactRpc strtod numShards (now i) (clk i) i) cmd ids s =
      some (⟨fun i => if i ∈ ids then st i else s.store i, s.sent ++ ids.map (·, cmd)⟩,
        .ok (ids.map fun i => bodyOf (b i))) := by
  intro ids
  induction ids with
  | nil =>
    intro s _ _
    simp [gather]
  | cons i ids ih =>
    intro s hnodup hids
    obtain ⟨hi, hnodup⟩ := List.nodup_cons.mp hnodup
    obtain ⟨hown, hexec⟩ := hids i List.mem_cons_self
    -- the shards still to come are as they were
    have hrest := ih ⟨Function.update s.store i (st i), s.sent ++ [(i, cmd)]⟩ hnodup fun j hj => by
      have hne : j ≠ i := fun h => hi (h ▸ hj)
      dsimp only
      rw [Function.update_of_ne hne]
      exact hids j (List.mem_cons_of_mem _ hj)
    simp only [gather, intactRpc_eq henc hown hexec, Option.bind_eq_bind, Option.bind_some,
      shardBody_frameOf, hrest]
    refine congrArg some (Prod.ext ?_ rfl)
    simp only [List.append_assoc, List.map_cons, List.singleton_append, Shards.mk.injEq, and_true]
    funext j
    by_cases hj : j = i
    · subst hj
      simp [hi]
    · simp [hj]

end Rpc

/-! ## 3. One request

A command that is routed concerns one slice, and one that is not concerns all of them. In both
cases the reference makes one step on the whole map.
-/

/-- **Every shard follows its slice of the reference**, entries that are due aside: a shard
drops those only when it is asked, or by its timers. -/
def Shards.Follows (numShards : Nat) (s : Shards) (t : RefState ZTree) : Prop :=
  ∀ i < numShards, (s.store i).Follows (· = ·) ⟨t.map.slice numShards i, t.clock⟩

/-- Time passes for a store that is not asked. It drops what is due before its next command, so
it follows the reference at the later time too. -/
theorem Store.Follows.wait {st : Store} {m : RefStore ZTree} {t now clk : Nat}
    (h : st.Follows (· = ·) ⟨m, t⟩) (hnow : t ≤ now) (hclk : now ≤ clk) :
    st.Follows (· = ·) ⟨m.purge now, clk⟩ := by
  obtain ⟨m', h, hf⟩ := h
  refine ⟨m', h, ?_⟩
  rw [purge_eq_mono (Nat.le_trans hnow hclk) hf]
  exact ((faded_purge now m).mono hclk).purge_eq.symm

/-- Two replies to one request: the same value, two errors, or the same keys in some order. -/
def Agree (cmd : List Bytes) (v w : Value) : Prop :=
  v = w ∨ (v.IsErr ∧ w.IsErr) ∨
    cmd = [bytes "keys"] ∧ ∃ l l' : List Bytes, l.Perm l' ∧ v = keysReply l ∧ w = keysReply l'

theorem sent_sent (v : Value) : sent (sent v) = sent v := by
  have hlen := length_bodyOf v.encode
  rw [bodyOf_encode] at hlen
  rw [sent.eq_1 (sent v), if_neg (by omega)]

/-- A command on a key has one right answer. -/
theorem refCommand_one (strtod : Bytes → StrtodResult) (clk : Nat) (m : RefStore ZTree) {cmd : Command}
    (hkeys : cmd ≠ .keys) {v w : Value} (hv : (refCommand treeReading strtod clk m cmd).2.Admits v)
    (hw : (refCommand treeReading strtod clk m cmd).2.Admits w) : v = w := by
  have hshallow := refCommand_shallow strtod clk m cmd
  cases hx : (refCommand treeReading strtod clk m cmd).2 with
  | value u =>
    rw [hx] at hv hw
    exact Eq.trans hv (Eq.symm hw)
  | valueIf p u =>
    rw [hx] at hv hw hshallow
    exact (hv.1 hshallow.1).trans (hw.1 hshallow.1).symm
  | keys ks =>
    cases cmd with
    | keys => exact absurd rfl hkeys
    | _ =>
      simp only [refCommand, refIncr, refExpire, refZadd, refZrem, refZscore, refZquery] at hx
      repeat' split at hx
      all_goals cases hx

theorem rejects_keys (i numShards : Nat) : rejects i numShards [bytes "keys"] = false := by
  rw [rejects, show routingKeyForCommand [bytes "keys"] = none from rfl, Bool.and_false]

section Request

variable (strtod : Bytes → StrtodResult) {numShards now clk : Nat} {s : Shards} {t : RefState ZTree}
  {cmd : List Bytes}

/-- **A routed command**: the shard that owns the key answers for the whole store. -/
theorem routed_spec (hN : 0 < numShards) (hs : s.Follows numShards t) (hnow : t.clock ≤ now)
    (hclk : now ≤ clk) (henc : encodeRequest cmd ≠ []) {key : Bytes}
    (hkey : routingKeyForCommand cmd = some key) :
    ∃ s' v, intactRpc strtod numShards now clk (shardForKey key numShards) s cmd =
        some (s', some (frameOf v.encode)) ∧
      s'.Follows numShards
        ⟨(refCommand treeReading strtod clk (t.map.purge now) (dispatch cmd)).1, clk⟩ ∧
      (refCommand treeReading strtod clk (t.map.purge now) (dispatch cmd)).2.Admits v ∧
      s'.sent = s.sent ++ [(shardForKey key numShards, cmd)] ∧ shardForKey key numShards < numShards ∧
      rejects (shardForKey key numShards) numShards cmd = false := by
  generalize hi : shardForKey key numShards = i
  have hlt : i < numShards := by
    rw [← hi, shardForKey, if_neg (by omega)]
    exact Nat.mod_lt _ hN
  have hown : rejects i numShards cmd = false := by
    simp [rejects, hkey, hi]
  obtain ⟨st', v, hexec, hv, h'⟩ :=
    (hs i hlt).execute treeReading_sound strtod hnow clk cmd (le 4 0)
  dsimp only at hv h'
  rw [RefStore.purge_slice] at hv h'
  obtain ⟨hslice, hothers⟩ := refCommand_routed treeReading strtod clk (m := t.map.purge now) hkey hi
  rw [hslice] at hv h'
  refine ⟨_, v, intactRpc_eq henc hown hexec, fun j hj => ?_, hv, rfl, hlt, hown⟩
  dsimp only
  by_cases hji : j = i
  · rw [hji, Function.update_self]
    exact h'
  · rw [Function.update_of_ne hji, hothers j hji, ← RefStore.purge_slice]
    exact (hs j hj).wait hnow hclk

/-- **`keys`**: every shard lists its slice. What is due in it is gone before, and the order is
that of its own tables. -/
theorem scatter_spec (clk : Nat) (hs : s.Follows numShards t) (hnow : t.clock ≤ now) :
    ∃ (f : Nat → List Bytes) (s' : Shards),
      gather (intactRpc strtod numShards now clk) [bytes "keys"] (List.range numShards) s =
        some (s', .ok ((List.range numShards).map fun i => (sent (keysReply (f i))).encode)) ∧
      s'.Follows numShards ⟨t.map.purge now, clk⟩ ∧
      (∀ i < numShards, (f i).Nodup ∧ (f i).toFinset = ((t.map.purge now).slice numShards i).keys) ∧
      s'.sent = s.sent ++ (List.range numShards).map (·, [bytes "keys"]) := by
  have heach : ∀ i, i < numShards → ∃ st l,
      execute strtod now clk [bytes "keys"] (s.store i) (le 4 0) =
        some (st, le 4 0 ++ (keysReply l).encode) ∧
      (l.Nodup ∧ l.toFinset = ((t.map.purge now).slice numShards i).keys) ∧
      st.Follows (· = ·) ⟨(t.map.purge now).slice numShards i, clk⟩ := by
    intro i hi
    obtain ⟨st, v, hexec, hv, h'⟩ :=
      (hs i hi).execute treeReading_sound strtod hnow clk [bytes "keys"] (le 4 0)
    dsimp only at hv h'
    rw [RefStore.purge_slice, show dispatch [bytes "keys"] = .keys from rfl] at hv h'
    obtain ⟨l, rfl, hl⟩ := hv
    exact ⟨st, l, hexec, hl, h'⟩
  have : Nonempty Store := ⟨{ threads := 0 }⟩
  choose! st f hexec hf hfollows using heach
  have hgather := gather_eq (by decide) (fun _ => now) (fun _ => clk) st (fun i => (keysReply (f i)).encode) (List.range numShards) s
    List.nodup_range fun i hi => ⟨rejects_keys i numShards, hexec i (List.mem_range.mp hi)⟩
  simp only [bodyOf_encode] at hgather
  refine ⟨f, _, hgather, fun i hi => ?_, hf, rfl⟩
  dsimp only
  rw [if_pos (List.mem_range.mpr hi)]
  exact hfollows i hi

/-- Lists of keys with different owners have no key in common. -/
theorem nodup_flatMap_of_owner {f : Nat → List Bytes}
    (hf : ∀ i < numShards, (f i).Nodup ∧ ∀ key ∈ f i, shardForKey key numShards = i) :
    ((List.range numShards).flatMap f).Nodup := by
  rw [List.nodup_flatMap]
  refine ⟨fun i hi => (hf i (List.mem_range.mp hi)).1, ?_⟩
  refine List.Pairwise.imp_of_mem (fun {i j} hi hj hne => ?_) List.nodup_range
  intro key hki hkj
  apply hne
  rw [← (hf i (List.mem_range.mp hi)).2 key hki, (hf j (List.mem_range.mp hj)).2 key hkj]

/-- The slices list every key once. -/
theorem flatMap_slices_perm {Z : Type} (hN : 0 < numShards) {m : RefStore Z} {f : Nat → List Bytes}
    (hf : ∀ i < numShards, (f i).Nodup ∧ (f i).toFinset = (m.slice numShards i).keys) {l : List Bytes}
    (hl : l.Nodup) (hkeys : l.toFinset = m.keys) : l.Perm ((List.range numShards).flatMap f) := by
  have hmem : ∀ i < numShards, ∀ key, key ∈ f i ↔ shardForKey key numShards = i ∧ key ∈ m := by
    intro i hi key
    rw [← List.mem_toFinset, (hf i hi).2, Finmap.mem_keys, Finmap.mem_iff, Finmap.mem_iff,
      RefStore.lookup_slice]
    by_cases h : shardForKey key numShards = i
    · simp [h]
    · simp [h]
  have hnodup : ((List.range numShards).flatMap f).Nodup :=
    nodup_flatMap_of_owner fun i hi => ⟨(hf i hi).1, fun key hkey => ((hmem i hi key).mp hkey).1⟩
  rw [List.perm_ext_iff_of_nodup hl hnodup]
  intro key
  rw [← List.mem_toFinset, hkeys, Finmap.mem_keys, List.mem_flatMap]
  constructor
  · intro hkey
    have hlt : shardForKey key numShards < numShards := by
      rw [shardForKey, if_neg (by omega)]
      exact Nat.mod_lt _ hN
    exact ⟨_, List.mem_range.mpr hlt, (hmem _ hlt key).mpr ⟨rfl, hkey⟩⟩
  · rintro ⟨i, hi, hkey⟩
    exact ((hmem i (List.mem_range.mp hi) key).mp hkey).2

/-- What the proxy makes of the arrays agrees with the one array of a single store, the limit on
responses included. -/
theorem merge_agree (numShards : Nat) (f : Nat → List Bytes) (out : Buffer) :
    ∃ w : Value, (mergeKeyArrays ((List.range numShards).map fun i => (sent (keysReply (f i))).encode)
        out).getD (outErr out .unknown (bytes "failed to merge keys")) = out ++ w.encode ∧
      ∀ l, l.Perm ((List.range numShards).flatMap f) →
        Agree [bytes "keys"] (sent (keysReply l)) (sent w) := by
  rw [mergeKeyArrays_sent]
  split
  · refine ⟨keysReply ((List.range numShards).flatMap f), rfl, fun l hperm => ?_⟩
    rw [sent, sent, length_keysReply_perm hperm]
    split
    · exact .inl rfl
    · exact .inr (.inr ⟨rfl, l, _, hperm, rfl, rfl⟩)
  · rename_i hfit
    refine ⟨.ofErr .unknown "failed to merge keys", outErr_eq out .unknown _,
      fun l hperm => .inr (.inl ⟨?_, trivial⟩)⟩
    -- a part that is too big makes the whole too big
    push Not at hfit
    obtain ⟨i, hi, hbig⟩ := hfit
    have hpart := length_keysReply_sublist
      (List.sublist_flatten_of_mem (List.mem_map_of_mem (f := f) hi))
    rw [← List.flatMap_def, ← length_keysReply_perm hperm] at hpart
    rw [sent, if_pos (by omega)]
    trivial

/-- **The proxy answers a request as the reference does**, and no shard refuses what it is sent.
-/
theorem proxy_spec (hN : 0 < numShards) (hs : s.Follows numShards t) (hnow : t.clock ≤ now)
    (hclk : now ≤ clk) (henc : encodeRequest cmd ≠ []) (out : Buffer) :
    ∃ s' w, proxyOnRequest numShards (intactRpc strtod numShards now clk) s cmd out =
        some (s', out ++ w.encode) ∧
      s'.Follows numShards
        ⟨(refCommand treeReading strtod clk (t.map.purge now) (dispatch cmd)).1, clk⟩ ∧
      (∀ v, (refCommand treeReading strtod clk (t.map.purge now) (dispatch cmd)).2.Admits v →
        Agree cmd (sent v) (sent w)) ∧
      ∀ p ∈ s'.sent, p ∈ s.sent ∨ p.1 < numShards ∧ rejects p.1 numShards p.2 = false := by
  -- a command that is not sent leaves the shards to wait
  have hwait : s.Follows numShards ⟨t.map.purge now, clk⟩ := by
    intro i hi
    dsimp only
    rw [← RefStore.purge_slice]
    exact (hs i hi).wait hnow hclk
  unfold proxyOnRequest
  by_cases hping : (cmd.length = 1 ∨ cmd.length = 2) ∧ cmd[0]? = some (bytes "ping")
  · rw [if_pos hping, dispatch_ping hping]
    refine ⟨s, .str (cmd[1]?.getD (bytes "PONG")), by rw [outStr_eq], hwait, ?_, fun p hp => .inl hp⟩
    rintro v rfl
    exact .inl rfl
  rw [if_neg hping]
  by_cases hkeys : isScatterGatherCommand cmd = true
  · obtain rfl := eq_keys_of_scatter hkeys
    obtain ⟨f, s', hgather, hs', hf, hsent⟩ := scatter_spec strtod clk hs hnow
    rw [if_pos hkeys, hgather]
    obtain ⟨w, hw, hagree⟩ := merge_agree numShards f out
    refine ⟨s', w, ?_, hs', ?_, fun p hp => ?_⟩
    · rw [Option.bind_eq_bind, Option.bind_some, ← hw]
      rfl
    · rintro v ⟨l, rfl, hl, hlkeys⟩
      exact hagree l (flatMap_slices_perm hN hf hl hlkeys)
    · rw [hsent, List.mem_append, List.mem_map] at hp
      rcases hp with hp | ⟨i, hi, rfl⟩
      · exact .inl hp
      · exact .inr ⟨List.mem_range.mp hi, rejects_keys i numShards⟩
  rw [if_neg hkeys]
  cases hkey : routingKeyForCommand cmd with
  | none =>
    rw [dispatch_unrouted hkey hping (Bool.eq_false_iff.mpr hkeys)]
    refine ⟨s, .ofErr .unknown "cannot route command", by dsimp only; rw [outErr_eq], hwait, ?_,
      fun p hp => .inl hp⟩
    rintro v rfl
    exact .inr (.inl ⟨trivial, trivial⟩)
  | some key =>
    obtain ⟨s', v, hrpc, hs', hv, hsent, hlt, hown⟩ :=
      routed_spec strtod hN hs hnow hclk henc hkey
    refine ⟨s', sent v, ?_, hs', fun v' hv' => ?_, fun p hp => ?_⟩
    · simp only [hrpc, Option.bind_eq_bind, Option.bind_some, shardBody_frameOf, bodyOf_encode]
      rfl
    · have hne : dispatch cmd ≠ .keys := by
        rcases dispatch_routed hkey with hc | hc
        · intro he
          rw [he] at hc
          cases hc
        · rw [hc]
          exact nofun
      rw [refCommand_one strtod clk _ hne hv' hv, sent_sent]
      exact .inl rfl
    · rw [hsent, List.mem_append, List.mem_singleton] at hp
      rcases hp with hp | rfl
      · exact .inl hp
      · exact .inr ⟨hlt, hown⟩

end Request

/-! ## 4. Whole runs

The timers and the pool of every store run by themselves, at any time between two requests.
Neither changes what a store follows.
-/

/-- The clock does not go back, timers never look ahead of it, every request is one that
`parse_req` accepts, and there are only so many shards. -/
def ClusterLegal (numShards : Nat) : Nat → List ClusterEvent → Prop
  | _, [] => True
  | t, .request now clk cmd :: evs =>
    (t ≤ now ∧ now ≤ clk ∧ ∃ body, parseReq body = some cmd) ∧ ClusterLegal numShards clk evs
  | t, .processTimers node now clk :: evs =>
    (t ≤ clk ∧ now ≤ clk ∧ ∀ i ∈ node, i < numShards) ∧ ClusterLegal numShards clk evs
  | t, .work node :: evs => (∀ i ∈ node, i < numShards) ∧ ClusterLegal numShards t evs

/-- The single store, the shards and the reference, and nothing sent that was refused. -/
structure Cluster.Follows (numShards : Nat) (c : Cluster) (t : RefState ZTree) : Prop where
  single : c.single.Follows (· = ·) t
  shards : c.shards.Follows numShards t
  accepted : ∀ p ∈ c.shards.sent, p.1 < numShards ∧ rejects p.1 numShards p.2 = false

def RefState.atNode (numShards : Nat) (t : RefState ZTree) : Option Nat → RefState ZTree
  | none => t
  | some i => ⟨t.map.slice numShards i, t.clock⟩

theorem Cluster.Follows.store {numShards : Nat} {c : Cluster} {t : RefState ZTree}
    (h : c.Follows numShards t) {node : Option Nat} (hnode : ∀ i ∈ node, i < numShards) :
    (c.store node).Follows (· = ·) (t.atNode numShards node) := by
  cases node with
  | none => exact h.single
  | some i => exact h.shards i (hnode i rfl)

theorem Cluster.Follows.update {numShards : Nat} {c : Cluster} {t : RefState ZTree}
    (h : c.Follows numShards t) {node : Option Nat} {st : Store} {clk : Nat} (hclk : t.clock ≤ clk)
    (hst : st.Follows (· = ·) (RefState.atNode numShards ⟨t.map, clk⟩ node)) :
    (c.update st node).Follows numShards ⟨t.map, clk⟩ := by
  cases node with
  | none => exact ⟨hst, fun i hi => (h.shards i hi).later hclk, h.accepted⟩
  | some i =>
    refine ⟨h.single.later hclk, fun j hj => ?_, h.accepted⟩
    simp only [Cluster.update]
    by_cases hji : j = i
    · rw [hji, Function.update_self]
      exact hst
    · rw [Function.update_of_ne hji]
      exact (h.shards j hj).later hclk

/-- Two replies within the limit that agree. -/
def Answered : ClusterEvent → Option (Bytes × Bytes) → Prop
  | .request _ _ cmd, o => ∃ v w : Value,
      o = some (le 4 v.encode.length ++ v.encode, le 4 w.encode.length ++ w.encode) ∧
      v.encode.length ≤ kMaxMsg ∧ w.encode.length ≤ kMaxMsg ∧ Agree cmd v w ∧ (v.IsErr ↔ w.IsErr)
  | .processTimers _ _ _, o => o = none
  | .work _, o => o = none

theorem Agree.isErr_iff {cmd : List Bytes} {v w : Value} (h : Agree cmd v w) : v.IsErr ↔ w.IsErr := by
  rcases h with rfl | ⟨hv, hw⟩ | ⟨-, l, l', -, rfl, rfl⟩
  · exact Iff.rfl
  · exact iff_of_true hv hw
  · exact Iff.rfl

/-- A request to both: what the two answer, by the reference. -/
theorem Cluster.step_values (strtod : Bytes → StrtodResult) {numShards now clk : Nat} {c : Cluster}
    {t : RefState ZTree} {cmd : List Bytes} (hN : 0 < numShards) (h : c.Follows numShards t)
    (hnow : t.clock ≤ now) (hclk : now ≤ clk) (hcmd : ∃ body, parseReq body = some cmd) :
    ∃ c' v w, c.step strtod numShards (.request now clk cmd) =
        some (c', some (frameOf v.encode, frameOf w.encode)) ∧
      (refCommand treeReading strtod clk (t.map.purge now) (dispatch cmd)).2.Admits v ∧
      Agree cmd (sent v) (sent w) ∧ c'.Follows numShards
        ⟨(refCommand treeReading strtod clk (t.map.purge now) (dispatch cmd)).1, clk⟩ := by
  obtain ⟨body, hbody⟩ := hcmd
  have henc : encodeRequest cmd ≠ [] := by
    obtain ⟨hb, hmax, hargs⟩ := parseReq_iff.mp hbody
    rw [encodeRequest_eq, if_pos ⟨hargs, hb ▸ hmax⟩]
    exact fun he => absurd (congrArg List.length he) (by simp [length_le])
  obtain ⟨st, v, hexec, hv, hst⟩ := h.single.execute treeReading_sound strtod hnow clk cmd (le 4 0)
  obtain ⟨s', w, hproxy, hs', hagree, hsent⟩ := proxy_spec strtod hN h.shards hnow hclk henc (le 4 0)
  refine ⟨⟨st, s'⟩, v, w, ?_, hv, hagree v hv, hst, hs', fun p hp => ?_⟩
  · have hone : respond (serverOnRequest strtod now clk) c.single cmd [] = some (st, frameOf v.encode) :=
      respond_spec [] hexec
    have htwo : respond (proxyOnRequest numShards (intactRpc strtod numShards now clk)) c.shards cmd [] =
        some (s', frameOf w.encode) := respond_spec [] hproxy
    simp only [Cluster.step, hone, htwo, Option.bind_eq_bind, Option.bind_some]
    rfl
  · exact (hsent p hp).elim (h.accepted p) id

/-- The reference after an event: timers and workers are not seen in it. -/
def ClusterEvent.next (strtod : Bytes → StrtodResult) (t : RefState ZTree) : ClusterEvent → RefState ZTree
  | .request now clk cmd =>
    ⟨(refCommand treeReading strtod clk (t.map.purge now) (dispatch cmd)).1, clk⟩
  | .processTimers _ _ clk => ⟨t.map, clk⟩
  | .work _ => t

/-- **One event is followed by both**, the single store and the cluster, and what they answer to
a request agrees. -/
theorem Cluster.step_follows (strtod : Bytes → StrtodResult) {numShards : Nat} (hN : 0 < numShards)
    {ev : ClusterEvent} {evs : List ClusterEvent} {c : Cluster} {t : RefState ZTree}
    (h : c.Follows numShards t) (hlegal : ClusterLegal numShards t.clock (ev :: evs)) :
    ∃ c' o, c.step strtod numShards ev = some (c', o) ∧ Answered ev o ∧
      c'.Follows numShards (ev.next strtod t) ∧
      ClusterLegal numShards (ev.next strtod t).clock evs := by
  cases ev with
  | request now clk cmd =>
    obtain ⟨⟨hnow, hclk, hcmd⟩, hlegal⟩ := hlegal
    obtain ⟨c', v, w, hstep, -, hagree, h'⟩ := Cluster.step_values strtod hN h hnow hclk hcmd
    have hlen : ∀ u : Value, (sent u).encode.length ≤ kMaxMsg := fun u => by
      rw [← bodyOf_encode]
      exact length_bodyOf _
    refine ⟨c', _, hstep, ⟨sent v, sent w, ?_, hlen v, hlen w, hagree, hagree.isErr_iff⟩, h', hlegal⟩
    rw [frameOf, frameOf, bodyOf_encode, bodyOf_encode]
  | processTimers node now clk =>
    obtain ⟨⟨hclk, hnow, hnode⟩, hlegal⟩ := hlegal
    have hclk' : (t.atNode numShards node).clock ≤ clk := by cases node <;> exact hclk
    obtain ⟨st, hrun, hst⟩ := (h.store hnode).processTimers hclk' hnow
    refine ⟨c.update st node, none, by simp [Cluster.step, hrun], rfl, ?_, hlegal⟩
    exact h.update hclk (by cases node <;> exact hst)
  | work node =>
    obtain ⟨hnode, hlegal⟩ := hlegal
    obtain ⟨st, hrun, hst⟩ := (h.store hnode).work
    exact ⟨c.update st node, none, by simp [Cluster.step, hrun], rfl,
      h.update (Nat.le_refl _) hst, hlegal⟩

/-- **A run is followed by both**, and what may come after it may come after the reference. -/
theorem Cluster.run_follows (strtod : Bytes → StrtodResult) {numShards : Nat} (hN : 0 < numShards)
    {rest : List ClusterEvent} :
    ∀ (evs : List ClusterEvent) {c : Cluster} {t : RefState ZTree}, c.Follows numShards t →
      ClusterLegal numShards t.clock (evs ++ rest) →
      ∃ c' outs, run (Cluster.step strtod numShards) c evs = some (c', outs) ∧
        List.Forall₂ Answered evs outs ∧
        c'.Follows numShards (evs.foldl (ClusterEvent.next strtod) t) ∧
        ClusterLegal numShards (evs.foldl (ClusterEvent.next strtod) t).clock rest := by
  intro evs
  induction evs with
  | nil => intro c t h hlegal; exact ⟨c, [], rfl, .nil, h, hlegal⟩
  | cons ev evs ih =>
    intro c t h hlegal
    obtain ⟨c₁, o, hstep, ho, h₁, hlegal₁⟩ := Cluster.step_follows strtod hN h hlegal
    obtain ⟨c₂, outs, hrun, houts, h₂, hrest⟩ := ih h₁ hlegal₁
    exact ⟨c₂, o :: outs, by simp [run, hstep, hrun], .cons ho houts, h₂, hrest⟩

theorem Cluster.follows_empty (numShards threads : Nat) (shardThreads : Nat → Nat) :
    Cluster.Follows numShards
      ⟨{ threads := threads }, ⟨fun i => { threads := shardThreads i }, []⟩⟩ ⟨∅, 0⟩ :=
  ⟨Store.follows_empty threads, fun i _ => Store.follows_empty (shardThreads i), nofun⟩

/-- **A cluster is a single store.** Any number of shards behind a proxy, and a single store,
given the same requests at the same readings of a clock that does not go back: the two replies
to every request are one value, or both are errors, or list the same keys. No shard refuses what
the proxy sends it. -/
theorem cluster_equals_single (strtod : Bytes → StrtodResult) (numShards : Nat) (hN : 1 ≤ numShards)
    (threads : Nat) (shardThreads : Nat → Nat) (evs : List ClusterEvent)
    (hlegal : ClusterLegal numShards 0 evs) :
    ∃ c outs, run (Cluster.step strtod numShards)
        ⟨{ threads := threads }, ⟨fun i => { threads := shardThreads i }, []⟩⟩ evs = some (c, outs) ∧
      List.Forall₂ Answered evs outs ∧
      ∀ p ∈ c.shards.sent, p.1 < numShards ∧ rejects p.1 numShards p.2 = false := by
  rw [← List.append_nil evs] at hlegal
  obtain ⟨c, outs, hrun, houts, h, -⟩ := Cluster.run_follows strtod hN evs
    (Cluster.follows_empty numShards threads shardThreads) hlegal
  exact ⟨c, outs, hrun, houts, h.accepted⟩

/-- Three shards: a key is set, given a deadline, listed and gone, and a command nobody knows.
-/
def threeShardsRun : List ClusterEvent :=
  [.request 5 5 [bytes "set", bytes "k", bytes "v"], .processTimers (some 1) 6 6,
    .request 6 7 [bytes "pexpire", bytes "k", bytes "10"], .request 8 8 [bytes "keys"], .work none,
    .request 20 20 [bytes "get", bytes "k"], .request 21 21 [bytes "bogus", bytes "k"]]

theorem cluster_equals_single_three : 1 ≤ 3 ∧ ClusterLegal 3 0 threeShardsRun ∧
    ∃ c outs, run (Cluster.step (fun _ => ⟨none, 0, false⟩) 3)
        ⟨{ threads := 4 }, ⟨fun _ => { threads := 4 }, []⟩⟩ threeShardsRun = some (c, outs) ∧
      List.Forall₂ Answered threeShardsRun outs ∧
      ∀ p ∈ c.shards.sent, p.1 < 3 ∧ rejects p.1 3 p.2 = false := by
  have hparse : ∀ cmd : List Bytes, (requestBody cmd).length ≤ kMaxMsg ∧ cmd.length ≤ kMaxArgs →
      ∃ body, parseReq body = some cmd := fun cmd h => ⟨_, parseReq_iff.mpr ⟨rfl, h⟩⟩
  have hlegal : ClusterLegal 3 0 threeShardsRun := by
    refine ⟨⟨by decide, by decide, hparse _ (by decide)⟩, ⟨by decide, by decide, by simp⟩,
      ⟨by decide, by decide, hparse _ (by decide)⟩, ⟨by decide, by decide, hparse _ (by decide)⟩,
      by simp, ⟨by decide, by decide, hparse _ (by decide)⟩,
      ⟨by decide, by decide, hparse _ (by decide)⟩, trivial⟩
  exact ⟨by decide, hlegal, cluster_equals_single _ 3 (by decide) 4 (fun _ => 4) _ hlegal⟩

end ApexDB
