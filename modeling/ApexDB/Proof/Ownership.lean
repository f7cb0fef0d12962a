import ApexDB.Proof.Cluster

/-!
# A shard holds only keys that it owns

The proxy is not the only one who can talk to a shard, and a shard does not trust anybody: it
looks up the owner of the key itself. **Whatever commands it is sent, its keys are its own**
(`shardStep_owned`), because a command that can create a key acts on the key it is routed by
(`routing_of_key`). So the shards have no key in common, and the union that the proxy makes of
their replies lists no key twice.

The check is made only with more than one shard. A single shard owns every key, so there is
nothing to refuse.
-/

set_option autoImplicit false

namespace ApexDB

open Lib

variable {Z : Type} {rel : ZTree → Z → Prop}

/-! ## 1. One shard

Requests that are refused do not reach the store. Timers and workers only remove.
-/

/-- One event at a shard: a request from anybody, a pass of the timers, or a worker at work. -/
def shardStep (strtod : Bytes → StrtodResult) (shardId numShards : Nat) (st : Store) :
    StoreEvent → Option (Store × Bytes)
  | .execute now clk cmd => shardOnRequest strtod shardId numShards now clk st cmd []
  | ev => storeStep strtod st ev

def RefStore.Owned (numShards i : Nat) (m : RefStore Z) : Prop :=
  ∀ key, m.lookup key ≠ none → shardForKey key numShards = i

theorem Faded.owned {numShards i now : Nat} {m m' : RefStore Z} (h : Faded now m m')
    (hm : m.Owned numShards i) : m'.Owned numShards i := by
  intro key hkey
  rcases h key with heq | ⟨hnone, -⟩
  · apply hm
    rw [← heq]
    exact hkey
  · exact absurd hnone hkey

/-- A command that the shard does not refuse creates no key of another shard. -/
theorem refCommand_owned {R : Reading Z} {strtod : Bytes → StrtodResult} {clk numShards i : Nat}
    {m : RefStore Z} {cmd : List Bytes} (hN : 1 < numShards) (hown : rejects i numShards cmd = false)
    (hm : m.Owned numShards i) : (refCommand R strtod clk m (dispatch cmd)).1.Owned numShards i := by
  intro key hlookup
  by_cases hkey : (dispatch cmd).key? = some key
  · simpa [rejects, hN, routing_of_key hkey] using hown
  · apply hm
    rw [← refCommand_other R strtod clk hkey]
    exact hlookup

/-- **Every event leaves a shard with keys of its own.** -/
theorem shardStep_owned (strtod : Bytes → StrtodResult) {numShards i : Nat} (hN : 1 < numShards)
    {st : Store} {m : RefStore ZTree} (h : st.Models (· = ·) m) (hm : m.Owned numShards i)
    (ev : StoreEvent) : ∃ st' o m', shardStep strtod i numShards st ev = some (st', o) ∧
      st'.Models (· = ·) m' ∧ m'.Owned numShards i := by
  cases ev with
  | execute now clk cmd =>
    by_cases hown : rejects i numShards cmd
    · exact ⟨st, _, m, by rw [shardStep, shardOnRequest, if_pos hown], h, hm⟩
    · obtain ⟨st', v, hrun, -, h'⟩ := execute_spec treeReading_sound strtod h now clk cmd []
      refine ⟨st', [] ++ v.encode, _, ?_, h', ?_⟩
      · rw [shardStep, shardOnRequest, if_neg hown]
        exact hrun
      · exact refCommand_owned hN (Bool.eq_false_iff.mpr hown) ((faded_purge now m).owned hm)
  | processTimers now clk =>
    obtain ⟨st', hrun, m', h', hf, -⟩ := processTimers_spec h now
    exact ⟨st', [], m', by simp [shardStep, storeStep, hrun], h', hf.owned hm⟩
  | work =>
    obtain ⟨st', hrun, h'⟩ := work_spec h
    exact ⟨st', [], m, by simp [shardStep, storeStep, hrun], h', hm⟩

theorem shard_run_owned (strtod : Bytes → StrtodResult) {numShards i : Nat} (hN : 1 < numShards)
    (evs : List StoreEvent) {st : Store} {m : RefStore ZTree} (h : st.Models (· = ·) m)
    (hm : m.Owned numShards i) :
    ∃ st' outs, run (shardStep strtod i numShards) st evs = some (st', outs) ∧
      ∃ m', st'.Models (· = ·) m' ∧ m'.Owned numShards i := by
  refine run_inv (shardStep strtod i numShards) (fun st => ∃ m, st.Models (· = ·) m ∧ m.Owned numShards i) (fun _ => True) ?_ evs st
    (fun _ _ => trivial) ⟨m, h, hm⟩
  intro st ev _ hst
  obtain ⟨m, h, hm⟩ := hst
  obtain ⟨st', o, m', hstep, h', hm'⟩ := shardStep_owned strtod hN h hm ev
  exact ⟨st', o, hstep, m', h', hm'⟩

/-! ## 2. All shards

The shards are not asked at one moment: while the proxy waits for one, another one goes on.
Nothing of what it does can give it a key of the first.
-/

/-- **The keys that the proxy merges are listed once**, each shard asked when the proxy gets to
it. -/
theorem proxy_keys_nodup (strtod : Bytes → StrtodResult) {numShards : Nat} {s : Shards}
    {m : Nat → RefStore ZTree}
    (hs : ∀ i < numShards, (s.store i).Models (· = ·) (m i) ∧ (m i).Owned numShards i)
    (now clk : Nat → Nat) (out : Buffer) :
    ∃ s' w, proxyOnRequest numShards (fun i => intactRpc strtod numShards (now i) (clk i) i) s
        [bytes "keys"] out = some (s', out ++ w.encode) ∧
      (w.IsErr ∨ ∃ l, w = keysReply l ∧ l.Nodup) := by
  have heach : ∀ i, i < numShards → ∃ st l,
      execute strtod (now i) (clk i) [bytes "keys"] (s.store i) (le 4 0) =
        some (st, le 4 0 ++ (keysReply l).encode) ∧
      (l.Nodup ∧ ∀ key ∈ l, shardForKey key numShards = i) := by
    intro i hi
    obtain ⟨hmodels, hown⟩ := hs i hi
    obtain ⟨st, v, hexec, hv, -⟩ :=
      execute_spec treeReading_sound strtod hmodels (now i) (clk i) [bytes "keys"] (le 4 0)
    obtain ⟨l, rfl, hl, hkeys⟩ := hv
    refine ⟨st, l, hexec, hl, fun key hkey => ?_⟩
    apply (faded_purge (now i) (m i)).owned hown
    rw [← List.mem_toFinset, hkeys, Finmap.mem_keys] at hkey
    obtain ⟨re, hre⟩ := Finmap.mem_iff.mp hkey
    rw [hre]
    exact Option.some_ne_none _
  have : Nonempty Store := ⟨{ threads := 0 }⟩
  choose! st f hexec hf using heach
  have hgather := gather_eq (by decide) now clk st (fun i => (keysReply (f i)).encode)
    (List.range numShards) s List.nodup_range
    fun i hi => ⟨rejects_keys i numShards, hexec i (List.mem_range.mp hi)⟩
  simp only [bodyOf_encode] at hgather
  have hproxy : ∀ w : Value, (mergeKeyArrays ((List.range numShards).map fun i =>
      (sent (keysReply (f i))).encode) out).getD (outErr out .unknown (bytes "failed to merge keys")) =
        out ++ w.encode → ∃ s', proxyOnRequest numShards
          (fun i => intactRpc strtod numShards (now i) (clk i) i) s [bytes "keys"] out =
        some (s', out ++ w.encode) := by
    intro w hw
    rw [proxyOnRequest, if_neg (by decide), if_pos (by decide), hgather, Option.bind_eq_bind,
      Option.bind_some, ← hw]
    exact ⟨_, rfl⟩
  rw [mergeKeyArrays_sent] at hproxy
  split at hproxy
  · obtain ⟨s', hs'⟩ := hproxy _ rfl
    exact ⟨s', _, hs', .inr ⟨_, rfl, nodup_flatMap_of_owner hf⟩⟩
  · obtain ⟨s', hs'⟩ := hproxy (.ofErr .unknown "failed to merge keys") (outErr_eq out .unknown _)
    exact ⟨s', _, hs', .inl trivial⟩

/-- **Every shard holds only keys that it owns.** Each shard is sent any commands by anybody and
runs its timers and workers when it likes, at any readings of the clock. So no key is in two
shards, and the keys that the proxy merges, from shards asked one after the other, are listed
once. -/
theorem shard_ownership (strtod : Bytes → StrtodResult) (numShards : Nat) (hN : 1 < numShards)
    (threads : Nat → Nat) (evs : Nat → List StoreEvent) :
    ∃ store : Nat → Store,
      (∀ i, ∃ outs, run (shardStep strtod i numShards) { threads := threads i } (evs i) =
        some (store i, outs)) ∧
      (∀ i < numShards, ∀ key, (store i).HasKey key → shardForKey key numShards = i) ∧
      (∀ i < numShards, ∀ j < numShards, i ≠ j → ∀ key, ¬((store i).HasKey key ∧ (store j).HasKey key)) ∧
      ∀ (sent : List (Nat × List Bytes)) (now clk : Nat → Nat) (out : Buffer), ∃ (s' : Shards) (w : Value),
        proxyOnRequest numShards (fun i => intactRpc strtod numShards (now i) (clk i) i) ⟨store, sent⟩
          [bytes "keys"] out = some (s', out ++ w.encode) ∧
        (w.IsErr ∨ ∃ l : List Bytes, w = .arr (l.map .str) ∧ l.Nodup) := by
  have hrun : ∀ i, ∃ st outs, run (shardStep strtod i numShards) { threads := threads i } (evs i) =
      some (st, outs) ∧ ∃ m, st.Models (· = ·) m ∧ m.Owned numShards i := fun i =>
    shard_run_owned strtod hN (evs i) (Store.models_empty (threads i)) fun key hkey => absurd rfl hkey
  choose store outs hrun m hmodels hown using hrun
  have hkey : ∀ i key, (store i).HasKey key → shardForKey key numShards = i := by
    intro i key hkey
    exact hown i key (((hmodels i).hasKey_iff key).mp hkey)
  refine ⟨store, fun i => ⟨outs i, hrun i⟩, fun i _ => hkey i, ?_, ?_⟩
  · intro i _ j _ hij key hboth
    apply hij
    rw [← hkey i key hboth.1, hkey j key hboth.2]
  · intro sent now clk out
    exact proxy_keys_nodup strtod (fun i _ => ⟨hmodels i, hown i⟩) now clk out

/-- Two shards, each sent the same command by a client that does not know who owns the key. -/
theorem shard_ownership_two : 1 < 2 ∧ ∃ store : Nat → Store,
    (∀ i, ∃ outs, run (shardStep (fun _ => ⟨none, 0, false⟩) i 2) { threads := 4 }
      [.execute 1 1 [bytes "set", bytes "k", bytes "v"], .processTimers 2 2, .work] =
        some (store i, outs)) ∧
    ∀ i < 2, ∀ key, (store i).HasKey key → shardForKey key 2 = i := by
  obtain ⟨store, hrun, hkeys, -⟩ := shard_ownership (fun _ => ⟨none, 0, false⟩) 2 (by decide)
    (fun _ => 4) fun _ => [.execute 1 1 [bytes "set", bytes "k", bytes "v"], .processTimers 2 2, .work]
  exact ⟨by decide, store, hrun, hkeys⟩

end ApexDB
