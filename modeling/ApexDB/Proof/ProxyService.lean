import ApexDB.ProxyLoop
import ApexDB.Proof.Cluster
import ApexDB.Proof.Service

/-!
# The proxy and its shards are the reference store, asked by many

The proxy runs the same event loop as a node, so its clients share one order of requests too
(`OneOrder.lean`); and a request to the proxy is a request to one reference store of which every
shard keeps its slice. Put together: **clients of a sharded cluster see what clients of one
store see**, up to the text of an error and the order of `keys`.

`Cluster.lean` compares a cluster with a single store that is given the same requests, and has
to read the clock for both at once. Here there is nothing beside the cluster, and every shard
keeps a clock of its own: the one store is that of `Spec/Service.lean`, in which a key is due by
the clock of its owner. A call to shard `i` is followed in the slice `i` of the map and leaves
the other slices as they are (`servedRpc_spec`); from there a routed command is one call, and
`keys` an induction over the shards (`gather_keys`), in which the slices listed so far stay what
they were while the rest is asked.
-/

set_option autoImplicit false

namespace ApexDB

open Lib

/-! ## 1. The proxy returns

For any way of reaching the shards, so that the handler of the proxy can be put into the event
loop. Whether a call succeeds makes no difference to that.
-/

section Proxy

variable {τ : Type}

theorem mergeKeyArrays_append (bodies : List Bytes) (out : Buffer) :
    mergeKeyArrays bodies out = (mergeKeyArrays bodies []).map (out ++ ·) := by
  have hfold : ∀ (keys : List Bytes) (a b : Buffer), keys.foldl outStr (a ++ b) = a ++ keys.foldl outStr b := by
    intro keys
    induction keys with
    | nil => exact fun _ _ => rfl
    | cons key keys ih =>
      intro a b
      rw [List.foldl_cons, List.foldl_cons, outStr_eq, List.append_assoc, ← outStr_eq, ih]
  unfold mergeKeyArrays
  cases bodies.mapM keyArray with
  | none => rfl
  | some keys =>
    have harr : outArr out (keys.flatten.length % 2 ^ 32) = out ++ outArr [] (keys.flatten.length % 2 ^ 32) := by
      simp [outArr]
    simp only [Option.bind_eq_bind, Option.bind_some]
    rw [harr, hfold]
    rfl

/-- **`on_request` of the proxy only appends**, however the shards are reached. -/
theorem proxyOnRequest_appends (shards : Nat) (rpc : Nat → τ → List Bytes → Option (τ × Option Buffer)) (s : τ)
    (cmd : List Bytes) : Appends (proxyOnRequest shards rpc s cmd) := by
  refine .ite _ (.write s _ _ fun out => outStr_eq out _) (.ite _ ?_ ?_)
  · refine .bind _ fun r => ?_
    obtain ⟨s, bodies⟩ := r
    cases bodies with
    | error msg => exact .write s _ _ fun out => outErr_eq out _ msg
    | ok bodies =>
      refine .write s _ ((mergeKeyArrays bodies []).getD
        (Value.ofErr .unknown "failed to merge keys").encode) fun out => ?_
      rw [mergeKeyArrays_append, outErr_eq]
      cases mergeKeyArrays bodies [] <;> rfl
  · cases routingKeyForCommand cmd with
    | none => exact .write s _ _ fun out => outErr_eq out _ "cannot route command"
    | some key =>
      refine .bind _ fun r => ?_
      obtain ⟨s, framed⟩ := r
      dsimp only
      cases shardBody framed with
      | error msg => exact .write s _ _ fun out => outErr_eq out _ msg
      | ok body => exact .write s _ body fun out => rfl

/-- What `rpc` keeps, the loop over the shards keeps. -/
theorem gather_total {rpc : Nat → τ → List Bytes → Option (τ × Option Buffer)} {P : τ → Prop} {cmd : List Bytes}
    (hrpc : ∀ i s, P s → ∃ s' framed, rpc i s cmd = some (s', framed) ∧ P s') : ∀ (ids : List Nat) {s : τ}, P s →
    ∃ s' bodies, gather rpc cmd ids s = some (s', bodies) ∧ P s' := by
  intro ids
  induction ids with
  | nil => exact fun h => ⟨_, _, rfl, h⟩
  | cons i ids ih =>
    intro s h
    obtain ⟨s₁, framed, hone, h₁⟩ := hrpc i s h
    obtain ⟨s₂, bodies, hrest, h₂⟩ := ih h₁
    cases hbody : shardBody framed with
    | error msg => exact ⟨s₁, _, by simp only [gather, hone, hbody, Option.bind_eq_bind, Option.bind_some]; rfl, h₁⟩
    | ok body =>
      exact ⟨s₂, _, by simp only [gather, hone, hbody, hrest, Option.bind_eq_bind, Option.bind_some]; rfl, h₂⟩

theorem proxyOnRequest_total (numShards : Nat) {rpc : Nat → τ → List Bytes → Option (τ × Option Buffer)}
    {P : τ → Prop} {cmd : List Bytes} (hrpc : ∀ i s, P s → ∃ s' framed, rpc i s cmd = some (s', framed) ∧ P s')
    {s : τ} (h : P s) : ∃ s' body, proxyOnRequest numShards rpc s cmd [] = some (s', body) ∧ P s' := by
  unfold proxyOnRequest
  split
  · exact ⟨s, _, rfl, h⟩
  split
  · obtain ⟨s', bodies, hrun, h'⟩ := gather_total hrpc (List.range numShards) h
    rw [hrun]
    cases bodies with
    | error msg => exact ⟨s', _, rfl, h'⟩
    | ok bodies => exact ⟨s', _, rfl, h'⟩
  · cases routingKeyForCommand cmd with
    | none => exact ⟨s, _, rfl, h⟩
    | some key =>
      obtain ⟨s', framed, hrun, h'⟩ := hrpc (shardForKey key numShards) s h
      simp only [hrun, Option.bind_eq_bind, Option.bind_some]
      cases shardBody framed with
      | error msg => exact ⟨s', _, rfl, h'⟩
      | ok body => exact ⟨s', _, rfl, h'⟩

end Proxy

def Shards.Sound (s : Shards) : Prop := ∀ i, ∃ m, (s.store i).Models (· = ·) m

section Total

variable (strtod : Bytes → StrtodResult) (numShards : Nat)

theorem Shards.Sound.update {s : Shards} (h : s.Sound) (i : Nat) {st : Store} {m : RefStore ZTree}
    (hst : st.Models (· = ·) m) (sent : List (Nat × List Bytes)) :
    Shards.Sound ⟨Function.update s.store i st, sent⟩ := by
  intro j
  dsimp only
  by_cases hji : j = i
  · rw [hji, Function.update_self]
    exact ⟨m, hst⟩
  · rw [Function.update_of_ne hji]
    exact h j

/-- A shard answers whatever it is sent. -/
theorem intactRpc_total {s : Shards} (h : s.Sound) (i now clk : Nat) (cmd : List Bytes) :
    ∃ s' framed, intactRpc strtod numShards now clk i s cmd = some (s', framed) ∧ s'.Sound := by
  by_cases henc : encodeRequest cmd = []
  · refine ⟨s, none, ?_, h⟩
    rw [intactRpc, tcpRpc, tcpRpcRaw, henc]
    rfl
  · obtain ⟨m, hm⟩ := h i
    obtain ⟨st, body, m', hrun, hst, -⟩ :=
      onRequest_spec treeReading_sound strtod (.shard i numShards) hm now clk cmd ([] ++ le 4 0)
    have hresp : respond (shardOnRequest strtod i numShards now clk) (s.store i) cmd [] =
        some (st, frameOf body) := respond_spec [] hrun
    refine ⟨_, some (frameOf body), ?_, h.update i hst (s.sent ++ [(i, cmd)])⟩
    rw [intactRpc, tcpRpc_writing henc]
    simp only [tryOneRequest_eq, cutRequest_encode henc]
    simp only [Conn.new, hresp]
    rfl

theorem shardWork_total {st : Store} (h : ∃ m, st.Models (· = ·) m) (now : Nat) (w : ShardWork) :
    ∃ st', shardWork now st w = some st' ∧ ∃ m, st'.Models (· = ·) m := by
  obtain ⟨m, hm⟩ := h
  cases w with
  | processTimers early =>
    obtain ⟨st', hrun, m', hst, -⟩ := processTimers_spec hm (now - early)
    exact ⟨st', hrun, m', hst⟩
  | work =>
    obtain ⟨st', hrun, hst⟩ := work_spec hm
    exact ⟨st', hrun, m, hst⟩

theorem servedRpc_eq {strtod : Bytes → StrtodResult} {numShards i : Nat} {s : ServedShards} {cmd : List Bytes}
    {st : Store} {shards : Shards} {framed : Option Buffer}
    (hworks : (s.ticks.headD {}).works.foldlM (shardWork (s.clock i + (s.ticks.headD {}).before)) (s.shards.store i) =
      some st)
    (hrpc : intactRpc strtod numShards (s.clock i + (s.ticks.headD {}).before)
      (s.clock i + (s.ticks.headD {}).before + (s.ticks.headD {}).during) i
      { s.shards with store := Function.update s.shards.store i st } cmd = some (shards, framed)) :
    servedRpc strtod numShards i s cmd =
      some (⟨shards, Function.update s.clock i (s.clock i + (s.ticks.headD {}).before + (s.ticks.headD {}).during),
        s.ticks.tail⟩, framed) := by
  simp only [servedRpc, hworks, hrpc, Option.bind_eq_bind, Option.bind_some]
  rfl

theorem servedRpc_total {s : ServedShards} (h : s.shards.Sound) (i : Nat) (cmd : List Bytes) :
    ∃ s' framed, servedRpc strtod numShards i s cmd = some (s', framed) ∧ s'.shards.Sound := by
  obtain ⟨st, hworks, m, hst⟩ := foldlM_inv (fun st => ∃ m, Store.Models (· = ·) st m) (fun _ => True)
    (fun _ w _ h => shardWork_total h (s.clock i + (s.ticks.headD {}).before) w) (s.ticks.headD {}).works
    (s.shards.store i) (fun _ _ => trivial) (h i)
  obtain ⟨shards, framed, hrpc, h'⟩ := intactRpc_total strtod numShards (h.update i hst s.shards.sent) i
    (s.clock i + (s.ticks.headD {}).before)
    (s.clock i + (s.ticks.headD {}).before + (s.ticks.headD {}).during) cmd
  exact ⟨_, framed, servedRpc_eq hworks hrpc, h'⟩

/-- **The proxy appends its answer to whatever the buffer holds**, and no shard faults. -/
theorem proxied_replies :
    Replies (proxiedOnRequest strtod numShards) proxiedOnTimer fun s => s.shards.Sound where
  request := by
    intro s cmd hs
    obtain ⟨s', body, hrun, h'⟩ := proxyOnRequest_total numShards
      (fun i s h => servedRpc_total strtod numShards h i cmd) hs
    refine ⟨s', body, fun out => ?_, h'⟩
    rw [proxiedOnRequest, proxyOnRequest_appends numShards _ s cmd out, hrun, Option.map_some]
  timer := fun s _ hs => ⟨s, rfl, hs⟩

end Total

/-! ## 2. One map, many clocks

The map is one, and each shard has its own part and its own clock. Purging by the clock of one
shard concerns the keys of that shard.
-/

section Split

variable {Z : Type} {numShards : Nat} {m : RefStore Z}

theorem RefStore.lookup_purgeShard (i now : Nat) (key : Bytes) : (m.purgeShard numShards i now).lookup key =
    if shardForKey key numShards = i then (m.lookup key).filter (fun e => !e.due now) else m.lookup key := by
  apply Option.ext
  intro re
  rw [← Option.mem_def, Finmap.mem_lookup_iff, RefStore.purgeShard, Multiset.mem_filter,
    ← Finmap.mem_lookup_iff, Option.mem_def]
  split
  · rename_i h
    simp [h, Option.filter_eq_some_iff]
  · rename_i h
    simp [h]

theorem slice_purgeShard_self (i now : Nat) :
    (m.purgeShard numShards i now).slice numShards i = (m.slice numShards i).purge now := by
  refine Finmap.ext_lookup fun key => ?_
  rw [RefStore.lookup_slice, RefStore.lookup_purgeShard, RefStore.purge, RefStore.lookup_filter, RefStore.lookup_slice]
  split
  · rfl
  · rfl

theorem slice_purgeShard_other {i j : Nat} (hji : j ≠ i) (now : Nat) :
    (m.purgeShard numShards i now).slice numShards j = m.slice numShards j := by
  refine Finmap.ext_lookup fun key => ?_
  rw [RefStore.lookup_slice, RefStore.lookup_slice, RefStore.lookup_purgeShard]
  split
  · rename_i hown
    rw [if_neg (hown ▸ hji)]
  · rfl

theorem slice_asks_other {i : Nat} : ∀ {ids : List Nat} (t : SplitState Z), i ∉ ids →
    (ids.foldl (SplitState.ask numShards) t).map.slice numShards i = t.map.slice numShards i := by
  intro ids
  induction ids with
  | nil => exact fun t _ => rfl
  | cons j ids ih =>
    intro t hi
    rw [List.mem_cons, not_or] at hi
    rw [List.foldl_cons, ih _ hi.2]
    exact slice_purgeShard_other hi.1 _

end Split

/-! ## 3. A call to a shard

A call takes time before the shard begins and while it works, and during that time the shard may
run timers and workers. Of all that only the readings of its clock are left in the statement.
-/

def ShardTick.waits (tick : ShardTick) : Nat × Nat := (tick.before, tick.during)

section Follow

variable {Z : Type} {rel : ZTree → Z → Prop} {numShards : Nat} {s : ServedShards} {t : SplitState Z}

/-- Every shard follows its slice of the map by its own clock, and the readings are the same. -/
structure ServedShards.Serving (rel : ZTree → Z → Prop) (numShards : Nat) (s : ServedShards) (t : SplitState Z) :
    Prop where
  shards : ∀ i < numShards, (s.shards.store i).Follows rel ⟨t.map.slice numShards i, t.clock i⟩
  clock : t.clock = s.clock
  waits : t.waits = s.ticks.map ShardTick.waits

theorem ServedShards.Serving.readings (h : s.Serving rel numShards t) (i : Nat) :
    t.now i = s.clock i + (s.ticks.headD {}).before ∧
      t.clk i = s.clock i + (s.ticks.headD {}).before + (s.ticks.headD {}).during := by
  unfold SplitState.clk SplitState.now
  rw [h.clock, h.waits]
  cases s.ticks <;> exact ⟨rfl, rfl⟩

/-- A shard that works by itself stays with its slice. -/
theorem shardWorks_follow {m : RefStore Z} {now : Nat} (works : List ShardWork) {st : Store}
    (h : st.Follows rel ⟨m, now⟩) :
    ∃ st', works.foldlM (shardWork now) st = some st' ∧ st'.Follows rel ⟨m, now⟩ := by
  refine foldlM_inv (fun st => st.Follows rel ⟨m, now⟩) (fun _ => True) (fun st w _ h => ?_) works st
    (fun _ _ => trivial) h
  cases w with
  | processTimers early => exact h.processTimers (Nat.le_refl _) (Nat.sub_le now early)
  | work => exact h.work

/-- **A call to a shard that takes the command is answered out of its slice.** Whatever map has
the slice that the command leaves, and the other slices as they were, is then followed. -/
theorem servedRpc_spec {R : Reading Z} (hR : R.Sound rel) (strtod : Bytes → StrtodResult)
    (h : s.Serving rel numShards t) {i : Nat} (hi : i < numShards) {cmd : List Bytes} (henc : encodeRequest cmd ≠ [])
    (hown : rejects i numShards cmd = false) :
    ∃ s' v, servedRpc strtod numShards i s cmd = some (s', some (frameOf v.encode)) ∧
      (refCommand R strtod (t.clk i) ((t.ask numShards i).map.slice numShards i) (dispatch cmd)).2.Admits v ∧
      ∀ m : RefStore Z,
        m.slice numShards i =
          (refCommand R strtod (t.clk i) ((t.ask numShards i).map.slice numShards i) (dispatch cmd)).1 →
        (∀ j ≠ i, m.slice numShards j = (t.ask numShards i).map.slice numShards j) →
        s'.Serving rel numShards { t.ask numShards i with map := m } := by
  obtain ⟨hnow, hclk⟩ := h.readings i
  have hlater : t.clock i ≤ t.now i := Nat.le_add_right _ _
  obtain ⟨st, hworks, hst⟩ := shardWorks_follow (s.ticks.headD {}).works ((h.shards i hi).later hlater)
  obtain ⟨st', v, hexec, hv, hst'⟩ := hst.execute hR strtod (Nat.le_refl _) (t.clk i) cmd (le 4 0)
  have hslice : (t.ask numShards i).map.slice numShards i = (t.map.slice numShards i).purge (t.now i) :=
    slice_purgeShard_self i _
  rw [← hslice] at hv hst'
  rw [hnow] at hworks hexec
  rw [hclk] at hexec
  rw [← Function.update_self i st s.shards.store] at hexec
  have hrpc := intactRpc_eq (s := { s.shards with store := Function.update s.shards.store i st }) henc hown hexec
  refine ⟨_, v, servedRpc_eq hworks hrpc, hv, fun m hm hothers => ⟨fun j hj => ?_, ?_, ?_⟩⟩
  · -- the shard that was asked, and the others
    dsimp only [SplitState.ask]
    by_cases hji : j = i
    · rw [hji, Function.update_self, Function.update_self, hm]
      exact hst'
    · rw [Function.update_of_ne hji, Function.update_of_ne hji, Function.update_of_ne hji, hothers j hji]
      dsimp only [SplitState.ask]
      rw [slice_purgeShard_other hji]
      exact h.shards j hj
  · show Function.update t.clock i (t.clk i) = _
    rw [h.clock, hclk]
  · show t.waits.tail = _
    rw [h.waits, List.map_tail]

/-- **`keys`**: every shard lists its slice by its own clock. The slices that were listed stay
what they were while the rest is asked. -/
theorem gather_keys {R : Reading Z} (hR : R.Sound rel) (strtod : Bytes → StrtodResult) : ∀ {ids : List Nat}
    {s : ServedShards} {t : SplitState Z}, s.Serving rel numShards t → ids.Nodup → (∀ i ∈ ids, i < numShards) →
    ∃ (f : Nat → List Bytes) (s' : ServedShards),
      gather (servedRpc strtod numShards) [bytes "keys"] ids s =
        some (s', .ok (ids.map fun i => (sent (keysReply (f i))).encode)) ∧
      s'.Serving rel numShards (ids.foldl (SplitState.ask numShards) t) ∧
      ∀ i ∈ ids, (f i).Nodup ∧
        (f i).toFinset = ((ids.foldl (SplitState.ask numShards) t).map.slice numShards i).keys := by
  intro ids
  induction ids with
  | nil => exact fun h _ _ => ⟨fun _ => [], _, rfl, h, by simp⟩
  | cons i ids ih =>
    intro s t h hnodup hids
    obtain ⟨hi, hnodup⟩ := List.nodup_cons.mp hnodup
    obtain ⟨s₁, v, hone, ⟨l, rfl, hl⟩, hleave⟩ :=
      servedRpc_spec hR strtod h (hids i List.mem_cons_self) (by decide) (rejects_keys i numShards)
    have h₁ : s₁.Serving rel numShards (t.ask numShards i) := hleave (t.ask numShards i).map rfl fun _ _ => rfl
    obtain ⟨f, s', hrest, h', hf⟩ := ih h₁ hnodup fun j hj => hids j (List.mem_cons_of_mem _ hj)
    have hother : ∀ j ∈ ids, Function.update f i l j = f j :=
      fun j hj => Function.update_of_ne (ne_of_mem_of_not_mem hj hi) l f
    refine ⟨Function.update f i l, s', ?_, h', fun j hj => ?_⟩
    · have hsame : ids.map (fun j => (sent (keysReply (Function.update f i l j))).encode) =
          ids.map fun j => (sent (keysReply (f j))).encode := by
        refine List.map_congr_left fun j hj => ?_
        rw [hother j hj]
      simp only [gather, hone, Option.bind_eq_bind, Option.bind_some, shardBody_frameOf, bodyOf_encode, hrest,
        List.map_cons, hsame, Function.update_self]
      rfl
    · rw [List.foldl_cons]
      rcases List.mem_cons.mp hj with rfl | hj
      · -- what this shard listed is still what the map says of it
        rw [Function.update_self, slice_asks_other _ hi]
        exact hl
      · rw [hother j hj]
        exact hf j hj

end Follow

/-! ## 4. The proxy is followed

From the slices back to the map: a routed command changes the slice of the owner, and so the map
at one key; a command that goes nowhere changes nothing, and is answered by the proxy itself.
-/

/-- **One map behind a proxy, as a service.** A proxy may answer with an error of its own and
list keys in an order of its own; it has no timers. -/
def proxyService {Z : Type} (R : Reading Z) (strtod : Bytes → StrtodResult) (numShards : Nat) :
    Machine (SplitState Z) LoopCall Bytes where
  next t
    | .request _ cmd => { t.asked numShards cmd with map := (t.command R strtod numShards cmd).1 }
    | .timer _ => t
  pre _ _ := True
  admits t
    | .request _ cmd, o => ∃ v w : Value, (t.command R strtod numShards cmd).2.Admits v ∧
        Agree cmd (sent v) (sent w) ∧ o = frameOf w.encode
    | .timer _, o => o = []

/-- Nothing is asked of the calls: a clock that is given by the time that passes does not go
back. -/
theorem proxyService_legal {Z : Type} (R : Reading Z) (strtod : Bytes → StrtodResult) (numShards : Nat) :
    ∀ (calls : List LoopCall) (t : SplitState Z), (proxyService R strtod numShards).Legal t calls := by
  intro calls
  induction calls with
  | nil => exact fun _ => trivial
  | cons call calls ih => exact fun t => ⟨trivial, ih _⟩

section Proxied

variable {Z : Type} {R : Reading Z} {rel : ZTree → Z → Prop} {numShards : Nat} {s : ServedShards} {t : SplitState Z}
  {cmd : List Bytes}

theorem command_unasked (R : Reading Z) (strtod : Bytes → StrtodResult) (numShards : Nat) (t : SplitState Z)
    (hkeys : isScatterGatherCommand cmd = false)
    (hkey : routingKeyForCommand cmd = none) :
    t.asked numShards cmd = t ∧
      t.command R strtod numShards cmd = refCommand R strtod (t.clock 0) t.map (dispatch cmd) := by
  have hnone : shardsAsked numShards cmd = [] := by
    rw [shardsAsked, if_neg (by simp [hkeys]), hkey]
    rfl
  simp only [SplitState.command, SplitState.asked, hnone]
  exact ⟨rfl, rfl⟩

theorem command_routed (R : Reading Z) (strtod : Bytes → StrtodResult) (numShards : Nat) (t : SplitState Z)
    (hkeys : isScatterGatherCommand cmd = false) {key : Bytes} (hkey : routingKeyForCommand cmd = some key) :
    t.asked numShards cmd = t.ask numShards (shardForKey key numShards) ∧
      t.command R strtod numShards cmd = refCommand R strtod (t.clk (shardForKey key numShards))
        (t.ask numShards (shardForKey key numShards)).map (dispatch cmd) := by
  have hone : shardsAsked numShards cmd = [shardForKey key numShards] := by
    rw [shardsAsked, if_neg (by simp [hkeys]), hkey]
    rfl
  simp only [SplitState.command, SplitState.asked, hone, List.foldl_cons, List.foldl_nil, List.headD_cons, true_and]
  rw [show (t.ask numShards (shardForKey key numShards)).clock (shardForKey key numShards) =
    t.clk (shardForKey key numShards) from Function.update_self ..]

/-- **A call to the owner of the key** is a step of the whole map: the owner takes the command,
and what it leaves in its slice is what the command leaves in the map, which has the other
slices as they were. -/
theorem servedRpc_owner (hR : R.Sound rel) (strtod : Bytes → StrtodResult) (hN : 0 < numShards)
    (h : s.Serving rel numShards t) (henc : encodeRequest cmd ≠ []) (hkeys : isScatterGatherCommand cmd = false)
    {key : Bytes} (hkey : routingKeyForCommand cmd = some key) :
    ∃ s' v, servedRpc strtod numShards (shardForKey key numShards) s cmd = some (s', some (frameOf v.encode)) ∧
      (t.command R strtod numShards cmd).2.Admits v ∧
      s'.Serving rel numShards { t.asked numShards cmd with map := (t.command R strtod numShards cmd).1 } := by
  obtain ⟨hasked, hcommand⟩ := command_routed R strtod numShards t hkeys hkey
  rw [hasked, hcommand]
  generalize hi : shardForKey key numShards = i
  have hlt : i < numShards := by
    rw [← hi, shardForKey, if_neg (by omega)]
    exact Nat.mod_lt _ hN
  have hown : rejects i numShards cmd = false := by
    simp [rejects, hkey, hi]
  obtain ⟨s', v, hrpc, hv, hleave⟩ := servedRpc_spec hR strtod h hlt henc hown
  obtain ⟨hslice, hothers⟩ := refCommand_routed R strtod (t.clk i) (m := (t.ask numShards i).map) hkey hi
  rw [hslice] at hv hleave
  exact ⟨s', v, hrpc, hv, hleave _ rfl hothers⟩

/-- **A request is followed**, wherever the response goes: the proxy answers it itself, asks the
owner of the key, or asks all shards. -/
theorem proxied_request (hR : R.Sound rel) (strtod : Bytes → StrtodResult) (hN : 0 < numShards)
    (h : s.Serving rel numShards t) (henc : encodeRequest cmd ≠ []) (out : Buffer) :
    ∃ s' v w, proxiedOnRequest strtod numShards s cmd out = some (s', out ++ w.encode) ∧
      (t.command R strtod numShards cmd).2.Admits v ∧ Agree cmd (sent v) (sent w) ∧
      s'.Serving rel numShards { t.asked numShards cmd with map := (t.command R strtod numShards cmd).1 } := by
  unfold proxiedOnRequest proxyOnRequest
  by_cases hping : (cmd.length = 1 ∨ cmd.length = 2) ∧ cmd[0]? = some (bytes "ping")
  · obtain ⟨hkeys, hkey⟩ := ping_unrouted hping
    obtain ⟨hasked, hcommand⟩ := command_unasked R strtod numShards t hkeys hkey
    rw [if_pos hping, hasked, hcommand, dispatch_ping hping]
    exact ⟨s, _, .str (cmd[1]?.getD (bytes "PONG")), by rw [outStr_eq], rfl, .inl rfl, h⟩
  rw [if_neg hping]
  by_cases hkeys : isScatterGatherCommand cmd = true
  · obtain rfl := eq_keys_of_scatter hkeys
    obtain ⟨f, s', hgather, h', hf⟩ := gather_keys hR strtod h List.nodup_range fun i hi => List.mem_range.mp hi
    obtain ⟨w, hw, hagree⟩ := merge_agree numShards f out
    -- in any order, the keys of the map when all shards have been asked
    obtain ⟨l, hl, hlkeys⟩ : ∃ l : List Bytes, l.Nodup ∧
        l.toFinset = ((List.range numShards).foldl (SplitState.ask numShards) t).map.keys :=
      ⟨_, Finset.nodup_toList _, Finset.toList_toFinset _⟩
    refine ⟨s', keysReply l, w, ?_, ⟨l, rfl, hl, hlkeys⟩, hagree l ?_, h'⟩
    · rw [if_pos hkeys, hgather, Option.bind_eq_bind, Option.bind_some, ← hw]
      rfl
    · exact flatMap_slices_perm hN (fun i hi => hf i (List.mem_range.mpr hi)) hl hlkeys
  rw [if_neg hkeys]
  have hkeys := Bool.eq_false_iff.mpr hkeys
  cases hkey : routingKeyForCommand cmd with
  | none =>
    obtain ⟨hasked, hcommand⟩ := command_unasked R strtod numShards t hkeys hkey
    rw [hasked, hcommand, dispatch_unrouted hkey hping hkeys]
    exact ⟨s, _, .ofErr .unknown "cannot route command", by dsimp only; rw [outErr_eq], rfl,
      .inr (.inl ⟨trivial, trivial⟩), h⟩
  | some key =>
    obtain ⟨s', v, hrpc, hv, h'⟩ := servedRpc_owner hR strtod hN h henc hkeys hkey
    refine ⟨s', v, sent v, ?_, hv, .inl (sent_sent v).symm, h'⟩
    simp only [hrpc, Option.bind_eq_bind, Option.bind_some, shardBody_frameOf, bodyOf_encode]
    rfl

theorem proxied_step (hR : R.Sound rel) (strtod : Bytes → StrtodResult) (hN : 0 < numShards) {call : LoopCall}
    (h : s.Serving rel numShards t) (henc : call.Encodable) :
    ∃ s' o, callStep (proxiedOnRequest strtod numShards) proxiedOnTimer s call = some (s', o) ∧
      (proxyService R strtod numShards).admits t call o ∧
      s'.Serving rel numShards ((proxyService R strtod numShards).next t call) := by
  cases call with
  | timer now => exact ⟨s, [], rfl, rfl, h⟩
  | request c cmd =>
    obtain ⟨s', v, w, hrun, hv, hagree, h'⟩ := proxied_request hR strtod hN h henc ([] ++ le 4 0)
    exact ⟨s', _, respond_spec [] hrun, ⟨v, w, hv, hagree, rfl⟩, h'⟩

end Proxied

/-- **A proxy over its shards is one store, asked by many.** Over any run of the event loop of
the proxy, with the timers and the workers of the shards in between, and remote calls that
arrive: the calls for a connection are the requests it has sent, what it was sent is the front
of the answers to them, and these are the answers of one reference store to the calls in their
one order, up to the text of an error and the order of `keys`. Whether a key is due is for the
clock of its shard to say, at the moment the shard is asked; the clocks of two shards need not
agree. -/
theorem proxy_is_reference (strtod : Bytes → StrtodResult) (numShards : Nat) (hN : 1 ≤ numShards)
    (threads : Nat → Nat) (ticks : List ShardTick) {srv₀ : Srv ServedShards}
    (hinit : srvInit { shards := ⟨fun i => { threads := threads i }, []⟩, ticks := ticks } = some srv₀)
    (its : List Iteration) (hlegal : Legal (proxiedOnRequest strtod numShards) proxiedOnTimer srv₀ its) :
    ∃ w outs, its.foldlM (Watched.iterate (proxiedOnRequest strtod numShards) proxiedOnTimer)
        { srv := srv₀ } = some w ∧
      its.foldlM (iterate (proxiedOnRequest strtod numShards) proxiedOnTimer) srv₀ = some w.srv ∧
      (∀ c, requestsOf c w.calls = (requestCutter.drain (w.traffic c).received).items) ∧
      (∀ c, (w.traffic c).written <+: responsesTo c w.calls outs) ∧
      (proxyService treeReading strtod numShards).Admits (.start (ticks.map ShardTick.waits)) w.calls outs ∧
      (proxyService mapReading strtod numShards).Admits (.start (ticks.map ShardTick.waits)) w.calls outs := by
  have hsound : Shards.Sound ⟨fun i => { threads := threads i }, []⟩ := fun i => ⟨∅, Store.models_empty _⟩
  obtain ⟨w, outs, hrun, hsrv, hinv, -⟩ :=
    Watched.inv_run (proxied_replies strtod numShards) hsound hinit hlegal
  have hstart : ∀ {Z : Type} (rel : ZTree → Z → Prop), ServedShards.Serving rel numShards
      { shards := ⟨fun i => { threads := threads i }, []⟩, ticks := ticks } (.start (ticks.map ShardTick.waits)) :=
    fun _ => ⟨fun i _ => Store.follows_empty (threads i), rfl, rfl⟩
  exact ⟨w, outs, hrun, hsrv, hinv.requests, hinv.written,
    hinv.admits (fun s t call h _ henc => proxied_step treeReading_sound strtod hN h henc) (hstart _)
      (proxyService_legal ..),
    hinv.admits (fun s t call h _ henc => proxied_step mapReading_sound strtod hN h henc) (hstart _)
      (proxyService_legal ..)⟩

/-- One client sets a key, another one reads it, and the first one lists the keys. -/
def setGetKeys : List Iteration :=
  setThenGet ++ [.polled
    { accept := none
      ready := [some (51, ⟨true, false, false, .data (encodeRequest [bytes "keys"]), .wrote 100, .again⟩), none]
      now := 60 }]

/-- A tick for each call to a shard: two to the owner of the key, which runs its timers and a
worker, and one to each of the three, with clocks that have nothing to do with each other. -/
def fiveTicks : List ShardTick :=
  [{ works := [.processTimers 5], before := 31 }, { works := [.work], before := 12 },
    { before := 100 }, { before := 7, during := 3 }, { works := [.processTimers 0] }]

theorem proxy_is_reference_three :
    ∃ srv₀, srvInit ({ shards := ⟨fun _ => { threads := 4 }, []⟩, ticks := fiveTicks } : ServedShards) =
        some srv₀ ∧
      1 ≤ 3 ∧ Legal (proxiedOnRequest noScores 3) proxiedOnTimer srv₀ setGetKeys ∧
      ∃ (w : Watched ServedShards) (outs : List Bytes),
        setGetKeys.foldlM (iterate (proxiedOnRequest noScores 3) proxiedOnTimer) srv₀ = some w.srv ∧
        w.calls = [.timer 20, .request 0 [bytes "set", bytes "k", bytes "v"], .timer 40,
          .request 1 [bytes "get", bytes "k"], .timer 50, .request 0 [bytes "keys"], .timer 60] ∧
        (w.traffic 0).written =
          frameOf (Value.str (bytes "OK")).encode ++ frameOf (Value.arr [.str (bytes "k")]).encode ∧
        (w.traffic 0).written <+: responsesTo 0 w.calls outs ∧
        (proxyService mapReading noScores 3).Admits (.start (fiveTicks.map ShardTick.waits)) w.calls outs := by
  obtain ⟨srv₀, hinit⟩ : ∃ srv₀, srvInit
      ({ shards := ⟨fun _ => { threads := 4 }, []⟩, ticks := fiveTicks } : ServedShards) = some srv₀ :=
    ⟨_, rfl⟩
  have hlegal : Legal (proxiedOnRequest noScores 3) proxiedOnTimer srv₀ setGetKeys := by
    cases hinit
    exact legal_of_check (by decide +kernel)
  obtain ⟨w, outs, hrun, hsrv, -, hwritten, -, hadmits⟩ :=
    proxy_is_reference noScores 3 (by decide) (fun _ => 4) fiveTicks hinit setGetKeys hlegal
  have hcalls : w.calls = [.timer 20, .request 0 [bytes "set", bytes "k", bytes "v"], .timer 40,
      .request 1 [bytes "get", bytes "k"], .timer 50, .request 0 [bytes "keys"], .timer 60] := by
    cases hinit
    exact Option.some.inj ((congrArg (Option.map Watched.calls) hrun).symm.trans (by decide +kernel))
  have hzero : (w.traffic 0).written =
      frameOf (Value.str (bytes "OK")).encode ++ frameOf (Value.arr [.str (bytes "k")]).encode := by
    cases hinit
    exact Option.some.inj
      ((congrArg (Option.map fun w => (Watched.traffic w 0).written) hrun).symm.trans (by decide +kernel))
  exact ⟨srv₀, hinit, by decide, hlegal, w, outs, hsrv, hcalls, hzero, hwritten 0, hadmits⟩

end ApexDB
