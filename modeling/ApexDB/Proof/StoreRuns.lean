import ApexDB.Proof.Readings
import ApexDB.Proof.Expiry

/-!
# Whole runs of the store

A run is any sequence of requests, passes of the timers and steps of the pool's workers, on a
store with any number of threads. The store and the reference may differ in entries that are due
by the last reading of the clock and so never seen again (`Follows`): the timers remove them
early, and a store that has had no request keeps them late.

That the clock does not go back is a hypothesis of the first result, and of no other. With a
clock that does, the reference would have to bring back keys that the store may have removed.
The second result, on the index of deadlines, is for any readings at all.
-/

set_option autoImplicit false

namespace ApexDB

open Lib

variable {Z : Type} {rel : ZTree → Z → Prop}

/-! ## 1. The reference is followed

For the reference the timers only move the clock on, and the workers do nothing at all: what
these do in the store has no effect that a reply could show.
-/

def Store.Follows (rel : ZTree → Z → Prop) (st : Store) (s : RefState Z) : Prop :=
  ∃ m, st.Models rel m ∧ m.purge s.clock = s.map.purge s.clock

theorem Store.follows_empty (threads : Nat) :
    ({ threads := threads } : Store).Follows rel ⟨∅, 0⟩ :=
  ⟨∅, Store.models_empty threads, rfl⟩

theorem purge_eq_mono {m m' : RefStore Z} {t t' : Nat} (hle : t ≤ t') (h : m.purge t = m'.purge t) :
    m.purge t' = m'.purge t' := by
  rw [← ((faded_purge t m).mono hle).purge_eq, h, ((faded_purge t m').mono hle).purge_eq]

theorem Store.Follows.later {st : Store} {m : RefStore Z} {t t' : Nat} (h : st.Follows rel ⟨m, t⟩) (hle : t ≤ t') :
    st.Follows rel ⟨m, t'⟩ := by
  obtain ⟨m', h, hf⟩ := h
  exact ⟨m', h, purge_eq_mono hle hf⟩

/-- **A request is followed**, wherever the response goes. -/
theorem Store.Follows.execute {R : Reading Z} (hR : R.Sound rel) (strtod : Bytes → StrtodResult)
    {st : Store} {s : RefState Z} (h : st.Follows rel s) {now : Nat} (hnow : s.clock ≤ now) (clk : Nat)
    (cmd : List Bytes) (out : Buffer) :
    ∃ st' v, ApexDB.execute strtod now clk cmd st out = some (st', out ++ v.encode) ∧
      (refCommand R strtod clk (s.map.purge now) (dispatch cmd)).2.Admits v ∧
      st'.Follows rel ⟨(refCommand R strtod clk (s.map.purge now) (dispatch cmd)).1, clk⟩ := by
  obtain ⟨m, h, hf⟩ := h
  obtain ⟨st', v, hrun, hv, h'⟩ := execute_spec hR strtod h now clk cmd out
  rw [purge_eq_mono hnow hf] at hv h'
  exact ⟨st', v, hrun, hv, _, h', rfl⟩

theorem Store.Follows.processTimers {st : Store} {s : RefState Z} (h : st.Follows rel s) {now clk : Nat}
    (hclk : s.clock ≤ clk) (hnow : now ≤ clk) :
    ∃ st', ApexDB.processTimers now st = some st' ∧ st'.Follows rel ⟨s.map, clk⟩ := by
  obtain ⟨m, h, hf⟩ := h
  obtain ⟨st', hrun, m', h', hf', -⟩ := processTimers_spec h now
  exact ⟨st', hrun, m', h', (hf'.mono hnow).purge_eq.trans (purge_eq_mono hclk hf)⟩

theorem Store.Follows.work {st : Store} {s : RefState Z} (h : st.Follows rel s) :
    ∃ st', ApexDB.work st = some st' ∧ st'.Follows rel s := by
  obtain ⟨m, h, hf⟩ := h
  obtain ⟨st', hrun, h'⟩ := work_spec h
  exact ⟨st', hrun, m, h', hf⟩

/-- **One event is followed**: what the store writes is admitted by the reference, and the store
follows what the reference goes on to. -/
theorem storeStep_refines {R : Reading Z} (hR : R.Sound rel) (strtod : Bytes → StrtodResult)
    {st : Store} {s : RefState Z} (h : st.Follows rel s) (ev : StoreEvent)
    (hp : (refMachine R strtod).pre s ev) :
    ∃ st' o, storeStep strtod st ev = some (st', o) ∧ (refMachine R strtod).admits s ev o ∧
      st'.Follows rel ((refMachine R strtod).next s ev) := by
  cases ev with
  | execute now clk cmd =>
    obtain ⟨st', v, hrun, hv, h'⟩ := h.execute hR strtod hp.1 clk cmd []
    exact ⟨st', v.encode, hrun, ⟨v, rfl, hv⟩, h'⟩
  | processTimers now clk =>
    obtain ⟨st', hrun, h'⟩ := h.processTimers hp.1 hp.2
    exact ⟨st', [], by simp [storeStep, hrun], rfl, h'⟩
  | work =>
    obtain ⟨st', hrun, h'⟩ := h.work
    exact ⟨st', [], by simp [storeStep, hrun], rfl, h'⟩

/-- Whatever the clock says, an event leaves the store standing for some map. -/
theorem storeStep_models {R : Reading Z} (hR : R.Sound rel) (strtod : Bytes → StrtodResult)
    {st : Store} {m : RefStore Z} (h : st.Models rel m) (ev : StoreEvent) :
    ∃ st' o m', storeStep strtod st ev = some (st', o) ∧ st'.Models rel m' := by
  cases ev with
  | execute now clk cmd =>
    obtain ⟨st', v, hrun, -, h'⟩ := execute_spec hR strtod h now clk cmd []
    exact ⟨st', _, _, hrun, h'⟩
  | processTimers now clk =>
    obtain ⟨st', hrun, m', h', -⟩ := processTimers_spec h now
    exact ⟨st', [], m', by simp [storeStep, hrun], h'⟩
  | work =>
    obtain ⟨st', hrun, h'⟩ := work_spec h
    exact ⟨st', [], m, by simp [storeStep, hrun], h'⟩

/-- A run never faults, and leaves the store standing for some map. -/
theorem store_run_models {R : Reading Z} (hR : R.Sound rel) (strtod : Bytes → StrtodResult) :
    ∀ (evs : List StoreEvent) {st : Store} {m : RefStore Z}, st.Models rel m →
    ∃ st' outs m', run (storeStep strtod) st evs = some (st', outs) ∧ st'.Models rel m' := by
  intro evs st m h
  obtain ⟨st', outs, hrun, m', h'⟩ := run_inv (storeStep strtod) (fun st => ∃ m, st.Models rel m) (fun _ => True)
    (fun st ev _ ⟨m, h⟩ => by
      obtain ⟨st', o, m', hstep, h'⟩ := storeStep_models hR strtod h ev
      exact ⟨st', o, hstep, m', h'⟩) evs st (fun _ _ => trivial) ⟨m, h⟩
  exact ⟨st', outs, m', hrun, h'⟩

/-- **Every run with a clock that does not go back returns, and every reply is one of the
reference.** -/
theorem store_run_refines (strtod : Bytes → StrtodResult) (threads : Nat) (evs : List StoreEvent)
    (hlegal : (refMachine mapReading strtod).Legal ⟨∅, 0⟩ evs) :
    ∃ st outs, run (storeStep strtod) { threads := threads } evs = some (st, outs) ∧
      (refMachine mapReading strtod).Admits ⟨∅, 0⟩ evs outs := by
  obtain ⟨st, outs, hrun, hadm, -⟩ := (refMachine mapReading strtod).run_refines
    (R := Store.Follows ScoresOf) (fun _ _ ev h hp => storeStep_refines mapReading_sound strtod h ev hp) evs _ _
    (Store.follows_empty threads) hlegal
  exact ⟨st, outs, hrun, hadm⟩

/-- A key is set, given a deadline, seen, passed over by the timers and gone at its deadline. -/
def oneExpiry : List StoreEvent :=
  [.execute 5 5 [bytes "set", bytes "k", bytes "v"], .execute 5 6 [bytes "pexpire", bytes "k", bytes "10"],
    .execute 7 7 [bytes "get", bytes "k"], .processTimers 15 15, .work, .execute 16 16 [bytes "get", bytes "k"]]

theorem store_run_refines_expiry :
    ∃ st outs, run (storeStep fun _ => ⟨none, 0, false⟩) { threads := 4 } oneExpiry = some (st, outs) ∧
      outs = [(Value.str (bytes "OK")).encode, (Value.int 1).encode, (Value.str (bytes "v")).encode, [], [],
        Value.nil.encode] ∧
      (refMachine mapReading fun _ => ⟨none, 0, false⟩).Admits ⟨∅, 0⟩ oneExpiry outs := by
  obtain ⟨st, outs, hrun, hadm⟩ := store_run_refines (fun _ => ⟨none, 0, false⟩) 4 oneExpiry
    (by simp [oneExpiry, Machine.Legal, refMachine])
  refine ⟨st, outs, hrun, ?_, hadm⟩
  exact Option.some.inj ((congrArg (Option.map Prod.snd) hrun).symm.trans (by decide +kernel))

/-! ## 2. The index of deadlines

Here the state is looked at inside of a pass too, between the turns of `process_timers`, since
that is where an entry has been disposed of and the next root is read.
-/

def Store.Linked (st : Store) (e : EntryId) : Prop := ∃ n ∈ st.db.nodes, n.owner = e

/-- An entry that neither the hash map nor the heap mentions. -/
def Store.Unreferenced (st : Store) (e : EntryId) : Prop :=
  ¬st.Linked e ∧ ∀ x ∈ st.heap, x.ref ≠ e

/-- **The heap and the linked entries point at each other, and at nothing that is gone.** -/
structure Store.TtlIndex (st : Store) : Prop where
  ordered : ∀ i x y, 0 < i → st.heap[heapParent i]? = some x → st.heap[i]? = some y → x.val ≤ y.val
  indexed : ∀ (i : Nat) (x : HeapItem), st.heap[i]? = some x →
    st.Linked x.ref ∧ st.refs x.ref = some i
  distinct : ∀ (i j : Nat) (x y : HeapItem), st.heap[i]? = some x → st.heap[j]? = some y →
    x.ref = y.ref → i = j
  unarmed : ∀ e, st.Linked e → (∀ x ∈ st.heap, x.ref ≠ e) → st.refs e = none
  own : ∀ e i, st.Linked e → st.refs e = some i → ∃ x, st.heap[i]? = some x ∧ x.ref = e
  gone : ∀ e, st.ents.read e = none ∨ e ∈ st.queue → st.Unreferenced e

theorem Store.Holds.linked_iff {st : Store} {rows : List (Row Z)} (h : st.Holds rel rows)
    (e : EntryId) : st.Linked e ↔ e ∈ rows.map Row.id := by
  constructor
  · rintro ⟨n, hn, rfl⟩
    exact (h.index.mem_nodes hn).1
  · intro he
    exact ⟨_, h.index.node_mem he, rfl⟩

theorem Store.Models.ttlIndex {st : Store} {m : RefStore Z} (h : st.Models rel m) : st.TtlIndex := by
  obtain ⟨rows, h, -⟩ := h
  have hitem : ∀ x ∈ st.heap, x.ref ∈ rows.map Row.id := by
    intro x hx
    obtain ⟨i, hi⟩ := List.mem_iff_getElem?.mp hx
    exact h.armed _ (by rw [h.timers.indexed i x hi]; simp)
  refine ⟨fun i x y hi => h.timers.ordered i hi x y, fun i x hx => ⟨?_, h.timers.indexed i x hx⟩,
    fun i j x y hx hy hxy => ?_, fun e _ he => ?_, fun e i _ hi => h.timers.own e i hi,
    fun e he => ?_⟩
  · exact (h.linked_iff _).mpr (hitem x (List.mem_of_getElem? hx))
  · have hi := h.timers.indexed i x hx
    rw [hxy, h.timers.indexed j y hy] at hi
    exact (Option.some.inj hi).symm
  · rw [Option.eq_none_iff_forall_ne_some]
    intro i hi
    obtain ⟨x, hx, hxe⟩ := h.timers.own e i hi
    exact he x (List.mem_of_getElem? hx) hxe
  · -- what is dead or queued belongs to no row, and only rows are referred to
    have hnot : e ∉ rows.map Row.id := by
      intro hmem
      rcases he with hdead | hq
      · obtain ⟨r, hr, rfl⟩ := List.mem_map.mp hmem
        obtain ⟨ent, hread, -, -⟩ := (h.shows r hr).live
        rw [hdead] at hread
        cases hread
      · exact (h.waiting e hq).1 hmem
    exact ⟨fun hl => hnot ((h.linked_iff e).mp hl), fun x hx hxe => hnot (hxe ▸ hitem x hx)⟩

def Store.HasKey (st : Store) (key : Bytes) : Prop :=
  ∃ n ∈ st.db.nodes, ∃ ent, st.ents.read n.owner = some ent ∧ ent.key = key

/-- The keys of the store are the keys of the map it stands for. -/
theorem Store.Models.hasKey_iff {st : Store} {m : RefStore Z} (h : st.Models rel m) (key : Bytes) :
    st.HasKey key ↔ m.lookup key ≠ none := by
  obtain ⟨rows, h, hc⟩ := h
  constructor
  · intro hkey
    obtain ⟨n, hn, ent, hread, hk⟩ := hkey
    obtain ⟨r, hr, hid⟩ := List.mem_map.mp (h.index.mem_nodes hn).1
    obtain ⟨ent', hread', hk', -⟩ := (h.shows r hr).live
    rw [hid, hread] at hread'
    cases hread'
    rw [(hc key r.entry).mpr ⟨r, hr, hk'.symm.trans hk, rfl⟩]
    exact Option.some_ne_none _
  · intro hkey
    obtain ⟨re, hre⟩ := Option.ne_none_iff_exists'.mp hkey
    obtain ⟨r, hr, hk, -⟩ := (hc key re).mp hre
    obtain ⟨ent, hread, hent, -⟩ := (h.shows r hr).live
    exact ⟨_, h.index.node_mem (List.mem_map_of_mem hr), ent, hread, hent.trans hk⟩

/-- What can happen to the index: an event, or a single turn of the loop of `process_timers`, so
that the states between two disposals count too. -/
inductive TtlEvent where
  | call (ev : StoreEvent)
  | turn (now nworks : Nat)

def ttlStep (strtod : Bytes → StrtodResult) (st : Store) : TtlEvent → Option Store
  | .call ev => (storeStep strtod st ev).map Prod.fst
  | .turn now nworks => (processTimersTurn now (st, nworks)).map fun
      | .again (st, _) => st
      | .done st => st

/-- One of these keeps the store standing for some map, whatever the clock says. -/
theorem ttlStep_models (strtod : Bytes → StrtodResult) {st : Store} {m : RefStore ZTree}
    (h : st.Models (· = ·) m) (ev : TtlEvent) :
    ∃ st' m', ttlStep strtod st ev = some st' ∧ st'.Models (· = ·) m' := by
  cases ev with
  | call ev =>
    obtain ⟨st', o, m', hrun, h'⟩ := storeStep_models treeReading_sound strtod h ev
    exact ⟨st', m', by simp [ttlStep, hrun], h'⟩
  | turn now nworks =>
    by_cases hd : st.headDue now
    · obtain ⟨st', m', hrun, h', -⟩ := processTimersTurn_due h hd nworks
      refine ⟨st', m', ?_, h'⟩
      rw [ttlStep, hrun]
      split <;> rfl
    · exact ⟨st, m, by simp [ttlStep, processTimersTurn_idle hd], h⟩

theorem ttl_run_models (strtod : Bytes → StrtodResult) (evs : List TtlEvent) {st : Store}
    {m : RefStore ZTree} (h : st.Models (· = ·) m) :
    ∃ st', evs.foldlM (ttlStep strtod) st = some st' ∧ ∃ m', st'.Models (· = ·) m' := by
  refine foldlM_inv (fun st => ∃ m, st.Models (· = ·) m) (fun _ => True) ?_ evs st
    (fun _ _ => trivial) ⟨m, h⟩
  rintro st ev - ⟨m, h⟩
  obtain ⟨st', m', hstep, h'⟩ := ttlStep_models strtod h ev
  exact ⟨st', hstep, m', h'⟩

/-- **In every reachable state the index of deadlines is right.** No step faults, the assertion
of `process_timers` and the access in `do_ttl` among them, and an entry taken out of the map and
given to `entry_del` is disposed of or queued with no reference left. -/
theorem ttl_index_run (strtod : Bytes → StrtodResult) (threads : Nat) (evs : List TtlEvent) :
    ∃ st, evs.foldlM (ttlStep strtod) { threads := threads } = some st ∧ st.TtlIndex ∧
      ∀ key st₁ e, dbDelete st key = some (st₁, some e) →
        ∃ st₂, entryDel st₁ e = some st₂ ∧ st₂.TtlIndex ∧
          (st₂.ents.read e = none ∨ e ∈ st₂.queue) ∧ st₂.Unreferenced e := by
  obtain ⟨st, hrun, m, h⟩ := ttl_run_models strtod evs (Store.models_empty threads)
  refine ⟨st, hrun, h.ttlIndex, fun key st₁ e hdel => ?_⟩
  rcases dbDelete_spec h key with ⟨st', r, rows, hrun', -, hout, hc⟩ | ⟨st', hrun', -⟩
  · obtain ⟨rfl, rfl⟩ : st' = st₁ ∧ r.id = e := by
      rw [hrun'] at hdel
      cases hdel
      exact ⟨rfl, rfl⟩
    obtain ⟨st₂, hent, h₂, hgone, -⟩ := entryDel_spec hout
    have hindex : st₂.TtlIndex := Store.Models.ttlIndex ⟨rows, h₂, hc⟩
    exact ⟨st₂, hent, hindex, hgone, hindex.gone _ hgone⟩
  · rw [hrun'] at hdel
    cases hdel

end ApexDB
