import ApexDB.PooledStore
import ApexDB.Proof.Handover
import ApexDB.Proof.Disposal
import ApexDB.Proof.ThreadPool

/-!
# The store does not notice the workers

What the workers touch is detached: an entry is handed over after it has left the map and the
heap, and then it is in the hands of one worker only. So **a call that is cut into steps, with
workers in between, answers as a call in one piece does**, and every entry is disposed of once,
whoever does it. The bridge to the store of `KvStore.lean` is `behind`: the store here, with the
works of the pool that are not done as its queue.

A section of a call ends with at most one `thread_pool_queue`, and before that it touches
nothing that a worker touches. So nobody can tell in which order the effects inside of a section
were made, and it is enough that workers come between two sections.
-/

set_option autoImplicit false

namespace ApexDB

open Lib

/-! ## 1. Works that are not done

What the pool has to do is what waits and what is in hand. A worker that takes a work does not
change it, and one that is done makes it one less.
-/

def TheadPool.unfinished {α : Type} (tp : TheadPool α) : List α := tp.queue ++ tp.inFlight

section Pool

variable {α : Type} {tp tp' : TheadPool α} {queued : List α}

theorem signals_range (threads : List (Phase α)) : signals (List.range threads.length) threads = true := by
  unfold signals
  cases hany : threads.any Phase.isWaiting with
  | false => rfl
  | true =>
    obtain ⟨p, hp, hwait⟩ := List.any_eq_true.mp hany
    obtain ⟨i, hi⟩ := List.mem_iff_getElem?.mp hp
    have hlt : i < threads.length := (List.getElem?_eq_some_iff.mp hi).1
    refine List.any_eq_true.mpr ⟨i, List.mem_range.mpr hlt, ?_⟩
    rw [hi, Option.map_some, hwait]
    rfl

/-- With threads the work goes to the end of the queue; without, it is for the caller to see to
it. -/
theorem threadPoolQueue_unfinished (howner : tp.owner = .active) (w : α) {woken : List Nat}
    (hsig : signals woken tp.threads = true) :
    ∃ tp', threadPoolQueue tp w woken = some tp' ∧ tp'.owner = .active ∧
      tp'.threads.isEmpty = tp.threads.isEmpty ∧
      tp'.unfinished.Perm (if tp.threads.isEmpty then tp.unfinished else w :: tp.unfinished) := by
  unfold threadPoolQueue
  rw [if_neg (not_not.mpr howner), if_pos hsig]
  cases hempty : tp.threads.isEmpty with
  | true => exact ⟨_, rfl, howner, hempty, .refl _⟩
  | false =>
    refine ⟨_, rfl, howner, ?_, ?_⟩
    · rw [List.isEmpty_eq_false_iff] at hempty ⊢
      simpa [wakeThreads] using hempty
    · unfold TheadPool.unfinished TheadPool.inFlight
      rw [inFlight_wakeThreads, List.append_assoc]
      exact List.perm_middle

theorem threadPoolDestroy_unfinished (howner : tp.owner = .active) :
    ∃ tp', threadPoolDestroy tp = some tp' ∧ tp'.unfinished = tp.unfinished := by
  unfold threadPoolDestroy
  rw [if_neg (not_not.mpr howner)]
  split
  · exact ⟨_, rfl, rfl⟩
  · refine ⟨_, rfl, ?_⟩
    unfold TheadPool.unfinished TheadPool.inFlight
    rw [inFlight_map_wake]

theorem threadPoolJoin_unfinished (h : threadPoolJoin tp = some tp') : tp'.unfinished = tp.unfinished := by
  unfold threadPoolJoin at h
  split at h
  · split at h
    · split at h
      · cases h
        rfl
      · cases h
    · cases h
      rfl
  · cases h

theorem unfinished_set {i : Nat} {p q : Phase α} (hp : tp.threads[i]? = some p) (queue : List α) :
    (p.work?.toList ++ (queue ++ (tp.threads.set i q).filterMap Phase.work?)).Perm
      (q.work?.toList ++ (queue ++ tp.inFlight)) := by
  refine (List.perm_append_comm_assoc _ _ _).trans (((inFlight_set (q := q) hp).append_left queue).trans ?_)
  exact List.perm_append_comm_assoc _ _ _

/-- What a worker does: it has nothing to do with the works, or it is done with one. -/
theorem workerStep_unfinished {i : Nat} (h : workerStep tp i = some tp') :
    tp'.owner = tp.owner ∧
    ((∃ w, tp.threads[i]? = some (.running w) ∧ tp.unfinished.Perm (w :: tp'.unfinished)) ∨
      (tp.threads[i]? = some .ready ∧ tp'.unfinished.Perm tp.unfinished)) := by
  obtain ⟨hp, -, -, rfl⟩ | ⟨hp, -, -, rfl⟩ | ⟨w, rest, hp, hqueue, rfl⟩ | ⟨w, hp, rfl⟩ := workerStep_cases h
  · exact ⟨rfl, .inr ⟨hp, unfinished_set (q := .waiting) hp tp.queue⟩⟩
  · exact ⟨rfl, .inr ⟨hp, unfinished_set (q := .exited) hp tp.queue⟩⟩
  · refine ⟨rfl, .inr ⟨hp, ?_⟩⟩
    have hset := unfinished_set (q := .running w) hp rest
    unfold TheadPool.unfinished
    rw [hqueue]
    exact hset
  · exact ⟨rfl, .inl ⟨w, hp, (unfinished_set (q := .ready) hp tp.queue).symm⟩⟩

theorem spurious_unfinished {i : Nat} (h : tp.step (.spurious i) = some tp') :
    tp'.owner = tp.owner ∧ tp'.unfinished.Perm tp.unfinished := by
  simp only [TheadPool.step] at h
  split at h
  · rename_i hp
    cases h
    exact ⟨rfl, unfinished_set (q := .ready) hp tp.queue⟩
  · cases h

end Pool

/-! ## 2. The store and the works that are not done

The arena of the entries is shared between the threads, and freeing is the one thing that a
worker does to it. An entry that is unfinished is in no row, so this concerns no row.
-/

section Tended

variable {Z : Type} {rel : ZTree → Z → Prop} {st : Store} {tp : TheadPool EntryId} {m : RefStore Z}

/-- The order in which works wait does not matter. -/
theorem Store.Models.of_queue (h : st.Models rel m) {queue : List EntryId} (hq : queue.Perm st.queue) :
    Store.Models rel { st with queue := queue } m := by
  obtain ⟨rows, h, hc⟩ := h
  refine ⟨rows, ⟨⟨?_, h.keys, h.timers, h.armed, ?_, hq.nodup_iff.mpr h.queue⟩, ⟨?_, h.disposed⟩, h.index⟩, hc⟩
  · exact fun r hr => ⟨(h.shows r hr).live, (h.shows r hr).deadline⟩
  · exact fun e he => h.waiting e (hq.mem_iff.mp he)
  · exact fun e ent hread => (h.owned e ent hread).imp_right hq.mem_iff.mpr

/-- **The store of a pool stands for this map**: the bridge to `KvStore.lean`. -/
structure Tended (rel : ZTree → Z → Prop) (st : Store) (tp : TheadPool EntryId) (m : RefStore Z) : Prop where
  pool : ∃ queued, tp.Inv queued
  queue : st.queue = []
  models : (st.behind tp.unfinished).Models rel m

theorem Store.Models.reorder {q q' : List EntryId} (h : (st.behind q).Models rel m) (hq : q'.Perm q) :
    (st.behind q').Models rel m := h.of_queue (hq.append_right st.queue)

theorem entryDelSync_heap {st st' : Store} {e : EntryId} (h : entryDelSync st e = some st') : st'.heap = st.heap := by
  simp only [entryDelSync, Option.bind_eq_bind, Option.bind_eq_some_iff] at h
  obtain ⟨ent, -, zs, -, ents₁, -, ents, -, hst⟩ := h
  cases hst
  rfl

/-- One of the works is run, by whomever. -/
theorem Store.Models.run_work {q q' : List EntryId} {e : EntryId} (h : (st.behind q).Models rel m)
    (hqueue : st.queue = []) (hq : q.Perm (e :: q')) :
    ∃ st', entryDelSync st e = some st' ∧ st'.queue = [] ∧ st'.heap = st.heap ∧
      (st'.behind q').Models rel m := by
  obtain ⟨rows, h, hc⟩ := h
  have hperm : (st.behind q).queue.Perm (e :: q') := by
    rw [Store.behind, hqueue, List.append_nil]
    exact hq
  obtain ⟨st₁, hrun, h₁, hq₁, -⟩ := h.finish hperm
  have hsame : ({ st.behind q with queue := q' } : Store) = st.behind q' := by
    simp [Store.behind, hqueue]
  have hhands : entryDelSync (st.behind q') e = (entryDelSync st e).map (Store.behind · q') :=
    handsOn_entryDelSync e q' st
  rw [hsame, hhands] at hrun
  obtain ⟨st', hrun', rfl⟩ := Option.map_eq_some_iff.mp hrun
  exact ⟨st', hrun', List.self_eq_append_right.mp hq₁.symm, entryDelSync_heap hrun', rows, h₁, hc⟩

/-- **`thread_pool_queue`**, for the works that a section of the owning thread hands over. -/
theorem PooledStore.queueWorks (woken : List Nat) : ∀ (works : List EntryId) (c : PooledStore),
    (∃ queued, c.pool.Inv queued) → c.pool.owner = .active → c.store.queue = [] →
    (c.store.behind (c.pool.unfinished ++ works)).Models rel m →
    ∃ st tp, works.foldlM (PooledStore.queueWork woken) c = some { c with store := st, pool := tp } ∧
      Tended rel st tp m ∧ tp.owner = .active ∧ st.heap = c.store.heap := by
  intro works
  induction works with
  | nil =>
    intro c hpool howner hqueue hm
    rw [List.append_nil] at hm
    exact ⟨c.store, c.pool, rfl, ⟨hpool, hqueue, hm⟩, howner, rfl⟩
  | cons e works ih =>
    intro c hpool howner hqueue hm
    obtain ⟨queued, hinv⟩ := hpool
    -- some choice of the threads to unblock is possible
    obtain ⟨woken', hwoken, hsig⟩ : ∃ w, (if signals woken c.pool.threads then woken
        else List.range c.pool.threads.length) = w ∧ signals w c.pool.threads = true := by
      refine ⟨_, rfl, ?_⟩
      split
      · assumption
      · exact signals_range _
    obtain ⟨tp, hrun, howner', hempty, hperm⟩ := threadPoolQueue_unfinished howner e hsig
    have hinv' := hinv.queue hrun
    obtain ⟨st, hstore, hq, hheap, hm'⟩ : ∃ st,
        (if tp.threads.isEmpty then entryDelSync c.store e else some c.store) = some st ∧ st.queue = [] ∧
        st.heap = c.store.heap ∧ (st.behind (tp.unfinished ++ works)).Models rel m := by
      rw [hempty]
      cases hthreads : c.pool.threads.isEmpty with
      | true =>
        rw [hthreads, if_pos rfl] at hperm
        obtain ⟨st, hdel, hq, hheap, h'⟩ := hm.run_work hqueue List.perm_middle
        exact ⟨st, hdel, hq, hheap, h'.reorder (hperm.append_right works)⟩
      | false =>
        rw [hthreads, if_neg (by decide)] at hperm
        exact ⟨c.store, rfl, hqueue, rfl, hm.reorder ((hperm.append_right works).trans List.perm_middle.symm)⟩
    obtain ⟨st', tp', hrest, htended, howner'', hheap'⟩ :=
      ih { c with store := st, pool := tp } ⟨_, hinv'⟩ howner' hq hm'
    refine ⟨st', tp', ?_, htended, howner'', hheap'.trans hheap⟩
    rw [List.foldlM_cons]
    simp only [PooledStore.queueWork, hwoken, hrun, hstore, Option.bind_eq_bind, Option.bind_some]
    exact hrest

theorem PooledStore.handOver_spec (woken : List Nat) {c : PooledStore} (hpool : ∃ queued, c.pool.Inv queued)
    (howner : c.pool.owner = .active) (hm : (st.behind c.pool.unfinished).Models rel m) :
    ∃ st' tp, PooledStore.handOver woken c st = some { c with store := st', pool := tp } ∧
      Tended rel st' tp m ∧ tp.owner = .active ∧ st'.heap = st.heap := by
  refine PooledStore.queueWorks woken st.queue { c with store := { st with queue := [] } } hpool howner rfl ?_
  have hsame : Store.behind { st with queue := [] } (c.pool.unfinished ++ st.queue) = st.behind c.pool.unfinished := by
    rw [Store.behind, Store.behind, List.append_nil]
  rw [hsame]
  exact hm

/-- **A worker** takes the entry that it disposes of from nobody. -/
theorem PooledStore.worker_spec {c : PooledStore} (h : Tended rel c.store c.pool m) (i : Nat) :
    ∃ st tp, c.worker i = some { c with store := st, pool := tp } ∧ Tended rel st tp m ∧
      tp.owner = c.pool.owner ∧ st.heap = c.store.heap := by
  unfold PooledStore.worker
  cases hstep : workerStep c.pool i with
  | none => exact ⟨c.store, c.pool, rfl, h, rfl, rfl⟩
  | some tp =>
    obtain ⟨queued, hinv⟩ := h.pool
    have hinv' := hinv.worker hstep
    obtain ⟨howner, ⟨e, hp, hperm⟩ | ⟨hp, hperm⟩⟩ := workerStep_unfinished hstep
    · obtain ⟨st, hdel, hq, hheap, hm⟩ := h.models.run_work h.queue hperm
      exact ⟨st, tp, by simp only [hp, hdel]; rfl, ⟨⟨queued, hinv'⟩, hq, hm⟩, howner, hheap⟩
    · exact ⟨c.store, tp, by simp only [hp]; rfl, ⟨⟨queued, hinv'⟩, h.queue, h.models.reorder hperm⟩, howner, rfl⟩

end Tended

/-! ## 3. Calls in steps

The invariant relates the store, the pool and the reference at every point between two sections.
A call is reflected in the reference when it returns; until then the store may have lost entries
that are due, and nothing else.
-/

def Pc.call? : Pc → Option StoreEvent
  | .expiring now clk cmd => some (.execute now clk cmd)
  | .passing now _ (some (clk, cmd)) => some (.execute now clk cmd)
  | .passing now _ none => some (.processTimers now now)
  | _ => none

def StoreEvent.reading : StoreEvent → Nat
  | .execute now _ _ => now
  | .processTimers now _ => now
  | .work => 0

/-- The owning thread uses the pool. -/
def Pc.active : Pc → Prop
  | .destroying | .gone => False
  | _ => True

section Inv

variable {Z : Type} (rel : ZTree → Z → Prop) (R : Reading Z) (strtod : Bytes → StrtodResult)

def PooledStore.ref (c : PooledStore) : RefState Z := (refMachine R strtod).final ⟨∅, 0⟩ c.calls

/-- The calls have been made with a clock that does not go back, the one under way included. -/
def PooledStore.Timely (c : PooledStore) : Prop :=
  (refMachine R strtod).Legal ⟨∅, 0⟩ (c.calls ++ c.pc.call?.toList)

def PooledStore.reading (c : PooledStore) : Nat :=
  match c.pc.call? with
  | some call => call.reading
  | none => (c.ref R strtod).clock

/-- **The invariant.** Until the store is gone it stands for a map that agrees with the
reference in what is not due, and after that nothing is left of it. -/
structure PooledStore.Inv (c : PooledStore) : Prop where
  admits : c.Timely R strtod → (refMachine R strtod).Admits ⟨∅, 0⟩ c.calls c.replies
  owner : c.pc.active → c.pool.owner = .active
  live : c.pc ≠ .gone → ∃ m, Tended rel c.store c.pool m ∧
    (c.Timely R strtod → m.purge (c.reading R strtod) = (c.ref R strtod).map.purge (c.reading R strtod))
  gone : c.pc = .gone → c.store.Kept [] ∧ c.store.queue = [] ∧ ∀ p ∈ c.pool.threads, p = .exited

variable {rel R strtod} {c : PooledStore}

/-- Something happens that the reference does not see: the call under way remains so. -/
theorem PooledStore.Inv.stay (hinv : c.Inv rel R strtod) {pc : Pc} {st : Store} {tp : TheadPool EntryId} {m : RefStore Z}
    (hcall : pc.call? = c.pc.call?) (howner : pc.active → tp.owner = .active) (hpc : pc ≠ .gone)
    (htended : Tended rel st tp m)
    (hm : c.Timely R strtod → m.purge (c.reading R strtod) = (c.ref R strtod).map.purge (c.reading R strtod)) :
    PooledStore.Inv rel R strtod { c with store := st, pool := tp, pc := pc } := by
  have htimely : PooledStore.Timely R strtod { c with store := st, pool := tp, pc := pc } ↔ c.Timely R strtod := by
    unfold PooledStore.Timely
    rw [hcall]
  have hreading : PooledStore.reading R strtod { c with store := st, pool := tp, pc := pc } = c.reading R strtod := by
    unfold PooledStore.reading
    rw [hcall]
    rfl
  refine ⟨fun ht => hinv.admits (htimely.mp ht), howner, fun _ => ⟨m, htended, fun ht => ?_⟩,
    fun h => absurd h hpc⟩
  rw [hreading]
  exact hm (htimely.mp ht)

theorem PooledStore.Inv.begin (hinv : c.Inv rel R strtod) (hidle : c.pc = .idle) {pc : Pc} {call : StoreEvent}
    (hcall : pc.call? = some call)
    (hclock : ∀ s : RefState Z, (refMachine R strtod).pre s call → s.clock ≤ call.reading) :
    PooledStore.Inv rel R strtod { c with pc := pc } := by
  have hnone : c.pc.call? = none := by rw [hidle]; rfl
  -- the call is one more, so what was legal before still is
  have hbefore : PooledStore.Timely R strtod { c with pc := pc } →
      c.Timely R strtod ∧ (c.ref R strtod).clock ≤ call.reading := by
    intro ht
    unfold PooledStore.Timely at ht ⊢
    rw [hcall, Option.toList_some, Machine.legal_concat] at ht
    rw [hnone, Option.toList_none, List.append_nil]
    exact ⟨ht.1, hclock _ ht.2⟩
  obtain ⟨m, htended, hm⟩ := hinv.live (by rw [hidle]; nofun)
  have hreading : c.reading R strtod = (c.ref R strtod).clock := by
    unfold PooledStore.reading
    rw [hnone]
  refine ⟨fun ht => hinv.admits (hbefore ht).1, fun _ => hinv.owner (by rw [hidle]; trivial),
    fun _ => ⟨m, htended, fun ht => ?_⟩, fun h => ?_⟩
  · have hreading' : PooledStore.reading R strtod { c with pc := pc } = call.reading := by
      unfold PooledStore.reading
      rw [hcall]
    obtain ⟨ht, hle⟩ := hbefore ht
    have hm := hm ht
    rw [hreading] at hm
    rw [hreading']
    exact purge_eq_mono hle hm
  · dsimp only at h
    rw [h] at hcall
    cases hcall

/-- **A call returns**: the reference makes its move, and admits what was written. -/
theorem PooledStore.Inv.done (hinv : c.Inv rel R strtod) {call : StoreEvent} {out : Bytes} {st : Store}
    {tp : TheadPool EntryId} {m : RefStore Z} (hcall : c.pc.call? = some call) (htended : Tended rel st tp m)
    (howner : tp.owner = .active)
    (hmove : c.Timely R strtod → (refMachine R strtod).admits (c.ref R strtod) call out ∧
      m.purge ((refMachine R strtod).next (c.ref R strtod) call).clock =
        ((refMachine R strtod).next (c.ref R strtod) call).map.purge
          ((refMachine R strtod).next (c.ref R strtod) call).clock) :
    PooledStore.Inv rel R strtod (PooledStore.done { c with store := st, pool := tp } call out) := by
  have htimely : PooledStore.Timely R strtod (PooledStore.done { c with store := st, pool := tp } call out) →
      c.Timely R strtod := by
    intro ht
    unfold PooledStore.Timely
    rw [hcall]
    simpa [PooledStore.Timely, PooledStore.done, Pc.call?] using ht
  have href : PooledStore.ref R strtod (PooledStore.done { c with store := st, pool := tp } call out) =
      (refMachine R strtod).next (c.ref R strtod) call := Machine.final_concat ..
  refine ⟨fun ht => ?_, fun _ => howner, fun _ => ⟨m, htended, fun ht => ?_⟩, nofun⟩
  · exact (hinv.admits (htimely ht)).snoc (hmove (htimely ht)).1
  · have hreading : PooledStore.reading R strtod (PooledStore.done { c with store := st, pool := tp } call out) =
        ((refMachine R strtod).next (c.ref R strtod) call).clock := congrArg RefState.clock href
    rw [hreading, href]
    exact (hmove (htimely ht)).2

def Store.rootDue (st : Store) (now : Nat) : Bool := st.heap.head?.any fun item => decide (item.val ≤ now)

theorem Store.rootDue_iff {st : Store} {now : Nat} : st.rootDue now = true ↔ st.headDue now := by
  unfold Store.rootDue Store.headDue
  cases st.heap.head? <;> simp

/-- A bound for the sections that the call under way still has. Each of them makes it smaller,
as `process_timers` never returns with the same heap and a root that is due. -/
def PooledStore.effort (c : PooledStore) : Nat :=
  match c.pc with
  | .expiring now _ _ => if c.store.rootDue now then 2 * c.store.heap.length + 3 else 1
  | .passing _ _ _ => 2 * c.store.heap.length + 2
  | _ => 0

/-- The call has returned, or it is nearer to its end. -/
def PooledStore.Nearer (c c' : PooledStore) : Prop :=
  c.calls.length < c'.calls.length ∨ (c'.pc.call?.isSome ∧ c'.calls = c.calls ∧ c'.effort < c.effort)

theorem PooledStore.Inv.go_expiring (hinv : c.Inv rel R strtod) (hR : R.Sound rel) {now clk : Nat} {cmd : List Bytes}
    (hpc : c.pc = .expiring now clk cmd) (woken : List Nat) :
    ∃ c', c.go strtod woken = some c' ∧ c'.Inv rel R strtod ∧ c.Nearer c' := by
  have hcall : c.pc.call? = some (.execute now clk cmd) := by rw [hpc]; rfl
  have howner := hinv.owner (by rw [hpc]; trivial)
  have hreading : c.reading R strtod = now := by
    unfold PooledStore.reading
    rw [hcall]
    rfl
  obtain ⟨m, htended, hm⟩ := hinv.live (by rw [hpc]; nofun)
  unfold PooledStore.go
  rw [hpc]
  dsimp only
  split
  · rename_i hdue
    refine ⟨_, rfl, hinv.stay hcall.symm (fun _ => howner) nofun htended hm, .inr ⟨rfl, rfl, ?_⟩⟩
    have hdue : c.store.rootDue now = true := hdue
    simp only [PooledStore.effort, hpc, if_pos hdue]
    omega
  · rename_i hdue
    have hnot : ¬(c.store.behind c.pool.unfinished).headDue now := fun h => hdue (Store.rootDue_iff.mpr h)
    -- nothing is due, so the command sees what the reference sees
    have hpurged : m.purge now = m := purge_of_not_due (htended.models.not_due hnot)
    have hspec : Answers rel [] _ _ := runCommand_spec hR strtod clk htended.models (dispatch cmd)
    obtain ⟨st, v, hrun, hv, hst⟩ := hspec
    have hhands : runCommand strtod clk (c.store.behind c.pool.unfinished) [] (dispatch cmd) = _ :=
      hands_runCommand strtod clk [] (dispatch cmd) c.pool.unfinished c.store
    rw [hhands] at hrun
    obtain ⟨⟨st₁, out⟩, hrun₁, hsame⟩ := Option.map_eq_some_iff.mp hrun
    cases hsame
    obtain ⟨st₂, tp, hhand, htended₂, howner₂, -⟩ := PooledStore.handOver_spec woken htended.pool howner hst
    simp only [hrun₁, hhand, Option.bind_eq_bind, Option.bind_some]
    refine ⟨_, rfl, hinv.done hcall htended₂ howner₂ fun ht => ?_, .inl (by simp [PooledStore.done])⟩
    have heq : m = (c.ref R strtod).map.purge now := by
      have h := hm ht
      rw [hreading, hpurged] at h
      exact h
    rw [heq] at hv
    exact ⟨⟨v, rfl, hv⟩, by rw [heq]; rfl⟩

def Turn.store : Turn (Store × Nat) Store → Store
  | .again s => s.1
  | .done st => st

/-- A turn of `process_timers` with works that are not done: some entries that are due go. -/
theorem processTimersTurn_tended {st : Store} {q : List EntryId} {m : RefStore Z}
    (h : (st.behind q).Models rel m) (now n : Nat) :
    ∃ r m', processTimersTurn now (st, n) = some r ∧ ((Turn.store r).behind q).Models rel m' ∧ Faded now m m' ∧
      ((Turn.store r).heap.length < st.heap.length ∨ r = .done st ∧ st.rootDue now = false) := by
  by_cases hd : (st.behind q).headDue now
  · obtain ⟨st', m', hturn, h', hf, hlt⟩ := processTimersTurn_due h hd n
    rw [processTimersTurn_behind] at hturn
    obtain ⟨r, hturn₀, hr⟩ := Option.map_eq_some_iff.mp hturn
    have hstore : (Turn.store r).behind q = st' := by
      have := congrArg Turn.store hr
      cases r <;> split at this <;> exact this
    have hlt' : (Turn.store r).heap.length < st.heap.length := by
      rw [← hstore] at hlt
      exact hlt
    rw [← hstore] at h'
    exact ⟨r, m', hturn₀, h', hf, .inl hlt'⟩
  · have hnot : ¬st.headDue now := hd
    refine ⟨_, m, processTimersTurn_idle hnot n, h, Faded.refl now m, .inr ⟨rfl, ?_⟩⟩
    rw [← Bool.not_eq_true, Store.rootDue_iff]
    exact hnot

theorem PooledStore.Inv.go_passing (hinv : c.Inv rel R strtod) {now n : Nat} {caller : Option (Nat × List Bytes)}
    (hpc : c.pc = .passing now n caller) (woken : List Nat) :
    ∃ c', c.go strtod woken = some c' ∧ c'.Inv rel R strtod ∧ c.Nearer c' := by
  have howner := hinv.owner (by rw [hpc]; trivial)
  obtain ⟨m, htended, hm⟩ := hinv.live (by rw [hpc]; nofun)
  obtain ⟨r, m', hturn, hmodels, hf, hless⟩ := processTimersTurn_tended htended.models now n
  have hreading : c.reading R strtod = now := by
    unfold PooledStore.reading
    rw [hpc]
    cases caller <;> rfl
  have hm' : c.Timely R strtod → m'.purge (c.reading R strtod) = (c.ref R strtod).map.purge (c.reading R strtod) := by
    intro ht
    rw [← hm ht, hreading]
    exact hf.purge_eq
  unfold PooledStore.go
  rw [hpc]
  simp only [hturn, Option.bind_eq_bind, Option.bind_some]
  cases r with
  | again s =>
    obtain ⟨st, tp, hhand, htended', howner', hheap⟩ := PooledStore.handOver_spec
      (c := { c with pc := .passing now s.2 caller }) woken htended.pool howner hmodels
    have hlt : st.heap.length < c.store.heap.length := by
      rw [hheap]
      exact hless.resolve_right fun h => nomatch h.1
    refine ⟨_, hhand, hinv.stay ?_ (fun _ => howner') nofun htended' hm', .inr ⟨?_, rfl, ?_⟩⟩
    · rw [hpc]
      cases caller <;> rfl
    · cases caller <;> rfl
    · simp only [PooledStore.effort, hpc]
      omega
  | done st₁ =>
    obtain ⟨st, tp, hhand, htended', howner', hheap⟩ :=
      PooledStore.handOver_spec woken htended.pool howner hmodels
    have hheap : st.heap = st₁.heap := hheap
    have hhand : PooledStore.handOver woken c st₁ = _ := hhand
    simp only [hhand, Option.bind_some]
    cases caller with
    | some call =>
      have hstay : PooledStore.Inv rel R strtod { c with store := st, pool := tp, pc := .expiring now call.1 call.2 } :=
        hinv.stay (by rw [hpc]; rfl) (fun _ => howner') nofun htended' hm'
      refine ⟨_, rfl, hstay, .inr ⟨rfl, rfl, ?_⟩⟩
      -- the heap is shorter now, or its root is not due
      simp only [PooledStore.passed, PooledStore.effort, hpc, Store.rootDue, hheap]
      rcases hless with hlt | ⟨hsame, hdue⟩
      · have hlt : st₁.heap.length < c.store.heap.length := hlt
        split
        · omega
        · omega
      · cases hsame
        rw [Store.rootDue] at hdue
        rw [hdue, if_neg (by decide)]
        omega
    | none =>
      have hcall : c.pc.call? = some (.processTimers now now) := by rw [hpc]; rfl
      refine ⟨_, rfl, hinv.done hcall htended' howner' fun ht => ⟨rfl, ?_⟩,
        .inl (by simp [PooledStore.passed, PooledStore.done])⟩
      have h := hm' ht
      rw [hreading] at h
      exact h

def PooledEvent.isGo : PooledEvent → Bool
  | .go _ => true
  | _ => false

/-- What a step does to the call under way, if there is one: the owning thread brings it nearer
to its end, and nobody else touches it. -/
def PooledStore.Moves (c : PooledStore) (ev : PooledEvent) (c' : PooledStore) : Prop :=
  (c.pc.call? = none ∧ c'.calls = c.calls) ∨ (ev.isGo = true ∧ c.Nearer c') ∨
    (ev.isGo = false ∧ c'.pc = c.pc ∧ c'.calls = c.calls ∧ c'.store.heap = c.store.heap)

theorem PooledStore.Inv.go (hinv : c.Inv rel R strtod) (hR : R.Sound rel) (woken : List Nat) :
    ∃ c', c.go strtod woken = some c' ∧ c'.Inv rel R strtod ∧ c.Moves (.go woken) c' := by
  cases hpc : c.pc with
  | idle => exact ⟨c, by rw [PooledStore.go, hpc], hinv, .inl ⟨by rw [hpc]; rfl, rfl⟩⟩
  | expiring now clk cmd =>
    obtain ⟨c', hrun, hinv', hnear⟩ := hinv.go_expiring hR hpc woken
    exact ⟨c', hrun, hinv', .inr (.inl ⟨rfl, hnear⟩)⟩
  | passing now n caller =>
    obtain ⟨c', hrun, hinv', hnear⟩ := hinv.go_passing hpc woken
    exact ⟨c', hrun, hinv', .inr (.inl ⟨rfl, hnear⟩)⟩
  | gone => exact ⟨c, by rw [PooledStore.go, hpc], hinv, .inl ⟨by rw [hpc]; rfl, rfl⟩⟩
  | destroying =>
    obtain ⟨m, htended, hm⟩ := hinv.live (by rw [hpc]; nofun)
    obtain ⟨queued, hpool⟩ := htended.pool
    have hcall : c.pc.call? = none := by rw [hpc]; rfl
    unfold PooledStore.go
    rw [hpc]
    dsimp only
    split
    · -- all threads have returned, so no work is left
      rename_i hret
      obtain ⟨hflight, hqueue⟩ := hpool.nothing_left hret
      have hmodels := htended.models
      rw [TheadPool.unfinished, hqueue, hflight] at hmodels
      have hempty : List.Perm [] (c.store.behind []).queue := by rw [Store.behind, htended.queue]; exact .refl _
      obtain ⟨st, hdestroy, hkept, hnone⟩ := implDestroy_spec hmodels hempty
      have hdestroy : implDestroy [] c.store = some st := hdestroy
      refine ⟨{ c with store := st, pc := .gone }, by rw [hdestroy]; rfl, ⟨fun ht => hinv.admits ?_, fun h => h.elim,
        fun h => absurd rfl h, fun _ => ⟨hkept, hnone, hpool.returned hret⟩⟩, .inl ⟨hcall, rfl⟩⟩
      unfold PooledStore.Timely
      rw [hpc]
      exact ht
    · cases hjoin : threadPoolJoin c.pool with
      | none => exact ⟨c, rfl, hinv, .inl ⟨hcall, rfl⟩⟩
      | some tp =>
        have htended' : Tended rel c.store tp m := by
          refine ⟨⟨queued, hpool.join hjoin⟩, htended.queue, ?_⟩
          rw [threadPoolJoin_unfinished hjoin]
          exact htended.models
        have hstay : PooledStore.Inv rel R strtod { c with store := c.store, pool := tp, pc := .destroying } :=
          hinv.stay (by rw [hpc]) (fun h => h.elim) nofun htended' hm
        exact ⟨_, rfl, hstay, .inl ⟨hcall, rfl⟩⟩

/-- **A worker goes on**, whatever the owning thread is doing. -/
theorem PooledStore.Inv.worker (hinv : c.Inv rel R strtod) (i : Nat) :
    ∃ c', c.worker i = some c' ∧ c'.Inv rel R strtod ∧ c.Moves (.worker i) c' := by
  by_cases hpc : c.pc = .gone
  · -- all threads have returned
    obtain ⟨-, -, hexited⟩ := hinv.gone hpc
    have hnone : workerStep c.pool i = none := by
      unfold workerStep
      cases hp : c.pool.threads[i]? with
      | none => rfl
      | some p => rw [hexited p (List.mem_of_getElem? hp)]
    exact ⟨c, by rw [PooledStore.worker, hnone], hinv, .inr (.inr ⟨rfl, rfl, rfl, rfl⟩)⟩
  · obtain ⟨m, htended, hm⟩ := hinv.live hpc
    obtain ⟨st, tp, hrun, htended', howner, hheap⟩ := PooledStore.worker_spec htended i
    exact ⟨_, hrun, hinv.stay rfl (fun h => howner.trans (hinv.owner h)) hpc htended' hm,
      .inr (.inr ⟨rfl, rfl, rfl, hheap⟩)⟩

theorem PooledStore.Inv.spurious (hinv : c.Inv rel R strtod) (i : Nat) :
    ∃ c', c.step strtod (.spurious i) = some c' ∧ c'.Inv rel R strtod ∧ c.Moves (.spurious i) c' := by
  refine ⟨_, rfl, ?_⟩
  cases hstep : c.pool.step (.spurious i) with
  | none => exact ⟨hinv, .inr (.inr ⟨rfl, rfl, rfl, rfl⟩)⟩
  | some tp =>
    by_cases hpc : c.pc = .gone
    · obtain ⟨-, -, hexited⟩ := hinv.gone hpc
      simp only [TheadPool.step] at hstep
      split at hstep
      · rename_i hp
        cases hexited _ (List.mem_of_getElem? hp)
      · cases hstep
    · obtain ⟨m, ⟨⟨queued, hpool⟩, hqueue, hmodels⟩, hm⟩ := hinv.live hpc
      obtain ⟨howner, hperm⟩ := spurious_unfinished hstep
      exact ⟨hinv.stay rfl (fun h => howner.trans (hinv.owner h)) hpc
        ⟨⟨_, hpool.step hstep⟩, hqueue, hmodels.reorder hperm⟩ hm, .inr (.inr ⟨rfl, rfl, rfl, rfl⟩)⟩

theorem PooledStore.Inv.destroy (hinv : c.Inv rel R strtod) (hpc : c.pc = .idle) :
    ∃ tp, threadPoolDestroy c.pool = some tp ∧
      PooledStore.Inv rel R strtod { c with pool := tp, pc := .destroying } := by
  obtain ⟨m, ⟨⟨queued, hpool⟩, hqueue, hmodels⟩, hm⟩ := hinv.live (by rw [hpc]; nofun)
  obtain ⟨tp, hdestroy, hsame⟩ := threadPoolDestroy_unfinished (hinv.owner (by rw [hpc]; trivial))
  refine ⟨tp, hdestroy, hinv.stay (by rw [hpc]; rfl) (fun h => h.elim) nofun
    ⟨⟨queued, hpool.destroy hdestroy⟩, hqueue, ?_⟩ hm⟩
  rw [hsame]
  exact hmodels

/-- **Every step keeps the invariant**, and none of them is a fault. -/
theorem PooledStore.Inv.step (hinv : c.Inv rel R strtod) (hR : R.Sound rel) (ev : PooledEvent) :
    ∃ c', c.step strtod ev = some c' ∧ c'.Inv rel R strtod ∧ c.Moves ev c' := by
  have hidle : c.pc = .idle → c.pc.call? = none := fun hpc => by rw [hpc]; rfl
  cases ev with
  | execute now clk cmd =>
    by_cases hpc : c.pc = .idle
    · exact ⟨_, if_pos hpc, hinv.begin hpc rfl fun s hp => hp.1, .inl ⟨hidle hpc, rfl⟩⟩
    · exact ⟨c, if_neg hpc, hinv, .inr (.inr ⟨rfl, rfl, rfl, rfl⟩)⟩
  | processTimers now =>
    by_cases hpc : c.pc = .idle
    · exact ⟨_, if_pos hpc, hinv.begin hpc rfl fun s hp => hp.1, .inl ⟨hidle hpc, rfl⟩⟩
    · exact ⟨c, if_neg hpc, hinv, .inr (.inr ⟨rfl, rfl, rfl, rfl⟩)⟩
  | destroy =>
    by_cases hpc : c.pc = .idle
    · obtain ⟨tp, hdestroy, hinv'⟩ := hinv.destroy hpc
      exact ⟨_, by rw [PooledStore.step, if_pos hpc, hdestroy]; rfl, hinv', .inl ⟨hidle hpc, rfl⟩⟩
    · exact ⟨c, if_neg hpc, hinv, .inr (.inr ⟨rfl, rfl, rfl, rfl⟩)⟩
  | go woken => exact hinv.go hR woken
  | worker i => exact hinv.worker i
  | spurious i => exact hinv.spurious i

end Inv

end ApexDB
