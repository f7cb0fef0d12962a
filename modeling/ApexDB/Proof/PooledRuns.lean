import ApexDB.Proof.PooledStore
import ApexDB.Proof.StoreLimits

/-!
# Whole runs of the store with its threads

`PooledStore.Inv.step` says what one step keeps. Here it is put together for whole runs: no step
faults, a call returns however the workers are scheduled, and after the destructor nothing is
left.

The second half follows one run through the pool. **`entry_del` hands over a set of more than a
thousand members and disposes of any other entry itself** (`entryDel_queue`); a run that is to
show the pool at work needs a set of that size, too large to be evaluated. So its thousand calls
are not run but followed: while no key has a deadline a call is its command alone
(`AtRest.call`), the reference says what is in the set afterwards, and between calls the pool
moves by itself (`run_view`).
-/

set_option autoImplicit false

namespace ApexDB

open Lib BinaryTree

/-! ## 1. Calls return

A run may interleave the sections of one call with any number of steps of workers. Those do not
count, so a bound on the sections is a bound on how long the call can take, as long as its
thread is scheduled at all.
-/

section Inv

variable {Z : Type} {rel : ZTree → Z → Prop} {R : Reading Z} {strtod : Bytes → StrtodResult} {c : PooledStore}

theorem PooledStore.Moves.calls_le {c c' : PooledStore} {ev : PooledEvent} (h : c.Moves ev c') :
    c.calls.length ≤ c'.calls.length := by
  rcases h with ⟨-, h⟩ | ⟨-, h | ⟨-, h, -⟩⟩ | ⟨-, -, h, -⟩
  · rw [h]
  · exact h.le
  · rw [h]
  · rw [h]

theorem PooledStore.Inv.run_calls (hR : R.Sound rel) : ∀ {evs : List PooledEvent} {c c' : PooledStore}, c.Inv rel R strtod →
    evs.foldlM (PooledStore.step strtod) c = some c' → c.calls.length ≤ c'.calls.length := by
  intro evs
  induction evs with
  | nil =>
    intro c c' _ hrun
    cases hrun
    exact Nat.le_refl _
  | cons ev evs ih =>
    intro c c' hinv hrun
    obtain ⟨c₁, hstep, hinv₁, hmoves⟩ := hinv.step hR ev
    rw [List.foldlM_cons, hstep] at hrun
    exact hmoves.calls_le.trans (ih hinv₁ hrun)

/-- A call that is under way has something left to do. -/
theorem PooledStore.effort_pos {c : PooledStore} (hcall : c.pc.call?.isSome) : 0 < c.effort := by
  unfold PooledStore.effort
  cases hpc : c.pc with
  | expiring now clk cmd =>
    dsimp only
    split <;> omega
  | passing now n caller =>
    dsimp only
    omega
  | _ =>
    rw [hpc] at hcall
    cases hcall

/-- **A call returns after so many sections of its own**, however many steps of workers are in
between. -/
theorem PooledStore.Inv.returns (hR : R.Sound rel) : ∀ {evs : List PooledEvent} {c c' : PooledStore}, c.Inv rel R strtod →
    c.pc.call?.isSome → c.effort ≤ evs.countP PooledEvent.isGo →
    evs.foldlM (PooledStore.step strtod) c = some c' → c.calls.length < c'.calls.length := by
  intro evs
  induction evs with
  | nil =>
    intro c c' _ hcall heffort _
    exact absurd heffort (Nat.not_le_of_lt (PooledStore.effort_pos hcall))
  | cons ev evs ih =>
    intro c c' hinv hcall heffort hrun
    obtain ⟨c₁, hstep, hinv₁, hmoves⟩ := hinv.step hR ev
    rw [List.foldlM_cons, hstep] at hrun
    rw [List.countP_cons] at heffort
    rcases hmoves with ⟨hnone, -⟩ | ⟨hgo, hdone | ⟨hcall₁, hcalls, hlt⟩⟩ | ⟨hgo, hpc, hcalls, hheap⟩
    · rw [hnone] at hcall
      cases hcall
    · exact Nat.lt_of_lt_of_le hdone (run_calls hR hinv₁ hrun)
    · rw [hgo, if_pos rfl] at heffort
      have h := ih hinv₁ hcall₁ (by omega) hrun
      rwa [hcalls] at h
    · rw [hgo, if_neg (by decide)] at heffort
      have hsame : c₁.effort = c.effort := by
        unfold PooledStore.effort Store.rootDue
        rw [hpc, hheap]
      have h := ih hinv₁ (by rw [hpc]; exact hcall) (by rw [hsame]; omega) hrun
      rwa [hcalls] at h

theorem PooledStore.effort_le (c : PooledStore) : c.effort ≤ 2 * c.store.heap.length + 3 := by
  unfold PooledStore.effort
  split
  · split <;> omega
  · omega
  · omega

end Inv

/-! ## 2. From the start

The invariant holds before the first step, for any number of threads, none included: without
threads a work is run by the caller.
-/

def PooledStore.start (threads : Nat) : PooledStore := { pool := threadPoolInit threads }

theorem PooledStore.inv_start {Z : Type} (rel : ZTree → Z → Prop) (R : Reading Z) (strtod : Bytes → StrtodResult)
    (threads : Nat) : (PooledStore.start threads).Inv rel R strtod := by
  have hpool : (threadPoolInit threads : TheadPool EntryId).Inv [] := inv_init threads
  have hnone : (threadPoolInit threads : TheadPool EntryId).unfinished = [] := by
    have hcount := hpool.count.eq_nil
    rw [List.append_assoc, List.append_eq_nil_iff, List.append_eq_nil_iff] at hcount
    rw [TheadPool.unfinished, hcount.2.1, hcount.2.2]
    rfl
  refine ⟨fun _ => trivial, fun _ => rfl, fun _ => ⟨∅, ⟨⟨[], hpool⟩, rfl, ?_⟩, fun _ => rfl⟩, fun h => by cases h⟩
  rw [PooledStore.start, hnone]
  exact Store.models_empty 1

/-- **No run faults**, and every run keeps the invariant, whatever the schedule of the workers
and whatever wakes them up. -/
theorem PooledStore.inv_run {Z : Type} {rel : ZTree → Z → Prop} {R : Reading Z} (hR : R.Sound rel)
    (strtod : Bytes → StrtodResult) (threads : Nat) (evs : List PooledEvent) :
    ∃ c, evs.foldlM (PooledStore.step strtod) (PooledStore.start threads) = some c ∧ c.Inv rel R strtod :=
  foldlM_inv (PooledStore.Inv rel R strtod) (fun _ => True)
    (by
      intro c ev _ hinv
      obtain ⟨c', hstep, hinv', -⟩ := hinv.step hR ev
      exact ⟨c', hstep, hinv'⟩) evs _ (fun _ _ => trivial) (PooledStore.inv_start rel R strtod threads)

/-! ## 3. Large sets go to the pool

The size that `entry_del` compares is that of the hash map of the set, which has as many nodes
as the tree. Whether an entry is handed over is thus known from the reference, and need not be
computed from the memory.
-/

section Large

variable {st : Store} {t : ZTree}

/-- **`entry_del` leaves the large sets to the pool, and only those.** The size is that of the
index of the set, and it is the number of its members. -/
theorem entryDel_queue {r : Row ZTree} {rows : List (Row ZTree)} (h : st.Unlinked (· = ·) r rows)
    (hset : r.entry.value = .zset t) :
    ∃ st', entryDel st r.id = some st' ∧ st'.queue =
      if kLargeContainerSize < t.numNodes ∧ 0 < st.threads then st.queue ++ [r.id] else st.queue := by
  obtain ⟨heap, refs, hrun, -, -⟩ := h.toRows.setTtl 0 (-1)
  obtain ⟨ent, hread, -, hden⟩ := (h.shows r List.mem_cons_self).live
  have hsound := hden.sound
  rw [hset] at hden
  obtain ⟨htype, ids, t', hzset, heq⟩ := hden
  have hsize : hmSize ent.zset.hmap = t.numNodes := by
    rw [hzset.index.size, ← heq, hzset.content, length_inorder, numNodes_map]
  unfold entryDel
  simp only [hrun, hread, htype, hsize, if_true, Option.bind_eq_bind, Option.bind_some]
  by_cases hlarge : kLargeContainerSize < t.numNodes ∧ 0 < st.threads
  · rw [if_pos hlarge, if_pos hlarge]
    exact ⟨_, rfl, rfl⟩
  · rw [if_neg hlarge, if_neg hlarge]
    obtain ⟨ents, -, hdel, -⟩ := @entryDelSync_spec { st with heap := heap, refs := refs } _ _ hread hsound
    exact ⟨_, hdel, rfl⟩

/-- Nothing is handed over, and no deadline is touched. -/
structure Store.Quiet (st st' : Store) : Prop where
  queue : st'.queue = st.queue
  heap : st'.heap = st.heap
  threads : st'.threads = st.threads

theorem Store.Quiet.trans {st st' st'' : Store} (h : st.Quiet st') (h' : st'.Quiet st'') : st.Quiet st'' :=
  ⟨h'.queue.trans h.queue, h'.heap.trans h.heap, h'.threads.trans h.threads⟩

theorem dbLookup_quiet {key : Bytes} {st' : Store} {found : Option EntryId}
    (h : dbLookup st key = some (st', found)) : st.Quiet st' := by
  obtain ⟨r, -, heq⟩ := Option.bind_eq_some_iff.mp h
  cases (Prod.mk.inj (Option.some.inj heq)).1
  exact ⟨rfl, rfl, rfl⟩

theorem dbDelete_quiet {key : Bytes} {st' : Store} {found : Option EntryId}
    (h : dbDelete st key = some (st', found)) : st.Quiet st' := by
  obtain ⟨r, -, heq⟩ := Option.bind_eq_some_iff.mp h
  cases (Prod.mk.inj (Option.some.inj heq)).1
  exact ⟨rfl, rfl, rfl⟩

theorem dbInsert_quiet {ent : Entry} {st' : Store} {e : EntryId}
    (h : dbInsert st ent = some (st', e)) : st.Quiet st' := by
  obtain ⟨r, -, heq⟩ := Option.bind_eq_some_iff.mp h
  cases (Prod.mk.inj (Option.some.inj heq)).1
  exact ⟨rfl, rfl, rfl⟩

theorem doDel_queue {m : RefStore ZTree} (h : st.Models (· = ·) m) {key : Bytes} {d : Option Nat}
    (hm : m.lookup key = some ⟨.zset t, d⟩) (out : Buffer) :
    ∃ st' e, doDel st key out = some (st', outInt out 1) ∧ st'.queue =
      if kLargeContainerSize < t.numNodes ∧ 0 < st.threads then st.queue ++ [e] else st.queue := by
  rcases dbDelete_spec h key with ⟨st₁, r, rows, hrun, hm', hout, -⟩ | ⟨-, -, hm', -⟩
  · have hquiet := dbDelete_quiet hrun
    rw [hm] at hm'
    obtain ⟨st₂, hdel, hqueue⟩ := entryDel_queue hout (congrArg RefEntry.value (Option.some.inj hm')).symm
    rw [hquiet.queue, hquiet.threads] at hqueue
    exact ⟨st₂, r.id, by simp [doDel, hrun, hdel], hqueue⟩
  · rw [hm] at hm'
    cases hm'

theorem doZadd_quiet {strtod : Bytes → StrtodResult} {key arg name : Bytes} {out out' : Buffer} {st' : Store}
    (h : doZadd strtod st key arg name out = some (st', out')) : st.Quiet st' := by
  unfold doZadd at h
  cases hscore : str2dbl strtod arg with
  | none =>
    rw [hscore] at h
    cases h
    exact ⟨rfl, rfl, rfl⟩
  | some score =>
    rw [hscore] at h
    obtain ⟨r, hlook, h₁⟩ := Option.bind_eq_some_iff.mp h
    obtain ⟨r', hentry, h₂⟩ := Option.bind_eq_some_iff.mp h₁
    obtain ⟨ent, -, h₃⟩ := Option.bind_eq_some_iff.mp h₂
    have hquiet : st.Quiet r'.1 := by
      cases hfound : r.2 with
      | some e =>
        rw [hfound] at hentry
        cases hentry
        exact dbLookup_quiet hlook
      | none =>
        rw [hfound] at hentry
        exact (dbLookup_quiet hlook).trans (dbInsert_quiet hentry)
    split at h₃
    · cases h₃
      exact hquiet
    · obtain ⟨z, -, h₄⟩ := Option.bind_eq_some_iff.mp h₃
      obtain ⟨ents, -, h₅⟩ := Option.bind_eq_some_iff.mp h₄
      cases h₅
      exact ⟨hquiet.queue, hquiet.heap, hquiet.threads⟩

end Large

/-! ## 4. Calls when no key has a deadline

With no deadline the test at the head of `execute` fails at once, so a call has two sections: it
begins, and it runs its command. The state between calls that this leaves is `AtRest`.
-/

section AtRest

variable {strtod : Bytes → StrtodResult} {c : PooledStore} {tp : TheadPool EntryId}

/-- No call is under way, no key has a deadline, and the pool is this one. -/
structure PooledStore.AtRest (c : PooledStore) (tp : TheadPool EntryId) : Prop where
  pc : c.pc = .idle
  heap : c.store.heap = []
  queue : c.store.queue = []
  threads : c.store.threads = 1
  pool : c.pool = tp

def callSteps (now clk : Nat) (cmd : List Bytes) : List PooledEvent := [.execute now clk cmd, .go []]

/-- **Without deadlines a call is its command**, and what that hands over. -/
theorem PooledStore.AtRest.call (h : c.AtRest tp) {now clk : Nat} {cmd : List Bytes} {c' : PooledStore}
    (hrun : (callSteps now clk cmd).foldlM (PooledStore.step strtod) c = some c') :
    ∃ st out c₁, runCommand strtod clk c.store [] (dispatch cmd) = some (st, out) ∧
      PooledStore.handOver [] { c with pc := .expiring now clk cmd } st = some c₁ ∧
      c' = c₁.done (.execute now clk cmd) out := by
  have hbegin : c.step strtod (.execute now clk cmd) = some { c with pc := .expiring now clk cmd } := if_pos h.pc
  rw [callSteps, List.foldlM_cons, hbegin, Option.bind_eq_bind, Option.bind_some, List.foldlM_cons] at hrun
  obtain ⟨c₀, hgo, hend⟩ := Option.bind_eq_some_iff.mp hrun
  cases hend
  unfold PooledStore.step PooledStore.go at hgo
  simp only [h.heap, List.head?_nil, Option.any_none, if_neg Bool.false_ne_true] at hgo
  obtain ⟨r, hcmd, hgo₁⟩ := Option.bind_eq_some_iff.mp hgo
  obtain ⟨c₁, hhand, hgo₂⟩ := Option.bind_eq_some_iff.mp hgo₁
  exact ⟨r.1, r.2, c₁, hcmd, hhand, (Option.some.inj hgo₂).symm⟩

/-- Adding a member to a set leaves the pool alone. -/
theorem PooledStore.AtRest.zadd (h : c.AtRest tp) {arg name : Bytes} {c' : PooledStore}
    (hrun : (callSteps 0 0 [bytes "zadd", bytes "z", arg, name]).foldlM (PooledStore.step strtod) c = some c') :
    c'.AtRest tp ∧ c'.calls = c.calls ++ [.execute 0 0 [bytes "zadd", bytes "z", arg, name]] := by
  obtain ⟨st, out, c₁, hcmd, hhand, rfl⟩ := h.call hrun
  rw [dispatch_zadd] at hcmd
  have hquiet : c.store.Quiet st := doZadd_quiet hcmd
  have hqueue : st.queue = [] := hquiet.queue.trans h.queue
  unfold PooledStore.handOver at hhand
  rw [hqueue] at hhand
  cases hhand
  exact ⟨⟨rfl, hquiet.heap.trans h.heap, rfl, hquiet.threads.trans h.threads, h.pool⟩, rfl⟩

/-- The calls that add members with these names, all with the score `0.0`. -/
def zaddSteps (ns : List Bytes) : List PooledEvent :=
  ns.flatMap fun n => callSteps 0 0 [bytes "zadd", bytes "z", bytes "0", n]

theorem PooledStore.AtRest.zaddSteps : ∀ (ns : List Bytes) {c c' : PooledStore}, c.AtRest tp →
    (zaddSteps ns).foldlM (PooledStore.step strtod) c = some c' →
    c'.AtRest tp ∧ c'.calls = c.calls ++ zaddAll ns := by
  intro ns
  induction ns with
  | nil =>
    intro c c' h hrun
    cases hrun
    exact ⟨h, (List.append_nil _).symm⟩
  | cons n ns ih =>
    intro c c' h hrun
    rw [ApexDB.zaddSteps, List.flatMap_cons, List.foldlM_append] at hrun
    obtain ⟨c₁, hrun₁, hrest⟩ := Option.bind_eq_some_iff.mp hrun
    obtain ⟨h₁, hcalls₁⟩ := h.zadd hrun₁
    obtain ⟨h', hcalls⟩ := ih h₁ hrest
    refine ⟨h', ?_⟩
    rw [hcalls, hcalls₁, List.append_assoc]
    rfl

end AtRest

/-- After these calls the set is a tree of as many nodes. The store is not run for it: it stands
for the map of the reference, and nothing in that map has a deadline. -/
theorem PooledStore.AtRest.holds_set {c : PooledStore} {tp : TheadPool EntryId} {ns : List Bytes}
    (h : c.AtRest tp) (hnone : tp.unfinished = []) (hinv : c.Inv (· = ·) treeReading strtodZero)
    (hcalls : c.calls = zaddAll ns) (hnodup : ns.Nodup) (hns : ns ≠ []) :
    ∃ t : ZTree, c.store.Models (· = ·) (oneSet t) ∧ t.numNodes = ns.length := by
  obtain ⟨-, -, hsize, -⟩ := foldl_add_spec ns ZTree.ok_nil scoresOf_empty hnodup (fun _ _ => rfl)
    (fun x hx => by cases hx)
  obtain ⟨m, htended, hm⟩ := hinv.live (by rw [h.pc]; nofun)
  have hmodels := htended.models
  have hself : c.store.behind [] = c.store := rfl
  rw [h.pool, hnone, hself] at hmodels
  have hlegal : c.Timely treeReading strtodZero := by
    have hzero := legal_of_zero treeReading (ns.map fun n => [bytes "zadd", bytes "z", bytes "0", n]) ∅
    rw [List.map_map] at hzero
    have hidle : c.pc.call? = none := by rw [h.pc]; rfl
    rw [PooledStore.Timely, hidle, hcalls, Option.toList_none, List.append_nil]
    exact hzero
  have hm := hm hlegal
  have href : c.ref treeReading strtodZero = ⟨oneSet (ns.foldl (fun t n => t.add n .zero) nil), 0⟩ := by
    rw [PooledStore.ref, hcalls]
    exact final_zaddAll_empty treeReading hns
  have hreading : c.reading treeReading strtodZero = 0 := by
    rw [PooledStore.reading, h.pc, href]
    rfl
  have hdue : ¬c.store.headDue 0 := by
    rintro ⟨item, hhead, -⟩
    rw [h.heap] at hhead
    cases hhead
  rw [hreading, href, purge_of_not_due (hmodels.not_due hdue), purge_oneSet] at hm
  rw [hm] at hmodels
  exact ⟨_, hmodels, hsize.trans (by rw [numNodes, Nat.zero_add])⟩

/-- **The set that is deleted is in the queue of the pool.** -/
theorem PooledStore.AtRest.del {c c' : PooledStore} {t : ZTree} (h : c.AtRest (threadPoolInit 2))
    (hmodels : c.store.Models (· = ·) (oneSet t)) (hlarge : kLargeContainerSize < t.numNodes)
    (hrun : (callSteps 0 0 [bytes "del", bytes "z"]).foldlM (PooledStore.step strtodZero) c = some c') :
    ∃ e, c'.pc = .idle ∧ c'.pool = { threadPoolInit 2 with queue := [e] } ∧
      c'.calls = c.calls ++ [.execute 0 0 [bytes "del", bytes "z"]] := by
  obtain ⟨st, out, c₁, hcmd, hhand, rfl⟩ := h.call hrun
  have hdispatch : dispatch [bytes "del", bytes "z"] = .del (bytes "z") := rfl
  obtain ⟨st', e, hdel, hqueue⟩ := doDel_queue hmodels (Finmap.lookup_insert _) []
  rw [hdispatch] at hcmd
  obtain ⟨rfl, -⟩ := Prod.mk.inj (Option.some.inj (hdel.symm.trans hcmd))
  rw [if_pos ⟨hlarge, by rw [h.threads]; exact Nat.one_pos⟩, h.queue, List.nil_append] at hqueue
  unfold PooledStore.handOver at hhand
  rw [hqueue, h.pool] at hhand
  cases hhand
  exact ⟨e, rfl, rfl, rfl⟩

/-! ## 5. The pool between calls

The pool is a state machine of its own. A step that begins no call, at a time when none is under
way, is a step of the pool or of the destructor, and what the pool does in it is decided by the
pool alone.
-/

/-- Where the owning thread is and what the pool does, after a step that begins no call. The
store is not mentioned: what a worker runs does not change which works there are, and what the
destructor frees does not change what it waits for. -/
def closingStep (p : Pc × TheadPool EntryId) : PooledEvent → Pc × TheadPool EntryId
  | .worker i => (p.1, (workerStep p.2 i).getD p.2)
  | .destroy => (if p.1 = .idle then .destroying else p.1,
      if p.1 = .idle then (threadPoolDestroy p.2).getD p.2 else p.2)
  | .go _ =>
    if p.1 ≠ .destroying then p
    else if p.2.owner = .returned then (.gone, p.2)
    else (.destroying, (threadPoolJoin p.2).getD p.2)
  | _ => p

def PooledEvent.isClosing : PooledEvent → Bool
  | .worker _ | .destroy | .go _ => true
  | _ => false

theorem PooledStore.worker_view {c c' : PooledStore} {i : Nat} (h : c.worker i = some c') :
    c'.pc = c.pc ∧ c'.pool = (workerStep c.pool i).getD c.pool ∧ c'.calls = c.calls := by
  unfold PooledStore.worker at h
  cases hstep : workerStep c.pool i with
  | none =>
    rw [hstep] at h
    cases h
    exact ⟨rfl, rfl, rfl⟩
  | some pool =>
    rw [hstep] at h
    obtain ⟨st, -, heq⟩ := Option.bind_eq_some_iff.mp h
    cases heq
    exact ⟨rfl, rfl, rfl⟩

theorem PooledStore.go_view {c c' : PooledStore} {strtod : Bytes → StrtodResult} {woken : List Nat}
    (hidle : c.pc.call? = none) (h : c.go strtod woken = some c') :
    (c'.pc, c'.pool) = closingStep (c.pc, c.pool) (.go woken) ∧ c'.calls = c.calls := by
  unfold PooledStore.go at h
  cases hpc : c.pc with
  | idle =>
    rw [hpc] at h
    cases h
    exact ⟨by rw [hpc]; rfl, rfl⟩
  | gone =>
    rw [hpc] at h
    cases h
    exact ⟨by rw [hpc]; rfl, rfl⟩
  | destroying =>
    rw [hpc] at h
    dsimp only at h
    by_cases hret : c.pool.owner = .returned
    · rw [if_pos hret] at h
      obtain ⟨st, -, heq⟩ := Option.bind_eq_some_iff.mp h
      cases heq
      exact ⟨by simp [closingStep, hret], rfl⟩
    · rw [if_neg hret] at h
      cases hjoin : threadPoolJoin c.pool with
      | none =>
        rw [hjoin] at h
        cases h
        exact ⟨by simp [closingStep, hret, hjoin, hpc], rfl⟩
      | some tp =>
        rw [hjoin] at h
        cases h
        exact ⟨by simp [closingStep, hret, hjoin], rfl⟩
  | expiring now clk cmd =>
    rw [hpc] at hidle
    cases hidle
  | passing now n caller =>
    rw [hpc] at hidle
    cases caller <;> cases hidle

theorem PooledStore.step_view {c c' : PooledStore} {strtod : Bytes → StrtodResult} {ev : PooledEvent}
    (hidle : c.pc.call? = none) (hev : ev.isClosing = true) (h : c.step strtod ev = some c') :
    (c'.pc, c'.pool) = closingStep (c.pc, c.pool) ev ∧ c'.calls = c.calls ∧ c'.pc.call? = none := by
  cases ev with
  | execute => cases hev
  | processTimers => cases hev
  | spurious => cases hev
  | worker i =>
    obtain ⟨hpc, hpool, hcalls⟩ := PooledStore.worker_view h
    exact ⟨Prod.ext hpc hpool, hcalls, by rw [hpc]; exact hidle⟩
  | destroy =>
    unfold PooledStore.step at h
    by_cases hpc : c.pc = .idle
    · rw [if_pos hpc] at h
      obtain ⟨tp, hdestroy, heq⟩ := Option.map_eq_some_iff.mp h
      cases heq
      exact ⟨by simp [closingStep, hpc, hdestroy], rfl, rfl⟩
    · rw [if_neg hpc] at h
      cases h
      exact ⟨by simp [closingStep, hpc], rfl, hidle⟩
  | go woken =>
    obtain ⟨hview, hcalls⟩ := PooledStore.go_view hidle h
    refine ⟨hview, hcalls, ?_⟩
    have hpc : c'.pc = _ := congrArg Prod.fst hview
    rw [hpc, closingStep]
    split
    · exact hidle
    · split <;> rfl

/-- **Between calls the pool goes its own way**, and the store has no say in it. -/
theorem PooledStore.run_view {strtod : Bytes → StrtodResult} : ∀ {evs : List PooledEvent} {c c' : PooledStore},
    c.pc.call? = none → (∀ ev ∈ evs, ev.isClosing = true) → evs.foldlM (PooledStore.step strtod) c = some c' →
    (c'.pc, c'.pool) = evs.foldl closingStep (c.pc, c.pool) ∧ c'.calls = c.calls := by
  intro evs
  induction evs with
  | nil =>
    intro c c' _ _ hrun
    cases hrun
    exact ⟨rfl, rfl⟩
  | cons ev evs ih =>
    intro c c' hidle hevs hrun
    obtain ⟨c₁, hstep, hrest⟩ := Option.bind_eq_some_iff.mp hrun
    obtain ⟨hview, hcalls, hidle₁⟩ := PooledStore.step_view hidle (hevs ev List.mem_cons_self) hstep
    obtain ⟨hview', hcalls'⟩ := ih hidle₁ (fun ev' h' => hevs ev' (List.mem_cons_of_mem _ h')) hrest
    rw [hview] at hview'
    exact ⟨hview', hcalls'.trans hcalls⟩

/-! ## 6. Whole runs

The run of `largeLife` is the shortest kind in which a worker really frees a set: it is made by
more than a thousand calls, deleted by one, taken and freed by a worker, and the destructor
returns.
-/

/-- One worker takes the work and the other finds nothing, then the destructor joins both. -/
def takeAndStop : List PooledEvent :=
  [.worker 0, .worker 1, .worker 0, .destroy, .worker 1, .worker 0, .go [], .go [], .go [], .go []]

theorem takeAndStop_view (e : EntryId) :
    takeAndStop.foldl closingStep (.idle, { threadPoolInit 2 with queue := [e] }) =
      (.gone, { threads := [.exited, .exited], stopping := true, owner := .returned, ran := [e] }) := by
  simp [takeAndStop, closingStep, threadPoolInit, workerStep, workerSection, threadPoolDestroy, threadPoolJoin,
    Phase.wake, Phase.isExited]

/-- A set with these members is made and deleted, and the pool disposes of it. -/
def largeLife (ns : List Bytes) : List PooledEvent :=
  zaddSteps ns ++ (callSteps 0 0 [bytes "del", bytes "z"] ++ takeAndStop)

theorem clockFrom_deleted : ∀ ns : List Bytes,
    ClockFrom 0 (zaddAll ns ++ [.execute 0 0 [bytes "del", bytes "z"]]) := by
  intro ns
  induction ns with
  | nil => exact ⟨⟨Nat.le_refl _, Nat.le_refl _⟩, trivial⟩
  | cons n ns ih => exact ⟨⟨Nat.le_refl _, Nat.le_refl _⟩, ih⟩

theorem largeLife_run {ns : List Bytes} (hnodup : ns.Nodup) (hlarge : kLargeContainerSize < ns.length) {c : PooledStore}
    (hrun : (largeLife ns).foldlM (PooledStore.step strtodZero) (PooledStore.start 2) = some c) :
    c.pc = .gone ∧ c.pool.ran.length = 1 ∧ c.calls.length = ns.length + 1 ∧
      ClockFrom 0 (c.calls ++ c.pc.call?.toList) := by
  rw [largeLife, List.foldlM_append] at hrun
  obtain ⟨c₁, hrun₁, hrest⟩ := Option.bind_eq_some_iff.mp hrun
  rw [List.foldlM_append] at hrest
  obtain ⟨c₂, hrun₂, hrun₃⟩ := Option.bind_eq_some_iff.mp hrest
  -- the members are added
  have hstart : (PooledStore.start 2).AtRest (threadPoolInit 2) := ⟨rfl, rfl, rfl, rfl, rfl⟩
  obtain ⟨hrest₁, hcalls₁⟩ := hstart.zaddSteps _ hrun₁
  obtain ⟨c₁', hrun₁', hinv₁⟩ := PooledStore.inv_run treeReading_sound strtodZero 2 (zaddSteps ns)
  cases hrun₁.symm.trans hrun₁'
  obtain ⟨t, hmodels, hsize⟩ := hrest₁.holds_set rfl hinv₁ hcalls₁ hnodup (List.ne_nil_of_length_pos (by omega))
  -- the set is deleted
  obtain ⟨e, hpc₂, hpool₂, hcalls₂⟩ := hrest₁.del hmodels (by omega) hrun₂
  have hidle₂ : c₂.pc.call? = none := by rw [hpc₂]; rfl
  -- and a worker has it
  obtain ⟨hview, hcalls⟩ := PooledStore.run_view hidle₂ (by decide) hrun₃
  rw [hpc₂, hpool₂, takeAndStop_view] at hview
  obtain ⟨hpc, hpool⟩ := Prod.mk.inj hview
  have hall : c.calls = zaddAll ns ++ [.execute 0 0 [bytes "del", bytes "z"]] := by
    rw [hcalls, hcalls₂, hcalls₁]
    rfl
  have hidle : c.pc.call? = none := by rw [hpc]; rfl
  refine ⟨hpc, by rw [hpool]; rfl, ?_, ?_⟩
  · rw [hall, List.length_append, zaddAll, List.length_map]
    rfl
  · rw [hidle, Option.toList_none, List.append_nil, hall]
    exact clockFrom_deleted ns

/-- Three calls, the last of which removes the key because it is due, with workers in between,
and then the destructor. -/
def shortLife : List PooledEvent :=
  [.worker 0, .execute 5 5 [bytes "set", bytes "k", bytes "v"], .go [], .worker 1,
    .execute 6 6 [bytes "pexpire", bytes "k", bytes "10"], .spurious 0, .go [], .execute 20 20 [bytes "get", bytes "k"],
    .go [], .worker 0, .go [], .go [], .worker 0, .go [], .destroy, .worker 1, .worker 0, .go [], .go [], .go [],
    .go []]

example : (shortLife.foldlM (PooledStore.step fun _ => ⟨none, 0, false⟩) (PooledStore.start 2)).map
    (fun c => (c.pc, c.replies)) =
    some (.gone, [(Value.str (bytes "OK")).encode, (Value.int 1).encode, Value.nil.encode]) := by rfl

end ApexDB
