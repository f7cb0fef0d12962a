import Mathlib.Data.List.Perm.Subperm
import ApexDB.Lib.HeapOrder
import ApexDB.ThreadPool

/-!
# Every work is run exactly once

**A work is in one place**: in the queue, in the hands of one worker, or among those that were
run (`Inv.count`). A worker takes it from the first to the second in one section under the lock
and from there to the third by itself, so no order of steps can lose or repeat one. That the
last place is all that is left when `thread_pool_destroy` returns is due to the test at which a
worker leaves: `stopping`, and nothing in the queue, into which nothing comes any more.

The destructor does return: nobody waits once `stopping` is set, and every step then brings the
pool nearer to its end. Nor is a wakeup lost before (`Inv.busy`): with a work in the queue some
worker is not asleep.

Which waiting threads a signal unblocks is chosen by the run, and POSIX promises only that it is
at least one; threads may also wake up for no reason. So nothing here depends on a scheduler,
and the order in which works are run is left open.
-/

set_option autoImplicit false

namespace ApexDB

open Lib

variable {α : Type} {tp tp' : TheadPool α} {queued : List α} {threads : List (Phase α)} {i : Nat}
  {p q : Phase α}

/-! ## 1. Unblocking threads

A thread that is unblocked has still to take the lock and to look at the queue again, so
unblocking changes neither what a thread has in hand nor whether it has returned.
-/

theorem Phase.work?_wake (p : Phase α) : p.wake.work? = p.work? := by
  cases p <;> rfl

theorem Phase.wake_eq_exited (h : p.wake = .exited) : p = .exited := by
  cases p with
  | exited => rfl
  | _ => cases h

theorem Phase.wake_ne_waiting (p : Phase α) : p.wake ≠ .waiting := by
  cases p <;> nofun

theorem mem_wakeThreads {woken : List Nat} (h : q ∈ wakeThreads woken threads) :
    ∃ p ∈ threads, q = p ∨ q = p.wake := by
  obtain ⟨i, hi, rfl⟩ := List.mem_mapIdx.mp h
  refine ⟨threads[i], List.getElem_mem hi, ?_⟩
  split
  · exact .inr rfl
  · exact .inl rfl

theorem inFlight_wakeThreads (woken : List Nat) (threads : List (Phase α)) :
    (wakeThreads woken threads).filterMap Phase.work? = threads.filterMap Phase.work? := by
  have h : ∀ ts : List (Phase α), ∀ f : Nat → Phase α → Phase α, (∀ i p, (f i p).work? = p.work?) →
      (ts.mapIdx f).filterMap Phase.work? = ts.filterMap Phase.work? := by
    intro ts
    induction ts with
    | nil => intro f _; rfl
    | cons t ts ih =>
      intro f hf
      rw [List.mapIdx_cons, List.filterMap_cons, List.filterMap_cons, hf 0 t,
        ih (fun i => f (i + 1)) fun i => hf (i + 1)]
  apply h
  intro i p
  split
  · exact p.work?_wake
  · rfl

theorem inFlight_map_wake (threads : List (Phase α)) :
    (threads.map Phase.wake).filterMap Phase.work? = threads.filterMap Phase.work? := by
  rw [List.filterMap_map]
  congr 1
  funext p
  exact p.work?_wake

/-- One thread goes from `p` to `q`, and its work with it. -/
theorem inFlight_set (h : threads[i]? = some p) :
    (p.work?.toList ++ (threads.set i q).filterMap Phase.work?).Perm
      (q.work?.toList ++ threads.filterMap Phase.work?) := by
  have hperm := (Heap.cons_set_perm h q).filterMap Phase.work?
  rw [List.filterMap_cons, List.filterMap_cons] at hperm
  cases hp : p.work? <;> cases hq : q.work? <;> simpa [hp, hq] using hperm

/-- **A signal leaves somebody awake**, if nobody has left: a thread that waits is unblocked,
and without one every thread is awake already. -/
theorem signals_awake {woken : List Nat} (hsig : signals woken threads = true) (hne : threads ≠ [])
    (hstay : ∀ p ∈ threads, p ≠ .exited) :
    ∃ p ∈ wakeThreads woken threads, p = .ready ∨ ∃ w, p = .running w := by
  by_cases hwait : threads.any Phase.isWaiting = true
  · rw [signals, hwait, Bool.not_true, Bool.false_or, List.any_eq_true] at hsig
    obtain ⟨i, hi, hp⟩ := hsig
    cases hget : threads[i]? with
    | none =>
      rw [hget] at hp
      cases hp
    | some p =>
      rw [hget] at hp
      obtain rfl : p = .waiting := by
        cases p with
        | waiting => rfl
        | _ => cases hp
      refine ⟨.ready, List.mem_of_getElem? (i := i) ?_, .inl rfl⟩
      rw [wakeThreads, List.getElem?_mapIdx, hget, Option.map_some, if_pos hi]
      rfl
  · obtain ⟨p, ts, hts⟩ := List.exists_cons_of_ne_nil hne
    have hp : p ∈ threads := hts ▸ List.mem_cons_self
    have hrest : p = .ready ∨ ∃ w, p = .running w := by
      cases p with
      | ready => exact .inl rfl
      | running w => exact .inr ⟨w, rfl⟩
      | waiting => exact absurd (List.any_eq_true.mpr ⟨_, hp, rfl⟩) hwait
      | exited => exact absurd rfl (hstay _ hp)
    have hsame : p.wake = p := by
      rcases hrest with rfl | ⟨w, rfl⟩
      · rfl
      · rfl
    refine ⟨p, List.mem_of_getElem? (i := 0) ?_, hrest⟩
    simp only [wakeThreads, hts, List.mapIdx_cons, List.getElem?_cons_zero, hsame, ite_self]

/-! ## 2. What every step keeps

The invariant has the works that were queued as a parameter. Each step of a worker is one of
four moves, and one lemma (`Inv.move`) treats all of them.
-/

/-- **The invariant**: every work that was queued is in one of the three places, nobody waits or
has left without a reason, and a work in the queue keeps somebody awake. -/
structure TheadPool.Inv (tp : TheadPool α) (queued : List α) : Prop where
  count : (tp.ran ++ tp.inFlight ++ tp.queue).Perm queued
  exits : .exited ∈ tp.threads → tp.stopping = true ∧ tp.queue = []
  active : tp.owner = .active → tp.stopping = false
  joining : ∀ k, tp.owner = .joining k →
    tp.stopping = true ∧ ∀ i p, i < k → tp.threads[i]? = some p → p = .exited
  returned : tp.owner = .returned → ∀ p ∈ tp.threads, p = .exited
  inline : tp.threads = [] → tp.queue = []
  awake : tp.stopping = true → .waiting ∉ tp.threads
  busy : tp.queue ≠ [] → ∃ p ∈ tp.threads, p = .ready ∨ ∃ w, p = .running w

theorem inv_init (n : Nat) : (threadPoolInit n : TheadPool α).Inv [] where
  count := by
    have hnone : ((List.replicate n .ready).filterMap Phase.work? : List α) = [] := by
      rw [List.filterMap_eq_nil_iff]
      intro p hp
      rw [List.eq_of_mem_replicate hp]
      rfl
    rw [TheadPool.inFlight, threadPoolInit, hnone]
    exact .refl _
  exits := fun h => by cases List.eq_of_mem_replicate h
  active := fun _ => rfl
  joining := fun k h => by cases h
  returned := fun h => by cases h
  inline := fun _ => rfl
  awake := fun h => by cases h
  busy := fun h => absurd rfl h

theorem TheadPool.Inv.queue (h : tp.Inv queued) {w : α} {woken : List Nat}
    (hstep : threadPoolQueue tp w woken = some tp') : tp'.Inv (queued ++ [w]) := by
  unfold threadPoolQueue at hstep
  split at hstep
  · cases hstep
  rename_i howner
  have hactive : tp.owner = .active := Decidable.not_not.mp howner
  have hstop := h.active hactive
  split at hstep
  · rename_i hempty
    have hthreads := List.isEmpty_iff.mp hempty
    cases hstep
    refine ⟨?_, h.exits, h.active, h.joining, h.returned, h.inline, h.awake, h.busy⟩
    have hcount := h.count
    rw [TheadPool.inFlight, hthreads, h.inline hthreads] at hcount ⊢
    simpa using hcount.append_right [w]
  · rename_i hne
    split at hstep
    · rename_i hsig
      cases hstep
      -- nobody has left, because nobody was told to
      have hstay : ∀ p ∈ tp.threads, p ≠ .exited := by
        intro p hp heq
        rw [heq] at hp
        rw [(h.exits hp).1] at hstop
        cases hstop
      refine ⟨?_, ?_, h.active, ?_, ?_, ?_, ?_, ?_⟩
      · rw [TheadPool.inFlight, inFlight_wakeThreads, ← List.append_assoc]
        exact h.count.append_right [w]
      · intro hexit
        obtain ⟨p, hp, heq | heq⟩ := mem_wakeThreads hexit
        · exact absurd heq.symm (hstay p hp)
        · exact absurd (Phase.wake_eq_exited heq.symm) (hstay p hp)
      · intro k hk
        rw [hactive] at hk
        cases hk
      · intro hr
        rw [hactive] at hr
        cases hr
      · intro hnil
        have hlen := congrArg List.length hnil
        rw [wakeThreads, List.length_mapIdx] at hlen
        exact absurd (List.isEmpty_iff.mpr (List.length_eq_zero_iff.mp hlen)) hne
      · intro hs
        rw [hstop] at hs
        cases hs
      · intro _
        exact signals_awake hsig (fun hnil => hne (List.isEmpty_iff.mpr hnil)) hstay
    · cases hstep

theorem TheadPool.Inv.destroy (h : tp.Inv queued) (hstep : threadPoolDestroy tp = some tp') :
    tp'.Inv queued := by
  unfold threadPoolDestroy at hstep
  split at hstep
  · cases hstep
  rename_i howner
  have hstop := h.active (Decidable.not_not.mp howner)
  split at hstep
  · rename_i hempty
    have hthreads := List.isEmpty_iff.mp hempty
    cases hstep
    refine ⟨h.count, h.exits, nofun, nofun, ?_, h.inline, h.awake, h.busy⟩
    intro _ p hp
    rw [hthreads] at hp
    cases hp
  · rename_i hne
    cases hstep
    refine ⟨?_, ?_, nofun, ?_, nofun, ?_, ?_, ?_⟩
    · rw [TheadPool.inFlight, inFlight_map_wake]
      exact h.count
    · intro hexit
      obtain ⟨p, hp, heq⟩ := List.mem_map.mp hexit
      rw [Phase.wake_eq_exited heq] at hp
      rw [(h.exits hp).1] at hstop
      cases hstop
    · intro k hk
      cases hk
      exact ⟨rfl, fun i p hi => absurd hi (Nat.not_lt_zero i)⟩
    · intro hnil
      exact absurd (List.isEmpty_iff.mpr (List.map_eq_nil_iff.mp hnil)) hne
    · intro _ hwait
      obtain ⟨p, -, heq⟩ := List.mem_map.mp hwait
      exact p.wake_ne_waiting heq
    · intro hq
      obtain ⟨p, hp, hrest⟩ := h.busy hq
      refine ⟨p.wake, List.mem_map_of_mem hp, ?_⟩
      rcases hrest with rfl | ⟨w, rfl⟩
      · exact .inl rfl
      · exact .inr ⟨w, rfl⟩

theorem TheadPool.Inv.join (h : tp.Inv queued) (hstep : threadPoolJoin tp = some tp') :
    tp'.Inv queued := by
  unfold threadPoolJoin at hstep
  split at hstep
  · rename_i k howner
    obtain ⟨hstop, hjoined⟩ := h.joining k howner
    split at hstep
    · rename_i p hp
      split at hstep
      · rename_i hexit
        cases hstep
        refine ⟨h.count, h.exits, nofun, ?_, nofun, h.inline, h.awake, h.busy⟩
        intro k' hk
        cases hk
        refine ⟨hstop, fun i q hi hq => ?_⟩
        rcases Nat.lt_succ_iff_lt_or_eq.mp hi with hlt | rfl
        · exact hjoined i q hlt hq
        · rw [hp] at hq
          cases hq
          cases p with
          | exited => rfl
          | _ => cases hexit
      · cases hstep
    · -- all were joined
      rename_i hnone
      cases hstep
      refine ⟨h.count, h.exits, nofun, nofun, ?_, h.inline, h.awake, h.busy⟩
      intro _ p hp
      obtain ⟨i, hi⟩ := List.mem_iff_getElem?.mp hp
      have hlen := List.getElem?_eq_none_iff.mp hnone
      have hlt := (List.getElem?_eq_some_iff.mp hi).1
      exact hjoined i p (Nat.lt_of_lt_of_le hlt hlen) hi
  · cases hstep

/-- **What one thread may do.** It goes from `p` to `q` and takes its work along, from the queue
or to the works that were run; it leaves only when it is told to and the queue is empty, and
waits only when it is not told to leave. -/
theorem TheadPool.Inv.move (h : tp.Inv queued) (hp : tp.threads[i]? = some p) (hne : p ≠ .exited)
    {queue ran : List α}
    (hcount : (ran ++ q.work?.toList ++ queue).Perm (tp.ran ++ p.work?.toList ++ tp.queue))
    (hqueue : tp.queue = [] → queue = []) (hexit : q = .exited → tp.stopping = true ∧ tp.queue = [])
    (hwait : q = .waiting → tp.stopping = false)
    (hbusy : queue ≠ [] → q = .ready ∨ ∃ w, q = .running w) :
    TheadPool.Inv { tp with threads := tp.threads.set i q, queue := queue, ran := ran } queued := by
  refine ⟨?_, ?_, h.active, ?_, ?_, ?_, ?_, ?_⟩
  · classical
    refine List.Perm.trans ?_ h.count
    have hset := inFlight_set (q := q) hp
    rw [List.perm_iff_count] at hcount hset ⊢
    intro w
    have h₁ := hcount w
    have h₂ := hset w
    simp only [List.count_append, TheadPool.inFlight] at h₁ h₂ ⊢
    omega
  · intro hmem
    obtain ⟨hstop, hnil⟩ : tp.stopping = true ∧ tp.queue = [] := by
      rcases List.mem_or_eq_of_mem_set hmem with hmem | heq
      · exact h.exits hmem
      · exact hexit heq.symm
    exact ⟨hstop, hqueue hnil⟩
  · intro k hk
    obtain ⟨hstop, hjoined⟩ := h.joining k hk
    refine ⟨hstop, fun j r hj hr => ?_⟩
    -- a thread that was joined has returned, so it is another one
    by_cases hij : i = j
    · subst hij
      exact absurd (hjoined i p hj hp) hne
    · rw [List.getElem?_set_ne hij] at hr
      exact hjoined j r hj hr
  · intro howner
    exact absurd (h.returned howner p (List.mem_of_getElem? hp)) hne
  · intro hnil
    rw [List.set_eq_nil_iff] at hnil
    rw [hnil] at hp
    cases hp
  · intro hstop hmem
    rcases List.mem_or_eq_of_mem_set hmem with hmem | heq
    · exact h.awake hstop hmem
    · rw [hwait heq.symm] at hstop
      cases hstop
  · intro hq
    exact ⟨q, List.mem_set (List.getElem?_eq_some_iff.mp hp).1 q, hbusy hq⟩

/-- What a step of a worker is: it finds nothing to do and waits, it leaves, it takes the first
work, or it is done with its work. -/
theorem workerStep_cases (hstep : workerStep tp i = some tp') :
    (tp.threads[i]? = some .ready ∧ tp.queue = [] ∧ tp.stopping = false ∧
      tp' = { tp with threads := tp.threads.set i .waiting }) ∨
    (tp.threads[i]? = some .ready ∧ tp.queue = [] ∧ tp.stopping = true ∧
      tp' = { tp with threads := tp.threads.set i .exited }) ∨
    (∃ w rest, tp.threads[i]? = some .ready ∧ tp.queue = w :: rest ∧
      tp' = { tp with queue := rest, threads := tp.threads.set i (.running w) }) ∨
    (∃ w, tp.threads[i]? = some (.running w) ∧
      tp' = { tp with threads := tp.threads.set i .ready, ran := tp.ran ++ [w] }) := by
  unfold workerStep at hstep
  split at hstep
  · rename_i hp
    unfold workerSection at hstep
    split at hstep
    · rename_i hnone
      cases hstep
      exact .inl ⟨hp, List.isEmpty_iff.mp hnone.1, by simpa using hnone.2, rfl⟩
    · split at hstep
      · rename_i hend
        cases hstep
        exact .inr (.inl ⟨hp, List.isEmpty_iff.mp hend.1, hend.2, rfl⟩)
      · obtain ⟨w, hw, hstep⟩ := Option.bind_eq_some_iff.mp hstep
        obtain ⟨rest, hrest⟩ := List.head?_eq_some_iff.mp hw
        cases hstep
        exact .inr (.inr (.inl ⟨w, rest, hp, hrest, by rw [hrest, List.tail_cons]⟩))
  · rename_i w hp
    cases hstep
    exact .inr (.inr (.inr ⟨w, hp, rfl⟩))
  · cases hstep

theorem TheadPool.Inv.worker (h : tp.Inv queued) (hstep : workerStep tp i = some tp') :
    tp'.Inv queued := by
  obtain ⟨hp, hqueue, hstop, rfl⟩ | ⟨hp, hqueue, hstop, rfl⟩ | ⟨w, rest, hp, hqueue, rfl⟩ | ⟨w, hp, rfl⟩ :=
    workerStep_cases hstep
  · refine h.move (q := .waiting) hp nofun (.refl _) id nofun (fun _ => hstop) ?_
    exact fun hq => absurd hqueue hq
  · refine h.move (q := .exited) hp nofun (.refl _) id (fun _ => ⟨hstop, hqueue⟩) nofun ?_
    exact fun hq => absurd hqueue hq
  · refine h.move (q := .running w) hp nofun ?_ ?_ nofun nofun fun _ => .inr ⟨w, rfl⟩
    · rw [hqueue]
      simp [Phase.work?]
    · rw [hqueue]
      nofun
  · exact h.move (q := .ready) hp nofun (by simp [Phase.work?]) id nofun nofun fun _ => .inl rfl

theorem TheadPool.Inv.step (h : tp.Inv queued) {ev : PoolEvent α} (hstep : tp.step ev = some tp') :
    tp'.Inv (queued ++ queuedWorks [ev]) := by
  cases ev with
  | queue w woken => exact h.queue hstep
  | destroy => simpa [queuedWorks] using h.destroy hstep
  | join => simpa [queuedWorks] using h.join hstep
  | worker i => simpa [queuedWorks] using h.worker hstep
  | spurious i =>
    simp only [TheadPool.step] at hstep
    split at hstep
    · rename_i hp
      cases hstep
      have h' := h.move hp nofun (q := .ready) (.refl _) id nofun nofun fun _ => .inl rfl
      simpa [queuedWorks] using h'
    · cases hstep

theorem TheadPool.Inv.run : ∀ {evs : List (PoolEvent α)} {tp tp' : TheadPool α} {queued : List α},
    tp.Inv queued → evs.foldlM TheadPool.step tp = some tp' → tp'.Inv (queued ++ queuedWorks evs) := by
  intro evs
  induction evs with
  | nil =>
    intro tp tp' queued h hrun
    cases hrun
    simpa [queuedWorks] using h
  | cons ev evs ih =>
    intro tp tp' queued h hrun
    obtain ⟨tp₁, hstep, hrun⟩ := Option.bind_eq_some_iff.mp hrun
    have hall := ih (h.step hstep) hrun
    rw [List.append_assoc] at hall
    rw [queuedWorks, ← List.singleton_append, List.filterMap_append]
    exact hall

/-- When `thread_pool_destroy` has returned there is nothing in the queue and nothing in hand.
-/
theorem TheadPool.Inv.nothing_left (h : tp.Inv queued) (howner : tp.owner = .returned) :
    tp.inFlight = [] ∧ tp.queue = [] := by
  have hall := h.returned howner
  constructor
  · rw [TheadPool.inFlight, List.filterMap_eq_nil_iff]
    intro p hp
    rw [hall p hp]
    rfl
  · cases hts : tp.threads with
    | nil => exact h.inline hts
    | cons p ts =>
      have hp : p ∈ tp.threads := hts ▸ List.mem_cons_self
      exact (h.exits (hall p hp ▸ hp)).2

/-- A worker leaves only when it was told to and the queue is empty. -/
theorem worker_exit (hstep : workerStep tp i = some tp') (hexit : tp'.threads[i]? = some .exited) :
    tp.stopping = true ∧ tp.queue = [] := by
  have hself : ∀ {p q}, tp.threads[i]? = some p → (tp.threads.set i q)[i]? = some .exited →
      q = .exited := by
    intro p q hp hq
    rw [List.getElem?_set_self (List.getElem?_eq_some_iff.mp hp).1] at hq
    exact Option.some.inj hq
  obtain ⟨hp, hqueue, hstop, rfl⟩ | ⟨hp, hqueue, hstop, rfl⟩ | ⟨w, rest, hp, hqueue, rfl⟩ | ⟨w, hp, rfl⟩ :=
    workerStep_cases hstep
  · cases hself hp hexit
  · exact ⟨hstop, hqueue⟩
  · cases hself hp hexit
  · cases hself hp hexit

/-! ## 3. The end of the destructor

The measure counts the works that wait, how far each thread is from its return, and the joins to
come. Before `stopping` is set there is no such measure: an idle pool may wake up and fall
asleep forever.
-/

/-- What is left to do for a thread that was told to stop: it finishes its work, and looks at
the queue once more. -/
def Phase.effort : Phase α → Nat
  | ready => 1
  | waiting => 1
  | running _ => 2
  | exited => 0

def Owner.effort (n : Nat) : Owner → Nat
  | active => 0
  | joining k => n - k + 1
  | returned => 0

def TheadPool.effort (tp : TheadPool α) : Nat :=
  2 * tp.queue.length + (tp.threads.map Phase.effort).sum + tp.owner.effort tp.threads.length

theorem effort_set (hp : threads[i]? = some p) :
    p.effort + ((threads.set i q).map Phase.effort).sum =
      q.effort + (threads.map Phase.effort).sum := by
  have h := ((Heap.cons_set_perm hp q).map Phase.effort).sum_nat
  simpa using h

/-- **After `stopping` is set every step of a worker brings the end nearer.** -/
theorem worker_effort (hstop : tp.stopping = true) (hstep : workerStep tp i = some tp') :
    tp'.effort < tp.effort := by
  obtain ⟨-, -, hgo, -⟩ | ⟨hp, -, -, rfl⟩ | ⟨w, rest, hp, hqueue, rfl⟩ | ⟨w, hp, rfl⟩ :=
    workerStep_cases hstep
  · rw [hgo] at hstop
    cases hstop
  · have hset := effort_set (q := .exited) hp
    simp only [Phase.effort, TheadPool.effort, List.length_set] at hset ⊢
    omega
  · have hset := effort_set (q := .running w) hp
    simp only [Phase.effort, TheadPool.effort, hqueue, List.length_cons, List.length_set] at hset ⊢
    omega
  · have hset := effort_set (q := .ready) hp
    simp only [Phase.effort, TheadPool.effort, List.length_set] at hset ⊢
    omega

theorem worker_owner (hstep : workerStep tp i = some tp') : tp'.owner = tp.owner := by
  obtain ⟨-, -, -, rfl⟩ | ⟨-, -, -, rfl⟩ | ⟨w, rest, -, -, rfl⟩ | ⟨w, -, rfl⟩ := workerStep_cases hstep <;> rfl

/-- From the call of `thread_pool_destroy` on a thread that has not returned was told to. -/
theorem TheadPool.Inv.stops (h : tp.Inv queued) (howner : tp.owner ≠ .active)
    (hp : tp.threads[i]? = some p) (hne : p ≠ .exited) : tp.stopping = true := by
  cases ho : tp.owner with
  | active => exact absurd ho howner
  | joining k => exact (h.joining k ho).1
  | returned => exact absurd (h.returned ho p (List.mem_of_getElem? hp)) hne

/-- **The destructor is never stuck**: until it has returned a worker can take a step or a
thread can be joined. -/
theorem TheadPool.Inv.progress (h : tp.Inv queued) (hactive : tp.owner ≠ .active)
    (hreturned : tp.owner ≠ .returned) : ∃ ev tp', tp.step ev = some tp' := by
  obtain ⟨k, howner⟩ : ∃ k, tp.owner = .joining k := by
    cases ho : tp.owner with
    | active => exact absurd ho hactive
    | joining k => exact ⟨k, rfl⟩
    | returned => exact absurd ho hreturned
  obtain ⟨hstop, -⟩ := h.joining k howner
  cases hk : tp.threads[k]? with
  | none => exact ⟨.join, _, by rw [TheadPool.step, threadPoolJoin, howner]; simp only [hk]; rfl⟩
  | some p =>
    cases p with
    | exited => exact ⟨.join, _, by rw [TheadPool.step, threadPoolJoin, howner]; simp only [hk]; rfl⟩
    | waiting => exact absurd (List.mem_of_getElem? hk) (h.awake hstop)
    | running w => exact ⟨.worker k, _, by rw [TheadPool.step, workerStep, hk]⟩
    | ready =>
      refine ⟨.worker k, ?_⟩
      rw [TheadPool.step, workerStep, hk]
      simp only [workerSection, hstop]
      cases hq : tp.queue with
      | nil => exact ⟨_, rfl⟩
      | cons w rest => exact ⟨_, rfl⟩

/-- **After the call of the destructor every step brings its end nearer**, those of the
destructor itself among them. -/
theorem TheadPool.Inv.step_effort (h : tp.Inv queued) (howner : tp.owner ≠ .active) {ev : PoolEvent α}
    (hstep : tp.step ev = some tp') : tp'.effort < tp.effort ∧ tp'.owner ≠ .active := by
  cases ev with
  | queue w woken =>
    simp only [TheadPool.step, threadPoolQueue, if_pos howner] at hstep
    cases hstep
  | destroy =>
    simp only [TheadPool.step, threadPoolDestroy, if_pos howner] at hstep
    cases hstep
  | join =>
    simp only [TheadPool.step, threadPoolJoin] at hstep
    split at hstep
    · rename_i k hk
      split at hstep
      · rename_i p hp
        have hlt := (List.getElem?_eq_some_iff.mp hp).1
        split at hstep
        · cases hstep
          refine ⟨?_, nofun⟩
          simp only [TheadPool.effort, Owner.effort, hk]
          omega
        · cases hstep
      · cases hstep
        refine ⟨?_, nofun⟩
        simp only [TheadPool.effort, Owner.effort, hk]
        omega
    · cases hstep
  | worker i =>
    have hstop : tp.stopping = true := by
      obtain ⟨hp, -⟩ | ⟨hp, -⟩ | ⟨w, rest, hp, -⟩ | ⟨w, hp, -⟩ := workerStep_cases hstep <;>
        exact h.stops howner hp nofun
    exact ⟨worker_effort hstop hstep, worker_owner hstep ▸ howner⟩
  | spurious i =>
    simp only [TheadPool.step] at hstep
    split at hstep
    · rename_i hp
      exact absurd (List.mem_of_getElem? hp) (h.awake (h.stops howner hp nofun))
    · cases hstep

/-- **The destructor ends**: from there on a run has no more steps than there is left to do. -/
theorem TheadPool.Inv.run_effort : ∀ {evs : List (PoolEvent α)} {tp tp' : TheadPool α} {queued : List α},
    tp.Inv queued → tp.owner ≠ .active → evs.foldlM TheadPool.step tp = some tp' →
    evs.length ≤ tp.effort := by
  intro evs
  induction evs with
  | nil =>
    intro tp tp' queued h howner hrun
    exact Nat.zero_le _
  | cons ev evs ih =>
    intro tp tp' queued h howner hrun
    obtain ⟨tp₁, hstep, hrun⟩ := Option.bind_eq_some_iff.mp hrun
    obtain ⟨hlt, howner⟩ := h.step_effort howner hstep
    have hle := ih (h.step hstep) howner hrun
    exact Nat.succ_le_of_lt (Nat.lt_of_le_of_lt hle hlt)

/-- **No wakeup is lost**: as long as there is a work in the queue some worker has a step to
take. -/
theorem TheadPool.Inv.not_asleep (h : tp.Inv queued) (hqueue : tp.queue ≠ []) :
    ∃ i tp', tp.step (.worker i) = some tp' := by
  obtain ⟨p, hp, hphase⟩ := h.busy hqueue
  obtain ⟨i, hi⟩ := List.mem_iff_getElem?.mp hp
  refine ⟨i, ?_⟩
  rw [TheadPool.step, workerStep, hi]
  rcases hphase with rfl | ⟨w, rfl⟩
  · obtain ⟨w, rest, hcons⟩ := List.exists_cons_of_ne_nil hqueue
    rw [workerSection, hcons]
    exact ⟨_, rfl⟩
  · exact ⟨_, rfl⟩

/-! ## 4. The whole run

Both halves in one statement: nothing is lost or repeated at any time, and from the call of the
destructor on the run has an end.
-/

/-- **The pool runs every work exactly once**, for any number of threads and any order of steps:
at any time no work was started more often than it was queued, a worker leaves only when
`stopping` is set and the queue is empty, and when `thread_pool_destroy` has returned the works
that were run are those that were queued. It does return: from its call on there are finitely
many steps, and one is possible until it has returned. -/
theorem thread_pool_runs_once (numThreads : Nat) (evs : List (PoolEvent α)) (tp : TheadPool α)
    (h : evs.foldlM TheadPool.step (threadPoolInit numThreads) = some tp) :
    (tp.ran ++ tp.inFlight).Subperm (queuedWorks evs) ∧
    (∀ i tp', tp.step (.worker i) = some tp' → tp'.threads[i]? = some .exited →
      tp.stopping = true ∧ tp.queue = []) ∧
    (tp.owner = .returned → tp.ran.Perm (queuedWorks evs)) ∧
    (tp.owner ≠ .active →
      (∃ n, ∀ (evs' : List (PoolEvent α)) (tp' : TheadPool α),
        evs'.foldlM TheadPool.step tp = some tp' → evs'.length ≤ n) ∧
      (tp.owner ≠ .returned → ∃ ev tp', tp.step ev = some tp')) := by
  have hinv := (inv_init numThreads).run h
  rw [List.nil_append] at hinv
  refine ⟨?_, fun i tp' => worker_exit, ?_, ?_⟩
  · exact (List.sublist_append_left _ _).subperm.trans hinv.count.subperm
  · intro howner
    have hcount := hinv.count
    obtain ⟨hflight, hqueue⟩ := hinv.nothing_left howner
    rw [hflight, hqueue, List.append_nil, List.append_nil] at hcount
    exact hcount
  · intro howner
    exact ⟨⟨tp.effort, fun evs' tp' => hinv.run_effort howner⟩, hinv.progress howner⟩

/-- One worker: it waits, is woken for a work, runs it, and is joined. -/
theorem thread_pool_runs_once_one : ∃ tp : TheadPool Nat,
    [PoolEvent.worker 0, .queue 7 [0], .worker 0, .destroy, .worker 0, .worker 0, .join, .join].foldlM
      TheadPool.step (threadPoolInit 1) = some tp ∧ tp.owner = .returned ∧ tp.ran.Perm [7] := by
  refine ⟨_, rfl, rfl, ?_⟩
  exact (thread_pool_runs_once 1
    [.worker 0, .queue 7 [0], .worker 0, .destroy, .worker 0, .worker 0, .join, .join] _ rfl).2.2.1 rfl

end ApexDB
