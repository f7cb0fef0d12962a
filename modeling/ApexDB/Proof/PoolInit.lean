import ApexDB.Lib.Run
import ApexDB.PoolInit

/-!
# The thread pool comes and goes

Whichever of the calls in `thread_pool_init` fails, **what was set up before it is taken down
again, once**, and the pool is as it was before: it can be initialised again, used without
threads, or destroyed by the destructor of the store, which then does nothing. `pthreadStep` is
what the library allows; `PoolShell.pthreads` is what is set up, and it is a function of the
list of threads.

What the threads do is not looked at here. That those which were created before a failure end,
and can be joined, is what `Proof/ThreadPool.lean` shows of every pool that is told to stop.
-/

set_option autoImplicit false

namespace ApexDB

open Lib

/-- The mutex and the condition variable are initialised, and the threads that were created and
not joined. -/
structure Pthreads where
  mutex : Bool := false
  cond : Bool := false
  running : List Nat := []

/-- **What may be called when.** A condition variable or a mutex that is destroyed has nobody to
use it. -/
def pthreadStep (s : Pthreads) : PthreadCall → Option Pthreads
  | .mutexInit => if s.mutex then none else some { s with mutex := true }
  | .condInit => if s.cond then none else some { s with cond := true }
  | .create thread => if s.mutex ∧ s.cond then some { s with running := s.running ++ [thread] } else none
  | .use => if s.mutex ∧ s.cond then some s else none
  | .stop => if s.mutex ∧ s.cond then some s else none
  | .join thread => if thread ∈ s.running then some { s with running := s.running.erase thread } else none
  | .condDestroy => if s.cond ∧ s.running = [] then some { s with cond := false } else none
  | .mutexDestroy => if s.mutex ∧ s.running = [] then some { s with mutex := false } else none

/-- What is set up for a pool: nothing if it has no threads, and otherwise the mutex, the
condition variable and its threads. -/
def PoolShell.pthreads (tp : PoolShell) : Pthreads := if tp.threads.isEmpty then {} else ⟨true, true, tp.threads⟩

/-- The calls are allowed, and lead from one state to another. -/
abbrev Allowed : Pthreads → List PthreadCall → Pthreads → Prop := Takes pthreadStep

theorem allowed_joins (threads : List Nat) :
    Allowed ⟨true, true, threads⟩ (threads.map PthreadCall.join) ⟨true, true, []⟩ := by
  induction threads with
  | nil => rfl
  | cons thread threads ih =>
    have hjoin : pthreadStep ⟨true, true, thread :: threads⟩ (.join thread) = some ⟨true, true, threads⟩ := by
      simp [pthreadStep]
    exact .cons hjoin ih

theorem poolDestroy_spec (tp : PoolShell) :
    Allowed tp.pthreads (poolDestroy tp).2 {} ∧ (poolDestroy tp).1.threads = [] := by
  unfold poolDestroy PoolShell.pthreads
  split
  · rename_i hempty
    exact ⟨rfl, List.isEmpty_iff.mp hempty⟩
  · refine ⟨?_, rfl⟩
    have hstop : Allowed ⟨true, true, tp.threads⟩ [.stop] ⟨true, true, tp.threads⟩ := rfl
    have hlast : Allowed ⟨true, true, []⟩ [.condDestroy, .mutexDestroy] {} := rfl
    exact (hstop.append (allowed_joins tp.threads)).append hlast

/-- **The loop**, from a mutex and a condition variable that are there. The induction is on the
threads to come. -/
theorem createThreads_spec : ∀ (n : Nat) (creates : List (Option Nat)) (tp : PoolShell),
    tp.threads ≠ [] ∨ 0 < n → ∃ tp' calls result, createThreads tp n creates = (tp', calls, result) ∧
      Allowed ⟨true, true, tp.threads⟩ calls tp'.pthreads ∧
      (result = .returned ∧ tp'.threads.length = tp.threads.length + n ∨
        result = .systemError ∧ tp'.threads = []) := by
  intro n
  induction n with
  | zero =>
    intro creates tp hsome
    have hne : tp.threads ≠ [] := hsome.resolve_right (Nat.lt_irrefl 0)
    refine ⟨tp, [], .returned, rfl, ?_, .inl ⟨rfl, rfl⟩⟩
    rw [PoolShell.pthreads, if_neg (by rwa [List.isEmpty_iff])]
    rfl
  | succ n ih =>
    intro creates tp _
    have hfails : ∃ tp' calls result, (if tp.threads.isEmpty then
          (tp, [PthreadCall.condDestroy, .mutexDestroy], InitResult.systemError)
        else ((poolDestroy tp).1, (poolDestroy tp).2, .systemError)) = (tp', calls, result) ∧
        Allowed ⟨true, true, tp.threads⟩ calls tp'.pthreads ∧
        (result = .returned ∧ tp'.threads.length = tp.threads.length + (n + 1) ∨
          result = .systemError ∧ tp'.threads = []) := by
      split
      · rename_i hempty
        refine ⟨_, _, _, rfl, ?_, .inr ⟨rfl, List.isEmpty_iff.mp hempty⟩⟩
        rw [PoolShell.pthreads, if_pos hempty, List.isEmpty_iff.mp hempty]
        rfl
      · rename_i hne
        obtain ⟨hcalls, hnone⟩ := poolDestroy_spec tp
        rw [PoolShell.pthreads, if_neg hne] at hcalls
        refine ⟨_, _, _, rfl, ?_, .inr ⟨rfl, hnone⟩⟩
        rw [PoolShell.pthreads, hnone]
        exact hcalls
    cases creates with
    | nil => exact hfails
    | cons create creates =>
      cases create with
      | none => exact hfails
      | some thread =>
        obtain ⟨tp', calls, result, hrest, hcalls, hend⟩ :=
          ih creates { tp with threads := tp.threads ++ [thread] } (.inl (by simp))
        refine ⟨tp', .create thread :: calls, result, ?_, ?_, ?_⟩
        · rw [createThreads, hrest]
        · have hcreate : pthreadStep ⟨true, true, tp.threads⟩ (.create thread) =
              some ⟨true, true, tp.threads ++ [thread]⟩ := rfl
          exact .cons hcreate hcalls
        · refine hend.imp_left fun hok => ⟨hok.1, hok.2.trans ?_⟩
          rw [List.length_append, List.length_singleton]
          omega

/-- **`thread_pool_init`** has started all its threads, or it throws and the pool has what it
had before. -/
theorem poolInit_spec (numThreads : Nat) (mutex cond : Bool) (creates : List (Option Nat)) (tp : PoolShell) :
    ∃ tp' calls result, poolInit numThreads mutex cond creates tp = (tp', calls, result) ∧
      Allowed tp.pthreads calls tp'.pthreads ∧
      (result = .returned → tp.threads = [] ∧ tp'.threads.length = numThreads ∧ 0 < numThreads) ∧
      (result ≠ .returned → tp'.threads = tp.threads) := by
  unfold poolInit
  split
  · exact ⟨tp, [], .invalidArgument, rfl, rfl, fun h => (by cases h), fun _ => rfl⟩
  rename_i hfresh
  obtain ⟨hempty, hpos⟩ := not_or.mp hfresh
  have hnone : tp.threads = [] := by simpa using hempty
  have hdown : tp.pthreads = {} := by
    rw [PoolShell.pthreads, hnone]
    rfl
  split
  · exact ⟨tp, [], .systemError, rfl, rfl, fun h => (by cases h), fun _ => rfl⟩
  split
  · refine ⟨tp, _, .systemError, rfl, ?_, fun h => (by cases h), fun _ => rfl⟩
    rw [hdown]
    rfl
  · obtain ⟨tp', calls, result, hrun, hcalls, hend⟩ :=
      createThreads_spec numThreads creates { tp with stopping := false } (.inr (Nat.pos_of_ne_zero hpos))
    have hup : Allowed {} [.mutexInit, .condInit] ⟨true, true, tp.threads⟩ := by
      rw [hnone]
      rfl
    refine ⟨tp', .mutexInit :: .condInit :: calls, result, by rw [hrun], ?_, fun hret => ?_, fun hthrew => ?_⟩
    · rw [hdown]
      exact hup.append hcalls
    · rcases hend with ⟨-, hlen⟩ | ⟨herr, -⟩
      · refine ⟨hnone, ?_, Nat.pos_of_ne_zero hpos⟩
        rw [hlen, hnone, List.length_nil, Nat.zero_add]
      · rw [hret] at herr
        cases herr
    · rcases hend with ⟨hret, -⟩ | ⟨-, hgone⟩
      · exact absurd hret hthrew
      · rw [hgone, hnone]

theorem PoolCall.run_spec (tp : PoolShell) (call : PoolCall) :
    Allowed tp.pthreads (call.run tp).2 (call.run tp).1.pthreads := by
  cases call with
  | init numThreads mutex cond creates =>
    obtain ⟨tp', calls, result, hrun, hcalls, -⟩ := poolInit_spec numThreads mutex cond creates tp
    simp only [PoolCall.run, hrun]
    exact hcalls
  | queue =>
    by_cases hempty : tp.threads.isEmpty
    · simp only [PoolCall.run, if_pos hempty]
      rfl
    · simp only [PoolCall.run, PoolShell.pthreads, if_neg hempty]
      rfl
  | destroy =>
    obtain ⟨hcalls, hnone⟩ := poolDestroy_spec tp
    have hdown : (poolDestroy tp).1.pthreads = {} := by
      rw [PoolShell.pthreads, hnone]
      rfl
    rw [PoolCall.run, hdown]
    exact hcalls

/-- A run of calls. The induction is on the calls; what is set up for the pool carries it. -/
theorem runPool_spec (calls : List PoolCall) : ∀ tp : PoolShell,
    Allowed tp.pthreads (runPool tp calls).2 (runPool tp calls).1.pthreads := by
  induction calls with
  | nil => exact fun _ => rfl
  | cons call calls ih => exact fun tp => (call.run_spec tp).append (ih (call.run tp).1)

theorem runPool_destroy (calls : List PoolCall) : ∀ tp : PoolShell,
    (runPool tp (calls ++ [.destroy])).1.threads = [] := by
  induction calls with
  | nil => exact fun tp => (poolDestroy_spec tp).2
  | cons call calls ih => exact fun tp => ih (call.run tp).1

/-- **The pool uses the pthread library as it may.** In every run of calls of
`thread_pool_init`, `thread_pool_queue` and `thread_pool_destroy`, whichever calls of the
library fail: nothing is initialised twice, used or destroyed when it is not there, and no
thread is joined twice; what is set up between two calls is a mutex, a condition variable and
the threads of the pool, or nothing if it has none. `thread_pool_init` returns with as many
threads as it was asked for, or throws and leaves the threads as they were; after
`thread_pool_destroy` nothing is left. -/
theorem pool_lifecycle (calls : List PoolCall) :
    Allowed {} (runPool {} calls).2 (runPool {} calls).1.pthreads ∧
    (∀ numThreads mutex cond creates, ∃ tp pcalls result,
      poolInit numThreads mutex cond creates (runPool {} calls).1 = (tp, pcalls, result) ∧
      (result = .returned → (runPool {} calls).1.threads = [] ∧ tp.threads.length = numThreads ∧ 0 < numThreads) ∧
      (result ≠ .returned → tp.threads = (runPool {} calls).1.threads)) ∧
    Allowed {} (runPool {} (calls ++ [.destroy])).2 {} := by
  refine ⟨runPool_spec calls {}, fun numThreads mutex cond creates => ?_, ?_⟩
  · obtain ⟨tp, pcalls, result, hinit, -, hend⟩ := poolInit_spec numThreads mutex cond creates (runPool {} calls).1
    exact ⟨tp, pcalls, result, hinit, hend⟩
  · have hlast := runPool_spec (calls ++ [.destroy]) {}
    rwa [PoolShell.pthreads, PoolShell.pthreads, runPool_destroy] at hlast

end ApexDB
