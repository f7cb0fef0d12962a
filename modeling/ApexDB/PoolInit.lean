import Mathlib.Data.List.Basic

/-!
# `PoolInit.lean` — how the thread pool of `src/thread_pool.cpp` comes and goes

`ThreadPool.lean` has a pool that is there. Here are the calls of the pthread library that bring
it up and take it down: `thread_pool_init` with every call in it that may fail, and
`thread_pool_destroy`, which it uses itself when a thread cannot be created. A pool with no
threads is one that is not initialised; **nothing else in it says so**.

What a call of the library returns is an argument, and a call that fails has no effect. The
functions return the list of the calls that succeeded, in their order, so that it can be asked
of this list whether anything was initialised twice, used before it was there, or left behind.
-/

set_option autoImplicit false

namespace ApexDB

/-- A call of the pthread library that succeeds. `use` is the section of `thread_pool_queue`,
`stop` that of `thread_pool_destroy`. -/
inductive PthreadCall where
  | mutexInit
  | condInit
  | create (thread : Nat)
  | use
  | stop
  | join (thread : Nat)
  | condDestroy
  | mutexDestroy

/-- `TheadPool` without the queue. -/
structure PoolShell where
  threads : List Nat := []
  stopping : Bool := false

/-- How `thread_pool_init` ends: it returns, or it throws `std::invalid_argument` or
`std::system_error`. -/
inductive InitResult where
  | returned
  | invalidArgument
  | systemError
  deriving DecidableEq

/-- `thread_pool_destroy`. Without threads it returns at once; otherwise it joins them all, and
then destroys what `thread_pool_init` has made. -/
def poolDestroy (tp : PoolShell) : PoolShell × List PthreadCall :=
  if tp.threads.isEmpty then (tp, [])
  else ({ threads := [], stopping := true },
    .stop :: tp.threads.map PthreadCall.join ++ [.condDestroy, .mutexDestroy])

/-- The loop of `thread_pool_init`, for what `pthread_create` returns each time: a thread, or
`none` for an error. -/
def createThreads (tp : PoolShell) : Nat → List (Option Nat) → PoolShell × List PthreadCall × InitResult
  | 0, _ => (tp, [], .returned)
  | n + 1, some thread :: creates =>
    let (tp, calls, result) := createThreads { tp with threads := tp.threads ++ [thread] } n creates
    (tp, .create thread :: calls, result)
  | _ + 1, _ =>
    if tp.threads.isEmpty then (tp, [.condDestroy, .mutexDestroy], .systemError)
    else
      let (tp, calls) := poolDestroy tp
      (tp, calls, .systemError)

/-- `thread_pool_init`, with whether `pthread_mutex_init` and `pthread_cond_init` succeed. -/
def poolInit (numThreads : Nat) (mutex cond : Bool) (creates : List (Option Nat)) (tp : PoolShell) :
    PoolShell × List PthreadCall × InitResult :=
  if !tp.threads.isEmpty ∨ numThreads = 0 then (tp, [], .invalidArgument)
  else if !mutex then (tp, [], .systemError)
  else if !cond then (tp, [.mutexInit, .mutexDestroy], .systemError)
  else
    let (tp, calls, result) := createThreads { tp with stopping := false } numThreads creates
    (tp, .mutexInit :: .condInit :: calls, result)

inductive PoolCall where
  | init (numThreads : Nat) (mutex cond : Bool) (creates : List (Option Nat))
  | queue
  | destroy

/-- What it makes of the pool, and the calls in it. `thread_pool_queue` runs the work itself
when there are no threads. -/
def PoolCall.run (tp : PoolShell) : PoolCall → PoolShell × List PthreadCall
  | .init numThreads mutex cond creates =>
    let (tp, calls, _) := poolInit numThreads mutex cond creates tp
    (tp, calls)
  | .queue => (tp, if tp.threads.isEmpty then [] else [.use])
  | .destroy => poolDestroy tp

def runPool : PoolShell → List PoolCall → PoolShell × List PthreadCall
  | tp, [] => (tp, [])
  | tp, call :: rest => ((runPool (call.run tp).1 rest).1, (call.run tp).2 ++ (runPool (call.run tp).1 rest).2)

end ApexDB
