import Mathlib.Algebra.Order.Ring.Int

/-!
# `ThreadPool.lean` — the thread pool of `src/thread_pool.cpp`

The owning thread and the workers take steps in any order. **A step is one section under the
mutex**, or the end of a work, which runs outside of it; nothing else of a thread can be seen by
the others. A worker inside `pthread_cond_wait` takes no step: it goes on when the condition
variable is signalled, when it is broadcast, or for no reason at all (`spurious`), and then it
takes the lock and tests the condition again.

`pthread_cond_signal` unblocks at least one thread that waits, if there is one. Which ones is
not known, so the event says it.

A work is what `w.f(w.arg)` stands for, of any type. `ran` is not in the source: the works whose
function has returned.

The destructor is three things, and each is a step of its own: it sets `stopping` and
broadcasts, it joins the threads one by one, which it can only do with one that has returned,
and it returns. A `thread_pool_queue` after it has begun is a misuse and has no step.
-/

set_option autoImplicit false

namespace ApexDB

variable {α : Type}

/-- What a worker does: it is about to take the lock, it waits on `not_empty`, it runs a work,
or it has returned. -/
inductive Phase (α : Type) where
  | ready
  | waiting
  | running (w : α)
  | exited

/-- What the owning thread does: it uses the pool (`active`), it is in the loop of
`thread_pool_destroy` and has joined so many threads, or it has returned from it. -/
inductive Owner where
  | active
  | joining (k : Nat)
  | returned
  deriving DecidableEq

/-- `TheadPool`. A thread is what it is doing; which one it is, is its position. -/
structure TheadPool (α : Type) where
  threads : List (Phase α)
  queue : List α := []
  stopping : Bool := false
  owner : Owner := .active
  ran : List α := []

/-- `thread_pool_init`, or a pool that was not initialised when there are no threads. -/
def threadPoolInit (numThreads : Nat) : TheadPool α :=
  { threads := List.replicate numThreads .ready }

namespace Phase

def isWaiting : Phase α → Bool
  | waiting => true
  | _ => false

def isExited : Phase α → Bool
  | exited => true
  | _ => false

def work? : Phase α → Option α
  | running w => some w
  | _ => none

def wake : Phase α → Phase α
  | waiting => ready
  | p => p

end Phase

def TheadPool.inFlight (tp : TheadPool α) : List α := tp.threads.filterMap Phase.work?

inductive PoolEvent (α : Type) where
  | queue (w : α) (woken : List Nat)
  | destroy
  | join
  | worker (i : Nat)
  | spurious (i : Nat)

def wakeThreads (woken : List Nat) (threads : List (Phase α)) : List (Phase α) :=
  threads.mapIdx fun i p => if i ∈ woken then p.wake else p

/-- A signal unblocks a thread if one waits: at least one of those named has to be waiting,
unless none is. -/
def signals (woken : List Nat) (threads : List (Phase α)) : Bool :=
  !threads.any Phase.isWaiting || woken.any fun i => (threads[i]?.map Phase.isWaiting).getD false

/-- `thread_pool_queue`: under the lock the work is appended, and the condition variable is
signalled. Without threads the work is run at once. -/
def threadPoolQueue (tp : TheadPool α) (w : α) (woken : List Nat) : Option (TheadPool α) :=
  if tp.owner ≠ .active then none
  else if tp.threads.isEmpty then some { tp with ran := tp.ran ++ [w] }
  else if signals woken tp.threads then
    some { tp with queue := tp.queue ++ [w], threads := wakeThreads woken tp.threads }
  else none

/-- `thread_pool_destroy` up to the loop. -/
def threadPoolDestroy (tp : TheadPool α) : Option (TheadPool α) :=
  if tp.owner ≠ .active then none
  else if tp.threads.isEmpty then some { tp with owner := .returned }
  else some { tp with stopping := true, threads := tp.threads.map Phase.wake, owner := .joining 0 }

/-- One `pthread_join` of that loop, or the end of it. -/
def threadPoolJoin (tp : TheadPool α) : Option (TheadPool α) :=
  match tp.owner with
  | .joining k =>
    match tp.threads[k]? with
    | some p => if p.isExited then some { tp with owner := .joining (k + 1) } else none
    | none => some { tp with owner := .returned }
  | _ => none

/-- The section of `worker` under the lock, from the test of the condition on: it waits, or it
returns because the pool stops and nothing is left, or it takes the first work. -/
def workerSection (tp : TheadPool α) (i : Nat) : Option (TheadPool α) :=
  if tp.queue.isEmpty ∧ !tp.stopping then some { tp with threads := tp.threads.set i .waiting }
  else if tp.queue.isEmpty ∧ tp.stopping then some { tp with threads := tp.threads.set i .exited }
  else do
    let w ← tp.queue.head?
    return { tp with queue := tp.queue.tail, threads := tp.threads.set i (.running w) }

/-- One step of thread `i` in `worker`: the section under the lock, or the end of `w.f(w.arg)`.
-/
def workerStep (tp : TheadPool α) (i : Nat) : Option (TheadPool α) :=
  match tp.threads[i]? with
  | some .ready => workerSection tp i
  | some (.running w) => some { tp with threads := tp.threads.set i .ready, ran := tp.ran ++ [w] }
  | _ => none

def TheadPool.step (tp : TheadPool α) : PoolEvent α → Option (TheadPool α)
  | .queue w woken => threadPoolQueue tp w woken
  | .destroy => threadPoolDestroy tp
  | .join => threadPoolJoin tp
  | .worker i => workerStep tp i
  | .spurious i =>
    match tp.threads[i]? with
    | some .waiting => some { tp with threads := tp.threads.set i .ready }
    | _ => none

/-- The works that the events queue. -/
def queuedWorks (evs : List (PoolEvent α)) : List α :=
  evs.filterMap fun
    | .queue w _ => some w
    | _ => none

end ApexDB
