import Wrensong.Lib.Linked
import Wrensong.Lib.Transition

/-!
# The thread pool

The queue is a linked list in a heap; the workers and the callers of `pool_wait` share a mutex and a condition variable. A
step is what one thread does between two points at which another one can come between. What happens under the mutex is one
step, but for the reads of `cancelled`, which `pool_end` writes without it: a thread that waits for the mutex, tests,
decides to sleep and sleeps does so in four steps.

A signal wakes one thread that sleeps on the condition variable, whichever it is; a thread may also wake without one.

A freed node keeps its contents. A step that follows a pointer to one is taken all the same and recorded in `dangling`.
`late` has the threads that used the pool when it was freed. What a caller of `pool_wait` does then has no meaning: it is lost
and takes no further step.
-/

namespace Wrensong.Threads

open Wrensong.Lib

/-- What `pool_enqueue` is given. -/
structure Task where
  arg : ℕ
  free : Bool
  deriving DecidableEq, Repr

/-- `struct pool_queue` -/
abbrev PoolQueue := Node Task

/-- A thread that uses the mutex. -/
inductive Thread
  | worker (w : ℕ)
  | waiter (c : ℕ)
  deriving DecidableEq, Repr

/-- Where a worker is in `thread`. -/
inductive Worker
  /-- before the test of the outer loop -/
  | top
  /-- before the first lock -/
  | locking
  /-- with the mutex, before the test of the inner loop -/
  | testing
  /-- with the mutex, about to call `pthread_cond_wait` -/
  | waiting
  | asleep
  /-- about to lock again in `pthread_cond_wait` -/
  | woken
  /-- with the mutex, behind the inner loop -/
  | checking
  /-- with the mutex, about to take the first node -/
  | taking
  /-- in `fn` -/
  | running (q : ℕ)
  /-- behind `fn` -/
  | freeing (q : ℕ)
  /-- before the second lock -/
  | finishing
  | exited
  deriving DecidableEq, Repr

/-- Where a caller of `pool_wait` is. -/
inductive Waiter
  | locking
  | testing
  | waiting
  | asleep
  | woken
  | returned
  /-- has used the pool when it was freed -/
  | lost
  deriving DecidableEq, Repr

/-- How far `pool_end` is. -/
inductive Ending
  | notCalled
  | cancelled
  | joining (i : ℕ)
  | draining
  | returned
  deriving DecidableEq, Repr

/-- `struct pool` -/
structure Pool where
  cancelled : Bool := false
  remaining : UInt32 := 0
  q : Option ℕ := none
  last : Option ℕ := none
  mutex : Option Thread := none
  nodes : Heap PoolQueue := {}
  workers : Heap Worker
  waiters : Heap Waiter := {}
  ending : Ending := .notCalled
  -- what happened so far; no step reads it
  taken : List ℕ := []
  done : List ℕ := []
  finished : ℕ := 0
  discarded : List ℕ := []
  freedNodes : List ℕ := []
  freedArgs : List ℕ := []
  dangling : List ℕ := []
  late : List Thread := []
  deriving DecidableEq, Repr

/-- `pool_start` -/
def poolStart (threads : ℕ) : Pool := { workers := ⟨List.replicate threads .top⟩ }

/-- Follows the pointer to a node. -/
def Pool.deref (p : Pool) (q : ℕ) : Pool :=
  { p with dangling := p.dangling ++ if q ∈ p.freedNodes then [q] else [] }

/-- `if (q->free) free(q->arg); free(q);` -/
def Pool.freeNode (p : Pool) (q : ℕ) (task : Task) : Pool :=
  { p.deref q with freedArgs := p.freedArgs ++ (if task.free then [task.arg] else []), freedNodes := p.freedNodes ++ [q] }

/-- A worker goes on. -/
def Pool.setWorker (p : Pool) (w : ℕ) (pc : Worker) : Pool := { p with workers := p.workers.put w pc }

/-- A caller of `pool_wait` goes on. -/
def Pool.setWaiter (p : Pool) (c : ℕ) (pc : Waiter) : Pool := { p with waiters := p.waiters.put c pc }

/-! ### The condition variable -/

def Worker.wake : Worker → Worker
  | .asleep => .woken
  | pc => pc

def Waiter.wake : Waiter → Waiter
  | .asleep => .woken
  | pc => pc

/-- `pthread_cond_broadcast` -/
def Pool.broadcast (p : Pool) : Pool := { p with workers := p.workers.map .wake, waiters := p.waiters.map .wake }

/-- A thread that sleeps wakes. -/
def Pool.wake (p : Pool) : Thread → Option Pool
  | .worker w => if p.workers.get? w = some .asleep then some (p.setWorker w .woken) else none
  | .waiter c => if p.waiters.get? c = some .asleep then some (p.setWaiter c .woken) else none

/-- `pthread_cond_signal`, which wakes the given thread, or none if none sleeps. -/
def Pool.signal (p : Pool) : Option Thread → Option Pool
  | some t => p.wake t
  | none => if .asleep ∈ p.workers.cells ∨ .asleep ∈ p.waiters.cells then none else some p

/-! ### The steps -/

/-- The workers are not joined yet. A caller may use the pool only until then. -/
def Ending.accepts : Ending → Bool
  | .notCalled | .cancelled | .joining _ => true
  | .draining | .returned => false

/-- `pool_enqueue`. The new node is at `p.nodes.next`. -/
def Pool.enqueue (p : Pool) (task : Task) (woken : Option Thread) : Option Pool :=
  if p.mutex = none ∧ p.ending.accepts = true then
    let q := p.nodes.next
    let nodes := p.nodes.alloc ⟨task, none⟩
    let p' := match p.last with
      | some e => { p.deref e with nodes := nodes.setNext e (some q) }
      | none => { p with nodes := nodes }
    Pool.signal { p' with
      q := if p.q = none then some q else p.q, last := some q, remaining := p.remaining + 1 } woken
  else none

/-- A worker takes the first node and unlocks. -/
def Pool.take (p : Pool) (w : ℕ) : Option Pool :=
  match p.q with
  | none => none
  | some q =>
    match p.nodes.get? q with
    | none => none
    | some node =>
      some { (p.deref q).setWorker w (.running q) with
        q := node.next, last := if some q = p.last then none else p.last, mutex := none, taken := p.taken ++ [q] }

/-- A step of `thread`. -/
def Pool.worker (p : Pool) (w : ℕ) : Option Pool :=
  match p.workers.get? w with
  | some .top => some (p.setWorker w (if p.cancelled then .exited else .locking))
  | some .locking | some .woken =>
    if p.mutex = none then some { p.setWorker w .testing with mutex := some (.worker w) } else none
  | some .testing => some (p.setWorker w (if p.cancelled = false ∧ p.q = none then .waiting else .checking))
  | some .waiting => some { p.setWorker w .asleep with mutex := none }
  | some .checking =>
    some (if p.cancelled then { p.setWorker w .exited with mutex := none } else p.setWorker w .taking)
  | some .taking => p.take w
  | some (.running q) => some { p.setWorker w (.freeing q) with done := p.done ++ [q] }
  | some (.freeing q) => (p.nodes.get? q).map fun node => (p.freeNode q node.value).setWorker w .finishing
  | some .finishing =>
    if p.mutex = none then
      some (Pool.broadcast { p.setWorker w .top with remaining := p.remaining - 1, finished := p.finished + 1 })
    else none
  | some .asleep | some .exited | none => none

/-- A step of `pool_wait`. -/
def Pool.waiter (p : Pool) (c : ℕ) : Option Pool :=
  match p.waiters.get? c with
  | some .locking | some .woken =>
    if p.mutex = none then some { p.setWaiter c .testing with mutex := some (.waiter c) } else none
  | some .testing =>
    some (if p.cancelled = false ∧ p.remaining ≠ 0 then p.setWaiter c .waiting
      else { p.setWaiter c .returned with mutex := none })
  | some .waiting => some { p.setWaiter c .asleep with mutex := none }
  | some .asleep | some .returned | some .lost | none => none

/-- A step of `pool_wait` on a pool that is freed. -/
def Pool.lose (p : Pool) (c : ℕ) : Option Pool :=
  match p.waiters.get? c with
  | some .locking | some .woken => some (p.setWaiter c .lost)
  | some .testing | some .waiting => some { p.setWaiter c .lost with mutex := none }
  | some .asleep | some .returned | some .lost | none => none

/-- A step of `pool_end`. -/
def Pool.endPool (p : Pool) : Option Pool :=
  match p.ending with
  | .notCalled => some { p with cancelled := true, ending := .cancelled }
  | .cancelled => if p.mutex = none then some { p.broadcast with ending := .joining 0 } else none
  | .joining i =>
    if i < p.workers.next then
      if p.workers.get? i = some .exited then some { p with ending := .joining (i + 1) } else none
    else some { p with ending := .draining }
  | .draining =>
    match p.q with
    | none => some { p with ending := .returned }
    | some q => (p.nodes.get? q).map fun node =>
      Pool.freeNode { p with q := node.next, discarded := p.discarded ++ [q] } q node.value
  | .returned => none

/-- Uses the pool. -/
def Pool.use (p : Pool) (t : Thread) : Pool :=
  { p with late := p.late ++ if p.ending = .returned then [t] else [] }

inductive Action
  | enqueue (task : Task) (woken : Option Thread)
  | wait
  | endPool
  | worker (w : ℕ)
  | waiter (c : ℕ)
  /-- A thread wakes without a signal. -/
  | spurious (t : Thread)
  deriving DecidableEq, Repr

def Pool.step (p : Pool) : Action → Option Pool
  | .enqueue task woken => p.enqueue task woken
  | .wait => if p.ending.accepts then some { p with waiters := p.waiters.alloc .locking } else none
  | .endPool => p.endPool
  | .worker w => (p.use (.worker w)).worker w
  | .waiter c => if p.ending = .returned then (p.use (.waiter c)).lose c else (p.use (.waiter c)).waiter c
  | .spurious t => p.wake t

/-- A run of the pool from its start. -/
def serve (threads : ℕ) (acts : List Action) : Option Pool := Transition.run Pool.step (poolStart threads) acts

end Wrensong.Threads
